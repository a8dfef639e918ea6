import LenientMime.Bytes
import LenientMime.Stream.Fault

namespace LenientMime

/-- A stream that can be looked into before it is consumed.  A look that shows fewer bytes than
were asked for has met the end.  Interruptions never come out of either operation. -/
class ByteSource (σ : Type) where
  /-- The next bytes, at most as many as asked for, without consuming them. -/
  peek : Nat → σ → Except Fault Bytes × σ
  take : σ → Except Fault (Option UInt8) × σ
  /-- The deepest look supported; none if every depth is. -/
  capacity : σ → Option Nat
  extent : σ → Nat
  extent_of_peek : ∀ {depth : Nat} {source after : σ} {window : Bytes},
    peek depth source = (.ok window, after) → extent after ≤ extent source
  extent_of_take : ∀ {source after : σ} {byte : UInt8},
    take source = (.ok (some byte), after) → extent after < extent source
  extent_of_end : ∀ {source after : σ},
    take source = (.ok none, after) → extent after ≤ extent source
  peek_steady : ∀ {depth : Nat} {source after : σ},
    peek depth source ≠ (.error .interrupted, after)
  take_steady : ∀ {source after : σ}, take source ≠ (.error .interrupted, after)

namespace ByteSource

variable {σ : Type} [ByteSource σ]

def canPeek (depth : Nat) (source : σ) : Bool :=
  match capacity source with
  | none => true
  | some limit => depth ≤ limit

/-- Takes bytes up to and including the next line feed.  The line is empty exactly
at the end of the source, and lacks its line feed if the source ends first. -/
def takeLine (source : σ) : Except Fault Bytes × σ :=
  match _ : take source with
  | (.error fault, after) => (.error fault, after)
  | (.ok none, after) => (.ok [], after)
  | (.ok (some byte), after) =>
      if byte == Byte.lineFeed then (.ok [byte], after)
      else match takeLine after with
        | (.ok line, rest) => (.ok (byte :: line), rest)
        | (.error fault, rest) => (.error fault, rest)
termination_by extent source
decreasing_by exact extent_of_take ‹_›

def takeAll (source : σ) : Bytes × Option Fault × σ :=
  match _ : take source with
  | (.error fault, after) => ([], some fault, after)
  | (.ok none, after) => ([], none, after)
  | (.ok (some byte), after) =>
      let (bytes, fault, rest) := takeAll after
      (byte :: bytes, fault, rest)
termination_by extent source
decreasing_by exact extent_of_take ‹_›

theorem extent_of_takeLine {source after : σ} {line : Bytes}
    (taken : takeLine source = (.ok line, after)) :
    extent after + line.length ≤ extent source := by
  fun_induction takeLine source generalizing line after with
  | case1 => simp at taken
  | case2 source after' taking =>
      obtain ⟨rfl, rfl⟩ := by simpa using taken
      simpa using extent_of_end taking
  | case3 source byte after' taking isLineFeed =>
      obtain ⟨rfl, rfl⟩ := by simpa using taken
      have := extent_of_take taking
      simp only [List.length_cons, List.length_nil]
      omega
  | case4 source byte after' taking notLineFeed line' rest remainder ih =>
      obtain ⟨rfl, rfl⟩ := by simpa using taken
      have := ih remainder
      have := extent_of_take taking
      simp only [List.length_cons]
      omega
  | case5 => simp at taken

end ByteSource

end LenientMime
