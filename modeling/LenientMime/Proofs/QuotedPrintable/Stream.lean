import LenientMime.Proofs.QuotedPrintable.Decoding
import LenientMime.Proofs.Stream.Lookahead
import LenientMime.Proofs.Stream.Schedule
import LenientMime.QuotedPrintable.Mender
import LenientMime.Text.Utf8

namespace LenientMime.QuotedPrintable

/-! A stream that is mended.

What a mender has still to deliver is what it has spelled out and what the pieces of its
stream will be laid out as.  Every read takes the front of that, as much as it is asked for,
so that the mended stream is the mended text however it is cut and however it is read.
-/

theorem ofEquals_take (rest : Bytes) : Piece.ofEquals (rest.take 2) = Piece.ofEquals rest := by
  match rest with
  | [] => rfl
  | [_] => rfl
  | high :: low :: later =>
      change Piece.ofEquals [high, low] = _
      by_cases isFeed : high = Byte.lineFeed
      · subst isFeed
        rfl
      · by_cases isBreak : high = Byte.carriageReturn ∧ low = Byte.lineFeed
        · obtain ⟨rfl, rfl⟩ := isBreak
          rfl
        · have noBreak := fun first second => isBreak ⟨first, second⟩
          rw [Piece.ofEquals.eq_3 high low [] isFeed noBreak,
            Piece.ofEquals.eq_3 high low later isFeed noBreak]

theorem extra_ofEquals_le (rest : Bytes) :
    (Piece.ofEquals rest).extra ≤ (rest.take 2).length := by
  have found := behindEquals_ofEquals rest
  generalize Piece.ofEquals rest = piece at found
  cases found <;> simp [Piece.extra]

theorem layOut_end (length : Nat) : layOut length (pieces []) = [] := by
  rw [pieces]
  rfl

section Taking

variable {ρ : Type} [BlockReader ρ] {account : ρ → Bytes → List Bytes → Prop}
  {source after : Lookahead ρ} {bytes : Bytes} {failures : List Bytes}

theorem takePiece_end (faithful : BlockReader.Faithful account)
    (holds : source.Holds account 2 bytes failures)
    (taken : takePiece source = (.ok none, after)) :
    bytes = [] ∧ after.Holds account 2 [] failures := by
  have window := Lookahead.faithful_holds faithful 2
  unfold takePiece at taken
  split at taken
  · simp at taken
  · next source' taking =>
    obtain rfl : source' = after := by simpa using taken
    exact window.ending holds taking
  · split at taken
    · split at taken <;> simp at taken
    · simp at taken

/-- The pieces of a stream are taken one by one. -/
theorem takePiece_piece (faithful : BlockReader.Faithful account) {piece : Piece}
    (holds : source.Holds account 2 bytes failures)
    (taken : takePiece source = (.ok (some piece), after)) :
    ∃ rest, pieces bytes = piece :: pieces rest ∧ after.Holds account 2 rest failures := by
  have window := Lookahead.faithful_holds faithful 2
  unfold takePiece at taken
  split at taken
  · simp at taken
  · simp at taken
  · next byte behind taking =>
    obtain ⟨rest, rfl, holdsBehind⟩ := window.byte holds taking
    split at taken
    · next equals =>
      obtain rfl : byte = Byte.equals := by simpa using equals
      split at taken
      · simp at taken
      · next ahead looked looking =>
        obtain ⟨rfl, rfl⟩ := by simpa using taken
        obtain ⟨rfl, shown, holdsLooked⟩ := holdsBehind.look faithful (Nat.le_refl 2) looking
        have enough : (Piece.ofEquals rest).extra ≤ looked.window.length := by
          have bound := extra_ofEquals_le rest
          rw [← shown, List.length_take] at bound
          omega
        rw [ofEquals_take]
        exact ⟨_, pieces_equals rest, holdsLooked.takeBlock enough⟩
    · next other =>
      obtain ⟨rfl, rfl⟩ := by simpa using taken
      exact ⟨rest, pieces_cons (by simpa using other) rest, holdsBehind⟩

/-- A failure strikes before anything is taken, or behind an equals sign, which is then gone. -/
theorem takePiece_failure (faithful : BlockReader.Faithful account) {fault : Fault}
    (holds : source.Holds account 2 bytes failures)
    (taken : takePiece source = (.error fault, after)) :
    ∃ place later, failures = place :: later ∧
      (source.take = (.error fault, after) ∧ after.Holds account 2 bytes later ∨
        ∃ rest, bytes = Byte.equals :: rest ∧ source.take.1 = .ok (some Byte.equals) ∧
          after.Holds account 2 rest later) := by
  have window := Lookahead.faithful_holds faithful 2
  unfold takePiece at taken
  split at taken
  · next failed =>
    obtain ⟨later, rfl, holdsAfter⟩ := window.takeFailure holds failed
    obtain ⟨rfl, rfl⟩ := by simpa using taken
    exact ⟨bytes, later, rfl, .inl ⟨failed, holdsAfter⟩⟩
  · simp at taken
  · next byte behind taking =>
    obtain ⟨rest, rfl, holdsBehind⟩ := window.byte holds taking
    split at taken
    · next equals =>
      obtain rfl : byte = Byte.equals := by simpa using equals
      split at taken
      · next failed =>
        obtain ⟨place, later, rfl, holdsAfter⟩ :=
          window.lookFailure holdsBehind (Nat.le_refl 2) failed
        obtain ⟨rfl, rfl⟩ := by simpa using taken
        exact ⟨place, later, rfl, .inr ⟨rest, rfl, by rw [taking], holdsAfter⟩⟩
      · simp at taken
    · simp at taken

end Taking

namespace Mender

variable {ρ : Type} [BlockReader ρ] {account : ρ → Bytes → List Bytes → Prop}

/-- What a mender has still to deliver, over a stream that does not fail. -/
def Delivers (account : ρ → Bytes → List Bytes → Prop) (mender : Mender ρ) (bytes : Bytes) : Prop :=
  ∃ unread, mender.source.Holds account 2 unread [] ∧
    bytes = mender.overflow ++ layOut mender.lineLength (pieces unread)

/-- What is gathered without a failure is the front of what the stream will be laid out as, and
all of it if there is room left. -/
theorem gather_layOut (faithful : BlockReader.Faithful account) {failures : List Bytes}
    (room : Nat) (mender : Mender ρ) :
    ∀ unread, mender.source.Holds account 2 unread failures → (gather room mender).fault = none →
      ∃ rest, (gather room mender).mender.source.Holds account 2 rest failures ∧
        layOut mender.lineLength (pieces unread) =
          (gather room mender).bytes ++
            layOut (gather room mender).mender.lineLength (pieces rest) ∧
        ((gather room mender).bytes.length < room → rest = []) := by
  fun_induction gather room mender with
  | case1 =>
      exact fun unread holds _ =>
        ⟨unread, holds, rfl, fun lacking => absurd lacking (Nat.not_lt_zero _)⟩
  | case2 =>
      intro _ _ unfailing
      cases unfailing
  | case3 _ _ _ source taken =>
      intro unread holds _
      obtain ⟨rfl, holdsAfter⟩ := takePiece_end faithful holds taken
      refine ⟨[], holdsAfter, ?_, fun _ => rfl⟩
      simp only [layOut_end, List.append_nil]
  | case4 room mender _ piece source taken placed ih =>
      intro unread holds unfailing
      obtain ⟨behind, cut, holdsAfter⟩ := takePiece_piece faithful holds taken
      obtain ⟨rest, holdsRest, laidOut, short⟩ := ih behind holdsAfter unfailing
      refine ⟨rest, holdsRest, ?_, fun lacking => short ?_⟩
      · rw [cut, layOut, laidOut]
        exact (List.append_assoc _ _ _).symm
      · simp only [Gathered.after, List.length_append] at lacking
        omega

theorem gather_unfailing (faithful : BlockReader.Faithful account) (room : Nat)
    (mender : Mender ρ) :
    ∀ unread, mender.source.Holds account 2 unread [] → (gather room mender).fault = none := by
  fun_induction gather room mender with
  | case1 => exact fun _ _ => rfl
  | case2 _ _ _ fault source taken =>
      intro unread holds
      obtain ⟨place, later, some, -⟩ := takePiece_failure faithful holds taken
      cases some
  | case3 => exact fun _ _ => rfl
  | case4 room mender _ piece source taken placed ih =>
      intro unread holds
      obtain ⟨behind, -, holdsAfter⟩ := takePiece_piece faithful holds taken
      exact ih behind holdsAfter

/-- What is still to come out of a mender whose stream has these bytes to give. -/
def due (mender : Mender ρ) (unread : Bytes) : Bytes :=
  mender.overflow ++ layOut mender.lineLength (pieces unread)

/-- A read that comes through takes the front of what is due, and only the end of the stream
leaves it short of what it was asked for. -/
theorem read_due (faithful : BlockReader.Faithful account) {mender after : Mender ρ}
    {limit : Nat} {block unread : Bytes} {failures : List Bytes}
    (holds : mender.source.Holds account 2 unread failures)
    (reading : mender.read limit = (.ok block, after)) :
    ∃ rest, after.source.Holds account 2 rest failures ∧
      block = (mender.due unread).take limit ∧ after.due rest = (mender.due unread).drop limit := by
  have gathers := gather_layOut faithful (limit - mender.overflow.length)
    { mender with overflow := [] } unread holds
  rw [Mender.read] at reading
  generalize gather (limit - mender.overflow.length) { mender with overflow := [] } = gathered
    at gathers reading
  cases failing : gathered.fault with
  | some fault => simp [failing] at reading
  | none =>
      obtain ⟨rest, holdsRest, laidOut, short⟩ := gathers failing
      simp only [failing] at reading
      obtain ⟨rfl, rfl⟩ := by simpa using reading
      have whole : mender.due unread =
          (mender.overflow ++ gathered.bytes) ++
            layOut gathered.mender.lineLength (pieces rest) := by
        rw [due, laidOut, List.append_assoc]
      refine ⟨rest, holdsRest, ?_⟩
      by_cases full : limit ≤ (mender.overflow ++ gathered.bytes).length
      · rw [whole, List.take_append_of_le_length full, List.drop_append_of_le_length full]
        exact ⟨rfl, rfl⟩
      · obtain rfl := short (by rw [List.length_append] at full; omega)
        rw [whole, due, layOut_end, List.append_nil, List.append_nil]
        exact ⟨rfl, rfl⟩

/-- Only the end of a stream leaves a read short of what it was asked for. -/
theorem prompt_delivers (faithful : BlockReader.Faithful account) :
    BlockReader.Prompt (Delivers account) := by
  rintro mender bytes limit ⟨unread, holds, rfl⟩
  cases reading : mender.read limit with
  | mk result after =>
      cases result with
      | error fault =>
          have unfailing := gather_unfailing faithful (limit - mender.overflow.length)
            { mender with overflow := [] } unread holds
          simp [Mender.read, unfailing] at reading
      | ok block =>
          obtain ⟨rest, holdsRest, rfl, left⟩ := read_due faithful holds reading
          exact ⟨after, reading, rest, holdsRest, left.symm⟩

/-- A stream that does not fail is mended as the bytes it holds are, in reads of any sizes. -/
theorem drainBy_ofStream (faithful : BlockReader.Faithful account) {sizes : Nat → Nat}
    (positive : ∀ index, 0 < sizes index) {stream : ρ} {bytes : Bytes}
    (held : account stream bytes []) :
    (BlockReader.drainBy sizes (ofStream stream)).fault = none ∧
      (BlockReader.drainBy sizes (ofStream stream)).bytes = mend bytes :=
  (prompt_delivers faithful).drainBy positive
    ⟨bytes, Lookahead.holds_ofCapacity held (by decide), rfl⟩

/-- What comes out of a mender stands for what went in. -/
theorem decode_drainBy {sizes : Nat → Nat} (positive : ∀ index, 0 < sizes index)
    (bytes : Bytes) :
    (BlockReader.drainBy sizes (ofStream bytes)).fault = none ∧
      decode (BlockReader.drainBy sizes (ofStream bytes)).bytes = decode bytes := by
  obtain ⟨unfailing, mended⟩ :=
    drainBy_ofStream BlockReader.faithful_inMemory positive ⟨rfl, rfl⟩
  exact ⟨unfailing, mended ▸ decode_mend bytes⟩

/-- Read byte by byte, over raw text, an equals sign in front of something else, an escape in
lower case, both soft line breaks and an equals sign at the end. -/
theorem decode_drainBy_sloppy :
    (∀ _ : Nat, 0 < 1) ∧
      (BlockReader.drainBy (fun _ => 1)
        (ofStream (Text.utf8 "café a=b=3d=\r\nc=\nd=".toList))).fault = none ∧
      decode (BlockReader.drainBy (fun _ => 1)
        (ofStream (Text.utf8 "café a=b=3d=\r\nc=\nd=".toList))).bytes =
          Text.utf8 "café a=b=cd=".toList := by
  have positive : ∀ _ : Nat, 0 < 1 := fun _ => Nat.one_pos
  obtain ⟨unfailing, kept⟩ :=
    decode_drainBy positive (Text.utf8 "café a=b=3d=\r\nc=\nd=".toList)
  exact ⟨positive, unfailing, kept.trans (by decide)⟩

end Mender

end LenientMime.QuotedPrintable
