import LenientMime.Stream.BlockReader
import LenientMime.Stream.ByteSource

namespace LenientMime

/-! A window of lookahead over a stream read in blocks.

Bytes fetched from the stream wait in the window until they are consumed.  The
window never asks for more than it has room for, fetches again after an
interruption, and remembers the end of the stream once an empty block has shown
it.  A large read on an empty window goes past the window to the stream itself.
-/

/-- A stream in state `ρ` with the bytes fetched from it and not yet consumed. -/
structure Lookahead (ρ : Type) where
  inner : ρ
  window : Bytes := []
  capacity : Nat
  ended : Bool := false
deriving DecidableEq, Repr

namespace Lookahead

def defaultCapacity : Nat := 4096

/-- An empty window.  It holds one byte at least. -/
def ofCapacity {ρ : Type} (capacity : Nat) (inner : ρ) : Lookahead ρ :=
  { inner, capacity := max capacity 1 }

def ofStream {ρ : Type} (inner : ρ) : Lookahead ρ :=
  ofCapacity defaultCapacity inner

variable {ρ : Type} [BlockReader ρ]

/-- Fetches until the window holds `wanted` bytes or the stream has ended. -/
def fill (wanted : Nat) (view : Lookahead ρ) : Option Fault × Lookahead ρ :=
  if view.window.length < wanted && !view.ended then
    match _ : BlockReader.read (view.capacity - view.window.length) view.inner with
    | (.error .interrupted, inner) => fill wanted { view with inner }
    | (.error fault, inner) => (some fault, { view with inner })
    | (.ok [], inner) => (none, { view with inner, ended := true })
    | (.ok (byte :: block), inner) =>
        fill wanted { view with inner, window := view.window ++ byte :: block }
  else (none, view)
termination_by BlockReader.extent view.inner
decreasing_by
  · exact BlockReader.extent_of_interruption ‹_›
  · exact BlockReader.extent_lt_of_read ‹_›

def peek (depth : Nat) (view : Lookahead ρ) : Except Fault Bytes × Lookahead ρ :=
  if depth ≤ view.capacity then
    match view.fill depth with
    | (some fault, view) => (.error fault, view)
    | (none, view) => (.ok (view.window.take depth), view)
  else (.error (.peekTooDeep depth view.capacity), view)

def take (view : Lookahead ρ) : Except Fault (Option UInt8) × Lookahead ρ :=
  match view.fill 1 with
  | (some fault, view) => (.error fault, view)
  | (none, view) =>
      match view.window with
      | [] => (.ok none, view)
      | byte :: window => (.ok (some byte), { view with window })

def takeBlock (limit : Nat) (view : Lookahead ρ) : Bytes × Lookahead ρ :=
  (view.window.take limit, { view with window := view.window.drop limit })

/-- One read.  Waiting bytes come first and are not topped up.  With none waiting,
a read at least as large as the window is passed on to the stream. -/
def read (limit : Nat) (view : Lookahead ρ) : Except Fault Bytes × Lookahead ρ :=
  if view.window.isEmpty then
    if view.capacity ≤ limit then
      match BlockReader.read limit view.inner with
      | (result, inner) => (result, { view with inner })
    else
      match view.fill 1 with
      | (some fault, view) => (.error fault, view)
      | (none, view) =>
          let (block, view) := view.takeBlock limit
          (.ok block, view)
  else
    let (block, view) := view.takeBlock limit
    (.ok block, view)

def extent (view : Lookahead ρ) : Nat :=
  BlockReader.extent view.inner + view.window.length

theorem extent_of_fill {wanted : Nat} {view after : Lookahead ρ}
    (filled : view.fill wanted = (none, after)) : after.extent ≤ view.extent := by
  fun_induction fill wanted view with
  | case1 view _ inner reading ih =>
      have shrunk := BlockReader.extent_of_interruption reading
      have := ih filled
      simp only [extent] at this ⊢
      omega
  | case2 => simp at filled
  | case3 view _ inner reading =>
      obtain rfl := by simpa using filled
      have := BlockReader.extent_of_read reading
      simpa [extent] using this
  | case4 view _ byte block inner reading ih =>
      have delivered := BlockReader.extent_of_read reading
      have := ih filled
      simp only [extent, List.length_append] at this ⊢
      omega
  | case5 =>
      obtain rfl := by simpa using filled
      exact Nat.le_refl _

theorem fill_steady {wanted : Nat} {view after : Lookahead ρ} :
    view.fill wanted ≠ (some .interrupted, after) := by
  fun_induction fill wanted view with
  | case1 _ _ _ _ ih => exact ih
  | case2 _ _ fault _ notInterruption =>
      intro equal
      exact notInterruption (by simpa using congrArg Prod.fst equal)
  | case3 => simp
  | case4 _ _ _ _ _ _ ih => exact ih
  | case5 => simp

theorem extent_of_takeBlock (limit : Nat) (view : Lookahead ρ) :
    (view.takeBlock limit).2.extent + (view.takeBlock limit).1.length = view.extent := by
  simp only [takeBlock, extent, List.length_take, List.length_drop]
  omega

instance : BlockReader (Lookahead ρ) where
  read := read
  extent := extent
  length_of_read := by
    intro limit view after block reading
    simp only [read, takeBlock] at reading
    split at reading
    · split at reading
      · cases passed : BlockReader.read limit view.inner with
        | mk result inner =>
          obtain ⟨rfl, rfl⟩ := by simpa [passed] using reading
          exact BlockReader.length_of_read passed
      · split at reading
        · simp at reading
        · obtain ⟨rfl, -⟩ := by simpa using reading
          simp only [List.length_take]
          omega
    · obtain ⟨rfl, -⟩ := by simpa using reading
      simp only [List.length_take]
      omega
  extent_of_read := by
    intro limit view after block reading
    simp only [read] at reading
    split at reading
    · split at reading
      · cases passed : BlockReader.read limit view.inner with
        | mk result inner =>
          obtain ⟨rfl, rfl⟩ := by simpa [passed] using reading
          have := BlockReader.extent_of_read passed
          simp only [extent]
          omega
      · split at reading
        · simp at reading
        · next view' filled =>
          obtain ⟨rfl, rfl⟩ := by simpa using reading
          have := extent_of_fill filled
          have := extent_of_takeBlock limit view'
          omega
    · obtain ⟨rfl, rfl⟩ := by simpa using reading
      have := extent_of_takeBlock limit view
      omega
  extent_of_interruption := by
    intro limit view after reading
    simp only [read] at reading
    split at reading
    · split at reading
      · cases passed : BlockReader.read limit view.inner with
        | mk result inner =>
          obtain ⟨rfl, rfl⟩ := by simpa [passed] using reading
          have := BlockReader.extent_of_interruption passed
          simp only [extent]
          omega
      · split at reading
        · next fault view' filled =>
          obtain ⟨rfl, rfl⟩ := by simpa using reading
          exact absurd filled fill_steady
        · simp at reading
    · simp at reading

theorem extent_of_peek {depth : Nat} {view after : Lookahead ρ} {window : Bytes}
    (looking : view.peek depth = (.ok window, after)) : after.extent ≤ view.extent := by
  simp only [peek] at looking
  split at looking
  · split at looking
    · simp at looking
    · next view' filled =>
      obtain ⟨-, rfl⟩ := by simpa using looking
      exact extent_of_fill filled
  · simp at looking

theorem extent_of_take {view after : Lookahead ρ} {byte : UInt8}
    (taking : view.take = (.ok (some byte), after)) : after.extent < view.extent := by
  simp only [take] at taking
  split at taking
  · simp at taking
  · next view' filled =>
    have := extent_of_fill filled
    split at taking
    · simp at taking
    · next first rest held =>
      obtain ⟨-, rfl⟩ := by simpa using taking
      simp only [extent, held, List.length_cons] at this ⊢
      omega

theorem extent_of_end {view after : Lookahead ρ} (taking : view.take = (.ok none, after)) :
    after.extent ≤ view.extent := by
  simp only [take] at taking
  split at taking
  · simp at taking
  · next view' filled =>
    split at taking
    · obtain rfl := by simpa using taking
      exact extent_of_fill filled
    · simp at taking

theorem peek_steady {depth : Nat} {view after : Lookahead ρ} :
    view.peek depth ≠ (.error .interrupted, after) := by
  intro looking
  simp only [peek] at looking
  split at looking
  · split at looking
    · next fault view' filled =>
      obtain ⟨rfl, rfl⟩ := by simpa using looking
      exact fill_steady filled
    · simp at looking
  · simp at looking

theorem take_steady {view after : Lookahead ρ} : view.take ≠ (.error .interrupted, after) := by
  intro taking
  simp only [take] at taking
  split at taking
  · next fault view' filled =>
    obtain ⟨rfl, rfl⟩ := by simpa using taking
    exact fill_steady filled
  · split at taking <;> simp at taking

instance : ByteSource (Lookahead ρ) where
  peek := peek
  take := take
  capacity view := some view.capacity
  extent := extent
  extent_of_peek := extent_of_peek
  extent_of_take := extent_of_take
  extent_of_end := extent_of_end
  peek_steady := peek_steady
  take_steady := take_steady

end Lookahead

end LenientMime
