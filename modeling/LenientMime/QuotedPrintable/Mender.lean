import LenientMime.QuotedPrintable.Piece
import LenientMime.Stream.Lookahead

namespace LenientMime.QuotedPrintable

/-! Mending a quoted-printable stream.

A mender does to a stream what `mend` does to a text.  A spelling that does not fit
into a read waits for the next one.  A read that fails delivers nothing: what it
had spelled out is gone with it.
-/

structure Mender (ρ : Type) where
  source : Lookahead ρ
  /-- Bytes spelled out and not yet delivered. -/
  overflow : Bytes := []
  /-- Content on the line that is being written. -/
  lineLength : Nat := 0
deriving DecidableEq, Repr

/-- The next piece of a stream; none at its end.  A fault while looking at what
follows an equals sign comes after the equals sign was taken. -/
def takePiece {ρ : Type} [BlockReader ρ] (source : Lookahead ρ) :
    Except Fault (Option Piece) × Lookahead ρ :=
  match source.take with
  | (.error fault, source) => (.error fault, source)
  | (.ok none, source) => (.ok none, source)
  | (.ok (some byte), source) =>
      if byte == Byte.equals then
        match source.peek 2 with
        | (.error fault, source) => (.error fault, source)
        | (.ok ahead, source) =>
            let piece := Piece.ofEquals ahead
            (.ok (some piece), (source.takeBlock piece.extra).2)
      else (.ok (some (Piece.ofByte byte)), source)

namespace Mender

def ofStream {ρ : Type} (inner : ρ) : Mender ρ :=
  { source := Lookahead.ofStream inner }

variable {ρ : Type} [BlockReader ρ]

/-- Bytes spelled out, the fault that ended it if one did, and the mender as it was
left. -/
structure Gathered (ρ : Type) where
  bytes : Bytes
  fault : Option Fault
  mender : Mender ρ

def Gathered.after (bytes : Bytes) (later : Gathered ρ) : Gathered ρ :=
  { later with bytes := bytes ++ later.bytes }

/-- Spells pieces out until there are `room` bytes or the stream ends.  The last
piece may go past `room`. -/
def gather (room : Nat) (mender : Mender ρ) : Gathered ρ :=
  if room = 0 then { bytes := [], fault := none, mender }
  else
    match takePiece mender.source with
    | (.error fault, source) =>
        { bytes := [], fault := some fault, mender := { mender with source } }
    | (.ok none, source) => { bytes := [], fault := none, mender := { mender with source } }
    | (.ok (some piece), source) =>
        let placed := place mender.lineLength piece
        (gather (room - placed.1.length) { mender with source, lineLength := placed.2 }).after
          placed.1
termination_by room
decreasing_by
  have := length_place_pos mender.lineLength piece
  omega

/-- One read.  It is full unless the stream ends. -/
def read (limit : Nat) (mender : Mender ρ) : Except Fault Bytes × Mender ρ :=
  let gathered := gather (limit - mender.overflow.length) { mender with overflow := [] }
  let ready := mender.overflow ++ gathered.bytes
  match gathered.fault with
  | some fault => (.error fault, gathered.mender)
  | none => (.ok (ready.take limit), { gathered.mender with overflow := ready.drop limit })

/-- A byte of the stream becomes at most six: an escape and a soft line break. -/
def extent (mender : Mender ρ) : Nat :=
  6 * mender.source.extent + mender.overflow.length

theorem extent_of_takePiece {source after : Lookahead ρ} {piece : Piece}
    (taken : takePiece source = (.ok (some piece), after)) : after.extent < source.extent := by
  simp only [takePiece] at taken
  split at taken
  · simp at taken
  · simp at taken
  · next byte first taking =>
    have shrunk : first.extent < source.extent := Lookahead.extent_of_take taking
    split at taken
    · split at taken
      · simp at taken
      · next ahead second looking =>
        obtain ⟨-, rfl⟩ := by simpa using taken
        have : second.extent ≤ first.extent := Lookahead.extent_of_peek looking
        have := Lookahead.extent_of_takeBlock (Piece.ofEquals ahead).extra second
        omega
    · obtain ⟨-, rfl⟩ := by simpa using taken
      exact shrunk

theorem extent_of_takeNone {source after : Lookahead ρ}
    (taken : takePiece source = (.ok none, after)) : after.extent ≤ source.extent := by
  simp only [takePiece] at taken
  split at taken
  · simp at taken
  · next first taking =>
    obtain rfl := by simpa using taken
    exact Lookahead.extent_of_end taking
  · split at taken
    · split at taken <;> simp at taken
    · simp at taken

theorem takePiece_steady {source after : Lookahead ρ} :
    takePiece source ≠ (.error .interrupted, after) := by
  intro taken
  simp only [takePiece] at taken
  split at taken
  · next fault first taking =>
    obtain ⟨rfl, rfl⟩ := by simpa using taken
    exact Lookahead.take_steady taking
  · simp at taken
  · split at taken
    · split at taken
      · next fault second looking =>
        obtain ⟨rfl, rfl⟩ := by simpa using taken
        exact Lookahead.peek_steady looking
      · simp at taken
    · simp at taken

theorem extent_of_gather {room : Nat} {mender : Mender ρ}
    (unfailing : (gather room mender).fault = none) :
    6 * (gather room mender).mender.source.extent + (gather room mender).bytes.length ≤
      6 * mender.source.extent := by
  fun_induction gather room mender with
  | case1 => simp
  | case2 => simp at unfailing
  | case3 _ _ _ source taken =>
      have := extent_of_takeNone taken
      simp only [List.length_nil]
      omega
  | case4 _ mender _ piece source taken placed ih =>
      have := extent_of_takePiece taken
      have := length_place_le mender.lineLength piece
      have := ih unfailing
      simp only [Gathered.after, List.length_append, placed] at this ⊢
      omega

theorem gather_steady {room : Nat} {mender : Mender ρ} :
    (gather room mender).fault ≠ some .interrupted := by
  fun_induction gather room mender with
  | case1 => simp
  | case2 _ _ _ fault source taken =>
      intro same
      obtain rfl := Option.some.inj same
      exact takePiece_steady taken
  | case3 => simp
  | case4 _ _ _ _ _ _ _ ih => exact ih

instance : BlockReader (Mender ρ) where
  read := read
  extent := extent
  length_of_read := by
    intro limit mender after block reading
    simp only [read] at reading
    split at reading
    · simp at reading
    · obtain ⟨rfl, -⟩ := by simpa using reading
      simp only [List.length_take]
      omega
  extent_of_read := by
    intro limit mender after block reading
    simp only [read] at reading
    split at reading
    · simp at reading
    · next unfailing =>
      obtain ⟨rfl, rfl⟩ := by simpa using reading
      have := extent_of_gather unfailing
      simp only [extent, List.length_take, List.length_drop, List.length_append] at *
      omega
  extent_of_interruption := by
    intro limit mender after reading
    simp only [read] at reading
    split at reading
    · next fault failing =>
      obtain ⟨rfl, -⟩ := by simpa using reading
      exact absurd failing gather_steady
    · simp at reading

end Mender

end LenientMime.QuotedPrintable
