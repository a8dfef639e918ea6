import LenientMime.Error
import LenientMime.Multipart.Delimiter
import LenientMime.Stream.Lookahead

namespace LenientMime.Multipart

/-! Reading a multipart body part by part.

A part reader sits on a source with lookahead and hands out the content of one
part at a time.  Before the first part is opened it hands out the preamble.  It
never holds more than was asked for: content is recognised byte by byte, and the
reader stops in front of the line break that belongs to the next delimiter.
-/

inductive Phase where
  /-- Inside content.  At the very start of a part a delimiter needs no line break
  before it. -/
  | content (atStart : Bool)
  /-- Behind the content that was read, in front of a delimiter or of the end. -/
  | between
deriving DecidableEq, Repr

structure PartReader (σ : Type) where
  source : σ
  boundary : Text
  /-- Content that was taken from the source and not yet handed out. -/
  scanned : Bytes := []
  phase : Phase := .content false
  partsRead : Nat := 0
  finished : Bool := false
  /-- The source ended before a terminator line. -/
  unbounded : Bool := false
deriving DecidableEq, Repr

namespace PartReader

variable {σ : Type} [ByteSource σ]

/-- A reader over a source, if the source can be looked into far enough. -/
def ofSource (source : σ) (boundary : Text) : Except Error (PartReader σ) :=
  match ByteSource.capacity source with
  | some capacity =>
      if capacity < peekDepth boundary then
        .error (.windowTooSmall (peekDepth boundary) capacity)
      else .ok { source, boundary }
  | none => .ok { source, boundary }

/-- A reader over a stream, behind a window that is large enough for the boundary. -/
def ofStream {ρ : Type} [BlockReader ρ] (stream : ρ) (boundary : Text) :
    Except Error (PartReader (Lookahead ρ)) :=
  let capacity := max Lookahead.defaultCapacity (peekDepth boundary)
  ofSource (Lookahead.ofCapacity capacity stream) boundary

/-- Whether a delimiter starts at the reading position of a source. -/
def boundaryAhead (boundary : Text) (atStart : Bool) (source : σ) : Except Fault Bool × σ :=
  match ByteSource.peek 1 source with
  | (.error fault, source) => (.error fault, source)
  | (.ok window, source) =>
      match leadOf? atStart window with
      | none => (.ok false, source)
      | some lead =>
          let depth := lead.length + (delimiter boundary).length + 2
          match ByteSource.peek depth source with
          | (.error fault, source) => (.error fault, source)
          | (.ok window, source) => (.ok (showsDelimiter lead (delimiter boundary) window), source)

/-- Content found by scanning, the fault that stopped the scan if one did, and the
reader as it was left. -/
structure Scan (σ : Type) where
  bytes : Bytes
  fault : Option Fault
  reader : PartReader σ

def Scan.after (byte : UInt8) (later : Scan σ) : Scan σ :=
  { later with bytes := byte :: later.bytes }

/-- Takes up to `wanted` bytes of content from the source.  The scan stops early
at a delimiter and at the end of the source. -/
def scan : Nat → PartReader σ → Scan σ
  | 0, reader => { bytes := [], fault := none, reader }
  | wanted + 1, reader =>
      match reader.phase with
      | .between => { bytes := [], fault := none, reader }
      | .content atStart =>
          match boundaryAhead reader.boundary atStart reader.source with
          | (.error fault, source) =>
              { bytes := [], fault := some fault, reader := { reader with source } }
          | (.ok true, source) =>
              { bytes := [], fault := none, reader := { reader with source, phase := .between } }
          | (.ok false, source) =>
              match ByteSource.take source with
              | (.error fault, source) =>
                  { bytes := [], fault := some fault, reader := { reader with source } }
              | (.ok none, source) =>
                  { bytes := [], fault := none,
                    reader := { reader with source, phase := .between, unbounded := true } }
              | (.ok (some byte), source) =>
                  (scan wanted { reader with source, phase := .content false }).after byte

/-- One read of the open part.  A read that fails keeps the content it found for
the next one. -/
def read (limit : Nat) (reader : PartReader σ) : Except Fault Bytes × PartReader σ :=
  let found := scan (limit - reader.scanned.length) reader
  let held := reader.scanned ++ found.bytes
  match found.fault with
  | some fault => (.error fault, { found.reader with scanned := held })
  | none => (.ok (held.take limit), { found.reader with scanned := held.drop limit })

def extent (reader : PartReader σ) : Nat :=
  ByteSource.extent reader.source + reader.scanned.length

theorem extent_of_boundaryAhead {boundary : Text} {atStart found : Bool} {source after : σ}
    (looked : boundaryAhead boundary atStart source = (.ok found, after)) :
    ByteSource.extent after ≤ ByteSource.extent source := by
  simp only [boundaryAhead] at looked
  split at looked
  · simp at looked
  · next window first firstLook =>
    have firstBound := ByteSource.extent_of_peek firstLook
    split at looked
    · obtain ⟨-, rfl⟩ := by simpa using looked
      exact firstBound
    · split at looked
      · simp at looked
      · next second secondLook =>
        obtain ⟨-, rfl⟩ := by simpa using looked
        exact Nat.le_trans (ByteSource.extent_of_peek secondLook) firstBound

theorem boundaryAhead_steady {boundary : Text} {atStart : Bool} {source after : σ} :
    boundaryAhead boundary atStart source ≠ (.error .interrupted, after) := by
  intro looked
  simp only [boundaryAhead] at looked
  split at looked
  · next fault first firstLook =>
    obtain ⟨rfl, rfl⟩ := by simpa using looked
    exact ByteSource.peek_steady firstLook
  · split at looked
    · simp at looked
    · split at looked
      · next fault second secondLook =>
        obtain ⟨rfl, rfl⟩ := by simpa using looked
        exact ByteSource.peek_steady secondLook
      · simp at looked

theorem extent_of_scan {wanted : Nat} {reader : PartReader σ}
    (unfailing : (scan wanted reader).fault = none) :
    ByteSource.extent (scan wanted reader).reader.source + (scan wanted reader).bytes.length ≤
      ByteSource.extent reader.source := by
  fun_induction scan wanted reader with
  | case1 => simp
  | case2 => simp
  | case3 => simp at unfailing
  | case4 _ _ _ _ source looked => simpa using extent_of_boundaryAhead looked
  | case5 => simp at unfailing
  | case6 _ _ _ _ _ looked after taken =>
      have := extent_of_boundaryAhead looked
      have := ByteSource.extent_of_end taken
      simp only [List.length_nil, Nat.add_zero]
      omega
  | case7 _ _ _ _ _ looked byte after taken ih =>
      have := extent_of_boundaryAhead looked
      have := ByteSource.extent_of_take taken
      have := ih unfailing
      simp only [Scan.after, List.length_cons] at this ⊢
      omega

theorem scan_steady {wanted : Nat} {reader : PartReader σ} :
    (scan wanted reader).fault ≠ some .interrupted := by
  fun_induction scan wanted reader with
  | case1 => simp
  | case2 => simp
  | case3 _ _ _ _ fault source looked =>
      intro same
      obtain rfl := Option.some.inj same
      exact boundaryAhead_steady looked
  | case4 => simp
  | case5 _ _ _ _ _ _ fault source taken =>
      intro same
      obtain rfl := Option.some.inj same
      exact ByteSource.take_steady taken
  | case6 => simp
  | case7 _ _ _ _ _ _ _ _ _ ih => exact ih

theorem length_of_read {limit : Nat} {reader after : PartReader σ} {block : Bytes}
    (reading : reader.read limit = (.ok block, after)) : block.length ≤ limit := by
  simp only [read] at reading
  split at reading
  · simp at reading
  · obtain ⟨rfl, -⟩ := by simpa using reading
    simp only [List.length_take]
    omega

theorem extent_of_read {limit : Nat} {reader after : PartReader σ} {block : Bytes}
    (reading : reader.read limit = (.ok block, after)) :
    after.extent + block.length ≤ reader.extent := by
  simp only [read] at reading
  split at reading
  · simp at reading
  · next unfailing =>
    obtain ⟨rfl, rfl⟩ := by simpa using reading
    have := extent_of_scan unfailing
    simp only [extent, List.length_take, List.length_drop, List.length_append]
    omega

theorem read_steady {limit : Nat} {reader after : PartReader σ} :
    reader.read limit ≠ (.error .interrupted, after) := by
  intro reading
  simp only [read] at reading
  split at reading
  · next fault failing =>
    obtain ⟨rfl, -⟩ := by simpa using reading
    exact scan_steady failing
  · simp at reading

instance : BlockReader (PartReader σ) where
  read := read
  extent := extent
  length_of_read := length_of_read
  extent_of_read := extent_of_read
  extent_of_interruption reading := absurd reading read_steady

theorem extent_of_wholeLine (boundary : Text) {source after : σ} {line : Bytes}
    (taken : ByteSource.takeLine source = (.ok line, after))
    (whole : LineKind.of boundary line ≠ .truncated) :
    ByteSource.extent after < ByteSource.extent source := by
  have shrunk := ByteSource.extent_of_takeLine taken
  cases line with
  | nil => exact absurd (LineKind.of_nil boundary) whole
  | cons byte rest =>
      simp only [List.length_cons] at shrunk
      omega

/-- Takes lines until one opens a part or ends the body.  Blank lines are passed
over, and before the first part so are all others. -/
def openPart (reader : PartReader σ) : Except Error Bool × PartReader σ :=
  match _ : ByteSource.takeLine reader.source with
  | (.error fault, source) => (.error (.stream fault), { reader with source })
  | (.ok line, source) =>
      let reader' := { reader with source }
      match _ : LineKind.of reader.boundary line with
      | .blank => openPart reader'
      | .terminator => (.ok false, { reader' with finished := true })
      | .delimiter =>
          (.ok true, { reader' with partsRead := reader.partsRead + 1, phase := .content true })
      | .truncated => (.ok false, { reader' with finished := true, unbounded := true })
      | .text =>
          if reader.partsRead = 0 then openPart reader'
          else
            let shown := line.take ((delimiter reader.boundary).length + 3)
            (.error (.noTerminator (Utf8.decodeLossy (delimiter reader.boundary))
              (Utf8.decodeLossy shown)), { reader' with finished := true })
termination_by ByteSource.extent reader.source
decreasing_by
  all_goals exact extent_of_wholeLine reader.boundary ‹ByteSource.takeLine _ = _› (by simp [*])

/-- Moves on to the next part.  What is left of the open one is read away first.
The answer says whether there is a next part. -/
def next (reader : PartReader σ) : Except Error Bool × PartReader σ :=
  if reader.finished then (.ok false, reader)
  else if reader.partsRead = 0 then
    openPart { reader with phase := .between, scanned := [] }
  else
    match BlockReader.discard reader with
    | (some fault, reader) => (.error (.stream fault), reader)
    | (none, reader) => openPart { reader with phase := .between, scanned := [] }

end PartReader

end LenientMime.Multipart
