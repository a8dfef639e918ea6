import LenientMime.Proofs.Multipart.Opening

namespace LenientMime.Multipart.PartReader

open Bytes

section Steps

variable {σ : Type} [ByteSource σ]

/-- What was scanned before plays no part in a scan. -/
theorem scan_scanned (wanted : Nat) (reader : PartReader σ) (scanned : Bytes) :
    scan wanted { reader with scanned } =
      { scan wanted reader with reader := { (scan wanted reader).reader with scanned } } := by
  induction wanted generalizing reader with
  | zero => rfl
  | succ wanted ih =>
      simp only [scan]
      split
      · rfl
      · split
        · rfl
        · rfl
        · split
          · rfl
          · rfl
          · simp only [Scan.after, ih { reader with source := _, phase := .content false }]

theorem scan_between {wanted : Nat} {reader : PartReader σ} (behind : reader.phase = .between) :
    scan wanted reader = { bytes := [], fault := none, reader } := by
  cases wanted with
  | zero => rfl
  | succ wanted => simp only [scan, behind]

/-- What the reader makes of the next line. -/
theorem openPart_line {reader : PartReader σ} {line : Bytes} {source : σ}
    (taken : ByteSource.takeLine reader.source = (.ok line, source)) :
    reader.openPart =
      match LineKind.of reader.boundary line with
      | .blank => { reader with source }.openPart
      | .terminator => (.ok false, { reader with source, finished := true })
      | .delimiter =>
          (.ok true, { reader with
            source, partsRead := reader.partsRead + 1, phase := .content true })
      | .truncated => (.ok false, { reader with source, finished := true, unbounded := true })
      | .text =>
          if reader.partsRead = 0 then { reader with source }.openPart
          else
            (.error (.noTerminator (Utf8.decodeLossy (delimiter reader.boundary))
              (Utf8.decodeLossy (line.take ((delimiter reader.boundary).length + 3)))),
              { reader with source, finished := true }) := by
  rw [openPart, taken]
  dsimp only
  cases LineKind.of reader.boundary line <;> rfl

theorem openPart_opened {reader after : PartReader σ}
    (moved : reader.openPart = (.ok true, after)) :
    after.partsRead ≠ 0 ∧ after.finished = reader.finished := by
  fun_induction openPart reader with
  | case1 => simp at moved
  | case2 reader line source taken reader' kind ih => exact ih moved
  | case3 => simp at moved
  | case4 =>
      obtain rfl := by simpa using moved
      exact ⟨Nat.succ_ne_zero _, rfl⟩
  | case5 => simp at moved
  | case6 reader line source taken reader' kind early ih => exact ih moved
  | case7 => simp at moved

end Steps

section Memory

variable {reader other after : PartReader Bytes} {atStart : Bool}

theorem scan_delimiter (wanted : Nat) (inside : reader.phase = .content atStart)
    (starts : startsDelimiter reader.boundary atStart reader.source = true) :
    scan (wanted + 1) reader =
      { bytes := [], fault := none, reader := { reader with phase := .between } } := by
  simp only [scan, inside, boundaryAhead_slice, starts]

theorem scan_end (wanted : Nat) (inside : reader.phase = .content atStart)
    (nothing : reader.source = []) :
    scan (wanted + 1) reader =
      { bytes := [], fault := none
        reader := { reader with phase := .between, unbounded := true } } := by
  have goesOn : startsDelimiter reader.boundary atStart [] = false := rfl
  simp only [scan, inside, boundaryAhead_slice, nothing, goesOn, take_nil]

theorem scan_byte (wanted : Nat) (inside : reader.phase = .content atStart) {byte : UInt8}
    {rest : Bytes} (shown : reader.source = byte :: rest)
    (goesOn : startsDelimiter reader.boundary atStart reader.source = false) :
    scan (wanted + 1) reader =
      (scan wanted { reader with source := rest, phase := .content false }).after byte := by
  rw [shown] at goesOn
  simp only [scan, inside, boundaryAhead_slice, shown, goesOn, take_cons]

/-- A scan may be made in two. -/
theorem scan_add (first second : Nat) (reader : PartReader Bytes) :
    scan (first + second) reader =
      { bytes := (scan first reader).bytes ++ (scan second (scan first reader).reader).bytes
        fault := none
        reader := (scan second (scan first reader).reader).reader } := by
  induction first generalizing reader with
  | zero =>
      rw [Nat.zero_add]
      have unfailing := (scan_slice second reader).unfailing
      simp only [scan, List.nil_append]
      rw [← unfailing]
  | succ first ih =>
      rw [Nat.add_right_comm]
      cases inside : reader.phase with
      | between => simp only [scan_between inside, List.nil_append]
      | content atStart =>
          cases starts : startsDelimiter reader.boundary atStart reader.source with
          | true => simp only [scan_delimiter _ inside starts, scan_between, List.append_nil]
          | false =>
              cases shown : reader.source with
              | nil => simp only [scan_end _ inside shown, scan_between, List.append_nil]
              | cons byte rest =>
                  simp only [scan_byte _ inside shown starts, ih, Scan.after, List.cons_append]

theorem read_eq (limit : Nat) (reader : PartReader Bytes) :
    read limit reader =
      let found := scan (limit - reader.scanned.length) reader
      (.ok ((reader.scanned ++ found.bytes).take limit),
        { found.reader with scanned := (reader.scanned ++ found.bytes).drop limit }) := by
  simp only [read, (scan_slice _ reader).unfailing]

/-- A reader that was stopped in the middle of a read and kept what it had scanned. -/
def halted (count : Nat) (reader : PartReader Bytes) : PartReader Bytes :=
  { (scan count reader).reader with scanned := reader.scanned ++ (scan count reader).bytes }

theorem exhausted_halted (count : Nat) (reader : PartReader Bytes) :
    (reader.halted count).exhausted = reader.exhausted := by
  rw [halted, exhausted_scanned, (scan_slice count reader).sameEnd]

theorem remaining_halted (count : Nat) (reader : PartReader Bytes) :
    (reader.halted count).remaining = reader.remaining := by
  have nothingLost := (scan_slice count reader).nothingLost
  change reader.scanned ++ _ ++ (scan count reader).reader.unscanned = _
  rw [List.append_assoc, nothingLost, remaining]

/-- Reading again after a read that was stopped gives what the read would have given. -/
theorem read_halted {limit count : Nat} (bound : count ≤ limit - reader.scanned.length)
    (full : (scan count reader).bytes.length = count) :
    read limit (reader.halted count) = read limit reader := by
  obtain ⟨more, total⟩ := Nat.exists_eq_add_of_le bound
  have left : limit - (reader.scanned ++ (scan count reader).bytes).length = more := by
    rw [List.length_append, full]
    omega
  rw [read_eq, read_eq, total, scan_add]
  simp only [halted, left, scan_scanned, List.append_assoc]

/-- The reader in front of the lines between two parts, or at the front of the body. -/
def atLines (reader : PartReader Bytes) : PartReader Bytes :=
  if reader.partsRead = 0 then { reader with phase := .between, scanned := [] }
  else { reader.exhausted with phase := .between, scanned := [] }

theorem next_eq (reader : PartReader Bytes) :
    reader.next = if reader.finished then (.ok false, reader) else reader.atLines.openPart := by
  rw [next, atLines, discard_slice]
  split
  · rfl
  · split <;> rfl

/-- The reader passes over a line of this kind: over a blank one, and before the first part
over text. -/
def Passes (reader : PartReader Bytes) (line : Bytes) : Prop :=
  LineKind.of reader.boundary line = .blank ∨
    reader.partsRead = 0 ∧ LineKind.of reader.boundary line = .text

/-- The reader passes over whole lines until these bytes are left. -/
def PassesTo (reader : PartReader Bytes) (left : Bytes) : Prop :=
  ∃ passed, lines reader.source = passed ++ lines left ∧ ∀ line ∈ passed, reader.Passes line

theorem passesTo_source (reader : PartReader Bytes) : reader.PassesTo reader.source :=
  ⟨[], rfl, by simp⟩

theorem Passes.plain {line : Bytes} (unbroken : '\n' ∉ reader.boundary)
    (passes : reader.Passes line) : isBoundaryLine reader.boundary line = false := by
  rw [Bool.eq_false_iff]
  intro isBoundary
  have kind := LineKind.of_eq unbroken line
  simp only [isBlankLine_of_isBoundaryLine isBoundary, isBoundary, Bool.false_eq_true, if_false,
    if_true] at kind
  rw [Passes, kind] at passes
  split at passes
  · simp at passes
  · split at passes <;> simp at passes

/-- Lines from a boundary line on are not passed over. -/
theorem PassesTo.reaches {left tail : Bytes} (passes : reader.PassesTo left)
    (unbroken : '\n' ∉ reader.boundary) (opens : opensBoundary reader.boundary (lines tail) = true)
    (inside : lines tail <:+ lines reader.source) : tail <:+ left := by
  obtain ⟨passed, cut, each⟩ := passes
  obtain ⟨front, shown⟩ := inside
  suffices behind : lines tail <:+ lines left by
    simpa only [flatten_lines] using behind.flatten
  rcases List.append_eq_append_iff.mp (shown.trans cut) with ⟨more, rfl, same⟩ | ⟨more, -, same⟩
  · cases more with
    | nil => exact ⟨[], same⟩
    | cons line more =>
        rw [same] at opens
        have plain := (each line (by simp)).plain unbroken
        simp [opensBoundary, plain] at opens
  · exact ⟨more, same.symm⟩

theorem lines_of_takeLine {bytes line rest : Bytes}
    (taken : ByteSource.takeLine bytes = (.ok line, rest)) (nonempty : line ≠ []) :
    lines bytes = line :: lines rest := by
  rw [ByteSource.takeLine_slice] at taken
  cases cut : lines bytes with
  | nil =>
      rw [cut] at taken
      obtain ⟨rfl, -⟩ := by simpa using taken
      contradiction
  | cons first later =>
      rw [cut] at taken
      obtain ⟨rfl, rfl⟩ := by simpa using taken
      rw [(lines_eq_cons cut).1]

theorem PassesTo.cons {line rest left : Bytes}
    (taken : ByteSource.takeLine reader.source = (.ok line, rest)) (passes : reader.Passes line)
    (later : { reader with source := rest }.PassesTo left) : reader.PassesTo left := by
  obtain ⟨passed, cut, others⟩ := later
  have nonempty : line ≠ [] := by
    rintro rfl
    simp [Passes, LineKind.of_nil] at passes
  exact ⟨line :: passed, by rw [lines_of_takeLine taken nonempty, cut, List.cons_append],
    List.forall_mem_cons.mpr ⟨passes, others⟩⟩

theorem PassesTo.suffix {left : Bytes} (passes : reader.PassesTo left) :
    left <:+ reader.source := by
  obtain ⟨passed, cut, -⟩ := passes
  refine ⟨passed.flatten, ?_⟩
  rw [← flatten_lines left, ← List.flatten_append, ← cut, flatten_lines]

theorem exhausted_phase (reader : PartReader Bytes) : reader.exhausted.phase = .between := by
  obtain ⟨source, boundary, scanned, phase, partsRead, finished, unbounded⟩ := reader
  cases phase with
  | between => rfl
  | content atStart => rfl

theorem exhausted_boundary (reader : PartReader Bytes) :
    reader.exhausted.boundary = reader.boundary := by
  obtain ⟨source, boundary, scanned, phase, partsRead, finished, unbounded⟩ := reader
  cases phase <;> rfl

theorem exhausted_partsRead (reader : PartReader Bytes) :
    reader.exhausted.partsRead = reader.partsRead := by
  obtain ⟨source, boundary, scanned, phase, partsRead, finished, unbounded⟩ := reader
  cases phase <;> rfl

theorem exhausted_finished (reader : PartReader Bytes) :
    reader.exhausted.finished = reader.finished := by
  obtain ⟨source, boundary, scanned, phase, partsRead, finished, unbounded⟩ := reader
  cases phase <;> rfl

theorem atLines_finished (reader : PartReader Bytes) :
    reader.atLines.finished = reader.finished := by
  rw [atLines]
  split
  · rfl
  · exact exhausted_finished reader

theorem next_opened (moved : reader.next = (.ok true, after)) :
    after.partsRead ≠ 0 ∧ after.finished = false := by
  rw [next_eq] at moved
  split at moved
  · simp at moved
  · next goesOn =>
    obtain ⟨opened, same⟩ := openPart_opened moved
    exact ⟨opened, by simpa [same, atLines_finished] using goesOn⟩

section SameEnd

variable (samePlace : other.exhausted = reader.exhausted)
include samePlace

theorem boundary_of_exhausted : other.boundary = reader.boundary := by
  rw [← exhausted_boundary, samePlace, exhausted_boundary]

theorem partsRead_of_exhausted : other.partsRead = reader.partsRead := by
  rw [← exhausted_partsRead, samePlace, exhausted_partsRead]

theorem finished_of_exhausted : other.finished = reader.finished := by
  rw [← exhausted_finished, samePlace, exhausted_finished]

/-- Where the reader goes on behind an open part does not depend on how much of the part
was read. -/
theorem next_of_exhausted (opened : reader.partsRead ≠ 0) (goesOn : reader.finished = false) :
    other.next = reader.next := by
  rw [next_eq, next_eq, atLines, atLines, finished_of_exhausted samePlace, goesOn,
    partsRead_of_exhausted samePlace, samePlace, if_neg opened, if_neg opened]
  rfl

end SameEnd

end Memory

end LenientMime.Multipart.PartReader
