import LenientMime.Multipart.Delimiter
import LenientMime.Proofs.Multipart.Line
import LenientMime.Proofs.Text.Utf8

namespace LenientMime.Multipart

/-! Splitting a multipart body by its lines.

This is the meaning of a multipart body, said about whole lines.  A boundary line
opens a part or ends the body, and a part reaches up to the line break before the
next boundary line.  How bytes are looked at or fetched plays no role here.
-/

/-- What makes a line that starts with the delimiter a boundary line, when more of
the line follows. -/
def boundaryMarks : List Bytes :=
  [[Byte.space], [Byte.tab], [Byte.carriageReturn], [Byte.lineFeed], [Byte.dash, Byte.dash]]

def isMarkedLine (boundary : Text) (line : Bytes) : Bool :=
  boundaryMarks.any fun mark => (delimiter boundary ++ mark).isPrefixOf line

def isBoundaryLine (boundary : Text) (line : Bytes) : Bool :=
  line == delimiter boundary || isMarkedLine boundary line

def isTerminatorLine (boundary : Text) (line : Bytes) : Bool :=
  (delimiter boundary ++ [Byte.dash, Byte.dash]).isPrefixOf line

def linesBefore (boundary : Text) (lines : List Bytes) : List Bytes :=
  lines.takeWhile fun line => !isBoundaryLine boundary line

def linesFrom (boundary : Text) (lines : List Bytes) : List Bytes :=
  lines.dropWhile fun line => !isBoundaryLine boundary line

/-- The content of a part, from the lines behind the one that opened it. -/
def contentOf (boundary : Text) (lines : List Bytes) : Bytes :=
  match linesFrom boundary lines with
  | [] => lines.flatten
  | _ :: _ => Bytes.dropLineEnd (linesBefore boundary lines).flatten

structure Split where
  contents : List Bytes
  /-- The body ended before a terminator line. -/
  truncated : Bool
  /-- What follows the terminator line. -/
  epilogue : Bytes
deriving DecidableEq, Repr

def Split.after (content : Bytes) (later : Split) : Split :=
  { later with contents := content :: later.contents }

theorem length_linesFrom_le (boundary : Text) (lines : List Bytes) :
    (linesFrom boundary lines).length ≤ lines.length :=
  (List.dropWhile_sublist _).length_le

def Split.ofLines (boundary : Text) (lines : List Bytes) : Split :=
  match _ : linesFrom boundary lines with
  | [] => { contents := [], truncated := true, epilogue := [] }
  | line :: later =>
      if isTerminatorLine boundary line then
        { contents := [], truncated := false, epilogue := later.flatten }
      else if line.getLast? == some Byte.lineFeed then
        (ofLines boundary later).after (contentOf boundary later)
      else { contents := [], truncated := true, epilogue := [] }
termination_by lines.length
decreasing_by
  have bound := length_linesFrom_le boundary lines
  simp only [*, List.length_cons] at bound
  omega

/-- Takes a body apart. -/
def Split.ofBody (boundary : Text) (body : Bytes) : Split :=
  Split.ofLines boundary body.lines

variable {boundary : Text}

theorem not_mem_delimiter {byte : UInt8} (noDash : byte ≠ Byte.dash) (ascii : byte.toNat < 0x80)
    (free : Char.ofNat byte.toNat ∉ boundary) : byte ∉ delimiter boundary := by
  intro member
  simp only [delimiter, List.mem_cons] at member
  rcases member with same | same | inside
  · exact noDash same
  · exact noDash same
  · exact free (Text.mem_of_mem_utf8 inside ascii)

theorem lineFeed_not_mem_delimiter (unbroken : '\n' ∉ boundary) :
    Byte.lineFeed ∉ delimiter boundary :=
  not_mem_delimiter (by decide) (by decide) unbroken

theorem Split.ofLines_nil {lines : List Bytes}
    (found : linesFrom boundary lines = []) :
    Split.ofLines boundary lines = { contents := [], truncated := true, epilogue := [] } := by
  rw [Split.ofLines, found]

theorem Split.ofLines_cons {lines later : List Bytes} {line : Bytes}
    (found : linesFrom boundary lines = line :: later) :
    Split.ofLines boundary lines =
      if isTerminatorLine boundary line then
        { contents := [], truncated := false, epilogue := later.flatten }
      else if line.getLast? == some Byte.lineFeed then
        (Split.ofLines boundary later).after (contentOf boundary later)
      else { contents := [], truncated := true, epilogue := [] } := by
  rw [Split.ofLines, found]

theorem Split.ofLines_congr {lines others : List Bytes}
    (same : linesFrom boundary lines = linesFrom boundary others) :
    Split.ofLines boundary lines = Split.ofLines boundary others := by
  cases found : linesFrom boundary others with
  | nil => rw [Split.ofLines_nil found, Split.ofLines_nil (same.trans found)]
  | cons line later => rw [Split.ofLines_cons found, Split.ofLines_cons (same.trans found)]

theorem linesFrom_append {front : List Bytes} (back : List Bytes)
    (plain : ∀ line ∈ front, isBoundaryLine boundary line = false) :
    linesFrom boundary (front ++ back) = linesFrom boundary back :=
  List.dropWhile_append_of_pos fun line member => by rw [plain line member]; rfl

theorem linesBefore_append {front : List Bytes} (back : List Bytes)
    (plain : ∀ line ∈ front, isBoundaryLine boundary line = false) :
    linesBefore boundary (front ++ back) = front ++ linesBefore boundary back :=
  List.takeWhile_append_of_pos fun line member => by rw [plain line member]; rfl

theorem linesFrom_cons {line : Bytes} (later : List Bytes)
    (isBoundary : isBoundaryLine boundary line = true) :
    linesFrom boundary (line :: later) = line :: later := by
  simp [linesFrom, isBoundary]

theorem linesBefore_cons {line : Bytes} (later : List Bytes)
    (isBoundary : isBoundaryLine boundary line = true) :
    linesBefore boundary (line :: later) = [] := by
  simp [linesBefore, isBoundary]

theorem linesFrom_cons_of_plain {line : Bytes} (later : List Bytes)
    (plain : isBoundaryLine boundary line = false) :
    linesFrom boundary (line :: later) = linesFrom boundary later := by
  simp [linesFrom, plain]

theorem linesBefore_cons_of_plain {line : Bytes} (later : List Bytes)
    (plain : isBoundaryLine boundary line = false) :
    linesBefore boundary (line :: later) = line :: linesBefore boundary later := by
  simp [linesBefore, plain]

theorem contentOf_append {front : List Bytes} {line : Bytes} (later : List Bytes)
    (plain : ∀ line ∈ front, isBoundaryLine boundary line = false)
    (isBoundary : isBoundaryLine boundary line = true) :
    contentOf boundary (front ++ line :: later) = Bytes.dropLineEnd front.flatten := by
  simp only [contentOf, linesFrom_append _ plain, linesFrom_cons later isBoundary,
    linesBefore_append _ plain, linesBefore_cons later isBoundary, List.append_nil]

theorem endsDelimiter_cons_cons (first second : UInt8) (rest : Bytes) :
    endsDelimiter (first :: second :: rest) =
      (first == Byte.dash && second == Byte.dash || Byte.isSpacing first) := by
  unfold endsDelimiter
  split
  · contradiction
  · next same => simp_all
  · next distinct same =>
    obtain ⟨rfl, rfl⟩ := by simpa using same
    cases dashes : first == Byte.dash && second == Byte.dash with
    | false => simp
    | true =>
        obtain ⟨rfl, rfl⟩ := by simpa using dashes
        exact (distinct rest rfl rfl).elim

theorem endsDelimiter_of_mark {mark : Bytes} (rest : Bytes) (listed : mark ∈ boundaryMarks) :
    endsDelimiter (mark ++ rest) = true := by
  simp only [boundaryMarks, List.mem_cons, List.not_mem_nil, or_false] at listed
  rcases listed with rfl | rfl | rfl | rfl | rfl <;> rfl

theorem exists_mark_of_endsDelimiter {rest : Bytes} (ends : endsDelimiter rest = true)
    (nonempty : rest ≠ []) : ∃ mark ∈ boundaryMarks, mark <+: rest := by
  unfold endsDelimiter at ends
  split at ends
  · contradiction
  · next later => exact ⟨[Byte.dash, Byte.dash], by simp [boundaryMarks], later, rfl⟩
  · next byte later _ =>
    simp only [Byte.isSpacing, Bool.or_eq_true, beq_iff_eq] at ends
    refine ⟨[byte], ?_, later, rfl⟩
    rcases ends with ((rfl | rfl) | rfl) | rfl <;> simp [boundaryMarks]

/-- A boundary line is the delimiter with something behind it that ends a delimiter. -/
theorem isBoundaryLine_iff {line : Bytes} :
    isBoundaryLine boundary line = true ↔
      ∃ rest, line = delimiter boundary ++ rest ∧ endsDelimiter rest = true := by
  simp only [isBoundaryLine, isMarkedLine, Bool.or_eq_true, beq_iff_eq, List.any_eq_true,
    List.isPrefixOf_iff_prefix]
  constructor
  · intro shape
    rcases shape with rfl | ⟨mark, listed, rest, rfl⟩
    · exact ⟨[], by simp, rfl⟩
    · exact ⟨mark ++ rest, by simp, endsDelimiter_of_mark rest listed⟩
  · intro shape
    obtain ⟨rest, rfl, ends⟩ := shape
    by_cases nothing : rest = []
    · exact .inl (by simp [nothing])
    · obtain ⟨mark, listed, later, rfl⟩ := exists_mark_of_endsDelimiter ends nothing
      exact .inr ⟨mark, listed, later, by simp⟩

theorem isBoundaryLine_append (boundary : Text) (rest : Bytes) :
    isBoundaryLine boundary (delimiter boundary ++ rest) = endsDelimiter rest := by
  rw [Bool.eq_iff_iff, isBoundaryLine_iff]
  constructor
  · intro shape
    obtain ⟨other, same, ends⟩ := shape
    rwa [List.append_cancel_left same]
  · exact fun ends => ⟨rest, rfl, ends⟩

theorem endsDelimiter_append {rest : Bytes} (later : Bytes)
    (closed : rest.getLast? = some Byte.lineFeed) :
    endsDelimiter (rest ++ later) = endsDelimiter rest := by
  match rest with
  | [] => simp at closed
  | [byte] =>
      obtain rfl : byte = Byte.lineFeed := by simpa using closed
      rfl
  | first :: second :: rest =>
      simp only [List.cons_append, endsDelimiter_cons_cons]

theorem isBoundaryLine_of_closed (unbroken : '\n' ∉ boundary) {line : Bytes}
    (closed : line.getLast? = some Byte.lineFeed) :
    isBoundaryLine boundary line = isMarkedLine boundary line := by
  have distinct : line ≠ delimiter boundary := by
    intro same
    subst same
    exact lineFeed_not_mem_delimiter unbroken (List.mem_of_getLast? closed)
  rw [isBoundaryLine, beq_false_of_ne distinct, Bool.false_or]

end LenientMime.Multipart
