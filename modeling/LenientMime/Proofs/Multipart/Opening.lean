import LenientMime.Proofs.Multipart.Slice

namespace LenientMime.Multipart

open Bytes

/-- A line that is passed over between parts. -/
def isBlankLine (line : Bytes) : Bool :=
  line.head? == some Byte.carriageReturn || line.head? == some Byte.lineFeed

variable {boundary : Text} {line : Bytes}

theorem isBlankLine_of_isBoundaryLine (isBoundary : isBoundaryLine boundary line = true) :
    isBlankLine line = false := by
  obtain ⟨rest, rfl, -⟩ := isBoundaryLine_iff.mp isBoundary
  rfl

theorem isBoundaryLine_of_isTerminatorLine (ends : isTerminatorLine boundary line = true) :
    isBoundaryLine boundary line = true := by
  obtain ⟨rest, rfl⟩ := List.isPrefixOf_iff_prefix.mp ends
  rw [List.append_assoc]
  exact isBoundaryLine_iff.mpr ⟨_, rfl, rfl⟩

theorem endsDelimiter_of_spacing {byte : UInt8} {rest : Bytes}
    (noDashes : [Byte.dash, Byte.dash].isPrefixOf (byte :: rest) = false) :
    endsDelimiter (byte :: rest) = Byte.isSpacing byte := by
  cases rest with
  | nil =>
      unfold endsDelimiter
      split <;> simp_all
  | cons second rest =>
      have absent : (byte == Byte.dash && second == Byte.dash) = false := by
        simpa [List.isPrefixOf, Bool.beq_comm] using noDashes
      rw [endsDelimiter_cons_cons, absent, Bool.false_or]

/-- The kinds of lines, told apart by what boundary lines are. -/
theorem LineKind.of_eq (unbroken : '\n' ∉ boundary) (line : Bytes) :
    LineKind.of boundary line =
      if isBlankLine line then .blank
      else if isTerminatorLine boundary line then .terminator
      else if line.getLast? != some Byte.lineFeed then .truncated
      else if isBoundaryLine boundary line then .delimiter
      else .text := by
  change (if isBlankLine line then blank
    else if isTerminatorLine boundary line then .terminator else _) = _
  split
  · rfl
  · split
    · rfl
    · next goesOn =>
      split
      · rfl
      · next complete =>
        have closed : line.getLast? = some Byte.lineFeed := by simpa using complete
        cases found : (Multipart.delimiter boundary).isPrefixOf? line with
        | none =>
            have plain : isBoundaryLine boundary line = false := by
              rw [Bool.eq_false_iff]
              intro isBoundary
              obtain ⟨rest, rfl, -⟩ := isBoundaryLine_iff.mp isBoundary
              exact absurd (found.symm.trans (isPrefixOf?_append _ rest)) (by simp)
            simp only [plain, Bool.false_eq_true, if_false]
        | some rest =>
            obtain rfl := List.isPrefixOf?_eq_some_iff_append_eq.mp found
            rw [isBoundaryLine_append]
            cases rest with
            | nil =>
                rw [List.append_nil] at closed
                exact absurd (List.mem_of_getLast? closed) (lineFeed_not_mem_delimiter unbroken)
            | cons byte rest =>
                have noDashes : [Byte.dash, Byte.dash].isPrefixOf (byte :: rest) = false := by
                  rw [Bool.eq_false_iff]
                  intro dashes
                  exact goesOn (List.isPrefixOf_iff_prefix.mpr
                    ((List.prefix_append_right_inj _).mpr (List.isPrefixOf_iff_prefix.mp dashes)))
                simp only [endsDelimiter_of_spacing noDashes]

namespace PartReader

/-- What the next boundary line makes of a reader. -/
def opened (reader : PartReader Bytes) : Except Error Bool × PartReader Bytes :=
  match linesFrom reader.boundary (lines reader.source) with
  | [] => (.ok false, { reader with source := [], finished := true, unbounded := true })
  | line :: later =>
      let source := later.flatten
      if isTerminatorLine reader.boundary line then
        (.ok false, { reader with source, finished := true })
      else if line.getLast? == some Byte.lineFeed then
        (.ok true, { reader with
          source, partsRead := reader.partsRead + 1, phase := .content true })
      else (.ok false, { reader with source, finished := true, unbounded := true })

/-- Nothing but blank lines stands in the way of opening the next part. -/
def Passable (reader : PartReader Bytes) : Prop :=
  reader.partsRead = 0 ∨
    ∀ line ∈ linesBefore reader.boundary (lines reader.source), isBlankLine line = true

theorem opened_cons {reader : PartReader Bytes} {line : Bytes} {later : List Bytes}
    (cut : lines reader.source = line :: later)
    (plain : isBoundaryLine reader.boundary line = false) :
    reader.opened = { reader with source := later.flatten }.opened := by
  have kept := (lines_eq_cons cut).1
  simp only [opened, cut, linesFrom_cons_of_plain later plain, kept]

theorem Passable.cons {reader : PartReader Bytes} {line : Bytes} {later : List Bytes}
    (passable : reader.Passable) (cut : lines reader.source = line :: later)
    (plain : isBoundaryLine reader.boundary line = false) :
    { reader with source := later.flatten }.Passable ∧
      (reader.partsRead = 0 ∨ isBlankLine line = true) := by
  unfold Passable at *
  simp only [(lines_eq_cons cut).1]
  rw [cut, linesBefore_cons_of_plain later plain, List.forall_mem_cons] at passable
  exact ⟨passable.imp_right And.right, passable.imp_right And.left⟩

theorem takeLine_of_lines {bytes line : Bytes} {later : List Bytes}
    (cut : lines bytes = line :: later) :
    ByteSource.takeLine bytes = (.ok line, later.flatten) := by
  rw [ByteSource.takeLine_slice, cut]
  rfl

theorem openPart_boundaryLine {reader : PartReader Bytes} {line : Bytes} {later : List Bytes}
    (unbroken : '\n' ∉ reader.boundary) (cut : lines reader.source = line :: later)
    (isBoundary : isBoundaryLine reader.boundary line = true) :
    reader.openPart = reader.opened := by
  have kind := LineKind.of_eq unbroken line
  have notBlank := isBlankLine_of_isBoundaryLine isBoundary
  rw [openPart, takeLine_of_lines cut]
  dsimp only
  simp only [opened, cut, linesFrom_cons later isBoundary]
  by_cases terminates : isTerminatorLine reader.boundary line = true
  · simp only [notBlank, terminates, Bool.false_eq_true, if_false, if_true] at kind
    rw [kind]
    simp only [terminates, if_true]
  · by_cases closed : line.getLast? = some Byte.lineFeed
    · simp only [notBlank, terminates, closed, isBoundary, Bool.false_eq_true, if_false,
        if_true, bne_self_eq_false] at kind
      rw [kind]
      simp only [terminates, closed, Bool.false_eq_true, if_false, if_true, beq_self_eq_true]
    · simp only [notBlank, terminates, bne_iff_ne, ne_eq, closed, not_false_eq_true,
        Bool.false_eq_true, if_false, if_true] at kind
      rw [kind]
      simp only [terminates, closed, Bool.false_eq_true, if_false, beq_iff_eq]

theorem openPart_plainLine {reader : PartReader Bytes} {line : Bytes} {later : List Bytes}
    (unbroken : '\n' ∉ reader.boundary) (cut : lines reader.source = line :: later)
    (plain : isBoundaryLine reader.boundary line = false)
    (early : reader.partsRead = 0 ∨ isBlankLine line = true)
    (behind : { reader with source := later.flatten }.openPart =
      { reader with source := later.flatten }.opened) :
    reader.openPart = reader.opened := by
  have kind := LineKind.of_eq unbroken line
  have goesOn : isTerminatorLine reader.boundary line = false := by
    rw [Bool.eq_false_iff]
    intro terminates
    rw [isBoundaryLine_of_isTerminatorLine terminates] at plain
    contradiction
  rw [openPart, takeLine_of_lines cut]
  dsimp only
  rw [opened_cons cut plain]
  by_cases blank : isBlankLine line = true
  · simp only [blank, if_true] at kind
    rw [kind]
    exact behind
  · by_cases closed : line.getLast? = some Byte.lineFeed
    · simp only [blank, goesOn, closed, plain, Bool.false_eq_true, if_false,
        bne_self_eq_false] at kind
      rw [kind]
      exact (if_pos (early.resolve_right blank)).trans behind
    · simp only [blank, goesOn, bne_iff_ne, ne_eq, closed, not_false_eq_true,
        Bool.false_eq_true, if_false, if_true] at kind
      obtain rfl := eq_nil_of_openLine cut closed
      rw [kind]
      rfl

theorem openPart_slice (reader : PartReader Bytes) (unbroken : '\n' ∉ reader.boundary)
    (passable : reader.Passable) : reader.openPart = reader.opened := by
  generalize cut : lines reader.source = found
  induction found generalizing reader with
  | nil =>
      have taken : ByteSource.takeLine reader.source = (.ok [], []) := by
        rw [ByteSource.takeLine_slice, cut]
        rfl
      rw [openPart, taken]
      dsimp only
      rw [LineKind.of_nil]
      simp only [opened, cut, linesFrom, List.dropWhile_nil]
  | cons line later ih =>
      cases isBoundary : isBoundaryLine reader.boundary line with
      | true => exact openPart_boundaryLine unbroken cut isBoundary
      | false =>
          obtain ⟨passableLater, early⟩ := passable.cons cut isBoundary
          have behind := ih { reader with source := later.flatten } unbroken passableLater
            (lines_eq_cons cut).1
          exact openPart_plainLine unbroken cut isBoundary early behind

end PartReader

end LenientMime.Multipart
