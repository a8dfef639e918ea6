import LenientMime.Proofs.Multipart.Walk

namespace LenientMime.Multipart

open Bytes

/-! Bodies put together from their parts.

Taking such a body apart gives the parts back.  It takes two things of a part: none
of its lines may look like a boundary line, and the line break that the writer puts
behind it must not join with its last byte.
-/

inductive LineBreak where
  | crlf
  | lf
deriving DecidableEq, Repr

def LineBreak.bytes : LineBreak → Bytes
  | crlf => [Byte.carriageReturn, Byte.lineFeed]
  | lf => [Byte.lineFeed]

structure ComposedPart where
  /-- What stands behind the boundary on the delimiter line. -/
  padding : Bytes
  opening : LineBreak
  content : Bytes
  closing : LineBreak
deriving DecidableEq, Repr

structure Composition where
  preamble : Bytes
  parts : List ComposedPart
  /-- What stands behind the last two dashes on the terminator line. -/
  tail : Bytes
  epilogue : Bytes
deriving DecidableEq, Repr

namespace ComposedPart

def delimiterLine (boundary : Text) (part : ComposedPart) : Bytes :=
  delimiter boundary ++ part.padding ++ part.opening.bytes

def body (boundary : Text) (part : ComposedPart) : Bytes :=
  part.delimiterLine boundary ++ (part.content ++ part.closing.bytes)

structure WellFormed (boundary : Text) (part : ComposedPart) : Prop where
  padded : ∀ byte ∈ part.padding, byte = Byte.space ∨ byte = Byte.tab
  clean : ∀ line ∈ lines part.content, isBoundaryLine boundary line = false
  separate : part.closing = .lf → part.content.getLast? ≠ some Byte.carriageReturn

end ComposedPart

namespace Composition

def terminatorLine (boundary : Text) (composition : Composition) : Bytes :=
  terminator boundary ++ composition.tail ++ [Byte.lineFeed]

def body (boundary : Text) (composition : Composition) : Bytes :=
  composition.preamble ++ (composition.parts.flatMap (ComposedPart.body boundary) ++
    (composition.terminatorLine boundary ++ composition.epilogue))

structure WellFormed (boundary : Text) (composition : Composition) : Prop where
  complete : Complete composition.preamble
  clean : ∀ line ∈ lines composition.preamble, isMarkedLine boundary line = false
  parts : ∀ part ∈ composition.parts, part.WellFormed boundary
  oneLine : Byte.lineFeed ∉ composition.tail

end Composition

variable {boundary : Text}

theorem LineBreak.complete (lineBreak : LineBreak) (text : Bytes) :
    Complete (text ++ lineBreak.bytes) := by
  cases lineBreak <;> exact .inr (by simp [LineBreak.bytes])

/-- A line break is taken off again, unless it joined with what it was put behind. -/
theorem dropLineEnd_append {lineBreak : LineBreak} {content : Bytes}
    (separate : lineBreak = .lf → content.getLast? ≠ some Byte.carriageReturn) :
    dropLineEnd (content ++ lineBreak.bytes) = content := by
  induction content with
  | nil => cases lineBreak <;> rfl
  | cons byte rest ih =>
      have later : dropLineEnd (rest ++ lineBreak.bytes) = rest := by
        refine ih fun lf ends => separate lf ?_
        simp [List.getLast?_cons, ends]
      rw [List.cons_append, dropLineEnd_cons, later]
      · cases lineBreak <;> simp [LineBreak.bytes]
      · intro half same
        subst half
        cases lineBreak with
        | crlf =>
            have := congrArg List.length same
            simp [LineBreak.bytes] at this
        | lf =>
            obtain rfl : rest = [] := by simpa [LineBreak.bytes] using same
            exact separate rfl rfl

theorem endsDelimiter_of_append {inner : Bytes} (lineBreak : LineBreak)
    (ends : endsDelimiter (inner ++ lineBreak.bytes) = true) : endsDelimiter inner = true := by
  match inner with
  | [] => rfl
  | [byte] =>
      have spacing : Byte.isSpacing byte = true := by
        cases lineBreak <;>
          simpa +decide [LineBreak.bytes, endsDelimiter_cons_cons] using ends
      rw [endsDelimiter_of_spacing (by simp [List.isPrefixOf]), spacing]
  | first :: second :: rest =>
      simpa only [List.cons_append, endsDelimiter_cons_cons] using ends

theorem lines_lineBreak {text : Bytes} (lineBreak : LineBreak) (rest : Bytes)
    (unbroken : Byte.lineFeed ∉ text) :
    lines (text ++ lineBreak.bytes ++ rest) = (text ++ lineBreak.bytes) :: lines rest := by
  cases lineBreak with
  | crlf =>
      have longer : Byte.lineFeed ∉ text ++ [Byte.carriageReturn] := by
        simpa using ⟨unbroken, by decide⟩
      simpa [LineBreak.bytes] using lines_line rest longer
  | lf => simpa [LineBreak.bytes] using lines_line rest unbroken

theorem carriageReturn_not_mem_delimiter (returnFree : '\r' ∉ boundary) :
    Byte.carriageReturn ∉ delimiter boundary :=
  not_mem_delimiter (by decide) (by decide) returnFree

theorem delimiter_append_lineBreak {text rest : Bytes} {lineBreak : LineBreak}
    (lineFeedFree : '\n' ∉ boundary) (returnFree : '\r' ∉ boundary)
    (same : text ++ lineBreak.bytes = delimiter boundary ++ rest) :
    ∃ inner, text = delimiter boundary ++ inner ∧ rest = inner ++ lineBreak.bytes := by
  cases lineBreak with
  | crlf => exact append_of_absent (carriageReturn_not_mem_delimiter returnFree) same
  | lf => exact append_of_absent (lineFeed_not_mem_delimiter lineFeedFree) same

theorem lines_delimiterLine {part : ComposedPart} (lineFeedFree : '\n' ∉ boundary)
    (wellFormed : part.WellFormed boundary) (rest : Bytes) :
    lines (part.delimiterLine boundary ++ rest) = part.delimiterLine boundary :: lines rest := by
  have unpadded : Byte.lineFeed ∉ part.padding := by
    intro member
    rcases wellFormed.padded _ member with same | same <;> exact absurd same (by decide)
  refine lines_lineBreak part.opening rest ?_
  rw [List.mem_append, not_or]
  exact ⟨lineFeed_not_mem_delimiter lineFeedFree, unpadded⟩

theorem clean_append {content : Bytes} (lineFeedFree : '\n' ∉ boundary)
    (returnFree : '\r' ∉ boundary) (lineBreak : LineBreak)
    (clean : ∀ line ∈ lines content, isBoundaryLine boundary line = false) :
    ∀ line ∈ lines (content ++ lineBreak.bytes), isBoundaryLine boundary line = false := by
  obtain ⟨whole, text, rfl, complete, unbroken⟩ := exists_complete_append content
  rw [lines_append _ complete] at clean
  have last : lines (text ++ lineBreak.bytes) = [text ++ lineBreak.bytes] := by
    simpa using lines_lineBreak lineBreak [] unbroken
  rw [List.append_assoc, lines_append _ complete, last]
  intro line member
  rcases List.mem_append.mp member with member | member
  · exact clean line (List.mem_append_left _ member)
  · obtain rfl := List.mem_singleton.mp member
    rw [Bool.eq_false_iff]
    intro isBoundary
    obtain ⟨rest, same, ends⟩ := isBoundaryLine_iff.mp isBoundary
    obtain ⟨inner, rfl, rfl⟩ := delimiter_append_lineBreak lineFeedFree returnFree same
    have nonempty : delimiter boundary ++ inner ≠ [] := by simp [delimiter]
    have plain := clean (delimiter boundary ++ inner)
      (List.mem_append_right _ (by rw [lines_unbroken unbroken nonempty]; simp))
    rw [isBoundaryLine_append, endsDelimiter_of_append lineBreak ends] at plain
    contradiction

theorem ComposedPart.WellFormed.exists_spacing {part : ComposedPart}
    (wellFormed : part.WellFormed boundary) :
    ∃ byte rest, part.delimiterLine boundary = delimiter boundary ++ byte :: rest ∧
      Byte.isSpacing byte = true := by
  rw [delimiterLine, List.append_assoc]
  cases padding : part.padding with
  | nil => cases part.opening <;> exact ⟨_, _, rfl, rfl⟩
  | cons byte rest =>
      refine ⟨byte, rest ++ part.opening.bytes, rfl, ?_⟩
      rcases wellFormed.padded byte (by simp [padding]) with rfl | rfl <;> rfl

theorem ComposedPart.WellFormed.opens {part : ComposedPart}
    (wellFormed : part.WellFormed boundary) :
    isBoundaryLine boundary (part.delimiterLine boundary) = true ∧
      isTerminatorLine boundary (part.delimiterLine boundary) = false ∧
      (part.delimiterLine boundary).getLast? = some Byte.lineFeed := by
  obtain ⟨byte, rest, same, spacing⟩ := wellFormed.exists_spacing
  have distinct : Byte.dash ≠ byte := by
    intro same
    subst same
    exact absurd spacing (by decide)
  refine ⟨?_, ?_, ?_⟩
  · rw [same, isBoundaryLine_append]
    unfold endsDelimiter
    split <;> simp_all
  · rw [same, Bool.eq_false_iff]
    intro terminates
    have dashes := (List.prefix_append_right_inj _).mp (List.isPrefixOf_iff_prefix.mp terminates)
    exact distinct (List.cons_prefix_cons.mp dashes).1
  · rw [delimiterLine]
    cases part.opening <;> simp [LineBreak.bytes]

theorem isTerminatorLine_terminatorLine (boundary : Text) (composition : Composition) :
    isTerminatorLine boundary (composition.terminatorLine boundary) = true := by
  rw [Composition.terminatorLine, List.append_assoc]
  exact List.isPrefixOf_iff_prefix.mpr (List.prefix_append _ _)

theorem lines_terminatorLine {composition : Composition} (lineFeedFree : '\n' ∉ boundary)
    (oneLine : Byte.lineFeed ∉ composition.tail) (rest : Bytes) :
    lines (composition.terminatorLine boundary ++ rest) =
      composition.terminatorLine boundary :: lines rest := by
  have unbroken : Byte.lineFeed ∉ terminator boundary ++ composition.tail := by
    simpa [terminator, oneLine, lineFeed_not_mem_delimiter lineFeedFree] using by decide
  simpa [Composition.terminatorLine] using lines_line rest unbroken

theorem ofLines_parts {composition : Composition} (lineFeedFree : '\n' ∉ boundary)
    (returnFree : '\r' ∉ boundary) (oneLine : Byte.lineFeed ∉ composition.tail)
    (parts : List ComposedPart) (wellFormed : ∀ part ∈ parts, part.WellFormed boundary) :
    ∃ line later,
      lines (parts.flatMap (ComposedPart.body boundary) ++
        (composition.terminatorLine boundary ++ composition.epilogue)) = line :: later ∧
      isBoundaryLine boundary line = true ∧
      Split.ofLines boundary (line :: later) =
        { contents := parts.map ComposedPart.content
          truncated := false
          epilogue := composition.epilogue } := by
  induction parts with
  | nil =>
      have terminates := isTerminatorLine_terminatorLine boundary composition
      have isBoundary := isBoundaryLine_of_isTerminatorLine terminates
      refine ⟨_, _, lines_terminatorLine lineFeedFree oneLine _, isBoundary, ?_⟩
      rw [Split.ofLines_cons (linesFrom_cons _ isBoundary), if_pos terminates, flatten_lines]
      rfl
  | cons part parts ih =>
      obtain ⟨here, others⟩ := List.forall_mem_cons.mp wellFormed
      obtain ⟨line, later, cut, opens, split⟩ := ih others
      obtain ⟨isBoundary, goesOn, closed⟩ := here.opens
      have plain := clean_append lineFeedFree returnFree part.closing here.clean
      refine ⟨part.delimiterLine boundary,
        lines (part.content ++ part.closing.bytes) ++ line :: later, ?_, isBoundary, ?_⟩
      · rw [List.flatMap_cons, ComposedPart.body, List.append_assoc, List.append_assoc,
          lines_delimiterLine lineFeedFree here, lines_append _ (part.closing.complete _), cut]
      · rw [Split.ofLines_cons (linesFrom_cons _ isBoundary), if_neg (by simp [goesOn]),
          if_pos (by simp [closed]), contentOf_append later plain opens, flatten_lines,
          dropLineEnd_append here.separate, Split.ofLines_congr (linesFrom_append _ plain), split]
        rfl

theorem ofBody_composition {composition : Composition} (lineFeedFree : '\n' ∉ boundary)
    (returnFree : '\r' ∉ boundary) (wellFormed : composition.WellFormed boundary) :
    Split.ofBody boundary (composition.body boundary) =
      { contents := composition.parts.map ComposedPart.content
        truncated := false
        epilogue := composition.epilogue } := by
  obtain ⟨line, later, cut, -, split⟩ :=
    ofLines_parts lineFeedFree returnFree wellFormed.oneLine _ wellFormed.parts
  have plain (line : Bytes) (member : line ∈ lines composition.preamble) :
      isBoundaryLine boundary line = false := by
    rw [isBoundaryLine_of_closed lineFeedFree (closed_of_complete wellFormed.complete line member)]
    exact wellFormed.clean line member
  rw [Split.ofBody, Composition.body, lines_append _ wellFormed.complete, cut,
    Split.ofLines_congr (linesFrom_append _ plain), split]

/-- Walking a body that was put together from parts, with reads of any sizes, gives
the parts back in order and ends in front of the epilogue. -/
theorem walkBy_composition (boundary : Text) (lineFeedFree : '\n' ∉ boundary)
    (returnFree : '\r' ∉ boundary) (composition : Composition)
    (wellFormed : composition.WellFormed boundary) (sizes : Nat → Nat → Nat)
    (positive : ∀ part index, 0 < sizes part index) :
    ∃ reader : PartReader Bytes,
      PartReader.ofSource (composition.body boundary) boundary = .ok reader ∧
      reader.walkBy sizes =
        { contents := composition.parts.map ComposedPart.content
          error := none
          reader :=
            { source := composition.epilogue
              boundary
              scanned := []
              phase := .between
              partsRead := composition.parts.length
              finished := true
              unbounded := false } } := by
  refine ⟨{ source := composition.body boundary, boundary }, rfl, ?_⟩
  rw [PartReader.walkBy_ofBody boundary lineFeedFree _ sizes positive,
    ofBody_composition lineFeedFree returnFree wellFormed, PartReader.walked, Nat.zero_add,
    List.length_map]

/-- An empty part behind one that ends with an empty line. -/
def Composition.twoParts : Composition :=
  { preamble := Text.utf8 "p\n".toList
    parts :=
      [{ padding := [Byte.space], opening := .crlf, content := Text.utf8 "x\n".toList
         closing := .lf },
        { padding := [], opening := .lf, content := [], closing := .crlf }]
    tail := [Byte.tab]
    epilogue := Text.utf8 "--b".toList }

theorem walkBy_composition_twoParts :
    ('\n' ∉ "b".toList ∧ '\r' ∉ "b".toList ∧ Composition.twoParts.WellFormed "b".toList ∧
      ∀ _ index : Nat, 0 < index + 1) ∧
      ∃ reader : PartReader Bytes,
        PartReader.ofSource (Composition.twoParts.body "b".toList) "b".toList = .ok reader ∧
        (reader.walkBy fun _ index => index + 1) =
          { contents := [Text.utf8 "x\n".toList, []]
            error := none
            reader :=
              { source := Text.utf8 "--b".toList
                boundary := "b".toList
                scanned := []
                phase := .between
                partsRead := 2
                finished := true
                unbounded := false } } := by
  have lineFeedFree : '\n' ∉ "b".toList := by decide
  have returnFree : '\r' ∉ "b".toList := by decide
  have wellFormed : Composition.twoParts.WellFormed "b".toList := by
    refine ⟨.inr (by decide), by decide, ?_, by decide⟩
    intro part member
    simp only [Composition.twoParts, List.mem_cons, List.not_mem_nil, or_false] at member
    rcases member with rfl | rfl
    · exact ⟨by simp, by decide, by decide⟩
    · exact ⟨by simp, by decide, by decide⟩
  have positive (_ index : Nat) : 0 < index + 1 := Nat.succ_pos index
  exact ⟨⟨lineFeedFree, returnFree, wellFormed, positive⟩,
    walkBy_composition "b".toList lineFeedFree returnFree Composition.twoParts wellFormed
      (fun _ index => index + 1) positive⟩

end LenientMime.Multipart
