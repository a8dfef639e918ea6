import LenientMime.Multipart.Walk
import LenientMime.Proofs.Multipart.Opening
import Mathlib.Data.List.DropRight

namespace LenientMime.Multipart

open Bytes

/-! Walking a body in memory.

The walk finds what the splitter finds, however the caller sizes its reads.  It is
followed from joint to joint: a joint is the place in front of a boundary line with
blank lines at most in between, or the front of the body.
-/

namespace PartReader

section Walk

variable {σ : Type} [ByteSource σ]

/-- Opens every part that is left and reads it to its end.  The schedule gives the
size of every read, for the first part opened `sizes 0`, for the next one
`sizes 1`, and so on. -/
def walkBy (sizes : Nat → Nat → Nat) (reader : PartReader σ) : Walk σ :=
  match _ : reader.next with
  | (.error error, reader) => { contents := [], error := some error, reader }
  | (.ok false, reader) => { contents := [], error := none, reader }
  | (.ok true, opened) =>
      let part := BlockReader.drainBy (sizes 0) opened
      match _ : part.fault with
      | some fault =>
          { contents := [part.bytes], error := some (.stream fault), reader := part.stream }
      | none => (walkBy (fun index => sizes (index + 1)) part.stream).after part.bytes
termination_by reader.extent
decreasing_by
  exact Nat.lt_of_le_of_lt (BlockReader.extent_of_drainBy ‹_›) (extent_of_next ‹_›)

theorem walk_eq_walkBy (reader : PartReader σ) :
    reader.walk = reader.walkBy fun _ _ => BlockReader.discardBlock := by
  fun_induction walk reader with
  | case1 _ _ _ moved => rw [walkBy, moved]
  | case2 _ _ moved => rw [walkBy, moved]
  | case3 _ _ moved part fault failing =>
      simp only [part, BlockReader.drain_eq_drainBy] at failing ⊢
      rw [walkBy, moved]
      dsimp only
      rw [failing]
  | case4 _ _ moved part unfailing ih =>
      simp only [part, BlockReader.drain_eq_drainBy] at unfailing ih ⊢
      rw [walkBy, moved, ih]
      dsimp only
      rw [unfailing]

theorem walkBy_stopped (sizes : Nat → Nat → Nat) {reader after : PartReader σ}
    (moved : reader.next = (.ok false, after)) :
    reader.walkBy sizes = { contents := [], error := none, reader := after } := by
  rw [walkBy, moved]

theorem walkBy_opened {sizes : Nat → Nat → Nat} {reader opened after : PartReader σ}
    {content : Bytes} (moved : reader.next = (.ok true, opened))
    (drained : BlockReader.drainBy (sizes 0) opened =
      { bytes := content, fault := none, stream := after }) :
    reader.walkBy sizes = (after.walkBy fun index => sizes (index + 1)).after content := by
  rw [walkBy, moved]
  dsimp only
  rw [drained]

end Walk

variable {boundary : Text}

/-- A reader in front of a boundary line: either behind a part that was read to its
end, or at the front of the body. -/
structure AtJoint (reader : PartReader Bytes) : Prop where
  openEnded : reader.finished = false
  passable : reader.Passable
  ready : reader.partsRead = 0 ∨ reader.phase = .between ∧ reader.scanned = []
  unboundedAtEnd : reader.unbounded = true → reader.source = []

theorem next_slice {reader : PartReader Bytes} (unbroken : '\n' ∉ reader.boundary)
    (joint : reader.AtJoint) :
    reader.next = { reader with phase := .between, scanned := [] }.opened := by
  have opening := openPart_slice { reader with phase := .between, scanned := [] } unbroken
    joint.passable
  rw [next, if_neg (Bool.eq_false_iff.mp joint.openEnded)]
  split
  · exact opening
  · next some =>
    obtain ⟨between, drained⟩ := joint.ready.resolve_left some
    rw [discard_slice, (exhausted_between between).1]
    exact opening

theorem AtJoint.bounded {reader : PartReader Bytes} (joint : reader.AtJoint)
    {line : Bytes} {later : List Bytes}
    (found : linesFrom reader.boundary (lines reader.source) = line :: later) :
    reader.unbounded = false := by
  rw [Bool.eq_false_iff]
  intro unbounded
  rw [joint.unboundedAtEnd unbounded] at found
  contradiction

theorem lines_flatten_linesFrom (boundary : Text) (bytes : Bytes) :
    lines (linesFrom boundary (lines bytes)).flatten = linesFrom boundary (lines bytes) := by
  have whole : lines bytes =
      linesBefore boundary (lines bytes) ++ linesFrom boundary (lines bytes) :=
    List.takeWhile_append_dropWhile.symm
  exact lines_flatten whole

theorem breaks_of_leftBehind {later : List Bytes} {left : Bytes}
    (behind : LeftBehind boundary later left) :
    linesFrom boundary (lines left) = linesFrom boundary later ∧
      ∀ line ∈ linesBefore boundary (lines left),
        line = [Byte.lineFeed] ∨ line = [Byte.carriageReturn, Byte.lineFeed] := by
  obtain ⟨blanks, isBreak, cut⟩ := behind
  have plain (line : Bytes) (member : line ∈ blanks) : isBoundaryLine boundary line = false := by
    rw [Bool.eq_false_iff]
    intro isBoundary
    have := isBlankLine_of_isBoundaryLine isBoundary
    rcases isBreak line member with rfl | rfl <;> simp [isBlankLine] at this
  have same : linesFrom boundary (lines left) = linesFrom boundary later := by
    rw [cut, linesFrom_append _ plain]
    exact List.dropWhile_idempotent _ _
  have whole : linesBefore boundary (lines left) ++ linesFrom boundary (lines left) =
      blanks ++ linesFrom boundary later := by
    rw [← cut]
    exact List.takeWhile_append_dropWhile
  rw [same] at whole
  rw [List.append_cancel_right whole]
  exact ⟨same, isBreak⟩

theorem linesFrom_of_leftBehind {later : List Bytes} {left : Bytes}
    (behind : LeftBehind boundary later left) :
    linesFrom boundary (lines left) = linesFrom boundary later ∧
      ∀ line ∈ linesBefore boundary (lines left), isBlankLine line = true := by
  obtain ⟨same, isBreak⟩ := breaks_of_leftBehind behind
  refine ⟨same, fun line member => ?_⟩
  rcases isBreak line member with rfl | rfl <;> rfl

def atPart (reader : PartReader Bytes) (later : List Bytes) : PartReader Bytes :=
  { reader with
    source := later.flatten, scanned := []
    partsRead := reader.partsRead + 1, phase := .content true }

theorem remaining_atPart {reader : PartReader Bytes} (unbroken : '\n' ∉ reader.boundary)
    {later : List Bytes} (kept : lines later.flatten = later) :
    (reader.atPart later).remaining = contentOf reader.boundary later := by
  change [] ++ (cutContent reader.boundary true later.flatten).1 = _
  rw [List.nil_append, (cutContent_atStart unbroken _).1, kept]

theorem atJoint_exhausted {reader : PartReader Bytes} (unbroken : '\n' ∉ reader.boundary)
    {later : List Bytes} (kept : lines later.flatten = later)
    (openEnded : reader.finished = false) (bounded : reader.unbounded = false) :
    (reader.atPart later).exhausted.AtJoint ∧
      linesFrom reader.boundary (lines (reader.atPart later).exhausted.source) =
        linesFrom reader.boundary later := by
  have behind := (cutContent_atStart unbroken later.flatten).2
  rw [kept] at behind
  obtain ⟨same, blank⟩ := linesFrom_of_leftBehind behind
  refine ⟨⟨openEnded, .inr blank, .inr ⟨rfl, rfl⟩, fun unbounded => ?_⟩, same⟩
  have ended : (reader.unbounded || _) = true := unbounded
  rw [bounded, Bool.false_or] at ended
  exact List.isEmpty_iff.mp ended

/-- What the walk leaves, given what the splitter found. -/
def walked (reader : PartReader Bytes) (split : Split) : Walk Bytes :=
  { contents := split.contents, error := none
    reader :=
      { source := split.epilogue, boundary := reader.boundary, scanned := [], phase := .between
        partsRead := reader.partsRead + split.contents.length, finished := true
        unbounded := split.truncated } }

theorem walkBy_slice (sizes : Nat → Nat → Nat) (positive : ∀ part index, 0 < sizes part index)
    (reader : PartReader Bytes) (unbroken : '\n' ∉ reader.boundary) (joint : reader.AtJoint) :
    reader.walkBy sizes =
      reader.walked (Split.ofLines reader.boundary (lines reader.source)) := by
  generalize count : (linesFrom reader.boundary (lines reader.source)).length = length
  induction length using Nat.strongRecOn generalizing sizes reader with
  | ind length ih =>
      have moved := next_slice unbroken joint
      simp only [opened] at moved
      cases found : linesFrom reader.boundary (lines reader.source) with
      | nil =>
          rw [found] at moved
          rw [walkBy_stopped sizes moved, Split.ofLines_nil found]
          rfl
      | cons line later =>
          have cut := lines_flatten_linesFrom reader.boundary reader.source
          rw [found] at moved cut
          rw [Split.ofLines_cons found]
          by_cases terminates : isTerminatorLine reader.boundary line = true
          · simp only [terminates, if_true] at moved
            rw [walkBy_stopped sizes moved, if_pos terminates]
            simp only [walked, joint.bounded found]
            rfl
          · by_cases closed : line.getLast? = some Byte.lineFeed
            · simp only [terminates, closed, Bool.false_eq_true, if_false, beq_self_eq_true,
                if_true] at moved
              have kept := (lines_eq_cons cut).1
              have content := remaining_atPart unbroken kept
              obtain ⟨nextJoint, same⟩ :=
                atJoint_exhausted unbroken kept joint.openEnded (joint.bounded found)
              have drained := drainBy_slice (sizes 0) (positive 0) (reader.atPart later)
              have shorter : (linesFrom reader.boundary
                  (lines (reader.atPart later).exhausted.source)).length < length := by
                rw [← count, found, same]
                exact Nat.lt_succ_of_le (length_linesFrom_le _ _)
              have walkedOn := ih _ shorter (fun index => sizes (index + 1))
                (fun index => positive (index + 1)) (reader.atPart later).exhausted unbroken
                nextJoint rfl
              rw [walkBy_opened moved drained, walkedOn, if_neg terminates,
                if_pos (by simpa using closed), content]
              change Walk.after _ (walked _ (Split.ofLines reader.boundary _)) = _
              rw [Split.ofLines_congr same]
              have counted (count : Nat) : (reader.atPart later).exhausted.partsRead + count =
                  reader.partsRead + (count + 1) :=
                Nat.add_right_comm reader.partsRead 1 count
              simp only [walked, Walk.after, Split.after, List.length_cons, counted]
              rfl
            · simp only [terminates, closed, Bool.false_eq_true, if_false, beq_iff_eq] at moved
              rw [walkBy_stopped sizes moved, if_neg terminates, if_neg (by simpa using closed),
                eq_nil_of_openLine cut closed]
              rfl

theorem walkBy_ofBody (boundary : Text) (unbroken : '\n' ∉ boundary) (body : Bytes)
    (sizes : Nat → Nat → Nat) (positive : ∀ part index, 0 < sizes part index) :
    walkBy sizes { source := body, boundary } =
      walked { source := body, boundary } (Split.ofBody boundary body) := by
  have joint : AtJoint { source := body, boundary } :=
    ⟨rfl, .inl rfl, .inl rfl, fun impossible => absurd impossible Bool.false_ne_true⟩
  exact walkBy_slice sizes positive _ unbroken joint

/-- Walking a body in memory, with reads of any sizes, finds what the splitter
finds, and leaves the reader behind the terminator line. -/
theorem walkBy_eq_splitter (boundary : Text) (unbroken : '\n' ∉ boundary) (body : Bytes)
    (sizes : Nat → Nat → Nat) (positive : ∀ part index, 0 < sizes part index) :
    ∃ reader : PartReader Bytes, PartReader.ofSource body boundary = .ok reader ∧
      reader.walkBy sizes =
        { contents := (Split.ofBody boundary body).contents
          error := none
          reader :=
            { source := (Split.ofBody boundary body).epilogue
              boundary
              scanned := []
              phase := .between
              partsRead := (Split.ofBody boundary body).contents.length
              finished := true
              unbounded := (Split.ofBody boundary body).truncated } } := by
  refine ⟨{ source := body, boundary }, rfl, ?_⟩
  rw [walkBy_ofBody boundary unbroken body sizes positive, walked, Nat.zero_add]

theorem walkBy_eq_splitter_nearMiss :
    '\n' ∉ "b".toList ∧ (∀ _ index : Nat, 0 < index + 1) ∧
      ∃ reader : PartReader Bytes,
        PartReader.ofSource (Text.utf8 "p\n--b \r\nx\r\n--bx\n--b--\ne".toList) "b".toList =
          .ok reader ∧
        (reader.walkBy fun _ index => index + 1) =
          { contents := [Text.utf8 "x\r\n--bx".toList]
            error := none
            reader :=
              { source := Text.utf8 "e".toList
                boundary := "b".toList
                scanned := []
                phase := .between
                partsRead := 1
                finished := true
                unbounded := false } } := by
  have split : Split.ofBody "b".toList (Text.utf8 "p\n--b \r\nx\r\n--bx\n--b--\ne".toList) =
      { contents := [Text.utf8 "x\r\n--bx".toList]
        truncated := false
        epilogue := Text.utf8 "e".toList } := by
    cbv
  have unbroken : '\n' ∉ "b".toList := by decide
  obtain ⟨reader, made, walked⟩ := walkBy_eq_splitter "b".toList unbroken
    (Text.utf8 "p\n--b \r\nx\r\n--bx\n--b--\ne".toList) (fun _ index => index + 1)
    (fun _ index => Nat.succ_pos index)
  rw [split] at walked
  exact ⟨unbroken, fun _ index => Nat.succ_pos index, reader, made, walked⟩

end PartReader

end LenientMime.Multipart
