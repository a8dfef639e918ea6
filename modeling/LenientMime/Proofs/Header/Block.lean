import LenientMime.Header.Block
import LenientMime.Proofs.Multipart.Line

namespace LenientMime.Header

open Bytes

/-! Where a header block ends.

The header is all the lines in front of the first empty one, and the body is what stands behind
that line.  Lines end at their line feeds alone, so that carriage returns inside a line, and a last
line without an end, belong to the header like any other bytes.
-/

/-- A line that holds nothing but its end. -/
def IsEmptyLine (line : Bytes) : Prop :=
  line = [Byte.lineFeed] ∨ line = [Byte.carriageReturn, Byte.lineFeed]

instance (line : Bytes) : Decidable (IsEmptyLine line) :=
  inferInstanceAs (Decidable (_ ∨ _))

section Split

variable {atStart : Bool} {byte : UInt8} {bytes text line rest : Bytes} {front back : List Bytes}

theorem splitFrom_emptyLine (empty : IsEmptyLine line) (rest : Bytes) :
    splitFrom true (line ++ rest) = ([], rest) := by
  rcases empty with rfl | rfl <;> rfl

/-- A byte that no empty line begins with is a byte of the header. -/
theorem splitFrom_cons (noFeed : atStart = true → byte ≠ Byte.lineFeed)
    (noBreak : atStart = true → byte = Byte.carriageReturn → rest.head? ≠ some Byte.lineFeed) :
    splitFrom atStart (byte :: rest) =
      (byte :: (splitFrom (byte == Byte.lineFeed) rest).1,
        (splitFrom (byte == Byte.lineFeed) rest).2) := by
  rw [splitFrom]
  · exact noFeed
  · rintro later start rfl rfl
    exact noBreak start rfl rfl

theorem suffix_splitFrom (atStart : Bool) (bytes : Bytes) : (splitFrom atStart bytes).2 <:+ bytes := by
  fun_induction splitFrom atStart bytes with
  | case1 => exact List.suffix_rfl
  | case2 rest => exact List.suffix_cons _ _
  | case3 rest => exact ⟨[_, _], rfl⟩
  | case4 _ byte rest _ _ header body split ih =>
      rw [split] at ih
      exact ih.trans (List.suffix_cons _ _)

theorem splitFrom_within (byte : UInt8) (rest : Bytes) :
    splitFrom false (byte :: rest) =
      (byte :: (splitFrom (byte == Byte.lineFeed) rest).1,
        (splitFrom (byte == Byte.lineFeed) rest).2) :=
  splitFrom_cons (fun start => nomatch start) fun start => nomatch start

theorem beq_lineFeed (noFeed : byte ≠ Byte.lineFeed) : (byte == Byte.lineFeed) = false :=
  beq_eq_false_iff_ne.mpr noFeed

/-- What stands within a line goes to the header, and its end with it. -/
theorem splitFrom_lineFeed (rest : Bytes) (unbroken : Byte.lineFeed ∉ text) :
    splitFrom false (text ++ Byte.lineFeed :: rest) =
      (text ++ Byte.lineFeed :: (splitFrom true rest).1, (splitFrom true rest).2) := by
  induction text with
  | nil => exact splitFrom_within Byte.lineFeed rest
  | cons byte text ih =>
      obtain ⟨here, behind⟩ := List.ne_and_not_mem_of_not_mem_cons unbroken
      rw [List.cons_append, splitFrom_within, beq_lineFeed (Ne.symm here), ih behind]
      rfl

theorem splitFrom_unbroken (unbroken : Byte.lineFeed ∉ text) :
    splitFrom false text = (text, []) := by
  induction text with
  | nil => rfl
  | cons byte text ih =>
      obtain ⟨here, behind⟩ := List.ne_and_not_mem_of_not_mem_cons unbroken
      rw [splitFrom_within, beq_lineFeed (Ne.symm here), ih behind]

/-- A line that is not empty goes to the header as a whole. -/
theorem splitFrom_line {later : List Bytes} (cut : lines bytes = line :: later)
    (filled : ¬ IsEmptyLine line) :
    splitFrom true bytes =
      (line ++ (splitFrom true later.flatten).1, (splitFrom true later.flatten).2) := by
  have whole : bytes = line ++ later.flatten := by
    rw [← flatten_lines bytes, cut, List.flatten_cons]
  obtain ⟨-, text, unbroken, rfl | ⟨rfl, nonempty, rfl⟩⟩ := lines_eq_cons cut
  · cases text with
    | nil => exact absurd (.inl rfl) filled
    | cons byte text =>
        obtain ⟨here, behind⟩ := List.ne_and_not_mem_of_not_mem_cons unbroken
        have noBreak : byte = Byte.carriageReturn →
            (text ++ Byte.lineFeed :: later.flatten).head? ≠ some Byte.lineFeed := by
          rintro rfl shown
          cases text with
          | nil => exact filled (.inr rfl)
          | cons next text =>
              exact behind (List.mem_cons.mpr (.inl (Option.some.inj shown).symm))
        rw [whole, List.append_assoc, List.cons_append, List.singleton_append,
          splitFrom_cons (fun _ => Ne.symm here) fun _ => noBreak, beq_lineFeed (Ne.symm here),
          splitFrom_lineFeed _ behind]
        simp only [List.cons_append, List.append_assoc, List.nil_append]
  · obtain ⟨byte, text, rfl⟩ := List.exists_cons_of_ne_nil nonempty
    obtain ⟨here, behind⟩ := List.ne_and_not_mem_of_not_mem_cons unbroken
    have noBreak : byte = Byte.carriageReturn → text.head? ≠ some Byte.lineFeed :=
      fun _ shown => behind (List.mem_of_head? shown)
    rw [whole, List.flatten_nil, List.append_nil, splitFrom_cons (fun _ => Ne.symm here)
      fun _ => noBreak, beq_lineFeed (Ne.symm here), splitFrom_unbroken behind]
    simp only [splitFrom, List.append_nil]

/-- All lines in front of the first empty one go to the header. -/
theorem splitFrom_lines (cut : lines bytes = front ++ back)
    (filled : ∀ line ∈ front, ¬ IsEmptyLine line) :
    splitFrom true bytes =
      (front.flatten ++ (splitFrom true back.flatten).1, (splitFrom true back.flatten).2) := by
  induction front generalizing bytes with
  | nil =>
      rw [List.nil_append] at cut
      rw [← cut, flatten_lines]
      rfl
  | cons line front ih =>
      obtain ⟨filledFirst, filledLater⟩ := List.forall_mem_cons.mp filled
      rw [splitFrom_line cut filledFirst, ih (lines_eq_cons cut).1 filledLater, List.flatten_cons,
        List.append_assoc]

end Split

theorem splitBlock_eq (bytes : Bytes) :
    splitBlock bytes = ((splitFrom true bytes).1, bytes.length - (splitFrom true bytes).2.length) :=
  rfl

/-- The body starts at the offset. -/
theorem drop_splitBlock (bytes : Bytes) :
    bytes.drop (splitBlock bytes).2 = (splitFrom true bytes).2 :=
  (List.suffix_iff_eq_drop.mp (suffix_splitFrom true bytes)).symm

/-- Either some line is empty, and then the first of them parts header and body, or none is, and
then all of it is header. -/
theorem splitBlock_of_lines (bytes : Bytes) :
    (∃ front line back, lines bytes = front ++ line :: back ∧ IsEmptyLine line ∧
      (∀ earlier ∈ front, ¬ IsEmptyLine earlier) ∧
      splitBlock bytes = (front.flatten, front.flatten.length + line.length) ∧
      (splitBlock bytes).1 ++ line ++ bytes.drop (splitBlock bytes).2 = bytes) ∨
    ((∀ line ∈ lines bytes, ¬ IsEmptyLine line) ∧ splitBlock bytes = (bytes, bytes.length)) := by
  cases found : (lines bytes).find? fun line => decide (IsEmptyLine line) with
  | none =>
      have filled : ∀ line ∈ lines bytes, ¬ IsEmptyLine line := by
        simpa using List.find?_eq_none.mp found
      have all := splitFrom_lines (List.append_nil (lines bytes)).symm filled
      rw [flatten_lines, List.flatten_nil, splitFrom, List.append_nil] at all
      exact .inr ⟨filled, by rw [splitBlock_eq, all]; rfl⟩
  | some line =>
      obtain ⟨isEmpty, front, back, cut, passed⟩ := List.find?_eq_some_iff_append.mp found
      have empty : IsEmptyLine line := of_decide_eq_true isEmpty
      have filled : ∀ earlier ∈ front, ¬ IsEmptyLine earlier := by simpa using passed
      have whole : bytes = front.flatten ++ (line ++ back.flatten) := by
        rw [← flatten_lines bytes, cut, List.flatten_append, List.flatten_cons]
      have parts : splitFrom true bytes = (front.flatten, back.flatten) := by
        rw [splitFrom_lines cut filled, List.flatten_cons, splitFrom_emptyLine empty,
          List.append_nil]
      refine .inl ⟨front, line, back, cut, empty, filled, ?_, ?_⟩
      · rw [splitBlock_eq, parts, whole]
        simp only [List.length_append, Prod.mk.injEq, true_and]
        omega
      · rw [drop_splitBlock, splitBlock_eq, parts, List.append_assoc]
        exact whole.symm

end LenientMime.Header
