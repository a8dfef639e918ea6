import LenientMime.Proofs.Multipart.Splitter
import Mathlib.Data.List.Infix

namespace LenientMime.Multipart

open Bytes

/-! Content as the bytes in front of the next delimiter.

Content is recognised byte by byte: it goes on until a delimiter starts, together
with the line break that belongs to it.  Said about lines, this is everything up to
the next boundary line without the line break in front of it.  The two agree
because a delimiter can only start at a line break or at the start of a part.
-/

/-- Whether a delimiter starts here, with the line break that belongs to it. -/
def startsDelimiter (boundary : Text) (atStart : Bool) (bytes : Bytes) : Bool :=
  match leadOf? atStart bytes with
  | none => false
  | some lead => showsDelimiter lead (delimiter boundary) bytes

/-- The content from here on, and what is left behind it. -/
def cutContent (boundary : Text) : Bool → Bytes → Bytes × Bytes
  | _, [] => ([], [])
  | atStart, byte :: rest =>
      if startsDelimiter boundary atStart (byte :: rest) then ([], byte :: rest)
      else (byte :: (cutContent boundary false rest).1, (cutContent boundary false rest).2)

/-- The content from inside a line on, where `line` is the rest of that line. -/
def contentBehind (boundary : Text) (line : Bytes) (later : List Bytes) : Bytes :=
  match linesFrom boundary later with
  | [] => line ++ later.flatten
  | _ :: _ => dropLineEnd (line ++ (linesBefore boundary later).flatten)

theorem isPrefixOf?_append (front rest : Bytes) : front.isPrefixOf? (front ++ rest) = some rest :=
  List.isPrefixOf?_eq_some_iff_append_eq.mpr rfl

theorem showsDelimiter_iff {lead delimiter window : Bytes} :
    showsDelimiter lead delimiter window = true ↔
      ∃ rest, window = lead ++ delimiter ++ rest ∧ endsDelimiter rest = true := by
  unfold showsDelimiter
  cases found : (lead ++ delimiter).isPrefixOf? window with
  | none =>
      refine iff_of_false (by simp) ?_
      intro shape
      obtain ⟨rest, rfl, -⟩ := shape
      exact absurd (found.symm.trans (isPrefixOf?_append _ rest)) (by simp)
  | some rest =>
      obtain rfl := List.isPrefixOf?_eq_some_iff_append_eq.mp found
      constructor
      · exact fun ends => ⟨rest, rfl, ends⟩
      · intro shape
        obtain ⟨other, same, ends⟩ := shape
        rwa [List.append_cancel_left same]

theorem endsDelimiter_take (rest : Bytes) : endsDelimiter (rest.take 2) = endsDelimiter rest := by
  match rest with
  | [] | [_] => rfl
  | first :: second :: rest =>
      simp only [List.take_succ_cons, endsDelimiter_cons_cons]

theorem showsDelimiter_take (lead delimiter bytes : Bytes) :
    showsDelimiter lead delimiter (bytes.take (lead.length + delimiter.length + 2)) =
      showsDelimiter lead delimiter bytes := by
  have window (rest : Bytes) :
      (lead ++ delimiter ++ rest).take (lead.length + delimiter.length + 2) =
        lead ++ delimiter ++ rest.take 2 := by
    rw [← List.length_append, List.take_length_add_append]
  rw [Bool.eq_iff_iff, showsDelimiter_iff, showsDelimiter_iff]
  constructor
  · intro shape
    obtain ⟨shown, same, ends⟩ := shape
    obtain ⟨rest, rfl⟩ : lead ++ delimiter <+: bytes :=
      List.IsPrefix.trans ⟨shown, same.symm⟩ (List.take_prefix _ _)
    rw [window] at same
    exact ⟨rest, rfl, by rwa [← endsDelimiter_take, List.append_cancel_left same]⟩
  · intro shape
    obtain ⟨rest, rfl, ends⟩ := shape
    exact ⟨rest.take 2, window rest, by rwa [endsDelimiter_take]⟩

theorem showsDelimiter_lead (lead delimiter bytes : Bytes) :
    showsDelimiter lead delimiter (lead ++ bytes) = showsDelimiter [] delimiter bytes := by
  rw [Bool.eq_iff_iff, showsDelimiter_iff, showsDelimiter_iff]
  simp [List.append_assoc]

section Lines

variable {boundary : Text}

theorem append_of_absent {byte : UInt8} {text rest front later : Bytes} (absent : byte ∉ front)
    (same : text ++ byte :: later = front ++ rest) :
    ∃ inner, text = front ++ inner ∧ rest = inner ++ byte :: later := by
  rcases List.append_eq_append_iff.mp same with ⟨inner, rfl, broken⟩ | ⟨inner, rfl, rfl⟩
  · cases inner with
    | nil => exact ⟨[], by simp, by simpa using broken.symm⟩
    | cons first inner =>
        obtain ⟨rfl, -⟩ := by simpa using broken
        simp at absent
  · exact ⟨inner, rfl, rfl⟩

theorem showsDelimiter_lines (unbroken : '\n' ∉ boundary) {bytes line : Bytes}
    {later : List Bytes} (cut : lines bytes = line :: later) :
    showsDelimiter [] (delimiter boundary) bytes = isBoundaryLine boundary line := by
  have absent := lineFeed_not_mem_delimiter unbroken
  have whole : bytes = line ++ later.flatten := by
    rw [← flatten_lines bytes, cut, List.flatten_cons]
  rw [Bool.eq_iff_iff, showsDelimiter_iff, isBoundaryLine_iff]
  obtain ⟨-, text, -, rfl | ⟨rfl, -, rfl⟩⟩ := lines_eq_cons cut
  · simp only [whole, List.append_assoc, List.cons_append, List.nil_append]
    constructor
    · intro shape
      obtain ⟨rest, same, ends⟩ := shape
      obtain ⟨inner, rfl, rfl⟩ := append_of_absent absent same
      refine ⟨inner ++ [Byte.lineFeed], by simp, ?_⟩
      rwa [← endsDelimiter_append later.flatten (by simp), List.append_assoc]
    · intro shape
      obtain ⟨rest, same, ends⟩ := shape
      obtain ⟨inner, rfl, rfl⟩ := append_of_absent absent same
      refine ⟨inner ++ Byte.lineFeed :: later.flatten, by simp, ?_⟩
      rwa [← endsDelimiter_append later.flatten (by simp), List.append_assoc] at ends
  · simp only [whole, List.flatten_nil, List.append_nil, List.nil_append]

def opensBoundary (boundary : Text) (lines : List Bytes) : Bool :=
  lines.head?.any (isBoundaryLine boundary)

theorem showsDelimiter_eq_opensBoundary (unbroken : '\n' ∉ boundary) (bytes : Bytes) :
    showsDelimiter [] (delimiter boundary) bytes = opensBoundary boundary (lines bytes) := by
  cases cut : lines bytes with
  | nil =>
      obtain rfl : bytes = [] := by simpa [cut] using (flatten_lines bytes).symm
      rfl
  | cons line later => exact showsDelimiter_lines unbroken cut

theorem startsDelimiter_lineFeed (unbroken : '\n' ∉ boundary) (atStart : Bool) (rest : Bytes) :
    startsDelimiter boundary atStart (Byte.lineFeed :: rest) =
      opensBoundary boundary (lines rest) := by
  rw [← showsDelimiter_eq_opensBoundary unbroken]
  exact showsDelimiter_lead [Byte.lineFeed] _ rest

theorem startsDelimiter_crlf (unbroken : '\n' ∉ boundary) (atStart : Bool) (rest : Bytes) :
    startsDelimiter boundary atStart (Byte.carriageReturn :: Byte.lineFeed :: rest) =
      opensBoundary boundary (lines rest) := by
  rw [← showsDelimiter_eq_opensBoundary unbroken]
  exact showsDelimiter_lead [Byte.carriageReturn, Byte.lineFeed] _ rest

theorem startsDelimiter_inside (boundary : Text) {byte : UInt8} {rest : Bytes}
    (distinct : byte ≠ Byte.lineFeed)
    (noBreak : byte = Byte.carriageReturn → rest.head? ≠ some Byte.lineFeed) :
    startsDelimiter boundary false (byte :: rest) = false := by
  by_cases half : byte = Byte.carriageReturn
  · subst half
    rw [Bool.eq_false_iff]
    intro shown
    obtain ⟨behind, same, -⟩ := showsDelimiter_iff.mp shown
    obtain rfl : rest = Byte.lineFeed :: (delimiter boundary ++ behind) := by simpa using same
    exact noBreak rfl rfl
  · simp [startsDelimiter, leadOf?, half, distinct]

theorem not_opensBoundary_of_head (unbroken : '\n' ∉ boundary) {byte : UInt8} (rest : Bytes)
    (distinct : byte ≠ Byte.dash) : opensBoundary boundary (lines (byte :: rest)) = false := by
  rw [← showsDelimiter_eq_opensBoundary unbroken, Bool.eq_false_iff]
  intro shown
  obtain ⟨behind, same, -⟩ := showsDelimiter_iff.mp shown
  exact distinct (List.cons.inj same).1

theorem startsDelimiter_atStart (unbroken : '\n' ∉ boundary) (bytes : Bytes) :
    startsDelimiter boundary true bytes =
      (opensBoundary boundary (lines bytes) || startsDelimiter boundary false bytes) := by
  cases bytes with
  | nil => rfl
  | cons byte rest =>
      by_cases breaks : byte = Byte.carriageReturn ∨ byte = Byte.lineFeed
      · have plain : byte ≠ Byte.dash := by rcases breaks with rfl | rfl <;> decide
        rw [not_opensBoundary_of_head unbroken rest plain, Bool.false_or]
        rcases breaks with rfl | rfl <;> rfl
      · obtain ⟨noReturn, noFeed⟩ := not_or.mp breaks
        rw [startsDelimiter_inside boundary noFeed (fun half => absurd half noReturn),
          Bool.or_false, ← showsDelimiter_eq_opensBoundary unbroken]
        simp [startsDelimiter, leadOf?, noReturn, noFeed]

/-- What is left behind content: a line break at most, and the lines from the next
boundary line on. -/
def LeftBehind (boundary : Text) (later : List Bytes) (left : Bytes) : Prop :=
  ∃ blanks, (∀ line ∈ blanks, line = [Byte.lineFeed] ∨
      line = [Byte.carriageReturn, Byte.lineFeed]) ∧
    lines left = blanks ++ linesFrom boundary later

/-- A byte of content in front of content.  A carriage return in front of a last
line feed would belong to a delimiter and is left out. -/
theorem contentBehind_cons {byte : UInt8} {line : Bytes} {later : List Bytes}
    (nonempty : line ≠ []) (noBreak : byte = Byte.carriageReturn → line = [Byte.lineFeed] →
      linesFrom boundary later = [] ∨ (linesBefore boundary later).flatten ≠ []) :
    contentBehind boundary (byte :: line) later = byte :: contentBehind boundary line later := by
  unfold contentBehind
  split
  · rfl
  · next first others found =>
    refine dropLineEnd_cons (by simp [nonempty]) fun half same => ?_
    rcases List.append_eq_singleton_iff.mp same with ⟨rfl, -⟩ | ⟨feed, nothing⟩
    · contradiction
    · rcases noBreak half feed with none | some
      · simp [none] at found
      · exact some nothing

theorem ne_nil_of_lines {bytes line : Bytes} {later : List Bytes}
    (cut : lines bytes = line :: later) : line ≠ [] := by
  obtain ⟨-, text, -, rfl | ⟨rfl, nonempty, -⟩⟩ := lines_eq_cons cut
  · simp
  · exact nonempty

theorem eq_nil_of_lines {bytes : Bytes} (cut : lines bytes = []) : bytes = [] := by
  rw [← flatten_lines bytes, cut]
  rfl

/-- The cut inside a line, where `line` is the rest of that line and `later` the
lines behind it, is the one that the lines say. -/
def CutsAs (boundary : Text) (bytes line : Bytes) (later : List Bytes) : Prop :=
  (cutContent boundary false bytes).1 = contentBehind boundary line later ∧
    LeftBehind boundary later (cutContent boundary false bytes).2

theorem CutsAs.singleton {byte : UInt8}
    (inside : startsDelimiter boundary false [byte] = false) :
    CutsAs boundary [byte] [byte] [] := by
  simp only [CutsAs, cutContent, inside, Bool.false_eq_true, if_false]
  exact ⟨rfl, [], by simp, rfl⟩

theorem CutsAs.cons {byte : UInt8} {rest line : Bytes} {later : List Bytes}
    (cuts : CutsAs boundary rest line later) (nonempty : line ≠ [])
    (inside : startsDelimiter boundary false (byte :: rest) = false)
    (noBreak : byte = Byte.carriageReturn → line = [Byte.lineFeed] →
      linesFrom boundary later = [] ∨ (linesBefore boundary later).flatten ≠ []) :
    CutsAs boundary (byte :: rest) (byte :: line) later := by
  obtain ⟨content, left⟩ := cuts
  simp only [CutsAs, cutContent, inside, Bool.false_eq_true, if_false]
  exact ⟨by rw [contentBehind_cons nonempty noBreak, content], left⟩

theorem CutsAs.of_opensBoundary {lead rest : Bytes}
    (isBreak : lead = [Byte.lineFeed] ∨ lead = [Byte.carriageReturn, Byte.lineFeed])
    (starts : startsDelimiter boundary false (lead ++ rest) = true)
    (opens : opensBoundary boundary (lines rest) = true) :
    CutsAs boundary (lead ++ rest) lead (lines rest) := by
  cases next : lines rest with
  | nil => simp [opensBoundary, next] at opens
  | cons first others =>
      have isBoundary : isBoundaryLine boundary first = true := by
        simpa [opensBoundary, next] using opens
      have all := linesFrom_cons others isBoundary
      have none := linesBefore_cons others isBoundary
      have shown : lines (lead ++ rest) = lead :: first :: others := by
        rcases isBreak with rfl | rfl
        · simp [next]
        · simpa [next] using lines_line rest (show Byte.lineFeed ∉ [Byte.carriageReturn] by decide)
      have uncut : cutContent boundary false (lead ++ rest) = ([], lead ++ rest) := by
        rcases isBreak with rfl | rfl <;> simpa [cutContent] using starts
      refine ⟨?_, [lead], by simpa using isBreak, by simp [uncut, shown, all]⟩
      simp only [uncut, contentBehind, all, none, List.flatten_nil, List.append_nil]
      rcases isBreak with rfl | rfl <;> rfl

theorem CutsAs.plainLine {bytes line first : Bytes} {others : List Bytes}
    (cuts : CutsAs boundary bytes (line ++ first) others)
    (plain : isBoundaryLine boundary first = false) :
    CutsAs boundary bytes line (first :: others) := by
  simpa only [CutsAs, LeftBehind, contentBehind, linesFrom_cons_of_plain others plain,
    linesBefore_cons_of_plain others plain, List.flatten_cons, List.append_assoc] using cuts

/-- The line feed belongs to the content unless a boundary line follows. -/
theorem CutsAs.lineFeed (unbroken : '\n' ∉ boundary) {rest : Bytes}
    (behind : ∀ first others, lines rest = first :: others →
      CutsAs boundary rest first others) :
    CutsAs boundary (Byte.lineFeed :: rest) [Byte.lineFeed] (lines rest) := by
  have starts := startsDelimiter_lineFeed unbroken false rest
  cases opens : opensBoundary boundary (lines rest) with
  | true => exact .of_opensBoundary (.inl rfl) (starts.trans opens) opens
  | false =>
      cases next : lines rest with
      | nil =>
          obtain rfl := eq_nil_of_lines next
          exact .singleton (starts.trans opens)
      | cons first others =>
          have plain : isBoundaryLine boundary first = false := by
            simpa [opensBoundary, next] using opens
          have longer := (behind first others next).cons (ne_nil_of_lines next)
            (starts.trans opens) fun impossible => absurd impossible (by decide)
          exact longer.plainLine plain

theorem CutsAs.crlf (unbroken : '\n' ∉ boundary) {rest : Bytes}
    (behind : CutsAs boundary (Byte.lineFeed :: rest) [Byte.lineFeed] (lines rest)) :
    CutsAs boundary (Byte.carriageReturn :: Byte.lineFeed :: rest)
      [Byte.carriageReturn, Byte.lineFeed] (lines rest) := by
  have starts := startsDelimiter_crlf unbroken false rest
  cases opens : opensBoundary boundary (lines rest) with
  | true => exact .of_opensBoundary (.inr rfl) (starts.trans opens) opens
  | false =>
      refine behind.cons (by simp) (starts.trans opens) fun _ _ => ?_
      cases next : lines rest with
      | nil => exact .inl rfl
      | cons first others =>
          have plain : isBoundaryLine boundary first = false := by
            simpa [opensBoundary, next] using opens
          exact .inr (by simp [linesBefore_cons_of_plain others plain, ne_nil_of_lines next])

theorem cutContent_inside (unbroken : '\n' ∉ boundary) {bytes line : Bytes} {later : List Bytes}
    (cut : lines bytes = line :: later) : CutsAs boundary bytes line later := by
  induction bytes generalizing line later with
  | nil => simp at cut
  | cons byte rest ih =>
      by_cases feed : byte = Byte.lineFeed
      · subst feed
        obtain ⟨rfl, rfl⟩ := by simpa using cut
        exact .lineFeed unbroken fun _ _ next => ih next
      · by_cases crlf : byte = Byte.carriageReturn ∧ rest.head? = some Byte.lineFeed
        · obtain ⟨rfl, head⟩ := crlf
          obtain ⟨after, rfl⟩ := List.head?_eq_some_iff.mp head
          obtain ⟨rfl, rfl⟩ := by
            simpa using (lines_cons feed (lines_lineFeed after)).symm.trans cut
          exact .crlf unbroken (ih (lines_lineFeed after))
        · have inside := startsDelimiter_inside boundary feed fun half head =>
            crlf ⟨half, head⟩
          cases next : lines rest with
          | nil =>
              obtain rfl := eq_nil_of_lines next
              obtain ⟨rfl, rfl⟩ := by simpa using (lines_singleton feed).symm.trans cut
              exact .singleton inside
          | cons first others =>
              obtain ⟨rfl, rfl⟩ := by simpa using (lines_cons feed next).symm.trans cut
              refine (ih next).cons (ne_nil_of_lines next) inside fun half onlyFeed => ?_
              have whole := flatten_lines rest
              rw [next, onlyFeed] at whole
              exact absurd ⟨half, by rw [← whole]; rfl⟩ crlf

theorem contentBehind_nil (boundary : Text) (lines : List Bytes) :
    contentBehind boundary [] lines = contentOf boundary lines :=
  rfl

theorem cutContent_atStart (unbroken : '\n' ∉ boundary) (bytes : Bytes) :
    (cutContent boundary true bytes).1 = contentOf boundary (lines bytes) ∧
      LeftBehind boundary (lines bytes) (cutContent boundary true bytes).2 := by
  cases cut : lines bytes with
  | nil =>
      obtain rfl := eq_nil_of_lines cut
      exact ⟨rfl, [], by simp, rfl⟩
  | cons line later =>
      have starts := startsDelimiter_atStart unbroken bytes
      obtain ⟨byte, rest, rfl⟩ : ∃ byte rest, bytes = byte :: rest := by
        cases bytes with
        | nil => simp at cut
        | cons byte rest => exact ⟨byte, rest, rfl⟩
      cases isBoundary : isBoundaryLine boundary line with
      | true =>
          have stops : startsDelimiter boundary true (byte :: rest) = true := by
            simp [starts, opensBoundary, cut, isBoundary]
          simp only [cutContent, stops, if_true]
          have all := linesFrom_cons later isBoundary
          have none := linesBefore_cons later isBoundary
          exact ⟨by simp [contentOf, all, none, dropLineEnd], [], by simp, by simp [cut, all]⟩
      | false =>
          have same : cutContent boundary true (byte :: rest) =
              cutContent boundary false (byte :: rest) := by
            simp only [cutContent, starts, opensBoundary, cut, List.head?_cons, Option.any_some,
              isBoundary, Bool.false_or]
          have cuts : CutsAs boundary (byte :: rest) [] (line :: later) :=
            (cutContent_inside unbroken cut).plainLine isBoundary
          simpa only [CutsAs, contentBehind_nil, same] using cuts

end Lines

end LenientMime.Multipart
