import LenientMime.Header.Field
import LenientMime.Proofs.Text.Lines
import LenientMime.Proofs.Text.Token

namespace LenientMime.Header

open Text

/-! Fields written over several lines.

A field may be folded in front of any of its words.  Reading it puts a space in the place of each
fold, and the value is the same as on one line, but for a fold directly behind the colon: the space
in its place stands in front of the value and stays there.
-/

/-- A line end, and the blanks that make the next line a continuation. -/
structure Fold where
  lineEnd : Text
  blanks : Text
deriving DecidableEq, Repr

structure Fold.WellFormed (fold : Fold) : Prop where
  ends : IsLineEnd fold.lineEnd
  nonempty : fold.blanks ≠ []
  blanks : ∀ c ∈ fold.blanks, c = ' ' ∨ c = '\t'

instance (fold : Fold) : Decidable fold.WellFormed :=
  decidable_of_iff ((fold.lineEnd = ['\n'] ∨ fold.lineEnd = ['\r', '\n']) ∧ fold.blanks ≠ [] ∧
      fold.blanks.all (fun c => c == ' ' || c == '\t') = true)
    ⟨fun ⟨ends, nonempty, blanks⟩ => ⟨ends, nonempty, by simpa using blanks⟩,
      fun wellFormed => ⟨wellFormed.ends, wellFormed.nonempty, by simpa using wellFormed.blanks⟩⟩

def gap : Option Fold → Text
  | none => [' ']
  | some fold => fold.lineEnd ++ fold.blanks

/-- Words, each behind its gap. -/
def behindGaps (words : List (Option Fold × Text)) : Text :=
  words.flatMap fun word => gap word.1 ++ word.2

theorem behindGaps_onLine (word : Text) (later : List (Option Fold × Text)) :
    behindGaps ((none, word) :: later) = ' ' :: (word ++ behindGaps later) :=
  rfl

theorem behindGaps_folded (fold : Fold) (word : Text) (later : List (Option Fold × Text)) :
    behindGaps ((some fold, word) :: later) =
      fold.lineEnd ++ (fold.blanks ++ (word ++ behindGaps later)) := by
  simp only [behindGaps, List.flatMap_cons, gap, List.append_assoc]

/-- A field as its writer lays it out, with or without a fold in front of each word. -/
structure FoldedField where
  name : Text
  /-- In front of the first word. -/
  opening : Option Fold
  first : Text
  later : List (Option Fold × Text)
  ending : Text
deriving DecidableEq, Repr

structure IsWord (text : Text) : Prop where
  nonempty : text ≠ []
  solid : ∀ c ∈ text, isBlank c = false

/-- What a field may be called; its letters may be of either case. -/
structure IsFieldName (name : Text) : Prop where
  nonempty : name ≠ []
  noColon : ':' ∉ name
  oneLine : '\n' ∉ name
  solid : name.Solid

instance (text : Text) : Decidable (IsWord text) :=
  decidable_of_iff (text ≠ [] ∧ text.all (fun c => !isBlank c) = true)
    ⟨fun ⟨nonempty, solid⟩ => ⟨nonempty, by simpa using solid⟩,
      fun isWord => ⟨isWord.nonempty, by simpa using isWord.solid⟩⟩

namespace FoldedField

def text (field : FoldedField) : Text :=
  field.name ++ ':' :: (behindGaps ((field.opening, field.first) :: field.later) ++ field.ending)

def words (field : FoldedField) : List Text :=
  field.first :: field.later.map Prod.snd

def value (field : FoldedField) : Text :=
  [' '].intercalate field.words

def folds (field : FoldedField) : List Fold :=
  field.opening.toList ++ field.later.filterMap Prod.fst

/-- The same words on one line. -/
def unfolded (field : FoldedField) : FoldedField :=
  { field with opening := none, later := field.later.map fun word => (none, word.2) }

structure WellFormed (field : FoldedField) : Prop where
  named : IsFieldName field.name
  words : ∀ word ∈ field.words, IsWord word
  folds : ∀ fold ∈ field.folds, fold.WellFormed
  ending : field.ending = [] ∨ IsLineEnd field.ending

end FoldedField

section Lines

variable {fold : Fold} {word line more : Text} {fields : List Field} {field : Field}

theorem Fold.WellFormed.blank (wellFormed : fold.WellFormed) : fold.blanks.Blank := by
  intro c member
  rcases wellFormed.blanks c member with rfl | rfl <;> decide

theorem IsWord.not_mem (isWord : IsWord word) : '\n' ∉ word :=
  fun member => absurd (isWord.solid '\n' member) (by decide)

/-- Text that no blank ends. -/
def EndsSolid (text : Text) : Prop :=
  ∀ c, text.getLast? = some c → isBlank c = false

theorem EndsSolid.nil : EndsSolid [] :=
  nofun

theorem EndsSolid.append {text more : Text} (ends : EndsSolid text) (endsMore : EndsSolid more) :
    EndsSolid (text ++ more) := by
  intro c shown
  rw [List.getLast?_append] at shown
  cases last : more.getLast? with
  | none => exact ends c (by rwa [last] at shown)
  | some d => exact endsMore c (by rwa [last] at shown ⊢)

theorem IsWord.endsSolid (isWord : IsWord word) (front : Text) : EndsSolid (front ++ word) := by
  intro c shown
  have last := List.getLast?_eq_some_getLast isWord.nonempty
  rw [List.getLast?_append, last, Option.some_or] at shown
  rw [← Option.some.inj shown]
  exact isWord.solid _ (List.getLast_mem isWord.nonempty)

/-- Trimming leaves words alone. -/
theorem IsWord.solid_append (isWord : IsWord word) (ends : EndsSolid more) :
    Solid (word ++ more) := by
  refine ⟨fun c shown => ?_, (isWord.endsSolid []).append ends⟩
  obtain ⟨first, rest, rfl⟩ := List.exists_cons_of_ne_nil isWord.nonempty
  rw [← Option.some.inj shown]
  exact isWord.solid first List.mem_cons_self

theorem IsFieldName.of_word (isWord : IsWord word) (noColon : ':' ∉ word) : IsFieldName word where
  nonempty := isWord.nonempty
  noColon := noColon
  oneLine := isWord.not_mem
  solid := by
    have solid := isWord.solid_append .nil
    rwa [List.append_nil] at solid

theorem isContinuation_of_solid {c : Char} (solid : isBlank c = false) (rest : Text) :
    isContinuation (c :: rest) = false := by
  have noSpace : c ≠ ' ' := by
    rintro rfl
    exact absurd solid (by decide)
  have noTab : c ≠ '\t' := by
    rintro rfl
    exact absurd solid (by decide)
  simp [isContinuation, noSpace, noTab]

/-- The first line of a field names it, and what is behind the colon begins its value. -/
theorem addLine_opening {name : Text} (named : IsFieldName name) (fields : List Field)
    (text : Text) :
    addLine fields (name ++ ':' :: text) = { name := name.lower, value := text.trim } :: fields := by
  have noContinuation : isContinuation (name ++ ':' :: text) = false := by
    obtain ⟨c, rest, shown⟩ := List.exists_cons_of_ne_nil named.nonempty
    have first := named.solid.first c (shown ▸ rfl)
    rw [shown, List.cons_append]
    exact isContinuation_of_solid first _
  unfold addLine
  rw [if_neg (by simp [noContinuation])]
  simp only [cut?_append text named.noColon, trim_of_solid named.solid]

/-- A continuation line adds a space and its words, whatever the value holds already. -/
theorem addLine_continuation (wellFormed : fold.WellFormed) (isWord : IsWord word)
    (ends : EndsSolid more) (field : Field) (earlier : List Field) :
    addLine (field :: earlier) (fold.blanks ++ (word ++ more)) =
      { field with value := field.value ++ ' ' :: (word ++ more) } :: earlier := by
  have continues : isContinuation (fold.blanks ++ (word ++ more)) = true := by
    obtain ⟨c, rest, shown⟩ := List.exists_cons_of_ne_nil wellFormed.nonempty
    rw [isContinuation, shown, List.cons_append, List.head?_cons]
    rcases wellFormed.blanks c (shown ▸ List.mem_cons_self) with rfl | rfl <;> rfl
  have nonempty : word ++ more ≠ [] := by simp [isWord.nonempty]
  have trimmed := trim_between nonempty (isWord.solid_append ends) wellFormed.blank .nil
  rw [List.append_nil] at trimmed
  rw [addLine, if_pos continues, trimmed]

end Lines

/-- A line that is still being written and what it adds to the fields read so far: `field` as the
only one, with everything that is still put behind it in its value. -/
structure Grows (fields : List Field) (line : Text) (field : Field) : Prop where
  nonempty : line ≠ []
  unbroken : '\n' ∉ line
  ends : EndsSolid line
  adds : ∀ more, EndsSolid more →
    addLine fields (line ++ more) = [{ field with value := field.value ++ more }]

namespace Grows

variable {fold : Fold} {word line : Text} {fields : List Field} {field : Field}

theorem opened {name : Text} (named : IsFieldName name) (isWord : IsWord word) :
    Grows [] (name ++ ':' :: ' ' :: word) { name := name.lower, value := word } where
  nonempty := by simp
  unbroken := by simp [named.oneLine, isWord.not_mem]
  ends := by
    have front : name ++ ':' :: ' ' :: word = (name ++ [':', ' ']) ++ word := by simp
    rw [front]
    exact isWord.endsSolid _
  adds more ends := by
    rw [List.append_assoc, List.cons_append, List.cons_append,
      addLine_opening named, trim_space_cons (isWord.solid_append ends)]

theorem continued (wellFormed : fold.WellFormed) (isWord : IsWord word) (field : Field) :
    Grows [field] (fold.blanks ++ word) { field with value := field.value ++ ' ' :: word } where
  nonempty := by simp [isWord.nonempty]
  unbroken := by
    rw [List.mem_append, not_or]
    refine ⟨fun member => ?_, isWord.not_mem⟩
    rcases wellFormed.blanks _ member with same | same <;> exact absurd same (by decide)
  ends := isWord.endsSolid _
  adds more ends := by
    rw [List.append_assoc, addLine_continuation wellFormed isWord ends, List.append_assoc]
    rfl

/-- One more word on the same line. -/
theorem addWord (grows : Grows fields line field) (isWord : IsWord word) :
    Grows fields (line ++ ' ' :: word) { field with value := field.value ++ ' ' :: word } where
  nonempty := by simp
  unbroken := by simp [grows.unbroken, isWord.not_mem]
  ends := grows.ends.append (isWord.endsSolid [' '])
  adds more ends := by
    have behind := (isWord.endsSolid [' ']).append ends
    rw [List.append_assoc, List.append_assoc]
    exact grows.adds _ behind

theorem addLine_eq (grows : Grows fields line field) : addLine fields line = [field] := by
  have alone := grows.adds [] .nil
  rwa [List.append_nil, List.append_nil] at alone

theorem lines_lineEnd {lineEnd : Text} (grows : Grows fields line field)
    (ends : IsLineEnd lineEnd) (rest : Text) :
    lines (line ++ (lineEnd ++ rest)) = line :: lines rest :=
  Text.lines_lineEnd rest grows.unbroken
    (fun shown => absurd (grows.ends '\r' shown) (by decide)) ends

/-- The words that are still to come, on this line or on lines behind it, are added with a space
in front of each. -/
theorem foldl_lines {ending : Text} (ends : ending = [] ∨ IsLineEnd ending)
    (later : List (Option Fold × Text)) (isWord : ∀ word ∈ later, IsWord word.2)
    (wellFormed : ∀ word ∈ later, ∀ fold, word.1 = some fold → fold.WellFormed)
    (grows : Grows fields line field) :
    (lines (line ++ (behindGaps later ++ ending))).foldl addLine fields =
      [{ field with value := field.value ++ later.flatMap fun word => ' ' :: word.2 }] := by
  induction later generalizing fields line field with
  | nil =>
      have single : lines (line ++ ending) = [line] := by
        rcases ends with rfl | ends
        · rw [List.append_nil, lines_unbroken grows.unbroken grows.nonempty]
        · have cut := grows.lines_lineEnd ends []
          rwa [List.append_nil] at cut
      change (lines (line ++ ending)).foldl addLine fields = _
      rw [single, List.foldl_cons, List.foldl_nil, grows.addLine_eq, List.flatMap_nil,
        List.append_nil]
  | cons next later ih =>
      obtain ⟨opening, text⟩ := next
      obtain ⟨isNext, isLater⟩ := List.forall_mem_cons.mp isWord
      obtain ⟨foldNext, foldLater⟩ := List.forall_mem_cons.mp wellFormed
      -- the next word makes this line longer, or ends it and begins one that continues it
      cases opening with
      | none =>
          have longer := ih isLater foldLater (grows.addWord isNext)
          rw [behindGaps_onLine, List.flatMap_cons]
          simpa only [List.append_assoc, List.cons_append] using longer
      | some fold =>
          have folded := foldNext fold rfl
          have behind := ih isLater foldLater (continued folded isNext field)
          have cut := grows.lines_lineEnd folded.ends
            (fold.blanks ++ (text ++ (behindGaps later ++ ending)))
          rw [behindGaps_folded, List.flatMap_cons]
          simp only [List.append_assoc, List.cons_append] at behind ⊢
          rw [cut, List.foldl_cons, grows.addLine_eq, behind]

end Grows

namespace FoldedField

theorem value_eq (field : FoldedField) :
    field.value = field.first ++ field.later.flatMap fun word => ' ' :: word.2 := by
  obtain ⟨name, opening, first, later, ending⟩ := field
  simp only [value, words]
  induction later generalizing first with
  | nil => rw [List.map_nil, List.intercalate_singleton, List.flatMap_nil, List.append_nil]
  | cons next later ih =>
      rw [List.map_cons, List.intercalate_cons_cons, ih next.2, List.flatMap_cons]
      simp only [List.append_assoc, List.cons_append, List.nil_append]

theorem words_unfolded (field : FoldedField) : field.unfolded.words = field.words := by
  simp only [words, unfolded, List.map_map]
  rfl

theorem folds_unfolded (field : FoldedField) : field.unfolded.folds = [] := by
  simp [folds, unfolded]

theorem WellFormed.unfolded {field : FoldedField} (wellFormed : field.WellFormed) :
    field.unfolded.WellFormed where
  named := wellFormed.named
  words := field.words_unfolded ▸ wellFormed.words
  folds := by
    rw [folds_unfolded]
    nofun
  ending := wellFormed.ending

section Reading

variable {field : FoldedField}

theorem WellFormed.first (wellFormed : field.WellFormed) : IsWord field.first :=
  wellFormed.words field.first List.mem_cons_self

theorem WellFormed.laterWords (wellFormed : field.WellFormed) :
    ∀ word ∈ field.later, IsWord word.2 :=
  fun word member => wellFormed.words word.2
    (List.mem_cons_of_mem _ (List.mem_map.mpr ⟨word, member, rfl⟩))

theorem WellFormed.opening (wellFormed : field.WellFormed) {fold : Fold}
    (folded : field.opening = some fold) : fold.WellFormed :=
  wellFormed.folds fold (by simp [FoldedField.folds, folded])

theorem WellFormed.later (wellFormed : field.WellFormed) :
    ∀ word ∈ field.later, ∀ fold, word.1 = some fold → fold.WellFormed :=
  fun word member fold folded => wellFormed.folds fold
    (List.mem_append_right _ (List.mem_filterMap.mpr ⟨word, member, folded⟩))

theorem fields_text_of_open (wellFormed : field.WellFormed) (onLine : field.opening = none) :
    fields field.text = [{ name := field.name.lower, value := field.value }] := by
  have opened := Grows.opened wellFormed.named wellFormed.first
  have read := opened.foldl_lines wellFormed.ending field.later wellFormed.laterWords
    wellFormed.later
  simp only [List.append_assoc, List.cons_append] at read
  rw [fields, text, onLine, behindGaps_onLine, value_eq, List.cons_append, List.append_assoc, read]
  rfl

/-- Behind the colon there is nothing on the first line, and the next one adds its space. -/
theorem fields_text_of_folded {fold : Fold} (wellFormed : field.WellFormed)
    (folded : field.opening = some fold) :
    fields field.text = [{ name := field.name.lower, value := ' ' :: field.value }] := by
  have wellFolded := wellFormed.opening folded
  have colon : '\n' ∉ field.name ++ [':'] := by simp [wellFormed.named.oneLine]
  have cut := lines_lineEnd
    (fold.blanks ++ (field.first ++ (behindGaps field.later ++ field.ending)))
    colon (by simp) wellFolded.ends
  have named := addLine_opening wellFormed.named [] []
  rw [Blank.nil.trim_eq] at named
  have continued := Grows.continued wellFolded wellFormed.first
    { name := field.name.lower, value := [] }
  have read := continued.foldl_lines wellFormed.ending field.later wellFormed.laterWords
    wellFormed.later
  simp only [List.append_assoc, List.cons_append, List.nil_append] at read cut
  rw [fields, text, folded, behindGaps_folded, value_eq]
  simp only [List.append_assoc]
  rw [cut, List.foldl_cons, named, read]
  rfl

end Reading

/-- A field is read as its name and its words with single spaces between them, on one line and
folded alike, unless it is folded directly behind the colon: then a space stands in front. -/
theorem fields_text {field : FoldedField} (wellFormed : field.WellFormed) :
    fields field.unfolded.text = [{ name := field.name.lower, value := field.value }] ∧
      (field.opening = none →
        fields field.text = [{ name := field.name.lower, value := field.value }]) ∧
      (field.opening ≠ none →
        fields field.text = [{ name := field.name.lower, value := ' ' :: field.value }]) := by
  refine ⟨?_, fields_text_of_open wellFormed, fun folded => ?_⟩
  · have onLine := fields_text_of_open wellFormed.unfolded rfl
    rwa [value, words_unfolded, ← value] at onLine
  · obtain ⟨fold, opening⟩ := Option.ne_none_iff_exists'.mp folded
    exact fields_text_of_folded wellFormed opening

/-- Both line ends, a fold of more than one blank, words with a colon in them and a gap that is
not folded. -/
def wrapped : FoldedField where
  name := "Content-Type".toList
  opening := none
  first := "multipart/mixed;".toList
  later := [(some ⟨"\r\n".toList, " \t".toList⟩, "boundary=\"x:y\";".toList),
    (none, "a=b;".toList), (some ⟨"\n".toList, "\t".toList⟩, ":c=d".toList)]
  ending := "\r\n".toList

/-- A field that is folded directly behind its colon. -/
def opened : FoldedField where
  name := "Content-Transfer-Encoding".toList
  opening := some ⟨"\r\n".toList, " ".toList⟩
  first := "base64".toList
  later := []
  ending := "\r\n".toList

theorem wellFormed_wrapped : wrapped.WellFormed where
  named := .of_word (by decide) (by decide)
  words := by decide
  folds := by decide
  ending := .inr (.inr rfl)

theorem wellFormed_opened : opened.WellFormed where
  named := .of_word (by decide) (by decide)
  words := by decide
  folds := by decide
  ending := .inr (.inr rfl)

theorem fields_text_wrapped :
    wrapped.WellFormed ∧ wrapped.opening = none ∧
      wrapped.text =
        "Content-Type: multipart/mixed;\r\n \tboundary=\"x:y\"; a=b;\n\t:c=d\r\n".toList ∧
      fields wrapped.text =
        [{ name := "content-type".toList,
           value := "multipart/mixed; boundary=\"x:y\"; a=b; :c=d".toList }] ∧
      opened.WellFormed ∧ opened.opening ≠ none ∧
      fields opened.text =
        [{ name := "content-transfer-encoding".toList, value := " base64".toList }] := by
  obtain ⟨-, onLine, -⟩ := fields_text wellFormed_wrapped
  obtain ⟨-, -, folded⟩ := fields_text wellFormed_opened
  exact ⟨wellFormed_wrapped, rfl, by decide, (onLine rfl).trans (by decide), wellFormed_opened,
    by decide, (folded (by decide)).trans (by decide)⟩

/-- The value keeps the space of the fold, and does not name the encoding any more. -/
theorem fields_text_keepsSpace :
    opened.WellFormed ∧ opened.text = "Content-Transfer-Encoding:\r\n base64\r\n".toList ∧
      fields opened.unfolded.text =
        [{ name := "content-transfer-encoding".toList, value := "base64".toList }] ∧
      fields opened.text =
        [{ name := "content-transfer-encoding".toList, value := " base64".toList }] :=
  ⟨wellFormed_opened, by decide, by decide +kernel, by decide +kernel⟩

end FoldedField

end LenientMime.Header
