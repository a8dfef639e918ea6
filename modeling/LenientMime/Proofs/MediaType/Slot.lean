import LenientMime.MediaType.Lenient
import LenientMime.Proofs.MediaType.Cutting
import LenientMime.Proofs.MediaType.Mending

namespace LenientMime

namespace Text

/-- The quotes and the semicolons of a text, in their order. -/
def marks (text : Text) : Text :=
  text.filter fun c => c == '"' || c == ';'

/-- No semicolon stands in front of the first quote. -/
def OpensQuoted (text : Text) : Prop :=
  text.marks.head? ≠ some ';'

instance (text : Text) : Decidable text.OpensQuoted :=
  inferInstanceAs (Decidable (text.marks.head? ≠ some ';'))

theorem marks_append (front back : Text) : marks (front ++ back) = front.marks ++ back.marks :=
  List.filter_append front back

theorem marks_eq_nil {text : Text} (noQuote : '"' ∉ text) (noSemicolon : ';' ∉ text) :
    text.marks = [] := by
  refine List.filter_eq_nil_iff.mpr fun c member => ?_
  have distinct : c ≠ '"' ∧ c ≠ ';' :=
    ⟨fun same => noQuote (same ▸ member), fun same => noSemicolon (same ▸ member)⟩
  simp [distinct]

theorem marks_trim (text : Text) : text.trim.marks = text.marks := by
  have quiet {gap : Text} (blank : gap.Blank) : gap.marks = [] :=
    marks_eq_nil (blank.not_mem (by decide)) (blank.not_mem (by decide))
  obtain ⟨front, back, blankFront, blankBack, whole⟩ := text.exists_trim
  have same := congrArg marks whole
  rw [marks_append, marks_append, quiet blankFront, quiet blankBack, List.nil_append,
    List.append_nil] at same
  exact same.symm

theorem marks_joinLines (text : Text) : text.joinLines.marks = text.marks := by
  induction text with
  | nil => rfl
  | cons c rest ih =>
      by_cases feed : c = '\n'
      · subst feed
        exact ih
      · by_cases isReturn : c = '\r'
        · subst isReturn
          exact ih
        · rw [joinLines_cons ⟨isReturn, feed⟩, ← List.singleton_append, marks_append, ih,
            ← marks_append]
          rfl

theorem OpensQuoted.of_marks {front whole : Text} (opens : whole.OpensQuoted)
    (within : front.marks <+: whole.marks) : front.OpensQuoted := by
  obtain ⟨behind, shown⟩ := within
  intro starts
  refine opens ?_
  rw [← shown, List.head?_append, starts]
  rfl

/-- Without a quote in front of it there is no semicolon. -/
theorem OpensQuoted.not_mem {text : Text} (opens : text.OpensQuoted)
    (noQuote : '"' ∉ text.takeWhile (· != ';')) : ';' ∉ text := by
  intro member
  obtain ⟨front, back, rfl, absent⟩ := List.eq_append_cons_of_mem member
  have passed : ∀ c ∈ front, (c != ';') = true := by
    intro c inside
    simpa using fun same : c = ';' => absent (same ▸ inside)
  rw [List.takeWhile_append_of_pos passed] at noQuote
  have quiet : marks front = [] :=
    marks_eq_nil (fun inside => noQuote (List.mem_append_left _ inside)) absent
  refine opens ?_
  rw [marks_append, quiet]
  rfl

theorem pieces_ne_nil (separator : Char) (text : Text) : pieces separator text ≠ [] := by
  cases text with
  | nil => simp [pieces]
  | cons c rest =>
      rw [pieces]
      split
      · simp
      · split <;> simp

theorem eq_of_pieces {separator : Char} {text first : Text} {later : List Text}
    (cut : pieces separator text = first :: later) :
    text = first ++ later.flatMap (separator :: ·) := by
  induction text generalizing first later with
  | nil =>
      obtain ⟨rfl, rfl⟩ := List.cons.inj cut
      rfl
  | cons c rest ih =>
      rw [pieces] at cut
      split at cut
      · next ends =>
        obtain ⟨rfl, rfl⟩ := List.cons.inj cut
        obtain rfl : c = separator := by simpa using ends
        obtain ⟨next, others, found⟩ := List.exists_cons_of_ne_nil (pieces_ne_nil c rest)
        rw [found, List.flatMap_cons, List.nil_append, List.cons_append, ← ih found]
      · split at cut
        · next nothing => exact absurd nothing (pieces_ne_nil separator rest)
        · next front others found =>
          obtain ⟨rfl, rfl⟩ := List.cons.inj cut
          rw [List.cons_append, ← ih found]

end Text

theorem Quoting.opensQuoted_of_split {text first : Text} {later : List Text}
    (cut : split ';' .outside text = first :: later) : first.OpensQuoted := by
  induction text generalizing first later with
  | nil =>
      obtain ⟨rfl, -⟩ := List.cons.inj cut
      decide
  | cons c rest ih =>
      rw [split] at cut
      split at cut
      · obtain ⟨rfl, -⟩ := List.cons.inj cut
        decide
      · next goesOn =>
        have noSemicolon : c ≠ ';' := fun same => goesOn ⟨rfl, same⟩
        split at cut
        · next nothing => exact absurd nothing (split_ne_nil _ _ _)
        · next front others found =>
          obtain ⟨rfl, rfl⟩ := List.cons.inj cut
          by_cases quote : c = '"'
          · subst quote
            simp [Text.OpensQuoted, Text.marks]
          · have outside : next .outside c = .outside := by simp [next, quote]
            rw [outside] at found
            have opens := ih found
            rw [Text.OpensQuoted, Text.marks] at opens ⊢
            rwa [List.filter_cons_of_neg (by simp [quote, noSemicolon])]

namespace TypeSlot

variable {text essence : Text}

theorem defaultSubtype?_cases {main sub : Text} (found : defaultSubtype? main = some sub) :
    sub = "plain".toList ∨ sub = "octet-stream".toList ∨ sub = "mixed".toList := by
  rw [defaultSubtype?] at found
  split at found
  · exact .inl (Option.some.inj found).symm
  · split at found
    · exact .inr (.inl (Option.some.inj found).symm)
    · split at found
      · exact .inr (.inr (Option.some.inj found).symm)
      · contradiction

theorem marks_defaultSubtype? {main sub : Text} (found : defaultSubtype? main = some sub) :
    sub.marks = [] := by
  rcases defaultSubtype?_cases found with rfl | rfl | rfl <;> decide

/-- The type that is made of a text holds no mark but those at the front of the text. -/
theorem marks_ofText (given : ofText text = .given essence) : essence.marks <+: text.marks := by
  have slash (main sub : Text) : Text.marks (main ++ '/' :: sub) = main.marks ++ sub.marks :=
    Text.marks_append main ('/' :: sub)
  rw [ofText] at given
  split at given
  · next main sub others cut =>
    obtain ⟨front, later, pieces, rfl, rest⟩ := List.map_eq_cons_iff.mp cut
    obtain ⟨middle, last, rfl, rfl, -⟩ := List.map_eq_cons_iff.mp rest
    rw [Text.eq_of_pieces pieces, List.flatMap_cons, List.cons_append, slash, Text.marks_append]
    split at given
    · rw [← TypeSlot.given.inj given, slash, Text.marks_trim, Text.marks_trim,
        ← List.append_assoc]
      exact List.prefix_append _ _
    · split at given
      · next sub found =>
        rw [← TypeSlot.given.inj given, slash, Text.marks_trim, marks_defaultSubtype? found,
          List.append_nil]
        exact List.prefix_append _ _
      · contradiction
  · obtain rfl := TypeSlot.given.inj given
    exact List.prefix_rfl

end TypeSlot

namespace RawMediaType

variable (codec : Codec) (text : Text)

/-- The type is made of what stands in front of the first semicolon outside of quotes. -/
theorem slot_cases :
    (ofText codec text).slot = .missing ∨
      ∃ first later, Quoting.split ';' .outside text = first :: later ∧
        (ofText codec text).slot = TypeSlot.ofText first.trim := by
  simp only [ofText]
  split
  · exact .inl rfl
  · next first later cut =>
    split
    · exact .inl rfl
    · split
      · exact .inl rfl
      · exact .inr ⟨first, later, cut, rfl⟩

theorem opensQuoted_ofText : (MediaType.strictEssence (ofText codec text).slot).OpensQuoted := by
  have placeholder : Text.OpensQuoted (MediaType.strictEssence .missing) := by decide
  rcases slot_cases codec text with missing | ⟨first, later, cut, slot⟩
  · rw [missing]
    exact placeholder
  · rw [slot]
    cases given : TypeSlot.ofText first.trim with
    | missing => exact placeholder
    | given essence =>
        have within := TypeSlot.marks_ofText given
        rw [Text.marks_trim] at within
        exact (Quoting.opensQuoted_of_split cut).of_marks within

end RawMediaType

end LenientMime
