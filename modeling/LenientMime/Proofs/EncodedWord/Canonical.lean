import LenientMime.Proofs.EncodedWord.Encode

namespace LenientMime

open EncodedWord

/-! The canonical form settles.

Writing the words of a text anew changes what stands behind a candidate that failed, and so
might let it succeed.  It does not: whether a candidate is a word is decided in front of the
next word, of which it sees the opening mark at most.  So the rewritten text has the segments
of the text.
-/

namespace EncodedWord

variable {codec : Codec} {front tail decoded rest : Text} {c d : Char}

/-- What ends before a mark ends there whatever stands behind the equals sign of the mark. -/
theorem ends_before_mark {inner : Text} (quiet : ¬ ['=', '?'] <:+: inner) (distinct : d ≠ '=')
    (same : inner ++ '?' :: '=' :: rest = front ++ '=' :: '?' :: d :: tail) (other : Text) :
    ∃ after, front ++ '=' :: other = inner ++ '?' :: '=' :: after := by
  rcases List.append_eq_append_iff.mp same with ⟨between, rfl, shown⟩ | ⟨between, rfl, shown⟩
  · match between with
    | [] => exact absurd (List.cons.inj shown).1 (by decide)
    | [mark] =>
        obtain ⟨rfl, -⟩ := List.cons.inj shown
        exact ⟨other, by simp⟩
    | mark :: equals :: later =>
        obtain ⟨rfl, behind⟩ := List.cons.inj shown
        obtain ⟨rfl, -⟩ := List.cons.inj behind
        exact ⟨later ++ '=' :: other, by simp⟩
  · match between with
    | [] => exact absurd (List.cons.inj shown).1 (by decide)
    | [equals] => exact absurd (List.cons.inj (List.cons.inj (List.cons.inj shown).2).2).1 distinct
    | equals :: mark :: later =>
        obtain ⟨rfl, behind⟩ := List.cons.inj shown
        obtain ⟨rfl, -⟩ := List.cons.inj behind
        exact absurd ⟨front, later, by simp⟩ quiet

/-- A word that begins in front of a mark does not depend on what is marked. -/
theorem Begins.of_mark (distinct : d ≠ '=')
    (begins : Begins codec (c :: (front ++ '=' :: '?' :: d :: tail)) decoded rest) (other : Text) :
    ∃ after, Begins codec (c :: (front ++ '=' :: other)) decoded after := by
  obtain ⟨word, spelling, spells, carries, same⟩ := begins
  obtain ⟨letter, isLetter, shape⟩ := spells.shape
  have quiet : ¬ ['=', '?'] <:+: '?' :: (word.label ++ '?' :: letter :: '?' :: word.payload) := by
    rw [List.infix_cons_iff, not_or]
    exact ⟨by simp, Scanner.quiet_word spells.tokens isLetter spells.payload⟩
  obtain ⟨rfl, behind⟩ : c = '=' ∧ front ++ '=' :: '?' :: d :: tail =
      '?' :: (word.label ++ '?' :: letter :: '?' :: word.payload) ++ '?' :: '=' :: rest := by
    rw [shape] at same
    simpa using same
  obtain ⟨after, whole⟩ := ends_before_mark quiet distinct behind.symm other
  exact ⟨after, word, spelling, spells, carries, by rw [shape, whole]; simp⟩

/-- Two texts that part, if they do, behind a mark that opens a word in both. -/
inductive Alike : Text → Text → Prop
  | same (text : Text) : Alike text text
  | mark (front : Text) {c d : Char} {rest tail : Text} : c ≠ '=' → d ≠ '=' →
      Alike (front ++ '=' :: '?' :: c :: rest) (front ++ '=' :: '?' :: d :: tail)

theorem Alike.cons {text other : Text} (alike : Alike text other) (c : Char) :
    Alike (c :: text) (c :: other) := by
  cases alike with
  | same => exact .same _
  | mark front first second => exact .mark (c :: front) first second

theorem Alike.begins {text other : Text} (alike : Alike text other)
    (begins : Begins codec (c :: other) decoded rest) :
    ∃ after, Begins codec (c :: text) decoded after := by
  cases alike with
  | same => exact ⟨rest, begins⟩
  | mark front first second => exact begins.of_mark second _

theorem Begins.exists_mark {text : Text} (begins : Begins codec text decoded rest) :
    ∃ c later, c ≠ '=' ∧ text = '=' :: '?' :: c :: later := by
  obtain ⟨body, rfl⟩ := begins.shape
  obtain ⟨word, letter, nonempty, tokens, -, -, -, rfl⟩ := begins.cut
  obtain ⟨c, label, shown⟩ := List.exists_cons_of_ne_nil nonempty
  rw [shown] at tokens ⊢
  refine ⟨c, _, ?_, rfl⟩
  rintro rfl
  exact absurd (tokens '=' List.mem_cons_self) (by decide)

end EncodedWord

namespace Segmented

variable {codec : Codec} (lawful : codec.Lawful) {mayStart : Bool} {text : Text}
  {segments : List Segment}

include lawful in
theorem alike_canonical (found : Segmented codec mayStart text segments) :
    Alike text (Form.render codec .canonical segments) := by
  induction found with
  | nil => exact .same []
  | @word text decoded rest later begins _ _ =>
      obtain ⟨c, _, first, rfl⟩ := begins.exists_mark
      have written := begins_encodeBase64 lawful decoded (Form.render codec .canonical later)
      obtain ⟨d, _, second, same⟩ := written.exists_mark
      have whole : Form.render codec .canonical (.word decoded :: later) = _ := same
      rw [whole]
      exact .mark [] first second
  | char _ _ ih => exact ih.cons _

include lawful in
/-- The words of a text stay where they are when they are written anew, and no other text
becomes a word. -/
theorem canonical (found : Segmented codec mayStart text segments) :
    Segmented codec mayStart (Form.render codec .canonical segments) segments := by
  induction found with
  | nil mayStart => exact .nil mayStart
  | @word text decoded rest later _ _ ih =>
      exact .word (begins_encodeBase64 lawful decoded (Form.render codec .canonical later)) ih
  | char plain behind ih =>
      refine .char (fun free decoded after begins => ?_) ih
      obtain ⟨_, original⟩ := (behind.alike_canonical lawful).begins begins
      exact plain free _ _ original

end Segmented

/-- Writing the words of a text in their canonical form changes nothing that decoding gives,
and doing it again changes nothing at all. -/
theorem Text.canonicalWords_settles {codec : Codec} (lawful : codec.Lawful) (text : Text) :
    (text.canonicalWords codec).decodeWords codec = text.decodeWords codec ∧
      (text.canonicalWords codec).canonicalWords codec = text.canonicalWords codec := by
  obtain ⟨segments, found⟩ := Segmented.exists_segments codec true text
  have whole : text.canonicalWords codec = Form.render codec .canonical segments :=
    rewrite_of_segmented found
  have again := found.canonical lawful
  rw [whole]
  constructor
  · exact (rewrite_of_segmented again).trans (rewrite_of_segmented found).symm
  · exact rewrite_of_segmented again

/-- Two words, the second of which is left as it is, since its payload is no base64. -/
theorem Text.canonicalWords_settles_half :
    let text : Text := "=?utf-8?q?=c3=bc?= =?utf-8?B?!?=".toList
    (text.canonicalWords .standard).decodeWords .standard = text.decodeWords .standard ∧
      (text.canonicalWords .standard).canonicalWords .standard = text.canonicalWords .standard :=
  canonicalWords_settles Codec.standard_lawful _

end LenientMime
