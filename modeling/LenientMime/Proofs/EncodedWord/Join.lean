import LenientMime.Proofs.EncodedWord.Quoted

namespace LenientMime

namespace EncodedWord

/-! Words side by side.

A long text is written as several words with blanks or line breaks between them, or with
nothing.  Whichever way each word was written, decoding joins the texts and drops what stood
between them.
-/

/-- The two ways to write a text as a word. -/
def Encoding.write (codec : Codec) : Encoding → Text → Text
  | base64, text => encodeBase64 text codec
  | quoted, text => encodeQuoted text

/-- A text that is written as a word, and what stands between the word and the next one. -/
structure WrittenWord where
  text : Text
  encoding : Encoding
  gap : Text := []
  blank : ∀ c ∈ gap, Scanner.isSpacing c = true

namespace WrittenWord

def spelling (codec : Codec) (word : WrittenWord) : Text :=
  word.encoding.write codec word.text

/-- The words with their gaps.  Behind the last one there is none. -/
def join (codec : Codec) : List WrittenWord → Text
  | [] => []
  | [word] => word.spelling codec
  | word :: next :: later => word.spelling codec ++ (word.gap ++ join codec (next :: later))

def segments : List WrittenWord → List Segment
  | [] => []
  | [word] => [.word word.text]
  | word :: next :: later => .word word.text :: (word.gap.map .char ++ segments (next :: later))

theorem begins_spelling {codec : Codec} (lawful : codec.Lawful) (word : WrittenWord)
    (rest : Text) : Begins codec (word.spelling codec ++ rest) word.text rest := by
  rw [spelling]
  cases word.encoding with
  | base64 => exact begins_encodeBase64 lawful word.text rest
  | quoted => exact begins_encodeQuoted lawful word.text rest

end WrittenWord

end EncodedWord

open EncodedWord

/-- A word may begin behind blanks as it may in front of them. -/
theorem Segmented.gap {codec : Codec} {gap rest : Text} {segments : List Segment}
    (blank : ∀ c ∈ gap, Scanner.isSpacing c = true) (found : Segmented codec true rest segments) :
    Segmented codec true (gap ++ rest) (gap.map .char ++ segments) := by
  induction gap with
  | nil => exact found
  | cons c gap ih =>
      obtain ⟨here, later⟩ := List.forall_mem_cons.mp blank
      refine .char (fun _ decoded after begins => ?_) (here ▸ ih later)
      obtain ⟨tail, same⟩ := begins.shape
      rw [(List.cons.inj same).1] at here
      exact absurd here (by decide)

namespace EncodedWord.WrittenWord

theorem segmented_join {codec : Codec} (lawful : codec.Lawful) (words : List WrittenWord) :
    Segmented codec true (join codec words) (segments words) := by
  fun_induction join codec words with
  | case1 => exact .nil true
  | case2 word =>
      have begins := word.begins_spelling lawful []
      rw [List.append_nil] at begins
      exact .word begins (.nil true)
  | case3 word next later ih =>
      exact .word (word.begins_spelling lawful _) (.gap word.blank ih)

theorem segments_cons (word : WrittenWord) (later : List WrittenWord) :
    ∃ behind, segments (word :: later) = .word word.text :: behind := by
  cases later with
  | nil => exact ⟨[], rfl⟩
  | cons next later => exact ⟨_, rfl⟩

theorem render_segments (codec : Codec) (words : List WrittenWord) :
    Form.render codec .decoded (segments words) = words.flatMap text := by
  fun_induction segments words with
  | case1 => exact Form.render_nil .decoded
  | case2 word =>
      rw [Form.render_word, Form.renderBehind_nil]
      rfl
  | case3 word next later ih =>
      obtain ⟨behind, shown⟩ := segments_cons next later
      rw [shown] at ih
      rw [Form.render_word, shown, Form.renderBehind_word word.blank, ih]
      rfl

/-- Texts that were written as words, each in either encoding, and joined with any blanks and
line breaks between them, are decoded to the texts one behind the other. -/
theorem decodeWords_join {codec : Codec} (lawful : codec.Lawful) (words : List WrittenWord) :
    (join codec words).decodeWords codec = words.flatMap text := by
  rw [Text.decodeWords, rewrite_of_segmented (segmented_join lawful words), render_segments]

/-- One word in each encoding, and a folded line between them. -/
theorem decodeWords_join_folded :
    Text.decodeWords "=?UTF-8?B?w6k=?=\r\n =?UTF-8?Q?=C3=BC_=3F?=".toList .standard =
      "éü ?".toList := by
  let words : List WrittenWord := [
    { text := "é".toList, encoding := .base64, gap := "\r\n ".toList,
      blank := List.all_eq_true.mp (by decide) },
    { text := "ü ?".toList, encoding := .quoted, blank := by simp }]
  have spelled : join .standard words = "=?UTF-8?B?w6k=?=\r\n =?UTF-8?Q?=C3=BC_=3F?=".toList := by
    decide +kernel
  rw [← spelled]
  exact (decodeWords_join Codec.standard_lawful words).trans (by decide)

end EncodedWord.WrittenWord

end LenientMime
