import LenientMime.MediaType.Printer
import LenientMime.Proofs.EncodedWord.Encode
import LenientMime.Proofs.MediaType.Value

namespace LenientMime.Text

/-- Printable ASCII, with spaces. -/
def Shown (text : Text) : Prop :=
  ∀ c ∈ text, ' ' ≤ c ∧ c ≤ '~'

def needsWord (value : Text) : Bool :=
  Text.holds "=?".toList value || value.any fun c => c < ' ' || '~' < c

/-- What a header carries in the place of a value. -/
def carried (codec : Codec) (value : Text) : Text :=
  if value.needsWord then EncodedWord.encodeBase64 value codec else value

/-- A token bare, and anything else in quotes. -/
def bareOrQuoted (text : Text) : Text :=
  if text.isToken then text else text.inQuotes

theorem Shown.append {front back : Text} (first : front.Shown) (second : back.Shown) :
    Shown (front ++ back) :=
  List.forall_mem_append.mpr ⟨first, second⟩

theorem shown_of_token {c : Char} (token : isTokenChar c = true) : ' ' ≤ c ∧ c ≤ '~' := by
  obtain ⟨lower, upper, -⟩ := isTokenChar_bounds token
  exact ⟨Char.le_trans (by decide) lower, upper⟩

theorem Shown.of_tokens {text : Text} (tokens : ∀ c ∈ text, isTokenChar c = true) :
    text.Shown :=
  fun c member => shown_of_token (tokens c member)

theorem Shown.unbroken {text : Text} (shown : text.Shown) : text.Unbroken := by
  intro c member
  have lower := (shown c member).1
  constructor
  · intro same
    exact absurd (same ▸ lower) (by decide)
  · intro same
    exact absurd (same ▸ lower) (by decide)

section Words

variable {codec : Codec} (lawful : codec.Lawful)

include lawful

theorem plain_of_mem_word {label : Text} {letter : Char}
    (plainLabel : ∀ c ∈ label, (' ' ≤ c ∧ c ≤ '~') ∧ c ≠ '"' ∧ c ≠ '\\')
    (plainLetter : (' ' ≤ letter ∧ letter ≤ '~') ∧ letter ≠ '"' ∧ letter ≠ '\\') (value : Text) :
    ∀ c ∈ '=' :: '?' :: label ++ '?' :: letter :: '?' ::
      (EncodedWord.base64Word codec value).payload ++ ['?', '='],
      (' ' ≤ c ∧ c ≤ '~') ∧ c ≠ '"' ∧ c ≠ '\\' := by
  simp only [List.cons_append, List.forall_mem_cons, List.forall_mem_append]
  refine ⟨by decide, by decide, ⟨plainLabel, by decide, plainLetter, by decide, ?_⟩,
    by decide, by decide, by simp⟩
  exact EncodedWord.forall_mem_payload lawful (by decide +kernel) (by decide) value

theorem plain_of_mem_encodeBase64 {value : Text} :
    ∀ c ∈ EncodedWord.encodeBase64 value codec, (' ' ≤ c ∧ c ≤ '~') ∧ c ≠ '"' ∧ c ≠ '\\' := by
  rw [EncodedWord.encodeBase64_eq]
  exact plain_of_mem_word lawful (by simp) (by decide) value

end Words

theorem quiet_of_not_needsWord {value : Text} (direct : ¬ value.needsWord = true) :
    ¬ ['=', '?'] <:+: value := by
  simp only [needsWord, Bool.or_eq_true, not_or] at direct
  exact fun inner => direct.1 (holds_iff.mpr inner)

theorem shown_of_not_needsWord {value : Text} (direct : ¬ value.needsWord = true) :
    value.Shown := by
  simp only [needsWord, Bool.or_eq_true, not_or, List.any_eq_true, not_exists, not_and,
    decide_eq_true_eq, Char.not_lt] at direct
  exact direct.2

theorem not_needsWord_of_token {value : Text} (token : value.isToken = true) :
    ¬ value.needsWord = true := by
  have tokens := (isToken_iff.mp token).2
  simp only [needsWord, Bool.or_eq_true, not_or, List.any_eq_true, not_exists, not_and,
    decide_eq_true_eq, Char.not_lt]
  refine ⟨fun held => ?_, fun c member => Shown.of_tokens tokens c member⟩
  have noEquals : '=' ∉ value := not_mem_of_tokens tokens (by decide)
  exact noEquals ((holds_iff.mp held).subset (by simp))

section Carried

variable {codec : Codec} (lawful : codec.Lawful)

include lawful

theorem shown_carried (value : Text) : (value.carried codec).Shown := by
  rw [carried]
  split
  · exact fun c member => (plain_of_mem_encodeBase64 lawful c member).1
  · next direct => exact shown_of_not_needsWord direct

theorem decodeWords_carried (value : Text) :
    (value.carried codec).decodeWords codec = value := by
  rw [carried]
  split
  · exact EncodedWord.decodeWords_encodeBase64 lawful value
  · next direct => exact EncodedWord.rewrite_of_quiet (quiet_of_not_needsWord direct)

theorem headerValue_eq (value : Text) :
    value.headerValue codec = (value.carried codec).bareOrQuoted := by
  by_cases token : value.isToken = true
  · have direct : value.carried codec = value := if_neg (not_needsWord_of_token token)
    rw [headerValue, if_pos token, direct, bareOrQuoted, if_pos token]
  · rw [headerValue, if_neg token, carried, needsWord]
    split
    · have noToken : ¬ (EncodedWord.encodeBase64 value codec).isToken = true := fun token =>
        not_mem_of_tokens (c := '=') (isToken_iff.mp token).2 (by decide) (by
          simp [EncodedWord.encodeBase64_eq])
      rw [bareOrQuoted, if_neg noToken, inQuotes_eq,
        escaped_of_plain fun c member => (plain_of_mem_encodeBase64 lawful c member).2]
    · rw [bareOrQuoted, if_neg token]

end Carried

variable {text : Text}

theorem denotes_bareOrQuoted (text : Text) : Denotes text.bareOrQuoted text := by
  rw [bareOrQuoted]
  split
  · next token => exact .bare token
  · exact denotes_inQuotes text

theorem denotes_headerValue {codec : Codec} (lawful : codec.Lawful) (value : Text) :
    Denotes (value.headerValue codec) (value.carried codec) := by
  rw [headerValue_eq lawful]
  exact denotes_bareOrQuoted (value.carried codec)

theorem shown_inQuotes (shown : text.Shown) : text.inQuotes.Shown := by
  have escaped : text.escaped.Shown := by
    intro c member
    rcases mem_escaped member with inside | rfl
    · exact shown c inside
    · decide
  have quote : Shown ['"'] := by simp [Shown]
  exact (quote.append escaped).append quote

theorem shown_bareOrQuoted (shown : text.Shown) : text.bareOrQuoted.Shown := by
  rw [bareOrQuoted]
  split
  · exact shown
  · exact shown_inQuotes shown

theorem shown_headerValue {codec : Codec} (lawful : codec.Lawful) (value : Text) :
    (value.headerValue codec).Shown := by
  rw [headerValue_eq lawful]
  exact shown_bareOrQuoted (shown_carried lawful value)

end LenientMime.Text
