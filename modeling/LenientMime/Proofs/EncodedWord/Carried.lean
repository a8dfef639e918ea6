import LenientMime.EncodedWord.Encode
import LenientMime.Proofs.Charset.Label
import LenientMime.Proofs.Codec.Lawful

namespace LenientMime

namespace Byte

/-- A hexadecimal digit in either case, told by its place among the digits. -/
def IsDigit (digit value : UInt8) : Prop :=
  "0123456789ABCDEF".toList[value.toNat]? = some (Char.ofNat digit.toNat).toUpper

instance (digit value : UInt8) : Decidable (IsDigit digit value) :=
  inferInstanceAs (Decidable (_ = _))

theorem IsDigit.small {digit value : UInt8} (isDigit : IsDigit digit value) : value.toNat < 16 :=
  (List.getElem?_eq_some_iff.mp isDigit).1

theorem hexValue?_eq_some_iff {digit value : UInt8} :
    hexValue? digit = some value ↔ IsDigit digit value := by
  constructor
  · intro found
    have each := of_all (p := fun digit => (hexValue? digit).all (IsDigit digit ·) = true)
      (by decide +kernel) digit
    simpa [found] using each
  · intro isDigit
    have each := of_all (p := fun digit => ∀ n < 16, IsDigit digit (UInt8.ofNat n) →
      hexValue? digit = some (UInt8.ofNat n)) (by decide +kernel) digit
    have here := each value.toNat isDigit.small
    rw [UInt8.ofNat_toNat] at here
    exact here isDigit

/-- The byte of two hexadecimal digits. -/
def Spelled (high low byte : UInt8) : Prop :=
  ∃ upper lower, IsDigit high upper ∧ IsDigit low lower ∧ byte = upper * 16 + lower

theorem ofHexPair?_eq_some_iff {high low byte : UInt8} :
    ofHexPair? high low = some byte ↔ Spelled high low byte := by
  constructor
  · intro found
    rw [ofHexPair?] at found
    split at found
    · next upper lower first second =>
      exact ⟨upper, lower, hexValue?_eq_some_iff.mp first, hexValue?_eq_some_iff.mp second,
        (Option.some.inj found).symm⟩
    · contradiction
  · rintro ⟨upper, lower, first, second, rfl⟩
    simp only [ofHexPair?, hexValue?_eq_some_iff.mpr first, hexValue?_eq_some_iff.mpr second]

end Byte

namespace EncodedWord

/-- The bytes that a payload in the quoted encoding stands for. -/
inductive Unquotes : Bytes → Bytes → Prop
  | nil : Unquotes [] []
  | escape {high low byte : UInt8} {payload bytes : Bytes} : Byte.Spelled high low byte →
      Unquotes payload bytes → Unquotes (Byte.equals :: high :: low :: payload) (byte :: bytes)
  /-- An equals sign that begins no escape. -/
  | stray {payload bytes : Bytes} :
      (∀ high low rest byte, payload = high :: low :: rest → ¬ Byte.Spelled high low byte) →
      Unquotes payload bytes → Unquotes (Byte.equals :: payload) (Byte.equals :: bytes)
  | underscore {payload bytes : Bytes} : Unquotes payload bytes →
      Unquotes (Byte.underscore :: payload) (Byte.space :: bytes)
  | plain {byte : UInt8} {payload bytes : Bytes} : byte ≠ Byte.equals → byte ≠ Byte.underscore →
      Unquotes payload bytes → Unquotes (byte :: payload) (byte :: bytes)

theorem unquotePayload_cons {byte : UInt8} (solid : byte ≠ Byte.equals) (rest : Bytes) :
    unquotePayload (byte :: rest) =
      (if byte == Byte.underscore then Byte.space else byte) :: unquotePayload rest := by
  rw [unquotePayload]
  exact fun _ _ _ same _ => solid same

theorem unquotePayload_escape {high low byte : UInt8}
    (spelled : Byte.ofHexPair? high low = some byte) (rest : Bytes) :
    unquotePayload (Byte.equals :: high :: low :: rest) = byte :: unquotePayload rest := by
  have pair := unquotePayload.eq_2 high low rest
  simp only [spelled] at pair
  exact pair

theorem unquotePayload_stray {payload : Bytes}
    (stray : ∀ high low rest, payload = high :: low :: rest → Byte.ofHexPair? high low = none) :
    unquotePayload (Byte.equals :: payload) = Byte.equals :: unquotePayload payload := by
  match payload with
  | [] => rfl
  | [byte] => rfl
  | high :: low :: rest =>
      have pair := unquotePayload.eq_2 high low rest
      simp only [stray high low rest rfl] at pair
      exact pair

theorem unquotes_iff {payload bytes : Bytes} :
    Unquotes payload bytes ↔ unquotePayload payload = bytes := by
  constructor
  · intro unquotes
    induction unquotes with
    | nil => rfl
    | escape spelled _ ih =>
        rw [unquotePayload_escape (Byte.ofHexPair?_eq_some_iff.mpr spelled), ih]
    | stray alone _ ih =>
        rw [unquotePayload_stray, ih]
        intro high low rest shown
        refine Option.eq_none_iff_forall_not_mem.mpr fun byte spelled => ?_
        exact alone high low rest byte shown (Byte.ofHexPair?_eq_some_iff.mp spelled)
    | underscore _ ih =>
        rw [unquotePayload_cons (by decide), ih]
        rfl
    | plain noEquals noUnderscore _ ih =>
        rw [unquotePayload_cons noEquals, ih, if_neg (by simpa using noUnderscore)]
  · rintro rfl
    fun_induction unquotePayload payload with
    | case1 => exact .nil
    | case2 high low rest byte spelled ih =>
        exact .escape (Byte.ofHexPair?_eq_some_iff.mp spelled) ih
    | case3 high low rest unspelled ih =>
        refine .stray (fun _ _ _ byte shown spelled => ?_) ih
        obtain ⟨rfl, rfl, -⟩ := by simpa using shown
        rw [Byte.ofHexPair?_eq_some_iff.mpr spelled] at unspelled
        contradiction
    | case4 byte rest short ih =>
        by_cases equals : byte = Byte.equals
        · subst equals
          exact .stray (fun high low rest byte shown _ => short high low rest rfl shown) ih
        · split
          · next mark =>
            obtain rfl : byte = Byte.underscore := by simpa using mark
            exact .underscore ih
          · next noMark => exact .plain equals (by simpa using noMark) ih

/-- The bytes of a word: base64 may fail, and the quoted encoding does not. -/
def Holds (codec : Codec) (word : EncodedWord) (bytes : Bytes) : Prop :=
  match word.encoding with
  | .base64 => codec.decodeBase64? word.payload.utf8 = some bytes
  | .quoted => Unquotes word.payload.utf8 bytes

theorem bytes?_eq_some_iff {codec : Codec} {word : EncodedWord} {bytes : Bytes} :
    word.bytes? codec = some bytes ↔ word.Holds codec bytes := by
  rw [bytes?, Holds]
  cases word.encoding with
  | base64 => exact Iff.rfl
  | quoted => exact Option.some_inj.trans unquotes_iff.symm

/-- The text of a word: the label is cut in front of its first asterisk and names a charset, in
which the bytes of the word are well-formed. -/
def Carries (codec : Codec) (word : EncodedWord) (text : Text) : Prop :=
  ∃ label language charset bytes,
    word.label = label ++ language ∧ '*' ∉ label ∧ (language = [] ∨ language.head? = some '*') ∧
      codec.Names label charset ∧ word.Holds codec bytes ∧ codec.decode? charset bytes = some text

theorem charsetLabel_eq_iff {word : EncodedWord} {label : Text} :
    word.charsetLabel = label ↔
      ∃ language, word.label = label ++ language ∧ '*' ∉ label ∧
        (language = [] ∨ language.head? = some '*') := by
  have passes (c : Char) : (c != '*') = true ↔ c ≠ '*' := by simp
  constructor
  · rintro rfl
    refine ⟨word.label.dropWhile (· != '*'), List.takeWhile_append_dropWhile.symm, ?_, ?_⟩
    · intro member
      have passed : ∀ c ∈ word.label.takeWhile (· != '*'), (c != '*') = true :=
        List.all_eq_true.mp List.all_takeWhile
      exact (passes '*').mp (passed '*' member) rfl
    · cases shown : word.label.dropWhile (· != '*') with
      | nil => exact .inl rfl
      | cons c rest =>
          have stopped := List.head?_dropWhile_not (· != '*') word.label
          rw [shown] at stopped
          obtain rfl : c = '*' := by simpa using stopped
          exact .inr rfl
  · rintro ⟨language, whole, absent, stops⟩
    have inside : ∀ c ∈ label, (c != '*') = true :=
      fun c member => (passes c).mpr fun same => absent (same ▸ member)
    rw [charsetLabel, whole, List.takeWhile_append_of_pos inside]
    rcases stops with rfl | mark
    · simp
    · cases language with
      | nil => simp at mark
      | cons c rest =>
          obtain rfl := Option.some.inj mark
          simp

/-- A word with a token for a label decodes to the text that it carries. -/
theorem decode?_eq_some_iff {codec : Codec} {word : EncodedWord} {text : Text}
    (tokens : ∀ c ∈ word.label, isTokenChar c = true) :
    word.decode? codec = some text ↔ word.Carries codec text := by
  have names {label language : Text} {charset : Charset} (whole : word.label = label ++ language) :
      Charset.ofLabel? label codec = some charset ↔ codec.Names label charset := by
    refine Charset.ofLabel?_eq_some_iff (Charset.bare_of_tokens fun c member => tokens c ?_)
    rw [whole]
    exact List.mem_append_left language member
  rw [decode?, Option.bind_eq_some_iff]
  constructor
  · rintro ⟨bytes, holds, converts⟩
    obtain ⟨charset, known, decodes⟩ := Charset.convert?_eq_some_iff.mp converts
    obtain ⟨language, whole, absent, stops⟩ := charsetLabel_eq_iff.mp rfl
    exact ⟨word.charsetLabel, language, charset, bytes, whole, absent, stops,
      (names whole).mp known, bytes?_eq_some_iff.mp holds, decodes⟩
  · rintro ⟨label, language, charset, bytes, whole, absent, stops, named, holds, decodes⟩
    refine ⟨bytes, bytes?_eq_some_iff.mpr holds, ?_⟩
    rw [charsetLabel_eq_iff.mpr ⟨language, whole, absent, stops⟩]
    exact Charset.convert?_eq_some_iff.mpr ⟨charset, (names whole).mpr named, decodes⟩

end EncodedWord

end LenientMime
