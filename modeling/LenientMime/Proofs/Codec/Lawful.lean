import LenientMime.Charset.Convert
import LenientMime.Proofs.Base64.Coding
import LenientMime.Proofs.Hexadecimal
import LenientMime.Proofs.Text.Utf8

namespace LenientMime

/-- What is relied on where text is written as base64 in UTF-8 and read again. -/
structure Codec.Lawful (codec : Codec) : Prop where
  decode_encode (bytes : Bytes) : codec.decodeBase64? (codec.encodeBase64 bytes) = some bytes
  symbols (bytes : Bytes) : ∀ byte ∈ codec.encodeBase64 bytes,
    Base64.isSymbol byte = true ∨ byte = Byte.equals
  utf8_label (label : Text) : label.lower = "utf-8".toList → codec.charset? label = some .utf8
  utf8_text (text : Text) : codec.decode? .utf8 text.utf8 = some text

namespace Codec.Lawful

variable {codec : Codec} (lawful : codec.Lawful)

include lawful in
/-- What holds of the padding and of each symbol holds of all that base64 writes. -/
theorem forall_mem_encode {p : UInt8 → Prop}
    (all : ∀ n < 256, Base64.isSymbol (UInt8.ofNat n) = true → p (UInt8.ofNat n))
    (padding : p Byte.equals) (bytes : Bytes) : ∀ byte ∈ codec.encodeBase64 bytes, p byte := by
  intro byte member
  rcases lawful.symbols bytes byte member with isSymbol | rfl
  · exact Byte.of_all (p := fun byte => Base64.isSymbol byte = true → p byte) all byte isSymbol
  · exact padding

include lawful in
theorem ascii_encode (bytes : Bytes) : ∀ byte ∈ codec.encodeBase64 bytes, byte.toNat < 0x80 :=
  lawful.forall_mem_encode (by decide +kernel) (by decide) bytes

end Codec.Lawful

namespace Charset

variable {codec : Codec} {label : Text} {charset : Charset}

theorem ofLabel?_of_bare (bare : (unquoteLabel label.trim).trim = label) (nonempty : label ≠ [])
    (known : codec.charset? label = some charset) : ofLabel? label codec = some charset := by
  have shown : label.isEmpty = false := List.isEmpty_eq_false_iff.mpr nonempty
  simp only [ofLabel?, bare, shown, known, Bool.false_eq_true, if_false, Option.some_or]

/-- Bytes convert if the label names a charset and they are well-formed in it. -/
theorem convert?_eq_some_iff {bytes : Bytes} {text : Text} :
    codec.convert? label bytes = some text ↔
      ∃ charset, ofLabel? label codec = some charset ∧ codec.decode? charset bytes = some text := by
  simp only [Codec.convert?, convert]
  cases ofLabel? label codec with
  | none => simp [Except.toOption]
  | some charset =>
      cases decodes : codec.decode? charset bytes with
      | none => simp [Except.toOption, decodes]
      | some found => simp [Except.toOption, decodes]

end Charset

/-- The two spellings of the label that are written. -/
theorem Codec.Lawful.convert?_utf8 {codec : Codec} (lawful : codec.Lawful) {label : Text}
    (written : label = "UTF-8".toList ∨ label = "utf-8".toList) (text : Text) :
    codec.convert? label text.utf8 = some text := by
  refine Charset.convert?_eq_some_iff.mpr ⟨.utf8, ?_, lawful.utf8_text text⟩
  rcases written with rfl | rfl
  · exact Charset.ofLabel?_of_bare (by decide) (by decide) (lawful.utf8_label _ (by decide))
  · exact Charset.ofLabel?_of_bare (by decide) (by decide) (lawful.utf8_label _ (by decide))

theorem Codec.standard_lawful : Codec.standard.Lawful where
  decode_encode := Base64.decode?_encode
  symbols := Base64.forall_mem_encode
    (p := fun byte => Base64.isSymbol byte = true ∨ byte = Byte.equals) (by decide) (by decide)
  utf8_label label same := by
    simp only [standard, Repertoire.ofLabel?, same]
    decide
  utf8_text text := by
    have known : Repertoire.ofCharset? .utf8 = some .utf8 := by decide
    simp only [standard, known, Option.bind_some, Repertoire.decode?, Utf8.decode?_utf8]

end LenientMime
