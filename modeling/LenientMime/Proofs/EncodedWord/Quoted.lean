import LenientMime.Proofs.EncodedWord.Encode
import LenientMime.Proofs.Hexadecimal

namespace LenientMime.EncodedWord

theorem unquotePayload_quoteByte (byte : UInt8) (rest : Bytes) :
    unquotePayload (quoteByte byte ++ rest) = byte :: unquotePayload rest := by
  unfold quoteByte
  split
  · next safe =>
    have solid : byte ≠ Byte.equals := by
      rintro rfl
      exact absurd safe (by decide)
    have noMark : (byte == Byte.underscore) = false := by
      rw [beq_eq_false_iff_ne]
      rintro rfl
      exact absurd safe (by decide)
    rw [List.singleton_append, unquotePayload_cons solid, noMark]
    rfl
  · split
    · next blank =>
      obtain rfl : byte = Byte.space := by simpa using blank
      rw [List.singleton_append, unquotePayload_cons (by decide)]
      rfl
    · exact unquotePayload_escape (Byte.ofHexPair?_hexDigits byte) rest

theorem unquotePayload_quoted (bytes : Bytes) :
    unquotePayload (bytes.flatMap quoteByte) = bytes := by
  induction bytes with
  | nil => rfl
  | cons byte rest ih => rw [List.flatMap_cons, unquotePayload_quoteByte, ih]

theorem payload_of_mem_quoted {bytes : Bytes} {written : UInt8}
    (member : written ∈ bytes.flatMap quoteByte) :
    written.toNat < 0x80 ∧ isPayloadChar (Char.ofNat written.toNat) = true := by
  obtain ⟨byte, -, inside⟩ := List.mem_flatMap.mp member
  -- `List.all` looks at the written bytes only; `∀ written` may be decided over all bytes.
  have each := Byte.of_all (p := fun byte => (quoteByte byte).all (fun written =>
    written.toNat < 0x80 && isPayloadChar (Char.ofNat written.toNat)) = true) (by decide +kernel)
  simpa using List.all_eq_true.mp (each byte) written inside

def quotedWord (text : Text) : EncodedWord :=
  { label := "UTF-8".toList
    encoding := .quoted
    payload := Text.ofAscii (text.utf8.flatMap quoteByte) }

theorem encodeQuoted_eq (text : Text) :
    encodeQuoted text =
      '=' :: '?' :: "UTF-8".toList ++ '?' :: 'Q' :: '?' :: (quotedWord text).payload ++
        ['?', '='] :=
  word_eq (by decide) _

theorem quotedWord_spells (text : Text) : (quotedWord text).Spells (encodeQuoted text) := by
  refine ⟨?_, fun c member => ?_, 'Q', rfl, encodeQuoted_eq text⟩
  · change Text.isToken "UTF-8".toList = true
    decide
  · obtain ⟨byte, inside, rfl⟩ := List.mem_map.mp member
    exact (payload_of_mem_quoted inside).2

theorem decode?_quotedWord {codec : Codec} (lawful : codec.Lawful) (text : Text) :
    (quotedWord text).decode? codec = some text := by
  have ascii : ∀ byte ∈ text.utf8.flatMap quoteByte, byte.toNat < 0x80 :=
    fun byte member => (payload_of_mem_quoted member).1
  refine decode?_of_bytes lawful rfl ?_
  simp only [bytes?, quotedWord, Text.utf8_ofAscii ascii, unquotePayload_quoted]

theorem begins_encodeQuoted {codec : Codec} (lawful : codec.Lawful) (text rest : Text) :
    Begins codec (encodeQuoted text ++ rest) text rest :=
  Begins.of_decode? (quotedWord_spells text) (decode?_quotedWord lawful text) rest

end LenientMime.EncodedWord
