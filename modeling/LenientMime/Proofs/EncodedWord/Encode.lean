import LenientMime.Proofs.EncodedWord.Scan

namespace LenientMime.EncodedWord

variable {codec : Codec} {form : Form}

theorem rewrite_of_quiet {text : Text} (quiet : ¬ ['=', '?'] <:+: text) :
    rewrite codec form text = text := by
  obtain ⟨segments, found⟩ := Segmented.exists_segments codec true text
  rw [rewrite_of_segmented found, Segmented.of_quiet quiet found, Form.render_plain]

def base64Word (codec : Codec) (text : Text) : EncodedWord :=
  { label := "UTF-8".toList
    encoding := .base64
    payload := Text.ofAscii (codec.encodeBase64 text.utf8) }

theorem forall_mem_payload (lawful : codec.Lawful) {p : Char → Prop}
    (symbols : ∀ n < 256, Base64.isSymbol (UInt8.ofNat n) = true →
      p (Char.ofNat (UInt8.ofNat n).toNat))
    (padding : p '=') (text : Text) : ∀ c ∈ (base64Word codec text).payload, p c := by
  intro c member
  rw [base64Word, Text.ofAscii] at member
  obtain ⟨byte, inside, rfl⟩ := List.mem_map.mp member
  exact lawful.forall_mem_encode (p := fun byte => p (Char.ofNat byte.toNat))
    symbols padding text.utf8 byte inside

/-- How a word is put together. -/
theorem word_eq {opening label : Text} {letter : Char}
    (opens : opening = '=' :: '?' :: (label ++ ['?', letter, '?'])) (payload : Text) :
    opening ++ payload ++ "?=".toList =
      '=' :: '?' :: label ++ '?' :: letter :: '?' :: payload ++ ['?', '='] := by
  have closes : "?=".toList = ['?', '='] := by decide
  rw [opens, closes]
  simp

theorem encodeBase64_eq (codec : Codec) (text : Text) :
    encodeBase64 text codec =
      '=' :: '?' :: "UTF-8".toList ++ '?' :: 'B' :: '?' :: (base64Word codec text).payload ++
        ['?', '='] :=
  word_eq (by decide) _

theorem base64Word_spells (lawful : codec.Lawful) (text : Text) :
    (base64Word codec text).Spells (encodeBase64 text codec) := by
  refine ⟨?_, forall_mem_payload lawful (by decide +kernel) (by decide) text, 'B', rfl,
    encodeBase64_eq codec text⟩
  change Text.isToken "UTF-8".toList = true
  decide

theorem decode?_of_label (lawful : codec.Lawful) {word : EncodedWord} {text : Text}
    (label : word.charsetLabel = "UTF-8".toList ∨ word.charsetLabel = "utf-8".toList)
    (bytes : word.bytes? codec = some text.utf8) : word.decode? codec = some text := by
  rw [decode?, bytes, Option.bind_some, lawful.convert?_utf8 label]

/-- A word in UTF-8 decodes to the text whose bytes it carries. -/
theorem decode?_of_bytes (lawful : codec.Lawful) {word : EncodedWord} {text : Text}
    (label : word.label = "UTF-8".toList) (bytes : word.bytes? codec = some text.utf8) :
    word.decode? codec = some text := by
  have plain : List.takeWhile (· != '*') "UTF-8".toList = "UTF-8".toList := by decide
  have same : word.charsetLabel = "UTF-8".toList := by rw [charsetLabel, label, plain]
  exact decode?_of_label lawful (.inl same) bytes

theorem decode?_base64Word (lawful : codec.Lawful) (text : Text) :
    (base64Word codec text).decode? codec = some text := by
  refine decode?_of_bytes lawful rfl ?_
  simp only [bytes?, base64Word, Text.utf8_ofAscii (lawful.ascii_encode _), lawful.decode_encode]

theorem begins_encodeBase64 (lawful : codec.Lawful) (text rest : Text) :
    Begins codec (encodeBase64 text codec ++ rest) text rest :=
  Begins.of_decode? (base64Word_spells lawful text) (decode?_base64Word lawful text) rest

theorem decodeWords_of_begins {text decoded : Text} (begins : Begins codec text decoded []) :
    text.decodeWords codec = decoded := by
  have found : Segmented codec true text [.word decoded] := .word begins (.nil true)
  rw [Text.decodeWords, rewrite_of_segmented found, Form.render_word, Form.renderBehind_nil,
    List.append_nil]
  rfl

/-- A text written as a word is decoded to itself. -/
theorem decodeWords_encodeBase64 (lawful : codec.Lawful) (text : Text) :
    (encodeBase64 text codec).decodeWords codec = text := by
  have begins := begins_encodeBase64 lawful text []
  rw [List.append_nil] at begins
  exact decodeWords_of_begins begins

end LenientMime.EncodedWord
