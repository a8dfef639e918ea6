import LenientMime.Proofs.MediaType.Cutting
import LenientMime.Proofs.MediaType.Printer
import LenientMime.Proofs.MediaType.WellFormed
import Mathlib.Data.List.Infix

namespace LenientMime.Text

/-- A carriage return that is quoted by a backslash hides in front of a quote, a backslash or
the end.  Joining the lines takes it away, and then the backslash quotes what it did not. -/
def hidesReturn : Text → Bool
  | '\\' :: c :: rest =>
      (c == '\r' && (rest.find? (· != '\r')).all fun next => next == '"' || next == '\\') ||
        hidesReturn rest
  | _ :: rest => hidesReturn rest
  | [] => false

/-- No carriage return hides in the value, if it opens with a quote. -/
def Calm : Text → Prop
  | '"' :: rest => hidesReturn (withoutClosingQuote rest) = false
  | _ => True

instance (raw : Text) : Decidable raw.Calm := by
  unfold Calm
  split <;> infer_instance

theorem hidesReturn_cons {c : Char} (noBackslash : c ≠ '\\') (rest : Text) :
    hidesReturn (c :: rest) = hidesReturn rest := by
  rw [hidesReturn]
  exact fun _ _ same _ => noBackslash same

theorem hidesReturn_of_not_mem {text : Text} (noReturn : '\r' ∉ text) :
    text.hidesReturn = false := by
  fun_induction hidesReturn text with
  | case1 c rest ih =>
      have distinct : (c == '\r') = false := by
        simpa using fun same : c = '\r' => noReturn (by simp [same])
      have later : '\r' ∉ rest := fun member => noReturn (by simp [member])
      rw [distinct, Bool.false_and, Bool.false_or, ih later]
  | case2 c rest _ ih => exact ih fun member => noReturn (List.mem_cons_of_mem c member)
  | case3 => rfl

theorem joinLines_append (front back : Text) :
    joinLines (front ++ back) = front.joinLines ++ back.joinLines :=
  List.flatMap_append

theorem joinLines_lineFeed (text : Text) : joinLines ('\n' :: text) = ' ' :: text.joinLines :=
  rfl

theorem joinLines_return (text : Text) : joinLines ('\r' :: text) = text.joinLines :=
  rfl

theorem joinLines_cons {c : Char} (kept : c ≠ '\r' ∧ c ≠ '\n') (text : Text) :
    joinLines (c :: text) = c :: text.joinLines := by
  have single : joinLines [c] = [c] := joinLines_of_unbroken (by simpa [Unbroken] using kept)
  rw [← List.singleton_append, joinLines_append, single]
  rfl

/-- Every other character is kept or becomes a space, in any text alike. -/
theorem exists_joined {c : Char} (noReturn : c ≠ '\r') :
    ∃ d, (∀ text, joinLines (c :: text) = d :: joinLines text) ∧
      (c ≠ '"' → d ≠ '"') ∧ (c ≠ '\\' → d ≠ '\\') := by
  by_cases feed : c = '\n'
  · subst feed
    exact ⟨' ', joinLines_lineFeed, by decide, by decide⟩
  · exact ⟨c, joinLines_cons ⟨noReturn, feed⟩, id, id⟩

theorem unbroken_joinLines (text : Text) : text.joinLines.Unbroken := by
  intro c member
  obtain ⟨origin, -, shown⟩ := List.mem_flatMap.mp member
  split at shown
  · rw [List.mem_singleton.mp shown]
    decide
  · next noFeed =>
    split at shown
    · contradiction
    · next noReturn =>
      rw [List.mem_singleton.mp shown]
      exact ⟨by simpa using noReturn, by simpa using noFeed⟩

/-- Joining the lines leaves a backslash and what it quotes alone. -/
theorem joinLines_escaped (text : Text) : text.escaped.joinLines = text.joinLines.escaped := by
  induction text with
  | nil => rfl
  | cons c rest ih =>
      by_cases special : c = '"' ∨ c = '\\'
      · have kept : c ≠ '\r' ∧ c ≠ '\n' := by
          rcases special with rfl | rfl <;> decide
        rw [escaped_cons_of_special special, joinLines_cons (by decide), joinLines_cons kept,
          joinLines_cons kept, escaped_cons_of_special special, ih]
      · obtain ⟨noQuote, noBackslash⟩ := not_or.mp special
        rw [escaped_cons_of_plain noQuote noBackslash]
        by_cases feed : c = '\n'
        · subst feed
          rw [joinLines_lineFeed, joinLines_lineFeed, ih, escaped_cons_of_plain (by decide) (by decide)]
        · by_cases isReturn : c = '\r'
          · subst isReturn
            rw [joinLines_return, joinLines_return, ih]
          · rw [joinLines_cons ⟨isReturn, feed⟩, joinLines_cons ⟨isReturn, feed⟩, ih,
              escaped_cons_of_plain noQuote noBackslash]

theorem quotedBody_of_plain {text : Text} (plain : ∀ c ∈ text, c ≠ '"' ∧ c ≠ '\\') :
    QuotedBody text text := by
  have body := quotedBody_escaped text
  rwa [escaped_of_plain plain] at body

/-- A character that neither ends the text as a backslash nor hides the next one as such is none. -/
theorem ne_backslash_of_single {c : Char} {rest : Text} (notLast : c = '\\' → rest = [] → False)
    (noPair : ∀ d later, c = '\\' → rest = d :: later → False) : c ≠ '\\' := by
  intro backslash
  cases rest with
  | nil => exact notLast backslash rfl
  | cons d later => exact noPair d later backslash rfl

/-- Where no backslash stands before another character, there is none but at the end. -/
theorem ne_backslash_or_last {c : Char} {rest : Text}
    (noPair : ∀ d later, c = '\\' → rest = d :: later → False) :
    c ≠ '\\' ∨ c = '\\' ∧ rest = [] := by
  cases rest with
  | nil => exact (ne_or_eq c '\\').imp_right fun backslash => ⟨backslash, rfl⟩
  | cons d later => exact .inl fun backslash => noPair d later backslash rfl

theorem escapeQuotes_of_plain {c : Char} (noQuote : c ≠ '"') (noBackslash : c ≠ '\\')
    (rest : Text) : escapeQuotes (c :: rest) = c :: escapeQuotes rest := by
  rw [escapeQuotes]
  · exact fun same _ => noBackslash same
  · exact fun _ _ same _ => noBackslash same
  · exact noQuote

theorem escapeQuotes_of_noBackslash {text : Text} (noBackslash : '\\' ∉ text) :
    text.escapeQuotes = text.escaped := by
  induction text with
  | nil => rfl
  | cons c rest ih =>
      obtain ⟨distinct, later⟩ := List.ne_and_not_mem_of_not_mem_cons noBackslash
      by_cases quote : c = '"'
      · subst quote
        rw [escaped_cons_of_special (.inl rfl), ← ih later]
        rfl
      · rw [escapeQuotes_of_plain quote distinct.symm, ih later,
          escaped_cons_of_plain quote distinct.symm]

/-- With its quotes escaped any body can stand between quotes. -/
theorem exists_quotedBody_escapeQuotes (body : Text) :
    ∃ said, QuotedBody body.escapeQuotes said := by
  fun_induction escapeQuotes body with
  | case1 => exact ⟨[], .nil⟩
  | case2 => exact ⟨['\\'], .quoted (by decide) .nil⟩
  | case3 c rest ih =>
      obtain ⟨said, later⟩ := ih
      cases special : isSpecial c with
      | true => exact ⟨_, .quoted special later⟩
      | false => exact ⟨_, .literal special later⟩
  | case4 rest ih =>
      obtain ⟨said, later⟩ := ih
      exact ⟨_, .quoted (by decide) later⟩
  | case5 c rest notLast noPair noQuote ih =>
      have noBackslash := ne_backslash_of_single notLast noPair
      obtain ⟨said, later⟩ := ih
      exact ⟨_, .plain noQuote noBackslash later⟩

section Calm

variable {c : Char} {rest : Text}

theorem exists_joinLines (next : rest.find? (· != '\r') = some c) (noQuote : c ≠ '"')
    (noBackslash : c ≠ '\\') :
    ∃ d later, rest.joinLines = d :: later ∧ d ≠ '"' ∧ d ≠ '\\' := by
  induction rest with
  | nil => contradiction
  | cons first behind ih =>
      by_cases isReturn : first = '\r'
      · subst isReturn
        exact ih next
      · obtain rfl : first = c := by simpa [isReturn] using next
        obtain ⟨d, joined, unquoted, unescaped⟩ := exists_joined isReturn
        exact ⟨d, _, joined behind, unquoted noQuote, unescaped noBackslash⟩

/-- What a backslash quotes in a text where no carriage return hides. -/
theorem joinLines_pair_cases (calm : hidesReturn ('\\' :: c :: rest) = false) :
    rest.hidesReturn = false ∧
      ((c = '\r' ∧ ∃ d later, rest.joinLines = d :: later ∧ d ≠ '"' ∧ d ≠ '\\') ∨
        ∃ d, ∀ text, joinLines ('\\' :: c :: text) = '\\' :: d :: joinLines text) := by
  rw [hidesReturn, Bool.or_eq_false_iff] at calm
  obtain ⟨here, later⟩ := calm
  refine ⟨later, ?_⟩
  by_cases isReturn : c = '\r'
  · subst isReturn
    rw [beq_self_eq_true, Bool.true_and] at here
    cases next : rest.find? (· != '\r') with
    | none => simp [next] at here
    | some d =>
        obtain ⟨noQuote, noBackslash⟩ : d ≠ '"' ∧ d ≠ '\\' := by simpa [next] using here
        exact .inl ⟨rfl, exists_joinLines next noQuote noBackslash⟩
  · obtain ⟨d, joined, -⟩ := exists_joined isReturn
    refine .inr ⟨d, fun text => ?_⟩
    rw [joinLines_cons (by decide), joined]

/-- Where no carriage return hides, the quotes may as well be escaped behind the joining. -/
theorem joinLines_escapeQuotes {body : Text} (calm : body.hidesReturn = false) :
    body.escapeQuotes.joinLines = body.joinLines.escapeQuotes := by
  fun_induction escapeQuotes body with
  | case1 => rfl
  | case2 => rfl
  | case3 c rest ih =>
      obtain ⟨later, ⟨rfl, d, behind, shown, noQuote, noBackslash⟩ | ⟨d, joined⟩⟩ :=
        joinLines_pair_cases calm
      · -- The backslash comes to stand before a character that is left alone by itself.
        have opening (text : Text) :
            joinLines ('\\' :: '\r' :: text) = '\\' :: joinLines text := rfl
        rw [opening, opening, ih later, shown, escapeQuotes_of_plain noQuote noBackslash,
          escapeQuotes]
      · rw [joined, joined, ih later, escapeQuotes]
  | case4 rest ih =>
      have quote : joinLines ('"' :: rest) = '"' :: joinLines rest := rfl
      rw [hidesReturn_cons (by decide)] at calm
      rw [joinLines_cons (by decide), joinLines_cons (by decide), ih calm, quote, escapeQuotes]
  | case5 c rest notLast noPair noQuote ih =>
      have noBackslash := ne_backslash_of_single notLast noPair
      rw [hidesReturn_cons noBackslash] at calm
      by_cases isReturn : c = '\r'
      · subst isReturn
        exact ih calm
      · obtain ⟨d, joined, unquoted, unescaped⟩ := exists_joined isReturn
        rw [joined, joined, ih calm,
          escapeQuotes_of_plain (unquoted noQuote) (unescaped noBackslash)]

theorem endsInEscape_cons (noBackslash : c ≠ '\\') (rest : Text) :
    endsInEscape (c :: rest) = endsInEscape rest :=
  endsInEscape_append_of_plain noBackslash [] rest

theorem endsInEscape_joinLines {body : Text} (calm : body.hidesReturn = false) :
    endsInEscape body.joinLines = endsInEscape body := by
  fun_induction hidesReturn body with
  | case1 c rest ih =>
      obtain ⟨later, ⟨rfl, d, behind, shown, -, noBackslash⟩ | ⟨d, joined⟩⟩ :=
        joinLines_pair_cases (by rw [hidesReturn]; exact calm)
      · have opening : joinLines ('\\' :: '\r' :: rest) = '\\' :: joinLines rest := rfl
        have below := ih later
        rw [shown, endsInEscape_cons noBackslash] at below
        rw [opening, shown, endsInEscape_pair_cons, below, endsInEscape_pair_cons]
      · rw [joined, endsInEscape_pair_cons, ih later, endsInEscape_pair_cons]
  | case2 c rest noPair ih =>
      rcases ne_backslash_or_last noPair with noBackslash | ⟨rfl, rfl⟩
      · by_cases isReturn : c = '\r'
        · subst isReturn
          rw [joinLines_return, ih calm, endsInEscape_cons noBackslash]
        · obtain ⟨d, joined, -, unescaped⟩ := exists_joined isReturn
          rw [joined, endsInEscape_cons (unescaped noBackslash), ih calm,
            endsInEscape_cons noBackslash]
      · rfl
  | case3 => rfl

end Calm

theorem prefix_withoutClosingQuote (text : Text) : text.withoutClosingQuote <+: text := by
  rw [withoutClosingQuote]
  split
  · exact text.dropLast_prefix
  · exact List.prefix_rfl

theorem mem_of_mem_escapeQuotes {text : Text} {c : Char} (member : c ∈ text.escapeQuotes) :
    c ∈ text ∨ c = '\\' := by
  fun_induction escapeQuotes text with
  | case1 => contradiction
  | case2 => exact .inl (by simpa using member)
  | case3 d rest ih =>
      simp only [List.mem_cons] at member ⊢
      rcases member with same | same | later
      · exact .inr same
      · exact .inl (.inr (.inl same))
      · exact (ih later).imp_left fun inside => .inr (.inr inside)
  | case4 rest ih =>
      simp only [List.mem_cons] at member ⊢
      rcases member with same | same | later
      · exact .inr same
      · exact .inl (.inl same)
      · exact (ih later).imp_left .inr
  | case5 d rest _ _ _ ih =>
      simp only [List.mem_cons] at member ⊢
      rcases member with same | later
      · exact .inl (.inl same)
      · exact (ih later).imp_left .inr

theorem joinLines_between_quotes (body : Text) :
    joinLines ('"' :: body ++ ['"']) = '"' :: body.joinLines ++ ['"'] := by
  rw [joinLines_append, joinLines_cons (by decide)]
  rfl

theorem mem_of_mem_between_quotes {body : Text} {c : Char} (member : c ∈ '"' :: body ++ ['"']) :
    c = '"' ∨ c ∈ body := by
  rw [List.mem_append, List.mem_cons, List.mem_singleton] at member
  rcases member with (quote | inside) | quote
  · exact .inl quote
  · exact .inr inside
  · exact .inl quote

/-- The encoded word that carries a text beyond ASCII. -/
def asWord (codec : Codec) (text : Text) : Text :=
  "=?utf-8?b?".toList ++ ofAscii (codec.encodeBase64 text.utf8) ++ "?=".toList

section Word

variable {codec : Codec}

theorem asWord_eq (codec : Codec) (text : Text) :
    text.asWord codec = '=' :: '?' :: "utf-8".toList ++ '?' :: 'b' :: '?' ::
      (EncodedWord.base64Word codec text).payload ++ ['?', '='] :=
  EncodedWord.word_eq (by decide) _

variable (lawful : codec.Lawful)

include lawful

theorem plain_of_mem_asWord (text : Text) :
    ∀ c ∈ text.asWord codec, (' ' ≤ c ∧ c ≤ '~') ∧ c ≠ '"' ∧ c ≠ '\\' := by
  rw [asWord_eq]
  exact plain_of_mem_word lawful (by simp) (by decide) text

theorem unbroken_asWord (text : Text) : (text.asWord codec).Unbroken :=
  Shown.unbroken fun c member => (plain_of_mem_asWord lawful text c member).1

/-- The word is decoded to the text that it was made of. -/
theorem decodeWords_asWord (text : Text) : (text.asWord codec).decodeWords codec = text := by
  let word : EncodedWord :=
    { EncodedWord.base64Word codec text with label := "utf-8".toList }
  have label : Text.isToken "utf-8".toList = true := by decide
  have spells : word.Spells (text.asWord codec) :=
    ⟨label, EncodedWord.forall_mem_payload lawful (by decide +kernel) (by decide) text, 'b', rfl,
      asWord_eq codec text⟩
  have bytes : word.bytes? codec = some text.utf8 := by
    simp only [EncodedWord.bytes?, word, EncodedWord.base64Word,
      Text.utf8_ofAscii (lawful.ascii_encode _), lawful.decode_encode]
  have plain : List.takeWhile (· != '*') "utf-8".toList = "utf-8".toList := by decide
  have decodes : word.decode? codec = some text :=
    EncodedWord.decode?_of_label lawful (.inr plain) bytes
  have begins := EncodedWord.Begins.of_decode? spells decodes []
  rw [List.append_nil] at begins
  exact EncodedWord.decodeWords_of_begins begins

end Word

section Bare

variable {codec : Codec} {raw : Text}

/-- A value without an opening quote becomes a token, a quoted text, or a word in quotes. -/
theorem repairValue_of_bare (codec : Codec) (bare : raw.head? ≠ some '"') :
    raw.repairValue codec =
      if raw.isToken then raw else if raw.isAscii then raw.inQuotes
      else '"' :: raw.asWord codec ++ ['"'] := by
  have word : raw.asWord codec =
      "=?utf-8?b?".toList ++ ofAscii (codec.encodeBase64 raw.utf8) ++ "?=".toList := rfl
  have quotes : "\"=?utf-8?b?".toList ++ ofAscii (codec.encodeBase64 raw.utf8) ++ "?=\"".toList =
      '"' :: raw.asWord codec ++ ['"'] := by
    have opening : "\"=?utf-8?b?".toList = '"' :: "=?utf-8?b?".toList := by decide
    have closing : "?=\"".toList = "?=".toList ++ ['"'] := by decide
    rw [opening, closing, word]
    simp only [List.cons_append, List.append_assoc]
  rw [repairValue, quotes]
  rintro rest rfl
  exact bare rfl

theorem isAscii_of_token (token : raw.isToken = true) : raw.isAscii = true := by
  refine List.all_eq_true.mpr fun c member => decide_eq_true ?_
  have upper : c.toNat ≤ 0x7E := (isTokenChar_bounds ((isToken_iff.mp token).2 c member)).2.1
  omega

theorem denotes_of_ascii (codec : Codec) (bare : raw.head? ≠ some '"')
    (ascii : raw.isAscii = true) :
    Denotes (raw.repairValue codec) raw ∧
      Denotes (raw.repairValue codec).joinLines raw.joinLines := by
  rw [repairValue_of_bare codec bare, if_pos ascii]
  split
  · next token =>
    rw [joinLines_of_unbroken (unbroken_of_tokens (isToken_iff.mp token).2)]
    exact ⟨.bare token, .bare token⟩
  · rw [inQuotes_eq, joinLines_between_quotes, joinLines_escaped]
    exact ⟨.quotes (quotedBody_escaped _), .quotes (quotedBody_escaped _)⟩

/-- The line breaks of a text beyond ASCII are inside the word before the lines are joined. -/
theorem denotes_of_beyond (lawful : codec.Lawful) (bare : raw.head? ≠ some '"')
    (beyond : raw.isAscii = false) :
    Denotes (raw.repairValue codec) (raw.asWord codec) ∧
      (raw.repairValue codec).joinLines = raw.repairValue codec := by
  have noToken : ¬ raw.isToken = true := fun token => by
    rw [isAscii_of_token token] at beyond
    contradiction
  have body := plain_of_mem_asWord lawful raw
  rw [repairValue_of_bare codec bare, if_neg noToken, beyond, if_neg (by decide),
    joinLines_between_quotes, joinLines_of_unbroken (unbroken_asWord lawful raw)]
  exact ⟨.quotes (quotedBody_of_plain fun c member => (body c member).2), rfl⟩

theorem mem_of_mem_repairValue {c : Char} (member : c ∈ raw.repairValue codec) :
    c ∈ raw ∨ c = '"' ∨ c = '\\' ∨ c ∈ raw.asWord codec := by
  by_cases opens : raw.head? = some '"'
  · obtain ⟨rest, rfl⟩ := List.head?_eq_some_iff.mp opens
    rw [repairValue] at member
    rcases mem_of_mem_between_quotes member with quote | inside
    · exact .inr (.inl quote)
    · rcases mem_of_mem_escapeQuotes inside with here | backslash
      · exact .inl (List.mem_cons_of_mem _ ((prefix_withoutClosingQuote rest).subset here))
      · exact .inr (.inr (.inl backslash))
  · rw [repairValue_of_bare codec opens] at member
    split at member
    · exact .inl member
    · split at member
      · rw [inQuotes_eq] at member
        rcases mem_of_mem_between_quotes member with quote | inside
        · exact .inr (.inl quote)
        · rcases mem_escaped inside with here | backslash
          · exact .inl here
          · exact .inr (.inr (.inl backslash))
      · rcases mem_of_mem_between_quotes member with quote | word
        · exact .inr (.inl quote)
        · exact .inr (.inr (.inr word))

theorem Unbroken.repairValue (lawful : codec.Lawful) (unbroken : raw.Unbroken) :
    (raw.repairValue codec).Unbroken := by
  intro c member
  rcases mem_of_mem_repairValue member with inside | rfl | rfl | word
  · exact unbroken c inside
  · decide
  · decide
  · exact unbroken_asWord lawful raw c word

theorem calm_of_not_mem (noReturn : '\r' ∉ raw) : raw.Calm := by
  unfold Calm
  split
  · next rest =>
    exact hidesReturn_of_not_mem fun member =>
      noReturn (List.mem_cons_of_mem _ ((prefix_withoutClosingQuote rest).subset member))
  · trivial

theorem Unbroken.calm (unbroken : raw.Unbroken) : raw.Calm :=
  calm_of_not_mem fun member => (unbroken _ member).1 rfl

/-- A value that is mended is one that the grammar can read, once its lines are joined. -/
theorem exists_denotes (lawful : codec.Lawful) (calm : raw.Calm) :
    ∃ said, Denotes (raw.repairValue codec).joinLines said := by
  by_cases opens : raw.head? = some '"'
  · obtain ⟨rest, rfl⟩ := List.head?_eq_some_iff.mp opens
    obtain ⟨said, quotedBody⟩ := exists_quotedBody_escapeQuotes (joinLines (withoutClosingQuote rest))
    rw [repairValue, joinLines_between_quotes, joinLines_escapeQuotes calm]
    exact ⟨said, .quotes quotedBody⟩
  · cases ascii : raw.isAscii with
    | true => exact ⟨raw.joinLines, (denotes_of_ascii codec opens ascii).2⟩
    | false =>
        obtain ⟨denotes, same⟩ := denotes_of_beyond lawful opens ascii
        exact ⟨raw.asWord codec, same.symm ▸ denotes⟩

end Bare

end LenientMime.Text
