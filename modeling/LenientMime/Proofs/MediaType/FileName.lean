import LenientMime.Proofs.MediaType.Reading
import LenientMime.Proofs.MediaType.Strict

namespace LenientMime

/-! File names as they are found in mail.

A file name often stands bare although it has blanks, quotes or characters beyond ASCII in it,
and quotes around it often enclose others that are not escaped, or are never closed.  Each of
these is repaired in its own way.  Whichever way it is, the name that is read is the name that
was written.
-/

namespace Text

variable {codec : Codec} {text : Text}

theorem endsInEscape_of_noBackslash (noBackslash : '\\' ∉ text) : text.endsInEscape = false := by
  have nothing : text.reverse.takeWhile (· == '\\') = [] := by
    rw [List.takeWhile_eq_nil_iff]
    intro inside same
    have member : '\\' ∈ text.reverse := by
      rw [← beq_iff_eq.mp same]
      exact List.getElem_mem inside
    exact noBackslash (List.mem_reverse.mp member)
  rw [endsInEscape, nothing]
  rfl

/-- Behind an opening quote, quotes are escaped anew and closed. -/
theorem repairValue_opened (noBackslash : '\\' ∉ text) (opened : text.getLast? ≠ some '"') :
    repairValue codec ('"' :: text) = text.inQuotes := by
  have kept : text.withoutClosingQuote = text := by simp [withoutClosingQuote, opened]
  rw [repairValue, kept, escapeQuotes_of_noBackslash noBackslash, inQuotes_eq]

theorem repairValue_closed (noBackslash : '\\' ∉ text) :
    repairValue codec ('"' :: text ++ ['"']) = text.inQuotes := by
  have closed : withoutClosingQuote (text ++ ['"']) = text := by
    simp [withoutClosingQuote, endsInEscape_of_noBackslash noBackslash]
  rw [List.cons_append, repairValue, closed, escapeQuotes_of_noBackslash noBackslash, inQuotes_eq]

theorem last_of_trimEnd (trimmed : text.trimEnd = text) :
    ∀ c, text.getLast? = some c → isBlank c = false := by
  intro c last
  obtain ⟨front, rfl⟩ := List.getLast?_eq_some_iff.mp last
  cases blank : isBlank c with
  | false => rfl
  | true =>
      have gap : Blank [c] := by simpa [Blank] using blank
      have shorter := length_trimEnd_le front
      rw [gap.trimEnd_append] at trimmed
      rw [trimmed, List.length_append, List.length_singleton] at shorter
      omega

theorem solid_of_quote {c : Char} (last : ('"' :: text).getLast? = some c)
    (solidLast : isBlank c = false) : Solid ('"' :: text) := by
  constructor
  · intro d first
    rw [← Option.some.inj first]
    decide
  · intro d shown
    rwa [← Option.some.inj (last.symm.trans shown)]

/-- A name that a header value can hold without taking it for something else: no line break, no
semicolon, no bracket that could close a tag, and no mark of an encoded word. -/
structure IsFileName (text : Text) : Prop where
  unbroken : text.Unbroken
  noSemicolon : ';' ∉ text
  noBracket : '>' ∉ text
  quiet : ¬ ['=', '?'] <:+: text

namespace IsFileName

variable (fileName : text.IsFileName)

include fileName

theorem decodeWords : text.decodeWords codec = text :=
  EncodedWord.rewrite_of_quiet fileName.quiet

theorem denotes_inQuotes : Denotes text.inQuotes.joinLines text := by
  rw [joinLines_of_unbroken fileName.unbroken.inQuotes]
  exact Text.denotes_inQuotes text

/-- A bare name becomes quoted text or a word, and is read as itself in either form. -/
theorem denotes_bare (lawful : codec.Lawful) (bare : text.head? ≠ some '"') :
    ∃ held, Denotes (text.repairValue codec).joinLines held ∧ held.decodeWords codec = text := by
  cases ascii : text.isAscii with
  | true =>
      obtain ⟨-, denotes⟩ := denotes_of_ascii codec bare ascii
      rw [joinLines_of_unbroken fileName.unbroken] at denotes
      exact ⟨text, denotes, fileName.decodeWords⟩
  | false =>
      obtain ⟨denotes, same⟩ := denotes_of_beyond lawful bare ascii
      exact ⟨text.asWord codec, same.symm ▸ denotes, decodeWords_asWord lawful text⟩

end IsFileName

end Text

namespace MediaType

variable {codec : Codec} {type name raw held text : Text}

/-- A value that holds no semicolon may have any quotes in it and still ends its parameter. -/
theorem ofText_single (isType : IsType type) (isName : name.IsName) (solid : raw.Solid)
    (noSemicolon : ';' ∉ raw) :
    RawMediaType.ofText codec (type ++ ';' :: ' ' :: (name ++ '=' :: raw)) =
      { slot := .given type, params := [{ name, value := some raw }] } := by
  have absent : ';' ∉ ' ' :: (name ++ '=' :: raw) := by
    simp [isName.not_mem (c := ';') (by decide), noSemicolon]
  have pieces : Quoting.split ';' .outside (type ++ ';' :: ' ' :: (name ++ '=' :: raw)) =
      [type, ' ' :: (name ++ '=' :: raw)] := by
    rw [isType.passes, Quoting.split, if_pos ⟨rfl, rfl⟩, Quoting.split_of_absent absent,
      Quoting.inFront, List.append_nil]
  have visible : type.isEmpty = false := by simpa using isType.firm.nonempty
  have noEquals : type.contains '=' = false := by
    simpa using isType.not_mem (c := '=') (by decide) (by decide)
  have params : RawParam.ofSegments codec [' ' :: (name ++ '=' :: raw)] =
      [{ name, value := some raw }] := by
    have found : RawParam.ofSegment? codec (' ' :: (name ++ '=' :: raw)) = _ :=
      RawParam.ofSegment?_valued isName.token solid
    rw [isName.lower] at found
    simp [RawParam.ofSegments, found, isName.token, RawParam.firstOfName]
  rw [RawMediaType.ofText, pieces]
  simp only [Text.trim_of_solid isType.firm.solid, visible, noEquals, Bool.false_eq_true, if_false,
    isType.ofText, params]

/-- A parameter that stands alone is read as what its value denotes once it is mended. -/
theorem readWith_single (lawful : codec.Lawful) (isType : IsType type) (isName : name.IsName)
    (plain : '*' ∉ name) (solid : raw.Solid) (noSemicolon : ';' ∉ raw) (noBracket : ∃ c ∈ raw.getLast?, c ≠ '>')
    (calm : raw.Calm) (denotes : Text.Denotes (raw.repairValue codec).joinLines held)
    (options : ReadOptions) :
    readWith options (type ++ ';' :: ' ' :: (name ++ '=' :: raw)) codec =
      .ok { essence := type.lower, params := [(name, held.decodeWords codec)] } := by
  have untagged : Text.withoutTags (type ++ ';' :: ' ' :: (name ++ '=' :: raw)) =
      type ++ ';' :: ' ' :: (name ++ '=' :: raw) := by
    obtain ⟨c, last, noBracket⟩ := noBracket
    obtain ⟨front, rfl⟩ := List.getLast?_eq_some_iff.mp last
    refine Text.Tagless.withoutTags_eq
      ⟨type ++ ';' :: ' ' :: (name ++ '=' :: front), c, [], by simp, ?_, noBracket, .nil⟩
    exact solid.last c last
  have entry : RawParam.held? codec { name, value := some raw } = some (name, held) :=
    RawParam.held?_eq isName rfl denotes
  have held : heldParams codec { slot := .given type, params := [{ name, value := some raw }] } =
      [(name, held)] := by
    have single : Params.ofList [(name, held)] = [(name, held)] := rfl
    rw [heldParams, List.filterMap_cons, entry, List.filterMap_nil]
    exact (congrArg _ single).trans (Params.assemble_of_plain codec (by simpa using plain))
  have read := readWith_of_given lawful
    (untagged ▸ ofText_single isType isName solid noSemicolon) isType
    (by simpa [RawParam.Calm] using calm) options
  rw [read, decodedParams, held]
  cases options.recordBareNames <;> rfl

/-- An attachment and the name of its file. -/
def attached (name : Text) : MediaType :=
  { essence := "attachment".toList, params := [("filename".toList, name)] }

theorem filename?_attached (name : Text) : (attached name).filename? = some name := by
  have found : (attached name).param? "filename".toList = some name := by
    have lower : Text.lower "filename".toList = "filename".toList := by decide
    have params : (attached name).params = [("filename".toList, name)] := rfl
    rw [param?, lower, params, Params.get?]
    exact List.lookup_cons_self
  rw [filename?, found, Option.some_or]

theorem read_attached (lawful : codec.Lawful) (solid : raw.Solid) (noSemicolon : ';' ∉ raw)
    (noBracket : ∃ c ∈ raw.getLast?, c ≠ '>')
    (unbroken : raw.Unbroken) (denotes : Text.Denotes (raw.repairValue codec).joinLines held)
    (decoded : held.decodeWords codec = text) :
    read ("attachment; filename=".toList ++ raw) codec = .ok (attached text) := by
  have front : "attachment; filename=".toList =
      "attachment".toList ++ ';' :: ' ' :: ("filename".toList ++ ['=']) := by
    decide
  have isType : IsType "attachment".toList := .single (by decide)
  have isName : Text.IsName "filename".toList := ⟨by decide, by decide⟩
  have whole : "attachment; filename=".toList ++ raw =
      "attachment".toList ++ ';' :: ' ' :: ("filename".toList ++ '=' :: raw) := by
    rw [front]
    simp
  have lower : Text.lower "attachment".toList = "attachment".toList := by decide
  rw [whole, read, readWith_single lawful isType isName (by decide) solid noSemicolon noBracket
    unbroken.calm denotes, decoded, lower]
  rfl

section Forms

variable (lawful : codec.Lawful) (fileName : text.IsFileName)

include lawful fileName

/-- A bare name, with whatever quotes, backslashes, blanks and characters beyond ASCII. -/
theorem read_bare (nonempty : text ≠ []) (trimmed : text.trim = text)
    (bare : text.head? ≠ some '"') :
    read ("attachment; filename=".toList ++ text) codec = .ok (attached text) := by
  have solid : text.Solid := trimmed ▸ text.solid_trim
  obtain ⟨held, denotes, decoded⟩ := fileName.denotes_bare lawful bare
  obtain ⟨front, c, rfl⟩ : ∃ front c, text = front ++ [c] :=
    ⟨_, _, (List.dropLast_concat_getLast nonempty).symm⟩
  have noBracket : c ≠ '>' := fun same => fileName.noBracket (by simp [same])
  exact read_attached lawful solid fileName.noSemicolon
    ⟨c, List.getLast?_concat, noBracket⟩ fileName.unbroken denotes decoded

/-- A name between quotes, although there may be others in it. -/
theorem read_closed (noBackslash : '\\' ∉ text) :
    read ("attachment; filename=".toList ++ ('"' :: text ++ ['"'])) codec = .ok (attached text) := by
  have last : ('"' :: text ++ ['"']).getLast? = some '"' := List.getLast?_concat
  have solid : Text.Solid ('"' :: text ++ ['"']) := Text.solid_of_quote last (by decide)
  have noSemicolon : ';' ∉ '"' :: text ++ ['"'] := by simp [fileName.noSemicolon]
  have unbroken : Text.Unbroken ('"' :: text ++ ['"']) :=
    .append (List.forall_mem_cons.mpr ⟨by decide, fileName.unbroken⟩) (by decide)
  refine read_attached lawful solid noSemicolon ⟨'"', last, by decide⟩ unbroken ?_ fileName.decodeWords
  rw [Text.repairValue_closed noBackslash]
  exact fileName.denotes_inQuotes

/-- A name behind a quote that is never closed. -/
theorem read_opened (noBackslash : '\\' ∉ text) (opened : text.getLast? ≠ some '"')
    (trimmed : text.trimEnd = text) :
    read ("attachment; filename=".toList ++ '"' :: text) codec = .ok (attached text) := by
  -- The name may be empty, and then the quote is the last character.
  obtain ⟨c, last, solidLast, noBracket⟩ : ∃ c, ('"' :: text).getLast? = some c ∧
      isBlank c = false ∧ c ≠ '>' := by
    rcases List.eq_nil_or_concat text with rfl | ⟨front, c, rfl⟩
    · exact ⟨'"', rfl, by decide, by decide⟩
    · rw [List.concat_eq_append] at trimmed fileName ⊢
      refine ⟨c, ?_, Text.last_of_trimEnd trimmed c List.getLast?_concat, ?_⟩
      · rw [← List.cons_append, List.getLast?_concat]
      · exact fun same => fileName.noBracket (by simp [same])
  have noSemicolon : ';' ∉ '"' :: text := by simp [fileName.noSemicolon]
  have unbroken : Text.Unbroken ('"' :: text) :=
    List.forall_mem_cons.mpr ⟨by decide, fileName.unbroken⟩
  refine read_attached lawful (Text.solid_of_quote last solidLast) noSemicolon ⟨c, last, noBracket⟩
    unbroken ?_ fileName.decodeWords
  rw [Text.repairValue_opened noBackslash opened]
  exact fileName.denotes_inQuotes

/-- A file name is read as it was written in each of three sloppy forms: bare, whatever quotes,
backslashes, blanks and characters beyond ASCII it holds; between quotes although there are
others in it; and behind a quote that is never closed. -/
theorem read_fileName :
    (text ≠ [] → text.trim = text → text.head? ≠ some '"' →
      read ("attachment; filename=".toList ++ text) codec = .ok (attached text)) ∧
    ('\\' ∉ text →
      read ("attachment; filename=".toList ++ ('"' :: text ++ ['"'])) codec = .ok (attached text)) ∧
    ('\\' ∉ text → text.getLast? ≠ some '"' → text.trimEnd = text →
      read ("attachment; filename=".toList ++ '"' :: text) codec = .ok (attached text)) ∧
    (attached text).filename? = some text := by
  refine ⟨?bare, ?closed, ?opened, filename?_attached text⟩
  case bare =>
    intro nonempty trimmed bare
    exact read_bare lawful fileName nonempty trimmed bare
  case closed =>
    intro noBackslash
    exact read_closed lawful fileName noBackslash
  case opened =>
    intro noBackslash opened trimmed
    exact read_opened lawful fileName noBackslash opened trimmed

end Forms

/-- Hard names: one with a quote, a bracket, a letter beyond ASCII, a control character and a
backslash at its end; one with quotes at both ends; and one with quotes inside. -/
theorem read_fileName_hard :
    (Text.IsFileName "5\" <é\x07=\\".toList ∧
      read ("attachment; filename=".toList ++ "5\" <é\x07=\\".toList) .standard =
        .ok (attached "5\" <é\x07=\\".toList)) ∧
    (Text.IsFileName "\"a\" b\"".toList ∧ '\\' ∉ "\"a\" b\"".toList ∧
      read ("attachment; filename=".toList ++ ('"' :: "\"a\" b\"".toList ++ ['"'])) .standard =
        .ok (attached "\"a\" b\"".toList)) ∧
    (Text.IsFileName "a \"b\" ü".toList ∧ '\\' ∉ "a \"b\" ü".toList ∧
      read ("attachment; filename=".toList ++ '"' :: "a \"b\" ü".toList) .standard =
        .ok (attached "a \"b\" ü".toList)) := by
  have bare : Text.IsFileName "5\" <é\x07=\\".toList :=
    ⟨by decide, by decide, by decide, by decide⟩
  have closed : Text.IsFileName "\"a\" b\"".toList := ⟨by decide, by decide, by decide, by decide⟩
  have opened : Text.IsFileName "a \"b\" ü".toList := ⟨by decide, by decide, by decide, by decide⟩
  have noBackslash : '\\' ∉ "\"a\" b\"".toList := by decide
  have noBackslashToo : '\\' ∉ "a \"b\" ü".toList := by decide
  exact ⟨⟨bare, (read_fileName Codec.standard_lawful bare).1 (by decide) (by decide) (by decide)⟩,
    ⟨closed, noBackslash, (read_fileName Codec.standard_lawful closed).2.1 noBackslash⟩,
    opened, noBackslashToo,
    (read_fileName Codec.standard_lawful opened).2.2.1 noBackslashToo (by decide) (by decide)⟩

end MediaType

end LenientMime
