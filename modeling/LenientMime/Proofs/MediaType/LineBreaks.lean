import LenientMime.Proofs.MediaType.Reading
import LenientMime.Proofs.MediaType.Result
import LenientMime.Proofs.MediaType.Strict
import LenientMime.Proofs.MediaType.Unbroken
import Mathlib

namespace LenientMime

/-! Line breaks in the values that are read.

The lines of a repaired text are joined before the grammar reads it.  So without percent signs
a value gets a line break from an encoded word alone.  There may be one in the repaired text
although the header shows none.  The repair makes one of a bare value beyond ASCII, with the
line breaks inside, and one may come together where backslashes or carriage returns are taken
out, or where pieces meet.
-/

section Repaired

variable {codec : Codec} {text : Text}

namespace Text

theorem percent_not_mem_asWord (lawful : codec.Lawful) (text : Text) :
    '%' ∉ text.asWord codec := by
  have symbols : ∀ c ∈ (EncodedWord.base64Word codec text).payload, c ≠ '%' :=
    EncodedWord.forall_mem_payload lawful (by decide +kernel) (by decide) text
  have payload : '%' ∉ (EncodedWord.base64Word codec text).payload := fun member =>
    symbols _ member rfl
  rw [asWord_eq]
  simp [payload]

theorem percent_not_mem_repairValue (lawful : codec.Lawful) (noPercent : '%' ∉ text) :
    '%' ∉ text.repairValue codec := by
  intro member
  rcases mem_of_mem_repairValue member with inside | quote | backslash | word
  · exact noPercent inside
  · exact absurd quote (by decide)
  · exact absurd backslash (by decide)
  · exact percent_not_mem_asWord lawful text word

theorem percent_not_mem_joinLines (noPercent : '%' ∉ text) : '%' ∉ text.joinLines := by
  intro member
  obtain ⟨c, inside, shown⟩ := List.mem_flatMap.mp member
  split at shown
  · simp at shown
  · split at shown
    · contradiction
    · exact noPercent (List.mem_singleton.mp shown ▸ inside)

theorem cutEncodedName?_of_quiet (quiet : ¬ ['=', '?'] <:+: text) : text.cutEncodedName? = none := by
  have unmarked : "=?".toList.isPrefixOf? text = none := by
    refine Option.eq_none_iff_forall_not_mem.mpr fun rest marked => quiet ?_
    exact ⟨[], rest, List.append_eq_of_isPrefixOf?_eq_some marked⟩
  rw [cutEncodedName?, unmarked]

end Text

/-- A name that is no word is a stretch of its segment in small letters. -/
theorem RawParam.mem_of_mem_name {segment : Text} {raw : RawParam} {c : Char}
    (found : ofSegment? codec segment = some raw) (quiet : ¬ ['=', '?'] <:+: segment)
    (noLetter : ∀ n < 26, (Char.ofNat (65 + n)).toLower ≠ c) (member : c ∈ raw.name) :
    c ∈ segment := by
  have within := segment.infix_trim
  have unmarked : segment.trim.cutEncodedName? = none :=
    Text.cutEncodedName?_of_quiet fun marked => quiet (marked.trans within)
  simp only [ofSegment?, unmarked] at found
  split at found
  · contradiction
  · split at found
    · next name value cut =>
      obtain rfl := Option.some.inj found
      have inside : c ∈ name := name.infix_trim.subset (Text.mem_of_mem_lower noLetter member)
      have whole := (Text.eq_of_cut cut).1
      exact within.subset (whole ▸ List.mem_append_left _ inside)
    · obtain rfl := Option.some.inj found
      exact within.subset (Text.mem_of_mem_lower noLetter member)

namespace TypeSlot

theorem percent_not_mem_ofText (noPercent : '%' ∉ text) :
    '%' ∉ MediaType.strictEssence (ofText text) := by
  rw [ofText]
  split
  · next main sub others cut =>
    obtain ⟨front, later, pieces, rfl, rest⟩ := List.map_eq_cons_iff.mp cut
    obtain ⟨middle, last, rfl, rfl, -⟩ := List.map_eq_cons_iff.mp rest
    rw [Text.eq_of_pieces pieces] at noPercent
    simp only [List.flatMap_cons, List.cons_append, List.mem_append, List.mem_cons,
      not_or] at noPercent
    have noMain : '%' ∉ front.trim := fun member => noPercent.1 (front.infix_trim.subset member)
    have noSub : '%' ∉ middle.trim := fun member =>
      noPercent.2.2.1 (middle.infix_trim.subset member)
    split
    · simp [MediaType.strictEssence, noMain, noSub]
    · split
      · next sub found =>
        have noDefault : '%' ∉ sub := by
          rcases defaultSubtype?_cases found with rfl | rfl | rfl <;> decide
        simp [MediaType.strictEssence, noMain, noDefault]
      · decide
  · exact noPercent

end TypeSlot

theorem RawMediaType.percent_not_mem_slot (noPercent : '%' ∉ text) :
    '%' ∉ MediaType.strictEssence (ofText codec text).slot := by
  rcases slot_cases codec text with missing | ⟨first, later, cut, slot⟩
  · rw [missing]
    decide
  · have within : first <:+: text := Quoting.infix_of_mem_split (cut ▸ List.mem_cons_self)
    rw [slot]
    refine TypeSlot.percent_not_mem_ofText fun member => noPercent ?_
    exact within.subset (first.infix_trim.subset member)

namespace MediaType

/-- The repair adds no percent sign, unless the name of a parameter is a word. -/
theorem percent_not_mem_repairedText (lawful : codec.Lawful) (noPercent : '%' ∉ text)
    (quiet : ¬ ['=', '?'] <:+: text) :
    '%' ∉ repairedText codec (RawMediaType.ofText codec text) := by
  have param (raw : RawParam) (member : raw ∈ (RawMediaType.ofText codec text).params) :
      '%' ∉ repairedParam codec raw := by
    obtain ⟨segment, within, found⟩ := RawMediaType.exists_segment_of_mem member
    have noName : '%' ∉ raw.name := fun inside => noPercent (within.subset
      (RawParam.mem_of_mem_name found (fun marked => quiet (marked.trans within)) (by decide) inside))
    cases valued : raw.value with
    | none => simp [repairedParam, valued]
    | some value =>
        obtain ⟨stretch, inside, rfl⟩ := (RawMediaType.cutFrom_of_mem member).value value valued
        have noValue : '%' ∉ (Text.trim stretch).repairValue codec :=
          Text.percent_not_mem_repairValue lawful fun held =>
            noPercent (inside.subset ((Text.infix_trim stretch).subset held))
        simp [repairedParam, valued, noName, noValue]
  refine Text.percent_not_mem_joinLines fun member => ?_
  rcases List.mem_append.mp member with slot | behind
  · exact RawMediaType.percent_not_mem_slot noPercent slot
  · obtain ⟨raw, inside, held⟩ := List.mem_flatMap.mp behind
    exact param raw inside held

end MediaType

end Repaired

namespace Text

section Joined

variable {front rest : Text}

theorem hidesReturn_front (calm : hidesReturn (front ++ ['"']) = false) :
    front.hidesReturn = false := by
  fun_induction hidesReturn front with
  | case1 c rest ih =>
      have whole : '\\' :: c :: rest ++ ['"'] = '\\' :: c :: (rest ++ ['"']) := rfl
      rw [whole, hidesReturn, Bool.or_eq_false_iff, List.find?_append] at calm
      obtain ⟨here, later⟩ := calm
      rw [ih later, Bool.or_false]
      cases next : rest.find? (· != '\r') with
      | none => simpa [next] using here
      | some d => simpa [next] using here
  | case2 c rest noPair ih =>
      rcases ne_backslash_or_last noPair with noBackslash | ⟨rfl, rfl⟩
      · rw [List.cons_append, hidesReturn_cons noBackslash] at calm
        exact ih calm
      · rfl
  | case3 => rfl

theorem withoutClosingQuote_concat (front : Text) :
    withoutClosingQuote (front ++ ['"']) =
      if front.endsInEscape then front ++ ['"'] else front := by
  cases escaped : front.endsInEscape <;> simp [withoutClosingQuote, escaped]

theorem withoutClosingQuote_of_last {c : Char} (distinct : c ≠ '"') (front : Text) :
    withoutClosingQuote (front ++ [c]) = front ++ [c] := by
  simp [withoutClosingQuote, distinct]

/-- The closing quote is found as well when the lines are joined. -/
theorem withoutClosingQuote_joinLines (calm : hidesReturn (withoutClosingQuote rest) = false)
    (last : ∀ c, rest.getLast? = some c → c ≠ '\r' ∧ c ≠ '\n') :
    withoutClosingQuote rest.joinLines = joinLines (withoutClosingQuote rest) := by
  rcases List.eq_nil_or_concat rest with rfl | ⟨front, c, rfl⟩
  · rfl
  · rw [List.concat_eq_append] at calm last ⊢
    have kept : joinLines [c] = [c] := joinLines_of_unbroken
      (List.forall_mem_singleton.mpr (last c List.getLast?_concat))
    rw [joinLines_append, kept]
    by_cases quote : c = '"'
    · subst quote
      rw [withoutClosingQuote_concat] at calm ⊢
      rw [withoutClosingQuote_concat]
      have frontCalm : hidesReturn front = false := by
        split at calm
        · exact hidesReturn_front calm
        · exact calm
      rw [endsInEscape_joinLines frontCalm]
      split
      · rw [joinLines_append, kept]
      · rfl
    · rw [withoutClosingQuote_of_last quote, withoutClosingQuote_of_last quote, joinLines_append,
        kept]

/-- A quoted value may as well have its lines joined before it is mended. -/
theorem repairValue_joinLines (codec : Codec) (calm : Calm ('"' :: rest))
    (solid : Solid ('"' :: rest)) :
    joinLines (repairValue codec ('"' :: rest)) = repairValue codec (joinLines ('"' :: rest)) := by
  have last : ∀ c, rest.getLast? = some c → c ≠ '\r' ∧ c ≠ '\n' := by
    intro c shown
    have blank := solid.last c (by simp [List.getLast?_cons, shown])
    constructor <;> rintro rfl <;> exact absurd blank (by decide)
  rw [joinLines_cons (by decide), repairValue, repairValue, joinLines_between_quotes,
    withoutClosingQuote_joinLines calm last, joinLines_escapeQuotes calm]

end Joined

/-- What a raw value is read as: what it would be read as with its lines joined beforehand, but for
a bare value beyond ASCII, which is carried in a word with its line breaks. -/
inductive Yields (codec : Codec) : Text → Text → Prop
  | quoted {rest said : Text} (denotes : Denotes (repairValue codec (joinLines ('"' :: rest))) said) :
      Yields codec ('"' :: rest) (said.decodeWords codec)
  | ascii {raw : Text} (bare : raw.head? ≠ some '"') (ascii : raw.isAscii = true) :
      Yields codec raw (raw.joinLines.decodeWords codec)
  | beyond {raw : Text} (bare : raw.head? ≠ some '"') (beyond : raw.isAscii = false) :
      Yields codec raw raw

theorem exists_yields (lawful : codec.Lawful) {raw : Text} (calm : raw.Calm) (solid : raw.Solid) :
    ∃ held, Denotes (raw.repairValue codec).joinLines held ∧
      Yields codec raw (held.decodeWords codec) := by
  by_cases opens : raw.head? = some '"'
  · obtain ⟨said, denotes⟩ := exists_denotes lawful calm
    obtain ⟨rest, rfl⟩ := List.head?_eq_some_iff.mp opens
    exact ⟨said, denotes, .quoted (repairValue_joinLines codec calm solid ▸ denotes)⟩
  · cases ascii : raw.isAscii with
    | true => exact ⟨raw.joinLines, (denotes_of_ascii codec opens ascii).2, .ascii opens ascii⟩
    | false =>
        obtain ⟨denotes, same⟩ := denotes_of_beyond lawful opens ascii
        refine ⟨raw.asWord codec, same.symm ▸ denotes, ?_⟩
        rw [decodeWords_asWord lawful]
        exact .beyond opens ascii

end Text

section Quiet

variable {codec : Codec} {text raw : Text}

/-- Where no carriage return is taken out, joining the lines replaces each character. -/
theorem Text.joinLines_eq_map (noReturn : '\r' ∉ text) :
    text.joinLines = text.map fun c => if c = '\n' then ' ' else c := by
  induction text with
  | nil => rfl
  | cons c rest ih =>
      obtain ⟨distinct, later⟩ := List.ne_and_not_mem_of_not_mem_cons noReturn
      rw [List.map_cons, ← ih later]
      by_cases feed : c = '\n'
      · rw [if_pos feed, feed, joinLines_lineFeed]
      · rw [if_neg feed, joinLines_cons ⟨distinct.symm, feed⟩]

theorem Text.quiet_joinLines (noReturn : '\r' ∉ text) (quiet : ¬ ['=', '?'] <:+: text) :
    ¬ ['=', '?'] <:+: text.joinLines := by
  have kept {c d : Char} (visible : d ≠ ' ') (same : (if c = '\n' then ' ' else c) = d) : c = d := by
    split at same
    · exact absurd same.symm visible
    · exact same
  rw [joinLines_eq_map noReturn, List.infix_map_iff]
  rintro ⟨stretch, within, same⟩
  obtain ⟨c, tail, rfl, first, behind⟩ := List.map_eq_cons_iff.mp same.symm
  obtain ⟨d, last, rfl, second, nothing⟩ := List.map_eq_cons_iff.mp behind
  rw [kept (by decide) first, kept (by decide) second, List.map_eq_nil_iff.mp nothing] at within
  exact quiet within

/-- Without backslashes and carriage returns a value is held with no mark of a word in it, or is
the word that carries it. -/
theorem Text.exists_quiet (lawful : codec.Lawful) (noBackslash : '\\' ∉ raw)
    (noReturn : '\r' ∉ raw) (quiet : ¬ ['=', '?'] <:+: raw) :
    ∃ held, Denotes (raw.repairValue codec).joinLines held ∧
      (¬ ['=', '?'] <:+: held ∨
        raw.head? ≠ some '"' ∧ raw.isAscii = false ∧ held = raw.asWord codec) := by
  by_cases opens : raw.head? = some '"'
  · obtain ⟨rest, rfl⟩ := List.head?_eq_some_iff.mp opens
    have within : withoutClosingQuote rest <:+: '"' :: rest :=
      (prefix_withoutClosingQuote rest).isInfix.trans (List.suffix_cons '"' rest).isInfix
    rw [repairValue]
    generalize withoutClosingQuote rest = body at within
    have escapes : body.escapeQuotes = body.escaped :=
      escapeQuotes_of_noBackslash fun member => noBackslash (within.subset member)
    refine ⟨joinLines body, ?_, .inl ?_⟩
    · rw [escapes, joinLines_between_quotes, joinLines_escaped]
      exact .quotes (quotedBody_escaped _)
    · exact quiet_joinLines (fun member => noReturn (within.subset member)) fun marked =>
        quiet (marked.trans within)
  · cases ascii : raw.isAscii with
    | true =>
        exact ⟨raw.joinLines, (denotes_of_ascii codec opens ascii).2,
          .inl (quiet_joinLines noReturn quiet)⟩
    | false =>
        obtain ⟨denotes, same⟩ := denotes_of_beyond lawful opens ascii
        exact ⟨raw.asWord codec, same.symm ▸ denotes, .inr ⟨opens, rfl, rfl⟩⟩

end Quiet

namespace MediaType

variable {codec : Codec} {text : Text} {options : ReadOptions} {media : MediaType}

/-- A value that stands in the text bare and reaches beyond ASCII.  Its line breaks are kept. -/
def Kept (codec : Codec) (text value : Text) : Prop :=
  ∃ raw ∈ (RawMediaType.ofText codec text.withoutTags).params,
    raw.value = some value ∧ value.head? ≠ some '"' ∧ value.isAscii = false

/-- What can bring the marks of a word together: a backslash or a carriage return that is taken
out, or pieces that are joined. -/
def Severed (codec : Codec) (text : Text) : Prop :=
  '\\' ∈ text ∨ '\r' ∈ text ∨
    ∃ raw ∈ (RawMediaType.ofText codec text.withoutTags).params, '*' ∈ raw.name

/-- A value with words in it that the header does not show, other than the word that a bare value
becomes. -/
structure Decoded (codec : Codec) (text : Text) (param : Text × Text) : Prop where
  severed : Severed codec text
  held : ∃ strict held,
    readStrict (repairedText codec (RawMediaType.ofText codec text.withoutTags)) codec =
      .ok strict ∧
    (param.1, held) ∈ strict.params ∧ ['=', '?'] <:+: held ∧ held.decodeWords codec = param.2 ∧
    ∀ value, Kept codec text value → held ≠ value.asWord codec

theorem infix_of_valued {raw : RawParam} {value : Text}
    (member : raw ∈ (RawMediaType.ofText codec text.withoutTags).params)
    (valued : raw.value = some value) : value <:+: text := by
  obtain ⟨stretch, cut, rfl⟩ := (RawMediaType.cutFrom_of_mem member).value value valued
  exact (Text.infix_trim stretch).trans (cut.trans text.prefix_withoutTags.isInfix)

theorem calm_of_not_mem (codec : Codec) (noReturn : '\r' ∉ text) :
    ∀ raw ∈ (RawMediaType.ofText codec text.withoutTags).params, raw.Calm :=
  fun _ member _ valued => Text.calm_of_not_mem fun inside =>
    noReturn ((infix_of_valued member valued).subset inside)

theorem quiet_of_readStrict (lawful : codec.Lawful) {strict : MediaType}
    (quiet : ¬ ['=', '?'] <:+: text) (whole : ¬ Severed codec text)
    (found : readStrict (repairedText codec (RawMediaType.ofText codec text.withoutTags)) codec =
      .ok strict) :
    ∀ param ∈ strict.params,
      ¬ ['=', '?'] <:+: param.2 ∨ 
        ∃ value, Kept codec text value ∧ param.2 = value.asWord codec := by
  obtain ⟨noBackslash, noReturn, plain⟩ : '\\' ∉ text ∧ '\r' ∉ text ∧
      ∀ raw ∈ (RawMediaType.ofText codec text.withoutTags).params, '*' ∉ raw.name := by
    simpa [Severed] using whole
  have calm := calm_of_not_mem codec noReturn
  rw [readStrict_repairedText_eq lawful calm (isType_of_readStrict lawful calm found)] at found
  obtain rfl := Except.ok.inj found
  have named : ∀ raw ∈ (RawMediaType.ofText codec text.withoutTags).params, raw.name.IsName :=
    fun _ member => (RawMediaType.cutFrom_of_mem member).name
  intro param member
  rw [heldParams, Params.assemble_of_plain codec
    (RawParam.plain_of_mem_held codec named plain)] at member
  obtain ⟨raw, inside, held⟩ := RawParam.exists_of_mem_held member
  cases valued : raw.value with
  | none =>
      rw [RawParam.held?_of_bare valued] at held
      contradiction
  | some value =>
      have within := infix_of_valued inside valued
      obtain ⟨said, denotes, either⟩ := Text.exists_quiet lawful
        (fun member => noBackslash (within.subset member))
        (fun member => noReturn (within.subset member)) fun marked => quiet (marked.trans within)
      rw [RawParam.held?_eq (named raw inside) valued denotes] at held
      obtain rfl := Option.some.inj held
      rcases either with unmarked | ⟨bare, beyond, same⟩
      · exact .inl unmarked
      · exact .inr ⟨value, ⟨raw, inside, valued, bare, beyond⟩, same⟩

theorem unbroken_of_readWith (lawful : codec.Lawful) (keeps : codec.KeepsLines)
    (noPercent : '%' ∉ text) (quiet : ¬ ['=', '?'] <:+: text)
    (read : readWith options text codec = .ok media) :
    ∀ param ∈ media.params,
      param.2.Unbroken ∨ Kept codec text param.2 ∨ Decoded codec text param := by
  intro param member
  rcases exists_strict_of_readWith read with rfl | ⟨strict, found, -, params, -⟩
  · contradiction
  · rw [params] at member
    obtain ⟨⟨name, held⟩, inside, rfl⟩ := List.mem_map.mp member
    by_cases marked : ['=', '?'] <:+: held
    · by_cases wrapped : ∃ value, Kept codec text value ∧ held = value.asWord codec
      · obtain ⟨value, kept, rfl⟩ := wrapped
        refine .inr (.inl ?_)
        rwa [Text.decodeWords_asWord lawful]
      · have severed : Severed codec text := by
          by_contra whole
          rcases quiet_of_readStrict lawful quiet whole found (name, held) inside with
            unmarked | carried
          · exact unmarked marked
          · exact wrapped carried
        refine .inr (.inr ⟨severed, strict, held, found, inside, marked, rfl, ?_⟩)
        exact fun value kept same => wrapped ⟨value, kept, same⟩
    · have within := (text.prefix_withoutTags).isInfix
      have clear := percent_not_mem_repairedText lawful (fun held => noPercent (within.subset held))
        fun marked => quiet (marked.trans within)
      have same : held.decodeWords codec = held := EncodedWord.rewrite_of_quiet marked
      refine .inl ?_
      rw [same]
      exact unbroken_of_readStrict keeps clear found (name, held) inside

-- A backslash keeps the marks of a word apart until the grammar has read the quoted text.
example : readStrict (repairedText .standard
      (RawMediaType.ofText .standard "a; b=\"=\\?utf-8?q?=0A?=\"".toList)) .standard =
    .ok { essence := "a".toList, params := [("b".toList, "=?utf-8?q?=0A?=".toList)] } := by
  decide +kernel

/-- Each parameter by itself is read as what its raw value yields. -/
theorem get?_of_readWith (lawful : codec.Lawful)
    (calm : ∀ raw ∈ (RawMediaType.ofText codec text.withoutTags).params, raw.Calm)
    (isType : IsType (repairedType codec text.withoutTags).typePart)
    (read : readWith options text codec = .ok media) {raw : RawParam} {value : Text}
    (member : raw ∈ (RawMediaType.ofText codec text.withoutTags).params)
    (valued : raw.value = some value) (plain : '*' ∉ raw.name)
    (unextended : (Params.ofList ((RawMediaType.ofText codec text.withoutTags).params.filterMap
      (RawParam.held? codec))).extended? codec raw.name = none) :
    ∃ result, value.Yields codec result ∧ media.params.get? raw.name = some result := by
  rw [readWith_eq lawful calm isType] at read
  obtain rfl := Except.ok.inj read
  obtain ⟨stretch, -, trimmed⟩ := (RawMediaType.cutFrom_of_mem member).value value valued
  obtain ⟨held, denotes, yields⟩ := Text.exists_yields lawful (calm raw member value valued)
    (trimmed ▸ Text.solid_trim stretch)
  refine ⟨held.decodeWords codec, yields, ?_⟩
  rw [decodedParams, Params.get?_map (Text.decodeWords · codec),
    get?_heldParams member valued denotes plain unextended, Option.map_some]

/-- Where the header shows neither percent signs nor encoded words, a value holds a line break
only if it is a bare one beyond ASCII, or comes out of a word whose marks the header spells
apart.  Behind a whole type, a parameter that is not extended is read as what its raw value
yields. -/
theorem readWith_lineBreaks (lawful : codec.Lawful) (keeps : codec.KeepsLines)
    (options : ReadOptions) (text : Text) (media : MediaType)
    (noPercent : '%' ∉ text) (quiet : ¬ ['=', '?'] <:+: text)
    (read : readWith options text codec = .ok media) :
    (∀ param ∈ media.params,
        param.2.Unbroken ∨ Kept codec text param.2 ∨ Decoded codec text param) ∧
      ((∀ raw ∈ (RawMediaType.ofText codec text.withoutTags).params, raw.Calm) →
        IsType (repairedType codec text.withoutTags).typePart →
        ∀ raw ∈ (RawMediaType.ofText codec text.withoutTags).params,
          ∀ value, raw.value = some value → '*' ∉ raw.name →
          (Params.ofList ((RawMediaType.ofText codec text.withoutTags).params.filterMap
            (RawParam.held? codec))).extended? codec raw.name = none →
          ∃ result, value.Yields codec result ∧ media.params.get? raw.name = some result) := by
  constructor
  · exact unbroken_of_readWith lawful keeps noPercent quiet read
  · intro calm isType raw member value valued plain unextended
    exact get?_of_readWith lawful calm isType read member valued plain unextended

/-- A line break in each form of a value: between quotes, also behind a backslash, bare, and bare
beyond ASCII. -/
def folded : Text :=
  "attachment; a=\"x\r\ny\"; b=x\ny; c=\"x\\\r(\"; filename=é\nb".toList

def foldedPieces : RawMediaType :=
  { slot := .given "attachment".toList
    params := [{ name := "a".toList, value := some "\"x\r\ny\"".toList },
      { name := "b".toList, value := some "x\ny".toList },
      { name := "c".toList, value := some "\"x\\\r(\"".toList },
      { name := "filename".toList, value := some "é\nb".toList }] }

def foldedMedia : MediaType :=
  { essence := "attachment".toList
    params := [("a".toList, "x y".toList), ("b".toList, "x y".toList), ("c".toList, "x(".toList),
      ("filename".toList, "é\nb".toList)] }

theorem ofText_folded : RawMediaType.ofText .standard folded.withoutTags = foldedPieces := by
  have untagged : folded.withoutTags = folded := by cbv
  rw [untagged]
  cbv

theorem readWith_folded : readWith {} folded .standard = .ok foldedMedia := by
  have strict : readStrict (repairedText .standard foldedPieces) .standard = .ok {
      essence := "attachment".toList
      params := [("a".toList, "x y".toList), ("b".toList, "x y".toList), ("c".toList, "x(".toList),
        ("filename".toList, "=?utf-8?b?w6kKYg==?=".toList)] } := by
    decide +kernel
  rw [readWith, ofText_folded]
  simp only [strict]
  cbv

theorem readWith_lineBreaks_folded :
    '%' ∉ folded ∧ ¬ ['=', '?'] <:+: folded ∧ readWith {} folded .standard = .ok foldedMedia ∧
      (∀ param ∈ foldedMedia.params,
        param.2.Unbroken ∨ Kept .standard folded param.2 ∨ Decoded .standard folded param) ∧
      (∀ raw ∈ foldedPieces.params, raw.Calm) ∧
      IsType (repairedType .standard folded.withoutTags).typePart ∧
      ∀ raw ∈ foldedPieces.params, ∃ value result, raw.value = some value ∧
        value.Yields .standard result ∧ foldedMedia.params.get? raw.name = some result := by
  have noPercent : '%' ∉ folded := by decide
  have quiet : ¬ ['=', '?'] <:+: folded := by decide
  have calm : ∀ raw ∈ foldedPieces.params, raw.Calm := by decide
  have isType : IsType (repairedType .standard folded.withoutTags).typePart := by
    rw [repairedType, ofText_folded]
    exact .single (by decide +kernel)
  obtain ⟨unbroken, values⟩ := readWith_lineBreaks Codec.standard_lawful Codec.standard_keepsLines
    {} folded foldedMedia noPercent quiet readWith_folded
  refine ⟨noPercent, quiet, readWith_folded, unbroken, calm, isType, fun raw member => ?_⟩
  rw [ofText_folded] at values
  have valued : ∀ raw ∈ foldedPieces.params, raw.value.isSome = true ∧ '*' ∉ raw.name ∧
      (Params.ofList (foldedPieces.params.filterMap (RawParam.held? .standard))).extended?
        .standard raw.name = none := by
    decide +kernel
  obtain ⟨shown, plain, unextended⟩ := valued raw member
  obtain ⟨value, valued⟩ := Option.isSome_iff_exists.mp shown
  obtain ⟨result, yields, held⟩ := values calm isType raw member value valued plain unextended
  exact ⟨value, result, valued, yields, held⟩

theorem readWith_keeps_lineBreak :
    ¬ ∀ codec : Codec, codec.Lawful → codec.KeepsLines → ∀ options text media, '%' ∉ text →
        ¬ ['=', '?'] <:+: text → readWith options text codec = .ok media →
          ∀ param ∈ media.params, param.2.Unbroken := by
  intro holds
  have unbroken := holds .standard Codec.standard_lawful Codec.standard_keepsLines {} folded
    foldedMedia (by decide) (by decide) readWith_folded ("filename".toList, "é\nb".toList)
    (by decide)
  exact absurd unbroken (by decide)

end MediaType

end LenientMime
