import LenientMime.Proofs.MediaType.Acceptance
import LenientMime.Proofs.MediaType.Agreement
import LenientMime.Proofs.MediaType.Slot
import Mathlib

namespace LenientMime

/-! When a value cannot be read leniently.

The parameters that are left after the repair are ones that the grammar takes, each name
once.  So a value fails by its type alone, whatever stands behind the type.  There is one
exception: a carriage return that hides behind a backslash, in front of a quote, a backslash
or the end of its value.
-/

namespace RawParam

variable {codec : Codec} {raw : RawParam}

/-- No carriage return hides in the value. -/
def Calm (raw : RawParam) : Prop :=
  ∀ value ∈ raw.value, Text.Calm value

instance (raw : RawParam) : Decidable raw.Calm :=
  inferInstanceAs (Decidable (∀ value ∈ raw.value, Text.Calm value))

theorem joinLines_repairedParam {name : Text} (isName : name.IsName) (value : Text) :
    Text.joinLines (MediaType.repairedParam codec { name, value := some value }) =
      "; ".toList ++ name ++ '=' :: (value.repairValue codec).joinLines := by
  have opens : Text.Unbroken "; ".toList := by decide
  have front := opens.append (Text.unbroken_of_tokens isName.tokens)
  rw [MediaType.repairedParam, Text.joinLines_append, Text.joinLines_of_unbroken front,
    Text.joinLines_cons (by decide)]

/-- The name and the mended value of a parameter that has a value. -/
def mended? (codec : Codec) (raw : RawParam) : Option (Text × Text) :=
  raw.value.map fun value => (raw.name, (value.repairValue codec).joinLines)

/-- Once they are mended, calm parameters are written as the grammar takes them. -/
theorem exists_written (lawful : codec.Lawful) {raws : List RawParam}
    (named : ∀ raw ∈ raws, raw.name.IsName)
    (calm : ∀ raw ∈ raws, raw.Calm) :
    ∃ written : List WrittenParam,
      Text.joinLines (raws.flatMap (MediaType.repairedParam codec)) =
        WrittenParam.spelling written ∧
      (written.map fun param => param.param.name).Sublist (raws.map RawParam.name) ∧
      (written.map fun param => (param.name, param.raw)) = raws.filterMap (mended? codec) := by
  induction raws with
  | nil => exact ⟨[], rfl, List.Sublist.slnil, rfl⟩
  | cons first later ih =>
      obtain ⟨isName, namedLater⟩ := List.forall_mem_cons.mp named
      obtain ⟨here, calmLater⟩ := List.forall_mem_cons.mp calm
      obtain ⟨written, spelled, names, raws⟩ := ih namedLater calmLater
      obtain ⟨name, value⟩ := first
      rw [List.flatMap_cons, Text.joinLines_append, spelled]
      cases value with
      | none => exact ⟨written, rfl, names.cons _, raws⟩
      | some raw =>
          obtain ⟨said, denotes⟩ := Text.exists_denotes lawful (here raw rfl)
          let mended : WrittenParam :=
            { name
              raw := (raw.repairValue codec).joinLines
              value := said
              isName := isName.token
              denotes
              unbroken := Text.unbroken_joinLines _
              blankBeforeName := .nil
              blankBeforeEquals := .nil
              blankBeforeValue := .nil
              blankBehind := .nil }
          have lower : name.lower = name := isName.lower
          refine ⟨mended.tidy :: written, ?_, ?_, ?_⟩
          · rw [joinLines_repairedParam isName]
            simp [WrittenParam.spelling, WrittenParam.segment, WrittenParam.core,
              WrittenParam.tidy, mended, lower]
          · have same : mended.tidy.param.name = name := by
              rw [WrittenParam.param_tidy]
              exact lower
            rw [List.map_cons, List.map_cons, same]
            exact names.cons_cons _
          · have same : mended.tidy.name = name := lower
            rw [List.map_cons, raws, same]
            rfl

end RawParam

namespace MediaType

variable {codec : Codec} {text : Text} {options : ReadOptions} {error : Error}

/-- The type that the grammar gets to read. -/
def repairedType (codec : Codec) (text : Text) : Text :=
  Text.joinLines (strictEssence (RawMediaType.ofText codec text).slot)

theorem opensQuoted_repairedType (codec : Codec) (text : Text) :
    (repairedType codec text).OpensQuoted := by
  rw [Text.OpensQuoted, repairedType, Text.marks_joinLines]
  exact RawMediaType.opensQuoted_ofText codec text

theorem typePart_spelling (front : Text) (written : List WrittenParam) :
    Text.typePart (front ++ WrittenParam.spelling written) = front.typePart := by
  cases written with
  | nil => rw [WrittenParam.spelling, List.flatMap_nil, List.append_nil]
  | cons first later =>
      rw [WrittenParam.spelling, List.flatMap_cons, List.cons_append, Text.typePart,
        List.takeWhile_append, Text.typePart]
      split
      · next passed =>
        rw [(List.takeWhile_prefix _).eq_of_length passed, List.takeWhile_cons_of_neg (by decide),
          List.append_nil]
      · rfl

/-- Where a type fills the front there is nothing that cannot stand in a type or beside it. -/
theorem IsType.not_mem_front {c : Char} (isType : IsType text.typePart)
    (solid : isBlank c = false) (other : isTokenChar c = false) (noSlash : c ≠ '/') :
    c ∉ text.takeWhile (· != ';') := by
  obtain ⟨before, behind, blankBefore, blankBehind, whole⟩ :=
    Text.exists_trim (text.takeWhile (· != ';'))
  rw [whole]
  simp only [List.mem_append, not_or]
  exact ⟨⟨blankBefore.not_mem solid, isType.not_mem other noSlash⟩, blankBehind.not_mem solid⟩

section Calm

variable (lawful : codec.Lawful)
  (calm : ∀ raw ∈ (RawMediaType.ofText codec text).params, raw.Calm)

include lawful calm

/-- What is repaired is the type and parameters that are written, no name of them twice. -/
theorem exists_repairedText :
    ∃ written : List WrittenParam,
      repairedText codec (RawMediaType.ofText codec text) =
        repairedType codec text ++ WrittenParam.spelling written ∧
      Param.Consistent (written.map WrittenParam.param) ∧
      (written.map fun param => (param.name, param.raw)) =
        (RawMediaType.ofText codec text).params.filterMap (RawParam.mended? codec) := by
  obtain ⟨written, spelled, names, raws⟩ :=
    RawParam.exists_written lawful (fun _ member => (RawMediaType.cutFrom_of_mem member).name) calm
  refine ⟨written, by rw [repairedText, Text.joinLines_append, spelled, repairedType], ?_, raws⟩
  have distinct : (written.map fun param => param.param.name).Nodup :=
    (List.pairwise_map.mpr (RawMediaType.distinct_params codec text)).sublist names
  rw [← Function.comp_def Param.name, ← List.map_map] at distinct
  intro first memberFirst second memberSecond same
  rw [List.inj_on_of_nodup_map distinct memberFirst memberSecond same]

/-- Once the type is whole, what is repaired is a media type that is written. -/
theorem exists_written_repairedText (isType : IsType (repairedType codec text).typePart) :
    ∃ written : WrittenMediaType,
      written.text = repairedText codec (RawMediaType.ofText codec text) ∧ written.Consistent ∧
      written.essence = (repairedType codec text).typePart ∧
      (written.params.map fun param => (param.name, param.raw)) =
        (RawMediaType.ofText codec text).params.filterMap (RawParam.mended? codec) := by
  obtain ⟨params, repaired, consistent, raws⟩ := exists_repairedText lawful calm
  have noQuote : '"' ∉ (repairedType codec text).takeWhile (· != ';') :=
    isType.not_mem_front (by decide) (by decide) (by decide)
  have noSemicolon : ';' ∉ repairedType codec text :=
    (opensQuoted_repairedType codec text).not_mem noQuote
  have passed : (repairedType codec text).takeWhile (· != ';') = repairedType codec text := by
    refine List.takeWhile_eq_self_iff.mpr fun c member => ?_
    simpa using fun same : c = ';' => noSemicolon (same ▸ member)
  rw [Text.typePart, passed] at isType ⊢
  obtain ⟨before, behind, blankBefore, blankBehind, whole⟩ := (repairedType codec text).exists_trim
  let written : WrittenMediaType :=
    { before, essence := (repairedType codec text).trim, behind, params
      isType, blankBefore, blankBehind, closes := .nothing }
  have spelled : written.text = repairedText codec (RawMediaType.ofText codec text) := by
    rw [repaired, whole]
    simp [WrittenMediaType.text, written]
  exact ⟨written, spelled, consistent, rfl, raws⟩

/-- The grammar reads what is repaired: the type, and the mended parameters. -/
theorem readStrict_repairedText (isType : IsType (repairedType codec text).typePart) :
    ∃ written : WrittenMediaType,
      readStrict (repairedText codec (RawMediaType.ofText codec text)) codec = .ok {
        essence := (repairedType codec text).typePart.lower
        params := written.entries.assemble codec } ∧
      (written.params.map fun param => (param.name, param.raw)) =
        (RawMediaType.ofText codec text).params.filterMap (RawParam.mended? codec) := by
  obtain ⟨written, spelled, consistent, essence, raws⟩ := exists_written_repairedText lawful calm isType
  refine ⟨written, ?_, raws⟩
  rw [← spelled, written.readStrict_text_eq_ok_iff]
  exact WrittenMediaType.media?_eq_some_iff.mpr ⟨consistent, by rw [essence]⟩

theorem typePart_repairedText :
    (repairedText codec (RawMediaType.ofText codec text)).typePart =
      (repairedType codec text).typePart := by
  obtain ⟨params, repaired, -, -⟩ := exists_repairedText lawful calm
  rw [repaired, typePart_spelling]

/-- The grammar fails on what is repaired just by its type. -/
theorem readStrict_repairedText_eq_error_iff :
    readStrict (repairedText codec (RawMediaType.ofText codec text)) codec = .error error ↔
      essenceError? (repairedType codec text).typePart.lower = some error := by
  rw [← typePart_repairedText lawful calm]
  constructor
  · intro failed
    rcases readStrict_error_cases failed with refused | ⟨isType, -⟩
    · exact refused
    · rw [typePart_repairedText lawful calm] at isType
      obtain ⟨written, read, -⟩ := readStrict_repairedText lawful calm isType
      rw [read] at failed
      contradiction
  · intro refused
    rw [Text.typePart] at refused
    rw [readStrict]
    simp only [refused]

theorem isType_of_readStrict {strict : MediaType}
    (read : readStrict (repairedText codec (RawMediaType.ofText codec text)) codec = .ok strict) :
    IsType (repairedType codec text).typePart := by
  refine (essenceError?_eq_none_iff.mp ?_).of_lower
  cases refused : essenceError? (repairedType codec text).typePart.lower with
  | none => rfl
  | some error =>
      rw [(readStrict_repairedText_eq_error_iff lawful calm).mpr refused] at read
      contradiction

end Calm

/-- The repair lets one failure pass, and it adds none. -/
theorem readWith_eq_error_iff_readStrict :
    readWith options text codec = .error error ↔
      error ≠ .noMediaType ∧
        readStrict (repairedText codec (RawMediaType.ofText codec text.withoutTags)) codec =
          .error error := by
  simp only [readWith]
  cases readStrict (repairedText codec (RawMediaType.ofText codec text.withoutTags)) codec with
  | ok strict => simp
  | error found =>
      split
      · next same =>
        obtain rfl := Except.error.inj same
        simp only [reduceCtorEq, false_iff, not_and, Except.error.injEq]
        exact fun other => Ne.symm other
      · next other same =>
        obtain rfl := Except.error.inj same
        simp only [Except.error.injEq]
        constructor
        · rintro rfl
          exact ⟨other, rfl⟩
        · exact And.right
      · contradiction

/-- A value fails just by its type.  Damaged parameters are mended or dropped, wherever they
stand and whatever the damage is, but for a hidden return. -/
theorem readWith_eq_error_iff (lawful : codec.Lawful) (options : ReadOptions) (text : Text)
    (error : Error)
    (calm : ∀ raw ∈ (RawMediaType.ofText codec text.withoutTags).params, raw.Calm) :
    readWith options text codec = .error error ↔
      ∃ problem, error = .invalidMediaType problem ∧
        essenceError? (repairedType codec text.withoutTags).typePart.lower =
          some (.invalidMediaType problem) := by
  rw [readWith_eq_error_iff_readStrict, readStrict_repairedText_eq_error_iff lawful calm]
  constructor
  · rintro ⟨typed, refused⟩
    rcases essenceError?_cases refused with ⟨-, rfl⟩ | ⟨-, problem, rfl⟩
    · exact absurd rfl typed
    · exact ⟨problem, rfl, refused⟩
  · rintro ⟨problem, rfl, refused⟩
    exact ⟨nofun, refused⟩

/-- A type and behind it a value that needs quotes, a name given twice, a value without a name, a
quote too many, a folded line in quotes, carriage returns behind a backslash that is quoted itself
and behind one that quotes nothing, and a name without a value. -/
def damaged (slot : Text) : Text :=
  slot ++ "; a=x y; a=z; =; b=\"q\"r\"\\\r\ns\"; d=\"\\\\\r\\\ru\"; c".toList

theorem readWith_eq_error_iff_damaged :
    ((∀ raw ∈ (RawMediaType.ofText .standard (damaged "a b".toList).withoutTags).params,
        raw.Calm) ∧
      readWith {} (damaged "a b".toList) .standard =
        .error (.invalidMediaType (.missingSlash "a".toList "a b".toList))) ∧
    (∀ raw ∈ (RawMediaType.ofText .standard (damaged "TEXT/".toList).withoutTags).params,
      raw.Calm) ∧
    ∀ error, readWith {} (damaged "TEXT/".toList) .standard ≠ .error error := by
  have mistyped : (damaged "a b".toList).withoutTags = damaged "a b".toList := by cbv
  have typed : (damaged "TEXT/".toList).withoutTags = damaged "TEXT/".toList := by cbv
  have calmMistyped : ∀ raw ∈ (RawMediaType.ofText .standard
      (damaged "a b".toList).withoutTags).params, raw.Calm := by
    rw [mistyped]
    decide +kernel
  have calmTyped : ∀ raw ∈ (RawMediaType.ofText .standard
      (damaged "TEXT/".toList).withoutTags).params, raw.Calm := by
    rw [typed]
    decide +kernel
  refine ⟨⟨calmMistyped, ?_⟩, calmTyped, fun error failed => ?_⟩
  · refine (readWith_eq_error_iff Codec.standard_lawful {} _ _ calmMistyped).mpr ⟨_, rfl, ?_⟩
    cbv
  · obtain ⟨problem, -, refused⟩ :=
      (readWith_eq_error_iff Codec.standard_lawful {} _ _ calmTyped).mp failed
    have accepted : essenceError? (repairedType .standard
        (damaged "TEXT/".toList).withoutTags).typePart.lower = none := by
      cbv
    rw [accepted] at refused
    contradiction

/-- A carriage return that hides before the closing quote.  Once it is gone the backslash quotes
the closing quote. -/
def hiddenReturn : Text :=
  "text/plain; a=\"\\\r\"".toList

theorem readWith_fails_on_hiddenReturn :
    ¬ ∀ codec : Codec, codec.Lawful → ∀ options text error,
      readWith options text codec = .error error → ∃ problem, error = .invalidMediaType problem := by
  have untagged : hiddenReturn.withoutTags = hiddenReturn := by cbv
  have repaired : repairedText .standard (RawMediaType.ofText .standard hiddenReturn) =
      "text/plain; a=\"\\\"".toList := by
    cbv
  have failed : readWith {} hiddenReturn .standard =
      .error (.invalidParameter (.malformed "; a=\"\\\"".toList)) := by
    rw [readWith_eq_error_iff_readStrict, untagged, repaired]
    decide +kernel
  intro holds
  obtain ⟨problem, same⟩ := holds .standard Codec.standard_lawful {} hiddenReturn _ failed
  contradiction

end MediaType

end LenientMime
