import LenientMime.Proofs.MediaType.Params

namespace LenientMime

/-- The part of a header value that has to be a type. -/
def Text.typePart (text : Text) : Text :=
  trim (text.takeWhile (· != ';'))

theorem Text.token_lower (text : Text) :
    text.lower.token = (text.token.1.lower, text.token.2.lower) := by
  have same : isTokenChar ∘ Char.toLower = isTokenChar := funext fun c => (toLower_keeps c).1
  rw [token, token, lower, List.takeWhile_map, List.dropWhile_map, same]
  rfl

namespace WrittenMediaType

variable {written : WrittenMediaType}

/-- No name is given two values. -/
def Consistent (written : WrittenMediaType) : Prop :=
  Param.Consistent (written.params.map WrittenParam.param)

/-- The parameters under the names they are written with, extended ones among them. -/
def entries (written : WrittenMediaType) : Params :=
  Params.ofList (written.params.map fun param => param.param.entry)

theorem enterAll?_eq_some_iff {params : Params} :
    Params.enterAll? [] (written.params.map WrittenParam.param) = some params ↔
      written.Consistent ∧ params = written.entries := by
  rw [Params.enterAll?_eq_some_iff, List.map_map]
  rfl

theorem media?_eq_some_iff {codec : Codec} {media : MediaType} :
    written.media? codec = some media ↔
      written.Consistent ∧
        media = { essence := written.essence.lower, params := written.entries.assemble codec } := by
  simp only [media?, Option.map_eq_some_iff, enterAll?_eq_some_iff]
  constructor
  · rintro ⟨params, ⟨consistent, rfl⟩, rfl⟩
    exact ⟨consistent, rfl⟩
  · rintro ⟨consistent, rfl⟩
    exact ⟨_, ⟨consistent, rfl⟩, rfl⟩

theorem get?_entries (consistent : written.Consistent) {name value : Text} :
    written.entries.get? name = some value ↔
      ∃ param ∈ written.params, param.name.lower = name ∧ param.value = value := by
  have held : written.entries.get? name = some value ↔
      { name, value } ∈ written.params.map WrittenParam.param := by
    rw [← Params.get?_ofList consistent, List.map_map]
    rfl
  refine held.trans (List.mem_map.trans (exists_congr fun param => and_congr_right fun _ => ?_))
  exact ⟨fun same => Param.mk.inj same, fun same => congr (congrArg Param.mk same.1) same.2⟩

theorem ordered_entries (written : WrittenMediaType) : written.entries.Ordered :=
  Params.ordered_ofList _

theorem isName_entries (written : WrittenMediaType) : ∀ param ∈ written.entries, param.1.IsName := by
  intro param member
  obtain ⟨origin, -, rfl⟩ := List.mem_map.mp (Params.mem_ofList member)
  exact ⟨(Text.isToken_lower origin.name).trans origin.isName, Text.lower_lower origin.name⟩

end WrittenMediaType

theorem essenceError?_cases {essence : Text} {error : Error}
    (refused : essenceError? essence = some error) :
    essence.token.1 = [] ∧ error = .noMediaType ∨
      essence.token.1 ≠ [] ∧ ∃ problem, error = .invalidMediaType problem := by
  unfold essenceError? at refused
  split at refused
  · next rest found =>
    rw [found]
    exact .inl ⟨rfl, (Option.some.inj refused).symm⟩
  · contradiction
  · next main c rest first found =>
    have front : essence.token.1 ≠ [] := by
      rw [found]
      exact first
    refine .inr ⟨front, ?_⟩
    split at refused
    · exact ⟨_, (Option.some.inj refused).symm⟩
    · split at refused
      · exact ⟨_, (Option.some.inj refused).symm⟩
      · contradiction
      · exact ⟨_, (Option.some.inj refused).symm⟩

theorem Params.invalidParameter_of_readFrom {seen : Params} {text : Text} {error : Error}
    (failed : readFrom seen text = .error error) : ∃ problem, error = .invalidParameter problem := by
  fun_induction readFrom seen text with
  | case1 => contradiction
  | case2 => contradiction
  | case3 => exact ⟨_, (Except.error.inj failed).symm⟩
  | case4 seen text some param rest found absent ih => exact ih failed
  | case5 seen text some param rest found present ih => exact ih failed
  | case6 => exact ⟨_, (Except.error.inj failed).symm⟩

namespace MediaType

variable {codec : Codec} {text part : Text} {error : Error}

/-- What an error says about the part in front of the first semicolon. -/
def Refuses (part : Text) : Error → Prop
  | .noMediaType => part.token.1 = []
  | .invalidMediaType _ => part.token.1 ≠ [] ∧ ¬ IsType part
  | .invalidParameter _ => IsType part
  | _ => False

theorem readStrict_error_cases (failed : readStrict text codec = .error error) :
    essenceError? text.typePart.lower = some error ∨
      IsType text.typePart ∧ ∃ problem, error = .invalidParameter problem := by
  rw [readStrict, ← Text.typePart] at failed
  split at failed
  · next refused =>
    obtain rfl := Except.error.inj failed
    exact .inl refused
  · next accepted =>
    split at failed
    · next unread =>
      obtain rfl := Except.error.inj failed
      exact .inr ⟨(essenceError?_eq_none_iff.mp accepted).of_lower,
        Params.invalidParameter_of_readFrom unread⟩
    · contradiction

theorem refuses_of_essenceError? (refused : essenceError? part.lower = some error) :
    Refuses part error := by
  have front : part.lower.token.1 = [] ↔ part.token.1 = [] := by
    rw [part.token_lower]
    exact List.map_eq_nil_iff
  rcases essenceError?_cases refused with ⟨nothing, rfl⟩ | ⟨some, problem, rfl⟩
  · exact front.mp nothing
  · refine ⟨fun nothing => some (front.mpr nothing), fun isType => ?_⟩
    rw [essenceError?_eq_none_iff.mpr isType.lower] at refused
    contradiction

/-- The strict grammar takes a value just if it is written as a media type that gives no
parameter two values.  What is read is then the type and the values that are written, but
for extended parameters.  A value that is refused has no type, or a malformed one, or
parameters that cannot be read, and the error says which. -/
theorem readStrict_characterization (codec : Codec) (text : Text) :
    ((∃ media, readStrict text codec = .ok media) ↔
      ∃ written : WrittenMediaType, written.text = text ∧ written.Consistent) ∧
    (∀ (written : WrittenMediaType) (media : MediaType),
      written.text = text → readStrict text codec = .ok media →
        written.Consistent ∧ media.essence = written.essence.lower ∧
        ∀ name value, '*' ∉ name → written.entries.extended? codec name = none →
          (media.params.get? name = some value ↔
            ∃ param ∈ written.params, param.name.lower = name ∧ param.value = value)) ∧
    (∀ error, readStrict text codec = .error error → Refuses text.typePart error) := by
  refine ⟨⟨?_, ?_⟩, ?_, ?_⟩
  · rintro ⟨media, read⟩
    obtain ⟨written, spelled, reads⟩ := readStrict_eq_ok_iff.mp read
    exact ⟨written, spelled, (WrittenMediaType.media?_eq_some_iff.mp reads).1⟩
  · rintro ⟨written, spelled, consistent⟩
    have reads : written.media? codec = some _ :=
      WrittenMediaType.media?_eq_some_iff.mpr ⟨consistent, rfl⟩
    exact ⟨_, readStrict_eq_ok_iff.mpr ⟨written, spelled, reads⟩⟩
  · rintro written media rfl read
    obtain ⟨consistent, rfl⟩ :=
      WrittenMediaType.media?_eq_some_iff.mp (written.readStrict_text_eq_ok_iff.mp read)
    refine ⟨consistent, rfl, fun name value plain unextended => ?_⟩
    rw [Params.get?_assemble plain unextended, WrittenMediaType.get?_entries consistent]
  · intro error failed
    rcases readStrict_error_cases failed with refused | ⟨isType, problem, rfl⟩
    · exact refuses_of_essenceError? refused
    · exact isType

/-- Blanks wherever they may stand, a name in two letter cases, a backslash that stands for
itself, and a closing semicolon. -/
def spaced : WrittenMediaType where
  before := " ".toList
  essence := "Text".toList ++ '/' :: "Plain".toList
  behind := "\t".toList
  params := [
    { beforeName := " ".toList
      name := "Name".toList
      beforeEquals := "\r\n ".toList
      raw := '"' :: "C:\\d;\\\"".toList ++ ['"']
      value := "C:\\d;\"".toList
      isName := by decide
      denotes := .quotes (.plain (by decide) (by decide) (.plain (by decide) (by decide)
        (.literal (by decide) (.plain (by decide) (by decide) (.quoted (by decide) .nil)))))
      unbroken := by decide
      blankBeforeName := by decide
      blankBeforeEquals := by decide
      blankBeforeValue := .nil
      blankBehind := .nil },
    { name := "name".toList
      beforeValue := "\u2003".toList
      raw := Text.inQuotes "C:\\d;\"".toList
      value := "C:\\d;\"".toList
      behind := " ".toList
      isName := by decide
      denotes := Text.denotes_inQuotes _
      unbroken := by decide
      blankBeforeName := .nil
      blankBeforeEquals := .nil
      blankBeforeValue := by decide
      blankBehind := by decide }]
  closing := ';' :: " ".toList
  isType := .pair (by decide) (by decide)
  blankBefore := by decide
  blankBehind := by decide
  closes := .semicolon (by decide)

theorem readStrict_characterization_spaced :
    (readStrict spaced.text .standard = .ok {
        essence := "text/plain".toList
        params := [("name".toList, "C:\\d;\"".toList)] } ∧
      spaced.entries.extended? .standard "name".toList = none ∧
      spaced.Consistent ∧
      ∃ param ∈ spaced.params, param.name.lower = "name".toList ∧ param.value = "C:\\d;\"".toList) ∧
    readStrict "text/plain; a=1; A=2".toList .standard =
        .error (.invalidParameter (.conflicting "a".toList)) ∧
      IsType (Text.typePart "text/plain; a=1; A=2".toList) := by
  have read : readStrict spaced.text .standard = .ok {
      essence := "text/plain".toList
      params := [("name".toList, "C:\\d;\"".toList)] } := by
    decide +kernel
  have unextended : spaced.entries.extended? .standard "name".toList = none := by decide +kernel
  have failed : readStrict "text/plain; a=1; A=2".toList .standard =
      .error (.invalidParameter (.conflicting "a".toList)) := by
    decide +kernel
  obtain ⟨consistent, -, held⟩ := (readStrict_characterization .standard _).2.1 spaced _ rfl read
  have refused := (readStrict_characterization .standard _).2.2 _ failed
  refine ⟨⟨read, unextended, consistent, ?_⟩, failed, refused⟩
  exact (held _ _ (by decide) unextended).mp (by decide)

end MediaType

end LenientMime
