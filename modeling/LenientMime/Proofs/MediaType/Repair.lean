import LenientMime.Proofs.MediaType.WellFormed
import Mathlib.Data.List.Basic

namespace LenientMime

theorem Text.cutEncodedName?_cons {c : Char} (distinct : c ≠ '=') (rest : Text) :
    cutEncodedName? (c :: rest) = none := by
  have noMark : "=?".toList.isPrefixOf? (c :: rest) = none := by
    have mark : "=?".toList = ['=', '?'] := by decide
    rw [mark]
    simp [List.isPrefixOf?, distinct.symm]
  rw [cutEncodedName?, noMark]

/-- No encoded name stands where a token or a quote does. -/
theorem Text.Firm.noEncodedName {text : Text} (firm : text.Firm) : text.cutEncodedName? = none := by
  obtain ⟨c, rest, rfl⟩ := List.exists_cons_of_ne_nil firm.nonempty
  exact cutEncodedName?_cons ((firm.first c rfl).ne (by decide) (by decide)) rest

namespace RawParam

variable {codec : Codec} {raw : RawParam} {raws : List RawParam}

def spelling (raw : RawParam) : Text :=
  match raw.value with
  | some value => raw.name ++ '=' :: value
  | none => raw.name

/-- The value of a spelled parameter can be told from what follows it. -/
structure Spelled (raw : RawParam) : Prop where
  name : raw.name.IsName
  firm : ∀ value, raw.value = some value → value.Firm
  passes : ∀ value, raw.value = some value → Quoting.Passes ';' .outside value .outside

theorem Spelled.spelling_firm (spelled : raw.Spelled) : raw.spelling.Firm := by
  rw [spelling]
  cases shown : raw.value with
  | none => exact spelled.name.firm
  | some value =>
      simp only
      rw [List.append_cons]
      exact spelled.name.firm.join ['='] (spelled.firm value shown)

theorem Spelled.spelling_passes (spelled : raw.Spelled) :
    Quoting.Passes ';' .outside (' ' :: raw.spelling) .outside := by
  have space : Quoting.Passes ';' .outside [' '] .outside := Quoting.passes_char (by simp)
  have name : Quoting.Passes ';' .outside raw.name .outside :=
    Quoting.passes_plain (spelled.name.not_mem (by decide)) (spelled.name.not_mem (by decide))
  rw [spelling]
  cases shown : raw.value with
  | none => exact space.append name
  | some value =>
      have equals : Quoting.Passes ';' .outside ['='] .outside := Quoting.passes_char (by simp)
      exact space.append (name.append (equals.append (spelled.passes value shown)))

/-- A name and a value are told apart by the first equals sign, whatever the value is. -/
theorem ofSegment?_valued {name value : Text} (token : name.isToken = true) (solid : value.Solid) :
    ofSegment? codec (' ' :: (name ++ '=' :: value)) =
      some { name := name.lower, value := some value } := by
  have firm := Text.Firm.of_token token
  have noEquals : '=' ∉ name := Text.not_mem_of_tokens (Text.isToken_iff.mp token).2 (by decide)
  have whole : Text.Solid (name ++ '=' :: value) := by
    refine ⟨fun c shown => (firm.first_append _ c shown).solid, fun c shown => ?_⟩
    cases value with
    | nil =>
        rw [List.getLast?_concat] at shown
        rw [← Option.some.inj shown]
        decide
    | cons first later =>
        rw [List.getLast?_append_cons, List.getLast?_cons_cons] at shown
        exact solid.last c shown
  have trimmed := Text.trim_space_cons whole
  obtain ⟨c, rest, rfl⟩ := List.exists_cons_of_ne_nil firm.nonempty
  have noName : Text.cutEncodedName? (c :: rest ++ '=' :: value) = none :=
    Text.cutEncodedName?_cons ((firm.first c rfl).ne (by decide) (by decide)) _
  rw [ofSegment?, trimmed]
  simp only [noName, Text.cut?_append value noEquals, Text.trim_of_solid firm.solid,
    Text.trim_of_solid solid]
  rfl

theorem ofSegment?_bare {name : Text} (token : name.isToken = true) :
    ofSegment? codec (' ' :: name) = some { name := name.lower, value := none } := by
  have firm := Text.Firm.of_token token
  have visible : name.isEmpty = false := by simpa using firm.nonempty
  have noEquals : '=' ∉ name := Text.not_mem_of_tokens (Text.isToken_iff.mp token).2 (by decide)
  rw [ofSegment?, Text.trim_space_cons firm.solid]
  simp only [visible, Bool.false_eq_true, if_false, firm.noEncodedName,
    Text.cut?_of_absent noEquals]

theorem ofSegment?_spelling (spelled : raw.Spelled) :
    ofSegment? codec (' ' :: raw.spelling) = some raw := by
  obtain ⟨name, value⟩ := raw
  have lower : name.lower = name := spelled.name.lower
  cases value with
  | none => rw [spelling, ofSegment?_bare spelled.name.token, lower]
  | some value =>
      rw [spelling, ofSegment?_valued spelled.name.token (spelled.firm value rfl).solid, lower]

theorem firstOfName_of_distinct
    (distinct : raws.Pairwise fun earlier later => earlier.name ≠ later.name) :
    firstOfName raws = raws := by
  induction distinct with
  | nil => rfl
  | @cons param later apart _ ih =>
      have kept : later.filter (·.name != param.name) = later := by
        rw [List.filter_eq_self]
        exact fun other member => by simpa using (apart other member).symm
      rw [firstOfName, ih, kept]

theorem ofSegments_spelling (spelled : ∀ raw ∈ raws, raw.Spelled) :
    ofSegments codec (raws.map fun raw => ' ' :: raw.spelling) = firstOfName raws := by
  have read : (raws.map fun raw => ' ' :: raw.spelling).filterMap (ofSegment? codec) = raws := by
    rw [List.filterMap_map]
    exact (List.filterMap_congr fun raw member => ofSegment?_spelling (spelled raw member)).trans
      List.filterMap_some
  have usable : raws.filter (·.name.isToken) = raws :=
    List.filter_eq_self.mpr fun raw member => (spelled raw member).name.token
  rw [ofSegments, read, usable]

end RawParam

namespace RawMediaType

variable {codec : Codec} {essence : Text} {raws : List RawParam}

def spelling (essence : Text) (raws : List RawParam) : Text :=
  essence ++ raws.flatMap fun raw => ';' :: ' ' :: raw.spelling

def slotFor (essence : Text) : TypeSlot :=
  if essence.isEmpty then .missing else .given essence

theorem ofText_spelling (isEssence : MediaType.IsEssence essence)
    (spelled : ∀ raw ∈ raws, raw.Spelled) :
    ofText codec (spelling essence raws) =
      { slot := slotFor essence, params := RawParam.firstOfName raws } := by
  have pieces : Quoting.split ';' .outside (spelling essence raws) =
      essence :: raws.map fun raw => ' ' :: raw.spelling := by
    have segments : raws.flatMap (fun raw => ';' :: ' ' :: raw.spelling) =
        (raws.map fun raw => ' ' :: raw.spelling).flatMap (';' :: ·) := by
      rw [List.flatMap_map]
    rw [spelling, segments]
    refine Quoting.split_segments isEssence.passes fun segment member => ?_
    obtain ⟨raw, inside, rfl⟩ := List.mem_map.mp member
    exact (spelled raw inside).spelling_passes
  rw [ofText, pieces]
  simp only [RawParam.ofSegments_spelling spelled, slotFor]
  by_cases empty : essence = []
  · subst empty
    rfl
  · have noEquals : essence.contains '=' = false := by
      simpa using isEssence.not_mem (c := '=') (by decide) (by decide)
    have visible : essence.isEmpty = false := by simpa using empty
    simp only [Text.trim_of_solid (isEssence.firm empty).solid, visible, noEquals,
      Bool.false_eq_true, if_false, isEssence.ofText]

theorem withoutTags_spelling (isEssence : MediaType.IsEssence essence)
    (spelled : ∀ raw ∈ raws, raw.Spelled) :
    (spelling essence raws).withoutTags = spelling essence raws := by
  rcases List.eq_nil_or_concat raws with rfl | ⟨front, raw, rfl⟩
  · rw [spelling, List.flatMap_nil, List.append_nil]
    by_cases empty : essence = []
    · subst empty
      rw [Text.withoutTags]
      rfl
    · have tagless : Text.Tagless ([] ++ essence ++ []) := .of_firm (isEssence.firm empty) .nil
      rw [List.nil_append, List.append_nil] at tagless
      exact tagless.withoutTags_eq
  · have firm : raw.spelling.Firm := (spelled raw (by simp)).spelling_firm
    have ends : spelling essence (front.concat raw) =
        (spelling essence front ++ [';', ' ']) ++ raw.spelling ++ [] := by
      simp [spelling]
    rw [ends]
    exact (Text.Tagless.of_firm firm .nil).withoutTags_eq

end RawMediaType

end LenientMime
