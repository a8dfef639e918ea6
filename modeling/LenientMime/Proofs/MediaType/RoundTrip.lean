import LenientMime.MediaType.Lenient
import LenientMime.Proofs.MediaType.Repair
import LenientMime.Proofs.MediaType.Strict

namespace LenientMime

/-! Printed media types are read back.

The repair cuts a printed media type into its essence and its parameters and then
changes none of them, so that the grammar sees the values that the printer carries.
-/

theorem Params.shown_spelling {params : Params} (names : ∀ param ∈ params, param.1.IsName)
    (shown : ∀ param ∈ params, param.2.Shown) : params.spelling.Shown := by
  induction params with
  | nil => simp [spelling, Text.Shown]
  | cons param later ih =>
      obtain ⟨isName, laterNames⟩ := List.forall_mem_cons.mp names
      obtain ⟨here, laterShown⟩ := List.forall_mem_cons.mp shown
      have separator : Text.Shown [';', ' '] := by simp [Text.Shown]
      have equals : Text.Shown ['='] := by simp [Text.Shown]
      have joined := ((separator.append (.of_tokens isName.tokens)).append equals).append
        ((Text.shown_bareOrQuoted here).append (ih laterNames laterShown))
      simpa [spelling_cons] using joined

namespace MediaType

theorem IsEssence.shown {essence : Text} (isEssence : IsEssence essence) : essence.Shown := by
  intro c member
  rcases isEssence.chars c member with token | rfl
  · exact Text.shown_of_token token
  · decide

theorem strictEssence_slotFor_ne_nil (essence : Text) :
    strictEssence (RawMediaType.slotFor essence) ≠ [] := by
  rw [RawMediaType.slotFor]
  split
  · decide
  · next visible => simpa [strictEssence] using visible

theorem resultEssence_slotFor (essence : Text) :
    resultEssence (strictEssence (RawMediaType.slotFor essence)) (RawMediaType.slotFor essence) =
      essence := by
  rw [RawMediaType.slotFor]
  split
  · next empty => exact (List.isEmpty_iff.mp empty).symm
  · rfl

theorem IsEssence.strict {essence : Text} (isEssence : IsEssence essence) :
    IsEssence (strictEssence (RawMediaType.slotFor essence)) := by
  have placeholder : IsEssence placeholderEssence := by
    have shown : placeholderEssence = "application".toList ++ '/' :: "octet-stream".toList := by
      decide
    rw [shown]
    exact .pair ⟨by decide, by decide⟩ ⟨by decide, by decide⟩
  rw [RawMediaType.slotFor]
  split
  · exact placeholder
  · exact isEssence

/-- The parameters and the bare names as the printer spells them. -/
def rawParams (codec : Codec) (media : MediaType) : List RawParam :=
  media.params.map (fun param => { name := param.1, value := some (param.2.headerValue codec) }) ++
    media.bareNames.map fun name => { name, value := none }

/-- The parameters with what the printer carries in the place of their values. -/
def carriedParams (codec : Codec) (media : MediaType) : Params :=
  media.params.map fun param => (param.1, param.2.carried codec)

theorem render_eq (codec : Codec) (media : MediaType) :
    media.render codec = RawMediaType.spelling media.essence (media.rawParams codec) := by
  simp [render, RawMediaType.spelling, rawParams, RawParam.spelling, List.flatMap_map]

theorem bareNamesOf_rawParams (codec : Codec) (media : MediaType) (slot : TypeSlot) :
    bareNamesOf { slot, params := media.rawParams codec } = media.bareNames := by
  simp [bareNamesOf, rawParams, List.filter_map, Function.comp_def]

theorem decodeWords_carriedParams {codec : Codec} (lawful : codec.Lawful) (media : MediaType) :
    (media.carriedParams codec).map (fun param => (param.1, param.2.decodeWords codec)) =
      media.params := by
  simp [carriedParams, Function.comp_def, Text.decodeWords_carried lawful]

namespace WellFormed

variable {codec : Codec} {media : MediaType}

theorem spelled (lawful : codec.Lawful) (wellFormed : media.WellFormed) :
    ∀ raw ∈ media.rawParams codec, raw.Spelled := by
  intro raw member
  rcases List.mem_append.mp member with valued | bare
  · obtain ⟨param, inside, rfl⟩ := List.mem_map.mp valued
    have value := Text.headerValue_eq lawful param.2
    refine ⟨(wellFormed.names param inside).1, ?_, ?_⟩
    · intro spelled same
      obtain rfl := Option.some.inj same
      rw [value]
      exact (Text.denotes_bareOrQuoted _).firm
    · intro spelled same
      obtain rfl := Option.some.inj same
      rw [value]
      exact (Text.denotes_bareOrQuoted _).passes (by decide) (by decide)
  · obtain ⟨name, inside, rfl⟩ := List.mem_map.mp bare
    exact ⟨wellFormed.bareNames name inside, by simp, by simp⟩

theorem firstOfName (wellFormed : media.WellFormed) :
    RawParam.firstOfName (media.rawParams codec) = media.rawParams codec := by
  apply RawParam.firstOfName_of_distinct
  rw [rawParams, List.pairwise_append]
  refine ⟨?_, ?_, ?_⟩
  · refine List.pairwise_map.mpr (wellFormed.ordered.imp fun {earlier later} less same => ?_)
    have sameName : earlier.1 = later.1 := same
    exact List.lt_irrefl _ (sameName ▸ less)
  · exact List.pairwise_map.mpr wellFormed.distinct
  · intro valued isValued bare isBare
    obtain ⟨param, inside, rfl⟩ := List.mem_map.mp isValued
    obtain ⟨name, among, rfl⟩ := List.mem_map.mp isBare
    exact wellFormed.apart name among param inside

theorem carried_names (wellFormed : media.WellFormed) :
    ∀ param ∈ media.carriedParams codec, param.1.IsName ∧ '*' ∉ param.1 := by
  intro carried member
  obtain ⟨param, inside, rfl⟩ := List.mem_map.mp member
  exact wellFormed.names param inside

theorem carried_ordered (wellFormed : media.WellFormed) : (media.carriedParams codec).Ordered :=
  List.pairwise_map.mpr wellFormed.ordered

end WellFormed

theorem shown_carriedParams {codec : Codec} (lawful : codec.Lawful) (media : MediaType) :
    ∀ param ∈ media.carriedParams codec, param.2.Shown := by
  intro carried member
  obtain ⟨param, -, rfl⟩ := List.mem_map.mp member
  exact Text.shown_carried lawful param.2

theorem repairedText_rawParams {codec : Codec} (lawful : codec.Lawful) {media : MediaType}
    (wellFormed : media.WellFormed) :
    repairedText codec
        { slot := RawMediaType.slotFor media.essence, params := media.rawParams codec } =
      strictEssence (RawMediaType.slotFor media.essence) ++
        (media.carriedParams codec).spelling := by
  have params : (media.rawParams codec).flatMap (repairedParam codec) =
      (media.carriedParams codec).spelling := by
    simp [rawParams, repairedParam, carriedParams, Params.spelling, List.flatMap_map,
      Text.headerValue_eq lawful, (Text.denotes_bareOrQuoted _).repairValue_eq]
  have shown := wellFormed.essence.strict.shown.append (Params.shown_spelling
    (fun param member => (wellFormed.carried_names param member).1)
    (media.shown_carriedParams lawful))
  rw [repairedText, params, Text.joinLines_of_unbroken shown.unbroken]

theorem bareNames_kept {media : MediaType} (wellFormed : media.WellFormed) :
    media.bareNames.filter (fun name => (Params.get? media.params name).isNone) =
      media.bareNames := by
  rw [List.filter_eq_self]
  intro name member
  rw [Params.get?_of_absent (wellFormed.apart name member)]
  rfl

section Render

variable {codec : Codec} (lawful : codec.Lawful) {media : MediaType}

include lawful

/-- What a printed media type is read as: the media type, but for the bare names if they are
not to be recorded. -/
theorem WellFormed.readWith_render (wellFormed : media.WellFormed) (options : ReadOptions) :
    readWith options (media.render codec) codec =
      .ok { media with bareNames := if options.recordBareNames then media.bareNames else [] } := by
  have spelled := wellFormed.spelled lawful
  have raw : RawMediaType.ofText codec (media.render codec).withoutTags =
      { slot := RawMediaType.slotFor media.essence, params := media.rawParams codec } := by
    rw [render_eq, RawMediaType.withoutTags_spelling wellFormed.essence spelled,
      RawMediaType.ofText_spelling wellFormed.essence spelled, wellFormed.firstOfName]
  have strict := readStrict_spelling codec wellFormed.essence.strict
    (strictEssence_slotFor_ne_nil media.essence) wellFormed.carried_ordered
    wellFormed.carried_names (media.shown_carriedParams lawful)
  rw [readWith, raw, repairedText_rawParams lawful wellFormed, strict]
  cases recorded : options.recordBareNames with
  | true =>
      simp only [decodeWords_carriedParams lawful, bareNamesOf_rawParams, if_true,
        bareNames_kept wellFormed, resultEssence_slotFor]
  | false =>
      simp only [decodeWords_carriedParams lawful, Bool.false_eq_true, if_false, List.filter_nil,
        resultEssence_slotFor]

/-- Reading undoes printing, whatever the values are. -/
theorem read_render (wellFormed : media.WellFormed) :
    read (media.render codec) codec = .ok media := by
  rw [read, wellFormed.readWith_render lawful, if_pos rfl]

end Render

/-- Values that need an encoded word, and one that needs quotes and escapes. -/
def awkward : MediaType :=
  { essence := "text".toList ++ '/' :: "plain".toList
    params := [("a".toList, "Grüße\r\n".toList), ("b".toList, "=?x".toList),
      ("c".toList, "<\\; \"".toList)]
    bareNames := ["flowed".toList] }

theorem read_render_awkward :
    awkward.WellFormed ∧ read (awkward.render .standard) .standard = .ok awkward := by
  have wellFormed : awkward.WellFormed :=
    { essence := .pair ⟨by decide, by decide⟩ ⟨by decide, by decide⟩
      names := by
        simp only [awkward, List.forall_mem_cons]
        exact ⟨⟨⟨by decide, by decide⟩, by decide⟩, ⟨⟨by decide, by decide⟩, by decide⟩,
          ⟨⟨by decide, by decide⟩, by decide⟩, by simp⟩
      ordered := by
        simp only [Params.Ordered, awkward]
        decide
      bareNames := by
        simp only [awkward, List.forall_mem_singleton]
        exact ⟨by decide, by decide⟩
      distinct := by simp [awkward]
      apart := by simp [awkward] }
  exact ⟨wellFormed, read_render Codec.standard_lawful wellFormed⟩

end MediaType

end LenientMime
