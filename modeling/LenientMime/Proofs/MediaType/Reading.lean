import LenientMime.Proofs.MediaType.Division
import LenientMime.Proofs.MediaType.Failure

namespace LenientMime

namespace Params

variable {params : Params} {name : Text}

theorem get?_map (f : Text → Text) (params : Params) (name : Text) :
    Params.get? (params.map fun param => (param.1, f param.2)) name = (params.get? name).map f := by
  induction params with
  | nil => rfl
  | cons param later ih =>
      obtain ⟨key, value⟩ := param
      simp only [get?, List.map_cons, List.lookup_cons] at ih ⊢
      cases name == key with
      | true => rfl
      | false => exact ih

/-- Pairs of which no two have one name are all kept. -/
theorem get?_ofList_of_distinct {pairs : List (Text × Text)}
    (distinct : pairs.Pairwise fun earlier later => earlier.1 ≠ later.1) (name : Text) :
    (ofList pairs).get? name = pairs.lookup name := by
  have all (seen : Params) :
      Params.get? (pairs.foldl (fun params pair => params.insert pair.1 pair.2) seen) name =
        (pairs.lookup name).or (seen.get? name) := by
    induction pairs generalizing seen with
    | nil => rfl
    | cons pair later ih =>
        obtain ⟨apart, distinctLater⟩ := List.pairwise_cons.mp distinct
        obtain ⟨key, value⟩ := pair
        rw [List.foldl_cons, ih distinctLater, List.lookup_cons]
        by_cases here : name = key
        · subst here
          have absent : later.lookup name = none :=
            List.lookup_eq_none_iff.mpr fun other member => by simpa using apart other member
          rw [absent, get?_insert_self, beq_self_eq_true]
          rfl
        · rw [get?_insert_of_ne value seen here, beq_false_of_ne here]
  rw [ofList, all]
  exact Option.or_none

end Params

namespace RawParam

variable {codec : Codec} {raw : RawParam} {raws : List RawParam} {value held : Text}

/-- What the grammar reads for a parameter that has a value, once it is mended. -/
def held? (codec : Codec) (raw : RawParam) : Option (Text × Text) :=
  (raw.mended? codec).map readEntry

theorem held?_eq (isName : raw.name.IsName) (valued : raw.value = some value)
    (denotes : Text.Denotes (value.repairValue codec).joinLines held) :
    raw.held? codec = some (raw.name, held) := by
  have read : readEntry (raw.name, (value.repairValue codec).joinLines) = (raw.name.lower, held) :=
    readEntry_of_denotes denotes (Text.unbroken_joinLines _)
  rw [held?, mended?, valued, Option.map_some, Option.map_some, read, isName.lower]

theorem held?_of_bare (bare : raw.value = none) : raw.held? codec = none := by
  rw [held?, mended?, bare, Option.map_none, Option.map_none]

theorem name_of_held? {entry : Text × Text} (isName : raw.name.IsName)
    (found : raw.held? codec = some entry) : entry.1 = raw.name := by
  cases valued : raw.value with
  | none =>
      rw [held?_of_bare valued] at found
      contradiction
  | some value =>
      rw [held?, mended?, valued, Option.map_some, Option.map_some] at found
      rw [← Option.some.inj found]
      exact isName.lower

/-- What is held comes from one of the parameters. -/
theorem exists_of_mem_held {entry : Text × Text}
    (member : entry ∈ Params.ofList (raws.filterMap (held? codec))) :
    ∃ raw ∈ raws, raw.held? codec = some entry :=
  List.mem_filterMap.mp (Params.mem_ofList member)

theorem plain_of_mem_held (codec : Codec) (named : ∀ raw ∈ raws, raw.name.IsName)
    (plain : ∀ raw ∈ raws, '*' ∉ raw.name) :
    ∀ entry ∈ Params.ofList (raws.filterMap (held? codec)), '*' ∉ entry.1 := by
  intro entry member
  obtain ⟨raw, inside, found⟩ := exists_of_mem_held member
  rw [name_of_held? (named raw inside) found]
  exact plain raw inside

theorem find?_of_distinct
    (distinct : raws.Pairwise fun earlier later => earlier.name ≠ later.name)
    (member : raw ∈ raws) : raws.find? (·.name == raw.name) = some raw := by
  induction distinct with
  | nil => contradiction
  | @cons first later apart _ ih =>
      rcases List.mem_cons.mp member with rfl | behind
      · exact List.find?_cons_of_pos (by simp)
      · rw [List.find?_cons_of_neg (by simpa using apart raw behind), ih behind]

theorem distinct_entries (named : ∀ raw ∈ raws, raw.name.IsName)
    (distinct : raws.Pairwise fun earlier later => earlier.name ≠ later.name) :
    (raws.filterMap (held? codec)).Pairwise fun earlier later => earlier.1 ≠ later.1 := by
  refine List.pairwise_filterMap.mpr (distinct.imp_of_mem ?_)
  intro earlier later isEarlier isLater apart entry found other foundToo same
  rw [name_of_held? (named _ isEarlier) found, name_of_held? (named _ isLater) foundToo] at same
  exact apart same

/-- The value under a name is that of the parameter with the name. -/
theorem get?_entries (named : ∀ raw ∈ raws, raw.name.IsName)
    (distinct : raws.Pairwise fun earlier later => earlier.name ≠ later.name) (name : Text) :
    (Params.ofList (raws.filterMap (held? codec))).get? name =
      (raws.find? (·.name == name)).bind fun raw => (raw.held? codec).map Prod.snd := by
  rw [Params.get?_ofList_of_distinct (distinct_entries named distinct)]
  induction raws with
  | nil => rfl
  | cons raw later ih =>
      obtain ⟨isName, namedLater⟩ := List.forall_mem_cons.mp named
      obtain ⟨apart, distinctLater⟩ := List.pairwise_cons.mp distinct
      have behind := ih namedLater distinctLater
      by_cases here : raw.name = name
      · have nothing : later.find? (·.name == name) = none :=
          List.find?_eq_none.mpr fun other member => by simpa using here ▸ (apart other member).symm
        rw [nothing] at behind
        rw [List.find?_cons_of_pos (by simpa using here), Option.bind_some, List.filterMap_cons]
        cases found : raw.held? codec with
        | none => exact behind
        | some entry =>
            obtain ⟨key, held⟩ := entry
            have same : (name == key) = true := by
              simpa using here.symm.trans (name_of_held? isName found).symm
            simp only [List.lookup_cons, same, Option.map_some]
      · rw [List.find?_cons_of_neg (by simpa using here), ← behind, List.filterMap_cons]
        cases found : raw.held? codec with
        | none => rfl
        | some entry =>
            obtain ⟨key, held⟩ := entry
            obtain rfl : key = raw.name := name_of_held? isName found
            have passed : (name == raw.name) = false := by simpa using Ne.symm here
            simp only [List.lookup_cons, passed]

end RawParam

theorem WrittenMediaType.entries_eq (written : WrittenMediaType) :
    written.entries = Params.ofList
      ((written.params.map fun param => (param.name, param.raw)).map readEntry) := by
  rw [entries, List.map_map]
  exact congrArg Params.ofList (List.map_congr_left fun param _ => param.readEntry_eq.symm)

namespace MediaType

variable {codec : Codec} {text : Text}

/-- The parameters as the grammar reads them, with their words still to be decoded. -/
def heldParams (codec : Codec) (raw : RawMediaType) : Params :=
  (Params.ofList (raw.params.filterMap (RawParam.held? codec))).assemble codec

def decodedParams (codec : Codec) (raw : RawMediaType) : Params :=
  (heldParams codec raw).map fun param => (param.1, param.2.decodeWords codec)

/-- A parameter is held as it is mended, unless extended parameters give its name a value. -/
theorem get?_heldParams {param : RawParam} {value held : Text}
    (member : param ∈ (RawMediaType.ofText codec text).params) (valued : param.value = some value)
    (denotes : Text.Denotes (value.repairValue codec).joinLines held) (plain : '*' ∉ param.name)
    (unextended : (Params.ofList
      ((RawMediaType.ofText codec text).params.filterMap (RawParam.held? codec))).extended?
        codec param.name = none) :
    (heldParams codec (RawMediaType.ofText codec text)).get? param.name = some held := by
  have named : ∀ raw ∈ (RawMediaType.ofText codec text).params, raw.name.IsName := fun _ inside =>
    (RawMediaType.cutFrom_of_mem inside).name
  have distinct := RawMediaType.distinct_params codec text
  rw [heldParams, Params.get?_assemble plain unextended, RawParam.get?_entries named distinct,
    RawParam.find?_of_distinct distinct member, Option.bind_some,
    RawParam.held?_eq (named param member) valued denotes, Option.map_some]

theorem readStrict_repairedText_eq (lawful : codec.Lawful)
    (calm : ∀ raw ∈ (RawMediaType.ofText codec text).params, raw.Calm)
    (isType : IsType (repairedType codec text).typePart) :
    readStrict (repairedText codec (RawMediaType.ofText codec text)) codec = .ok {
      essence := (repairedType codec text).typePart.lower
      params := heldParams codec (RawMediaType.ofText codec text) } := by
  obtain ⟨written, read, raws⟩ := readStrict_repairedText lawful calm isType
  have entries : written.entries =
      Params.ofList ((RawMediaType.ofText codec text).params.filterMap (RawParam.held? codec)) := by
    rw [written.entries_eq, raws, List.map_filterMap]
    rfl
  rw [read, entries]
  rfl

/-- A value with a whole type is read as the type and as its parameters, each by itself. -/
theorem readWith_eq (lawful : codec.Lawful)
    (calm : ∀ raw ∈ (RawMediaType.ofText codec text.withoutTags).params, raw.Calm)
    (isType : IsType (repairedType codec text.withoutTags).typePart) (options : ReadOptions) :
    readWith options text codec = .ok {
      essence := resultEssence (repairedType codec text.withoutTags).typePart.lower
        (RawMediaType.ofText codec text.withoutTags).slot
      params := decodedParams codec (RawMediaType.ofText codec text.withoutTags)
      bareNames := (if options.recordBareNames then
          bareNamesOf (RawMediaType.ofText codec text.withoutTags) else []).filter fun name =>
        ((decodedParams codec (RawMediaType.ofText codec text.withoutTags)).get? name).isNone } := by
  simp only [readWith, readStrict_repairedText_eq lawful calm isType]
  rfl

/-- The same for a value that is cut into a given type and parameters. -/
theorem readWith_of_given (lawful : codec.Lawful) {type : Text} {raws : List RawParam}
    (pieces : RawMediaType.ofText codec text.withoutTags = { slot := .given type, params := raws })
    (isType : IsType type) (calm : ∀ raw ∈ raws, raw.Calm) (options : ReadOptions) :
    readWith options text codec = .ok {
      essence := type.lower
      params := decodedParams codec { slot := .given type, params := raws }
      bareNames := (if options.recordBareNames then
          bareNamesOf { slot := .given type, params := raws } else []).filter fun name =>
        ((decodedParams codec { slot := .given type, params := raws }).get? name).isNone } := by
  have whole : (repairedType codec text.withoutTags).typePart = type := by
    have passed : type.takeWhile (· != ';') = type := by
      refine List.takeWhile_eq_self_iff.mpr fun c member => ?_
      simpa using fun same : c = ';' =>
        isType.not_mem (by decide) (by decide) (same ▸ member)
    rw [repairedType, pieces, strictEssence, Text.joinLines_of_unbroken isType.unbroken,
      Text.typePart, passed, Text.trim_of_solid isType.firm.solid]
  have everyCalm : ∀ raw ∈ (RawMediaType.ofText codec text.withoutTags).params, raw.Calm := by
    rwa [pieces]
  rw [readWith_eq lawful everyCalm (by rwa [whole]) options, whole, pieces]
  rfl

end MediaType

end LenientMime
