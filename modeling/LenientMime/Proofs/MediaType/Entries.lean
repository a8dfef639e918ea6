import LenientMime.Proofs.MediaType.Reading
import LenientMime.Proofs.MediaType.Strict

namespace LenientMime

/-! Names that are given again.

A header value may give one name several times, in any letter case, with a value or without.
The first time decides whether the name has a value and which one.  What comes later under the
name is dropped before the grammar could object to it.
-/

namespace RawParam

variable {raws : List RawParam}

theorem find?_firstOfName (raws : List RawParam) (name : Text) :
    (firstOfName raws).find? (·.name == name) = raws.find? (·.name == name) := by
  induction raws with
  | nil => rfl
  | cons first later ih =>
      by_cases here : first.name = name
      · rw [firstOfName, List.find?_cons_of_pos (by simpa using here),
          List.find?_cons_of_pos (by simpa using here)]
      · have passes (raw : RawParam) :
            decide ((raw.name != first.name) = true ∧ (raw.name == name) = true) =
              (raw.name == name) := by
          by_cases same : raw.name = name
          · simp [same, Ne.symm here]
          · simp [same]
        rw [firstOfName, List.find?_cons_of_neg (by simpa using here),
          List.find?_cons_of_neg (by simpa using here), List.find?_filter, ← ih]
        simp only [passes]

theorem eraseDups_filter (p : Text → Bool) (names : List Text) :
    (names.filter p).eraseDups = names.eraseDups.filter p := by
  induction shorter : names.length using Nat.strongRecOn generalizing names with
  | ind size ih =>
      cases names with
      | nil => rfl
      | cons name later =>
          have behind : (later.filter fun other => !other == name).length < size := by
            rw [← shorter]
            exact Nat.lt_succ_of_le (List.length_filter_le _ _)
          have below := ih _ behind _ rfl
          rw [List.eraseDups_cons]
          cases kept : p name with
          | true =>
              rw [List.filter_cons_of_pos kept, List.filter_cons_of_pos kept, List.eraseDups_cons,
                ← below, List.filter_filter, List.filter_filter]
              simp only [Bool.and_comm]
          | false =>
              have same : later.filter p = later.filter fun other => p other && !other == name := by
                refine List.filter_congr fun other _ => ?_
                by_cases again : other = name
                · simp [again, kept]
                · simp [again]
              rw [List.filter_cons_of_neg (by simp [kept]), List.filter_cons_of_neg (by simp [kept]),
                ← below, List.filter_filter, same]

/-- The names that are kept, in the order in which they come first. -/
theorem map_name_firstOfName (raws : List RawParam) :
    (firstOfName raws).map name = (raws.map name).eraseDups := by
  induction raws with
  | nil => rfl
  | cons first later ih =>
      rw [firstOfName, List.map_cons, List.map_cons, List.eraseDups_cons, eraseDups_filter, ← ih,
        List.filter_map]
      rfl

/-- Of the names that are kept, those stay bare that are bare where they come first. -/
theorem bareNames_firstOfName (raws : List RawParam) (slot : TypeSlot) :
    MediaType.bareNamesOf { slot, params := firstOfName raws } =
      (raws.map name).eraseDups.filter fun name =>
        (raws.find? (·.name == name)).any (·.value.isNone) := by
  rw [← map_name_firstOfName, List.filter_map, MediaType.bareNamesOf]
  refine congrArg (List.map name) (List.filter_congr fun raw member => ?_)
  have found : raws.find? (·.name == raw.name) = some raw := by
    rw [← find?_firstOfName]
    exact find?_of_distinct (distinct_firstOfName raws) member
  simp only [Function.comp_apply, found, Option.any_some]

end RawParam

/-- A parameter as it is entered in a header value: a name in any letter case, and a value if
there is one. -/
structure Entry where
  name : Text
  value : Option Text
  isName : name.isToken = true
  plain : '*' ∉ name

namespace Entry

def key (entry : Entry) : Text :=
  entry.name.lower

def text (codec : Codec) (entry : Entry) : Text :=
  match entry.value with
  | some value => entry.name ++ '=' :: value.headerValue codec
  | none => entry.name

def spelling (codec : Codec) (entries : List Entry) : Text :=
  entries.flatMap fun entry => ';' :: ' ' :: entry.text codec

/-- The names whose first entry is bare, in the order of these entries. -/
def bareNames (entries : List Entry) : List Text :=
  (entries.map key).eraseDups.filter fun name =>
    (entries.find? (·.key == name)).any (·.value.isNone)

/-- The entry as the repair cuts it out. -/
def raw (codec : Codec) (entry : Entry) : RawParam :=
  { name := entry.key, value := entry.value.map (Text.headerValue codec) }

variable {codec : Codec}

theorem isName_raw (entry : Entry) : (entry.raw codec).name.IsName :=
  ⟨(Text.isToken_lower entry.name).trans entry.isName, Text.lower_lower entry.name⟩

section Lawful

variable (lawful : codec.Lawful) (entry : Entry)

include lawful

theorem firm_text : (entry.text codec).Firm := by
  have named := Text.Firm.of_token entry.isName
  rw [text]
  cases entry.value with
  | none => exact named
  | some value =>
      simp only
      rw [List.append_cons]
      exact named.join ['='] (Text.denotes_headerValue lawful value).firm

theorem passes_text : Quoting.Passes ';' .outside (' ' :: entry.text codec) .outside := by
  have tokens := (Text.isToken_iff.mp entry.isName).2
  have space : Quoting.Passes ';' .outside [' '] .outside := Quoting.passes_char (by simp)
  have equals : Quoting.Passes ';' .outside ['='] .outside := Quoting.passes_char (by simp)
  have name : Quoting.Passes ';' .outside entry.name .outside :=
    Quoting.passes_plain (Text.not_mem_of_tokens tokens (by decide))
      (Text.not_mem_of_tokens tokens (by decide))
  rw [text]
  cases entry.value with
  | none => exact space.append name
  | some value =>
      have carried : Quoting.Passes ';' .outside (value.headerValue codec) .outside :=
        (Text.denotes_headerValue lawful value).passes (by decide) (by decide)
      exact space.append (name.append (equals.append carried))

theorem ofSegment?_text :
    RawParam.ofSegment? codec (' ' :: entry.text codec) = some (entry.raw codec) := by
  rw [text, raw]
  cases entry.value with
  | none => exact RawParam.ofSegment?_bare entry.isName
  | some value =>
      exact RawParam.ofSegment?_valued entry.isName (Text.denotes_headerValue lawful value).firm.solid

/-- A header value needs no repair, and the grammar reads what it carries. -/
theorem held?_raw :
    (entry.raw codec).held? codec =
      entry.value.map fun value => (entry.key, value.carried codec) := by
  cases valued : entry.value with
  | none =>
      have bare : (entry.raw codec).value = none := by rw [raw, valued, Option.map_none]
      exact RawParam.held?_of_bare bare
  | some value =>
      have same : (entry.raw codec).value = some (value.headerValue codec) := by
        rw [raw, valued, Option.map_some]
      have denotes := Text.denotes_headerValue lawful value
      refine RawParam.held?_eq entry.isName_raw same ?_
      rw [denotes.repairValue_eq,
        Text.joinLines_of_unbroken (Text.shown_headerValue lawful value).unbroken]
      exact denotes

theorem calm_raw : (entry.raw codec).Calm := by
  intro raw valued
  obtain ⟨value, -, rfl⟩ := Option.map_eq_some_iff.mp valued
  exact (Text.shown_headerValue lawful value).unbroken.calm

end Lawful

end Entry

namespace MediaType

/-- A name that is bare where it comes first has no value, so that it stays recorded. -/
theorem bareNames_entries (codec : Codec) (entries : List Entry) (slot : TypeSlot) :
    (bareNamesOf { slot, params := RawParam.firstOfName (entries.map (Entry.raw codec)) }).filter
        (fun name => ((entries.find? (·.key == name)).bind Entry.value).isNone) =
      Entry.bareNames entries := by
  have names : (entries.map (Entry.raw codec)).map RawParam.name = entries.map Entry.key := by
    rw [List.map_map]
    rfl
  have bare (name : Text) :
      ((entries.map (Entry.raw codec)).find? (·.name == name)).any (·.value.isNone) =
        (entries.find? (·.key == name)).any (·.value.isNone) := by
    rw [List.find?_map]
    change ((entries.find? (·.key == name)).map (Entry.raw codec)).any (·.value.isNone) = _
    cases entries.find? (·.key == name) with
    | none => rfl
    | some entry =>
        rw [Option.map_some, Option.any_some, Option.any_some, Entry.raw, Option.isNone_map]
  rw [RawParam.bareNames_firstOfName, names, List.filter_filter, Entry.bareNames]
  refine List.filter_congr fun name _ => ?_
  rw [bare]
  cases entries.find? (·.key == name) with
  | none => rfl
  | some entry => cases valued : entry.value <;> simp [valued]

theorem ordered_decodedParams (codec : Codec) (raw : RawMediaType) :
    (decodedParams codec raw).Ordered :=
  List.pairwise_map.mpr (Params.ordered_ofList _).assemble

section Lawful

variable {codec : Codec} (lawful : codec.Lawful) {type : Text}

include lawful

theorem untagged_entries (isType : IsType type) (entries : List Entry) :
    Text.withoutTags (type ++ Entry.spelling codec entries) =
      type ++ Entry.spelling codec entries := by
  rcases List.eq_nil_or_concat entries with rfl | ⟨front, last, rfl⟩
  · have tagless : Text.Tagless ([] ++ type ++ []) := .of_firm isType.firm .nil
    simpa [Entry.spelling] using tagless.withoutTags_eq
  · have tagless : Text.Tagless
        ((type ++ Entry.spelling codec front ++ [';', ' ']) ++ last.text codec ++ []) :=
      .of_firm (last.firm_text lawful) .nil
    simpa [Entry.spelling] using tagless.withoutTags_eq

theorem ofText_entries (isType : IsType type) (entries : List Entry) :
    RawMediaType.ofText codec (type ++ Entry.spelling codec entries) =
      { slot := .given type, params := RawParam.firstOfName (entries.map (Entry.raw codec)) } := by
  have pieces : Quoting.split ';' .outside (type ++ Entry.spelling codec entries) =
      type :: entries.map fun entry => ' ' :: entry.text codec := by
    have segments : Entry.spelling codec entries =
        (entries.map fun entry => ' ' :: entry.text codec).flatMap (';' :: ·) := by
      rw [List.flatMap_map, Entry.spelling]
    rw [segments]
    refine Quoting.split_segments isType.passes fun segment member => ?_
    obtain ⟨entry, -, rfl⟩ := List.mem_map.mp member
    exact entry.passes_text lawful
  have visible : type.isEmpty = false := by simpa using isType.firm.nonempty
  have noEquals : type.contains '=' = false := by
    simpa using isType.not_mem (c := '=') (by decide) (by decide)
  have read : (entries.map fun entry => ' ' :: entry.text codec).filterMap
      (RawParam.ofSegment? codec) =
      entries.map (Entry.raw codec) := by
    rw [List.filterMap_map, ← List.filterMap_eq_map]
    exact List.filterMap_congr fun entry _ => entry.ofSegment?_text lawful
  have usable : (entries.map (Entry.raw codec)).filter (·.name.isToken) =
      entries.map (Entry.raw codec) := by
    refine List.filter_eq_self.mpr fun raw member => ?_
    obtain ⟨entry, -, rfl⟩ := List.mem_map.mp member
    exact entry.isName_raw.token
  rw [RawMediaType.ofText, pieces]
  simp only [Text.trim_of_solid isType.firm.solid, visible, noEquals, Bool.false_eq_true, if_false,
    isType.ofText, RawParam.ofSegments, read, usable]

/-- A name has the value of its first entry, if there is one. -/
theorem get?_decodedParams_entries (entries : List Entry) (slot : TypeSlot) (name : Text) :
    (decodedParams codec
        { slot, params := RawParam.firstOfName (entries.map (Entry.raw codec)) }).get? name =
      (entries.find? (·.key == name)).bind Entry.value := by
  have names : ∀ raw ∈ RawParam.firstOfName (entries.map (Entry.raw codec)),
      raw.name.IsName ∧ '*' ∉ raw.name := by
    intro raw kept
    obtain ⟨entry, -, rfl⟩ := List.mem_map.mp (RawParam.mem_of_mem_firstOfName kept)
    exact ⟨entry.isName_raw, fun star => entry.plain (Text.mem_of_mem_lower (by decide) star)⟩
  have named := fun raw kept => (names raw kept).1
  have plain := RawParam.plain_of_mem_held codec named fun raw kept => (names raw kept).2
  rw [decodedParams, Params.get?_map (Text.decodeWords · codec), heldParams,
    Params.assemble_of_plain codec plain, RawParam.get?_entries named (RawParam.distinct_firstOfName _), RawParam.find?_firstOfName,
    List.find?_map]
  change (((entries.find? (·.key == name)).map (Entry.raw codec)).bind fun raw =>
    (raw.held? codec).map Prod.snd).map (·.decodeWords codec) = _
  cases entries.find? (·.key == name) with
  | none => rfl
  | some entry =>
      rw [Option.map_some, Option.bind_some, Option.bind_some, entry.held?_raw lawful]
      cases entry.value with
      | none => rfl
      | some value => exact congrArg some (Text.decodeWords_carried lawful value)

/-- Whatever is given again under a name, in whichever letter case, with a value or without, the
first entry of the name decides.  If it has a value that is the value that is read, and if it is
bare the name is recorded as bare.  No repetition is an error. -/
theorem readWith_entries (isType : IsType type) (entries : List Entry) (options : ReadOptions) :
    ∃ media, readWith options (type ++ Entry.spelling codec entries) codec = .ok media ∧
      media.essence = type.lower ∧ media.params.Ordered ∧
      (∀ name, media.params.get? name = (entries.find? (·.key == name)).bind Entry.value) ∧
      media.bareNames = if options.recordBareNames then Entry.bareNames entries else [] := by
  have pieces : RawMediaType.ofText codec (type ++ Entry.spelling codec entries).withoutTags =
      { slot := .given type, params := RawParam.firstOfName (entries.map (Entry.raw codec)) } := by
    rw [untagged_entries lawful isType, ofText_entries lawful isType]
  have calm : ∀ raw ∈ RawParam.firstOfName (entries.map (Entry.raw codec)), raw.Calm := by
    intro raw kept
    obtain ⟨entry, -, rfl⟩ := List.mem_map.mp (RawParam.mem_of_mem_firstOfName kept)
    exact entry.calm_raw lawful
  refine ⟨_, readWith_of_given lawful pieces isType calm options, rfl, ordered_decodedParams codec _,
    get?_decodedParams_entries lawful entries _, ?_⟩
  simp only [get?_decodedParams_entries lawful]
  split
  · exact bareNames_entries codec entries _
  · rfl

end Lawful

/-- Two names, given five times.  The first time one has a value and the other has none. -/
def repeated : List Entry := [
  { name := "Charset".toList, value := some "ü;\"".toList, isName := by decide, plain := by decide },
  { name := "flowed".toList, value := none, isName := by decide, plain := by decide },
  { name := "CHARSET".toList, value := none, isName := by decide, plain := by decide },
  { name := "Flowed".toList, value := some [], isName := by decide, plain := by decide },
  { name := "charset".toList, value := some "b".toList, isName := by decide, plain := by decide }]

theorem readWith_entries_repeated :
    IsType ("Text".toList ++ '/' :: "HTML".toList) ∧
      ∃ media, readWith {} ("Text".toList ++ '/' :: "HTML".toList ++
          Entry.spelling .standard repeated) .standard = .ok media ∧
        media.essence = "text/html".toList ∧
        media.params.get? "charset".toList = some "ü;\"".toList ∧
        media.params.get? "flowed".toList = none ∧ media.bareNames = ["flowed".toList] := by
  have isType : IsType ("Text".toList ++ '/' :: "HTML".toList) := .pair (by decide) (by decide)
  obtain ⟨media, read, essence, -, values, bareNames⟩ :=
    readWith_entries Codec.standard_lawful isType repeated {}
  refine ⟨isType, media, read, ?_, ?_, ?_, ?_⟩
  · rw [essence]
    decide
  · rw [values]
    decide
  · rw [values]
    decide
  · rw [bareNames, if_pos rfl]
    decide +kernel

end MediaType

end LenientMime
