import LenientMime.MediaType.Lenient
import LenientMime.Proofs.MediaType.Grammar
import LenientMime.Proofs.MediaType.Repair
import Mathlib

namespace LenientMime

/-! Values that need no repair.

A value that the strict grammar takes is cut where the grammar cuts it, and no repair
changes one of its pieces.  What the grammar then reads is the same media type: the type
and the parameters again, with other blanks, without a closing semicolon, and with every
name once.
-/

theorem MediaType.IsType.unbroken {essence : Text} (isType : IsType essence) : essence.Unbroken := by
  intro c member
  rcases isType.chars c member with token | rfl
  · exact Text.unbroken_of_token token
  · decide

namespace WrittenParam

theorem core_firm (written : WrittenParam) : written.core.Firm := by
  have firm := (Text.Firm.of_token written.isName).join
    (written.beforeEquals ++ '=' :: written.beforeValue) written.denotes.firm
  simpa [core] using firm

theorem segment_passes (written : WrittenParam) :
    Quoting.Passes ';' .outside written.segment .outside := by
  have tokens := (Text.isToken_iff.mp written.isName).2
  have name : Quoting.Passes ';' .outside written.name .outside :=
    Quoting.passes_plain (Text.not_mem_of_tokens tokens (by decide))
      (Text.not_mem_of_tokens tokens (by decide))
  have equals : Quoting.Passes ';' .outside ['='] .outside := Quoting.passes_char (by simp)
  have raw : Quoting.Passes ';' .outside written.raw .outside :=
    written.denotes.passes (by decide) (by decide)
  have core : Quoting.Passes ';' .outside written.core .outside :=
    (name.append (Quoting.passes_blank written.blankBeforeEquals)).append
      (equals.append ((Quoting.passes_blank written.blankBeforeValue).append raw))
  exact ((Quoting.passes_blank written.blankBeforeName).append core).append
    (Quoting.passes_blank written.blankBehind)

/-- The parameter as the repair cuts it out. -/
def rawParam (written : WrittenParam) : RawParam :=
  { name := written.name.lower, value := some written.raw }

theorem ofSegment?_segment (codec : Codec) (written : WrittenParam) :
    RawParam.ofSegment? codec written.segment = some written.rawParam := by
  have firm := written.core_firm
  have trimmed : Text.trim written.segment = written.core :=
    Text.trim_between firm.nonempty firm.solid written.blankBeforeName written.blankBehind
  have visible : written.core.isEmpty = false := by simpa using firm.nonempty
  have noEquals : '=' ∉ written.name ++ written.beforeEquals := by
    simp only [List.mem_append, not_or]
    exact ⟨Text.not_mem_of_tokens (Text.isToken_iff.mp written.isName).2 (by decide),
      written.blankBeforeEquals.not_mem (by decide)⟩
  have cut : written.core.cut? '=' = some (written.name ++ written.beforeEquals,
      written.beforeValue ++ written.raw) := Text.cut?_append _ noEquals
  have named := Text.Firm.of_token written.isName
  have name : Text.trim ([] ++ written.name ++ written.beforeEquals) = written.name :=
    Text.trim_between named.nonempty named.solid .nil written.blankBeforeEquals
  have valued := written.denotes.firm
  have value : Text.trim (written.beforeValue ++ written.raw ++ []) = written.raw :=
    Text.trim_between valued.nonempty valued.solid written.blankBeforeValue .nil
  rw [List.nil_append] at name
  rw [List.append_nil] at value
  rw [RawParam.ofSegment?, trimmed]
  simp only [visible, Bool.false_eq_true, if_false, firm.noEncodedName, cut, name, value, rawParam]

/-- The segment behind a closing semicolon holds no parameter. -/
theorem ofSegments_segments (codec : Codec) (params : List WrittenParam) {gaps : List Text}
    (blank : ∀ gap ∈ gaps, gap.Blank) :
    RawParam.ofSegments codec (params.map segment ++ gaps) =
      RawParam.firstOfName (params.map rawParam) := by
  have read : (params.map segment).filterMap (RawParam.ofSegment? codec) = params.map rawParam := by
    rw [List.filterMap_map, ← List.filterMap_eq_map]
    exact List.filterMap_congr fun param _ => param.ofSegment?_segment codec
  have nothing : gaps.filterMap (RawParam.ofSegment? codec) = [] := by
    refine List.filterMap_eq_nil_iff.mpr fun gap member => ?_
    rw [RawParam.ofSegment?, (blank gap member).trim_eq]
    rfl
  have usable : (params.map rawParam).filter (·.name.isToken) = params.map rawParam := by
    refine List.filter_eq_self.mpr fun raw member => ?_
    obtain ⟨param, -, rfl⟩ := List.mem_map.mp member
    exact (Text.isToken_lower param.name).trans param.isName
  rw [RawParam.ofSegments, List.filterMap_append, read, nothing, List.append_nil, usable]

/-- Every name once, where it stands first. -/
def firstOfName : List WrittenParam → List WrittenParam
  | [] => []
  | written :: later =>
      written :: (firstOfName later).filter fun other => other.name.lower != written.name.lower

theorem firstOfName_rawParam (params : List WrittenParam) :
    RawParam.firstOfName (params.map rawParam) = (firstOfName params).map rawParam := by
  induction params with
  | nil => rfl
  | cons written later ih =>
      rw [List.map_cons, RawParam.firstOfName, ih, firstOfName, List.map_cons, List.filter_map]
      rfl

/-- The parameter as the repair writes it again. -/
def tidy (written : WrittenParam) : WrittenParam where
  beforeName := [' ']
  name := written.name.lower
  raw := written.raw
  value := written.value
  isName := (Text.isToken_lower written.name).trans written.isName
  denotes := written.denotes
  unbroken := written.unbroken
  blankBeforeName := .space
  blankBeforeEquals := .nil
  blankBeforeValue := .nil
  blankBehind := .nil

theorem param_tidy (written : WrittenParam) : written.tidy.param = written.param := by
  rw [param, tidy, Text.lower_lower, param]

theorem repairedParam_rawParam (codec : Codec) (written : WrittenParam) :
    MediaType.repairedParam codec written.rawParam = ';' :: written.tidy.segment := by
  simp [MediaType.repairedParam, rawParam, written.denotes.repairValue_eq, segment, core, tidy]

theorem segment_tidy_unbroken (written : WrittenParam) : written.tidy.segment.Unbroken := by
  have blank : Text.Unbroken [' '] := by decide
  have name : written.name.lower.Unbroken :=
    Text.unbroken_of_tokens (Text.isToken_iff.mp written.tidy.isName).2
  have equals : Text.Unbroken ['='] := by decide
  have whole := (blank.append name).append (equals.append written.unbroken)
  simpa [segment, core, tidy] using whole

end WrittenParam

namespace Params

variable {seen params : Params} {name : Text}

theorem isSome_of_enter? {entered : Params} {param : Param}
    (enters : seen.enter? param = some entered) : (entered.get? param.name).isSome = true := by
  rw [enter?] at enters
  split at enters
  · obtain rfl := Option.some.inj enters
    rw [get?_insert_self, Option.isSome_some]
  · next value found =>
    split at enters
    · obtain rfl := Option.some.inj enters
      rw [found, Option.isSome_some]
    · contradiction

theorem enter?_keeps {entered : Params} {param : Param} (present : (seen.get? name).isSome = true)
    (enters : seen.enter? param = some entered) :
    entered.get? name = seen.get? name ∧ (param.name = name → entered = seen) := by
  rw [enter?] at enters
  split at enters
  · next absent =>
    obtain rfl := Option.some.inj enters
    have distinct : name ≠ param.name := by
      rintro rfl
      simp [absent] at present
    exact ⟨get?_insert_of_ne param.value seen distinct, fun same => absurd same.symm distinct⟩
  · split at enters
    · obtain rfl := Option.some.inj enters
      exact ⟨rfl, fun _ => rfl⟩
    · contradiction

/-- A name that was read before may be left out. -/
theorem enterAll?_of_present {written : List WrittenParam}
    (present : (seen.get? name).isSome = true)
    (enters : seen.enterAll? (written.map WrittenParam.param) = some params) :
    seen.enterAll? ((written.filter fun other => other.name.lower != name).map
      WrittenParam.param) = some params := by
  induction written generalizing seen with
  | nil => exact enters
  | cons other later ih =>
      obtain ⟨entered, here, behind⟩ := Option.bind_eq_some_iff.mp enters
      obtain ⟨same, stays⟩ := enter?_keeps present here
      by_cases again : other.name.lower = name
      · rw [List.filter_cons_of_neg (by simpa using again)]
        obtain rfl := stays again
        exact ih present behind
      · rw [List.filter_cons_of_pos (by simpa using again), List.map_cons,
          enterAll?_cons_of_enter? here]
        exact ih (same ▸ present) behind

theorem enterAll?_firstOfName {written : List WrittenParam}
    (enters : seen.enterAll? (written.map WrittenParam.param) = some params) :
    seen.enterAll? ((WrittenParam.firstOfName written).map WrittenParam.param) = some params := by
  induction written generalizing seen with
  | nil => exact enters
  | cons written later ih =>
      obtain ⟨entered, here, behind⟩ := Option.bind_eq_some_iff.mp enters
      rw [WrittenParam.firstOfName, List.map_cons, enterAll?_cons_of_enter? here]
      exact enterAll?_of_present (isSome_of_enter? here) (ih behind)

end Params

theorem Closing.gaps {closing : Text} (closes : Closing closing) :
    ∃ gaps : List Text, closing = gaps.flatMap (';' :: ·) ∧ ∀ gap ∈ gaps, gap.Blank := by
  cases closes with
  | nothing => exact ⟨[], rfl, by simp⟩
  | @semicolon gap blank => exact ⟨[gap], by simp, by simpa using blank⟩

namespace WrittenMediaType

theorem tagless (written : WrittenMediaType) : written.text.Tagless := by
  obtain ⟨before, essence, behind, params, closing, isType, -, blankBehind, closes⟩ := written
  cases closes with
  | @semicolon gap blank =>
      exact ⟨before ++ essence ++ behind ++ WrittenParam.spelling params, ';', gap,
        by simp [text], by decide, by decide, blank⟩
  | nothing =>
      rcases List.eq_nil_or_concat params with rfl | ⟨front, last, rfl⟩
      · have ends : Text.Tagless (before ++ essence ++ behind) := .of_firm isType.firm blankBehind
        simpa [text, WrittenParam.spelling] using ends
      · have ends : Text.Tagless (before ++ essence ++ behind ++ WrittenParam.spelling front ++
            ';' :: last.beforeName ++ last.core ++ last.behind) :=
          .of_firm last.core_firm last.blankBehind
        simpa [text, WrittenParam.spelling, WrittenParam.segment] using ends

theorem split_text (written : WrittenMediaType) {gaps : List Text}
    (closing : written.closing = gaps.flatMap (';' :: ·)) (blank : ∀ gap ∈ gaps, gap.Blank) :
    Quoting.split ';' .outside written.text =
      (written.before ++ written.essence ++ written.behind) ::
        (written.params.map WrittenParam.segment ++ gaps) := by
  have spelled : WrittenParam.spelling written.params ++ written.closing =
      (written.params.map WrittenParam.segment ++ gaps).flatMap (';' :: ·) := by
    rw [closing, List.flatMap_append, List.flatMap_map, WrittenParam.spelling]
  rw [text, spelled]
  refine Quoting.split_segments ?_ fun segment member => ?_
  · exact ((Quoting.passes_blank written.blankBefore).append written.isType.passes).append
      (Quoting.passes_blank written.blankBehind)
  · rcases List.mem_append.mp member with segment | gap
    · obtain ⟨param, -, rfl⟩ := List.mem_map.mp segment
      exact param.segment_passes
    · exact Quoting.passes_blank (blank _ gap)

/-- The repair cuts a written value where the grammar does. -/
theorem ofText_text (codec : Codec) (written : WrittenMediaType) :
    RawMediaType.ofText codec written.text =
      { slot := .given written.essence
        params := (WrittenParam.firstOfName written.params).map WrittenParam.rawParam } := by
  obtain ⟨gaps, closing, blank⟩ := written.closes.gaps
  have firm := written.isType.firm
  have trimmed : Text.trim (written.before ++ written.essence ++ written.behind) =
      written.essence :=
    Text.trim_between firm.nonempty firm.solid written.blankBefore written.blankBehind
  have visible : written.essence.isEmpty = false := by simpa using firm.nonempty
  have noEquals : written.essence.contains '=' = false := by
    simpa using written.isType.not_mem (by decide) (by decide)
  rw [RawMediaType.ofText, written.split_text closing blank]
  simp only [trimmed, visible, noEquals, Bool.false_eq_true, if_false, written.isType.ofText,
    WrittenParam.ofSegments_segments codec written.params blank, WrittenParam.firstOfName_rawParam]

/-- The value as the repair writes it again. -/
def tidy (written : WrittenMediaType) : WrittenMediaType where
  essence := written.essence
  params := (WrittenParam.firstOfName written.params).map WrittenParam.tidy
  isType := written.isType
  blankBefore := .nil
  blankBehind := .nil
  closes := .nothing

theorem text_tidy_unbroken (written : WrittenMediaType) : written.tidy.text.Unbroken := by
  have params : (WrittenParam.spelling written.tidy.params).Unbroken := by
    intro c member
    obtain ⟨param, inside, shown⟩ := List.mem_flatMap.mp member
    obtain ⟨origin, -, rfl⟩ := List.mem_map.mp inside
    rcases List.mem_cons.mp shown with rfl | segment
    · decide
    · exact origin.segment_tidy_unbroken c segment
  have whole := written.isType.unbroken.append params
  simpa [text, tidy] using whole

theorem repairedText_text (codec : Codec) (written : WrittenMediaType) :
    MediaType.repairedText codec (RawMediaType.ofText codec written.text) = written.tidy.text := by
  have spelled : ((WrittenParam.firstOfName written.params).map WrittenParam.rawParam).flatMap
      (MediaType.repairedParam codec) = WrittenParam.spelling written.tidy.params := by
    rw [List.flatMap_map, WrittenParam.spelling, tidy, List.flatMap_map]
    exact List.flatMap_congr fun param _ => param.repairedParam_rawParam codec
  have written_eq : written.tidy.text =
      written.essence ++ WrittenParam.spelling written.tidy.params := by
    simp [text, tidy]
  rw [ofText_text, MediaType.repairedText, spelled, MediaType.strictEssence, ← written_eq,
    Text.joinLines_of_unbroken written.text_tidy_unbroken]

theorem media?_tidy {codec : Codec} {written : WrittenMediaType} {media : MediaType}
    (reads : written.media? codec = some media) : written.tidy.media? codec = some media := by
  obtain ⟨params, entered, rfl⟩ := Option.map_eq_some_iff.mp reads
  have same : written.tidy.params.map WrittenParam.param =
      (WrittenParam.firstOfName written.params).map WrittenParam.param := by
    rw [tidy, List.map_map]
    exact List.map_congr_left fun param _ => param.param_tidy
  rw [media?, same, Params.enterAll?_firstOfName entered]
  rfl

end WrittenMediaType

namespace MediaType

variable {codec : Codec} {text : Text} {strict : MediaType}

theorem readWith_of_readStrict (options : ReadOptions)
    (accepted : readStrict text codec = .ok strict) :
    readWith options text codec =
      .ok {
        essence := strict.essence
        params := strict.params.map fun param => (param.1, param.2.decodeWords codec)
        bareNames := [] } := by
  obtain ⟨written, rfl, reads⟩ := readStrict_eq_ok_iff.mp accepted
  have again : readStrict (repairedText codec (RawMediaType.ofText codec written.text)) codec =
      .ok strict := by
    rw [written.repairedText_text]
    exact readStrict_eq_ok_iff.mpr ⟨written.tidy, rfl, written.media?_tidy reads⟩
  have valued : bareNamesOf (RawMediaType.ofText codec written.text) = [] := by
    rw [written.ofText_text, bareNamesOf]
    simp [List.filter_map, Function.comp_def, WrittenParam.rawParam]
  rw [readWith, written.tagless.withoutTags_eq]
  simp only [again, valued]
  rw [written.ofText_text, resultEssence]
  simp

/-- What the strict grammar takes is read as it is by the lenient reader too, but for encoded
words in the values.  No stage of the repair changes it. -/
theorem read_of_readStrict (accepted : readStrict text codec = .ok strict) :
    read text codec =
      .ok {
        essence := strict.essence
        params := strict.params.map fun param => (param.1, param.2.decodeWords codec)
        bareNames := [] } :=
  readWith_of_readStrict {} accepted

/-- Folded, with a parameter given twice, a value in pieces, an encoded word, and separators
and brackets inside quotes. -/
def untidy : Text :=
  " Text/Plain ;\r\n\tfile = \"a;b<c>\" ; FILE=\"a\\;b\\<c\\>\"; path=\"C:\\dir\";".toList ++
    " name*0=x; name*1=\"y>\"; word=\"=?utf-8?q?z?=\" ; ".toList

theorem read_of_readStrict_untidy :
    readStrict untidy .standard = .ok {
        essence := "text/plain".toList
        params := [("file".toList, "a;b<c>".toList), ("name".toList, "xy>".toList),
          ("path".toList, "C:\\dir".toList), ("word".toList, "=?utf-8?q?z?=".toList)] } ∧
      read untidy .standard = .ok {
        essence := "text/plain".toList
        params := [("file".toList, "a;b<c>".toList), ("name".toList, "xy>".toList),
          ("path".toList, "C:\\dir".toList), ("word".toList, "z".toList)] } := by
  have accepted : readStrict untidy .standard = .ok {
      essence := "text/plain".toList
      params := [("file".toList, "a;b<c>".toList), ("name".toList, "xy>".toList),
        ("path".toList, "C:\\dir".toList), ("word".toList, "=?utf-8?q?z?=".toList)] } := by
    decide +kernel
  refine ⟨accepted, (read_of_readStrict accepted).trans ?_⟩
  cbv

end MediaType

end LenientMime
