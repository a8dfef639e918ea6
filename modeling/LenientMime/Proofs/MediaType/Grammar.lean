import LenientMime.Proofs.MediaType.Essence
import LenientMime.Proofs.MediaType.Value

namespace LenientMime

/-- A parameter as it stands behind its semicolon. -/
structure WrittenParam where
  beforeName : Text := []
  name : Text
  beforeEquals : Text := []
  beforeValue : Text := []
  raw : Text
  /-- What the raw value stands for. -/
  value : Text
  behind : Text := []
  isName : name.isToken = true
  denotes : Text.Denotes raw value
  unbroken : raw.Unbroken
  blankBeforeName : beforeName.Blank
  blankBeforeEquals : beforeEquals.Blank
  blankBeforeValue : beforeValue.Blank
  blankBehind : behind.Blank

namespace WrittenParam

/-- The parameter without the blanks around it. -/
def core (written : WrittenParam) : Text :=
  written.name ++ written.beforeEquals ++ '=' :: (written.beforeValue ++ written.raw)

def segment (written : WrittenParam) : Text :=
  written.beforeName ++ written.core ++ written.behind

def param (written : WrittenParam) : Param :=
  { name := written.name.lower, value := written.value }

/-- The parameters of a value, each with its semicolon. -/
def spelling (params : List WrittenParam) : Text :=
  params.flatMap (';' :: ·.segment)

end WrittenParam

/-- What may stand behind the last parameter. -/
inductive Closing : Text → Prop
  | nothing : Closing []
  | semicolon {gap : Text} (blank : gap.Blank) : Closing (';' :: gap)

namespace Params

/-- Adds a parameter.  One that is there already has to have the same value. -/
def enter? (seen : Params) (param : Param) : Option Params :=
  match seen.get? param.name with
  | none => some (seen.insert param.name param.value)
  | some value => if value = param.value then some seen else none

def enterAll? (seen : Params) : List Param → Option Params
  | [] => some seen
  | param :: later => (seen.enter? param).bind fun entered => enterAll? entered later

end Params

namespace Param

variable {text rest : Text} {param : Param}

theorem eq_of_skip? {separator : Char} (skipped : skip? separator text = some rest) :
    ∃ gap : Text, gap.Blank ∧ text = separator :: (gap ++ rest) := by
  cases text with
  | nil => simp [skip?] at skipped
  | cons c behind =>
      simp only [skip?] at skipped
      split at skipped
      · next same =>
        obtain rfl : c = separator := by simpa using same
        obtain rfl := Option.some.inj skipped
        obtain ⟨gap, blank, whole⟩ := Text.exists_trimStart behind
        exact ⟨gap, blank, by rw [← whole]⟩
      · simp at skipped

/-- What is read for a parameter is one, as it may be written. -/
theorem written_of_read? (found : read? text = some (param, rest)) :
    ∃ front written, Text.Blank front ∧ WrittenParam.behind written = [] ∧
      text = front ++ ';' :: (written.segment ++ rest) ∧ written.param = param := by
  obtain ⟨front, blankFront, whole⟩ := text.exists_trimStart
  simp only [read?] at found
  split at found
  · simp at found
  · next afterSemicolon semicolon =>
    obtain ⟨beforeName, blankBeforeName, shown⟩ := eq_of_skip? semicolon
    split at found
    · simp at found
    · next c name afterName named =>
      obtain ⟨isName, rfl⟩ := Text.isToken_of_token named (by simp)
      obtain ⟨beforeEquals, blankBeforeEquals, wholeName⟩ := afterName.exists_trimStart
      split at found
      · simp at found
      · next afterEquals equals =>
        obtain ⟨beforeValue, blankBeforeValue, shownEquals⟩ := eq_of_skip? equals
        obtain ⟨value, valued, rfl⟩ : ∃ value, Text.readValue? afterEquals = some (value, rest) ∧
            { name := Text.lower (c :: name), value : Param } = param := by
          simpa using found
        obtain ⟨raw, rfl, denotes, unbroken⟩ := Text.denotes_of_readValue? valued
        refine ⟨front, {
          beforeName, name := c :: name, beforeEquals, beforeValue, raw, value
          isName, denotes, unbroken, blankBeforeName, blankBeforeEquals, blankBeforeValue
          blankBehind := .nil }, blankFront, rfl, ?_, rfl⟩
        rw [whole, shown, wholeName, shownEquals]
        simp [WrittenParam.segment, WrittenParam.core]

theorem skip?_gap {gap : Text} (blank : gap.Blank) (separator : Char) (text : Text) :
    skip? separator (separator :: (gap ++ text)) = some text.trimStart := by
  rw [skip?, if_pos (by simp), blank.trimStart_append]

/-- A parameter that may be written is read, and the rest is left. -/
theorem read?_written (written : WrittenParam)
    (stops : ∀ c, rest.head? = some c → isTokenChar c = false) :
    read? (';' :: (written.segment ++ rest)) = some (written.param, written.behind ++ rest) := by
  have named := Text.Firm.of_token written.isName
  have valued := written.denotes.readValue?_append written.unbroken
    (written.blankBehind.stops stops)
  have name (behind : Text) : Text.token (written.name ++ (written.beforeEquals ++ '=' :: behind)) =
      (written.name, written.beforeEquals ++ '=' :: behind) :=
    Text.token_append_of_stop (Text.isToken_iff.mp written.isName).2
      (written.blankBeforeEquals.stops (by simp; decide))
  have equals (behind : Text) : Text.trimStart (written.beforeEquals ++ '=' :: behind) =
      '=' :: behind := by
    rw [written.blankBeforeEquals.trimStart_append, Text.trimStart_of_solid (by decide)]
  obtain ⟨c, later, shown⟩ := List.exists_cons_of_ne_nil named.nonempty
  have whole : written.segment ++ rest = written.beforeName ++ (written.name ++
      (written.beforeEquals ++ '=' :: (written.beforeValue ++ (written.raw ++
        (written.behind ++ rest))))) := by
    simp [WrittenParam.segment, WrittenParam.core]
  rw [whole, read?, Text.trimStart_of_solid (by decide), skip?_gap written.blankBeforeName,
    named.trimStart_append]
  simp only [name, WrittenParam.param]
  rw [shown]
  simp only [equals, skip?_gap written.blankBeforeValue, written.denotes.firm.trimStart_append,
    valued, Option.map_some]

end Param

namespace Params

variable {seen params : Params} {text : Text}

theorem enterAll?_cons_of_enter? {entered : Params} {param : Param} {later : List Param}
    (enters : seen.enter? param = some entered) :
    seen.enterAll? (param :: later) = entered.enterAll? later := by
  rw [enterAll?, enters, Option.bind_some]

/-- A list of parameters as it may be written, and what it is read as. -/
inductive Lists (seen : Params) (text : Text) (params : Params) : Prop where
  | intro (gap : Text) (written : List WrittenParam) (closing : Text) (blank : gap.Blank)
      (closes : Closing closing)
      (spells : text = gap ++ WrittenParam.spelling written ++ closing)
      (enters : seen.enterAll? (written.map WrittenParam.param) = some params)

theorem Lists.cons {entered : Params} {param : Param} {rest : Text}
    (found : Param.read? text.trimStart = some (param, rest))
    (enters : seen.enter? param = some entered) (later : entered.Lists rest params) :
    seen.Lists text params := by
  obtain ⟨outer, blankOuter, whole⟩ := text.exists_trimStart
  obtain ⟨front, written, blankFront, nothing, shown, rfl⟩ := Param.written_of_read? found
  obtain ⟨gap, others, closing, blankGap, closes, rfl, entersLater⟩ := later
  -- The blanks in front of the next semicolon stand behind this parameter.
  let spaced : WrittenParam := { written with behind := gap, blankBehind := blankGap }
  refine ⟨outer ++ front, spaced :: others, closing, blankOuter.append blankFront, closes, ?_, ?_⟩
  · rw [whole, shown]
    simp [spaced, WrittenParam.spelling, WrittenParam.segment, WrittenParam.core, nothing]
  · exact (enterAll?_cons_of_enter? enters).trans entersLater

theorem lists_of_readFrom (read : readFrom seen text = .ok params) : seen.Lists text params := by
  fun_induction readFrom seen text with
  | case1 seen text nothing =>
      obtain ⟨gap, blank, whole⟩ := text.exists_trimStart
      obtain rfl := Except.ok.inj read
      refine ⟨gap, [], [], blank, .nothing, ?_, rfl⟩
      rw [List.isEmpty_iff.mp nothing] at whole
      simpa [WrittenParam.spelling] using whole
  | case2 seen text some noParam alone =>
      obtain ⟨front, back, blankFront, blankBack, whole⟩ := text.exists_trim
      obtain rfl := Except.ok.inj read
      refine ⟨front, [], ';' :: back, blankFront, .semicolon blankBack, ?_, rfl⟩
      rw [beq_iff_eq.mp alone] at whole
      simpa [WrittenParam.spelling] using whole
  | case3 => contradiction
  | case4 seen text some param rest found absent ih =>
      exact .cons found (by rw [enter?, absent]) (ih read)
  | case5 seen text some param rest found present ih =>
      exact .cons found (by rw [enter?, present]; simp) (ih read)
  | case6 => contradiction

/-- What may stand behind a parameter begins with a semicolon. -/
theorem head?_spelling_closing {c : Char} {others : List WrittenParam} {closing : Text}
    (closes : Closing closing)
    (shown : (WrittenParam.spelling others ++ closing).head? = some c) : c = ';' := by
  cases others with
  | cons written others => simpa [WrittenParam.spelling] using shown.symm
  | nil =>
      cases closes with
      | nothing => simp [WrittenParam.spelling] at shown
      | semicolon blank => simpa [WrittenParam.spelling] using shown.symm

theorem readFrom_closing {gap closing : Text} (blank : gap.Blank) (closes : Closing closing) :
    readFrom seen (gap ++ closing) = .ok seen := by
  rw [readFrom, blank.trimStart_append]
  cases closes with
  | nothing => rfl
  | @semicolon behind blankBehind =>
      have ended : Param.skip? ';' (';' :: behind) = some [] := by
        rw [← List.append_nil behind, Param.skip?_gap blankBehind]
        rfl
      have noParam : Param.read? (';' :: behind) = none := by
        rw [Param.read?, Text.trimStart_of_solid (by decide), ended]
        rfl
      have solid : Text.Solid [';'] := ⟨by simp; decide, by simp; decide⟩
      have alone : Text.trim (gap ++ [';'] ++ behind) = [';'] :=
        Text.trim_between (by simp) solid blank blankBehind
      rw [← List.append_cons] at alone
      rw [Text.trimStart_of_solid (by decide), if_neg (by simp)]
      split
      · rw [alone, if_pos (by simp)]
      · next found => simp [noParam] at found

theorem readFrom_found {param : Param} {rest : Text}
    (found : Param.read? text.trimStart = some (param, rest)) :
    readFrom seen text =
      match seen.enter? param with
      | some entered => readFrom entered rest
      | none => .error (.invalidParameter (.conflicting param.name)) := by
  rw [readFrom]
  split
  · next nothing =>
    rw [List.isEmpty_iff.mp nothing] at found
    simp [Param.read?, Param.skip?, Text.trimStart] at found
  · split
    · next failed => simp [found] at failed
    · next read =>
      obtain ⟨rfl, rfl⟩ := by simpa [found] using read
      cases seenBefore : seen.get? param.name with
      | none => simp only [enter?, seenBefore]
      | some value =>
          simp only [enter?, seenBefore]
          by_cases same : value = param.value
          · rw [if_pos same, if_pos same]
          · rw [if_neg same, if_neg same]

/-- A list that is written is read just if its parameters can be entered. -/
theorem readFrom_written_eq_ok_iff {gap closing : Text} (blank : gap.Blank)
    (closes : Closing closing) (written : List WrittenParam) :
    readFrom seen (gap ++ WrittenParam.spelling written ++ closing) = .ok params ↔
      seen.enterAll? (written.map WrittenParam.param) = some params := by
  induction written generalizing seen gap with
  | nil =>
      rw [WrittenParam.spelling, List.flatMap_nil, List.append_nil, readFrom_closing blank closes]
      simp [enterAll?]
  | cons written others ih =>
      have found : Param.read? (gap ++ WrittenParam.spelling (written :: others) ++ closing).trimStart =
          some (written.param, written.behind ++ (WrittenParam.spelling others ++ closing)) := by
        rw [List.append_assoc, blank.trimStart_append, WrittenParam.spelling, List.flatMap_cons,
          List.cons_append, List.cons_append, List.append_assoc,
          Text.trimStart_of_solid (by decide)]
        refine Param.read?_written written fun c shown => ?_
        rw [head?_spelling_closing closes shown]
        decide
      rw [readFrom_found found, List.map_cons, enterAll?]
      cases enters : seen.enter? written.param with
      | none => simp
      | some entered =>
          rw [Option.bind_some, ← ih written.blankBehind, ← List.append_assoc]

theorem readFrom_of_lists (lists : seen.Lists text params) : readFrom seen text = .ok params := by
  obtain ⟨gap, written, closing, blank, closes, rfl, enters⟩ := lists
  exact (readFrom_written_eq_ok_iff blank closes written).mpr enters

/-- Parameters are read from a text just if it lists them. -/
theorem readFrom_eq_ok_iff : readFrom seen text = .ok params ↔ seen.Lists text params :=
  ⟨lists_of_readFrom, readFrom_of_lists⟩

end Params

/-- A header value that the grammar takes, unless its parameters are in conflict. -/
structure WrittenMediaType where
  before : Text := []
  essence : Text
  behind : Text := []
  params : List WrittenParam
  closing : Text := []
  isType : MediaType.IsType essence
  blankBefore : before.Blank
  blankBehind : behind.Blank
  closes : Closing closing

namespace WrittenMediaType

variable {written : WrittenMediaType}

def text (written : WrittenMediaType) : Text :=
  written.before ++ written.essence ++ written.behind ++
    (WrittenParam.spelling written.params ++ written.closing)

/-- The media type that is written, if no parameter has two values. -/
def media? (codec : Codec) (written : WrittenMediaType) : Option MediaType :=
  (Params.enterAll? [] (written.params.map WrittenParam.param)).map fun params =>
    { essence := written.essence.lower, params := params.assemble codec }

/-- The first semicolon stands behind the type. -/
theorem text_cut (written : WrittenMediaType) :
    written.text.takeWhile (· != ';') = written.before ++ written.essence ++ written.behind ∧
      written.text.dropWhile (· != ';') =
        WrittenParam.spelling written.params ++ written.closing := by
  have noSemicolon : ∀ c ∈ written.before ++ written.essence ++ written.behind,
      (c != ';') = true := by
    intro c member
    have absent : ';' ∉ written.before ++ written.essence ++ written.behind := by
      simp only [List.mem_append, not_or]
      exact ⟨⟨written.blankBefore.not_mem (by decide), written.isType.not_mem (by decide)
        (by decide)⟩, written.blankBehind.not_mem (by decide)⟩
    simpa using fun same : c = ';' => absent (same ▸ member)
  have stops : ∀ c, (WrittenParam.spelling written.params ++ written.closing).head? = some c →
      c = ';' := fun c shown => Params.head?_spelling_closing written.closes shown
  rw [text, List.takeWhile_append_of_pos noSemicolon, List.dropWhile_append_of_pos noSemicolon]
  generalize WrittenParam.spelling written.params ++ written.closing = rest at stops
  cases rest with
  | nil => simp
  | cons c rest => simp [stops c rfl]

/-- A written value is read just if no two of its parameters are in conflict. -/
theorem readStrict_text_eq_ok_iff {codec : Codec} (written : WrittenMediaType)
    {media : MediaType} :
    MediaType.readStrict written.text codec = .ok media ↔ written.media? codec = some media := by
  obtain ⟨front, behind⟩ := written.text_cut
  have trimmed : Text.trim (written.before ++ written.essence ++ written.behind) =
      written.essence :=
    Text.trim_between written.isType.firm.nonempty written.isType.firm.solid
      written.blankBefore written.blankBehind
  have accepted : essenceError? written.essence.lower = none :=
    MediaType.essenceError?_eq_none_iff.mpr written.isType.lower
  have listed (params : Params) :
      Params.readFrom [] (WrittenParam.spelling written.params ++ written.closing) = .ok params ↔
        Params.enterAll? [] (written.params.map WrittenParam.param) = some params :=
    Params.readFrom_written_eq_ok_iff .nil written.closes written.params
  rw [MediaType.readStrict, front, behind, trimmed, media?, Option.map_eq_some_iff]
  simp only [accepted, ← listed]
  cases Params.readFrom [] (WrittenParam.spelling written.params ++ written.closing) with
  | error error => simp
  | ok params => simp

end WrittenMediaType

namespace MediaType

variable {codec : Codec} {text : Text} {media : MediaType}

/-- The grammar takes a value just if it is written as a media type. -/
theorem readStrict_eq_ok_iff :
    readStrict text codec = .ok media ↔
      ∃ written : WrittenMediaType, written.text = text ∧ written.media? codec = some media := by
  constructor
  · intro read
    rw [readStrict] at read
    split at read
    · contradiction
    · next accepted =>
      split at read
      · contradiction
      · next params listed =>
        obtain rfl := Except.ok.inj read
        have isType := (essenceError?_eq_none_iff.mp accepted).of_lower
        obtain ⟨before, back, blankBefore, blankBack, whole⟩ :=
          Text.exists_trim (text.takeWhile (· != ';'))
        obtain ⟨gap, written, closing, blankGap, closes, spells, entered⟩ :=
          Params.readFrom_eq_ok_iff.mp listed
        have joined := (List.takeWhile_append_dropWhile (p := (· != ';')) (l := text)).symm
        generalize Text.trim (text.takeWhile (· != ';')) = essence at isType whole ⊢
        rw [whole, spells] at joined
        refine ⟨{
          before, essence, behind := back ++ gap, params := written, closing
          isType, blankBefore, blankBehind := blankBack.append blankGap, closes }, ?_, ?_⟩
        · rw [joined]
          simp [WrittenMediaType.text]
        · rw [WrittenMediaType.media?, entered, Option.map_some]
  · rintro ⟨written, rfl, reads⟩
    exact written.readStrict_text_eq_ok_iff.mpr reads

end MediaType

end LenientMime
