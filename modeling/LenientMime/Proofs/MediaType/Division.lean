import LenientMime.Proofs.EncodedWord.Encode
import LenientMime.Proofs.Hexadecimal
import LenientMime.Proofs.MediaType.Acceptance
import LenientMime.Proofs.MediaType.Pieces

namespace LenientMime

/-! Texts that are divided among numbered parameters.

The bytes of a text may be cut anywhere, also inside a character.  The first piece carries the
charset and is escaped; of the others each is escaped, or stands as it is if it is text.
Reading puts the bytes together in the order of their numbers and decodes them at the end.
-/

/-- How bytes are escaped.  Any byte may be given by its digits, in either letter case, and a
token character but for the percent sign may stand for itself. -/
inductive Escapes : Bytes → Bytes → Prop
  | nil : Escapes [] []
  | digits {high low byte : UInt8} {spelling bytes : Bytes}
      (spelled : Byte.ofHexPair? high low = some byte) :
      Escapes spelling bytes → Escapes (Byte.percent :: high :: low :: spelling) (byte :: bytes)
  | plain {byte : UInt8} {spelling bytes : Bytes}
      (token : isTokenChar (Char.ofNat byte.toNat) = true) (noPercent : byte ≠ Byte.percent) :
      Escapes spelling bytes → Escapes (byte :: spelling) (byte :: bytes)

namespace Escapes

variable {spelling bytes : Bytes}

theorem percentDecode?_eq (escapes : Escapes spelling bytes) :
    percentDecode? spelling = some bytes := by
  induction escapes with
  | nil => rfl
  | @digits high low byte spelling bytes spelled later ih =>
      have pair := percentDecode?.eq_2 high low spelling
      simp only [spelled, ih, Option.map_some] at pair
      exact pair
  | @plain byte spelling bytes token noPercent later ih =>
      have single := percentDecode?.eq_3 byte spelling fun _ _ _ same _ => noPercent same
      simpa only [beq_false_of_ne noPercent, Bool.false_eq_true, if_false, ih,
        Option.map_some] using single

theorem tokens (escapes : Escapes spelling bytes) :
    ∀ byte ∈ spelling, isTokenChar (Char.ofNat byte.toNat) = true := by
  induction escapes with
  | nil => simp
  | digits spelled later ih =>
      obtain ⟨upper, lower⟩ := Byte.isHexDigit_of_ofHexPair? spelled
      exact List.forall_mem_cons.mpr ⟨by decide, List.forall_mem_cons.mpr
        ⟨Byte.isTokenChar_of_isHexDigit upper, List.forall_mem_cons.mpr
          ⟨Byte.isTokenChar_of_isHexDigit lower, ih⟩⟩⟩
  | plain token noPercent later ih => exact List.forall_mem_cons.mpr ⟨token, ih⟩

/-- Escaped bytes as text. -/
theorem tokens_ofAscii (escapes : Escapes spelling bytes) :
    ∀ c ∈ Text.ofAscii spelling, isTokenChar c = true :=
  List.forall_mem_map.mpr escapes.tokens

theorem percentDecode?_utf8 (escapes : Escapes spelling bytes) :
    percentDecode? (Text.ofAscii spelling).utf8 = some bytes := by
  have ascii : ∀ byte ∈ spelling, byte.toNat < 0x80 := fun byte member =>
    Byte.toNat_of_isTokenChar (escapes.tokens byte member)
  rw [Text.utf8_ofAscii ascii, escapes.percentDecode?_eq]

end Escapes

/-- A charset and a language, which may be empty, stand in front of what is escaped. -/
def Labelled (value label escaped : Text) : Prop :=
  label ≠ [] ∧ '\'' ∉ label ∧ ∃ language, '\'' ∉ language ∧
    value = label ++ '\'' :: (language ++ '\'' :: escaped)

section Label

variable {value label escaped : Text} {bytes : Bytes}

theorem splitLabel?_eq_some_iff :
    splitLabel? value = some (label, escaped) ↔ Labelled value label escaped := by
  constructor
  · intro found
    rw [splitLabel?] at found
    split at found
    · contradiction
    · contradiction
    · next front rest noEmpty cut =>
      obtain ⟨⟨language, behind⟩, later, same⟩ := Option.map_eq_some_iff.mp found
      obtain ⟨rfl, rfl⟩ := Prod.mk.inj same
      obtain ⟨whole, absent⟩ := Text.eq_of_cut cut
      obtain ⟨wholeToo, absentToo⟩ := Text.eq_of_cut later
      exact ⟨noEmpty, absent, language, absentToo, by rw [whole, wholeToo]⟩
  · rintro ⟨nonempty, absent, language, absentToo, rfl⟩
    obtain ⟨c, rest, rfl⟩ := List.exists_cons_of_ne_nil nonempty
    simp only [splitLabel?, Text.cut?_append _ absent, Text.cut?_append _ absentToo,
      Option.map_some]

theorem labelledBytes?_eq_some_iff :
    labelledBytes? value = some (label, bytes) ↔
      ∃ escaped, Labelled value label escaped ∧ percentDecode? escaped.utf8 = some bytes := by
  simp only [← splitLabel?_eq_some_iff, labelledBytes?]
  cases splitLabel? value with
  | none => simp
  | some found =>
      obtain ⟨front, behind⟩ := found
      simp only [Option.map_eq_some_iff, Option.some.injEq, Prod.mk.injEq]
      constructor
      · rintro ⟨read, decodes, rfl, rfl⟩
        exact ⟨behind, ⟨rfl, rfl⟩, decodes⟩
      · rintro ⟨_, ⟨rfl, rfl⟩, decodes⟩
        exact ⟨bytes, decodes, rfl, rfl⟩

end Label

/-- A piece behind the first one, as it may be written. -/
inductive WrittenPiece where
  | escaped (spelling bytes : Bytes) (escapes : Escapes spelling bytes)
  | literal (text : Text) (unbroken : text.Unbroken)

namespace WrittenPiece

def bytes : WrittenPiece → Bytes
  | .escaped _ bytes _ => bytes
  | .literal text _ => text.utf8

def piece : WrittenPiece → ExtendedPiece
  | .escaped spelling _ _ => .escaped (Text.ofAscii spelling)
  | .literal text _ => .literal text

theorem laterBytes_piece (written : WrittenPiece) : written.piece.laterBytes = written.bytes := by
  cases written with
  | escaped spelling bytes escapes =>
      rw [piece, ExtendedPiece.laterBytes, escapes.percentDecode?_utf8]
      rfl
  | literal => rfl

theorem unbroken_piece (written : WrittenPiece) : written.piece.value.Unbroken := by
  cases written with
  | escaped spelling bytes escapes => exact Text.unbroken_of_tokens escapes.tokens_ofAscii
  | literal text unbroken => exact unbroken

end WrittenPiece

/-- A text and its pieces.  The first one is escaped, since it names the charset. -/
structure DividedText where
  text : Text
  spelling : Bytes
  first : Bytes
  later : List WrittenPiece
  escapes : Escapes spelling first
  whole : first ++ later.flatMap WrittenPiece.bytes = text.utf8

namespace DividedText

variable (divided : DividedText)

def leadingPiece : ExtendedPiece :=
  .escaped ("UTF-8''".toList ++ Text.ofAscii divided.spelling)

def run : List ExtendedPiece :=
  divided.leadingPiece :: divided.later.map WrittenPiece.piece

/-- The parameters as names and quoted values, in the order of the numbers. -/
def params (base : Text) : List (Text × Text) :=
  (Params.ofRun base divided.run).map fun entry => (entry.1, entry.2.inQuotes)

theorem firstBytes_leadingPiece :
    divided.leadingPiece.firstBytes = (some "UTF-8".toList, divided.first) := by
  have labelled : Labelled ("UTF-8''".toList ++ Text.ofAscii divided.spelling) "UTF-8".toList
      (Text.ofAscii divided.spelling) :=
    ⟨by decide, by decide, [], List.not_mem_nil, rfl⟩
  have reads := labelledBytes?_eq_some_iff.mpr ⟨_, labelled, divided.escapes.percentDecode?_utf8⟩
  simp only [leadingPiece, ExtendedPiece.firstBytes, reads]

/-- The pieces are decoded as a whole, so that a character may be cut. -/
theorem join?_run {codec : Codec} (lawful : codec.Lawful) :
    ExtendedPiece.join? codec divided.run = some divided.text := by
  have later : (divided.later.map WrittenPiece.piece).flatMap ExtendedPiece.laterBytes =
      divided.later.flatMap WrittenPiece.bytes := by
    rw [List.flatMap_map]
    simp only [WrittenPiece.laterBytes_piece]
  simp only [run, ExtendedPiece.join?, divided.firstBytes_leadingPiece, later, divided.whole]
  exact lawful.convert?_utf8 (.inl rfl) divided.text

theorem unbroken_run : ∀ piece ∈ divided.run, piece.value.Unbroken := by
  have first : Text.Unbroken ("UTF-8''".toList ++ Text.ofAscii divided.spelling) :=
    Text.Unbroken.append (by decide) (Text.unbroken_of_tokens divided.escapes.tokens_ofAscii)
  exact List.forall_mem_cons.mpr ⟨first, List.forall_mem_map.mpr fun written _ =>
    written.unbroken_piece⟩

end DividedText

/-- What a parameter is read as, given its name and its raw value. -/
def readEntry (written : Text × Text) : Text × Text :=
  (written.1.lower, ((Text.readValue? written.2).map Prod.fst).getD [])

theorem readEntry_of_denotes {name raw value : Text} (denotes : Text.Denotes raw value)
    (unbroken : raw.Unbroken) : readEntry (name, raw) = (name.lower, value) := by
  have found : Text.readValue? (raw ++ []) = some (value, []) :=
    denotes.readValue?_append unbroken fun _ shown => nomatch shown
  rw [List.append_nil] at found
  simp only [readEntry, found, Option.map_some, Option.getD_some]

theorem WrittenParam.readEntry_eq (param : WrittenParam) :
    readEntry (param.name, param.raw) = param.param.entry :=
  readEntry_of_denotes param.denotes param.unbroken

theorem DividedText.map_readEntry_params (divided : DividedText) {base : Text}
    (lower : base.lower = base) :
    (divided.params base).map readEntry = Params.ofRun base divided.run := by
  rw [params, List.map_map]
  refine (List.map_congr_left fun entry member => ?_).trans (List.map_id _)
  obtain ⟨number, piece, found, rfl⟩ := Params.mem_ofRun.mp member
  have unbroken := divided.unbroken_run piece (List.mem_of_getElem? found)
  have read : readEntry (piece.name base number, piece.value.inQuotes) =
      (Text.lower (piece.name base number), piece.value) :=
    readEntry_of_denotes (Text.denotes_inQuotes _) unbroken.inQuotes
  rw [ExtendedPiece.lower_name lower] at read
  exact read

namespace WrittenMediaType

variable {written : WrittenMediaType} {base : Text} {run : List ExtendedPiece}

/-- Parameters that are written for a run of pieces, in any order, hold the run. -/
theorem holds_entries
    (lists : (written.params.map fun param => param.param.entry).Perm (Params.ofRun base run)) :
    written.Consistent ∧ written.entries.Holds base run := by
  have among {param : WrittenParam} (member : param ∈ written.params) :
      param.param.entry ∈ Params.ofRun base run :=
    lists.mem_iff.mp (List.mem_map.mpr ⟨param, member, rfl⟩)
  have consistent : written.Consistent := by
    intro first isFirst second isSecond same
    obtain ⟨param, member, rfl⟩ := List.mem_map.mp isFirst
    obtain ⟨other, memberToo, rfl⟩ := List.mem_map.mp isSecond
    exact (Prod.mk.inj (Params.eq_of_mem_ofRun (among member) (among memberToo) same)).2
  refine ⟨consistent, fun name value => (get?_entries consistent).trans ?_⟩
  rw [← lists.mem_iff, List.mem_map]
  exact exists_congr fun param => and_congr_right fun _ =>
    ⟨fun same => Prod.ext same.1 same.2, fun same => Prod.mk.inj same⟩

end WrittenMediaType

namespace MediaType

/-- A text that is divided among numbered parameters is read whole, whatever the order of the
parameters and wherever its bytes were cut. -/
theorem readStrict_divided {codec : Codec} (lawful : codec.Lawful) (written : WrittenMediaType)
    (divided : DividedText) {base : Text} (isName : base.IsName) (plain : '*' ∉ base)
    (lists : (written.params.map fun param => (param.name, param.raw)).Perm
      (divided.params base)) :
    readStrict written.text codec =
      .ok { essence := written.essence.lower, params := [(base, divided.text)] } := by
  have read := lists.map readEntry
  rw [divided.map_readEntry_params isName.lower, List.map_map] at read
  have entered : (written.params.map fun param => param.param.entry).Perm
      (Params.ofRun base divided.run) := by
    refine .trans (.of_eq (List.map_congr_left fun param _ => ?_)) read
    exact param.readEntry_eq.symm
  obtain ⟨consistent, holds⟩ := WrittenMediaType.holds_entries entered
  have assembled := holds.assemble_eq isName.nonempty plain (divided.join?_run lawful)
  exact written.readStrict_text_eq_ok_iff.mpr
    (WrittenMediaType.media?_eq_some_iff.mpr ⟨consistent, by rw [assembled]⟩)

/-- Eleven pieces.  Two characters are cut, letters stand for themselves, digits are in either
letter case, and a literal piece holds what has to be escaped in quotes. -/
def scattered : DividedText where
  text := "é€\"\\ naïvé".toList
  spelling := [Byte.percent, 0x43, 0x33]
  first := [0xC3]
  later := [
    .escaped [Byte.percent, 0x61, 0x39] [0xA9] (.digits rfl .nil),
    .escaped [Byte.percent, 0x45, 0x32] [0xE2] (.digits rfl .nil),
    .escaped [Byte.percent, 0x38, 0x32] [0x82] (.digits rfl .nil),
    .escaped [Byte.percent, 0x41, 0x43] [0xAC] (.digits rfl .nil),
    .literal "\"\\ ".toList (by decide),
    .escaped [0x6E, 0x61] [0x6E, 0x61] (.plain (by decide) (by decide)
      (.plain (by decide) (by decide) .nil)),
    .escaped [Byte.percent, 0x63, 0x33] [0xC3] (.digits rfl .nil),
    .escaped [Byte.percent, 0x41, 0x46] [0xAF] (.digits rfl .nil),
    .literal "v".toList (by decide),
    .literal "é".toList (by decide)]
  escapes := .digits rfl .nil
  whole := by decide

/-- A parameter behind a blank, with its value in quotes. -/
def quotedParam (name value : Text) (isName : name.isToken = true) (unbroken : value.Unbroken) :
    WrittenParam where
  beforeName := [' ']
  name
  raw := value.inQuotes
  value
  isName
  denotes := Text.denotes_inQuotes value
  unbroken := unbroken.inQuotes
  blankBeforeName := .space
  blankBeforeEquals := .nil
  blankBeforeValue := .nil
  blankBehind := .nil

theorem isType_attachment : IsType "attachment".toList :=
  .single (by decide)

/-- An attachment with parameters that are written so, given as names and values.  A name that is
no token, or a value with a line break, is left out. -/
def quotedAttachment (pairs : List (String × String)) : WrittenMediaType where
  essence := "attachment".toList
  params := pairs.filterMap fun pair =>
    if fits : Text.isToken pair.1.toList = true ∧ Text.Unbroken pair.2.toList then
      some (quotedParam _ _ fits.1 fits.2)
    else none
  isType := isType_attachment
  blankBefore := .nil
  blankBehind := .nil
  closes := .nothing

/-- The pieces out of order. -/
def shuffled : WrittenMediaType where
  essence := "Image".toList ++ '/' :: "PNG".toList
  params := [
    quotedParam "title*10".toList "é".toList (by decide) (by decide),
    quotedParam "title*1*".toList "%a9".toList (by decide) (by decide),
    quotedParam "title*3*".toList "%82".toList (by decide) (by decide),
    quotedParam "title*0*".toList "UTF-8''%C3".toList (by decide) (by decide),
    quotedParam "title*9".toList "v".toList (by decide) (by decide),
    quotedParam "title*2*".toList "%E2".toList (by decide) (by decide),
    quotedParam "title*8*".toList "%AF".toList (by decide) (by decide),
    quotedParam "title*4*".toList "%AC".toList (by decide) (by decide),
    quotedParam "title*5".toList "\"\\ ".toList (by decide) (by decide),
    quotedParam "title*7*".toList "%c3".toList (by decide) (by decide),
    quotedParam "title*6*".toList "na".toList (by decide) (by decide)]
  isType := .pair (by decide) (by decide)
  blankBefore := .nil
  blankBehind := .nil
  closes := .nothing

theorem readStrict_divided_shuffled :
    Text.IsName "title".toList ∧ '*' ∉ "title".toList ∧
      (shuffled.params.map fun param => (param.name, param.raw)).Perm
        (scattered.params "title".toList) ∧
      readStrict shuffled.text .standard = .ok {
        essence := "image/png".toList
        params := [("title".toList, "é€\"\\ naïvé".toList)] } := by
  have isName : Text.IsName "title".toList := ⟨by decide, by decide⟩
  have plain : '*' ∉ "title".toList := by decide
  have lists : (shuffled.params.map fun param => (param.name, param.raw)).Perm
      (scattered.params "title".toList) := by
    decide +kernel
  exact ⟨isName, plain, lists,
    readStrict_divided Codec.standard_lawful shuffled scattered isName plain lists⟩

end MediaType

end LenientMime
