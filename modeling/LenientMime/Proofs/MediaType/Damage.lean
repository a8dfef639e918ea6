import LenientMime.Proofs.MediaType.Division

namespace LenientMime

/-! Extended parameters that are damaged.

A value that is given whole is left out if anything in it is damaged, and the plain parameter of
its name stays.  In a numbered run only the charset counts: a piece that cannot be read is joined
as if it were empty, and the others are reported with nothing in its place.
-/

/-- A percent sign stands in front of something other than two hexadecimal digits. -/
def BrokenEscape (bytes : Bytes) : Prop :=
  ∃ rest, Byte.percent :: rest <:+ bytes ∧
    ∀ high low later, rest = high :: low :: later → Byte.ofHexPair? high low = none

section Escapes

variable {byte : UInt8} {bytes : Bytes}

theorem brokenEscape_cons_of_ne (distinct : byte ≠ Byte.percent) :
    BrokenEscape (byte :: bytes) ↔ BrokenEscape bytes := by
  refine exists_congr fun rest => and_congr_left fun _ => ?_
  rw [List.suffix_cons_iff, List.cons.injEq]
  exact or_iff_right fun same => distinct same.1.symm

theorem brokenEscape_cons_percent :
    BrokenEscape (Byte.percent :: bytes) ↔
      (∀ high low later, bytes = high :: low :: later → Byte.ofHexPair? high low = none) ∨
        BrokenEscape bytes := by
  simp only [BrokenEscape, List.suffix_cons_iff, List.cons.injEq, true_and, or_and_right,
    exists_or, exists_eq_left]

/-- Bytes can be unescaped unless an escape in them is broken. -/
theorem percentDecode?_eq_none_iff : percentDecode? bytes = none ↔ BrokenEscape bytes := by
  fun_induction percentDecode? bytes with
  | case1 => simp [BrokenEscape]
  | case2 high low rest byte spelled ih =>
      obtain ⟨upper, lower⟩ := Byte.isHexDigit_of_ofHexPair? spelled
      have notFirst : high ≠ Byte.percent := by rintro rfl; contradiction
      have notSecond : low ≠ Byte.percent := by rintro rfl; contradiction
      have intact : ¬ ∀ first second later, high :: low :: rest = first :: second :: later →
          Byte.ofHexPair? first second = none := by
        intro none
        rw [none high low rest rfl] at spelled
        contradiction
      have behind : BrokenEscape (Byte.percent :: high :: low :: rest) ↔ BrokenEscape rest := by
        rw [brokenEscape_cons_percent, or_iff_right intact, brokenEscape_cons_of_ne notFirst,
          brokenEscape_cons_of_ne notSecond]
      exact (Option.map_eq_none_iff.trans ih).trans behind.symm
  | case3 high low rest unspelled =>
      refine iff_of_true rfl (brokenEscape_cons_percent.mpr (.inl ?_))
      rintro _ _ _ ⟨⟩
      exact unspelled
  | case4 byte rest short percent =>
      obtain rfl := eq_of_beq percent
      refine iff_of_true rfl (brokenEscape_cons_percent.mpr (.inl ?_))
      rintro high low later rfl
      exact (short high low later rfl rfl).elim
  | case5 byte rest short other ih =>
      rw [Option.map_eq_none_iff, ih, brokenEscape_cons_of_ne (by simpa using other)]

end Escapes

theorem Charset.convert?_eq_none_iff {codec : Codec} {label : Text} {bytes : Bytes} :
    codec.convert? label bytes = none ↔
      ∀ charset, ofLabel? label codec = some charset → codec.decode? charset bytes = none := by
  simp only [Option.eq_none_iff_forall_ne_some, ne_eq, convert?_eq_some_iff, not_exists, not_and]
  exact ⟨fun fails charset known text => fails text charset known,
    fun fails text charset known => fails charset known text⟩

section Label

variable {value label escaped : Text}

theorem Labelled.unique {other behind : Text} (labelled : Labelled value label escaped)
    (labelledToo : Labelled value other behind) : label = other ∧ escaped = behind := by
  have same := (splitLabel?_eq_some_iff.mpr labelled).symm.trans
    (splitLabel?_eq_some_iff.mpr labelledToo)
  exact Prod.mk.inj (Option.some.inj same)

theorem labelledBytes?_eq_none_iff :
    labelledBytes? value = none ↔
      (∀ label escaped, ¬ Labelled value label escaped) ∨
        ∃ label escaped, Labelled value label escaped ∧ BrokenEscape escaped.utf8 := by
  simp only [← splitLabel?_eq_some_iff, ← percentDecode?_eq_none_iff, labelledBytes?]
  cases splitLabel? value with
  | none => simp
  | some found =>
      obtain ⟨front, behind⟩ := found
      simp

end Label

namespace ExtendedPiece

/-- What is wrong with a run of pieces that a value should not be made of. -/
inductive Damaged (codec : Codec) : List ExtendedPiece → Prop
  | unlabelled {value : Text} {later : List ExtendedPiece}
      (bare : ∀ label escaped, ¬ Labelled value label escaped) : Damaged codec (.escaped value :: later)
  | brokenFirst {value label escaped : Text} {later : List ExtendedPiece}
      (labelled : Labelled value label escaped) (broken : BrokenEscape escaped.utf8) :
      Damaged codec (.escaped value :: later)
  | brokenLater {first : ExtendedPiece} {later : List ExtendedPiece} {value : Text}
      (member : .escaped value ∈ later) (broken : BrokenEscape value.utf8) :
      Damaged codec (first :: later)
  | unknown {value label escaped : Text} {later : List ExtendedPiece}
      (labelled : Labelled value label escaped) (unknown : Charset.ofLabel? label codec = none) :
      Damaged codec (.escaped value :: later)
  | malformed {value label : Text} {bytes : Bytes} {later : List ExtendedPiece} {charset : Charset}
      (reads : labelledBytes? value = some (label, bytes))
      (known : Charset.ofLabel? label codec = some charset)
      (malformed : codec.decode? charset (bytes ++ later.flatMap laterBytes) = none) :
      Damaged codec (.escaped value :: later)

/-- The first piece can be read, and in the charset that it names the bytes of the run are no
text. -/
def Undecodable (codec : Codec) (run : List ExtendedPiece) : Prop :=
  ∃ value later label bytes, run = .escaped value :: later ∧
    labelledBytes? value = some (label, bytes) ∧
    codec.convert? label (bytes ++ later.flatMap laterBytes) = none

def emptyUnless (reads : Text → Bool) : ExtendedPiece → ExtendedPiece
  | .literal value => .literal value
  | .escaped value => if reads value then .escaped value else .literal []

/-- A run with an empty piece in the place of each one that cannot be read. -/
def emptied : List ExtendedPiece → List ExtendedPiece
  | [] => []
  | first :: later =>
      first.emptyUnless (fun value => (labelledBytes? value).isSome) ::
        later.map (emptyUnless fun value => (percentDecode? value.utf8).isSome)

variable {codec : Codec} {first : ExtendedPiece} {run later : List ExtendedPiece} {value : Text}

theorem emptyUnless_eq_self_iff {reads : Text → Bool} {piece : ExtendedPiece} :
    piece.emptyUnless reads = piece ↔ ∀ value, piece = .escaped value → reads value = true := by
  cases piece with
  | literal value => simp [emptyUnless]
  | escaped value => cases found : reads value <;> simp [emptyUnless, found]

theorem firstBytes_emptyUnless (piece : ExtendedPiece) :
    (piece.emptyUnless fun value => (labelledBytes? value).isSome).firstBytes =
      piece.firstBytes := by
  cases piece with
  | literal => rfl
  | escaped value =>
      cases found : labelledBytes? value with
      | none => simp [emptyUnless, firstBytes, found, Text.utf8]
      | some read => simp [emptyUnless, firstBytes, found]

theorem laterBytes_emptyUnless (piece : ExtendedPiece) :
    (piece.emptyUnless fun value => (percentDecode? value.utf8).isSome).laterBytes =
      piece.laterBytes := by
  cases piece with
  | literal => rfl
  | escaped value =>
      cases found : percentDecode? value.utf8 with
      | none =>
          simp only [emptyUnless, laterBytes, found]
          rfl
      | some bytes => simp [emptyUnless, laterBytes, found]

/-- Pieces that cannot be read are joined as empty ones. -/
theorem join?_emptied (codec : Codec) (run : List ExtendedPiece) :
    join? codec (emptied run) = join? codec run := by
  cases run with
  | nil => rfl
  | cons first later =>
      simp only [emptied, join?, firstBytes_emptyUnless, List.flatMap_map, laterBytes_emptyUnless]

theorem join?_eq_none_iff : join? codec run = none ↔ run = [] ∨ Undecodable codec run := by
  cases run with
  | nil => simp [join?]
  | cons first later =>
      cases first with
      | literal value => simp [join?, firstBytes, Undecodable]
      | escaped value =>
          cases found : labelledBytes? value with
          | none => simp [join?, firstBytes, Undecodable, found]
          | some read =>
              obtain ⟨label, bytes⟩ := read
              simp [join?, firstBytes, Undecodable, found]

/-- Nothing is emptied where the first piece has its charset in front and no escape is broken. -/
theorem emptied_cons_eq_self_iff :
    emptied (first :: later) = first :: later ↔
      (∀ value, first = .escaped value → labelledBytes? value ≠ none) ∧
        ∀ value, .escaped value ∈ later → ¬ BrokenEscape value.utf8 := by
  let empty := emptyUnless fun value => (percentDecode? value.utf8).isSome
  have behind : later.map empty = later ↔
      ∀ value, .escaped value ∈ later → ¬ BrokenEscape value.utf8 := by
    have fixed : later.map empty = later ↔ ∀ piece ∈ later, empty piece = piece := by
      simpa using List.map_inj_left (f := empty) (g := id) (l := later)
    simp only [fixed, empty, emptyUnless_eq_self_iff, ← percentDecode?_eq_none_iff,
      ← Option.isSome_iff_ne_none]
    exact ⟨fun held value member => held _ member value rfl,
      fun held piece member value same => held value (same ▸ member)⟩
  simp only [emptied, List.cons.injEq, emptyUnless_eq_self_iff, Option.isSome_iff_ne_none]
  exact and_congr_right fun _ => behind

theorem damaged_of_unread (unread : labelledBytes? value = none) :
    Damaged codec (.escaped value :: later) := by
  rcases labelledBytes?_eq_none_iff.mp unread with bare | ⟨label, escaped, labelled, broken⟩
  · exact .unlabelled bare
  · exact .brokenFirst labelled broken

theorem damaged_of_undecodable (undecodable : Undecodable codec run) :
    Damaged codec run := by
  obtain ⟨value, later, label, bytes, rfl, reads, fails⟩ := undecodable
  cases known : Charset.ofLabel? label codec with
  | none =>
      obtain ⟨escaped, labelled, -⟩ := labelledBytes?_eq_some_iff.mp reads
      exact .unknown labelled known
  | some charset => exact .malformed reads known (Charset.convert?_eq_none_iff.mp fails _ known)

theorem emptied_ne_of_unread (unread : labelledBytes? value = none) :
    emptied (.escaped value :: later) ≠ .escaped value :: later :=
  fun same => (emptied_cons_eq_self_iff.mp same).1 value rfl unread

theorem Damaged.undecodable_or_emptied_ne (damaged : Damaged codec run) :
    Undecodable codec run ∨ emptied run ≠ run := by
  cases damaged with
  | @unlabelled value later bare =>
      exact .inr (emptied_ne_of_unread (labelledBytes?_eq_none_iff.mpr (.inl bare)))
  | @brokenFirst value label escaped later labelled broken =>
      exact .inr (emptied_ne_of_unread
        (labelledBytes?_eq_none_iff.mpr (.inr ⟨label, escaped, labelled, broken⟩)))
  | @brokenLater first later value member broken =>
      exact .inr fun same => (emptied_cons_eq_self_iff.mp same).2 value member broken
  | @unknown value label escaped later labelled unknown =>
      -- The charset is not looked up if an escape of the first piece is broken.
      cases reads : labelledBytes? value with
      | none => exact .inr (emptied_ne_of_unread reads)
      | some read =>
          obtain ⟨front, bytes⟩ := read
          obtain ⟨behind, labelledToo, -⟩ := labelledBytes?_eq_some_iff.mp reads
          obtain ⟨rfl, -⟩ := labelled.unique labelledToo
          refine .inl ⟨value, later, label, bytes, rfl, reads, ?_⟩
          refine Charset.convert?_eq_none_iff.mpr fun charset known => ?_
          rw [unknown] at known
          contradiction
  | @malformed value label bytes later charset reads known malformed =>
      refine .inl ⟨value, later, label, bytes, rfl, reads, ?_⟩
      refine Charset.convert?_eq_none_iff.mpr fun other knownToo => ?_
      obtain rfl := Option.some.inj (known.symm.trans knownToo)
      exact malformed

/-- A run is damaged just if it is no text in its charset or one of its pieces is joined as an
empty one. -/
theorem damaged_iff : Damaged codec run ↔ Undecodable codec run ∨ emptied run ≠ run := by
  refine ⟨Damaged.undecodable_or_emptied_ne, ?_⟩
  rintro (undecodable | changed)
  · exact damaged_of_undecodable undecodable
  · cases run with
    | nil => exact absurd rfl changed
    | cons first later =>
        by_contra undamaged
        refine changed (emptied_cons_eq_self_iff.mpr ⟨?_, ?_⟩)
        · rintro value rfl unread
          exact undamaged (damaged_of_unread unread)
        · exact fun value member broken => undamaged (.brokenLater member broken)

/-- A value that is given whole is text just if it is not damaged. -/
theorem decodeExtended?_eq_none_iff :
    decodeExtended? codec value = none ↔ Damaged codec [.escaped value] := by
  rw [damaged_iff, Ne, emptied_cons_eq_self_iff, decodeExtended?]
  cases reads : labelledBytes? value with
  | none => simp [reads]
  | some read =>
      obtain ⟨label, bytes⟩ := read
      simp [Undecodable, reads]

end ExtendedPiece

namespace Params

open ExtendedPiece

/-- The pieces that the value of a base name is made of. -/
def used (params : Params) (base : Text) : List ExtendedPiece :=
  match params.get? (base ++ ['*']) with
  | some value => [.escaped value]
  | none => params.pieces base

/-- Damage is noticed in a value that is given whole.  In a run it is noticed by the charset
alone. -/
def Noticed (codec : Codec) (params : Params) (base : Text) : Prop :=
  (∃ value, params.get? (base ++ ['*']) = some value) ∨
    Undecodable codec (params.pieces base)

variable {codec : Codec} {params : Params} {base : Text}

theorem extended?_eq_none (damaged : Damaged codec (params.used base))
    (noticed : params.Noticed codec base) : params.extended? codec base = none := by
  rw [used] at damaged
  rw [extended?]
  cases whole : params.get? (base ++ ['*']) with
  | some value =>
      rw [whole] at damaged
      exact decodeExtended?_eq_none_iff.mpr damaged
  | none =>
      have undecodable := noticed.resolve_left (by simp [whole])
      exact join?_eq_none_iff.mpr (.inr undecodable)

theorem extended?_eq_some (damaged : Damaged codec (params.used base))
    (unnoticed : ¬ params.Noticed codec base) :
    emptied (params.pieces base) ≠ params.pieces base ∧
      ∃ text, join? codec (emptied (params.pieces base)) = some text ∧
        params.extended? codec base = some text := by
  obtain ⟨notWhole, decodable⟩ := not_or.mp unnoticed
  have absent : params.get? (base ++ ['*']) = none :=
    Option.eq_none_iff_forall_ne_some.mpr (not_exists.mp notWhole)
  rw [used, absent] at damaged
  rw [extended?, absent, join?_emptied]
  refine ⟨damaged.undecodable_or_emptied_ne.resolve_left decodable, ?_⟩
  cases joined : join? codec (params.pieces base) with
  | some text => exact ⟨text, rfl, rfl⟩
  | none =>
      have empty := (join?_eq_none_iff.mp joined).resolve_right decodable
      rw [empty] at damaged
      contradiction

end Params

namespace MediaType

open ExtendedPiece

/-- A damaged value is left out, so that the plain parameter of its name stays, if it is given
whole or is no text in the charset that its first piece names.  Else its damaged pieces, of which
there is one at least, are taken for empty ones, and what the others say is reported. -/
theorem readStrict_damaged (codec : Codec) (written : WrittenMediaType) {media : MediaType}
    (reads : readStrict written.text codec = .ok media) {base : Text}
    (isBase : base ∈ written.entries.extendedNames)
    (damaged : Damaged codec (written.entries.used base)) :
    (written.entries.Noticed codec base → media.params.get? base = written.entries.get? base) ∧
      (¬ written.entries.Noticed codec base →
        emptied (written.entries.pieces base) ≠ written.entries.pieces base ∧
          ∃ text, join? codec (emptied (written.entries.pieces base)) = some text ∧
            media.params.get? base = some text) := by
  obtain ⟨-, rfl⟩ := WrittenMediaType.media?_eq_some_iff.mp
    (written.readStrict_text_eq_ok_iff.mp reads)
  obtain ⟨nonempty, plain, -⟩ := Params.exists_of_mem_extendedNames isBase
  rw [Params.get?_assemble_eq nonempty plain]
  refine ⟨fun noticed => ?_, fun unnoticed => ?_⟩
  · rw [Params.extended?_eq_none damaged noticed, Option.none_or]
  · obtain ⟨changed, text, joined, extended⟩ := Params.extended?_eq_some damaged unnoticed
    exact ⟨changed, text, joined, by rw [extended, Option.some_or]⟩

/-- Two names, each with a plain parameter and with pieces.  The bytes of the first are no text in
UTF-8, and an escape in the middle of the second is broken. -/
def holed : WrittenMediaType :=
  quotedAttachment [("name", "plain"), ("name*0*", "UTF-8''a"), ("name*1*", "%ff"),
    ("name*2", "c"), ("title", "plain"), ("title*0*", "UTF-8''a"), ("title*1*", "%zz"),
    ("title*2", "c")]

def holedMedia : MediaType where
  essence := "attachment".toList
  params := [("name".toList, "plain".toList), ("title".toList, "ac".toList)]

theorem readStrict_text_holed : readStrict holed.text .standard = .ok holedMedia := by
  decide +kernel

theorem damaged_name_holed : Damaged .standard (holed.entries.used "name".toList) := by
  have run : holed.entries.used "name".toList = [.escaped "UTF-8''a".toList,
      .escaped "%ff".toList, .literal "c".toList] := by
    decide +kernel
  have reads : labelledBytes? "UTF-8''a".toList = some ("UTF-8".toList, [0x61]) := by decide
  have known : Charset.ofLabel? "UTF-8".toList .standard = some .utf8 := by decide
  rw [run]
  exact .malformed reads known (by decide)

theorem damaged_title_holed : Damaged .standard (holed.entries.used "title".toList) := by
  have run : holed.entries.used "title".toList = [.escaped "UTF-8''a".toList,
      .escaped "%zz".toList, .literal "c".toList] := by
    decide +kernel
  rw [run]
  exact .brokenLater List.mem_cons_self (percentDecode?_eq_none_iff.mp (by decide))

theorem readStrict_damaged_holed :
    (readStrict holed.text .standard = .ok holedMedia ∧
      "name".toList ∈ holed.entries.extendedNames ∧
      Damaged .standard (holed.entries.used "name".toList) ∧
      holed.entries.Noticed .standard "name".toList ∧
      holedMedia.params.get? "name".toList = some "plain".toList) ∧
    "title".toList ∈ holed.entries.extendedNames ∧
      Damaged .standard (holed.entries.used "title".toList) ∧
      ¬ holed.entries.Noticed .standard "title".toList ∧
      ∃ text, join? .standard (emptied (holed.entries.pieces "title".toList)) = some text ∧
        holedMedia.params.get? "title".toList = some text := by
  have isBase : "name".toList ∈ holed.entries.extendedNames := by decide +kernel
  have isBaseToo : "title".toList ∈ holed.entries.extendedNames := by decide +kernel
  have noticed : holed.entries.Noticed .standard "name".toList := by
    refine .inr ⟨"UTF-8''a".toList, [.escaped "%ff".toList, .literal "c".toList], "UTF-8".toList,
      [0x61], ?_, ?_, ?_⟩ <;> decide +kernel
  have unnoticed : ¬ holed.entries.Noticed .standard "title".toList := by
    rintro (⟨value, whole⟩ | undecodable)
    · have absent : holed.entries.get? ("title".toList ++ ['*']) = none := by decide +kernel
      rw [absent] at whole
      contradiction
    · have joined : join? .standard (holed.entries.pieces "title".toList) = some "ac".toList := by
        decide +kernel
      rw [join?_eq_none_iff.mpr (.inr undecodable)] at joined
      contradiction
  have kept :=
    (readStrict_damaged .standard holed readStrict_text_holed isBase damaged_name_holed).1 noticed
  have reported :=
    (readStrict_damaged .standard holed readStrict_text_holed isBaseToo damaged_title_holed).2 unnoticed
  have plain : holed.entries.get? "name".toList = some "plain".toList := by decide +kernel
  exact ⟨⟨readStrict_text_holed, isBase, damaged_name_holed, noticed, kept.trans plain⟩,
    isBaseToo, damaged_title_holed, unnoticed, reported.2⟩

/-- A piece in the middle is lost, and what is left of the value is reported in the place of the
plain parameter. -/
theorem readStrict_reports_hole :
    readStrict holed.text .standard = .ok holedMedia ∧
      "title".toList ∈ holed.entries.extendedNames ∧
      Damaged .standard (holed.entries.used "title".toList) ∧
      holed.entries.get? "title".toList = some "plain".toList ∧
      holedMedia.params.get? "title".toList = some "ac".toList :=
  ⟨readStrict_text_holed, by decide +kernel, damaged_title_holed, by decide +kernel,
    by decide +kernel⟩

end MediaType

end LenientMime
