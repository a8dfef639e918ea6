import LenientMime.Proofs.Charset.Ascii
import LenientMime.Proofs.MediaType.Cutting
import LenientMime.Proofs.MediaType.Division
import Mathlib

namespace LenientMime

/-- Neither a line break stands in the text nor a percent sign, behind which one could hide. -/
def Text.Clear (text : Text) : Prop :=
  ∀ c ∈ text, c ≠ '%' ∧ c ≠ '\r' ∧ c ≠ '\n'

namespace Text

variable {text body value raw rest : Text} {c : Char}

theorem Clear.unbroken (clear : text.Clear) : text.Unbroken :=
  fun c member => (clear c member).2

theorem Clear.of_subset (clear : text.Clear) (within : rest ⊆ text) : rest.Clear :=
  fun c member => clear c (within member)

theorem Clear.bytes (clear : text.Clear) : Byte.percent ∉ text.utf8 ∧ OneLine text.utf8 := by
  have inside (byte : UInt8) (member : byte ∈ text.utf8) (ascii : byte.toNat < 0x80) :
      Char.ofNat byte.toNat ∈ text := mem_of_mem_utf8 member ascii
  refine ⟨fun member => ?_, fun byte member => ⟨?_, ?_⟩⟩
  · exact (clear _ (inside _ member (by decide))).1 (by decide)
  · rintro rfl
    exact (clear _ (inside _ member (by decide))).2.1 (by decide)
  · rintro rfl
    exact (clear _ (inside _ member (by decide))).2.2 (by decide)

theorem QuotedBody.subset (quotedBody : QuotedBody body text) : text ⊆ body := by
  induction quotedBody with
  | nil => exact List.Subset.refl []
  | quoted special later ih => exact List.subset_cons_of_subset _ (List.cons_subset_cons _ ih)
  | literal ordinary later ih => exact List.cons_subset_cons _ (List.cons_subset_cons _ ih)
  | plain noQuote noBackslash later ih => exact List.cons_subset_cons _ ih

/-- A value is written with all of its characters. -/
theorem Denotes.subset (denotes : Denotes raw value) : value ⊆ raw := by
  cases denotes with
  | bare => exact List.Subset.refl _
  | quotes quotedBody =>
      intro c member
      exact List.mem_append_left _ (List.mem_cons_of_mem _ (quotedBody.subset member))

end Text

section Extended

variable {codec : Codec} {value label : Text} {bytes : Bytes} {text : Text}

theorem percentDecode?_of_absent (absent : Byte.percent ∉ bytes) :
    percentDecode? bytes = some bytes := by
  induction bytes with
  | nil => rfl
  | cons byte rest ih =>
      obtain ⟨distinct, behind⟩ := not_or.mp (fun held => absent (List.mem_cons.mpr held))
      have plain : (byte == Byte.percent) = false := by simpa using Ne.symm distinct
      rw [percentDecode?]
      · rw [plain, if_neg (by decide), ih behind, Option.map_some]
      · rintro high low later rfl
        exact absurd rfl distinct

theorem Labelled.suffix {escaped : Text} (labelled : Labelled value label escaped) :
    escaped <:+ value := by
  obtain ⟨-, -, language, -, rfl⟩ := labelled
  exact ⟨label ++ '\'' :: (language ++ ['\'']), by simp⟩

theorem percentDecode?_of_clear (clear : value.Clear) :
    percentDecode? value.utf8 = some value.utf8 :=
  percentDecode?_of_absent clear.bytes.1

theorem oneLine_of_labelledBytes? (clear : value.Clear)
    (found : labelledBytes? value = some (label, bytes)) : OneLine bytes := by
  obtain ⟨escaped, labelled, decodes⟩ := labelledBytes?_eq_some_iff.mp found
  have clearBehind := clear.of_subset labelled.suffix.subset
  rw [percentDecode?_of_clear clearBehind] at decodes
  exact Option.some.inj decodes ▸ clearBehind.bytes.2

theorem unbroken_of_convert? (keeps : codec.KeepsLines) (oneLine : OneLine bytes)
    (converts : codec.convert? label bytes = some text) : text.Unbroken := by
  obtain ⟨charset, -, decodes⟩ := Charset.convert?_eq_some_iff.mp converts
  exact keeps charset bytes text decodes oneLine

theorem unbroken_of_decodeExtended? (keeps : codec.KeepsLines) (clear : value.Clear)
    (decodes : decodeExtended? codec value = some text) : text.Unbroken := by
  rw [decodeExtended?] at decodes
  split at decodes
  · contradiction
  · next label bytes found =>
    exact unbroken_of_convert? keeps (oneLine_of_labelledBytes? clear found) decodes

namespace ExtendedPiece

variable {piece : ExtendedPiece} {pieces : List ExtendedPiece}

theorem oneLine_laterBytes (clear : piece.value.Clear) : OneLine piece.laterBytes := by
  cases piece with
  | literal value => exact clear.bytes.2
  | escaped value =>
      have whole : percentDecode? value.utf8 = some value.utf8 := percentDecode?_of_clear clear
      rw [laterBytes, whole]
      exact clear.bytes.2

theorem oneLine_firstBytes (clear : piece.value.Clear) : OneLine piece.firstBytes.2 := by
  cases piece with
  | literal value => exact clear.bytes.2
  | escaped value =>
      rw [firstBytes]
      split
      · next label bytes found => exact oneLine_of_labelledBytes? clear found
      · intro byte member
        contradiction

theorem unbroken_of_join? (keeps : codec.KeepsLines) (clear : ∀ piece ∈ pieces, piece.value.Clear)
    (joined : join? codec pieces = some text) : text.Unbroken := by
  cases pieces with
  | nil => contradiction
  | cons first later =>
      obtain ⟨clearFirst, clearLater⟩ := List.forall_mem_cons.mp clear
      have oneLine : OneLine (first.firstBytes.2 ++ later.flatMap laterBytes) := by
        refine List.forall_mem_append.mpr ⟨oneLine_firstBytes clearFirst, fun byte member => ?_⟩
        obtain ⟨piece, inside, held⟩ := List.mem_flatMap.mp member
        exact oneLine_laterBytes (clearLater piece inside) byte held
      simp only [join?] at joined
      split at joined
      · exact unbroken_of_convert? keeps oneLine joined
      · rw [← Option.some.inj joined]
        exact (Utf8.grounded_decodeLossy _).noBreak oneLine

end ExtendedPiece

namespace Params

variable {params : Params} {base : Text} {piece : ExtendedPiece}

theorem exists_of_mem_pieces (member : piece ∈ params.pieces base) :
    ∃ name, (name, piece.value) ∈ params := by
  obtain ⟨number, held⟩ := exists_piece?_of_mem_pieces member
  exact ⟨_, mem_of_piece? held⟩

/-- Assembling clear values makes no line break. -/
theorem unbroken_assemble (keeps : codec.KeepsLines) (clear : ∀ param ∈ params, param.2.Clear) :
    ∀ param ∈ params.assemble codec, param.2.Unbroken := by
  refine assemble_induction (motive := fun assembled => ∀ param ∈ assembled, param.2.Unbroken) ?_ ?_
  · intro param member
    exact (clear param (List.mem_filter.mp member).1).unbroken
  · intro base _ value found assembled unbroken param member
    rcases mem_insert member with rfl | before
    · rw [extended?] at found
      split at found
      · next held single => exact unbroken_of_decodeExtended? keeps (clear _ (mem_of_get? single)) found
      · refine ExtendedPiece.unbroken_of_join? keeps (fun piece inside => ?_) found
        obtain ⟨name, held⟩ := exists_of_mem_pieces inside
        exact clear _ held
    · exact unbroken param before

end Params

end Extended

namespace WrittenMediaType

variable {written : WrittenMediaType}

theorem subset_text {param : WrittenParam} (member : param ∈ written.params) :
    param.raw ⊆ written.text := by
  intro c held
  have inside : c ∈ WrittenParam.spelling written.params := by
    refine List.mem_flatMap.mpr ⟨param, member, ?_⟩
    simp [WrittenParam.segment, WrittenParam.core, held]
  simp [text, inside]

theorem clear_entries (noPercent : '%' ∉ written.text) :
    ∀ entry ∈ written.entries, entry.2.Clear := by
  intro entry member
  obtain ⟨param, inside, rfl⟩ := List.mem_map.mp (Params.mem_ofList member)
  intro c held
  have written := param.denotes.subset held
  exact ⟨fun same => noPercent (same ▸ subset_text inside written), param.unbroken c written⟩

end WrittenMediaType

/-- Without percent signs the grammar reads values that hold no line break. -/
theorem MediaType.unbroken_of_readStrict {codec : Codec} (keeps : codec.KeepsLines) {text : Text}
    {strict : MediaType} (noPercent : '%' ∉ text) (read : readStrict text codec = .ok strict) :
    ∀ param ∈ strict.params, param.2.Unbroken := by
  obtain ⟨written, rfl, reads⟩ := readStrict_eq_ok_iff.mp read
  obtain ⟨-, rfl⟩ := WrittenMediaType.media?_eq_some_iff.mp reads
  exact Params.unbroken_assemble keeps (WrittenMediaType.clear_entries noPercent)

end LenientMime
