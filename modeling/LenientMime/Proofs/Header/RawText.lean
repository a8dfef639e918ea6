import LenientMime.Header.RawText
import LenientMime.Proofs.Text.Acceptance
import Mathlib

namespace LenientMime

/-! What raw header bytes read as.

Bytes that are UTF-8 read as the text that they encode.  All others should read byte by byte,
each as the character that windows-1252 has for it, and so they do unless a byte order mark
opens them.  A mark is taken for the name of another charset, and the text is then shorter
than the bytes.
-/

namespace Utf8

/-- An unfinished character counts for the one that takes its place. -/
theorem length_decodeLossyFrom_le (state : Option Pending) (bytes : Bytes) :
    (decodeLossyFrom state bytes).length ≤ bytes.length + if state.isSome then 1 else 0 := by
  induction bytes generalizing state with
  | nil => cases state <;> simp [decodeLossyFrom]
  | cons byte rest ih =>
      have between : (decodeLossyFrom none rest).length ≤ rest.length := ih none
      have within (pending : Pending) :
          (decodeLossyFrom (some pending) rest).length ≤ rest.length + 1 := ih (some pending)
      have fresh : (decodeLossyFrom none (byte :: rest)).length ≤ rest.length + 1 := by
        simp only [decodeLossyFrom]
        split
        · exact Nat.succ_le_succ between
        · exact within _
        · exact Nat.succ_le_succ between
      cases state with
      | none => exact fresh
      | some pending =>
          simp only [Option.isSome_some, if_true, List.length_cons]
          cases read : pending.next byte with
          | char c =>
              simp only [decodeLossyFrom, read, List.length_cons]
              omega
          | more after =>
              simp only [decodeLossyFrom, read]
              exact Nat.le_succ_of_le (within after)
          | malformed =>
              -- The byte is read again, as if nothing had been read before it.
              have again : decodeLossyFrom (some pending) (byte :: rest) =
                  replacementChar :: decodeLossyFrom none (byte :: rest) := by
                simp only [decodeLossyFrom, read]
              rw [again]
              exact Nat.succ_le_succ fresh

theorem length_decodeLossy_le (bytes : Bytes) : (decodeLossy bytes).length ≤ bytes.length :=
  length_decodeLossyFrom_le none bytes

end Utf8

namespace Utf16

theorem length_units (bigEndian : Bool) (bytes : Bytes) :
    2 * (units bigEndian bytes).1.length + (if (units bigEndian bytes).2 then 1 else 0) =
      bytes.length := by
  fun_induction units bigEndian bytes with
  | case1 => rfl
  | case2 => rfl
  | case3 a b rest later odd shown unit ih =>
      rw [shown] at ih
      simp only [List.length_cons] at ih ⊢
      omega

theorem length_ofUnitsLossy_le (odd : Bool) (units : List Nat) :
    (ofUnitsLossy odd units).length ≤ units.length + if odd then 1 else 0 := by
  fun_induction ofUnitsLossy odd units with
  | case1 isOdd => simp [isOdd]
  | case2 => simp
  | case3 unit high low after isLow ih =>
      simp only [List.length_cons]
      omega
  | case4 unit high low after notLow ih =>
      simp only [List.length_cons] at ih ⊢
      omega
  | case5 => simp
  | case6 unit rest notHigh isLow ih =>
      simp only [List.length_cons]
      omega
  | case7 unit rest notHigh notLow ih =>
      simp only [List.length_cons]
      omega

theorem length_decodeLossy_le (bigEndian : Bool) (bytes : Bytes) :
    (decodeLossy bigEndian bytes).length ≤ bytes.length := by
  have size := length_units bigEndian bytes
  have bound := length_ofUnitsLossy_le (units bigEndian bytes).2 (units bigEndian bytes).1
  simp only [decodeLossy]
  omega

end Utf16

namespace Charset

/-- The table gives a character for every byte above ASCII. -/
def isComplete (table : List Nat) : Bool :=
  table.length == 0x80 && table.all (· != 0)

theorem complete_windows1252Table : isComplete windows1252Table = true := by
  decide +kernel

theorem exists_singleByteChar? {table : List Nat} (complete : isComplete table = true)
    (byte : UInt8) : ∃ c, singleByteChar? table byte = some c := by
  obtain ⟨size, nonzero⟩ : table.length = 0x80 ∧ table.all (· != 0) = true := by
    simpa [isComplete] using complete
  rw [singleByteChar?]
  split
  · exact ⟨_, rfl⟩
  · have bound := byte.toNat_lt
    have below : byte.toNat - 0x80 < table.length := by omega
    rw [List.getElem?_eq_getElem below]
    split
    · next missing => exact absurd missing (Option.some_ne_none _)
    · next zero =>
      have inside := List.all_eq_true.mp nonzero _ (List.getElem_mem below)
      rw [Option.some.inj zero] at inside
      exact absurd inside (by decide)
    · exact ⟨_, rfl⟩

end Charset

namespace Header

variable {bytes : Bytes} {text : Text}

/-- Every byte has a character in windows-1252. -/
theorem singleByteChar?_windows1252 (byte : UInt8) :
    Charset.singleByteChar? Charset.windows1252Table byte = some (windows1252Char byte) := by
  obtain ⟨c, found⟩ := Charset.exists_singleByteChar? Charset.complete_windows1252Table byte
  simp only [windows1252Char, found, Option.getD_some]

/-- One mark of UTF-8 in front is no part of a header. -/
def withoutMark (bytes : Bytes) : Bytes :=
  if utf8Mark <+: bytes then bytes.drop utf8Mark.length else bytes

theorem rawText_eq (bytes : Bytes) :
    rawText bytes =
      (Utf8.decode? (withoutMark bytes)).getD (fallbackText (withoutMark bytes)) := by
  have same : (utf8Mark.isPrefixOf? bytes).getD bytes = withoutMark bytes := by
    rw [withoutMark]
    split
    · next opens =>
      obtain ⟨rest, rfl⟩ := opens
      rw [List.isPrefixOf?_eq_some_iff_append_eq.mpr rfl, List.drop_left]
      rfl
    · next plain =>
      cases found : utf8Mark.isPrefixOf? bytes with
      | none => rfl
      | some rest =>
          have whole := List.isPrefixOf?_eq_some_iff_append_eq.mp found
          exact absurd ⟨rest, whole⟩ plain
  rw [rawText, same]

/-- The bytes encode some text in UTF-8. -/
def IsUtf8 (bytes : Bytes) : Prop :=
  ∃ text : Text, text.utf8 = bytes

/-- The bytes open with the mark of a charset: UTF-16 in either byte order, or UTF-8. -/
def OpensWithMark (bytes : Bytes) : Prop :=
  [0xFF, 0xFE] <+: bytes ∨ [0xFE, 0xFF] <+: bytes ∨ utf8Mark <+: bytes

/-- How the bytes are to be read: as the text that they encode if they encode one, and byte by
byte otherwise, each as the character that the table gives it. -/
structure ReadsAs (bytes : Bytes) (text : Text) : Prop where
  encoded : ∀ said : Text, said.utf8 = bytes → text = said
  otherwise : ¬ IsUtf8 bytes → List.Forall₂
    (fun byte c => Charset.singleByteChar? Charset.windows1252Table byte = some c) bytes text

theorem fallbackText_of_plain (plain : ¬ OpensWithMark bytes) :
    fallbackText bytes = bytes.map windows1252Char := by
  unfold fallbackText
  split
  · next rest => exact absurd (.inl ⟨rest, rfl⟩) plain
  · next rest => exact absurd (.inr (.inl ⟨rest, rfl⟩)) plain
  · next rest => exact absurd (.inr (.inr ⟨rest, rfl⟩)) plain
  · rfl

/-- Behind a mark two bytes make one character at best, and the mark itself makes none. -/
theorem length_fallbackText_lt (marked : OpensWithMark bytes) :
    (fallbackText bytes).length < bytes.length := by
  rcases marked with ⟨rest, rfl⟩ | ⟨rest, rfl⟩ | ⟨rest, rfl⟩
  · have bound := Utf16.length_decodeLossy_le false rest
    exact Nat.lt_succ_of_lt (Nat.lt_succ_of_le bound)
  · have bound := Utf16.length_decodeLossy_le true rest
    exact Nat.lt_succ_of_lt (Nat.lt_succ_of_le bound)
  · have bound := Utf8.length_decodeLossy_le rest
    exact Nat.lt_succ_of_lt (Nat.lt_succ_of_lt (Nat.lt_succ_of_le bound))

theorem forall₂_windows1252 (bytes : Bytes) : List.Forall₂
    (fun byte c => Charset.singleByteChar? Charset.windows1252Table byte = some c)
    bytes (bytes.map windows1252Char) := by
  rw [List.forall₂_map_right_iff, List.forall₂_same]
  exact fun byte _ => singleByteChar?_windows1252 byte

theorem decode?_eq_none (other : ¬ IsUtf8 bytes) : Utf8.decode? bytes = none := by
  cases found : Utf8.decode? bytes with
  | none => rfl
  | some text => exact absurd ⟨text, Utf8.decode?_eq_some_iff.mp found⟩ other

/-- The bytes of a header, but for a mark of UTF-8 in front, read as they are to be read, unless
they are not UTF-8 and the mark of a charset opens them. -/
theorem readsAs_rawText_iff (bytes : Bytes) :
    ReadsAs (withoutMark bytes) (rawText bytes) ↔
      IsUtf8 (withoutMark bytes) ∨ ¬ OpensWithMark (withoutMark bytes) := by
  rw [rawText_eq]
  generalize withoutMark bytes = bytes
  by_cases isUtf8 : IsUtf8 bytes
  · refine ⟨fun _ => .inl isUtf8, fun _ => ⟨fun said same => ?_, fun other => absurd isUtf8 other⟩⟩
    rw [Utf8.decode?_eq_some_iff.mpr same]
    rfl
  · have unsaid (said : Text) : said.utf8 ≠ bytes := fun same => isUtf8 ⟨said, same⟩
    rw [decode?_eq_none isUtf8, Option.getD_none]
    constructor
    · intro reads
      refine .inr fun marked => ?_
      have short := length_fallbackText_lt marked
      rw [(reads.otherwise isUtf8).length_eq] at short
      exact Nat.lt_irrefl _ short
    · intro either
      rw [fallbackText_of_plain (either.resolve_left isUtf8)]
      exact ⟨fun said same => absurd same (unsaid said), fun _ => forall₂_windows1252 bytes⟩

/-- The mark of UTF-16 in front of one letter. -/
def marked : Bytes :=
  [0xFF, 0xFE, 0x61, 0x00]

/-- Four bytes that are not UTF-8 read as one character, and not as the four of the table. -/
theorem rawText_obeys_mark :
    rawText marked = "a".toList ∧ marked.map windows1252Char = "ÿþa\x00".toList ∧
      ¬ ReadsAs (withoutMark marked) (rawText marked) := by
  have read : rawText marked = "a".toList := by decide +kernel
  have table : marked.map windows1252Char = "ÿþa\x00".toList := by decide +kernel
  have unmarked : withoutMark marked = marked := by decide
  have malformed : ¬ IsUtf8 marked := by
    rintro ⟨said, same⟩
    have decodes := Utf8.decode?_eq_some_iff.mpr same
    have fails : Utf8.decode? marked = none := by decide
    rw [fails] at decodes
    contradiction
  refine ⟨read, table, fun reads => ?_⟩
  rw [unmarked, read] at reads
  have sizes := (reads.otherwise malformed).length_eq
  contradiction

end Header

end LenientMime
