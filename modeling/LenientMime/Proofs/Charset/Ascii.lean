import LenientMime.Codec.Standard
import LenientMime.Proofs.Text.Utf8
import Mathlib

namespace LenientMime

/-- The character is beyond ASCII, or it is the null. -/
def Foreign (c : Char) : Prop :=
  c.toNat = 0 ∨ 0x80 ≤ c.toNat

theorem foreign_ofNat {value : Nat} (beyond : 0x80 ≤ value) : Foreign (Char.ofNat value) := by
  rw [Foreign, Char.ofNat]
  split
  · exact .inr beyond
  · exact .inl rfl

theorem foreign_or_eq (value : Nat) :
    Foreign (Char.ofNat value) ∨ value < 0x80 ∧ (Char.ofNat value).toNat = value := by
  by_cases beyond : 0x80 ≤ value
  · exact .inl (foreign_ofNat beyond)
  · exact .inr ⟨by omega, Utf8.toNat_ofNat (by omega)⟩

/-- No byte is a line break. -/
def OneLine (bytes : Bytes) : Prop :=
  ∀ byte ∈ bytes, byte ≠ Byte.carriageReturn ∧ byte ≠ Byte.lineFeed

/-- No charset makes a line break of bytes in which there is none. -/
def Codec.KeepsLines (codec : Codec) : Prop :=
  ∀ charset bytes text, codec.decode? charset bytes = some text → OneLine bytes →
    ∀ c ∈ text, c ≠ '\r' ∧ c ≠ '\n'

/-- Every character of the text is foreign or stands among the bytes. -/
def Grounded (bytes : Bytes) (text : Text) : Prop :=
  ∀ c ∈ text, Foreign c ∨ UInt8.ofNat c.toNat ∈ bytes

namespace Grounded

variable {front rest bytes : Bytes} {text : Text} {c : Char}

theorem nil : Grounded bytes [] :=
  fun _ member => nomatch member

theorem mono (grounded : Grounded rest text) (within : rest ⊆ bytes) : Grounded bytes text :=
  fun c member => (grounded c member).imp_right (within ·)

/-- A character that some bytes stand for, and what the bytes behind them stand for. -/
theorem cons (here : Foreign c ∨ UInt8.ofNat c.toNat ∈ front) (later : Grounded rest text) :
    Grounded (front ++ rest) (c :: text) := by
  refine List.forall_mem_cons.mpr ⟨here.imp_right (List.mem_append_left rest), ?_⟩
  exact later.mono (List.subset_append_right front rest)

theorem cons_map (here : Foreign c ∨ UInt8.ofNat c.toNat ∈ front) {later : Option Text}
    (found : later.map (c :: ·) = some text)
    (behind : ∀ tail, later = some tail → Grounded rest tail) : Grounded (front ++ rest) text := by
  obtain ⟨tail, same, rfl⟩ := Option.map_eq_some_iff.mp found
  exact cons here (behind tail same)

/-- No line break is made of bytes that hold none. -/
theorem noBreak (grounded : Grounded bytes text) (oneLine : OneLine bytes) :
    ∀ c ∈ text, c ≠ '\r' ∧ c ≠ '\n' := by
  intro c member
  constructor
  · rintro rfl
    rcases grounded _ member with foreign | inside
    · exact absurd foreign (by simp [Foreign])
    · exact (oneLine _ inside).1 (by decide)
  · rintro rfl
    rcases grounded _ member with foreign | inside
    · exact absurd foreign (by simp [Foreign])
    · exact (oneLine _ inside).2 (by decide)

end Grounded

namespace Utf8

/-- What the bytes of a character have given is more than ASCII can hold, whatever comes next. -/
def Pending.Deep (pending : Pending) : Prop :=
  (pending.missing ≤ 1 → 2 ≤ pending.value) ∧
    ∀ byte : UInt8, pending.low ≤ byte → byte ≤ pending.high →
      2 ≤ pending.value * 64 + byte.toNat % 64

theorem lead_char {byte : UInt8} {c : Char} (read : lead byte = .char c) :
    UInt8.ofNat c.toNat = byte := by
  simp only [lead] at read
  split at read
  · next ascii =>
    have small : byte.toNat < 0x80 := UInt8.lt_iff_toNat_lt.mp ascii
    rw [← Step.char.inj read, toNat_ofNat (by omega), UInt8.ofNat_toNat]
  · repeat' split at read
    all_goals contradiction

/-- Where the bits so far are no more than ASCII can hold, the next byte may not be a low one. -/
theorem Pending.deep_of_several {pending : Pending} (several : 1 < pending.missing)
    (high : pending.value = 0 → 0x90 ≤ pending.low ∧ pending.high ≤ 0xBF) : pending.Deep := by
  refine ⟨fun few => absurd few (by omega), fun byte lower upper => ?_⟩
  by_cases nothing : pending.value = 0
  · obtain ⟨least, most⟩ := high nothing
    have above := UInt8.le_iff_toNat_le.mp (UInt8.le_trans least lower)
    have below := UInt8.le_iff_toNat_le.mp (UInt8.le_trans upper most)
    simp only [UInt8.reduceToNat] at above below
    omega
  · omega

theorem deep_of_lead {byte : UInt8} {pending : Pending} (read : lead byte = .more pending) :
    pending.Deep := by
  have bound := byte.toNat_lt
  simp only [lead, UInt8.lt_iff_toNat_lt, UInt8.reduceToNat] at read
  split at read
  · contradiction
  · split at read
    · contradiction
    · split at read
      · obtain rfl := Step.more.inj read
        constructor
        · intro _
          simp only
          omega
        · intro next _ _
          simp only
          omega
      · split at read
        · obtain rfl := Step.more.inj read
          refine Pending.deep_of_several (by simp) fun nothing => ?_
          have least : byte.toNat = 0xE0 := by
            simp only at nothing
            omega
          obtain rfl : byte = 0xE0 := UInt8.toNat_inj.mp least
          decide
        · split at read
          · obtain rfl := Step.more.inj read
            refine Pending.deep_of_several (by simp) fun nothing => ?_
            have least : byte.toNat = 0xF0 := by
              simp only at nothing
              omega
            obtain rfl : byte = 0xF0 := UInt8.toNat_inj.mp least
            decide
          · contradiction

namespace Pending.Deep

variable {pending : Pending} {byte : UInt8}

/-- A deep character needs no more bits to lie beyond ASCII. -/
theorem foreign {c : Char} (deep : pending.Deep) (read : pending.next byte = .char c) :
    Foreign c := by
  simp only [next] at read
  split at read
  · split at read
    · next last =>
      obtain rfl := Step.char.inj read
      have value := deep.1 last
      exact foreign_ofNat (by omega)
    · contradiction
  · contradiction

theorem next {after : Pending} (deep : pending.Deep) (read : pending.next byte = .more after) :
    after.Deep := by
  simp only [Pending.next] at read
  split at read
  · next within =>
    obtain ⟨low, high⟩ : pending.low ≤ byte ∧ byte ≤ pending.high := by simpa using within
    split at read
    · contradiction
    · obtain rfl := Step.more.inj read
      have value := deep.2 byte low high
      exact ⟨fun _ => value, fun _ _ _ => by simp only; omega⟩
  · contradiction

end Pending.Deep

variable {state : Option Pending} {byte : UInt8} {bytes : Bytes} {text : Text} {c : Char}

theorem grounded_of_step (deep : ∀ pending ∈ state, pending.Deep) (read : step state byte = .char c) :
    Foreign c ∨ UInt8.ofNat c.toNat ∈ [byte] := by
  cases state with
  | none => exact .inr (List.mem_singleton.mpr (lead_char read))
  | some pending => exact .inl ((deep pending rfl).foreign read)

theorem deep_of_step {after : Pending} (deep : ∀ pending ∈ state, pending.Deep)
    (read : step state byte = .more after) : ∀ pending ∈ some after, pending.Deep := by
  rintro pending ⟨⟩
  cases state with
  | none => exact deep_of_lead read
  | some before => exact (deep before rfl).next read

theorem grounded_of_decodeFrom? (deep : ∀ pending ∈ state, pending.Deep)
    (decodes : decodeFrom? state bytes = some text) : Grounded bytes text := by
  fun_induction decodeFrom? state bytes generalizing text with
  | case1 =>
      rw [← Option.some.inj decodes]
      exact .nil
  | case2 => contradiction
  | case3 state byte rest c read ih =>
      exact .cons_map (grounded_of_step deep read) decodes fun tail found =>
        ih (by simp) found
  | case4 state byte rest after read ih =>
      exact (ih (deep_of_step deep read) decodes).mono (List.subset_cons_self byte rest)
  | case5 => contradiction

theorem grounded_of_decode? (decodes : decode? bytes = some text) : Grounded bytes text :=
  grounded_of_decodeFrom? (by simp) decodes

theorem grounded_replacement (grounded : Grounded bytes text) :
    Grounded bytes (replacementChar :: text) :=
  List.forall_mem_cons.mpr ⟨.inl (.inr (by decide)), grounded⟩

theorem grounded_decodeLossyFrom (deep : ∀ pending ∈ state, pending.Deep) :
    Grounded bytes (decodeLossyFrom state bytes) := by
  induction bytes generalizing state with
  | nil =>
      cases state with
      | none => exact .nil
      | some pending => exact grounded_replacement .nil
  | cons byte rest ih =>
      have later : Grounded rest (decodeLossyFrom none rest) := ih (by simp)
      have fresh : Grounded (byte :: rest) (decodeLossyFrom none (byte :: rest)) := by
        cases read : lead byte with
        | char c =>
            simp only [decodeLossyFrom, read]
            exact .cons (.inr (List.mem_singleton.mpr (lead_char read))) later
        | more pending =>
            simp only [decodeLossyFrom, read]
            exact (ih (by simpa using deep_of_lead read)).mono (List.subset_cons_self byte rest)
        | malformed =>
            simp only [decodeLossyFrom, read]
            exact grounded_replacement (later.mono (List.subset_cons_self byte rest))
      cases state with
      | none => exact fresh
      | some pending =>
          have isDeep := deep pending rfl
          cases read : pending.next byte with
          | char c =>
              have whole : Grounded ([byte] ++ rest) (c :: decodeLossyFrom none rest) :=
                .cons (.inl (isDeep.foreign read)) later
              simp only [decodeLossyFrom, read]
              exact whole
          | more after =>
              simp only [decodeLossyFrom, read]
              exact (ih (by simpa using isDeep.next read)).mono (List.subset_cons_self byte rest)
          | malformed =>
              -- The byte is read again, as if nothing had been read before it.
              have again : decodeLossyFrom (some pending) (byte :: rest) =
                  replacementChar :: decodeLossyFrom none (byte :: rest) := by
                simp only [decodeLossyFrom, read]
              rw [again]
              exact grounded_replacement fresh

theorem grounded_decodeLossy (bytes : Bytes) : Grounded bytes (decodeLossy bytes) :=
  grounded_decodeLossyFrom (by simp)

end Utf8

namespace Utf16

/-- A unit that is ASCII is its lower byte. -/
theorem mem_of_mem_units {bigEndian : Bool} {bytes : Bytes} {unit : Nat}
    (member : unit ∈ (units bigEndian bytes).1) (ascii : unit < 0x80) : UInt8.ofNat unit ∈ bytes := by
  fun_induction units bigEndian bytes with
  | case1 => contradiction
  | case2 => contradiction
  | case3 a b rest later odd found first ih =>
      rw [found] at ih
      rcases List.mem_cons.mp member with here | behind
      · have joined : unit = if bigEndian then a.toNat * 256 + b.toNat else b.toNat * 256 + a.toNat :=
          here
        cases bigEndian with
        | true =>
            rw [if_pos rfl] at joined
            have same : unit = b.toNat := by omega
            rw [same, UInt8.ofNat_toNat]
            exact List.mem_cons_of_mem _ List.mem_cons_self
        | false =>
            rw [if_neg (by decide)] at joined
            have same : unit = a.toNat := by omega
            rw [same, UInt8.ofNat_toNat]
            exact List.mem_cons_self
      · exact List.mem_cons_of_mem _ (List.mem_cons_of_mem _ (ih behind))

theorem grounded_of_ofUnits? {units : List Nat} {bytes : Bytes} {text : Text}
    (among : ∀ unit ∈ units, unit < 0x80 → UInt8.ofNat unit ∈ bytes)
    (decodes : ofUnits? units = some text) : Grounded bytes text := by
  fun_induction ofUnits? units generalizing text with
  | case1 =>
      rw [← Option.some.inj decodes]
      exact .nil
  | case2 unit high low rest isLow ih =>
      obtain ⟨tail, found, rfl⟩ := Option.map_eq_some_iff.mp decodes
      have later := (List.forall_mem_cons.mp (List.forall_mem_cons.mp among).2).2
      exact List.forall_mem_cons.mpr ⟨.inl (foreign_ofNat (by omega)), ih later found⟩
  | case3 => contradiction
  | case4 => contradiction
  | case5 => contradiction
  | case6 unit rest noHigh noLow ih =>
      obtain ⟨tail, found, rfl⟩ := Option.map_eq_some_iff.mp decodes
      obtain ⟨here, later⟩ := List.forall_mem_cons.mp among
      refine List.forall_mem_cons.mpr ⟨?_, ih later found⟩
      rcases foreign_or_eq unit with foreign | ⟨ascii, same⟩
      · exact .inl foreign
      · exact .inr (by rw [same]; exact here ascii)

theorem grounded_of_decode? {bigEndian : Bool} {bytes : Bytes} {text : Text}
    (decodes : decode? bigEndian bytes = some text) : Grounded bytes text := by
  rw [decode?] at decodes
  split at decodes
  · next found =>
    refine grounded_of_ofUnits? (fun unit member ascii => ?_) decodes
    exact mem_of_mem_units (by rwa [found]) ascii
  · contradiction

end Utf16

namespace Charset

variable {bytes : Bytes} {text : Text} {byte lead trail : UInt8} {c : Char}

theorem ofNat_of_ascii? (read : ascii? byte = some c) : UInt8.ofNat c.toNat = byte := by
  rw [ascii?] at read
  split at read
  · next ascii =>
    have small : byte.toNat < 0x80 := UInt8.lt_iff_toNat_lt.mp ascii
    rw [← Option.some.inj read, Utf8.toNat_ofNat (by omega), UInt8.ofNat_toNat]
  · contradiction

section Tables

variable {table : List Nat}

/-- A table gives nothing that ASCII could hold. -/
def isUpper (table : List Nat) : Bool :=
  table.all fun n => n == 0 || 0x80 ≤ n

theorem grounded_of_singleByteChar? (upper : isUpper table = true)
    (read : singleByteChar? table byte = some c) : Foreign c ∨ UInt8.ofNat c.toNat ∈ [byte] := by
  rw [singleByteChar?] at read
  split at read
  · next ascii =>
    have small : byte.toNat < 0x80 := UInt8.lt_iff_toNat_lt.mp ascii
    rw [← Option.some.inj read, Utf8.toNat_ofNat (by omega), UInt8.ofNat_toNat]
    exact .inr List.mem_cons_self
  · split at read
    · contradiction
    · contradiction
    · next n positive found =>
      rw [← Option.some.inj read]
      have either := List.all_eq_true.mp upper n (List.mem_of_getElem? found)
      have beyond : 0x80 ≤ n := by
        simp only [Bool.or_eq_true, beq_iff_eq, decide_eq_true_eq] at either
        exact either.resolve_left positive
      exact .inl (foreign_ofNat beyond)

theorem grounded_of_decodeSingleByte? (upper : isUpper table = true)
    (decodes : decodeSingleByte? table bytes = some text) : Grounded bytes text := by
  rw [decodeSingleByte?] at decodes
  induction bytes generalizing text with
  | nil =>
      rw [← Option.some.inj decodes]
      exact .nil
  | cons byte rest ih =>
      rw [List.mapM_cons] at decodes
      obtain ⟨c, read, later⟩ := Option.bind_eq_some_iff.mp decodes
      obtain ⟨tail, found, same⟩ := Option.bind_eq_some_iff.mp later
      rw [← Option.some.inj same]
      exact .cons (grounded_of_singleByteChar? upper read) (ih found)

end Tables

section Repertoires

theorem foreign_of_syllabary? {first cells cell : Nat} (beyond : 0x80 ≤ first)
    (read : syllabary? first cells cell = some c) : Foreign c := by
  rw [syllabary?] at read
  split at read
  · next within =>
    have low : 1 ≤ cell := by simp at within; omega
    rw [← Option.some.inj read]
    exact foreign_ofNat (by omega)
  · contradiction

theorem foreign_of_hiragana? {cell : Nat} (read : hiragana? cell = some c) : Foreign c :=
  foreign_of_syllabary? (by decide) read

theorem foreign_of_katakana? {cell : Nat} (read : katakana? cell = some c) : Foreign c :=
  foreign_of_syllabary? (by decide) read

theorem foreign_of_halfwidthKatakana? {place : Nat} (read : halfwidthKatakana? place = some c) :
    Foreign c :=
  foreign_of_syllabary? (by decide) read

theorem foreign_of_japanese? {row cell : Nat} (read : japanese? row cell = some c) : Foreign c := by
  unfold japanese? at read
  split at read
  · exact foreign_of_hiragana? read
  · exact foreign_of_katakana? read
  · contradiction

theorem foreign_of_single {d : Char} (beyond : 0x80 ≤ d.toNat) (read : some d = some c) :
    Foreign c :=
  Option.some.inj read ▸ .inr beyond

theorem foreign_of_simplifiedChinese? {row cell : Nat}
    (read : simplifiedChinese? row cell = some c) : Foreign c := by
  unfold simplifiedChinese? at read
  split at read
  · exact foreign_of_hiragana? read
  · exact foreign_of_katakana? read
  · exact foreign_of_single (by decide) read
  · exact foreign_of_single (by decide) read
  · contradiction

theorem foreign_of_korean? {row cell : Nat} (read : korean? row cell = some c) : Foreign c := by
  unfold korean? at read
  split at read
  · exact foreign_of_hiragana? read
  · exact foreign_of_katakana? read
  · exact foreign_of_single (by decide) read
  · exact foreign_of_single (by decide) read
  · exact foreign_of_single (by decide) read
  · contradiction

theorem foreign_of_traditionalChinese? (read : traditionalChinese? lead trail = some c) :
    Foreign c := by
  unfold traditionalChinese? at read
  split at read
  · exact foreign_of_single (by decide) read
  · exact foreign_of_single (by decide) read
  · contradiction

theorem foreign_of_upperPair? {set : Nat → Nat → Option Char}
    (each : ∀ row cell c, set row cell = some c → Foreign c)
    (read : upperPair? set lead trail = some c) : Foreign c := by
  rw [upperPair?] at read
  split at read
  · exact each _ _ c read
  · contradiction

theorem foreign_of_eucJpPair? (read : eucJpPair? lead trail = some c) : Foreign c := by
  rw [eucJpPair?] at read
  split at read
  · exact foreign_of_halfwidthKatakana? read
  · exact foreign_of_upperPair? (fun _ _ _ => foreign_of_japanese?) read

theorem foreign_of_shiftJisPair? (read : shiftJisPair? lead trail = some c) : Foreign c := by
  simp only [shiftJisPair?] at read
  generalize (lead.toNat - if lead < 0xA0 then 0x81 else 0xC1) * 188 +
    (trail.toNat - if trail < 0x7F then 0x40 else 0x41) = place at read
  split at read
  · split at read
    · rw [← Option.some.inj read]
      exact foreign_ofNat (by omega)
    · exact foreign_of_japanese? read
  · contradiction

theorem grounded_of_shiftJisSingle? (read : shiftJisSingle? byte = some c) :
    Foreign c ∨ UInt8.ofNat c.toNat ∈ [byte] := by
  rw [shiftJisSingle?] at read
  split at read
  · rcases foreign_or_eq byte.toNat with foreign | ⟨-, same⟩
    · exact .inl (Option.some.inj read ▸ foreign)
    · rw [← Option.some.inj read, same, UInt8.ofNat_toNat]
      exact .inr List.mem_cons_self
  · split at read
    · exact .inl (foreign_of_halfwidthKatakana? read)
    · contradiction

theorem foreign_of_gb18030Linear? {place : Nat} (read : gb18030Linear? place = some c) :
    Foreign c := by
  rw [gb18030Linear?] at read
  split at read
  · rw [← Option.some.inj read]
    exact foreign_ofNat (by omega)
  · split at read
    · rw [← Option.some.inj read]
      exact foreign_ofNat (by omega)
    · contradiction

theorem foreign_of_gb18030Sequence? {a b c d : UInt8} {found : Char}
    (read : gb18030Sequence? a b c d = some found) : Foreign found := by
  rw [gb18030Sequence?] at read
  split at read
  · exact foreign_of_gb18030Linear? read
  · contradiction

theorem grounded_of_ascii? (read : ascii? byte = some c) :
    Foreign c ∨ UInt8.ofNat c.toNat ∈ [byte] :=
  .inr (List.mem_singleton.mpr (ofNat_of_ascii? read))

theorem grounded_of_gb18030Single? (read : gb18030Single? byte = some c) :
    Foreign c ∨ UInt8.ofNat c.toNat ∈ [byte] := by
  rw [gb18030Single?] at read
  split at read
  · exact .inl (foreign_of_single (by decide) read)
  · exact grounded_of_ascii? read

end Repertoires

/-- A charset of single bytes and pairs is grounded if its single bytes are. -/
theorem grounded_of_decodePairs? {single : UInt8 → Option Char} {pair : UInt8 → UInt8 → Option Char}
    (singles : ∀ byte c, single byte = some c → Foreign c ∨ UInt8.ofNat c.toNat ∈ [byte])
    (pairs : ∀ lead trail c, pair lead trail = some c → Foreign c)
    (decodes : decodePairs? single pair bytes = some text) : Grounded bytes text := by
  fun_induction decodePairs? single pair bytes generalizing text with
  | case1 =>
      rw [← Option.some.inj decodes]
      exact .nil
  | case2 byte rest c read ih =>
      exact .cons_map (singles byte c read) decodes fun tail found => ih found
  | case3 => contradiction
  | case4 byte alone trail rest c read ih =>
      have here : Foreign c ∨ UInt8.ofNat c.toNat ∈ [byte, trail] := .inl (pairs byte trail c read)
      exact .cons_map here decodes fun tail found => ih found
  | case5 => contradiction

theorem grounded_of_decodeGb18030? (decodes : decodeGb18030? bytes = some text) :
    Grounded bytes text := by
  fun_induction decodeGb18030? bytes generalizing text with
  | case1 =>
      rw [← Option.some.inj decodes]
      exact .nil
  | case2 byte rest c read ih =>
      exact .cons_map (grounded_of_gb18030Single? read) decodes fun tail found => ih found
  | case3 => contradiction
  | case4 a alone b digit c d rest found read ih =>
      have here : Foreign found ∨ UInt8.ofNat found.toNat ∈ [a, b, c, d] :=
        .inl (foreign_of_gb18030Sequence? read)
      exact .cons_map here decodes fun tail found => ih found
  | case5 => contradiction
  | case6 => contradiction
  | case7 a alone b rest noDigit c read ih =>
      have here : Foreign c ∨ UInt8.ofNat c.toNat ∈ [a, b] :=
        .inl (foreign_of_upperPair? (fun _ _ _ => foreign_of_simplifiedChinese?) read)
      exact .cons_map here decodes fun tail found => ih found
  | case8 => contradiction

theorem grounded_of_single? {set : JapaneseSet} (read : set.single? byte = some c) :
    Foreign c ∨ UInt8.ofNat c.toNat ∈ [byte] := by
  cases set with
  | ascii =>
      simp only [JapaneseSet.single?] at read
      split at read
      · contradiction
      · exact grounded_of_ascii? read
  | roman =>
      simp only [JapaneseSet.single?] at read
      split at read
      · contradiction
      · split at read
        · exact .inl (foreign_of_single (by decide) read)
        · split at read
          · exact .inl (foreign_of_single (by decide) read)
          · exact grounded_of_ascii? read
  | katakana =>
      simp only [JapaneseSet.single?] at read
      split at read
      · exact .inl (foreign_of_halfwidthKatakana? read)
      · contradiction
  | double => contradiction

theorem foreign_of_pair? (read : JapaneseSet.pair? lead trail = some c) : Foreign c := by
  rw [JapaneseSet.pair?] at read
  split at read
  · exact foreign_of_japanese? read
  · contradiction

theorem grounded_of_decodeIso2022JpFrom? {set : JapaneseSet} {escaped : Bool}
    (decodes : decodeIso2022JpFrom? set escaped bytes = some text) : Grounded bytes text := by
  fun_induction decodeIso2022JpFrom? set escaped bytes generalizing text with
  | case1 =>
      rw [← Option.some.inj decodes]
      exact .nil
  | case2 => contradiction
  | case3 set escaped first second rest next known free ih =>
      exact (ih decodes).mono fun byte member => by simp [member]
  | case4 => contradiction
  | case5 => contradiction
  | case6 escaped byte trail rest c read _ ih =>
      have here : Foreign c ∨ UInt8.ofNat c.toNat ∈ [byte, trail] := .inl (foreign_of_pair? read)
      exact .cons_map here decodes fun tail found => ih found
  | case7 => contradiction
  | case8 set escaped byte rest _ narrow c read ih =>
      exact .cons_map (grounded_of_single? read) decodes fun tail found => ih found
  | case9 => contradiction

/-- Whatever the charset is, a character of ASCII in the text is one of the bytes. -/
theorem grounded_of_decode? {known : Repertoire} (decodes : known.decode? bytes = some text) :
    Grounded bytes text := by
  have ascii : ∀ byte c, ascii? byte = some c → Foreign c ∨ UInt8.ofNat c.toNat ∈ [byte] :=
    fun _ _ => grounded_of_ascii?
  cases known with
  | utf8 => exact Utf8.grounded_of_decode? decodes
  | utf16be => exact Utf16.grounded_of_decode? decodes
  | utf16le => exact Utf16.grounded_of_decode? decodes
  | windows1251 => exact grounded_of_decodeSingleByte? (by decide +kernel) decodes
  | windows1252 => exact grounded_of_decodeSingleByte? (by decide +kernel) decodes
  | iso88592 => exact grounded_of_decodeSingleByte? (by decide +kernel) decodes
  | iso88597 => exact grounded_of_decodeSingleByte? (by decide +kernel) decodes
  | iso885915 => exact grounded_of_decodeSingleByte? (by decide +kernel) decodes
  | koi8r => exact grounded_of_decodeSingleByte? (by decide +kernel) decodes
  | macintosh => exact grounded_of_decodeSingleByte? (by decide +kernel) decodes
  | userDefined => exact grounded_of_decodeSingleByte? (by decide +kernel) decodes
  | big5 =>
      exact grounded_of_decodePairs? ascii (fun _ _ _ => foreign_of_traditionalChinese?) decodes
  | eucJp => exact grounded_of_decodePairs? ascii (fun _ _ _ => foreign_of_eucJpPair?) decodes
  | eucKr =>
      refine grounded_of_decodePairs? ascii (fun _ _ _ => ?_) decodes
      exact foreign_of_upperPair? fun _ _ _ => foreign_of_korean?
  | gbk => exact grounded_of_decodeGb18030? decodes
  | gb18030 => exact grounded_of_decodeGb18030? decodes
  | iso2022Jp => exact grounded_of_decodeIso2022JpFrom? decodes
  | shiftJis =>
      refine grounded_of_decodePairs? (fun _ _ => ?_) (fun _ _ _ => foreign_of_shiftJisPair?) decodes
      exact grounded_of_shiftJisSingle?
  | replacement =>
      simp only [Repertoire.decode?] at decodes
      split at decodes
      · rw [← Option.some.inj decodes]
        exact .nil
      · contradiction

end Charset

theorem Codec.standard_keepsLines : Codec.standard.KeepsLines := by
  intro charset bytes text decodes oneLine
  obtain ⟨known, -, decodes⟩ := Option.bind_eq_some_iff.mp decodes
  exact (Charset.grounded_of_decode? decodes).noBreak oneLine

end LenientMime
