import Mathlib
import LenientMime.Proofs.Text.Utf8

namespace LenientMime.Utf8

/-- The bytes with the last bits of a code point, six bits each. -/
def laterBytes : Nat → Nat → Bytes
  | 0, _ => []
  | count + 1, n => UInt8.ofNat (0x80 + n / 64 ^ count % 64) :: laterBytes count n

namespace Pending

/-- The code point begins with the bits that were read, and its next six may follow. -/
structure Continues (pending : Pending) (n : Nat) : Prop where
  bits : n / 64 ^ pending.missing = pending.value
  lower : pending.low.toNat ≤ 0x80 + n / 64 ^ (pending.missing - 1) % 64
  upper : 0x80 + n / 64 ^ (pending.missing - 1) % 64 ≤ pending.high.toNat

/-- The bytes read so far begin the encoding of a character, whatever bits go on from them. -/
structure Begun (pending : Pending) (front : Bytes) : Prop where
  unfinished : 0 < pending.missing
  low : 0x80 ≤ pending.low.toNat
  high : pending.high.toNat ≤ 0xBF
  completes : ∀ n, pending.Continues n →
    ∃ c : Char, c.toNat = n ∧ encodeChar c = front ++ laterBytes pending.missing n

namespace Begun

variable {pending later : Pending} {front : Bytes} {byte : UInt8} {c : Char}

/-- The next byte carries six bits, and encoding gives it where the code point has them. -/
theorem goesOn (begun : pending.Begun front) (lower : pending.low.toNat ≤ byte.toNat)
    (upper : byte.toNat ≤ pending.high.toNat) {n : Nat}
    (bits : n / 64 ^ (pending.missing - 1) = pending.value * 64 + byte.toNat % 64) :
    ∃ c : Char, c.toNat = n ∧
      encodeChar c = front ++ byte :: laterBytes (pending.missing - 1) n := by
  have lowest := begun.low
  have highest := begun.high
  have whole : 0x80 + byte.toNat % 64 = byte.toNat := by omega
  have six : n / 64 ^ (pending.missing - 1) % 64 = byte.toNat % 64 := by omega
  obtain ⟨count, shown⟩ := Nat.exists_eq_add_one.mpr begun.unfinished
  have earlier : n / 64 ^ pending.missing = pending.value := by
    rw [shown, Nat.add_sub_cancel] at bits
    rw [shown, Nat.pow_succ, ← Nat.div_div_eq_div_mul, bits]
    omega
  obtain ⟨c, same, encoded⟩ :=
    begun.completes n ⟨earlier, by rwa [six, whole], by rwa [six, whole]⟩
  refine ⟨c, same, ?_⟩
  rw [shown, Nat.add_sub_cancel] at six ⊢
  rw [encoded, shown, laterBytes, six, whole, UInt8.ofNat_toNat]

theorem char (begun : pending.Begun front) (read : pending.next byte = .char c) :
    encodeChar c = front ++ [byte] := by
  simp only [next, Bool.and_eq_true, decide_eq_true_eq, UInt8.le_iff_toNat_le] at read
  split at read
  · next within =>
    split at read
    · next last =>
      have single : pending.missing - 1 = 0 := by omega
      obtain ⟨d, same, encoded⟩ := begun.goesOn within.1 within.2
        (by rw [single, Nat.pow_zero, Nat.div_one])
      rw [← Step.char.inj read, ← same, Char.ofNat_toNat, encoded, single]
      rfl
    · contradiction
  · contradiction

theorem more (begun : pending.Begun front) (read : pending.next byte = .more later) :
    later.Begun (front ++ [byte]) := by
  simp only [next, Bool.and_eq_true, decide_eq_true_eq, UInt8.le_iff_toNat_le] at read
  split at read
  · next within =>
    split at read
    · contradiction
    · next several =>
      obtain rfl := Step.more.inj read
      refine ⟨by simp only; omega, Nat.le_refl _, Nat.le_refl _, fun n continues => ?_⟩
      rw [List.append_assoc]
      exact begun.goesOn within.1 within.2 continues.bits
  · contradiction

end Begun

end Pending

variable {byte : UInt8} {state : Option Pending} {bytes : Bytes} {text : Text} {c : Char}

theorem encodeChar_of_lead (read : lead byte = .char c) : encodeChar c = [byte] := by
  simp only [lead] at read
  split at read
  · next ascii =>
    have small : byte.toNat < 0x80 := UInt8.lt_iff_toNat_lt.mp ascii
    have same : (Char.ofNat byte.toNat).toNat = byte.toNat := toNat_ofNat (by omega)
    rw [← Step.char.inj read, encodeChar_of_ascii (by omega), same, UInt8.ofNat_toNat]
  · repeat' split at read
    all_goals contradiction

/-- A code point that is no surrogate and not past the last plane is that of a character. -/
theorem exists_char {n : Nat} (valid : n < 0xD800 ∨ 0xDFFF < n ∧ n < 0x110000) :
    ∃ c : Char, c.toNat = n := by
  refine ⟨Char.ofNat n, ?_⟩
  rw [Char.ofNat, dif_pos valid]
  rfl

/-- Two bytes have no room for what one byte can say. -/
theorem begun_double {value : Nat} (least : 2 ≤ value) (most : value < 32) :
    Pending.Begun { missing := 1, value } [UInt8.ofNat (0xC0 + value)] := by
  refine ⟨Nat.one_pos, Nat.le_refl _, Nat.le_refl _, fun n continues => ?_⟩
  have bits : n / 64 = value := continues.bits
  obtain ⟨c, rfl⟩ := exists_char (n := n) (by omega)
  have long : ¬ c.toNat < 0x80 := by omega
  have fits : c.toNat < 0x800 := by omega
  refine ⟨c, rfl, ?_⟩
  simp [encodeChar, laterBytes, long, fits, bits]

/-- The interval of the second byte leaves out what two bytes can say, and the surrogates. -/
theorem begun_triple {value : Nat} {low high : UInt8} (most : value < 16)
    (lower : 0x80 ≤ low.toNat) (upper : high.toNat ≤ 0xBF)
    (noOverlong : value = 0 → 0xA0 ≤ low.toNat) (noSurrogate : value = 13 → high.toNat ≤ 0x9F) :
    Pending.Begun { missing := 2, value, low, high } [UInt8.ofNat (0xE0 + value)] := by
  refine ⟨Nat.two_pos, lower, upper, fun n continues => ?_⟩
  obtain ⟨bits, above, below⟩ := continues
  simp only [Nat.reducePow, Nat.reduceSub] at bits above below
  obtain ⟨c, rfl⟩ := exists_char (n := n) (by omega)
  have long : ¬ c.toNat < 0x80 := by omega
  have longer : ¬ c.toNat < 0x800 := by omega
  have fits : c.toNat < 0x10000 := by omega
  refine ⟨c, rfl, ?_⟩
  simp [encodeChar, laterBytes, long, longer, fits, bits]

/-- The interval of the second byte leaves out what three bytes can say, and what lies past the
last plane. -/
theorem begun_quadruple {value : Nat} {low high : UInt8} (most : value < 5)
    (lower : 0x80 ≤ low.toNat) (upper : high.toNat ≤ 0xBF)
    (noOverlong : value = 0 → 0x90 ≤ low.toNat) (noMore : value = 4 → high.toNat ≤ 0x8F) :
    Pending.Begun { missing := 3, value, low, high } [UInt8.ofNat (0xF0 + value)] := by
  refine ⟨Nat.succ_pos 2, lower, upper, fun n continues => ?_⟩
  obtain ⟨bits, above, below⟩ := continues
  simp only [Nat.reducePow, Nat.reduceSub] at bits above below
  obtain ⟨c, rfl⟩ := exists_char (n := n) (by omega)
  have long : ¬ c.toNat < 0x80 := by omega
  have longer : ¬ c.toNat < 0x800 := by omega
  have longest : ¬ c.toNat < 0x10000 := by omega
  refine ⟨c, rfl, ?_⟩
  simp [encodeChar, laterBytes, long, longer, longest, bits]

theorem eq_ofNat_add {start value : Nat} (same : byte.toNat = start + value) :
    byte = UInt8.ofNat (start + value) := by
  rw [← same, UInt8.ofNat_toNat]

/-- What begins a longer character, by the number of its bytes. -/
theorem lead_cases {pending : Pending} (read : lead byte = .more pending) :
    (∃ value, 2 ≤ value ∧ value < 32 ∧ byte = UInt8.ofNat (0xC0 + value)) ∨
      (∃ value < 16, byte = UInt8.ofNat (0xE0 + value)) ∨
      ∃ value < 5, byte = UInt8.ofNat (0xF0 + value) := by
  simp only [lead, UInt8.lt_iff_toNat_lt, UInt8.reduceToNat] at read
  by_cases double : 0xC2 ≤ byte.toNat ∧ byte.toNat < 0xE0
  · exact .inl ⟨byte.toNat - 0xC0, by omega, by omega, eq_ofNat_add (by omega)⟩
  · by_cases triple : 0xE0 ≤ byte.toNat ∧ byte.toNat < 0xF0
    · exact .inr (.inl ⟨byte.toNat - 0xE0, by omega, eq_ofNat_add (by omega)⟩)
    · by_cases quadruple : 0xF0 ≤ byte.toNat ∧ byte.toNat < 0xF5
      · exact .inr (.inr ⟨byte.toNat - 0xF0, by omega, eq_ofNat_add (by omega)⟩)
      · repeat' split at read
        all_goals first | contradiction | omega

theorem begun_of_lead {pending : Pending} (read : lead byte = .more pending) :
    pending.Begun [byte] := by
  rcases lead_cases read with ⟨value, least, most, rfl⟩ | ⟨value, most, rfl⟩ | ⟨value, most, rfl⟩
  · rw [lead_double value most least] at read
    rw [← Step.more.inj read]
    exact begun_double least most
  · rw [lead_triple value most] at read
    rw [← Step.more.inj read]
    refine begun_triple most ?_ ?_ (fun first => ?_) (fun surrogate => ?_)
    · split <;> decide
    · split <;> decide
    · rw [if_pos first]
      decide
    · rw [if_pos surrogate]
      decide
  · rw [lead_quadruple value most] at read
    rw [← Step.more.inj read]
    refine begun_quadruple most ?_ ?_ (fun first => ?_) (fun last => ?_)
    · split <;> decide
    · split <;> decide
    · rw [if_pos first]
      decide
    · rw [if_pos last]
      decide

/-- Between two characters nothing was read yet of the next one. -/
def Underway : Option Pending → Bytes → Prop
  | none, front => front = []
  | some pending, front => pending.Begun front

theorem Underway.char {front : Bytes} (begun : Underway state front) (read : step state byte = .char c) :
    encodeChar c = front ++ [byte] := by
  cases state with
  | none =>
      obtain rfl : front = [] := begun
      exact encodeChar_of_lead read
  | some pending => exact Pending.Begun.char begun read

theorem Underway.more {front : Bytes} {pending : Pending} (begun : Underway state front)
    (read : step state byte = .more pending) : Underway (some pending) (front ++ [byte]) := by
  cases state with
  | none =>
      obtain rfl : front = [] := begun
      exact begun_of_lead read
  | some earlier => exact Pending.Begun.more begun read

/-- What is decoded encodes the bytes, together with those that were read before them. -/
theorem utf8_of_decodeFrom? {front : Bytes} (begun : Underway state front)
    (decodes : decodeFrom? state bytes = some text) : text.utf8 = front ++ bytes := by
  fun_induction decodeFrom? state bytes generalizing text front with
  | case1 =>
      obtain rfl : front = [] := begun
      rw [← Option.some.inj decodes]
      rfl
  | case2 => contradiction
  | case3 state byte rest c read ih =>
      obtain ⟨tail, found, rfl⟩ := Option.map_eq_some_iff.mp decodes
      have later : Text.utf8 tail = [] ++ rest := ih rfl found
      rw [Text.utf8, List.flatMap_cons, ← Text.utf8, later, begun.char read, List.append_assoc]
      rfl
  | case4 state byte rest after read ih =>
      rw [ih (begun.more read) decodes, List.append_assoc]
      rfl
  | case5 => contradiction

/-- A text is decoded from the bytes that encode it, and from no others. -/
theorem decode?_eq_some_iff : decode? bytes = some text ↔ text.utf8 = bytes := by
  constructor
  · intro decodes
    have start : Underway none [] := rfl
    exact utf8_of_decodeFrom? start decodes
  · rintro rfl
    exact decode?_utf8 text

end LenientMime.Utf8
