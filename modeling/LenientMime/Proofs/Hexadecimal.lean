import LenientMime.Bytes
import LenientMime.Text.Token

namespace LenientMime.Byte

/-- What holds of each of the 256 bytes holds of every byte. -/
theorem of_all {p : UInt8 → Prop} (all : ∀ n < 256, p (UInt8.ofNat n)) (byte : UInt8) : p byte := by
  have here := all byte.toNat byte.toNat_lt
  rwa [UInt8.ofNat_toNat] at here

variable {byte value : UInt8}

theorem hexValue?_hexDigit (small : value.toNat < 16) :
    hexValue? (hexDigit value) = some value := by
  have all : ∀ n < 16, hexValue? (hexDigit (UInt8.ofNat n)) = some (UInt8.ofNat n) := by decide
  have here := all value.toNat small
  rwa [UInt8.ofNat_toNat] at here

theorem toNat_upperHalf_lt (byte : UInt8) : (byte / 16).toNat < 16 := by
  have bound := byte.toNat_lt
  simp only [UInt8.toNat_div, UInt8.reduceToNat]
  omega

theorem toNat_lowerHalf_lt (byte : UInt8) : (byte % 16).toNat < 16 := by
  simp only [UInt8.toNat_mod, UInt8.reduceToNat]
  omega

/-- The digits that are written for a byte spell it. -/
theorem ofHexPair?_hexDigits (byte : UInt8) :
    ofHexPair? (hexDigit (byte / 16)) (hexDigit (byte % 16)) = some byte := by
  have joined : byte / 16 * 16 + byte % 16 = byte := by
    have bound := byte.toNat_lt
    rw [← UInt8.toNat_inj]
    simp only [UInt8.toNat_add, UInt8.toNat_mul, UInt8.toNat_div, UInt8.toNat_mod,
      UInt8.reduceToNat]
    omega
  simp only [ofHexPair?, hexValue?_hexDigit (toNat_upperHalf_lt byte),
    hexValue?_hexDigit (toNat_lowerHalf_lt byte), joined]

/-- Digits, and the first six letters in either case. -/
theorem toNat_of_isHexDigit (digit : isHexDigit byte = true) :
    0x30 ≤ byte.toNat ∧ byte.toNat ≤ 0x39 ∨ 0x41 ≤ byte.toNat ∧ byte.toNat ≤ 0x46 ∨
      0x61 ≤ byte.toNat ∧ byte.toNat ≤ 0x66 := by
  simp only [isHexDigit, hexValue?, Bool.and_eq_true, decide_eq_true_eq, UInt8.le_iff_toNat_le,
    UInt8.reduceToNat] at digit
  split at digit
  · omega
  · split at digit
    · omega
    · split at digit
      · omega
      · contradiction

/-- Token characters are ASCII, and digits are among them. -/
theorem toNat_of_isTokenChar (token : isTokenChar (Char.ofNat byte.toNat) = true) :
    byte.toNat < 0x80 :=
  of_all (p := fun byte => isTokenChar (Char.ofNat byte.toNat) = true → byte.toNat < 0x80)
    (by decide +kernel) byte token

theorem isTokenChar_of_isHexDigit (digit : isHexDigit byte = true) :
    isTokenChar (Char.ofNat byte.toNat) = true :=
  of_all (p := fun byte => isHexDigit byte = true → isTokenChar (Char.ofNat byte.toNat) = true)
    (by decide +kernel) byte digit

theorem isHexDigit_of_ofHexPair? {high low : UInt8} (spelled : ofHexPair? high low = some byte) :
    isHexDigit high = true ∧ isHexDigit low = true := by
  simp only [ofHexPair?] at spelled
  split at spelled
  · next upper lower => exact ⟨by rw [isHexDigit, upper]; rfl, by rw [isHexDigit, lower]; rfl⟩
  · contradiction

theorem exists_ofHexPair? {high low : UInt8} (upper : isHexDigit high = true)
    (lower : isHexDigit low = true) : ∃ byte, ofHexPair? high low = some byte := by
  obtain ⟨first, found⟩ := Option.isSome_iff_exists.mp upper
  obtain ⟨second, foundToo⟩ := Option.isSome_iff_exists.mp lower
  exact ⟨first * 16 + second, by simp only [ofHexPair?, found, foundToo]⟩

end LenientMime.Byte
