import LenientMime.Text.Utf8

namespace LenientMime.Utf8

theorem lead_single : ∀ value < 0x80, lead (UInt8.ofNat value) = .char (Char.ofNat value) := by
  decide

theorem lead_double : ∀ value < 32, 2 ≤ value →
    lead (UInt8.ofNat (0xC0 + value)) = .more { missing := 1, value } := by
  decide

theorem lead_triple : ∀ value < 16,
    lead (UInt8.ofNat (0xE0 + value)) = .more {
      missing := 2, value
      low := if value = 0 then 0xA0 else 0x80
      high := if value = 13 then 0x9F else 0xBF } := by
  decide

theorem lead_quadruple : ∀ value < 5,
    lead (UInt8.ofNat (0xF0 + value)) = .more {
      missing := 3, value
      low := if value = 0 then 0x90 else 0x80
      high := if value = 4 then 0x8F else 0xBF } := by
  decide

theorem Pending.next_of_bits (pending : Pending) {bits : Nat} (small : bits < 64)
    (lower : pending.low.toNat ≤ 0x80 + bits) (upper : 0x80 + bits ≤ pending.high.toNat) :
    pending.next (UInt8.ofNat (0x80 + bits)) =
      if pending.missing ≤ 1 then .char (Char.ofNat (pending.value * 64 + bits))
      else .more { missing := pending.missing - 1, value := pending.value * 64 + bits } := by
  have value : (UInt8.ofNat (0x80 + bits)).toNat = 0x80 + bits := by
    rw [UInt8.toNat_ofNat']
    omega
  have within : (pending.low ≤ UInt8.ofNat (0x80 + bits) &&
      UInt8.ofNat (0x80 + bits) ≤ pending.high) = true := by
    simp only [UInt8.le_iff_toNat_le, value, Bool.and_eq_true, decide_eq_true_eq]
    exact ⟨lower, upper⟩
  have low : (0x80 + bits) % 64 = bits := by omega
  simp only [Pending.next, within, if_true, value, low]

/-- After its second byte a character takes every later byte. -/
theorem Pending.next_later {missing value bits : Nat} (small : bits < 64) :
    ({ missing, value } : Pending).next (UInt8.ofNat (0x80 + bits)) =
      if missing ≤ 1 then .char (Char.ofNat (value * 64 + bits))
      else .more { missing := missing - 1, value := value * 64 + bits } := by
  refine next_of_bits _ small (Nat.le_add_right _ _) ?_
  simp only [UInt8.reduceToNat]
  omega

/-- Code points leave out the surrogates and end at seventeen planes. -/
theorem toNat_valid (c : Char) : c.toNat < 0xD800 ∨ 0xDFFF < c.toNat ∧ c.toNat < 0x110000 :=
  c.valid

theorem toNat_ofNat {value : Nat} (small : value < 0xD800) : (Char.ofNat value).toNat = value := by
  rw [Char.ofNat, dif_pos (.inl small)]
  rfl

theorem decodeFrom?_encodeChar (c : Char) (rest : Bytes) :
    decodeFrom? none (encodeChar c ++ rest) = (decodeFrom? none rest).map (c :: ·) := by
  have valid := toNat_valid c
  have whole := Char.ofNat_toNat c
  simp only [encodeChar]
  generalize c.toNat = n at *
  split
  · next single =>
    simp only [List.cons_append, List.nil_append, decodeFrom?, step, lead_single n single, whole]
  · split
    · next _ double =>
      have joined : n / 64 * 64 + n % 64 = n := by omega
      simp only [List.cons_append, List.nil_append, decodeFrom?, step]
      rw [lead_double (n / 64) (by omega) (by omega)]
      simp only
      rw [Pending.next_later (by omega)]
      simp only [Nat.le_refl, if_true, joined, whole]
    · split
      · next _ _ triple =>
        have joined : (n / 4096 * 64 + n / 64 % 64) * 64 + n % 64 = n := by omega
        simp only [List.cons_append, List.nil_append, decodeFrom?, step]
        rw [lead_triple (n / 4096) (by omega)]
        simp only
        rw [Pending.next_of_bits _ (by omega)
          (by dsimp only; split <;> simp only [UInt8.reduceToNat] <;> omega)
          (by dsimp only; split <;> simp only [UInt8.reduceToNat] <;> omega)]
        simp only [Nat.reduceLeDiff, if_false, Nat.reduceSub]
        rw [Pending.next_later (by omega)]
        simp only [Nat.le_refl, if_true, joined, whole]
      · next _ _ long =>
        have joined :
            ((n / 262144 * 64 + n / 4096 % 64) * 64 + n / 64 % 64) * 64 + n % 64 = n := by
          omega
        simp only [List.cons_append, List.nil_append, decodeFrom?, step]
        rw [lead_quadruple (n / 262144) (by omega)]
        simp only
        rw [Pending.next_of_bits _ (by omega)
          (by dsimp only; split <;> simp only [UInt8.reduceToNat] <;> omega)
          (by dsimp only; split <;> simp only [UInt8.reduceToNat] <;> omega)]
        simp only [Nat.reduceLeDiff, if_false, Nat.reduceSub]
        rw [Pending.next_later (by omega)]
        simp only [Nat.reduceLeDiff, if_false, Nat.reduceSub]
        rw [Pending.next_later (by omega)]
        simp only [Nat.le_refl, if_true, joined, whole]

theorem decode?_utf8 (text : Text) : decode? text.utf8 = some text := by
  simp only [decode?]
  induction text with
  | nil => rfl
  | cons c rest ih =>
      rw [Text.utf8, List.flatMap_cons, decodeFrom?_encodeChar, ← Text.utf8, ih]
      rfl

theorem toNat_of_mem_encodeChar {c : Char} {byte : UInt8} (member : byte ∈ encodeChar c)
    (ascii : byte.toNat < 0x80) : c.toNat = byte.toNat := by
  have valid := toNat_valid c
  simp only [encodeChar] at member
  generalize c.toNat = n at *
  split at member
  · next single =>
    obtain rfl := List.mem_singleton.mp member
    rw [UInt8.toNat_ofNat']
    omega
  · exfalso
    split at member
    · simp only [List.mem_cons, List.not_mem_nil, or_false] at member
      rcases member with rfl | rfl <;>
        rw [UInt8.toNat_ofNat'] at ascii <;> omega
    · split at member
      · simp only [List.mem_cons, List.not_mem_nil, or_false] at member
        rcases member with rfl | rfl | rfl <;>
          rw [UInt8.toNat_ofNat'] at ascii <;> omega
      · simp only [List.mem_cons, List.not_mem_nil, or_false] at member
        rcases member with rfl | rfl | rfl | rfl <;>
          rw [UInt8.toNat_ofNat'] at ascii <;> omega

theorem encodeChar_of_ascii {c : Char} (ascii : c.toNat < 0x80) :
    encodeChar c = [UInt8.ofNat c.toNat] := by
  simp [encodeChar, ascii]

end LenientMime.Utf8

namespace LenientMime.Text

theorem mem_of_mem_utf8 {text : Text} {byte : UInt8} (member : byte ∈ text.utf8)
    (ascii : byte.toNat < 0x80) : Char.ofNat byte.toNat ∈ text := by
  obtain ⟨c, inside, encoded⟩ := List.mem_flatMap.mp member
  rw [← Utf8.toNat_of_mem_encodeChar encoded ascii, Char.ofNat_toNat]
  exact inside

theorem utf8_ofAscii {bytes : Bytes} (ascii : ∀ byte ∈ bytes, byte.toNat < 0x80) :
    utf8 (ofAscii bytes) = bytes := by
  induction bytes with
  | nil => rfl
  | cons byte rest ih =>
      have small := ascii byte (by simp)
      have same : (Char.ofNat byte.toNat).toNat = byte.toNat := Utf8.toNat_ofNat (by omega)
      have tail := ih fun byte member => ascii byte (List.mem_cons_of_mem _ member)
      simp only [ofAscii, utf8, List.map_cons, List.flatMap_cons] at tail ⊢
      rw [tail, Utf8.encodeChar_of_ascii (by omega), same, UInt8.ofNat_toNat]
      rfl

end LenientMime.Text
