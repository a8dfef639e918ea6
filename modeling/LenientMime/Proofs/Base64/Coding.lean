import LenientMime.Base64.Coding

namespace LenientMime.Base64

theorem of_small {p : UInt8 → Prop} (all : ∀ n < 64, p (UInt8.ofNat n)) {value : UInt8}
    (bound : value.toNat < 64) : p value := by
  have here := all value.toNat bound
  rwa [UInt8.ofNat_toNat] at here

theorem value?_symbol {value : UInt8} (bound : value.toNat < 64) :
    value? (symbol value) = some value ∧ symbol value ≠ Byte.equals := by
  have all : ∀ n < 64, value? (symbol (UInt8.ofNat n)) = some (UInt8.ofNat n) ∧
      symbol (UInt8.ofNat n) ≠ Byte.equals := by
    decide
  exact of_small (p := fun value => value? (symbol value) = some value ∧
    symbol value ≠ Byte.equals) all bound

section Groups

variable (a b c : UInt8)

theorem firstByte_eq : firstByte (a / 4) (a % 4 * 16 + b / 16) = a := by
  have := a.toNat_lt
  have := b.toNat_lt
  rw [← UInt8.toNat_inj]
  simp only [firstByte, UInt8.toNat_add, UInt8.toNat_mul, UInt8.toNat_div, UInt8.toNat_mod,
    UInt8.reduceToNat]
  omega

theorem secondByte_eq : secondByte (a % 4 * 16 + b / 16) (b % 16 * 4 + c / 64) = b := by
  have := a.toNat_lt
  have := b.toNat_lt
  have := c.toNat_lt
  rw [← UInt8.toNat_inj]
  simp only [secondByte, UInt8.toNat_add, UInt8.toNat_mul, UInt8.toNat_div, UInt8.toNat_mod,
    UInt8.reduceToNat]
  omega

theorem thirdByte_eq : thirdByte (b % 16 * 4 + c / 64) (c % 64) = c := by
  have := b.toNat_lt
  have := c.toNat_lt
  rw [← UInt8.toNat_inj]
  simp only [thirdByte, UInt8.toNat_add, UInt8.toNat_mul, UInt8.toNat_div, UInt8.toNat_mod,
    UInt8.reduceToNat]
  omega

theorem toNat_firstValue_lt : (a / 4).toNat < 64 := by
  have := a.toNat_lt
  simp only [UInt8.toNat_div, UInt8.reduceToNat]
  omega

theorem toNat_secondValue_lt : (a % 4 * 16 + b / 16).toNat < 64 := by
  have := b.toNat_lt
  simp only [UInt8.toNat_add, UInt8.toNat_mul, UInt8.toNat_div, UInt8.toNat_mod,
    UInt8.reduceToNat]
  omega

theorem toNat_thirdValue_lt : (b % 16 * 4 + c / 64).toNat < 64 := by
  have := c.toNat_lt
  simp only [UInt8.toNat_add, UInt8.toNat_mul, UInt8.toNat_div, UInt8.toNat_mod,
    UInt8.reduceToNat]
  omega

theorem toNat_fourthValue_lt : (c % 64).toNat < 64 := by
  simp only [UInt8.toNat_mod, UInt8.reduceToNat]
  omega

end Groups

/-- Where a byte is missing at the end, zeros stand for its bits. -/
theorem add_zero_div (value : UInt8) : value + 0 / 16 = value ∧ value + 0 / 64 = value :=
  ⟨UInt8.add_zero value, UInt8.add_zero value⟩

theorem decode?_encode (bytes : Bytes) : decode? (encode bytes) = some bytes := by
  fun_induction encode bytes with
  | case1 => rfl
  | case2 a =>
      obtain ⟨first, -⟩ := value?_symbol (toNat_firstValue_lt a)
      obtain ⟨second, -⟩ := value?_symbol (toNat_secondValue_lt a 0)
      have whole := firstByte_eq a 0
      rw [(add_zero_div _).1] at second whole
      have padded : isPadding 2 [Byte.equals, Byte.equals] = true := rfl
      simp only [decode?, first, second, padded, if_true, whole]
  | case3 a b =>
      obtain ⟨first, -⟩ := value?_symbol (toNat_firstValue_lt a)
      obtain ⟨second, -⟩ := value?_symbol (toNat_secondValue_lt a b)
      obtain ⟨third, solid⟩ := value?_symbol (toNat_thirdValue_lt b 0)
      have whole := secondByte_eq a b 0
      rw [(add_zero_div _).2] at third solid whole
      have goesOn : isPadding 2 [symbol (b % 16 * 4), Byte.equals] = false := by
        simp [isPadding, solid]
      have padded : isPadding 1 [Byte.equals] = true := rfl
      simp only [decode?, first, second, third, goesOn, padded, Bool.false_eq_true, if_false,
        if_true, firstByte_eq, whole]
  | case4 a b c rest ih =>
      obtain ⟨first, -⟩ := value?_symbol (toNat_firstValue_lt a)
      obtain ⟨second, -⟩ := value?_symbol (toNat_secondValue_lt a b)
      obtain ⟨third, thirdSolid⟩ := value?_symbol (toNat_thirdValue_lt b c)
      obtain ⟨fourth, fourthSolid⟩ := value?_symbol (toNat_fourthValue_lt c)
      have noPadding : isPadding 2 (symbol (b % 16 * 4 + c / 64) :: symbol (c % 64) ::
          encode rest) = false := by
        simp [isPadding, thirdSolid]
      have noLater : isPadding 1 (symbol (c % 64) :: encode rest) = false := by
        simp [isPadding, fourthSolid]
      simp only [decode?, first, second, third, fourth, noPadding, noLater, ih,
        Bool.false_eq_true, if_false, Option.map_some, firstByte_eq, secondByte_eq, thirdByte_eq]

theorem forall_mem_encode {p : UInt8 → Prop} (all : ∀ n < 64, p (symbol (UInt8.ofNat n)))
    (padding : p Byte.equals) (bytes : Bytes) : ∀ byte ∈ encode bytes, p byte := by
  have symbols (value : UInt8) (bound : value.toNat < 64) : p (symbol value) :=
    of_small (p := fun value => p (symbol value)) all bound
  fun_induction encode bytes with
  | case1 => simp
  | case2 a =>
      have second := toNat_secondValue_lt a 0
      rw [(add_zero_div _).1] at second
      simp only [List.forall_mem_cons]
      exact ⟨symbols _ (toNat_firstValue_lt a), symbols _ second, padding, padding, by simp⟩
  | case3 a b =>
      have third := toNat_thirdValue_lt b 0
      rw [(add_zero_div _).2] at third
      simp only [List.forall_mem_cons]
      exact ⟨symbols _ (toNat_firstValue_lt a), symbols _ (toNat_secondValue_lt a b),
        symbols _ third, padding, by simp⟩
  | case4 a b c rest ih =>
      simp only [List.forall_mem_cons]
      exact ⟨symbols _ (toNat_firstValue_lt a), symbols _ (toNat_secondValue_lt a b),
        symbols _ (toNat_thirdValue_lt b c), symbols _ (toNat_fourthValue_lt c), ih⟩

end LenientMime.Base64
