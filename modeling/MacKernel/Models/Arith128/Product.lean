import MacKernel.Core.TwoWords
import MacKernel.Models.Arith128.Native

/-!
# The product of two 64-bit numbers

The four products of halves add up to the whole product, which has room in two words, so
neither of the two additions can lose a carry at the top.
-/

namespace MacKernel.Arith128

/-- The number that a `uint128_data_t` holds. -/
def Uint128Data.val (u : Uint128Data) : Nat := twoWords u.high u.low

/-- The value of two words. -/
theorem Uint128Data.val_eq (u : Uint128Data) : u.val = u.high.toNat * 2 ^ 64 + u.low.toNat := rfl

/-- `add128_128` adds modulo 2 to the 128th. -/
theorem add128_128_val (acc add : Uint128Data) :
    (add128_128 acc add).val = (acc.val + add.val) % (2 ^ 64 * 2 ^ 64) := by
  have hsum : (add128_128 acc add).val
      = twoWords (if acc.low + add.low < add.low then acc.high + add.high + 1#64
          else acc.high + add.high) (acc.low + add.low) := by
    unfold add128_128
    split
    · next h => simp only [Uint128Data.val, if_pos h]
    · next h => simp only [Uint128Data.val, if_neg h]
  rw [hsum, twoWords_add _ (add_lt_right_iff acc.low add.low)]
  rfl

/-- An addition whose sum has room loses nothing. -/
theorem add128_128_exact {acc add : Uint128Data} (h : acc.val + add.val < 2 ^ 64 * 2 ^ 64) :
    (add128_128 acc add).val = acc.val + add.val := by
  rw [add128_128_val, Nat.mod_eq_of_lt h]

/-! ## Halves -/

/-- A word is its two halves. -/
theorem halves (x : BitVec 64) :
    x.toNat = (upperHalf x).toNat * 2 ^ 32 + (lowerHalf x).toNat := by
  have hx := x.isLt
  simp only [upperHalf, lowerHalf, BitVec.toNat_setWidth, BitVec.toNat_ushiftRight,
    Nat.shiftRight_eq_div_pow]
  omega

/-- A product of halves has room in a word, with as much left as the middle products need. -/
theorem half_mul_le (a b : BitVec 32) : a.toNat * b.toNat ≤ (2 ^ 32 - 1) * (2 ^ 32 - 1) :=
  Nat.mul_le_mul (Nat.le_sub_one_of_lt a.isLt) (Nat.le_sub_one_of_lt b.isLt)

/-- A product of two halves fits a word. -/
theorem product_toNat (a b : BitVec 32) : (product a b).toNat = a.toNat * b.toNat := by
  have hle := half_mul_le a b
  rw [product, BitVec.toNat_mul, BitVec.toNat_setWidth_of_le (by omega),
    BitVec.toNat_setWidth_of_le (by omega), Nat.mod_eq_of_lt (by omega)]

/-- The products of the upper and of the lower halves, side by side. -/
theorem outerProducts_val (x y : BitVec 64) :
    (outerProducts x y).val = (upperHalf x).toNat * (upperHalf y).toNat * 2 ^ 64
      + (lowerHalf x).toNat * (lowerHalf y).toNat := by
  rw [Uint128Data.val_eq, outerProducts, product_toNat, product_toNat]

/-- A mixed product stands in the middle. -/
theorem middleProduct_val (a b : BitVec 32) :
    (middleProduct a b).val = a.toNat * b.toNat * 2 ^ 32 := by
  have hle := half_mul_le a b
  simp only [Uint128Data.val_eq, middleProduct, BitVec.toNat_ushiftRight, BitVec.toNat_shiftLeft,
    product_toNat, Nat.shiftRight_eq_div_pow, Nat.shiftLeft_eq]
  omega

/-! ## The whole product -/

/-- The four products of halves. -/
theorem mul_halves (x y : BitVec 64) :
    x.toNat * y.toNat = (outerProducts x y).val
      + (middleProduct (upperHalf x) (lowerHalf y)).val
      + (middleProduct (lowerHalf x) (upperHalf y)).val := by
  rw [outerProducts_val, middleProduct_val, middleProduct_val, halves x, halves y]
  ring

/-- A product of two words has 128 bits. -/
theorem toNat_mul_lt (x y : BitVec 64) : x.toNat * y.toNat < 2 ^ 64 * 2 ^ 64 :=
  Nat.mul_lt_mul'' x.isLt y.isLt

/-- The first mixed product is added without a carry out. -/
theorem firstSum_val (x y : BitVec 64) :
    (firstSum x y).val = (outerProducts x y).val
      + (middleProduct (upperHalf x) (lowerHalf y)).val := by
  have hmul := mul_halves x y
  have hlt := toNat_mul_lt x y
  exact add128_128_exact (by omega)

/-- The second mixed product is added without a carry out as well. -/
theorem mul64x64_val_add (x y : BitVec 64) :
    (mul64x64 x y).val = (firstSum x y).val + (middleProduct (lowerHalf x) (upperHalf y)).val := by
  have hmul := mul_halves x y
  have hlt := toNat_mul_lt x y
  have hfirst := firstSum_val x y
  exact add128_128_exact (by omega)

/-- `mul64x64` is exact. -/
theorem mul64x64_val (x y : BitVec 64) : (mul64x64 x y).val = x.toNat * y.toNat := by
  rw [mul64x64_val_add, firstSum_val, mul_halves]

/-- `multi_overflow` is the upper word of the product. -/
theorem multiOverflow_toNat (a b : BitVec 64) :
    (multiOverflow a b).toNat = a.toNat * b.toNat / 2 ^ 64 := by
  rw [← mul64x64_val, Uint128Data.val, twoWords_div]
  rfl

/-- `multi_overflow` is the upper word of the product where the compiler has a wide type, too. -/
theorem multiOverflowLp64_toNat (a b : BitVec 64) :
    (multiOverflowLp64 a b).toNat = a.toNat * b.toNat / 2 ^ 64 := by
  have hlt := toNat_mul_lt a b
  simp only [multiOverflowLp64, BitVec.toNat_setWidth, BitVec.toNat_ushiftRight,
    BitVec.toNat_mul, Nat.shiftRight_eq_div_pow]
  rw [Nat.mod_eq_of_lt (a := a.toNat) (by omega), Nat.mod_eq_of_lt (a := b.toNat) (by omega)]
  omega

/-- The product in two words, with no carry lost in either addition, and the two definitions
of `multi_overflow`. -/
theorem mul64x64_exact (x y : BitVec 64) :
    (mul64x64 x y).high.toNat * 2 ^ 64 + (mul64x64 x y).low.toNat = x.toNat * y.toNat
      ∧ (firstSum x y).val = (outerProducts x y).val
          + (middleProduct (upperHalf x) (lowerHalf y)).val
      ∧ (mul64x64 x y).val = (firstSum x y).val
          + (middleProduct (lowerHalf x) (upperHalf y)).val
      ∧ multiOverflow x y = multiOverflowLp64 x y
      ∧ (multiOverflow x y).toNat = x.toNat * y.toNat / 2 ^ 64
      ∧ (multiOverflow x y = 0#64 ↔ x.toNat * y.toNat < 2 ^ 64) := by
  refine ⟨mul64x64_val x y, firstSum_val x y, mul64x64_val_add x y, ?_, multiOverflow_toNat x y, ?_⟩
  · apply BitVec.eq_of_toNat_eq
    rw [multiOverflow_toNat, multiOverflowLp64_toNat]
  · rw [← BitVec.toNat_inj, multiOverflow_toNat, BitVec.toNat_ofNat, Nat.zero_mod]
    omega

end MacKernel.Arith128
