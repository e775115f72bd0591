import Mathlib.Data.BitVec
import Mathlib.Tactic.Ring

/-!
# Numbers of two words

A number of `2 * w` bits is kept in two words of `w` bits. An addition works on the words
one by one and finds the carry afterwards, by comparing the wrapped sum of the lower words
with a summand; a subtraction finds its borrow in the same way. The value is right modulo
`2 ^ w * 2 ^ w` as soon as the carry is.
-/

namespace MacKernel

variable {w : Nat}

/-- The number that an upper and a lower word stand for. -/
def twoWords (hi lo : BitVec w) : Nat := hi.toNat * 2 ^ w + lo.toNat

variable (ah al bh bl hi lo : BitVec w)

/-- Two words make a number of twice the width. -/
theorem twoWords_lt : twoWords hi lo < 2 ^ w * 2 ^ w := by
  have hlo := lo.isLt
  have hhi : (hi.toNat + 1) * 2 ^ w ≤ 2 ^ w * 2 ^ w := Nat.mul_le_mul_right _ hi.isLt
  rw [Nat.add_mul, Nat.one_mul] at hhi
  unfold twoWords
  omega

/-- The upper word is found by division. -/
theorem twoWords_div : twoWords hi lo / 2 ^ w = hi.toNat := by
  rw [twoWords, Nat.mul_comm, Nat.mul_add_div (Nat.two_pow_pos w),
    Nat.div_eq_of_lt lo.isLt, Nat.add_zero]

/-- The lower word is the remainder. -/
theorem twoWords_mod : twoWords hi lo % 2 ^ w = lo.toNat := by
  rw [twoWords, Nat.mul_add_mod_self_right, Nat.mod_eq_of_lt lo.isLt]

/-- Equal numbers have equal words. -/
theorem twoWords_inj : twoWords ah al = twoWords bh bl ↔ ah = bh ∧ al = bl := by
  constructor
  · intro h
    constructor
    · apply BitVec.eq_of_toNat_eq
      rw [← twoWords_div ah al, ← twoWords_div bh bl, h]
    · apply BitVec.eq_of_toNat_eq
      rw [← twoWords_mod ah al, ← twoWords_mod bh bl, h]
  · rintro ⟨rfl, rfl⟩
    rfl

/-- The order of the numbers is the lexicographic order of the words. -/
theorem twoWords_lt_twoWords :
    twoWords ah al < twoWords bh bl ↔ ah < bh ∨ ah = bh ∧ al < bl := by
  have hal := al.isLt
  have hbl := bl.isLt
  rcases Nat.lt_trichotomy ah.toNat bh.toNat with h | h | h
  · have hle : (ah.toNat + 1) * 2 ^ w ≤ bh.toNat * 2 ^ w := Nat.mul_le_mul_right _ h
    rw [Nat.add_mul, Nat.one_mul] at hle
    have hlt : twoWords ah al < twoWords bh bl := by
      unfold twoWords
      omega
    exact iff_of_true hlt (.inl h)
  · obtain rfl := BitVec.eq_of_toNat_eq h
    simp [twoWords, BitVec.lt_def]
  · have hle : (bh.toNat + 1) * 2 ^ w ≤ ah.toNat * 2 ^ w := Nat.mul_le_mul_right _ h
    rw [Nat.add_mul, Nat.one_mul] at hle
    have hge : ¬ twoWords ah al < twoWords bh bl := by
      unfold twoWords
      omega
    refine iff_of_false hge ?_
    rintro (hlt | ⟨rfl, -⟩)
    · exact Nat.lt_asymm h hlt
    · exact Nat.lt_irrefl _ h

/-- An upper part that is cut to a word is cut in the value. -/
theorem mod_mul_add {h l n : Nat} (hl : l < n) : h % n * n + l = (h * n + l) % (n * n) := by
  have hn : 0 < n := Nat.zero_lt_of_lt hl
  rw [Nat.mod_mul, Nat.mul_add_mod_self_right, Nat.mod_eq_of_lt hl, Nat.mul_comm h n,
    Nat.mul_add_div hn, Nat.div_eq_of_lt hl, Nat.add_zero, Nat.mul_comm n, Nat.add_comm]

/-! ## Addition -/

/-- A wrapped sum is below a summand exactly when there was a carry. -/
theorem add_lt_right_iff (a b : BitVec w) : a + b < b ↔ 2 ^ w ≤ a.toNat + b.toNat := by
  have ha := a.isLt
  have hb := b.isLt
  rw [BitVec.lt_def, BitVec.toNat_add]
  rcases Nat.lt_or_ge (a.toNat + b.toNat) (2 ^ w) with h | h
  · rw [Nat.mod_eq_of_lt h]
    omega
  · rw [Nat.mod_eq_sub_mod h, Nat.mod_eq_of_lt (by omega)]
    omega

/-- A sum below its first operand has wrapped. -/
theorem add_lt_left_iff (a b : BitVec w) : a + b < a ↔ 2 ^ w ≤ a.toNat + b.toNat := by
  rw [BitVec.add_comm, add_lt_right_iff, Nat.add_comm]

variable {ah al bh bl hi lo}

/-- Addition with a carry into the upper word. -/
theorem twoWords_add_carry (h : 2 ^ w ≤ al.toNat + bl.toNat) :
    twoWords (ah + bh + 1#w) (al + bl)
      = (twoWords ah al + twoWords bh bl) % (2 ^ w * 2 ^ w) := by
  have hal := al.isLt
  have hbl := bl.isLt
  have hlo : (al + bl).toNat + 2 ^ w = al.toNat + bl.toNat := by
    rw [BitVec.toNat_add, Nat.mod_eq_sub_mod h, Nat.mod_eq_of_lt (by omega)]
    omega
  have hhi : (ah + bh + 1#w).toNat = (ah.toNat + bh.toNat + 1) % 2 ^ w := by
    simp [BitVec.toNat_add]
  rw [twoWords, hhi, mod_mul_add (al + bl).isLt]
  congr 1
  unfold twoWords
  calc (ah.toNat + bh.toNat + 1) * 2 ^ w + (al + bl).toNat
      = ah.toNat * 2 ^ w + bh.toNat * 2 ^ w + ((al + bl).toNat + 2 ^ w) := by ring
    _ = ah.toNat * 2 ^ w + al.toNat + (bh.toNat * 2 ^ w + bl.toNat) := by
      rw [hlo]
      ring

/-- Addition without a carry. -/
theorem twoWords_add_no_carry (h : al.toNat + bl.toNat < 2 ^ w) :
    twoWords (ah + bh) (al + bl) = (twoWords ah al + twoWords bh bl) % (2 ^ w * 2 ^ w) := by
  have hlo : (al + bl).toNat = al.toNat + bl.toNat := by
    rw [BitVec.toNat_add, Nat.mod_eq_of_lt h]
  rw [twoWords, BitVec.toNat_add, mod_mul_add (al + bl).isLt, hlo]
  congr 1
  unfold twoWords
  ring

/-- The addition of two words each, with its carry. -/
theorem twoWords_add (c : Prop) [Decidable c] (hc : c ↔ 2 ^ w ≤ al.toNat + bl.toNat) :
    twoWords (if c then ah + bh + 1#w else ah + bh) (al + bl)
      = (twoWords ah al + twoWords bh bl) % (2 ^ w * 2 ^ w) := by
  split
  · next h => exact twoWords_add_carry (hc.1 h)
  · next h => exact twoWords_add_no_carry (Nat.lt_of_not_le fun hle => h (hc.2 hle))

/-! ## Subtraction -/

/-- A wrapped difference is above the minuend exactly when there was a borrow. -/
theorem lt_sub_iff (a b : BitVec w) : a < a - b ↔ a < b := by
  have hl := add_lt_left_iff (a - b) b
  have hr := add_lt_right_iff (a - b) b
  rw [BitVec.sub_add_cancel] at hl hr
  exact hl.trans hr.symm

/-- The subtraction of two words each, with its borrow: adding the subtrahend back gives the
minuend. -/
theorem twoWords_sub (c : Prop) [Decidable c] (hc : c ↔ al < bl) :
    (twoWords (if c then ah - bh - 1#w else ah - bh) (al - bl) : Int)
      = ((twoWords ah al : Int) - twoWords bh bl) % (2 ^ w * 2 ^ w : Nat) := by
  have hcarry : c ↔ 2 ^ w ≤ (al - bl).toNat + bl.toNat := by
    rw [hc, ← add_lt_right_iff, BitVec.sub_add_cancel]
  have hhi : (if c then (if c then ah - bh - 1#w else ah - bh) + bh + 1#w
      else (if c then ah - bh - 1#w else ah - bh) + bh) = ah := by
    split
    · rw [BitVec.sub_sub, BitVec.add_assoc, BitVec.sub_add_cancel]
    · rw [BitVec.sub_add_cancel]
  have hback : twoWords ah al
      = (twoWords (if c then ah - bh - 1#w else ah - bh) (al - bl) + twoWords bh bl)
        % (2 ^ w * 2 ^ w) := by
    rw [← twoWords_add c hcarry, hhi, BitVec.sub_add_cancel]
  have hlt := twoWords_lt (if c then ah - bh - 1#w else ah - bh) (al - bl)
  rw [hback]
  generalize twoWords (if c then ah - bh - 1#w else ah - bh) (al - bl) = d at hlt
  rw [Int.natCast_mod, Int.sub_emod, Int.emod_emod, ← Int.sub_emod, Int.natCast_add,
    Int.add_sub_cancel, Int.emod_eq_of_lt (Int.natCast_nonneg d) (Int.ofNat_lt.2 hlt)]

/-! ## Shifts by one bit -/

/-- A shift by one doubles. -/
theorem shiftLeft_one_eq_add (x : BitVec w) : x <<< 1 = x + x := by
  apply BitVec.eq_of_toNat_eq
  rw [BitVec.toNat_shiftLeft, Nat.shiftLeft_eq, BitVec.toNat_add, Nat.pow_one, Nat.mul_two]

/-- The bit that a shift makes room for. -/
theorem shiftLeft_one_or_one (x : BitVec w) : x <<< 1 ||| 1#w = x <<< 1 + 1#w := by
  refine (BitVec.add_eq_or_of_and_eq_zero _ _ ?_).symm
  ext i hi
  cases i with
  | zero => simp
  | succ i => simp [BitVec.getElem_one]

/-- The top bit is set if doubling wraps. -/
theorem msb_iff_le_double (hw : 0 < w) (x : BitVec w) : x.msb ↔ 2 ^ w ≤ x.toNat + x.toNat := by
  have hpow := Nat.two_pow_pred_mul_two hw
  rw [BitVec.msb_eq_decide, decide_eq_true_iff]
  omega

/-- Both words go one bit up, the top bit of the lower one into the upper one: this is the
addition of the number to itself. -/
theorem twoWords_shiftLeft (hw : 0 < w) (hi lo : BitVec w) :
    twoWords (hi <<< 1 ||| if lo.msb then 1#w else 0#w) (lo <<< 1)
      = twoWords hi lo * 2 % (2 ^ w * 2 ^ w) := by
  have hhi : (hi <<< 1 ||| if lo.msb then 1#w else 0#w)
      = if lo.msb then hi + hi + 1#w else hi + hi := by
    split
    · rw [shiftLeft_one_or_one, shiftLeft_one_eq_add]
    · rw [BitVec.or_zero, shiftLeft_one_eq_add]
  rw [hhi, shiftLeft_one_eq_add, twoWords_add _ (msb_iff_le_double hw lo), Nat.mul_two]

/-- The top bit that a shift makes room for. -/
theorem toNat_shiftRight_one_or_top (hw : 0 < w) (x : BitVec w) :
    (x >>> 1 ||| BitVec.twoPow w (w - 1)).toNat = 2 ^ (w - 1) + x.toNat / 2 := by
  have hpow := Nat.two_pow_pred_mul_two hw
  have hlt : x.toNat / 2 < 2 ^ (w - 1) := by
    have := x.isLt
    omega
  rw [BitVec.toNat_or, BitVec.toNat_twoPow, Nat.mod_eq_of_lt (by omega),
    BitVec.toNat_ushiftRight, Nat.shiftRight_eq_div_pow, Nat.pow_one, Nat.or_comm]
  simpa using (Nat.two_pow_add_eq_or_of_lt hlt 1).symm

/-- Both words go one bit down, the low bit of the upper one into the lower one. -/
theorem twoWords_shiftRight (hw : 0 < w) (hi lo : BitVec w) :
    twoWords (hi >>> 1) (lo >>> 1 ||| if hi.getLsbD 0 then BitVec.twoPow w (w - 1) else 0#w)
      = twoWords hi lo / 2 := by
  have hpow : 2 ^ w = 2 * 2 ^ (w - 1) := by rw [Nat.mul_comm, Nat.two_pow_pred_mul_two hw]
  have hlow : (lo >>> 1 ||| if hi.getLsbD 0 then BitVec.twoPow w (w - 1) else 0#w).toNat
      = hi.toNat % 2 * 2 ^ (w - 1) + lo.toNat / 2 := by
    have hbit : hi.getLsbD 0 = decide (hi.toNat % 2 = 1) := by
      rw [BitVec.getLsbD, Nat.testBit_zero]
    rcases Nat.mod_two_eq_zero_or_one hi.toNat with h | h
    · simp [hbit, h, Nat.shiftRight_eq_div_pow]
    · rw [hbit, h, if_pos (decide_eq_true rfl), toNat_shiftRight_one_or_top hw, Nat.one_mul]
  have hsplit : hi.toNat * 2 ^ w = (hi.toNat / 2 * 2 ^ w + hi.toNat % 2 * 2 ^ (w - 1)) * 2 := by
    have hparity := Nat.div_add_mod hi.toNat 2
    calc hi.toNat * 2 ^ w
        = (2 * (hi.toNat / 2) + hi.toNat % 2) * (2 * 2 ^ (w - 1)) := by rw [hparity, hpow]
      _ = (hi.toNat / 2 * (2 * 2 ^ (w - 1)) + hi.toNat % 2 * 2 ^ (w - 1)) * 2 := by ring
      _ = _ := by rw [← hpow]
  unfold twoWords
  rw [hlow, hsplit, BitVec.toNat_ushiftRight, Nat.shiftRight_eq_div_pow, Nat.pow_one]
  omega

end MacKernel
