import MacKernel.Models.Bitmap.Native

/-!
# Bits of words

What the macros and searches on one word compute, in terms of the bits of the word,
and where an index lies in a bitmap.
-/

namespace MacKernel.Bitmap

section Masks

/-- `BIT(b)` is a power of two. -/
theorem toNat_bit {b : Nat} (hb : b < 64) : (bit b).toNat = 2 ^ b := by
  rw [bit, BitVec.toNat_shiftLeft, Nat.shiftLeft_eq, BitVec.toNat_one (by omega), Nat.one_mul]
  exact Nat.mod_eq_of_lt (Nat.pow_lt_pow_right (by omega) hb)

/-- `mask(width)` is one less than a power of two. -/
theorem toNat_mask {width : Nat} (h : width ≤ 64) : (mask width).toNat = 2 ^ width - 1 := by
  unfold mask
  by_cases hw : width ≥ 64
  · rw [if_pos hw, show width = 64 by omega]
    rfl
  · have hpow : 0 < 2 ^ width := Nat.two_pow_pos width
    have hbit := toNat_bit (Nat.not_le.mp hw)
    rw [if_neg hw, BitVec.toNat_sub_of_le, hbit]
    · rfl
    · rw [BitVec.le_def, hbit]
      exact hpow

/-- `mask(width)` has the lower bits set. -/
theorem getLsbD_mask {width : Nat} (h : width ≤ 64) (i : Nat) :
    (mask width).getLsbD i = decide (i < width) := by
  rw [BitVec.getLsbD, toNat_mask h, Nat.testBit_two_pow_sub_one]

/-- `BIT(b)` has one bit set. -/
theorem getLsbD_bit (b i : Nat) : (bit b).getLsbD i = decide (i < 64 ∧ i = b) := by
  rw [bit, BitVec.getLsbD_shiftLeft, BitVec.getLsbD_one]
  by_cases hi : i = b
  · simp [hi]
  · by_cases hlt : i < b
    · simp [hi, hlt]
    · have hne : ¬i - b = 0 := by omega
      simp [hi, hne]

/-- The predecessor of a positive number. -/
theorem toNat_pred {n : BitVec 32} (h : 0 < n.toNat) : (n - 1).toNat = n.toNat - 1 := by
  have hn := n.isLt
  rw [BitVec.toNat_sub]
  simp only [BitVec.ofNat_eq_ofNat, BitVec.toNat_ofNat]
  omega

/-- The word of a bit is found by division. -/
theorem toNat_bits_index (n : BitVec 32) : bitmapIndex n = n.toNat / 64 := by
  have hn := n.isLt
  rw [bitmapIndex, bits, extract, BitVec.toNat_and, toNat_mask (by omega),
    Nat.and_two_pow_sub_one_eq_mod, BitVec.toNat_ushiftRight, Nat.shiftRight_eq_div_pow,
    BitVec.toNat_setWidth]
  omega

/-- The place in the word is the remainder. -/
theorem toNat_bits_bit (n : BitVec 32) : (bits (n.setWidth 64) 5 0).toNat = n.toNat % 64 := by
  have hn := n.isLt
  rw [bits, extract, BitVec.toNat_and, toNat_mask (by omega),
    Nat.and_two_pow_sub_one_eq_mod, BitVec.toNat_ushiftRight, Nat.shiftRight_eq_div_pow,
    BitVec.toNat_setWidth]
  omega

/-- One less than the place in a word, which is -1 at the start of a word. -/
theorem toInt_bits_pred (n : BitVec 32) :
    ((bits (n.setWidth 64) 5 0 - 1).setWidth 32).toInt = ((n.toNat % 64 : Nat) : Int) - 1 := by
  have hbits := toNat_bits_bit n
  have hlt : n.toNat % 64 < 64 := Nat.mod_lt _ (by omega)
  have hsub : ((bits (n.setWidth 64) 5 0 - 1).setWidth 32).toNat =
      (n.toNat % 64 + (2 ^ 32 - 1)) % 2 ^ 32 := by
    rw [BitVec.toNat_setWidth, BitVec.toNat_sub, hbits]
    simp only [BitVec.ofNat_eq_ofNat, BitVec.toNat_ofNat]
    omega
  rw [BitVec.toInt_eq_toNat_cond, hsub]
  split_ifs <;> omega

/-- The place of a bit in its word. -/
theorem bitmapBit_eq (n : BitVec 32) : bitmapBit n = n.toNat % 64 := toNat_bits_bit n

/-- `bit_test` reads one bit. -/
theorem bitTest_eq (x : BitVec 64) {b : Nat} (hb : b < 64) : bitTest x b = x.getLsbD b := by
  have hbits : ∀ i, (x &&& bit b).getLsbD i = (x.getLsbD b && decide (i = b)) := by
    intro i
    rw [BitVec.getLsbD_and, getLsbD_bit]
    by_cases hi : i = b
    · simp [hi, hb]
    · simp [hi]
  unfold bitTest
  cases hx : x.getLsbD b with
  | true =>
    have hne : x &&& bit b ≠ 0 := by
      intro hzero
      have hbit := hbits b
      rw [hzero, hx] at hbit
      simp at hbit
    simpa using hne
  | false =>
    have hzero : x &&& bit b = 0 := by
      apply BitVec.eq_of_getLsbD_eq
      intro i _
      rw [hbits, hx]
      simp
    simp [hzero]

end Masks

section Searches

/-- An index as an `int`. -/
def intIndex (k : Nat) : Int := int k

/-- A bit of a word is numbered behind those of the earlier words. -/
theorem int_shift (i b : Nat) : int ((i <<< 6 : Nat) + (b : Int)) = intIndex (64 * i + b) := by
  rw [intIndex, Nat.shiftLeft_eq, Nat.mul_comm i, ← Int.natCast_add]

/-- What a search returns. -/
def code (r : Option Nat) : Int := (r.map intIndex).getD (-1)

/-- A bit that was found is returned. -/
@[simp] theorem code_some (k : Nat) : code (some k) = intIndex k := by
  rw [code, Option.map_some, Option.getD_some]

@[simp] theorem code_none : code none = -1 := rfl

variable {w : BitVec 64}

/-- `bit_first` of a word finds its highest bit. -/
theorem bitFirst_isLast (hw : w ≠ 0) :
    ∃ b, IsLast w.getLsbD 64 (some b) ∧ bitFirst w = (b : Nat) := by
  have hlt : w.clz.toNat < 64 := by
    have hclz := BitVec.clz_lt_iff_ne_zero.mpr hw
    simpa [BitVec.lt_def] using hclz
  refine ⟨63 - w.clz.toNat, ⟨by omega, ?_, ?_⟩, ?_⟩
  · exact BitVec.getLsbD_true_clz_of_ne_zero (by omega) hw
  · intro i hi _
    have hle : w.toNat < 2 ^ i :=
      BitVec.toNat_lt_two_pow_sub_clz.trans_le (Nat.pow_le_pow_right (by omega) (by omega))
    exact Nat.testBit_lt_two_pow hle
  · rw [bitFirst, if_neg hw]
    omega

/-- `lsb_first` of a word finds its lowest bit. -/
theorem lsbFirst_isNext (hw : w ≠ 0) :
    ∃ b, IsNext w.getLsbD 0 64 (some b) ∧ lsbFirst w = (b : Nat) := by
  have hlt : w.ctz.toNat < 64 := by
    have hctz := BitVec.ctz_lt_iff_ne_zero.mpr hw
    simpa [BitVec.lt_def] using hctz
  refine ⟨w.ctz.toNat, ⟨by omega, hlt, ?_, ?_⟩, ?_⟩
  · exact BitVec.getLsbD_true_ctz_of_ne_zero hw
  · intro i _ hi
    exact BitVec.getLsbD_false_of_lt_ctz hi
  · rw [lsbFirst, ffsll, if_neg hw]
    omega

/-- `bit_first` of an empty word finds nothing. -/
theorem bitFirst_zero : bitFirst 0 = -1 := if_pos rfl

/-- An empty word has no bits. -/
theorem getLsbD_of_eq_zero (hw : w = 0) (i : Nat) : w.getLsbD i = false := by
  rw [hw]
  exact BitVec.getLsbD_zero

/-- The bits below the previous one, or all bits if that is the first of the next word. -/
theorem bitNext_isLast (w : BitVec 64) {b : Nat} (hb : b < 64) :
    ∃ r : Option Nat, IsLast w.getLsbD (if b = 0 then 64 else b) r ∧
      bitNext w b = (r.map Nat.cast).getD (-1) := by
  have hmask : ∀ i < 64, (w &&& if b ≠ 0 then mask b else ~~~0).getLsbD i =
      (w.getLsbD i && decide (i < if b = 0 then 64 else b)) := by
    intro i hi
    rw [BitVec.getLsbD_and]
    by_cases hzero : b = 0
    · rw [if_neg (not_not.mpr hzero), if_pos hzero, BitVec.getLsbD_not, getLsbD_of_eq_zero rfl,
        Bool.not_false, Bool.and_true]
    · rw [if_pos hzero, if_neg hzero, getLsbD_mask hb.le]
  by_cases hw : (w &&& if b ≠ 0 then mask b else ~~~0) = 0
  · refine ⟨none, ?_, ?_⟩
    · intro i hi
      have hi64 : i < 64 := by split_ifs at hi <;> omega
      have hbit := hmask i hi64
      rw [getLsbD_of_eq_zero hw, decide_eq_true hi, Bool.and_true] at hbit
      exact hbit.symm
    · rw [bitNext, hw, bitFirst_zero]
      rfl
  · obtain ⟨k, ⟨hk, hp, hgap⟩, hfirst⟩ := bitFirst_isLast hw
    rw [hmask k hk, Bool.and_eq_true, decide_eq_true_eq] at hp
    refine ⟨some k, ⟨hp.2, hp.1, ?_⟩, hfirst⟩
    intro i hki hi
    have hi64 : i < 64 := by split_ifs at hi <;> omega
    have hbit := hgap i hki hi64
    rwa [hmask i hi64, decide_eq_true hi, Bool.and_true] at hbit

/-- The bits from a given one on. -/
theorem lsbNext_isNext (w : BitVec 64) {b : Nat} (hb : b < 64) :
    ∃ r : Option Nat, IsNext w.getLsbD b 64 r ∧
      lsbNext w ((b : Int) - 1) = (r.map Nat.cast).getD (-1) := by
  have hmask : ∀ i < 64, (w &&& ~~~mask b).getLsbD i = (w.getLsbD i && decide (b ≤ i)) := by
    intro i hi
    rw [BitVec.getLsbD_and, BitVec.getLsbD_not, getLsbD_mask hb.le]
    by_cases hbi : b ≤ i
    · simp [hi, hbi]
    · simp [hbi, Nat.not_le.mp hbi]
  have hwidth : ((b : Int) - 1 + 1).toNat = b := by omega
  rw [lsbNext, hwidth]
  by_cases hw : w &&& ~~~mask b = 0
  · refine ⟨none, ?_, ?_⟩
    · intro i hbi hi
      have hbit := hmask i hi
      rw [getLsbD_of_eq_zero hw, decide_eq_true hbi, Bool.and_true] at hbit
      exact hbit.symm
    · simp only [hw]
      rfl
  · obtain ⟨k, ⟨-, hk, hp, hgap⟩, hfirst⟩ := lsbFirst_isNext hw
    rw [hmask k hk, Bool.and_eq_true, decide_eq_true_eq] at hp
    refine ⟨some k, ⟨hp.2, hk, hp.1, ?_⟩, hfirst⟩
    intro i hbi hi
    have hbit := hgap i (Nat.zero_le i) hi
    rwa [hmask i (by omega), decide_eq_true hbi, Bool.and_true] at hbit

end Searches

end MacKernel.Bitmap
