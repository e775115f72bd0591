import MacKernel.Core.LongDivision
import MacKernel.Models.Arith64.Native

/-!
# The quotient and remainder of the 64-bit routines

The leading zeroes of the operands give a number of bits between 1 and 63. The loop
then keeps the state of a long division, with the dividend bits that are left at the
top of one register and the quotient bits, one pass late, at its bottom. Each quotient
bit is the sign of a wrapping difference; that sign is right because a divisor with the
top bit set takes a single pass, in which it fits.
-/

namespace MacKernel.Arith64

section LeadingZeroes

variable {a x : BitVec 64} {n : Nat}

/-- The bits under a mask of high bits are clear exactly below the lowest of them. -/
private theorem and_highMask_eq_zero {w : Nat} (x : BitVec w) (i : Nat) :
    x &&& (BitVec.allOnes w <<< i) = 0 ↔ x.toNat < 2 ^ i := by
  constructor
  · intro h
    refine Nat.lt_pow_two_of_testBit _ fun j hj => ?_
    have hbit : (x &&& (BitVec.allOnes w <<< i)).getLsbD j = (0 : BitVec w).getLsbD j := by
      rw [h]
    by_cases hlt : j < w
    · change x.getLsbD j = false
      have hin : j - i < w := by omega
      simpa [hlt, hin, Nat.not_lt.mpr hj] using hbit
    · exact x.getLsbD_of_ge j (Nat.le_of_not_lt hlt)
  · intro h
    ext j hj
    by_cases hij : j < i
    · simp [hij]
    · have hclear : x.getLsbD j = false := by
        rw [BitVec.getLsbD, Nat.testBit_lt_two_pow (h.trans_le (Nat.pow_le_pow_right (by decide)
          (Nat.le_of_not_lt hij)))]
      simp [← BitVec.getLsbD_eq_getElem, hclear]

/-- So far `n` zeroes are counted and shifted out, and the leading one is among the top
`2 * h` bits. -/
structure Counted (a : BitVec 64) (h : Nat) (s : Nat × BitVec 64) : Prop where
  shifted : s.2.toNat = a.toNat * 2 ^ s.1
  leading : 2 ^ (64 - h) ≤ s.2.toNat

/-- One line of the count halves the bits in which the leading one is. -/
theorem Counted.step {s : Nat × BitVec 64} {k : Nat} (h : Counted a (2 * 2 ^ k) s)
    (mask : BitVec 64) (hk : 2 * 2 ^ k ≤ 64)
    (hmask : mask = BitVec.allOnes 64 <<< (64 - 2 ^ k)) :
    Counted a (2 ^ k) (clzStep mask k s) := by
  have hzero := and_highMask_eq_zero s.2 (64 - 2 ^ k)
  rw [← hmask] at hzero
  by_cases hlow : s.2 &&& mask = 0
  · have hlt := hzero.mp hlow
    have hpow : 2 ^ (64 - 2 ^ k) * 2 ^ 2 ^ k = 2 ^ 64 := by
      rw [← Nat.pow_add]
      congr 1
      omega
    have hfits : s.2.toNat * 2 ^ 2 ^ k < 2 ^ 64 := by
      rw [← hpow]
      exact Nat.mul_lt_mul_of_pos_right hlt (Nat.two_pow_pos _)
    have hstep : clzStep mask k s = (s.1 + 2 ^ k, s.2 <<< 2 ^ k) := by
      simp [clzStep, hlow, Nat.shiftLeft_eq]
    have hval : (s.2 <<< 2 ^ k).toNat = s.2.toNat * 2 ^ 2 ^ k := by
      rw [BitVec.toNat_shiftLeft, Nat.shiftLeft_eq, Nat.mod_eq_of_lt hfits]
    rw [hstep]
    constructor
    · rw [hval, h.shifted, Nat.pow_add, Nat.mul_assoc]
    · rw [hval]
      calc 2 ^ (64 - 2 ^ k) = 2 ^ (64 - 2 * 2 ^ k) * 2 ^ 2 ^ k := by
            rw [← Nat.pow_add]
            congr 1
            omega
        _ ≤ s.2.toNat * 2 ^ 2 ^ k := Nat.mul_le_mul_right _ h.leading
  · have hstep : clzStep mask k s = s := by
      simp only [clzStep, if_neg hlow, Nat.zero_shiftLeft, Nat.add_zero, BitVec.shiftLeft_zero]
    rw [hstep]
    exact ⟨h.shifted, Nat.le_of_not_lt fun hlt => hlow (hzero.mpr hlt)⟩

/-- Shifted by the count, the leading one of a number is the top bit. -/
theorem clzdi2_spec (ha : a ≠ 0) :
    2 ^ 63 ≤ a.toNat * 2 ^ clzdi2 a ∧ a.toNat * 2 ^ clzdi2 a < 2 ^ 64 := by
  have hpos : 0 < a.toNat := Nat.pos_of_ne_zero fun hz => ha (BitVec.eq_of_toNat_eq hz)
  have h6 : Counted a (2 * 2 ^ 5) (0, a) := ⟨by simp, hpos⟩
  have h5 := h6.step 0xffffffff00000000 (by decide) (by decide)
  have h4 := h5.step (k := 4) 0xffff000000000000 (by decide) (by decide)
  have h3 := h4.step (k := 3) 0xff00000000000000 (by decide) (by decide)
  have h2 := h3.step (k := 2) 0xf000000000000000 (by decide) (by decide)
  have h1 := h2.step (k := 1) 0xc000000000000000 (by decide) (by decide)
  unfold clzdi2
  dsimp only
  generalize clzStep 0xc000000000000000 1 _ = s at h1
  have hlt := s.2.isLt
  have hlead := h1.leading
  have hzero : s.2 &&& 0x8000000000000000 = 0 ↔ s.2.toNat < 2 ^ 63 :=
    and_highMask_eq_zero s.2 63
  split
  · next hlow =>
    have hlow := hzero.mp hlow
    have hdouble : a.toNat * 2 ^ (s.1 + 1) = s.2.toNat * 2 := by
      rw [Nat.pow_succ, ← Nat.mul_assoc, ← h1.shifted]
    rw [hdouble]
    omega
  · next hhigh =>
    have hge := mt hzero.mpr hhigh
    rw [Nat.add_zero, ← h1.shifted]
    omega

end LeadingZeroes

section Bits

variable {a b : BitVec 64}

/-- A divisor that is not zero is positive. -/
private theorem toNat_pos (hb : b ≠ 0) : 0 < b.toNat :=
  Nat.pos_of_ne_zero fun hz => hb (BitVec.eq_of_toNat_eq hz)

/-- The larger number has no more leading zeroes. -/
theorem clzdi2_le (hb : b ≠ 0) (hle : b.toNat ≤ a.toNat) : clzdi2 a ≤ clzdi2 b := by
  have ha : a ≠ 0 := by
    rintro rfl
    exact absurd (toNat_pos hb) (Nat.not_lt.mpr hle)
  obtain ⟨-, ha⟩ := clzdi2_spec ha
  obtain ⟨hb, -⟩ := clzdi2_spec hb
  by_contra hlt
  have htop : 2 ^ 64 ≤ a.toNat * 2 ^ clzdi2 a :=
    calc 2 ^ 64 = 2 ^ 63 * 2 := rfl
      _ ≤ b.toNat * 2 ^ clzdi2 b * 2 := Nat.mul_le_mul_right 2 hb
      _ = b.toNat * 2 ^ (clzdi2 b + 1) := by rw [Nat.pow_succ, Nat.mul_assoc]
      _ ≤ a.toNat * 2 ^ clzdi2 a :=
        Nat.mul_le_mul hle (Nat.pow_le_pow_right (by decide) (by omega))
  omega

/-- A number from two on has a bit besides the lowest. -/
theorem clzdi2_le_62 (hb : 2 ≤ b.toNat) : clzdi2 b ≤ 62 := by
  have hne : b ≠ 0 := by
    rintro rfl
    exact absurd hb (by decide)
  obtain ⟨-, hlt⟩ := clzdi2_spec hne
  by_contra hge
  have htop : 2 * 2 ^ 63 ≤ b.toNat * 2 ^ clzdi2 b :=
    Nat.mul_le_mul hb (Nat.pow_le_pow_right (by decide) (by omega))
  omega

/-- The number of passes is between 1 and 63, and the bits of the dividend above them are
less than the divisor. -/
theorem divBits_spec (hb : 2 ≤ b.toNat) (hle : b.toNat ≤ a.toNat) :
    ∃ n : Nat, divBits a b = n ∧ 1 ≤ n ∧ n ≤ 63 ∧ n = clzdi2 b - clzdi2 a + 1 ∧
      a.toNat / 2 ^ n < b.toNat := by
  have hne : b ≠ 0 := by
    rintro rfl
    exact absurd hb (by decide)
  have hane : a ≠ 0 := by
    rintro rfl
    exact absurd (hb.trans hle) (by decide)
  have hclz := clzdi2_le hne hle
  have h62 := clzdi2_le_62 hb
  obtain ⟨-, ha⟩ := clzdi2_spec hane
  obtain ⟨hb, -⟩ := clzdi2_spec hne
  refine ⟨clzdi2 b - clzdi2 a + 1, ?_, by omega, by omega, rfl, ?_⟩
  · rw [divBits, Int.bmod_eq_of_le (by omega) (by omega)]
    omega
  · rw [Nat.div_lt_iff_lt_mul (Nat.two_pow_pos _)]
    refine Nat.lt_of_mul_lt_mul_right (a := 2 ^ clzdi2 a) ?_
    calc a.toNat * 2 ^ clzdi2 a < 2 ^ 63 * 2 := ha
      _ ≤ b.toNat * 2 ^ clzdi2 b * 2 := Nat.mul_le_mul_right 2 hb
      _ = b.toNat * 2 ^ (clzdi2 b - clzdi2 a + 1) * 2 ^ clzdi2 a := by
        rw [Nat.mul_assoc, Nat.mul_assoc, ← Nat.pow_succ, ← Nat.pow_add]
        congr 2
        omega

end Bits

section Loop

variable {num den x y : BitVec 64} {left quot : Nat} {s : DivState}

/-- Shifting in a bit at the bottom. -/
private theorem toNat_shiftIn (x : BitVec 64) {y : BitVec 64} (hy : y.toNat < 2) :
    ((x <<< 1) ||| y).toNat = 2 * x.toNat % 2 ^ 64 + y.toNat := by
  have heven : 2 * x.toNat % 2 ^ 64 = 2 ^ 1 * (x.toNat % 2 ^ 63) := by omega
  rw [BitVec.toNat_or, BitVec.toNat_shiftLeft, Nat.shiftLeft_eq, Nat.pow_one, Nat.mul_comm,
    heven, Nat.two_pow_add_eq_or_of_lt (by omega)]

/-- The top bit of a word as a number. -/
private theorem toNat_topBit (x : BitVec 64) : (x >>> 63).toNat = x.toNat / 2 ^ 63 := by
  rw [BitVec.toNat_ushiftRight, Nat.shiftRight_eq_div_pow]

/-- The arithmetic shift by 63 spreads the sign. -/
theorem sshiftRight_63 (x : BitVec 64) :
    x.sshiftRight 63 = if 2 ^ 63 ≤ x.toNat then BitVec.allOnes 64 else 0#64 := by
  have hmsb : x.msb = decide (2 ^ 63 ≤ x.toNat) := BitVec.msb_eq_decide x
  ext i hi
  rw [BitVec.getElem_sshiftRight]
  have hbit : (if h : 63 + i < 64 then x[63 + i] else x.msb) = x.msb := by
    split
    · next h =>
      obtain rfl : i = 0 := by omega
      rw [BitVec.msb_eq_getLsbD_last, BitVec.getLsbD_eq_getElem]
    · rfl
  rw [hbit, hmsb]
  split
  · next h => rw [decide_eq_true h, BitVec.getElem_allOnes]
  · next h =>
    rw [decide_eq_false h]
    exact (BitVec.getElem_zero hi).symm

/-- The sign of `b - rem - 1` when the remainder is less than twice the divisor and the
divisor fits or has its top bit clear. -/
theorem wrap_eq {b : BitVec 64} (rem : BitVec 64) (hrem : rem.toNat < 2 * b.toNat)
    (htop : b.toNat < 2 ^ 63 ∨ b.toNat ≤ rem.toNat) :
    (b - rem - 1).sshiftRight 63 = if b.toNat ≤ rem.toNat then BitVec.allOnes 64 else 0#64 := by
  rw [sshiftRight_63]
  have hb := b.isLt
  have hr := rem.isLt
  have hval : (b - rem - 1).toNat =
      if b.toNat ≤ rem.toNat then 2 ^ 64 + b.toNat - rem.toNat - 1
      else b.toNat - rem.toNat - 1 := by
    split <;> bv_omega
  rw [hval]
  by_cases hle : b.toNat ≤ rem.toNat
  · rw [if_pos hle, if_pos hle, if_pos (by omega)]
  · rw [if_neg hle, if_neg hle, if_neg (by omega)]

/-- The registers of the loop with `left` bits of the dividend to go: these bits stand at the
top of `a`, and the quotient at its bottom, up to its last bit, which is in `wrap`. -/
structure Divides (num den : BitVec 64) (left : Nat) (s : DivState) (quot : Nat) : Prop where
  bits : s.bits = left
  left_le : left ≤ 63
  division : LongDivision num.toNat den.toNat left s.rem.toNat quot
  register : s.a.toNat = num.toNat % 2 ^ left * 2 ^ (64 - left) + quot / 2
  late : (s.wrap &&& 1).toNat = quot % 2
  top : den.toNat < 2 ^ 63 ∨ left ≤ 1 ∧ den.toNat ≤ num.toNat

/-- The quotient so far leaves the bits of the dividend free. -/
theorem Divides.quot_lt (h : Divides num den left s quot) : quot < 2 ^ (64 - left) := by
  have hle := h.left_le
  refine lt_of_le_of_lt h.division.quot_le ?_
  rw [Nat.div_lt_iff_lt_mul (Nat.two_pow_pos _), ← Nat.pow_add, Nat.sub_add_cancel (by omega)]
  exact num.isLt

/-- The top bit of the register is the next bit of the dividend. -/
theorem Divides.topBit (h : Divides num den (left + 1) s quot) :
    (s.a >>> 63).toNat = num.toNat / 2 ^ left % 2 := by
  have hle := h.left_le
  have hsmall := (Nat.div_le_self quot 2).trans_lt h.quot_lt
  have hsplit : 2 ^ 63 = 2 ^ (64 - (left + 1)) * 2 ^ left := by
    rw [← Nat.pow_add]
    congr 1
    omega
  rw [toNat_topBit, h.register, hsplit, ← Nat.div_div_eq_div_mul, Nat.mul_comm (_ % _),
    Nat.mul_add_div (Nat.two_pow_pos _), Nat.div_eq_of_lt hsmall, Nat.add_zero, Nat.pow_succ,
    Nat.mod_mul_right_div_self]

/-- Shifting the register moves the next bits of the dividend to the top and completes the
quotient so far at the bottom. -/
theorem Divides.shifted (h : Divides num den (left + 1) s quot) :
    ((s.a <<< 1) ||| (s.wrap &&& 1)).toNat = num.toNat % 2 ^ left * 2 ^ (64 - left) + quot := by
  have hle := h.left_le
  have hquot := h.quot_lt
  have hlate := h.late
  have hpow : 2 ^ (64 - left) = 2 * 2 ^ (64 - (left + 1)) := by
    rw [← Nat.pow_succ']
    congr 1
    omega
  have hsplit : 2 ^ 64 = 2 ^ (64 - left) * 2 ^ left := by
    rw [← Nat.pow_add]
    congr 1
    omega
  have hdouble : 2 * s.a.toNat =
      2 ^ (64 - left) * (num.toNat % 2 ^ (left + 1)) + 2 * (quot / 2) := by
    rw [h.register, hpow]
    ring
  have hmod : 2 * s.a.toNat % 2 ^ 64 =
      2 ^ (64 - left) * (num.toNat % 2 ^ left) + 2 * (quot / 2) := by
    have hsmall : 2 * (quot / 2) < 2 ^ (64 - left) := by omega
    have hlow : num.toNat % 2 ^ (left + 1) % 2 ^ left = num.toNat % 2 ^ left := by
      rw [Nat.pow_succ, Nat.mod_mul_right_mod]
    rw [hdouble, hsplit, Nat.mod_mul, Nat.mul_add_mod, Nat.mod_eq_of_lt hsmall,
      Nat.mul_add_div (Nat.two_pow_pos _), Nat.div_eq_of_lt hsmall, Nat.add_zero, hlow,
      Nat.add_comm]
  rw [toNat_shiftIn _ (by omega), hmod, hlate, Nat.mul_comm (2 ^ (64 - left))]
  omega

/-- The remainder has its top bit clear, so shifting it loses nothing. -/
theorem Divides.rem_lt (h : Divides num den (left + 1) s quot) : s.rem.toNat < 2 ^ 63 := by
  have hrem := h.division.rem_lt
  rcases h.top with hsmall | ⟨hone, -⟩
  · omega
  · obtain rfl : left = 0 := by omega
    have hvalue := h.division.value
    have hnum := num.isLt
    have hle : s.rem.toNat ≤ num.toNat / 2 ^ 1 := by rw [hvalue]; exact Nat.le_add_left _ _
    omega

/-- A divisor with its top bit set fits in the only pass there is. -/
theorem Divides.fits (h : Divides num den (left + 1) s quot) :
    den.toNat < 2 ^ 63 ∨ den.toNat ≤ 2 * s.rem.toNat + num.toNat / 2 ^ left % 2 := by
  by_cases hsmall : den.toNat < 2 ^ 63
  · exact .inl hsmall
  · right
    obtain ⟨hone, hle⟩ := h.top.resolve_left hsmall
    obtain rfl : left = 0 := by omega
    have hquot : quot = 0 := by
      by_contra hne
      have hmul : den.toNat ≤ quot * den.toNat :=
        Nat.le_mul_of_pos_left _ (Nat.pos_of_ne_zero hne)
      have hvalue := h.division.value
      have hnum := num.isLt
      omega
    have hvalue := h.division.value_next
    rw [hquot, Nat.mul_zero, Nat.zero_mul, Nat.zero_add, Nat.pow_zero, Nat.div_one] at hvalue
    rw [Nat.pow_zero, Nat.div_one]
    omega

/-- One pass keeps the registers. -/
theorem Divides.step (h : Divides num den (left + 1) s quot) :
    ∃ s' quot', divBody den s = .ok (.inl s') ∧ Divides num den left s' quot' := by
  have hbits : s.bits > 0 := by rw [h.bits]; omega
  have hle := h.left_le
  have htop : den.toNat < 2 ^ 63 ∨ left ≤ 1 ∧ den.toNat ≤ num.toNat :=
    h.top.imp_right fun hone => ⟨by omega, hone.2⟩
  have hbit := h.topBit
  have hshift := h.shifted
  have hrem : ((s.rem <<< 1) ||| (s.a >>> 63)).toNat =
      2 * s.rem.toNat + num.toNat / 2 ^ left % 2 := by
    have hlt := h.rem_lt
    rw [toNat_shiftIn _ (by omega), hbit]
    omega
  have hlt := h.division.rem_lt
  have hwrap := wrap_eq (b := den) ((s.rem <<< 1) ||| (s.a >>> 63))
    (by rw [hrem]; omega) (by rw [hrem]; exact h.fits)
  rw [hrem] at hwrap
  have hbody : divBody den s = .ok (.inl ⟨s.bits - 1, _, _, _⟩) := if_pos hbits
  rw [hwrap] at hbody
  by_cases hfits : den.toNat ≤ 2 * s.rem.toNat + num.toNat / 2 ^ left % 2
  · rw [if_pos hfits, BitVec.and_allOnes] at hbody
    refine ⟨_, 2 * quot + 1, hbody, ?_, by omega, ?_, ?_, ?_, htop⟩
    · simp only [h.bits]
      omega
    · rw [BitVec.toNat_sub_of_le (by rw [BitVec.le_def, hrem]; exact hfits), hrem]
      exact h.division.subtract hfits
    · simp only [hshift]
      omega
    · simp only
      rw [Nat.mul_add_mod]
      decide
  · rw [if_neg hfits, BitVec.and_zero, BitVec.sub_zero] at hbody
    refine ⟨_, 2 * quot, hbody, ?_, by omega, ?_, ?_, ?_, htop⟩
    · simp only [h.bits]
      omega
    · simp only [hrem]
      exact h.division.skip (by omega)
    · simp only [hshift]
      omega
    · simp only
      rw [Nat.mul_mod_right]
      decide

/-- After the last pass the registers hold the quotient, up to its last bit, and the
remainder. -/
theorem Divides.finish (h : Divides num den 0 s quot) :
    (s.a <<< 1) ||| (s.wrap &&& 1) = num / den ∧ s.rem = num % den := by
  obtain ⟨hquot, hrem⟩ := h.division.finish
  have hregister : s.a.toNat = quot / 2 := by
    rw [h.register, Nat.pow_zero, Nat.mod_one, Nat.zero_mul, Nat.zero_add]
  have hlate := h.late
  have hlt : quot < 2 ^ 64 := h.quot_lt
  constructor
  · apply BitVec.eq_of_toNat_eq
    rw [toNat_shiftIn _ (by omega), hregister, hlate, BitVec.toNat_udiv, ← hquot]
    omega
  · apply BitVec.eq_of_toNat_eq
    rw [BitVec.toNat_umod, hrem]

/-- The loop ends with the registers of a finished division. -/
theorem loop_divBody (h : Divides num den left s quot) :
    ∃ s', loop (divBody den) (2 ^ 8) s = .ok s' ∧
      (s'.a <<< 1) ||| (s'.wrap &&& 1) = num / den ∧ s'.rem = num % den := by
  refine loop_spec (fun left s => ∃ quot, Divides num den left s quot) _ ?_ ⟨quot, h⟩
    (h.left_le.trans_lt (by decide))
  rintro left s ⟨quot, h⟩
  cases left with
  | zero =>
    right
    have hbits : ¬ s.bits > 0 := by rw [h.bits]; decide
    exact ⟨{ s with bits := s.bits - 1 }, if_neg hbits, h.finish⟩
  | succ left =>
    left
    obtain ⟨s', quot', hbody, h'⟩ := h.step
    exact ⟨s', left, Nat.lt_succ_self left, hbody, quot', h'⟩

/-- The registers before the first pass. -/
theorem Divides.start {a b : BitVec 64} {n : Nat} (hn : 1 ≤ n) (hn' : n ≤ 63)
    (hlt : a.toNat / 2 ^ n < b.toNat)
    (htop : b.toNat < 2 ^ 63 ∨ n ≤ 1 ∧ b.toNat ≤ a.toNat) :
    Divides a b n ⟨n, a >>> n, a <<< (64 - n), 0⟩ 0 where
  bits := rfl
  left_le := hn'
  division := by
    rw [BitVec.toNat_ushiftRight, Nat.shiftRight_eq_div_pow]
    exact .start hlt
  register := by
    have hsplit : 2 ^ 64 = 2 ^ n * 2 ^ (64 - n) := by
      rw [← Nat.pow_add]
      congr 1
      omega
    rw [BitVec.toNat_shiftLeft, Nat.shiftLeft_eq, hsplit, Nat.mul_mod_mul_right]
    rfl
  late := by simp
  top := htop

/-- The long division is exact where no fast path applies. -/
theorem longDivide_eq {a b : BitVec 64} (hb : 2 ≤ b.toNat) (hle : b.toNat ≤ a.toNat) (c : Bool) :
    longDivide a b c = .ok (a / b, store c (a % b)) := by
  obtain ⟨n, hbits, hn, hn', hclz, hlt⟩ := divBits_spec hb hle
  have htop : b.toNat < 2 ^ 63 ∨ n ≤ 1 ∧ b.toNat ≤ a.toNat := by
    by_cases hsmall : b.toNat < 2 ^ 63
    · exact .inl hsmall
    · -- no leading zero, so one pass
      have hne : b ≠ 0 := by
        rintro rfl
        exact absurd hb (by decide)
      obtain ⟨-, hspec⟩ := clzdi2_spec hne
      have hzero : clzdi2 b = 0 := by
        by_contra hpos
        have htwo : b.toNat * 2 ≤ b.toNat * 2 ^ clzdi2 b :=
          Nat.mul_le_mul_left _ (Nat.le_self_pow hpos 2)
        omega
      exact .inr ⟨by omega, hle⟩
  have hright : shiftRight a (divBits a b) = .ok (a >>> n) := by
    rw [hbits, shiftRight, if_pos (by omega), Int.toNat_natCast]
  have hleft : shiftLeft a (64 - divBits a b) = .ok (a <<< (64 - n)) := by
    rw [hbits, shiftLeft, if_pos (by omega)]
    congr 2
    omega
  obtain ⟨s, hs, hquot, hrem⟩ := loop_divBody (.start hn hn' hlt htop)
  simp only [longDivide, hright, hleft, ok_bind]
  rw [hbits, hs, ok_bind, hquot, hrem]
  rfl

end Loop

section Unsigned

variable {a b : BitVec 64}

/-- The high word is zero exactly when the low word is the number. -/
theorem arith64Hi_eq_zero (n : BitVec 64) : arith64Hi n = 0 ↔ n.toNat < 2 ^ 32 := by
  have hn := n.isLt
  have hval : (arith64Hi n).toNat = n.toNat / 2 ^ 32 := by
    rw [arith64Hi, BitVec.toNat_setWidth, BitVec.toNat_ushiftRight, Nat.shiftRight_eq_div_pow]
    omega
  constructor
  · intro h
    have hzero : n.toNat / 2 ^ 32 = 0 := by rw [← hval, h]; rfl
    omega
  · intro h
    apply BitVec.eq_of_toNat_eq
    rw [hval, Nat.div_eq_of_lt h]
    rfl

/-- A small number is its lower half. -/
private theorem toNat_arith64Lo {n : BitVec 64} (h : n.toNat < 2 ^ 32) :
    (arith64Lo n).toNat = n.toNat := by
  rw [arith64Lo, BitVec.toNat_setWidth, Nat.mod_eq_of_lt h]

/-- On numbers of 32 bits the 32-bit operators give the 64-bit results. -/
theorem lo_div_mod (ha : a.toNat < 2 ^ 32) (hb : b.toNat < 2 ^ 32) :
    (arith64Lo a / arith64Lo b).setWidth 64 = a / b ∧
      (arith64Lo a % arith64Lo b).setWidth 64 = a % b := by
  have hdiv := Nat.div_le_self a.toNat b.toNat
  have hmod := Nat.mod_le a.toNat b.toNat
  constructor
  · apply BitVec.eq_of_toNat_eq
    rw [BitVec.toNat_setWidth, BitVec.toNat_udiv, BitVec.toNat_udiv, toNat_arith64Lo ha,
      toNat_arith64Lo hb]
    exact Nat.mod_eq_of_lt (by omega)
  · apply BitVec.eq_of_toNat_eq
    rw [BitVec.toNat_setWidth, BitVec.toNat_umod, BitVec.toNat_umod, toNat_arith64Lo ha,
      toNat_arith64Lo hb]
    exact Nat.mod_eq_of_lt (by omega)

/-- A divisor that is left to the long division is at least two. -/
theorem two_le_of_ne (h0 : b ≠ 0) (h1 : b ≠ 1) : 2 ≤ b.toNat := by
  have hpos := toNat_pos h0
  have hone : b.toNat ≠ 1 := fun h => h1 (BitVec.eq_of_toNat_eq h)
  omega

/-- `__divmoddi4` divides, on every path. -/
theorem divmoddi4_eq (a : BitVec 64) (hb : b ≠ 0) (c : Bool) :
    divmoddi4 a b c = .ok (a / b, store c (a % b)) := by
  unfold divmoddi4
  split
  · next hgt =>
    have hgt : a.toNat < b.toNat := hgt
    have hdiv : a / b = 0 := by
      apply BitVec.eq_of_toNat_eq
      rw [BitVec.toNat_udiv, Nat.div_eq_of_lt hgt]
      rfl
    have hmod : a % b = a := by
      apply BitVec.eq_of_toNat_eq
      rw [BitVec.toNat_umod, Nat.mod_eq_of_lt hgt]
    rw [hdiv, hmod]
    rfl
  next hle =>
  have hle : b.toNat ≤ a.toNat := Nat.le_of_not_lt hle
  split
  · next hhi =>
    split
    · next hone =>
      have hdiv : a / b = a := hone ▸ BitVec.udiv_one
      have hmod : a % b = 0 := hone ▸ BitVec.umod_one
      rw [hdiv, hmod]
      rfl
    next hone =>
    split
    · next hhi' =>
      obtain ⟨hdiv, hmod⟩ :=
        lo_div_mod ((arith64Hi_eq_zero a).mp hhi') ((arith64Hi_eq_zero b).mp hhi)
      rw [hdiv, hmod]
      rfl
    · exact longDivide_eq (two_le_of_ne hb hone) hle c
  · next hhi =>
    have hlarge := mt (arith64Hi_eq_zero b).mpr hhi
    exact longDivide_eq (by omega) hle c

/-- `__udivdi3` is the quotient. -/
theorem udivdi3_eq (a : BitVec 64) (hb : b ≠ 0) : udivdi3 a b = .ok (a / b) := by
  rw [udivdi3, divmoddi4_eq a hb]
  rfl

/-- `__umoddi3` is the remainder. -/
theorem umoddi3_eq (a : BitVec 64) (hb : b ≠ 0) : umoddi3 a b = .ok (a % b) := by
  rw [umoddi3, divmoddi4_eq a hb]
  rfl

end Unsigned

section Signed

variable {a b : BitVec 64}

/-- Inverting and incrementing negates, and the second operand decides. -/
theorem arith64Neg_eq (a b : BitVec 64) : arith64Neg a b = if b.msb then -a else a := by
  have hmsb : b.msb = decide (b.toInt < 0) := BitVec.msb_eq_toInt
  rw [arith64Neg, hmsb]
  by_cases hneg : b.toInt < 0
  · have hones : BitVec.ofInt 64 (0 - 1) = BitVec.allOnes 64 := by decide
    rw [if_neg (not_le.mpr hneg), if_pos hneg, if_pos (decide_eq_true hneg), hones,
      BitVec.xor_allOnes, BitVec.neg_eq_not_add]
    rfl
  · have hzero : BitVec.ofInt 64 (1 - 1) = 0#64 := by decide
    rw [if_pos (not_lt.mp hneg), if_neg hneg, if_neg (by simpa using hneg), hzero,
      BitVec.xor_zero]
    exact BitVec.add_zero a

/-- The amount of a divisor is not zero. -/
theorem arith64Abs_ne_zero (hb : b ≠ 0) : arith64Abs b ≠ 0 := by
  rw [arith64Abs, arith64Neg_eq]
  split
  · intro hneg
    exact hb (BitVec.neg_eq_zero_iff.mp hneg)
  · exact hb

/-- `__divdi3` is the signed quotient. -/
theorem divdi3_eq (a : BitVec 64) (hb : b ≠ 0) : divdi3 a b = .ok (a.sdiv b) := by
  simp only [divdi3, divmoddi4_eq _ (arith64Abs_ne_zero hb), ok_bind]
  refine congrArg Except.ok ?_
  rw [arith64Abs, arith64Abs, arith64Neg_eq, arith64Neg_eq, arith64Neg_eq, BitVec.msb_xor,
    BitVec.sdiv_eq]
  cases a.msb <;> cases b.msb <;> rfl

/-- `__moddi3` is the signed remainder. -/
theorem moddi3_eq (a : BitVec 64) (hb : b ≠ 0) : moddi3 a b = .ok (a.srem b) := by
  simp only [moddi3, divmoddi4_eq _ (arith64Abs_ne_zero hb), ok_bind, store, if_true, deref_some]
  refine congrArg Except.ok ?_
  rw [arith64Abs, arith64Abs, arith64Neg_eq, arith64Neg_eq, arith64Neg_eq, BitVec.srem_eq]
  cases a.msb <;> cases b.msb <;> rfl

/-- The division routines return, with shifts by 1 to 63 bits, the quotient and remainder of
the unsigned operands and those of truncating division of the signed ones. -/
theorem division_correct (a b : BitVec 64) (hb : b ≠ 0) :
    (∃ q r, (∀ c, divmoddi4 a b c = .ok (q, if c then some r else none)) ∧
      udivdi3 a b = .ok q ∧ umoddi3 a b = .ok r ∧
      a.toNat = q.toNat * b.toNat + r.toNat ∧ r.toNat < b.toNat) ∧
    (b ≤ a → (arith64Hi b = 0 → b ≠ 1 ∧ arith64Hi a ≠ 0) →
      1 ≤ divBits a b ∧ divBits a b ≤ 63 ∧ 1 ≤ 64 - divBits a b ∧ 64 - divBits a b ≤ 63) ∧
    divdi3 a b = .ok (BitVec.ofInt 64 (a.toInt.tdiv b.toInt)) ∧
    moddi3 a b = .ok (BitVec.ofInt 64 (a.toInt.tmod b.toInt)) := by
  refine ⟨⟨a / b, a % b, divmoddi4_eq a hb, udivdi3_eq a hb, umoddi3_eq a hb, ?_, ?_⟩, ?_, ?_, ?_⟩
  · rw [BitVec.toNat_udiv, BitVec.toNat_umod, Nat.mul_comm]
    exact (Nat.div_add_mod _ _).symm
  · rw [BitVec.toNat_umod]
    exact Nat.mod_lt _ (toNat_pos hb)
  · intro hle hpath
    have hne : b ≠ 1 := by
      rintro rfl
      exact (hpath (by decide)).1 rfl
    obtain ⟨n, hbits, hn, hn', -⟩ := divBits_spec (two_le_of_ne hb hne) hle
    rw [hbits]
    omega
  · rw [divdi3_eq a hb]
    refine congrArg Except.ok (BitVec.eq_of_toInt_eq ?_)
    rw [BitVec.toInt_sdiv, BitVec.toInt_ofInt]
  · rw [moddi3_eq a hb, ← BitVec.toInt_srem, BitVec.ofInt_toInt]

/-- `LLONG_MIN` by a divisor of more than 32 bits, which takes the long division, and by -1. -/
theorem division_correct_min :
    (∃ q r, (∀ c, divmoddi4 0x8000000000000000 0x300000007 c =
        .ok (q, if c then some r else none)) ∧
      2 ^ 63 = q.toNat * 0x300000007 + r.toNat ∧ r.toNat < 0x300000007) ∧
    1 ≤ divBits 0x8000000000000000 0x300000007 ∧ divBits 0x8000000000000000 0x300000007 ≤ 63 ∧
    divdi3 0x8000000000000000 0x300000007 = .ok (-0x2aaaaaaa) ∧
    moddi3 0x8000000000000000 0x300000007 = .ok (-0xd555555a) ∧
    divdi3 0x8000000000000000 (-1) = .ok 0x8000000000000000 ∧
    moddi3 0x8000000000000000 (-1) = .ok 0 := by
  obtain ⟨⟨q, r, hq, -, -, hsum, hlt⟩, hbits, hdiv, hmod⟩ :=
    division_correct 0x8000000000000000 0x300000007 (by decide)
  obtain ⟨hlo, hhi, -⟩ := hbits (by decide) fun h => absurd h (by decide)
  obtain ⟨-, -, hdiv', hmod'⟩ := division_correct 0x8000000000000000 (-1) (by decide)
  exact ⟨⟨q, r, hq, hsum, hlt⟩, hlo, hhi, hdiv.trans (by decide), hmod.trans (by decide),
    hdiv'.trans (by decide), hmod'.trans (by decide)⟩

end Signed

end MacKernel.Arith64
