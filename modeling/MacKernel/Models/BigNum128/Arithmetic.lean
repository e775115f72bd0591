import MacKernel.Core.TwoWords
import MacKernel.Models.BigNum128.Native

/-!
# Arithmetic modulo `2 ^ 128`

Every operator of `U128` that computes a number computes it modulo `2 ^ 128`, with the shifts
taken one bit at a time.
-/

namespace MacKernel.BigNum128.U128

/-- The number that a `U128` holds. -/
def val (u : U128) : Nat := u.hi.toNat * 2 ^ 64 + u.lo.toNat

/-- The value of a number is that of its two words. -/
theorem val_eq_twoWords (u : U128) : u.val = twoWords u.hi u.lo := rfl

/-- A number is made of its two words. -/
theorem val_mk (hi lo : BitVec 64) : val ⟨hi, lo⟩ = twoWords hi lo := rfl

/-- A carry or a borrow changes the upper half only. -/
private theorem ite_mk (c : Prop) [Decidable c] (h₁ h₂ lo : BitVec 64) :
    (if c then U128.mk h₁ lo else U128.mk h₂ lo) = ⟨if c then h₁ else h₂, lo⟩ :=
  (apply_ite (fun hi => U128.mk hi lo) c h₁ h₂).symm

/-- A value has 128 bits. -/
theorem val_lt (u : U128) : u.val < 2 ^ 128 := twoWords_lt u.hi u.lo

/-! ## Sums and differences -/

/-- Addition is exact modulo 2 to the 128th. -/
theorem add_val (A B : U128) : (A.add B).val = (A.val + B.val) % 2 ^ 128 := by
  have hcarry : (B.lo + A.lo < B.lo ∨ B.lo + A.lo < A.lo) ↔ 2 ^ 64 ≤ B.lo.toNat + A.lo.toNat := by
    rw [add_lt_left_iff, add_lt_right_iff, or_self]
  have hsum : A.add B
      = ⟨if B.lo + A.lo < B.lo ∨ B.lo + A.lo < A.lo then B.hi + A.hi + 1#64 else B.hi + A.hi,
          B.lo + A.lo⟩ := ite_mk _ _ _ _
  rw [hsum, val_mk, twoWords_add _ hcarry, Nat.add_comm A.val]
  rfl

/-- `operator+=` is `operator+`. -/
theorem addAssign_eq_add (A B : U128) : A.addAssign B = A.add B := rfl

/-- Subtraction is exact modulo 2 to the 128th. -/
theorem sub_val (A B : U128) : ((A.sub B).val : Int) = ((A.val : Int) - B.val) % 2 ^ 128 := by
  have hdiff : A.sub B
      = ⟨if A.lo < A.lo - B.lo then A.hi - B.hi - 1#64 else A.hi - B.hi, A.lo - B.lo⟩ :=
    ite_mk _ _ _ _
  rw [hdiff, val_mk, twoWords_sub _ (lt_sub_iff A.lo B.lo)]
  rfl

/-- Subtraction of a smaller number does not wrap. -/
theorem sub_val_of_le {A B : U128} (h : B.val ≤ A.val) : (A.sub B).val = A.val - B.val := by
  have hsub := sub_val A B
  have hA := A.val_lt
  rw [Int.emod_eq_of_lt (by omega) (by omega)] at hsub
  omega

/-- `operator++` adds 1 and returns the new value. -/
theorem postIncrement_val (A : U128) :
    A.postIncrement.1.val = (A.val + 1) % 2 ^ 128 ∧ A.postIncrement.2 = A.postIncrement.1 := by
  have hcarry : A.lo + 1#64 = 0#64 ↔ 2 ^ 64 ≤ A.lo.toNat + (1#64).toNat := by
    have hlt := A.lo.isLt
    rw [← BitVec.toNat_inj, BitVec.toNat_add]
    simp only [BitVec.toNat_ofNat]
    omega
  have hnext : A.postIncrement.1
      = ⟨if A.lo + 1#64 = 0#64 then A.hi + 0#64 + 1#64 else A.hi + 0#64, A.lo + 1#64⟩ := by
    simp only [postIncrement, BitVec.add_zero, ite_mk]
  refine ⟨?_, rfl⟩
  rw [hnext, val_mk, twoWords_add _ hcarry]
  rfl

/-- `operator--` takes 1 off and returns the new value. -/
theorem postDecrement_val (A : U128) :
    (A.postDecrement.1.val : Int) = ((A.val : Int) - 1) % 2 ^ 128
      ∧ A.postDecrement.2 = A.postDecrement.1 := by
  have hborrow : 0#64 = A.lo ↔ A.lo < 1#64 := by
    rw [← BitVec.toNat_inj, BitVec.lt_def]
    simp only [BitVec.toNat_ofNat]
    omega
  have hnext : A.postDecrement.1
      = ⟨if 0#64 = A.lo then A.hi - 0#64 - 1#64 else A.hi - 0#64, A.lo - 1#64⟩ := by
    simp only [postDecrement, BitVec.sub_zero, ite_mk]
  refine ⟨?_, rfl⟩
  rw [hnext, val_mk, twoWords_sub _ hborrow]
  rfl

/-! ## Shifts -/

/-- The test of the top bit. -/
private theorem and_msb64 (x : BitVec 64) : x &&& msb64 ≠ 0#64 ↔ x.msb := by
  have htop : msb64 = BitVec.twoPow 64 63 := by decide
  rw [htop, BitVec.and_twoPow, BitVec.msb_eq_getLsbD_last]
  cases x.getLsbD 63 <;> decide

/-- The test of the low bit. -/
private theorem and_one (x : BitVec 64) : x &&& 0x1#64 ≠ 0#64 ↔ x.getLsbD 0 := by
  have hlow : 0x1#64 = BitVec.twoPow 64 0 := by decide
  rw [hlow, BitVec.and_twoPow]
  cases x.getLsbD 0 <;> decide

/-- One pass of `operator<<` doubles. -/
theorem shiftLeftOne_val (u : U128) : u.shiftLeftOne.val = u.val * 2 % 2 ^ 128 := by
  rw [shiftLeftOne, val_mk, val_eq_twoWords]
  simp only [and_msb64]
  exact twoWords_shiftLeft (by decide) u.hi u.lo

/-- One pass of `operator>>` halves. -/
theorem shiftRightOne_val (u : U128) : u.shiftRightOne.val = u.val / 2 := by
  have htop : msb64 = BitVec.twoPow 64 (64 - 1) := by decide
  rw [shiftRightOne, val_mk, val_eq_twoWords, htop]
  simp only [and_one]
  exact twoWords_shiftRight (by decide) u.hi u.lo

/-- The loop of a shift makes as many passes as it is asked for. -/
theorem shiftBody_passes (pass : U128 → U128) (k : Nat) (hk : k < 2 ^ 31) (n : BitVec 32)
    (hn : n.toNat = k) (A : U128) :
    loop (shiftBody pass) (k + 1) (n, A) = .ok (pass^[k] A) := by
  induction k generalizing n A with
  | zero =>
    have hzero : n = 0#32 := BitVec.eq_of_toNat_eq hn
    exact loop_done 0 (if_pos hzero)
  | succ k ih =>
    have hne : n ≠ 0#32 := by
      rintro rfl
      exact absurd hn (Nat.succ_ne_zero k).symm
    have hmin : n ≠ BitVec.intMin 32 := by
      rintro rfl
      rw [BitVec.toNat_intMin] at hn
      omega
    have hpred : (n - 1#32).toNat = k := by
      rw [BitVec.toNat_sub, hn, BitVec.toNat_ofNat]
      omega
    have hbody : shiftBody pass (n, A) = .ok (.inl (n - 1#32, pass A)) := by
      rw [shiftBody, if_neg hne, if_neg hmin]
      rfl
    rw [loop_again (k + 1) hbody, ih (by omega) _ hpred, Function.iterate_succ_apply]

/-- A shift count that is not negative is small. -/
private theorem toNat_lt_of_nonneg {n : BitVec 32} (h : 0 ≤ n.toInt) : n.toNat < 2 ^ 31 := by
  rw [BitVec.toInt_eq_toNat_cond] at h
  split at h <;> omega

/-- The passes of `operator<<` multiply by a power of two. -/
theorem shiftLeftOne_iterate_val (n : Nat) (A : U128) :
    (shiftLeftOne^[n] A).val = A.val * 2 ^ n % 2 ^ 128 := by
  induction n with
  | zero => rw [Function.iterate_zero, id, Nat.pow_zero, Nat.mul_one, Nat.mod_eq_of_lt A.val_lt]
  | succ n ih =>
    rw [Function.iterate_succ_apply', shiftLeftOne_val, ih, Nat.mod_mul_mod, pow_succ 2 n,
      Nat.mul_assoc]

/-- The passes of `operator>>` divide by a power of two. -/
theorem shiftRightOne_iterate_val (n : Nat) (A : U128) :
    (shiftRightOne^[n] A).val = A.val / 2 ^ n := by
  induction n with
  | zero => rw [Function.iterate_zero, id, Nat.pow_zero, Nat.div_one]
  | succ n ih =>
    rw [Function.iterate_succ_apply', shiftRightOne_val, ih, Nat.div_div_eq_div_mul, Nat.pow_succ]

/-- `operator<<` returns, and multiplies modulo 2 to the 128th. -/
theorem shiftLeft_spec (A : U128) {n : BitVec 32} (hn : 0 ≤ n.toInt) :
    ∃ r, A.shiftLeft n = .ok r ∧ r.val = A.val * 2 ^ n.toNat % 2 ^ 128 :=
  ⟨_, shiftBody_passes shiftLeftOne n.toNat (toNat_lt_of_nonneg hn) n rfl A,
    shiftLeftOne_iterate_val n.toNat A⟩

/-- `operator>>` returns, and divides. -/
theorem shiftRight_spec (A : U128) {n : BitVec 32} (hn : 0 ≤ n.toInt) :
    ∃ r, A.shiftRight n = .ok r ∧ r.val = A.val / 2 ^ n.toNat :=
  ⟨_, shiftBody_passes shiftRightOne n.toNat (toNat_lt_of_nonneg hn) n rfl A,
    shiftRightOne_iterate_val n.toNat A⟩

/-! ## All operators -/

/-- The arithmetic of `U128` is arithmetic modulo `2 ^ 128`. -/
theorem arithmetic_mod (A B : U128) :
    (A.add B).val = (A.val + B.val) % 2 ^ 128
      ∧ (A.addAssign B).val = (A.val + B.val) % 2 ^ 128
      ∧ ((A.sub B).val : Int) = ((A.val : Int) - B.val) % 2 ^ 128
      ∧ (B.val ≤ A.val → (A.sub B).val = A.val - B.val)
      ∧ (∀ n : BitVec 32, 0 ≤ n.toInt →
          ∃ r, A.shiftLeft n = .ok r ∧ r.val = A.val * 2 ^ n.toNat % 2 ^ 128)
      ∧ (∀ n : BitVec 32, 0 ≤ n.toInt →
          ∃ r, A.shiftRight n = .ok r ∧ r.val = A.val / 2 ^ n.toNat)
      ∧ A.postIncrement.1.val = (A.val + 1) % 2 ^ 128
      ∧ A.postIncrement.2 = A.postIncrement.1
      ∧ (A.postDecrement.1.val : Int) = ((A.val : Int) - 1) % 2 ^ 128
      ∧ A.postDecrement.2 = A.postDecrement.1 := by
  refine ⟨add_val A B, ?_, sub_val A B, sub_val_of_le, fun n hn => shiftLeft_spec A hn,
    fun n hn => shiftRight_spec A hn, (postIncrement_val A).1, (postIncrement_val A).2,
    (postDecrement_val A).1, (postDecrement_val A).2⟩
  rw [addAssign_eq_add, add_val]

/-- A difference with a borrow, and both shifts across the halves. -/
theorem arithmetic_mod_borrow :
    (sub ⟨1, 5⟩ ⟨0, 7⟩).val = val ⟨1, 5⟩ - val ⟨0, 7⟩
      ∧ (∃ r, shiftLeft ⟨1, 5⟩ 63 = .ok r ∧ r.val = val ⟨1, 5⟩ * 2 ^ 63 % 2 ^ 128)
      ∧ ∃ r, shiftRight ⟨1, 5⟩ 130 = .ok r ∧ r.val = val ⟨1, 5⟩ / 2 ^ 130 := by
  obtain ⟨-, -, -, hsub, hleft, hright, -⟩ := arithmetic_mod ⟨1, 5⟩ ⟨0, 7⟩
  exact ⟨hsub (by decide), hleft 63 (by decide), hright 130 (by decide)⟩

end MacKernel.BigNum128.U128
