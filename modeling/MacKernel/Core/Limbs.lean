import Mathlib.Algebra.Order.Ring.Nat
import Mathlib.Data.BitVec
import Mathlib.Logic.Function.Basic
import Mathlib.Tactic.Ring

/-!
# Numbers in limbs

The words of a memory from an address on, least significant first, as a number. What
is done to the words is followed bit by bit, and a number in two parts is the sum of
its parts.
-/

namespace MacKernel

variable {w : Nat}

/-- The number in `n` words of a memory. -/
def limbs (m : Nat → BitVec w) (p : Nat) : Nat → Nat
  | 0 => 0
  | n + 1 => (m p).toNat + 2 ^ w * limbs m (p + 1) n

section Values

variable {m m' : Nat → BitVec w} {p p' n : Nat}

theorem limbs_lt (m : Nat → BitVec w) (p n : Nat) : limbs m p n < 2 ^ (w * n) := by
  induction n generalizing p with
  | zero => exact Nat.one_pos
  | succ n ih =>
    have hword := (m p).isLt
    calc (m p).toNat + 2 ^ w * limbs m (p + 1) n
        < 2 ^ w * (limbs m (p + 1) n + 1) := by rw [Nat.mul_succ]; omega
      _ ≤ 2 ^ w * 2 ^ (w * n) := Nat.mul_le_mul_left _ (ih (p + 1))
      _ = 2 ^ (w * (n + 1)) := by rw [Nat.mul_succ, Nat.add_comm, Nat.pow_add]

/-- A number in two parts. -/
theorem limbs_add (m : Nat → BitVec w) (p a b : Nat) :
    limbs m p (a + b) = limbs m p a + 2 ^ (w * a) * limbs m (p + a) b := by
  induction a generalizing p with
  | zero => simp [limbs]
  | succ a ih =>
    rw [Nat.add_right_comm, limbs, limbs, ih, Nat.mul_succ, Nat.pow_add, Nat.add_right_comm p]
    ring_nf

/-- Equal words are equal numbers. -/
theorem limbs_congr (h : ∀ i < n, m (p + i) = m' (p' + i)) : limbs m p n = limbs m' p' n := by
  induction n generalizing p p' with
  | zero => rfl
  | succ n ih =>
    have hfirst := h 0 (Nat.succ_pos n)
    rw [Nat.add_zero, Nat.add_zero] at hfirst
    have hrest : limbs m (p + 1) n = limbs m' (p' + 1) n := by
      apply ih
      intro i hi
      rw [Nat.add_assoc, Nat.add_assoc, Nat.add_comm 1]
      exact h (i + 1) (Nat.succ_lt_succ hi)
    rw [limbs, limbs, hfirst, hrest]

theorem limbs_eq_zero (h : ∀ i < n, m (p + i) = 0) : limbs m p n = 0 := by
  have hzero : limbs m p n = limbs (fun _ => (0 : BitVec w)) p n := limbs_congr h
  rw [hzero]
  clear h hzero
  induction n generalizing p with
  | zero => rfl
  | succ n ih =>
    rw [limbs, ih]
    rfl

end Values

section Bits

variable {m m' : Nat → BitVec w} {p p' n : Nat}

/-- A bit of a number is a bit of one of its words. -/
theorem testBit_limbs (hw : 0 < w) (m : Nat → BitVec w) (p n k : Nat) :
    (limbs m p n).testBit k = (decide (k < w * n) && (m (p + k / w)).getLsbD (k % w)) := by
  induction n generalizing p k with
  | zero => simp [limbs]
  | succ n ih =>
    rw [limbs, Nat.add_comm, Nat.testBit_two_pow_mul_add _ (m p).isLt]
    split
    · next hk =>
      have hin : k < w * (n + 1) := by rw [Nat.mul_succ]; omega
      rw [Nat.div_eq_of_lt hk, Nat.mod_eq_of_lt hk, decide_eq_true hin, Bool.true_and,
        BitVec.testBit_toNat, Nat.add_zero]
    · next hk =>
      obtain ⟨j, rfl⟩ := Nat.exists_eq_add_of_le (Nat.le_of_not_lt hk)
      have hin : w + j < w * (n + 1) ↔ j < w * n := by rw [Nat.mul_succ]; omega
      rw [Nat.add_sub_cancel_left, ih, Nat.add_div_left j hw, Nat.add_mod_left,
        decide_eq_decide.mpr hin, Nat.add_assoc, Nat.add_comm 1]

/-- A word that is stored shows in its own bits. -/
theorem testBit_limbs_update (hw : 0 < w) (m : Nat → BitVec w) (p n i k : Nat) (x : BitVec w) :
    (limbs (Function.update m (p + i) x) p n).testBit k =
      if k / w = i then decide (k < w * n) && x.getLsbD (k % w)
      else (limbs m p n).testBit k := by
  rw [testBit_limbs hw, testBit_limbs hw, Function.update_apply]
  split
  · next h =>
    obtain rfl := Nat.add_left_cancel h
    rw [if_pos rfl]
  · next h =>
    have hne : k / w ≠ i := fun h' => h (congrArg (p + ·) h')
    rw [if_neg hne]

/-- Numbers are combined bit by bit as their words are. -/
theorem limbs_xor (hw : 0 < w) {m₁ m₂ : Nat → BitVec w} {p₁ p₂ : Nat}
    (h : ∀ i < n, m (p + i) = m₁ (p₁ + i) ^^^ m₂ (p₂ + i)) :
    limbs m p n = limbs m₁ p₁ n ^^^ limbs m₂ p₂ n := by
  apply Nat.eq_of_testBit_eq
  intro k
  rw [Nat.testBit_xor, testBit_limbs hw, testBit_limbs hw, testBit_limbs hw]
  by_cases hk : k < w * n
  · have hi : k / w < n := Nat.div_lt_of_lt_mul hk
    rw [h _ hi, BitVec.getLsbD_xor]
    simp only [hk, decide_true, Bool.true_and]
  · simp only [hk, decide_false, Bool.false_and, Bool.xor_false]

end Bits

end MacKernel
