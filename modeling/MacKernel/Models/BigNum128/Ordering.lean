import MacKernel.Models.BigNum128.Arithmetic

/-!
# The order of `U128`

Both comparisons put their operand where the object should stand: `A > B` is true when `A` is
the smaller number, and `A < B`, its complement, when it is not. Only `==` is right.
-/

namespace MacKernel.BigNum128.U128

theorem eq_iff (A B : U128) : A.eq B ↔ A.val = B.val := by
  rw [eq, decide_eq_true_iff, ← twoWords_inj]
  exact eq_comm

theorem gt_iff_val_lt (A B : U128) : A.gt B ↔ A.val < B.val := by
  rw [gt, decide_eq_true_iff, val_eq_twoWords, val_eq_twoWords, twoWords_lt_twoWords]
  simp only [gt_iff_lt, eq_comm]

theorem lt_iff_not_gt (A B : U128) : A.lt B ↔ ¬ A.gt B := by
  rw [lt, gt, decide_eq_true_iff, decide_eq_true_iff]

theorem lt_iff_val_le (A B : U128) : A.lt B ↔ B.val ≤ A.val := by
  rw [lt_iff_not_gt, gt_iff_val_lt, Nat.not_lt]

/-- What the comparisons of two numbers promise: they agree with the order of the values, so
that exactly one of them holds, and `>` is the condition of an exact difference. -/
structure Ordered (A B : U128) : Prop where
  lt_iff : A.lt B ↔ A.val < B.val
  gt_iff : A.gt B ↔ A.val > B.val
  eq_iff : A.eq B ↔ A.val = B.val
  one_of_three : (A.lt B ∧ ¬ A.eq B ∧ ¬ A.gt B) ∨ (¬ A.lt B ∧ A.eq B ∧ ¬ A.gt B)
    ∨ (¬ A.lt B ∧ ¬ A.eq B ∧ A.gt B)
  irrefl : ¬ A.lt A
  trans : ∀ C : U128, A.lt B → B.lt C → A.lt C
  sub_exact : A.gt B → (A.sub B).val + B.val = A.val

/-- There is no pair of numbers that is compared as promised. -/
theorem not_ordered (A B : U128) : ¬ Ordered A B := by
  intro h
  have hlt := h.lt_iff
  rw [lt_iff_val_le] at hlt
  omega

/-- 0 and 1 are compared the wrong way round. -/
theorem not_ordered_zero_one :
    lt ⟨0, 0⟩ ⟨0, 1⟩ = false ∧ gt ⟨0, 0⟩ ⟨0, 1⟩ = true ∧ (sub ⟨0, 0⟩ ⟨0, 1⟩).val = 2 ^ 128 - 1
      ∧ ¬ Ordered ⟨0, 0⟩ ⟨0, 1⟩ := by
  refine ⟨by decide, by decide, by decide, ?_⟩
  intro h
  exact absurd (h.gt_iff.1 (by decide)) (by decide)

end MacKernel.BigNum128.U128
