import Mathlib.Data.List.Pairwise
import Mathlib.Algebra.Order.Ring.Int

/-!
# Three-way comparisons

Comparison functions in the manner of C, whose result is negative, zero or positive,
and lists that are in strictly ascending order for one. Elements that compare equal need
not be the same.
-/

namespace MacKernel

variable {α : Type}

/-- A comparison function that orders its elements linearly up to equality. -/
structure Comparison (cmp : α → α → Int) : Prop where
  swap : ∀ a b, cmp a b < 0 ↔ 0 < cmp b a
  trans : ∀ {a b c}, cmp a b ≤ 0 → cmp b c ≤ 0 → cmp a c ≤ 0

section Comparison

variable {cmp : α → α → Int} (hcmp : Comparison cmp) {a b c : α}

include hcmp

theorem Comparison.self (a : α) : cmp a a = 0 := by
  have := hcmp.swap a a
  omega

theorem Comparison.lt_of_lt_of_le (hab : cmp a b < 0) (hbc : cmp b c ≤ 0) : cmp a c < 0 := by
  by_contra hac
  have hca : cmp c a ≤ 0 := by
    have := hcmp.swap a c
    have := hcmp.swap c a
    omega
  have := hcmp.trans hbc hca
  have := (hcmp.swap a b).mp hab
  omega

theorem Comparison.lt_of_le_of_lt (hab : cmp a b ≤ 0) (hbc : cmp b c < 0) : cmp a c < 0 := by
  by_contra hac
  have hca : cmp c a ≤ 0 := by
    have := hcmp.swap c a
    have := hcmp.swap a c
    omega
  have := hcmp.trans hca hab
  have := (hcmp.swap b c).mp hbc
  omega

theorem Comparison.zero_symm (hab : cmp a b = 0) : cmp b a = 0 := by
  have := hcmp.swap a b
  have := hcmp.swap b a
  omega

theorem Comparison.zero_trans (hab : cmp a b = 0) (hbc : cmp b c = 0) : cmp a c = 0 := by
  have hac := hcmp.trans hab.le hbc.le
  have hca := hcmp.trans (hcmp.zero_symm hbc).le (hcmp.zero_symm hab).le
  have := hcmp.swap a c
  omega

end Comparison

section Ascending

/-- Lists in strictly ascending order. -/
def Ascending (cmp : α → α → Int) (l : List α) : Prop := l.Pairwise fun a b => cmp a b < 0

variable {cmp : α → α → Int} {a : α} {l l₁ l₂ : List α}

theorem Ascending.sublist (h : Ascending cmp l₂) (hl : l₁.Sublist l₂) : Ascending cmp l₁ :=
  List.Pairwise.sublist hl h

theorem Ascending.nodup (hcmp : Comparison cmp) (h : Ascending cmp l) : l.Nodup :=
  h.imp fun hab heq => absurd (heq ▸ hab) (by rw [hcmp.self]; exact lt_irrefl 0)

/-- What precedes and follows an element in an ascending list. -/
theorem ascending_middle : Ascending cmp (l₁ ++ a :: l₂) ↔
    Ascending cmp (l₁ ++ l₂) ∧ (∀ b ∈ l₁, cmp b a < 0) ∧ ∀ b ∈ l₂, cmp a b < 0 := by
  simp only [Ascending, List.pairwise_append, List.pairwise_cons, List.mem_cons]
  constructor
  · rintro ⟨h₁, ⟨ha, h₂⟩, h⟩
    exact ⟨⟨h₁, h₂, fun b hb c hc => h b hb c (.inr hc)⟩, fun b hb => h b hb a (.inl rfl), ha⟩
  · rintro ⟨⟨h₁, h₂, h⟩, hb, ha⟩
    refine ⟨h₁, ⟨ha, h₂⟩, fun b hb' c hc => ?_⟩
    rcases hc with rfl | hc
    · exact hb b hb'
    · exact h b hb' c hc

/-- Equal elements of an ascending list are the same. -/
theorem Ascending.eq_of_equal (hcmp : Comparison cmp) {b : α} (h : Ascending cmp l) (ha : a ∈ l)
    (hb : b ∈ l) (hab : cmp a b = 0) : a = b := by
  induction l with
  | nil => cases ha
  | cons c l ih =>
    obtain ⟨hc, hl⟩ := List.pairwise_cons.mp h
    rcases List.mem_cons.mp ha with rfl | ha' <;> rcases List.mem_cons.mp hb with rfl | hb'
    · rfl
    · exact absurd hab (hc b hb').ne
    · exact absurd (hcmp.zero_symm hab) (hc a ha').ne
    · exact ih hl ha' hb'

end Ascending

end MacKernel
