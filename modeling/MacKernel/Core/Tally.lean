import Mathlib.Algebra.BigOperators.Group.Finset.Basic
import Mathlib.Data.Fintype.BigOperators
import Mathlib.Data.Set.Card

/-!
# Counting where a function takes a value

Reference counts are compared with the number of holders of a reference, that is
with the number of arguments at which a function takes a value. One holder changes
at a time, or two holders exchange what they hold, and both leave simple equations
between the counts. Where the holders are not bounded, the set of them is counted.
-/

namespace MacKernel

section Tally

variable {ι V : Type*} [Fintype ι] [DecidableEq V]

/-- The number of arguments at which a function takes a value. -/
def tally (f : ι → V) (v : V) : Nat := (Finset.univ.filter fun i => f i = v).card

/-- A tally is a sum of ones. -/
theorem tally_eq_sum (f : ι → V) (v : V) : tally f v = ∑ i, if f i = v then 1 else 0 :=
  Finset.card_filter _ _

/-- A tally is 0 if no index has the value. -/
theorem tally_eq_zero_iff {f : ι → V} {v : V} : tally f v = 0 ↔ ∀ i, f i ≠ v := by
  simp [tally, Finset.filter_eq_empty_iff]

/-- An index with the value counts. -/
theorem tally_pos {f : ι → V} {v : V} {i : ι} (h : f i = v) : 0 < tally f v :=
  Nat.pos_of_ne_zero fun hz => tally_eq_zero_iff.mp hz i h

/-- A value that comes with another counts no more. -/
theorem tally_le {W : Type*} [DecidableEq W] {f : ι → V} {g : ι → W} {v : V} {w : W}
    (h : ∀ i, f i = v → g i = w) : tally f v ≤ tally g w := by
  apply Finset.card_le_card
  intro i hi
  rw [Finset.mem_filter] at hi ⊢
  exact ⟨hi.1, h i hi.2⟩

variable [DecidableEq ι]

/-- A tally with one index told apart. -/
theorem tally_eq_add_sum_erase (f : ι → V) (v : V) (i : ι) : tally f v =
    (if f i = v then 1 else 0) + ∑ j ∈ Finset.univ.erase i, if f j = v then 1 else 0 := by
  rw [tally_eq_sum]
  exact (Finset.add_sum_erase _ (fun j => if f j = v then 1 else 0) (Finset.mem_univ i)).symm

/-- Changing one value moves one unit from the old value to the new one. -/
theorem tally_update (f : ι → V) (i : ι) (w v : V) :
    tally (Function.update f i w) v + (if f i = v then 1 else 0) =
      tally f v + if w = v then 1 else 0 := by
  have hrest : ∀ j ∈ Finset.univ.erase i,
      (if Function.update f i w j = v then 1 else 0) = if f j = v then 1 else 0 := by
    intro j hj
    rw [Function.update_of_ne (Finset.ne_of_mem_erase hj)]
  rw [tally_eq_add_sum_erase _ v i, tally_eq_add_sum_erase f v i, Finset.sum_congr rfl hrest,
    Function.update_self]
  omega

/-- Giving up a reference. -/
theorem tally_update_none {f : ι → Option V} {i : ι} {v : V} (h : f i = some v) (w : V) :
    tally (Function.update f i none) (some w) + (if w = v then 1 else 0) = tally f (some w) := by
  have htally := tally_update f i none (some w)
  simpa [h, eq_comm] using htally

/-- Taking a reference. -/
theorem tally_update_some {f : ι → Option V} {i : ι} (h : f i = none) (v w : V) :
    tally (Function.update f i (some v)) (some w) = tally f (some w) + if w = v then 1 else 0 := by
  have htally := tally_update f i (some v) (some w)
  simpa [h, eq_comm] using htally

omit [DecidableEq ι] in
/-- Renaming the arguments does not change a count. -/
theorem tally_comp (f : ι → V) (e : ι ≃ ι) (v : V) : tally (f ∘ e) v = tally f v := by
  rw [tally_eq_sum, tally_eq_sum]
  exact Equiv.sum_comp e fun i => if f i = v then 1 else 0

end Tally

section Holders

variable {ι V : Type*} [DecidableEq ι]

/-- The arguments at which a function takes a value. -/
def holders (f : ι → V) (v : V) : Set ι := {i | f i = v}

omit [DecidableEq ι] in
/-- The holders of a value are the indices that have it. -/
theorem mem_holders {f : ι → V} {v : V} {i : ι} : i ∈ holders f v ↔ f i = v := Iff.rfl

/-- An index that neither had nor gets the value leaves its holders. -/
theorem holders_update_of_ne {f : ι → V} {i : ι} {v w : V} (hold : f i ≠ v) (hnew : w ≠ v) :
    holders (Function.update f i w) v = holders f v := by
  ext j
  rw [mem_holders, mem_holders]
  by_cases hj : j = i
  · subst hj
    simp [hold, hnew]
  · simp [hj]

/-- An index that gets the value is one of its holders. -/
theorem holders_update_self {f : ι → V} (i : ι) (v : V) :
    holders (Function.update f i v) v = insert i (holders f v) := by
  ext j
  rw [Set.mem_insert_iff, mem_holders, mem_holders]
  by_cases hj : j = i
  · simp [hj]
  · simp [hj]

/-- Taking a reference. -/
theorem encard_holders_update_some [DecidableEq V] {f : ι → Option V} {i : ι} (h : f i = none)
    (v w : V) : (holders (Function.update f i (some v)) (some w)).encard =
      (holders f (some w)).encard + if w = v then 1 else 0 := by
  have hnot : f i ≠ some w := by
    rw [h]
    exact nofun
  split
  · next hw =>
    subst hw
    rw [holders_update_self]
    exact Set.encard_insert_of_notMem (mem_holders.not.mpr hnot)
  · next hw =>
    rw [holders_update_of_ne hnot fun heq => hw (Option.some.inj heq).symm, add_zero]

/-- Giving up a reference. -/
theorem encard_holders_update_none [DecidableEq V] {f : ι → Option V} {i : ι} {v : V}
    (h : f i = some v) (w : V) :
    (holders (Function.update f i none) (some w)).encard + (if w = v then 1 else 0) =
      (holders f (some w)).encard := by
  have hback : Function.update (Function.update f i none) i (some v) = f := by
    rw [Function.update_idem, ← h, Function.update_eq_self]
  rw [← encard_holders_update_some (Function.update_self i none f) v w, hback]

/-- The same amount on both sides is left out, without end or not. -/
theorem add_ite_cancel {m n : ENat} {p : Prop} [Decidable p]
    (h : m + (if p then 1 else 0) = n + if p then 1 else 0) : m = n := by
  have hne : (if p then 1 else 0 : ENat) ≠ ⊤ := by
    split
    · exact ENat.one_ne_top
    · exact ENat.zero_ne_top
  exact ENat.add_left_injective_of_ne_top hne h

end Holders

section Exchange

variable {ι V : Type*} [DecidableEq ι]

/-- Three stores through a temporary exchange two values, or leave the one there is. -/
theorem update_update_swap (f : ι → V) (i j : ι) :
    Function.update (Function.update f i (f j)) j (f i) = f ∘ Equiv.swap i j := by
  funext k
  by_cases hj : k = j
  · subst hj
    simp
  · by_cases hi : k = i
    · subst hi
      simp [hj]
    · simp [hi, hj, Equiv.swap_apply_of_ne_of_ne]

end Exchange

end MacKernel
