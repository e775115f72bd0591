import Mathlib.Data.BitVec
import Mathlib.Data.List.Basic

/-!
# The set bits of a word

A word as the list of its set bits in ascending order. The least of them is the number of
trailing zeros, and clearing it leaves the others.
-/

namespace MacKernel

variable {w : Nat}

/-- The set bits of a word, in ascending order. -/
def setBits (x : BitVec w) : List Nat := (List.range w).filter fun i => x.getLsbD i

@[simp] theorem mem_setBits {x : BitVec w} {i : Nat} : i ∈ setBits x ↔ x.getLsbD i = true := by
  rw [setBits, List.mem_filter, List.mem_range]
  exact ⟨fun h => h.2, fun h => ⟨BitVec.lt_of_getLsbD h, h⟩⟩

theorem length_setBits_le (x : BitVec w) : (setBits x).length ≤ w :=
  (List.length_filter_le _ _).trans_eq List.length_range

theorem setBits_zero : setBits (0#w) = [] := by
  rw [setBits, List.filter_eq_nil_iff]
  intro i _
  rw [BitVec.getLsbD_zero]
  exact Bool.false_ne_true

/-- The other bits stay when one is cleared. -/
theorem getLsbD_clear (x : BitVec w) (t i : Nat) :
    (x &&& ~~~(1#w <<< t)).getLsbD i = (x.getLsbD i && decide (i ≠ t)) := by
  by_cases hi : i < w
  · rw [BitVec.getLsbD_and, BitVec.getLsbD_not, BitVec.getLsbD_shiftLeft, BitVec.getLsbD_one]
    by_cases hit : i = t
    · have hw : 0 < w := Nat.zero_lt_of_lt hi
      simp [hit, hw]
    · rcases Nat.lt_or_gt_of_ne hit with hlt | hgt
      · simp [hi, hit, hlt]
      · have hne : i - t ≠ 0 := by omega
        simp [hi, hit, hne]
  · have hge := Nat.le_of_not_lt hi
    rw [BitVec.getLsbD_of_ge _ _ hge, BitVec.getLsbD_of_ge _ _ hge, Bool.false_and]

theorem range_split (t k : Nat) :
    List.range (t + (k + 1)) = List.range t ++ t :: List.range' (t + 1) k := by
  rw [List.range_eq_range', List.range_eq_range', ← List.range'_append_1, Nat.zero_add,
    List.range'_succ]

/-- The least set bit comes first, and the rest are those of the word without it. -/
theorem setBits_of_ne_zero {x : BitVec w} (h : x ≠ 0#w) :
    setBits x = x.ctz.toNat :: setBits (x &&& ~~~(1#w <<< x.ctz.toNat)) := by
  have hbit := BitVec.getLsbD_true_ctz_of_ne_zero h
  have hbelow : ∀ i < x.ctz.toNat, x.getLsbD i = false :=
    fun i hi => BitVec.getLsbD_false_of_lt_ctz hi
  generalize x.ctz.toNat = t at hbit hbelow
  obtain ⟨k, hk⟩ : ∃ k, w = t + (k + 1) :=
    ⟨w - t - 1, by have := BitVec.lt_of_getLsbD hbit; omega⟩
  have hrange : List.range w = List.range t ++ t :: List.range' (t + 1) k := by
    rw [← range_split, ← hk]
  have hfirst : ∀ p : Nat → Bool, (∀ i < t, p i = false) → (List.range t).filter p = [] := by
    intro p hp
    rw [List.filter_eq_nil_iff]
    intro i hi
    rw [hp i (List.mem_range.mp hi)]
    exact Bool.false_ne_true
  have hclear : ∀ i, (x &&& ~~~(1#w <<< t)).getLsbD i = (x.getLsbD i && decide (i ≠ t)) :=
    getLsbD_clear x t
  have hrest : (List.range' (t + 1) k).filter (fun i => (x &&& ~~~(1#w <<< t)).getLsbD i)
      = (List.range' (t + 1) k).filter fun i => x.getLsbD i := by
    refine List.filter_congr fun i hi => ?_
    have hne : i ≠ t := by
      have := (List.mem_range'_1.mp hi).1
      omega
    rw [hclear, decide_eq_true hne, Bool.and_true]
  unfold setBits
  rw [hrange, List.filter_append, List.filter_append, hfirst _ hbelow,
    hfirst _ fun i hi => by rw [hclear, hbelow i hi, Bool.false_and],
    List.filter_cons_of_pos (by simpa using hbit), List.filter_cons_of_neg (by simp [hclear]),
    hrest]
  rfl

end MacKernel
