import Mathlib.Data.Nat.ModEq
import Mathlib.Data.List.Basic

/-!
# Cyclic index intervals

Positions of a ring with `n` slots are residues of an unbounded position. A
half-open cyclic interval shorter than `n` is exactly the image of an ordinary
interval of unbounded positions, which turns wrap-around reasoning into linear
arithmetic.
-/

namespace MacKernel

/-- Number of forward steps from slot `a` to slot `b` on a ring of `n` slots. -/
def cyclicDist (n a b : Nat) : Nat := if a ≤ b then b - a else n - a + b

/-- Slot `x` lies in the half-open cyclic interval from `a` to `b`. -/
def CyclicMem (n a b x : Nat) : Prop := cyclicDist n a x < cyclicDist n a b

instance (n a b x : Nat) : Decidable (CyclicMem n a b x) :=
  inferInstanceAs (Decidable (_ < _))

theorem cyclicDist_lt {n a b : Nat} (ha : a < n) (hb : b < n) : cyclicDist n a b < n := by
  unfold cyclicDist
  split <;> omega

/-- Residues of positions less than one turn apart are that many steps apart. -/
theorem cyclicDist_mod {n p q : Nat} (hpq : p ≤ q) (hq : q < p + n) :
    cyclicDist n (p % n) (q % n) = q - p := by
  have hn : 0 < n := by omega
  have hp := Nat.mod_lt p hn
  obtain ⟨d, rfl⟩ := Nat.exists_eq_add_of_le hpq
  have hmod : (p + d) % n = if p % n + d < n then p % n + d else p % n + d - n := by
    rw [Nat.add_mod, Nat.mod_eq_of_lt (show d < n by omega)]
    split
    · next h => exact Nat.mod_eq_of_lt h
    · next h => rw [Nat.mod_eq_sub_mod (by omega), Nat.mod_eq_of_lt (by omega)]
  unfold cyclicDist
  rw [hmod]
  split <;> split <;> omega

/-- A residue is reached exactly by the distance measured from another one. -/
theorem add_cyclicDist_mod {n a b : Nat} (ha : a < n) (hb : b < n) :
    (a + cyclicDist n a b) % n = b := by
  unfold cyclicDist
  split
  · rw [Nat.add_sub_of_le ‹_›, Nat.mod_eq_of_lt hb]
  · rw [show a + (n - a + b) = b + n by omega, Nat.add_mod_right, Nat.mod_eq_of_lt hb]

/-- A slot lies fewer than `k ≤ n` steps after a position exactly when one of the
next `k` unbounded positions has it as residue. -/
theorem cyclicDist_lt_iff {n p k x : Nat} (hk : k ≤ n) (hx : x < n) :
    cyclicDist n (p % n) x < k ↔ ∃ y, p ≤ y ∧ y < p + k ∧ y % n = x := by
  have hn : 0 < n := by omega
  constructor
  · intro h
    refine ⟨p + cyclicDist n (p % n) x, by omega, by omega, ?_⟩
    rw [Nat.add_mod, Nat.mod_eq_of_lt (cyclicDist_lt (Nat.mod_lt p hn) hx)]
    exact add_cyclicDist_mod (Nat.mod_lt p hn) hx
  · rintro ⟨y, hpy, hy, rfl⟩
    rw [cyclicDist_mod hpy (by omega)]
    omega

/-- Membership in a cyclic interval shorter than one turn, at unbounded positions. -/
theorem cyclicMem_iff {n p q x : Nat} (hpq : p ≤ q) (hq : q < p + n) (hx : x < n) :
    CyclicMem n (p % n) (q % n) x ↔ ∃ y, p ≤ y ∧ y < q ∧ y % n = x := by
  rw [CyclicMem, cyclicDist_mod hpq hq, cyclicDist_lt_iff (by omega) hx,
    Nat.add_sub_of_le hpq]

/-- Two positions less than one turn apart with one residue are equal. -/
theorem eq_of_mod_eq {n p q : Nat} (h : p % n = q % n) (hpq : p ≤ q) (hq : q < p + n) :
    p = q := by
  have hd := cyclicDist_mod hpq hq
  rw [h] at hd
  simp only [cyclicDist, le_refl, ite_true, Nat.sub_self] at hd
  omega

end MacKernel
