import Mathlib.Data.Int.ModEq
import Mathlib.Algebra.Order.Ring.Int

/-!
# Integer types

A type of integers of a given width, signed or not: the numbers that fit in it, and the one
of them that a number is reduced to, which has the residue of the number.
-/

namespace MacKernel

/-- An integer type of the language. -/
structure IntegerType where
  signed : Bool
  width : Nat
  width_pos : 0 < width

namespace IntegerType

variable (t : IntegerType)

/-- The number of values of the type. -/
def size : Int := 2 ^ t.width

/-- The least value of the type. -/
def lower : Int := if t.signed then -2 ^ (t.width - 1) else 0

/-- The number after the greatest value of the type. -/
def upper : Int := if t.signed then 2 ^ (t.width - 1) else 2 ^ t.width

/-- The number is a value of the type. -/
def Fits (v : Int) : Prop := t.lower ≤ v ∧ v < t.upper

instance instDecidableFits (v : Int) : Decidable (t.Fits v) := inferInstanceAs (Decidable (_ ∧ _))

/-- The value of the type with the residue of the number. -/
def wrap (v : Int) : Int := t.lower + (v - t.lower) % t.size

theorem size_pos : 0 < t.size := Int.pow_pos (by decide)

theorem upper_eq : t.upper = t.lower + t.size := by
  have hpow : (2 : Int) ^ t.width = 2 ^ (t.width - 1) * 2 := by
    rw [← pow_succ, Nat.sub_add_cancel t.width_pos]
  unfold upper lower size
  split
  · omega
  · rw [Int.zero_add]

theorem lower_nonpos : t.lower ≤ 0 := by
  have hpow : (0 : Int) ≤ 2 ^ (t.width - 1) := Int.pow_nonneg (by decide)
  unfold lower
  split <;> omega

theorem wrap_fits (v : Int) : t.Fits (t.wrap v) := by
  have hnonneg := Int.emod_nonneg (v - t.lower) (Int.ne_of_gt t.size_pos)
  have hlt := Int.emod_lt_of_pos (v - t.lower) t.size_pos
  have hupper := t.upper_eq
  unfold Fits wrap
  omega

theorem wrap_modEq (v : Int) : Int.ModEq t.size (t.wrap v) v := by
  have hmod : Int.ModEq t.size (t.lower + (v - t.lower) % t.size) (t.lower + (v - t.lower)) :=
    (Int.mod_modEq _ _).add_left t.lower
  rwa [add_sub_cancel] at hmod

variable {t}

theorem wrap_of_fits {v : Int} (h : t.Fits v) : t.wrap v = v := by
  have hupper := t.upper_eq
  obtain ⟨hlower, hlt⟩ := h
  unfold wrap
  rw [Int.emod_eq_of_lt (by omega) (by omega)]
  omega

/-- Between a value that is not negative and one that does not fit there is none that fits. -/
theorem Fits.of_le {u v : Int} (h : t.Fits v) (hu : 0 ≤ u) (hle : u ≤ v) : t.Fits u :=
  ⟨t.lower_nonpos.trans hu, Int.lt_of_le_of_lt hle h.2⟩

end IntegerType

end MacKernel
