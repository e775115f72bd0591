import Mathlib.Data.Nat.Bits
import Mathlib.Tactic.Ring

/-!
# Binary long division

The state of a long division that has brought down all but the last bits of the
dividend: the quotient so far and a remainder below the divisor. Each further bit is
brought down into the remainder, and the divisor is taken off when it fits.
-/

namespace MacKernel

/-- The division of `a` by `b` with `left` bits of `a` still to be brought down. -/
structure LongDivision (a b left rem quot : Nat) : Prop where
  rem_lt : rem < b
  value : a / 2 ^ left = quot * b + rem

namespace LongDivision

variable {a b left rem quot : Nat}

/-- A dividend of which so few bits are brought down that the divisor does not fit. -/
theorem start (h : a / 2 ^ left < b) : LongDivision a b left (a / 2 ^ left) 0 where
  rem_lt := h
  value := by rw [Nat.zero_mul, Nat.zero_add]

/-- One more bit of the dividend. -/
theorem value_next (h : LongDivision a b (left + 1) rem quot) :
    a / 2 ^ left = 2 * quot * b + (2 * rem + a / 2 ^ left % 2) := by
  have hdiv : a / 2 ^ (left + 1) = a / 2 ^ left / 2 := by
    rw [Nat.pow_succ, Nat.div_div_eq_div_mul]
  have hvalue := h.value
  rw [hdiv] at hvalue
  calc a / 2 ^ left
      = 2 * (a / 2 ^ left / 2) + a / 2 ^ left % 2 := (Nat.div_add_mod _ 2).symm
    _ = 2 * (quot * b + rem) + a / 2 ^ left % 2 := by rw [hvalue]
    _ = 2 * quot * b + (2 * rem + a / 2 ^ left % 2) := by ring

/-- The divisor does not fit into the remainder with the next bit. -/
theorem skip (h : LongDivision a b (left + 1) rem quot)
    (hlt : 2 * rem + a / 2 ^ left % 2 < b) :
    LongDivision a b left (2 * rem + a / 2 ^ left % 2) (2 * quot) where
  rem_lt := hlt
  value := h.value_next

/-- The divisor is taken off the remainder with the next bit. -/
theorem subtract (h : LongDivision a b (left + 1) rem quot)
    (hle : b ≤ 2 * rem + a / 2 ^ left % 2) :
    LongDivision a b left (2 * rem + a / 2 ^ left % 2 - b) (2 * quot + 1) where
  rem_lt := by
    have := h.rem_lt
    omega
  value := by
    obtain ⟨d, hd⟩ := Nat.exists_eq_add_of_le hle
    rw [hd, Nat.add_sub_cancel_left]
    calc a / 2 ^ left
        = 2 * quot * b + (2 * rem + a / 2 ^ left % 2) := h.value_next
      _ = 2 * quot * b + (b + d) := by rw [hd]
      _ = (2 * quot + 1) * b + d := by ring

/-- The quotient is no longer than the bits that were brought down. -/
theorem quot_le (h : LongDivision a b left rem quot) : quot ≤ a / 2 ^ left := by
  rw [h.value]
  exact (Nat.le_mul_of_pos_right quot (Nat.zero_lt_of_lt h.rem_lt)).trans (Nat.le_add_right _ _)

/-- All bits are brought down. -/
theorem finish (h : LongDivision a b 0 rem quot) : quot = a / b ∧ rem = a % b := by
  have hvalue : a = quot * b + rem := by simpa using h.value
  have hpos : 0 < b := Nat.zero_lt_of_lt h.rem_lt
  rw [hvalue, Nat.mul_comm quot b, Nat.mul_add_div hpos, Nat.mul_add_mod,
    Nat.div_eq_of_lt h.rem_lt, Nat.mod_eq_of_lt h.rem_lt]
  exact ⟨rfl, rfl⟩

end LongDivision

end MacKernel
