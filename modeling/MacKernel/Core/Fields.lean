import Mathlib.Data.BitVec

/-!
# Fields of object images

The bytes of an object as one bit vector, least significant byte first. A field is
a range of its bits; stores to different fields commute, and a copy of whole words
moves every field that it covers.
-/

namespace MacKernel

variable {n len : Nat}

/-- A range of `len` bits in an image of `n` bits. -/
structure Field (n len : Nat) where
  off : Nat
  fits : off + len ≤ n

namespace Field

/-- Read a field. -/
def get (f : Field n len) (x : BitVec n) : BitVec len := x.extractLsb' f.off len

/-- Store to a field. -/
def set (f : Field n len) (v : BitVec len) (x : BitVec n) : BitVec n :=
  (x &&& ~~~((BitVec.allOnes len).setWidth n <<< f.off)) ||| (v.setWidth n <<< f.off)

/-- Two fields share no bit. -/
def Disjoint {len' : Nat} (f : Field n len) (g : Field n len') : Prop :=
  f.off + len ≤ g.off ∨ g.off + len' ≤ f.off

instance {len' : Nat} (f : Field n len) (g : Field n len') : Decidable (f.Disjoint g) :=
  inferInstanceAs (Decidable (_ ∨ _))

theorem getLsbD_get (f : Field n len) (x : BitVec n) (i : Nat) :
    (f.get x).getLsbD i = (decide (i < len) && x.getLsbD (f.off + i)) := by
  rw [get, BitVec.getLsbD_extractLsb']

theorem getLsbD_set (f : Field n len) (v : BitVec len) (x : BitVec n) (i : Nat) :
    (f.set v x).getLsbD i =
      if f.off ≤ i ∧ i < f.off + len then v.getLsbD (i - f.off) else x.getLsbD i := by
  have hfits := f.fits
  by_cases hi : i < n
  · simp only [set, BitVec.getLsbD_or, BitVec.getLsbD_and, BitVec.getLsbD_not, hi,
      BitVec.getLsbD_shiftLeft, BitVec.getLsbD_setWidth, BitVec.getLsbD_allOnes, decide_true,
      Bool.true_and]
    by_cases hlo : f.off ≤ i
    · have hsub : i - f.off < n := by omega
      by_cases hhi : i < f.off + len
      · have hlen : i - f.off < len := by omega
        simp [hlo, hhi, hsub, hlen, Nat.not_lt.mpr hlo]
      · have hlen : ¬i - f.off < len := by omega
        simp [hlo, hhi, hsub, hlen, BitVec.getLsbD_of_ge v _ (Nat.not_lt.mp hlen)]
    · simp [hlo, Nat.lt_of_not_le hlo]
  · have hout : ¬i < f.off + len := by omega
    simp [hout, BitVec.getLsbD_of_ge _ i (Nat.not_lt.mp hi)]

@[simp] theorem get_set_self (f : Field n len) (v : BitVec len) (x : BitVec n) :
    f.get (f.set v x) = v := by
  apply BitVec.eq_of_getLsbD_eq
  intro i hi
  rw [getLsbD_get, getLsbD_set, if_pos ⟨Nat.le_add_right _ _, Nat.add_lt_add_left hi _⟩]
  simp [hi]

/-- A store does not change the fields that it is disjoint from. -/
theorem get_set_of_disjoint {len' : Nat} {f : Field n len} {g : Field n len'}
    (h : f.Disjoint g) (v : BitVec len') (x : BitVec n) : f.get (g.set v x) = f.get x := by
  apply BitVec.eq_of_getLsbD_eq
  intro i hi
  have hout : ¬(g.off ≤ f.off + i ∧ f.off + i < g.off + len') := by
    rcases h with h | h <;> omega
  rw [getLsbD_get, getLsbD_get, getLsbD_set, if_neg hout]

/-- Storing the value that a field already has changes nothing. -/
theorem set_get_self (f : Field n len) (x : BitVec n) : f.set (f.get x) x = x := by
  apply BitVec.eq_of_getLsbD_eq
  intro i hi
  rw [getLsbD_set]
  split
  · next h =>
    have hlen : i - f.off < len := by omega
    rw [getLsbD_get, Nat.add_sub_of_le h.1, decide_eq_true hlen, Bool.true_and]
  · rfl

@[simp] theorem get_zero (f : Field n len) : f.get 0 = 0 := by
  apply BitVec.eq_of_getLsbD_eq
  intro i _
  rw [getLsbD_get]
  simp

/-- The first bits of a field are a field. -/
theorem get_of_off_eq {len' : Nat} {f : Field n len} {g : Field n len'} (hoff : g.off = f.off)
    (hlen : len' ≤ len) (x : BitVec n) : g.get x = (f.get x).setWidth len' := by
  apply BitVec.eq_of_getLsbD_eq
  intro i hi
  have hi' : i < len := by omega
  rw [BitVec.getLsbD_setWidth, getLsbD_get, getLsbD_get, hoff]
  simp [hi, hi']

/-- Storing the first bits of a field that was clear. -/
theorem get_set_of_off_eq {len' : Nat} {f : Field n len} {g : Field n len'}
    (hoff : g.off = f.off) (v : BitVec len') {x : BitVec n}
    (hzero : f.get x = 0) : f.get (g.set v x) = v.setWidth len := by
  apply BitVec.eq_of_getLsbD_eq
  intro i hi
  rw [getLsbD_get, getLsbD_set, BitVec.getLsbD_setWidth, hoff, Nat.add_sub_cancel_left]
  by_cases hi' : i < len'
  · rw [if_pos ⟨Nat.le_add_right _ _, by omega⟩]
  · have hout : v.getLsbD i = false := v.getLsbD_of_ge i (Nat.le_of_not_lt hi')
    rw [if_neg (by omega), hout, Bool.and_false, ← getLsbD_get, hzero]
    exact BitVec.getLsbD_zero

/-- Images with the same field have the same bits there. -/
theorem getLsbD_eq_of_get_eq {f : Field n len} {x y : BitVec n} (h : f.get x = f.get y) {i : Nat}
    (hlo : f.off ≤ i) (hhi : i < f.off + len) : x.getLsbD i = y.getLsbD i := by
  have hbit := congrArg (fun v : BitVec len => v.getLsbD (i - f.off)) h
  have hlen : i - f.off < len := by omega
  simpa only [getLsbD_get, Nat.add_sub_of_le hlo, hlen, decide_true, Bool.true_and] using hbit

end Field

section Flags

variable {f c d : BitVec n}

/-- Setting flags shows in them. -/
theorem or_flag_and_self : (f ||| c) &&& c = c := by
  apply BitVec.eq_of_getLsbD_eq
  intro i _
  simp only [BitVec.getLsbD_and, BitVec.getLsbD_or]
  cases f.getLsbD i <;> cases c.getLsbD i <;> rfl

/-- Setting flags does not show in others. -/
theorem or_flag_and_of_disjoint (h : c &&& d = 0) : (f ||| c) &&& d = f &&& d := by
  rw [BitVec.and_or_distrib_right, h]
  exact BitVec.or_zero

/-- Cleared flags are clear. -/
theorem clear_flag_and_self : (f &&& ~~~c) &&& c = 0 := by
  rw [BitVec.and_assoc, BitVec.and_comm (~~~c), BitVec.and_not_self]
  exact BitVec.and_zero

/-- Clearing flags does not show in others. -/
theorem clear_flag_and_of_disjoint (h : c &&& d = 0) : (f &&& ~~~c) &&& d = f &&& d := by
  apply BitVec.eq_of_getLsbD_eq
  intro i hi
  have hbit : (c &&& d).getLsbD i = false := by rw [h]; exact BitVec.getLsbD_zero
  simp only [BitVec.getLsbD_and, BitVec.getLsbD_not, hi, decide_true, Bool.true_and] at hbit ⊢
  revert hbit
  cases f.getLsbD i <;> cases c.getLsbD i <;> cases d.getLsbD i <;> decide

end Flags

section Words

/-- Copy the first `k` 64-bit words of one image over another. -/
def copyWords : Nat → BitVec n → BitVec n → BitVec n
  | 0, _, dst => dst
  | k + 1, src, dst =>
    if h : 64 * k + 64 ≤ n then
      (⟨64 * k, h⟩ : Field n 64).set ((⟨64 * k, h⟩ : Field n 64).get src) (copyWords k src dst)
    else copyWords k src dst

theorem getLsbD_copyWords {k : Nat} (hk : 64 * k ≤ n) (src dst : BitVec n) (i : Nat) :
    (copyWords k src dst).getLsbD i = if i < 64 * k then src.getLsbD i else dst.getLsbD i := by
  induction k with
  | zero => simp [copyWords]
  | succ k ih =>
    rw [copyWords, dif_pos (by omega), Field.getLsbD_set, Field.getLsbD_get, ih (by omega)]
    split
    · next h =>
      change 64 * k ≤ i ∧ i < 64 * k + 64 at h
      have hlo : i - 64 * k < 64 := by omega
      rw [if_pos (by omega), Nat.add_sub_of_le h.1, decide_eq_true hlo, Bool.true_and]
    · next h =>
      change ¬(64 * k ≤ i ∧ i < 64 * k + 64) at h
      have hiff : i < 64 * k ↔ i < 64 * (k + 1) := by omega
      simp only [hiff]

/-- A copy depends on the source only in the words it covers. -/
theorem copyWords_congr {k : Nat} (hk : 64 * k ≤ n) {src src' : BitVec n}
    (h : ∀ i < 64 * k, src.getLsbD i = src'.getLsbD i) (dst : BitVec n) :
    copyWords k src dst = copyWords k src' dst := by
  apply BitVec.eq_of_getLsbD_eq
  intro i _
  rw [getLsbD_copyWords hk, getLsbD_copyWords hk]
  split
  · next hi => exact h i hi
  · rfl

/-- A copy of all words is the source. -/
theorem copyWords_all {k : Nat} (hk : 64 * k = n) (src dst : BitVec n) :
    copyWords k src dst = src := by
  apply BitVec.eq_of_getLsbD_eq
  intro i hi
  rw [getLsbD_copyWords hk.le, if_pos (by omega)]

/-- A field in the copied words comes from the source. -/
theorem Field.get_copyWords {k : Nat} (f : Field n len) (hk : 64 * k ≤ n)
    (h : f.off + len ≤ 64 * k) (src dst : BitVec n) : f.get (copyWords k src dst) = f.get src := by
  apply BitVec.eq_of_getLsbD_eq
  intro i hi
  rw [Field.getLsbD_get, Field.getLsbD_get, getLsbD_copyWords hk, if_pos (by omega)]

end Words

end MacKernel
