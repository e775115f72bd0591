import MacKernel.Core.Run
import Mathlib.Data.List.Range

/-!
# Searches in predicates on numbers

The greatest and the least number with a property, searches that look at one block
of numbers after the other, iterations that go from each number found to the next
one, and verdicts on all numbers that are collected block by block.
-/

namespace MacKernel

/-- The greatest number below `hi` that satisfies `p`, if there is one. -/
def IsLast (p : Nat → Bool) (hi : Nat) : Option Nat → Prop
  | none => ∀ i < hi, p i = false
  | some k => k < hi ∧ p k ∧ ∀ i, k < i → i < hi → p i = false

/-- The least number from `lo` to below `hi` that satisfies `p`, if there is one. -/
def IsNext (p : Nat → Bool) (lo hi : Nat) : Option Nat → Prop
  | none => ∀ i, lo ≤ i → i < hi → p i = false
  | some k => lo ≤ k ∧ k < hi ∧ p k ∧ ∀ i, lo ≤ i → i < k → p i = false

section Blocks

variable {p : Nat → Bool} {m i hi lo : Nat} {r : Option Nat}

/-- The last hit depends on the places below the bound only. -/
theorem IsLast.congr {q : Nat → Bool} (h : IsLast p hi r) (hpq : ∀ i < hi, p i = q i) :
    IsLast q hi r := by
  cases r with
  | none => exact fun i hi => (hpq i hi).symm.trans (h i hi)
  | some k =>
    obtain ⟨hk, hp, hgap⟩ := h
    exact ⟨hk, (hpq k hk).symm.trans hp, fun i hki hi => (hpq i hi).symm.trans (hgap i hki hi)⟩

/-- The next hit depends on the places in the range only. -/
theorem IsNext.congr {q : Nat → Bool} (h : IsNext p lo hi r) (hpq : ∀ i < hi, p i = q i) :
    IsNext q lo hi r := by
  cases r with
  | none => exact fun i hlo hi => (hpq i hi).symm.trans (h i hlo hi)
  | some k =>
    obtain ⟨hlo, hk, hp, hgap⟩ := h
    exact ⟨hlo, hk, (hpq k hk).symm.trans hp,
      fun i hlo hik => (hpq i (hik.trans hk)).symm.trans (hgap i hlo hik)⟩

/-- What lies between is empty. -/
theorem IsLast.extend (h : IsLast p lo r) (hle : lo ≤ hi)
    (hempty : ∀ i, lo ≤ i → i < hi → p i = false) : IsLast p hi r := by
  cases r with
  | none =>
    intro i hi
    by_cases hlt : i < lo
    · exact h i hlt
    · exact hempty i (Nat.not_lt.mp hlt) hi
  | some k =>
    obtain ⟨hk, hp, hgap⟩ := h
    refine ⟨hk.trans_le hle, hp, fun i hki hi => ?_⟩
    by_cases hlt : i < lo
    · exact hgap i hki hlt
    · exact hempty i (Nat.not_lt.mp hlt) hi

/-- Empty places may be added in front. -/
theorem IsNext.extend {mid : Nat} (h : IsNext p mid hi r) (hle : lo ≤ mid)
    (hempty : ∀ i, lo ≤ i → i < mid → p i = false) : IsNext p lo hi r := by
  cases r with
  | none =>
    intro i hlo hi
    by_cases hlt : i < mid
    · exact hempty i hlo hlt
    · exact h i (Nat.not_lt.mp hlt) hi
  | some k =>
    obtain ⟨hmid, hk, hp, hgap⟩ := h
    refine ⟨hle.trans hmid, hk, hp, fun i hlo hik => ?_⟩
    by_cases hlt : i < mid
    · exact hempty i hlo hlt
    · exact hgap i (Nat.not_lt.mp hlt) hik

/-- Numbers from `lo` on do not satisfy `p`. -/
theorem IsLast.shrink (h : IsLast p hi r) (hle : lo ≤ hi)
    (hempty : ∀ i, lo ≤ i → p i = false) : IsLast p lo r := by
  cases r with
  | none => exact fun i hi => h i (hi.trans_le hle)
  | some k =>
    obtain ⟨hk, hp, hgap⟩ := h
    refine ⟨?_, hp, fun i hki hi => hgap i hki (hi.trans_le hle)⟩
    by_contra hlo
    exact Bool.false_ne_true ((hempty k (Nat.not_lt.mp hlo)).symm.trans hp)

/-- Empty places may be left out behind. -/
theorem IsNext.shrink {hi' : Nat} (h : IsNext p lo hi r) (hle : hi' ≤ hi)
    (hempty : ∀ i, hi' ≤ i → p i = false) : IsNext p lo hi' r := by
  cases r with
  | none => exact fun i hlo hi => h i hlo (hi.trans_le hle)
  | some k =>
    obtain ⟨hlo, hk, hp, hgap⟩ := h
    refine ⟨hlo, ?_, hp, hgap⟩
    by_contra hhi
    exact Bool.false_ne_true ((hempty k (Nat.not_lt.mp hhi)).symm.trans hp)

/-- The part of a block that has been searched has nothing in it. -/
theorem IsLast.none_block (h : IsLast (fun b => p (m * i + b)) hi none) (k : Nat)
    (hlo : m * i ≤ k) (hhi : k < m * i + hi) : p k = false := by
  have hb : p (m * i + (k - m * i)) = false := h (k - m * i) (by omega)
  rwa [Nat.add_sub_cancel' hlo] at hb

/-- A block without a hit has none at any of its places. -/
theorem IsNext.none_block (h : IsNext (fun b => p (m * i + b)) lo hi none) (k : Nat)
    (hlo : m * i + lo ≤ k) (hhi : k < m * i + hi) : p k = false := by
  have hb : p (m * i + (k - m * i)) = false := h (k - m * i) (by omega) (by omega)
  rwa [Nat.add_sub_cancel' (by omega)] at hb

/-- The last hit of a block is the last below its end. -/
theorem IsLast.some_block {b : Nat} (h : IsLast (fun b => p (m * i + b)) hi (some b)) :
    IsLast p (m * i + hi) (some (m * i + b)) := by
  obtain ⟨hb, hp, hgap⟩ := h
  refine ⟨by omega, hp, fun k hk hkhi => ?_⟩
  have hpk : p (m * i + (k - m * i)) = false := hgap (k - m * i) (by omega) (by omega)
  rwa [Nat.add_sub_cancel' (by omega)] at hpk

/-- The next hit of a block is the next from its start. -/
theorem IsNext.some_block {b hi' : Nat} (h : IsNext (fun b => p (m * i + b)) lo hi (some b))
    (hle : m * i + hi ≤ hi') : IsNext p (m * i + lo) hi' (some (m * i + b)) := by
  obtain ⟨hlo, hb, hp, hgap⟩ := h
  refine ⟨by omega, by omega, hp, fun k hk hkb => ?_⟩
  have hpk : p (m * i + (k - m * i)) = false := hgap (k - m * i) (by omega) (by omega)
  rwa [Nat.add_sub_cancel' (by omega)] at hpk

end Blocks

section Loops

variable {ρ : Type}

/-- Look at the blocks below `n`, from the last one down, until one has a result. -/
def scanDown (body : Nat → Except Fault (Option ρ)) : Nat → Except Fault (Option ρ)
  | 0 => .ok none
  | i + 1 => do
    match ← body i with
    | some r => return some r
    | none => scanDown body i

/-- Look at `count` blocks, from `i` up, until one has a result. -/
def scanUp (body : Nat → Except Fault (Option ρ)) (i : Nat) : Nat → Except Fault (Option ρ)
  | 0 => .ok none
  | count + 1 => do
    match ← body i with
    | some r => return some r
    | none => scanUp body (i + 1) count

variable {p : Nat → Bool} {m : Nat} {code : Nat → ρ} {body : Nat → Except Fault (Option ρ)}

/-- A search down the blocks finds the greatest number. -/
theorem scanDown_isLast (n : Nat) (hbody : ∀ i < n, ∃ r,
      IsLast (fun b => p (m * i + b)) m r ∧ body i = .ok (r.map fun b => code (m * i + b))) :
    ∃ r, IsLast p (m * n) r ∧ scanDown body n = .ok (r.map code) := by
  induction n with
  | zero => exact ⟨none, fun i hi => absurd hi (by simp), rfl⟩
  | succ i ih =>
    obtain ⟨r, hr, hb⟩ := hbody i (Nat.lt_succ_self i)
    cases r with
    | some b =>
      refine ⟨some (m * i + b), ?_, ?_⟩
      · rw [Nat.mul_succ]
        exact hr.some_block
      · rw [scanDown, hb]
        rfl
    | none =>
      obtain ⟨r, hr', hscan⟩ := ih fun j hj => hbody j (Nat.lt_succ_of_lt hj)
      refine ⟨r, ?_, ?_⟩
      · rw [Nat.mul_succ]
        exact hr'.extend (Nat.le_add_right _ _) hr.none_block
      · rw [scanDown, hb]
        exact hscan

/-- A search up the blocks finds the least number. -/
theorem scanUp_isNext (i count : Nat) (hbody : ∀ j, i ≤ j → j < i + count → ∃ r,
      IsNext (fun b => p (m * j + b)) 0 m r ∧ body j = .ok (r.map fun b => code (m * j + b))) :
    ∃ r, IsNext p (m * i) (m * (i + count)) r ∧ scanUp body i count = .ok (r.map code) := by
  induction count generalizing i with
  | zero => exact ⟨none, fun k hlo hhi => absurd hhi (Nat.not_lt.mpr hlo), rfl⟩
  | succ count ih =>
    obtain ⟨r, hr, hb⟩ := hbody i le_rfl (by omega)
    have hblock : m * i + m ≤ m * (i + (count + 1)) := by
      rw [← Nat.mul_succ]
      exact Nat.mul_le_mul_left m (by omega)
    cases r with
    | some b =>
      refine ⟨some (m * i + b), hr.some_block hblock, ?_⟩
      rw [scanUp, hb]
      rfl
    | none =>
      obtain ⟨r, hr', hscan⟩ := ih (i + 1) fun j hj hlt => hbody j (by omega) (by omega)
      refine ⟨r, ?_, ?_⟩
      · rw [Nat.add_right_comm, Nat.add_assoc, Nat.mul_succ] at hr'
        exact hr'.extend (Nat.le_add_right _ _) hr.none_block
      · rw [scanUp, hb]
        exact hscan

end Loops

section Iterations

/-- The values that an iteration visits before it comes to a last one. -/
def visit {ρ : Type} [DecidableEq ρ] (last : ρ) (next : ρ → Except Fault ρ) :
    Nat → ρ → Except Fault (List ρ)
  | 0, _ => .error .diverged
  | fuel + 1, r =>
    if r = last then return []
    else do
      let rest ← visit last next fuel (← next r)
      return r :: rest

variable {ρ : Type} [DecidableEq ρ] {last : ρ} {next : ρ → Except Fault ρ} {code : Nat → ρ}
variable {p : Nat → Bool} {n : Nat}

/-- A visit ends at the last answer. -/
theorem visit_last (fuel : Nat) : visit last next (fuel + 1) last = .ok [] := if_pos rfl

/-- A visit goes on with the next answer. -/
theorem visit_next {fuel : Nat} {r r' : ρ} {rs : List ρ} (hr : r ≠ last) (hnext : next r = .ok r')
    (hrest : visit last next fuel r' = .ok rs) :
    visit last next (fuel + 1) r = .ok (r :: rs) := by
  rw [visit, if_neg hr, hnext, ok_bind, hrest]
  rfl

/-- The members below a number, in descending order. -/
theorem filter_range_reverse_isLast {hi k : Nat} (h : IsLast p hi (some k)) :
    ((List.range hi).filter p).reverse = k :: ((List.range k).filter p).reverse := by
  obtain ⟨hk, hp, hgap⟩ := h
  obtain ⟨d, rfl⟩ := Nat.exists_eq_add_of_lt hk
  have htail : ((List.range d).map (k + 1 + ·)).filter p = [] := by
    rw [List.filter_eq_nil_iff]
    intro i hi
    obtain ⟨j, hj, rfl⟩ := List.mem_map.mp hi
    rw [hgap (k + 1 + j) (by omega) (by have := List.mem_range.mp hj; omega)]
    exact Bool.false_ne_true
  rw [show k + d + 1 = (k + 1) + d by omega, List.range_add, List.filter_append, htail,
    List.append_nil, List.range_succ, List.filter_append, List.filter_singleton, hp]
  simp

/-- The members from a number on, in ascending order. -/
theorem filter_range_isNext {lo hi k : Nat} (h : IsNext p lo hi (some k)) :
    (List.range' lo (hi - lo)).filter p = k :: (List.range' (k + 1) (hi - (k + 1))).filter p := by
  obtain ⟨hlo, hk, hp, hgap⟩ := h
  have hhead : (List.range' lo (k - lo)).filter p = [] := by
    rw [List.filter_eq_nil_iff]
    intro i hi
    obtain ⟨hlo', hi'⟩ := List.mem_range'_1.mp hi
    rw [hgap i hlo' (by omega)]
    exact Bool.false_ne_true
  rw [show hi - lo = (k - lo) + (hi - (k + 1) + 1) by omega, ← List.range'_append_1,
    List.filter_append, hhead, show lo + (k - lo) = k by omega, List.range'_succ,
    List.filter_cons, if_pos hp]
  rfl

/-- Going from each number to the greatest one below it visits the members in descending
order. -/
theorem visit_descending (hcode : ∀ k < n, p k → code k ≠ last)
    (hnext : ∀ k < n, p k → ∃ r, IsLast p k r ∧ next (code k) = .ok ((r.map code).getD last))
    {hi fuel : Nat} (hhi : hi ≤ n) (hfuel : hi < fuel) {r : Option Nat} (hr : IsLast p hi r) :
    visit last next fuel ((r.map code).getD last) =
      .ok (((List.range hi).filter p).reverse.map code) := by
  induction hi using Nat.strong_induction_on generalizing fuel r with
  | _ hi ih =>
    obtain ⟨fuel, rfl⟩ := Nat.exists_eq_succ_of_ne_zero (by omega : fuel ≠ 0)
    cases r with
    | none =>
      have hempty : (List.range hi).filter p = [] := by
        rw [List.filter_eq_nil_iff]
        intro i hi
        rw [hr i (List.mem_range.mp hi)]
        exact Bool.false_ne_true
      rw [hempty]
      exact visit_last fuel
    | some k =>
      obtain ⟨hk, hp, -⟩ := id hr
      obtain ⟨r, hr', hn⟩ := hnext k (by omega) hp
      rw [filter_range_reverse_isLast hr]
      exact visit_next (hcode k (by omega) hp) hn (ih k hk (by omega) (by omega) hr')

/-- Going from each number to the least one above it visits the members in ascending order. -/
theorem visit_ascending (hcode : ∀ k < n, p k → code k ≠ last)
    (hnext : ∀ k < n, p k → ∃ r, IsNext p (k + 1) n r ∧
      next (code k) = .ok ((r.map code).getD last))
    {lo fuel : Nat} (hfuel : n - lo < fuel) {r : Option Nat} (hr : IsNext p lo n r) :
    visit last next fuel ((r.map code).getD last) =
      .ok (((List.range' lo (n - lo)).filter p).map code) := by
  induction fuel generalizing lo r with
  | zero => omega
  | succ fuel ih =>
    cases r with
    | none =>
      have hempty : (List.range' lo (n - lo)).filter p = [] := by
        rw [List.filter_eq_nil_iff]
        intro i hi
        obtain ⟨hlo, hi'⟩ := List.mem_range'_1.mp hi
        rw [hr i hlo (by omega)]
        exact Bool.false_ne_true
      rw [hempty]
      exact visit_last fuel
    | some k =>
      obtain ⟨hlo, hk, hp, -⟩ := id hr
      obtain ⟨r, hr', hn⟩ := hnext k hk hp
      rw [filter_range_isNext hr]
      exact visit_next (hcode k hk hp) hn (ih (by omega) hr')

end Iterations

section Verdicts

variable {p : Nat → Prop} {w i lo hi : Nat} {acc verdict : BitVec w}

/-- An accumulator that is zero exactly when all numbers below `i` satisfy `p`. -/
def Reports (p : Nat → Prop) (i : Nat) (acc : BitVec w) : Prop := acc = 0 ↔ ∀ j < i, p j

/-- Before the first bit nothing is reported. -/
theorem reports_zero : Reports p 0 (0 : BitVec w) :=
  ⟨fun _ _ hj => absurd hj (Nat.not_lt_zero _), fun _ => rfl⟩

/-- The verdict on a block that leaves no gap; the block may go over numbers that were
looked at before. -/
theorem Reports.extend (h : Reports p i acc) (hlo : lo ≤ i) (hhi : i ≤ hi)
    (hverdict : verdict = 0 ↔ ∀ j, lo ≤ j → j < hi → p j) : Reports p hi (acc ||| verdict) := by
  unfold Reports at h ⊢
  rw [show (0 : BitVec w) = 0#w from rfl] at h hverdict ⊢
  rw [BitVec.or_eq_zero_iff, h, hverdict]
  constructor
  · rintro ⟨hbefore, hblock⟩ j hj
    by_cases hji : j < i
    · exact hbefore j hji
    · exact hblock j (hlo.trans (Nat.not_lt.mp hji)) hj
  · intro hall
    exact ⟨fun j hj => hall j (hj.trans_le hhi), fun j _ hj => hall j hj⟩

end Verdicts

end MacKernel
