import MacKernel.Core.Tally
import Mathlib.Algebra.Group.Pi.Basic

/-!
# Accounts of references

A history of references that were taken and given up, against the references that are
still owned. The history is sound when its balance is what is owned now and no prefix of it
gives up more than was taken before.
-/

namespace MacKernel

section Account

variable {R : Type*} [DecidableEq R]

/-- A reference was taken or given up. -/
inductive Entry (R : Type*) where
  | gain (r : R)
  | loss (r : R)
  deriving DecidableEq

/-- How often a reference was taken. -/
def gains (l : List (Entry R)) (r : R) : Nat := l.count (.gain r)

/-- How often a reference was given up. -/
def losses (l : List (Entry R)) (r : R) : Nat := l.count (.loss r)

/-- The reference in one place, as a number of references. -/
def single (o : Option R) (r : R) : Nat := if o = some r then 1 else 0

/-- No references. -/
def nothing (_ : R) : Nat := 0

/-- The history leaves what is owned, and never gave up what was not owned. -/
structure Backed (own : R → Nat) (l : List (Entry R)) : Prop where
  balance : ∀ r, gains l r = losses l r + own r
  covered : ∀ l', l' <+: l → ∀ r, losses l' r ≤ gains l' r

variable {own own' : R → Nat} {l : List (Entry R)}

omit [DecidableEq R] in
theorem add_nothing (own : R → Nat) : own + nothing = own := rfl

@[simp] theorem add_single_none (own : R → Nat) : own + single none = own := by
  funext r
  simp [single]

theorem backed_nil : Backed (nothing : R → Nat) [] where
  balance r := rfl
  covered l' hl' r := by
    rw [List.prefix_nil.mp hl']
    exact le_rfl

/-- One more entry that keeps the balance. -/
theorem Backed.snoc {e : Entry R} (h : Backed own l)
    (hbalance : ∀ r, gains (l ++ [e]) r = losses (l ++ [e]) r + own' r) :
    Backed own' (l ++ [e]) := by
  refine ⟨hbalance, fun l' hl' r => ?_⟩
  rcases List.prefix_concat_iff.mp hl' with rfl | hl'
  · rw [hbalance r]
    exact Nat.le_add_right _ _
  · exact h.covered l' hl' r

/-- Taking the reference of a place, if it has one. -/
theorem Backed.gain (h : Backed own l) (o : Option R) :
    Backed (own + single o) (l ++ o.toList.map .gain) := by
  cases o with
  | none => simpa using h
  | some r =>
    apply h.snoc
    intro r'
    have hr' := h.balance r'
    simp only [gains, losses, single, Pi.add_apply, List.count_append] at hr' ⊢
    by_cases hr : r = r'
    · subst hr
      simp [hr']
      omega
    · simp [hr', hr]

/-- Giving up the reference of a place, if it has one. -/
theorem Backed.loss {o : Option R} (h : Backed (own + single o) l) :
    Backed own (l ++ o.toList.map .loss) := by
  cases o with
  | none => simpa using h
  | some r =>
    apply h.snoc
    intro r'
    have hr' := h.balance r'
    simp only [gains, losses, single, Pi.add_apply, List.count_append] at hr' ⊢
    by_cases hr : r = r'
    · subst hr
      simp [hr']
      omega
    · simp [hr', hr]

end Account

section Holders

variable {ι R : Type*} [Fintype ι] [DecidableEq ι] [DecidableEq R]

omit [DecidableEq ι] in
/-- The references held in all places. -/
def held (f : ι → Option R) (r : R) : Nat := tally f (some r)

/-- Putting a reference into a place takes out the one that was there. -/
theorem held_update (f : ι → Option R) (i : ι) (o : Option R) :
    held (Function.update f i o) + single (f i) = held f + single o :=
  funext fun r => tally_update f i o (some r)

end Holders

end MacKernel
