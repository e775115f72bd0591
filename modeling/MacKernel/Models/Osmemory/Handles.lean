import MacKernel.Models.Osmemory.Native
import MacKernel.Core.Run
import MacKernel.Core.Tally

/-!
# Handles outside managed objects

`OSSharedObject` and `OSWeakObject` have the same constructors, assignments, `reset`,
`swap` and destructor, with other methods of the control block to retain and release.
They are written once, over a place for each handle, and shown to keep any account of
references that the retain and release methods keep.
-/

namespace MacKernel.Osmemory

section Native

variable {X C A M : Type} [DecidableEq X]

/-- The places of handles; a place without a handle is free. -/
abbrev Store (X C A : Type) := X → Option (Handle C A)

/-- A live handle. -/
def Store.get (f : Store X C A) (x : X) : Except Misuse (Handle C A) :=
  match f x with
  | none => .error .destroyed
  | some h => .ok h

/-- `impl_saferetain` and `impl_saferelease`: nothing without a control block. -/
def Handle.safe (method : C → M → Except Misuse M) (h : Handle C A) (m : M) : Except Misuse M :=
  match h.control with
  | none => .ok m
  | some c => method c m

/-- What both kinds of handles can do. -/
inductive HandleOp (X : Type) where
  | default (x : X)
  | copy (x y : X)
  | move (x y : X)
  | copyAssign (x y : X)
  | moveAssign (x y : X)
  | reset (x : X)
  | swap (x y : X)
  | destroy (x : X)

/-- The operation makes handles in free places and uses live ones. -/
def HandleOp.Ready (f : Store X C A) : HandleOp X → Prop
  | .default x => f x = none
  | .copy x y | .move x y => f x = none ∧ f y ≠ none
  | .copyAssign x y | .moveAssign x y | .swap x y => f x ≠ none ∧ f y ≠ none
  | .reset x | .destroy x => f x ≠ none

/-- The operations, with the methods that retain and release. `reset` is a move assignment
from an empty temporary. -/
def HandleOp.run (retain release : C → M → Except Misuse M) (f : Store X C A) (m : M) :
    HandleOp X → Except Misuse (Store X C A × M)
  | .default x => .ok (Function.update f x (some .zero), m)
  | .copy x y => do
    let h ← f.get y
    let m ← h.safe retain m
    return (Function.update f x (some h), m)
  | .move x y => do
    let h ← f.get y
    return (Function.update (Function.update f x (some h)) y (some .zero), m)
  | .copyAssign x y =>
    if x = y then .ok (f, m)
    else do
      let this ← f.get x
      let m ← this.safe release m
      let other ← f.get y
      let m ← other.safe retain m
      return (Function.update f x (some other), m)
  | .moveAssign x y =>
    if x = y then .ok (f, m)
    else do
      let this ← f.get x
      let m ← this.safe release m
      let other ← f.get y
      return (Function.update (Function.update f x (some other)) y (some .zero), m)
  | .reset x => do
    let this ← f.get x
    let m ← this.safe release m
    return (Function.update f x (some .zero), m)
  | .swap x y => do
    let this ← f.get x
    let other ← f.get y
    return (Function.update (Function.update f x (some other)) y (some this), m)
  | .destroy x => do
    let this ← f.get x
    let m ← this.safe release m
    return (Function.update f x none, m)

end Native

section Ledger

variable {X C A M : Type} [DecidableEq X]

/-- The control block that the handle in a place is attached to. -/
def Store.refs (f : Store X C A) (x : X) : Option C := (f x).bind Handle.control

/-- An account of references that the retain and release methods keep, as handles with and
without a reference change places. -/
structure Ledger (retain release : C → M → Except Misuse M) (L : (X → Option C) → M → Prop) :
    Prop where
  retain : ∀ {refs m x y c}, L refs m → refs x = none → refs y = some c →
    ∃ m', retain c m = .ok m' ∧ L (Function.update refs x (some c)) m'
  release : ∀ {refs m x c}, L refs m → refs x = some c →
    ∃ m', release c m = .ok m' ∧ L (Function.update refs x none) m'
  swap : ∀ {refs m} (x y), L refs m → L (refs ∘ Equiv.swap x y) m

variable {retain release : C → M → Except Misuse M} {L : (X → Option C) → M → Prop}
  {f : Store X C A} {m : M} {x y : X} {h : Handle C A}

theorem Store.refs_update (f : Store X C A) (x : X) (o : Option (Handle C A)) :
    Store.refs (Function.update f x o) = Function.update f.refs x (o.bind Handle.control) := by
  funext z
  by_cases hz : z = x
  · subst hz
    simp [Store.refs]
  · simp [Store.refs, hz]

omit [DecidableEq X] in
theorem Store.get_of_eq (hx : f x = some h) : f.get x = .ok h := by simp [Store.get, hx]

omit [DecidableEq X] in
theorem Store.refs_of_eq (hx : f x = some h) : f.refs x = h.control := by simp [Store.refs, hx]

omit [DecidableEq X] in
theorem Store.refs_of_free (hx : f x = none) : f.refs x = none := by simp [Store.refs, hx]

/-- Retaining the control block of a handle for a place without a reference. -/
theorem Ledger.safe_retain (hL : Ledger retain release L) {refs : X → Option C}
    (hm : L refs m) (hx : refs x = none) (hy : refs y = h.control) :
    ∃ m', h.safe retain m = .ok m' ∧ L (Function.update refs x h.control) m' := by
  unfold Handle.safe
  cases hc : h.control with
  | none => exact ⟨m, rfl, by rwa [← hx, Function.update_eq_self]⟩
  | some c => exact hL.retain hm hx (hy.trans hc)

/-- Releasing the control block of the handle in a place. -/
theorem Ledger.safe_release (hL : Ledger retain release L) (hm : L f.refs m)
    (hx : f x = some h) :
    ∃ m', h.safe release m = .ok m' ∧ L (Function.update f.refs x none) m' := by
  have hrefs := Store.refs_of_eq hx
  unfold Handle.safe
  cases hc : h.control with
  | none => exact ⟨m, rfl, by rwa [← hc, ← hrefs, Function.update_eq_self]⟩
  | some c => exact hL.release hm (hrefs.trans hc)

/-- Moving a handle moves its reference to a place without one. -/
theorem Ledger.moved (hL : Ledger retain release L) {refs : X → Option C} (hm : L refs m)
    (hx : refs x = none) (y : X) :
    L (Function.update (Function.update refs x (refs y)) y none) m := by
  rw [← hx, update_update_swap]
  exact hL.swap x y hm

/-- A copied handle retains its control block. -/
theorem Ledger.copy (hL : Ledger retain release L) (hm : L f.refs m) (hx : f x = none)
    (hy : f y = some h) :
    ∃ f' m', (HandleOp.copy x y).run retain release f m = .ok (f', m') ∧ L f'.refs m' := by
  obtain ⟨m', hm', hL'⟩ := hL.safe_retain hm (Store.refs_of_free hx) (Store.refs_of_eq hy)
  refine ⟨Function.update f x (some h), m', ?_, ?_⟩
  · simp only [HandleOp.run, Store.get_of_eq hy, ok_bind, hm']
    rfl
  · rw [Store.refs_update]
    exact hL'

/-- A moved handle takes its reference along. -/
theorem Ledger.move (hL : Ledger retain release L) (hm : L f.refs m) (hx : f x = none)
    (hy : f y = some h) :
    ∃ f' m', (HandleOp.move x y).run retain release f m = .ok (f', m') ∧ L f'.refs m' := by
  refine ⟨Function.update (Function.update f x (some h)) y (some .zero), m, ?_, ?_⟩
  · simp only [HandleOp.run, Store.get_of_eq hy, ok_bind]
    rfl
  · have hmoved := hL.moved hm (Store.refs_of_free hx) y
    rw [Store.refs_of_eq hy] at hmoved
    rw [Store.refs_update, Store.refs_update]
    exact hmoved

/-- An assigned handle gives up its reference before it takes another one, so the other
handle keeps its control block alive. -/
theorem Ledger.copyAssign {this other : Handle C A} (hL : Ledger retain release L)
    (hm : L f.refs m) (hxy : x ≠ y) (hx : f x = some this) (hy : f y = some other) :
    ∃ f' m', (HandleOp.copyAssign x y).run retain release f m = .ok (f', m') ∧ L f'.refs m' := by
  obtain ⟨m₁, hm₁, hL₁⟩ := hL.safe_release hm hx
  have hyr : Function.update f.refs x none y = other.control := by
    rw [Function.update_of_ne (Ne.symm hxy), Store.refs_of_eq hy]
  obtain ⟨m₂, hm₂, hL₂⟩ := hL.safe_retain hL₁ (Function.update_self ..) hyr
  rw [Function.update_idem] at hL₂
  refine ⟨Function.update f x (some other), m₂, ?_, ?_⟩
  · simp only [HandleOp.run, if_neg hxy, Store.get_of_eq hx, Store.get_of_eq hy, ok_bind, hm₁,
      hm₂]
    rfl
  · rw [Store.refs_update]
    exact hL₂

theorem Ledger.moveAssign {this other : Handle C A} (hL : Ledger retain release L)
    (hm : L f.refs m) (hxy : x ≠ y) (hx : f x = some this) (hy : f y = some other) :
    ∃ f' m', (HandleOp.moveAssign x y).run retain release f m = .ok (f', m') ∧ L f'.refs m' := by
  obtain ⟨m₁, hm₁, hL₁⟩ := hL.safe_release hm hx
  have hmoved := hL.moved hL₁ (Function.update_self ..) y
  rw [Function.update_of_ne (Ne.symm hxy), Store.refs_of_eq hy, Function.update_idem] at hmoved
  refine ⟨Function.update (Function.update f x (some other)) y (some .zero), m₁, ?_, ?_⟩
  · simp only [HandleOp.run, if_neg hxy, Store.get_of_eq hx, Store.get_of_eq hy, ok_bind, hm₁]
    rfl
  · rw [Store.refs_update, Store.refs_update]
    exact hmoved

/-- A handle is left without a reference, or is gone. -/
theorem Ledger.drop (hL : Ledger retain release L) (hm : L f.refs m) (hx : f x = some h)
    {o : Option (Handle C A)} (ho : o.bind Handle.control = none) :
    ∃ m', h.safe release m = .ok m' ∧ L (Store.refs (Function.update f x o)) m' := by
  obtain ⟨m', hm', hL'⟩ := hL.safe_release hm hx
  refine ⟨m', hm', ?_⟩
  rw [Store.refs_update, ho]
  exact hL'

theorem Ledger.swapped {this other : Handle C A} (hL : Ledger retain release L) (hm : L f.refs m)
    (hx : f x = some this) (hy : f y = some other) :
    ∃ f' m', (HandleOp.swap x y).run retain release f m = .ok (f', m') ∧ L f'.refs m' := by
  have hswap := hL.swap x y hm
  rw [← update_update_swap, Store.refs_of_eq hx, Store.refs_of_eq hy] at hswap
  refine ⟨Function.update (Function.update f x (some other)) y (some this), m, ?_, ?_⟩
  · simp only [HandleOp.run, Store.get_of_eq hx, Store.get_of_eq hy, ok_bind]
    rfl
  · rw [Store.refs_update, Store.refs_update]
    exact hswap

/-- Every operation on handles that are ready for it succeeds and keeps the account. -/
theorem HandleOp.run_spec (hL : Ledger retain release L) (op : HandleOp X)
    (hready : op.Ready f) (hm : L f.refs m) :
    ∃ f' m', op.run retain release f m = .ok (f', m') ∧ L f'.refs m' := by
  cases op with
  | default x =>
    refine ⟨_, m, rfl, ?_⟩
    have hx : f.refs x = none := Store.refs_of_free hready
    rw [Store.refs_update]
    change L (Function.update f.refs x none) m
    rwa [← hx, Function.update_eq_self]
  | copy x y =>
    obtain ⟨other, hy⟩ := Option.ne_none_iff_exists'.mp hready.2
    exact hL.copy hm hready.1 hy
  | move x y =>
    obtain ⟨other, hy⟩ := Option.ne_none_iff_exists'.mp hready.2
    exact hL.move hm hready.1 hy
  | copyAssign x y =>
    by_cases hxy : x = y
    · exact ⟨f, m, if_pos hxy, hm⟩
    · obtain ⟨this, hx⟩ := Option.ne_none_iff_exists'.mp hready.1
      obtain ⟨other, hy⟩ := Option.ne_none_iff_exists'.mp hready.2
      exact hL.copyAssign hm hxy hx hy
  | moveAssign x y =>
    by_cases hxy : x = y
    · exact ⟨f, m, if_pos hxy, hm⟩
    · obtain ⟨this, hx⟩ := Option.ne_none_iff_exists'.mp hready.1
      obtain ⟨other, hy⟩ := Option.ne_none_iff_exists'.mp hready.2
      exact hL.moveAssign hm hxy hx hy
  | reset x =>
    obtain ⟨this, hx⟩ := Option.ne_none_iff_exists'.mp hready
    have hzero : (some (Handle.zero : Handle C A)).bind Handle.control = none := rfl
    obtain ⟨m', hm', hL'⟩ := hL.drop hm hx hzero
    refine ⟨Function.update f x (some .zero), m', ?_, hL'⟩
    simp only [HandleOp.run, Store.get_of_eq hx, ok_bind, hm']
    rfl
  | swap x y =>
    obtain ⟨this, hx⟩ := Option.ne_none_iff_exists'.mp hready.1
    obtain ⟨other, hy⟩ := Option.ne_none_iff_exists'.mp hready.2
    exact hL.swapped hm hx hy
  | destroy x =>
    obtain ⟨this, hx⟩ := Option.ne_none_iff_exists'.mp hready
    have hgone : (none : Option (Handle C A)).bind Handle.control = none := rfl
    obtain ⟨m', hm', hL'⟩ := hL.drop hm hx hgone
    refine ⟨Function.update f x none, m', ?_, hL'⟩
    simp only [HandleOp.run, Store.get_of_eq hx, ok_bind, hm']
    rfl

end Ledger

end MacKernel.Osmemory
