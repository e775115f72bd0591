import MacKernel.Core.Simulation
import MacKernel.Models.SplayTree.Operations

/-!
# Splay trees as ordered sets

Every run of the operations on a tree that starts empty returns what an ordered set
returns and leaves its members in order in the tree, although every operation
restructures the tree. A run of `n` operations needs fuel for `n` passes.
-/

namespace MacKernel.SplayTree

variable {E : Type}

section Splays

variable {cmp : E → E → Int} {s : SplayHead E} {members : List E} {fuel : Nat}

/-- A splay leaves the members in order and brings the one that is equal to the key to the root,
or else its predecessor or its successor. -/
def SplaysTo (cmp : E → E → Int) (members : List E) (key : E) (s' : SplayHead E) : Prop :=
  Holds cmp s' members ∧ ∃ l₁ a l₂, members = l₁ ++ a :: l₂ ∧ s'.root = some a ∧
    (∀ e ∈ members, cmp key e = 0 → e = a) ∧ (∀ e ∈ l₁, cmp e key < 0) ∧ ∀ e ∈ l₂, cmp key e < 0

/-- The members stay in order and an extreme one comes to the root. -/
def BringsExtreme (cmp : E → E → Int) (members : List E) (comp : Int) (s' : SplayHead E) : Prop :=
  Holds cmp s' members ∧ (comp < 0 → s'.root = members.head?) ∧
    (0 < comp → s'.root = members.getLast?)

variable [DecidableEq E]

theorem Holds.splaysTo (h : Holds cmp s members) (hcmp : Comparison cmp) (hne : members ≠ [])
    (hfuel : members.length < fuel) (key : E) :
    ∃ s', SplayTree.splay cmp fuel s key = .ok s' ∧ SplaysTo cmp members key s' := by
  obtain ⟨s', left, a, right, hs, hrep, rfl, hclosest⟩ := h.splay hcmp hne key hfuel
  refine ⟨s', hs, ⟨⟨_, hrep, rfl⟩, h.ascending⟩, _, a, _, rfl, hrep.root, ?_, ?_, hclosest.2⟩
  · intro e he hzero
    rcases List.mem_append.mp he with hl | hr
    · exact absurd hzero (hclosest.1 e hl).ne'
    · rcases List.mem_cons.mp hr with heq | hr
      · exact heq
      · exact absurd hzero (hclosest.2 e hr).ne
  · exact fun e he => (hcmp.swap e key).mpr (hclosest.1 e he)

theorem Holds.bringsExtreme (h : Holds cmp s members) (hcmp : Comparison cmp) (hne : members ≠ [])
    (hfuel : members.length < fuel) {comp : Int} (hcomp : comp ≠ 0) :
    ∃ s', splayMinmax fuel s comp = .ok s' ∧ BringsExtreme cmp members comp s' := by
  obtain ⟨s', l₁, a, l₂, hs, hroot, rfl, hneg, hpos, h'⟩ := h.minMax hcmp hne hcomp hfuel
  refine ⟨s', hs, h', ?_, ?_⟩
  · intro hcomp
    rw [hroot, hneg hcomp]
    rfl
  · intro hcomp
    rw [hroot, hpos hcomp, List.getLast?_concat]

end Splays

section Runs

/-- The operations on a splay tree. -/
inductive Op (E : Type) where
  | insert (e : E)
  | remove (e : E)
  | find (e : E)
  | next (e : E)
  | min
  | max

variable (cmp : E → E → Int)

/-- `SPLAY_NEXT` is called on members. -/
def Op.Pre (members : List E) : Op E → Prop
  | .next e => e ∈ members
  | _ => True

/-- The operations on ordered sets. -/
def Op.apply (members : List E) : Op E → List E
  | .insert e => insertNew cmp e members
  | .remove e => removeEqual cmp e members
  | _ => members

/-- What the operations on ordered sets return. -/
def Op.result (members : List E) : Op E → Option E
  | .insert e | .find e => equalTo cmp e members
  | .remove e => if (equalTo cmp e members).isSome then some e else none
  | .next e => (above cmp e members).head?
  | .min => members.head?
  | .max => members.getLast?

/-- The ordered set that a splay tree is. -/
def spec : Spec (List E) (Op E) (Option E) where
  pre members op := op.Pre members
  apply members op := op.apply cmp members
  result members op := op.result cmp members

/-- One operation, with what it returns. -/
def step [DecidableEq E] (fuel : Nat) (s : SplayHead E) :
    Op E → Except Fault (SplayHead E × Option E)
  | .insert e => splayInsert cmp fuel s e
  | .remove e => splayRemove cmp fuel s e
  | .find e => splayFind cmp fuel s e
  | .next e => splayNext cmp fuel s e
  | .min => splayMin fuel s
  | .max => splayMax fuel s

variable {cmp}

theorem Op.length_apply_le (members : List E) (op : Op E) :
    (op.apply cmp members).length ≤ members.length + 1 := by
  cases op with
  | insert e => exact length_insertNew_le cmp e members
  | remove e => exact (List.length_filter_le _ _).trans (Nat.le_succ _)
  | find e | next e | min | max => exact Nat.le_succ _

variable [DecidableEq E] {s : SplayHead E} {members : List E} {fuel : Nat}

/-- Every operation refines the operation on ordered sets. -/
theorem Holds.step (hcmp : Comparison cmp) (h : Holds cmp s members) {op : Op E}
    (hop : op.Pre members) (hfuel : members.length < fuel) :
    ∃ s', SplayTree.step cmp fuel s op = .ok (s', op.result cmp members) ∧
      Holds cmp s' (op.apply cmp members) := by
  cases op with
  | insert e => exact h.insert hcmp hfuel e
  | remove e => exact h.remove hcmp hfuel e
  | find e => exact h.find hcmp hfuel e
  | next e => exact h.next hcmp hop hfuel
  | min => exact h.min hcmp hfuel
  | max => exact h.max hcmp hfuel

/-- For every order of the elements, every splay of a tree that is not empty returns with the
members in order and the closest one at the root, and every run from an empty tree returns what
the ordered set prescribes and leaves its members in the tree, which an iteration then visits in
ascending order. -/
theorem refines_set_of_exec (hcmp : Comparison cmp) {fuel : Nat} :
    (∀ s members, Holds cmp s members → members ≠ [] → members.length < fuel →
      (∀ key, ∃ s', splay cmp fuel s key = .ok s' ∧ SplaysTo cmp members key s') ∧
      ∀ comp, comp ≠ 0 → ∃ s', splayMinmax fuel s comp = .ok s' ∧
        BringsExtreme cmp members comp s') ∧
    ∀ (s : SplayHead E) (ops : List (Op E)), (spec cmp).Admissible [] ops → ops.length < fuel →
      ∃ s', execAll (SplayTree.step cmp fuel) (splayInit s) ops =
          .ok (s', (spec cmp).results [] ops) ∧
        Holds cmp s' ((spec cmp).applyAll [] ops) ∧
        ∃ s'', splayForeach cmp fuel s' = .ok (s'', (spec cmp).applyAll [] ops) ∧
          Holds cmp s'' ((spec cmp).applyAll [] ops) := by
  constructor
  · intro s members h hne hfuel
    constructor
    · exact fun key => h.splaysTo hcmp hne hfuel key
    · exact fun comp hcomp => h.bringsExtreme hcmp hne hfuel hcomp
  · intro s ops hops hfuel
    obtain ⟨s', hexec, h', hsize⟩ := execAll_refines_of_fuel (spec cmp) (Holds cmp) List.length
      (fun members op => op.length_apply_le members) (fun h hpre hf => h.step hcmp hpre hf)
      (holds_empty cmp s) hops (by simpa using hfuel)
    exact ⟨s', hexec, h', h'.foreach hcmp hsize⟩

/-- The order of the natural numbers. -/
def cmpNat (a b : Nat) : Int := (a : Int) - b

theorem comparison_cmpNat : Comparison cmpNat where
  swap a b := by
    unfold cmpNat
    omega
  trans hab hbc := by
    unfold cmpNat at *
    omega

/-- An element is refused, found, followed and removed. -/
def threeRun : List (Op Nat) :=
  [.insert 2, .insert 3, .insert 1, .insert 2, .find 3, .next 1, .remove 2, .min, .max]

theorem refines_set_three : ∃ s',
    execAll (SplayTree.step cmpNat 10) ⟨none, fun _ _ => none⟩ threeRun =
      .ok (s', [none, none, none, some 2, some 3, some 2, some 2, some 1, some 3]) ∧
    Holds cmpNat s' [1, 3] ∧
    ∃ s'', splayForeach cmpNat 10 s' = .ok (s'', [1, 3]) ∧ Holds cmpNat s'' [1, 3] := by
  apply (refines_set_of_exec comparison_cmpNat).2 ⟨none, fun _ _ => none⟩ threeRun
  · simp [threeRun, Spec.Admissible, spec, Op.Pre, Op.apply, insertNew, equalTo, below, above,
      cmpNat]
  · decide

end Runs

end MacKernel.SplayTree
