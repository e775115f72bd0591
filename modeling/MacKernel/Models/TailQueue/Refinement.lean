import MacKernel.Core.Simulation
import MacKernel.Models.TailQueue.Moves

/-!
# Tail queues as lists

Every run of the macros on a family of tail queues keeps in each head the list that the
run prescribes. The iterations visit that list or its reverse, and the safe ones do so
whatever elements their body removes.
-/

namespace MacKernel.TailQueue

open Entries

section Queues

variable {Q E : Type} {m : Links Q E} {lists : Lists Q E} {q : Q} {l l₁ l₂ : List E} {e : E}

/-- `TAILQ_NEXT` is the following element. -/
theorem Family.next_eq (h : Family m lists) (hl : lists q = some (l₁ ++ e :: l₂)) :
    tailqNext m e = l₂.head? := by
  have hpath := (h.ring q _ hl).path
  rw [List.map_append, List.map_cons] at hpath
  exact TailQueue.next_eq (path_append.mp hpath).2

/-- `TAILQ_PREV` is the preceding element. -/
theorem Family.prev_eq (h : Family m lists) (hl : lists q = some (l₁ ++ e :: l₂)) :
    tailqPrev m e = .ok l₁.getLast? :=
  beforePair_eq (h.ring q _ hl)

/-- `TAILQ_LAST` is the last element. -/
theorem Family.last_eq (h : Family m lists) (hl : lists q = some l) :
    tailqLast m q = .ok l.getLast? := by
  have hring := h.ring q l hl
  rw [← List.append_nil l] at hring
  exact beforePair_eq hring

/-- `TAILQ_FIRST` is the first element. -/
theorem Family.first_eq (h : Family m lists) (hl : lists q = some l) : tailqFirst m q = l.head? :=
  TailQueue.next_eq (h.ring q l hl).path

/-- `TAILQ_FOREACH` visits the list. -/
theorem Family.foreach (h : Family m lists) (hl : lists q = some l) {fuel : Nat}
    (hfuel : l.length < fuel) : tailqForeach m q fuel = .ok l := by
  rw [tailqForeach, h.first_eq hl]
  refine loop_foreachPass ?_ hfuel
  rintro l₁ e l₂ rfl
  rw [h.next_eq hl]
  rfl

/-- `TAILQ_FOREACH_REVERSE` visits the list from its end. -/
theorem Family.foreachReverse (h : Family m lists) (hl : lists q = some l) {fuel : Nat}
    (hfuel : l.length < fuel) : tailqForeachReverse m q fuel = .ok l.reverse := by
  rw [tailqForeachReverse, h.last_eq hl, ok_bind, ← List.head?_reverse]
  refine loop_foreachPass ?_ (by rwa [List.length_reverse])
  intro l₁ e l₂ hsplit
  obtain rfl : l = l₂.reverse ++ e :: l₁.reverse := by
    rw [← List.reverse_reverse l, hsplit]
    simp
  rw [h.prev_eq hl, List.getLast?_reverse]

variable [DecidableEq Q] [DecidableEq E]

/-- `TAILQ_FOREACH_SAFE` visits the list while its body removes some of the elements. -/
theorem Family.foreachSafe (h : Family m lists) (hl : lists q = some l) (p : E → Bool) {fuel : Nat}
    (hfuel : l.length < fuel) :
    ∃ m', tailqForeachSafe (removeIf p fun m e => tailqRemove m q e) m q fuel = .ok (m', l) ∧
      Family m' (Function.update lists q (some (l.filter (!p ·)))) := by
  rw [tailqForeachSafe, h.first_eq hl]
  apply loop_foreachSafePass_removeIf p _ _ h hl hfuel
  · intro m lists l₁ e l₂ h hl
    exact congrArg Except.ok (h.next_eq hl)
  · intro m lists l₁ e l₂ h hl _
    exact h.removeAt hl

/-- The queue of a head, read from its end. -/
def FamilyFromEnd (q : Q) (m : Links Q E) (lists : Lists Q E) : Prop :=
  Family m (Function.update lists q ((lists q).map List.reverse))

omit [DecidableEq E] in
private theorem FamilyFromEnd.eq_some (hl : lists q = some (l₁ ++ e :: l₂)) :
    Function.update lists q ((lists q).map List.reverse) q =
      some (l₂.reverse ++ e :: l₁.reverse) := by
  rw [Function.update_self, hl, Option.map_some]
  simp

omit [DecidableEq E] in
/-- From the end, `TAILQ_PREV` is the following element. -/
theorem FamilyFromEnd.prev_eq (h : FamilyFromEnd q m lists)
    (hl : lists q = some (l₁ ++ e :: l₂)) : tailqPrev m e = .ok l₂.head? := by
  rw [Family.prev_eq h (FamilyFromEnd.eq_some hl), List.getLast?_reverse]

/-- From the end, `TAILQ_REMOVE` takes out the element as well. -/
theorem FamilyFromEnd.removeAt (h : FamilyFromEnd q m lists)
    (hl : lists q = some (l₁ ++ e :: l₂)) :
    ∃ m', tailqRemove m q e = .ok m' ∧
      FamilyFromEnd q m' (Function.update lists q (some (l₁ ++ l₂))) := by
  obtain ⟨m', hremove, hm'⟩ := Family.removeAt h (FamilyFromEnd.eq_some hl)
  rw [Function.update_idem, ← List.reverse_append] at hm'
  refine ⟨m', hremove, ?_⟩
  rw [FamilyFromEnd, Function.update_self, Function.update_idem]
  exact hm'

/-- `TAILQ_FOREACH_REVERSE_SAFE` visits the list from its end while its body removes some of the
elements. -/
theorem Family.foreachReverseSafe (h : Family m lists) (hl : lists q = some l) (p : E → Bool)
    {fuel : Nat} (hfuel : l.length < fuel) :
    ∃ m', tailqForeachReverseSafe (removeIf p fun m e => tailqRemove m q e) m q fuel =
        .ok (m', l.reverse) ∧
      Family m' (Function.update lists q (some (l.filter (!p ·)))) := by
  rw [tailqForeachReverseSafe, h.last_eq hl, ok_bind, ← List.head?_reverse]
  -- from its end the queue is a list like any other
  have hstart : FamilyFromEnd q m (Function.update lists q (some l.reverse)) := by
    rw [FamilyFromEnd, Function.update_self, Function.update_idem, Option.map_some,
      List.reverse_reverse, ← hl, Function.update_eq_self]
    exact h
  obtain ⟨m', hloop, hm'⟩ := loop_foreachSafePass_removeIf p
    (fun h hl => FamilyFromEnd.prev_eq h hl) (fun h hl _ => FamilyFromEnd.removeAt h hl) hstart
    (Function.update_self q _ lists) (by rwa [List.length_reverse])
  refine ⟨m', hloop, ?_⟩
  rw [FamilyFromEnd, Function.update_self] at hm'
  simpa [Function.update_idem, List.filter_reverse] using hm'

end Queues

section Operations

/-- The macros that change tail queues. -/
inductive Op (Q E : Type) where
  | init (q : Q)
  | insertHead (q : Q) (e : E)
  | insertTail (q : Q) (e : E)
  | insertBefore (listelm e : E)
  | insertAfter (q : Q) (listelm e : E)
  | remove (q : Q) (e : E)
  | concat (q₁ q₂ : Q)
  | swap (q₁ q₂ : Q)

variable {Q E : Type}

/-- Queues are initialised, elements are put on a queue only if they are on none, and elements
that are removed are on the queue. -/
def Op.Pre (lists : Lists Q E) : Op Q E → Prop
  | .init _ => True
  | .insertHead q e | .insertTail q e => (lists q).isSome ∧ ¬lists.Has e
  | .insertBefore listelm e => lists.Has listelm ∧ ¬lists.Has e
  | .insertAfter q listelm e => (∃ l, lists q = some l ∧ listelm ∈ l) ∧ ¬lists.Has e
  | .remove q e => ∃ l, lists q = some l ∧ e ∈ l
  | .concat q₁ q₂ | .swap q₁ q₂ => (lists q₁).isSome ∧ (lists q₂).isSome

variable [DecidableEq Q] [DecidableEq E]

/-- The macros on lists. -/
def Op.apply (lists : Lists Q E) : Op Q E → Lists Q E
  | .init q => Function.update lists q (some [])
  | .insertHead q e => lists.modify q (e :: ·)
  | .insertTail q e => lists.modify q (· ++ [e])
  | .insertBefore listelm e => fun q => (lists q).map (MacKernel.insertBefore listelm e)
  | .insertAfter q listelm e => lists.modify q (MacKernel.insertAfter listelm e)
  | .remove q e => lists.modify q (·.erase e)
  | .concat q₁ q₂ =>
    Function.update (lists.modify q₁ (· ++ (lists q₂).getD [])) q₂ (some [])
  | .swap q₁ q₂ => Function.update (Function.update lists q₁ (lists q₂)) q₂ (lists q₁)

/-- The list model of the tail queues. -/
def spec (Q E : Type) [DecidableEq Q] [DecidableEq E] : Spec (Lists Q E) (Op Q E) Unit where
  pre lists op := op.Pre lists
  apply lists op := op.apply lists
  result _ _ := ()

/-- One macro. -/
def step (m : Links Q E) : Op Q E → Except Fault (Links Q E × Unit)
  | .init q => return (tailqInit m q, ())
  | .insertHead q e => return (tailqInsertHead m q e, ())
  | .insertTail q e => return (← tailqInsertTail m q e, ())
  | .insertBefore listelm e => return (← tailqInsertBefore m listelm e, ())
  | .insertAfter q listelm e => return (tailqInsertAfter m q listelm e, ())
  | .remove q e => return (← tailqRemove m q e, ())
  | .concat q₁ q₂ => return (← tailqConcat m q₁ q₂, ())
  | .swap q₁ q₂ => return (tailqSwap m q₁ q₂, ())

variable {m : Links Q E} {lists : Lists Q E}

/-- Every macro refines the operation on lists. -/
theorem Family.step (h : Family m lists) {op : Op Q E} (hop : op.Pre lists) :
    ∃ m', TailQueue.step m op = .ok (m', ()) ∧ Family m' (op.apply lists) := by
  cases op with
  | init q => exact ⟨_, rfl, h.init q⟩
  | insertHead q e =>
    obtain ⟨l, hl⟩ := Option.isSome_iff_exists.mp hop.1
    rw [Op.apply, Lists.modify_eq hl]
    exact ⟨_, rfl, h.insertHead hl hop.2⟩
  | insertTail q e =>
    obtain ⟨l, hl⟩ := Option.isSome_iff_exists.mp hop.1
    rw [Op.apply, Lists.modify_eq hl]
    exact exists_ok_pair () (h.insertTail hl hop.2)
  | insertBefore listelm e =>
    obtain ⟨⟨q, l, hl, hmem⟩, he⟩ := hop
    rw [Op.apply, h.map_eq_update hl hmem fun l' hl' => insertBefore_of_not_mem hl']
    exact exists_ok_pair () (h.insertBefore hl hmem he)
  | insertAfter q listelm e =>
    obtain ⟨⟨l, hl, hmem⟩, he⟩ := hop
    rw [Op.apply, Lists.modify_eq hl]
    exact ⟨_, rfl, h.insertAfter hl hmem he⟩
  | remove q e =>
    obtain ⟨l, hl, he⟩ := hop
    rw [Op.apply, Lists.modify_eq hl]
    exact exists_ok_pair () (h.remove hl he)
  | concat q₁ q₂ =>
    obtain ⟨l₁, hl₁⟩ := Option.isSome_iff_exists.mp hop.1
    obtain ⟨l₂, hl₂⟩ := Option.isSome_iff_exists.mp hop.2
    rw [Op.apply, Lists.modify_eq hl₁, hl₂]
    exact exists_ok_pair () (h.concat hl₁ hl₂)
  | swap q₁ q₂ =>
    obtain ⟨l₁, hl₁⟩ := Option.isSome_iff_exists.mp hop.1
    obtain ⟨l₂, hl₂⟩ := Option.isSome_iff_exists.mp hop.2
    rw [Op.apply, hl₁, hl₂]
    exact ⟨_, rfl, h.swap hl₁ hl₂⟩

end Operations

section Refinement

variable {Q E : Type} [DecidableEq Q] [DecidableEq E]

/-- What a head in use promises. -/
structure Refines (m : Links Q E) (lists : Lists Q E) (q : Q) (l : List E) : Prop where
  /-- The `tqe_next` fields lead from `tqh_first` through the list to a null pointer. -/
  forward : Chain (tailqNext m) (tailqFirst m q) l none
  /-- Every `tqe_prev` names the pointer of its queue that points at the element. -/
  prev_slot : ∀ e ∈ l, ∃ slot ∈ .head q :: l.map .entry,
    m.prev (.entry e) = some slot ∧ m.next slot = some e
  /-- `tqh_last` names the null pointer of the last element, or of the head. -/
  last_slot : m.prev (.head q) = some ((l.map .entry).getLast?.getD (.head q)) ∧
    m.next ((l.map .entry).getLast?.getD (.head q)) = none
  last : tailqLast m q = .ok l.getLast?
  prev : ∀ l₁ e l₂, l = l₁ ++ e :: l₂ → tailqPrev m e = .ok l₁.getLast?
  foreach : ∀ fuel, l.length < fuel → tailqForeach m q fuel = .ok l
  foreachReverse : ∀ fuel, l.length < fuel → tailqForeachReverse m q fuel = .ok l.reverse
  /-- The safe iterations visit every element once, whatever elements the body removes. -/
  foreachSafe : ∀ (p : E → Bool) (fuel : Nat), l.length < fuel →
    ∃ m', tailqForeachSafe (removeIf p fun m e => tailqRemove m q e) m q fuel = .ok (m', l) ∧
      Family m' (Function.update lists q (some (l.filter (!p ·))))
  foreachReverseSafe : ∀ (p : E → Bool) (fuel : Nat), l.length < fuel →
    ∃ m', tailqForeachReverseSafe (removeIf p fun m e => tailqRemove m q e) m q fuel =
        .ok (m', l.reverse) ∧
      Family m' (Function.update lists q (some (l.filter (!p ·))))

theorem Family.refines {m : Links Q E} {lists : Lists Q E} (h : Family m lists) {q : Q}
    {l : List E} (hl : lists q = some l) : Refines m lists q l := by
  have hpath := (h.ring q l hl).path
  constructor
  case forward => exact chain_of_path hpath
  case prev_slot =>
    intro e he
    obtain ⟨l₁, l₂, rfl⟩ := List.append_of_mem he
    rw [List.map_append, List.map_cons] at hpath
    have hprev := (path_append.mp hpath).1.prev_eq
    refine ⟨_, getLast_mem_nodes q fun x hx => List.mem_append_left _ hx, hprev, ?_⟩
    exact last_next_eq (path_append.mp hpath).1
  case last_slot =>
    exact ⟨hpath.prev_eq, last_next_eq hpath⟩
  case last => exact h.last_eq hl
  case prev =>
    rintro l₁ e l₂ rfl
    exact h.prev_eq hl
  case foreach => exact fun fuel hfuel => h.foreach hl hfuel
  case foreachReverse => exact fun fuel hfuel => h.foreachReverse hl hfuel
  case foreachSafe => exact fun p fuel hfuel => h.foreachSafe hl p hfuel
  case foreachReverseSafe => exact fun p fuel hfuel => h.foreachReverseSafe hl p hfuel

/-- For every family of tail queues and elements, whatever their fields are at first, every run
of the macros leaves in each head the list that the run prescribes. -/
theorem tailq_refines_lists_of_exec (m : Links Q E) (ops : List (Op Q E))
    (hops : (spec Q E).Admissible (fun _ => none) ops) :
    ∃ m', execAll step m ops = .ok (m', (spec Q E).results (fun _ => none) ops) ∧
      ∀ q l, (spec Q E).applyAll (fun _ => none) ops q = some l →
        Refines m' ((spec Q E).applyAll (fun _ => none) ops) q l := by
  obtain ⟨m', hexec, hm'⟩ := execAll_refines (spec Q E) Family
    (fun h hpre => h.step hpre) (ringFamily_none fun q => view q m) hops
  exact ⟨m', hexec, fun q l hl => hm'.refines hl⟩

/-- Two queues are exchanged while one of them is empty, and then concatenated. -/
def swapRun : List (Op Bool Nat) :=
  [.init true, .init false, .insertTail true 1, .insertHead true 2, .swap true false,
    .insertBefore 1 3, .insertHead true 4, .concat true false, .remove true 3]

theorem tailq_refines_lists_swap : ∃ m',
    execAll step ⟨fun _ => none, fun _ => none⟩ swapRun =
      .ok (m', (spec Bool Nat).results (fun _ => none) swapRun) ∧
    ∀ q l, (spec Bool Nat).applyAll (fun _ => none) swapRun q = some l →
      Refines m' ((spec Bool Nat).applyAll (fun _ => none) swapRun) q l := by
  apply tailq_refines_lists_of_exec ⟨fun _ => none, fun _ => none⟩ swapRun
  simp [swapRun, Spec.Admissible, spec, Op.Pre, Op.apply, Lists.Has, Lists.modify,
    MacKernel.insertBefore]

end Refinement

end MacKernel.TailQueue
