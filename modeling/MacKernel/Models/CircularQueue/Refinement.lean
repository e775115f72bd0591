import MacKernel.Core.Simulation
import MacKernel.Models.CircularQueue.Native
import MacKernel.Models.Queue.ElementChains

/-!
# Circular queues as lists

On a family of circular queues every macro takes the branches that belong to the
neighbours of the element, so that it stores what a function of `kern/queue.h` stores.
`CIRCLEQ_INSERT_HEAD` and `CIRCLEQ_INSERT_TAIL` decide by the field at the other end,
which names the head exactly when the queue is empty.
-/

namespace MacKernel.CircularQueue

open Entries Queue

section Macros

variable {Q E : Type} [DecidableEq Q] [DecidableEq E]
variable {m : Entries (Node Q E)} {lists : Lists Q E} {q : Q} {l : List E} {c e : E}
variable {y z : Node Q E}

/-- `CIRCLEQ_INSERT_AFTER` is `enqueue_head` at the element. -/
theorem circleqInsertAfter_eq (hnext : m.next (.entry c) = some y) (hy : Own q y) (he : e ≠ c) :
    circleqInsertAfter m q c e = enqueueHead m (.entry c) (.entry e) := by
  have hread : ((m.setNext (.entry e) (some y)).setPrev (.entry e) (some (.entry c))).next
      (.entry c) = some y := (setNext_next_of_ne (by simp [he.symm]) _).trans hnext
  simp only [circleqInsertAfter, enqueueHead, circleqNext, hnext, hread, storePrev_own hy,
    storePrev_some, ok_bind]

/-- `CIRCLEQ_INSERT_BEFORE` is `enqueue_tail` at the element. -/
theorem circleqInsertBefore_eq (hprev : m.prev (.entry c) = some z) (hz : Own q z) (he : e ≠ c) :
    circleqInsertBefore m q c e = enqueueTail m (.entry c) (.entry e) := by
  have hread : ((m.setNext (.entry e) (some (.entry c))).setPrev (.entry e) (some z)).prev
      (.entry c) = some z := (setPrev_prev_of_ne (by simp [he.symm]) _).trans hprev
  simp only [circleqInsertBefore, enqueueTail, circleqPrev, setNext_prev, hprev, hread,
    storeNext_own hz, storeNext_some, ok_bind]

/-- `CIRCLEQ_INSERT_HEAD` is `enqueue_head`. -/
theorem circleqInsertHead_eq (hnext : m.next (.head q) = some y) (hprev : m.prev (.head q) = some z)
    (hy : Own q y) (hyz : z = .head q ↔ y = .head q) :
    circleqInsertHead m q e = enqueueHead m (.head q) (.entry e) := by
  have hfirst : ((m.setNext (.entry e) (some y)).setPrev (.entry e) (some (.head q))).next
      (.head q) = some y := by rw [setPrev_next, setNext_next_of_ne (by simp), hnext]
  have hlast : ((m.setNext (.entry e) (some y)).setPrev (.entry e) (some (.head q))).prev
      (.head q) = some z := by rw [setPrev_prev_of_ne (by simp), setNext_prev, hprev]
  have hbranch : (some z = some (.head q)) = (some (.head q) = some y) := by
    simp only [Option.some.injEq, hyz, eq_comm]
  simp only [circleqInsertHead, enqueueHead, circleqFirst, circleqLast, hnext, hfirst, hlast,
    hbranch, storePrev_own hy, storePrev_some, ok_bind]

/-- `CIRCLEQ_INSERT_TAIL` is `enqueue_tail`. -/
theorem circleqInsertTail_eq (hnext : m.next (.head q) = some y) (hprev : m.prev (.head q) = some z)
    (hz : Own q z) (hyz : z = .head q ↔ y = .head q) :
    circleqInsertTail m q e = enqueueTail m (.head q) (.entry e) := by
  have hfirst : ((m.setNext (.entry e) (some (.head q))).setPrev (.entry e) (some z)).next
      (.head q) = some y := by rw [setPrev_next, setNext_next_of_ne (by simp), hnext]
  have hlast : ((m.setNext (.entry e) (some (.head q))).setPrev (.entry e) (some z)).prev
      (.head q) = some z := by rw [setPrev_prev_of_ne (by simp), setNext_prev, hprev]
  have hbranch : (some y = some (.head q)) = (some (.head q) = some z) := by
    simp only [Option.some.injEq, ← hyz, eq_comm]
  simp only [circleqInsertTail, enqueueTail, circleqFirst, circleqLast, setNext_prev, hprev, hfirst,
    hlast, hbranch, storeNext_own hz, storeNext_some, ok_bind]

/-- `CIRCLEQ_REMOVE` is `remqueue`. -/
theorem circleqRemove_eq (hnext : m.next (.entry e) = some y) (hprev : m.prev (.entry e) = some z)
    (hy : Own q y) (hz : Own q z) (hne : y ≠ .entry e) :
    circleqRemove m q e = remqueue m (.entry e) := by
  have hread : (m.setPrev y (some z)).prev (.entry e) = some z :=
    (setPrev_prev_of_ne hne.symm _).trans hprev
  simp only [circleqRemove, remqueue, circleqNext, circleqPrev, hnext, hprev, storePrev_own hy,
    setPrev_next, hread, storePrev_some, ok_bind]
  rcases hz with rfl | ⟨p, rfl⟩
  · rw [if_pos rfl]
    rfl
  · rw [if_neg (by simp)]
    rfl

end Macros

section Families

variable {Q E : Type} [DecidableEq Q] [DecidableEq E]
variable {m : Entries (Node Q E)} {lists : Lists Q E} {q : Q} {l l₁ l₂ : List E} {c e : E}

omit [DecidableEq Q] [DecidableEq E] in
/-- The two ends of a queue name the head at the same time. -/
theorem ends_iff (q : Q) (l : List E) :
    (l.map .entry).getLast?.getD (.head q : Node Q E) = .head q ↔
      (l.map .entry).head?.getD (.head q : Node Q E) = .head q := by
  cases l with
  | nil => simp
  | cons x l => simp [List.getLast?_cons]

/-- `CIRCLEQ_INSERT_HEAD` puts an element in front. -/
theorem insertHead_family (h : Family m lists) (hl : lists q = some l) (he : ¬lists.Has e) :
    ∃ m', circleqInsertHead m q e = .ok m' ∧
      Family m' (Function.update lists q (some (e :: l))) := by
  have hpath := (h.ring q l hl).path
  rw [circleqInsertHead_eq hpath.next_eq hpath.prev_eq
    (own_of_mem (head_mem_nodes q fun x hx => hx)) (ends_iff q l)]
  exact h.enqueueHead hl he

/-- `CIRCLEQ_INSERT_TAIL` puts an element at the end. -/
theorem insertTail_family (h : Family m lists) (hl : lists q = some l) (he : ¬lists.Has e) :
    ∃ m', circleqInsertTail m q e = .ok m' ∧
      Family m' (Function.update lists q (some (l ++ [e]))) := by
  have hpath := (h.ring q l hl).path
  rw [circleqInsertTail_eq hpath.next_eq hpath.prev_eq
    (own_of_mem (getLast_mem_nodes q fun x hx => hx)) (ends_iff q l)]
  exact h.enqueueTail hl he

/-- `CIRCLEQ_INSERT_AFTER` puts an element behind another. -/
theorem insertAfter_family (h : Family m lists) (hl : lists q = some l) (hc : c ∈ l)
    (he : ¬lists.Has e) : ∃ m', circleqInsertAfter m q c e = .ok m' ∧
      Family m' (Function.update lists q (some (insertAfter c e l))) := by
  have hins := h.insqueEntry hl hc he
  have hne : e ≠ c := fun heq => he ⟨q, l, hl, heq ▸ hc⟩
  obtain ⟨l₁, l₂, rfl, -, -⟩ := h.split hl hc
  have hring := h.ring q _ hl
  rw [List.map_append, List.map_cons] at hring
  have hnext := (path_append.mp hring.path).2.next_eq
  rw [circleqInsertAfter_eq hnext (own_of_mem (head_mem_nodes q fun x (hx : x ∈ l₂) => hx)) hne]
  exact hins

/-- `CIRCLEQ_INSERT_BEFORE` puts an element before another. -/
theorem insertBefore_family (h : Family m lists) (hl : lists q = some l) (hc : c ∈ l)
    (he : ¬lists.Has e) : ∃ m', circleqInsertBefore m q c e = .ok m' ∧
      Family m' (Function.update lists q (some (insertBefore c e l))) := by
  have hne : e ≠ c := fun heq => he ⟨q, l, hl, heq ▸ hc⟩
  obtain ⟨l₁, l₂, rfl, hc₁, -⟩ := h.split hl hc
  have hring := h.ring q _ hl
  have hx := not_mem_nodes he hl
  have hlast : (l₁.map .entry).getLast?.getD (.head q : Node Q E) ∈
      .head q :: (l₁ ++ c :: l₂).map .entry :=
    getLast_mem_nodes q fun x hx => List.mem_append_left _ hx
  have hlast_ne : (.entry e : Node Q E) ≠ (l₁.map .entry).getLast?.getD (.head q) :=
    fun heq => hx (heq ▸ hlast)
  rw [List.map_append, List.map_cons] at hring hx
  have hprev := (path_append.mp hring.path).1.prev_eq
  rw [circleqInsertBefore_eq hprev (own_of_mem hlast) hne]
  refine ⟨_, enqueueTail_eq hprev hlast_ne,
    h.insert hl he hlast (by simp) ?_ fun x hx => mem_of_mem_insertBefore hx⟩
  rw [insertBefore_append hc₁, List.map_append, List.map_cons, List.map_cons]
  exact hring.insert_before hx

/-- `CIRCLEQ_REMOVE` takes an element out of its queue. -/
theorem remove_family (h : Family m lists) (hl : lists q = some l) (he : e ∈ l) :
    ∃ m', circleqRemove m q e = .ok m' ∧
      Family m' (Function.update lists q (some (l.erase e))) := by
  have hremove := h.remqueue hl he
  have hnodup := h.nodup hl
  obtain ⟨l₁, l₂, rfl, -, -⟩ := h.split hl he
  have hring := h.ring q _ hl
  rw [List.map_append, List.map_cons] at hring
  obtain ⟨h₁, h₂⟩ := path_append.mp hring.path
  have hmem := head_mem_nodes q fun x (hx : x ∈ l₂) => hx
  have hne : (l₂.map .entry).head?.getD (.head q : Node Q E) ≠ .entry e := by
    intro heq
    rw [heq] at hmem
    have he₂ : e ∈ l₂ := by simpa using hmem
    exact (List.nodup_cons.mp (List.nodup_append.mp hnodup).2.1).1 he₂
  rw [circleqRemove_eq h₂.next_eq h₁.prev_eq (own_of_mem hmem)
    (own_of_mem (getLast_mem_nodes q fun x (hx : x ∈ l₁) => hx)) hne]
  exact hremove

end Families

section Operations

/-- The macros that change circular queues. -/
inductive Op (Q E : Type) where
  | init (q : Q)
  | insertHead (q : Q) (elm : E)
  | insertTail (q : Q) (elm : E)
  | insertBefore (q : Q) (listelm elm : E)
  | insertAfter (q : Q) (listelm elm : E)
  | remove (q : Q) (elm : E)

variable {Q E : Type}

/-- What callers see to: heads are initialised, an element that is inserted is on no queue, and
what is removed is there. -/
def Op.Pre (lists : Lists Q E) : Op Q E → Prop
  | .init _ => True
  | .insertHead q e | .insertTail q e => (lists q).isSome ∧ ¬lists.Has e
  | .insertBefore q listelm e | .insertAfter q listelm e =>
    (∃ l, lists q = some l ∧ listelm ∈ l) ∧ ¬lists.Has e
  | .remove q e => ∃ l, lists q = some l ∧ e ∈ l

variable [DecidableEq Q] [DecidableEq E]

/-- The macros on lists. -/
def Op.apply (lists : Lists Q E) : Op Q E → Lists Q E
  | .init q => Function.update lists q (some [])
  | .insertHead q e => lists.modify q (e :: ·)
  | .insertTail q e => lists.modify q (· ++ [e])
  | .insertBefore q listelm e => lists.modify q (MacKernel.insertBefore listelm e)
  | .insertAfter q listelm e => lists.modify q (MacKernel.insertAfter listelm e)
  | .remove q e => lists.modify q (·.erase e)

/-- The list model of the queues. -/
def spec (Q E : Type) [DecidableEq Q] [DecidableEq E] : Spec (Lists Q E) (Op Q E) Unit where
  pre lists op := op.Pre lists
  apply lists op := op.apply lists
  result _ _ := ()

/-- One macro. -/
def step (m : Entries (Node Q E)) : Op Q E → Except Fault (Entries (Node Q E) × Unit)
  | .init q => return (circleqInit m q, ())
  | .insertHead q e => return (← circleqInsertHead m q e, ())
  | .insertTail q e => return (← circleqInsertTail m q e, ())
  | .insertBefore q listelm e => return (← circleqInsertBefore m q listelm e, ())
  | .insertAfter q listelm e => return (← circleqInsertAfter m q listelm e, ())
  | .remove q e => return (← circleqRemove m q e, ())

/-- Every macro refines the operation on lists. -/
theorem step_family {m : Entries (Node Q E)} {lists : Lists Q E} (h : Family m lists)
    {op : Op Q E} (hop : op.Pre lists) :
    ∃ m', step m op = .ok (m', ()) ∧ Family m' (op.apply lists) := by
  cases op with
  | init q => exact ⟨_, rfl, h.init q⟩
  | insertHead q e =>
    obtain ⟨l, hl⟩ := Option.isSome_iff_exists.mp hop.1
    rw [Op.apply, Lists.modify_eq hl]
    exact exists_ok_pair () (insertHead_family h hl hop.2)
  | insertTail q e =>
    obtain ⟨l, hl⟩ := Option.isSome_iff_exists.mp hop.1
    rw [Op.apply, Lists.modify_eq hl]
    exact exists_ok_pair () (insertTail_family h hl hop.2)
  | insertBefore q listelm e =>
    obtain ⟨⟨l, hl, hmem⟩, he⟩ := hop
    rw [Op.apply, Lists.modify_eq hl]
    exact exists_ok_pair () (insertBefore_family h hl hmem he)
  | insertAfter q listelm e =>
    obtain ⟨⟨l, hl, hmem⟩, he⟩ := hop
    rw [Op.apply, Lists.modify_eq hl]
    exact exists_ok_pair () (insertAfter_family h hl hmem he)
  | remove q e =>
    obtain ⟨l, hl, he⟩ := hop
    rw [Op.apply, Lists.modify_eq hl]
    exact exists_ok_pair () (remove_family h hl he)

end Operations

section Refinement

variable {Q E : Type} [DecidableEq Q] [DecidableEq E]

/-- What a head in use promises. -/
structure Refines (m : Entries (Node Q E)) (q : Q) (l : List E) : Prop where
  /-- Neighbours name each other, and the ends of the list name the head. -/
  ring : m.Ring (.head q) (l.map .entry)
  first : circleqFirst m q = some ((l.map .entry).head?.getD (.head q))
  last : circleqLast m q = some ((l.map .entry).getLast?.getD (.head q))
  empty : circleqEmpty m q = l.isEmpty
  foreach : ∀ fuel, l.length < fuel → circleqForeach m q fuel = .ok l
  /-- `CIRCLEQ_PREV` leads from the last element back through the list. -/
  backward : ∀ fuel, l.length < fuel →
    walk m.prev (.head q) fuel (circleqLast m q) = .ok (l.reverse.map .entry)

/-- The queues of a family are what the macros show. -/
theorem refines_family {m : Entries (Node Q E)} {lists : Lists Q E} (h : Family m lists) {q : Q}
    {l : List E} (hl : lists q = some l) : Refines m q l := by
  have hring := h.ring q l hl
  constructor
  case ring => exact hring
  case first => exact hring.path.next_eq
  case last => exact hring.path.prev_eq
  case empty =>
    rw [circleqEmpty, hring.path.next_eq]
    cases l with
    | nil => simp
    | cons x l => simp
  case foreach => exact fun fuel hfuel => queueIterate_eq hring.path.chain hfuel
  case backward =>
    intro fuel hfuel
    rw [List.map_reverse]
    exact hring.path.walk_prev hring.not_mem (by rwa [List.length_map])

/-- For every family of circular queues, whatever their fields are at first, every run of the
macros leaves in each head the ring of the list that the run prescribes, and never follows a head
as if it were an element. -/
theorem circleq_refines_lists_of_exec (m : Entries (Node Q E)) (ops : List (Op Q E))
    (hops : (spec Q E).Admissible (fun _ => none) ops) :
    ∃ m', execAll step m ops = .ok (m', (spec Q E).results (fun _ => none) ops) ∧
      ∀ q l, (spec Q E).applyAll (fun _ => none) ops q = some l → Refines m' q l := by
  obtain ⟨m', hexec, hm'⟩ := execAll_refines (spec Q E) Family
    (fun h hpre => step_family h hpre) (family_none m) hops
  exact ⟨m', hexec, fun q l hl => refines_family hm' hl⟩

/-- A queue is emptied and filled again from the other end. -/
def refilledRun : List (Op Bool Nat) :=
  [.init true, .insertHead true 1, .insertAfter true 1 2, .insertBefore true 2 3, .remove true 3,
    .remove true 1, .remove true 2, .insertTail true 3, .insertHead true 2]

/-- The run that empties a queue and fills it again. -/
theorem circleq_refines_lists_refilled : ∃ m',
    execAll step ⟨fun _ => none, fun _ => none⟩ refilledRun =
      .ok (m', (spec Bool Nat).results (fun _ => none) refilledRun) ∧
    ∀ q l, (spec Bool Nat).applyAll (fun _ => none) refilledRun q = some l → Refines m' q l := by
  apply circleq_refines_lists_of_exec ⟨fun _ => none, fun _ => none⟩ refilledRun
  simp [refilledRun, Spec.Admissible, spec, Op.Pre, Op.apply, Lists.Has, Lists.modify,
    MacKernel.insertBefore, MacKernel.insertAfter]

end Refinement

end MacKernel.CircularQueue
