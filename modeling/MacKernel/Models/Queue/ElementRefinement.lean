import MacKernel.Core.Simulation
import MacKernel.Models.Queue.ElementChains

/-!
# Element chains as lists

Every run of the macros of Method 2 keeps each head the start of the ring of the list
that the run prescribes. A head whose elements went to another head is not in use.
-/

namespace MacKernel.Queue

open Entries

section Families

variable {Q E : Type} {m : Entries (Node Q E)} {lists : Lists Q E} {q : Q} {l l' : List E} {e : E}

/-- A ring leads back to its head at once if it is empty. -/
theorem head_getD_eq_head : (l.map .entry).head?.getD (.head q : Node Q E) = .head q ↔ l = [] := by
  cases l <;> simp

/-- A ring leads back from its head at once if it is empty. -/
theorem getLast_getD_eq_head :
    (l.map .entry).getLast?.getD (.head q : Node Q E) = .head q ↔ l = [] := by
  rcases List.eq_nil_or_concat' l with rfl | ⟨l, x, rfl⟩
  · simp
  · simp

/-- The first node of a queue is not an element that is on no queue. -/
theorem head_ne_entry (hl : lists q = some l) (he : ¬lists.Has e) :
    (l.map .entry).head?.getD (.head q : Node Q E) ≠ .entry e := by
  intro heq
  have hmem := head_mem_nodes (Q := Q) q fun x (hx : x ∈ l) => hx
  rw [heq] at hmem
  exact not_mem_nodes he hl hmem

variable [DecidableEq Q] [DecidableEq E]

/-- The links of an element that is on no queue are free. -/
theorem Family.clear (h : Family m lists) (he : ¬lists.Has e) :
    Family (Queue.clear m e) lists where
  ring q l hl := by
    have hagree : AgreeOn (· ≠ .entry e) m (Queue.clear m e) :=
      ((AgreeOn.refl _ m).setNext (not_not.mpr rfl) _).setPrev (not_not.mpr rfl) _
    refine (h.ring q l hl).agree hagree fun x hx heq => ?_
    exact not_mem_nodes he hl (heq ▸ hx)
  disjoint := h.disjoint

/-- `queue_enter` puts an element at the end. -/
theorem Family.queueEnter (h : Family m lists) (hl : lists q = some l) (he : ¬lists.Has e) :
    ∃ m', Queue.queueEnter m q e = .ok m' ∧
      Family m' (Function.update lists q (some (l ++ [e]))) := by
  rw [queueEnter_eq (h.ring q l hl).path.prev_eq (own_of_mem (getLast_mem_nodes q fun x hx => hx))]
  exact h.enqueueTail hl he

/-- `queue_enter_first` puts an element in front. -/
theorem Family.queueEnterFirst (h : Family m lists) (hl : lists q = some l) (he : ¬lists.Has e) :
    ∃ m', Queue.queueEnterFirst m q e = .ok m' ∧
      Family m' (Function.update lists q (some (e :: l))) := by
  rw [queueEnterFirst_eq (h.ring q l hl).path.next_eq
    (own_of_mem (head_mem_nodes q fun x hx => hx)) (head_ne_entry hl he)]
  exact h.enqueueHead hl he

/-- `queue_insert_before` the head is an insertion at the end. -/
theorem Family.insertBeforeHead (h : Family m lists) (hl : lists q = some l) (he : ¬lists.Has e) :
    ∃ m', queueInsertBefore m q e (.head q) = .ok m' ∧
      Family m' (Function.update lists q (some (l ++ [e]))) := by
  have hpath := (h.ring q l hl).path
  rw [queueInsertBefore_head hpath.next_eq hpath.prev_eq
    (own_of_mem (getLast_mem_nodes q fun x hx => hx))
    (head_getD_eq_head.trans getLast_getD_eq_head.symm)]
  exact h.enqueueTail hl he

/-- `queue_insert_after` the head is an insertion in front. -/
theorem Family.insertAfterHead (h : Family m lists) (hl : lists q = some l) (he : ¬lists.Has e) :
    ∃ m', queueInsertAfter m q e (.head q) = .ok m' ∧
      Family m' (Function.update lists q (some (e :: l))) := by
  rw [queueInsertAfter_head (h.ring q l hl).path.next_eq
    (own_of_mem (head_mem_nodes q fun x hx => hx))]
  exact h.enqueueHead hl he

/-- `queue_insert_before` an element. -/
theorem Family.insertBeforeEntry {c : E} (h : Family m lists) (hl : lists q = some l)
    (hc : c ∈ l) (he : ¬lists.Has e) : ∃ m', queueInsertBefore m q e (.entry c) = .ok m' ∧
      Family m' (Function.update lists q (some (insertBefore c e l))) := by
  obtain ⟨l₁, l₂, rfl, hc₁, -⟩ := h.split hl hc
  have hring := h.ring q _ hl
  have hx := not_mem_nodes he hl
  have hlast : (l₁.map .entry).getLast?.getD (.head q : Node Q E) ∈
      .head q :: (l₁ ++ c :: l₂).map .entry :=
    getLast_mem_nodes q fun x hx => List.mem_append_left _ hx
  have hfirst : ((l₁ ++ c :: l₂).map .entry).head?.getD (.head q : Node Q E) = .entry c ↔
      (l₁.map .entry).getLast?.getD (.head q : Node Q E) = .head q := by
    rw [getLast_getD_eq_head]
    cases l₁ with
    | nil => simp
    | cons x l₁ =>
      have hne : x ≠ c := fun heq => hc₁ (heq ▸ List.mem_cons_self)
      simp [hne]
  have hnext := hring.path.next_eq
  rw [List.map_append, List.map_cons] at hring hx
  have hprev := (path_append.mp hring.path).1.prev_eq
  rw [queueInsertBefore_entry hnext hprev (own_of_mem hlast) hfirst]
  refine ⟨_, enqueueTail_eq hprev ?_,
    h.insert hl he hlast ?_ ?_ fun x hx => mem_of_mem_insertBefore hx⟩
  · intro heq
    rw [← heq, List.map_append, List.map_cons] at hlast
    exact hx hlast
  · simp
  · rw [insertBefore_append hc₁, List.map_append, List.map_cons, List.map_cons]
    exact hring.insert_before hx

/-- `queue_insert_after` an element. -/
theorem Family.insertAfterEntry {c : E} (h : Family m lists) (hl : lists q = some l)
    (hc : c ∈ l) (he : ¬lists.Has e) : ∃ m', queueInsertAfter m q e (.entry c) = .ok m' ∧
      Family m' (Function.update lists q (some (insertAfter c e l))) := by
  have hins := h.insqueEntry hl hc he
  obtain ⟨l₁, l₂, rfl, hc₁, -⟩ := h.split hl hc
  have hring := h.ring q _ hl
  have hnodup := h.nodup hl
  have hlast : ((l₁ ++ c :: l₂).map .entry).getLast?.getD (.head q : Node Q E) = .entry c ↔
      (l₂.map .entry).head?.getD (.head q : Node Q E) = .head q := by
    rw [head_getD_eq_head]
    rcases List.eq_nil_or_concat' l₂ with rfl | ⟨l₂, x, rfl⟩
    · simp
    · have hne : x ≠ c := by
        rintro rfl
        have htail := (List.nodup_append.mp hnodup).2.1
        exact (List.nodup_cons.mp htail).1 (by simp)
      have hlist : (l₁ ++ c :: (l₂ ++ [x])).map (.entry : E → Node Q E) =
          (l₁ ++ c :: l₂).map .entry ++ [.entry x] := by simp
      rw [hlist, List.getLast?_concat]
      simp [hne]
  have hprev := hring.path.prev_eq
  rw [List.map_append, List.map_cons] at hring
  have hnext := (path_append.mp hring.path).2.next_eq
  rw [queueInsertAfter_entry hprev hnext ?_ hlast]
  · exact hins
  · exact own_of_mem (head_mem_nodes q fun x (hx : x ∈ l₂) => hx)

/-- `queue_remove` takes an element out of its list. -/
theorem Family.queueRemove (h : Family m lists) (hl : lists q = some l) (he : e ∈ l) :
    ∃ m', Queue.queueRemove m q e = .ok m' ∧ Family m' (lists.erase e) := by
  obtain ⟨m', hm, hm'⟩ := h.remqueue hl he
  have hnot := h.not_has_erase e
  rw [h.erase_eq_update hl he] at hnot ⊢
  refine ⟨Queue.clear m' e, ?_, hm'.clear hnot⟩
  obtain ⟨l₁, l₂, rfl, -, -⟩ := h.split hl he
  have hring := h.ring q _ hl
  rw [List.map_append, List.map_cons] at hring
  obtain ⟨h₁, h₂⟩ := path_append.mp hring.path
  rw [queueRemove_eq h₂.next_eq h₁.prev_eq
    (own_of_mem (head_mem_nodes q fun x (hx : x ∈ l₂) => hx))
    (own_of_mem (getLast_mem_nodes q fun x (hx : x ∈ l₁) => hx)), hm]
  rfl

/-- `queue_remove_first` returns the first element and keeps the others. -/
theorem Family.queueRemoveFirst {x : E} (h : Family m lists) (hl : lists q = some (x :: l)) :
    ∃ m', Queue.queueRemoveFirst m q = .ok (m', x) ∧
      Family m' (Function.update lists q (some l)) := by
  obtain ⟨m', hm, hm'⟩ := h.dequeueHead hl
  have hnot := h.not_has_erase x
  rw [h.erase_eq_update hl List.mem_cons_self, List.erase_cons_head] at hnot
  have hpath := (h.ring q _ hl).path
  refine ⟨Queue.clear m' x, ?_, hm'.clear hnot⟩
  rw [queueRemoveFirst_eq hpath.1.1 hpath.2.next_eq
    (own_of_mem (head_mem_nodes q fun x (hx : x ∈ l) => hx)), hm]
  rfl

/-- `queue_remove_last` returns the last element and keeps the others. -/
theorem Family.queueRemoveLast {x : E} (h : Family m lists) (hl : lists q = some (l ++ [x])) :
    ∃ m', Queue.queueRemoveLast m q = .ok (m', x) ∧
      Family m' (Function.update lists q (some l)) := by
  obtain ⟨m', hm, hm'⟩ := h.dequeueTail hl
  rw [List.dropLast_concat] at hm'
  have hnot : ¬Lists.Has (Function.update lists q (some l)) x := by
    have hxl : x ∉ l := fun hmem =>
      (List.nodup_append.mp (h.nodup hl)).2.2 x hmem x (by simp) rfl
    have hlast : (l ++ [x]).erase x = l := by
      rw [List.erase_append_right _ hxl, List.erase_cons_head, List.append_nil]
    have hnot := h.not_has_erase x
    rwa [h.erase_eq_update hl (List.mem_append_right l (List.mem_singleton_self x)), hlast] at hnot
  have hring := h.ring q _ hl
  rw [List.map_append, List.map_cons, List.map_nil] at hring
  obtain ⟨h₁, h₂⟩ := path_append.mp hring.path
  refine ⟨Queue.clear m' x, ?_, hm'.clear hnot⟩
  rw [queueRemoveLast_eq h₂.2 h₁.prev_eq
    (own_of_mem (getLast_mem_nodes q fun x (hx : x ∈ l) => hx)), hm]
  rfl

/-- The elements go to a head that is not in use. -/
theorem Family.queueNewHead {old new : Q} (h : Family m lists) (hl : lists old = some l)
    (hnew : lists new = none) : ∃ m', Queue.queueNewHead m old new = .ok m' ∧
      Family m' (Function.update (Function.update lists old (if l = [] then some [] else none)) new
        (some l)) := by
  have hne : new ≠ old := by
    rintro rfl
    exact Option.some_ne_none l (hl.symm.trans hnew)
  cases l with
  | nil =>
    refine ⟨_, queueNewHead_nil (h.ring old _ hl) new, ?_⟩
    rw [if_pos rfl, ← hl, Function.update_eq_self, hl]
    exact h.init new
  | cons x l =>
    refine ⟨_, queueNewHead_cons (h.ring old _ hl) new, ?_⟩
    rw [if_neg (List.cons_ne_nil x l)]
    exact h.rebase hl hne

end Families

section Operations

/-- The operations of Method 2. -/
inductive ElementOp (Q E : Type) where
  | queueInit (q : Q)
  | queueEnter (q : Q) (e : E)
  | queueEnterFirst (q : Q) (e : E)
  | queueInsertBefore (q : Q) (e : E) (cur : Node Q E)
  | queueInsertAfter (q : Q) (e : E) (cur : Node Q E)
  | queueRemove (q : Q) (e : E)
  | queueRemoveFirst (q : Q)
  | queueRemoveLast (q : Q)
  | queueNewHead (old new : Q)

variable {Q E : Type}

/-- The head of a queue, or an element on it. -/
def Cursor (q : Q) (l : List E) : Node Q E → Prop
  | .head q' => q' = q
  | .entry c => c ∈ l

/-- Queues are initialised, elements are put on a queue only if they are on none, elements that
are removed are on the queue, and new heads are fresh. -/
def ElementOp.Pre (lists : Lists Q E) : ElementOp Q E → Prop
  | .queueInit _ => True
  | .queueEnter q e | .queueEnterFirst q e => (lists q).isSome ∧ ¬lists.Has e
  | .queueInsertBefore q e cur | .queueInsertAfter q e cur =>
    (∃ l, lists q = some l ∧ Cursor q l cur) ∧ ¬lists.Has e
  | .queueRemove q e => ∃ l, lists q = some l ∧ e ∈ l
  | .queueRemoveFirst q | .queueRemoveLast q => ∃ l, lists q = some l ∧ l ≠ []
  | .queueNewHead old new => (lists old).isSome ∧ lists new = none

variable [DecidableEq Q] [DecidableEq E]

/-- The operations on lists. -/
def ElementOp.apply (lists : Lists Q E) : ElementOp Q E → Lists Q E
  | .queueInit q => Function.update lists q (some [])
  | .queueEnter q e => lists.modify q (· ++ [e])
  | .queueEnterFirst q e => lists.modify q (e :: ·)
  | .queueInsertBefore q e (.head _) => lists.modify q (· ++ [e])
  | .queueInsertBefore q e (.entry c) => lists.modify q (insertBefore c e)
  | .queueInsertAfter q e (.head _) => lists.modify q (e :: ·)
  | .queueInsertAfter q e (.entry c) => lists.modify q (insertAfter c e)
  | .queueRemove _ e => lists.erase e
  | .queueRemoveFirst q => lists.modify q List.tail
  | .queueRemoveLast q => lists.modify q List.dropLast
  | .queueNewHead old new =>
    Function.update (Function.update lists old (if lists old = some [] then some [] else none)) new
      (lists old)

/-- What the operations on lists return. -/
def ElementOp.result (lists : Lists Q E) : ElementOp Q E → Option E
  | .queueRemoveFirst q => (lists q).bind List.head?
  | .queueRemoveLast q => (lists q).bind List.getLast?
  | _ => none

/-- The list model of Method 2. -/
def elementSpec (Q E : Type) [DecidableEq Q] [DecidableEq E] :
    Spec (Lists Q E) (ElementOp Q E) (Option E) where
  pre lists op := op.Pre lists
  apply lists op := op.apply lists
  result lists op := op.result lists

/-- One operation, with the element that it returns. -/
def elementStep (m : Entries (Node Q E)) :
    ElementOp Q E → Except Fault (Entries (Node Q E) × Option E)
  | .queueInit q => return (Queue.queueInit m (.head q), none)
  | .queueEnter q e => return (← Queue.queueEnter m q e, none)
  | .queueEnterFirst q e => return (← Queue.queueEnterFirst m q e, none)
  | .queueInsertBefore q e cur => return (← Queue.queueInsertBefore m q e cur, none)
  | .queueInsertAfter q e cur => return (← Queue.queueInsertAfter m q e cur, none)
  | .queueRemove q e => return (← Queue.queueRemove m q e, none)
  | .queueRemoveFirst q => do
    let (m, entry) ← Queue.queueRemoveFirst m q
    return (m, some entry)
  | .queueRemoveLast q => do
    let (m, entry) ← Queue.queueRemoveLast m q
    return (m, some entry)
  | .queueNewHead old new => return (← Queue.queueNewHead m old new, none)

variable {m : Entries (Node Q E)} {lists : Lists Q E}

/-- Every operation refines the operation on lists. -/
theorem Family.elementStep (h : Family m lists) {op : ElementOp Q E} (hop : op.Pre lists) :
    ∃ m', Queue.elementStep m op = .ok (m', op.result lists) ∧ Family m' (op.apply lists) := by
  cases op with
  | queueInit q => exact ⟨_, rfl, h.init q⟩
  | queueEnter q e =>
    obtain ⟨l, hl⟩ := Option.isSome_iff_exists.mp hop.1
    rw [ElementOp.apply, Lists.modify_eq hl]
    exact exists_ok_pair none (h.queueEnter hl hop.2)
  | queueEnterFirst q e =>
    obtain ⟨l, hl⟩ := Option.isSome_iff_exists.mp hop.1
    rw [ElementOp.apply, Lists.modify_eq hl]
    exact exists_ok_pair none (h.queueEnterFirst hl hop.2)
  | queueInsertBefore q e cur =>
    obtain ⟨⟨l, hl, hcur⟩, he⟩ := hop
    cases cur with
    | head q' =>
      obtain rfl : q' = q := hcur
      rw [ElementOp.apply, Lists.modify_eq hl]
      exact exists_ok_pair none (h.insertBeforeHead hl he)
    | entry c =>
      rw [ElementOp.apply, Lists.modify_eq hl]
      exact exists_ok_pair none (h.insertBeforeEntry hl hcur he)
  | queueInsertAfter q e cur =>
    obtain ⟨⟨l, hl, hcur⟩, he⟩ := hop
    cases cur with
    | head q' =>
      obtain rfl : q' = q := hcur
      rw [ElementOp.apply, Lists.modify_eq hl]
      exact exists_ok_pair none (h.insertAfterHead hl he)
    | entry c =>
      rw [ElementOp.apply, Lists.modify_eq hl]
      exact exists_ok_pair none (h.insertAfterEntry hl hcur he)
  | queueRemove q e =>
    obtain ⟨l, hl, he⟩ := hop
    exact exists_ok_pair none (h.queueRemove hl he)
  | queueRemoveFirst q =>
    obtain ⟨l, hl, hne⟩ := hop
    obtain ⟨x, l, rfl⟩ := List.exists_cons_of_ne_nil hne
    obtain ⟨m', hm, hm'⟩ := h.queueRemoveFirst hl
    refine ⟨m', by rw [Queue.elementStep, hm, ElementOp.result, hl]; rfl, ?_⟩
    rw [ElementOp.apply, Lists.modify_eq hl]
    exact hm'
  | queueRemoveLast q =>
    obtain ⟨l, hl, hne⟩ := hop
    obtain ⟨l, x, rfl⟩ := (List.eq_nil_or_concat' l).resolve_left hne
    obtain ⟨m', hm, hm'⟩ := h.queueRemoveLast hl
    refine ⟨m', ?_, ?_⟩
    · rw [Queue.elementStep, hm, ElementOp.result, hl, Option.bind_some, List.getLast?_concat]
      rfl
    · rw [ElementOp.apply, Lists.modify_eq hl, List.dropLast_concat]
      exact hm'
  | queueNewHead old new =>
    obtain ⟨l, hl⟩ := Option.isSome_iff_exists.mp hop.1
    have hnew := h.queueNewHead hl hop.2
    rw [ElementOp.apply, hl]
    simp only [Option.some.injEq]
    exact exists_ok_pair none hnew

end Operations

section Refinement

variable {Q E : Type} [DecidableEq Q] [DecidableEq E]

/-- What a head in use promises. -/
structure ElementRefines (m : Entries (Node Q E)) (q : Q) (l : List E) : Prop where
  /-- The `next` fields lead through the list to the head. -/
  forward : queueIterate m q (l.length + 1) = .ok l
  /-- The `prev` fields lead through the reversed list to the head. -/
  backward : walk m.prev (.head q) (l.length + 1) (m.prev (.head q)) = .ok (l.reverse.map .entry)
  /-- Neighbours point at each other. -/
  ring : m.Ring (.head q) (l.map .entry)
  /-- The first element names the head. -/
  first : ∀ e, l.head? = some e → m.prev (.entry e) = some (.head q)
  /-- The last element names the head. -/
  last : ∀ e, l.getLast? = some e → m.next (.entry e) = some (.head q)

/-- The lists of a family are what the macros show. -/
theorem Family.elementRefines {m : Entries (Node Q E)} {lists : Lists Q E} (h : Family m lists)
    {q : Q} {l : List E} (hl : lists q = some l) : ElementRefines m q l := by
  have hring := h.ring q l hl
  have hfuel : (l.map (.entry : E → Node Q E)).length < l.length + 1 := by
    rw [List.length_map]
    exact Nat.lt_succ_self _
  constructor
  case forward => exact queueIterate_eq hring.path.chain (Nat.lt_succ_self _)
  case backward =>
    rw [List.map_reverse]
    exact hring.path.walk_prev hring.not_mem hfuel
  case ring => exact hring
  case first =>
    intro e he
    obtain ⟨l, rfl⟩ := List.head?_eq_some_iff.mp he
    exact hring.path.1.2
  case last =>
    intro e he
    obtain ⟨l, rfl⟩ := List.getLast?_eq_some_iff.mp he
    rw [List.map_append] at hring
    exact (path_append.mp hring.path).2.1

/-- For every family of queue heads and elements, whatever the links are at first, every run of
the macros of Method 2 returns what the lists prescribe and leaves each head with its list. -/
theorem element_refines_lists_of_exec (m : Entries (Node Q E)) (ops : List (ElementOp Q E))
    (hops : (elementSpec Q E).Admissible (fun _ => none) ops) :
    ∃ m', execAll elementStep m ops = .ok (m', (elementSpec Q E).results (fun _ => none) ops) ∧
      ∀ q l, (elementSpec Q E).applyAll (fun _ => none) ops q = some l →
        ElementRefines m' q l := by
  obtain ⟨m', hexec, hm'⟩ := execAll_refines (elementSpec Q E) Family
    (fun h hpre => h.elementStep hpre) (family_none m) hops
  exact ⟨m', hexec, fun q l hl => hm'.elementRefines hl⟩

/-- Elements before and behind others, and another head for the queue. -/
def newHeadRun : List (ElementOp Bool Nat) :=
  [.queueInit true, .queueEnter true 1, .queueInsertBefore true 2 (.entry 1),
    .queueInsertAfter true 3 (.entry 1), .queueNewHead true false, .queueRemoveFirst false]

/-- The run that moves a list to a new head. -/
theorem element_refines_lists_newHead : ∃ m',
    execAll elementStep ⟨fun _ => none, fun _ => none⟩ newHeadRun =
      .ok (m', [none, none, none, none, none, some 2]) ∧
    ∀ q l, (elementSpec Bool Nat).applyAll (fun _ => none) newHeadRun q = some l →
      ElementRefines m' q l := by
  apply element_refines_lists_of_exec ⟨fun _ => none, fun _ => none⟩ newHeadRun
  simp [newHeadRun, Spec.Admissible, elementSpec, ElementOp.Pre, ElementOp.apply, Lists.Has,
    Lists.modify, Cursor, insertBefore, insertAfter]

end Refinement

end MacKernel.Queue
