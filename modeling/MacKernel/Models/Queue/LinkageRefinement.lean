import MacKernel.Core.Simulation
import MacKernel.Models.Queue.LinkageChains

/-!
# Linkage chains as lists

Every run of the functions of Method 1 on a family of queues keeps each head the start
of the ring of the list that the run prescribes, and an iteration may remove the
entries that it visits.
-/

namespace MacKernel.Queue

open Entries

section Iteration

variable {N : Type} [DecidableEq N] {m : Entries N} {a : N} {l : List N}

/-- A body that removes some of the entries. -/
def removeIf (p : N → Bool) (m : Entries N) (elt : N) : Except Fault (Entries N) :=
  if p elt then remqueue m elt else return m

/-- What the body leaves of the ring, and of the nodes that are not on it. -/
theorem removeIf_spec (p : N → Bool) {m₀ : Entries N} {x : N} {k r : List N}
    (h : m.Ring a (k ++ x :: r)) {other : N → Prop} (hother : ∀ y ∈ a :: (k ++ x :: r), ¬other y)
    (hagree : AgreeOn other m₀ m) :
    ∃ m', removeIf p m x = .ok m' ∧ m'.Ring a (k ++ [x].filter (!p ·) ++ r) ∧
      AgreeOn other m₀ m' := by
  unfold removeIf
  by_cases hp : p x = true
  · rw [if_pos hp, List.filter_cons_of_neg (by simp [hp]), List.filter_nil, List.append_nil]
    refine ⟨_, remqueue_eq h, h.remove_mem, hagree.link (hother _ ?_) (hother _ ?_)⟩
    · have hmem := getLast_getD_mem a k
      simp only [List.mem_cons, List.mem_append] at hmem ⊢
      exact hmem.imp_right .inl
    · have hmem := head_getD_mem a r
      simp only [List.mem_cons, List.mem_append] at hmem ⊢
      exact hmem.imp_right fun hmem => .inr (.inr hmem)
  · rw [if_neg hp, List.filter_cons_of_pos (by simp [hp]), List.filter_nil, List.append_assoc]
    exact ⟨m, rfl, h, hagree⟩

/-- `qe_foreach_safe` visits every entry once, whatever entries its body removes. -/
theorem qeForeachSafe_spec (p : N → Bool) (h : m.Ring a l) {fuel : Nat} (hfuel : l.length < fuel) :
    ∃ m', qeForeachSafe (removeIf p) m a fuel = .ok (m', l) ∧
      m'.Ring a (l.filter (!p ·)) ∧ AgreeOn (· ∉ a :: l) m m' := by
  rw [qeForeachSafe, h.path.next_eq, loadNext_some, ok_bind]
  -- the entries that were visited and kept come before those that are left
  have hvisits := loop_visits (qeForeachSafePass (removeIf p) a)
    (fun visited r s => visited ++ r = l ∧ ∃ m', s =
      ⟨m', some (r.head?.getD a), m'.next (r.head?.getD a), visited⟩ ∧
      m'.Ring a (visited.filter (!p ·) ++ r) ∧ AgreeOn (· ∉ a :: l) m m')
    (fun r => ∃ m', r = (m', l) ∧ m'.Ring a (l.filter (!p ·)) ∧ AgreeOn (· ∉ a :: l) m m')
    ?_ ?_ ⟨rfl, m, rfl, h, AgreeOn.refl _ m⟩ hfuel
  · obtain ⟨_, hloop, m', rfl, hm'⟩ := hvisits
    exact ⟨m', hloop, hm'⟩
  · rintro s ⟨-, m', rfl, hring, hagree⟩
    rw [List.append_nil] at hring
    exact ⟨(m', l), if_pos rfl, m', rfl, hring, hagree⟩
  · rintro visited x r s ⟨rfl, m₁, rfl, hring, hagree⟩
    have hne : ¬some x = some a := fun he =>
      hring.not_mem (Option.some.inj he ▸ List.mem_append_right _ List.mem_cons_self)
    have hnext : m₁.next x = some (r.head?.getD a) := (path_append.mp hring.path).2.next_eq
    have hother : ∀ y ∈ a :: (visited.filter (!p ·) ++ x :: r), ¬y ∉ a :: (visited ++ x :: r) := by
      intro y hy
      simp only [List.mem_cons, List.mem_append, not_not] at hy ⊢
      exact hy.imp_right (Or.imp_left List.mem_of_mem_filter)
    obtain ⟨m₂, hbody, hring₂, hagree₂⟩ := removeIf_spec p hring hother hagree
    rw [← List.filter_append] at hring₂
    refine ⟨⟨m₂, some (r.head?.getD a), m₂.next (r.head?.getD a), visited ++ [x]⟩, ?_, by simp,
      m₂, rfl, hring₂, hagree₂⟩
    simp only [qeForeachSafePass, List.head?_cons, Option.getD_some, if_neg hne, deref_some,
      ok_bind, hbody, hnext, loadNext_some]
    rfl

end Iteration

section Operations

variable {Q E : Type}

/-- The operations of Method 1. -/
inductive Op (Q E : Type) where
  | queueInit (q : Q)
  | enqueue (q : Q) (e : E)
  | enqueueHead (q : Q) (e : E)
  | enqueueTail (q : Q) (e : E)
  | dequeue (q : Q)
  | dequeueHead (q : Q)
  | dequeueTail (q : Q)
  | insque (e : E) (pred : Node Q E)
  | remqueue (e : E)
  | reQueueHead (q : Q) (e : E)
  | reQueueTail (q : Q) (e : E)
  | movqueue (old new : Q)

/-- Queues are initialised, elements are put on a queue only if they are on none, and elements
that are removed are on a queue. -/
def Op.Pre (lists : Lists Q E) : Op Q E → Prop
  | .queueInit _ => True
  | .enqueue q e | .enqueueHead q e | .enqueueTail q e => (lists q).isSome ∧ ¬lists.Has e
  | .dequeue q | .dequeueHead q | .dequeueTail q => (lists q).isSome
  | .insque e (.head q) => (lists q).isSome ∧ ¬lists.Has e
  | .insque e (.entry p) => lists.Has p ∧ ¬lists.Has e
  | .remqueue e => lists.Has e
  | .reQueueHead q e | .reQueueTail q e => (lists q).isSome ∧ lists.Has e
  | .movqueue old _ => (lists old).isSome

variable [DecidableEq Q] [DecidableEq E]

/-- The operations on lists. -/
def Op.apply (lists : Lists Q E) : Op Q E → Lists Q E
  | .queueInit q => Function.update lists q (some [])
  | .enqueue q e | .enqueueTail q e => lists.modify q (· ++ [e])
  | .enqueueHead q e => lists.modify q (e :: ·)
  | .dequeue q | .dequeueHead q => lists.modify q List.tail
  | .dequeueTail q => lists.modify q List.dropLast
  | .insque e (.head q) => lists.modify q (e :: ·)
  | .insque e (.entry p) => fun q => (lists q).map (insertAfter p e)
  | .remqueue e => lists.erase e
  | .reQueueHead q e => (lists.erase e).modify q (e :: ·)
  | .reQueueTail q e => (lists.erase e).modify q (· ++ [e])
  | .movqueue old new => Function.update (Function.update lists new (lists old)) old (some [])

/-- What the operations on lists return. -/
def Op.result (lists : Lists Q E) : Op Q E → Option E
  | .dequeue q | .dequeueHead q => (lists q).bind List.head?
  | .dequeueTail q => (lists q).bind List.getLast?
  | _ => none

/-- The list model of Method 1. -/
def spec (Q E : Type) [DecidableEq Q] [DecidableEq E] :
    Spec (Lists Q E) (Op Q E) (Option (Node Q E)) where
  pre lists op := op.Pre lists
  apply lists op := op.apply lists
  result lists op := (op.result lists).map .entry

/-- One operation, with what it returns. -/
def step (m : Entries (Node Q E)) : Op Q E → Except Fault (Entries (Node Q E) × Option (Node Q E))
  | .queueInit q => return (Queue.queueInit m (.head q), none)
  | .enqueue q e => return (← Queue.enqueue m (.head q) (.entry e), none)
  | .enqueueHead q e => return (← Queue.enqueueHead m (.head q) (.entry e), none)
  | .enqueueTail q e => return (← Queue.enqueueTail m (.head q) (.entry e), none)
  | .dequeue q => Queue.dequeue m (.head q)
  | .dequeueHead q => Queue.dequeueHead m (.head q)
  | .dequeueTail q => Queue.dequeueTail m (.head q)
  | .insque e pred => return (← Queue.insque m (.entry e) pred, none)
  | .remqueue e => return (← Queue.remqueue m (.entry e), none)
  | .reQueueHead q e => return (← Queue.reQueueHead m (.head q) (.entry e), none)
  | .reQueueTail q e => return (← Queue.reQueueTail m (.head q) (.entry e), none)
  | .movqueue old new => return (← Queue.movqueue m (.head old) (.head new), none)

variable {m : Entries (Node Q E)} {lists : Lists Q E} {q : Q} {l : List E} {e : E}

/-- Remove an element from its queue, whichever that is. -/
theorem Family.remqueue_has (h : Family m lists) (he : lists.Has e) :
    ∃ m', Queue.remqueue m (.entry e) = .ok m' ∧ Family m' (lists.erase e) := by
  obtain ⟨q, l, hl, hmem⟩ := he
  rw [h.erase_eq_update hl hmem]
  exact h.remqueue hl hmem

/-- Every operation refines the operation on lists. -/
theorem Family.step (h : Family m lists) {op : Op Q E} (hop : op.Pre lists) :
    ∃ m', Queue.step m op = .ok (m', (op.result lists).map .entry) ∧
      Family m' (op.apply lists) := by
  cases op with
  | queueInit q => exact ⟨_, rfl, h.init q⟩
  | enqueue q e | enqueueTail q e =>
    obtain ⟨l, hl⟩ := Option.isSome_iff_exists.mp hop.1
    rw [Op.apply, Lists.modify_eq hl]
    exact exists_ok_pair none (h.enqueueTail hl hop.2)
  | enqueueHead q e =>
    obtain ⟨l, hl⟩ := Option.isSome_iff_exists.mp hop.1
    rw [Op.apply, Lists.modify_eq hl]
    exact exists_ok_pair none (h.enqueueHead hl hop.2)
  | dequeue q | dequeueHead q =>
    obtain ⟨l, hl⟩ := Option.isSome_iff_exists.mp hop
    rw [Op.apply, Lists.modify_eq hl, Op.result, hl]
    exact h.dequeueHead hl
  | dequeueTail q =>
    obtain ⟨l, hl⟩ := Option.isSome_iff_exists.mp hop
    rw [Op.apply, Lists.modify_eq hl, Op.result, hl]
    exact h.dequeueTail hl
  | insque e pred =>
    cases pred with
    | head q =>
      obtain ⟨l, hl⟩ := Option.isSome_iff_exists.mp hop.1
      rw [Op.apply, Lists.modify_eq hl]
      exact exists_ok_pair none (h.enqueueHead hl hop.2)
    | entry p =>
      obtain ⟨⟨q, l, hl, hp⟩, he⟩ := hop
      rw [Op.apply, h.map_eq_update hl hp fun l' hp' => insertAfter_of_not_mem hp']
      exact exists_ok_pair none (h.insqueEntry hl hp he)
  | remqueue e => exact exists_ok_pair none (h.remqueue_has hop)
  | reQueueHead q e =>
    obtain ⟨m₁, hm₁, h₁⟩ := h.remqueue_has hop.2
    obtain ⟨l, hl⟩ := Lists.erase_isSome hop.1 e
    rw [Op.apply, Lists.modify_eq hl, Queue.step, reQueueHead_eq, hm₁, ok_bind]
    exact exists_ok_pair none (h₁.enqueueHead hl (h.not_has_erase e))
  | reQueueTail q e =>
    obtain ⟨m₁, hm₁, h₁⟩ := h.remqueue_has hop.2
    obtain ⟨l, hl⟩ := Lists.erase_isSome hop.1 e
    rw [Op.apply, Lists.modify_eq hl, Queue.step, reQueueTail_eq, hm₁, ok_bind]
    exact exists_ok_pair none (h₁.enqueueTail hl (h.not_has_erase e))
  | movqueue old new =>
    obtain ⟨l, hl⟩ := Option.isSome_iff_exists.mp hop
    rw [Op.apply, hl]
    exact exists_ok_pair none (h.movqueue hl new)

/-- An iteration that removes elements leaves the others. -/
theorem Family.foreachSafe (h : Family m lists) (hl : lists q = some l) (p : E → Bool)
    {body : Node Q E → Bool} (hbody : ∀ e, body (.entry e) = p e) :
    ∃ m', qeForeachSafe (removeIf body) m (.head q) (l.length + 1) = .ok (m', l.map .entry) ∧
      Family m' (Function.update lists q (some (l.filter (!p ·)))) := by
  obtain ⟨m', hloop, hring, hagree⟩ := qeForeachSafe_spec body (h.ring q l hl)
    (by rw [List.length_map]; exact Nat.lt_succ_self _)
  refine ⟨m', hloop, h.replace ?_ ?_ ?_⟩
  · have hfilter : (l.map .entry).filter (!body ·) = (l.filter (!p ·)).map .entry := by
      rw [List.filter_map]
      congr 2
      funext e
      exact congrArg not (hbody e)
    rw [← hfilter]
    exact hring
  · intro x hx
    exact hagree x fun hmem => h.not_elsewhere_of_mem hl hmem hx
  · intro e he
    exact h.not_elsewhere hl (List.mem_of_mem_filter he)

end Operations

section Refinement

variable {Q E : Type} [DecidableEq Q] [DecidableEq E]

/-- What a head in use promises. -/
structure Refines (m : Entries (Node Q E)) (lists : Lists Q E) (q : Q) (l : List E) : Prop where
  /-- The `next` fields lead through the list to the head. -/
  forward : qeForeach m (.head q) (l.length + 1) = .ok (l.map .entry)
  /-- The `prev` fields lead through the reversed list to the head. -/
  backward : walk m.prev (.head q) (l.length + 1) (m.prev (.head q)) = .ok (l.reverse.map .entry)
  /-- Neighbours point at each other. -/
  ring : m.Ring (.head q) (l.map .entry)
  /-- An iteration that removes any of the elements visits all of them once. -/
  foreachSafe : ∀ p : E → Bool, ∃ m',
    qeForeachSafe (removeIf fun x => match x with
      | .head _ => false
      | .entry e => p e) m (.head q) (l.length + 1) = .ok (m', l.map .entry) ∧
      Family m' (Function.update lists q (some (l.filter (!p ·))))

theorem Family.refines {m : Entries (Node Q E)} {lists : Lists Q E} (h : Family m lists) {q : Q}
    {l : List E} (hl : lists q = some l) : Refines m lists q l := by
  have hring := h.ring q l hl
  have hfuel : (l.map (.entry : E → Node Q E)).length < l.length + 1 := by
    rw [List.length_map]
    exact Nat.lt_succ_self _
  constructor
  case forward => exact hring.path.walk_next hring.not_mem hfuel
  case backward =>
    rw [List.map_reverse]
    exact hring.path.walk_prev hring.not_mem hfuel
  case ring => exact hring
  case foreachSafe => exact fun p => h.foreachSafe hl p fun _ => rfl

/-- For every family of queue heads and elements, whatever the links are at first, every run of
the functions of Method 1 returns what the lists prescribe and leaves each head with its list. -/
theorem refines_lists_of_exec (m : Entries (Node Q E)) (ops : List (Op Q E))
    (hops : (spec Q E).Admissible (fun _ => none) ops) :
    ∃ m', execAll step m ops = .ok (m', (spec Q E).results (fun _ => none) ops) ∧
      ∀ q l, (spec Q E).applyAll (fun _ => none) ops q = some l →
        Refines m' ((spec Q E).applyAll (fun _ => none) ops) q l := by
  obtain ⟨m', hexec, hm'⟩ := execAll_refines (spec Q E) Family
    (fun h hpre => h.step hpre) (family_none m) hops
  exact ⟨m', hexec, fun q l hl => hm'.refines hl⟩

/-- An element moves to the front of its queue, and the queue moves to another head. -/
def requeueRun : List (Op Bool Nat) :=
  [.queueInit true, .enqueue true 1, .enqueueTail true 2, .reQueueHead true 2,
    .movqueue true false, .dequeueTail false]

theorem refines_lists_requeue : ∃ m',
    execAll step ⟨fun _ => none, fun _ => none⟩ requeueRun =
      .ok (m', [none, none, none, none, none, some (.entry 1)]) ∧
    ∀ q l, (spec Bool Nat).applyAll (fun _ => none) requeueRun q = some l →
      Refines m' ((spec Bool Nat).applyAll (fun _ => none) requeueRun) q l := by
  apply refines_lists_of_exec ⟨fun _ => none, fun _ => none⟩ requeueRun
  simp [requeueRun, Spec.Admissible, spec, Op.Pre, Op.apply, Lists.Has, Lists.modify,
    Lists.erase]

end Refinement

end MacKernel.Queue
