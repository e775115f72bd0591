import MacKernel.Core.Simulation
import MacKernel.Models.CircleQueue.Native
import MacKernel.Models.Queue.LinkageChains
import Mathlib.Data.List.Rotate

/-!
# Circle queues as rotating sequences

A circle queue is a sequence whose first entry is the head. The ring can be read
from any of its entries, so an entry is removed in the same way wherever it is, and
rotating the head rotates the sequence.
-/

namespace MacKernel.CircleQueue

open Queue Entries

variable {N : Type} {cq : Circle N} {a x : N} {l k r : List N}

/-- The entries from the head on. -/
def Represents (cq : Circle N) : List N → Prop
  | [] => cq.head = none
  | a :: l => cq.head = some a ∧ cq.links.Ring a l

section Reading

/-- The head is the first element. -/
theorem Represents.head_eq (h : Represents cq l) : cq.head = l.head? := by
  cases l with
  | nil => exact h
  | cons a l => exact h.1

/-- The ring, read from one of the entries. -/
theorem Represents.ring_at (h : Represents cq (k ++ x :: r)) : cq.links.Ring x (r ++ k) := by
  cases k with
  | nil =>
    rw [List.append_nil]
    exact h.2
  | cons a k => exact h.2.rotate

/-- An element is on the queue once. -/
theorem Represents.nodup (h : Represents cq l) : l.Nodup := by
  cases l with
  | nil => exact List.nodup_nil
  | cons a l => exact h.2.nodup

/-- `circle_queue_last` is the last element. -/
theorem Represents.last_eq (h : Represents cq l) : circleQueueLast cq = .ok l.getLast? := by
  cases l with
  | nil =>
    rw [circleQueueLast, circleQueueFirst, h.head_eq]
    rfl
  | cons a l =>
    have hprev := h.2.path.prev_eq
    simp only [circleQueueLast, circleQueueFirst, h.1, hprev, Option.isSome_some, if_true,
      List.getLast?_cons]

variable [DecidableEq N]

/-- The entry behind another one, or null behind the last one. -/
theorem Represents.next_eq (h : Represents cq (k ++ x :: r)) :
    circleQueueNext cq x = r.head? := by
  have hnext := h.ring_at.path.next_eq
  have hnodup := h.nodup
  have hhead := h.head_eq
  unfold circleQueueNext
  rw [hnext, hhead]
  cases r with
  | nil => cases k <;> simp
  | cons y r =>
    have hne : y ∉ k ++ [x] := by
      have happ : (k ++ [x]) ++ y :: r = k ++ x :: y :: r := by simp
      rw [← happ] at hnodup
      exact fun hmem => (List.nodup_append.mp hnodup).2.2 y hmem y List.mem_cons_self rfl
    rw [if_neg]
    · rfl
    · cases k with
      | nil => simpa using hne
      | cons a k => simpa using fun hya => hne (by simp [hya])

end Reading

section Changes

/-- Another entry becomes the head. -/
theorem Represents.rehead (h : Represents cq (k ++ x :: r)) :
    Represents { cq with head := some x } (x :: (r ++ k)) := ⟨rfl, h.ring_at⟩

/-- `circle_queue_rotate_head_forward` puts the first element last. -/
theorem Represents.rotateForward (h : Represents cq l) :
    Represents (circleQueueRotateHeadForward cq) (l.rotate 1) := by
  cases l with
  | nil =>
    have hhead : cq.head = none := h
    simp only [circleQueueRotateHeadForward, circleQueueFirst, hhead]
    exact h
  | cons a l =>
    have hnext := h.2.path.next_eq
    simp only [circleQueueRotateHeadForward, circleQueueFirst, h.1, hnext, List.rotate_cons_succ,
      List.rotate_zero]
    cases l with
    | nil => exact ⟨rfl, h.2⟩
    | cons b l => exact Represents.rehead (k := [a]) h

/-- The last entry comes first. -/
def rotateBackward (l : List N) : List N := l.getLast?.toList ++ l.dropLast

/-- `circle_queue_rotate_head_backward` puts the last element first. -/
theorem Represents.rotateBackward (h : Represents cq l) :
    ∃ cq', circleQueueRotateHeadBackward cq = .ok cq' ∧
      Represents cq' (CircleQueue.rotateBackward l) := by
  have hlast := h.last_eq
  rcases List.eq_nil_or_concat' l with rfl | ⟨l, z, rfl⟩
  · refine ⟨cq, ?_, h⟩
    rw [circleQueueRotateHeadBackward, hlast]
    rfl
  · rw [List.getLast?_concat] at hlast
    rw [CircleQueue.rotateBackward, List.getLast?_concat, List.dropLast_concat]
    refine ⟨{ cq with head := some z }, ?_, h.rehead⟩
    rw [circleQueueRotateHeadBackward, hlast]
    rfl

variable [DecidableEq N]

/-- `circle_enqueue_tail` puts an element at the end. -/
theorem Represents.enqueueTail (h : Represents cq l) (hx : x ∉ l) :
    ∃ cq', circleEnqueueTail cq x = .ok cq' ∧ Represents cq' (l ++ [x]) := by
  have hlast := h.last_eq
  cases l with
  | nil =>
    have hhead : cq.head = none := h
    refine ⟨⟨some x, (cq.links.setPrev x (some x)).setNext x (some x)⟩, ?_, rfl, ?_⟩
    · simp only [circleEnqueueTail, circleQueueFirst, hlast, hhead, ok_bind, if_true]
      rfl
    · exact ring_nil.mpr ⟨setNext_next_self _, setPrev_prev_self _⟩
  | cons a l =>
    obtain ⟨hhead, hring⟩ := h
    have hxz : x ≠ l.getLast?.getD a := fun heq => hx (heq ▸ getLast_getD_mem a l)
    refine ⟨{ cq with links := (cq.links.link (l.getLast?.getD a) x).link x a }, ?_, hhead,
      hring.insert_last hx⟩
    simp only [circleEnqueueTail, circleQueueFirst, hlast, hhead, List.getLast?_cons, ok_bind,
      reduceCtorEq, if_false, storeNext_some, storePrev_some]
    rw [setNext_setPrev, setNext_comm _ hxz]
    rfl

/-- `circle_enqueue_head` puts an element in front. -/
theorem Represents.enqueueHead (h : Represents cq l) (hx : x ∉ l) :
    ∃ cq', circleEnqueueHead cq x = .ok cq' ∧ Represents cq' (x :: l) := by
  obtain ⟨cq', hcq, hrep⟩ := h.enqueueTail hx
  refine ⟨{ cq' with head := some x }, ?_, hrep.rehead⟩
  rw [circleEnqueueHead, hcq]
  rfl

/-- Removing the head makes the next entry the head. -/
theorem Represents.dequeue_head (h : Represents cq (x :: r)) :
    ∃ cq', circleDequeue cq x = .ok cq' ∧ Represents cq' r := by
  obtain ⟨hhead, hring⟩ := h
  have hnext := hring.path.next_eq
  have hprev := hring.path.prev_eq
  cases r with
  | nil =>
    refine ⟨{ cq with head := none }, ?_, rfl⟩
    simp only [circleDequeue, hnext, List.head?_nil, Option.getD_none, if_true, hhead]
    rfl
  | cons y t =>
    have hne : ¬some x = some y := fun heq =>
      hring.not_mem (Option.some.inj heq ▸ List.mem_cons_self)
    have hrem := Ring.remove_mem (Ring.rotate (l := []) hring)
    rw [List.append_nil] at hrem
    refine ⟨⟨some y, cq.links.link (t.getLast?.getD y) y⟩, ?_, rfl, hrem⟩
    rw [List.getLast?_cons, Option.getD_some] at hprev
    simp only [circleDequeue, hnext, hprev, List.head?_cons, Option.getD_some, if_neg hne,
      storeNext_some, storePrev_some, ok_bind, hhead, if_true]
    rfl

/-- Removing an entry anywhere. -/
theorem Represents.dequeue (h : Represents cq (k ++ x :: r)) :
    ∃ cq', circleDequeue cq x = .ok cq' ∧ Represents cq' (k ++ r) := by
  cases k with
  | nil => exact h.dequeue_head
  | cons a k =>
    obtain ⟨hhead, hring⟩ := h
    obtain ⟨h₁, h₂⟩ := path_append.mp hring.path
    have hxa : x ≠ a := fun heq => hring.not_mem (heq ▸ List.mem_append_right k List.mem_cons_self)
    have hne : ¬x = r.head?.getD a := by
      intro heq
      rcases List.mem_cons.mp (head_getD_mem a r) with hr | hr
      · exact hxa (heq.trans hr)
      · have hnodup := (List.nodup_append.mp (List.nodup_cons.mp hring.nodup).2).2.1
        exact (List.nodup_cons.mp hnodup).1 (heq ▸ hr)
    refine ⟨{ cq with links := cq.links.link (k.getLast?.getD a) (r.head?.getD a) }, ?_, hhead,
      hring.remove_mem⟩
    simp only [circleDequeue, h₁.prev_eq, h₂.next_eq, Option.some.injEq, if_neg hne,
      storeNext_some, storePrev_some, ok_bind, hhead, if_neg (Ne.symm hxa)]
    rfl

end Changes

section Iteration

variable [DecidableEq N]

/-- The length is counted along the ring. -/
theorem Represents.length_eq (h : Represents cq l) :
    circleQueueLength cq (l.length + 1) = .ok l.length := by
  rw [circleQueueLength, circleQueueFirst, h.head_eq]
  have hvisits := loop_visits (circleQueueLengthPass cq)
    (fun visited r s => visited ++ r = l ∧ s = (r.head?, visited.length)) (fun n => n = l.length)
    ?_ ?_ ⟨rfl, rfl⟩ (Nat.lt_succ_self l.length)
  · obtain ⟨_, hloop, rfl⟩ := hvisits
    exact hloop
  · rintro s ⟨-, rfl⟩
    exact ⟨l.length, rfl, rfl⟩
  · rintro visited x r s ⟨rfl, rfl⟩
    refine ⟨(r.head?, visited.length + 1), ?_, by simp, by simp⟩
    simp only [circleQueueLengthPass, List.head?_cons, h.next_eq]

/-- A body that removes some of the entries. -/
def dequeueIf (p : N → Bool) (cq : Circle N) (elt : N) : Except Fault (Circle N) :=
  if p elt then circleDequeue cq elt else return cq

/-- A body that dequeues some elements leaves the others. -/
theorem dequeueIf_spec (p : N → Bool) (h : Represents cq (k ++ x :: r)) :
    ∃ cq', dequeueIf p cq x = .ok cq' ∧ Represents cq' (k ++ [x].filter (!p ·) ++ r) := by
  unfold dequeueIf
  by_cases hp : p x = true
  · rw [if_pos hp, List.filter_cons_of_neg (by simp [hp]), List.filter_nil, List.append_nil]
    exact h.dequeue
  · rw [if_neg hp, List.filter_cons_of_pos (by simp [hp]), List.filter_nil, List.append_assoc]
    exact ⟨cq, rfl, h⟩

/-- `cqe_foreach_safe` visits every entry once, whatever entries its body removes. -/
theorem Represents.foreachSafe (h : Represents cq l) (p : N → Bool) :
    ∃ cq', cqeForeachSafe (dequeueIf p) cq (l.length + 1) = .ok (cq', l) ∧
      Represents cq' (l.filter (!p ·)) := by
  rw [cqeForeachSafe, circleQueueFirst, h.head_eq]
  -- the entries that were visited and kept come before those that are left
  have hvisits := loop_visits (cqeForeachSafePass (dequeueIf p))
    (fun visited r s => ∃ cq, s = ⟨cq, r.head?, visited⟩ ∧
      Represents cq (visited.filter (!p ·) ++ r))
    (fun r => ∃ cq', r = (cq', l) ∧ Represents cq' (l.filter (!p ·)))
    ?_ ?_ ⟨cq, rfl, h⟩ (Nat.lt_succ_self l.length)
  · obtain ⟨_, hloop, cq', rfl, hcq'⟩ := hvisits
    exact ⟨cq', hloop, hcq'⟩
  · rintro s ⟨cq, rfl, hcq⟩
    rw [List.append_nil] at hcq
    exact ⟨(cq, l), rfl, cq, rfl, hcq⟩
  · rintro visited x r s ⟨cq, rfl, hcq⟩
    obtain ⟨cq', hbody, hcq'⟩ := dequeueIf_spec p hcq
    rw [← List.filter_append] at hcq'
    refine ⟨⟨cq', r.head?, visited ++ [x]⟩, ?_, cq', rfl, hcq'⟩
    simp only [cqeForeachSafePass, List.head?_cons, hcq.next_eq, hbody, ok_bind]
    rfl

end Iteration

section Refinement

/-- The operations of a circle queue. -/
inductive Op (N : Type) where
  | init
  | enqueueTail (elt : N)
  | enqueueHead (elt : N)
  | dequeue (elt : N)
  | dequeueHead
  | dequeueTail
  | rotateHeadForward
  | rotateHeadBackward

variable [DecidableEq N]

/-- The sequence model: entries that are enqueued are not in the queue, and entries that are
removed are. -/
def spec (N : Type) [DecidableEq N] : Spec (List N) (Op N) (Option N) where
  pre l op := match op with
    | .enqueueTail elt | .enqueueHead elt => elt ∉ l
    | .dequeue elt => elt ∈ l
    | _ => True
  apply l op := match op with
    | .init => []
    | .enqueueTail elt => l ++ [elt]
    | .enqueueHead elt => elt :: l
    | .dequeue elt => l.erase elt
    | .dequeueHead => l.tail
    | .dequeueTail => l.dropLast
    | .rotateHeadForward => l.rotate 1
    | .rotateHeadBackward => rotateBackward l
  result l op := match op with
    | .dequeueHead => l.head?
    | .dequeueTail => l.getLast?
    | _ => none

/-- One operation, with what it returns. -/
def step (cq : Circle N) : Op N → Except Fault (Circle N × Option N)
  | .init => return (circleQueueInit cq, none)
  | .enqueueTail elt => return (← circleEnqueueTail cq elt, none)
  | .enqueueHead elt => return (← circleEnqueueHead cq elt, none)
  | .dequeue elt => return (← circleDequeue cq elt, none)
  | .dequeueHead => circleDequeueHead cq
  | .dequeueTail => circleDequeueTail cq
  | .rotateHeadForward => return (circleQueueRotateHeadForward cq, none)
  | .rotateHeadBackward => return (← circleQueueRotateHeadBackward cq, none)

/-- Every operation refines the operation on sequences. -/
theorem Represents.step {op : Op N} (h : Represents cq l) (hop : (spec N).pre l op) :
    ∃ cq', CircleQueue.step cq op = .ok (cq', (spec N).result l op) ∧
      Represents cq' ((spec N).apply l op) := by
  cases op with
  | init => exact ⟨_, rfl, rfl⟩
  | enqueueTail elt => exact exists_ok_pair none (h.enqueueTail hop)
  | enqueueHead elt => exact exists_ok_pair none (h.enqueueHead hop)
  | dequeue elt =>
    obtain ⟨k, r, rfl⟩ := List.append_of_mem hop
    have helt : elt ∉ k := fun hmem =>
      (List.nodup_append.mp h.nodup).2.2 elt hmem elt List.mem_cons_self rfl
    have herase : (k ++ elt :: r).erase elt = k ++ r := by
      rw [List.erase_append_right _ helt, List.erase_cons_head]
    have hdequeue := h.dequeue
    rw [← herase] at hdequeue
    exact exists_ok_pair none hdequeue
  | dequeueHead =>
    cases l with
    | nil =>
      have hhead : cq.head = none := h
      refine ⟨cq, ?_, h⟩
      simp only [CircleQueue.step, circleDequeueHead, circleQueueFirst, hhead]
      rfl
    | cons x r =>
      obtain ⟨cq', hcq, hrep⟩ := h.dequeue_head
      refine ⟨cq', ?_, hrep⟩
      simp only [CircleQueue.step, circleDequeueHead, circleQueueFirst, h.1, hcq]
      rfl
  | dequeueTail =>
    have hlast := h.last_eq
    rcases List.eq_nil_or_concat' l with rfl | ⟨l, z, rfl⟩
    · refine ⟨cq, ?_, h⟩
      simp only [CircleQueue.step, circleDequeueTail, hlast]
      rfl
    · obtain ⟨cq', hcq, hrep⟩ := h.dequeue
      rw [List.append_nil] at hrep
      rw [List.getLast?_concat] at hlast
      refine ⟨cq', ?_, ?_⟩
      · simp only [CircleQueue.step, circleDequeueTail, hlast, hcq, ok_bind, spec,
          List.getLast?_concat]
        rfl
      · change Represents cq' (l ++ [z]).dropLast
        rw [List.dropLast_concat]
        exact hrep
  | rotateHeadForward => exact ⟨_, rfl, h.rotateForward⟩
  | rotateHeadBackward => exact exists_ok_pair none h.rotateBackward

/-- What a circle queue promises. -/
structure Refines (cq : Circle N) (l : List N) : Prop where
  /-- The head is the first entry, and neighbours point at each other. -/
  ring : Represents cq l
  /-- The entries are counted. -/
  length : circleQueueLength cq (l.length + 1) = .ok l.length
  /-- An iteration that removes any of the entries visits all of them once. -/
  foreachSafe : ∀ p : N → Bool, ∃ cq',
    cqeForeachSafe (dequeueIf p) cq (l.length + 1) = .ok (cq', l) ∧
      Represents cq' (l.filter (!p ·))

/-- For every run of the operations on a circle queue, whatever the links are at first, the queue
is the sequence that the run prescribes. -/
theorem refines_deque_of_exec (links : Entries N) (ops : List (Op N))
    (hops : (spec N).Admissible [] ops) :
    ∃ cq, execAll step (circleQueueInit ⟨none, links⟩) ops = .ok (cq, (spec N).results [] ops) ∧
      Refines cq ((spec N).applyAll [] ops) := by
  have hinit : Represents (circleQueueInit ⟨none, links⟩) ([] : List N) := rfl
  obtain ⟨cq, hexec, hcq⟩ := execAll_refines (spec N) Represents
    (fun h hpre => h.step hpre) hinit hops
  exact ⟨cq, hexec, hcq, hcq.length_eq, hcq.foreachSafe⟩

/-- Two entries, with the head on the second one when the first one is removed. -/
theorem refines_deque_rotated : ∃ cq : Circle Nat,
    execAll step (circleQueueInit ⟨none, ⟨fun _ => none, fun _ => none⟩⟩)
        [.enqueueTail 1, .enqueueTail 2, .rotateHeadForward, .dequeue 1, .dequeueHead] =
      .ok (cq, [none, none, none, none, some 2]) ∧ Refines cq [] := by
  apply refines_deque_of_exec ⟨fun _ => none, fun _ => none⟩
    [.enqueueTail 1, .enqueueTail 2, .rotateHeadForward, .dequeue 1, .dequeueHead]
  simp [Spec.Admissible, spec]

end Refinement

end MacKernel.CircleQueue
