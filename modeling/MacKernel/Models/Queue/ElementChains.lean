import MacKernel.Models.Queue.LinkageChains

/-!
# Element chains

On a ring that consists of one head and elements, a macro of Method 2 takes the branch
that belongs to each neighbour, so its stores are those of a function of Method 1. A
removal also clears the links of the element.
-/

namespace MacKernel.Queue

open Entries

variable {Q E : Type} {m : Entries (Node Q E)} {q : Q} {e : E} {x y z : Node Q E}

section Casts

/-- A node of the queue `q`. -/
def Own (q : Q) (x : Node Q E) : Prop := x = .head q ∨ ∃ e, x = .entry e

/-- Every node of a queue is its head or an element. -/
theorem own_of_mem {l : List E} (h : x ∈ .head q :: l.map .entry) : Own q x := by
  rcases List.mem_cons.mp h with rfl | hx
  · exact .inl rfl
  · obtain ⟨e, -, rfl⟩ := List.mem_map.mp hx
    exact .inr ⟨e, rfl⟩

variable [DecidableEq Q] [DecidableEq E]

/-- The branch on the head stores into the `next` field of the node. -/
theorem storeNext_own {β : Type} (hx : Own q x) (v : Option (Node Q E))
    (rest : Entries (Node Q E) → Except Fault β) :
    (if some (.head q) = some x then pure (m.setNext (.head q) v) >>= rest
      else storeFieldNext m (some x) v >>= rest) = rest (m.setNext x v) := by
  rcases hx with rfl | ⟨e, rfl⟩
  · exact if_pos rfl
  · rw [if_neg (by simp)]
    rfl

/-- The branch on the head stores into the `prev` field of the node. -/
theorem storePrev_own {β : Type} (hx : Own q x) (v : Option (Node Q E))
    (rest : Entries (Node Q E) → Except Fault β) :
    (if some (.head q) = some x then pure (m.setPrev (.head q) v) >>= rest
      else storeFieldPrev m (some x) v >>= rest) = rest (m.setPrev x v) := by
  rcases hx with rfl | ⟨e, rfl⟩
  · exact if_pos rfl
  · rw [if_neg (by simp)]
    rfl

end Casts

section Macros

variable [DecidableEq Q] [DecidableEq E]

/-- `queue_enter` is `enqueue_tail`. -/
theorem queueEnter_eq (hprev : m.prev (.head q) = some z) (hz : Own q z) :
    queueEnter m q e = enqueueTail m (.head q) (.entry e) := by
  simp only [queueEnter, enqueueTail, hprev, storeNext_own hz, storeNext_some, ok_bind]
  rfl

/-- `queue_enter_first` is `enqueue_head`. -/
theorem queueEnterFirst_eq (hnext : m.next (.head q) = some y) (hy : Own q y)
    (hne : y ≠ .entry e) :
    queueEnterFirst m q e = enqueueHead m (.head q) (.entry e) := by
  simp only [queueEnterFirst, enqueueHead, hnext, storePrev_own hy, storePrev_some, ok_bind]
  rw [← setNext_setPrev, setPrev_comm _ hne]
  rfl

/-- Before the head, that is, at the end. -/
theorem queueInsertBefore_head (hnext : m.next (.head q) = some y)
    (hprev : m.prev (.head q) = some z) (hz : Own q z) (hyz : y = .head q ↔ z = .head q) :
    queueInsertBefore m q e (.head q) = enqueueTail m (.head q) (.entry e) := by
  have hsel : (m.setNext (.entry e) (some (.head q))).next (.head q) = some y := by
    rw [setNext_next_of_ne (by simp), hnext]
  simp only [queueInsertBefore, if_true, hsel, setNext_prev, hprev, Option.some.injEq, enqueueTail,
    storeNext_some, ok_bind]
  rcases hz with rfl | ⟨p, rfl⟩
  · rw [if_pos (hyz.mpr rfl)]
    rfl
  · rw [if_neg fun hy => by simpa using hyz.mp hy]
    rfl

/-- Before an element. -/
theorem queueInsertBefore_entry {c : E} (hnext : m.next (.head q) = some y)
    (hprev : m.prev (.entry c) = some z) (hz : Own q z) (hyz : y = .entry c ↔ z = .head q) :
    queueInsertBefore m q e (.entry c) = enqueueTail m (.entry c) (.entry e) := by
  have hsel : (m.setNext (.entry e) (some (.entry c))).next (.head q) = some y := by
    rw [setNext_next_of_ne (by simp), hnext]
  simp only [queueInsertBefore, reduceCtorEq, if_false, hsel, setNext_prev, hprev,
    Option.some.injEq, enqueueTail, storeNext_some, ok_bind, asElement]
  rcases hz with rfl | ⟨p, rfl⟩
  · rw [if_pos (hyz.mpr rfl)]
    rfl
  · rw [if_neg fun hy => by simpa using hyz.mp hy]
    rfl

/-- Behind the head, that is, at the start. -/
theorem queueInsertAfter_head (hnext : m.next (.head q) = some y) (hy : Own q y) :
    queueInsertAfter m q e (.head q) = enqueueHead m (.head q) (.entry e) := by
  simp only [queueInsertAfter, if_true, setPrev_next, hnext, Option.some.injEq, enqueueHead,
    storePrev_some, ok_bind]
  rcases hy with rfl | ⟨p, rfl⟩
  · rw [if_pos rfl]
    rfl
  · rw [if_neg (by simp)]
    rfl

/-- Behind an element. -/
theorem queueInsertAfter_entry {c : E} (hprev : m.prev (.head q) = some z)
    (hnext : m.next (.entry c) = some y) (hy : Own q y) (hyz : z = .entry c ↔ y = .head q) :
    queueInsertAfter m q e (.entry c) = enqueueHead m (.entry c) (.entry e) := by
  have hsel : (m.setPrev (.entry e) (some (.entry c))).prev (.head q) = some z := by
    rw [setPrev_prev_of_ne (by simp), hprev]
  simp only [queueInsertAfter, reduceCtorEq, if_false, hsel, setPrev_next, hnext,
    Option.some.injEq, enqueueHead, storePrev_some, ok_bind, asElement]
  rcases hy with rfl | ⟨p, rfl⟩
  · rw [if_pos (hyz.mpr rfl)]
    rfl
  · rw [if_neg fun hz => by simpa using hyz.mp hz]
    rfl

/-- Clear the links of an element. -/
def clear (m : Entries (Node Q E)) (e : E) : Entries (Node Q E) :=
  (m.setNext (.entry e) none).setPrev (.entry e) none

/-- `queue_remove` is `remqueue`, with the links of the element cleared. -/
theorem queueRemove_eq (hnext : m.next (.entry e) = some y) (hprev : m.prev (.entry e) = some z)
    (hy : Own q y) (hz : Own q z) :
    queueRemove m q e = remqueue m (.entry e) >>= fun m => .ok (clear m e) := by
  simp only [queueRemove, remqueue, hnext, hprev, storePrev_own hy, storeNext_own hz,
    storePrev_some, storeNext_some, ok_bind]
  rfl

/-- `queue_remove_first` is `dequeue_head`, with the links of the element cleared. -/
theorem queueRemoveFirst_eq (hfirst : m.next (.head q) = some (.entry e))
    (hnext : m.next (.entry e) = some y) (hy : Own q y) :
    queueRemoveFirst m q =
      dequeueHead m (.head q) >>= fun r => .ok (clear r.1 e, e) := by
  have hdequeue : dequeueHead m (.head q) =
      .ok ((m.setPrev y (some (.head q))).setNext (.head q) (some y), some (.entry e)) := by
    simp [dequeueHead, hfirst, hnext]
  rw [hdequeue]
  simp only [queueRemoveFirst, asElement, hfirst, hnext, storePrev_own hy, ok_bind]
  rfl

/-- `queue_remove_last` is `dequeue_tail`, with the links of the element cleared. -/
theorem queueRemoveLast_eq (hlast : m.prev (.head q) = some (.entry e))
    (hprev : m.prev (.entry e) = some z) (hz : Own q z) :
    queueRemoveLast m q =
      dequeueTail m (.head q) >>= fun r => .ok (clear r.1 e, e) := by
  have hdequeue : dequeueTail m (.head q) =
      .ok ((m.setNext z (some (.head q))).setPrev (.head q) (some z), some (.entry e)) := by
    simp [dequeueTail, hlast, hprev]
  rw [hdequeue]
  simp only [queueRemoveLast, asElement, hlast, hprev, storeNext_own hz, ok_bind]
  rfl

/-- `queue_new_head` of an empty queue initialises the new head. -/
theorem queueNewHead_nil (h : m.Ring (.head q) []) (new : Q) :
    queueNewHead m q new = .ok (queueInit m (.head new)) := by
  have hempty : queueEmpty m (.head q) = true := decide_eq_true h.path.1
  rw [queueNewHead, if_pos hempty]
  rfl

/-- `queue_new_head` links the new head to both ends. -/
theorem queueNewHead_cons {l : List E} (h : m.Ring (.head q) (.entry e :: l.map .entry))
    (new : Q) : queueNewHead m q new = .ok ((m.link (.head new) (.entry e)).link
      ((l.map .entry).getLast?.getD (.entry e)) (.head new)) := by
  have hempty : ¬queueEmpty m (.head q) = true := by
    intro hq
    have hnext : m.next (.head q) = some (.head q) := of_decide_eq_true hq
    rw [h.path.1.1] at hnext
    cases hnext
  obtain ⟨p, hp⟩ : ∃ p, (l.map .entry).getLast?.getD (.entry e : Node Q E) = .entry p := by
    rcases List.eq_nil_or_concat' l with rfl | ⟨l, p, rfl⟩
    · exact ⟨e, rfl⟩
    · exact ⟨p, by simp⟩
  have hprev := h.path.2.prev_eq
  rw [hp] at hprev ⊢
  rw [queueNewHead, if_neg hempty]
  simp only [h.path.1.1, hprev, setPrev_next, setNext_next_self, storeFieldPrev, asElement, ok_bind]
  have hlast : ((((m.setNext (.head new) (some (.entry e))).setPrev (.head new)
      (some (.entry p))).setPrev (.entry e) (some (.head new))).prev (.head new)) =
        some (.entry p) := by
    rw [setPrev_prev_of_ne (by simp), setPrev_prev_self]
  change storeFieldNext _ _ _ = _
  rw [hlast, setPrev_comm _ (by simp)]
  rfl

end Macros

section Iteration

variable [DecidableEq Q] [DecidableEq E]

/-- `queue_iterate` visits the list. -/
theorem queueIterate_eq {l : List E}
    (h : Chain m.next (m.next (.head q)) (l.map .entry) (some (.head q))) {fuel : Nat}
    (hfuel : l.length < fuel) : queueIterate m q fuel = .ok l := by
  have hvisits := loop_visits (queueIteratePass m q)
    (fun visited r s => ∃ p, s = (p, visited) ∧
      Chain m.next p (r.map .entry) (some (.head q)))
    (fun visited => visited = l) ?_ ?_ ⟨_, rfl, h⟩ hfuel
  · obtain ⟨_, hloop, rfl⟩ := hvisits
    exact hloop
  · rintro s ⟨p, rfl, hp⟩
    refine ⟨l, ?_, rfl⟩
    rw [queueIteratePass, if_pos hp.symm]
    rfl
  · rintro visited x r s ⟨p, rfl, rfl, hr⟩
    refine ⟨(m.next (.entry x), visited ++ [x]), ?_, _, rfl, hr⟩
    rw [queueIteratePass, if_neg (by simp)]
    rfl

end Iteration

end MacKernel.Queue
