import MacKernel.Models.Queue.Family

/-!
# Linkage chains

The functions of Method 1 make neighbours of nodes of one ring, so that each of them
is an insertion or a removal.
-/

namespace MacKernel.Queue

open Entries

section Stores

variable {N : Type}

@[simp] theorem loadNext_some (m : Entries N) (a : N) : loadNext m (some a) = .ok (m.next a) := rfl

@[simp] theorem loadPrev_some (m : Entries N) (a : N) : loadPrev m (some a) = .ok (m.prev a) := rfl

variable [DecidableEq N] {m : Entries N} {a x y : N} {l l' : List N}

@[simp] theorem storeNext_some (m : Entries N) (a : N) (v : Option N) :
    storeNext m (some a) v = .ok (m.setNext a v) := rfl

@[simp] theorem storePrev_some (m : Entries N) (a : N) (v : Option N) :
    storePrev m (some a) v = .ok (m.setPrev a v) := rfl

/-- `enqueue_head` makes two links. -/
theorem enqueueHead_eq (hnext : m.next a = some y) (hx : x ≠ a) :
    enqueueHead m a x = .ok ((m.link a x).link x y) := by
  simp only [enqueueHead, hnext, storePrev_some, ok_bind]
  rw [setNext_setPrev, setNext_setPrev, setNext_comm _ hx]
  rfl

/-- `enqueue_tail` makes two links. -/
theorem enqueueTail_eq (hprev : m.prev a = some y) (hx : x ≠ y) :
    enqueueTail m a x = .ok ((m.link y x).link x a) := by
  simp only [enqueueTail, hprev, storeNext_some, ok_bind]
  rw [setNext_setPrev, setNext_comm _ hx]
  rfl

/-- `insque` puts an entry behind another as `enqueue_head` does behind a head. -/
theorem insque_eq (m : Entries N) (entry pred : N) :
    insque m entry pred = enqueueHead m pred entry := rfl

/-- `remqueue` links the neighbours to each other. -/
theorem remqueue_eq (h : m.Ring a (l ++ x :: l')) :
    remqueue m x = .ok (m.link (l.getLast?.getD a) (l'.head?.getD a)) := by
  obtain ⟨h₁, h₂⟩ := path_append.mp h.path
  simp only [remqueue, h₁.prev_eq, h₂.next_eq, storePrev_some, storeNext_some, ok_bind]
  rfl

/-- `dequeue_head` of an empty queue returns null. -/
theorem dequeueHead_nil (h : m.Ring a []) : dequeueHead m a = .ok (m, none) := by
  rw [dequeueHead, if_neg (not_not.mpr h.path.1)]
  rfl

/-- `dequeue_head` takes the first entry out. -/
theorem dequeueHead_cons (h : m.Ring a (x :: l)) :
    dequeueHead m a = .ok (m.link a (l.head?.getD a), some x) := by
  have hne : ¬some x = some a := fun he => h.not_mem (Option.some.inj he ▸ List.mem_cons_self)
  simp only [dequeueHead, h.path.1.1, ne_eq, hne, not_false_eq_true, if_true, loadNext_some,
    h.path.2.next_eq, storePrev_some, ok_bind]
  rfl

/-- `dequeue_tail` of an empty queue returns null. -/
theorem dequeueTail_nil (h : m.Ring a []) : dequeueTail m a = .ok (m, none) := by
  rw [dequeueTail, if_neg (not_not.mpr h.path.2)]
  rfl

/-- `dequeue_tail` takes the last entry out. -/
theorem dequeueTail_snoc (h : m.Ring a (l ++ [x])) :
    dequeueTail m a = .ok (m.link (l.getLast?.getD a) a, some x) := by
  obtain ⟨h₁, h₂⟩ := path_append.mp h.path
  have hne : ¬some x = some a := by
    intro he
    exact h.not_mem (Option.some.inj he ▸ List.mem_append_right l (List.mem_singleton_self x))
  simp only [dequeueTail, h₂.2, ne_eq, hne, not_false_eq_true, if_true, loadPrev_some,
    h₁.prev_eq, storeNext_some, ok_bind]
  rfl

/-- `re_queue_head` is a removal and an insertion in front. -/
theorem reQueueHead_eq (m : Entries N) (que elt : N) :
    reQueueHead m que elt = remqueue m elt >>= fun m => enqueueHead m que elt := by
  simp only [reQueueHead, remqueue]
  cases storePrev m (m.next elt) (m.prev elt) with
  | error e => rfl
  | ok m₁ => rfl

/-- `re_queue_tail` is a removal and an insertion at the end. -/
theorem reQueueTail_eq (m : Entries N) (que elt : N) :
    reQueueTail m que elt = remqueue m elt >>= fun m => enqueueTail m que elt := by
  simp only [reQueueTail, remqueue]
  cases storePrev m (m.next elt) (m.prev elt) with
  | error e => rfl
  | ok m₁ => rfl

/-- `queue_init` makes an empty ring. -/
theorem queueInit_ring (m : Entries N) (a : N) : (queueInit m a).Ring a [] :=
  ring_nil.mpr ⟨setNext_next_self _, setPrev_prev_self _⟩

/-- `movqueue` of an empty queue initialises the new one. -/
theorem movqueue_nil (h : m.Ring a []) (b : N) : movqueue m a b = .ok (queueInit m b) := by
  have hempty : queueEmpty m a = true := decide_eq_true h.path.1
  rw [movqueue, if_pos hempty]
  rfl

/-- `movqueue` links the new head to both ends and empties the old one. -/
theorem movqueue_cons (h : m.Ring a (x :: l)) {b : N} (hb : b ∉ x :: l) :
    movqueue m a b =
      .ok (queueInit ((m.link b x).link (l.getLast?.getD x) b) a) := by
  have hne : x ≠ a := fun he => h.not_mem (he ▸ List.mem_cons_self)
  have hempty : ¬queueEmpty m a = true := by
    intro he
    have hnext : m.next a = some a := of_decide_eq_true he
    exact hne (Option.some.inj (h.path.1.1.symm.trans hnext))
  have hbx : b ≠ x := fun he => hb (he ▸ List.mem_cons_self)
  rw [movqueue, if_neg hempty]
  simp only [h.path.1.1, h.path.2.prev_eq, storePrev_some, storeNext_some, ok_bind]
  rw [setPrev_comm _ hbx, setNext_setPrev]
  rfl

end Stores

section Families

variable {Q E : Type} [DecidableEq Q] [DecidableEq E]
variable {m : Entries (Node Q E)} {lists : Lists Q E} {q : Q} {l : List E} {e : E}

/-- `enqueue_head` puts an element in front of a list. -/
theorem Family.enqueueHead (h : Family m lists) (hl : lists q = some l) (he : ¬lists.Has e) :
    ∃ m', Queue.enqueueHead m (.head q) (.entry e) = .ok m' ∧
      Family m' (Function.update lists q (some (e :: l))) := by
  have hx := not_mem_nodes he hl
  have hring := h.ring q l hl
  refine ⟨_, enqueueHead_eq hring.path.next_eq ?_, h.insert hl he List.mem_cons_self ?_
    (hring.insert hx) ?_⟩
  · exact List.ne_of_not_mem_cons hx
  · exact head_mem_nodes q fun x hx => hx
  · intro x hx
    exact List.mem_cons.mp hx

/-- `enqueue_tail` puts an element at the end of a list. -/
theorem Family.enqueueTail (h : Family m lists) (hl : lists q = some l) (he : ¬lists.Has e) :
    ∃ m', Queue.enqueueTail m (.head q) (.entry e) = .ok m' ∧
      Family m' (Function.update lists q (some (l ++ [e]))) := by
  have hx := not_mem_nodes he hl
  have hring := h.ring q l hl
  have hins := hring.insert_last hx
  have hlast := getLast_mem_nodes q fun x (hx : x ∈ l) => hx
  refine ⟨_, enqueueTail_eq hring.path.prev_eq ?_, h.insert hl he hlast List.mem_cons_self ?_ ?_⟩
  · exact fun heq => hx (heq ▸ hlast)
  · rw [List.map_append]
    exact hins
  · intro x hx
    simpa [or_comm] using hx

/-- `insque` puts an element behind another. -/
theorem Family.insqueEntry {p : E} (h : Family m lists) (hl : lists q = some l) (hp : p ∈ l)
    (he : ¬lists.Has e) : ∃ m', insque m (.entry e) (.entry p) = .ok m' ∧
      Family m' (Function.update lists q (some (insertAfter p e l))) := by
  obtain ⟨l₁, l₂, rfl, hp₁, -⟩ := h.split hl hp
  have hx := not_mem_nodes he hl
  have hring := h.ring q _ hl
  rw [List.map_append, List.map_cons] at hring hx
  have hnext := (path_append.mp hring.path).2.next_eq
  have hne : (.entry e : Node Q E) ≠ .entry p := by
    simp only [List.mem_cons, List.mem_append, not_or] at hx
    exact hx.2.2.1
  refine ⟨_, (insque_eq _ _ _).trans (enqueueHead_eq hnext hne), ?_⟩
  refine h.insert hl he ?_ ?_ ?_ fun x hx => mem_of_mem_insertAfter hx
  · simp
  · exact head_mem_nodes q fun x hx => List.mem_append_right l₁ (List.mem_cons_of_mem _ hx)
  · rw [insertAfter_append hp₁, List.map_append, List.map_cons, List.map_cons]
    exact hring.insert_after hx

/-- `remqueue` takes an element out of its list. -/
theorem Family.remqueue (h : Family m lists) (hl : lists q = some l) (he : e ∈ l) :
    ∃ m', Queue.remqueue m (.entry e) = .ok m' ∧
      Family m' (Function.update lists q (some (l.erase e))) := by
  obtain ⟨l₁, l₂, rfl, -, herase⟩ := h.split hl he
  have hring := h.ring q _ hl
  rw [List.map_append, List.map_cons] at hring
  rw [herase]
  refine ⟨_, remqueue_eq hring, h.remove hl ?_ ?_ ?_ ?_⟩
  · exact getLast_mem_nodes q fun x hx => List.mem_append_left _ hx
  · exact head_mem_nodes q fun x hx => List.mem_append_right l₁ (List.mem_cons_of_mem _ hx)
  · rw [List.map_append]
    exact hring.remove_mem
  · intro x hx
    simp only [List.mem_append, List.mem_cons] at hx ⊢
    exact hx.imp_right .inr

/-- `dequeue_head` returns the first element and keeps the others. -/
theorem Family.dequeueHead (h : Family m lists) (hl : lists q = some l) :
    ∃ m', Queue.dequeueHead m (.head q) = .ok (m', l.head?.map .entry) ∧
      Family m' (Function.update lists q (some l.tail)) := by
  cases l with
  | nil =>
    refine ⟨m, dequeueHead_nil (h.ring q _ hl), ?_⟩
    rw [List.tail_nil, ← hl, Function.update_eq_self]
    exact h
  | cons x l =>
    have hring := h.ring q _ hl
    refine ⟨_, dequeueHead_cons hring, h.remove hl List.mem_cons_self ?_ hring.remove ?_⟩
    · exact head_mem_nodes q fun y hy => List.mem_cons_of_mem x hy
    · intro y hy
      exact List.mem_cons_of_mem x hy

/-- `dequeue_tail` returns the last element and keeps the others. -/
theorem Family.dequeueTail (h : Family m lists) (hl : lists q = some l) :
    ∃ m', Queue.dequeueTail m (.head q) = .ok (m', l.getLast?.map .entry) ∧
      Family m' (Function.update lists q (some l.dropLast)) := by
  rcases List.eq_nil_or_concat' l with rfl | ⟨l, x, rfl⟩
  · refine ⟨m, dequeueTail_nil (h.ring q _ hl), ?_⟩
    rw [List.dropLast_nil, ← hl, Function.update_eq_self]
    exact h
  · have hring := h.ring q _ hl
    rw [List.map_append, List.map_cons, List.map_nil] at hring
    rw [List.getLast?_concat, List.dropLast_concat]
    refine ⟨_, dequeueTail_snoc hring, h.remove hl ?_ List.mem_cons_self ?_ ?_⟩
    · exact getLast_mem_nodes q fun x hx => List.mem_append_left _ hx
    · have hrem := hring.remove_mem
      rw [List.append_nil] at hrem
      exact hrem
    · intro y hy
      exact List.mem_append_left _ hy

/-- A queue with elements gets another head. -/
theorem Family.rebase {x : E} (h : Family m lists) {old new : Q} (hl : lists old = some (x :: l))
    (hq : new ≠ old) :
    Family ((m.link (.head new) (.entry x)).link ((l.map .entry).getLast?.getD (.entry x))
        (.head new))
      (Function.update (Function.update lists old none) new (some (x :: l))) := by
  have hlast : (l.map .entry).getLast?.getD (.entry x : Node Q E) ∈ (x :: l).map .entry :=
    getLast_getD_mem _ _
  have hout : ∀ {y : Node Q E}, y ∈ (x :: l).map .entry →
      ¬Lists.Elsewhere (Function.update lists old none) new y := by
    intro y hy
    exact h.not_elsewhere_drop hl (List.mem_cons_of_mem _ hy) new
  have hhead := Lists.not_elsewhere_head (Function.update lists old none) new
  have hbase : (.head new : Node Q E) ∉ .head old :: (x :: l).map .entry := by simp [hq]
  exact Family.replace (h.drop old) ((h.ring old _ hl).rebase hbase)
    (((AgreeOn.refl _ m).link hhead (hout List.mem_cons_self)).link (hout hlast) hhead)
    fun e he => hout (List.mem_map_of_mem he)

/-- `movqueue` gives the list to another head. -/
theorem Family.movqueue (h : Family m lists) {old : Q} (hl : lists old = some l) (new : Q) :
    ∃ m', Queue.movqueue m (.head old) (.head new) = .ok m' ∧
      Family m' (Function.update (Function.update lists new (some l)) old (some [])) := by
  have hring := h.ring old l hl
  cases l with
  | nil =>
    refine ⟨_, movqueue_nil hring _, ?_⟩
    have hsame : Function.update (Function.update lists new (some [])) old (some []) =
        Function.update lists new (some []) := by
      rw [Function.update_eq_self_iff]
      by_cases hq : old = new
      · rw [hq, Function.update_self]
      · rw [Function.update_of_ne hq, hl]
    rw [hsame]
    exact h.init new
  | cons x l =>
    have hnew : (.head new : Node Q E) ∉ (x :: l).map .entry := by simp
    refine ⟨_, movqueue_cons hring hnew, ?_⟩
    by_cases hq : new = old
    · -- the stores put back what was there, and the queue is emptied
      subst hq
      have hfirst := h.not_elsewhere hl List.mem_cons_self
      have hlast := h.not_elsewhere_of_mem hl
        (List.mem_cons_of_mem _ (getLast_getD_mem (Node.entry x) (l.map .entry)))
      have hhead := lists.not_elsewhere_head new
      rw [Function.update_idem]
      refine h.replace (queueInit_ring _ _) ?_ ?_
      · exact ((((AgreeOn.refl _ m).link hhead hfirst).link hlast hhead).setNext hhead _).setPrev
          hhead _
      · intro e he
        cases he
    · have hinit := (h.rebase hl hq).init old
      rw [Function.update_comm (Ne.symm hq), Function.update_idem] at hinit
      exact hinit

end Families

end MacKernel.Queue
