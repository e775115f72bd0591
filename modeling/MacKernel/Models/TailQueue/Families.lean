import MacKernel.Models.TailQueue.Views

/-!
# Families of tail queues

The macros that insert and remove elements make neighbours of nodes of one ring, and
the other queues do not see it.
-/

namespace MacKernel.TailQueue

open Entries

variable {Q E : Type} {m m' : Links Q E} {lists : Lists Q E} {q : Q}
variable {l l' l₁ l₂ : List E} {e : E}

/-- Every head in use sees the ring of its list, and no element is on two queues. -/
abbrev Family (m : Links Q E) (lists : Lists Q E) : Prop := RingFamily (fun q => view q m) lists

/-- The fields of the nodes in `p` are the same. -/
def Agree (p : Node Q E → Prop) (m m' : Links Q E) : Prop :=
  ∀ q, AgreeOn p (view q m) (view q m')

section Stores

variable {p : Node Q E → Prop} {a : Node Q E}

/-- Every state agrees with itself. -/
theorem Agree.refl (p : Node Q E → Prop) (m : Links Q E) : Agree p m m :=
  fun _ => AgreeOn.refl p _

variable [DecidableEq Q] [DecidableEq E]

/-- A store elsewhere keeps the agreement. -/
theorem Agree.setNext (h : Agree p m m') (ha : ¬p a) (v : Option E) :
    Agree p m (m'.setNext a v) := by
  intro q
  rw [view_setNext]
  exact (h q).setNext ha _

/-- A store elsewhere keeps the agreement. -/
theorem Agree.setPrev (h : Agree p m m') (ha : ¬p a) (v : Option (Node Q E)) :
    Agree p m (m'.setPrev a v) := fun q => (h q).setPrev ha v

/-- Linking two pairs elsewhere keeps the agreement. -/
theorem Agree.link (h : Agree p m m') {v : Option E} (ha : ¬p a) (hv : ¬p (target q v)) :
    Agree p m (m'.link q a v) :=
  (h.setNext ha v).setPrev hv _

end Stores

section Insertion

variable [DecidableEq Q] [DecidableEq E] {a : Node Q E} {v : Option E}

/-- An element that was on no queue is put between two nodes of a queue. -/
theorem Family.insert (h : Family m lists) (hl : lists q = some l) (he : ¬lists.Has e)
    (ha : a ∈ .head q :: l.map .entry) (hv : target q v ∈ .head q :: l.map .entry)
    (hring : (((view q m).link a (.entry e)).link (.entry e) (target q v)).Ring (.head q)
      (l'.map .entry))
    (hl' : ∀ x ∈ l', x = e ∨ x ∈ l) :
    Family ((m.link q a (some e)).link q (.entry e) v) (Function.update lists q (some l')) := by
  have hnew : ¬lists.Elsewhere q (.entry e) := fun helse => he helse.has
  have hold : ∀ {x}, x ∈ .head q :: l.map .entry → ¬lists.Elsewhere q x :=
    fun hx => h.not_elsewhere_of_mem hl hx
  apply RingFamily.replace h
  · rw [view_link, view_link]
    exact hring
  · have hfirst : Agree (lists.Elsewhere q) m (m.link q a (some e)) :=
      (Agree.refl _ m).link (hold ha) hnew
    exact hfirst.link hnew (hold hv)
  · intro x hx
    rcases hl' x hx with rfl | hx
    · exact hnew
    · exact h.not_elsewhere hl hx

/-- `TAILQ_INIT` starts an empty queue. -/
theorem Family.init (h : Family m lists) (q : Q) :
    Family (tailqInit m q) (Function.update lists q (some [])) := by
  have hq := lists.not_elsewhere_head q
  apply RingFamily.replace h
  · rw [tailqInit_eq, view_link]
    exact ring_nil.mpr (link_linked _ _ _)
  · exact (Agree.refl _ m).link hq hq
  · intro e he
    cases he

/-- `TAILQ_INSERT_HEAD` puts an element in front. -/
theorem Family.insertHead (h : Family m lists) (hl : lists q = some l) (he : ¬lists.Has e) :
    Family (tailqInsertHead m q e) (Function.update lists q (some (e :: l))) := by
  have hring := h.ring q l hl
  have hx := not_mem_nodes he hl
  have hnext : target q (m.next (.head q)) = (l.map .entry).head?.getD (.head q) := by
    rw [next_eq hring.path, target_head]
  have hmem : target q (m.next (.head q)) ∈ .head q :: l.map .entry := by
    rw [hnext]
    exact head_mem_nodes q fun x hx => hx
  have hne : target q (m.next (.head q)) ≠ .entry e := fun heq => hx (heq ▸ hmem)
  rw [tailqInsertHead, insertBehind_eq (by simp) hne]
  refine h.insert hl he List.mem_cons_self hmem ?_ fun x hx => List.mem_cons.mp hx
  rw [hnext]
  exact hring.insert hx

/-- `TAILQ_INSERT_TAIL` puts an element at the end. -/
theorem Family.insertTail (h : Family m lists) (hl : lists q = some l) (he : ¬lists.Has e) :
    ∃ m', tailqInsertTail m q e = .ok m' ∧
      Family m' (Function.update lists q (some (l ++ [e]))) := by
  have hring := h.ring q l hl
  have hx := not_mem_nodes he hl
  have hlast := getLast_mem_nodes q fun x (hx : x ∈ l) => hx
  refine ⟨_, tailqInsertTail_eq hring.path.prev_eq fun heq => hx (heq ▸ hlast), ?_⟩
  apply h.insert hl he hlast List.mem_cons_self
  · rw [List.map_append]
    exact hring.insert_last hx
  · intro x hx
    simpa [or_comm] using hx

/-- `TAILQ_INSERT_AFTER` puts an element behind another. -/
theorem Family.insertAfter {p : E} (h : Family m lists) (hl : lists q = some l) (hp : p ∈ l)
    (he : ¬lists.Has e) :
    Family (tailqInsertAfter m q p e)
      (Function.update lists q (some (MacKernel.insertAfter p e l))) := by
  obtain ⟨l₁, l₂, rfl, hp₁, -⟩ := h.split hl hp
  have hring := h.ring q _ hl
  have hx := not_mem_nodes he hl
  rw [List.map_append, List.map_cons] at hring hx
  have hnext : target q (m.next (.entry p)) = (l₂.map .entry).head?.getD (.head q) := by
    rw [next_eq (path_append.mp hring.path).2, target_head]
  have hmem : target q (m.next (.entry p)) ∈ .head q :: (l₁ ++ p :: l₂).map .entry := by
    rw [hnext]
    exact head_mem_nodes q fun x hx => List.mem_append_right l₁ (List.mem_cons_of_mem _ hx)
  have hne : target q (m.next (.entry p)) ≠ .entry e := fun heq =>
    not_mem_nodes he hl (heq ▸ hmem)
  have hpe : (.entry e : Node Q E) ≠ .entry p := by
    simp only [List.mem_cons, List.mem_append, not_or] at hx
    exact hx.2.2.1
  rw [tailqInsertAfter, insertBehind_eq hpe hne]
  refine h.insert hl he (by simp) hmem ?_ fun x hx => mem_of_mem_insertAfter hx
  rw [hnext, insertAfter_append hp₁, List.map_append, List.map_cons, List.map_cons]
  exact hring.insert_after hx

/-- `TAILQ_INSERT_BEFORE` puts an element before another. -/
theorem Family.insertBefore {p : E} (h : Family m lists) (hl : lists q = some l) (hp : p ∈ l)
    (he : ¬lists.Has e) : ∃ m', tailqInsertBefore m p e = .ok m' ∧
      Family m' (Function.update lists q (some (MacKernel.insertBefore p e l))) := by
  obtain ⟨l₁, l₂, rfl, hp₁, -⟩ := h.split hl hp
  have hring := h.ring q _ hl
  have hx := not_mem_nodes he hl
  have hlast : (l₁.map .entry).getLast?.getD (.head q : Node Q E) ∈
      .head q :: (l₁ ++ p :: l₂).map .entry :=
    getLast_mem_nodes q fun x hx => List.mem_append_left _ hx
  have hae : (l₁.map .entry).getLast?.getD (.head q : Node Q E) ≠ .entry e := fun heq =>
    hx (heq ▸ hlast)
  have hpe : p ≠ e := fun heq => he ⟨q, _, hl, heq ▸ hp⟩
  rw [List.map_append, List.map_cons] at hring hx
  have hprev := (path_append.mp hring.path).1.prev_eq
  refine ⟨_, tailqInsertBefore_eq hprev hae hpe,
    h.insert hl he hlast (by simp) ?_ fun x hx => mem_of_mem_insertBefore hx⟩
  rw [insertBefore_append hp₁, List.map_append, List.map_cons, List.map_cons]
  exact hring.insert_before hx

/-- Remove an element from its place. -/
theorem Family.removeAt (h : Family m lists) (hl : lists q = some (l₁ ++ e :: l₂)) :
    ∃ m', tailqRemove m q e = .ok m' ∧ Family m' (Function.update lists q (some (l₁ ++ l₂))) := by
  have hring := h.ring q _ hl
  have hold : ∀ {x}, x ∈ .head q :: (l₁ ++ e :: l₂).map .entry → ¬lists.Elsewhere q x :=
    fun hx => h.not_elsewhere_of_mem hl hx
  have hnodup := h.nodup hl
  rw [List.map_append, List.map_cons] at hring
  obtain ⟨h₁, h₂⟩ := path_append.mp hring.path
  have hnext : target q (m.next (.entry e)) = (l₂.map .entry).head?.getD (.head q) := by
    rw [next_eq h₂, target_head]
  have hne : target q (m.next (.entry e)) ≠ .entry e := by
    rw [hnext]
    intro heq
    have hmem := head_mem_nodes q fun x (hx : x ∈ l₂) => hx
    rw [heq] at hmem
    have he₂ : e ∈ l₂ := by simpa using hmem
    exact (List.nodup_cons.mp (List.nodup_append.mp hnodup).2.1).1 he₂
  refine ⟨_, tailqRemove_eq h₁.prev_eq hne, ?_⟩
  apply RingFamily.replace h
  · rw [view_link, hnext, List.map_append]
    exact hring.remove_mem
  · apply (Agree.refl _ m).link
    · exact hold (getLast_mem_nodes q fun x hx => List.mem_append_left _ hx)
    · rw [hnext]
      exact hold (head_mem_nodes q fun x hx =>
        List.mem_append_right l₁ (List.mem_cons_of_mem _ hx))
  · intro x hx
    apply h.not_elsewhere hl
    simp only [List.mem_append, List.mem_cons] at hx ⊢
    exact hx.imp_right .inr

/-- `TAILQ_REMOVE` takes an element out of its queue. -/
theorem Family.remove (h : Family m lists) (hl : lists q = some l) (he : e ∈ l) :
    ∃ m', tailqRemove m q e = .ok m' ∧ Family m' (Function.update lists q (some (l.erase e))) := by
  obtain ⟨l₁, l₂, rfl, -, herase⟩ := h.split hl he
  rw [herase]
  exact h.removeAt hl

end Insertion

end MacKernel.TailQueue
