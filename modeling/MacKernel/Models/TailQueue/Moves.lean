import MacKernel.Models.TailQueue.Families

/-!
# Concatenation and exchange of tail queues

`TAILQ_CONCAT` and `TAILQ_SWAP` move the elements of a queue to another head. Their
null pointer then stands for that head, and only the first elements and the two heads
are stored to. Empty queues need stores of their own, since an empty head names itself.
-/

namespace MacKernel.TailQueue

open Entries

variable {Q E : Type} {m m' : Links Q E} {lists : Lists Q E} {q q₁ q₂ : Q}
variable {l l₁ l₂ : List E} {e : E}

/-- A node of one queue is no element of another. -/
theorem Family.entry_ne (h : Family m lists) (h₁ : lists q₁ = some l₁) (h₂ : lists q₂ = some l₂)
    (hq : q₁ ≠ q₂) {a : Node Q E} (ha : a ∈ .head q₁ :: l₁.map .entry) (he : e ∈ l₂) :
    .entry e ≠ a := by
  rintro rfl
  have he₁ : e ∈ l₁ := by simpa using ha
  exact hq (h.disjoint q₁ q₂ l₁ l₂ e h₁ h₂ he₁ he)

/-- The first element of a queue, or the head that its null pointer stands for. -/
theorem Family.target_mem (h : Family m lists) (hl : lists q = some l) (q' : Q) :
    target q' (m.next (.head q)) ∈ .head q' :: l.map .entry := by
  rw [next_eq (h.ring q _ hl).path, ← target_head]
  exact head_mem_nodes q' fun x hx => hx

/-- The first elements, or the heads, of two queues that are exchanged. -/
theorem Family.target_ne (h : Family m lists) (h₁ : lists q₁ = some l₁) (h₂ : lists q₂ = some l₂)
    (hq : q₁ ≠ q₂) : target q₁ (m.next (.head q₂)) ≠ target q₂ (m.next (.head q₁)) := by
  rw [next_eq (h.ring q₁ _ h₁).path, next_eq (h.ring q₂ _ h₂).path]
  intro heq
  cases l₂ with
  | nil =>
    cases l₁ with
    | nil => exact hq (Node.head.inj heq)
    | cons x l₁ => cases heq
  | cons y l₂ =>
    cases l₁ with
    | nil => cases heq
    | cons x l₁ =>
      obtain rfl : y = x := Node.entry.inj heq
      exact hq (h.disjoint q₁ q₂ _ _ y h₁ h₂ List.mem_cons_self List.mem_cons_self)

/-- The elements behind `x` are seen from another head. -/
theorem path_rehead {x : E} (h : (view q₂ m).Path (.entry x) (l.map .entry) (.head q₂))
    (hnext : ∀ e ∈ x :: l, m'.next (.entry e) = m.next (.entry e))
    (hprev : ∀ e ∈ l, m'.prev (.entry e) = m.prev (.entry e))
    (hlast : m'.prev (.head q₁) = m.prev (.head q₂)) :
    (view q₁ m').Path (.entry x) (l.map .entry) (.head q₁) := by
  induction l generalizing x with
  | nil =>
    have hx : m'.next (.entry x) = none := (hnext x List.mem_cons_self).trans (next_eq h)
    apply view_linked.mpr
    rw [hx, hlast]
    exact ⟨rfl, h.2⟩
  | cons y l ih =>
    constructor
    · apply view_linked.mpr
      rw [hnext x List.mem_cons_self, hprev y List.mem_cons_self]
      exact ⟨congrArg (target q₁) (next_eq_some h), h.1.2⟩
    · apply ih h.2
      · exact fun e he => hnext e (List.mem_cons_of_mem x he)
      · exact fun e he => hprev e (List.mem_cons_of_mem y he)

/-- A queue is seen from another head. -/
theorem ring_rehead (h : (view q₂ m).Ring (.head q₂) (l.map .entry))
    (hfirst : m'.next (.head q₁) = m.next (.head q₂))
    (hback : m'.prev (target q₁ (m.next (.head q₂))) = some (.head q₁))
    (hnext : ∀ e ∈ l, m'.next (.entry e) = m.next (.entry e))
    (hprev : ∀ e ∈ l.tail, m'.prev (.entry e) = m.prev (.entry e))
    (hlast : l ≠ [] → m'.prev (.head q₁) = m.prev (.head q₂)) :
    (view q₁ m').Ring (.head q₁) (l.map .entry) := by
  have hnodup : (.head q₁ :: l.map .entry : List (Node Q E)).Nodup := by
    apply List.nodup_cons.mpr
    exact ⟨by simp, (List.nodup_cons.mp h.nodup).2⟩
  refine ⟨?_, hnodup⟩
  have hlinked : (view q₁ m').Linked (.head q₁) (target q₁ l.head?) := by
    rw [next_eq h.path] at hfirst hback
    exact view_linked.mpr ⟨congrArg (target q₁) hfirst, hback⟩
  cases l with
  | nil => exact hlinked
  | cons x l => exact ⟨hlinked, path_rehead h.path.2 hnext hprev (hlast (List.cons_ne_nil x l))⟩

variable [DecidableEq Q] [DecidableEq E]

private theorem tailqConcat_nil (h : m.next (.head q₂) = none) : tailqConcat m q₁ q₂ = .ok m := by
  have hempty : tailqEmpty m q₂ = true := by rw [tailqEmpty, h]; rfl
  rw [tailqConcat, if_pos hempty]
  rfl

private theorem tailqConcat_cons {x : E} {a : Node Q E} (hfirst : m.next (.head q₂) = some x)
    (hlast : m.prev (.head q₁) = some a) (ha : a ≠ .head q₂) :
    tailqConcat m q₁ q₂ =
      .ok (tailqInit ((m.link q₁ a (some x)).setPrev (.head q₁) (m.prev (.head q₂))) q₂) := by
  have hempty : ¬tailqEmpty m q₂ = true := by
    rw [tailqEmpty, hfirst]
    exact Bool.false_ne_true
  have hstore : (m.setNext a (some x)).next (.head q₂) = some x :=
    (setNext_next_of_ne ha.symm _).trans hfirst
  have hprev : ((m.setNext a (some x)).setPrev (.entry x) (some a)).prev (.head q₂) =
      m.prev (.head q₂) := setPrev_prev_of_ne (by simp) _
  rw [tailqConcat, if_neg hempty]
  simp only [hfirst, hlast, storeThrough_some, ok_bind, hstore, deref_some, setNext_prev, hprev]
  rfl

/-- The ring of the elements of two queues. -/
theorem Family.append_ring {x : E} (h : Family m lists) (h₁ : lists q₁ = some l₁)
    (h₂ : lists q₂ = some (x :: l)) (hq : q₁ ≠ q₂) :
    (view q₁ ((m.link q₁ ((l₁.map .entry).getLast?.getD (.head q₁)) (some x)).setPrev (.head q₁)
      (m.prev (.head q₂)))).Ring (.head q₁) ((l₁ ++ x :: l).map .entry) := by
  have hring₁ := h.ring q₁ _ h₁
  have hring₂ := h.ring q₂ _ h₂
  constructor
  · rw [List.map_append, List.map_cons]
    apply path_append.mpr
    constructor
    · have hx : .entry x ∉ l₁.map (.entry : E → Node Q E) := by
        intro hmem
        have hx₁ := List.mem_cons_of_mem (.head q₁) hmem
        exact h.entry_ne h₁ h₂ hq hx₁ List.mem_cons_self rfl
      have hpath := hring₁.path.redirect hring₁.nodup hx
      rw [← target_some q₁ x, ← view_link] at hpath
      apply hpath.frame
      · intro y hy
        rfl
      · intro y hy
        have hne : y ≠ .head q₁ := by
          rintro rfl
          simp at hy
        exact setPrev_prev_of_ne hne _
    · apply path_rehead hring₂.path.2
      · intro e he
        have hlast := getLast_mem_nodes q₁ fun e (he : e ∈ l₁) => he
        exact setNext_next_of_ne (h.entry_ne h₁ h₂ hq hlast he) _
      · intro e he
        have hne : e ≠ x := fun heq => (List.nodup_cons.mp (h.nodup h₂)).1 (heq ▸ he)
        exact (setPrev_prev_of_ne (by simp) _).trans (setPrev_prev_of_ne (by simp [hne]) _)
      · exact setPrev_prev_self _
  · have hnodup : (l₁ ++ x :: l).Nodup := by
      refine List.nodup_append.mpr ⟨h.nodup h₁, h.nodup h₂, ?_⟩
      rintro e he e' he' rfl
      exact hq (h.disjoint q₁ q₂ l₁ _ e h₁ h₂ he he')
    rw [List.nodup_cons]
    exact ⟨by simp, hnodup.map fun e e' heq => Node.entry.inj heq⟩

/-- The elements of the second queue go behind those of the first. -/
theorem Family.append {x : E} (h : Family m lists) (h₁ : lists q₁ = some l₁)
    (h₂ : lists q₂ = some (x :: l)) (hq : q₁ ≠ q₂) :
    Family ((m.link q₁ ((l₁.map .entry).getLast?.getD (.head q₁)) (some x)).setPrev (.head q₁)
        (m.prev (.head q₂)))
      (Function.update (Function.update lists q₂ none) q₁ (some (l₁ ++ x :: l))) := by
  have hdrop := h.drop q₂
  have h₁' : Function.update lists q₂ none q₁ = some l₁ := by rw [Function.update_of_ne hq, h₁]
  apply RingFamily.replace hdrop (h.append_ring h₁ h₂ hq)
  · have hhead := Lists.not_elsewhere_head (Function.update lists q₂ none) q₁
    apply Agree.setPrev _ hhead
    apply (Agree.refl _ m).link
    · exact hdrop.not_elsewhere_of_mem h₁' (getLast_mem_nodes q₁ fun e he => he)
    · exact h.not_elsewhere_drop h₂ (entry_mem_nodes q₂ List.mem_cons_self) q₁
  · intro e he
    rcases List.mem_append.mp he with he | he
    · exact hdrop.not_elsewhere h₁' he
    · exact h.not_elsewhere_drop h₂ (entry_mem_nodes q₂ he) q₁

theorem Family.concat (h : Family m lists) (h₁ : lists q₁ = some l₁) (h₂ : lists q₂ = some l₂) :
    ∃ m', tailqConcat m q₁ q₂ = .ok m' ∧
      Family m' (Function.update (Function.update lists q₁ (some (l₁ ++ l₂))) q₂ (some [])) := by
  have hring₁ := h.ring q₁ _ h₁
  have hring₂ := h.ring q₂ _ h₂
  cases l₂ with
  | nil =>
    refine ⟨m, tailqConcat_nil (next_eq hring₂.path), ?_⟩
    rw [List.append_nil, ← h₁, Function.update_eq_self, ← h₂, Function.update_eq_self]
    exact h
  | cons x l =>
    have hlast := getLast_mem_nodes q₁ fun e (he : e ∈ l₁) => he
    have hne : (l₁.map .entry).getLast?.getD (.head q₁ : Node Q E) ≠ .head q₂ := by
      intro heq
      rw [target_getLast] at heq
      cases hl₁ : l₁.getLast? with
      | some e =>
        rw [hl₁] at heq
        cases heq
      | none =>
        rw [hl₁] at heq
        obtain rfl := Node.head.inj heq
        rw [List.getLast?_eq_none_iff] at hl₁
        rw [h₁, hl₁] at h₂
        cases h₂
    refine ⟨_, tailqConcat_cons (next_eq hring₂.path) hring₁.path.prev_eq hne, ?_⟩
    by_cases hq : q₁ = q₂
    · -- the elements are chained to themselves, and the queue is emptied
      subst hq
      have hhead := lists.not_elsewhere_head q₁
      rw [Function.update_idem, tailqInit_eq]
      apply RingFamily.replace h
      · rw [view_link]
        exact ring_nil.mpr (link_linked _ _ _)
      · have hfirst : Agree (lists.Elsewhere q₁) m
            (m.link q₁ ((l₁.map .entry).getLast?.getD (.head q₁)) (some x)) :=
          (Agree.refl _ m).link (h.not_elsewhere_of_mem h₁ hlast)
            (h.not_elsewhere h₂ List.mem_cons_self)
        exact (hfirst.setPrev hhead _).link hhead hhead
      · intro e he
        cases he
    · have hinit := (h.append h₁ h₂ hq).init q₂
      rw [Function.update_comm (Ne.symm hq), Function.update_idem] at hinit
      exact hinit

/-- The heads are exchanged, and then named by the first elements or by themselves. -/
theorem tailqSwap_eq (m : Links Q E) (q₁ q₂ : Q) :
    tailqSwap m q₁ q₂ =
      (((((m.setNext (.head q₁) (m.next (.head q₂))).setNext (.head q₂)
        (m.next (.head q₁))).setPrev (.head q₁) (m.prev (.head q₂))).setPrev (.head q₂)
        (m.prev (.head q₁))).setPrev (target q₁ (m.next (.head q₂))) (some (.head q₁))).setPrev
        (target q₂ (m.next (.head q₁))) (some (.head q₂)) := by
  have hnext : ((m.setNext (.head q₁) (m.next (.head q₂))).setNext (.head q₂)
      (m.next (.head q₁))).next (.head q₁) = m.next (.head q₂) := by
    by_cases hq : q₁ = q₂
    · rw [hq, setNext_next_self]
    · rw [setNext_next_of_ne (by simp [hq]), setNext_next_self]
  simp only [tailqSwap, setPrevOf_eq, setNext_prev, setPrev_next, setPrev_setNext, hnext,
    setNext_next_self]

private theorem tailqSwap_self (h : (view q m).Ring (.head q) (l.map .entry)) :
    tailqSwap m q q = m := by
  have hprev : m.prev (target q (m.next (.head q))) = some (.head q) := by
    rw [next_eq h.path]
    cases l with
    | nil => exact h.path.2
    | cons x l => exact h.path.1.2
  have hback : m.setPrev (target q (m.next (.head q))) (some (.head q)) = m := by
    rw [← hprev, Links.setPrev, Function.update_eq_self]
  rw [tailqSwap_eq]
  simp only [Links.setNext, Function.update_eq_self]
  rw [Links.setPrev] at hback
  simp only [Links.setPrev, Function.update_eq_self, hback]

private theorem Family.swap_comm (h : Family m lists) (h₁ : lists q₁ = some l₁)
    (h₂ : lists q₂ = some l₂)
    (hq : q₁ ≠ q₂) : tailqSwap m q₁ q₂ = tailqSwap m q₂ q₁ := by
  have hhead : (.head q₁ : Node Q E) ≠ .head q₂ := fun heq => hq (Node.head.inj heq)
  rw [tailqSwap_eq, tailqSwap_eq, setNext_comm hhead, setPrev_comm hhead,
    setPrev_comm (h.target_ne h₁ h₂ hq)]

/-- The ring of the other queue. -/
theorem Family.swap_ring (h : Family m lists) (h₁ : lists q₁ = some l₁) (h₂ : lists q₂ = some l₂)
    (hq : q₁ ≠ q₂) :
    (view q₁ (tailqSwap m q₁ q₂)).Ring (.head q₁) (l₂.map .entry) := by
  have hring₂ := h.ring q₂ _ h₂
  have hmem := h.target_mem h₁ q₂
  have hother : ∀ e ∈ l₂, .entry e ≠ target q₂ (m.next (.head q₁)) := by
    intro e he heq
    rw [← heq] at hmem
    have he₁ : e ∈ l₁ := by simpa using hmem
    exact hq (h.disjoint q₁ q₂ l₁ l₂ e h₁ h₂ he₁ he)
  have hq₁ : (.head q₁ : Node Q E) ≠ target q₂ (m.next (.head q₁)) := by
    intro heq
    rw [← heq] at hmem
    simp [hq] at hmem
  have hheads : (.head q₁ : Node Q E) ≠ .head q₂ := fun heq => hq (Node.head.inj heq)
  rw [tailqSwap_eq]
  apply ring_rehead hring₂
  case hfirst =>
    simp only [setPrev_next]
    rw [setNext_next_of_ne hheads, setNext_next_self]
  case hback => rw [setPrev_prev_of_ne (h.target_ne h₁ h₂ hq), setPrev_prev_self]
  case hnext =>
    intro e he
    simp only [setPrev_next]
    rw [setNext_next_of_ne (by simp), setNext_next_of_ne (by simp)]
  case hprev =>
    intro e he
    have hfirst : .entry e ≠ target q₁ (m.next (.head q₂)) := by
      rw [next_eq hring₂.path]
      cases l₂ with
      | nil => cases he
      | cons x l₂ =>
        intro heq
        obtain rfl : e = x := Node.entry.inj heq
        exact (List.nodup_cons.mp (h.nodup h₂)).1 he
    rw [setPrev_prev_of_ne (hother e (List.mem_of_mem_tail he)), setPrev_prev_of_ne hfirst,
      setPrev_prev_of_ne (by simp), setPrev_prev_of_ne (by simp)]
    rfl
  case hlast =>
    intro hne
    obtain ⟨x, l, rfl⟩ := List.exists_cons_of_ne_nil hne
    have hfirst : (.head q₁ : Node Q E) ≠ target q₁ (m.next (.head q₂)) := by
      rw [next_eq hring₂.path]
      simp
    rw [setPrev_prev_of_ne hq₁, setPrev_prev_of_ne hfirst, setPrev_prev_of_ne hheads,
      setPrev_prev_self]

/-- The nodes that are stored to belong to the two queues. -/
theorem Family.swap_agree (h : Family m lists) (h₁ : lists q₁ = some l₁) (h₂ : lists q₂ = some l₂)
    {p : Node Q E → Prop} (hp₁ : ∀ x ∈ .head q₁ :: l₁.map .entry, ¬p x)
    (hp₂ : ∀ x ∈ .head q₂ :: l₂.map .entry, ¬p x) : Agree p m (tailqSwap m q₁ q₂) := by
  have hhead₁ := hp₁ _ List.mem_cons_self
  have hhead₂ := hp₂ _ List.mem_cons_self
  have hfirst₂ : ¬p (target q₁ (m.next (.head q₂))) := by
    rcases List.mem_cons.mp (h.target_mem h₂ q₁) with heq | hmem
    · rw [heq]
      exact hhead₁
    · exact hp₂ _ (List.mem_cons_of_mem _ hmem)
  have hfirst₁ : ¬p (target q₂ (m.next (.head q₁))) := by
    rcases List.mem_cons.mp (h.target_mem h₁ q₂) with heq | hmem
    · rw [heq]
      exact hhead₂
    · exact hp₁ _ (List.mem_cons_of_mem _ hmem)
  rw [tailqSwap_eq]
  apply Agree.setPrev _ hfirst₁
  apply Agree.setPrev _ hfirst₂
  apply Agree.setPrev _ hhead₂
  apply Agree.setPrev _ hhead₁
  exact ((Agree.refl p m).setNext hhead₁ _).setNext hhead₂ _

theorem Family.swap (h : Family m lists) (h₁ : lists q₁ = some l₁) (h₂ : lists q₂ = some l₂) :
    Family (tailqSwap m q₁ q₂)
      (Function.update (Function.update lists q₁ (some l₂)) q₂ (some l₁)) := by
  by_cases hq : q₁ = q₂
  · subst hq
    obtain rfl : l₁ = l₂ := Option.some.inj (h₁.symm.trans h₂)
    rw [tailqSwap_self (h.ring q₁ _ h₁), Function.update_idem, ← h₁, Function.update_eq_self]
    exact h
  · have hring₂ := h.swap_ring h₂ h₁ (Ne.symm hq)
    rw [h.swap_comm h₂ h₁ (Ne.symm hq)] at hring₂
    have hdrop := h.drop q₂
    have h₁' : Function.update lists q₂ none q₁ = some l₁ := by rw [Function.update_of_ne hq, h₁]
    have hfirst : Family (tailqSwap m q₁ q₂)
        (Function.update (Function.update lists q₂ none) q₁ (some l₂)) := by
      apply RingFamily.replace hdrop (h.swap_ring h₁ h₂ hq)
      · apply h.swap_agree h₁ h₂
        · exact fun x hx => hdrop.not_elsewhere_of_mem h₁' hx
        · exact fun x hx => h.not_elsewhere_drop h₂ hx q₁
      · exact fun e he => h.not_elsewhere_drop h₂ (entry_mem_nodes q₂ he) q₁
    have hboth : Family (tailqSwap m q₁ q₂)
        (Function.update (Function.update (Function.update lists q₂ none) q₁ (some l₂)) q₂
          (some l₁)) := by
      apply RingFamily.replace hfirst hring₂ (Agree.refl _ _)
      rintro e he ⟨q', l', hne, hl', hmem⟩
      have he' : e ∈ l' := by simpa using hmem
      by_cases hq' : q' = q₁
      · rw [hq', Function.update_self] at hl'
        obtain rfl := Option.some.inj hl'
        exact hq (h.disjoint q₁ q₂ l₁ l₂ e h₁ h₂ he he')
      · rw [Function.update_of_ne hq', Function.update_of_ne hne] at hl'
        exact hq' (h.disjoint q' q₁ l' l₁ e hl' h₁ he' he)
    rw [Function.update_comm (Ne.symm hq), Function.update_idem] at hboth
    exact hboth

end MacKernel.TailQueue
