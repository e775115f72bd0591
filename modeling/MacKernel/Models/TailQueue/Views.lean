import MacKernel.Models.TailQueue.Native

/-!
# Tail queues as rings

Seen from a head, a null pointer leads back to the head, so that a queue that ends at
the head is a ring. The view depends on the head, and the stores of every macro make
neighbours of two nodes of the view.
-/

namespace MacKernel.TailQueue

open Entries

variable {Q E : Type} {m m' : Links Q E} {q q' : Q} {a b : Node Q E} {e : E} {l l' : List E}

section Targets

/-- Where a pointer leads, for the head `q`. -/
def target (q : Q) : Option E → Node Q E
  | some e => .entry e
  | none => .head q

@[simp] theorem target_some (q : Q) (e : E) : target q (some e) = .entry e := rfl

@[simp] theorem target_none (q : Q) : target q (none : Option E) = .head q := rfl

/-- A pointer is known from the node that it stands for. -/
theorem target_injective (q : Q) : Function.Injective (target q : Option E → Node Q E) := by
  intro v w h
  cases v <;> cases w <;> simp_all

/-- The first node of a list, or the head itself, from a first pointer. -/
theorem target_head (q : Q) (l : List E) :
    (l.map .entry).head?.getD (.head q : Node Q E) = target q l.head? := by
  cases l <;> rfl

/-- The last node of a list, or the head itself. -/
theorem target_getLast (q : Q) (l : List E) :
    (l.map .entry).getLast?.getD (.head q : Node Q E) = target q l.getLast? := by
  rcases List.eq_nil_or_concat' l with rfl | ⟨l, z, rfl⟩
  · rfl
  · simp

/-- The links as the head `q` sees them. -/
def view (q : Q) (m : Links Q E) : Entries (Node Q E) where
  next x := some (target q (m.next x))
  prev := m.prev

/-- Two pairs are linked if the pointer of one leads to the other and the other names it. -/
theorem view_linked : (view q m).Linked a b ↔ target q (m.next a) = b ∧ m.prev b = some a := by
  rw [Entries.Linked, view, Option.some.injEq]

/-- The first field of a pair points at the first element that follows. -/
theorem next_eq (h : (view q m).Path a (l.map .entry) (.head q)) : m.next a = l.head? := by
  apply target_injective q
  rw [← target_head]
  exact Option.some.inj h.next_eq

/-- The first pointer of a path leads to its first element. -/
theorem next_eq_some {k : List (Node Q E)} (h : (view q m).Path a (.entry e :: k) b) :
    m.next a = some e :=
  target_injective q (view_linked.mp h.1).1

/-- The pointer behind a path that ends at a pair. -/
theorem last_next_eq {k : List (Node Q E)} {v : Option E} (h : (view q m).Path a k (target q v)) :
    m.next (k.getLast?.getD a) = v :=
  target_injective q (view_linked.mp h.linked_last).1

/-- The `tqe_next` fields lead through the list to a null pointer. -/
theorem chain_of_path (h : (view q m).Path a (l.map .entry) (.head q)) :
    Chain (tailqNext m) (m.next a) l none := by
  induction l generalizing a with
  | nil => exact next_eq h
  | cons e l ih => exact ⟨next_eq_some h, ih h.2⟩

/-- What `TAILQ_LAST` and `TAILQ_PREV` return at the node behind `l`. -/
theorem beforePair_eq (h : (view q m).Ring (.head q) ((l ++ l').map .entry)) :
    beforePair m (target q l'.head?) = .ok l.getLast? := by
  have hring : m.prev (.head q) = some (target q (l ++ l').getLast?) := by
    rw [← target_getLast]
    exact h.path.prev_eq
  have hpath : (view q m).Path (.head q) (l.map .entry) (target q l'.head?) := by
    cases l' with
    | nil =>
      rw [List.append_nil] at h
      exact h.path
    | cons x l' =>
      have hpath := h.path
      rw [List.map_append, List.map_cons] at hpath
      exact (path_append.mp hpath).1
  rcases List.eq_nil_or_concat' l with rfl | ⟨l, z, rfl⟩
  · -- the pair is the head's, and its `tqh_last` names the null pointer at the end
    have hlast : m.next (target q l'.getLast?) = none := by
      rw [← target_getLast]
      exact last_next_eq h.path
    have hpair : m.prev (target q l'.head?) = some (.head q) := hpath.2
    simp only [beforePair, hpair, hring, deref_some, ok_bind, List.nil_append, hlast]
    rfl
  · -- the pair is that of the element, and its `tqe_prev` names what points at the element
    rw [List.map_append] at hpath
    obtain ⟨h₁, h₂⟩ := path_append.mp hpath
    have hpair : m.prev (target q l'.head?) = some (.entry z) := h₂.2
    have hslot : m.prev (.entry z) = some (target q l.getLast?) := by
      rw [← target_getLast]
      exact h₁.prev_eq
    have hnext : m.next (target q l.getLast?) = some z := by
      rw [← target_getLast]
      exact last_next_eq h₁
    simp only [beforePair, hpair, hslot, deref_some, ok_bind, hnext, List.getLast?_concat]
    rfl

end Targets

section Stores

variable [DecidableEq Q] [DecidableEq E]

@[simp] theorem setNext_prev (v : Option E) : (m.setNext a v).prev = m.prev := rfl

@[simp] theorem setPrev_next (v : Option (Node Q E)) : (m.setPrev a v).next = m.next := rfl

/-- The pointer that was stored is read back. -/
@[simp] theorem setNext_next_self (v : Option E) : (m.setNext a v).next a = v :=
  Function.update_self ..

/-- The address that was stored is read back. -/
@[simp] theorem setPrev_prev_self (v : Option (Node Q E)) : (m.setPrev a v).prev a = v :=
  Function.update_self ..

/-- Other pairs keep their pointer. -/
theorem setNext_next_of_ne {x : Node Q E} (h : x ≠ a) (v : Option E) :
    (m.setNext a v).next x = m.next x :=
  Function.update_of_ne h ..

/-- Other pairs keep their address. -/
theorem setPrev_prev_of_ne {x : Node Q E} (h : x ≠ a) (v : Option (Node Q E)) :
    (m.setPrev a v).prev x = m.prev x :=
  Function.update_of_ne h ..

/-- Stores into different pairs commute. -/
theorem setNext_comm (h : a ≠ b) (v w : Option E) :
    (m.setNext a v).setNext b w = (m.setNext b w).setNext a v := by
  simp only [Links.setNext, Function.update_comm h]

/-- Stores into different pairs commute. -/
theorem setPrev_comm (h : a ≠ b) (v w : Option (Node Q E)) :
    (m.setPrev a v).setPrev b w = (m.setPrev b w).setPrev a v := by
  simp only [Links.setPrev, Function.update_comm h]

/-- Stores into different fields commute. -/
theorem setPrev_setNext (m : Links Q E) (a b : Node Q E) (v : Option E) (w : Option (Node Q E)) :
    (m.setPrev b w).setNext a v = (m.setNext a v).setPrev b w := rfl

/-- A store through an address that is not null. -/
@[simp] theorem storeThrough_some (m : Links Q E) (v : Option E) :
    storeThrough m (some a) v = .ok (m.setNext a v) := rfl

/-- The address goes into the pair that the pointer stands for. -/
theorem setPrevOf_eq (m : Links Q E) (q : Q) (v : Option E) (w : Option (Node Q E)) :
    setPrevOf m q v w = m.setPrev (target q v) w := by
  cases v <;> rfl

/-- A pointer that is stored is a link in the view. -/
theorem view_setNext (q : Q) (m : Links Q E) (v : Option E) :
    view q (m.setNext a v) = (view q m).setNext a (some (target q v)) := by
  simp only [view, Links.setNext, Entries.setNext, Entries.mk.injEq, and_true]
  funext x
  by_cases hx : x = a
  · rw [hx, Function.update_self, Function.update_self]
  · rw [Function.update_of_ne hx, Function.update_of_ne hx]

/-- An address that is stored is a link back in the view. -/
theorem view_setPrev (q : Q) (m : Links Q E) (v : Option (Node Q E)) :
    view q (m.setPrev a v) = (view q m).setPrev a v := rfl

/-- Let a pair point at an element, or end the queue of `q`. -/
def Links.link (m : Links Q E) (q : Q) (a : Node Q E) (v : Option E) : Links Q E :=
  (m.setNext a v).setPrev (target q v) (some a)

/-- Linking two pairs links them in the view. -/
theorem view_link (q : Q) (m : Links Q E) (a : Node Q E) (v : Option E) :
    view q (m.link q a v) = (view q m).link a (target q v) := by
  rw [Links.link, view_setPrev, view_setNext]
  rfl

end Stores

section Macros

variable [DecidableEq Q] [DecidableEq E]

/-- `TAILQ_INIT` links a head to itself. -/
theorem tailqInit_eq (m : Links Q E) (q : Q) : tailqInit m q = m.link q (.head q) none := rfl

/-- An insertion behind a slot makes two links. -/
theorem insertBehind_eq (ha : .entry e ≠ a) (hv : target q (m.next a) ≠ .entry e) :
    insertBehind m q a e = (m.link q a (some e)).link q (.entry e) (m.next a) := by
  simp only [insertBehind, setNext_next_self, setPrevOf_eq, Links.link, target_some]
  rw [setPrev_setNext, setPrev_setNext, setNext_comm ha, setPrev_comm hv]

/-- `TAILQ_INSERT_BEFORE` makes two links. -/
theorem tailqInsertBefore_eq {p : E} (hp : m.prev (.entry p) = some a) (ha : a ≠ .entry e)
    (hpe : p ≠ e) :
    tailqInsertBefore m p e = .ok ((m.link q a (some e)).link q (.entry e) (some p)) := by
  have hne : (.entry p : Node Q E) ≠ .entry e := fun h => hpe (Node.entry.inj h)
  have hprev : ((m.setPrev (.entry e) (some a)).setNext (.entry e) (some p)).prev (.entry p) =
      some a := (setPrev_prev_of_ne hne _).trans hp
  simp only [tailqInsertBefore, hp, hprev, storeThrough_some, ok_bind, Links.link, target_some]
  rw [setPrev_setNext, setPrev_setNext, setPrev_setNext, setNext_comm ha]
  rfl

/-- `TAILQ_INSERT_TAIL` makes two links. -/
theorem tailqInsertTail_eq (hq : m.prev (.head q) = some a) (ha : a ≠ .entry e) :
    tailqInsertTail m q e = .ok ((m.link q a (some e)).link q (.entry e) none) := by
  have hprev : ((m.setNext (.entry e) none).setPrev (.entry e) (some a)).prev (.head q) =
      some a := (setPrev_prev_of_ne (by simp) _).trans hq
  simp only [tailqInsertTail, setNext_prev, hq, hprev, storeThrough_some, ok_bind, Links.link,
    target_some, target_none]
  rw [setPrev_setNext, setPrev_setNext, setNext_comm ha]
  rfl

/-- `TAILQ_REMOVE` links the neighbours to each other. -/
theorem tailqRemove_eq (he : m.prev (.entry e) = some a)
    (hv : target q (m.next (.entry e)) ≠ .entry e) :
    tailqRemove m q e = .ok (m.link q a (m.next (.entry e))) := by
  have hprev : (m.setPrev (target q (m.next (.entry e))) (some a)).prev (.entry e) = some a :=
    (setPrev_prev_of_ne hv.symm _).trans he
  simp only [tailqRemove, setPrevOf_eq, he, hprev, storeThrough_some, setPrev_next]
  rfl

end Macros

end MacKernel.TailQueue
