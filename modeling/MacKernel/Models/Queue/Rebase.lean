import MacKernel.Models.Queue.ElementChains

/-!
# Another head for a queue

`movqueue`, `queue_assign` and `queue_new_head` give the elements of a queue another head. With
elements in the queue they store the same links, in different orders; `movqueue` also empties
the old head. `queue_assign` does not look whether there are any: it then takes the head itself
for an element, and the new head is never an empty queue.
-/

namespace MacKernel.Queue

open Entries

variable {Q E : Type} [DecidableEq Q] [DecidableEq E]
variable {m : Entries (Node Q E)} {old new : Q} {l : List E} {e : E}

/-- The new head holds the list, and nothing but the two heads and the elements at the ends of
the list is different. -/
structure Rebased (m m' : Entries (Node Q E)) (old new : Q) (l : List E) : Prop where
  ring : m'.Ring (.head new) (l.map .entry)
  frame : AgreeOn (fun x => x ≠ .head old ∧ x ≠ .head new ∧ some x ≠ l.head?.map .entry
    ∧ some x ≠ l.getLast?.map .entry) m m'

/-- The three ways to rebase a queue return, do so, and agree on everything but the old head. -/
def SameEffect (fieldFirst : Bool) (m : Entries (Node Q E)) (old new : Q) (l : List E) : Prop :=
  ∃ m₁ m₂ m₃, movqueue m (.head old) (.head new) = .ok m₁
    ∧ queueAssign fieldFirst m new old = .ok m₂
    ∧ queueNewHead m old new = .ok m₃
    ∧ Rebased m m₁ old new l ∧ Rebased m m₂ old new l ∧ Rebased m m₃ old new l
    ∧ AgreeOn (fun x => x ≠ .head old) m₁ m₂ ∧ AgreeOn (fun x => x ≠ .head old) m₁ m₃

/-! ## Queues with elements -/

omit [DecidableEq Q] [DecidableEq E] in
private theorem getLast_getD_entry (e : E) (l : List E) :
    (l.map .entry).getLast?.getD (.entry e : Node Q E) = .entry (l.getLast?.getD e) := by
  rcases List.eq_nil_or_concat' l with rfl | ⟨l, p, rfl⟩
  · rfl
  · simp

/-- `queue_assign` stores the links that `queue_new_head` stores. -/
theorem queueAssign_cons (fieldFirst : Bool) (h : m.Ring (.head old) ((e :: l).map .entry))
    (new : Q) :
    queueAssign fieldFirst m new old
      = .ok ((m.link (.head new) (.entry e)).link
          ((l.map .entry).getLast?.getD (.entry e)) (.head new)) := by
  have hnext : m.next (.head old) = some (.entry e) := h.path.1.1
  have hprev := h.path.2.prev_eq
  rw [getLast_getD_entry] at hprev ⊢
  have hsel : (m.setNext (.entry (l.getLast?.getD e)) (some (.head new))).next (.head old)
      = some (.entry e) := by
    rw [setNext_next_of_ne (by simp), hnext]
  have hback : ((m.setNext (.entry (l.getLast?.getD e)) (some (.head new))).setPrev (.entry e)
      (some (.head new))).prev (.head old) = some (.entry (l.getLast?.getD e)) := by
    rw [setPrev_prev_of_ne (by simp), setNext_prev, hprev]
  have hcomm : (m.setNext (.entry (l.getLast?.getD e)) (some (.head new))).setNext (.head new)
      (some (.entry e)) = (m.setNext (.head new) (some (.entry e))).setNext
        (.entry (l.getLast?.getD e)) (some (.head new)) := setNext_comm _ (by simp) _ _
  simp only [queueAssign, fieldOf, hprev, ok_bind, hsel, setPrev_next, setNext_prev, hback]
  exact congrArg (fun m' : Entries (Node Q E) => Except.ok ((m'.setPrev (.entry e)
    (some (.head new))).setPrev (.head new) (some (.entry (l.getLast?.getD e))))) hcomm

/-- The links that all three store. -/
theorem rebased_link (h : m.Ring (.head old) ((e :: l).map .entry)) (hne : new ≠ old) :
    Rebased m ((m.link (.head new) (.entry e)).link ((l.map .entry).getLast?.getD (.entry e))
      (.head new)) old new (e :: l) where
  ring := by
    refine Ring.rebase h ?_
    simp [hne]
  frame := by
    rintro x ⟨-, hnew, hfirst, hlast⟩
    have hxe : x ≠ .entry e := by simpa using hfirst
    have hxp : x ≠ .entry (l.getLast?.getD e) := by
      rw [List.getLast?_cons] at hlast
      simpa using hlast
    rw [getLast_getD_entry, link_next_of_ne hxp, link_next_of_ne hnew, link_prev_of_ne hnew,
      link_prev_of_ne hxe]
    exact ⟨rfl, rfl⟩

/-- `movqueue` also stores to the old head. -/
theorem Rebased.queueInit {m' : Entries (Node Q E)} (h : Rebased m m' old new l)
    (hne : new ≠ old) : Rebased m (Queue.queueInit m' (.head old)) old new l where
  ring := by
    refine h.ring.frame (fun x hx => ?_) fun x hx => ?_
    · exact setNext_next_of_ne (by rintro rfl; simp [hne.symm] at hx) _
    · exact setPrev_prev_of_ne (by rintro rfl; simp [hne.symm] at hx) _
  frame := by
    rintro x hx
    obtain ⟨hnext, hprev⟩ := h.frame x hx
    constructor
    · rw [← hnext]
      exact setNext_next_of_ne hx.1 _
    · rw [← hprev]
      exact setPrev_prev_of_ne hx.1 _

private theorem sameEffect_cons (fieldFirst : Bool) (h : m.Ring (.head old) ((e :: l).map .entry))
    (hne : new ≠ old) : SameEffect fieldFirst m old new (e :: l) := by
  have hnew : (.head new : Node Q E) ∉ (e :: l).map .entry := by simp
  have hlinked := rebased_link h hne
  have hagree : AgreeOn (fun x => x ≠ .head old)
      (Queue.queueInit ((m.link (.head new) (.entry e)).link
        ((l.map .entry).getLast?.getD (.entry e)) (.head new)) (.head old))
      ((m.link (.head new) (.entry e)).link ((l.map .entry).getLast?.getD (.entry e))
        (.head new)) :=
    fun x hx => ⟨(setNext_next_of_ne hx _).symm, (setPrev_prev_of_ne hx _).symm⟩
  exact ⟨_, _, _, movqueue_cons h hnew, queueAssign_cons fieldFirst h new, queueNewHead_cons h new,
    hlinked.queueInit hne, hlinked, hlinked, hagree, hagree⟩

/-! ## The empty queue -/

/-- An empty queue has no element to store to: what `queue_assign` leaves is not an empty
queue, even where the head has the field that is stored to. -/
theorem queueAssign_nil (fieldFirst : Bool) (h : m.Ring (.head old) []) (hne : new ≠ old)
    {m' : Entries (Node Q E)} (hassign : queueAssign fieldFirst m new old = .ok m') :
    ¬ m'.Ring (.head new) [] := by
  obtain ⟨hnext, hprev⟩ := ring_nil.1 h
  cases fieldFirst with
  | false =>
    simp only [queueAssign, hprev, fieldOf] at hassign
    cases hassign
  | true =>
    -- the second store goes to the new head, and is overwritten with the old one's link
    have hback : (((m.setNext (.head old) (some (.head new))).setPrev (.head new)
        (some (.head new))).setNext (.head new) (some (.head new))).prev (.head old)
          = some (.head old) := by
      rw [setNext_prev, setPrev_prev_of_ne (by simpa using hne.symm), setNext_prev, hprev]
    simp only [queueAssign, hprev, fieldOf, if_true, ok_bind, setNext_next_self, setPrev_next,
      hback] at hassign
    obtain rfl := Except.ok.inj hassign
    intro hring
    have hself := (ring_nil.1 hring).2
    rw [setPrev_prev_self] at hself
    simp only [Option.some.injEq, Node.head.injEq] at hself
    exact hne hself.symm

/-- The three agree exactly when there is something to rebase. -/
theorem sameEffect_iff (fieldFirst : Bool) (m : Entries (Node Q E)) (old new : Q) (l : List E)
    (h : m.Ring (.head old) (l.map .entry)) (hne : new ≠ old) :
    SameEffect fieldFirst m old new l ↔ l ≠ [] := by
  cases l with
  | nil =>
    refine iff_of_false ?_ fun hnil => hnil rfl
    rintro ⟨_, m', _, -, hassign, -, -, hrebased, -⟩
    exact queueAssign_nil fieldFirst h hne hassign hrebased.ring
  | cons e l => exact iff_of_true (sameEffect_cons fieldFirst h hne) (List.cons_ne_nil e l)

/-- A queue of one element, which is both the first and the last. -/
def singleQueue : Entries (Node Bool Nat) where
  next x := if x = .head false then some (.entry 1) else some (.head false)
  prev x := if x = .head false then some (.entry 1) else some (.head false)

theorem sameEffect_iff_single :
    singleQueue.Ring (.head false) ([1].map .entry) ∧
      SameEffect true singleQueue false true [1] := by
  have hring : singleQueue.Ring (.head false) ([1].map .entry) := by
    refine ⟨⟨⟨rfl, rfl⟩, rfl, rfl⟩, by decide⟩
  exact ⟨hring, (sameEffect_iff true singleQueue false true [1] hring (by decide)).2 (by decide)⟩

/-- An empty queue beside a head that was never initialised. -/
def emptyQueue : Entries (Node Bool Nat) where
  next x := if x = .head false then some (.head false) else none
  prev x := if x = .head false then some (.head false) else none

/-- With the field in another place `queue_assign` stores outside of both heads; with the field
in front the new head is not an empty queue. -/
theorem not_sameEffect_empty :
    emptyQueue.Ring (.head false) (([] : List Nat).map .entry)
      ∧ queueAssign false emptyQueue true false = .error .unmapped
      ∧ ¬ SameEffect false emptyQueue false true []
      ∧ ¬ SameEffect true emptyQueue false true [] := by
  have hring : emptyQueue.Ring (.head false) [] := ring_nil.2 ⟨rfl, rfl⟩
  refine ⟨hring, rfl, ?_, ?_⟩
  · rintro ⟨_, m', _, -, hassign, -⟩
    cases hassign
  · rintro ⟨_, m', _, -, hassign, -, -, hrebased, -⟩
    exact queueAssign_nil true hring (by decide) hassign hrebased.ring

end MacKernel.Queue
