import MacKernel.Models.Queue.Native

/-!
# Families of queues

Each head in use is the start of the ring of its list, in one memory. An operation
that stays among the nodes of one queue, or takes an element that is on no queue,
leaves the other queues.
-/

namespace MacKernel.Queue

open Entries

variable {Q E : Type}

/-- Every head in use is the start of the ring of its list, and no element is on two queues. -/
abbrev Family (m : Entries (Node Q E)) (lists : Lists Q E) : Prop := RingFamily (fun _ => m) lists

variable {m m' : Entries (Node Q E)} {lists : Lists Q E} {q : Q} {l l' : List E} {e : E}

/-- No head is in use. -/
theorem family_none (m : Entries (Node Q E)) : Family m fun _ => none := ringFamily_none _

variable [DecidableEq Q]

/-- One queue is changed and the others are left. -/
theorem Family.replace (h : Family m lists) (hring : m'.Ring (.head q) (l.map .entry))
    (hagree : AgreeOn (lists.Elsewhere q) m m') (hl : ∀ e ∈ l, ¬lists.Elsewhere q (.entry e)) :
    Family m' (Function.update lists q (some l)) :=
  RingFamily.replace h hring (fun _ => hagree) hl

variable [DecidableEq E]

/-- An element that was on no queue is put between two nodes of a queue. -/
theorem Family.insert (h : Family m lists) (hl : lists q = some l) (he : ¬lists.Has e)
    {a b : Node Q E} (ha : a ∈ .head q :: l.map .entry) (hb : b ∈ .head q :: l.map .entry)
    (hring : ((m.link a (.entry e)).link (.entry e) b).Ring (.head q) (l'.map .entry))
    (hl' : ∀ x ∈ l', x = e ∨ x ∈ l) :
    Family ((m.link a (.entry e)).link (.entry e) b) (Function.update lists q (some l')) := by
  have hnew : ¬lists.Elsewhere q (.entry e) := fun helse => he helse.has
  have hold : ∀ {x}, x ∈ .head q :: l.map .entry → ¬lists.Elsewhere q x :=
    fun hx => h.not_elsewhere_of_mem hl hx
  refine h.replace hring (((AgreeOn.refl _ m).link (hold ha) hnew).link hnew (hold hb)) ?_
  intro x hx
  rcases hl' x hx with rfl | hx
  · exact hnew
  · exact h.not_elsewhere hl hx

/-- Two nodes of a queue become neighbours. -/
theorem Family.remove (h : Family m lists) (hl : lists q = some l) {a b : Node Q E}
    (ha : a ∈ .head q :: l.map .entry) (hb : b ∈ .head q :: l.map .entry)
    (hring : (m.link a b).Ring (.head q) (l'.map .entry)) (hl' : ∀ x ∈ l', x ∈ l) :
    Family (m.link a b) (Function.update lists q (some l')) := by
  have hold : ∀ {x}, x ∈ .head q :: l.map .entry → ¬lists.Elsewhere q x :=
    fun hx => h.not_elsewhere_of_mem hl hx
  refine h.replace hring ((AgreeOn.refl _ m).link (hold ha) (hold hb)) ?_
  intro x hx
  exact h.not_elsewhere hl (hl' x hx)

theorem Family.init (h : Family m lists) (q : Q) :
    Family (queueInit m (.head q)) (Function.update lists q (some [])) := by
  have hq := lists.not_elsewhere_head q
  refine h.replace ?_ (((AgreeOn.refl _ m).setNext hq _).setPrev hq _) ?_
  · exact ring_nil.mpr ⟨setNext_next_self _, setPrev_prev_self _⟩
  · intro e he
    cases he

end MacKernel.Queue
