import MacKernel.Models.Queue.ElementChains
import Mathlib.Data.List.Infix

/-!
# Readers of a queue while an element is entered

`queue_enter` makes two stores into the element, a compiler barrier, and two stores
into the queue. Whatever the order of the stores on each side of the barrier, a
reader that follows the `next` fields between two of them sees the queue without
the element or the queue with it.
-/

namespace MacKernel.Queue

open Entries

section Stores

variable {N : Type}

/-- A store into one field. -/
inductive Store (N : Type) where
  | next (x : N) (v : Option N)
  | prev (x : N) (v : Option N)

/-- Make a store. -/
def Store.perform [DecidableEq N] (m : Entries N) : Store N → Entries N
  | .next x v => m.setNext x v
  | .prev x v => m.setPrev x v

/-- The stores into `next` fields are all the same one. -/
def OnlyNext (x : N) (v : Option N) (stores : List (Store N)) : Prop :=
  ∀ y w, Store.next y w ∈ stores → y = x ∧ w = v

variable {x : N} {v : Option N} {stores : List (Store N)}

theorem OnlyNext.mono {stores' : List (Store N)} (h : OnlyNext x v stores)
    (hsub : ∀ s ∈ stores', s ∈ stores) : OnlyNext x v stores' :=
  fun y w hmem => h y w (hsub _ hmem)

/-- What such stores leave of the `next` fields. -/
theorem OnlyNext.next_eq [DecidableEq N] (h : OnlyNext x v stores) (m : Entries N) :
    (Store.next x v ∉ stores ∧ (stores.foldl Store.perform m).next = m.next) ∨
      Store.next x v ∈ stores ∧
        (stores.foldl Store.perform m).next = Function.update m.next x v := by
  induction stores generalizing m with
  | nil => exact .inl ⟨List.not_mem_nil, rfl⟩
  | cons s stores ih =>
    have htail : OnlyNext x v stores := fun y w hmem => h y w (List.mem_cons_of_mem s hmem)
    cases s with
    | next y w =>
      obtain ⟨rfl, rfl⟩ := h y w List.mem_cons_self
      refine .inr ⟨List.mem_cons_self, ?_⟩
      rcases ih htail (m.setNext y w) with ⟨-, hnext⟩ | ⟨-, hnext⟩
      · exact hnext
      · exact hnext.trans (Function.update_idem ..)
    | prev y w =>
      rcases ih htail (m.setPrev y w) with ⟨hmem, hnext⟩ | ⟨hmem, hnext⟩
      · exact .inl ⟨by simpa using hmem, hnext⟩
      · exact .inr ⟨List.mem_cons_of_mem _ hmem, hnext⟩

end Stores

section Enter

variable {Q E : Type} [DecidableEq Q] [DecidableEq E]

/-- The stores of `queue_enter` before the barrier. -/
def elementStores (m : Entries (Node Q E)) (q : Q) (e : E) : List (Store (Node Q E)) :=
  [.prev (.entry e) (m.prev (.head q)), .next (.entry e) (some (.head q))]

/-- The stores of `queue_enter` behind the barrier. -/
def queueStores (m : Entries (Node Q E)) (q : Q) (e : E) :
    Except Fault (List (Store (Node Q E))) := do
  let prev := m.prev (.head q)
  let pred ← if some (.head q) = prev then pure (.head q) else .entry <$> asElement prev
  return [.next pred (some (.entry e)), .prev (.head q) (some (.entry e))]

variable {m : Entries (Node Q E)} {q : Q} {e : E} {l : List E} {z : Node Q E}

theorem queueStores_eq (hprev : m.prev (.head q) = some z) (hz : Own q z) :
    queueStores m q e =
      .ok [.next z (some (.entry e)), .prev (.head q) (some (.entry e))] := by
  simp only [queueStores, hprev]
  rcases hz with rfl | ⟨p, rfl⟩
  · rw [if_pos rfl]
    rfl
  · rw [if_neg (by simp)]
    rfl

/-- In program order, the stores are `queue_enter`. -/
theorem queueEnter_stores (hprev : m.prev (.head q) = some z) (hz : Own q z) :
    queueEnter m q e = queueStores m q e >>= fun stores =>
      .ok ((elementStores m q e ++ stores).foldl Store.perform m) := by
  rw [queueStores_eq hprev hz, queueEnter_eq hprev hz]
  simp only [enqueueTail, elementStores, hprev, storeNext_some, ok_bind]
  rfl

/-- The list is still there after stores into the element. -/
theorem chain_element (h : m.Ring (.head q) (l.map .entry)) (he : e ∉ l)
    {next : Node Q E → Option (Node Q E)} {v : Option (Node Q E)}
    (hnext : next = m.next ∨ next = Function.update m.next (.entry e) v) :
    Chain next (next (.head q)) (l.map .entry) (some (.head q)) := by
  rcases hnext with rfl | rfl
  · exact h.path.chain
  · rw [Function.update_of_ne (by simp)]
    exact h.path.chain.update (by simpa using he)

/-- The list and the element are there after the store into the predecessor. -/
theorem chain_published (h : m.Ring (.head q) (l.map .entry)) (he : e ∉ l) :
    Chain (Function.update (Function.update m.next (.entry e) (some (.head q)))
        ((l.map .entry).getLast?.getD (.head q)) (some (.entry e)))
      (Function.update (Function.update m.next (.entry e) (some (.head q)))
        ((l.map .entry).getLast?.getD (.head q)) (some (.entry e)) (.head q))
      ((l ++ [e]).map .entry) (some (.head q)) := by
  have hchain := chain_element h he (.inr rfl : _ ∨ _ = Function.update m.next (.entry e)
    (some (.head q)))
  rw [List.map_append, List.map_singleton, chain_snoc]
  rcases List.eq_nil_or_concat' l with rfl | ⟨l, p, rfl⟩
  · simp
  · have hep : (.entry e : Node Q E) ≠ .entry p := by
      rintro ⟨⟩
      exact he (List.mem_append_right l (List.mem_singleton_self e))
    have hqp : (.head q : Node Q E) ≠ .entry p := by simp
    have hp : (.entry p : Node Q E) ∉ l.map .entry := by
      have hnodup := (List.nodup_cons.mp h.nodup).2
      rw [List.map_append, List.map_singleton] at hnodup
      exact fun hmem => (List.nodup_append.mp hnodup).2.2 _ hmem _ (by simp) rfl
    rw [List.map_append, List.map_singleton] at hchain ⊢
    rw [List.getLast?_concat, Option.getD_some]
    constructor
    · rw [Function.update_of_ne hqp]
      exact hchain.retarget hp
    · rw [Function.update_of_ne hep, Function.update_self]

/-- For every queue, every new element and every order of the stores of `queue_enter` that keeps
the stores into the element before the barrier, a reader that starts between two stores, or
before or behind all of them, visits the old list or the old list and the element. -/
theorem iterate_old_or_new (h : m.Ring (.head q) (l.map .entry)) (he : e ∉ l) :
    ∃ after, queueStores m q e = .ok after ∧
      queueEnter m q e = .ok ((elementStores m q e ++ after).foldl Store.perform m) ∧
      ∀ b a stores : List (Store (Node Q E)), b.Perm (elementStores m q e) → a.Perm after →
        stores <+: b ++ a →
          queueIterate (stores.foldl Store.perform m) q (l.length + 2) = .ok l ∨
            queueIterate (stores.foldl Store.perform m) q (l.length + 2) = .ok (l ++ [e]) := by
  have hown : Own q ((l.map .entry).getLast?.getD (.head q : Node Q E)) :=
    own_of_mem (getLast_mem_nodes q fun x (hx : x ∈ l) => hx)
  have hstores := queueStores_eq (e := e) h.path.prev_eq hown
  refine ⟨_, hstores, ?_, ?_⟩
  · rw [queueEnter_stores h.path.prev_eq hown, hstores]
    rfl
  · intro b a stores hb ha hprefix
    have hbefore : OnlyNext (.entry e) (some (.head q)) b := by
      intro y w hmem
      simpa [elementStores] using hb.subset hmem
    have hafter : OnlyNext ((l.map .entry).getLast?.getD (.head q)) (some (.entry e)) a := by
      intro y w hmem
      simpa using ha.subset hmem
    have hset : Store.next (.entry e) (some (.head q)) ∈ b :=
      hb.symm.subset (by simp [elementStores])
    have hold : ∀ m' : Entries (Node Q E), m'.next = m.next ∨
        m'.next = Function.update m.next (.entry e) (some (.head q)) →
          queueIterate m' q (l.length + 2) = .ok l :=
      fun m' hnext => queueIterate_eq (chain_element h he hnext) (by omega)
    obtain ⟨rest, hrest⟩ := hprefix
    rcases List.append_eq_append_iff.mp hrest with ⟨b', rfl, -⟩ | ⟨a', rfl, rfl⟩
    · -- no store behind the barrier has been made
      left
      apply hold
      rcases (hbefore.mono fun s hs => List.mem_append_left b' hs).next_eq m with
        ⟨-, hnext⟩ | ⟨-, hnext⟩
      · exact .inl hnext
      · exact .inr hnext
    · have helement := (hbefore.next_eq m).resolve_left fun hnot => hnot.1 hset
      rw [List.foldl_append]
      rcases (hafter.mono fun s hs => List.mem_append_left rest hs).next_eq
        (b.foldl Store.perform m) with ⟨-, hnext⟩ | ⟨-, hnext⟩
      · left
        exact hold _ (.inr (hnext.trans helement.2))
      · right
        apply queueIterate_eq
        · rw [hnext, helement.2]
          exact chain_published h he
        · rw [List.length_append]
          exact Nat.lt_succ_self _

end Enter

/-- A queue with element 1; element 2 has stale links. -/
def oneElement : Entries (Node Unit Nat) where
  next
    | .head _ => some (.entry 1)
    | .entry 1 => some (.head ())
    | .entry _ => some (.entry 2)
  prev
    | .head _ => some (.entry 1)
    | .entry 1 => some (.head ())
    | .entry _ => none

theorem iterate_one_or_two : ∃ after, queueStores oneElement () 2 = .ok after ∧
    queueEnter oneElement () 2 =
      .ok ((elementStores oneElement () 2 ++ after).foldl Store.perform oneElement) ∧
    ∀ b a stores : List (Store (Node Unit Nat)), b.Perm (elementStores oneElement () 2) →
      a.Perm after → stores <+: b ++ a →
        queueIterate (stores.foldl Store.perform oneElement) () 3 = .ok [1] ∨
          queueIterate (stores.foldl Store.perform oneElement) () 3 = .ok [1, 2] := by
  apply iterate_old_or_new (l := [1])
  · exact ⟨⟨⟨rfl, rfl⟩, rfl, rfl⟩, by decide⟩
  · decide

end MacKernel.Queue
