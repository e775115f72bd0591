import MacKernel.Models.PacketQueue.Native

/-!
# Packet queues as lists

Each initialised queue represents a list of packets: its chain runs through the list
and ends, its last link is the one behind the last packet, and its length is stored.
No packet is in two queues, so a store through the last link of one queue leaves the
others.
-/

namespace MacKernel.PacketQueue

section Model

variable {Q P : Type} [DecidableEq Q] [DecidableEq P]

/-- The list of every queue that has been initialised. -/
abbrev Lists (Q P : Type) := Q → Option (List P)

/-- The operations; chains passed by a caller come with the list of their packets. -/
inductive Op (Q P : Type) where
  | init (q : Q)
  | enqueue (q : Q) (p : P)
  | enqueueMulti (q : Q) (p n : P) (c : UInt32) (chain : List P)
  | enqueueList (q : Q) (p : P) (chain : List P)
  | concat (q₁ q₂ : Q)
  | dequeue (q : Q)
  | remove (q : Q) (p : P)

/-- What an operation does to the lists. -/
def Lists.apply (L : Lists Q P) : Op Q P → Lists Q P
  | .init q => Function.update L q (some [])
  | .enqueue q p => Function.update L q ((L q).map (· ++ [p]))
  | .enqueueMulti q _ _ _ chain => Function.update L q ((L q).map (· ++ chain))
  | .enqueueList q _ chain => Function.update L q ((L q).map (· ++ chain))
  | .concat q₁ q₂ =>
    Function.update (Function.update L q₁ ((L q₁).map (· ++ (L q₂).getD []))) q₂ (some [])
  | .dequeue q => Function.update L q ((L q).map List.tail)
  | .remove q p => Function.update L q ((L q).map (List.erase · p))

/-- The packet that an operation returns. -/
def Lists.result (L : Lists Q P) : Op Q P → Option P
  | .dequeue q => (L q).bind List.head?
  | _ => none

/-- The packet is in no queue. -/
def Lists.Free (L : Lists Q P) (p : P) : Prop := ∀ q l, L q = some l → p ∉ l

/-- An operation with its result. -/
def Pktqs.exec (s : Pktqs Q P) (fuel : Nat) : Op Q P → Except Fault (Pktqs Q P × Option P)
  | .init q => .ok (kpktqInit q s, none)
  | .enqueue q p => do
    let s ← kpktqEnqueue q p s
    return (s, none)
  | .enqueueMulti q p n c _ => .ok (kpktqEnqueueMulti q p n c s, none)
  | .enqueueList q p _ => do
    let s ← kpktqEnqueueList fuel q p s
    return (s, none)
  | .concat q₁ q₂ => .ok (kpktqConcat q₁ q₂ s, none)
  | .dequeue q => kpktqDequeue q s
  | .remove q p => do
    let s ← kpktqRemove fuel q p s
    return (s, none)

/-- What callers see to: queues are initialised, packets that go into a queue are in none,
their chain is as announced, and a packet to remove is in the queue. -/
def Pktqs.Allowed (s : Pktqs Q P) (L : Lists Q P) : Op Q P → Prop
  | .init _ => True
  | .enqueue q p => L q ≠ none ∧ s.next p = none ∧ L.Free p
  | .enqueueMulti q p n c chain => L q ≠ none ∧ chain.Nodup ∧ chain.getLast? = some n ∧
      Chain s.links.next (some p) chain (s.next n) ∧ c = UInt32.ofNat chain.length ∧
      ∀ x ∈ chain, L.Free x
  | .enqueueList q p chain => L q ≠ none ∧ Chain s.links.next (some p) chain none ∧
      ∀ x ∈ chain, L.Free x
  | .concat q₁ q₂ => L q₁ ≠ none ∧ L q₂ ≠ none
  | .dequeue q => L q ≠ none
  | .remove q p => ∃ l, L q = some l ∧ p ∈ l

/-- A queue represents a list. -/
structure RepAt (s : Pktqs Q P) (q : Q) (l : List P) : Prop where
  leads : s.links.Leads q l none
  last : s.kqLast q = lastLink q l
  len : s.kqLen q = UInt32.ofNat l.length

/-- The queues represent their lists, and no packet is in two of them. -/
structure Rep (s : Pktqs Q P) (L : Lists Q P) : Prop where
  repAt : ∀ {q l}, L q = some l → RepAt s q l
  apart : ∀ {q q' l l'}, q ≠ q' → L q = some l → L q' = some l' → l.Disjoint l'

end Model

section Queue

variable {Q P : Type} [DecidableEq Q] [DecidableEq P] {s : Pktqs Q P} {q q' : Q}
  {l l' m : List P} {p : P} {L : Lists Q P}

omit [DecidableEq Q] [DecidableEq P] in
theorem RepAt.nodup (h : RepAt s q l) : l.Nodup := Chain.nodup h.leads

/-- The three stores that append a chain to a queue. -/
def Pktqs.append (s : Pktqs Q P) (q : Q) (p : Option P) (k : Link Q P) (c : UInt32) :
    Pktqs Q P :=
  ((s.store (s.kqLast q) p).setLast q k).setLen q (s.kqLen q + c)

/-- Appending a chain of packets that are not in the queue appends its list. -/
theorem RepAt.append {k : Link Q P} {c : UInt32} {a : Option P} (h : RepAt s q l)
    (hm : Chain s.links.next a m none) (hd : l.Disjoint m) (hk : k = lastLink q (l ++ m))
    (hc : c = UInt32.ofNat m.length) : RepAt (s.append q a k c) q (l ++ m) where
  leads := by
    have hl : (s.links.store (s.kqLast q) a).Leads q l a := by
      rw [h.last]
      exact h.leads.store_last h.nodup a
    have hm' : Chain (s.links.store (s.kqLast q) a).next a m none := by
      rw [h.last]
      exact hm.store_last hd q a
    exact chain_append.mpr ⟨a, hl, hm'⟩
  last := by simp [Pktqs.append, hk]
  len := by simp [Pktqs.append, h.len, hc]

/-- Appending to one queue leaves the others. -/
theorem RepAt.append_of_ne {k : Link Q P} {c : UInt32} {a : Option P} (h : RepAt s q' l')
    (hq : RepAt s q l) (hne : q' ≠ q) (hd : l.Disjoint l') :
    RepAt (s.append q a k c) q' l' where
  leads := by
    have hl : (s.links.store (s.kqLast q) a).Leads q' l' none := by
      rw [hq.last]
      exact h.leads.store_last_of_ne hne hd a
    exact hl
  last := by simp [Pktqs.append, hne, h.last]
  len := by simp [Pktqs.append, hne, h.len]

theorem RepAt.init (s : Pktqs Q P) (q : Q) : RepAt (kpktqInit q s) q [] where
  leads := by simp [kpktqInit, Links.Leads, Links.store]
  last := by simp [kpktqInit]
  len := by simp [kpktqInit]

theorem RepAt.init_of_ne (h : RepAt s q' l') (hne : q' ≠ q) : RepAt (kpktqInit q s) q' l' where
  leads := h.leads.store_head_of_ne hne none
  last := by simp [kpktqInit, hne, h.last]
  len := by simp [kpktqInit, hne, h.len]

/-- Clearing the next pointer of a packet outside a queue leaves the queue. -/
theorem RepAt.store_next (h : RepAt s q l) (hp : p ∉ l) (v : Option P) :
    RepAt (s.store (.next p) v) q l where
  leads := h.leads.store_next hp v
  last := h.last
  len := h.len

end Queue

end MacKernel.PacketQueue
