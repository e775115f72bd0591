import MacKernel.Models.Buflet.Native
import MacKernel.Core.Chain

/-!
# Packet queues of `skywalk/packet/packet_queue.h`

A queue has a head, the address of the link behind its last packet and a length.
The macros store one after the other, as in the source; packets are linked through
`pkt_nextpkt`, a field that all queues share. `ASSERT` is checked, and loops take fuel.
-/

namespace MacKernel.PacketQueue

variable {Q P : Type} [DecidableEq Q] [DecidableEq P]

/-- Packet queues and the `pkt_nextpkt` fields of packets. -/
structure Pktqs (Q P : Type) where
  /-- `kq_first` and `pkt_nextpkt`. -/
  links : Links Q P
  /-- `kq_last`: address of the last next pointer. -/
  kqLast : Q → Link Q P
  /-- `kq_len`. -/
  kqLen : Q → UInt32

section Access

/-- `KPKTQ_FIRST`. -/
def Pktqs.first (s : Pktqs Q P) (q : Q) : Option P := s.links.first q

/-- `KPKTQ_NEXT`. -/
def Pktqs.next (s : Pktqs Q P) (p : P) : Option P := s.links.next p

/-- Store a packet pointer into a link. -/
def Pktqs.store (s : Pktqs Q P) (k : Link Q P) (v : Option P) : Pktqs Q P :=
  { s with links := s.links.store k v }

/-- Store into `kq_last`. -/
def Pktqs.setLast (s : Pktqs Q P) (q : Q) (k : Link Q P) : Pktqs Q P :=
  { s with kqLast := Function.update s.kqLast q k }

/-- Store into `kq_len`. -/
def Pktqs.setLen (s : Pktqs Q P) (q : Q) (n : UInt32) : Pktqs Q P :=
  { s with kqLen := Function.update s.kqLen q n }

variable (s : Pktqs Q P) (q : Q) (k : Link Q P) (v : Option P) (n : UInt32)

@[simp] theorem Pktqs.links_store : (s.store k v).links = s.links.store k v := rfl
@[simp] theorem Pktqs.kqLast_store : (s.store k v).kqLast = s.kqLast := rfl
@[simp] theorem Pktqs.kqLen_store : (s.store k v).kqLen = s.kqLen := rfl

omit [DecidableEq P] in
@[simp] theorem Pktqs.links_setLast : (s.setLast q k).links = s.links := rfl
omit [DecidableEq P] in
@[simp] theorem Pktqs.kqLast_setLast :
    (s.setLast q k).kqLast = Function.update s.kqLast q k := rfl
omit [DecidableEq P] in
@[simp] theorem Pktqs.kqLen_setLast : (s.setLast q k).kqLen = s.kqLen := rfl

omit [DecidableEq P] in
@[simp] theorem Pktqs.links_setLen : (s.setLen q n).links = s.links := rfl
omit [DecidableEq P] in
@[simp] theorem Pktqs.kqLast_setLen : (s.setLen q n).kqLast = s.kqLast := rfl
omit [DecidableEq P] in
@[simp] theorem Pktqs.kqLen_setLen :
    (s.setLen q n).kqLen = Function.update s.kqLen q n := rfl

end Access

section Macros

/-- `KPKTQ_INIT`, which is also `KPKTQ_DISPOSE`. -/
def kpktqInit (q : Q) (s : Pktqs Q P) : Pktqs Q P :=
  let s := s.store (.head q) none
  let s := s.setLast q (.head q)
  s.setLen q 0

/-- `KPKTQ_CONCAT`. -/
def kpktqConcat (q₁ q₂ : Q) (s : Pktqs Q P) : Pktqs Q P :=
  match s.first q₂ with
  | none => s
  | some p =>
    let s := s.store (s.kqLast q₁) (some p)
    let s := s.setLast q₁ (s.kqLast q₂)
    let s := s.setLen q₁ (s.kqLen q₁ + s.kqLen q₂)
    kpktqInit q₂ s

/-- `KPKTQ_ENQUEUE`. -/
def kpktqEnqueue (q : Q) (p : P) (s : Pktqs Q P) : Except Fault (Pktqs Q P) := do
  kassert (s.next p = none)
  let s := s.store (s.kqLast q) (some p)
  let s := s.setLast q (.next p)
  return s.setLen q (s.kqLen q + 1)

/-- `KPKTQ_ENQUEUE_MULTI`. -/
def kpktqEnqueueMulti (q : Q) (p n : P) (c : UInt32) (s : Pktqs Q P) : Pktqs Q P :=
  let s := s.store (.next n) none
  let s := s.store (s.kqLast q) (some p)
  let s := s.setLast q (.next n)
  s.setLen q (s.kqLen q + c)

/-- One pass of the loop of `KPKTQ_ENQUEUE_LIST`, which looks for the last packet. -/
def countBody (s : Pktqs Q P) (x : P × UInt32) : Except Fault ((P × UInt32) ⊕ (P × UInt32)) :=
  match s.next x.1 with
  | some n => .ok (.inl (n, x.2 + 1))
  | none => .ok (.inr x)

/-- `KPKTQ_ENQUEUE_LIST`. -/
def kpktqEnqueueList (fuel : Nat) (q : Q) (p : P) (s : Pktqs Q P) :
    Except Fault (Pktqs Q P) := do
  let (n, c) ← loop (countBody s) fuel (p, 1)
  return kpktqEnqueueMulti q p n c s

/-- `KPKTQ_DEQUEUE`, with the packet it stores into its second argument. -/
def kpktqDequeue (q : Q) (s : Pktqs Q P) : Except Fault (Pktqs Q P × Option P) :=
  match s.first q with
  | none => .ok (s, none)
  | some p => do
    let s := s.setLen q (s.kqLen q - 1)
    let n := s.next p
    let s := s.store (.head q) n
    if n = none then
      kassert (s.kqLen q = 0)
      return (s.setLast q (.head q), some p)
    else return (s.store (.next p) none, some p)

/-- One pass of the loop of `KPKTQ_REMOVE`, which looks for the packet before `p`. -/
def findBody (s : Pktqs Q P) (p : P) : Option P → Except Fault (Option P ⊕ P)
  | none => .error .nullDeref
  | some p' => if s.next p' = some p then .ok (.inr p') else .ok (.inl (s.next p'))

/-- `KPKTQ_REMOVE`; where the loop ends, the next packet is `p`. -/
def kpktqRemove (fuel : Nat) (q : Q) (p : P) (s : Pktqs Q P) : Except Fault (Pktqs Q P) :=
  if s.first q = some p then do
    let (s, _) ← kpktqDequeue q s
    return s
  else do
    let p' ← loop (findBody s p) fuel (s.first q)
    let n := s.next p
    let s := s.store (.next p') n
    let s := if n = none then s.setLast q (.next p') else s
    let s := s.setLen q (s.kqLen q - 1)
    return s.store (.next p) none

end Macros

end MacKernel.PacketQueue
