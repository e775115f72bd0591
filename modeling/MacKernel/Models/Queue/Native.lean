import MacKernel.Core.RingFamily

/-!
# Queues of `kern/queue.h`

Heads and the link fields of elements are all `struct queue_entry`. Method 1 chains
the link fields to each other. In Method 2 a link names the element itself, so a
macro that follows a link has to tell the head from the elements; taking a head for
an element is a fault here.
-/

namespace MacKernel.Queue

variable {N : Type} [DecidableEq N]

section Pointers

/-- `p->next`. -/
def loadNext (m : Entries N) (p : Option N) : Except Fault (Option N) := do
  return m.next (← deref p)

/-- `p->prev`. -/
def loadPrev (m : Entries N) (p : Option N) : Except Fault (Option N) := do
  return m.prev (← deref p)

/-- `p->next = v`. -/
def storeNext (m : Entries N) (p v : Option N) : Except Fault (Entries N) := do
  return m.setNext (← deref p) v

/-- `p->prev = v`. -/
def storePrev (m : Entries N) (p v : Option N) : Except Fault (Entries N) := do
  return m.setPrev (← deref p) v

end Pointers

section LinkageChains

/-- `enqueue_head`. -/
def enqueueHead (m : Entries N) (que elt : N) : Except Fault (Entries N) := do
  let oldHead := m.next que
  let m := m.setNext elt oldHead
  let m := m.setPrev elt (some que)
  let m ← storePrev m oldHead (some elt)
  return m.setNext que (some elt)

/-- `enqueue_tail`. -/
def enqueueTail (m : Entries N) (que elt : N) : Except Fault (Entries N) := do
  let oldTail := m.prev que
  let m := m.setNext elt (some que)
  let m := m.setPrev elt oldTail
  let m ← storeNext m oldTail (some elt)
  return m.setPrev que (some elt)

/-- `enqueue`. -/
def enqueue (m : Entries N) (que elt : N) : Except Fault (Entries N) := enqueueTail m que elt

/-- `dequeue_head`. -/
def dequeueHead (m : Entries N) (que : N) : Except Fault (Entries N × Option N) := do
  if m.next que ≠ some que then
    let elt := m.next que
    let newHead ← loadNext m elt
    let m ← storePrev m newHead (some que)
    return (m.setNext que newHead, elt)
  else return (m, none)

/-- `dequeue_tail`. -/
def dequeueTail (m : Entries N) (que : N) : Except Fault (Entries N × Option N) := do
  if m.prev que ≠ some que then
    let elt := m.prev que
    let newTail ← loadPrev m elt
    let m ← storeNext m newTail (some que)
    return (m.setPrev que newTail, elt)
  else return (m, none)

/-- `dequeue`. -/
def dequeue (m : Entries N) (que : N) : Except Fault (Entries N × Option N) := dequeueHead m que

/-- `remqueue`; `remque` is the same. -/
def remqueue (m : Entries N) (elt : N) : Except Fault (Entries N) := do
  let nextElt := m.next elt
  let prevElt := m.prev elt
  let m ← storePrev m nextElt prevElt
  storeNext m prevElt nextElt

/-- `insque`. -/
def insque (m : Entries N) (entry pred : N) : Except Fault (Entries N) := do
  let successor := m.next pred
  let m := m.setNext entry successor
  let m := m.setPrev entry (some pred)
  let m ← storePrev m successor (some entry)
  return m.setNext pred (some entry)

/-- `re_queue_head`. -/
def reQueueHead (m : Entries N) (que elt : N) : Except Fault (Entries N) := do
  let nElt := m.next elt
  let pElt := m.prev elt
  let m ← storePrev m nElt pElt
  let m ← storeNext m pElt nElt
  let nElt := m.next que
  let m := m.setNext elt nElt
  let m := m.setPrev elt (some que)
  let m ← storePrev m nElt (some elt)
  return m.setNext que (some elt)

/-- `re_queue_tail`. -/
def reQueueTail (m : Entries N) (que elt : N) : Except Fault (Entries N) := do
  let nElt := m.next elt
  let pElt := m.prev elt
  let m ← storePrev m nElt pElt
  let m ← storeNext m pElt nElt
  let pElt := m.prev que
  let m := m.setNext elt (some que)
  let m := m.setPrev elt pElt
  let m ← storeNext m pElt (some elt)
  return m.setPrev que (some elt)

/-- `queue_init`. -/
def queueInit (m : Entries N) (q : N) : Entries N := (m.setNext q (some q)).setPrev q (some q)

/-- `queue_empty`. -/
def queueEmpty (m : Entries N) (q : N) : Bool := decide (m.next q = some q)

/-- `movqueue`. -/
def movqueue (m : Entries N) (old new : N) : Except Fault (Entries N) := do
  if queueEmpty m old then return queueInit m new
  let nextElt := m.next old
  let prevElt := m.prev old
  let m := m.setNext new nextElt
  let m := m.setPrev new prevElt
  let m ← storePrev m nextElt (some new)
  let m ← storeNext m prevElt (some new)
  return queueInit m old

/-- `qe_foreach`, with the entries visited. -/
def qeForeach (m : Entries N) (head : N) (fuel : Nat) : Except Fault (List N) :=
  Entries.walk m.next head fuel (m.next head)

/-- The variables of `qe_foreach_safe`, with the entries visited. -/
structure SafeLoop (N : Type) where
  links : Entries N
  qe : Option N
  ne : Option N
  visited : List N

/-- One pass of `qe_foreach_safe`, with a body that may change the links. -/
def qeForeachSafePass (body : Entries N → N → Except Fault (Entries N)) (head : N)
    (s : SafeLoop N) : Except Fault (SafeLoop N ⊕ (Entries N × List N)) := do
  if s.qe = some head then return .inr (s.links, s.visited)
  let elt ← deref s.qe
  let m ← body s.links elt
  let qe := s.ne
  let ne ← loadNext m qe
  return .inl ⟨m, qe, ne, s.visited ++ [elt]⟩

/-- `qe_foreach_safe`. -/
def qeForeachSafe (body : Entries N → N → Except Fault (Entries N)) (m : Entries N) (head : N)
    (fuel : Nat) : Except Fault (Entries N × List N) := do
  let ne ← loadNext m (m.next head)
  loop (qeForeachSafePass body head) fuel ⟨m, m.next head, ne, []⟩

end LinkageChains

section ElementChains

variable {Q E : Type} [DecidableEq Q] [DecidableEq E]

/-- `(type)(void *)p`. -/
def asElement (p : Option (Node Q E)) : Except Fault E :=
  match p with
  | some (.entry e) => .ok e
  | some (.head _) => .error .unmapped
  | none => .error .nullDeref

/-- `((type)(void *)p)->field.next = v`. -/
def storeFieldNext (m : Entries (Node Q E)) (p v : Option (Node Q E)) :
    Except Fault (Entries (Node Q E)) := do
  return m.setNext (.entry (← asElement p)) v

/-- `((type)(void *)p)->field.prev = v`. -/
def storeFieldPrev (m : Entries (Node Q E)) (p v : Option (Node Q E)) :
    Except Fault (Entries (Node Q E)) := do
  return m.setPrev (.entry (← asElement p)) v

/-- `queue_enter`. -/
def queueEnter (m : Entries (Node Q E)) (head : Q) (elt : E) :
    Except Fault (Entries (Node Q E)) := do
  let prev := m.prev (.head head)
  let m := m.setPrev (.entry elt) prev
  let m := m.setNext (.entry elt) (some (.head head))
  let m ← if some (.head head) = prev then pure (m.setNext (.head head) (some (.entry elt)))
    else storeFieldNext m prev (some (.entry elt))
  return m.setPrev (.head head) (some (.entry elt))

/-- `queue_enter_first`. -/
def queueEnterFirst (m : Entries (Node Q E)) (head : Q) (elt : E) :
    Except Fault (Entries (Node Q E)) := do
  let next := m.next (.head head)
  let m ← if some (.head head) = next then pure (m.setPrev (.head head) (some (.entry elt)))
    else storeFieldPrev m next (some (.entry elt))
  let m := m.setNext (.entry elt) next
  let m := m.setPrev (.entry elt) (some (.head head))
  return m.setNext (.head head) (some (.entry elt))

/-- `queue_insert_before`. -/
def queueInsertBefore (m : Entries (Node Q E)) (head : Q) (elt : E) (cur : Node Q E) :
    Except Fault (Entries (Node Q E)) := do
  if .head head = cur then
    let m := m.setNext (.entry elt) (some (.head head))
    let m ← if m.next (.head head) = some (.head head) then
        let m := m.setPrev (.entry elt) (some (.head head))
        pure (m.setNext (.head head) (some (.entry elt)))
      else
        let prev := m.prev (.head head)
        let m := m.setPrev (.entry elt) prev
        storeFieldNext m prev (some (.entry elt))
    return m.setPrev (.head head) (some (.entry elt))
  else
    let m := m.setNext (.entry elt) (some cur)
    let m ← if m.next (.head head) = some cur then
        let m := m.setPrev (.entry elt) (some (.head head))
        pure (m.setNext (.head head) (some (.entry elt)))
      else
        let prev := m.prev (.entry (← asElement (some cur)))
        let m := m.setPrev (.entry elt) prev
        storeFieldNext m prev (some (.entry elt))
    storeFieldPrev m (some cur) (some (.entry elt))

/-- `queue_insert_after`. -/
def queueInsertAfter (m : Entries (Node Q E)) (head : Q) (elt : E) (cur : Node Q E) :
    Except Fault (Entries (Node Q E)) := do
  if .head head = cur then
    let m := m.setPrev (.entry elt) (some (.head head))
    let m ← if m.next (.head head) = some (.head head) then
        let m := m.setNext (.entry elt) (some (.head head))
        pure (m.setPrev (.head head) (some (.entry elt)))
      else
        let next := m.next (.head head)
        let m := m.setNext (.entry elt) next
        storeFieldPrev m next (some (.entry elt))
    return m.setNext (.head head) (some (.entry elt))
  else
    let m := m.setPrev (.entry elt) (some cur)
    let m ← if m.prev (.head head) = some cur then
        let m := m.setNext (.entry elt) (some (.head head))
        pure (m.setPrev (.head head) (some (.entry elt)))
      else
        let next := m.next (.entry (← asElement (some cur)))
        let m := m.setNext (.entry elt) next
        storeFieldPrev m next (some (.entry elt))
    storeFieldNext m (some cur) (some (.entry elt))

/-- `queue_remove`. -/
def queueRemove (m : Entries (Node Q E)) (head : Q) (elt : E) :
    Except Fault (Entries (Node Q E)) := do
  let next := m.next (.entry elt)
  let prev := m.prev (.entry elt)
  let m ← if some (.head head) = next then pure (m.setPrev (.head head) prev)
    else storeFieldPrev m next prev
  let m ← if some (.head head) = prev then pure (m.setNext (.head head) next)
    else storeFieldNext m prev next
  let m := m.setNext (.entry elt) none
  return m.setPrev (.entry elt) none

/-- `queue_remove_first`, with `entry`. -/
def queueRemoveFirst (m : Entries (Node Q E)) (head : Q) :
    Except Fault (Entries (Node Q E) × E) := do
  let entry ← asElement (m.next (.head head))
  let next := m.next (.entry entry)
  let m ← if some (.head head) = next then pure (m.setPrev (.head head) (some (.head head)))
    else storeFieldPrev m next (some (.head head))
  let m := m.setNext (.head head) next
  let m := m.setNext (.entry entry) none
  return (m.setPrev (.entry entry) none, entry)

/-- `queue_remove_last`, with `entry`. -/
def queueRemoveLast (m : Entries (Node Q E)) (head : Q) :
    Except Fault (Entries (Node Q E) × E) := do
  let entry ← asElement (m.prev (.head head))
  let prev := m.prev (.entry entry)
  let m ← if some (.head head) = prev then pure (m.setNext (.head head) (some (.head head)))
    else storeFieldNext m prev (some (.head head))
  let m := m.setPrev (.head head) prev
  let m := m.setNext (.entry entry) none
  return (m.setPrev (.entry entry) none, entry)

/-- `((type)(void *)p)->field`. A head that is taken for an element is its own field if the
field is the first one of the type, and other memory if it is not. -/
def fieldOf (fieldFirst : Bool) (p : Option (Node Q E)) : Except Fault (Node Q E) :=
  match p with
  | some (.entry e) => .ok (.entry e)
  | some (.head q) => if fieldFirst then .ok (.head q) else .error .unmapped
  | none => .error .nullDeref

/-- `queue_assign`. -/
def queueAssign (fieldFirst : Bool) (m : Entries (Node Q E)) (target source : Q) :
    Except Fault (Entries (Node Q E)) := do
  let last ← fieldOf fieldFirst (m.prev (.head source))
  let m := m.setNext last (some (.head target))
  let first ← fieldOf fieldFirst (m.next (.head source))
  let m := m.setPrev first (some (.head target))
  let m := m.setNext (.head target) (m.next (.head source))
  return m.setPrev (.head target) (m.prev (.head source))

/-- `queue_new_head`. -/
def queueNewHead (m : Entries (Node Q E)) (old new : Q) : Except Fault (Entries (Node Q E)) := do
  if queueEmpty m (.head old) then return queueInit m (.head new)
  let m := (m.setNext (.head new) (m.next (.head old))).setPrev (.head new) (m.prev (.head old))
  let m ← storeFieldPrev m (m.next (.head new)) (some (.head new))
  storeFieldNext m (m.prev (.head new)) (some (.head new))

/-- One pass of `queue_iterate`: the element, and the elements visited. -/
def queueIteratePass (m : Entries (Node Q E)) (head : Q) (s : Option (Node Q E) × List E) :
    Except Fault ((Option (Node Q E) × List E) ⊕ List E) := do
  if some (.head head) = s.1 then return .inr s.2
  let elt ← asElement s.1
  return .inl (m.next (.entry elt), s.2 ++ [elt])

/-- `queue_iterate`, with the elements visited. -/
def queueIterate (m : Entries (Node Q E)) (head : Q) (fuel : Nat) : Except Fault (List E) :=
  loop (queueIteratePass m head) fuel (m.next (.head head), [])

end ElementChains

end MacKernel.Queue
