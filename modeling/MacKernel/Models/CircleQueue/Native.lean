import MacKernel.Models.Queue.Native

/-!
# Circle queues of `kern/circle_queue.h`

The head is a pointer to the first entry, and the entries are a ring without a
sentinel. `__builtin_assume` is an assertion here.
-/

namespace MacKernel.CircleQueue

open Queue

/-- `struct circle_queue_head`, and the links of all entries. -/
structure Circle (N : Type) where
  head : Option N
  links : Entries N

variable {N : Type}

/-- `circle_queue_init`. -/
def circleQueueInit (cq : Circle N) : Circle N := { cq with head := none }

/-- `circle_queue_first`. -/
def circleQueueFirst (cq : Circle N) : Option N := cq.head

/-- `circle_queue_last`. -/
def circleQueueLast (cq : Circle N) : Except Fault (Option N) :=
  match circleQueueFirst cq with
  | some elt => if (cq.links.prev elt).isSome then .ok (cq.links.prev elt)
    else .error .assertFailed
  | none => .ok none

/-- `circle_queue_rotate_head_forward`. -/
def circleQueueRotateHeadForward (cq : Circle N) : Circle N :=
  match circleQueueFirst cq with
  | some first => { cq with head := cq.links.next first }
  | none => cq

/-- `circle_queue_rotate_head_backward`. -/
def circleQueueRotateHeadBackward (cq : Circle N) : Except Fault (Circle N) := do
  match ← circleQueueLast cq with
  | some last => return { cq with head := some last }
  | none => return cq

variable [DecidableEq N]

/-- `circle_queue_next`. -/
def circleQueueNext (cq : Circle N) (elt : N) : Option N :=
  if cq.links.next elt = cq.head then none else cq.links.next elt

/-- One pass of the loop of `circle_queue_length`. -/
def circleQueueLengthPass (cq : Circle N) (s : Option N × Nat) :
    Except Fault ((Option N × Nat) ⊕ Nat) :=
  match s.1 with
  | some elt => .ok (.inl (circleQueueNext cq elt, s.2 + 1))
  | none => .ok (.inr s.2)

/-- `circle_queue_length`; there are fewer entries than a `size_t` can count. -/
def circleQueueLength (cq : Circle N) (fuel : Nat) : Except Fault Nat :=
  loop (circleQueueLengthPass cq) fuel (circleQueueFirst cq, 0)

/-- `circle_enqueue_tail`. -/
def circleEnqueueTail (cq : Circle N) (elt : N) : Except Fault (Circle N) := do
  let head := circleQueueFirst cq
  let tail ← circleQueueLast cq
  if head = none then
    let links := (cq.links.setPrev elt (some elt)).setNext elt (some elt)
    return ⟨some elt, links⟩
  else
    let links := cq.links.setNext elt head
    let links := links.setPrev elt tail
    let links ← storeNext links tail (some elt)
    let links ← storePrev links head (some elt)
    return { cq with links }

/-- `circle_enqueue_head`. -/
def circleEnqueueHead (cq : Circle N) (elt : N) : Except Fault (Circle N) := do
  let cq ← circleEnqueueTail cq elt
  return { cq with head := some elt }

/-- `circle_dequeue`. -/
def circleDequeue (cq : Circle N) (elt : N) : Except Fault (Circle N) := do
  let eltPrev := cq.links.prev elt
  let eltNext := cq.links.next elt
  if some elt = eltNext then
    if cq.head = some elt then return { cq with head := none } else .error .assertFailed
  else
    let links ← storeNext cq.links eltPrev eltNext
    let links ← storePrev links eltNext eltPrev
    if cq.head = some elt then return ⟨eltNext, links⟩ else return { cq with links }

/-- `circle_dequeue_head`. -/
def circleDequeueHead (cq : Circle N) : Except Fault (Circle N × Option N) :=
  match circleQueueFirst cq with
  | some elt => return (← circleDequeue cq elt, some elt)
  | none => return (cq, none)

/-- `circle_dequeue_tail`. -/
def circleDequeueTail (cq : Circle N) : Except Fault (Circle N × Option N) := do
  match ← circleQueueLast cq with
  | some elt => return (← circleDequeue cq elt, some elt)
  | none => return (cq, none)

/-- The variables of `cqe_foreach_safe`, with the entries visited. -/
structure SafeLoop (N : Type) where
  circle : Circle N
  qe : Option N
  visited : List N

/-- One pass of `cqe_foreach_safe`, with a body that may change the queue. -/
def cqeForeachSafePass (body : Circle N → N → Except Fault (Circle N)) (s : SafeLoop N) :
    Except Fault (SafeLoop N ⊕ (Circle N × List N)) :=
  match s.qe with
  | none => .ok (.inr (s.circle, s.visited))
  | some qe => do
    let ne := circleQueueNext s.circle qe
    let circle ← body s.circle qe
    return .inl ⟨circle, ne, s.visited ++ [qe]⟩

/-- `cqe_foreach_safe`. -/
def cqeForeachSafe (body : Circle N → N → Except Fault (Circle N)) (cq : Circle N) (fuel : Nat) :
    Except Fault (Circle N × List N) :=
  loop (cqeForeachSafePass body) fuel ⟨cq, circleQueueFirst cq, []⟩

end MacKernel.CircleQueue
