import MacKernel.Core.Foreach

/-!
# Tail queues of `sys/queue.h`

A head and the link field of an element are both a pointer to an element followed by
the address of such a pointer. A pair is named by the head or the element that owns
it, and its name is also the address of its first field: this is what lets `TAILQ_LAST`
and `TAILQ_PREV` take the pair of an element for a head.
-/

namespace MacKernel.TailQueue

variable {Q E : Type}

/-- The fields of all heads and elements. -/
structure Links (Q E : Type) where
  /-- `tqh_first` and `tqe_next`. -/
  next : Node Q E → Option E
  /-- `tqh_last` and `tqe_prev`. -/
  prev : Node Q E → Option (Node Q E)

variable [DecidableEq Q] [DecidableEq E]

/-- Store into `tqh_first` or `tqe_next`. -/
def Links.setNext (m : Links Q E) (x : Node Q E) (v : Option E) : Links Q E :=
  { m with next := Function.update m.next x v }

/-- Store into `tqh_last` or `tqe_prev`. -/
def Links.setPrev (m : Links Q E) (x : Node Q E) (v : Option (Node Q E)) : Links Q E :=
  { m with prev := Function.update m.prev x v }

/-- `*p = v`. -/
def storeThrough (m : Links Q E) (p : Option (Node Q E)) (v : Option E) :
    Except Fault (Links Q E) := do
  return m.setNext (← deref p) v

/-- `TAILQ_EMPTY`. -/
def tailqEmpty (m : Links Q E) (head : Q) : Bool := (m.next (.head head)).isNone

/-- `TAILQ_FIRST`. -/
def tailqFirst (m : Links Q E) (head : Q) : Option E := m.next (.head head)

/-- `TAILQ_NEXT`. -/
def tailqNext (m : Links Q E) (elm : E) : Option E := m.next (.entry elm)

/-- Take the pair that `tqh_last` or `tqe_prev` names for a head, and follow its `tqh_last`. -/
def beforePair (m : Links Q E) (x : Node Q E) : Except Fault (Option E) := do
  let pair ← deref (m.prev x)
  let slot ← deref (m.prev pair)
  return m.next slot

/-- `TAILQ_LAST`. -/
def tailqLast (m : Links Q E) (head : Q) : Except Fault (Option E) := beforePair m (.head head)

/-- `TAILQ_PREV`. -/
def tailqPrev (m : Links Q E) (elm : E) : Except Fault (Option E) := beforePair m (.entry elm)

/-- `TAILQ_INIT`. -/
def tailqInit (m : Links Q E) (head : Q) : Links Q E :=
  (m.setNext (.head head) none).setPrev (.head head) (some (.head head))

/-- `TAILQ_CONCAT`. -/
def tailqConcat (m : Links Q E) (head1 head2 : Q) : Except Fault (Links Q E) := do
  if tailqEmpty m head2 then return m
  let m ← storeThrough m (m.prev (.head head1)) (m.next (.head head2))
  let first ← deref (m.next (.head head2))
  let m := m.setPrev (.entry first) (m.prev (.head head1))
  let m := m.setPrev (.head head1) (m.prev (.head head2))
  return tailqInit m head2

/-- Store into the `tqe_prev` of an element, or into `tqh_last` if there is none. -/
def setPrevOf (m : Links Q E) (head : Q) (elm : Option E) (slot : Option (Node Q E)) : Links Q E :=
  match elm with
  | some elm => m.setPrev (.entry elm) slot
  | none => m.setPrev (.head head) slot

/-- Insert behind a slot of the queue. -/
def insertBehind (m : Links Q E) (head : Q) (slot : Node Q E) (elm : E) : Links Q E :=
  let m := m.setNext (.entry elm) (m.next slot)
  let m := setPrevOf m head (m.next (.entry elm)) (some (.entry elm))
  let m := m.setNext slot (some elm)
  m.setPrev (.entry elm) (some slot)

/-- `TAILQ_INSERT_AFTER`. -/
def tailqInsertAfter (m : Links Q E) (head : Q) (listelm elm : E) : Links Q E :=
  insertBehind m head (.entry listelm) elm

/-- `TAILQ_INSERT_BEFORE`. -/
def tailqInsertBefore (m : Links Q E) (listelm elm : E) : Except Fault (Links Q E) := do
  let m := m.setPrev (.entry elm) (m.prev (.entry listelm))
  let m := m.setNext (.entry elm) (some listelm)
  let m ← storeThrough m (m.prev (.entry listelm)) (some elm)
  return m.setPrev (.entry listelm) (some (.entry elm))

/-- `TAILQ_INSERT_HEAD`. -/
def tailqInsertHead (m : Links Q E) (head : Q) (elm : E) : Links Q E :=
  insertBehind m head (.head head) elm

/-- `TAILQ_INSERT_TAIL`. -/
def tailqInsertTail (m : Links Q E) (head : Q) (elm : E) : Except Fault (Links Q E) := do
  let m := m.setNext (.entry elm) none
  let m := m.setPrev (.entry elm) (m.prev (.head head))
  let m ← storeThrough m (m.prev (.head head)) (some elm)
  return m.setPrev (.head head) (some (.entry elm))

/-- `TAILQ_REMOVE`. -/
def tailqRemove (m : Links Q E) (head : Q) (elm : E) : Except Fault (Links Q E) :=
  let m := setPrevOf m head (m.next (.entry elm)) (m.prev (.entry elm))
  storeThrough m (m.prev (.entry elm)) (m.next (.entry elm))

/-- `TAILQ_SWAP`. -/
def tailqSwap (m : Links Q E) (head1 head2 : Q) : Links Q E :=
  let swapFirst := m.next (.head head1)
  let swapLast := m.prev (.head head1)
  let m := m.setNext (.head head1) (m.next (.head head2))
  let m := m.setPrev (.head head1) (m.prev (.head head2))
  let m := m.setNext (.head head2) swapFirst
  let m := m.setPrev (.head head2) swapLast
  let m := setPrevOf m head1 (m.next (.head head1)) (some (.head head1))
  setPrevOf m head2 (m.next (.head head2)) (some (.head head2))

section Iteration

/-- `TAILQ_FOREACH`, with the elements visited. -/
def tailqForeach (m : Links Q E) (head : Q) (fuel : Nat) : Except Fault (List E) :=
  loop (foreachPass fun var => return tailqNext m var) fuel (tailqFirst m head, [])

/-- `TAILQ_FOREACH_REVERSE`, with the elements visited. -/
def tailqForeachReverse (m : Links Q E) (head : Q) (fuel : Nat) : Except Fault (List E) := do
  loop (foreachPass (tailqPrev m)) fuel (← tailqLast m head, [])

/-- `TAILQ_FOREACH_SAFE`. -/
def tailqForeachSafe (body : Links Q E → E → Except Fault (Links Q E)) (m : Links Q E) (head : Q)
    (fuel : Nat) : Except Fault (Links Q E × List E) :=
  loop (foreachSafePass (fun m var => return tailqNext m var) body) fuel ⟨m, tailqFirst m head, []⟩

/-- `TAILQ_FOREACH_REVERSE_SAFE`. -/
def tailqForeachReverseSafe (body : Links Q E → E → Except Fault (Links Q E)) (m : Links Q E)
    (head : Q) (fuel : Nat) : Except Fault (Links Q E × List E) := do
  loop (foreachSafePass tailqPrev body) fuel ⟨m, ← tailqLast m head, []⟩

end Iteration

end MacKernel.TailQueue
