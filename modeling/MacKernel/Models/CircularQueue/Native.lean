import MacKernel.Models.Queue.Native

/-!
# Circular queues of `sys/queue.h`

A pointer at the end of a queue is the address of the head, in a field whose type is a
pointer to an element. The macros compare such a pointer with the head before they
follow it; taking a head for an element is a fault.
-/

namespace MacKernel.CircularQueue

open Queue (storeFieldNext storeFieldPrev queueIteratePass)

variable {Q E : Type} [DecidableEq Q] [DecidableEq E]

/-- `CIRCLEQ_EMPTY`. -/
def circleqEmpty (m : Entries (Node Q E)) (head : Q) : Bool :=
  decide (m.next (.head head) = some (.head head))

omit [DecidableEq Q] [DecidableEq E] in
/-- `CIRCLEQ_FIRST`. -/
def circleqFirst (m : Entries (Node Q E)) (head : Q) : Option (Node Q E) := m.next (.head head)

omit [DecidableEq Q] [DecidableEq E] in
/-- `CIRCLEQ_LAST`. -/
def circleqLast (m : Entries (Node Q E)) (head : Q) : Option (Node Q E) := m.prev (.head head)

omit [DecidableEq Q] [DecidableEq E] in
/-- `CIRCLEQ_NEXT`. -/
def circleqNext (m : Entries (Node Q E)) (elm : E) : Option (Node Q E) := m.next (.entry elm)

omit [DecidableEq Q] [DecidableEq E] in
/-- `CIRCLEQ_PREV`. -/
def circleqPrev (m : Entries (Node Q E)) (elm : E) : Option (Node Q E) := m.prev (.entry elm)

/-- `CIRCLEQ_FOREACH`, with the elements visited. -/
def circleqForeach (m : Entries (Node Q E)) (head : Q) (fuel : Nat) : Except Fault (List E) :=
  loop (queueIteratePass m head) fuel (circleqFirst m head, [])

/-- `CIRCLEQ_INIT`. -/
def circleqInit (m : Entries (Node Q E)) (head : Q) : Entries (Node Q E) :=
  let m := m.setNext (.head head) (some (.head head))
  m.setPrev (.head head) (some (.head head))

/-- `CIRCLEQ_INSERT_AFTER`. -/
def circleqInsertAfter (m : Entries (Node Q E)) (head : Q) (listelm elm : E) :
    Except Fault (Entries (Node Q E)) := do
  let m := m.setNext (.entry elm) (circleqNext m listelm)
  let m := m.setPrev (.entry elm) (some (.entry listelm))
  let m ← if some (.head head) = circleqNext m listelm then
      pure (m.setPrev (.head head) (some (.entry elm)))
    else storeFieldPrev m (circleqNext m listelm) (some (.entry elm))
  return m.setNext (.entry listelm) (some (.entry elm))

/-- `CIRCLEQ_INSERT_BEFORE`. -/
def circleqInsertBefore (m : Entries (Node Q E)) (head : Q) (listelm elm : E) :
    Except Fault (Entries (Node Q E)) := do
  let m := m.setNext (.entry elm) (some (.entry listelm))
  let m := m.setPrev (.entry elm) (circleqPrev m listelm)
  let m ← if some (.head head) = circleqPrev m listelm then
      pure (m.setNext (.head head) (some (.entry elm)))
    else storeFieldNext m (circleqPrev m listelm) (some (.entry elm))
  return m.setPrev (.entry listelm) (some (.entry elm))

/-- `CIRCLEQ_INSERT_HEAD`; the branch looks at `cqh_last`. -/
def circleqInsertHead (m : Entries (Node Q E)) (head : Q) (elm : E) :
    Except Fault (Entries (Node Q E)) := do
  let m := m.setNext (.entry elm) (circleqFirst m head)
  let m := m.setPrev (.entry elm) (some (.head head))
  let m ← if circleqLast m head = some (.head head) then
      pure (m.setPrev (.head head) (some (.entry elm)))
    else storeFieldPrev m (circleqFirst m head) (some (.entry elm))
  return m.setNext (.head head) (some (.entry elm))

/-- `CIRCLEQ_INSERT_TAIL`; the branch looks at `cqh_first`. -/
def circleqInsertTail (m : Entries (Node Q E)) (head : Q) (elm : E) :
    Except Fault (Entries (Node Q E)) := do
  let m := m.setNext (.entry elm) (some (.head head))
  let m := m.setPrev (.entry elm) (circleqLast m head)
  let m ← if circleqFirst m head = some (.head head) then
      pure (m.setNext (.head head) (some (.entry elm)))
    else storeFieldNext m (circleqLast m head) (some (.entry elm))
  return m.setPrev (.head head) (some (.entry elm))

/-- `CIRCLEQ_REMOVE`. -/
def circleqRemove (m : Entries (Node Q E)) (head : Q) (elm : E) :
    Except Fault (Entries (Node Q E)) := do
  let m ← if some (.head head) = circleqNext m elm then
      pure (m.setPrev (.head head) (circleqPrev m elm))
    else storeFieldPrev m (circleqNext m elm) (circleqPrev m elm)
  if some (.head head) = circleqPrev m elm then
    return m.setNext (.head head) (circleqNext m elm)
  else storeFieldNext m (circleqPrev m elm) (circleqNext m elm)

end MacKernel.CircularQueue
