import MacKernel.Models.SinglyTailQueue.Native

/-!
# Singly-linked lists of `sys/queue.h`

A head holds its first element and nothing else. `SLIST_REMOVE` searches for the link
before an element as `STAILQ_REMOVE` does, and `SLIST_FOREACH_PREVPTR` hands that link
to its body.
-/

namespace MacKernel.SinglyLinkedList

open SinglyTailQueue (findPass)

variable {Q E : Type}

/-- `SLIST_FIRST`. -/
def slistFirst (m : Links Q E) (head : Q) : Option E := m.first head

/-- `SLIST_NEXT`. -/
def slistNext (m : Links Q E) (elm : E) : Option E := m.next elm

/-- `SLIST_EMPTY`. -/
def slistEmpty (m : Links Q E) (head : Q) : Bool := (slistFirst m head).isNone

/-- `SLIST_FOREACH`, with the elements visited. -/
def slistForeach (m : Links Q E) (head : Q) (fuel : Nat) : Except Fault (List E) :=
  loop (foreachPass fun var => return slistNext m var) fuel (slistFirst m head, [])

/-- `SLIST_FOREACH_SAFE`. -/
def slistForeachSafe (body : Links Q E → E → Except Fault (Links Q E)) (m : Links Q E) (head : Q)
    (fuel : Nat) : Except Fault (Links Q E × List E) :=
  loop (foreachSafePass (fun m var => return slistNext m var) body) fuel ⟨m, slistFirst m head, []⟩

/-- One pass of `SLIST_FOREACH_PREVPTR`: `varp`, and the links and elements visited. -/
def prevptrPass (m : Links Q E) (s : Link Q E × List (Link Q E × E)) :
    Except Fault ((Link Q E × List (Link Q E × E)) ⊕ List (Link Q E × E)) :=
  match m.load s.1 with
  | none => .ok (.inr s.2)
  | some var => .ok (.inl (.next var, s.2 ++ [(s.1, var)]))

/-- `SLIST_FOREACH_PREVPTR`, with each `varp` and `var`. -/
def slistForeachPrevptr (m : Links Q E) (head : Q) (fuel : Nat) :
    Except Fault (List (Link Q E × E)) :=
  loop (prevptrPass m) fuel (.head head, [])

variable [DecidableEq Q] [DecidableEq E]

/-- `SLIST_INIT`. -/
def slistInit (m : Links Q E) (head : Q) : Links Q E := m.store (.head head) none

/-- `SLIST_INSERT_AFTER`. -/
def slistInsertAfter (m : Links Q E) (slistelm elm : E) : Links Q E :=
  let m := m.store (.next elm) (slistNext m slistelm)
  m.store (.next slistelm) (some elm)

/-- `SLIST_INSERT_HEAD`. -/
def slistInsertHead (m : Links Q E) (head : Q) (elm : E) : Links Q E :=
  let m := m.store (.next elm) (slistFirst m head)
  m.store (.head head) (some elm)

/-- `SLIST_REMOVE_AFTER`. -/
def slistRemoveAfter (m : Links Q E) (elm : E) : Except Fault (Links Q E) := do
  let next ← deref (slistNext m elm)
  return m.store (.next elm) (slistNext m next)

/-- `SLIST_REMOVE_HEAD`. -/
def slistRemoveHead (m : Links Q E) (head : Q) : Except Fault (Links Q E) := do
  let first ← deref (slistFirst m head)
  return m.store (.head head) (slistNext m first)

/-- `SLIST_REMOVE`. -/
def slistRemove (m : Links Q E) (head : Q) (elm : E) (fuel : Nat) : Except Fault (Links Q E) := do
  if slistFirst m head = some elm then
    slistRemoveHead m head
  else
    let curelm ← loop (findPass (slistNext m) elm) fuel (slistFirst m head)
    slistRemoveAfter m curelm

end MacKernel.SinglyLinkedList
