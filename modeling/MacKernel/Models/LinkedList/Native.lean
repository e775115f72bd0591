import MacKernel.Core.Foreach

/-!
# Lists of `sys/queue.h`

A head holds its first element, and an element holds the next one and the address of the
pointer that points at it. A pointer is named by the head or the element that owns it.
-/

namespace MacKernel.LinkedList

variable {Q E : Type}

/-- The fields of all heads and elements. -/
structure ListLinks (Q E : Type) where
  /-- `lh_first` and `le_next`. -/
  next : Node Q E → Option E
  /-- `le_prev`: address of the previous next element. -/
  prev : E → Option (Node Q E)

/-- `LIST_FIRST`. -/
def listFirst (m : ListLinks Q E) (head : Q) : Option E := m.next (.head head)

/-- `LIST_NEXT`. -/
def listNext (m : ListLinks Q E) (elm : E) : Option E := m.next (.entry elm)

/-- `LIST_EMPTY`. -/
def listEmpty (m : ListLinks Q E) (head : Q) : Bool := (listFirst m head).isNone

/-- `LIST_FOREACH`, with the elements visited. -/
def listForeach (m : ListLinks Q E) (head : Q) (fuel : Nat) : Except Fault (List E) :=
  loop (foreachPass fun var => return listNext m var) fuel (listFirst m head, [])

/-- `LIST_FOREACH_SAFE`. -/
def listForeachSafe (body : ListLinks Q E → E → Except Fault (ListLinks Q E)) (m : ListLinks Q E)
    (head : Q) (fuel : Nat) : Except Fault (ListLinks Q E × List E) :=
  loop (foreachSafePass (fun m var => return listNext m var) body) fuel ⟨m, listFirst m head, []⟩

variable [DecidableEq Q] [DecidableEq E]

/-- Store into `lh_first` or `le_next`. -/
def ListLinks.setNext (m : ListLinks Q E) (x : Node Q E) (v : Option E) : ListLinks Q E :=
  { m with next := Function.update m.next x v }

omit [DecidableEq Q] in
/-- Store into `le_prev`. -/
def ListLinks.setPrev (m : ListLinks Q E) (elm : E) (v : Option (Node Q E)) : ListLinks Q E :=
  { m with prev := Function.update m.prev elm v }

omit [DecidableEq Q] in
/-- `if (elm != NULL) elm->field.le_prev = slot;`. -/
def ListLinks.setPrevOf (m : ListLinks Q E) (elm : Option E) (slot : Option (Node Q E)) :
    ListLinks Q E :=
  match elm with
  | some elm => m.setPrev elm slot
  | none => m

/-- `LIST_INIT`. -/
def listInit (m : ListLinks Q E) (head : Q) : ListLinks Q E := m.setNext (.head head) none

/-- `LIST_INSERT_AFTER` and `LIST_INSERT_HEAD`, behind the pointer of an element or a head. -/
def insertBehind (m : ListLinks Q E) (slot : Node Q E) (elm : E) : ListLinks Q E :=
  let m := m.setNext (.entry elm) (m.next slot)
  let m := m.setPrevOf (m.next slot) (some (.entry elm))
  let m := m.setNext slot (some elm)
  m.setPrev elm (some slot)

/-- `LIST_INSERT_AFTER`. -/
def listInsertAfter (m : ListLinks Q E) (listelm elm : E) : ListLinks Q E :=
  insertBehind m (.entry listelm) elm

/-- `LIST_INSERT_BEFORE`. -/
def listInsertBefore (m : ListLinks Q E) (listelm elm : E) : Except Fault (ListLinks Q E) := do
  let m := m.setPrev elm (m.prev listelm)
  let m := m.setNext (.entry elm) (some listelm)
  let slot ← deref (m.prev listelm)
  let m := m.setNext slot (some elm)
  return m.setPrev listelm (some (.entry elm))

/-- `LIST_INSERT_HEAD`. -/
def listInsertHead (m : ListLinks Q E) (head : Q) (elm : E) : ListLinks Q E :=
  insertBehind m (.head head) elm

/-- `LIST_REMOVE`. -/
def listRemove (m : ListLinks Q E) (elm : E) : Except Fault (ListLinks Q E) := do
  let m := m.setPrevOf (m.next (.entry elm)) (m.prev elm)
  let slot ← deref (m.prev elm)
  return m.setNext slot (m.next (.entry elm))

/-- `LIST_SWAP`. -/
def listSwap (m : ListLinks Q E) (head1 head2 : Q) : ListLinks Q E :=
  let swapTmp := listFirst m head1
  let m := m.setNext (.head head1) (listFirst m head2)
  let m := m.setNext (.head head2) swapTmp
  let m := m.setPrevOf (listFirst m head1) (some (.head head1))
  m.setPrevOf (listFirst m head2) (some (.head head2))

end MacKernel.LinkedList
