import MacKernel.Core.ChainFamily
import MacKernel.Core.Foreach

/-!
# Singly-linked tail queues of `sys/queue.h`

A head holds its first element and the address of the last next pointer, which is the
head's own first field while the queue is empty. The macros store one after the other,
as in the source, and the loop of `STAILQ_REMOVE` takes fuel.
-/

namespace MacKernel.SinglyTailQueue

variable {Q E : Type} [DecidableEq Q] [DecidableEq E]

/-- The heads, and the link fields of all elements. -/
structure Stailqs (Q E : Type) where
  /-- `stqh_first` and `stqe_next`. -/
  links : Links Q E
  /-- `stqh_last`: address of the last next element. -/
  last : Q → Link Q E

/-- `STAILQ_FIRST`. -/
def stailqFirst (s : Stailqs Q E) (head : Q) : Option E := s.links.first head

/-- `STAILQ_NEXT`. -/
def stailqNext (s : Stailqs Q E) (elm : E) : Option E := s.links.next elm

/-- `STAILQ_EMPTY`. -/
def stailqEmpty (s : Stailqs Q E) (head : Q) : Bool := (stailqFirst s head).isNone

/-- Store a pointer into a link. -/
def Stailqs.store (s : Stailqs Q E) (k : Link Q E) (v : Option E) : Stailqs Q E :=
  { s with links := s.links.store k v }

/-- Store into `stqh_last`. -/
def Stailqs.setLast (s : Stailqs Q E) (head : Q) (k : Link Q E) : Stailqs Q E :=
  { s with last := Function.update s.last head k }

/-- `if ((*k = v) == NULL) (head)->stqh_last = k;`. -/
def Stailqs.storeOrLast (s : Stailqs Q E) (head : Q) (k : Link Q E) (v : Option E) :
    Stailqs Q E :=
  let s := s.store k v
  if v.isNone then s.setLast head k else s

/-- `STAILQ_INIT`. -/
def stailqInit (s : Stailqs Q E) (head : Q) : Stailqs Q E :=
  let s := s.store (.head head) none
  s.setLast head (.head head)

/-- `STAILQ_CONCAT`. -/
def stailqConcat (s : Stailqs Q E) (head1 head2 : Q) : Stailqs Q E :=
  if stailqEmpty s head2 then s
  else
    let s := s.store (s.last head1) (s.links.first head2)
    let s := s.setLast head1 (s.last head2)
    stailqInit s head2

/-- `STAILQ_INSERT_AFTER`. -/
def stailqInsertAfter (s : Stailqs Q E) (head : Q) (tqelm elm : E) : Stailqs Q E :=
  let s := s.storeOrLast head (.next elm) (stailqNext s tqelm)
  s.store (.next tqelm) (some elm)

/-- `STAILQ_INSERT_HEAD`. -/
def stailqInsertHead (s : Stailqs Q E) (head : Q) (elm : E) : Stailqs Q E :=
  let s := s.storeOrLast head (.next elm) (stailqFirst s head)
  s.store (.head head) (some elm)

/-- `STAILQ_INSERT_TAIL`. -/
def stailqInsertTail (s : Stailqs Q E) (head : Q) (elm : E) : Stailqs Q E :=
  let s := s.store (.next elm) none
  let s := s.store (s.last head) (some elm)
  s.setLast head (.next elm)

/-- `STAILQ_LAST`; the address of a head, less the offset of the field, is no element. -/
def stailqLast (s : Stailqs Q E) (head : Q) : Except Fault (Option E) :=
  if stailqEmpty s head then .ok none
  else
    match s.last head with
    | .next elm => .ok (some elm)
    | .head _ => .error .unmapped

/-- `STAILQ_REMOVE_HEAD`. -/
def stailqRemoveHead (s : Stailqs Q E) (head : Q) : Except Fault (Stailqs Q E) := do
  let first ← deref (stailqFirst s head)
  return s.storeOrLast head (.head head) (stailqNext s first)

/-- `STAILQ_REMOVE_HEAD_UNTIL`. -/
def stailqRemoveHeadUntil (s : Stailqs Q E) (head : Q) (elm : E) : Stailqs Q E :=
  s.storeOrLast head (.head head) (stailqNext s elm)

/-- `STAILQ_REMOVE_AFTER`. -/
def stailqRemoveAfter (s : Stailqs Q E) (head : Q) (elm : E) : Except Fault (Stailqs Q E) := do
  let next ← deref (stailqNext s elm)
  return s.storeOrLast head (.next elm) (stailqNext s next)

/-- One pass of the loop of `STAILQ_REMOVE` and `SLIST_REMOVE`. -/
def findPass (next : E → Option E) (elm : E) (curelm : Option E) :
    Except Fault (Option E ⊕ E) := do
  let cur ← deref curelm
  if next cur = some elm then return .inr cur else return .inl (next cur)

/-- `STAILQ_REMOVE`. -/
def stailqRemove (s : Stailqs Q E) (head : Q) (elm : E) (fuel : Nat) :
    Except Fault (Stailqs Q E) := do
  if stailqFirst s head = some elm then
    stailqRemoveHead s head
  else
    let curelm ← loop (findPass (stailqNext s) elm) fuel (stailqFirst s head)
    stailqRemoveAfter s head curelm

/-- `if (STAILQ_EMPTY(head)) (head)->stqh_last = &STAILQ_FIRST(head);`. -/
def Stailqs.mendLast (s : Stailqs Q E) (head : Q) : Stailqs Q E :=
  if stailqEmpty s head then s.setLast head (.head head) else s

/-- `STAILQ_SWAP`. -/
def stailqSwap (s : Stailqs Q E) (head1 head2 : Q) : Stailqs Q E :=
  let swapFirst := stailqFirst s head1
  let swapLast := s.last head1
  let s := s.store (.head head1) (stailqFirst s head2)
  let s := s.setLast head1 (s.last head2)
  let s := s.store (.head head2) swapFirst
  let s := s.setLast head2 swapLast
  (s.mendLast head1).mendLast head2

/-- `STAILQ_FOREACH`, with the elements visited. -/
def stailqForeach (s : Stailqs Q E) (head : Q) (fuel : Nat) : Except Fault (List E) :=
  loop (foreachPass fun var => return stailqNext s var) fuel (stailqFirst s head, [])

/-- `STAILQ_FOREACH_SAFE`. -/
def stailqForeachSafe (body : Stailqs Q E → E → Except Fault (Stailqs Q E)) (s : Stailqs Q E)
    (head : Q) (fuel : Nat) : Except Fault (Stailqs Q E × List E) :=
  loop (foreachSafePass (fun s var => return stailqNext s var) body) fuel
    ⟨s, stailqFirst s head, []⟩

end MacKernel.SinglyTailQueue
