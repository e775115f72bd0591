import MacKernel.Core.Run
import MacKernel.Models.PriorityQueue.Layout

/-!
# The pairing-heap priority queue

The routines of `kern/priority_queue.h` over a store of entries, for either entry
layout. Reading or writing through a null pointer is a fault, and so is a failed
assertion. `pqueue_pair_meld` is only declared in the header, so it is a parameter
of the routines that call it. Each routine returns what the source returns, with
the store or the queue it leaves behind.
-/

namespace MacKernel.PriorityQueue

/-- What a comparator can read of an entry: its key bit-field, and the data that
the caller keeps in the element around it. -/
structure Rank (K : Type) where
  key : Int
  data : K
  deriving DecidableEq, Repr

/-- `priority_queue_compare_fn_t`. -/
abbrev CompareFn (K : Type) := Rank K → Rank K → Int

/-- `priority_queue_element_builtin_key_compare`. -/
def builtinKeyCompare {K : Type} : CompareFn K := fun e1 e2 => e2.key - e1.key

/-- `PRIORITY_QUEUE_SCHED_PRI_MAX_HEAP_COMPARE`. -/
def schedPriMaxHeapCompare {K : Type} : CompareFn K := fun e1 e2 => -builtinKeyCompare e1 e2

/-- `PRIORITY_QUEUE_SCHED_PRI_MIN_HEAP_COMPARE`. -/
def schedPriMinHeapCompare {K : Type} : CompareFn K := fun e1 e2 => builtinKeyCompare e1 e2

/-- The entries of memory and the data of the elements they are embedded in. -/
structure Store (E K : Type) (w : Nat) where
  entry : BitVec w → E
  data : BitVec w → K

/-- `struct priority_queue` with the memory it points into. -/
structure Queue (E K : Type) (w : Nat) extends Store E K w where
  /-- `pq_root_packed`. -/
  rootPacked : BitVec w

/-- `PRIORITY_QUEUE_KEY_NONE`. -/
def keyNone : UInt8 := 0

/-- `PRIORITY_QUEUE_GENERIC_KEY`. -/
def genericKey {w : Nat} : BitVec w := 1

/-- `PRIORITY_QUEUE_MIN_HEAP`. -/
def minHeap {w : Nat} : BitVec w := 2

/-- `PRIORITY_QUEUE_ROOT_FLAGS_MASK`. -/
def rootFlagsMask {w : Nat} : BitVec w := 3

/-- `PRIORITY_QUEUE_ROOT_POINTER_MASK`. -/
def rootPointerMask {w : Nat} : BitVec w := ~~~rootFlagsMask

/-- `pqueue_pair_meld` for a fixed comparator. -/
abbrev PairMeld (E K : Type) (w : Nat) :=
  Store E K w → BitVec w → Except Fault (Store E K w × BitVec w)

section Store

variable {E K : Type} {w : Nat} [EntryLayout E w]

/-- The fields of the entry at an address. -/
def Store.fields (s : Store E K w) (a : BitVec w) : Fields w := EntryLayout.fields (s.entry a)

/-- What a comparator reads at an address. -/
def Store.rank (s : Store E K w) (a : BitVec w) : Rank K :=
  ⟨EntryLayout.keyInt E (s.fields a).key, s.data a⟩

/-- Dereference an entry pointer. -/
def Store.load (s : Store E K w) (a : BitVec w) : Except Fault (Fields w) :=
  if a = 0 then .error .nullDeref else .ok (s.fields a)

/-- Assign to a field through an entry pointer. -/
def Store.modify (s : Store E K w) (a : BitVec w) (f : E → E) : Except Fault (Store E K w) :=
  if a = 0 then .error .nullDeref
  else .ok { s with entry := Function.update s.entry a (f (s.entry a)) }

/-- `pqueue_list_remove`. -/
def pqueueListRemove (s : Store E K w) (elt : BitVec w) : Except Fault (Store E K w) := do
  let e ← s.load elt
  if e.prev = 0 then throw .assertFailed
  let p ← s.load e.prev
  let s ← if p.child = elt then s.modify e.prev (EntryLayout.packChild · e.next)
    else s.modify e.prev (EntryLayout.setNext · e.next)
  let e ← s.load elt
  if e.next ≠ 0 then s.modify e.next (EntryLayout.setPrev · e.prev) else return s

/-- `pqueue_merge`. -/
def pqueueMerge (cmpFn : CompareFn K) (s : Store E K w) (subtreeA subtreeB : BitVec w) :
    Except Fault (Store E K w × BitVec w) :=
  if subtreeA = 0 then return (s, subtreeB)
  else if subtreeB = 0 ∨ subtreeA = subtreeB then return (s, subtreeA)
  else
    let (parent, child) := if cmpFn (s.rank subtreeA) (s.rank subtreeB) < 0
      then (subtreeB, subtreeA) else (subtreeA, subtreeB)
    do
      let p ← s.load parent
      let s ← s.modify child (EntryLayout.setNext · p.child)
      let s ← s.modify child (EntryLayout.setPrev · parent)
      let p ← s.load parent
      let s ← if p.child ≠ 0 then s.modify p.child (EntryLayout.setPrev · child) else pure s
      let s ← s.modify parent (EntryLayout.packChild · child)
      let s ← s.modify parent (EntryLayout.setNext · 0)
      let s ← s.modify parent (EntryLayout.setPrev · 0)
      return (s, parent)

/-- `priority_queue_entry_init`. -/
def priorityQueueEntryInit (s : Store E K w) (qe : BitVec w) : Except Fault (Store E K w) := do
  let s ← s.modify qe (EntryLayout.setNext · 0)
  let s ← s.modify qe (EntryLayout.setPrev · 0)
  let s ← s.modify qe (EntryLayout.packChild · 0)
  s.modify qe (EntryLayout.setKey · keyNone)

end Store

section Head

variable {E K : Type} {w : Nat}

/-- `pqueue_has_builtin_keys`. -/
def Queue.hasBuiltinKeys (q : Queue E K w) : Bool := q.rootPacked &&& genericKey == 0

/-- `pqueue_is_min_heap`. -/
def Queue.isMinHeap (q : Queue E K w) : Bool := q.rootPacked &&& minHeap != 0

/-- `pqueue_is_max_heap`. -/
def Queue.isMaxHeap (q : Queue E K w) : Bool := q.rootPacked &&& minHeap == 0

/-- `pqueue_pack_root`. -/
def Queue.packRoot (q : Queue E K w) (root : BitVec w) : Queue E K w :=
  { q with rootPacked := root ||| (q.rootPacked &&& rootFlagsMask) }

/-- `pqueue_unpack_root`. -/
def Queue.unpackRoot (q : Queue E K w) : BitVec w := q.rootPacked &&& rootPointerMask

/-- `priority_queue_empty`. -/
def Queue.empty (q : Queue E K w) : Bool := q.unpackRoot == 0

/-- `priority_queue_init`. -/
def priorityQueueInit (q : Queue E K w) (flags : BitVec w) : Queue E K w :=
  { q.packRoot 0 with rootPacked := flags }

/-- `priority_queue_max`; a null root is a null element. -/
def priorityQueueMax (q : Queue E K w) : Except Fault (BitVec w) :=
  if q.isMaxHeap then .ok q.unpackRoot else .error .assertFailed

/-- `priority_queue_min`. -/
def priorityQueueMin (q : Queue E K w) : Except Fault (BitVec w) :=
  if q.isMinHeap then .ok q.unpackRoot else .error .assertFailed

end Head

section Operations

variable {E K : Type} {w : Nat} [EntryLayout E w]

/-- `priority_queue_entry_key`. -/
def priorityQueueEntryKey (q : Queue E K w) (elt : BitVec w) : Except Fault UInt8 := do
  if q.hasBuiltinKeys = false then throw .assertFailed
  return (← q.load elt).key

/-- `pqueue_update_key`; the check that a key fits in a byte is its type. -/
def pqueueUpdateKey (q : Queue E K w) (elt : BitVec w) (newKey : UInt8) :
    Except Fault (Queue E K w) := do
  if q.hasBuiltinKeys then
    let s ← q.modify elt (EntryLayout.setKey · newKey)
    return { q with toStore := s }
  else if newKey = keyNone then return q
  else throw .assertFailed

variable (pairMeld : PairMeld E K w) (cmpFn : CompareFn K)

/-- `pqueue_remove_root`. -/
def pqueueRemoveRoot (q : Queue E K w) (oldRoot : BitVec w) :
    Except Fault (Queue E K w × BitVec w) := do
  let newRoot := (← q.load oldRoot).child
  let (s, newRoot) ← if newRoot ≠ 0 then pairMeld q.toStore newRoot else pure (q.toStore, newRoot)
  return ({ q with toStore := s }.packRoot newRoot, oldRoot)

/-- `pqueue_remove_non_root`. -/
def pqueueRemoveNonRoot (q : Queue E K w) (elt : BitVec w) :
    Except Fault (Queue E K w × BitVec w) := do
  let s ← pqueueListRemove q.toStore elt
  let child := (← s.load elt).child
  if child ≠ 0 then
    let (s, child) ← pairMeld s child
    let (s, newRoot) ← pqueueMerge cmpFn s q.unpackRoot child
    return ({ q with toStore := s }.packRoot newRoot, elt)
  else return ({ q with toStore := s }, elt)

/-- `priority_queue_insert`. -/
def priorityQueueInsert (q : Queue E K w) (elt : BitVec w) (newKey : UInt8) :
    Except Fault (Queue E K w × Bool) := do
  let q ← pqueueUpdateKey q elt newKey
  let (s, newRoot) ← pqueueMerge cmpFn q.toStore q.unpackRoot elt
  return ({ q with toStore := s }.packRoot newRoot, newRoot == elt)

/-- `priority_queue_remove`. -/
def priorityQueueRemove (q : Queue E K w) (elt : BitVec w) :
    Except Fault (Queue E K w × Bool) := do
  if elt = q.unpackRoot then
    let (q, _) ← pqueueRemoveRoot pairMeld q elt
    let s ← priorityQueueEntryInit q.toStore elt
    return ({ q with toStore := s }, true)
  else
    let (q, _) ← pqueueRemoveNonRoot pairMeld cmpFn q elt
    let s ← priorityQueueEntryInit q.toStore elt
    return ({ q with toStore := s }, false)

/-- `priority_queue_entry_decrease`. -/
def priorityQueueEntryDecrease (q : Queue E K w) (elt : BitVec w) (newKey : UInt8) :
    Except Fault (Queue E K w × Bool) := do
  let (q, wasRoot) ← priorityQueueRemove pairMeld cmpFn q elt
  let (q, _) ← priorityQueueInsert cmpFn q elt newKey
  return (q, wasRoot)

/-- `priority_queue_entry_increase`. -/
def priorityQueueEntryIncrease (q : Queue E K w) (elt : BitVec w) (newKey : UInt8) :
    Except Fault (Queue E K w × Bool) := do
  if elt = q.unpackRoot then
    let q ← pqueueUpdateKey q elt newKey
    return (q, true)
  else
    let s ← pqueueListRemove q.toStore elt
    priorityQueueInsert cmpFn { q with toStore := s } elt newKey

/-- `priority_queue_remove_max`, which does not re-initialise the entry. -/
def priorityQueueRemoveMax (q : Queue E K w) : Except Fault (Queue E K w × BitVec w) :=
  if q.isMaxHeap then pqueueRemoveRoot pairMeld q q.unpackRoot else .error .assertFailed

/-- `priority_queue_remove_min`, which does not re-initialise the entry. -/
def priorityQueueRemoveMin (q : Queue E K w) : Except Fault (Queue E K w × BitVec w) :=
  if q.isMinHeap then pqueueRemoveRoot pairMeld q q.unpackRoot else .error .assertFailed

end Operations

end MacKernel.PriorityQueue
