import MacKernel.Core.Run
import MacKernel.Core.Tree

/-!
# The splay trees of `libkern/tree.h`

The functions that `SPLAY_PROTOTYPE` and `SPLAY_GENERATE` define, over the entries of
memory and the head of one tree. A splay takes the tree apart into two side trees that
hang off a node on the stack, and puts them together again. Code that exists in two
mirror images is written once for a side.
-/

namespace MacKernel.SplayTree

variable {E : Type}

/-- An element, or `__node` on the stack of a splay. -/
inductive Slot (E : Type) where
  | node
  | elm (e : E)
  deriving DecidableEq

/-- `SPLAY_LEFT` and `SPLAY_RIGHT` of all nodes. -/
abbrev Links (E : Type) := Side → Slot E → Option E

/-- `SPLAY_HEAD` with the entries of memory. -/
structure SplayHead (E : Type) where
  /-- `sph_root`. -/
  root : Option E
  child : Links E

/-- `SPLAY_INIT`. -/
def splayInit (s : SplayHead E) : SplayHead E := { s with root := none }

/-- `SPLAY_EMPTY`. -/
def splayEmpty (s : SplayHead E) : Bool := s.root.isNone

/-- The variables of a splay. -/
structure SplayLoop (E : Type) where
  head : SplayHead E
  /-- `__left`. -/
  left : Slot E
  /-- `__right`. -/
  right : Slot E

/-- The last node of a side tree: `__right` grows to the left, and `__left` to the right. -/
def SplayLoop.tip (d : Side) (l : SplayLoop E) : Slot E :=
  match d with
  | .left => l.right
  | .right => l.left

/-- Assign to `__right` or `__left`. -/
def SplayLoop.setTip (d : Side) (l : SplayLoop E) (x : Slot E) : SplayLoop E :=
  match d with
  | .left => { l with right := x }
  | .right => { l with left := x }

variable [DecidableEq E]

/-- Assign to `SPLAY_LEFT` or `SPLAY_RIGHT`. -/
def Links.set (c : Links E) (d : Side) (x : Slot E) (v : Option E) : Links E :=
  Function.update c d (Function.update (c d) x v)

/-- Assign to `SPLAY_LEFT` or `SPLAY_RIGHT`. -/
def SplayHead.setChild (s : SplayHead E) (d : Side) (x : Slot E) (v : Option E) : SplayHead E :=
  { s with child := s.child.set d x v }

section Splay

/-- `SPLAY_ROTATE_RIGHT` at the left side, and `SPLAY_ROTATE_LEFT` at the right side. -/
def splayRotate (d : Side) (s : SplayHead E) (tmp : E) : Except Fault (SplayHead E) := do
  let root ← deref s.root
  let s := s.setChild d (.elm root) (s.child d.opp (.elm tmp))
  let s := s.setChild d.opp (.elm tmp) s.root
  return { s with root := some tmp }

/-- `SPLAY_LINKLEFT` at the left side, and `SPLAY_LINKRIGHT` at the right side. -/
def splayLink (d : Side) (l : SplayLoop E) : Except Fault (SplayLoop E) := do
  let s := l.head.setChild d (l.tip d) l.head.root
  let root ← deref s.root
  let l := l.setTip d (.elm root)
  return { l with head := { s with root := s.child d (.elm root) } }

/-- `SPLAY_ASSEMBLE`. -/
def splayAssemble (l : SplayLoop E) : Except Fault (SplayHead E) := do
  let root ← deref l.head.root
  let s := l.head.setChild .right l.left (l.head.child .left (.elm root))
  let s := s.setChild .left l.right (s.child .right (.elm root))
  let s := s.setChild .left (.elm root) (s.child .right .node)
  return s.setChild .right (.elm root) (s.child .left .node)

/-- A pass that goes to one side, with the test for two steps at once. -/
def splayDescend (d : Side) (further : E → Bool) (l : SplayLoop E) :
    Except Fault (SplayLoop E ⊕ SplayLoop E) := do
  let root ← deref l.head.root
  match l.head.child d (.elm root) with
  | none => return .inr l
  | some tmp =>
    if further tmp then
      let s ← splayRotate d l.head tmp
      let root ← deref s.root
      let l := { l with head := s }
      if (s.child d (.elm root)).isNone then return .inr l
      else return .inl (← splayLink d l)
    else return .inl (← splayLink d l)

/-- One pass of the loop of `SPLAY`. -/
def splayPass (cmp : E → E → Int) (elm : E) (l : SplayLoop E) :
    Except Fault (SplayLoop E ⊕ SplayLoop E) := do
  let root ← deref l.head.root
  let comp := cmp elm root
  if comp < 0 then splayDescend .left (fun tmp => cmp elm tmp < 0) l
  else if comp > 0 then splayDescend .right (fun tmp => cmp elm tmp > 0) l
  else return .inr l

/-- One pass of the loop of `SPLAY_MINMAX`. -/
def minmaxPass (comp : Int) (l : SplayLoop E) : Except Fault (SplayLoop E ⊕ SplayLoop E) :=
  if comp < 0 then splayDescend .left (fun _ => comp < 0) l
  else if comp > 0 then splayDescend .right (fun _ => comp > 0) l
  else return .inl l

/-- The variables before the first pass. -/
def splayStart (s : SplayHead E) : SplayLoop E :=
  ⟨(s.setChild .right .node none).setChild .left .node none, .node, .node⟩

/-- `SPLAY`. -/
def splay (cmp : E → E → Int) (fuel : Nat) (s : SplayHead E) (elm : E) :
    Except Fault (SplayHead E) := do
  splayAssemble (← loop (splayPass cmp elm) fuel (splayStart s))

/-- `SPLAY_MINMAX`. -/
def splayMinmax (fuel : Nat) (s : SplayHead E) (comp : Int) : Except Fault (SplayHead E) := do
  splayAssemble (← loop (minmaxPass comp) fuel (splayStart s))

end Splay

section Operations

/-- Put a new root above the old one, which loses its child on the side. -/
def splayPut (d : Side) (s : SplayHead E) (elm root : E) : SplayHead E :=
  let s := s.setChild d (.elm elm) (s.child d (.elm root))
  let s := s.setChild d.opp (.elm elm) (some root)
  let s := s.setChild d (.elm root) none
  { s with root := some elm }

/-- `SPLAY_INSERT`. -/
def splayInsert (cmp : E → E → Int) (fuel : Nat) (s : SplayHead E) (elm : E) :
    Except Fault (SplayHead E × Option E) := do
  if splayEmpty s then
    let s := (s.setChild .right (.elm elm) none).setChild .left (.elm elm) none
    return ({ s with root := some elm }, none)
  else
    let s ← splay cmp fuel s elm
    let root ← deref s.root
    let comp := cmp elm root
    if comp < 0 then return (splayPut .left s elm root, none)
    else if comp > 0 then return (splayPut .right s elm root, none)
    else return (s, some root)

/-- `SPLAY_REMOVE`. -/
def splayRemove (cmp : E → E → Int) (fuel : Nat) (s : SplayHead E) (elm : E) :
    Except Fault (SplayHead E × Option E) := do
  if splayEmpty s then return (s, none)
  let s ← splay cmp fuel s elm
  let root ← deref s.root
  if cmp elm root = 0 then
    if (s.child .left (.elm root)).isNone then
      return ({ s with root := s.child .right (.elm root) }, some elm)
    else
      let tmp := s.child .right (.elm root)
      let s ← splay cmp fuel { s with root := s.child .left (.elm root) } elm
      let root ← deref s.root
      return (s.setChild .right (.elm root) tmp, some elm)
  else return (s, none)

/-- `SPLAY_FIND`. -/
def splayFind (cmp : E → E → Int) (fuel : Nat) (s : SplayHead E) (elm : E) :
    Except Fault (SplayHead E × Option E) := do
  if splayEmpty s then return (s, none)
  let s ← splay cmp fuel s elm
  let root ← deref s.root
  if cmp elm root = 0 then return (s, s.root)
  else return (s, none)

/-- One pass of the loop of `SPLAY_NEXT`. -/
def leftmostPass (s : SplayHead E) (elm : E) : Except Fault (E ⊕ E) :=
  match s.child .left (.elm elm) with
  | some left => return .inl left
  | none => return .inr elm

/-- `SPLAY_NEXT`. -/
def splayNext (cmp : E → E → Int) (fuel : Nat) (s : SplayHead E) (elm : E) :
    Except Fault (SplayHead E × Option E) := do
  let s ← splay cmp fuel s elm
  match s.child .right (.elm elm) with
  | some elm => return (s, some (← loop (leftmostPass s) fuel elm))
  | none => return (s, none)

/-- `SPLAY_MIN_MAX`. -/
def splayMinMax (fuel : Nat) (s : SplayHead E) (val : Int) :
    Except Fault (SplayHead E × Option E) := do
  let s ← splayMinmax fuel s val
  return (s, s.root)

/-- `SPLAY_NEGINF`. -/
def splayNeginf : Int := -1

/-- `SPLAY_INF`. -/
def splayInf : Int := 1

/-- `SPLAY_MIN`. -/
def splayMin (fuel : Nat) (s : SplayHead E) : Except Fault (SplayHead E × Option E) :=
  if splayEmpty s then return (s, none) else splayMinMax fuel s splayNeginf

/-- `SPLAY_MAX`. -/
def splayMax (fuel : Nat) (s : SplayHead E) : Except Fault (SplayHead E × Option E) :=
  if splayEmpty s then return (s, none) else splayMinMax fuel s splayInf

/-- The variables of `SPLAY_FOREACH`, with the elements visited. -/
structure ForeachLoop (E : Type) where
  head : SplayHead E
  var : Option E
  visited : List E

/-- One pass of `SPLAY_FOREACH`. -/
def foreachPass (cmp : E → E → Int) (fuel : Nat) (l : ForeachLoop E) :
    Except Fault (ForeachLoop E ⊕ (SplayHead E × List E)) := do
  match l.var with
  | none => return .inr (l.head, l.visited)
  | some x =>
    let (s, next) ← splayNext cmp fuel l.head x
    return .inl ⟨s, next, l.visited ++ [x]⟩

/-- `SPLAY_FOREACH`, with the elements visited. -/
def splayForeach (cmp : E → E → Int) (fuel : Nat) (s : SplayHead E) :
    Except Fault (SplayHead E × List E) := do
  let (s, min) ← splayMin fuel s
  loop (foreachPass cmp fuel) fuel ⟨s, min, []⟩

end Operations

end MacKernel.SplayTree
