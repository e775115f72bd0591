import Mathlib.Data.BitVec
import Mathlib.Logic.Function.Basic
import MacKernel.Core.Run
import MacKernel.Core.Tree

/-!
# The red-black trees of `libkern/tree.h`

The functions that `RB_GENERATE` and `RB_GENERATE_PREV` define, over the entries of
memory and the head of one tree. The colour of a node is the low bit of its parent
word. Reading or writing through a null pointer is a fault. Code that exists in two
mirror images is written once for a side, and each image is that code at its side.
`RB_AUGMENT` is a parameter that recomputes the field it maintains from memory.
-/

namespace MacKernel.RedBlack

/-- `RB_BLACK` and `RB_RED`. -/
inductive Color where
  | black
  | red
  deriving DecidableEq, Repr

/-- The bit that a colour is stored as. -/
def Color.bits {w : Nat} : Color → BitVec w
  | .black => 0
  | .red => 1

/-- `RB_COLOR_MASK`. -/
def rbColorMask {w : Nat} : BitVec w := 1

/-- `RB_ENTRY`. -/
@[ext] structure RbEntry (w : Nat) where
  /-- `rbe_left`. -/
  left : BitVec w
  /-- `rbe_right`. -/
  right : BitVec w
  /-- `rbe_parent`, with the colour in its low bit. -/
  parent : BitVec w
  deriving DecidableEq, Repr, Inhabited

/-- `RB_LEFT` or `RB_RIGHT`. -/
def RbEntry.child {w : Nat} (d : Side) (e : RbEntry w) : BitVec w :=
  match d with
  | .left => e.left
  | .right => e.right

/-- Assign to `RB_LEFT` or `RB_RIGHT`. -/
def RbEntry.setChild {w : Nat} (d : Side) (e : RbEntry w) (a : BitVec w) : RbEntry w :=
  match d with
  | .left => { e with left := a }
  | .right => { e with right := a }

/-- `RB_HEAD` with the entries of memory and the field that `RB_AUGMENT` maintains. -/
structure RbHead (A : Type) (w : Nat) where
  /-- `rbh_root`. -/
  root : BitVec w
  field : BitVec w → RbEntry w
  aug : BitVec w → A

variable {A : Type} {w : Nat}

/-- `RB_INIT`. -/
def rbInit (s : RbHead A w) : RbHead A w := { s with root := 0 }

/-- No walk along the links of a tree is longer than the address space. -/
def walkFuel (w : Nat) : Nat := 2 ^ w + 1

section Access

/-- Dereference a node pointer. -/
def RbHead.load (s : RbHead A w) (elm : BitVec w) : Except Fault (RbEntry w) :=
  if elm = 0 then .error .nullDeref else .ok (s.field elm)

/-- Assign to a field of the entry of a node. -/
def RbHead.modify (s : RbHead A w) (elm : BitVec w) (f : RbEntry w → RbEntry w) :
    Except Fault (RbHead A w) :=
  if elm = 0 then .error .nullDeref
  else .ok { s with field := Function.update s.field elm (f (s.field elm)) }

/-- Read `RB_LEFT` or `RB_RIGHT`. -/
def rbChild (s : RbHead A w) (d : Side) (elm : BitVec w) : Except Fault (BitVec w) := do
  return (← s.load elm).child d

/-- Write `RB_LEFT` or `RB_RIGHT`. -/
def rbSetChild (s : RbHead A w) (d : Side) (elm a : BitVec w) : Except Fault (RbHead A w) :=
  s.modify elm (·.setChild d a)

/-- `RB_GETPARENT`. -/
def rbGetparent (s : RbHead A w) (elm : BitVec w) : Except Fault (BitVec w) := do
  let parent := (← s.load elm).parent
  if parent ≠ 0 then
    let parent := parent &&& ~~~rbColorMask
    return if parent = 0 then 0 else parent
  else return 0

/-- `RB_GETCOLOR`. -/
def rbGetcolor (s : RbHead A w) (elm : BitVec w) : Except Fault Color := do
  return if (← s.load elm).parent &&& rbColorMask = 0 then .black else .red

/-- `RB_SETCOLOR`; the placeholder for a null parent is null. -/
def rbSetcolor (s : RbHead A w) (elm : BitVec w) (color : Color) :
    Except Fault (RbHead A w) := do
  let parent ← rbGetparent s elm
  s.modify elm fun e => { e with parent := parent ||| color.bits }

/-- `RB_SETPARENT`. -/
def rbSetparent (s : RbHead A w) (elm parent : BitVec w) :
    Except Fault (RbHead A w × BitVec w) := do
  let color ← rbGetcolor s elm
  let s ← s.modify elm fun e => { e with parent := parent }
  let s ← if color = .red then rbSetcolor s elm color else pure s
  return (s, ← rbGetparent s elm)

/-- `RB_SET`. -/
def rbSet (s : RbHead A w) (elm parent : BitVec w) : Except Fault (RbHead A w) := do
  let (s, _) ← rbSetparent s elm parent
  let s ← s.modify elm fun e => { e with left := 0, right := 0 }
  rbSetcolor s elm .red

/-- `RB_SET_BLACKRED`. -/
def rbSetBlackred (s : RbHead A w) (black red : BitVec w) : Except Fault (RbHead A w) := do
  let s ← rbSetcolor s black .black
  rbSetcolor s red .red

/-- A pointer is null or leads to a black node. -/
def rbBlackOrNull (s : RbHead A w) (elm : BitVec w) : Except Fault Bool := do
  if elm = 0 then return true else return (← rbGetcolor s elm) = .black

/-- `RB_SETPARENT` unless the pointer is null. -/
def rbAdopt (s : RbHead A w) (child parent : BitVec w) : Except Fault (RbHead A w) :=
  if child ≠ 0 then Prod.fst <$> rbSetparent s child parent else return s

/-- `RB_SETCOLOR` to black unless the pointer is null. -/
def rbBlacken (s : RbHead A w) (elm : BitVec w) : Except Fault (RbHead A w) :=
  if elm ≠ 0 then rbSetcolor s elm .black else return s

/-- Make the child pointer of `parent` that led to `old`, or else the other one, lead to
`new`. -/
def rbReplaceChild (s : RbHead A w) (parent old new : BitVec w) : Except Fault (RbHead A w) := do
  if (← rbChild s .left parent) = old then rbSetChild s .left parent new
  else rbSetChild s .right parent new

/-- Put `new` into the place of `old` below `parent`, or at the root if there is none. -/
def rbRelink (s : RbHead A w) (parent old new : BitVec w) : Except Fault (RbHead A w) :=
  if parent ≠ 0 then rbReplaceChild s parent old new else return { s with root := new }

/-- What `RB_AUGMENT` computes for a node. -/
abbrev Augment (A : Type) (w : Nat) := RbHead A w → BitVec w → A

/-- `RB_AUGMENT`. -/
def rbAugment (augment : Augment A w) (s : RbHead A w) (elm : BitVec w) : RbHead A w :=
  { s with aug := Function.update s.aug elm (augment s elm) }

/-- `RB_AUGMENT` unless the pointer is null. -/
def rbAugmentAbove (augment : Augment A w) (s : RbHead A w) (elm : BitVec w) : RbHead A w :=
  if elm ≠ 0 then rbAugment augment s elm else s

end Access

section Rebalance

variable (augment : Augment A w)

/-- Rotate `elm` towards side `d`; returns the node that takes its place. -/
def rbRotate (d : Side) (s : RbHead A w) (elm : BitVec w) :
    Except Fault (RbHead A w × BitVec w) := do
  let tmp ← rbChild s d.opp elm
  let inner ← rbChild s d tmp
  let s ← rbSetChild s d.opp elm inner
  let s ← rbAdopt s inner elm
  let s := rbAugment augment s elm
  let parent ← rbGetparent s elm
  let (s, parent) ← rbSetparent s tmp parent
  let s ← rbRelink s parent elm tmp
  let s ← rbSetChild s d tmp elm
  let (s, _) ← rbSetparent s elm tmp
  let s := rbAugment augment s tmp
  let parent ← rbGetparent s tmp
  return (rbAugmentAbove augment s parent, tmp)

/-- `RB_ROTATE_LEFT`. -/
def rbRotateLeft : RbHead A w → BitVec w → Except Fault (RbHead A w × BitVec w) :=
  rbRotate augment .left

/-- `RB_ROTATE_RIGHT`. -/
def rbRotateRight : RbHead A w → BitVec w → Except Fault (RbHead A w × BitVec w) :=
  rbRotate augment .right

/-- The body of the loop of `RB_INSERT_COLOR` when `parent` is the child of `gparent` on
side `d`; returns the node to go on with. -/
def rbInsertColorAt (d : Side) (s : RbHead A w) (elm parent gparent : BitVec w) :
    Except Fault (RbHead A w × BitVec w) := do
  let tmp ← rbChild s d.opp gparent
  if tmp ≠ 0 ∧ (← rbBlackOrNull s tmp) = false then
    let s ← rbSetcolor s tmp .black
    let s ← rbSetBlackred s parent gparent
    return (s, gparent)
  else
    let (s, parent, elm) ← if (← rbChild s d.opp parent) = elm then do
        let (s, _) ← rbRotate augment d s parent
        pure (s, elm, parent)
      else pure (s, parent, elm)
    let s ← rbSetBlackred s parent gparent
    let (s, _) ← rbRotate augment d.opp s gparent
    return (s, elm)

/-- One pass of the loop of `RB_INSERT_COLOR`. -/
def rbInsertColorBody (p : RbHead A w × BitVec w) :
    Except Fault ((RbHead A w × BitVec w) ⊕ RbHead A w) := do
  let (s, elm) := p
  let parent ← rbGetparent s elm
  if parent ≠ 0 ∧ (← rbBlackOrNull s parent) = false then
    let gparent ← rbGetparent s parent
    if parent = (← rbChild s .left gparent) then
      return .inl (← rbInsertColorAt augment .left s elm parent gparent)
    else return .inl (← rbInsertColorAt augment .right s elm parent gparent)
  else return .inr s

/-- `RB_INSERT_COLOR`. -/
def rbInsertColor (s : RbHead A w) (elm : BitVec w) : Except Fault (RbHead A w) := do
  let s ← loop (rbInsertColorBody augment) (walkFuel w) (s, elm)
  rbSetcolor s s.root .black

/-- The end of the loop of `RB_REMOVE_COLOR`: the sibling `tmp` has a red child on its outer
side and takes the place of `parent`. -/
def rbRemoveColorLast (d : Side) (s : RbHead A w) (parent tmp : BitVec w) :
    Except Fault (RbHead A w) := do
  let s ← rbSetcolor s tmp (← rbGetcolor s parent)
  let s ← rbSetcolor s parent .black
  let outer ← rbChild s d.opp tmp
  let s ← rbBlacken s outer
  let (s, _) ← rbRotate augment d s parent
  return s

/-- The body of the loop of `RB_REMOVE_COLOR` once the sibling `tmp` is black. -/
def rbRemoveColorBlack (d : Side) (s : RbHead A w) (parent tmp : BitVec w) :
    Except Fault ((RbHead A w × BitVec w × BitVec w) ⊕ (RbHead A w × BitVec w)) := do
  if (← rbBlackOrNull s (← rbChild s .left tmp)) = true ∧
      (← rbBlackOrNull s (← rbChild s .right tmp)) = true then
    let s ← rbSetcolor s tmp .red
    return .inl (s, ← rbGetparent s parent, parent)
  else
    let (s, tmp) ← if (← rbBlackOrNull s (← rbChild s d.opp tmp)) = true then do
        let inner ← rbChild s d tmp
        let s ← rbBlacken s inner
        let s ← rbSetcolor s tmp .red
        let (s, _) ← rbRotate augment d.opp s tmp
        pure (s, ← rbChild s d.opp parent)
      else pure (s, tmp)
    let s ← rbRemoveColorLast augment d s parent tmp
    return .inr (s, s.root)

/-- The body of the loop of `RB_REMOVE_COLOR` when `elm` is the child of `parent` on side
`d`; returns the nodes to go on with, or the state in which the loop is left. -/
def rbRemoveColorAt (d : Side) (s : RbHead A w) (parent : BitVec w) :
    Except Fault ((RbHead A w × BitVec w × BitVec w) ⊕ (RbHead A w × BitVec w)) := do
  let tmp ← rbChild s d.opp parent
  let (s, tmp) ← if (← rbGetcolor s tmp) = .red then do
      let s ← rbSetBlackred s tmp parent
      let (s, _) ← rbRotate augment d s parent
      pure (s, ← rbChild s d.opp parent)
    else pure (s, tmp)
  rbRemoveColorBlack augment d s parent tmp

/-- One pass of the loop of `RB_REMOVE_COLOR`, on the state, `parent` and `elm`. -/
def rbRemoveColorBody (p : RbHead A w × BitVec w × BitVec w) :
    Except Fault ((RbHead A w × BitVec w × BitVec w) ⊕ (RbHead A w × BitVec w)) := do
  let (s, parent, elm) := p
  if (← rbBlackOrNull s elm) = true ∧ elm ≠ s.root then
    if (← rbChild s .left parent) = elm then rbRemoveColorAt augment .left s parent
    else rbRemoveColorAt augment .right s parent
  else return .inr (s, elm)

/-- `RB_REMOVE_COLOR`. -/
def rbRemoveColor (s : RbHead A w) (parent elm : BitVec w) : Except Fault (RbHead A w) := do
  let (s, elm) ← loop (rbRemoveColorBody augment) (walkFuel w) (s, parent, elm)
  rbBlacken s elm

end Rebalance

section Descend

/-- One pass of a loop that follows the links on one side as far as they go. -/
def rbFarthestBody (d : Side) (s : RbHead A w) (elm : BitVec w) :
    Except Fault (BitVec w ⊕ BitVec w) := do
  let next ← rbChild s d elm
  if next ≠ 0 then return .inl next else return .inr elm

/-- Follow the links on side `d` as far as they go. -/
def rbFarthest (d : Side) (s : RbHead A w) (elm : BitVec w) : Except Fault (BitVec w) :=
  loop (rbFarthestBody d s) (walkFuel w) elm

end Descend

section Operations

variable (augment : Augment A w)

/-- Put `child` into the place of `elm`: the code before the label `color` in
`RB_REMOVE`, and its copy for a successor. -/
def rbUnlink (s : RbHead A w) (elm child parent : BitVec w) : Except Fault (RbHead A w) := do
  let s ← rbAdopt s child parent
  let s ← rbRelink s parent elm child
  return rbAugmentAbove augment s parent

/-- One pass of the loop that augments a node and all its ancestors. -/
def rbAugmentUpBody (p : RbHead A w × BitVec w) :
    Except Fault ((RbHead A w × BitVec w) ⊕ RbHead A w) := do
  let s := rbAugment augment p.1 p.2
  let left ← rbGetparent s p.2
  if left ≠ 0 then return .inl (s, left) else return .inr s

/-- The successor `elm` of `old` takes over the place of `old`. -/
def rbTakePlace (s : RbHead A w) (old elm : BitVec w) : Except Fault (RbHead A w) := do
  let e ← s.load old
  let s ← s.modify elm fun _ => e
  let above ← rbGetparent s old
  let s ← rbRelink s above old elm
  let s := rbAugmentAbove augment s above
  let (s, _) ← rbSetparent s (← rbChild s .left old) elm
  rbAdopt s (← rbChild s .right old) elm

/-- The code at the label `color` of `RB_REMOVE`. -/
def rbRestore (s : RbHead A w) (parent child : BitVec w) (color : Color) :
    Except Fault (RbHead A w) :=
  if color = .black then rbRemoveColor augment s parent child else return s

/-- `RB_REMOVE`. -/
def rbRemove (s : RbHead A w) (elm : BitVec w) : Except Fault (RbHead A w × BitVec w) := do
  let old := elm
  let left ← rbChild s .left elm
  let right ← rbChild s .right elm
  let (s, parent, child, color) ← if left = 0 ∨ right = 0 then do
      let child := if left = 0 then right else left
      let parent ← rbGetparent s elm
      let color ← rbGetcolor s elm
      let s ← rbUnlink augment s elm child parent
      pure (s, parent, child, color)
    else do
      let elm ← rbFarthest .left s right
      let child ← rbChild s .right elm
      let parent ← rbGetparent s elm
      let color ← rbGetcolor s elm
      let s ← rbUnlink augment s elm child parent
      let parent := if (← rbGetparent s elm) = old then elm else parent
      let s ← rbTakePlace augment s old elm
      let s ← if parent ≠ 0 then loop (rbAugmentUpBody augment) (walkFuel w) (s, parent)
        else pure s
      pure (s, parent, child, color)
  let s ← rbRestore augment s parent child color
  return (s, old)

variable (cmp : BitVec w → BitVec w → Int)

/-- One pass of the search loop of `RB_INSERT`, on `parent`, `comp` and `tmp`: it goes on
below, ends at an equal element, or ends at the place for a new one. -/
def rbInsertBody (s : RbHead A w) (elm : BitVec w) (p : BitVec w × Int × BitVec w) :
    Except Fault ((BitVec w × Int × BitVec w) ⊕ (BitVec w ⊕ (BitVec w × Int))) := do
  let (parent, comp, tmp) := p
  if tmp ≠ 0 then
    let parent := tmp
    let comp := cmp elm parent
    if comp < 0 then return .inl (parent, comp, ← rbChild s .left tmp)
    else if comp > 0 then return .inl (parent, comp, ← rbChild s .right tmp)
    else return .inr (.inl tmp)
  else return .inr (.inr (parent, comp))

/-- `RB_INSERT`; returns null when the element was inserted and else the equal element. -/
def rbInsert (s : RbHead A w) (elm : BitVec w) : Except Fault (RbHead A w × BitVec w) := do
  match ← loop (rbInsertBody cmp s elm) (walkFuel w) (0, 0, s.root) with
  | .inl tmp => return (s, tmp)
  | .inr (parent, comp) =>
    let s ← rbSet s elm parent
    let s ← if parent ≠ 0 then do
        let s ← rbSetChild s (if comp < 0 then .left else .right) parent elm
        pure (rbAugment augment s parent)
      else pure { s with root := elm }
    let s ← rbInsertColor augment s elm
    return (s, 0)

end Operations

section Navigation

variable (cmp : BitVec w → BitVec w → Int)

/-- One pass of the loops of `RB_FIND` and `RB_NFIND`, on `res` and `tmp`. -/
def rbSearchBody (s : RbHead A w) (elm : BitVec w) (p : BitVec w × BitVec w) :
    Except Fault ((BitVec w × BitVec w) ⊕ (BitVec w × BitVec w)) := do
  let (res, tmp) := p
  if tmp ≠ 0 then
    let comp := cmp elm tmp
    if comp < 0 then return .inl (tmp, ← rbChild s .left tmp)
    else if comp > 0 then return .inl (res, ← rbChild s .right tmp)
    else return .inr (res, tmp)
  else return .inr (res, tmp)

/-- `RB_FIND`. -/
def rbFind (s : RbHead A w) (elm : BitVec w) : Except Fault (BitVec w) := do
  let (_, tmp) ← loop (rbSearchBody cmp s elm) (walkFuel w) (0, s.root)
  return tmp

/-- `RB_NFIND`. -/
def rbNfind (s : RbHead A w) (elm : BitVec w) : Except Fault (BitVec w) := do
  let (res, tmp) ← loop (rbSearchBody cmp s elm) (walkFuel w) (0, s.root)
  return if tmp ≠ 0 then tmp else res

/-- The test whether a node is the child on side `d` of its parent. -/
def rbIsChild (d : Side) (s : RbHead A w) (elm parent : BitVec w) : Except Fault Bool := do
  if parent ≠ 0 then return elm = (← rbChild s d parent) else return false

/-- One pass of the climbing loop of `RB_NEXT` and `RB_PREV`: while `elm` is the child on
side `d` of its parent. -/
def rbClimbBody (d : Side) (s : RbHead A w) (elm : BitVec w) :
    Except Fault (BitVec w ⊕ BitVec w) := do
  let parent ← rbGetparent s elm
  if ← rbIsChild d s elm parent then return .inl parent else return .inr parent

/-- The neighbour of a node in the direction of side `d`. -/
def rbNeighbor (d : Side) (s : RbHead A w) (elm : BitVec w) : Except Fault (BitVec w) := do
  let inner ← rbChild s d elm
  if inner ≠ 0 then rbFarthest d.opp s inner
  else
    let parent ← rbGetparent s elm
    if ← rbIsChild d.opp s elm parent then return parent
    else loop (rbClimbBody d s) (walkFuel w) elm

/-- `RB_NEXT`. -/
def rbNext : RbHead A w → BitVec w → Except Fault (BitVec w) := rbNeighbor .right

/-- `RB_PREV`. -/
def rbPrev : RbHead A w → BitVec w → Except Fault (BitVec w) := rbNeighbor .left

/-- One pass of the loop of `RB_MINMAX`, on `parent` and `tmp`. -/
def rbMinmaxBody (d : Side) (s : RbHead A w) (p : BitVec w × BitVec w) :
    Except Fault ((BitVec w × BitVec w) ⊕ BitVec w) := do
  let (parent, tmp) := p
  if tmp ≠ 0 then return .inl (tmp, ← rbChild s d tmp) else return .inr parent

/-- `RB_MINMAX` towards side `d`. -/
def rbMinmax (d : Side) (s : RbHead A w) : Except Fault (BitVec w) :=
  loop (rbMinmaxBody d s) (walkFuel w) (0, s.root)

/-- `RB_MIN`. -/
def rbMin : RbHead A w → Except Fault (BitVec w) := rbMinmax .left

/-- `RB_MAX`. -/
def rbMax : RbHead A w → Except Fault (BitVec w) := rbMinmax .right

end Navigation

section Iteration

variable (body : RbHead A w → BitVec w → Except Fault (RbHead A w))

/-- One pass of `RB_FOREACH` with its body, on the head, `x` and the elements visited so far:
the next element is looked up after the body has run. -/
def rbForeachBody (p : RbHead A w × BitVec w × List (BitVec w)) :
    Except Fault ((RbHead A w × BitVec w × List (BitVec w)) ⊕
      (RbHead A w × List (BitVec w))) := do
  let (s, x, visited) := p
  if x ≠ 0 then
    let s ← body s x
    return .inl (s, ← rbNext s x, visited ++ [x])
  else return .inr (s, visited)

/-- `RB_FOREACH`. -/
def rbForeach (s : RbHead A w) : Except Fault (RbHead A w × List (BitVec w)) := do
  loop (rbForeachBody body) (walkFuel w) (s, ← rbMin s, [])

/-- One pass of the loops that look up the next element, in the direction of side `d`, before
their body runs. -/
def rbForeachSafeBody (d : Side) (p : RbHead A w × BitVec w × List (BitVec w)) :
    Except Fault ((RbHead A w × BitVec w × List (BitVec w)) ⊕
      (RbHead A w × List (BitVec w))) := do
  let (s, x, visited) := p
  if x ≠ 0 then
    let y ← rbNeighbor d s x
    let s ← body s x
    return .inl (s, y, visited ++ [x])
  else return .inr (s, visited)

/-- `RB_FOREACH_SAFE`. -/
def rbForeachSafe (s : RbHead A w) : Except Fault (RbHead A w × List (BitVec w)) := do
  loop (rbForeachSafeBody body .right) (walkFuel w) (s, ← rbMin s, [])

/-- `RB_FOREACH_FROM`. -/
def rbForeachFrom (s : RbHead A w) (y : BitVec w) :
    Except Fault (RbHead A w × List (BitVec w)) :=
  loop (rbForeachSafeBody body .right) (walkFuel w) (s, y, [])

/-- `RB_FOREACH_REVERSE_FROM`. -/
def rbForeachReverseFrom (s : RbHead A w) (y : BitVec w) :
    Except Fault (RbHead A w × List (BitVec w)) :=
  loop (rbForeachSafeBody body .left) (walkFuel w) (s, y, [])

end Iteration

end MacKernel.RedBlack
