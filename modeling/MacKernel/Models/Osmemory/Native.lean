import Mathlib.Logic.Function.Basic

/-!
# Shared and weak handles of `IOKit/graphics/tl/osmemory`

`_OSSharedWeakCounter` only declares its counter methods, so they are a parameter,
with the usual counting of shared and weak pointers as laws about it. A handle is a
control block and a typed pointer, and both may be null. Handles may lie inside
managed objects; releasing the last shared handle of an object runs the destructors
of the handles inside it.
-/

namespace MacKernel.Osmemory

/-- What goes wrong when handles are misused. -/
inductive Misuse where
  /-- A handle inside a destroyed object was read or written. -/
  | destroyed
  /-- A method of a control block was called after the last matching release. -/
  | overRelease
  /-- The destructors were still running when their fuel ended. -/
  | diverged
  deriving DecidableEq, Repr

/-- The counter methods of `_OSSharedWeakCounter` on the state of a control block. A release
tells whether it releases the object and whether it deletes the control block. -/
structure CounterOps (K : Type) where
  /-- `_OSSharedWeakCounter(OSObject* obj)`. -/
  new : K
  /-- `retain_shared`. -/
  retainShared : K → K × Bool
  /-- `release_shared`: the new state, whether the object is released, whether the control
  block is deleted. -/
  releaseShared : K → K × Bool × Bool
  /-- `count_shared`. -/
  countShared : K → Nat
  /-- `retain_weak`. -/
  retainWeak : K → K
  /-- `release_weak`: the new state, and whether the control block is deleted. -/
  releaseWeak : K → K × Bool
  /-- The weak handles counted in `fWeakCount`. -/
  countWeak : K → Nat

/-- The usual counting: shared handles keep the object, shared and weak handles keep the
control block, and an object without shared handles cannot be retained again. -/
structure CounterOps.Standard {K : Type} (ops : CounterOps K) : Prop where
  new_shared : ops.countShared ops.new = 1
  new_weak : ops.countWeak ops.new = 0
  retainShared_zero : ∀ k, ops.countShared k = 0 → ops.retainShared k = (k, false)
  retainShared_pos : ∀ k, ops.countShared k ≠ 0 → (ops.retainShared k).2 = true ∧
    ops.countShared (ops.retainShared k).1 = ops.countShared k + 1 ∧
    ops.countWeak (ops.retainShared k).1 = ops.countWeak k
  releaseShared : ∀ k, ops.countShared k ≠ 0 →
    ops.countShared (ops.releaseShared k).1 + 1 = ops.countShared k ∧
    ops.countWeak (ops.releaseShared k).1 = ops.countWeak k ∧
    ((ops.releaseShared k).2.1 = true ↔ ops.countShared k = 1) ∧
    ((ops.releaseShared k).2.2 = true ↔ ops.countShared k = 1 ∧ ops.countWeak k = 0)
  retainWeak : ∀ k, ops.countShared (ops.retainWeak k) = ops.countShared k ∧
    ops.countWeak (ops.retainWeak k) = ops.countWeak k + 1
  releaseWeak : ∀ k, ops.countWeak k ≠ 0 →
    ops.countShared (ops.releaseWeak k).1 = ops.countShared k ∧
    ops.countWeak (ops.releaseWeak k).1 + 1 = ops.countWeak k ∧
    ((ops.releaseWeak k).2 = true ↔ ops.countWeak k = 1 ∧ ops.countShared k = 0)

/-- The two counts themselves, as numbers. -/
def pairOps : CounterOps (Nat × Nat) where
  new := (1, 0)
  retainShared k := if k.1 = 0 then (k, false) else ((k.1 + 1, k.2), true)
  releaseShared k := ((k.1 - 1, k.2), k.1 = 1, k.1 = 1 ∧ k.2 = 0)
  countShared k := k.1
  retainWeak k := (k.1, k.2 + 1)
  releaseWeak k := ((k.1, k.2 - 1), k.2 = 1 ∧ k.1 = 0)
  countWeak k := k.2

theorem pairOps_standard : pairOps.Standard where
  new_shared := rfl
  new_weak := rfl
  retainShared_zero k hk := if_pos hk
  retainShared_pos k hk := by
    have hpos : k.1 ≠ 0 := hk
    simp [pairOps, hpos]
  releaseShared k hk := by
    refine ⟨Nat.sub_add_cancel (Nat.pos_of_ne_zero hk), rfl, ?_, ?_⟩
    · simp [pairOps]
    · simp [pairOps]
  retainWeak k := ⟨rfl, rfl⟩
  releaseWeak k hk := by
    refine ⟨rfl, Nat.sub_add_cancel (Nat.pos_of_ne_zero hk), ?_⟩
    simp [pairOps]

/-- An `OSSharedObject` or an `OSWeakObject`: `fControl` and `fTypedObj`. -/
@[ext] structure Handle (C A : Type) where
  control : Option C
  typedObj : Option A
  deriving DecidableEq

/-- `impl_zero`. -/
def Handle.zero {C A : Type} : Handle C A := ⟨none, none⟩

section Heap

variable {H C A K : Type} [DecidableEq H] [DecidableEq C]

/-- The handles inside each managed object, in the order of their destruction. The object is
named by its control block; a handle is inside at most one object. -/
structure Layout (H C : Type) where
  fields : C → List H
  home : H → Option C
  mem_fields : ∀ h c, h ∈ fields c ↔ home h = some c

/-- Handles, control blocks, and the objects that have been destroyed. -/
structure Heap (H C A K : Type) where
  handle : H → Handle C A
  ctrl : C → K
  dead : C → Bool

/-- Store into a handle. -/
def Heap.set (s : Heap H C A K) (h : H) (v : Handle C A) : Heap H C A K :=
  { s with handle := Function.update s.handle h v }

omit [DecidableEq C] in
@[simp] theorem Heap.handle_set_self (s : Heap H C A K) (h : H) (v : Handle C A) :
    (s.set h v).handle h = v := Function.update_self ..

omit [DecidableEq C] in
theorem Heap.handle_set_of_ne (s : Heap H C A K) {h h' : H} (hne : h' ≠ h) (v : Handle C A) :
    (s.set h v).handle h' = s.handle h' := Function.update_of_ne hne ..

/-- Store into a control block. -/
def Heap.setCtrl (s : Heap H C A K) (c : C) (k : K) : Heap H C A K :=
  { s with ctrl := Function.update s.ctrl c k }

/-- The memory of an object is gone. -/
def Heap.kill (s : Heap H C A K) (c : C) : Heap H C A K :=
  { s with dead := Function.update s.dead c true }

/-- Whether a handle lies inside a destroyed object. -/
def Heap.gone (lay : Layout H C) (s : Heap H C A K) (h : H) : Bool :=
  match lay.home h with
  | none => false
  | some c => s.dead c

/-- Read a handle. -/
def Heap.read (lay : Layout H C) (s : Heap H C A K) (h : H) :
    Except Misuse (Handle C A) :=
  if s.gone lay h then .error .destroyed else .ok (s.handle h)

/-- Write a handle. -/
def Heap.write (lay : Layout H C) (s : Heap H C A K) (h : H) (v : Handle C A) :
    Except Misuse (Heap H C A K) :=
  if s.gone lay h then .error .destroyed else .ok (s.set h v)

/-- Release the control block of a handle, if it has one. -/
def releaseHandle (rel : C → Heap H C A K → Except Misuse (Heap H C A K)) (h : H)
    (s : Heap H C A K) : Except Misuse (Heap H C A K) :=
  match (s.handle h).control with
  | none => .ok s
  | some c => rel c s

/-- `~OSSharedObject` of some handles: each releases its control block and is zeroed. -/
def destroyFields (rel : C → Heap H C A K → Except Misuse (Heap H C A K)) :
    List H → Heap H C A K → Except Misuse (Heap H C A K)
  | [], s => .ok s
  | h :: hs, s => do
    let s ← releaseHandle rel h s
    destroyFields rel hs (s.set h .zero)

/-- `release_shared` of a control block, with the destructors of the handles inside the
object if it is released. -/
def releaseShared (ops : CounterOps K) (lay : Layout H C) :
    Nat → C → Heap H C A K → Except Misuse (Heap H C A K)
  | 0, _, _ => .error .diverged
  | fuel + 1, c, s =>
    if ops.countShared (s.ctrl c) = 0 then .error .overRelease
    else
      let (k, released, _) := ops.releaseShared (s.ctrl c)
      let s := s.setCtrl c k
      if released then do
        let s ← destroyFields (releaseShared ops lay fuel) (lay.fields c) s
        return s.kill c
      else .ok s

/-- `impl_saferelease`. -/
def implSaferelease (ops : CounterOps K) (lay : Layout H C) (fuel : Nat) (h : H)
    (s : Heap H C A K) : Except Misuse (Heap H C A K) := do
  let _ ← s.read lay h
  releaseHandle (releaseShared ops lay fuel) h s

/-- `impl_setme`. -/
def implSetme (lay : Layout H C) (h other : H) (s : Heap H C A K) :
    Except Misuse (Heap H C A K) := do
  let v ← s.read lay other
  s.write lay h v

/-- `impl_saferetain`. -/
def implSaferetain (ops : CounterOps K) (lay : Layout H C) (h : H) (s : Heap H C A K) :
    Except Misuse (Heap H C A K) := do
  let v ← s.read lay h
  match v.control with
  | none => return s
  | some c => return s.setCtrl c (ops.retainShared (s.ctrl c)).1

/-- `operator=(const OSSharedObject& other)`. -/
def copyAssign (ops : CounterOps K) (lay : Layout H C) (fuel : Nat) (this other : H)
    (s : Heap H C A K) : Except Misuse (Heap H C A K) :=
  if this = other then .ok s
  else do
    let s ← implSaferelease ops lay fuel this s
    let s ← implSetme lay this other s
    implSaferetain ops lay this s

/-- `operator=(OSSharedObject&& other)`. -/
def moveAssign (ops : CounterOps K) (lay : Layout H C) (fuel : Nat) (this other : H)
    (s : Heap H C A K) : Except Misuse (Heap H C A K) :=
  if this = other then .ok s
  else do
    let s ← implSaferelease ops lay fuel this s
    let s ← implSetme lay this other s
    s.write lay other .zero

end Heap

end MacKernel.Osmemory
