import Mathlib.Logic.Function.Basic
import MacKernel.Core.Run

/-!
# Lock guards of `IOKit/graphics/tl/iolocks`

`LockGuard` over the four kinds of lock of `locking_primitives`. The functions of `IOLocks.h`
and `ml_set_interrupts_enabled` are compiled elsewhere and are a parameter: of them, only what
their headers say is assumed. A lock that is held is waited for, a recursive one by others only;
nothing is said of a lock that is released by someone who does not hold it.
-/

namespace MacKernel.LockGuard

/-- The types that `locking_primitives` is overloaded for. -/
inductive LockKind where
  /-- `IOLock`. -/
  | mutex
  /-- `IORecursiveLock`. -/
  | recursive
  /-- `IOSimpleLock`. -/
  | simple
  /-- `IOSimpleLockInterrupt`. -/
  | simpleInterrupt
  deriving DecidableEq, Repr

section Platform

variable {K C L : Type}

/-- The functions that are called, on states `K` of the kernel, by contexts `C` and on locks `L`.
Taking a lock gives `none` while the lock is waited for. -/
structure Platform (K C L : Type) where
  /-- `IOLockLock`. -/
  ioLockLock : K → C → L → Option K
  /-- `IOLockUnlock`. -/
  ioLockUnlock : K → C → L → Except Fault K
  /-- `IORecursiveLockLock`. -/
  ioRecursiveLockLock : K → C → L → Option K
  /-- `IORecursiveLockUnlock`. -/
  ioRecursiveLockUnlock : K → C → L → Except Fault K
  /-- `IOSimpleLockLock`. -/
  ioSimpleLockLock : K → C → L → Option K
  /-- `IOSimpleLockUnlock`. -/
  ioSimpleLockUnlock : K → C → L → Except Fault K
  /-- `ml_set_interrupts_enabled`. -/
  mlSetInterruptsEnabled : K → C → Bool → K × Bool

/-- What the headers speak of in a state of the kernel. -/
structure Observer (K C L : Type) where
  /-- Who holds a lock, and how often. -/
  holder : K → L → Option (C × Nat)
  interrupts : K → C → Bool

variable [DecidableEq C]

/-- How often a context has what is held so. -/
def timesHeld (c : C) : Option (C × Nat) → Nat
  | some (c', n) => if c' = c then n else 0
  | none => 0

/-- How often a context holds a lock. -/
def Observer.depth (o : Observer K C L) (k : K) (c : C) (l : L) : Nat :=
  timesHeld c (o.holder k l)

variable [DecidableEq L]

/-- What `IOLocks.h` says of a lock and its two functions: it is waited for while it is held, a
recursive one while others hold it, and whoever holds it can release it. Interrupts stay as they
are. -/
structure Observer.Locks (o : Observer K C L) (recursive : Bool) (lock : K → C → L → Option K)
    (unlock : K → C → L → Except Fault K) (l : L) : Prop where
  waits : ∀ k c, lock k c l = none ↔
    ∃ c' n, o.holder k l = some (c', n) ∧ ¬(recursive = true ∧ c' = c)
  takes : ∀ k c k', lock k c l = some k' →
    o.holder k' = Function.update (o.holder k) l (some (c, o.depth k c l + 1)) ∧
      o.interrupts k' = o.interrupts k
  releases : ∀ k c n, o.holder k l = some (c, n + 1) → ∃ k', unlock k c l = .ok k' ∧
    o.holder k' = Function.update (o.holder k) l (if n = 0 then none else some (c, n)) ∧
      o.interrupts k' = o.interrupts k

/-- What is relied on of the functions that are called. -/
structure Platform.Lawful (p : Platform K C L) (o : Observer K C L) (kind : L → LockKind) :
    Prop where
  mutex : ∀ l, kind l = .mutex → o.Locks false p.ioLockLock p.ioLockUnlock l
  recursive : ∀ l, kind l = .recursive →
    o.Locks true p.ioRecursiveLockLock p.ioRecursiveLockUnlock l
  simple : ∀ l, kind l = .simple ∨ kind l = .simpleInterrupt →
    o.Locks false p.ioSimpleLockLock p.ioSimpleLockUnlock l
  /-- `ml_set_interrupts_enabled` returns the former state. -/
  interrupts : ∀ k c enabled, (p.mlSetInterruptsEnabled k c enabled).2 = o.interrupts k c ∧
    o.interrupts (p.mlSetInterruptsEnabled k c enabled).1 =
      Function.update (o.interrupts k) c enabled ∧
    o.holder (p.mlSetInterruptsEnabled k c enabled).1 = o.holder k

end Platform

namespace Platform

variable {K C L : Type} (p : Platform K C L) (kind : L → LockKind) (k : K) (c : C) (l : L)

/-- `IOSimpleLockLockDisableInterrupt`; interrupts are off while the lock is waited for. -/
def ioSimpleLockLockDisableInterrupt : Option (K × Bool) := do
  let (k, state) := p.mlSetInterruptsEnabled k c false
  let k ← p.ioSimpleLockLock k c l
  return (k, state)

/-- `IOSimpleLockUnlockEnableInterrupt`. -/
def ioSimpleLockUnlockEnableInterrupt (state : Bool) : Except Fault K := do
  let k ← p.ioSimpleLockUnlock k c l
  return (p.mlSetInterruptsEnabled k c state).1

/-- `locking_primitives::lock`, with the interrupt state that it returns. -/
def lock : Option (K × Bool) :=
  match kind l with
  | .mutex => do
    let k ← p.ioLockLock k c l
    return (k, false)
  | .recursive => do
    let k ← p.ioRecursiveLockLock k c l
    return (k, false)
  | .simple => do
    let k ← p.ioSimpleLockLock k c l
    return (k, false)
  | .simpleInterrupt => p.ioSimpleLockLockDisableInterrupt k c l

/-- `locking_primitives::unlock`. -/
def unlock (state : Bool) : Except Fault K :=
  match kind l with
  | .mutex => p.ioLockUnlock k c l
  | .recursive => p.ioRecursiveLockUnlock k c l
  | .simple => p.ioSimpleLockUnlock k c l
  | .simpleInterrupt => p.ioSimpleLockUnlockEnableInterrupt k c l state

end Platform

/-- A `LockGuard`. -/
structure Guard (L : Type) where
  /-- `fLock`. -/
  lock : Option L
  /-- `fMostlyUnusedInterruptState`. -/
  state : Bool
  deriving DecidableEq, Repr

/-- A kernel, and contexts `C` with guard objects `G` of their own. -/
structure System (K C G L : Type) where
  machine : K
  /-- The guards that were constructed and not destroyed. -/
  guards : C → G → Option (Guard L)

/-- What a context does with its guards. -/
inductive Act (G L : Type) where
  /-- `LockGuard(_L* lock)`. -/
  | construct (g : G) (l : L)
  /-- `LockGuard(LockGuard&& other)`. -/
  | move (g other : G)
  /-- `~LockGuard()`. -/
  | destroy (g : G)

namespace System

variable {K C G L : Type} [DecidableEq C] [DecidableEq G] (p : Platform K C L)
variable (kind : L → LockKind) (s : System K C G L)

/-- Store a guard. -/
def setGuard (c : C) (g : G) (guard : Option (Guard L)) : System K C G L :=
  { s with guards := Function.update s.guards c (Function.update (s.guards c) g guard) }

/-- One action of a context; `none` while it waits. -/
def step (c : C) : Act G L → Except Fault (Option (System K C G L))
  | .construct g l =>
    match p.lock kind s.machine c l with
    | some (k, state) => return some ({ s with machine := k }.setGuard c g (some ⟨some l, state⟩))
    | none => return none
  | .move g other => do
    let o ← deref (s.guards c other)
    -- the interrupt state has its initial value
    let s := s.setGuard c g (some ⟨o.lock, false⟩)
    return some (s.setGuard c other (some { o with lock := none }))
  | .destroy g => do
    let d ← deref (s.guards c g)
    let k ← match d.lock with
      | some l => p.unlock kind s.machine c l d.state
      | none => .ok s.machine
    return some ({ s with machine := k }.setGuard c g none)

/-- Objects are constructed once and are there when they are used. -/
def Legal (c : C) : Act G L → Prop
  | .construct g _ => s.guards c g = none
  | .move g other => s.guards c g = none ∧ (s.guards c other).isSome
  | .destroy g => (s.guards c g).isSome

/-- An action of some context that does not wait. -/
def Step (s : System K C G L) (a : C × Act G L) (t : System K C G L) : Prop :=
  s.Legal a.1 a.2 ∧ s.step p kind a.1 a.2 = .ok (some t)

/-- The context holds the lock, as `assertLocked` asserts. -/
def Locked (o : Observer K C L) (c : C) (l : L) : Prop :=
  ∃ n, o.holder s.machine l = some (c, n)

end System

end MacKernel.LockGuard
