import MacKernel.Core.AtomicObject
import MacKernel.Core.IntegerType

/-!
# Atomic operations of `machine/atomic.h`

Threads use one variable through the macros. The instructions behind them are single steps;
`os_atomic_rmw_loop` is a load and any number of passes, each of which runs the block on the
value that was loaded and ends with a compare-exchange that may also fail for no reason.
-/

namespace MacKernel.Atomic

/-- What the block of a loop does with `ov`. -/
inductive Block (V : Type) where
  /-- It computes `nv`. -/
  | commit (nv : V)
  /-- `os_atomic_rmw_loop_give_up`. -/
  | giveUp
  /-- An assertion fails. -/
  | fail
  deriving DecidableEq, Repr

/-- What a macro returns. -/
inductive Ret (V : Type) where
  | value (v : V)
  /-- A compare-exchange, with the value that was present. -/
  | exchanged (result : Bool) (g : V)
  /-- A loop that completed, with `ov` and `nv`. -/
  | completed (ov nv : V)
  /-- A loop that was aborted, with `ov`. -/
  | aborted (ov : V)
  /-- The thread stopped at an assertion. -/
  | failed
  deriving DecidableEq, Repr

/-- A macro on the variable. -/
inductive Call (V : Type) where
  /-- A single instruction, with the value that it stores and what the macro returns. -/
  | direct (f : V → V × Ret V)
  /-- `os_atomic_rmw_loop`. -/
  | loop (block : V → Block V)

section Macros

variable {V : Type} [DecidableEq V]

/-- `os_atomic_load`. -/
def osAtomicLoad : Call V := .direct fun old => (old, .value old)

/-- `os_atomic_store`. -/
def osAtomicStore (v : V) : Call V := .direct fun _ => (v, .value v)

/-- `os_atomic_xchg`. -/
def osAtomicXchg (v : V) : Call V := .direct fun old => (v, .value old)

/-- `os_atomic_cmpxchg` and `os_atomic_cmpxchgv`. -/
def osAtomicCmpxchgv (e v : V) : Call V :=
  .direct fun old => if old = e then (v, .exchanged true old) else (old, .exchanged false old)

variable (t : IntegerType)

/-- The type that operands of an integer type are promoted to. -/
def promoted : IntegerType := if t.width < 32 then ⟨true, 32, by decide⟩ else t

/-- `_os_atomic_c11_op_orig` and `_os_atomic_clang_op_orig`. -/
def osAtomicOpOrig (op : Int → Int → Int) (v : Int) : Call Int :=
  .direct fun old => (t.wrap (op old v), .value old)

/-- `_os_atomic_c11_op` and `_os_atomic_clang_op`, with an operand of the type of the variable or
the constant 1: the operation is done once more on what was fetched. -/
def osAtomicOp (op : Int → Int → Int) (v : Int) : Call Int :=
  .direct fun old => (t.wrap (op old v), .value ((promoted t).wrap (op old v)))

/-- `os_atomic_add_orig`. -/
def osAtomicAddOrig (v : Int) : Call Int := osAtomicOpOrig t (· + ·) v

/-- `os_atomic_add`. -/
def osAtomicAdd (v : Int) : Call Int := osAtomicOp t (· + ·) v

/-- `os_atomic_inc_orig`. -/
def osAtomicIncOrig : Call Int := osAtomicOpOrig t (· + ·) 1

/-- `os_atomic_sub_orig`. -/
def osAtomicSubOrig (v : Int) : Call Int := osAtomicOpOrig t (· - ·) v

/-- `os_atomic_sub`. -/
def osAtomicSub (v : Int) : Call Int := osAtomicOp t (· - ·) v

/-- `os_atomic_dec_orig`. -/
def osAtomicDecOrig : Call Int := osAtomicOpOrig t (· - ·) 1

/-- `os_atomic_dec`. -/
def osAtomicDec : Call Int := osAtomicOp t (· - ·) 1

/-- `os_atomic_min_orig`. -/
def osAtomicMinOrig (v : Int) : Call Int := osAtomicOpOrig t min v

/-- `os_atomic_min`. -/
def osAtomicMin (v : Int) : Call Int := osAtomicOp t min v

/-- `os_atomic_max_orig`. -/
def osAtomicMaxOrig (v : Int) : Call Int := osAtomicOpOrig t max v

/-- `os_atomic_max`. -/
def osAtomicMax (v : Int) : Call Int := osAtomicOp t max v

end Macros

/-- `atomic_compare_exchange_weak_explicit`: the variable, `ov` and the result. -/
def compareExchangeWeak {V : Type} [DecidableEq V] (value ov nv : V) (spurious : Bool) :
    V × V × Bool :=
  if value = ov ∧ spurious = false then (nv, ov, true) else (value, value, false)

/-- Where a thread is in one of the operations `K`. -/
inductive Pc (K V : Type) where
  | idle
  | called (k : K)
  /-- In a loop, before its block. -/
  | looping (k : K) (ov : V)
  | returned (r : Ret V)

/-- How a step went. -/
inductive Outcome where
  | moved
  /-- The variable was changed. -/
  | wrote
  /-- A compare-exchange found another value. -/
  | missed
  /-- A compare-exchange failed for no reason. -/
  | spurious
  deriving DecidableEq, Repr

/-- Threads on one variable. -/
structure System (T K V : Type) where
  value : V
  pc : T → Pc K V

namespace System

variable {T K V : Type} [DecidableEq T] [DecidableEq V] (code : K → Call V) (s : System T K V)

def setPc (t : T) (pc : Pc K V) : System T K V := { s with pc := Function.update s.pc t pc }

/-- Store to the variable. -/
def setValue (v : V) : System T K V := { s with value := v }

/-- One pass of a loop. -/
def pass (t : T) (k : K) (ov : V) (spurious : Bool) : Block V → System T K V × Outcome
  | .commit nv =>
    let (value, ov', result) := compareExchangeWeak s.value ov nv spurious
    if result then
      ((s.setValue value).setPc t (.returned (.completed ov' nv)),
        if value = s.value then .moved else .wrote)
    else (s.setPc t (.looping k ov'), if s.value = ov then .spurious else .missed)
  | .giveUp => (s.setPc t (.returned (.aborted ov)), .moved)
  | .fail => (s.setPc t (.returned .failed), .moved)

/-- A step of a thread in a macro. -/
def act (t : T) (spurious : Bool) : Option (System T K V × Outcome) :=
  match s.pc t with
  | .called k =>
    match code k with
    | .direct f =>
      let (v, r) := f s.value
      some ((s.setValue v).setPc t (.returned r), if v = s.value then .moved else .wrote)
    | .loop _ => some (s.setPc t (.looping k s.value), .moved)
  | .looping k ov =>
    match code k with
    | .direct _ => none
    | .loop block => some (s.pass t k ov spurious (block ov))
  | _ => none

/-- What a thread does. -/
inductive Label (T K V : Type) where
  | call (t : T) (k : K)
  | act (t : T) (outcome : Outcome)
  | ret (t : T) (r : Ret V)

/-- A step of some thread. -/
inductive Step : System T K V → Label T K V → System T K V → Prop where
  | call {s : System T K V} {t : T} (k : K) (h : s.pc t = .idle) :
    Step s (.call t k) (s.setPc t (.called k))
  | act {s s' : System T K V} {t : T} {outcome : Outcome} (spurious : Bool)
      (h : s.act code t spurious = some (s', outcome)) : Step s (.act t outcome) s'
  | ret {s : System T K V} {t : T} {r : Ret V} (h : s.pc t = .returned r) :
    Step s (.ret t r) (s.setPc t .idle)

/-- The variable is not used yet. -/
def init (v : V) : System T K V := ⟨v, fun _ => .idle⟩

end System

end MacKernel.Atomic
