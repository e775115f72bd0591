import Mathlib.Logic.Function.Basic
import MacKernel.Core.Run

/-!
# Atomic objects

Threads call the operations of an object. Each operation is carried out in one step, some
time after its call and before its return. A program is linearizable when the calls and
returns of its runs are those of runs of such an object; the steps that carry operations out
then are a sequential run with the same results.
-/

namespace MacKernel

/-- A call or a return of a thread. -/
inductive CallEvent (T Call Ret : Type) where
  | call (t : T) (c : Call)
  | ret (t : T) (r : Ret)

/-- Where a thread is in an operation. -/
inductive CallPhase (Call Ret : Type) where
  | idle
  /-- The operation was called and not carried out. -/
  | pending (c : Call)
  /-- The operation was carried out and did not return. -/
  | done (r : Ret)

/-- An object with the threads that use it. -/
structure AtomicObject (T V Call Ret : Type) where
  value : V
  phase : T → CallPhase Call Ret

namespace AtomicObject

variable {T V Call Ret : Type} [DecidableEq T]

/-- A step with its event, or with the operation that it carries out. -/
inductive Step (apply : V → Call → V × Ret) : AtomicObject T V Call Ret →
    CallEvent T Call Ret ⊕ T × Call × Ret → AtomicObject T V Call Ret → Prop where
  | call {o : AtomicObject T V Call Ret} {t : T} (c : Call) (h : o.phase t = .idle) :
    Step apply o (.inl (.call t c)) ⟨o.value, Function.update o.phase t (.pending c)⟩
  | commit {o : AtomicObject T V Call Ret} {t : T} {c : Call} (h : o.phase t = .pending c) :
    Step apply o (.inr (t, c, (apply o.value c).2))
      ⟨(apply o.value c).1, Function.update o.phase t (.done (apply o.value c).2)⟩
  | ret {o : AtomicObject T V Call Ret} {t : T} {r : Ret} (h : o.phase t = .done r) :
    Step apply o (.inl (.ret t r)) ⟨o.value, Function.update o.phase t .idle⟩

/-- A history of calls and returns in which every operation takes effect at one moment between
its call and its return, these effects in the order given. -/
def Linearizes (apply : V → Call → V × Ret) (v w : V) (history : List (CallEvent T Call Ret))
    (commits : List (T × Call × Ret)) : Prop :=
  ∃ labels phase, Run (Step apply) ⟨v, fun _ => .idle⟩ labels ⟨w, phase⟩ ∧
    labels.filterMap Sum.getLeft? = history ∧ labels.filterMap Sum.getRight? = commits

/-- Operations one after the other, with the results that they have in this order. -/
inductive Sequential (apply : V → Call → V × Ret) (v : V) : List (T × Call × Ret) → V → Prop where
  | nil : Sequential apply v [] v
  | snoc {commits : List (T × Call × Ret)} {w : V} (t : T) (c : Call)
      (h : Sequential apply v commits w) :
    Sequential apply v (commits ++ [(t, c, (apply w c).2)]) (apply w c).1

/-- The effects of a linearization are a sequential run. -/
theorem Linearizes.sequential {apply : V → Call → V × Ret} {v w : V}
    {history : List (CallEvent T Call Ret)} {commits : List (T × Call × Ret)}
    (h : Linearizes apply v w history commits) : Sequential apply v commits w := by
  obtain ⟨labels, phase, hrun, -, rfl⟩ := h
  refine hrun.history (fun labels (o : AtomicObject T V Call Ret) =>
    Sequential apply v (labels.filterMap Sum.getRight?) o.value) ?_ .nil
  intro past o o' label hpast hstep
  rw [List.filterMap_append]
  cases hstep with
  | call c _ =>
    rw [List.filterMap_cons_none rfl, List.filterMap_nil, List.append_nil]
    exact hpast
  | @commit t c _ => exact hpast.snoc t c
  | ret _ =>
    rw [List.filterMap_cons_none rfl, List.filterMap_nil, List.append_nil]
    exact hpast

end AtomicObject

end MacKernel
