import MacKernel.Core.Simulation
import MacKernel.Models.Bitmap.Words
import Mathlib.Data.Finset.Basic
import Mathlib.Data.Finset.Range
import Mathlib.Data.Finset.Filter

/-!
# Test and modify

`bit_set_if_clear` and `bit_clear_if_set` get the bitmap by value: they change their
parameter and report a change, and the variable of the caller stays as it was. A run of calls
agrees with the set that it describes only if no call of it has anything to change.
-/

namespace MacKernel.Bitmap

/-- A call on the bitmap variable. -/
inductive Call where
  | clearIfSet (b : Fin 64)
  | setIfClear (b : Fin 64)
  deriving DecidableEq, Repr

/-- The called function. -/
def Call.callee (bitmap : BitVec 64) : Call → BitVec 64 × Bool
  | .clearIfSet b => bitClearIfSet bitmap b
  | .setIfClear b => bitSetIfClear bitmap b

/-- A call passes the value of the variable, and what the callee does to its parameter is lost
with it. -/
def Call.step (var : BitVec 64) (c : Call) : Except Fault (BitVec 64 × Bool) :=
  .ok (var, (c.callee var).2)

/-- The set that a bitmap stands for. -/
def bitsOf (var : BitVec 64) : Finset Nat := (Finset.range 64).filter fun b => var.getLsbD b

/-- The set after a call. -/
def Call.apply (s : Finset Nat) : Call → Finset Nat
  | .clearIfSet b => s.erase b
  | .setIfClear b => insert b.val s

/-- What the calls are for: each reports whether it changes the set. -/
def callSpec : Spec (Finset Nat) Call Bool where
  pre _ _ := True
  apply s c := c.apply s
  result s c := c.apply s ≠ s

/-- A run leaves the set that it describes in the variable, every call returns whether it
changed the set, and a call that is repeated at once returns false. -/
def AsDescribed (var : BitVec 64) (calls : List Call) : Prop :=
  ∃ var' returned, execAll Call.step var calls = .ok (var', returned)
    ∧ bitsOf var' = callSpec.applyAll (bitsOf var) calls
    ∧ returned = callSpec.results (bitsOf var) calls
    ∧ ∀ before c after, calls = before ++ c :: c :: after →
        returned[before.length + 1]? = some false

/-- The call has nothing to change in the variable. -/
def Call.Idle (var : BitVec 64) : Call → Prop
  | .clearIfSet b => bitTest var b = false
  | .setIfClear b => bitTest var b = true

variable {var : BitVec 64}

private theorem mem_bitsOf {b : Nat} (hb : b < 64) : b ∈ bitsOf var ↔ bitTest var b = true := by
  rw [bitTest_eq var hb, bitsOf, Finset.mem_filter, Finset.mem_range]
  exact and_iff_right hb

/-- A call whose bit is in the variable as the call would leave it is idle. -/
theorem Call.idle_of_apply_eq {s : Finset Nat} {c : Call} (h : c.apply s = bitsOf var) :
    c.Idle var := by
  cases c with
  | clearIfSet b =>
    have hnot : b.val ∉ bitsOf var := h ▸ Finset.notMem_erase b.val s
    rw [mem_bitsOf b.isLt] at hnot
    exact Bool.eq_false_iff.2 hnot
  | setIfClear b =>
    have hmem : b.val ∈ bitsOf var := h ▸ Finset.mem_insert_self b.val s
    exact (mem_bitsOf b.isLt).1 hmem

private theorem Call.Idle.apply_eq {c : Call} (h : c.Idle var) :
    c.apply (bitsOf var) = bitsOf var := by
  cases c with
  | clearIfSet b =>
    refine Finset.erase_eq_of_notMem ?_
    rw [mem_bitsOf b.isLt]
    exact Bool.eq_false_iff.1 h
  | setIfClear b => exact Finset.insert_eq_of_mem ((mem_bitsOf b.isLt).2 h)

private theorem Call.Idle.returns_false {c : Call} (h : c.Idle var) : (c.callee var).2 = false := by
  cases c with
  | clearIfSet b => exact h
  | setIfClear b => exact congrArg not h

private theorem callSpec_result_eq_false {s : Finset Nat} {c : Call} :
    callSpec.result s c = false ↔ c.apply s = s := by
  rw [callSpec, decide_eq_false_iff_not, not_not]

/-- A run never changes the variable. -/
theorem execAll_step (var : BitVec 64) (calls : List Call) :
    execAll Call.step var calls = .ok (var, calls.map fun c => (c.callee var).2) := by
  induction calls with
  | nil => rfl
  | cons c calls ih => exact execAll_cons rfl ih

/-- A run that agrees with the calls on some set is one on the variable's own set, without a
change. The induction starts at the last call: what it leaves is the variable's set, so it was
idle, and then it reported no change. -/
theorem idle_of_agrees {s : Finset Nat} {calls : List Call}
    (hset : bitsOf var = callSpec.applyAll s calls)
    (hreturned : (calls.map fun c => (c.callee var).2) = callSpec.results s calls) :
    s = bitsOf var ∧ ∀ c ∈ calls, c.Idle var := by
  induction calls generalizing s with
  | nil => exact ⟨hset.symm, fun c hc => absurd hc List.not_mem_nil⟩
  | cons c calls ih =>
    obtain ⟨hfirst, hrest⟩ := List.cons.inj hreturned
    obtain ⟨happly, hidle⟩ := ih hset hrest
    have hc : c.Idle var := c.idle_of_apply_eq happly
    have hsame : c.apply s = s := callSpec_result_eq_false.1 (hfirst ▸ hc.returns_false)
    refine ⟨hsame.symm.trans happly, ?_⟩
    intro d hd
    rcases List.mem_cons.1 hd with rfl | hd
    · exact hc
    · exact hidle d hd

private theorem agrees_of_idle {calls : List Call} (h : ∀ c ∈ calls, c.Idle var) :
    bitsOf var = callSpec.applyAll (bitsOf var) calls
      ∧ (calls.map fun c => (c.callee var).2) = callSpec.results (bitsOf var) calls := by
  induction calls with
  | nil => exact ⟨rfl, rfl⟩
  | cons c calls ih =>
    have hc := h c List.mem_cons_self
    obtain ⟨hset, hreturned⟩ := ih fun d hd => h d (List.mem_cons_of_mem c hd)
    have happly : callSpec.apply (bitsOf var) c = bitsOf var := hc.apply_eq
    have hresult : (c.callee var).2 = callSpec.result (bitsOf var) c := by
      rw [hc.returns_false, callSpec_result_eq_false.2 hc.apply_eq]
    constructor
    · rw [Spec.applyAll, List.foldl_cons, happly]
      exact hset
    · rw [List.map_cons, Spec.results, happly, hresult, hreturned]

/-- A run does what it describes exactly when every bit it sets is set already and every bit
it clears is clear already. -/
theorem asDescribed_iff (var : BitVec 64) (calls : List Call) :
    AsDescribed var calls ↔ ∀ c ∈ calls, c.Idle var := by
  constructor
  · rintro ⟨var', returned, hexec, hset, hreturned, -⟩
    rw [execAll_step] at hexec
    obtain ⟨rfl, rfl⟩ := Prod.mk.inj (Except.ok.inj hexec)
    exact (idle_of_agrees hset hreturned).2
  · intro h
    obtain ⟨hset, hreturned⟩ := agrees_of_idle h
    refine ⟨var, _, execAll_step var calls, hset, hreturned, ?_⟩
    rintro before c after rfl
    have hc : (c.callee var).2 = false := (h c (by simp)).returns_false
    simp [hc]

/-- Bit 3 of an empty bitmap is reported as newly set twice, and the bitmap stays empty. -/
theorem not_asDescribed_repeated :
    execAll Call.step 0 [.setIfClear 3, .setIfClear 3] = .ok (0, [true, true])
      ∧ ¬ AsDescribed 0 [.setIfClear 3, .setIfClear 3] := by
  have hrun : execAll Call.step 0 [.setIfClear 3, .setIfClear 3] = .ok (0, [true, true]) := by
    decide
  refine ⟨hrun, ?_⟩
  rintro ⟨var', returned, hexec, -, -, hrepeated⟩
  rw [hrun] at hexec
  obtain ⟨rfl, rfl⟩ := Prod.mk.inj (Except.ok.inj hexec)
  have hfalse := hrepeated [] (.setIfClear 3) [] rfl
  simp at hfalse

end MacKernel.Bitmap
