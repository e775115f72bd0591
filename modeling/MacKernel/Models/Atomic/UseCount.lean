import Mathlib.Tactic.IntervalCases
import MacKernel.Core.Tally
import MacKernel.Models.Atomic.Linearization
import MacKernel.Models.Buflet.System

/-!
# Use counts by read-modify-write loops

The loops of `skmem_bufctl_use` and `skmem_bufctl_unuse`, pass by pass. Where uses are
dropped only after calls that took them have returned, no assertion fails for any thread in
any interleaving, although passes run on counts that others change meanwhile, and every call
computes the number of uses at the moment it takes effect.
-/

namespace MacKernel.Atomic

open Buflet (SkmemBufctl skmemBufctlShareok skmemBufctlUse skmemBufctlUnuse)

section Native

/-- The functions on the use count of a buffer control. -/
inductive BufctlOp where
  | use
  | unuse
  deriving DecidableEq, Repr

/-- The loop of `skmem_bufctl_use`. -/
def bufctlUse (flags : BitVec 32) : Call UInt32 := .loop fun old =>
  let new := old + 1
  if new ≠ 0 ∧ (new = 1 ∨ flags &&& skmemBufctlShareok ≠ 0) then .commit new else .fail

/-- The loop of `skmem_bufctl_unuse`. -/
def bufctlUnuse (flags : BitVec 32) : Call UInt32 := .loop fun old =>
  let new := old - 1
  if old ≠ 0 ∧ (old = 1 ∨ flags &&& skmemBufctlShareok ≠ 0) then .commit new else .fail

def bufctlCode (flags : BitVec 32) : BufctlOp → Call UInt32
  | .use => bufctlUse flags
  | .unuse => bufctlUnuse flags

/-- Two assertions are one. -/
private theorem kassert_both {α : Type} (p q : Prop) [Decidable p] [Decidable q] (a : α) :
    (do kassert p; kassert q; return a) =
      if p ∧ q then Except.ok a else Except.error Fault.assertFailed := by
  by_cases hp : p
  · by_cases hq : q
    · rw [kassert_of hp, ok_bind, kassert_of hq, if_pos ⟨hp, hq⟩]
      rfl
    · rw [kassert_of hp, ok_bind, kassert, if_neg hq, if_neg fun h => hq h.2]
      rfl
  · rw [kassert, if_neg hp, if_neg fun h => hp h.1]
    rfl

/-- The loop is `skmem_bufctl_use` in one step. -/
theorem bufctlUse_apply (bc : SkmemBufctl) : (bufctlUse bc.flags).apply bc.usecnt =
    match skmemBufctlUse bc with
    | .ok bc' => (bc'.usecnt, .completed bc.usecnt bc'.usecnt)
    | .error _ => (bc.usecnt, .failed) := by
  have huse := kassert_both (bc.usecnt + 1 ≠ 0)
    (bc.usecnt + 1 = 1 ∨ bc.flags &&& skmemBufctlShareok ≠ 0) { bc with usecnt := bc.usecnt + 1 }
  unfold bufctlUse Call.apply
  rw [skmemBufctlUse, huse]
  by_cases h : bc.usecnt + 1 ≠ 0 ∧ (bc.usecnt + 1 = 1 ∨ bc.flags &&& skmemBufctlShareok ≠ 0)
  · simp only [if_pos h]
  · simp only [if_neg h]

/-- The loop is `skmem_bufctl_unuse` in one step. -/
theorem bufctlUnuse_apply (bc : SkmemBufctl) : (bufctlUnuse bc.flags).apply bc.usecnt =
    match skmemBufctlUnuse bc with
    | .ok (bc', new) => (bc'.usecnt, .completed bc.usecnt new)
    | .error _ => (bc.usecnt, .failed) := by
  have hunuse := kassert_both (bc.usecnt ≠ 0)
    (bc.usecnt = 1 ∨ bc.flags &&& skmemBufctlShareok ≠ 0)
    ({ bc with usecnt := bc.usecnt - 1 }, bc.usecnt - 1)
  unfold bufctlUnuse Call.apply
  rw [skmemBufctlUnuse, hunuse]
  by_cases h : bc.usecnt ≠ 0 ∧ (bc.usecnt = 1 ∨ bc.flags &&& skmemBufctlShareok ≠ 0)
  · simp only [if_pos h]
  · simp only [if_neg h]

/-- `SKMEM_BUFCTL_USE` counts up unless the count wraps. -/
theorem bufctlUse_apply_of_ne {flags : BitVec 32} {old : UInt32}
    (hshare : flags &&& skmemBufctlShareok ≠ 0) (hnew : old + 1 ≠ 0) :
    (bufctlUse flags).apply old = (old + 1, .completed old (old + 1)) := by
  have hverify : old + 1 ≠ 0 ∧ (old + 1 = 1 ∨ flags &&& skmemBufctlShareok ≠ 0) :=
    ⟨hnew, .inr hshare⟩
  simp only [bufctlUse, Call.apply, if_pos hverify]

/-- `SKMEM_BUFCTL_UNUSE` counts down unless the count is 0. -/
theorem bufctlUnuse_apply_of_ne {flags : BitVec 32} {old : UInt32}
    (hshare : flags &&& skmemBufctlShareok ≠ 0) (hold : old ≠ 0) :
    (bufctlUnuse flags).apply old = (old - 1, .completed old (old - 1)) := by
  have hverify : old ≠ 0 ∧ (old = 1 ∨ flags &&& skmemBufctlShareok ≠ 0) := ⟨hold, .inr hshare⟩
  simp only [bufctlUnuse, Call.apply, if_pos hverify]

end Native

section Counting

variable {T : Type}

/-- The calls of an operation. -/
def calls (k : BufctlOp) (history : List (CallEvent T BufctlOp (Ret UInt32))) : Nat :=
  history.countP fun
    | .call _ k' => k' = k
    | .ret _ _ => false

/-- The result of a use. -/
def Ret.uses : Ret UInt32 → Bool
  | .completed ov nv => nv = ov + 1
  | _ => false

/-- The uses that have returned. -/
def used (history : List (CallEvent T BufctlOp (Ret UInt32))) : Nat :=
  history.countP fun
    | .call _ _ => false
    | .ret _ r => r.uses

/-- The effects of an operation. -/
def effects (k : BufctlOp) (commits : List (T × BufctlOp × Ret UInt32)) : Nat :=
  commits.countP fun x => x.2.1 = k

/-- Uses are dropped after calls that took them have returned, and there are never too many. -/
def Disciplined (history : List (CallEvent T BufctlOp (Ret UInt32))) : Prop :=
  ∀ past, past <+: history → calls .unuse past ≤ used past ∧ calls .use past < 2 ^ 32

/-- Every operation returns the number of uses after it. -/
def Counted (commits : List (T × BufctlOp × Ret UInt32)) : Prop :=
  ∀ past x, past ++ [x] <+: commits → ∃ ov nv, x.2.2 = .completed ov nv ∧
    nv.toNat + effects .unuse (past ++ [x]) = effects .use (past ++ [x])

/-- The operation that a thread has called and that was not carried out. -/
def pendingOp : CallPhase BufctlOp (Ret UInt32) → Option BufctlOp
  | .pending k => some k
  | _ => none

/-- A thread that has a use to return. -/
def useDone : CallPhase BufctlOp (Ret UInt32) → Option Unit
  | .done r => if r.uses then some () else none
  | _ => none

variable [DecidableEq T]

/-- The counts of a run of the atomic object. -/
structure Tallied (history : List (CallEvent T BufctlOp (Ret UInt32)))
    (commits : List (T × BufctlOp × Ret UInt32))
    (o : AtomicObject T UInt32 BufctlOp (Ret UInt32)) : Prop where
  pending : ∀ k, (effects k commits : ENat) + (holders (pendingOp ∘ o.phase) (some k)).encard =
    calls k history
  done : (used history : ENat) + (holders (useDone ∘ o.phase) (some ())).encard =
    effects .use commits
  value : o.value.toNat + effects .unuse commits = effects .use commits
  counted : Counted commits
  running : ∀ t, o.phase t ≠ .done .failed

section Counts

omit [DecidableEq T]

/-- A call is counted with its kind. -/
theorem calls_append (k : BufctlOp) (history : List (CallEvent T BufctlOp (Ret UInt32))) (t : T)
    (k' : BufctlOp) :
    calls k (history ++ [.call t k']) = calls k history + if k = k' then 1 else 0 := by
  rw [calls, List.countP_append, List.countP_singleton]
  by_cases h : k = k'
  · simp [calls, h]
  · have h' : ¬k' = k := fun heq => h heq.symm
    simp [calls, h, h']

/-- A return is no call. -/
theorem calls_append_ret (k : BufctlOp) (history : List (CallEvent T BufctlOp (Ret UInt32)))
    (t : T) (r : Ret UInt32) : calls k (history ++ [.ret t r]) = calls k history := by
  simp [calls, List.countP_append]

/-- A call alone is no completed use. -/
theorem used_append_call (history : List (CallEvent T BufctlOp (Ret UInt32))) (t : T)
    (k : BufctlOp) : used (history ++ [.call t k]) = used history := by
  simp [used, List.countP_append]

/-- A return counts if it completes a use. -/
theorem used_append (history : List (CallEvent T BufctlOp (Ret UInt32))) (t : T)
    (r : Ret UInt32) : used (history ++ [.ret t r]) = used history + if r.uses then 1 else 0 := by
  rw [used, List.countP_append, List.countP_singleton]
  rfl

/-- An effect is counted with its kind. -/
theorem effects_append (k : BufctlOp) (commits : List (T × BufctlOp × Ret UInt32)) (t : T)
    (k' : BufctlOp) (r : Ret UInt32) :
    effects k (commits ++ [(t, k', r)]) = effects k commits + if k = k' then 1 else 0 := by
  rw [effects, List.countP_append, List.countP_singleton]
  by_cases h : k = k'
  · simp [effects, h]
  · have h' : ¬k' = k := fun heq => h heq.symm
    simp [effects, h, h']

/-- The past of a disciplined history is disciplined. -/
theorem Disciplined.of_append {past rest : List (CallEvent T BufctlOp (Ret UInt32))}
    (h : Disciplined (past ++ rest)) : Disciplined past :=
  fun p hp => h p (hp.trans (List.prefix_append past rest))

/-- A commit that keeps the balance keeps the counts. -/
theorem Counted.append {commits : List (T × BufctlOp × Ret UInt32)} (h : Counted commits) {t : T}
    {k : BufctlOp} {ov nv : UInt32}
    (hnv : nv.toNat + effects .unuse (commits ++ [(t, k, .completed ov nv)]) =
      effects .use (commits ++ [(t, k, .completed ov nv)])) :
    Counted (commits ++ [(t, k, .completed ov nv)]) := by
  intro past x hpast
  rcases List.prefix_concat_iff.mp hpast with heq | hold
  · obtain ⟨rfl, hx⟩ := List.append_inj' heq rfl
    obtain rfl := List.singleton_inj.mp hx
    exact ⟨ov, nv, rfl, hnv⟩
  · exact h past x hold

end Counts

section Bounds

variable {m c : Nat} {e : ENat}

/-- A part is at most the whole, calls without end included. -/
private theorem le_of_add_eq (h : (m : ENat) + e = c) : m ≤ c := by
  have hle : (m : ENat) ≤ c := h ▸ le_self_add
  exact Nat.cast_le.mp hle

/-- A part is less than the whole if something is left. -/
private theorem lt_of_add_eq (h : (m : ENat) + e = c) (he : e ≠ 0) : m < c := by
  have hle : ((m + 1 : Nat) : ENat) ≤ c := by
    rw [← h, Nat.cast_add, Nat.cast_one]
    exact add_le_add_right (Order.one_le_iff_ne_zero.mpr he) _
  exact Nat.cast_le.mp hle

end Bounds

variable {history : List (CallEvent T BufctlOp (Ret UInt32))}
variable {commits : List (T × BufctlOp × Ret UInt32)}
variable {o : AtomicObject T UInt32 BufctlOp (Ret UInt32)} {t : T} {k : BufctlOp}

/-- A call keeps the tally. -/
theorem Tallied.call (h : Tallied history commits o) (hidle : o.phase t = .idle) (k : BufctlOp) :
    Tallied (history ++ [.call t k]) commits
      ⟨o.value, Function.update o.phase t (.pending k)⟩ := by
  constructor
  case pending =>
    intro k'
    have hnone : (pendingOp ∘ o.phase) t = none := by simp [hidle, pendingOp]
    rw [Function.comp_update, calls_append, Nat.cast_add, ← h.pending k', add_assoc]
    refine congrArg ((effects k' commits : ENat) + ·)
      ((encard_holders_update_some hnone k k').trans ?_)
    simp
  case done =>
    have hnone : useDone (.pending k) = (useDone ∘ o.phase) t := by simp [hidle, useDone]
    rw [Function.comp_update, hnone, Function.update_eq_self, used_append_call]
    exact h.done
  case value => exact h.value
  case counted => exact h.counted
  case running =>
    intro t'
    by_cases ht : t' = t
    · simp [ht]
    · simpa [Function.update_of_ne ht] using h.running t'

/-- A return keeps the tally. -/
theorem Tallied.ret (h : Tallied history commits o) {r : Ret UInt32} (hdone : o.phase t = .done r) :
    Tallied (history ++ [.ret t r]) commits ⟨o.value, Function.update o.phase t .idle⟩ := by
  constructor
  case pending =>
    intro k
    have hnone : pendingOp .idle = (pendingOp ∘ o.phase) t := by simp [hdone, pendingOp]
    rw [Function.comp_update, hnone, Function.update_eq_self, calls_append_ret]
    exact h.pending k
  case done =>
    have hr : (useDone ∘ o.phase) t = if r.uses then some () else none := by simp [hdone, useDone]
    rw [Function.comp_update, used_append, ← h.done, Nat.cast_add, add_assoc]
    cases huses : r.uses with
    | true =>
      have hsome := hr.trans (if_pos huses)
      have hgive := encard_holders_update_none hsome ()
      rw [if_pos rfl, add_comm] at hgive
      simpa [useDone] using congrArg ((used history : ENat) + ·) hgive
    | false =>
      have hnone := hr.trans (if_neg (Bool.not_eq_true _ ▸ huses))
      rw [Function.update_eq_self_iff.mpr hnone.symm]
      simp
  case value => exact h.value
  case counted => exact h.counted
  case running =>
    intro t'
    by_cases ht : t' = t
    · simp [ht]
    · simpa [Function.update_of_ne ht] using h.running t'

omit [DecidableEq T] in
/-- An operation that was called and not carried out has more calls than effects. -/
theorem Tallied.effects_lt (h : Tallied history commits o) (hpending : o.phase t = .pending k) :
    effects k commits < calls k history := by
  have hmem : t ∈ holders (pendingOp ∘ o.phase) (some k) :=
    mem_holders.mpr (congrArg pendingOp hpending)
  exact lt_of_add_eq (h.pending k) (Set.encard_ne_zero_of_mem hmem)

omit [DecidableEq T] in
/-- What an operation does when it takes effect. -/
theorem Tallied.apply (h : Tallied history commits o) {flags : BitVec 32}
    (hshare : flags &&& skmemBufctlShareok ≠ 0) (hdisc : Disciplined history)
    (hpending : o.phase t = .pending k) : ∃ nv,
      (bufctlCode flags k).apply o.value = (nv, .completed o.value nv) ∧
        ((Ret.completed o.value nv).uses ↔ k = .use) ∧
        nv.toNat + effects .unuse commits + (if .unuse = k then 1 else 0) =
          effects .use commits + if .use = k then 1 else 0 := by
  have hvalue := h.value
  have hlt := h.effects_lt hpending
  obtain ⟨hunused, hused⟩ := hdisc history List.prefix_rfl
  cases k with
  | use =>
    have hnat : (o.value + 1).toNat = o.value.toNat + 1 := by
      rw [UInt32.toNat_add]
      apply Nat.mod_eq_of_lt
      simp only [UInt32.toNat_one]
      omega
    have hne : o.value + 1 ≠ 0 := by
      intro hzero
      rw [hzero] at hnat
      cases hnat
    refine ⟨o.value + 1, bufctlUse_apply_of_ne hshare hne, by simp [Ret.uses], ?_⟩
    simp only [hnat, reduceCtorEq, if_false, if_true]
    omega
  | unuse =>
    have hreturned := le_of_add_eq h.done
    have hne : o.value ≠ 0 := by
      intro hzero
      rw [hzero] at hvalue
      simp only [UInt32.toNat_zero] at hvalue
      omega
    have hnat := Buflet.toNat_sub_one_add_one hne
    refine ⟨o.value - 1, bufctlUnuse_apply_of_ne hshare hne, ?_, ?_⟩
    · have hdiffer : o.value - 1 ≠ o.value + 1 := by
        intro heq
        have hsum := congrArg (fun x : UInt32 => (x + 1).toNat) heq
        simp only [UInt32.sub_add_cancel, UInt32.toNat_add, UInt32.toNat_one] at hsum
        omega
      simp [Ret.uses, hdiffer]
    · simp only [reduceCtorEq, if_false, if_true]
      omega

/-- A commit keeps the tally. -/
theorem Tallied.commit (h : Tallied history commits o) {flags : BitVec 32}
    (hshare : flags &&& skmemBufctlShareok ≠ 0) (hdisc : Disciplined history)
    (hpending : o.phase t = .pending k) :
    Tallied history (commits ++ [(t, k, ((bufctlCode flags k).apply o.value).2)])
      ⟨((bufctlCode flags k).apply o.value).1,
        Function.update o.phase t (.done ((bufctlCode flags k).apply o.value).2)⟩ := by
  obtain ⟨nv, happly, huses, hnv⟩ := h.apply hshare hdisc hpending
  rw [happly]
  have hcount : nv.toNat + effects .unuse (commits ++ [(t, k, .completed o.value nv)]) =
      effects .use (commits ++ [(t, k, .completed o.value nv)]) := by
    rw [effects_append, effects_append, ← hnv, Nat.add_assoc]
  constructor
  case pending =>
    intro k'
    have hsome : (pendingOp ∘ o.phase) t = some k := by simp [hpending, pendingOp]
    have hgive := encard_holders_update_none hsome k'
    rw [← h.pending k', ← hgive, Function.comp_update, effects_append, Nat.cast_add, add_assoc,
      add_comm (holders _ _).encard]
    simp [pendingOp]
  case done =>
    have hnone : (useDone ∘ o.phase) t = none := by simp [hpending, useDone]
    rw [Function.comp_update, effects_append, Nat.cast_add, ← h.done, add_assoc]
    by_cases hk : k = .use
    · have hsome : useDone (.done (.completed o.value nv)) = some () := if_pos (huses.mpr hk)
      rw [hsome, encard_holders_update_some hnone () (), if_pos rfl, if_pos hk.symm]
      simp
    · have hother : useDone (.done (.completed o.value nv)) = none :=
        if_neg fun h => hk (huses.mp h)
      have hk' : ¬.use = k := fun heq => hk heq.symm
      rw [hother, Function.update_eq_self_iff.mpr hnone.symm, if_neg hk']
      simp
  case value => exact hcount
  case counted => exact h.counted.append hcount
  case running =>
    intro t'
    by_cases ht : t' = t
    · simp [ht]
    · simpa [Function.update_of_ne ht] using h.running t'

/-- Every step of a disciplined history keeps the tally. -/
theorem Tallied.step {flags : BitVec 32} (hshare : flags &&& skmemBufctlShareok ≠ 0)
    {labels : List (CallEvent T BufctlOp (Ret UInt32) ⊕ T × BufctlOp × Ret UInt32)}
    {label : CallEvent T BufctlOp (Ret UInt32) ⊕ T × BufctlOp × Ret UInt32}
    {o' : AtomicObject T UInt32 BufctlOp (Ret UInt32)}
    (h : Tallied (labels.filterMap Sum.getLeft?) (labels.filterMap Sum.getRight?) o)
    (hdisc : Disciplined (labels.filterMap Sum.getLeft?))
    (hstep : AtomicObject.Step (System.applies (bufctlCode flags)) o label o') :
    Tallied ((labels ++ [label]).filterMap Sum.getLeft?)
      ((labels ++ [label]).filterMap Sum.getRight?) o' := by
  rw [List.filterMap_append, List.filterMap_append]
  cases hstep with
  | call k hidle =>
    rw [List.filterMap_cons_none (f := Sum.getRight?) rfl, List.filterMap_nil, List.append_nil]
    exact h.call hidle k
  | commit hpending =>
    rw [List.filterMap_cons_none (f := Sum.getLeft?) rfl, List.filterMap_nil, List.append_nil]
    exact h.commit hshare hdisc hpending
  | ret hdone =>
    rw [List.filterMap_cons_none (f := Sum.getRight?) rfl, List.filterMap_nil, List.append_nil]
    exact h.ret hdone

omit [DecidableEq T]

/-- The tally holds at the start. -/
theorem tallied_init :
    Tallied [] [] (⟨0, fun _ => .idle⟩ : AtomicObject T UInt32 BufctlOp (Ret UInt32)) := by
  have hempty : ∀ {α : Type} (v : α), holders (fun _ : T => none) (some v) = ∅ := by
    intro α v
    ext t
    simp [mem_holders]
  constructor
  case pending =>
    intro k
    change _ + (holders (fun _ : T => none) (some k)).encard = _
    simp [hempty, calls, effects]
  case done =>
    change _ + (holders (fun _ : T => none) (some ())).encard = _
    simp [hempty, used, effects]
  case value => rfl
  case counted =>
    intro past x hpast
    simp at hpast
  case running => exact fun _ => nofun

/-- Between operations every call has taken effect. -/
theorem Tallied.effects_eq (h : Tallied history commits o) (hidle : ∀ t, o.phase t = .idle)
    (k : BufctlOp) : effects k commits = calls k history := by
  have hempty : holders (pendingOp ∘ o.phase) (some k) = ∅ := by
    ext t
    simp [mem_holders, hidle, pendingOp]
  have hpending := h.pending k
  rw [hempty, Set.encard_empty, add_zero] at hpending
  exact Nat.cast_inj.mp hpending

variable [DecidableEq T]

/-- The use count under loops of any number of threads. -/
theorem use_count_of_run {flags : BitVec 32} (hshare : flags &&& skmemBufctlShareok ≠ 0)
    {labels : List (System.Label T BufctlOp UInt32)} {s : System T BufctlOp UInt32}
    (hrun : Run (System.Step (bufctlCode flags)) (System.init 0) labels s)
    (hdisc : Disciplined (labels.filterMap System.Label.event)) :
    (∃ commits, AtomicObject.Linearizes (System.applies (bufctlCode flags)) 0 s.value
      (labels.filterMap System.Label.event) commits ∧ Counted commits) ∧
      (∀ t, s.pc t ≠ .returned .failed) ∧
      ((∀ t, s.pc t = .idle) → s.value.toNat + calls .unuse (labels.filterMap System.Label.event) =
        calls .use (labels.filterMap System.Label.event)) := by
  obtain ⟨labels', hrun', hshown⟩ := hrun.simulates (System.object (bufctlCode flags))
    System.Label.event Sum.getLeft? System.Step.simulates
  have htallied : Disciplined (labels'.filterMap Sum.getLeft?) →
      Tallied (labels'.filterMap Sum.getLeft?) (labels'.filterMap Sum.getRight?)
        (s.object (bufctlCode flags)) := by
    refine hrun'.history (fun labels o => Disciplined (labels.filterMap Sum.getLeft?) →
      Tallied (labels.filterMap Sum.getLeft?) (labels.filterMap Sum.getRight?) o) ?_
      fun _ => tallied_init
    intro past o o' label ih hstep hdisc'
    rw [List.filterMap_append] at hdisc'
    exact (ih hdisc'.of_append).step hshare hdisc'.of_append hstep
  rw [hshown] at htallied
  have h := htallied hdisc
  refine ⟨⟨_, ⟨labels', _, hrun', hshown, rfl⟩, h.counted⟩, fun t hfailed => ?_, fun hidle => ?_⟩
  · exact h.running t (congrArg (Pc.phase (bufctlCode flags)) hfailed)
  · have hphase : ∀ t, (s.object (bufctlCode flags)).phase t = .idle :=
      fun t => congrArg (Pc.phase (bufctlCode flags)) (hidle t)
    have hvalue := h.value
    rw [h.effects_eq hphase .use, h.effects_eq hphase .unuse] at hvalue
    exact hvalue

/-- Two threads take a use at once, and one is dropped. -/
theorem use_count_of_run_retried : ∃ s : System Bool BufctlOp UInt32, s.value = 1 ∧
    ∀ t, s.pc t ≠ .returned .failed := by
  let s₀ : System Bool BufctlOp UInt32 := System.init 0
  let s₁ := (s₀.setPc true (.called .use)).setPc false (.called .use)
  let s₂ := (s₁.setPc true (.looping .use 0)).setPc false (.looping .use 0)
  let s₃ := (s₂.setValue 1).setPc true (.returned (.completed 0 1))
  let s₄ := s₃.setPc false (.looping .use 1)
  let s₅ := (s₄.setValue 2).setPc false (.returned (.completed 1 2))
  let s₆ := (s₅.setPc true .idle).setPc true (.called .unuse)
  let s₇ := s₆.setPc true (.looping .unuse 2)
  let s₈ := (s₇.setValue 1).setPc true (.returned (.completed 2 1))
  have h₁ : Run (System.Step (bufctlCode 1)) s₀
      ([] ++ [.call true .use] ++ [.call false .use]) s₁ :=
    .snoc (.snoc .nil (.call _ rfl)) (.call _ rfl)
  have h₂ : Run (System.Step (bufctlCode 1)) s₀
      (_ ++ [.act true .moved] ++ [.act false .moved]) s₂ :=
    .snoc (.snoc h₁ (.act false rfl)) (.act false rfl)
  have h₃ : Run (System.Step (bufctlCode 1)) s₀ (_ ++ [.act true .wrote]) s₃ :=
    .snoc h₂ (.act false rfl)
  have h₄ : Run (System.Step (bufctlCode 1)) s₀ (_ ++ [.act false .missed]) s₄ :=
    .snoc h₃ (.act false rfl)
  have h₅ : Run (System.Step (bufctlCode 1)) s₀ (_ ++ [.act false .wrote]) s₅ :=
    .snoc h₄ (.act false rfl)
  have h₆ : Run (System.Step (bufctlCode 1)) s₀
      (_ ++ [.ret true (.completed 0 1)] ++ [.call true .unuse]) s₆ :=
    .snoc (.snoc h₅ (.ret rfl)) (.call _ rfl)
  have h₇ : Run (System.Step (bufctlCode 1)) s₀ (_ ++ [.act true .moved]) s₇ :=
    .snoc h₆ (.act false rfl)
  have h₈ : Run (System.Step (bufctlCode 1)) s₀ (_ ++ [.act true .wrote]) s₈ :=
    .snoc h₇ (.act false rfl)
  have hdisc : Disciplined (T := Bool)
      [.call true .use, .call false .use, .ret true (.completed 0 1), .call true .unuse] := by
    intro past hpast
    rw [List.prefix_iff_eq_take.mp hpast]
    have hlength := hpast.length_le
    generalize past.length = n at hlength
    change n ≤ 4 at hlength
    interval_cases n <;> decide
  exact ⟨s₈, rfl, (use_count_of_run (by decide) h₈ hdisc).2.1⟩

end Counting

end MacKernel.Atomic
