import MacKernel.Models.Osmemory.Native
import MacKernel.Core.Run
import MacKernel.Core.Tally

/-!
# Control blocks and their handles

The counter methods on all control blocks, against the places that hold a reference to
each of them. Every method that is called for a reference keeps the counts equal to the
numbers of references.
-/

namespace MacKernel.Osmemory

section Ctrls

variable {C K : Type} [DecidableEq C]

/-- Control blocks, with how often each has released its object and has been deleted. -/
structure Ctrls (C K : Type) where
  state : C → Option K
  released : C → Nat
  deleted : C → Nat

/-- A control block whose methods may be called. -/
def Ctrls.get (m : Ctrls C K) (c : C) : Except Misuse K :=
  match m.state c with
  | none => .error .overRelease
  | some k => if m.deleted c = 0 then .ok k else .error .overRelease

/-- The effect of a method on its control block. -/
def Ctrls.record (m : Ctrls C K) (c : C) (k : K) (released deleted : Bool) : Ctrls C K where
  state := Function.update m.state c (some k)
  released := Function.update m.released c (m.released c + released.toNat)
  deleted := Function.update m.deleted c (m.deleted c + deleted.toNat)

variable (ops : CounterOps K)

/-- `retain_shared`, with its result. -/
def Ctrls.retainShared (c : C) (m : Ctrls C K) : Except Misuse (Ctrls C K × Bool) := do
  let k ← m.get c
  let (k, retained) := ops.retainShared k
  return (m.record c k false false, retained)

/-- `release_shared`. -/
def Ctrls.releaseShared (c : C) (m : Ctrls C K) : Except Misuse (Ctrls C K) := do
  let k ← m.get c
  if ops.countShared k = 0 then .error .overRelease
  else
    let (k, released, deleted) := ops.releaseShared k
    return m.record c k released deleted

/-- `retain_weak`. -/
def Ctrls.retainWeak (c : C) (m : Ctrls C K) : Except Misuse (Ctrls C K) := do
  let k ← m.get c
  return m.record c (ops.retainWeak k) false false

/-- `release_weak`. -/
def Ctrls.releaseWeak (c : C) (m : Ctrls C K) : Except Misuse (Ctrls C K) := do
  let k ← m.get c
  if ops.countWeak k = 0 then .error .overRelease
  else
    let (k, deleted) := ops.releaseWeak k
    return m.record c k false deleted

end Ctrls

section Accounts

variable {S W C K : Type} [Fintype S] [Fintype W] [DecidableEq C] (ops : CounterOps K)

/-- A control block with its numbers of handles, and how often its object has been released
and it has been deleted. -/
structure BlockOk (k : K) (ns nw nr nd : Nat) : Prop where
  shared : ops.countShared k = ns
  weak : ops.countWeak k = nw
  released : nr = if ns = 0 then 1 else 0
  deleted : nd = if ns = 0 ∧ nw = 0 then 1 else 0

/-- All control blocks are in order, for the references held by shared and weak handles. -/
structure Accounts (rs : S → Option C) (rw : W → Option C) (m : Ctrls C K) : Prop where
  fresh : ∀ c, m.state c = none → tally rs (some c) = 0 ∧ tally rw (some c) = 0 ∧
    m.released c = 0 ∧ m.deleted c = 0
  block : ∀ c k, m.state c = some k →
    BlockOk ops k (tally rs (some c)) (tally rw (some c)) (m.released c) (m.deleted c)

/-- A truth value as a number. -/
private theorem toNat_eq_ite {b : Bool} {p : Prop} [Decidable p] (h : b = true ↔ p) :
    b.toNat = if p then 1 else 0 := by
  by_cases hp : p
  · rw [if_pos hp, h.mpr hp]
    rfl
  · rw [if_neg hp, Bool.eq_false_iff.mpr (mt h.mp hp)]
    rfl

/-- No construction, release or deletion is undone. -/
structure Grows (m m' : Ctrls C K) : Prop where
  state : ∀ c, m.state c ≠ none → m'.state c ≠ none
  released : ∀ c, m.released c ≤ m'.released c
  deleted : ∀ c, m.deleted c ≤ m'.deleted c

variable {ops} {rs rs' : S → Option C} {rw rw' : W → Option C} {m : Ctrls C K} {c : C} {k : K}

/-- A record only adds to what was released and deleted. -/
theorem grows_record (m : Ctrls C K) (c : C) (k : K) (released deleted : Bool) :
    Grows m (m.record c k released deleted) := by
  have hat : ∀ c', (m.state c' ≠ none → (m.record c k released deleted).state c' ≠ none) ∧
      m.released c' ≤ (m.record c k released deleted).released c' ∧
      m.deleted c' ≤ (m.record c k released deleted).deleted c' := by
    intro c'
    by_cases hc : c' = c
    · subst hc
      simp [Ctrls.record]
    · simp [Ctrls.record, hc]
  exact ⟨fun c' => (hat c').1, fun c' => (hat c').2.1, fun c' => (hat c').2.2⟩

omit [DecidableEq C] in
/-- What stays does not shrink. -/
theorem Grows.refl (m : Ctrls C K) : Grows m m := ⟨fun _ h => h, fun _ => le_rfl, fun _ => le_rfl⟩

omit [DecidableEq C] in
/-- What grows twice grows. -/
theorem Grows.trans {m m' m'' : Ctrls C K} (h : Grows m m') (h' : Grows m' m'') : Grows m m'' where
  state c hc := h'.state c (h.state c hc)
  released c := (h.released c).trans (h'.released c)
  deleted c := (h.deleted c).trans (h'.deleted c)

/-- A method changes the references to its own control block only. -/
theorem Accounts.record {released deleted : Bool} (h : Accounts ops rs rw m)
    (hs : ∀ c', c' ≠ c → tally rs' (some c') = tally rs (some c'))
    (hw : ∀ c', c' ≠ c → tally rw' (some c') = tally rw (some c'))
    (hb : BlockOk ops k (tally rs' (some c)) (tally rw' (some c))
      (m.released c + released.toNat) (m.deleted c + deleted.toNat)) :
    Accounts ops rs' rw' (m.record c k released deleted) where
  fresh c' hc' := by
    by_cases hc : c' = c
    · subst hc
      simp [Ctrls.record] at hc'
    · simp only [Ctrls.record, Function.update_of_ne hc] at hc' ⊢
      rw [hs c' hc, hw c' hc]
      exact h.fresh c' hc'
  block c' k' hk' := by
    by_cases hc : c' = c
    · subst hc
      simp only [Ctrls.record, Function.update_self] at hk' ⊢
      exact Option.some.inj hk' ▸ hb
    · simp only [Ctrls.record, Function.update_of_ne hc] at hk' ⊢
      rw [hs c' hc, hw c' hc]
      exact h.block c' k' hk'

/-- A control block with a handle is there, and has not been deleted. -/
theorem Accounts.get (h : Accounts ops rs rw m)
    (hpos : tally rs (some c) ≠ 0 ∨ tally rw (some c) ≠ 0) : ∃ k, m.get c = .ok k ∧
      BlockOk ops k (tally rs (some c)) (tally rw (some c)) (m.released c) (m.deleted c) := by
  cases hk : m.state c with
  | none =>
    have hfresh := h.fresh c hk
    omega
  | some k =>
    have hb := h.block c k hk
    have hdel : m.deleted c = 0 := by
      rw [hb.deleted]
      exact if_neg (by omega)
    exact ⟨k, by simp [Ctrls.get, hk, hdel], hb⟩

variable [DecidableEq S] [DecidableEq W] {x : S} {w : W}

omit [DecidableEq W] in
/-- A shared handle that retains an object that still has one. -/
theorem Accounts.retainShared (hops : ops.Standard) (h : Accounts ops rs rw m)
    (hx : rs x = none) (hpos : tally rs (some c) ≠ 0) :
    ∃ m', m.retainShared ops c = .ok (m', true) ∧
      Accounts ops (Function.update rs x (some c)) rw m' ∧ Grows m m' := by
  obtain ⟨k, hget, hb⟩ := h.get (.inl hpos)
  obtain ⟨hret, hshared, hweak⟩ := hops.retainShared_pos k (by rw [hb.shared]; exact hpos)
  refine ⟨m.record c (ops.retainShared k).1 false false, ?_, ?_, grows_record _ _ _ _ _⟩
  · simp only [Ctrls.retainShared, hget, ok_bind, ← hret]
    rfl
  · apply h.record
    · intro c' hc'
      rw [tally_update_some hx, if_neg hc', Nat.add_zero]
    · intro c' _
      rfl
    · constructor
      · rw [hshared, hb.shared, tally_update_some hx, if_pos rfl]
      · rw [hweak, hb.weak]
      · rw [hb.released, tally_update_some hx, if_pos rfl, if_neg hpos, if_neg (by omega)]
        rfl
      · rw [hb.deleted, tally_update_some hx, if_pos rfl, if_neg (by omega), if_neg (by omega)]
        rfl

omit [DecidableEq S] [DecidableEq W] in
/-- An object without shared handles is not retained. -/
theorem Accounts.retainShared_fails (hops : ops.Standard) (h : Accounts ops rs rw m)
    (hzero : tally rs (some c) = 0) (hpos : tally rw (some c) ≠ 0) :
    ∃ m', m.retainShared ops c = .ok (m', false) ∧ Accounts ops rs rw m' ∧ Grows m m' := by
  obtain ⟨k, hget, hb⟩ := h.get (.inr hpos)
  have hfail := hops.retainShared_zero k (by rw [hb.shared]; exact hzero)
  refine ⟨m.record c k false false, ?_, ?_, grows_record _ _ _ _ _⟩
  · simp only [Ctrls.retainShared, hget, ok_bind, hfail]
    rfl
  · exact h.record (fun _ _ => rfl) (fun _ _ => rfl) hb

omit [DecidableEq W] in
/-- Releasing a shared handle keeps the accounts. -/
theorem Accounts.releaseShared (hops : ops.Standard) (h : Accounts ops rs rw m)
    (hx : rs x = some c) : ∃ m', m.releaseShared ops c = .ok m' ∧
      Accounts ops (Function.update rs x none) rw m' ∧ Grows m m' := by
  have hdrop := tally_update_none hx
  have hself := hdrop c
  rw [if_pos rfl] at hself
  obtain ⟨k, hget, hb⟩ := h.get (c := c) (.inl (by omega))
  have hpos : ops.countShared k ≠ 0 := by
    rw [hb.shared]
    omega
  obtain ⟨hshared, hweak, hrel, hdel⟩ := hops.releaseShared k hpos
  refine ⟨m.record c (ops.releaseShared k).1 (ops.releaseShared k).2.1 (ops.releaseShared k).2.2,
    ?_, ?_, grows_record _ _ _ _ _⟩
  · simp only [Ctrls.releaseShared, hget, ok_bind, if_neg hpos]
    rfl
  · rw [hb.shared] at hshared hrel hdel
    rw [hb.weak] at hweak hdel
    apply h.record
    · intro c' hc'
      have hother := hdrop c'
      rwa [if_neg hc', Nat.add_zero] at hother
    · intro c' _
      rfl
    · constructor
      · omega
      · exact hweak
      · rw [hb.released, toNat_eq_ite hrel]
        split_ifs <;> omega
      · rw [hb.deleted, toNat_eq_ite hdel]
        split_ifs <;> omega

omit [DecidableEq S] in
/-- A weak handle to an object with a handle of either kind. -/
theorem Accounts.retainWeak (hops : ops.Standard) (h : Accounts ops rs rw m)
    (hw : rw w = none) (hpos : tally rs (some c) ≠ 0 ∨ tally rw (some c) ≠ 0) :
    ∃ m', m.retainWeak ops c = .ok m' ∧ Accounts ops rs (Function.update rw w (some c)) m' ∧
      Grows m m' := by
  obtain ⟨k, hget, hb⟩ := h.get hpos
  obtain ⟨hshared, hweak⟩ := hops.retainWeak k
  refine ⟨m.record c (ops.retainWeak k) false false, ?_, ?_, grows_record _ _ _ _ _⟩
  · simp only [Ctrls.retainWeak, hget, ok_bind]
    rfl
  · apply h.record
    · intro c' _
      rfl
    · intro c' hc'
      rw [tally_update_some hw, if_neg hc', Nat.add_zero]
    · constructor
      · rw [hshared, hb.shared]
      · rw [hweak, hb.weak, tally_update_some hw, if_pos rfl]
      · exact hb.released
      · rw [hb.deleted, tally_update_some hw, if_pos rfl, if_neg (by omega), if_neg (by omega)]
        rfl

omit [DecidableEq S] in
/-- Releasing a weak handle keeps the accounts. -/
theorem Accounts.releaseWeak (hops : ops.Standard) (h : Accounts ops rs rw m)
    (hw : rw w = some c) : ∃ m', m.releaseWeak ops c = .ok m' ∧
      Accounts ops rs (Function.update rw w none) m' ∧ Grows m m' := by
  have hdrop := tally_update_none hw
  have hself := hdrop c
  rw [if_pos rfl] at hself
  obtain ⟨k, hget, hb⟩ := h.get (c := c) (.inr (by omega))
  have hpos : ops.countWeak k ≠ 0 := by
    rw [hb.weak]
    omega
  obtain ⟨hshared, hweak, hdel⟩ := hops.releaseWeak k hpos
  refine ⟨m.record c (ops.releaseWeak k).1 false (ops.releaseWeak k).2, ?_, ?_,
    grows_record _ _ _ _ _⟩
  · simp only [Ctrls.releaseWeak, hget, ok_bind, if_neg hpos]
    rfl
  · rw [hb.shared] at hshared hdel
    rw [hb.weak] at hweak hdel
    apply h.record
    · intro c' _
      rfl
    · intro c' hc'
      have hother := hdrop c'
      rwa [if_neg hc', Nat.add_zero] at hother
    · constructor
      · exact hshared
      · omega
      · exact hb.released
      · rw [hb.deleted, toNat_eq_ite hdel]
        split_ifs <;> omega

omit [DecidableEq W] in
/-- A new control block has one shared handle. -/
theorem Accounts.new (hops : ops.Standard) (h : Accounts ops rs rw m) (hx : rs x = none)
    (hc : m.state c = none) :
    Accounts ops (Function.update rs x (some c)) rw (m.record c ops.new false false) := by
  obtain ⟨hs, hw, hr, hd⟩ := h.fresh c hc
  apply h.record
  · intro c' hc'
    rw [tally_update_some hx, if_neg hc', Nat.add_zero]
  · intro c' _
    rfl
  · constructor
    · rw [hops.new_shared, tally_update_some hx, hs, if_pos rfl]
    · rw [hops.new_weak, hw]
    · simp [hr, tally_update_some hx]
    · simp [hd, tally_update_some hx]

omit [DecidableEq W] in
/-- Swapping shared handles keeps the accounts. -/
theorem Accounts.swapShared (h : Accounts ops rs rw m) (x y : S) :
    Accounts ops (rs ∘ Equiv.swap x y) rw m where
  fresh c hc := by
    rw [tally_comp]
    exact h.fresh c hc
  block c k hk := by
    rw [tally_comp]
    exact h.block c k hk

omit [DecidableEq S] in
/-- Swapping weak handles keeps the accounts. -/
theorem Accounts.swapWeak (h : Accounts ops rs rw m) (w w' : W) :
    Accounts ops rs (rw ∘ Equiv.swap w w') m where
  fresh c hc := by
    rw [tally_comp]
    exact h.fresh c hc
  block c k hk := by
    rw [tally_comp]
    exact h.block c k hk

end Accounts

end MacKernel.Osmemory
