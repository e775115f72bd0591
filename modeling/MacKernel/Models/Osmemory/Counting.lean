import MacKernel.Models.Osmemory.Handles
import MacKernel.Models.Osmemory.Control

/-!
# Counts of shared and weak handles

For handles outside the managed objects, the counts of a control block are the numbers
of handles attached to it, its object is released when the last shared handle goes
away, and the control block itself is deleted after the last handle of either kind.
-/

namespace MacKernel.Osmemory

section System

variable {S W C A K : Type} [DecidableEq S] [DecidableEq W] [DecidableEq C]

/-- Shared handles, weak handles and control blocks. -/
structure System (S W C A K : Type) where
  shared : Store S C A
  weak : Store W C A
  ctrls : Ctrls C K

/-- The operations on handles. -/
inductive Op (S W C A : Type) where
  | shared (op : HandleOp S)
  | weak (op : HandleOp W)
  /-- `OSSharedObject(_T* tp)`, with the control block that it allocates. -/
  | new (x : S) (tp : Option A) (c : C)
  /-- The aliasing copy, which the pointer casts use. -/
  | aliasCopy (x y : S) (p : Option A)
  /-- `OSWeakObject(const OSSharedObject& shared)`. -/
  | weaken (w : W) (x : S)
  /-- `OSWeakObject::operator=(const OSSharedObject& shared)`. -/
  | weakAssign (w : W) (x : S)
  /-- `OSWeakObject::lock`. -/
  | lock (x : S) (w : W)

/-- Handles are made in free places and from live handles, and control blocks are new. -/
def System.Ready (s : System S W C A K) : Op S W C A → Prop
  | .shared op => op.Ready s.shared
  | .weak op => op.Ready s.weak
  | .new x _ c => s.shared x = none ∧ s.ctrls.state c = none
  | .aliasCopy x y _ => s.shared x = none ∧ s.shared y ≠ none
  | .weaken w x => s.weak w = none ∧ s.shared x ≠ none
  | .weakAssign w x => s.weak w ≠ none ∧ s.shared x ≠ none
  | .lock x w => s.shared x = none ∧ s.weak w ≠ none

variable (ops : CounterOps K)

/-- `impl_saferetain` of a shared handle ignores the result of `retain_shared`. -/
def retainAny (c : C) (m : Ctrls C K) : Except Misuse (Ctrls C K) := do
  let (m, _) ← m.retainShared ops c
  return m

/-- `lock` of a weak handle. -/
def lockHandle (h : Handle C A) (m : Ctrls C K) : Except Misuse (Handle C A × Ctrls C K) :=
  match h.control with
  | none => .ok (.zero, m)
  | some c => do
    let (m, retained) ← m.retainShared ops c
    if retained then return (⟨some c, h.typedObj⟩, m) else return (.zero, m)

/-- The handle that the aliasing copy of a handle makes. -/
def Handle.aliasing (other : Handle C A) (p : Option A) : Handle C A :=
  match other.control with
  | none => .zero
  | some c => ⟨some c, p⟩

omit [DecidableEq C] in
private theorem Handle.control_aliasing (other : Handle C A) (p : Option A) :
    (other.aliasing p).control = other.control := by
  unfold Handle.aliasing
  split
  · exact Eq.symm ‹_›
  · exact Eq.symm ‹_›

/-- One operation. -/
def System.step (s : System S W C A K) : Op S W C A → Except Misuse (System S W C A K)
  | .shared op => do
    let (f, m) ← op.run (retainAny ops) (Ctrls.releaseShared ops) s.shared s.ctrls
    return { s with shared := f, ctrls := m }
  | .weak op => do
    let (f, m) ← op.run (Ctrls.retainWeak ops) (Ctrls.releaseWeak ops) s.weak s.ctrls
    return { s with weak := f, ctrls := m }
  | .new x tp c => .ok { s with
      shared := Function.update s.shared x (some ⟨some c, tp⟩)
      ctrls := s.ctrls.record c ops.new false false }
  | .aliasCopy x y p => do
    let other ← s.shared.get y
    let m ← other.safe (retainAny ops) s.ctrls
    return { s with shared := Function.update s.shared x (some (other.aliasing p)), ctrls := m }
  | .weaken w x => do
    let h ← s.shared.get x
    let m ← h.safe (Ctrls.retainWeak ops) s.ctrls
    return { s with weak := Function.update s.weak w (some h), ctrls := m }
  | .weakAssign w x => do
    let this ← s.weak.get w
    let m ← this.safe (Ctrls.releaseWeak ops) s.ctrls
    let h ← s.shared.get x
    let m ← h.safe (Ctrls.retainWeak ops) m
    return { s with weak := Function.update s.weak w (some h), ctrls := m }
  | .lock x w => do
    let this ← s.weak.get w
    let (h, m) ← lockHandle ops this s.ctrls
    return { s with shared := Function.update s.shared x (some h), ctrls := m }

end System

section Steps

variable {S W C A K : Type} [Fintype S] [Fintype W] [DecidableEq S] [DecidableEq W] [DecidableEq C]
  {ops : CounterOps K} {rs : S → Option C} {rw : W → Option C} {m m₀ : Ctrls C K}

omit [DecidableEq W] in
/-- Shared handles are counted. -/
theorem sharedLedger (hops : ops.Standard) (rw : W → Option C) (m₀ : Ctrls C K) :
    Ledger (retainAny ops) (Ctrls.releaseShared ops)
      (fun (rs : S → Option C) m => Accounts ops rs rw m ∧ Grows m₀ m) where
  retain hm hx hy := by
    obtain ⟨m', hm', hacc, hgrows⟩ := hm.1.retainShared hops hx (tally_pos hy).ne'
    exact ⟨m', by rw [retainAny, hm']; rfl, hacc, hm.2.trans hgrows⟩
  release hm hx := by
    obtain ⟨m', hm', hacc, hgrows⟩ := hm.1.releaseShared hops hx
    exact ⟨m', hm', hacc, hm.2.trans hgrows⟩
  swap x y hm := ⟨hm.1.swapShared x y, hm.2⟩

omit [DecidableEq S] in
/-- Weak handles are counted. -/
theorem weakLedger (hops : ops.Standard) (rs : S → Option C) (m₀ : Ctrls C K) :
    Ledger (Ctrls.retainWeak ops) (Ctrls.releaseWeak ops)
      (fun (rw : W → Option C) m => Accounts ops rs rw m ∧ Grows m₀ m) where
  retain hm hw hw' := by
    obtain ⟨m', hm', hacc, hgrows⟩ := hm.1.retainWeak hops hw (.inr (tally_pos hw').ne')
    exact ⟨m', hm', hacc, hm.2.trans hgrows⟩
  release hm hw := by
    obtain ⟨m', hm', hacc, hgrows⟩ := hm.1.releaseWeak hops hw
    exact ⟨m', hm', hacc, hm.2.trans hgrows⟩
  swap w w' hm := ⟨hm.1.swapWeak w w', hm.2⟩

omit [DecidableEq S] in
/-- A weak handle made from a shared one. -/
theorem Accounts.safe_weaken {x : S} {w : W} {h : Handle C A} (hops : ops.Standard)
    (hm : Accounts ops rs rw m) (hw : rw w = none) (hx : rs x = h.control) :
    ∃ m', h.safe (Ctrls.retainWeak ops) m = .ok m' ∧
      Accounts ops rs (Function.update rw w h.control) m' ∧ Grows m m' := by
  unfold Handle.safe
  cases hc : h.control with
  | none =>
    refine ⟨m, rfl, ?_, Grows.refl m⟩
    rwa [← hw, Function.update_eq_self]
  | some c => exact hm.retainWeak hops hw (.inl (tally_pos (hx.trans hc)).ne')

omit [DecidableEq W] in
/-- `lock` of a weak handle retains an object that has not been released. -/
theorem lockHandle_spec {x : S} {w : W} {h : Handle C A} (hops : ops.Standard)
    (hm : Accounts ops rs rw m) (hx : rs x = none) (hw : rw w = h.control) :
    ∃ h' m', lockHandle ops h m = .ok (h', m') ∧
      Accounts ops (Function.update rs x h'.control) rw m' ∧ Grows m m' ∧
      (h'.control ≠ none ↔ ∃ c, h.control = some c ∧ m.released c = 0) := by
  unfold lockHandle
  cases hc : h.control with
  | none =>
    refine ⟨.zero, m, rfl, ?_, Grows.refl m, ?_⟩
    · change Accounts ops (Function.update rs x none) rw m
      rwa [← hx, Function.update_eq_self]
    · simp [Handle.zero]
  | some c =>
    have hwc : tally rw (some c) ≠ 0 := (tally_pos (hw.trans hc)).ne'
    obtain ⟨k, -, hb⟩ := hm.get (.inr hwc)
    have hreleased := hb.released
    by_cases hzero : tally rs (some c) = 0
    · obtain ⟨m', hm', hacc, hgrows⟩ := hm.retainShared_fails hops hzero hwc
      refine ⟨.zero, m', ?_, ?_, hgrows, ?_⟩
      · simp only [hm', ok_bind]
        rfl
      · change Accounts ops (Function.update rs x none) rw m'
        rwa [← hx, Function.update_eq_self]
      · rw [if_pos hzero] at hreleased
        simp [Handle.zero, hreleased]
    · obtain ⟨m', hm', hacc, hgrows⟩ := hm.retainShared hops hx hzero
      refine ⟨⟨some c, h.typedObj⟩, m', ?_, hacc, hgrows, ?_⟩
      · simp only [hm', ok_bind]
        rfl
      · rw [if_neg hzero] at hreleased
        simp [hreleased]

end Steps

section Runs

variable {S W C A K : Type} [Fintype S] [Fintype W] [DecidableEq S] [DecidableEq W] [DecidableEq C]

/-- The counts of every control block are the numbers of handles attached to it. -/
def System.Sound (ops : CounterOps K) (s : System S W C A K) : Prop :=
  Accounts ops s.shared.refs s.weak.refs s.ctrls

/-- Every operation that is ready succeeds and keeps the counts. -/
theorem System.step_spec {ops : CounterOps K} {s : System S W C A K} (hops : ops.Standard)
    (hs : s.Sound ops) (op : Op S W C A) (hready : s.Ready op) :
    ∃ t, s.step ops op = .ok t ∧ t.Sound ops ∧ Grows s.ctrls t.ctrls := by
  cases op with
  | shared op =>
    obtain ⟨f, m, hrun, hacc, hgrows⟩ :=
      op.run_spec (sharedLedger hops s.weak.refs s.ctrls) hready ⟨hs, Grows.refl _⟩
    exact ⟨{ s with shared := f, ctrls := m }, by rw [System.step, hrun]; rfl, hacc, hgrows⟩
  | weak op =>
    obtain ⟨f, m, hrun, hacc, hgrows⟩ :=
      op.run_spec (weakLedger hops s.shared.refs s.ctrls) hready ⟨hs, Grows.refl _⟩
    exact ⟨{ s with weak := f, ctrls := m }, by rw [System.step, hrun]; rfl, hacc, hgrows⟩
  | new x tp c =>
    obtain ⟨hx, hc⟩ := hready
    refine ⟨_, rfl, ?_, grows_record _ _ _ _ _⟩
    have hacc := Accounts.new hops hs (Store.refs_of_free hx) hc
    rw [System.Sound, Store.refs_update]
    exact hacc
  | aliasCopy x y p =>
    obtain ⟨hx, hy⟩ := hready
    obtain ⟨other, hy⟩ := Option.ne_none_iff_exists'.mp hy
    obtain ⟨m, hm, hacc, hgrows⟩ := (sharedLedger hops s.weak.refs s.ctrls).safe_retain
      ⟨hs, Grows.refl _⟩ (Store.refs_of_free hx) (Store.refs_of_eq hy)
    refine ⟨{ s with shared := Function.update s.shared x (some (other.aliasing p)), ctrls := m },
      ?_, ?_, hgrows⟩
    · simp only [System.step, Store.get_of_eq hy, ok_bind, hm]
      rfl
    · rw [System.Sound, Store.refs_update, Option.bind_some, Handle.control_aliasing]
      exact hacc
  | weaken w x =>
    obtain ⟨hw, hx⟩ := hready
    obtain ⟨h, hx⟩ := Option.ne_none_iff_exists'.mp hx
    obtain ⟨m, hm, hacc, hgrows⟩ :=
      Accounts.safe_weaken hops hs (Store.refs_of_free hw) (Store.refs_of_eq hx)
    refine ⟨{ s with weak := Function.update s.weak w (some h), ctrls := m }, ?_, ?_, hgrows⟩
    · simp only [System.step, Store.get_of_eq hx, ok_bind, hm]
      rfl
    · rw [System.Sound, Store.refs_update]
      exact hacc
  | weakAssign w x =>
    obtain ⟨this, hw⟩ := Option.ne_none_iff_exists'.mp hready.1
    obtain ⟨h, hx⟩ := Option.ne_none_iff_exists'.mp hready.2
    obtain ⟨m₁, hm₁, hacc₁, hgrows₁⟩ :=
      (weakLedger hops s.shared.refs s.ctrls).safe_release ⟨hs, Grows.refl _⟩ hw
    obtain ⟨m₂, hm₂, hacc₂, hgrows₂⟩ :=
      hacc₁.safe_weaken hops (Function.update_self ..) (Store.refs_of_eq hx)
    refine ⟨{ s with weak := Function.update s.weak w (some h), ctrls := m₂ }, ?_, ?_,
      hgrows₁.trans hgrows₂⟩
    · simp only [System.step, Store.get_of_eq hw, Store.get_of_eq hx, ok_bind, hm₁, hm₂]
      rfl
    · rw [System.Sound, Store.refs_update]
      rw [Function.update_idem] at hacc₂
      exact hacc₂
  | lock x w =>
    obtain ⟨hx, hw⟩ := hready
    obtain ⟨this, hw⟩ := Option.ne_none_iff_exists'.mp hw
    obtain ⟨h, m, hm, hacc, hgrows, -⟩ :=
      lockHandle_spec hops hs (Store.refs_of_free hx) (Store.refs_of_eq hw)
    refine ⟨{ s with shared := Function.update s.shared x (some h), ctrls := m }, ?_, ?_, hgrows⟩
    · simp only [System.step, Store.get_of_eq hw, ok_bind, hm]
      rfl
    · rw [System.Sound, Store.refs_update]
      exact hacc

/-- An operation on handles that are ready for it. -/
def ReadyStep (ops : CounterOps K) (s : System S W C A K) (op : Op S W C A)
    (t : System S W C A K) : Prop :=
  s.Ready op ∧ s.step ops op = .ok t

/-- No handles and no control blocks. -/
def System.empty : System S W C A K where
  shared _ := none
  weak _ := none
  ctrls := ⟨fun _ => none, fun _ => 0, fun _ => 0⟩

/-- Whether a step takes the last handle from a control block, given the numbers before and
after it. -/
def lastGone (before after : Nat) : Nat := if before ≠ 0 ∧ after = 0 then 1 else 0

/-- What the counts of a state promise. -/
structure System.Counted (ops : CounterOps K) (s : System S W C A K) : Prop where
  /-- The use count is the number of shared handles; the object has been released once if
  there are none, and the control block deleted once if there are no handles at all. -/
  block : ∀ c k, s.ctrls.state c = some k →
    BlockOk ops k (tally s.shared.refs (some c)) (tally s.weak.refs (some c))
      (s.ctrls.released c) (s.ctrls.deleted c)
  /-- No operation fails; it releases an object exactly if it takes the last shared handle from
  it, and deletes a control block exactly if it takes the last handle from it. -/
  step : ∀ op, s.Ready op → ∃ t, s.step ops op = .ok t ∧ ∀ c, s.ctrls.state c ≠ none →
    t.ctrls.released c = s.ctrls.released c +
      lastGone (tally s.shared.refs (some c)) (tally t.shared.refs (some c)) ∧
    t.ctrls.deleted c = s.ctrls.deleted c +
      lastGone (tally s.shared.refs (some c) + tally s.weak.refs (some c))
        (tally t.shared.refs (some c) + tally t.weak.refs (some c))
  /-- `lock` makes a handle with an object exactly if the object has not been released. -/
  lock : ∀ x w this t, s.weak w = some this → ReadyStep ops s (.lock x w) t →
    ∃ h, t.shared x = some h ∧
      (h.control ≠ none ↔ ∃ c, this.control = some c ∧ s.ctrls.released c = 0)

variable {ops : CounterOps K} {s t : System S W C A K}

omit [DecidableEq S] [DecidableEq W] in
theorem System.sound_empty : (System.empty : System S W C A K).Sound ops where
  fresh c _ := by
    have hs : tally (System.empty : System S W C A K).shared.refs (some c) = 0 :=
      tally_eq_zero_iff.mpr fun _ => by simp [System.empty, Store.refs]
    have hw : tally (System.empty : System S W C A K).weak.refs (some c) = 0 :=
      tally_eq_zero_iff.mpr fun _ => by simp [System.empty, Store.refs]
    exact ⟨hs, hw, rfl, rfl⟩
  block c k hk := by simp [System.empty] at hk

omit [DecidableEq S] [DecidableEq W] in
/-- Between two sound states, the last handles that went away were released. -/
theorem System.Sound.released (hs : s.Sound ops) (ht : t.Sound ops)
    (hgrows : Grows s.ctrls t.ctrls) {c : C} (hc : s.ctrls.state c ≠ none) :
    t.ctrls.released c = s.ctrls.released c +
      lastGone (tally s.shared.refs (some c)) (tally t.shared.refs (some c)) ∧
    t.ctrls.deleted c = s.ctrls.deleted c +
      lastGone (tally s.shared.refs (some c) + tally s.weak.refs (some c))
        (tally t.shared.refs (some c) + tally t.weak.refs (some c)) := by
  obtain ⟨k, hk⟩ := Option.ne_none_iff_exists'.mp hc
  obtain ⟨k', hk'⟩ := Option.ne_none_iff_exists'.mp (hgrows.state c hc)
  have hb := hs.block c k hk
  have hb' := ht.block c k' hk'
  have hrel := hgrows.released c
  have hdel := hgrows.deleted c
  rw [hb.released, hb'.released] at hrel ⊢
  rw [hb.deleted, hb'.deleted] at hdel ⊢
  unfold lastGone
  constructor
  · split_ifs at hrel ⊢ <;> omega
  · split_ifs at hdel ⊢ <;> omega

theorem System.Sound.counted (hops : ops.Standard) (hs : s.Sound ops) : s.Counted ops where
  block c k hk := hs.block c k hk
  step op hready := by
    obtain ⟨t, hstep, ht, hgrows⟩ := System.step_spec hops hs op hready
    exact ⟨t, hstep, fun c hc => hs.released ht hgrows hc⟩
  lock x w this t hw hstep := by
    obtain ⟨⟨hx, -⟩, hstep⟩ := hstep
    obtain ⟨h, m, hm, -, -, hlocked⟩ :=
      lockHandle_spec hops hs (Store.refs_of_free hx) (Store.refs_of_eq hw)
    simp only [System.step, Store.get_of_eq hw, ok_bind, hm] at hstep
    refine ⟨h, ?_, hlocked⟩
    rw [← Except.ok.inj hstep]
    exact Function.update_self ..

/-- After any operations on handles that live outside the managed objects, the use count of
each control block is the number of its shared handles, each object is released once, by the
operation that takes the last shared handle, each control block is deleted once, by the one
that takes the last handle, and `lock` succeeds until the object is released. -/
theorem counted_of_run {l : List (Op S W C A)} (hops : ops.Standard)
    (h : Run (ReadyStep ops) System.empty l s) : s.Counted ops := by
  refine (h.invariant (System.Sound ops) (fun {u v op} hu hstep => ?_)
    System.sound_empty).counted hops
  obtain ⟨t, ht, hsound, -⟩ := System.step_spec hops hu op hstep.1
  exact Except.ok.inj (hstep.2.symm.trans ht) ▸ hsound

/-- The weak handle of an object whose only shared handle is gone. -/
theorem counted_after_destroy : ∃ s : System Unit Unit Unit Unit (Nat × Nat),
    Run (ReadyStep pairOps) System.empty
      [.new () (some ()) (), .weaken () (), .shared (.destroy ())] s ∧
    s.Counted pairOps ∧ s.ctrls.released () = 1 ∧ s.ctrls.deleted () = 0 := by
  have hrun : Run (ReadyStep pairOps) (System.empty : System Unit Unit Unit Unit (Nat × Nat))
      [.new () (some ()) (), .weaken () (), .shared (.destroy ())] _ :=
    .snoc (.snoc (.snoc .nil ⟨⟨rfl, rfl⟩, rfl⟩) ⟨⟨rfl, by exact Option.some_ne_none _⟩, rfl⟩)
      ⟨by exact Option.some_ne_none _, rfl⟩
  exact ⟨_, hrun, counted_of_run pairOps_standard hrun, rfl, rfl⟩

end Runs

end MacKernel.Osmemory
