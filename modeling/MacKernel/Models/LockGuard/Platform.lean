import MacKernel.Models.LockGuard.Native

/-!
# Locks as their headers describe them

What the laws of the lock functions give for `locking_primitives`: who holds a lock after it was
taken or given up, when it is waited for, and what becomes of the interrupts. A kernel that keeps
only who holds which lock shows that the laws can be met.
-/

namespace MacKernel.LockGuard

section Holding

variable {K C L : Type} [DecidableEq C] [DecidableEq L] {p : Platform K C L}
variable {o : Observer K C L} {kind : L → LockKind} {k k' : K} {c : C} {l : L}

omit [DecidableEq L] in
/-- Who holds a lock holds it as often as it is said. -/
theorem Observer.depth_eq {n : Nat} (h : o.holder k l = some (c, n)) : o.depth k c l = n := by
  rw [depth, h]
  exact if_pos rfl

omit [DecidableEq L] in
/-- How often a lock is held depends on its holder. -/
theorem Observer.depth_eq_of_holder (h : o.holder k' = o.holder k) : o.depth k' = o.depth k := by
  funext c l
  rw [depth, depth, h]

omit [DecidableEq L] in
/-- Who holds a lock at all is its holder. -/
theorem Observer.holder_of_depth (h : o.depth k c l ≠ 0) :
    ∃ n, o.holder k l = some (c, n + 1) := by
  unfold depth timesHeld at h
  split at h
  · next c' n hh =>
    split at h
    · next hc =>
      obtain ⟨n, rfl⟩ := Nat.exists_eq_succ_of_ne_zero h
      exact ⟨n, hc ▸ hh⟩
    · exact absurd rfl h
  · exact absurd rfl h

/-- The depths after one holder was replaced. -/
theorem Observer.depth_update {held : Option (C × Nat)}
    (h : o.holder k' = Function.update (o.holder k) l held) (c' : C) (l' : L) :
    o.depth k' c' l' = if l' = l then timesHeld c' held else o.depth k c' l' := by
  rw [depth, depth, h, Function.update_apply]
  split
  · rfl
  · rfl

/-- A lock is taken once more by a context. -/
structure Observer.Took (o : Observer K C L) (kind : L → LockKind) (k k' : K) (c : C) (l : L) :
    Prop where
  depth : ∀ c' l', o.depth k' c' l' = o.depth k c' l' + if (c', l') = (c, l) then 1 else 0
  holder : ∃ n, o.holder k' l = some (c, n + 1) ∧ (kind l = .recursive ∨ n = 0)
  other : ∀ l', l' ≠ l → o.holder k' l' = o.holder k l'

/-- A lock is given up once by a context. -/
structure Observer.Dropped (o : Observer K C L) (k k' : K) (c : C) (l : L) : Prop where
  depth : ∀ c' l', o.depth k' c' l' + (if (c', l') = (c, l) then 1 else 0) = o.depth k c' l'
  holder : o.holder k' l = none ∨
    ∃ n, o.holder k l = some (c, n + 2) ∧ o.holder k' l = some (c, n + 1)
  other : ∀ l', l' ≠ l → o.holder k' l' = o.holder k l'

/-- Nothing changes for the locks when the interrupts do before a lock is taken. -/
theorem Observer.Took.of_holder {k₀ : K} (h : o.Took kind k k' c l)
    (hk : o.holder k = o.holder k₀) : o.Took kind k₀ k' c l where
  depth := Observer.depth_eq_of_holder hk ▸ h.depth
  holder := h.holder
  other := hk ▸ h.other

/-- Nothing changes for the locks when the interrupts do after a lock was given up. -/
theorem Observer.Dropped.to_holder {k₁ : K} (h : o.Dropped k k' c l)
    (hk : o.holder k₁ = o.holder k') : o.Dropped k k₁ c l where
  depth := Observer.depth_eq_of_holder hk ▸ h.depth
  holder := hk ▸ h.holder
  other := hk ▸ h.other

section Locks

variable {recursive : Bool} {lock : K → C → L → Option K} {unlock : K → C → L → Except Fault K}

/-- A lock that was taken is held once more. -/
theorem Observer.Locks.took (h : o.Locks recursive lock unlock l)
    (hkind : recursive = true → kind l = .recursive) (hlock : lock k c l = some k') :
    o.Took kind k k' c l := by
  obtain ⟨hupdate, -⟩ := h.takes k c k' hlock
  -- the lock was free, or held by the same context
  have hheld : ∀ c' n, o.holder k l = some (c', n) → recursive = true ∧ c' = c := by
    intro c' n hh
    by_contra hwait
    rw [(h.waits k c).mpr ⟨c', n, hh, hwait⟩] at hlock
    cases hlock
  constructor
  case depth =>
    intro c' l'
    rw [Observer.depth_update hupdate]
    by_cases hl : l' = l
    · subst hl
      rw [if_pos rfl]
      by_cases hc : c = c'
      · simp [timesHeld, hc]
      · have hzero : o.depth k c' l' = 0 := by
          by_contra hne
          obtain ⟨n, hh⟩ := Observer.holder_of_depth hne
          exact hc (hheld c' _ hh).2.symm
        have hne : ¬(c', l') = (c, l') := fun h => hc (congrArg Prod.fst h).symm
        simp [timesHeld, hc, hne, hzero]
    · have hne : ¬(c', l') = (c, l) := fun h => hl (congrArg Prod.snd h)
      rw [if_neg hl, if_neg hne, Nat.add_zero]
  case holder =>
    refine ⟨o.depth k c l, by rw [hupdate, Function.update_self], ?_⟩
    by_cases hzero : o.depth k c l = 0
    · exact .inr hzero
    · obtain ⟨n, hh⟩ := Observer.holder_of_depth hzero
      exact .inl (hkind (hheld c _ hh).1)
  case other =>
    intro l' hl
    rw [hupdate, Function.update_of_ne hl]

/-- A lock that is held can be released. -/
theorem Observer.Locks.dropped (h : o.Locks recursive lock unlock l) (hheld : o.depth k c l ≠ 0) :
    ∃ k', unlock k c l = .ok k' ∧ o.Dropped k k' c l ∧ o.interrupts k' = o.interrupts k := by
  obtain ⟨n, hh⟩ := Observer.holder_of_depth hheld
  obtain ⟨k', hunlock, hupdate, hinterrupts⟩ := h.releases k c n hh
  refine ⟨k', hunlock, ?_, hinterrupts⟩
  constructor
  case depth =>
    intro c' l'
    rw [Observer.depth_update hupdate]
    by_cases hl : l' = l
    · subst hl
      rw [if_pos rfl, Observer.depth, hh]
      by_cases hc : c = c'
      · subst hc
        by_cases hn : n = 0
        · simp [timesHeld, hn]
        · simp [timesHeld, hn]
      · have hne : ¬c' = c := fun h => hc h.symm
        by_cases hn : n = 0
        · simp [timesHeld, hn, hc, hne]
        · simp [timesHeld, hn, hc, hne]
    · have hne : ¬(c', l') = (c, l) := fun h => hl (congrArg Prod.snd h)
      rw [if_neg hl, if_neg hne, Nat.add_zero]
  case holder =>
    rw [hupdate, Function.update_self]
    by_cases hn : n = 0
    · exact .inl (if_pos hn)
    · obtain ⟨n, rfl⟩ := Nat.exists_eq_succ_of_ne_zero hn
      exact .inr ⟨n, hh, if_neg hn⟩
  case other =>
    intro l' hl
    rw [hupdate, Function.update_of_ne hl]

end Locks

namespace Platform

omit [DecidableEq C] [DecidableEq L] in
/-- What `locking_primitives::lock` calls, with the interrupt state. -/
theorem lock_eq : p.lock kind k c l = match kind l with
    | .mutex => (p.ioLockLock k c l).map (·, false)
    | .recursive => (p.ioRecursiveLockLock k c l).map (·, false)
    | .simple => (p.ioSimpleLockLock k c l).map (·, false)
    | .simpleInterrupt =>
      (p.ioSimpleLockLock (p.mlSetInterruptsEnabled k c false).1 c l).map
        (·, (p.mlSetInterruptsEnabled k c false).2) := by
  unfold lock
  cases kind l with
  | mutex => exact (Option.map_eq_bind ..).symm
  | recursive => exact (Option.map_eq_bind ..).symm
  | simple => exact (Option.map_eq_bind ..).symm
  | simpleInterrupt => exact (Option.map_eq_bind ..).symm

/-- A lock is waited for while it is held, and a recursive one while others hold it. -/
theorem Lawful.lock_eq_none_iff (hp : p.Lawful o kind) : p.lock kind k c l = none ↔
    ∃ c' n, o.holder k l = some (c', n) ∧ ¬(kind l = .recursive ∧ c' = c) := by
  rw [lock_eq]
  cases hkind : kind l with
  | mutex => simpa using (hp.mutex l hkind).waits k c
  | recursive => simpa using (hp.recursive l hkind).waits k c
  | simple => simpa using (hp.simple l (.inl hkind)).waits k c
  | simpleInterrupt =>
    have hwaits := (hp.simple l (.inr hkind)).waits (p.mlSetInterruptsEnabled k c false).1 c
    rw [(hp.interrupts k c false).2.2] at hwaits
    simpa using hwaits

/-- Taking a lock through a guard, with what becomes of the interrupts. -/
theorem Lawful.took_of_lock (hp : p.Lawful o kind) {state : Bool}
    (h : p.lock kind k c l = some (k', state)) :
    o.Took kind k k' c l ∧
      o.interrupts k' = (if kind l = .simpleInterrupt then
        Function.update (o.interrupts k) c false else o.interrupts k) ∧
      state = (if kind l = .simpleInterrupt then o.interrupts k c else false) := by
  rw [lock_eq] at h
  cases hkind : kind l with
  | mutex =>
    simp only [hkind] at h
    obtain ⟨u, hlock, heq⟩ := Option.map_eq_some_iff.mp h
    obtain ⟨rfl, rfl⟩ := Prod.mk.inj heq
    have hlocks := hp.mutex l hkind
    exact ⟨hlocks.took nofun hlock, (hlocks.takes k c _ hlock).2, rfl⟩
  | recursive =>
    simp only [hkind] at h
    obtain ⟨u, hlock, heq⟩ := Option.map_eq_some_iff.mp h
    obtain ⟨rfl, rfl⟩ := Prod.mk.inj heq
    have hlocks := hp.recursive l hkind
    exact ⟨hlocks.took (fun _ => hkind) hlock, (hlocks.takes k c _ hlock).2, rfl⟩
  | simple =>
    simp only [hkind] at h
    obtain ⟨u, hlock, heq⟩ := Option.map_eq_some_iff.mp h
    obtain ⟨rfl, rfl⟩ := Prod.mk.inj heq
    have hlocks := hp.simple l (.inl hkind)
    exact ⟨hlocks.took nofun hlock, (hlocks.takes k c _ hlock).2, rfl⟩
  | simpleInterrupt =>
    simp only [hkind] at h
    obtain ⟨u, hlock, heq⟩ := Option.map_eq_some_iff.mp h
    obtain ⟨rfl, rfl⟩ := Prod.mk.inj heq
    have hlocks := hp.simple l (.inr hkind)
    obtain ⟨hformer, hoff, hholder⟩ := hp.interrupts k c false
    refine ⟨(hlocks.took nofun hlock).of_holder hholder, ?_, hformer⟩
    exact (hlocks.takes _ c _ hlock).2.trans hoff

/-- Giving up a lock that is held, with what becomes of the interrupts. -/
theorem Lawful.unlock_of_depth (hp : p.Lawful o kind) (h : o.depth k c l ≠ 0) (state : Bool) :
    ∃ k', p.unlock kind k c l state = .ok k' ∧ o.Dropped k k' c l ∧
      o.interrupts k' = (if kind l = .simpleInterrupt then
        Function.update (o.interrupts k) c state else o.interrupts k) := by
  unfold unlock
  cases hkind : kind l with
  | mutex => exact (hp.mutex l hkind).dropped h
  | recursive => exact (hp.recursive l hkind).dropped h
  | simple => exact (hp.simple l (.inl hkind)).dropped h
  | simpleInterrupt =>
    obtain ⟨u, hunlock, hdropped, hsame⟩ := (hp.simple l (.inr hkind)).dropped h
    obtain ⟨-, hset, hholder⟩ := hp.interrupts u c state
    refine ⟨(p.mlSetInterruptsEnabled u c state).1, ?_, hdropped.to_holder hholder, ?_⟩
    · simp only [ioSimpleLockUnlockEnableInterrupt, hunlock, ok_bind]
      rfl
    · rw [hset, hsame]
      rfl

end Platform

end Holding

section Reference

/-- A kernel that keeps nothing but what the headers speak of. -/
structure Machine (C L : Type) where
  holder : L → Option (C × Nat)
  interrupts : C → Bool

namespace Machine

variable {C L : Type} [DecidableEq C] [DecidableEq L] (m : Machine C L)

def observer : Observer (Machine C L) C L := ⟨holder, interrupts⟩

/-- Take a lock that is free, or that the context has already if it is recursive. -/
def take (recursive : Bool) (c : C) (l : L) : Option (Machine C L) :=
  match m.holder l with
  | none => some { m with holder := Function.update m.holder l (some (c, 1)) }
  | some (c', n) =>
    if recursive = true ∧ c' = c then
      some { m with holder := Function.update m.holder l (some (c, n + 1)) }
    else none

/-- Give up a lock that the context has. -/
def drop (c : C) (l : L) : Except Fault (Machine C L) :=
  match m.holder l with
  | some (c', n + 1) =>
    if c' = c then
      .ok { m with holder := Function.update m.holder l (if n = 0 then none else some (c, n)) }
    else .error .assertFailed
  | _ => .error .assertFailed

/-- Functions that do what their headers say. -/
def platform : Platform (Machine C L) C L where
  ioLockLock m := m.take false
  ioLockUnlock m := m.drop
  ioRecursiveLockLock m := m.take true
  ioRecursiveLockUnlock m := m.drop
  ioSimpleLockLock m := m.take false
  ioSimpleLockUnlock m := m.drop
  mlSetInterruptsEnabled m c enabled :=
    ({ m with interrupts := Function.update m.interrupts c enabled }, m.interrupts c)

/-- The locks of the reference machine behave as the headers say. -/
theorem locks (recursive : Bool) (l : L) :
    observer.Locks recursive (fun m : Machine C L => m.take recursive) drop l := by
  constructor
  case waits =>
    intro m c
    change take m recursive c l = none ↔ ∃ c' n, m.holder l = some (c', n) ∧ _
    unfold take
    cases hh : m.holder l with
    | none => simp
    | some held =>
      obtain ⟨c', n⟩ := held
      by_cases hrec : recursive = true ∧ c' = c
      · simp [hrec]
      · simp only [if_neg hrec, true_iff]
        exact ⟨c', n, rfl, hrec⟩
  case takes =>
    intro m c m' h
    change take m recursive c l = some m' at h
    unfold take at h
    split at h
    · next hh =>
      obtain rfl := Option.some.inj h
      refine ⟨?_, rfl⟩
      simp only [observer, Observer.depth, hh, timesHeld, Nat.zero_add]
    · next c' n hh =>
      split at h
      · next hrec =>
        obtain rfl := Option.some.inj h
        refine ⟨?_, rfl⟩
        simp only [observer, Observer.depth, hh, timesHeld, if_pos hrec.2]
      · cases h
  case releases =>
    intro m c n hh
    change m.holder l = _ at hh
    have hdrop : m.drop c l = .ok { m with
        holder := Function.update m.holder l (if n = 0 then none else some (c, n)) } := by
      simp only [drop, hh, if_true]
    exact ⟨_, hdrop, rfl, rfl⟩

/-- The reference machine behaves as the headers say. -/
theorem platform_lawful (kind : L → LockKind) :
    (platform : Platform (Machine C L) C L).Lawful observer kind where
  mutex l _ := locks false l
  recursive l _ := locks true l
  simple l _ := locks false l
  interrupts _ _ _ := ⟨rfl, rfl, rfl⟩

end Machine

end Reference

end MacKernel.LockGuard
