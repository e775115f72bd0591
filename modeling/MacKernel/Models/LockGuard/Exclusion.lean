import MacKernel.Core.Tally
import MacKernel.Models.LockGuard.Platform

/-!
# Mutual exclusion by lock guards

In any interleaving of any number of contexts a lock is held as often as guards refer to
it, by the context that these guards belong to. Guards never release what is not held, and
only a construction waits.
-/

namespace MacKernel.LockGuard

namespace System

variable {K C G L : Type} [DecidableEq C] [DecidableEq G] [DecidableEq L] {p : Platform K C L}
variable {o : Observer K C L} {kind : L → LockKind} {s t : System K C G L} {k : K}
variable {c : C} {g : G} {l : L}

section References

/-- The lock that a guard refers to, with its context. -/
def refs (s : System K C G L) (i : C × G) : Option (C × L) :=
  (s.guards i.1 i.2).bind fun guard => guard.lock.map (i.1, ·)

omit [DecidableEq L] in
/-- A guard that is stored refers to its lock. -/
theorem refs_setGuard (s : System K C G L) (c : C) (g : G) (guard : Option (Guard L)) :
    (s.setGuard c g guard).refs =
      Function.update s.refs (c, g) (guard.bind fun guard => guard.lock.map (c, ·)) := by
  funext ⟨c', g'⟩
  rw [Function.update_apply]
  by_cases hc : c' = c
  · subst hc
    by_cases hg : g' = g
    · subst hg
      simp [refs, setGuard]
    · have hne : ¬(c', g') = (c', g) := fun h => hg (congrArg Prod.snd h)
      rw [if_neg hne]
      simp [refs, setGuard, hg]
  · have hne : ¬(c', g') = (c, g) := fun h => hc (congrArg Prod.fst h)
    rw [if_neg hne]
    simp [refs, setGuard, hc]

omit [DecidableEq C] [DecidableEq G] [DecidableEq L] in
/-- A guard that is not there refers to no lock. -/
theorem refs_eq_none (h : s.guards c g = none) : s.refs (c, g) = none := by
  rw [refs, h]
  rfl

omit [DecidableEq C] [DecidableEq G] [DecidableEq L] in
/-- A guard refers to the lock that it has. -/
theorem refs_eq_map {guard : Guard L} (h : s.guards c g = some guard) :
    s.refs (c, g) = guard.lock.map (c, ·) := by
  rw [refs, h]
  rfl

end References

section Invariant

/-- Locks are held by the contexts of the guards that refer to them. -/
structure Sound (o : Observer K C L) (kind : L → LockKind) (s : System K C G L) : Prop where
  counted : ∀ c l, (holders s.refs (some (c, l))).encard = o.depth s.machine c l
  positive : ∀ l c, o.holder s.machine l ≠ some (c, 0)
  single : ∀ l c n, o.holder s.machine l = some (c, n) → kind l ≠ .recursive → n = 1

/-- A guard on a lock that was taken. -/
theorem Sound.construct (hs : s.Sound o kind) (hnew : s.guards c g = none) {state : Bool}
    (htook : o.Took kind s.machine k c l) :
    ({ s with machine := k }.setGuard c g (some ⟨some l, state⟩)).Sound o kind := by
  obtain ⟨n, hn, hone⟩ := htook.holder
  constructor
  case counted =>
    intro c' l'
    change (holders _ _).encard = (o.depth k c' l' : ENat)
    rw [refs_setGuard, htook.depth, Nat.cast_add, ← hs.counted]
    exact (encard_holders_update_some (refs_eq_none hnew) (c, l) (c', l')).trans (by simp)
  case positive =>
    intro l' c'
    change o.holder k l' ≠ some (c', 0)
    by_cases hl : l' = l
    · subst hl
      rw [hn]
      simp
    · rw [htook.other l' hl]
      exact hs.positive l' c'
  case single =>
    intro l' c' n' hh hkind
    change o.holder k l' = _ at hh
    by_cases hl : l' = l
    · subst hl
      rw [hn] at hh
      obtain ⟨-, rfl⟩ := Prod.mk.inj (Option.some.inj hh)
      rw [hone.resolve_left hkind]
    · rw [htook.other l' hl] at hh
      exact hs.single l' c' n' hh hkind

/-- A lock that changes guards. -/
theorem Sound.move (hs : s.Sound o kind) {other : G} {d : Guard L} (hnew : s.guards c g = none)
    (hother : s.guards c other = some d) :
    ((s.setGuard c g (some ⟨d.lock, false⟩)).setGuard c other
      (some { d with lock := none })).Sound o kind := by
  have hne : (c, other) ≠ (c, g) := by
    intro h
    have hg : other = g := congrArg Prod.snd h
    rw [hg, hnew] at hother
    cases hother
  refine ⟨fun c' l' => ?_, hs.positive, hs.single⟩
  change (holders _ _).encard = (o.depth s.machine c' l' : ENat)
  rw [refs_setGuard, refs_setGuard, ← hs.counted]
  have hfree := refs_eq_none hnew
  have href := refs_eq_map hother
  cases hlock : d.lock with
  | none =>
    rw [hlock, Option.map_none] at href
    have hsame : Function.update (Function.update s.refs (c, g) none) (c, other) none = s.refs := by
      have hfirst : Function.update s.refs (c, g) none = s.refs :=
        Function.update_eq_self_iff.mpr hfree.symm
      rw [hfirst, Function.update_eq_self_iff.mpr href.symm]
    exact congrArg (fun f => (holders f _).encard) hsame
  | some l =>
    rw [hlock] at href
    have htake := encard_holders_update_some hfree (c, l) (c', l')
    have hgive := encard_holders_update_none
      ((Function.update_of_ne hne (some (c, l)) s.refs).trans href) (c', l')
    exact add_ite_cancel (hgive.trans htake)

/-- A guard that is destroyed after its lock was given up. -/
theorem Sound.destroy (hs : s.Sound o kind) {d : Guard L} (hd : s.guards c g = some d)
    (hlock : d.lock = some l) (hdropped : o.Dropped s.machine k c l) :
    ({ s with machine := k }.setGuard c g none).Sound o kind := by
  constructor
  case counted =>
    intro c' l'
    change (holders _ _).encard = (o.depth k c' l' : ENat)
    have href := refs_eq_map hd
    rw [hlock] at href
    have hgive := encard_holders_update_none href (c', l')
    rw [hs.counted, ← hdropped.depth, Nat.cast_add] at hgive
    rw [refs_setGuard]
    exact add_ite_cancel (hgive.trans (by simp))
  case positive =>
    intro l' c'
    change o.holder k l' ≠ _
    by_cases hl : l' = l
    · subst hl
      rcases hdropped.holder with hnone | ⟨n, -, hn⟩
      · rw [hnone]
        simp
      · rw [hn]
        simp
    · rw [hdropped.other l' hl]
      exact hs.positive l' c'
  case single =>
    intro l' c' n' hh hkind
    change o.holder k l' = _ at hh
    by_cases hl : l' = l
    · subst hl
      rcases hdropped.holder with hnone | ⟨n, hbefore, hn⟩
      · rw [hnone] at hh
        cases hh
      · have htwo := hs.single l' c (n + 2) hbefore hkind
        omega
    · rw [hdropped.other l' hl] at hh
      exact hs.single l' c' n' hh hkind

omit [DecidableEq L] in
/-- A guard that was moved from is destroyed. -/
theorem Sound.destroy_moved (hs : s.Sound o kind) {d : Guard L} (hd : s.guards c g = some d)
    (hlock : d.lock = none) : (s.setGuard c g none).Sound o kind := by
  refine ⟨fun c' l' => ?_, hs.positive, hs.single⟩
  change (holders _ _).encard = (o.depth s.machine c' l' : ENat)
  have href := refs_eq_map hd
  rw [hlock, Option.map_none] at href
  rw [refs_setGuard, ← hs.counted]
  rw [Option.bind_none, Function.update_eq_self_iff.mpr href.symm]

omit [DecidableEq G] [DecidableEq L] in
/-- A guard that refers to a lock shows that it is held. -/
theorem Sound.depth_ne_zero (hs : s.Sound o kind) {d : Guard L} (hd : s.guards c g = some d)
    (hlock : d.lock = some l) : o.depth s.machine c l ≠ 0 := by
  have href := refs_eq_map hd
  rw [hlock] at href
  intro hzero
  have hcount := hs.counted c l
  rw [hzero, Nat.cast_zero] at hcount
  exact Set.encard_ne_zero_of_mem (mem_holders.mpr href) hcount

end Invariant

section Step

omit [DecidableEq L] in
/-- A constructor takes its lock or waits. -/
theorem step_construct (g : G) (l : L) : s.step p kind c (.construct g l) =
    .ok ((p.lock kind s.machine c l).map fun r =>
      { s with machine := r.1 }.setGuard c g (some ⟨some l, r.2⟩)) := by
  unfold step
  dsimp only
  cases p.lock kind s.machine c l with
  | none => rfl
  | some r => rfl

omit [DecidableEq L] in
/-- A move takes the lock of the other guard. -/
theorem step_move {other : G} {d : Guard L} (hd : s.guards c other = some d) (g : G) :
    s.step p kind c (.move g other) =
      .ok (some ((s.setGuard c g (some ⟨d.lock, false⟩)).setGuard c other
        (some { d with lock := none }))) := by
  unfold step
  dsimp only
  rw [hd, deref_some, ok_bind]
  rfl

omit [DecidableEq L] in
/-- A guard that was moved from is destroyed without a lock. -/
theorem step_destroy_moved {d : Guard L} (hd : s.guards c g = some d) (hlock : d.lock = none) :
    s.step p kind c (.destroy g) = .ok (some (s.setGuard c g none)) := by
  unfold step
  dsimp only
  rw [hd, deref_some, ok_bind, hlock]
  rfl

omit [DecidableEq L] in
/-- A destructor releases its lock. -/
theorem step_destroy {d : Guard L} (hd : s.guards c g = some d) (hlock : d.lock = some l)
    (hunlock : p.unlock kind s.machine c l d.state = .ok k) :
    s.step p kind c (.destroy g) = .ok (some ({ s with machine := k }.setGuard c g none)) := by
  unfold step
  dsimp only
  rw [hd, deref_some, ok_bind, hlock]
  dsimp only
  rw [hunlock]
  rfl

end Step

section Runs

/-- No action of a context fails, and only a construction waits. -/
structure Runs (p : Platform K C L) (o : Observer K C L) (kind : L → LockKind)
    (s : System K C G L) : Prop where
  construct : ∀ c g l, ∃ u, s.step p kind c (.construct g l) = .ok u ∧
    (u = none ↔ ∃ c' n, o.holder s.machine l = some (c', n) ∧ ¬(kind l = .recursive ∧ c' = c))
  move : ∀ c g other, s.Legal c (.move g other) →
    ∃ t, s.step p kind c (.move g other) = .ok (some t)
  destroy : ∀ c g, s.Legal c (.destroy g) → ∃ t, s.step p kind c (.destroy g) = .ok (some t)

/-- Every step keeps the locks with those who guard them. -/
theorem Sound.step (hp : p.Lawful o kind) (hs : s.Sound o kind) {a : C × Act G L}
    (hstep : Step p kind s a t) : t.Sound o kind := by
  obtain ⟨c, act⟩ := a
  obtain ⟨hlegal, hstep⟩ := hstep
  cases act with
  | construct g l =>
    rw [step_construct] at hstep
    obtain ⟨⟨k, state⟩, hlock, rfl⟩ := Option.map_eq_some_iff.mp (Except.ok.inj hstep)
    exact hs.construct hlegal (hp.took_of_lock hlock).1
  | move g other =>
    obtain ⟨hnew, hother⟩ := hlegal
    obtain ⟨d, hd⟩ := Option.isSome_iff_exists.mp hother
    rw [step_move hd] at hstep
    obtain rfl := Option.some.inj (Except.ok.inj hstep)
    exact hs.move hnew hd
  | destroy g =>
    obtain ⟨d, hd⟩ := Option.isSome_iff_exists.mp hlegal
    cases hlock : d.lock with
    | none =>
      rw [step_destroy_moved hd hlock] at hstep
      obtain rfl := Option.some.inj (Except.ok.inj hstep)
      exact hs.destroy_moved hd hlock
    | some l =>
      obtain ⟨k, hunlock, hdropped, -⟩ := hp.unlock_of_depth (hs.depth_ne_zero hd hlock) d.state
      rw [step_destroy hd hlock hunlock] at hstep
      obtain rfl := Option.some.inj (Except.ok.inj hstep)
      exact hs.destroy hd hlock hdropped

/-- Locks are held for the contexts of their guards, and all actions of all contexts run. -/
structure Exclusive (p : Platform K C L) (o : Observer K C L) (kind : L → LockKind)
    (s : System K C G L) : Prop where
  /-- A guard holds its lock. -/
  locked : ∀ c g d l, s.guards c g = some d → d.lock = some l → s.Locked o c l
  /-- A lock that is held has a guard. -/
  guarded : ∀ c l, s.Locked o c l → ∃ g d, s.guards c g = some d ∧ d.lock = some l
  /-- Guards on one lock belong to one context, and to one guard unless it is recursive. -/
  exclusive : ∀ c c' g g' d d' l, s.guards c g = some d → s.guards c' g' = some d' →
    d.lock = some l → d'.lock = some l → c = c' ∧ (kind l ≠ .recursive → g = g')
  runs : s.Runs p o kind

/-- In a sound system every legal action goes through or waits for a held lock. -/
theorem Sound.runs (hp : p.Lawful o kind) (hs : s.Sound o kind) : s.Runs p o kind := by
  constructor
  case construct =>
    intro c g l
    refine ⟨_, step_construct g l, ?_⟩
    rw [Option.map_eq_none_iff]
    exact hp.lock_eq_none_iff
  case move =>
    intro c g other hlegal
    obtain ⟨d, hd⟩ := Option.isSome_iff_exists.mp hlegal.2
    exact ⟨_, step_move hd g⟩
  case destroy =>
    intro c g hlegal
    obtain ⟨d, hd⟩ := Option.isSome_iff_exists.mp hlegal
    cases hlock : d.lock with
    | none => exact ⟨_, step_destroy_moved hd hlock⟩
    | some l =>
      obtain ⟨k, hunlock, -⟩ := hp.unlock_of_depth (hs.depth_ne_zero hd hlock) d.state
      exact ⟨_, step_destroy hd hlock hunlock⟩

/-- In a sound system guards exclude each other and all actions run. -/
theorem Sound.exclusive (hp : p.Lawful o kind) (hs : s.Sound o kind) : s.Exclusive p o kind := by
  have href : ∀ {c g d l}, s.guards c g = some d → d.lock = some l →
      s.refs (c, g) = some (c, l) := by
    intro c g d l hd hlock
    rw [refs_eq_map hd, hlock]
    rfl
  have hlocked : ∀ {c g d l}, s.guards c g = some d → d.lock = some l → s.Locked o c l := by
    intro c g d l hd hlock
    obtain ⟨n, hn⟩ := Observer.holder_of_depth (hs.depth_ne_zero hd hlock)
    exact ⟨n + 1, hn⟩
  constructor
  case locked => exact fun c g d l => hlocked
  case guarded =>
    rintro c l ⟨n, hn⟩
    have hpos : (holders s.refs (some (c, l))).encard ≠ 0 := by
      rw [hs.counted, Observer.depth_eq hn]
      intro hzero
      rw [Nat.cast_eq_zero] at hzero
      exact hs.positive l c (hzero ▸ hn)
    obtain ⟨⟨c', g⟩, hrefs⟩ := Set.encard_ne_zero.mp hpos
    obtain ⟨d, hd, hmap⟩ := Option.bind_eq_some_iff.mp hrefs
    obtain ⟨l', hlock, heq⟩ := Option.map_eq_some_iff.mp hmap
    obtain ⟨rfl, rfl⟩ := Prod.mk.inj heq
    exact ⟨g, d, hd, hlock⟩
  case exclusive =>
    intro c c' g g' d d' l hd hd' hlock hlock'
    obtain ⟨n, hn⟩ := hlocked hd hlock
    obtain ⟨n', hn'⟩ := hlocked hd' hlock'
    obtain ⟨rfl, rfl⟩ := Prod.mk.inj (Option.some.inj (hn.symm.trans hn'))
    refine ⟨rfl, fun hkind => ?_⟩
    by_contra hne
    -- two guards on the lock would hold it twice
    have htwo : 1 < (holders s.refs (some (c, l))).encard := Set.one_lt_encard_iff.mpr
      ⟨(c, g), (c, g'), href hd hlock, href hd' hlock', fun h => hne (congrArg Prod.snd h)⟩
    rw [hs.counted, Observer.depth_eq hn, hs.single l c n hn hkind] at htwo
    exact absurd htwo (lt_irrefl _)
  case runs => exact hs.runs hp

/-- No guard was constructed yet and no lock is held. -/
structure Init (o : Observer K C L) (s : System K C G L) : Prop where
  guards : ∀ c g, s.guards c g = none
  holder : ∀ l, o.holder s.machine l = none

omit [DecidableEq G] [DecidableEq L] in
/-- A system without guards and held locks is sound. -/
theorem Init.sound (h : s.Init o) : s.Sound o kind := by
  constructor
  case counted =>
    intro c l
    have hdepth : o.depth s.machine c l = 0 := by
      rw [Observer.depth, h.holder]
      rfl
    rw [hdepth, Nat.cast_zero, Set.encard_eq_zero, Set.eq_empty_iff_forall_notMem]
    intro i hi
    rw [mem_holders, refs, h.guards] at hi
    cases hi
  case positive => simp [h.holder]
  case single => simp [h.holder]

/-- The locks are as the guards say in every run. -/
theorem sound_of_run (hp : p.Lawful o kind) {acts : List (C × Act G L)} (hs : s.Init o)
    (hrun : Run (Step p kind) s acts t) : t.Sound o kind :=
  hrun.invariant (Sound o kind) (fun hu hstep => hu.step hp hstep) hs.sound

/-- Lock guards exclude each other in every interleaving of their contexts, if the functions that
they call do what their headers say. -/
theorem exclusive_of_run (hp : p.Lawful o kind) {acts : List (C × Act G L)} (hs : s.Init o)
    (hrun : Run (Step p kind) s acts t) : t.Exclusive p o kind :=
  (sound_of_run hp hs hrun).exclusive hp

end Runs

end System

section TwoLocks

/-- Of two locks, one is recursive. -/
def twoKinds (l : Bool) : LockKind := if l then .recursive else .simpleInterrupt

/-- Two contexts with no guards, all locks free and interrupts enabled. -/
def idle : System (Machine Bool Bool) Bool Nat Bool :=
  ⟨⟨fun _ => none, fun _ => true⟩, fun _ _ => none⟩

/-- One context takes the recursive lock twice and moves its guard of the other lock; the other
context waits for both. -/
theorem System.exclusive_of_move : ∃ t : System (Machine Bool Bool) Bool Nat Bool,
    t.Exclusive Machine.platform Machine.observer twoKinds ∧
      (∀ g < 4, t.guards true g ≠ none) ∧ t.machine.holder true = some (true, 2) ∧
      t.step Machine.platform twoKinds false (.construct 0 true) = .ok none ∧
      t.step Machine.platform twoKinds false (.construct 0 false) = .ok none := by
  have hs : idle.Init Machine.observer := ⟨fun _ _ => rfl, fun _ => rfl⟩
  have hrun : Run (Step Machine.platform twoKinds) idle
      ([] ++ [(true, .construct 0 true)] ++ [(true, .construct 1 false)] ++
        [(true, .construct 2 true)] ++ [(true, .move 3 1)]) _ :=
    .snoc (.snoc (.snoc (.snoc .nil ⟨rfl, rfl⟩) ⟨rfl, rfl⟩) ⟨rfl, rfl⟩) ⟨⟨rfl, rfl⟩, rfl⟩
  have hexclusive := exclusive_of_run (Machine.platform_lawful twoKinds) hs hrun
  exact ⟨_, hexclusive, by decide, rfl, rfl, rfl⟩

end TwoLocks

end MacKernel.LockGuard
