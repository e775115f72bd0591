import MacKernel.Models.LockGuard.Exclusion

/-!
# Interrupts under lock guards

What a context sees of the system changes by its own actions only. A block of nested scopes
therefore leaves interrupts as it found them, in any interleaving, unless the guard of an
outermost interrupt lock is moved: the guard that it is moved to starts without the state
that was saved.
-/

namespace MacKernel.LockGuard

/-- The interrupts and the guards of one context. -/
@[ext]
structure View (G L : Type) where
  interrupts : Bool
  guards : G → Option (Guard L)

/-- A guard that was moved from. -/
def Guard.release {L : Type} (d : Guard L) : Guard L := { d with lock := none }

namespace View

variable {G L : Type} [DecidableEq G] (kind : L → LockKind)

/-- An action of the context, as it sees it. -/
def act (v : View G L) : Act G L → View G L
  | .construct g l =>
    if kind l = .simpleInterrupt then
      ⟨false, Function.update v.guards g (some ⟨some l, v.interrupts⟩)⟩
    else ⟨v.interrupts, Function.update v.guards g (some ⟨some l, false⟩)⟩
  | .move g other =>
    match v.guards other with
    | some o => { v with guards := Function.update (Function.update v.guards g
        (some ⟨o.lock, false⟩)) other (some o.release) }
    | none => v
  | .destroy g =>
    let interrupts := match v.guards g with
      | some ⟨some l, state⟩ => if kind l = .simpleInterrupt then state else v.interrupts
      | _ => v.interrupts
    ⟨interrupts, Function.update v.guards g none⟩

end View

namespace System

variable {K C G L : Type} [DecidableEq C] [DecidableEq G] [DecidableEq L] {p : Platform K C L}
variable {o : Observer K C L} {kind : L → LockKind} {s t : System K C G L} {c : C}

/-- What a context sees. -/
def view (o : Observer K C L) (s : System K C G L) (c : C) : View G L :=
  ⟨o.interrupts s.machine c, s.guards c⟩

omit [DecidableEq L] in
/-- A guard that is stored changes the view of its context only. -/
theorem view_setGuard (s : System K C G L) (c c' : C) (g : G) (guard : Option (Guard L)) :
    (s.setGuard c g guard).view o c' =
      if c' = c then ⟨o.interrupts s.machine c, Function.update (s.guards c) g guard⟩
      else s.view o c' := by
  by_cases hc : c' = c
  · subst hc
    simp [view, setGuard]
  · simp [view, setGuard, hc]

/-- An action of a context changes its own view only. -/
theorem view_of_step (hp : p.Lawful o kind) (hs : s.Sound o kind) {a : C × Act G L}
    (h : Step p kind s a t) (c : C) :
    t.view o c = if c = a.1 then (s.view o c).act kind a.2 else s.view o c := by
  obtain ⟨c', act⟩ := a
  obtain ⟨hlegal, hstep⟩ := h
  cases act with
  | construct g l =>
    rw [step_construct] at hstep
    obtain ⟨⟨k, state⟩, hlock, rfl⟩ := Option.map_eq_some_iff.mp (Except.ok.inj hstep)
    obtain ⟨-, hinterrupts, hstate⟩ := hp.took_of_lock hlock
    rw [view_setGuard, hinterrupts, hstate]
    by_cases hc : c = c'
    · subst hc
      by_cases hkind : kind l = .simpleInterrupt
      · simp [View.act, view, hkind]
      · simp [View.act, view, hkind]
    · by_cases hkind : kind l = .simpleInterrupt
      · simp [view, hc, hinterrupts, hkind]
      · simp [view, hc, hinterrupts, hkind]
  | move g other =>
    obtain ⟨hnew, hother⟩ := hlegal
    obtain ⟨d, hd⟩ := Option.isSome_iff_exists.mp hother
    rw [step_move hd] at hstep
    obtain rfl := Option.some.inj (Except.ok.inj hstep)
    by_cases hc : c = c'
    · subst hc
      dsimp only at hd
      simp [View.act, view, setGuard, hd, Guard.release]
    · simp [view, setGuard, hc]
  | destroy g =>
    obtain ⟨⟨lock, state⟩, hd⟩ := Option.isSome_iff_exists.mp hlegal
    dsimp only at hd
    cases lock with
    | none =>
      rw [step_destroy_moved hd rfl] at hstep
      obtain rfl := Option.some.inj (Except.ok.inj hstep)
      by_cases hc : c = c'
      · subst hc
        simp [View.act, view, setGuard, hd]
      · simp [view, setGuard, hc]
    | some l =>
      obtain ⟨k, hunlock, -, hinterrupts⟩ := hp.unlock_of_depth (hs.depth_ne_zero hd rfl) state
      rw [step_destroy hd rfl hunlock] at hstep
      obtain rfl := Option.some.inj (Except.ok.inj hstep)
      by_cases hc : c = c'
      · subst hc
        by_cases hkind : kind l = .simpleInterrupt
        · simp [View.act, view, setGuard, hd, hinterrupts, hkind]
        · simp [View.act, view, setGuard, hd, hinterrupts, hkind]
      · by_cases hkind : kind l = .simpleInterrupt
        · simp [view, setGuard, hc, hinterrupts, hkind]
        · simp [view, setGuard, hc, hinterrupts, hkind]

/-- The actions of one context in a run of all of them. -/
def own (c : C) (acts : List (C × Act G L)) : List (Act G L) :=
  (acts.filter fun a => c = a.1).map Prod.snd

omit [DecidableEq G] [DecidableEq L] in
/-- The actions of a context in two runs. -/
theorem own_append (acts acts' : List (C × Act G L)) :
    own c (acts ++ acts') = own c acts ++ own c acts' := by
  rw [own, List.filter_append, List.map_append]
  rfl

/-- What a context sees of a run are its own actions. -/
theorem view_of_run (hp : p.Lawful o kind) (hs : s.Sound o kind) {acts : List (C × Act G L)}
    (hrun : Run (Step p kind) s acts t) :
    t.view o c = (own c acts).foldl (View.act kind) (s.view o c) := by
  refine (hrun.history (fun acts u => u.Sound o kind ∧
    u.view o c = (own c acts).foldl (View.act kind) (s.view o c)) ?_ ⟨hs, rfl⟩).2
  rintro past u v a ⟨hu, ih⟩ hstep
  refine ⟨hu.step hp hstep, ?_⟩
  rw [view_of_step hp hu hstep, own_append, List.foldl_append, ← ih]
  by_cases hc : c = a.1
  · simp [own, hc]
  · simp [own, hc]

end System

/-- Nested scopes with `n` guards around them, the guard of a scope being named by its depth. -/
inductive Block (L : Type) : Nat → Type where
  | skip {n : Nat} : Block L n
  | seq {n : Nat} (first second : Block L n) : Block L n
  /-- `LockGuard g(lock); body`. -/
  | scope {n : Nat} (lock : L) (body : Block L (n + 1)) : Block L n
  /-- `LockGuard g(std::move(other)); body`. -/
  | move {n : Nat} (other : Fin n) (body : Block L (n + 1)) : Block L n

namespace Block

variable {L : Type} {n : Nat}

def actions {n : Nat} : Block L n → List (Act Nat L)
  | skip => []
  | seq first second => first.actions ++ second.actions
  | scope l body => .construct n l :: (body.actions ++ [.destroy n])
  | move other body => .move n other :: (body.actions ++ [.destroy n])

/-- A guard is moved from. -/
def moves (g : Nat) {n : Nat} : Block L n → Bool
  | skip => false
  | seq first second => first.moves g || second.moves g
  | scope _ body => body.moves g
  | move other body => other == g || body.moves g

/-- The guard of an outermost interrupt lock is moved from. -/
def leaks (kind : L → LockKind) {n : Nat} : Block L n → Bool
  | skip => false
  | seq first second => first.leaks kind || second.leaks kind
  | scope l body => if kind l = .simpleInterrupt then body.moves n else body.leaks kind
  | move _ body => body.leaks kind

end Block

namespace View

variable {L : Type} {kind : L → LockKind} {n : Nat} {v : View Nat L}

/-- The guards of the scopes around a block, with interrupts disabled by interrupt locks. -/
structure Nested (kind : L → LockKind) (v : View Nat L) (n : Nat) : Prop where
  live : ∀ g < n, (v.guards g).isSome
  fresh : ∀ g, n ≤ g → v.guards g = none
  disabled : ∀ g d l, v.guards g = some d → d.lock = some l → kind l = .simpleInterrupt →
    v.interrupts = false

/-- A block as one action. -/
def after (kind : L → LockKind) (v : View Nat L) (b : Block L n) : View Nat L where
  interrupts := v.interrupts && !b.leaks kind
  guards g := if b.moves g then (v.guards g).map Guard.release else v.guards g

@[simp] theorem release_lock (d : Guard L) : d.release.lock = none := rfl

@[simp] theorem release_release (d : Guard L) : d.release.release = d.release := rfl

/-- A block leaves the guards of the scopes around it nested. -/
theorem Nested.after (h : v.Nested kind n) (b : Block L n) : (v.after kind b).Nested kind n := by
  constructor
  case live =>
    intro g hg
    have hlive := h.live g hg
    unfold View.after
    dsimp only
    split
    · rw [Option.isSome_map]
      exact hlive
    · exact hlive
  case fresh =>
    intro g hg
    simp [View.after, h.fresh g hg]
  case disabled =>
    intro g d l hd hlock hkind
    unfold View.after at hd
    dsimp only at hd
    split at hd
    · obtain ⟨d', -, rfl⟩ := Option.map_eq_some_iff.mp hd
      cases hlock
    · simp [View.after, h.disabled g d l hd hlock hkind]

/-- The empty block changes nothing. -/
theorem after_skip : v.after kind (.skip : Block L n) = v := by
  ext <;> simp [after, Block.leaks, Block.moves]

/-- Blocks run one after the other. -/
theorem after_seq (first second : Block L n) :
    (v.after kind first).after kind second = v.after kind (.seq first second) := by
  unfold after
  ext1
  · simp [Block.leaks, Bool.and_assoc]
  · funext g
    by_cases hfirst : first.moves g
    · by_cases hsecond : second.moves g
      · simp [Block.moves, hfirst, hsecond, Option.map_map, Function.comp_def]
      · simp [Block.moves, hfirst, hsecond]
    · simp [Block.moves, hfirst]

/-- The guard of a scope is constructed. -/
theorem Nested.construct (h : v.Nested kind n) (l : L) :
    (v.act kind (.construct n l)).Nested kind (n + 1) := by
  have hguards : (v.act kind (.construct n l)).guards = Function.update v.guards n
      (some ⟨some l, if kind l = .simpleInterrupt then v.interrupts else false⟩) := by
    unfold act
    dsimp only
    split <;> rfl
  constructor
  case live =>
    intro g hg
    rw [hguards]
    by_cases hn : g = n
    · simp [hn]
    · rw [Function.update_of_ne hn]
      exact h.live g (by omega)
  case fresh =>
    intro g hg
    rw [hguards, Function.update_of_ne (by omega)]
    exact h.fresh g (by omega)
  case disabled =>
    intro g d l' hd hlock hkind
    by_cases hown : kind l = .simpleInterrupt
    · simp [act, hown]
    · -- the new guard is not on an interrupt lock
      have hn : g ≠ n := by
        rintro rfl
        rw [hguards, Function.update_self] at hd
        obtain rfl := Option.some.inj hd
        obtain rfl := Option.some.inj hlock
        exact hown hkind
      rw [hguards, Function.update_of_ne hn] at hd
      simp [act, hown, h.disabled g d l' hd hlock hkind]

/-- The guard of a scope takes over a lock. -/
theorem Nested.move (h : v.Nested kind n) (other : Fin n) :
    (v.act kind (.move n other)).Nested kind (n + 1) := by
  obtain ⟨o, ho⟩ := Option.isSome_iff_exists.mp (h.live other other.isLt)
  have hact : v.act kind (.move n other) = ⟨v.interrupts, Function.update
      (Function.update v.guards n (some ⟨o.lock, false⟩)) other (some o.release)⟩ := by
    unfold act
    dsimp only
    rw [ho]
  rw [hact]
  constructor
  case live =>
    intro g hg
    dsimp only
    by_cases hother : g = other
    · simp [hother]
    · rw [Function.update_of_ne hother]
      by_cases hn : g = n
      · simp [hn]
      · rw [Function.update_of_ne hn]
        exact h.live g (by omega)
  case fresh =>
    intro g hg
    have hother : g ≠ other := by omega
    dsimp only
    rw [Function.update_of_ne hother, Function.update_of_ne (by omega)]
    exact h.fresh g (by omega)
  case disabled =>
    intro g d l hd hlock hkind
    dsimp only at hd ⊢
    by_cases hother : g = other
    · rw [hother, Function.update_self] at hd
      obtain rfl := Option.some.inj hd
      cases hlock
    · rw [Function.update_of_ne hother] at hd
      by_cases hn : g = n
      · rw [hn, Function.update_self] at hd
        obtain rfl := Option.some.inj hd
        exact h.disabled other o l ho hlock hkind
      · rw [Function.update_of_ne hn] at hd
        exact h.disabled g d l hd hlock hkind

/-- A scope constructs a guard, runs its body and destroys the guard. -/
theorem act_scope (h : v.Nested kind n) (l : L) (body : Block L (n + 1)) :
    ((v.act kind (.construct n l)).after kind body).act kind (.destroy n) =
      v.after kind (.scope l body) := by
  have hfresh := h.fresh n le_rfl
  ext1
  · by_cases hkind : kind l = .simpleInterrupt
    · by_cases hmoves : body.moves n
      · simp [act, after, Block.leaks, hkind, hmoves, Guard.release]
      · simp [act, after, Block.leaks, hkind, hmoves]
    · by_cases hmoves : body.moves n
      · simp [act, after, Block.leaks, hkind, hmoves, Guard.release]
      · simp [act, after, Block.leaks, hkind, hmoves]
  · funext g
    by_cases hn : g = n
    · subst hn
      simp [act, after, hfresh]
    · have hguards : (v.act kind (.construct n l)).guards g = v.guards g := by
        unfold act
        dsimp only
        split <;> exact Function.update_of_ne hn ..
      have hdestroy : (((v.act kind (.construct n l)).after kind body).act kind
          (.destroy n)).guards g = ((v.act kind (.construct n l)).after kind body).guards g :=
        Function.update_of_ne hn ..
      rw [hdestroy]
      unfold after
      dsimp only
      rw [hguards]
      rfl

/-- A scope that moves a guard from around it. -/
theorem act_move (h : v.Nested kind n) (other : Fin n) (body : Block L (n + 1)) :
    ((v.act kind (.move n other)).after kind body).act kind (.destroy n) =
      v.after kind (.move other body) := by
  obtain ⟨o, ho⟩ := Option.isSome_iff_exists.mp (h.live other other.isLt)
  have hfresh := h.fresh n le_rfl
  have hne : n ≠ other := by omega
  ext1
  · by_cases hmoves : body.moves n
    · simp [act, after, Block.leaks, ho, hne, hmoves, Guard.release]
    · cases hlock : o.lock with
      | none => simp [act, after, Block.leaks, ho, hne, hmoves, hlock]
      | some l =>
        by_cases hkind : kind l = .simpleInterrupt
        · have hoff := h.disabled other o l ho hlock hkind
          simp [act, after, Block.leaks, ho, hne, hmoves, hlock, hkind, hoff]
        · simp [act, after, Block.leaks, ho, hne, hmoves, hlock, hkind]
  · funext g
    by_cases hn : g = n
    · subst hn
      simp [act, after, hfresh, ho]
    · by_cases hother : g = other
      · subst hother
        by_cases hmoves : body.moves other
        · simp [act, after, Block.moves, hn, ho, hmoves]
        · simp [act, after, Block.moves, hn, ho, hmoves]
      · have hother' : ¬(other : Nat) = g := fun h => hother h.symm
        simp [act, after, Block.moves, hn, ho, hother, hother']

/-- A block runs as its actions. -/
theorem act_block (b : Block L n) (h : v.Nested kind n) :
    b.actions.foldl (act kind) v = v.after kind b := by
  induction b generalizing v with
  | skip => exact after_skip.symm
  | seq first second ihFirst ihSecond =>
    rw [Block.actions, List.foldl_append, ihFirst h, ihSecond (h.after first), after_seq]
  | scope l body ih =>
    rw [Block.actions, List.foldl_cons, List.foldl_append, ih (h.construct l), List.foldl_cons,
      List.foldl_nil, act_scope h]
  | move other body ih =>
    rw [Block.actions, List.foldl_cons, List.foldl_append, ih (h.move other), List.foldl_cons,
      List.foldl_nil, act_move h]

end View

section Runs

variable {K C L : Type} [DecidableEq C] [DecidableEq L] {p : Platform K C L}
variable {o : Observer K C L} {kind : L → LockKind} {s₀ s t : System K C Nat L} {c : C}

/-- In every run, after a block of a context, whatever others do meanwhile; if the functions that
are called do what their headers say. -/
theorem System.interrupts_of_block (hp : p.Lawful o kind) {past acts : List (C × Act Nat L)}
    {b : Block L 0} (h₀ : s₀.Init o) (hpast : Run (Step p kind) s₀ past s)
    (hfree : ∀ g, s.guards c g = none) (hrun : Run (Step p kind) s acts t)
    (hown : own c acts = b.actions) :
    o.interrupts t.machine c = (o.interrupts s.machine c && !b.leaks kind) ∧
      ∀ g, t.guards c g = none := by
  have hnested : (s.view o c).Nested kind 0 := by
    refine ⟨nofun, fun g _ => hfree g, fun g d l hd => ?_⟩
    exact nomatch (hfree g).symm.trans hd
  have hview := view_of_run (c := c) hp (sound_of_run hp h₀ hpast) hrun
  rw [hown, View.act_block b hnested] at hview
  refine ⟨congrArg View.interrupts hview, fun g => ?_⟩
  have hg := congrFun (congrArg View.guards hview) g
  simpa [View.after, view, hfree] using hg

/-- Two contexts on one interrupt lock, the first of which moves its guard. -/
theorem System.interrupts_of_block_moved : ∃ t : System (Machine Bool Bool) Bool Nat Bool,
    t.machine.interrupts true = false ∧ t.machine.interrupts false = true ∧
      ∀ g, t.guards true g = none := by
  have h₀ : idle.Init Machine.observer := ⟨fun _ _ => rfl, fun _ => rfl⟩
  let b : Block Bool 0 := .scope false (.move 0 .skip)
  have hpast : Run (Step Machine.platform twoKinds) idle
      ([] ++ [(false, .construct 0 false)] ++ [(false, .destroy 0)]) _ :=
    .snoc (.snoc .nil ⟨rfl, rfl⟩) ⟨rfl, rfl⟩
  let acts : List (Bool × Act Nat Bool) :=
    [] ++ [(true, .construct 0 false)] ++ [(true, .move 1 0)] ++ [(true, .destroy 1)] ++
      [(false, .construct 0 false)] ++ [(true, .destroy 0)] ++ [(false, .destroy 0)]
  obtain ⟨hoff, hnone⟩ := interrupts_of_block (Machine.platform_lawful twoKinds) h₀ hpast
    (b := b) (c := true) (fun _ => rfl)
    (show Run _ _ acts _ from
      .snoc (.snoc (.snoc (.snoc (.snoc (.snoc .nil ⟨rfl, rfl⟩) ⟨⟨rfl, rfl⟩, rfl⟩) ⟨rfl, rfl⟩)
        ⟨rfl, rfl⟩) ⟨rfl, rfl⟩) ⟨rfl, rfl⟩) rfl
  exact ⟨_, hoff, rfl, hnone⟩

end Runs

end MacKernel.LockGuard
