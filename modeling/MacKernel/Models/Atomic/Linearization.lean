import MacKernel.Models.Atomic.Native

/-!
# Read-modify-write loops are atomic

A loop that completes takes effect at its last compare-exchange, and one that is aborted at
the load that gave it the value that it is aborted for. The macros are linearizable for any
number of threads and any blocks, and a compare-exchange misses no more often than other
threads change the variable.
-/

namespace MacKernel.Atomic

/-- A macro as one step: the variable and what is returned. -/
def Call.apply {V : Type} (v : V) : Call V → V × Ret V
  | .direct f => f v
  | .loop block =>
    match block v with
    | .commit nv => (nv, .completed v nv)
    | .giveUp => (v, .aborted v)
    | .fail => (v, .failed)

/-- A loop is carried out once its block does not commit the value that was loaded. -/
def Pc.phase {K V : Type} (code : K → Call V) : Pc K V → CallPhase K (Ret V)
  | .idle => .idle
  | .called k => .pending k
  | .looping k ov =>
    match code k with
    | .direct _ => .pending k
    | .loop block =>
      match block ov with
      | .commit _ => .pending k
      | .giveUp => .done (.aborted ov)
      | .fail => .done .failed
  | .returned r => .done r

namespace System

variable {T K V : Type} [DecidableEq T] [DecidableEq V] {code : K → Call V} {s s' : System T K V}

/-- The atomic object that a state stands for. -/
def object (code : K → Call V) (s : System T K V) : AtomicObject T V K (Ret V) :=
  ⟨s.value, Pc.phase code ∘ s.pc⟩

/-- The call or the return of a step. -/
def Label.event : Label T K V → Option (CallEvent T K (Ret V))
  | .call t k => some (.call t k)
  | .act _ _ => none
  | .ret t r => some (.ret t r)

/-- The ways in which a thread moves inside a macro. -/
inductive Acts (code : K → Call V) (s : System T K V) (t : T) : System T K V → Outcome → Prop where
  | direct {k : K} {f : V → V × Ret V} (h : s.pc t = .called k) (hk : code k = .direct f) :
    Acts code s t ((s.setValue (f s.value).1).setPc t (.returned (f s.value).2))
      (if (f s.value).1 = s.value then .moved else .wrote)
  | load {k : K} {block : V → Block V} (h : s.pc t = .called k) (hk : code k = .loop block) :
    Acts code s t (s.setPc t (.looping k s.value)) .moved
  | exchanged {k : K} {block : V → Block V} {nv : V} (h : s.pc t = .looping k s.value)
      (hk : code k = .loop block) (hblock : block s.value = .commit nv) :
    Acts code s t ((s.setValue nv).setPc t (.returned (.completed s.value nv)))
      (if nv = s.value then .moved else .wrote)
  | again {k : K} {block : V → Block V} {ov nv : V} (h : s.pc t = .looping k ov)
      (hk : code k = .loop block) (hblock : block ov = .commit nv) :
    Acts code s t (s.setPc t (.looping k s.value)) (if s.value = ov then .spurious else .missed)
  | aborted {k : K} {block : V → Block V} {ov : V} (h : s.pc t = .looping k ov)
      (hk : code k = .loop block) (hblock : block ov = .giveUp) :
    Acts code s t (s.setPc t (.returned (.aborted ov))) .moved
  | failed {k : K} {block : V → Block V} {ov : V} (h : s.pc t = .looping k ov)
      (hk : code k = .loop block) (hblock : block ov = .fail) :
    Acts code s t (s.setPc t (.returned .failed)) .moved

theorem pass_commit (s : System T K V) (t : T) (k : K) (ov nv : V) (spurious : Bool) :
    s.pass t k ov spurious (.commit nv) =
      if s.value = ov ∧ spurious = false then
        ((s.setValue nv).setPc t (.returned (.completed ov nv)),
          if nv = s.value then .moved else .wrote)
      else (s.setPc t (.looping k s.value), if s.value = ov then .spurious else .missed) := by
  unfold pass compareExchangeWeak
  dsimp only
  by_cases hequal : s.value = ov ∧ spurious = false
  · rw [if_pos hequal, if_pos hequal]
    rfl
  · rw [if_neg hequal, if_neg hequal]
    rfl

theorem acts_of_pass {t : T} {k : K} {block : V → Block V} {ov : V} {spurious : Bool}
    {outcome : Outcome} (hpc : s.pc t = .looping k ov) (hk : code k = .loop block)
    (h : s.pass t k ov spurious (block ov) = (s', outcome)) : s.Acts code t s' outcome := by
  cases hblock : block ov with
  | commit nv =>
    rw [hblock] at h
    rw [pass_commit] at h
    by_cases hequal : s.value = ov ∧ spurious = false
    · rw [if_pos hequal] at h
      obtain ⟨rfl, -⟩ := hequal
      obtain ⟨rfl, rfl⟩ := Prod.mk.inj h
      exact .exchanged hpc hk hblock
    · rw [if_neg hequal] at h
      obtain ⟨rfl, rfl⟩ := Prod.mk.inj h
      exact .again hpc hk hblock
  | giveUp =>
    rw [hblock] at h
    obtain ⟨rfl, rfl⟩ := Prod.mk.inj h
    exact .aborted hpc hk hblock
  | fail =>
    rw [hblock] at h
    obtain ⟨rfl, rfl⟩ := Prod.mk.inj h
    exact .failed hpc hk hblock

theorem acts_of_act {t : T} {spurious : Bool} {outcome : Outcome}
    (h : s.act code t spurious = some (s', outcome)) : s.Acts code t s' outcome := by
  unfold act at h
  split at h
  · next k hpc =>
    split at h
    · next f hk =>
      obtain ⟨rfl, rfl⟩ := Prod.mk.inj (Option.some.inj h)
      exact .direct hpc hk
    · next block hk =>
      obtain ⟨rfl, rfl⟩ := Prod.mk.inj (Option.some.inj h)
      exact .load hpc hk
  · next k ov hpc =>
    split at h
    · cases h
    · next block hk => exact acts_of_pass hpc hk (Option.some.inj h)
  · cases h

omit [DecidableEq V] in
private theorem object_setPc (code : K → Call V) (s : System T K V) (t : T) (pc : Pc K V) :
    (s.setPc t pc).object code =
      ⟨s.value, Function.update (s.object code).phase t (pc.phase code)⟩ := by
  rw [object, setPc, Function.comp_update]
  rfl

omit [DecidableEq V] in
/-- A step that leaves the phase of its thread is not seen. -/
theorem object_setPc_of_phase {t : T} {pc : Pc K V}
    (h : pc.phase code = (s.object code).phase t) : (s.setPc t pc).object code = s.object code := by
  rw [object_setPc, h, Function.update_eq_self]
  rfl

/-- A step of the object that carries out a macro of a thread. -/
def Commits (code : K → Call V) (s s' : System T K V) (t : T) : Prop :=
  ∃ k, (s.object code).phase t = .pending k ∧ s'.object code = ⟨((code k).apply s.value).1,
    Function.update (s.object code).phase t (.done ((code k).apply s.value).2)⟩

omit [DecidableEq V] in
/-- A load, whether before the first pass or by a compare-exchange that failed: a loop that the
block will not complete is carried out here. -/
theorem load_simulates {t : T} {k : K} {block : V → Block V} (hk : code k = .loop block)
    (h : (s.object code).phase t = .pending k) :
    (s.setPc t (.looping k s.value)).object code = s.object code ∨
      s.Commits code (s.setPc t (.looping k s.value)) t := by
  cases hblock : block s.value with
  | commit nv =>
    left
    apply object_setPc_of_phase
    simp only [Pc.phase, hk, hblock, h]
  | giveUp =>
    right
    refine ⟨_, h, ?_⟩
    rw [object_setPc]
    simp only [Pc.phase, Call.apply, hk, hblock]
  | fail =>
    right
    refine ⟨_, h, ?_⟩
    rw [object_setPc]
    simp only [Pc.phase, Call.apply, hk, hblock]

theorem Acts.simulates {t : T} {outcome : Outcome} (h : s.Acts code t s' outcome) :
    s'.object code = s.object code ∨ s.Commits code s' t := by
  have hphase : (s.object code).phase t = (s.pc t).phase code := rfl
  cases h with
  | @direct k f hpc hk =>
    right
    rw [hpc] at hphase
    refine ⟨k, hphase, ?_⟩
    rw [object_setPc]
    simp only [Call.apply, hk]
    rfl
  | load hpc hk =>
    rw [hpc] at hphase
    exact load_simulates hk hphase
  | @exchanged k block nv hpc hk hblock =>
    right
    have hpending : (s.object code).phase t = .pending k := by
      simp only [hphase, hpc, Pc.phase, hk, hblock]
    refine ⟨k, hpending, ?_⟩
    rw [object_setPc]
    simp only [Call.apply, hk, hblock]
    rfl
  | @again k block ov nv hpc hk hblock =>
    have hpending : (s.object code).phase t = .pending k := by
      simp only [hphase, hpc, Pc.phase, hk, hblock]
    exact load_simulates hk hpending
  | aborted hpc hk hblock =>
    left
    apply object_setPc_of_phase
    simp only [hphase, hpc, Pc.phase, hk, hblock]
  | failed hpc hk hblock =>
    left
    apply object_setPc_of_phase
    simp only [hphase, hpc, Pc.phase, hk, hblock]

/-- The operations as steps of an object. -/
def applies (code : K → Call V) (v : V) (k : K) : V × Ret V := (code k).apply v

theorem Step.simulates {label : Label T K V} (h : Step code s label s') :
    (s'.object code = s.object code ∧ label.event = none) ∨ ∃ label',
      AtomicObject.Step (applies code) (s.object code) label' (s'.object code) ∧
        label'.getLeft? = label.event := by
  cases h with
  | call k hidle =>
    right
    refine ⟨.inl (.call _ k), ?_, rfl⟩
    rw [object_setPc]
    exact .call k (congrArg (Pc.phase code) hidle)
  | act spurious hact =>
    rcases (acts_of_act hact).simulates with hsame | ⟨k, hpending, hobject⟩
    · exact .inl ⟨hsame, rfl⟩
    · have hcommit : AtomicObject.Step (applies code) (s.object code) (.inr (_, k, _)) _ :=
        .commit hpending
      exact .inr ⟨_, hobject ▸ hcommit, rfl⟩
  | ret hreturned =>
    right
    refine ⟨.inl (.ret _ _), ?_, rfl⟩
    rw [object_setPc]
    exact .ret (congrArg (Pc.phase code) hreturned)

/-- The macros are linearizable. -/
theorem linearizes_of_run {v : V} {labels : List (Label T K V)}
    (h : Run (Step code) (init v) labels s) : ∃ commits,
      AtomicObject.Linearizes (applies code) v s.value (labels.filterMap Label.event) commits ∧
        AtomicObject.Sequential (applies code) v commits s.value := by
  obtain ⟨labels', hrun, hshown⟩ :=
    h.simulates (object code) Label.event Sum.getLeft? Step.simulates
  have hlin : AtomicObject.Linearizes (applies code) v s.value (labels.filterMap Label.event)
      (labels'.filterMap Sum.getRight?) := ⟨labels', _, hrun, hshown, rfl⟩
  exact ⟨_, hlin, hlin.sequential⟩

/-- Two threads count, the second of which has to try again. -/
theorem linearizes_of_run_retried : ∃ s : System Bool Unit Nat, s.value = 2 ∧ ∃ commits,
    AtomicObject.Linearizes (applies fun _ => .loop fun ov => .commit (ov + 1)) 0 s.value
      [.call true (), .call false (), .ret true (.completed 0 1), .ret false (.completed 1 2)]
      commits ∧
      AtomicObject.Sequential (applies fun _ => .loop fun ov => .commit (ov + 1)) 0 commits
        s.value := by
  let code : Unit → Call Nat := fun _ => .loop fun ov => .commit (ov + 1)
  let s₀ : System Bool Unit Nat := init 0
  let s₁ := (s₀.setPc true (.called ())).setPc false (.called ())
  let s₂ := (s₁.setPc true (.looping () 0)).setPc false (.looping () 0)
  let s₃ := (s₂.setValue 1).setPc true (.returned (.completed 0 1))
  let s₄ := (s₃.setPc false (.looping () 1)).setPc true .idle
  let s₅ := (s₄.setValue 2).setPc false (.returned (.completed 1 2))
  have h₁ : Run (Step code) s₀ ([] ++ [.call true ()] ++ [.call false ()]) s₁ :=
    .snoc (.snoc .nil (.call () rfl)) (.call () rfl)
  have h₂ : Run (Step code) s₀ (_ ++ [.act true .moved] ++ [.act false .moved]) s₂ :=
    .snoc (.snoc h₁ (.act false rfl)) (.act false rfl)
  have h₃ : Run (Step code) s₀ (_ ++ [.act true .wrote]) s₃ := .snoc h₂ (.act false rfl)
  have h₄ : Run (Step code) s₀ (_ ++ [.act false .missed] ++ [.ret true (.completed 0 1)]) s₄ :=
    .snoc (.snoc h₃ (.act false rfl)) (.ret rfl)
  have h₅ : Run (Step code) s₀ (_ ++ [.act false .wrote]) s₅ := .snoc h₄ (.act false rfl)
  exact ⟨s₅.setPc false .idle, rfl, linearizes_of_run (h₅.snoc (.ret rfl))⟩

end System

end MacKernel.Atomic
