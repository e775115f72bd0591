import MacKernel.Models.Atomic.Linearization

/-!
# Loops miss only when others change the variable

A thread is stale when the variable is no longer what its loop loaded. Only a change by
another thread makes it stale, and a compare-exchange that misses ends it.
-/

namespace MacKernel.Atomic

namespace System

variable {T K V : Type} [DecidableEq T] [DecidableEq V] {code : K → Call V}
variable {s s' : System T K V} {t t' : T}

/-- The variable was changed since the thread loaded it. -/
def Stale (s : System T K V) (t : T) : Prop :=
  ∃ k ov, s.pc t = .looping k ov ∧ s.value ≠ ov

/-- A compare-exchange of the thread misses. -/
def Label.misses (t : T) : Label T K V → Bool
  | .act t' .missed => t' = t
  | _ => false

/-- Another thread changes the variable. -/
def Label.changes (t : T) : Label T K V → Bool
  | .act t' .wrote => t' ≠ t
  | _ => false

omit [DecidableEq V] in
private theorem stale_setPc_of_ne (h : t ≠ t') (pc : Pc K V) :
    (s.setPc t' pc).Stale t ↔ s.Stale t := by
  simp [Stale, setPc, Function.update_of_ne h]

omit [DecidableEq V] in
private theorem not_stale_setPc {pc : Pc K V} (h : ∀ k ov, pc = .looping k ov → s.value = ov) :
    ¬(s.setPc t pc).Stale t := by
  rintro ⟨k, ov, hpc, hvalue⟩
  have hself : (s.setPc t pc).pc t = pc := Function.update_self ..
  exact hvalue (h k ov (hself.symm.trans hpc))

/-- What a step does to the staleness of a thread. -/
structure Ages (s : System T K V) (label : Label T K V) (s' : System T K V) (t : T) : Prop where
  misses : label.misses t → s.Stale t ∧ ¬s'.Stale t ∧ label.changes t = false
  keeps : label.changes t = false → s'.Stale t → s.Stale t

omit [DecidableEq V] in
/-- A step of a thread that leaves the variable and does not miss. -/
theorem ages_setPc {label : Label T K V} {pc : Pc K V} (hmiss : label.misses t = false)
    (h : ∀ k ov, pc = .looping k ov → s.value = ov) : s.Ages label (s.setPc t' pc) t := by
  refine ⟨fun hm => absurd (hmiss.symm.trans hm) nofun, fun _ hstale => ?_⟩
  by_cases ht : t = t'
  · subst ht
    exact absurd hstale (not_stale_setPc h)
  · exact (stale_setPc_of_ne ht pc).mp hstale

/-- A step of a thread that stores and returns. -/
theorem ages_setValue (v : V) (r : Ret V) :
    s.Ages (.act t' (if v = s.value then .moved else .wrote))
      ((s.setValue v).setPc t' (.returned r)) t := by
  constructor
  case misses =>
    intro hm
    split at hm <;> cases hm
  case keeps =>
    intro hchanges hstale
    by_cases ht : t = t'
    · subst ht
      exact absurd hstale (not_stale_setPc nofun)
    · have hsame : v = s.value := by
        by_contra hne
        rw [if_neg hne] at hchanges
        exact of_decide_eq_false hchanges fun h => ht h.symm
      rw [stale_setPc_of_ne ht, hsame] at hstale
      exact hstale

theorem Acts.ages {outcome : Outcome} (h : s.Acts code t' s' outcome) (t : T) :
    s.Ages (.act t' outcome) s' t := by
  cases h with
  | direct _ _ => exact ages_setValue _ _
  | load _ _ => exact ages_setPc rfl fun k ov heq => (Pc.looping.inj heq).2
  | exchanged _ _ _ => exact ages_setValue _ _
  | @again k block ov nv hpc _ _ =>
    have hfresh : ∀ k' ov', Pc.looping k s.value = .looping k' ov' → s.value = ov' :=
      fun k' ov' heq => (Pc.looping.inj heq).2
    by_cases hvalue : s.value = ov
    · rw [if_pos hvalue]
      exact ages_setPc rfl hfresh
    · rw [if_neg hvalue]
      constructor
      case misses =>
        intro hm
        obtain rfl := of_decide_eq_true hm
        exact ⟨⟨k, ov, hpc, hvalue⟩, not_stale_setPc hfresh, rfl⟩
      case keeps =>
        intro _ hstale
        by_cases ht : t = t'
        · subst ht
          exact absurd hstale (not_stale_setPc hfresh)
        · exact (stale_setPc_of_ne ht _).mp hstale
  | aborted _ _ _ => exact ages_setPc rfl nofun
  | failed _ _ _ => exact ages_setPc rfl nofun

theorem Step.ages {label : Label T K V} (h : Step code s label s') (t : T) : s.Ages label s' t := by
  cases h with
  | call k _ => exact ages_setPc rfl nofun
  | act spurious hact => exact (acts_of_act hact).ages t
  | ret _ => exact ages_setPc rfl nofun

/-- A thread misses no more often than others change the variable. -/
theorem misses_le_changes {v : V} {labels : List (Label T K V)}
    (h : Run (Step code) (init v) labels s) (t : T) :
    labels.countP (Label.misses t) ≤ labels.countP (Label.changes t) := by
  -- a thread that is stale has missed less often than that
  have hinv : labels.countP (Label.misses t) ≤ labels.countP (Label.changes t) ∧
      (s.Stale t → labels.countP (Label.misses t) < labels.countP (Label.changes t)) := by
    refine h.history (fun labels u =>
      labels.countP (Label.misses t) ≤ labels.countP (Label.changes t) ∧
        (u.Stale t → labels.countP (Label.misses t) < labels.countP (Label.changes t))) ?_ ?_
    · intro past u u' label hpast hstep
      obtain ⟨hle, hlt⟩ := hpast
      have hages := hstep.ages t
      rw [List.countP_append, List.countP_append, List.countP_singleton, List.countP_singleton]
      cases hmiss : label.misses t with
      | true =>
        obtain ⟨hstale, hfresh, hchanges⟩ := hages.misses hmiss
        have hless := hlt hstale
        rw [hchanges]
        exact ⟨hless, fun h => absurd h hfresh⟩
      | false =>
        cases hchanges : label.changes t with
        | true =>
          have hless := hle.trans_lt (Nat.lt_succ_self _)
          exact ⟨hless.le, fun _ => hless⟩
        | false => exact ⟨hle, fun h => hlt (hages.keeps hchanges h)⟩
    · refine ⟨le_rfl, ?_⟩
      rintro ⟨k, ov, hpc, -⟩
      cases hpc
  exact hinv.1

/-- A thread that misses once shows a change by another. -/
theorem misses_le_changes_retried : ∃ labels : List (Label Bool Unit Nat),
    labels.countP (Label.misses false) = 1 ∧ 1 ≤ labels.countP (Label.changes false) := by
  let code : Unit → Call Nat := fun _ => .loop fun ov => .commit (ov + 1)
  let s₀ : System Bool Unit Nat := init 0
  let s₁ := (s₀.setPc true (.called ())).setPc false (.called ())
  let s₂ := (s₁.setPc true (.looping () 0)).setPc false (.looping () 0)
  let s₃ := (s₂.setValue 1).setPc true (.returned (.completed 0 1))
  have h₁ : Run (Step code) s₀ ([] ++ [.call true ()] ++ [.call false ()]) s₁ :=
    .snoc (.snoc .nil (.call () rfl)) (.call () rfl)
  have h₂ : Run (Step code) s₀ (_ ++ [.act true .moved] ++ [.act false .moved]) s₂ :=
    .snoc (.snoc h₁ (.act false rfl)) (.act false rfl)
  have h₃ : Run (Step code) s₀ (_ ++ [.act true .wrote]) s₃ := .snoc h₂ (.act false rfl)
  have h₄ : Run (Step code) s₀ (_ ++ [.act false .missed]) (s₃.setPc false (.looping () 1)) :=
    .snoc h₃ (.act false rfl)
  exact ⟨_, rfl, misses_le_changes h₄ false⟩

end System

end MacKernel.Atomic
