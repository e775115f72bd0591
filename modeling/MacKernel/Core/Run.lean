import Mathlib.Data.List.Basic

/-!
# Executions and bounded loops

Runs of a labelled step relation with their induction rule, and a fuelled loop
over a fallible body with the rule that discharges its fuel. A loop that stops
is reported through its result; a loop that exhausts its fuel is a fault, so a
proof that a program returns is also a proof that its loops end.
-/

namespace MacKernel

/-- The ways a C-level computation can go wrong. -/
inductive Fault where
  /-- A field was read or written through a null pointer. -/
  | nullDeref
  /-- A byte outside the mapped memory was read. -/
  | unmapped
  /-- An assertion of the source failed. -/
  | assertFailed
  /-- A loop was still running when its fuel ended. -/
  | diverged
  deriving DecidableEq, Repr

/-- A sequence of fallible computations returns exactly when each of them does. -/
theorem bind_eq_ok {ε α β : Type} {x : Except ε α} {f : α → Except ε β} {b : β} :
    (x >>= f) = .ok b ↔ ∃ a, x = .ok a ∧ f a = .ok b := by
  cases x with
  | error e => exact ⟨nofun, nofun⟩
  | ok a => exact ⟨fun h => ⟨a, rfl, h⟩, fun ⟨_, ha, h⟩ => Except.ok.inj ha ▸ h⟩

/-- A sequence of fallible computations fails in one of them. -/
theorem bind_eq_error {ε α β : Type} {x : Except ε α} {f : α → Except ε β} {e : ε} :
    (x >>= f) = .error e ↔ x = .error e ∨ ∃ a, x = .ok a ∧ f a = .error e := by
  cases x with
  | error e' =>
    constructor
    · intro h
      cases h
      exact .inl rfl
    · intro h
      rcases h with h | ⟨a, ha, -⟩
      · cases h
        rfl
      · cases ha
  | ok a =>
    refine ⟨fun h => .inr ⟨a, rfl, h⟩, fun h => ?_⟩
    rcases h with h | ⟨b, hb, h⟩
    · cases h
    · exact Except.ok.inj hb ▸ h

@[simp] theorem ok_bind {ε α β : Type} (a : α) (f : α → Except ε β) :
    (Except.ok a >>= f) = f a := rfl

/-- A pointer that is not null. -/
def deref {N : Type} (p : Option N) : Except Fault N :=
  match p with
  | some a => .ok a
  | none => .error .nullDeref

@[simp] theorem deref_some {N : Type} (a : N) : deref (some a) = .ok a := rfl

section Runs

variable {σ α : Type*}

/-- Finite executions of a labelled step relation, recorded with their labels. -/
inductive Run (step : σ → α → σ → Prop) (s : σ) : List α → σ → Prop where
  | nil : Run step s [] s
  | snoc {labels : List α} {t u : σ} {a : α} (run : Run step s labels t)
      (last : step t a u) : Run step s (labels ++ [a]) u

/-- A property of the labels so far and the state that every step extends holds at the
end of every run. -/
theorem Run.history {step : σ → α → σ → Prop} {s t : σ} {labels : List α}
    (inv : List α → σ → Prop)
    (hstep : ∀ {past u v a}, inv past u → step u a v → inv (past ++ [a]) v) (hs : inv [] s)
    (h : Run step s labels t) : inv labels t := by
  induction h with
  | nil => exact hs
  | snoc _ last ih => exact hstep ih last

/-- A property kept by every step holds at the end of every run that starts in it. -/
theorem Run.invariant {step : σ → α → σ → Prop} {s t : σ} {labels : List α}
    (inv : σ → Prop) (hstep : ∀ {u v a}, inv u → step u a v → inv v) (hs : inv s)
    (h : Run step s labels t) : inv t :=
  h.history (fun _ => inv) hstep hs

/-- A program whose steps are steps of a specification, or not seen by it, has runs of the
specification that show the same. -/
theorem Run.simulates {τ β γ : Type*} {step : σ → α → σ → Prop} {spec : τ → β → τ → Prop}
    (f : σ → τ) (shown : α → Option γ) (shown' : β → Option γ)
    (hstep : ∀ {u a v}, step u a v →
      (f v = f u ∧ shown a = none) ∨ ∃ b, spec (f u) b (f v) ∧ shown' b = shown a)
    {s t : σ} {labels : List α} (h : Run step s labels t) :
    ∃ labels', Run spec (f s) labels' (f t) ∧
      labels'.filterMap shown' = labels.filterMap shown := by
  induction h with
  | nil => exact ⟨[], .nil, rfl⟩
  | @snoc labels u v a _ last ih =>
    obtain ⟨labels', hrun, hshown⟩ := ih
    rcases hstep last with ⟨hsame, hnone⟩ | ⟨b, hb, hb'⟩
    · refine ⟨labels', hsame ▸ hrun, ?_⟩
      rw [List.filterMap_append, hshown]
      simp [hnone]
    · refine ⟨labels' ++ [b], hrun.snoc hb, ?_⟩
      rw [List.filterMap_append, List.filterMap_append, hshown]
      simp [List.filterMap_cons, hb']

end Runs

section Loops

variable {σ ρ : Type}

/-- Repeat a body until it returns a result; each pass costs one unit of fuel. -/
def loop (body : σ → Except Fault (σ ⊕ ρ)) : Nat → σ → Except Fault ρ
  | 0, _ => .error .diverged
  | fuel + 1, s => do
    match ← body s with
    | .inl s' => loop body fuel s'
    | .inr r => return r

theorem loop_again {body : σ → Except Fault (σ ⊕ ρ)} {s s' : σ} (fuel : Nat)
    (h : body s = .ok (.inl s')) : loop body (fuel + 1) s = loop body fuel s' := by
  simp only [loop, h, ok_bind]

theorem loop_done {body : σ → Except Fault (σ ⊕ ρ)} {s : σ} {r : ρ} (fuel : Nat)
    (h : body s = .ok (.inr r)) : loop body (fuel + 1) s = .ok r := by
  simp only [loop, h, ok_bind]
  rfl

/-- The variant rule: an invariant indexed by a bound that every further pass
lowers makes the loop return, with the postcondition established by its last pass. -/
theorem loop_spec {body : σ → Except Fault (σ ⊕ ρ)} (inv : Nat → σ → Prop) (post : ρ → Prop)
    (hbody : ∀ bound s, inv bound s →
      (∃ s' bound', bound' < bound ∧ body s = .ok (.inl s') ∧ inv bound' s') ∨
        ∃ r, body s = .ok (.inr r) ∧ post r)
    {bound fuel : Nat} {s : σ} (hs : inv bound s) (hfuel : bound < fuel) :
    ∃ r, loop body fuel s = .ok r ∧ post r := by
  induction fuel generalizing bound s with
  | zero => omega
  | succ fuel ih =>
    rcases hbody bound s hs with ⟨s', bound', hlt, hb, hs'⟩ | ⟨r, hb, hr⟩
    · rw [loop_again fuel hb]
      exact ih hs' (by omega)
    · exact ⟨r, loop_done fuel hb, hr⟩

/-- The iteration rule: an invariant of what was visited and what is left, which every pass
moves by one, makes the loop visit the whole list. -/
theorem loop_visits {α : Type} (body : σ → Except Fault (σ ⊕ ρ))
    (inv : List α → List α → σ → Prop) (post : ρ → Prop) {l : List α}
    (hdone : ∀ s, inv l [] s → ∃ r, body s = .ok (.inr r) ∧ post r)
    (hpass : ∀ visited x left s, inv visited (x :: left) s →
      ∃ s', body s = .ok (.inl s') ∧ inv (visited ++ [x]) left s')
    {fuel : Nat} {s : σ} (hs : inv [] l s) (hfuel : l.length < fuel) :
    ∃ r, loop body fuel s = .ok r ∧ post r := by
  refine loop_spec (fun bound s => ∃ visited left, visited ++ left = l ∧ left.length = bound ∧
    inv visited left s) post ?_ ⟨[], l, rfl, rfl, hs⟩ hfuel
  rintro bound s ⟨visited, left, rfl, rfl, hinv⟩
  cases left with
  | nil =>
    rw [List.append_nil] at hdone
    exact .inr (hdone s hinv)
  | cons x left =>
    obtain ⟨s', hbody, hs'⟩ := hpass visited x left s hinv
    exact .inl ⟨s', _, Nat.lt_succ_self _, hbody, visited ++ [x], left, by simp, rfl, hs'⟩

end Loops

end MacKernel
