import MacKernel.Core.Run

/-!
# Refinement of runs

A specification gives each operation a precondition, an effect and a result. A
program that returns the result of every admissible operation, and stays related to
its specification, does so along every admissible run.
-/

namespace MacKernel

variable {τ α : Type*}

/-- What operations `α` do to abstract states `τ`, with results `ο`. -/
structure Spec (τ α : Type*) (ο : Type) where
  pre : τ → α → Prop
  apply : τ → α → τ
  result : τ → α → ο

variable {σ ο : Type}

namespace Spec

/-- Every operation of a run is admissible where it is called. -/
def Admissible (spec : Spec τ α ο) : τ → List α → Prop
  | _, [] => True
  | t, op :: ops => spec.pre t op ∧ spec.Admissible (spec.apply t op) ops

/-- The abstract state after a run. -/
def applyAll (spec : Spec τ α ο) (t : τ) (ops : List α) : τ := ops.foldl spec.apply t

/-- The results of a run. -/
def results (spec : Spec τ α ο) : τ → List α → List ο
  | _, [] => []
  | t, op :: ops => spec.result t op :: spec.results (spec.apply t op) ops

theorem admissible_of_forall (spec : Spec τ α ο) {ops : List α}
    (h : ∀ op ∈ ops, ∀ t, spec.pre t op) (t : τ) : spec.Admissible t ops := by
  induction ops generalizing t with
  | nil => trivial
  | cons op ops ih =>
    exact ⟨h op List.mem_cons_self t, ih (fun op hop => h op (List.mem_cons_of_mem _ hop)) _⟩

end Spec

/-- Run a fallible step function, with the result of every step. -/
def execAll (step : σ → α → Except Fault (σ × ο)) :
    σ → List α → Except Fault (σ × List ο)
  | s, [] => .ok (s, [])
  | s, op :: ops => do
    let (s, out) ← step s op
    let (s, outs) ← execAll step s ops
    return (s, out :: outs)

/-- A step that returns nothing of its own. -/
theorem exists_ok_pair {run : Except Fault σ} {p : σ → Prop} (out : ο)
    (h : ∃ s, run = .ok s ∧ p s) :
    ∃ s, (run >>= fun s => .ok (s, out)) = .ok (s, out) ∧ p s := by
  obtain ⟨s, hrun, hs⟩ := h
  exact ⟨s, by rw [hrun, ok_bind], hs⟩

variable {step : σ → α → Except Fault (σ × ο)}

theorem execAll_cons {s s₁ s₂ : σ} {op : α} {ops : List α} {out : ο} {outs : List ο}
    (hstep : step s op = .ok (s₁, out)) (hrest : execAll step s₁ ops = .ok (s₂, outs)) :
    execAll step s (op :: ops) = .ok (s₂, out :: outs) := by
  rw [execAll, hstep, ok_bind]
  simp only [hrest, ok_bind]
  rfl

/-- A step that refines its specification makes every admissible run do so. -/
theorem execAll_refines (spec : Spec τ α ο) (rel : σ → τ → Prop)
    (hstep : ∀ {s t op}, rel s t → spec.pre t op →
      ∃ s', step s op = .ok (s', spec.result t op) ∧ rel s' (spec.apply t op))
    {s : σ} {t : τ} {ops : List α} (h : rel s t) (hops : spec.Admissible t ops) :
    ∃ s', execAll step s ops = .ok (s', spec.results t ops) ∧ rel s' (spec.applyAll t ops) := by
  induction ops generalizing s t with
  | nil => exact ⟨s, rfl, h⟩
  | cons op ops ih =>
    obtain ⟨s₁, hs₁, h₁⟩ := hstep h hops.1
    obtain ⟨s₂, hs₂, h₂⟩ := ih h₁ hops.2
    exact ⟨s₂, execAll_cons hs₁ hs₂, h₂⟩

/-- A step that refines its specification while the abstract state is smaller than its fuel does so
along every admissible run that cannot outgrow the fuel. -/
theorem execAll_refines_of_fuel (spec : Spec τ α ο) (rel : σ → τ → Prop) (size : τ → Nat)
    (hsize : ∀ t op, size (spec.apply t op) ≤ size t + 1) {fuel : Nat}
    (hstep : ∀ {s t op}, rel s t → spec.pre t op → size t < fuel →
      ∃ s', step s op = .ok (s', spec.result t op) ∧ rel s' (spec.apply t op))
    {s : σ} {t : τ} {ops : List α} (h : rel s t) (hops : spec.Admissible t ops)
    (hfuel : size t + ops.length < fuel) :
    ∃ s', execAll step s ops = .ok (s', spec.results t ops) ∧ rel s' (spec.applyAll t ops) ∧
      size (spec.applyAll t ops) < fuel := by
  induction ops generalizing s t with
  | nil => exact ⟨s, rfl, h, hfuel⟩
  | cons op ops ih =>
    rw [List.length_cons] at hfuel
    have hgrow := hsize t op
    obtain ⟨s₁, hs₁, h₁⟩ := hstep h hops.1 (by omega)
    obtain ⟨s₂, hs₂, h₂⟩ := ih h₁ hops.2 (by omega)
    exact ⟨s₂, execAll_cons hs₁ hs₂, h₂⟩

/-- A step that refines its specification while fewer steps were taken than its fuel does so along
every admissible run that is shorter than the fuel. -/
theorem execAll_refines_of_length (spec : Spec τ α ο) (rel : σ → τ → Nat → Prop) {fuel : Nat}
    (hstep : ∀ {s t op n}, rel s t n → spec.pre t op → n < fuel →
      ∃ s', step s op = .ok (s', spec.result t op) ∧ rel s' (spec.apply t op) (n + 1))
    {s : σ} {t : τ} {n : Nat} {ops : List α} (h : rel s t n) (hops : spec.Admissible t ops)
    (hfuel : n + ops.length ≤ fuel) :
    ∃ s', execAll step s ops = .ok (s', spec.results t ops) ∧
      rel s' (spec.applyAll t ops) (n + ops.length) := by
  induction ops generalizing s t n with
  | nil => exact ⟨s, rfl, h⟩
  | cons op ops ih =>
    rw [List.length_cons] at hfuel ⊢
    obtain ⟨s₁, hs₁, h₁⟩ := hstep h hops.1 (by omega)
    obtain ⟨s₂, hs₂, h₂⟩ := ih h₁ hops.2 (by omega)
    rw [Nat.add_right_comm] at h₂
    exact ⟨s₂, execAll_cons hs₁ hs₂, h₂⟩

/-- What every step keeps holds after every run. -/
theorem execAll_invariant (inv : σ → Prop)
    (hstep : ∀ {s s' op out}, inv s → step s op = .ok (s', out) → inv s')
    {s s' : σ} {ops : List α} {outs : List ο} (h : inv s)
    (hrun : execAll step s ops = .ok (s', outs)) : inv s' := by
  induction ops generalizing s outs with
  | nil =>
    obtain rfl : s = s' := congrArg Prod.fst (Except.ok.inj hrun)
    exact h
  | cons op ops ih =>
    obtain ⟨⟨s₁, out⟩, hs₁, hrest⟩ := bind_eq_ok.mp hrun
    obtain ⟨⟨s₂, outs₂⟩, hs₂, hlast⟩ := bind_eq_ok.mp hrest
    obtain rfl : s₂ = s' := congrArg Prod.fst (Except.ok.inj hlast)
    exact ih (hstep h hs₁) hs₂

/-- What the states hold is neither lost nor duplicated by a run whose steps do not: what was
given up, followed by what is held, is what was held followed by what was taken in. -/
theorem execAll_conserves {β : Type} (inv : σ → Prop) (held : σ → List β) (taken : α → List β)
    (given : ο → List β)
    (hstep : ∀ {s s' op out}, inv s → step s op = .ok (s', out) →
      inv s' ∧ given out ++ held s' = held s ++ taken op)
    {s s' : σ} {ops : List α} {outs : List ο} (h : inv s)
    (hrun : execAll step s ops = .ok (s', outs)) :
    inv s' ∧ outs.flatMap given ++ held s' = held s ++ ops.flatMap taken := by
  induction ops generalizing s outs with
  | nil =>
    obtain ⟨rfl, rfl⟩ := Prod.mk.inj (Except.ok.inj hrun)
    exact ⟨h, (List.append_nil _).symm⟩
  | cons op ops ih =>
    obtain ⟨⟨s₁, out⟩, hs₁, hrest⟩ := bind_eq_ok.mp hrun
    obtain ⟨⟨s₂, outs₂⟩, hs₂, hlast⟩ := bind_eq_ok.mp hrest
    obtain ⟨rfl, rfl⟩ := Prod.mk.inj (Except.ok.inj hlast)
    obtain ⟨h₁, hheld⟩ := hstep h hs₁
    obtain ⟨h₂, hheld'⟩ := ih h₁ hs₂
    refine ⟨h₂, ?_⟩
    rw [List.flatMap_cons, List.append_assoc, hheld', ← List.append_assoc, hheld,
      List.append_assoc, List.flatMap_cons]

/-- The last step of a run. -/
theorem execAll_snoc {s s' : σ} {ops : List α} {op : α} {outs : List ο}
    (h : execAll step s (ops ++ [op]) = .ok (s', outs)) :
    ∃ s₁ outs₁ out, execAll step s ops = .ok (s₁, outs₁) ∧ step s₁ op = .ok (s', out) := by
  induction ops generalizing s outs with
  | nil =>
    obtain ⟨⟨s₁, out⟩, hs₁, hrest⟩ := bind_eq_ok.mp h
    obtain rfl : s₁ = s' := congrArg Prod.fst (Except.ok.inj hrest)
    exact ⟨s, [], out, rfl, hs₁⟩
  | cons op' ops ih =>
    obtain ⟨⟨s₁, out₁⟩, hs₁, hrest⟩ := bind_eq_ok.mp h
    obtain ⟨⟨s₂, outs₂⟩, hs₂, hlast⟩ := bind_eq_ok.mp hrest
    obtain rfl : s₂ = s' := congrArg Prod.fst (Except.ok.inj hlast)
    obtain ⟨s₃, outs₃, out, hs₃, hop⟩ := ih hs₂
    exact ⟨s₃, out₁ :: outs₃, out, execAll_cons hs₁ hs₃, hop⟩

end MacKernel
