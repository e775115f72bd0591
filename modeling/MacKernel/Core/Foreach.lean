import MacKernel.Core.RingFamily

/-!
# Iterations over linked elements

A plain iteration reads the next element after its body, a safe one reads it before.
The plain one visits what a memory without changes links together, and the safe one
what was linked when each pass began: its body may remove the element that is visited.
-/

namespace MacKernel

variable {σ E : Type}

/-- One pass of an iteration: the element, and those visited. -/
def foreachPass (advance : E → Except Fault (Option E)) (s : Option E × List E) :
    Except Fault ((Option E × List E) ⊕ List E) := do
  match s.1 with
  | none => return .inr s.2
  | some var => return .inl (← advance var, s.2 ++ [var])

/-- The state of an iteration that may change the memory. -/
structure Visit (σ E : Type) where
  state : σ
  var : Option E
  visited : List E

/-- One pass of a safe iteration: `tvar` is read before the body runs. -/
def foreachSafePass (advance : σ → E → Except Fault (Option E)) (body : σ → E → Except Fault σ)
    (s : Visit σ E) : Except Fault (Visit σ E ⊕ (σ × List E)) := do
  match s.var with
  | none => return .inr (s.state, s.visited)
  | some var =>
    let tvar ← advance s.state var
    let state ← body s.state var
    return .inl ⟨state, tvar, s.visited ++ [var]⟩

variable {l : List E} {fuel : Nat}

/-- An iteration that advances along a list visits the list. -/
theorem loop_foreachPass {advance : E → Except Fault (Option E)}
    (h : ∀ l₁ e l₂, l = l₁ ++ e :: l₂ → advance e = .ok l₂.head?) (hfuel : l.length < fuel) :
    loop (foreachPass advance) fuel (l.head?, []) = .ok l := by
  have hvisits := loop_visits (foreachPass advance)
    (fun visited left s => s = (left.head?, visited) ∧ l = visited ++ left)
    (fun visited => visited = l) ?_ ?_ ⟨rfl, rfl⟩ hfuel
  · obtain ⟨_, hloop, rfl⟩ := hvisits
    exact hloop
  · rintro s ⟨rfl, -⟩
    exact ⟨l, rfl, rfl⟩
  · rintro visited x left s ⟨rfl, hl⟩
    refine ⟨(left.head?, visited ++ [x]), ?_, rfl, by simpa using hl⟩
    simp only [foreachPass, List.head?_cons, h visited x left hl, ok_bind]
    rfl

/-- A safe iteration visits what was to be visited, if every pass leaves the rest. -/
theorem loop_foreachSafePass {advance : σ → E → Except Fault (Option E)}
    {body : σ → E → Except Fault σ} (inv : σ → List E → Prop)
    (hpass : ∀ {s x r}, inv s (x :: r) →
      advance s x = .ok r.head? ∧ ∃ s', body s x = .ok s' ∧ inv s' r)
    {s : σ} (h : inv s l) (hfuel : l.length < fuel) :
    ∃ s', loop (foreachSafePass advance body) fuel ⟨s, l.head?, []⟩ = .ok (s', l) ∧
      inv s' [] := by
  have hvisits := loop_visits (foreachSafePass advance body)
    (fun visited r v => ∃ s, v = ⟨s, r.head?, visited⟩ ∧ inv s r)
    (fun r => ∃ s', r = (s', l) ∧ inv s' []) ?_ ?_ ⟨s, rfl, h⟩ hfuel
  · obtain ⟨_, hloop, s', rfl, hs'⟩ := hvisits
    exact ⟨s', hloop, hs'⟩
  · rintro v ⟨s, rfl, hs⟩
    exact ⟨(s, l), rfl, s, rfl, hs⟩
  · rintro visited x r v ⟨s, rfl, hs⟩
    obtain ⟨hadvance, s', hbody, hs'⟩ := hpass hs
    refine ⟨⟨s', r.head?, visited ++ [x]⟩, ?_, s', rfl, hs'⟩
    simp only [foreachSafePass, List.head?_cons, hadvance, hbody, ok_bind]
    rfl

section Removal

variable {Q : Type} [DecidableEq Q] {lists : Lists Q E} {q : Q} {rel : σ → Lists Q E → Prop}

/-- A body that removes some of the elements. -/
def removeIf (p : E → Bool) (remove : σ → E → Except Fault σ) (s : σ) (e : E) : Except Fault σ :=
  if p e then remove s e else return s

variable {advance : σ → E → Except Fault (Option E)} {remove : σ → E → Except Fault σ}

theorem removeIf_spec {s : σ} {l₁ l₂ : List E} {e : E} (p : E → Bool)
    (hremove : ∃ s', remove s e = .ok s' ∧ rel s' (Function.update lists q (some (l₁ ++ l₂))))
    (h : rel s lists) (hl : lists q = some (l₁ ++ e :: l₂)) :
    ∃ s', removeIf p remove s e = .ok s' ∧
      rel s' (Function.update lists q (some (l₁ ++ [e].filter (!p ·) ++ l₂))) := by
  unfold removeIf
  by_cases hp : p e = true
  · rw [if_pos hp, List.filter_cons_of_neg (by simp [hp]), List.filter_nil, List.append_nil]
    exact hremove
  · rw [if_neg hp, List.filter_cons_of_pos (by simp [hp]), List.filter_nil, List.append_assoc,
      List.singleton_append, ← hl, Function.update_eq_self]
    exact ⟨s, rfl, h⟩

/-- A safe iteration visits every element of a list, whatever elements its body removes. -/
theorem loop_foreachSafePass_removeIf (p : E → Bool)
    (hadvance : ∀ {s lists l₁ e l₂}, rel s lists → lists q = some (l₁ ++ e :: l₂) →
      advance s e = .ok l₂.head?)
    (hremove : ∀ {s lists l₁ e l₂}, rel s lists → lists q = some (l₁ ++ e :: l₂) →
      l₁.length < fuel →
      ∃ s', remove s e = .ok s' ∧ rel s' (Function.update lists q (some (l₁ ++ l₂))))
    {s : σ} (h : rel s lists) (hl : lists q = some l) (hfuel : l.length < fuel) :
    ∃ s', loop (foreachSafePass advance (removeIf p remove)) fuel ⟨s, l.head?, []⟩ = .ok (s', l) ∧
      rel s' (Function.update lists q (some (l.filter (!p ·)))) := by
  -- the elements that were visited and kept come before those that are left
  let inv : σ → List E → Prop := fun s r =>
    ∃ k, rel s (Function.update lists q (some (k ++ r))) ∧
      k ++ r.filter (!p ·) = l.filter (!p ·)
  have hinv : inv s l := by
    refine ⟨[], ?_, rfl⟩
    rw [List.nil_append, ← hl, Function.update_eq_self]
    exact h
  have hpass : ∀ {s x r}, inv s (x :: r) →
      advance s x = .ok r.head? ∧ ∃ s', removeIf p remove s x = .ok s' ∧ inv s' r := by
    rintro s x r ⟨k, hs, hk⟩
    have hl' := Function.update_self q (some (k ++ x :: r)) lists
    have hlen : k.length < fuel := by
      have hkept := congrArg List.length hk
      have hfilter := List.length_filter_le (!p ·) l
      rw [List.length_append] at hkept
      omega
    obtain ⟨s', hbody, hs'⟩ := removeIf_spec p (hremove hs hl' hlen) hs hl'
    rw [Function.update_idem] at hs'
    refine ⟨hadvance hs hl', s', hbody, _, hs', ?_⟩
    rw [List.append_assoc, ← List.filter_append]
    exact hk
  obtain ⟨s', hloop, k, hs', hk⟩ := loop_foreachSafePass inv hpass hinv hfuel
  refine ⟨s', hloop, ?_⟩
  rw [← hk]
  exact hs'

end Removal

end MacKernel
