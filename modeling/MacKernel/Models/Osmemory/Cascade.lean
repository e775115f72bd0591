import MacKernel.Models.Osmemory.Native
import MacKernel.Core.Tally
import MacKernel.Core.Run

/-!
# The cascade of a release

When a handle lets go of an object that it alone keeps alive, the object is destroyed
with the handles inside it, and so is everything these alone kept alive. The objects
destroyed are described before the release, and the destructors are followed from one
counted reference to the next: what is destroyed is doomed, and at the end everything
doomed is destroyed.
-/

namespace MacKernel.Osmemory

section Doomed

variable {H C A K : Type} (ops : CounterOps K) (lay : Layout H C)

/-- The counts are those of the handles, an object without shared handles is destroyed, and
the handles inside a destroyed object have been destroyed. -/
structure Heap.Wf [Fintype H] [DecidableEq C] (s : Heap H C A K) : Prop where
  count : ∀ c, ops.countShared (s.ctrl c) = tally (fun h => (s.handle h).control) (some c)
  dead : ∀ c, s.dead c = true ↔ ops.countShared (s.ctrl c) = 0
  gone : ∀ h, s.gone lay h = true → s.handle h = .zero

/-- The object is kept alive by the handle `a` alone: every handle to it is `a`, or lies
inside an object that is itself kept alive by `a` alone. -/
inductive Doomed (s : Heap H C A K) (a : H) : C → Prop where
  | intro {c : C} {h₀ : H} (held : (s.handle h₀).control = some c)
      (inside : ∀ h, (s.handle h).control = some c → h = a ∨ lay.home h ≠ none)
      (doomed : ∀ h c', (s.handle h).control = some c → h ≠ a → lay.home h = some c' →
        Doomed s a c') : Doomed s a c

/-- The handle lies inside an object that `a` alone keeps alive. -/
def Heap.DoomedHandle (s : Heap H C A K) (a h : H) : Prop :=
  ∃ c, lay.home h = some c ∧ Doomed lay s a c

variable {ops lay} {s : Heap H C A K} {a h : H} {c : C}

/-- A block is doomed if all its handles are. -/
theorem Doomed.of_handles (held : (s.handle h).control = some c)
    (hall : ∀ h, (s.handle h).control = some c → h = a ∨ s.DoomedHandle lay a h) :
    Doomed lay s a c := by
  refine .intro held (fun h hh => ?_) fun h c' hh hne hc' => ?_
  · rcases hall h hh with rfl | ⟨c', hc', -⟩
    · exact .inl rfl
    · exact .inr (by simp [hc'])
  · rcases hall h hh with rfl | ⟨c'', hc'', hd⟩
    · exact absurd rfl hne
    · rw [hc'] at hc''
      exact Option.some.inj hc'' ▸ hd

/-- Handles to a doomed object are `a` or doomed. -/
theorem Doomed.handle (hd : Doomed lay s a c) (hh : (s.handle h).control = some c) :
    h = a ∨ s.DoomedHandle lay a h := by
  obtain ⟨-, inside, doomed⟩ := hd
  by_cases hne : h = a
  · exact .inl hne
  · obtain ⟨c', hc'⟩ := Option.ne_none_iff_exists'.mp ((inside h hh).resolve_left hne)
    exact .inr ⟨c', hc', doomed h c' hh hne hc'⟩

/-- Something is doomed only if `a` is the only handle to its own object. -/
theorem Doomed.only (hd : Doomed lay s a c) : ∃ c₀, (s.handle a).control = some c₀ ∧
    ∀ h, (s.handle h).control = some c₀ → h = a := by
  induction hd with
  | @intro c h₀ held inside doomed ih =>
    by_cases hall : ∀ h, (s.handle h).control = some c → h = a
    · exact ⟨c, hall h₀ held ▸ held, hall⟩
    · push Not at hall
      obtain ⟨h, hh, hne⟩ := hall
      obtain ⟨c', hc'⟩ := Option.ne_none_iff_exists'.mp ((inside h hh).resolve_left hne)
      exact ih h c' hh hne hc'

end Doomed

section Cascade

variable {H C A K : Type} [Fintype H] [DecidableEq C] (ops : CounterOps K)
  (lay : Layout H C) (s₀ : Heap H C A K) (a : H)

/-- In the middle of the release of `a`: `refs` are the references that still count, and
`dying` are the objects whose destructor runs. -/
structure Mid (refs : H → Option C) (dying : Set C) (s : Heap H C A K) : Prop where
  handle : ∀ h, s.handle h = s₀.handle h ∨ s.handle h = .zero ∧ s₀.DoomedHandle lay a h
  counted : ∀ h, refs h = (s.handle h).control ∨
    refs h = none ∧ (h = a ∨ ∃ c ∈ dying, lay.home h = some c)
  count : ∀ c, ops.countShared (s.ctrl c) = tally refs (some c)
  zero : ∀ c, ops.countShared (s.ctrl c) = 0 → s.dead c = true ∨ c ∈ dying
  dead : ∀ c, s.dead c = true → (s₀.dead c = true ∨ Doomed lay s₀ a c) ∧
    ∀ h, lay.home h = some c → s.handle h = .zero
  dying : ∀ c ∈ dying, Doomed lay s₀ a c ∧ ops.countShared (s.ctrl c) = 0

/-- What a release does to the references and handles besides the reference it drops. -/
structure Shrinks (refs : H → Option C) (s : Heap H C A K) (refs' : H → Option C)
    (s' : Heap H C A K) (P : H → Prop) : Prop where
  counted : ∀ h, refs' h = none ∨ refs' h = refs h
  zero : ∀ h, s.handle h = .zero → s'.handle h = .zero
  tracks : ∀ h, P h → refs h = (s.handle h).control → refs' h = (s'.handle h).control

/-- The number of references that count. -/
def live (refs : H → Option C) : Nat := tally (fun h => (refs h).isSome) true

/-- A release of a counted reference ends in the middle again, unless `a` is doomed itself. -/
def ReleaseSpec (rel : C → Heap H C A K → Except Misuse (Heap H C A K)) (n : Nat) : Prop :=
  ∀ {refs dying s g c}, Mid ops lay s₀ a refs dying s → refs g = some c →
    (g = a ∨ ∃ c' ∈ dying, lay.home g = some c') → live refs ≤ n →
    (∃ s' refs', rel c s = .ok s' ∧ Mid ops lay s₀ a refs' dying s' ∧ refs' g = none ∧
      Shrinks refs s refs' s' (· ≠ g)) ∨
    s₀.DoomedHandle lay a a ∧ ∃ e, rel c s = .error e

variable {ops lay s₀ a} {refs refs' : H → Option C} {dying : Set C} {s s' : Heap H C A K} {g h : H}
  {c : C}

omit [Fintype H] [DecidableEq C] in
/-- A handle is gone with the object around it. -/
theorem Heap.gone_iff : s.gone lay h = true ↔ ∃ c, lay.home h = some c ∧ s.dead c = true := by
  unfold Heap.gone
  cases lay.home h <;> simp

/-- Before a release begins nothing has happened yet. -/
theorem Heap.Wf.mid (hs : s₀.Wf ops lay) :
    Mid ops lay s₀ a (fun h => (s₀.handle h).control) ∅ s₀ where
  handle _ := .inl rfl
  counted _ := .inl rfl
  count := hs.count
  zero c hc := .inl ((hs.dead c).mpr hc)
  dead c hc := ⟨.inl hc, fun h hh => hs.gone h (Heap.gone_iff.mpr ⟨c, hh, hc⟩)⟩
  dying c hc := absurd hc (Set.notMem_empty c)

/-- A counted reference is the control block of its handle, now and at the beginning. -/
theorem Mid.control_of_refs (hm : Mid ops lay s₀ a refs dying s) (hg : refs g = some c) :
    (s.handle g).control = some c ∧ (s₀.handle g).control = some c := by
  have hs : (s.handle g).control = some c := by
    rcases hm.counted g with h | ⟨h, -⟩
    · exact h.symm.trans hg
    · simp [hg] at h
  refine ⟨hs, ?_⟩
  rcases hm.handle g with h | ⟨h, -⟩
  · exact h ▸ hs
  · rw [h] at hs
    cases hs

/-- A handle of the beginning whose reference does not count any more is `a` or doomed. -/
theorem Mid.handle_of_refs (hm : Mid ops lay s₀ a refs dying s)
    (hh : (s₀.handle h).control = some c) (hr : refs h ≠ some c) :
    h = a ∨ s₀.DoomedHandle lay a h := by
  rcases hm.handle h with heq | ⟨-, hd⟩
  · rcases hm.counted h with hrefs | ⟨-, rfl | ⟨c', hc', hhome⟩⟩
    · exact absurd (hrefs.trans (heq ▸ hh)) hr
    · exact .inl rfl
    · exact .inr ⟨c', hhome, (hm.dying c' hc').1⟩
  · exact .inr hd

/-- Every reference to the object of a doomed `a` is `a`, which does not count any more. -/
theorem Mid.count_eq_zero (hm : Mid ops lay s₀ a refs dying s) (hd : Doomed lay s₀ a c)
    {c₀ : C} (hc₀ : (s.handle a).control = some c₀) (ha : refs a = none) :
    ops.countShared (s.ctrl c₀) = 0 := by
  have hs₀ : (s₀.handle a).control = some c₀ := by
    rcases hm.handle a with h | ⟨h, -⟩
    · exact h ▸ hc₀
    · rw [h] at hc₀
      cases hc₀
  obtain ⟨c₁, hc₁, honly⟩ := hd.only
  obtain rfl : c₁ = c₀ := Option.some.inj (hc₁.symm.trans hs₀)
  rw [hm.count, tally_eq_zero_iff]
  intro h hh
  obtain rfl := honly h (hm.control_of_refs hh).2
  simp [ha] at hh

omit [DecidableEq C] in
/-- Handles that are dropped do not add references. -/
theorem live_le (h : ∀ h, refs' h = none ∨ refs' h = refs h) : live refs' ≤ live refs := by
  apply tally_le
  intro i hi
  rcases h i with h | h
  · simp [h] at hi
  · exact h ▸ hi

variable [DecidableEq H]

/-- Zeroing a handle of a dying object whose reference does not count. -/
theorem Mid.set_zero (hm : Mid ops lay s₀ a refs dying s) (hc : c ∈ dying)
    (hhome : lay.home h = some c) (hr : refs h = none) :
    Mid ops lay s₀ a refs dying (s.set h .zero) where
  handle h' := by
    by_cases hh : h' = h
    · subst hh
      exact .inr ⟨Heap.handle_set_self .., c, hhome, (hm.dying c hc).1⟩
    · rw [Heap.handle_set_of_ne _ hh]
      exact hm.handle h'
  counted h' := by
    by_cases hh : h' = h
    · subst hh
      exact .inl (by simp [hr, Handle.zero])
    · rw [Heap.handle_set_of_ne _ hh]
      exact hm.counted h'
  count := hm.count
  zero := hm.zero
  dead c' hc' := by
    refine ⟨(hm.dead c' hc').1, fun h' hh' => ?_⟩
    by_cases hh : h' = h
    · subst hh
      exact Heap.handle_set_self ..
    · rw [Heap.handle_set_of_ne _ hh]
      exact (hm.dead c' hc').2 h' hh'
  dying := hm.dying

omit [Fintype H] [DecidableEq C] in
/-- Release a handle, zero it and go on. -/
theorem Shrinks.zeroed {refs₁ refs₂ : H → Option C} {s₁ s₂ : Heap H C A K}
    (h₁ : Shrinks refs s refs₁ s₁ (· ≠ h)) (hnone : refs₁ h = none)
    (h₂ : Shrinks refs₁ (s₁.set h .zero) refs₂ s₂ fun _ => True) :
    Shrinks refs s refs₂ s₂ fun _ => True where
  counted h' := by
    rcases h₂.counted h' with h | h
    · exact .inl h
    · rw [h]
      exact h₁.counted h'
  zero h' hz := by
    refine h₂.zero h' ?_
    by_cases hne : h' = h
    · subst hne
      exact Heap.handle_set_self ..
    · exact (Heap.handle_set_of_ne _ hne _).trans (h₁.zero h' hz)
  tracks h' _ ht := by
    refine h₂.tracks h' trivial ?_
    by_cases hne : h' = h
    · subst hne
      rw [hnone, Heap.handle_set_self]
      rfl
    · rw [Heap.handle_set_of_ne _ hne]
      exact h₁.tracks h' hne ht

omit [DecidableEq H] in
/-- The release of a handle inside a dying object. -/
theorem releaseHandle_spec {rel : C → Heap H C A K → Except Misuse (Heap H C A K)} {n : Nat}
    (hrel : ReleaseSpec ops lay s₀ a rel n)
    (hzero : ∀ c s, ops.countShared (s.ctrl c) = 0 → ∃ e, rel c s = .error e) (hc : c ∈ dying)
    (hhome : lay.home h = some c) (hm : Mid ops lay s₀ a refs dying s)
    (htracks : refs h = (s.handle h).control ∨ refs h = none ∧ h = a) (hn : live refs ≤ n) :
    (∃ s' refs', releaseHandle rel h s = .ok s' ∧ Mid ops lay s₀ a refs' dying s' ∧
      refs' h = none ∧ Shrinks refs s refs' s' (· ≠ h)) ∨
    s₀.DoomedHandle lay a a ∧ ∃ e, releaseHandle rel h s = .error e := by
  unfold releaseHandle
  cases hcontrol : (s.handle h).control with
  | none =>
    refine .inl ⟨s, refs, rfl, hm, ?_, fun _ => .inr rfl, fun _ h => h, fun _ _ h => h⟩
    rcases htracks with ht | ⟨ht, -⟩
    · exact ht.trans hcontrol
    · exact ht
  | some c' =>
    rcases htracks with ht | ⟨ht, rfl⟩
    · exact hrel hm (ht.trans hcontrol) (.inr ⟨c, hc, hhome⟩) hn
    · -- a second release of the handle that is being assigned
      have hd := (hm.dying c hc).1
      exact .inr ⟨⟨c, hhome, hd⟩, hzero c' s (hm.count_eq_zero hd hcontrol ht)⟩

/-- The destructors of some handles of a dying object zero them. -/
theorem destroyFields_spec {rel : C → Heap H C A K → Except Misuse (Heap H C A K)} {n : Nat}
    (hrel : ReleaseSpec ops lay s₀ a rel n)
    (hzero : ∀ c s, ops.countShared (s.ctrl c) = 0 → ∃ e, rel c s = .error e) (hc : c ∈ dying)
    (hs : List H) (hhome : ∀ h ∈ hs, lay.home h = some c) (hm : Mid ops lay s₀ a refs dying s)
    (htracks : ∀ h ∈ hs, refs h = (s.handle h).control ∨ refs h = none ∧ h = a)
    (hn : live refs ≤ n) :
    (∃ s' refs', destroyFields rel hs s = .ok s' ∧ Mid ops lay s₀ a refs' dying s' ∧
      Shrinks refs s refs' s' (fun _ => True) ∧ ∀ h ∈ hs, s'.handle h = .zero) ∨
    s₀.DoomedHandle lay a a ∧ ∃ e, destroyFields rel hs s = .error e := by
  induction hs generalizing s refs with
  | nil =>
    exact .inl ⟨s, refs, rfl, hm, ⟨fun _ => .inr rfl, fun _ h => h, fun _ _ h => h⟩, by simp⟩
  | cons h hs ih =>
    rcases releaseHandle_spec hrel hzero hc (hhome h (by simp)) hm (htracks h (by simp)) hn with
      ⟨s₁, refs₁, hok, hm₁, hnone, hshrinks⟩ | ⟨ha, e, he⟩
    · have htracks₁ : ∀ h' ∈ hs, refs₁ h' = ((s₁.set h .zero).handle h').control ∨
          refs₁ h' = none ∧ h' = a := by
        intro h' hh'
        by_cases hne : h' = h
        · subst hne
          exact .inl (by rw [hnone, Heap.handle_set_self]; rfl)
        · rcases htracks h' (by simp [hh']) with ht | ⟨ht, ha⟩
          · exact .inl (by rw [Heap.handle_set_of_ne _ hne]; exact hshrinks.tracks h' hne ht)
          · exact .inr ⟨(hshrinks.counted h').elim id fun h => h.trans ht, ha⟩
      rcases ih (fun h' hh' => hhome h' (by simp [hh']))
        (hm₁.set_zero hc (hhome h (by simp)) hnone) htracks₁
        ((live_le hshrinks.counted).trans hn) with
        ⟨s₂, refs₂, hok₂, hm₂, hshrinks₂, hz₂⟩ | ⟨ha, e, he⟩
      · refine .inl ⟨s₂, refs₂, ?_, hm₂, hshrinks.zeroed hnone hshrinks₂, fun h' hh' => ?_⟩
        · rw [destroyFields, hok]
          exact hok₂
        · rcases List.mem_cons.mp hh' with rfl | hh'
          · exact hshrinks₂.zero h' (Heap.handle_set_self ..)
          · exact hz₂ h' hh'
      · refine .inr ⟨ha, e, ?_⟩
        rw [destroyFields, hok]
        exact he
    · refine .inr ⟨ha, e, ?_⟩
      rw [destroyFields, he]
      rfl

/-- Dropping one counted reference, after which the object may be dying. -/
theorem Mid.drop {dying' : Set C} {k : K} (hm : Mid ops lay s₀ a refs dying s)
    (hr : refs g = some c) (hg : g = a ∨ ∃ c' ∈ dying, lay.home g = some c')
    (hk : ops.countShared k + 1 = ops.countShared (s.ctrl c)) (hsub : dying ⊆ dying')
    (hzero : ops.countShared k = 0 → c ∈ dying')
    (hnew : ∀ c' ∈ dying', c' ∈ dying ∨ c' = c ∧ Doomed lay s₀ a c ∧ ops.countShared k = 0) :
    Mid ops lay s₀ a (Function.update refs g none) dying' (s.setCtrl c k) where
  handle := hm.handle
  counted h' := by
    by_cases hh : h' = g
    · subst hh
      refine .inr ⟨Function.update_self .., hg.imp id ?_⟩
      rintro ⟨c', hc', hhome⟩
      exact ⟨c', hsub hc', hhome⟩
    · rw [Function.update_of_ne hh]
      refine (hm.counted h').imp id fun ⟨hnone, hor⟩ => ⟨hnone, hor.imp id ?_⟩
      rintro ⟨c', hc', hhome⟩
      exact ⟨c', hsub hc', hhome⟩
  count c' := by
    have htally := tally_update refs g none (some c')
    rw [hr, ← hm.count c'] at htally
    by_cases hc : c' = c
    · subst hc
      simp only [Heap.setCtrl, Function.update_self, if_true] at htally ⊢
      simp at htally
      omega
    · have hne : ¬some c = some c' := fun h => hc (Option.some.inj h).symm
      simp only [Heap.setCtrl, Function.update_of_ne hc, if_neg hne] at htally ⊢
      simp at htally
      exact htally.symm
  zero c' hc' := by
    by_cases hc : c' = c
    · subst hc
      simp only [Heap.setCtrl, Function.update_self] at hc'
      exact .inr (hzero hc')
    · simp only [Heap.setCtrl, Function.update_of_ne hc] at hc'
      exact (hm.zero c' hc').imp id fun h => hsub h
  dead := hm.dead
  dying c' hc' := by
    by_cases hc : c' = c
    · subst hc
      simp only [Heap.setCtrl, Function.update_self]
      rcases hnew c' hc' with hold | ⟨-, hd, hz⟩
      · have := (hm.dying c' hold).2
        omega
      · exact ⟨hd, hz⟩
    · simp only [Heap.setCtrl, Function.update_of_ne hc]
      exact hm.dying c' ((hnew c' hc').resolve_right fun h => hc h.1)

/-- The object of the last counted reference is doomed. -/
theorem Mid.doomed_of_last (hm : Mid ops lay s₀ a refs dying s) (hr : refs g = some c)
    (hg : g = a ∨ ∃ c' ∈ dying, lay.home g = some c')
    (hlast : ops.countShared (s.ctrl c) = 1) : Doomed lay s₀ a c := by
  have hrest : ∀ h, Function.update refs g none h ≠ some c := by
    refine tally_eq_zero_iff.mp ?_
    have htally := tally_update refs g none (some c)
    rw [hr, ← hm.count c, hlast] at htally
    simpa using htally
  apply Doomed.of_handles (hm.control_of_refs hr).2
  intro h hh
  by_cases hhg : h = g
  · subst hhg
    rcases hg with rfl | ⟨c', hc', hhome⟩
    · exact .inl rfl
    · exact .inr ⟨c', hhome, (hm.dying c' hc').1⟩
  · refine hm.handle_of_refs hh ?_
    have hne := hrest h
    rwa [Function.update_of_ne hhg] at hne

omit [DecidableEq H] in
/-- The destructor of an object has run, and its memory goes. -/
theorem Mid.kill (hm : Mid ops lay s₀ a refs (insert c dying) s)
    (hz : ∀ h, lay.home h = some c → s.handle h = .zero) :
    Mid ops lay s₀ a refs dying (s.kill c) where
  handle := hm.handle
  counted h := by
    rcases hm.counted h with ht | ⟨hnone, ha | ⟨c', hc', hhome⟩⟩
    · exact .inl ht
    · exact .inr ⟨hnone, .inl ha⟩
    · rcases hc' with rfl | hc'
      · refine .inl (hnone.trans ?_)
        change none = (s.handle h).control
        rw [hz h hhome]
        rfl
      · exact .inr ⟨hnone, .inr ⟨c', hc', hhome⟩⟩
  count := hm.count
  zero c' hc' := by
    by_cases hc : c' = c
    · subst hc
      exact .inl (Function.update_self ..)
    · simp only [Heap.kill, Function.update_of_ne hc]
      exact (hm.zero c' hc').imp id fun h => h.resolve_left hc
  dead c' hc' := by
    by_cases hc : c' = c
    · subst hc
      exact ⟨.inr (hm.dying c' (Set.mem_insert ..)).1, hz⟩
    · simp only [Heap.kill, Function.update_of_ne hc] at hc'
      exact hm.dead c' hc'
  dying c' hc' := hm.dying c' (Set.mem_insert_of_mem c hc')

omit [DecidableEq C] in
/-- A handle that is dropped gives up one reference. -/
theorem live_update (hr : refs g = some c) :
    live (Function.update refs g none) + 1 = live refs := by
  have htally := tally_update (fun h => (refs h).isSome) g false true
  have hfun : (fun h => (Function.update refs g none h).isSome) =
      Function.update (fun h => (refs h).isSome) g false := by
    funext h
    by_cases hh : h = g
    · subst hh
      simp
    · simp [hh]
  simpa [live, hfun, hr] using htally

omit [Fintype H] in
/-- Dropping a handle leaves the others. -/
theorem Shrinks.drop (refs : H → Option C) (s : Heap H C A K) (g : H) (c : C) (k : K) :
    Shrinks refs s (Function.update refs g none) (s.setCtrl c k) (· ≠ g) where
  counted h := by
    by_cases hh : h = g
    · subst hh
      exact .inl (Function.update_self ..)
    · exact .inr (Function.update_of_ne hh ..)
  zero _ hz := hz
  tracks h hne ht := by
    rw [Function.update_of_ne hne]
    exact ht

omit [Fintype H] [DecidableEq C] [DecidableEq H] in
/-- Two releases after each other. -/
theorem Shrinks.trans {refs₁ refs₂ : H → Option C} {s₁ s₂ : Heap H C A K} {P : H → Prop}
    (h₁ : Shrinks refs s refs₁ s₁ P) (h₂ : Shrinks refs₁ s₁ refs₂ s₂ fun _ => True) :
    Shrinks refs s refs₂ s₂ P where
  counted h := by
    rcases h₂.counted h with h | h'
    · exact .inl h
    · rw [h']
      exact h₁.counted h
  zero h hz := h₂.zero h (h₁.zero h hz)
  tracks h hp ht := h₂.tracks h trivial (h₁.tracks h hp ht)

/-- The references of the handles inside an object that starts dying. -/
theorem Mid.tracks_drop (hm : Mid ops lay s₀ a refs dying s)
    (hg : g = a ∨ ∃ c' ∈ dying, lay.home g = some c') (hc : c ∉ dying)
    (hhome : lay.home h = some c) :
    Function.update refs g none h = (s.handle h).control ∨
      Function.update refs g none h = none ∧ h = a := by
  have hhere : ∀ c' ∈ dying, lay.home h ≠ some c' := by
    rintro c' hc' hh
    exact hc (Option.some.inj (hhome.symm.trans hh) ▸ hc')
  by_cases hh : h = g
  · subst hh
    rcases hg with ha | ⟨c', hc', hhome'⟩
    · exact .inr ⟨Function.update_self .., ha⟩
    · exact absurd hhome' (hhere c' hc')
  · rw [Function.update_of_ne hh]
    rcases hm.counted h with ht | ⟨hnone, ha | ⟨c', hc', hhome'⟩⟩
    · exact .inl ht
    · exact .inr ⟨hnone, ha⟩
    · exact absurd hhome' (hhere c' hc')

omit [Fintype H] in
/-- A release without a reference fails. -/
theorem releaseShared_zero (fuel : Nat) (h : ops.countShared (s.ctrl c) = 0) :
    ∃ e, releaseShared ops lay fuel c s = .error e := by
  cases fuel with
  | zero => exact ⟨_, rfl⟩
  | succ fuel => exact ⟨_, if_pos h⟩

/-- The cascade of releases ends, and keeps the handles and counts in order. -/
theorem releaseShared_spec (hops : ops.Standard) (fuel : Nat) :
    ReleaseSpec ops lay s₀ a (releaseShared ops lay fuel) fuel := by
  induction fuel with
  | zero =>
    intro refs dying s g c hm hr hg hn
    have hpos : 0 < live refs := tally_pos (i := g) (by simp [hr])
    omega
  | succ fuel ih =>
    intro refs dying s g c hm hr hg hn
    have hpos : ops.countShared (s.ctrl c) ≠ 0 := by
      rw [hm.count]
      exact (tally_pos hr).ne'
    obtain ⟨hk, -, hlast, -⟩ := hops.releaseShared (s.ctrl c) hpos
    have hlive := live_update hr
    by_cases hone : ops.countShared (s.ctrl c) = 1
    · have hd := hm.doomed_of_last hr hg hone
      have hnew : c ∉ dying := fun hc => hpos (hm.dying c hc).2
      have hm₁ : Mid ops lay s₀ a (Function.update refs g none) (insert c dying)
          (s.setCtrl c (ops.releaseShared (s.ctrl c)).1) := by
        refine hm.drop hr hg hk (Set.subset_insert c dying) (fun _ => Set.mem_insert c dying) ?_
        rintro c' (rfl | hc')
        · exact .inr ⟨rfl, hd, by omega⟩
        · exact .inl hc'
      have heq : releaseShared ops lay (fuel + 1) c s =
          destroyFields (releaseShared ops lay fuel) (lay.fields c)
            (s.setCtrl c (ops.releaseShared (s.ctrl c)).1) >>= fun s => .ok (s.kill c) := by
        simp only [releaseShared, if_neg hpos]
        exact if_pos (hlast.mpr hone)
      rw [heq]
      rcases destroyFields_spec ih (fun _ _ => releaseShared_zero fuel) (Set.mem_insert c dying)
        (lay.fields c) (fun h hh => (lay.mem_fields h c).mp hh) hm₁
        (fun h hh => hm.tracks_drop hg hnew ((lay.mem_fields h c).mp hh)) (by omega) with
        ⟨s₂, refs₂, hok, hm₂, hshrinks, hz⟩ | ⟨ha, e, he⟩
      · refine .inl ⟨s₂.kill c, refs₂, by rw [hok]; rfl,
          hm₂.kill fun h hh => hz h ((lay.mem_fields h c).mpr hh), ?_, ?_⟩
        · rcases hshrinks.counted g with h | h
          · exact h
          · rw [h, Function.update_self]
        · exact (Shrinks.drop refs s g c _).trans
            ⟨hshrinks.counted, hshrinks.zero, hshrinks.tracks⟩
      · exact .inr ⟨ha, e, by rw [he]; rfl⟩
    · have heq : releaseShared ops lay (fuel + 1) c s =
          .ok (s.setCtrl c (ops.releaseShared (s.ctrl c)).1) := by
        simp only [releaseShared, if_neg hpos]
        exact if_neg (mt hlast.mp hone)
      refine .inl ⟨_, _, heq, ?_, Function.update_self .., Shrinks.drop refs s g c _⟩
      refine hm.drop hr hg hk subset_rfl (fun hz => ?_) fun c' hc' => .inl hc'
      omega

omit [DecidableEq H] in
/-- When no destructor runs any more, the doomed objects are destroyed. -/
theorem Mid.dead_of_doomed (hm : Mid ops lay s₀ a refs ∅ s) (ha : refs a = none)
    (hd : Doomed lay s₀ a c) : s.dead c = true := by
  induction hd with
  | @intro c h₀ held inside doomed ih =>
    have hd : Doomed lay s₀ a c := .intro held inside doomed
    refine (hm.zero c ?_).resolve_right (Set.notMem_empty c)
    rw [hm.count, tally_eq_zero_iff]
    intro h hh
    obtain ⟨hs, hs₀⟩ := hm.control_of_refs hh
    have hne : h ≠ a := by
      rintro rfl
      simp [ha] at hh
    obtain ⟨c', hhome⟩ := Option.ne_none_iff_exists'.mp ((inside h hs₀).resolve_left hne)
    have hzero := (hm.dead c' (ih h c' hs₀ hne hhome)).2 h hhome
    rw [hzero] at hs
    cases hs

omit [DecidableEq H] in
/-- A release destroys the handles that were doomed. -/
theorem Mid.gone_iff (hm : Mid ops lay s₀ a refs ∅ s) (ha : refs a = none)
    (hh : s₀.gone lay h = false) : s.gone lay h = true ↔ s₀.DoomedHandle lay a h := by
  rw [Heap.gone_iff]
  refine exists_congr fun c => and_congr_right fun hhome => ⟨fun hdead => ?_, fun hd => ?_⟩
  · refine (hm.dead c hdead).1.resolve_left fun hdead₀ => ?_
    rw [Heap.gone_iff.mpr ⟨c, hhome, hdead₀⟩] at hh
    cases hh
  · exact hm.dead_of_doomed ha hd

omit [DecidableEq H] in
/-- A release leaves the handles that were not. -/
theorem Mid.handle_eq (hm : Mid ops lay s₀ a refs ∅ s) (hd : ¬s₀.DoomedHandle lay a h) :
    s.handle h = s₀.handle h := (hm.handle h).resolve_right fun hz => hd hz.2

/-- The release of `a` ends with exactly the doomed objects destroyed, unless `a` is doomed. -/
theorem implSaferelease_spec (hops : ops.Standard) (hs : s₀.Wf ops lay)
    (ha : s₀.gone lay a = false) {fuel : Nat}
    (hfuel : live (fun h => (s₀.handle h).control) ≤ fuel) :
    (∃ s refs, implSaferelease ops lay fuel a s₀ = .ok s ∧ Mid ops lay s₀ a refs ∅ s ∧
      refs a = none) ∨
    s₀.DoomedHandle lay a a ∧ ∃ e, implSaferelease ops lay fuel a s₀ = .error e := by
  have hread : s₀.read lay a = .ok (s₀.handle a) := by simp [Heap.read, ha]
  simp only [implSaferelease, hread, ok_bind, releaseHandle]
  cases hc : (s₀.handle a).control with
  | none => exact .inl ⟨s₀, _, rfl, hs.mid, hc⟩
  | some c =>
    rcases releaseShared_spec hops fuel (hs.mid (a := a)) hc (.inl rfl) hfuel with
      ⟨s, refs, hok, hm, hnone, -⟩ | herr
    · exact .inl ⟨s, refs, hok, hm, hnone⟩
    · exact .inr herr

end Cascade

end MacKernel.Osmemory
