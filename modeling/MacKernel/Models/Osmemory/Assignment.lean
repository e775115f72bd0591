import MacKernel.Models.Osmemory.Cascade

/-!
# Assignment of shared handles that lie inside managed objects

The assignment operators of `OSSharedObject` release before they read their right-hand
side, so they are right exactly when the release destroys neither of the two handles.
-/

namespace MacKernel.Osmemory

section Assignment

variable {H C A K : Type} [Fintype H] [DecidableEq H] [DecidableEq C] {ops : CounterOps K}
  {lay : Layout H C} {s t : Heap H C A K} {a b : H}

/-- An assignment operator ends, without touching a destroyed handle, and its left-hand side
then refers to what its right-hand side referred to before. -/
def Assigns (op : Nat → H → H → Heap H C A K → Except Misuse (Heap H C A K))
    (s : Heap H C A K) (a b : H) : Prop :=
  ∃ bound, ∀ fuel, bound ≤ fuel → ∃ t, op fuel a b s = .ok t ∧ t.handle a = s.handle b

omit [Fintype H] [DecidableEq C] in
private theorem implSetme_eq (ha : s.gone lay a = false) (hb : s.gone lay b = false) :
    implSetme lay a b s = .ok (s.set a (s.handle b)) := by
  simp [implSetme, Heap.read, Heap.write, ha, hb]

omit [Fintype H] [DecidableEq C] in
private theorem implSetme_error (h : s.gone lay a = true ∨ s.gone lay b = true) :
    implSetme lay a b s = .error .destroyed := by
  by_cases hb : s.gone lay b = true
  · simp only [implSetme, Heap.read, if_pos hb]
    rfl
  · simp only [implSetme, Heap.read, if_neg hb, ok_bind, Heap.write, if_pos (h.resolve_right hb)]

/-- If the release dooms neither handle, both are still there, with what they had. -/
theorem implSaferelease_of_not_doomed (hops : ops.Standard) (hs : s.Wf ops lay)
    (ha : s.gone lay a = false) (hb : s.gone lay b = false) (hda : ¬s.DoomedHandle lay a a)
    (hdb : ¬s.DoomedHandle lay a b) {fuel : Nat}
    (hfuel : live (fun h => (s.handle h).control) ≤ fuel) :
    ∃ t, implSaferelease ops lay fuel a s = .ok t ∧ t.gone lay a = false ∧
      t.gone lay b = false ∧ t.handle b = s.handle b := by
  rcases implSaferelease_spec hops hs ha hfuel with ⟨t, refs, hok, hm, hnone⟩ | ⟨hd, -⟩
  · refine ⟨t, hok, ?_, ?_, hm.handle_eq hdb⟩
    · exact Bool.eq_false_iff.mpr (mt (hm.gone_iff hnone ha).mp hda)
    · exact Bool.eq_false_iff.mpr (mt (hm.gone_iff hnone hb).mp hdb)
  · exact absurd hd hda

/-- If the release dooms one of the handles, setting the left-hand side fails. -/
theorem implSetme_of_doomed (hops : ops.Standard) (hs : s.Wf ops lay)
    (ha : s.gone lay a = false) (hb : s.gone lay b = false)
    (hd : s.DoomedHandle lay a a ∨ s.DoomedHandle lay a b) {fuel : Nat}
    (hfuel : live (fun h => (s.handle h).control) ≤ fuel) :
    ∃ e, implSaferelease ops lay fuel a s >>= implSetme lay a b = .error e := by
  rcases implSaferelease_spec hops hs ha hfuel with ⟨t, refs, hok, hm, hnone⟩ | ⟨-, e, he⟩
  · refine ⟨.destroyed, ?_⟩
    rw [hok, ok_bind]
    exact implSetme_error (hd.imp (hm.gone_iff hnone ha).mpr (hm.gone_iff hnone hb).mpr)
  · exact ⟨e, by rw [he]; rfl⟩

/-- An operator that releases, sets its left-hand side and then leaves it as it is assigns
exactly when the release dooms neither handle. -/
theorem assigns_iff_of_finish
    {op : Nat → H → H → Heap H C A K → Except Misuse (Heap H C A K)}
    (finish : Heap H C A K → Except Misuse (Heap H C A K))
    (hop : ∀ fuel, op fuel a b s = if a = b then .ok s else
      (implSaferelease ops lay fuel a s >>= implSetme lay a b) >>= finish)
    (hfinish : a ≠ b → ∀ t : Heap H C A K, t.gone lay a = false → t.gone lay b = false →
      ∃ t', finish t = .ok t' ∧ t'.handle a = t.handle a)
    (hops : ops.Standard) (hs : s.Wf ops lay) (ha : s.gone lay a = false)
    (hb : s.gone lay b = false) :
    Assigns op s a b ↔ a = b ∨ ¬s.DoomedHandle lay a a ∧ ¬s.DoomedHandle lay a b := by
  by_cases hab : a = b
  · subst hab
    refine ⟨fun _ => .inl rfl, fun _ => ⟨0, fun fuel _ => ⟨s, ?_, rfl⟩⟩⟩
    rw [hop, if_pos rfl]
  · simp only [hab, false_or]
    constructor
    · intro ⟨bound, h⟩
      by_contra hd
      rw [not_and_or, not_not, not_not] at hd
      obtain ⟨t, ht, -⟩ := h _ (le_max_left bound (live fun h => (s.handle h).control))
      obtain ⟨e, he⟩ := implSetme_of_doomed hops hs ha hb hd
        (le_max_right bound (live fun h => (s.handle h).control))
      rw [hop, if_neg hab, he] at ht
      cases ht
    · intro ⟨hda, hdb⟩
      refine ⟨live fun h => (s.handle h).control, fun fuel hfuel => ?_⟩
      obtain ⟨t, hok, hta, htb, hval⟩ :=
        implSaferelease_of_not_doomed hops hs ha hb hda hdb hfuel
      obtain ⟨t', hfin, ht'⟩ := hfinish hab (t.set a (t.handle b)) hta htb
      refine ⟨t', ?_, ?_⟩
      · rw [hop, if_neg hab, hok, ok_bind, implSetme_eq hta htb, ok_bind, hfin]
      · rw [ht', Heap.handle_set_self, hval]

/-- Copy assignment and move assignment are right exactly when the two sides are the same
handle, or neither of them lies inside an object that the left-hand side alone keeps alive. -/
theorem assigns_iff (hops : ops.Standard) (hs : s.Wf ops lay) (ha : s.gone lay a = false)
    (hb : s.gone lay b = false) :
    (Assigns (copyAssign ops lay) s a b ↔
      a = b ∨ ¬s.DoomedHandle lay a a ∧ ¬s.DoomedHandle lay a b) ∧
    (Assigns (moveAssign ops lay) s a b ↔
      a = b ∨ ¬s.DoomedHandle lay a a ∧ ¬s.DoomedHandle lay a b) := by
  constructor
  · refine assigns_iff_of_finish (implSaferetain ops lay a) (fun fuel => ?_)
      (fun _ t hta _ => ?_) hops hs ha hb
    · rw [copyAssign, bind_assoc]
    · have hread : t.read lay a = .ok (t.handle a) := by simp [Heap.read, hta]
      simp only [implSaferetain, hread, ok_bind]
      cases (t.handle a).control with
      | none => exact ⟨t, rfl, rfl⟩
      | some c => exact ⟨_, rfl, rfl⟩
  · refine assigns_iff_of_finish (fun t => t.write lay b .zero) (fun fuel => ?_)
      (fun hab t _ htb => ⟨t.set b .zero, by simp [Heap.write, htb], ?_⟩) hops hs ha hb
    · rw [moveAssign, bind_assoc]
    · exact Heap.handle_set_of_ne t hab _

/-- A list of two nodes: `true` is the handle to the first node, and `false` is the handle to
the second node inside the first one. -/
def listLayout : Layout Bool Bool where
  fields c := if c then [false] else []
  home h := if h then none else some true
  mem_fields := by decide

/-- The list `head`, with one handle to each node. -/
def headNext : Heap Bool Bool Unit (Nat × Nat) where
  handle h := ⟨some h, some ()⟩
  ctrl _ := (1, 0)
  dead _ := false

theorem headNext_wf : headNext.Wf pairOps listLayout where
  count := by decide
  dead := by decide
  gone := by decide

/-- `head->next = head` dooms nothing: the first node is kept alive by `head`. -/
theorem assigns_next_head : Assigns (copyAssign pairOps listLayout) headNext false true ∧
    Assigns (moveAssign pairOps listLayout) headNext false true := by
  have hhead : ¬headNext.DoomedHandle listLayout false true := by
    rintro ⟨c, hc, -⟩
    cases hc
  have hnext : ¬headNext.DoomedHandle listLayout false false := by
    rintro ⟨c, hc, hd⟩
    obtain rfl : true = c := Option.some.inj hc
    rcases hd.handle (h := true) rfl with h | h
    · cases h
    · exact hhead h
  have hiff := assigns_iff pairOps_standard headNext_wf (a := false) (b := true) rfl rfl
  exact ⟨hiff.1.mpr (.inr ⟨hnext, hhead⟩), hiff.2.mpr (.inr ⟨hnext, hhead⟩)⟩

/-- `head = head->next` reads the handle inside the node that it has just destroyed. -/
theorem head_next_destroyed : headNext.Wf pairOps listLayout ∧
    headNext.gone listLayout true = false ∧ headNext.gone listLayout false = false ∧
    ∀ fuel, copyAssign pairOps listLayout (fuel + 2) true false headNext = .error .destroyed ∧
      moveAssign pairOps listLayout (fuel + 2) true false headNext = .error .destroyed :=
  ⟨headNext_wf, rfl, rfl, fun _ => ⟨rfl, rfl⟩⟩

end Assignment

end MacKernel.Osmemory
