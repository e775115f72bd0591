import Mathlib.Logic.Relation
import MacKernel.Models.RedBlack.Focus

/-!
# Repair after a removal

`RB_REMOVE_COLOR` walks up from a tree that lacks one black node on its paths. The
sibling of such a tree has a black node on each of its paths, so it is never null. A
red sibling is rotated away first; then either the lack moves up one level, or the red
child of the sibling supplies the missing black node. What a pass can do to the tree and
to the augmented fields is said once, as a move.
-/

namespace MacKernel.RedBlack

variable {A : Type} {w : Nat} {s : RbHead A w} {t u x y : Tree (Cell w)}
  {z : List (Frame (Cell w))} {a b p : Cell w} {d : Side} {k : Bool} {n : Nat}
  (augment : Augment A w)

/-- The state of the repair at the pointer `elm` below `parent`: the tree with the addresses
`L` is balanced except that the tree at `elm` lacks a black node on its paths. -/
def RemoveFocus (s : RbHead A w) (parent elm : BitVec w) (L : List (BitVec w))
    (z : List (Frame (Cell w))) (u : Tree (Cell w)) : Prop :=
  ∃ k n, parent = above z ∧ elm = top u ∧ Deficient Cell.Red n u ∧
    BalancedCtx Cell.Red k (n + 1) z ∧ Rep s (Tree.plug z u) ∧ addrs (Tree.plug z u) = L

/-- The state in which the loop is left at the tree `u`: blackening its node `elm` balances
the tree. -/
def RemoveDone (s : RbHead A w) (elm : BitVec w) (L : List (BitVec w))
    (z : List (Frame (Cell w))) (u : Tree (Cell w)) : Prop :=
  ∃ m, elm = top u ∧ (z = [] ∨ rootBlack u = false) ∧ Rep s (Tree.plug z u) ∧
    Balanced Cell.Red false m (Tree.plug z (blackRoot u)) ∧ addrs (Tree.plug z u) = L

section Moves

/-- The end of `RB_REMOVE_COLOR` at a black sibling with a red child: one or two rotations put
another tree into the place of the node `p`. -/
inductive LastTurn (d : Side) (z : List (Frame (Cell w))) (u : Tree (Cell w)) (p : Cell w) :
    RbHead A w → Tree (Cell w) → RbHead A w → Tree (Cell w) → Prop where
  /-- The outer child of the sibling is red. -/
  | outer {s s₁ s' : RbHead A w} {x y : Tree (Cell w)} {b : Cell w} (hy : rootBlack y = false)
      (haug : s₁.aug = s.aug)
      (h : Rep s₁ (Tree.plug z (.join d u { p with color := .black }
        (.join d x { b with color := p.color } (blackRoot y)))))
      (e : rbRotate augment d s₁ p.addr = .ok (s', b.addr)) :
      LastTurn d z u p s (.join d x b y) s' (.join d (.join d u { p with color := .black } x)
        { b with color := p.color } (blackRoot y))
  /-- Only the inner child of the sibling is red: it is rotated above the sibling first. -/
  | inner {s s₁ s₂ s₃ s' : RbHead A w} {x₁ x₂ y : Tree (Cell w)} {a b : Cell w}
      (hy : rootBlack y = true) (ha : a.Red) (haug₁ : s₁.aug = s.aug)
      (h₁ : Rep s₁ (Tree.plug (⟨d.opp, p, u⟩ :: z) (.join d.opp y { b with color := .red }
        (.join d.opp x₂ { a with color := .black } x₁))))
      (e₁ : rbRotate augment d.opp s₁ b.addr = .ok (s₂, a.addr)) (haug₃ : s₃.aug = s₂.aug)
      (h₃ : Rep s₃ (Tree.plug z (.join d u { p with color := .black }
        (.join d x₁ { a with color := p.color } (.join d.opp y { b with color := .black } x₂)))))
      (e₃ : rbRotate augment d s₃ p.addr = .ok (s', a.addr)) :
      LastTurn d z u p s (.join d (.join d x₁ a x₂) b y) s'
        (.join d (.join d u { p with color := .black } x₁) { a with color := p.color }
          (.join d.opp y { b with color := .black } x₂))

/-- What a pass of `RB_REMOVE_COLOR` does at a tree with a black root below `p`. -/
inductive RemoveMove : Place A w → Place A w → Prop where
  /-- The sibling and its children are black: the sibling turns red. -/
  | lift {s s' : RbHead A w} {z : List (Frame (Cell w))} {u x y : Tree (Cell w)} {d : Side}
      {p b : Cell w} (hu : rootBlack u = true) (hb : ¬b.Red) (hx : rootBlack x = true)
      (hy : rootBlack y = true) (haug : s'.aug = s.aug) :
      RemoveMove ⟨s, ⟨d, p, .join d x b y⟩ :: z, u⟩
        ⟨s', z, .join d u p (.join d x { b with color := .red } y)⟩
  /-- The sibling is black and has a red child: the repair ends. -/
  | last {s s' : RbHead A w} {z : List (Frame (Cell w))} {u x y t : Tree (Cell w)} {d : Side}
      {p b : Cell w} (hu : rootBlack u = true) (hb : ¬b.Red)
      (h : LastTurn augment d z u p s (.join d x b y) s' t) :
      RemoveMove ⟨s, ⟨d, p, .join d x b y⟩ :: z, u⟩ ⟨s', [], Tree.plug z t⟩
  /-- The sibling is red and is rotated above `p`; the new sibling turns red. -/
  | redLift {s s₁ s₂ s' : RbHead A w} {z : List (Frame (Cell w))}
      {u x₁ x₂ y : Tree (Cell w)} {d : Side} {p b c : Cell w} (hu : rootBlack u = true)
      (hb : b.Red) (haug₁ : s₁.aug = s.aug)
      (h₁ : Rep s₁ (Tree.plug z (.join d u { p with color := .red }
        (.join d (.join d x₁ c x₂) { b with color := .black } y))))
      (e₁ : rbRotate augment d s₁ p.addr = .ok (s₂, b.addr)) (hx₁ : rootBlack x₁ = true)
      (hx₂ : rootBlack x₂ = true) (haug : s'.aug = s₂.aug) :
      RemoveMove ⟨s, ⟨d, p, .join d (.join d x₁ c x₂) b y⟩ :: z, u⟩
        ⟨s', ⟨d, { b with color := .black }, y⟩ :: z,
          .join d u { p with color := .red } (.join d x₁ { c with color := .red } x₂)⟩
  /-- The sibling is red and is rotated above `p`; the new sibling has a red child. -/
  | redLast {s s₁ s₂ s' : RbHead A w} {z : List (Frame (Cell w))}
      {u x₁ x₂ y t : Tree (Cell w)} {d : Side} {p b c : Cell w} (hu : rootBlack u = true)
      (hb : b.Red) (haug₁ : s₁.aug = s.aug)
      (h₁ : Rep s₁ (Tree.plug z (.join d u { p with color := .red }
        (.join d (.join d x₁ c x₂) { b with color := .black } y))))
      (e₁ : rbRotate augment d s₁ p.addr = .ok (s₂, b.addr))
      (h : LastTurn augment d (⟨d, { b with color := .black }, y⟩ :: z) u
        { p with color := .red } s₂ (.join d x₁ c x₂) s' t) :
      RemoveMove ⟨s, ⟨d, p, .join d (.join d x₁ c x₂) b y⟩ :: z, u⟩
        ⟨s', [], Tree.plug (⟨d, { b with color := .black }, y⟩ :: z) t⟩

end Moves

section Last

/-- The far sibling with a red outer child: its rotation ends the repair. -/
theorem Rep.removeColorLast {e : Side} {y₁ y₂ : Tree (Cell w)}
    (h : Rep s (Tree.plug z (.join d u p (.join d x b (.join e y₁ a y₂))))) :
    ∃ s₁ s', s₁.aug = s.aug ∧ Rep s₁ (Tree.plug z (.join d u { p with color := .black }
        (.join d x { b with color := p.color } (.join e y₁ { a with color := .black } y₂)))) ∧
      rbRotate augment d s₁ p.addr = .ok (s', b.addr) ∧
      rbRemoveColorLast augment d s p.addr b.addr = .ok s' ∧
      Rep s' (Tree.plug z (.join d (.join d u { p with color := .black } x)
        { b with color := p.color } (.join e y₁ { a with color := .black } y₂))) := by
  have e₁ := h.getcolor
  have hsib := h
  rw [← Tree.join_opp] at hsib
  obtain ⟨s₁, e₂, h₁⟩ := Rep.setcolor (z := ⟨d.opp, p, u⟩ :: z) hsib p.color
  rw [Tree.plug_cons, Tree.join_opp] at h₁
  obtain ⟨s₂, e₃, h₂⟩ := h₁.setcolor .black
  have houter := h₂
  rw [← Tree.join_opp] at houter
  have e₄ := Rep.child_far (z := ⟨d.opp, _, u⟩ :: z) houter
  rw [← Tree.join_opp d _ _ x] at houter
  obtain ⟨s₃, e₅, h₃⟩ := Rep.blacken (z := ⟨d.opp, _, x⟩ :: ⟨d.opp, _, u⟩ :: z) houter
  rw [Tree.plug_cons, Tree.plug_cons, Tree.join_opp, Tree.join_opp, blackRoot_join] at h₃
  obtain ⟨s₄, e₆, h₄⟩ := h₃.rotate augment
  refine ⟨s₃, s₄, ?_, h₃, e₆, ?_, h₄⟩
  · rw [rbBlacken_aug e₅, rbSetcolor_aug e₃, rbSetcolor_aug e₂]
  · simp only [rbRemoveColorLast, e₁, e₂, e₃, e₄, e₅, e₆, ok_bind]
    rfl

/-- The repaired tree is balanced in place of the node `p` and its subtrees. -/
theorem balanced_removeColorLast {e : Side} {y₁ y₂ : Tree (Cell w)}
    (hctx : BalancedCtx Cell.Red k (n + 1) (⟨d, p, t⟩ :: z)) (hu : Balanced Cell.Red true n u)
    (hx : Balanced Cell.Red true n x) (hy₁ : Balanced Cell.Red true n y₁)
    (hy₂ : Balanced Cell.Red true n y₂) :
    ∃ m, Balanced Cell.Red false m (Tree.plug z (.join d (.join d u { p with color := .black } x)
      { b with color := p.color } (.join e y₁ { a with color := .black } y₂))) := by
  have hleft : ∀ {k}, Balanced Cell.Red k (n + 1) (.join d u { p with color := .black } x) :=
    balanced_black_cell.mpr ⟨n, rfl, hu, hx⟩
  have hright : ∀ {k}, Balanced Cell.Red k (n + 1) (.join e y₁ { a with color := .black } y₂) :=
    balanced_black_cell.mpr ⟨n, rfl, hy₁, hy₂⟩
  cases hctx with
  | red hp _ hctx =>
    have hp' : Cell.Red { b with color := p.color } := hp
    exact hctx.plug ((balanced_join_red hp').mpr ⟨rfl, hleft, hright⟩)
  | black hp _ hctx =>
    have hp' : ¬Cell.Red { b with color := p.color } := hp
    exact hctx.plug ((balanced_join_black hp').mpr ⟨_, rfl, hleft, hright⟩)

/-- A balanced tree needs no further repair than a blackened root. -/
theorem RemoveDone.of_balanced {m : Nat} {L : List (BitVec w)} (h : Rep s t)
    (ht : Balanced Cell.Red false m t) (hL : addrs t = L) : RemoveDone s s.root L [] t := by
  obtain ⟨m', hm'⟩ := balanced_blackRoot ht
  exact ⟨m', h.root, .inl rfl, h, hm', hL⟩

end Last

section Step

/-- The sibling turns red: the lack moves up to the node `p`. -/
theorem RemoveFocus.recolored {s' : RbHead A w}
    (h : Rep s' (Tree.plug z (.join d u p (.join d x { b with color := .red } y))))
    (hu : Balanced Cell.Red false n u) (hx : Balanced Cell.Red true n x)
    (hy : Balanced Cell.Red true n y) (hxb : rootBlack x = true) (hyb : rootBlack y = true)
    (hctx : BalancedCtx Cell.Red k (n + 1) (⟨d, p, t⟩ :: z)) :
    RemoveFocus s' (above z) p.addr (addrs (Tree.plug z (.join d u p (.join d x b y)))) z
      (.join d u p (.join d x { b with color := .red } y)) := by
  have hred : Balanced Cell.Red true n (.join d x { b with color := .red } y) :=
    balanced_red_cell.mpr ⟨rfl, balanced_of_rootBlack hx hxb, balanced_of_rootBlack hy hyb⟩
  have hL : addrs (Tree.plug z (.join d u p (.join d x { b with color := .red } y))) =
      addrs (Tree.plug z (.join d u p (.join d x b y))) :=
    addrs_plug_congr (addrs_join_congr rfl rfl (addrs_join_congr rfl rfl rfl))
  cases hctx with
  | red hp _ hctx =>
    exact ⟨_, n, rfl, (top_join _ _ _ _).symm, deficient_join_red hp hu.relax hred, hctx, h, hL⟩
  | black hp _ hctx =>
    refine ⟨_, n + 1, rfl, (top_join _ _ _ _).symm, .black ?_, hctx, h, hL⟩
    exact (balanced_join_black hp).mpr ⟨n, rfl, hu.relax, hred⟩

/-- The inner child of the sibling is rotated to its place. -/
theorem Rep.rotateInner {x₁ x₂ : Tree (Cell w)}
    (h : Rep s (Tree.plug z (.join d u p (.join d (.join d x₁ a x₂) b y)))) :
    ∃ s₁ s₂ s₃, rbBlacken s (top (.join d x₁ a x₂)) = .ok s₁ ∧
      rbSetcolor s₁ b.addr .red = .ok s₂ ∧ rbRotate augment d.opp s₂ b.addr = .ok (s₃, a.addr) ∧
      rbChild s₃ d.opp p.addr = .ok a.addr ∧
      Rep s₂ (Tree.plug (⟨d.opp, p, u⟩ :: z) (.join d.opp y { b with color := .red }
        (.join d.opp x₂ { a with color := .black } x₁))) ∧
      Rep s₃ (Tree.plug z (.join d u p (.join d x₁ { a with color := .black }
        (.join d.opp y { b with color := .red } x₂)))) := by
  rw [← Tree.join_opp] at h
  obtain ⟨s₁, e₁, h₁⟩ := Rep.blacken (z := ⟨d, b, y⟩ :: ⟨d.opp, p, u⟩ :: z) h
  obtain ⟨s₂, e₂, h₂⟩ := Rep.setcolor (z := ⟨d.opp, p, u⟩ :: z) h₁ .red
  rw [blackRoot_join, ← Tree.join_opp d y, ← Tree.join_opp d x₂ _ x₁] at h₂
  obtain ⟨s₃, e₃, h₃⟩ := h₂.rotate augment
  rw [Tree.plug_cons, Tree.join_opp, Tree.join_opp d _ _ x₁] at h₃
  have e₄ := h₃.child_far
  rw [top_join] at e₄
  exact ⟨s₁, s₂, s₃, e₁, e₂, e₃, e₄, h₂, h₃⟩

/-- The children of a black sibling are black: it turns red. -/
theorem Rep.removeColorBlack_lift (h : Rep s (Tree.plug z (.join d u p (.join d x b y))))
    (hx : rootBlack x = true) (hy : rootBlack y = true) :
    ∃ s', rbRemoveColorBlack augment d s p.addr b.addr = .ok (.inl (s', above z, p.addr)) ∧
      s'.aug = s.aug ∧
      Rep s' (Tree.plug z (.join d u p (.join d x { b with color := .red } y))) := by
  rw [← Tree.join_opp] at h
  obtain ⟨vl, vr, bl, br, e₁, e₂, e₃, e₄, hboth⟩ :=
    Rep.children_black (z := ⟨d.opp, p, u⟩ :: z) h
  obtain ⟨s₁, e₅, h₁⟩ := Rep.setcolor (z := ⟨d.opp, p, u⟩ :: z) h .red
  rw [Tree.plug_cons, Tree.join_opp] at h₁
  have e₆ := h₁.getparent
  refine ⟨s₁, ?_, rbSetcolor_aug e₅, h₁⟩
  simp only [rbRemoveColorBlack, e₁, e₂, e₃, e₄, ok_bind]
  rw [if_pos (hboth.mpr ⟨hx, hy⟩)]
  simp only [e₅, e₆, ok_bind]
  rfl

/-- The outer child of a black sibling is red: one rotation ends the repair. -/
theorem Rep.removeColorBlack_outer {y₁ y₂ : Tree (Cell w)}
    (h : Rep s (Tree.plug z (.join d u p (.join d x b (.join d y₁ a y₂))))) (ha : a.Red) :
    ∃ s', rbRemoveColorBlack augment d s p.addr b.addr = .ok (.inr (s', s'.root)) ∧
      LastTurn augment d z u p s (.join d x b (.join d y₁ a y₂)) s'
        (.join d (.join d u { p with color := .black } x) { b with color := p.color }
          (.join d y₁ { a with color := .black } y₂)) ∧
      Rep s' (Tree.plug z (.join d (.join d u { p with color := .black } x)
        { b with color := p.color } (.join d y₁ { a with color := .black } y₂))) := by
  have hy : rootBlack (.join d y₁ a y₂) = false := by simp [ha]
  obtain ⟨s₁, s₂, haug, h₁, e₈, e₇, h₂⟩ := h.removeColorLast augment
  rw [← Tree.join_opp] at h
  obtain ⟨vl, vr, bl, br, e₁, e₂, e₃, e₄, hboth⟩ :=
    Rep.children_black (z := ⟨d.opp, p, u⟩ :: z) h
  have e₅ := Rep.child_far (z := ⟨d.opp, p, u⟩ :: z) h
  have e₆ := Rep.far_black (z := ⟨d.opp, p, u⟩ :: z) h
  have hlast : LastTurn augment d z u p s (.join d x b (.join d y₁ a y₂)) s₂
      (.join d (.join d u { p with color := .black } x) { b with color := p.color }
        (blackRoot (.join d y₁ a y₂))) :=
    .outer hy haug (by rwa [blackRoot_join]) e₈
  rw [blackRoot_join] at hlast
  refine ⟨s₂, ?_, hlast, h₂⟩
  simp only [rbRemoveColorBlack, e₁, e₂, e₃, e₄, ok_bind]
  rw [if_neg fun hbl => absurd (hy.symm.trans (hboth.mp hbl).2) (by decide)]
  simp only [e₅, e₆, hy, ok_bind]
  rw [if_neg (by decide)]
  simp only [pure_bind, e₇, ok_bind]
  rfl

/-- Only the inner child of a black sibling is red: it is rotated to the place of the sibling
first. -/
theorem Rep.removeColorBlack_inner {x₁ x₂ : Tree (Cell w)}
    (h : Rep s (Tree.plug z (.join d u p (.join d (.join d x₁ a x₂) b y)))) (ha : a.Red)
    (hy : rootBlack y = true) :
    ∃ s', rbRemoveColorBlack augment d s p.addr b.addr = .ok (.inr (s', s'.root)) ∧
      LastTurn augment d z u p s (.join d (.join d x₁ a x₂) b y) s'
        (.join d (.join d u { p with color := .black } x₁) { a with color := p.color }
          (.join d.opp y { b with color := .black } x₂)) ∧
      Rep s' (Tree.plug z (.join d (.join d u { p with color := .black } x₁)
        { a with color := p.color } (.join d.opp y { b with color := .black } x₂))) := by
  have hx : rootBlack (.join d x₁ a x₂) = false := by simp [ha]
  obtain ⟨s₁, s₂, s₃, e₈, e₉, e₁₀, e₁₁, h₂, h₃⟩ := h.rotateInner augment
  obtain ⟨s₃', s₄, haug, h₃', e₁₃, e₁₂, h₄⟩ := h₃.removeColorLast augment
  rw [← Tree.join_opp] at h
  obtain ⟨vl, vr, bl, br, e₁, e₂, e₃, e₄, hboth⟩ :=
    Rep.children_black (z := ⟨d.opp, p, u⟩ :: z) h
  have e₅ := Rep.child_far (z := ⟨d.opp, p, u⟩ :: z) h
  have e₆ := Rep.far_black (z := ⟨d.opp, p, u⟩ :: z) h
  have e₇ := Rep.child_near (z := ⟨d.opp, p, u⟩ :: z) h
  refine ⟨s₄, ?_, .inner hy ha ((rbSetcolor_aug e₉).trans (rbBlacken_aug e₈)) h₂ e₁₀ haug h₃'
    e₁₃, h₄⟩
  simp only [rbRemoveColorBlack, e₁, e₂, e₃, e₄, ok_bind]
  rw [if_neg fun hbl => absurd (hx.symm.trans (hboth.mp hbl).1) (by decide)]
  simp only [e₅, e₆, hy, e₇, e₈, e₉, e₁₀, e₁₁, e₁₂, ok_bind, if_true, pure_bind]
  rfl

/-- One pass once the sibling is black: the lack moves up, or the repair ends. -/
theorem Rep.removeColorBlack
    (h : Rep s (Tree.plug z (.join d u p (.join d x b y))))
    (hu : Balanced Cell.Red false n u) (hx : Balanced Cell.Red true n x)
    (hy : Balanced Cell.Red true n y)
    (hctx : BalancedCtx Cell.Red k (n + 1) (⟨d, p, t⟩ :: z)) :
    (∃ s', rbRemoveColorBlack augment d s p.addr b.addr = .ok (.inl (s', above z, p.addr)) ∧
      rootBlack x = true ∧ rootBlack y = true ∧ s'.aug = s.aug ∧
      RemoveFocus s' (above z) p.addr (addrs (Tree.plug z (.join d u p (.join d x b y)))) z
        (.join d u p (.join d x { b with color := .red } y))) ∨
    (∃ s' t', rbRemoveColorBlack augment d s p.addr b.addr = .ok (.inr (s', s'.root)) ∧
      LastTurn augment d z u p s (.join d x b y) s' t' ∧
      RemoveDone s' s'.root (addrs (Tree.plug z (.join d u p (.join d x b y)))) []
        (Tree.plug z t')) := by
  rcases hy.black_or_red d with hyblack | ⟨y₁, a, y₂, rfl, ha, hy₁, hy₂⟩
  · have hyb := rootBlack_of_balanced hyblack
    rcases hx.black_or_red d with hxblack | ⟨x₁, a, x₂, rfl, ha, hx₁, hx₂⟩
    · have hxb := rootBlack_of_balanced hxblack
      obtain ⟨s', e, haug, h'⟩ := h.removeColorBlack_lift augment hxb hyb
      exact .inl ⟨s', e, hxb, hyb, haug, .recolored h' hu hx hy hxb hyb hctx⟩
    · obtain ⟨s', e, hlast, h'⟩ := h.removeColorBlack_inner augment ha hyb
      obtain ⟨m, hm⟩ := balanced_removeColorLast (e := d.opp) (b := a) (a := b) hctx hu.relax
        hx₁.relax hyblack.relax hx₂.relax
      refine .inr ⟨s', _, e, hlast, .of_balanced h' hm (addrs_plug_congr ?_)⟩
      cases d <;> simp [addrs, Tree.join, Side.opp]
  · obtain ⟨s', e, hlast, h'⟩ := h.removeColorBlack_outer augment ha
    obtain ⟨m, hm⟩ := balanced_removeColorLast (e := d) (b := b) (a := a) hctx hu.relax hx
      hy₁.relax hy₂.relax
    refine .inr ⟨s', _, e, hlast, .of_balanced h' hm (addrs_plug_congr ?_)⟩
    cases d <;> simp [addrs, Tree.join]

/-- The number of passes that are left: none once the node at the focus is red. -/
def removeBound (z : List (Frame (Cell w))) (u : Tree (Cell w)) : Nat :=
  if rootBlack u then z.length + 1 else 0

/-- A red sibling is rotated above the parent, which turns red; the pass goes on with the new
sibling. -/
theorem Rep.removeColorAt_red {x₁ x₂ : Tree (Cell w)} {c : Cell w}
    (h : Rep s (Tree.plug z (.join d u p (.join d (.join d x₁ c x₂) b y)))) (hb : b.Red) :
    ∃ s₁ s₂, s₁.aug = s.aug ∧
      Rep s₁ (Tree.plug z (.join d u { p with color := .red }
        (.join d (.join d x₁ c x₂) { b with color := .black } y))) ∧
      rbRotate augment d s₁ p.addr = .ok (s₂, b.addr) ∧
      Rep s₂ (Tree.plug (⟨d, { b with color := .black }, y⟩ :: z)
        (.join d u { p with color := .red } (.join d x₁ c x₂))) ∧
      rbRemoveColorAt augment d s p.addr = rbRemoveColorBlack augment d s₂ p.addr c.addr := by
  have e₁ := h.child_far
  rw [top_join] at e₁
  rw [← Tree.join_opp] at h
  have e₂ := Rep.getcolor (z := ⟨d.opp, p, u⟩ :: z) h
  obtain ⟨s₁, e₃, h₁⟩ := Rep.setBlackred (z := z) h
  rw [Tree.join_opp] at h₁
  obtain ⟨s₂, e₄, h₂⟩ := h₁.rotate augment
  have e₅ := Rep.child_far (z := ⟨d, _, y⟩ :: z) h₂
  rw [top_join] at e₅
  refine ⟨s₁, s₂, rbSetBlackred_aug e₃, h₁, e₄, h₂, ?_⟩
  simp only [rbRemoveColorAt, e₁, e₂, ok_bind]
  rw [if_pos hb]
  simp only [e₃, e₄, e₅, ok_bind, pure_bind]

/-- A black sibling stays where it is. -/
theorem Rep.removeColorAt_black (h : Rep s (Tree.plug z (.join d u p (.join d x b y))))
    (hb : ¬b.Red) :
    rbRemoveColorAt augment d s p.addr = rbRemoveColorBlack augment d s p.addr b.addr := by
  have e₁ := h.child_far
  rw [top_join] at e₁
  rw [← Tree.join_opp] at h
  have e₂ := Rep.getcolor (z := ⟨d.opp, p, u⟩ :: z) h
  simp only [rbRemoveColorAt, e₁, e₂, ok_bind]
  rw [if_neg hb]
  rfl

/-- The parent of a deficient tree with a red sibling is black. -/
theorem balancedCtx_of_red_sibling (hb : b.Red)
    (hctx : BalancedCtx Cell.Red k (n + 1) (⟨d, p, .join d x b y⟩ :: z)) :
    ∃ k, BalancedCtx Cell.Red k (n + 2) z := by
  cases hctx with
  | red _ hsib _ => exact absurd ((balanced_join_red hb).mp hsib).1 (by decide)
  | black _ _ hctx => exact ⟨_, hctx⟩

/-- One pass at the child on side `d` of its parent: the lack moves up, or the repair ends. -/
theorem Rep.removeColorAt (h : Rep s (Tree.plug z (.join d u p t)))
    (hu : Balanced Cell.Red false n u)
    (hctx : BalancedCtx Cell.Red k (n + 1) (⟨d, p, t⟩ :: z)) :
    (∃ s' v z' u', rbRemoveColorAt augment d s p.addr = .ok (.inl (s', v, p.addr)) ∧
      removeBound z' u' < z.length + 2 ∧
      RemoveMove augment ⟨s, ⟨d, p, t⟩ :: z, u⟩ ⟨s', z', u'⟩ ∧
      RemoveFocus s' v p.addr (addrs (Tree.plug z (.join d u p t))) z' u') ∨
    (∃ s' t', rbRemoveColorAt augment d s p.addr = .ok (.inr (s', s'.root)) ∧
      RemoveMove augment ⟨s, ⟨d, p, t⟩ :: z, u⟩ ⟨s', [], t'⟩ ∧
      RemoveDone s' s'.root (addrs (Tree.plug z (.join d u p t))) [] t') := by
  have hublack := rootBlack_of_balanced hu
  have hsibBal : Balanced Cell.Red true (n + 1) t := by
    cases hctx with
    | red _ hsib _ => exact hsib.relax
    | black _ hsib _ => exact hsib
  obtain ⟨x, b, y, rfl⟩ := hsibBal.exists_join d
  by_cases hb : b.Red
  · obtain ⟨-, hx, hy⟩ := (balanced_join_red hb).mp hsibBal
    obtain ⟨x₁, c, x₂, rfl⟩ := hx.exists_join d
    obtain ⟨s₁, s₂, haug₁, h₁, e₁, h₂, hcode⟩ := h.removeColorAt_red augment hb
    obtain ⟨k, hctx⟩ := balancedCtx_of_red_sibling hb hctx
    have hc : ¬c.Red := fun hc => absurd ((balanced_join_red hc).mp hx).1 (by decide)
    obtain ⟨m, hm, hx₁, hx₂⟩ := (balanced_join_black hc).mp hx
    obtain rfl : n = m := by omega
    have hL : addrs (Tree.plug (⟨d, { b with color := .black }, y⟩ :: z)
        (.join d u { p with color := .red } (.join d x₁ c x₂))) =
        addrs (Tree.plug z (.join d u p (.join d (.join d x₁ c x₂) b y))) := by
      rw [Tree.plug_cons]
      refine addrs_plug_congr ?_
      cases d <;> simp [addrs, Tree.join]
    rw [hcode, ← hL]
    rcases Rep.removeColorBlack augment (z := ⟨d, _, y⟩ :: z) h₂ hu hx₁ hx₂
      (.red rfl hx (.black not_red_black hy.relax hctx)) with
      ⟨s', e, hx₁b, hx₂b, haug, hfocus⟩ | ⟨s', t', e, hlast, hdone⟩
    · refine .inl ⟨s', _, _, _, e, ?_, .redLift hublack hb haug₁ h₁ e₁ hx₁b hx₂b haug, hfocus⟩
      simp [removeBound]
    · exact .inr ⟨s', _, e, .redLast hublack hb haug₁ h₁ e₁ hlast, hdone⟩
  · obtain ⟨m, hm, hx, hy⟩ := (balanced_join_black hb).mp hsibBal
    obtain rfl : n = m := by omega
    rw [h.removeColorAt_black augment hb]
    rcases h.removeColorBlack augment hu hx hy hctx with
      ⟨s', e, hxb, hyb, haug, hfocus⟩ | ⟨s', t', e, hlast, hdone⟩
    · refine .inl ⟨s', _, _, _, e, ?_, .lift hublack hb hxb hyb haug, hfocus⟩
      unfold removeBound
      split_ifs <;> omega
    · exact .inr ⟨s', _, e, .last hublack hb hlast, hdone⟩

/-- One pass of the loop. -/
theorem RemoveFocus.body {parent elm : BitVec w} {L : List (BitVec w)}
    (h : RemoveFocus s parent elm L z u) :
    (∃ s' v v' z' u', removeBound z' u' < removeBound z u ∧
      rbRemoveColorBody augment (s, parent, elm) = .ok (.inl (s', v, v')) ∧
      RemoveMove augment ⟨s, z, u⟩ ⟨s', z', u'⟩ ∧ RemoveFocus s' v v' L z' u') ∨
    (∃ s' v z' u', rbRemoveColorBody augment (s, parent, elm) = .ok (.inr (s', v)) ∧
      Relation.ReflTransGen (RemoveMove augment) ⟨s, z, u⟩ ⟨s', z', u'⟩ ∧
      RemoveDone s' v L z' u') := by
  obtain ⟨k, n, rfl, rfl, hu, hctx, hrep, rfl⟩ := h
  have e₁ := hrep.blackOrNull
  rcases deficient_blackRoot hu with ⟨hred, hbal⟩ | ⟨hblack, hbal⟩
  · obtain ⟨m, hm⟩ := hctx.plug hbal.relax
    refine .inr ⟨s, top u, z, u, ?_, .refl, m, rfl, .inr hred, hrep, hm, rfl⟩
    simp only [rbRemoveColorBody, e₁, hred, ok_bind]
    exact if_neg fun hf => absurd hf.1 (by decide)
  · rw [hblack] at e₁
    obtain - | ⟨⟨d, p, t⟩, z⟩ := z
    · obtain ⟨m, hm⟩ := balanced_blackRoot hbal
      refine .inr ⟨s, top u, [], u, ?_, .refl, m, rfl, .inl rfl, hrep, hm, rfl⟩
      simp only [rbRemoveColorBody, e₁, ok_bind]
      exact if_neg fun hf => hf.2 hrep.root.symm
    · have hsib : t ≠ .nil := by
        rintro rfl
        cases hctx with
        | red _ hsib _ => exact absurd (balanced_nil.mp hsib) (by omega)
        | black _ hsib _ => exact absurd (balanced_nil.mp hsib) (by omega)
      obtain ⟨v, e₂, hside⟩ := hrep.side_test (.inr hsib) .left
      have hcode : rbRemoveColorBody augment (s, above (⟨d, p, t⟩ :: z), top u) =
          rbRemoveColorAt augment d s p.addr := by
        simp only [rbRemoveColorBody, e₁, ok_bind]
        rw [if_pos ⟨trivial, hrep.top_ne_root⟩]
        simp only [above, parentOf, e₂, ok_bind]
        cases d with
        | left => exact if_pos (hside.mpr rfl)
        | right => exact if_neg fun he => absurd (hside.mp he) (by simp)
      rw [hcode]
      rcases Rep.removeColorAt augment (z := z) hrep hbal hctx with
        ⟨s', v', z', u', e, hlt, hmove, hfocus⟩ | ⟨s', t', e, hmove, hdone⟩
      · refine .inl ⟨s', v', p.addr, z', u', ?_, e, hmove, hfocus⟩
        rwa [removeBound.eq_def (_ :: z), if_pos hblack]
      · exact .inr ⟨s', _, [], t', e, .single hmove, hdone⟩

/-- `RB_REMOVE_COLOR` moves to the root or to a red node, which it blackens, and leaves a
balanced tree with the same addresses. -/
theorem RemoveFocus.removeColor {parent elm : BitVec w} {L : List (BitVec w)}
    (h : RemoveFocus s parent elm L z u) :
    ∃ s₁ z₁ u₁ s' n, Relation.ReflTransGen (RemoveMove augment) ⟨s, z, u⟩ ⟨s₁, z₁, u₁⟩ ∧
      (z₁ = [] ∨ rootBlack u₁ = false) ∧ rbRemoveColor augment s parent elm = .ok s' ∧
      s'.aug = s₁.aug ∧ Balanced Cell.Red false n (Tree.plug z₁ (blackRoot u₁)) ∧
      Rep s' (Tree.plug z₁ (blackRoot u₁)) ∧ addrs (Tree.plug z₁ (blackRoot u₁)) = L := by
  have hfuel : removeBound z u < walkFuel w := by
    obtain ⟨_, _, _, _, _, _, hrep, _⟩ := h
    have := hrep.length_lt
    unfold removeBound
    split_ifs <;> omega
  obtain ⟨⟨s₁, v⟩, e₁, z₁, u₁, hmoves, m, rfl, hstop, hrep, hbal, hL⟩ := loop_spec
    (fun bound (p : RbHead A w × BitVec w × BitVec w) => ∃ z₁ u₁, removeBound z₁ u₁ = bound ∧
      Relation.ReflTransGen (RemoveMove augment) ⟨s, z, u⟩ ⟨p.1, z₁, u₁⟩ ∧
      RemoveFocus p.1 p.2.1 p.2.2 L z₁ u₁)
    (fun r : RbHead A w × BitVec w => ∃ z₁ u₁,
      Relation.ReflTransGen (RemoveMove augment) ⟨s, z, u⟩ ⟨r.1, z₁, u₁⟩ ∧
      RemoveDone r.1 r.2 L z₁ u₁)
    (fun bound p ⟨z₁, u₁, hlen, hmoves, hp⟩ => (hp.body augment).imp
      (fun ⟨s', v, v', z', u', hlt, hb, hmove, hfocus⟩ =>
        ⟨(s', v, v'), removeBound z' u', hlen ▸ hlt, hb, z', u', rfl, hmoves.tail hmove, hfocus⟩)
      fun ⟨s', v, z', u', hb, hmoves', hdone⟩ =>
        ⟨(s', v), hb, z', u', hmoves.trans hmoves', hdone⟩)
    (s := (s, parent, elm)) ⟨z, u, rfl, .refl, h⟩ hfuel
  obtain ⟨s₂, e₂, h₂⟩ := hrep.blacken
  refine ⟨s₁, z₁, u₁, s₂, m, hmoves, hstop, ?_, rbBlacken_aug e₂, hbal, h₂, ?_⟩
  · rw [rbRemoveColor, e₁, ok_bind]
    exact e₂
  · rw [addrs_plug_congr (addrs_blackRoot u₁), hL]

end Step

end MacKernel.RedBlack
