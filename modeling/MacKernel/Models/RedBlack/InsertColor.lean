import Mathlib.Logic.Relation
import MacKernel.Models.RedBlack.Focus

/-!
# Repair after an insertion

`RB_INSERT_COLOR` walks up from a red node whose parent may be red as well. In every
pass the tree in the hole has a red root over black-rooted children and the context is
balanced; either both move up two levels, or two rotations at most end the walk. What a
pass can do to the tree and to the augmented fields is said once, as a move.
-/

namespace MacKernel.RedBlack

variable {A : Type} {w : Nat} {s : RbHead A w} {t near far : Tree (Cell w)}
  {z : List (Frame (Cell w))} {c p g : Cell w} {d : Side} {k : Bool} {n : Nat}
  (augment : Augment A w)

/-- The state of the repair at the address `v` of the tree `t`: its node is red, and the tree
with the addresses `L` is balanced except that its parent may be red too. -/
def InsertFocus (s : RbHead A w) (v : BitVec w) (L : List (BitVec w))
    (z : List (Frame (Cell w))) (t : Tree (Cell w)) : Prop :=
  ∃ k n l c r, t = .node l c r ∧ v = c.addr ∧ c.Red ∧ Balanced Cell.Red false n l ∧
    Balanced Cell.Red false n r ∧ BalancedCtx Cell.Red k n z ∧
    Rep s (Tree.plug z t) ∧ addrs (Tree.plug z t) = L

/-- The focus may be seen from either side. -/
theorem InsertFocus.of_join {v : BitVec w} {L : List (BitVec w)} (hc : c.Red)
    (hnear : Balanced Cell.Red false n near) (hfar : Balanced Cell.Red false n far)
    (hctx : BalancedCtx Cell.Red k n z) (h : Rep s (Tree.plug z (.join d near c far)))
    (hv : v = c.addr) (hL : addrs (Tree.plug z (.join d near c far)) = L) :
    InsertFocus s v L z (.join d near c far) := by
  cases d with
  | left => exact ⟨k, n, near, c, far, rfl, hv, hc, hnear, hfar, hctx, h, hL⟩
  | right => exact ⟨k, n, far, c, near, rfl, hv, hc, hfar, hnear, hctx, h, hL⟩

/-- What a pass of `RB_INSERT_COLOR` does below a red parent `p` and its parent `g`. -/
inductive InsertMove : Place A w → Place A w → Prop where
  /-- The uncle is red: three nodes are recoloured. -/
  | lift {s s' : RbHead A w} {z : List (Frame (Cell w))} {t sib uncle : Tree (Cell w)}
      {d e : Side} {p g : Cell w} (hp : p.Red) (huncle : rootBlack uncle = false)
      (haug : s'.aug = s.aug) :
      InsertMove ⟨s, ⟨e, p, sib⟩ :: ⟨d, g, uncle⟩ :: z, t⟩
        ⟨s', z, .join d (.join e t { p with color := .black } sib) { g with color := .red }
          (blackRoot uncle)⟩
  /-- The tree is on the outer side of `p`, which is rotated above `g`. -/
  | outer {s s₁ s' : RbHead A w} {z : List (Frame (Cell w))} {t sib uncle : Tree (Cell w)}
      {d : Side} {p g : Cell w} (hp : p.Red) (huncle : rootBlack uncle = true)
      (haug : s₁.aug = s.aug)
      (h : Rep s₁ (Tree.plug z (.join d.opp uncle { g with color := .red }
        (.join d.opp sib { p with color := .black } t))))
      (e : rbRotate augment d.opp s₁ g.addr = .ok (s', p.addr)) :
      InsertMove ⟨s, ⟨d, p, sib⟩ :: ⟨d, g, uncle⟩ :: z, t⟩
        ⟨s', ⟨d, { p with color := .black }, .join d.opp uncle { g with color := .red } sib⟩ :: z,
          t⟩
  /-- The tree is on the inner side of `p`: its node is rotated above `p` and then `g`. -/
  | inner {s s₀ s₁ s' : RbHead A w} {z : List (Frame (Cell w))}
      {near far sib uncle : Tree (Cell w)} {d : Side} {c p g : Cell w} (hp : p.Red)
      (huncle : rootBlack uncle = true)
      (h₀ : Rep s (Tree.plug (⟨d, g, uncle⟩ :: z) (.join d sib p (.join d near c far))))
      (e₀ : rbRotate augment d s p.addr = .ok (s₀, c.addr)) (haug : s₁.aug = s₀.aug)
      (h : Rep s₁ (Tree.plug z (.join d.opp uncle { g with color := .red }
        (.join d.opp far { c with color := .black } (.join d sib p near)))))
      (e : rbRotate augment d.opp s₁ g.addr = .ok (s', c.addr)) :
      InsertMove ⟨s, ⟨d.opp, p, sib⟩ :: ⟨d, g, uncle⟩ :: z, .join d near c far⟩
        ⟨s', ⟨d, { c with color := .black }, .join d.opp uncle { g with color := .red } far⟩ :: z,
          .join d sib p near⟩

section Outer

variable {tu sib uncle : Tree (Cell w)}

/-- The last step of the repair: recolour and rotate the red parent above the grandparent. -/
theorem Rep.insertColorOuter (h : Rep s (Tree.plug z (.join d (.join d tu p sib) g uncle))) :
    ∃ s₁ s₂, rbSetBlackred s p.addr g.addr = .ok s₁ ∧
      rbRotate augment d.opp s₁ g.addr = .ok (s₂, p.addr) ∧
      Rep s₁ (Tree.plug z (.join d.opp uncle { g with color := .red }
        (.join d.opp sib { p with color := .black } tu))) ∧
      Rep s₂ (Tree.plug (⟨d, { p with color := .black },
        .join d.opp uncle { g with color := .red } sib⟩ :: z) tu) ∧
      addrs (Tree.plug (⟨d, { p with color := .black },
        .join d.opp uncle { g with color := .red } sib⟩ :: z) tu) =
        addrs (Tree.plug z (.join d (.join d tu p sib) g uncle)) := by
  obtain ⟨s₁, e₁, h₁⟩ := h.setBlackred
  rw [← Tree.join_opp, ← Tree.join_opp d sib _ tu] at h₁
  obtain ⟨s₂, e₂, h₂⟩ := h₁.rotate augment
  rw [Tree.join_opp d _ _ tu] at h₂
  refine ⟨s₁, s₂, e₁, e₂, h₁, h₂, ?_⟩
  rw [Tree.plug_cons]
  refine addrs_plug_congr ?_
  cases d <;> simp [addrs, Tree.join, Side.opp]

end Outer

section Step

variable {e : Side} {sib uncle : Tree (Cell w)}

/-- The pass at a tree on the outer side of a red parent with a black uncle. -/
theorem Rep.insertColorAt_outer
    (h : Rep s (Tree.plug z (.join d (.join d (.join d near c far) p sib) g uncle)))
    (hp : p.Red) (huncle : rootBlack uncle = true) :
    ∃ s', rbInsertColorAt augment d s c.addr p.addr g.addr = .ok (s', c.addr) ∧
      InsertMove augment ⟨s, ⟨d, p, sib⟩ :: ⟨d, g, uncle⟩ :: z, .join d near c far⟩
        ⟨s', ⟨d, { p with color := .black }, .join d.opp uncle { g with color := .red } sib⟩ :: z,
          .join d near c far⟩ ∧
      Rep s' (Tree.plug (⟨d, { p with color := .black },
        .join d.opp uncle { g with color := .red } sib⟩ :: z) (.join d near c far)) ∧
      addrs (Tree.plug (⟨d, { p with color := .black },
        .join d.opp uncle { g with color := .red } sib⟩ :: z) (.join d near c far)) =
        addrs (Tree.plug z (.join d (.join d (.join d near c far) p sib) g uncle)) := by
  have e₁ := h.child_far
  have e₂ := h.far_black
  obtain ⟨s₁, s₂, e₃, e₄, h₁, h₂, hL⟩ := h.insertColorOuter augment
  have e₅ := Rep.child_far (z := ⟨d, g, uncle⟩ :: z) h
  have hne : top sib ≠ c.addr := by
    have hsib := Rep.top_sibling_ne (f := ⟨d, p, sib⟩) (z := ⟨d, g, uncle⟩ :: z)
      (t := .join d near c far) h (.inl (Tree.join_ne_nil _ _ _ _))
    rwa [top_join] at hsib
  refine ⟨s₂, ?_, .outer hp huncle (rbSetBlackred_aug e₃) h₁ e₄, h₂, hL⟩
  rw [huncle] at e₂
  simp only [rbInsertColorAt, e₁, e₂, ok_bind]
  rw [if_neg fun hf => absurd hf.2 (by decide)]
  simp only [e₅, ok_bind, if_neg hne, pure_bind, e₃, e₄]
  rfl

/-- The pass at a tree on the inner side of a red parent with a black uncle. -/
theorem Rep.insertColorAt_inner
    (h : Rep s (Tree.plug z (.join d (.join d.opp (.join d near c far) p sib) g uncle)))
    (hp : p.Red) (huncle : rootBlack uncle = true) :
    ∃ s', rbInsertColorAt augment d s c.addr p.addr g.addr = .ok (s', p.addr) ∧
      InsertMove augment ⟨s, ⟨d.opp, p, sib⟩ :: ⟨d, g, uncle⟩ :: z, .join d near c far⟩
        ⟨s', ⟨d, { c with color := .black }, .join d.opp uncle { g with color := .red } far⟩ :: z,
          .join d sib p near⟩ ∧
      Rep s' (Tree.plug (⟨d, { c with color := .black },
        .join d.opp uncle { g with color := .red } far⟩ :: z) (.join d sib p near)) ∧
      addrs (Tree.plug (⟨d, { c with color := .black },
        .join d.opp uncle { g with color := .red } far⟩ :: z) (.join d sib p near)) =
        addrs (Tree.plug z (.join d (.join d.opp (.join d near c far) p sib) g uncle)) := by
  have e₁ := h.child_far
  have e₂ := h.far_black
  have e₅ := Rep.child_near (z := ⟨d, g, uncle⟩ :: z) h
  rw [top_join] at e₅
  have hinner := h
  rw [Tree.join_opp] at hinner
  obtain ⟨s₀, e₆, h₀⟩ := Rep.rotate augment (z := ⟨d, g, uncle⟩ :: z) hinner
  obtain ⟨s₁, s₂, e₃, e₄, h₁, h₂, hL⟩ := Rep.insertColorOuter augment (z := z) h₀
  refine ⟨s₂, ?_, .inner hp huncle hinner e₆ (rbSetBlackred_aug e₃) h₁ e₄, h₂, ?_⟩
  · rw [huncle] at e₂
    simp only [rbInsertColorAt, e₁, e₂, ok_bind]
    rw [if_neg fun hf => absurd hf.2 (by decide)]
    simp only [e₅, ok_bind, if_true, e₆, pure_bind, e₃, e₄]
    rfl
  · rw [hL, Tree.join_opp]
    refine addrs_plug_congr (addrs_join_congr ?_ rfl rfl)
    rw [addrs, toList_rotate]

/-- The pass with a red uncle: the blackness of the grandparent moves down to both of its
children. -/
theorem Rep.insertColorAt_lift {un uf : Tree (Cell w)} {b : Cell w}
    (h : Rep s (Tree.plug z (.join d (.join e t p sib) g (.join d un b uf))))
    (hp : p.Red) (hb : b.Red) (v : BitVec w) :
    ∃ s', rbInsertColorAt augment d s v p.addr g.addr = .ok (s', g.addr) ∧
      InsertMove augment ⟨s, ⟨e, p, sib⟩ :: ⟨d, g, .join d un b uf⟩ :: z, t⟩
        ⟨s', z, .join d (.join e t { p with color := .black } sib) { g with color := .red }
          (.join d un { b with color := .black } uf)⟩ ∧
      Rep s' (Tree.plug z (.join d (.join e t { p with color := .black } sib)
        { g with color := .red } (.join d un { b with color := .black } uf))) := by
  have e₁ := h.child_far
  have e₂ := h.far_black
  rw [← Tree.join_opp] at h
  obtain ⟨s₁, e₃, h₁⟩ := Rep.setcolor (z := ⟨d.opp, g, _⟩ :: z) h .black
  rw [Tree.plug_cons, Tree.join_opp] at h₁
  obtain ⟨s₂, e₄, h₂⟩ := h₁.setBlackred
  have h0 := Rep.ne_zero (z := ⟨d.opp, g, _⟩ :: z) h
  have hmove : InsertMove augment ⟨s, ⟨e, p, sib⟩ :: ⟨d, g, .join d un b uf⟩ :: z, t⟩
      ⟨s₂, z, .join d (.join e t { p with color := .black } sib) { g with color := .red }
        (blackRoot (.join d un b uf))⟩ :=
    .lift hp (by simp [hb]) ((rbSetBlackred_aug e₄).trans (rbSetcolor_aug e₃))
  rw [blackRoot_join] at hmove
  refine ⟨s₂, ?_, hmove, h₂⟩
  rw [rootBlack_join, hb] at e₂
  rw [top_join] at e₁ e₂
  simp only [rbInsertColorAt, e₁, e₂, e₃, e₄, ok_bind]
  rw [if_pos ⟨h0, by decide⟩]
  rfl

/-- One pass below a red parent that is the child on side `d` of the grandparent. -/
theorem Rep.insertColorAt
    (h : Rep s (Tree.plug z (.join d (.join e (.join d near c far) p sib) g uncle)))
    (hc : c.Red) (hp : p.Red) (hnear : Balanced Cell.Red false n near)
    (hfar : Balanced Cell.Red false n far) (hsib : Balanced Cell.Red false n sib)
    (huncle : Balanced Cell.Red true n uncle) (hctx : BalancedCtx Cell.Red k (n + 1) z) :
    ∃ s' v z' t', rbInsertColorAt augment d s c.addr p.addr g.addr = .ok (s', v) ∧
      z'.length < z.length + 2 ∧
      InsertMove augment ⟨s, ⟨e, p, sib⟩ :: ⟨d, g, uncle⟩ :: z, .join d near c far⟩ ⟨s', z', t'⟩ ∧
      InsertFocus s' v
        (addrs (Tree.plug z (.join d (.join e (.join d near c far) p sib) g uncle))) z' t' := by
  rcases huncle.black_or_red d with hblack | ⟨un, b, uf, rfl, hb, hun, huf⟩
  · have huncleBlack := rootBlack_of_balanced hblack
    by_cases he : e = d
    · subst he
      obtain ⟨s', e₁, hmove, h', hL⟩ := h.insertColorAt_outer augment hp huncleBlack
      refine ⟨s', _, _, _, e₁, by simp, hmove, .of_join (k := true) hc hnear hfar ?_ h' rfl hL⟩
      exact .black not_red_black (balanced_red_cell.mpr ⟨rfl, hblack, hsib⟩) hctx
    · obtain rfl : e = d.opp := by cases e <;> cases d <;> simp_all [Side.opp]
      obtain ⟨s', e₁, hmove, h', hL⟩ := h.insertColorAt_inner augment hp huncleBlack
      refine ⟨s', _, _, _, e₁, by simp, hmove, .of_join (k := true) hp hsib hnear ?_ h' rfl hL⟩
      exact .black not_red_black (balanced_red_cell.mpr ⟨rfl, hblack, hfar⟩) hctx
  · obtain ⟨s', e₁, hmove, h'⟩ := h.insertColorAt_lift augment hp hb c.addr
    refine ⟨s', _, z, _, e₁, by omega, hmove, .of_join rfl ?_ ?_ hctx h' rfl ?_⟩
    · refine balanced_black_cell.mpr ⟨n, rfl, ?_, hsib.relax⟩
      exact (balanced_join_red hc).mpr ⟨rfl, hnear, hfar⟩
    · exact balanced_black_cell.mpr ⟨n, rfl, hun.relax, huf.relax⟩
    · exact addrs_plug_congr (addrs_join_congr (addrs_join_congr rfl rfl rfl) rfl
        (addrs_join_congr rfl rfl rfl))

/-- One pass of the loop moves the focus up, or leaves a tree that is balanced up to the
colour of its root. -/
theorem InsertFocus.body {v : BitVec w} {L : List (BitVec w)} (h : InsertFocus s v L z t) :
    (∃ s' v' z' t', z'.length < z.length ∧
      rbInsertColorBody augment (s, v) = .ok (.inl (s', v')) ∧
      InsertMove augment ⟨s, z, t⟩ ⟨s', z', t'⟩ ∧ InsertFocus s' v' L z' t') ∨
    (rbInsertColorBody augment (s, v) = .ok (.inr s) ∧ t ≠ .nil ∧
      (∀ f ∈ z.head?, ¬f.label.Red) ∧ ∃ n, Balanced Cell.Red true n (Tree.plug z t) ∧
      Rep s (Tree.plug z t) ∧ addrs (Tree.plug z t) = L) := by
  obtain ⟨k, n, l, c, r, rfl, rfl, hc, hl, hr, hctx, hrep, rfl⟩ := h
  have e₁ := Rep.getparent (d := .left) hrep
  cases hctx with
  | nil =>
    have e₂ : rbBlackOrNull s (above []) = .ok true := rfl
    refine .inr ⟨?_, Tree.node_ne_nil _ _ _, by simp, n, .red hc hl hr, hrep, rfl⟩
    simp only [rbInsertColorBody, e₁, e₂, ok_bind]
    rfl
  | @black k n f z hf hsib hctx =>
    have e₂ := Rep.blackOrNull (z := z) hrep
    have hblack : f.label.color = .black := by
      cases hcolor : f.label.color
      · rfl
      · exact absurd hcolor hf
    rw [top_join, rootBlack_join, hblack] at e₂
    obtain ⟨m, hm⟩ := hctx.plug ((balanced_join_black hf).mpr ⟨n, rfl, .red hc hl hr, hsib⟩)
    refine .inr ⟨?_, Tree.node_ne_nil _ _ _, by simpa using hf, m, hm.relax, hrep, rfl⟩
    simp only [rbInsertColorBody, e₁, above, parentOf, e₂, ok_bind]
    exact if_neg fun hf => absurd hf.2 (by decide)
  | @red n f z hf hsib hctx =>
    have e₂ := Rep.blackOrNull (z := z) hrep
    rw [top_join, rootBlack_join, hf] at e₂
    have h0 := Rep.ne_zero (z := z) hrep
    have e₃ := Rep.getparent (z := z) hrep
    obtain - | - | @⟨k, n, g, z, -, huncle, hctx⟩ := hctx
    obtain ⟨v, e₄, hside⟩ := Rep.side_test (f := g) (z := z) hrep
      (.inl (Tree.join_ne_nil _ _ _ _)) .left
    rw [top_join] at hside
    obtain ⟨d, g, uncle⟩ := g
    cases d with
    | left =>
      obtain rfl := hside.mpr rfl
      obtain ⟨s', v', z', t', e₅, hlen, hmove, hfocus⟩ :=
        Rep.insertColorAt augment (d := .left) (z := z) hrep hc hf hl hr hsib huncle hctx
      refine .inl ⟨s', v', z', t', hlen, ?_, hmove, hfocus⟩
      simp only [rbInsertColorBody, e₁, above, parentOf, e₂, ok_bind]
      rw [if_pos ⟨h0, by decide⟩]
      simp only [e₃, above, parentOf, e₄, e₅, ok_bind, if_true]
      rfl
    | right =>
      have hne : f.label.addr ≠ v := fun he => absurd (hside.mp he.symm) (by simp)
      obtain ⟨s', v', z', t', e₅, hlen, hmove, hfocus⟩ :=
        Rep.insertColorAt augment (d := .right) (z := z) hrep hc hf hr hl hsib huncle hctx
      refine .inl ⟨s', v', z', t', hlen, ?_, hmove, hfocus⟩
      simp only [rbInsertColorBody, e₁, above, parentOf, e₂, ok_bind]
      rw [if_pos ⟨h0, by decide⟩]
      simp only [e₃, above, parentOf, e₄, e₅, ok_bind, if_neg hne]
      rfl

/-- `RB_INSERT_COLOR` moves up until the parent is not red, and leaves a balanced tree with
the same addresses. -/
theorem InsertFocus.insertColor {v : BitVec w} {L : List (BitVec w)}
    (h : InsertFocus s v L z t) :
    ∃ s₁ z₁ t₁ s' n, Relation.ReflTransGen (InsertMove augment) ⟨s, z, t⟩ ⟨s₁, z₁, t₁⟩ ∧
      (∀ f ∈ z₁.head?, ¬f.label.Red) ∧ rbInsertColor augment s v = .ok s' ∧
      s'.aug = s₁.aug ∧ Balanced Cell.Red false n (blackRoot (Tree.plug z₁ t₁)) ∧
      Rep s' (blackRoot (Tree.plug z₁ t₁)) ∧ addrs (blackRoot (Tree.plug z₁ t₁)) = L := by
  have hfuel : z.length < walkFuel w := by
    obtain ⟨_, _, _, _, _, _, _, _, _, _, _, hrep, _⟩ := h
    have := hrep.length_lt
    omega
  obtain ⟨s₁, e₁, z₁, t₁, hmoves, hne, hstop, n, hbal, hrep, hL⟩ := loop_spec
    (fun bound (p : RbHead A w × BitVec w) => ∃ z₁ t₁, z₁.length = bound ∧
      Relation.ReflTransGen (InsertMove augment) ⟨s, z, t⟩ ⟨p.1, z₁, t₁⟩ ∧
      InsertFocus p.1 p.2 L z₁ t₁)
    (fun s₁ : RbHead A w => ∃ z₁ t₁,
      Relation.ReflTransGen (InsertMove augment) ⟨s, z, t⟩ ⟨s₁, z₁, t₁⟩ ∧ t₁ ≠ .nil ∧
      (∀ f ∈ z₁.head?, ¬f.label.Red) ∧ ∃ n, Balanced Cell.Red true n (Tree.plug z₁ t₁) ∧
      Rep s₁ (Tree.plug z₁ t₁) ∧ addrs (Tree.plug z₁ t₁) = L)
    (fun bound p ⟨z₁, t₁, hlen, hmoves, hp⟩ => (hp.body augment).imp
      (fun ⟨s', v', z', t', hlt, hb, hmove, hfocus⟩ =>
        ⟨(s', v'), z'.length, hlen ▸ hlt, hb, z', t', rfl, hmoves.tail hmove, hfocus⟩)
      fun ⟨hb, hpost⟩ => ⟨_, hb, z₁, t₁, hmoves, hpost⟩)
    (s := (s, v)) ⟨z, t, rfl, .refl, h⟩ hfuel
  obtain ⟨l, c, r, ht⟩ : ∃ l c r, Tree.plug z₁ t₁ = .node l c r := by
    cases ht : Tree.plug z₁ t₁ with
    | nil => exact absurd ht (Tree.plug_ne_nil hne)
    | node l c r => exact ⟨l, c, r, rfl⟩
  obtain ⟨m, hm⟩ := balanced_blackRoot hbal
  obtain ⟨s₂, e₂, h₂⟩ := Rep.setcolor (z := []) (d := .left) (ht ▸ hrep) .black
  refine ⟨s₁, z₁, t₁, s₂, m, hmoves, hstop, ?_, rbSetcolor_aug e₂, hm, ?_,
    (addrs_blackRoot _).trans hL⟩
  · rw [rbInsertColor, e₁, ok_bind, hrep.root, ht]
    exact e₂
  · rw [ht]
    exact h₂

end Step

end MacKernel.RedBlack
