import MacKernel.Models.RedBlack.InsertColor
import MacKernel.Models.RedBlack.Search

/-!
# Insertion

`RB_INSERT` leaves the head alone when an equal element is present. Otherwise the new
element becomes a red leaf where it belongs in the order, whatever its entry held
before, and the repair restores the balance.
-/

namespace MacKernel.RedBlack

variable {A : Type} {w : Nat} {s : RbHead A w} {t : Tree (Cell w)}
  {z : List (Frame (Cell w))} {elm : BitVec w} {cmp : BitVec w → BitVec w → Int} {n : Nat}
  (augment : Augment A w)

section Order

/-- No element of the tree is equal to one that belongs at a hole. -/
theorem Fits.ne_zero (hfit : Fits cmp elm z) {b : BitVec w}
    (hb : b ∈ addrs (Tree.plug z .nil)) : cmp elm b ≠ 0 := by
  rw [addrs_plug, addrs_nil, List.append_nil, List.mem_append, List.mem_map, List.mem_map] at hb
  rcases hb with ⟨c, hc, rfl⟩ | ⟨c, hc, rfl⟩
  · exact (hfit.before c hc).ne'
  · exact (hfit.after c hc).ne

/-- A new element in the hole where it belongs keeps the order. -/
theorem Fits.ascending (hcmp : Comparison cmp) (hfit : Fits cmp elm z)
    (hs : Ascending cmp (addrs (Tree.plug z .nil))) (color : Color) :
    Ascending cmp (addrs (Tree.plug z (.node .nil ⟨elm, color⟩ .nil))) := by
  rw [addrs_plug, addrs_nil, List.append_nil] at hs
  rw [addrs_plug, addrs_node, addrs_nil, List.nil_append, List.append_assoc]
  refine ascending_middle.mpr ⟨hs, fun b hb => ?_, fun b hb => ?_⟩
  · obtain ⟨c, hc, rfl⟩ := List.mem_map.mp hb
    exact (hcmp.swap _ _).mpr (hfit.before c hc)
  · obtain ⟨c, hc, rfl⟩ := List.mem_map.mp hb
    exact hfit.after c hc

end Order

/-- The way of the fields through an insertion at the hole of `z`: a leaf is linked, the node
above it is refreshed, and the moves of the repair lead to the tree `t'`. -/
def InsertTrace (s : RbHead A w) (z : List (Frame (Cell w))) (elm : BitVec w) (s' : RbHead A w)
    (t' : Tree (Cell w)) : Prop :=
  ∃ s₀ s₁ z₁ t₁, s₀.aug = s.aug ∧ Rep s₀ (Tree.plug z (.node .nil ⟨elm, .red⟩ .nil)) ∧
    Relation.ReflTransGen (InsertMove augment)
      ⟨rbAugmentAbove augment s₀ (above z), z, .node .nil ⟨elm, .red⟩ .nil⟩ ⟨s₁, z₁, t₁⟩ ∧
    (∀ f ∈ z₁.head?, ¬f.label.Red) ∧ s'.aug = s₁.aug ∧ t' = blackRoot (Tree.plug z₁ t₁)

/-- The linking of the new leaf and the repair, where the search of `RB_INSERT` ended. -/
theorem Rep.insertAt {parent : BitVec w} {comp : Int} (h : Rep s (Tree.plug z .nil))
    (hbal : Balanced Cell.Red false n (Tree.plug z .nil)) (hv : Valid elm)
    (hnew : elm ∉ addrs (Tree.plug z .nil)) (hpath : InsertPath cmp elm parent comp z)
    (hsearch : loop (rbInsertBody cmp s elm) (walkFuel w) (0, 0, s.root) =
      .ok (.inr (parent, comp))) :
    ∃ s' n' t', rbInsert augment cmp s elm = .ok (s', 0) ∧ Rep s' t' ∧
      Balanced Cell.Red false n' t' ∧
      addrs t' = addrs (Tree.plug z (.node .nil ⟨elm, .red⟩ .nil)) ∧
      InsertTrace augment s z elm s' t' := by
  obtain ⟨-, rfl, hside⟩ := hpath
  obtain ⟨k, m, hctx, hm⟩ := hbal.unplug
  obtain rfl := balanced_nil.mp hm
  have hleaf := h.leaf hv hnew
  have e₁ : rbSet s elm (above z) = .ok (s.put elm ⟨0, 0, packWord (above z) .red⟩) :=
    rbSet_ok hv.ne_zero h.above_even
  have e₂ : rbInsert augment cmp s elm = (do
      let s ← rbInsertColor augment (rbAugmentAbove augment
        ((s.put elm ⟨0, 0, packWord (above z) .red⟩).setHole z elm) (above z)) elm
      return (s, 0)) := by
    obtain - | ⟨f, z⟩ := z
    · have e₀ : rbAugmentAbove augment ((s.put elm ⟨0, 0, packWord (above []) .red⟩).setHole []
          elm) (above []) = _ := if_neg (not_not.mpr rfl)
      simp only [rbInsert, hsearch, ok_bind, e₁, e₀]
      rfl
    · have h0 : f.label.addr ≠ 0 := (h.valid_label (by simp [Tree.labels])).ne_zero
      have e₀ : rbAugmentAbove augment ((s.put elm ⟨0, 0, packWord f.label.addr .red⟩).setHole
          (f :: z) elm) f.label.addr = _ := if_pos h0
      have e₁' : rbSet s elm f.label.addr =
          .ok (s.put elm ⟨0, 0, packWord f.label.addr .red⟩) := e₁
      simp only [rbInsert, hsearch, ok_bind, above, parentOf, e₀, e₁', if_pos h0,
        hside f (by simp), rbSetChild_ok h0, pure_bind]
      rfl
  have hfocus : InsertFocus _ elm (addrs (Tree.plug z (.node .nil ⟨elm, .red⟩ .nil))) z _ :=
    ⟨k, 0, .nil, ⟨elm, .red⟩, .nil, rfl, rfl, rfl, .nil, .nil, hctx,
      hleaf.augmentAbove augment (above z), rfl⟩
  obtain ⟨s₁, z₁, t₁, s', n', hmoves, hstop, e₃, haug, hbal', hrep, hL⟩ :=
    hfocus.insertColor augment
  refine ⟨s', n', _, ?_, hrep, hbal', hL, _, s₁, z₁, t₁, ?_, hleaf, hmoves, hstop, haug, rfl⟩
  · rw [e₂, e₃]
    rfl
  · rw [RbHead.setHole_aug, RbHead.put_aug]

/-- `RB_INSERT` returns an equal element and changes nothing, or adds the new element to a
balanced tree in order. -/
theorem Rep.insert (hcmp : Comparison cmp) (h : Rep s t) (hbal : Balanced Cell.Red false n t)
    (hs : Ascending cmp (addrs t)) (hv : Valid elm) :
    (∃ v ∈ addrs t, cmp elm v = 0 ∧ rbInsert augment cmp s elm = .ok (s, v)) ∨
    ((∀ b ∈ addrs t, cmp elm b ≠ 0) ∧ ∃ s' n' t', rbInsert augment cmp s elm = .ok (s', 0) ∧
      Rep s' t' ∧ Balanced Cell.Red false n' t' ∧ Ascending cmp (addrs t') ∧
      (addrs t').Perm (elm :: addrs t) ∧
      ∃ z, t = Tree.plug z .nil ∧ Fits cmp elm z ∧ InsertTrace augment s z elm s' t') := by
  obtain ⟨res, e, hres⟩ := h.insertSearch hcmp hs elm
  obtain v | ⟨parent, comp⟩ := res
  · obtain ⟨c, hc, rfl, hzero⟩ := hres
    refine .inl ⟨c.addr, List.mem_map_of_mem hc, hzero, ?_⟩
    simp only [rbInsert, e, ok_bind]
    rfl
  · obtain ⟨z, rfl, hpath⟩ := hres
    have hfit := hpath.1
    have hnew : elm ∉ addrs (Tree.plug z .nil) := fun hmem =>
      hfit.ne_zero hmem (hcmp.self elm)
    obtain ⟨s', n', t', e', hrep, hbal', hL, htrace⟩ := h.insertAt augment hbal hv hnew hpath e
    refine .inr ⟨fun b hb => hfit.ne_zero hb, s', n', t', e', hrep, hbal', ?_, ?_, z, rfl, hfit,
      htrace⟩
    · rw [hL]
      exact hfit.ascending hcmp hs .red
    · rw [hL]
      exact (addrs_plug_perm z _).trans ((addrs_plug_perm z .nil).symm.cons elm)

end MacKernel.RedBlack
