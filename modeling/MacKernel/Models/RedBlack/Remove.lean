import MacKernel.Models.RedBlack.RemoveColor

/-!
# Removal

`RB_REMOVE` unlinks a node with an empty child. A node with two children is replaced by
its successor, which is unlinked first and then takes over its place and its colour;
the repair starts where the successor was, also when that was the right child of the
removed node.
-/

namespace MacKernel.RedBlack

variable {A : Type} {w : Nat} {s : RbHead A w} {t u l r : Tree (Cell w)}
  {z inner : List (Frame (Cell w))} {c m : Cell w} {d : Side} {n : Nat}

section Farthest

/-- Following the links on one side leads to the last node on that side. -/
theorem Rep.farthest (h : Rep s (Tree.plug z t)) (ht : t ≠ .nil) (d : Side) :
    ∃ inner m u, t = Tree.plug inner (.join d .nil m u) ∧ (∀ f ∈ inner, f.side = d) ∧
      rbFarthest d s (top t) = .ok m.addr := by
  have hfuel : t.toList.length < walkFuel w := by
    have := h.length_lt
    omega
  suffices hloop : ∃ v, rbFarthest d s (top t) = .ok v ∧ ∃ inner m u,
      t = Tree.plug inner (.join d .nil m u) ∧ (∀ f ∈ inner, f.side = d) ∧ v = m.addr by
    obtain ⟨v, e, inner, m, u, hplug, hside, rfl⟩ := hloop
    exact ⟨inner, m, u, hplug, hside, e⟩
  refine loop_spec (fun bound v => ∃ inner u, t = Tree.plug inner u ∧ (∀ f ∈ inner, f.side = d) ∧
    u ≠ .nil ∧ v = top u ∧ u.toList.length = bound) _ ?_ ⟨[], t, rfl, by simp, ht, rfl, rfl⟩ hfuel
  rintro bound v ⟨inner, u, rfl, hside, hu, rfl, rfl⟩
  obtain ⟨near, m, far, rfl⟩ : ∃ near m far, u = .join d near m far := by
    obtain - | ⟨l, m, r⟩ := u
    · exact absurd rfl hu
    · cases d
      · exact ⟨l, m, r, rfl⟩
      · exact ⟨r, m, l, rfl⟩
  rw [← Tree.plug_append] at h
  have e₁ := h.child_near
  simp only [rbFarthestBody, top_join, e₁, ok_bind]
  obtain - | ⟨l, b, r⟩ := near
  · exact .inr ⟨m.addr, rfl, inner, m, far, rfl, hside, rfl⟩
  · have h0 : b.addr ≠ 0 := (h.valid_tree (c := b) (by cases d <;> simp [Tree.join])).ne_zero
    refine .inl ⟨b.addr, _, ?_, if_pos h0, ⟨d, m, far⟩ :: inner, .node l b r, rfl, ?_,
      Tree.node_ne_nil _ _ _, rfl, rfl⟩
    · rw [(Tree.toList_join_perm _ _ _ _).length_eq]
      simp
    · simpa using hside

end Farthest

section Remove

variable (augment : Augment A w)

/-- The way of the fields through the end of `RB_REMOVE`, at the place of a removed node of
this colour: nothing is left to do, or the moves of the repair lead to the tree `t'`. -/
def RestoreTrace (s : RbHead A w) (z : List (Frame (Cell w))) (u : Tree (Cell w)) (color : Color)
    (s' : RbHead A w) (t' : Tree (Cell w)) : Prop :=
  (color = .red ∧ s' = s ∧ t' = Tree.plug z u) ∨
  (color = .black ∧ ∃ s₁ z₁ u₁,
    Relation.ReflTransGen (RemoveMove augment) ⟨s, z, u⟩ ⟨s₁, z₁, u₁⟩ ∧
    (z₁ = [] ∨ rootBlack u₁ = false) ∧ s'.aug = s₁.aug ∧ t' = Tree.plug z₁ (blackRoot u₁))

/-- The way of the fields through the removal of the node `c` with these children. -/
inductive RemoveTrace (s : RbHead A w) (z : List (Frame (Cell w))) (c : Cell w) :
    Tree (Cell w) → RbHead A w → Tree (Cell w) → Prop where
  /-- The node has an empty child: its other child takes its place and the node above is
  refreshed. -/
  | single {s₀ s' : RbHead A w} {u t' : Tree (Cell w)} {d : Side} (haug : s₀.aug = s.aug)
      (h : Rep s₀ (Tree.plug z u))
      (hrest : RestoreTrace augment (rbAugmentAbove augment s₀ (above z)) z u c.color s' t') :
      RemoveTrace s z c (.join d .nil c u) s' t'
  /-- The successor takes the place of the node; then all nodes from the place of the successor
  up to the root are refreshed. -/
  | double {s₂ s₃ s' : RbHead A w} {l u t' : Tree (Cell w)} {inner : List (Frame (Cell w))}
      {m : Cell w} (hl : l ≠ .nil) (hside : ∀ f ∈ inner, f.side = .left)
      (haug : ∀ v, v ≠ 0 → (∀ f ∈ inner ++ ⟨.right, c, l⟩ :: z, v ≠ f.label.addr) →
        s₂.aug v = s.aug v)
      (h : Rep s₂ (Tree.plug (inner ++ ⟨.right, ⟨m.addr, c.color⟩, l⟩ :: z) u))
      (e : loop (rbAugmentUpBody augment) (walkFuel w)
        (s₂, above (inner ++ ⟨.right, ⟨m.addr, c.color⟩, l⟩ :: z)) = .ok s₃)
      (hrest : RestoreTrace augment s₃ (inner ++ ⟨.right, ⟨m.addr, c.color⟩, l⟩ :: z) u m.color
        s' t') :
      RemoveTrace s z c (.node l c (Tree.plug inner (.join .left .nil m u))) s' t'

/-- The removed node with its colour `m.color` was balanced where its child `u` is now: the
end of `RB_REMOVE` restores the balance. -/
theorem Rep.restore (h : Rep s (Tree.plug z u))
    (hbal : Balanced Cell.Red false n (Tree.plug z (.join d .nil m u))) :
    ∃ s' n t, rbRestore augment s (above z) (top u) m.color = .ok s' ∧
      Balanced Cell.Red false n t ∧ Rep s' t ∧ addrs t = addrs (Tree.plug z u) ∧
      RestoreTrace augment s z u m.color s' t := by
  obtain ⟨k, n, hctx, ht⟩ := hbal.unplug
  by_cases hm : m.Red
  · obtain ⟨rfl, -, hu⟩ := (balanced_join_red hm).mp ht
    obtain ⟨n', hn'⟩ := hctx.plug hu.relax
    refine ⟨s, n', _, if_neg ?_, hn', h, rfl, .inl ⟨hm, rfl, rfl⟩⟩
    rw [hm]
    nofun
  · obtain ⟨n, rfl, -, hu⟩ := (balanced_join_black hm).mp ht
    have hfocus : RemoveFocus s (above z) (top u) (addrs (Tree.plug z u)) z u :=
      ⟨k, n, rfl, rfl, hu.deficient, hctx, h, rfl⟩
    obtain ⟨s₁, z₁, u₁, s', n', hmoves, hstop, e, haug, hbal', h', hL⟩ :=
      hfocus.removeColor augment
    have hcolor : m.color = .black := by
      cases hcolor : m.color
      · rfl
      · exact absurd hcolor hm
    refine ⟨s', n', _, ?_, hbal', h', hL, .inr ⟨hcolor, s₁, z₁, u₁, hmoves, hstop, haug, rfl⟩⟩
    rwa [rbRestore, if_pos hcolor]

/-- A node may be exchanged for one of the same colour. -/
theorem balanced_relabel {b : Cell w} (hb : b.color = c.color)
    (h : Balanced Cell.Red false n (Tree.plug z (.node l c r))) :
    ∃ n', Balanced Cell.Red false n' (Tree.plug z (.node l b r)) := by
  obtain ⟨k, n, hctx, ht⟩ := h.unplug
  refine hctx.plug ?_
  cases ht with
  | red ha hl hr => exact .red (hb.trans ha) hl hr
  | black ha hl hr => exact .black (fun h => ha (hb.symm.trans h)) hl hr

/-- `RB_REMOVE` of a node with an empty child. -/
theorem Rep.remove_single (h : Rep s (Tree.plug z (.join d .nil c u)))
    (hbal : Balanced Cell.Red false n (Tree.plug z (.join d .nil c u))) :
    ∃ s' n t, rbRemove augment s c.addr = .ok (s', c.addr) ∧ Balanced Cell.Red false n t ∧
      Rep s' t ∧ addrs t = addrs (Tree.plug z u) ∧
      RemoveTrace augment s z c (.join d .nil c u) s' t := by
  have e₁ := h.getparent
  have e₂ := h.getcolor
  obtain ⟨s₁, haug, e₃, h₁, -⟩ := h.unlink augment
  obtain ⟨s₂, n', t, e₄, hbal', h₂, hL, hrest⟩ :=
    (h₁.augmentAbove augment (above z)).restore augment hbal
  refine ⟨s₂, n', t, ?_, hbal', h₂, hL, .single haug h₁ hrest⟩
  obtain ⟨vl, vr, e₅, e₆, hnull, hchild⟩ : ∃ vl vr, rbChild s .left c.addr = .ok vl ∧
      rbChild s .right c.addr = .ok vr ∧ (vl = 0 ∨ vr = 0) ∧
      (if vl = 0 then vr else vl) = top u := by
    cases d with
    | left => exact ⟨_, _, h.child_near, h.child_far, .inl rfl, if_pos rfl⟩
    | right =>
      refine ⟨_, _, h.child_far, h.child_near, .inr rfl, ?_⟩
      split_ifs with h0
      · exact h0.symm
      · rfl
  simp only [rbRemove, e₅, e₆, ok_bind, if_pos hnull, e₁, e₂, hchild, e₃, pure_bind, e₄]
  rfl

/-- The addresses of a tree whose leftmost node is taken out. -/
theorem addrs_leftmost (h : ∀ f ∈ inner, f.side = .left) :
    addrs (Tree.plug inner (.node .nil m u)) = m.addr :: addrs (Tree.plug inner u) := by
  rw [addrs_plug, addrs_plug, Tree.before_eq_nil h]
  simp [addrs]

/-- The parent of the place where the successor was, once it has taken over the place of the
removed node. -/
theorem Rep.successor_parent {b : Cell w}
    (h : Rep s (Tree.plug (inner ++ ⟨.right, c, l⟩ :: z) u)) :
    (if above (inner ++ ⟨.right, c, l⟩ :: z) = c.addr then b.addr
      else above (inner ++ ⟨.right, c, l⟩ :: z)) = above (inner ++ ⟨.right, b, l⟩ :: z) := by
  obtain - | ⟨f, inner⟩ := inner
  · exact if_pos rfl
  · refine if_neg ?_
    have hn := (List.nodup_append.mp h.addrs_nodup).2.1
    rw [List.cons_append, Tree.labels, List.cons_append, List.map_cons, List.nodup_cons] at hn
    intro he
    refine hn.1 ?_
    rw [show f.label.addr = c.addr from he]
    refine List.mem_map_of_mem (List.mem_append_right _ ?_)
    rw [Tree.labels_append]
    simp [Tree.labels]

/-- An address is not that of the node around a hole unless it is that of a node of the
context. -/
theorem ne_above {v : BitVec w} (h0 : v ≠ 0) (hv : ∀ f ∈ z, v ≠ f.label.addr) : v ≠ above z := by
  cases z with
  | nil => exact h0
  | cons f z => exact hv f List.mem_cons_self

/-- `RB_REMOVE` of a node with two children. -/
theorem Rep.remove_double (h : Rep s (Tree.plug z (.node l c r))) (hl : l ≠ .nil)
    (hr : r ≠ .nil) (hbal : Balanced Cell.Red false n (Tree.plug z (.node l c r))) :
    ∃ s' n t, rbRemove augment s c.addr = .ok (s', c.addr) ∧ Balanced Cell.Red false n t ∧
      Rep s' t ∧ addrs t = (Tree.before z).map Cell.addr ++ (addrs l ++ addrs r) ++
        (Tree.after z).map Cell.addr ∧ RemoveTrace augment s z c (.node l c r) s' t := by
  have e₁ := Rep.child_near (d := .left) h
  have e₂ := Rep.child_far (d := .left) h
  have hr' : Rep s (Tree.plug (⟨.right, c, l⟩ :: z) r) := h
  obtain ⟨inner, m, u, rfl, hside, e₃⟩ := hr'.farthest hr .left
  have hm : Rep s (Tree.plug (inner ++ ⟨.right, c, l⟩ :: z) (.join .left .nil m u)) := by
    rw [Tree.plug_append]
    exact hr'
  have e₄ := hm.child_far
  have e₅ := hm.getparent
  have e₆ := hm.getcolor
  obtain ⟨s₀, haug₀, e₇, h₀, hfield⟩ := hm.unlink augment
  have h₁ := h₀.augmentAbove augment (above (inner ++ ⟨.right, c, l⟩ :: z))
  have hframe : ∀ v, v ≠ above (inner ++ ⟨.right, c, l⟩ :: z) →
      (rbAugmentAbove augment s₀ (above (inner ++ ⟨.right, c, l⟩ :: z))).aug v = s.aug v :=
    fun v hv => (rbAugmentAbove_aug_of_ne augment s₀ hv).trans (congrFun haug₀ v)
  rw [← rbAugmentAbove_field augment s₀ (above (inner ++ ⟨.right, c, l⟩ :: z))] at hfield
  generalize rbAugmentAbove augment s₀ (above (inner ++ ⟨.right, c, l⟩ :: z)) = s₁
    at e₇ h₁ hfield hframe
  have e₈ : rbGetparent s₁ m.addr = .ok (above (inner ++ ⟨.right, c, l⟩ :: z)) := by
    simp only [rbGetparent, RbHead.load, hfield] at e₅ ⊢
    exact e₅
  have hnew : m.addr ∉ addrs (Tree.plug (inner ++ ⟨.right, c, l⟩ :: z) u) := by
    have hn := hm.addrs_nodup
    intro hmem
    exact (List.nodup_cons.mp hn).1 ((addrs_plug_perm _ u).mem_iff.mp hmem)
  have hparent := h₁.successor_parent (b := ⟨m.addr, c.color⟩)
  rw [Tree.plug_append] at h₁ hnew
  obtain ⟨s₂, e₉, h₂, hframe₂⟩ :=
    Rep.takePlace augment (z := z) h₁ hl (hm.valid_tree mem_join) hnew
  have h₂' : Rep s₂ (Tree.plug (inner ++ ⟨.right, ⟨m.addr, c.color⟩, l⟩ :: z) u) := by
    rw [Tree.plug_append]
    exact h₂
  obtain ⟨s₃, e₁₀, hroot, hfield₃⟩ := h₂'.augmentUp augment (by simp)
  have hne : above (inner ++ ⟨.right, ⟨m.addr, c.color⟩, l⟩ :: z) ≠ 0 := by
    have hvalid := fun b => h₂'.valid_label (c := b)
    obtain - | ⟨f, inner⟩ := inner
    · exact (hvalid ⟨m.addr, c.color⟩ (by simp [Tree.labels])).ne_zero
    · exact (hvalid f.label (by simp [Tree.labels])).ne_zero
  obtain ⟨n', hbal'⟩ := balanced_relabel (c := c) (b := ⟨m.addr, c.color⟩) rfl hbal
  obtain ⟨s₄, n'', t, e₁₁, hbal'', h₄, hL, hrest⟩ := (h₂'.congr hroot hfield₃).restore
    (d := .left) (m := m) augment (by rw [Tree.plug_append]; exact hbal')
  have haug : ∀ v, v ≠ 0 → (∀ f ∈ inner ++ ⟨.right, c, l⟩ :: z, v ≠ f.label.addr) →
      s₂.aug v = s.aug v := fun v h0 hv =>
    (hframe₂ v (ne_above h0 fun f hf => hv f (by simp [hf]))).trans (hframe v (ne_above h0 hv))
  refine ⟨s₄, n'', t, ?_, hbal'', h₄, ?_, .double hl hside haug h₂' e₁₀ hrest⟩
  · have hnull : ¬(top l = 0 ∨ top (Tree.plug inner (.join .left .nil m u)) = 0) := by
      refine not_or.mpr ⟨?_, hr'.top_ne_zero hr⟩
      exact Rep.top_ne_zero (z := ⟨.left, c, _⟩ :: z) h hl
    have e₂' : rbChild s .right c.addr = .ok (top (Tree.plug inner (.join .left .nil m u))) := e₂
    have e₄' : rbChild s .right m.addr = .ok (top u) := e₄
    simp only [rbRemove, e₁, e₂', e₃, e₄', e₅, e₆, e₇, e₈, e₉, hparent, ok_bind, if_neg hnull,
      if_pos hne, e₁₀, pure_bind, e₁₁]
    rfl
  · rw [hL, Tree.plug_append, Tree.plug_cons, addrs_plug]
    have hleft := addrs_leftmost (m := m) (u := u) hside
    simp only [Tree.join] at hleft ⊢
    rw [hleft]
    simp [addrs]

/-- `RB_REMOVE` takes the node out of a balanced tree and leaves a balanced one. -/
theorem Rep.remove (h : Rep s t) (hbal : Balanced Cell.Red false n t) (hc : c ∈ t.toList) :
    ∃ s' n' t', rbRemove augment s c.addr = .ok (s', c.addr) ∧ Balanced Cell.Red false n' t' ∧
      Rep s' t' ∧ addrs t' = (addrs t).erase c.addr ∧
      ∃ z l r, t = Tree.plug z (.node l c r) ∧
        RemoveTrace augment s z c (.node l c r) s' t' := by
  obtain ⟨z, l, r, rfl⟩ := Tree.exists_plug hc
  have herase : (addrs (Tree.plug z (.node l c r))).erase c.addr =
      (Tree.before z).map Cell.addr ++ (addrs l ++ addrs r) ++
        (Tree.after z).map Cell.addr := by
    have hn : (addrs (Tree.plug z (.node l c r))).Nodup := h.nodup
    have hL := addrs_plug z (.node l c r)
    rw [addrs_node, ← List.append_assoc, List.append_assoc, List.cons_append] at hL
    rw [hL, List.erase_append_right, List.erase_cons_head, List.append_assoc, List.append_assoc,
      List.append_assoc]
    intro hmem
    rw [hL, List.nodup_append] at hn
    exact hn.2.2 _ hmem _ List.mem_cons_self rfl
  rw [herase]
  suffices hremove : ∃ s' n t', rbRemove augment s c.addr = .ok (s', c.addr) ∧
      Balanced Cell.Red false n t' ∧ Rep s' t' ∧
      addrs t' = (Tree.before z).map Cell.addr ++ (addrs l ++ addrs r) ++
        (Tree.after z).map Cell.addr ∧ RemoveTrace augment s z c (.node l c r) s' t' by
    obtain ⟨s', n', t', e, hbal', h', hL, htrace⟩ := hremove
    exact ⟨s', n', t', e, hbal', h', hL, z, l, r, rfl, htrace⟩
  obtain - | ⟨l₁, b, l₂⟩ := l
  · have hsingle := Rep.remove_single (d := .left) augment h hbal
    rwa [addrs_plug] at hsingle
  obtain - | ⟨r₁, b', r₂⟩ := r
  · have hsingle := Rep.remove_single (d := .right) augment h hbal
    rwa [addrs_nil, List.append_nil, ← addrs_plug]
  · exact h.remove_double augment (Tree.node_ne_nil _ _ _) (Tree.node_ne_nil _ _ _) hbal

end Remove

end MacKernel.RedBlack
