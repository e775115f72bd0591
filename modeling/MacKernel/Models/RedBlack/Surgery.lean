import MacKernel.Models.RedBlack.Layout

/-!
# Relinking a red-black tree

What the pointer surgery of the source does to the tree in memory: a rotation, the
removal of a node with at most one child, a successor that takes over the place of a
removed node, and a new leaf. Each changes the entries around one hole of a context;
the rest of the memory is framed away.
-/

namespace MacKernel.RedBlack

variable {A : Type} {w : Nat} {s s₀ s' : RbHead A w} {f f' : BitVec w → RbEntry w}
  {t near far : Tree (Cell w)} {z : List (Frame (Cell w))} {c x y : Cell w} {d : Side}
  {p p' a : BitVec w}

section Reparent

/-- Give the root of a tree a new parent and keep its colour. -/
def RbHead.reparent (s : RbHead A w) (t : Tree (Cell w)) (p : BitVec w) : RbHead A w :=
  match t with
  | .nil => s
  | .node _ c _ => s.put c.addr { s.field c.addr with parent := packWord p c.color }

@[simp] theorem RbHead.reparent_root : (s.reparent t p).root = s.root := by
  cases t <;> rfl

@[simp] theorem RbHead.reparent_aug : (s.reparent t p).aug = s.aug := by
  cases t <;> rfl

/-- Giving a tree a parent leaves what is not in it. -/
theorem RbHead.reparent_field_of_notMem (h : ∀ c ∈ t.toList, a ≠ c.addr) :
    (s.reparent t p).field a = s.field a := by
  cases t with
  | nil => rfl
  | node l c r => exact Function.update_of_ne (h c (by simp)) _ _

/-- The entry that changes depends on memory only at the tree. -/
theorem RbHead.reparent_field_congr (h : ∀ c ∈ t.toList, s'.field c.addr = s.field c.addr) :
    ∀ c ∈ t.toList, (s'.reparent t p).field c.addr = (s.reparent t p).field c.addr := by
  cases t with
  | nil => exact h
  | node l c r =>
    intro b hb
    simp only [RbHead.reparent, RbHead.put_field, h c (by simp)]
    by_cases he : b.addr = c.addr
    · rw [he, Function.update_self, Function.update_self]
    · rw [Function.update_of_ne he, Function.update_of_ne he, h b hb]

/-- The code that sets the parent of a subtree unless it is empty. -/
theorem rbAdopt_ok (h : Placed s.field p t) (hp : p &&& rbColorMask = 0)
    (hp' : p' &&& rbColorMask = 0) (hv : ∀ c ∈ t.toList, Valid c.addr) :
    rbAdopt s (top t) p' = .ok (s.reparent t p') := by
  unfold rbAdopt
  cases t with
  | nil => exact if_neg (not_not.mpr rfl)
  | node l c r =>
    have h0 : c.addr ≠ 0 := (hv c (by simp)).ne_zero
    have hentry : (s.field c.addr).parent = packWord p c.color := by rw [h.1]
    rw [top_node, if_pos h0, rbSetparent_ok h0 hp hentry hp']
    rfl

/-- A reparented tree is laid out below its new parent. -/
theorem Placed.reparent (h : Placed s.field p t) (hn : (t.toList.map Cell.addr).Nodup)
    (hf : ∀ c ∈ t.toList, s'.field c.addr = (s.reparent t p').field c.addr) :
    Placed s'.field p' t := by
  cases t with
  | nil => trivial
  | node l c r =>
    obtain ⟨hc, hl, hr⟩ := h
    simp only [Tree.toList_node, List.map_append, List.map_cons, List.nodup_append,
      List.nodup_cons] at hn
    refine ⟨?_, Placed.congr hl fun b hb => ?_, Placed.congr hr fun b hb => ?_⟩
    · rw [Links, hf c (by simp), RbHead.reparent, RbHead.put_field, Function.update_self, hc]
    · rw [hf b (by simp [hb])]
      exact Function.update_of_ne (hn.2.2 _ (List.mem_map_of_mem hb) _ (by simp)) _ _
    · rw [hf b (by simp [hb])]
      refine Function.update_of_ne (fun he => hn.2.1.1 ?_) _ _
      exact he ▸ List.mem_map_of_mem hb

end Reparent

section Hole

/-- The child pointer around a hole is found by comparison with the tree in the hole. -/
theorem Rep.replaceChild {fr : Frame (Cell w)} (h : Rep s₀ (Tree.plug (fr :: z) t))
    (ht : t ≠ .nil) (hs : s.field fr.label.addr = s₀.field fr.label.addr) (a : BitVec w) :
    rbReplaceChild s fr.label.addr (top t) a = .ok (s.setHole (fr :: z) a) := by
  have hentry : s.field fr.label.addr = .ofSides fr.side (top t) (top fr.sibling)
      (packWord (above z) fr.label.color) := by
    rw [hs]
    exact h.entry
  have h0 : fr.label.addr ≠ 0 := (h.valid_label (by simp [Tree.labels])).ne_zero
  rw [rbReplaceChild, rbChild_ok h0, ok_bind]
  obtain ⟨d, b, sib⟩ := fr
  cases d with
  | left =>
    rw [if_pos (by rw [hentry]; rfl), rbSetChild_ok h0]
    rfl
  | right =>
    have hne : (s.field b.addr).child .left ≠ top t := by
      rw [hentry]
      change top sib ≠ top t
      intro he
      obtain - | ⟨l, c, r⟩ := t
      · exact ht rfl
      · obtain - | ⟨l', c', r'⟩ := sib
        · exact (h.valid_tree (c := c) (by simp)).ne_zero he.symm
        · exact h.addr_ne (c := c) (b := c') (by simp) (by simp [Tree.labels]) he.symm
    rw [if_neg hne, rbSetChild_ok h0]
    rfl

/-- The code that replaces the tree in a hole, wherever the hole is. -/
theorem Rep.relink (h : Rep s₀ (Tree.plug z t)) (ht : t ≠ .nil)
    (hs : ∀ c ∈ Tree.labels z, s.field c.addr = s₀.field c.addr) (a : BitVec w) :
    rbRelink s (above z) (top t) a = .ok (s.setHole z a) := by
  unfold rbRelink
  cases z with
  | nil => exact if_neg (not_not.mpr rfl)
  | cons fr z =>
    rw [if_pos (show above (fr :: z) ≠ 0 from (h.valid_label (by simp [Tree.labels])).ne_zero)]
    exact h.replaceChild ht (hs _ (by simp [Tree.labels])) a

/-- Filling a hole depends on the root and on the cells above. -/
theorem RbHead.setHole_eq_of_agree {s₁ : RbHead A w} (hroot : s₁.root = s.root)
    (hf : ∀ c ∈ Tree.labels z, s₁.field c.addr = s.field c.addr) (a : BitVec w) :
    (s₁.setHole z a).root = (s.setHole z a).root ∧
      ∀ c ∈ Tree.labels z, (s₁.setHole z a).field c.addr = (s.setHole z a).field c.addr := by
  cases z with
  | nil => exact ⟨rfl, hf⟩
  | cons fr z =>
    refine ⟨hroot, fun c hc => ?_⟩
    simp only [RbHead.setHole, RbHead.put_field, hf fr.label (by simp [Tree.labels])]
    by_cases he : c.addr = fr.label.addr
    · rw [he, Function.update_self, Function.update_self]
    · rw [Function.update_of_ne he, Function.update_of_ne he, hf c hc]

end Hole

section Rotate

variable {ta tb tc : Tree (Cell w)} (augment : Augment A w)

/-- A rotation keeps the order of the nodes. -/
theorem toList_rotate (d : Side) (ta tb tc : Tree (Cell w)) (x y : Cell w) :
    (Tree.join d (.join d ta x tb) y tc).toList =
      (Tree.join d ta x (.join d tb y tc)).toList := by
  cases d <;> simp [Tree.join]

/-- The cells of two nested joins, in whatever order. -/
theorem toList_join_join_perm (d : Side) (ta tb tc : Tree (Cell w)) (x y : Cell w) :
    (Tree.join d ta x (.join d tb y tc)).toList.Perm
      (ta.toList ++ x :: (tb.toList ++ y :: tc.toList)) :=
  (Tree.toList_join_perm _ _ _ _).trans
    (((Tree.toList_join_perm _ _ _ _).cons x).append_left _)

/-- The cells around a rotation have addresses that can carry a colour bit. -/
theorem Rep.valid_pivot (h : Rep s (Tree.plug z (.join d ta x (.join d tb y tc)))) :
    ∀ c ∈ ta.toList ++ x :: (tb.toList ++ y :: tc.toList), Valid c.addr := fun _ hc =>
  h.valid_tree ((toList_join_join_perm d ta tb tc x y).mem_iff.mpr hc)

/-- The cells around a rotation are not among those above. -/
theorem Rep.pivot_ne_label (h : Rep s (Tree.plug z (.join d ta x (.join d tb y tc)))) :
    ∀ c ∈ ta.toList ++ x :: (tb.toList ++ y :: tc.toList), ∀ b ∈ Tree.labels z,
      c.addr ≠ b.addr := fun _ hc _ hb =>
  h.addr_ne ((toList_join_join_perm d ta tb tc x y).mem_iff.mpr hc) hb

/-- The nodes and subtrees around a rotation are at different addresses. -/
structure Apart (x y : Cell w) (ta tb tc : Tree (Cell w)) : Prop where
  pivots : x.addr ≠ y.addr
  upper : ∀ b ∈ ta.toList ++ (tb.toList ++ tc.toList), b.addr ≠ x.addr
  lower : ∀ b ∈ ta.toList ++ (tb.toList ++ tc.toList), b.addr ≠ y.addr
  middle : ∀ b ∈ ta.toList ++ tc.toList, ∀ c ∈ tb.toList, b.addr ≠ c.addr
  nodup : (tb.toList.map Cell.addr).Nodup

/-- The cells around a rotation are different. -/
theorem Rep.apart (h : Rep s (Tree.plug z (.join d ta x (.join d tb y tc)))) :
    Apart x y ta tb tc := by
  have hn := (List.nodup_append.mp h.addrs_nodup).1
  rw [((toList_join_join_perm d ta tb tc x y).map Cell.addr).nodup_iff] at hn
  simp only [List.Nodup, List.pairwise_map, List.pairwise_append, List.pairwise_cons,
    List.mem_append, List.mem_cons] at hn
  obtain ⟨-, ⟨hx, hb, ⟨hy, -⟩, hbrest⟩, harest⟩ := hn
  refine ⟨hx y (.inr (.inl rfl)), fun b hmem => ?_, fun b hmem => ?_, fun b hmem c hc => ?_,
    List.pairwise_map.mpr hb⟩ <;> simp only [List.mem_append] at hmem
  · rcases hmem with ha | hb | hc
    · exact harest b ha x (.inl rfl)
    · exact (hx b (.inl hb)).symm
    · exact (hx b (.inr (.inr hc))).symm
  · rcases hmem with ha | hb | hc
    · exact harest b ha y (.inr (.inr (.inl rfl)))
    · exact hbrest b hb y (.inl rfl)
    · exact (hy b hc).symm
  · rcases hmem with ha | hc'
    · exact harest b ha c (.inr (.inl hc))
    · exact (hbrest c hc b (.inr hc')).symm

/-- What a rotation leaves in memory: the pointer at the hole leads to `y`, the middle
subtree has a new parent, and the outer subtrees are as before. -/
structure Rotated (s s' : RbHead A w) (d : Side) (z : List (Frame (Cell w))) (x y : Cell w)
    (ta tb tc : Tree (Cell w)) : Prop where
  root : s'.root = (s.setHole z y.addr).root
  context : ∀ c ∈ Tree.labels z, s'.field c.addr = (s.setHole z y.addr).field c.addr
  above : s'.field y.addr = .ofSides d x.addr (top tc) (packWord (above z) y.color)
  below : s'.field x.addr = .ofSides d (top ta) (top tb) (packWord y.addr x.color)
  middle : ∀ b ∈ tb.toList, s'.field b.addr = (s.reparent tb x.addr).field b.addr
  outer : ∀ b ∈ ta.toList ++ tc.toList, s'.field b.addr = s.field b.addr

/-- Memory after a rotation holds the rotated tree. -/
theorem Rotated.rep (hrot : Rotated s s' d z x y ta tb tc)
    (h : Rep s (Tree.plug z (.join d ta x (.join d tb y tc)))) :
    Rep s' (Tree.plug z (.join d (.join d ta x tb) y tc)) := by
  obtain ⟨-, hpa, hpy⟩ := placed_join.mp h.placed_tree
  obtain ⟨-, hpb, hpc⟩ := placed_join.mp hpy
  refine h.refill (by rw [top_join, hrot.root]) (fun c hc => by rw [top_join, hrot.context c hc])
    ?_ ?_ fun c hc => ?_
  · refine placed_join.mpr ⟨by rw [top_join, hrot.above],
      placed_join.mpr ⟨hrot.below, hpa.congr fun b hb => hrot.outer b (by simp [hb]), ?_⟩,
      hpc.congr fun b hb => hrot.outer b (by simp [hb])⟩
    exact hpb.reparent h.apart.nodup hrot.middle
  · rw [toList_rotate]
    exact h.addrs_nodup
  · rw [toList_rotate] at hc
    exact h.valid_tree hc

/-- The memory once the middle subtree of a rotation hangs below `x`. -/
def RbHead.hang (s : RbHead A w) (d : Side) (z : List (Frame (Cell w))) (x : Cell w)
    (ta tb : Tree (Cell w)) : RbHead A w :=
  (s.put x.addr (.ofSides d (top ta) (top tb) (packWord (above z) x.color))).reparent tb x.addr

/-- The first half of a rotation leaves other cells. -/
theorem RbHead.hang_field_of_ne (ha : a ≠ x.addr) (hb : ∀ c ∈ tb.toList, a ≠ c.addr) :
    (s.hang d z x ta tb).field a = s.field a := by
  rw [RbHead.hang, RbHead.reparent_field_of_notMem hb]
  exact Function.update_of_ne ha _ _

/-- The first half of a rotation gives the upper cell the middle subtree. -/
theorem Apart.hang_upper (hap : Apart x y ta tb tc) : (s.hang d z x ta tb).field x.addr =
    .ofSides d (top ta) (top tb) (packWord (above z) x.color) := by
  rw [RbHead.hang, RbHead.reparent_field_of_notMem fun b hb => (hap.upper b (by simp [hb])).symm]
  exact Function.update_self _ _ _

/-- The first half of a rotation gives the middle subtree its new parent. -/
theorem Apart.hang_middle (hap : Apart x y ta tb tc) :
    ∀ b ∈ tb.toList, (s.hang d z x ta tb).field b.addr = (s.reparent tb x.addr).field b.addr :=
  RbHead.reparent_field_congr fun b hb => Function.update_of_ne (hap.upper b (by simp [hb])) _ _

/-- The first half of a rotation hangs the middle subtree below `x`. -/
theorem Rep.hang (h : Rep s (Tree.plug z (.join d ta x (.join d tb y tc)))) :
    ∃ s₁, rbSetChild s d.opp x.addr (top tb) = .ok s₁ ∧
      rbAdopt s₁ (top tb) x.addr = .ok (s.hang d z x ta tb) := by
  have hx := h.entry
  obtain ⟨-, hpb, -⟩ := placed_join.mp (placed_join.mp h.placed_tree).2.2
  have hvx := h.valid_pivot x (by simp)
  refine ⟨_, rbSetChild_ok hvx.ne_zero _ _, ?_⟩
  rw [hx, RbEntry.ofSides_setChild_opp]
  refine rbAdopt_ok (p := y.addr) (hpb.congr fun b hb => ?_) (h.valid_pivot y (by simp)).even
    hvx.even fun b hb => h.valid_pivot b (by simp [hb])
  exact Function.update_of_ne (h.apart.upper b (by simp [hb])) _ _

/-- The second half of a rotation puts `y` into the hole and `x` below it. -/
def RbHead.swing (u : RbHead A w) (d : Side) (z : List (Frame (Cell w))) (x y : Cell w)
    (ta tb tc : Tree (Cell w)) : RbHead A w :=
  (((u.put y.addr (.ofSides d (top tb) (top tc) (packWord (above z) y.color))).setHole z
    y.addr).put y.addr (.ofSides d x.addr (top tc) (packWord (above z) y.color))).put x.addr
      (.ofSides d (top ta) (top tb) (packWord y.addr x.color))

/-- The last steps of a rotation change the two nodes and the pointer at the hole. -/
theorem Rep.swing_field (h : Rep s (Tree.plug z (.join d ta x (.join d tb y tc))))
    {u : RbHead A w} (hx : c.addr ≠ x.addr) (hy : c.addr ≠ y.addr)
    (hc : c ∈ ta.toList ++ x :: (tb.toList ++ y :: tc.toList)) :
    (u.swing d z x y ta tb tc).field c.addr = u.field c.addr := by
  rw [RbHead.swing, RbHead.put_field, Function.update_of_ne hx, RbHead.put_field,
    Function.update_of_ne hy, RbHead.setHole_field_of_notMem (h.pivot_ne_label c hc),
    RbHead.put_field, Function.update_of_ne hy]

variable {u : RbHead A w} (hu : u.field = (s.hang d z x ta tb).field)

include hu

/-- Up to the second half of a rotation the context is as before. -/
theorem Rep.hang_label (h : Rep s (Tree.plug z (.join d ta x (.join d tb y tc)))) :
    ∀ c ∈ Tree.labels z, (u.put y.addr (.ofSides d (top tb) (top tc)
      (packWord (above z) y.color))).field c.addr = s.field c.addr := by
  intro c hc
  have hne := fun b hb => (h.pivot_ne_label b hb c hc).symm
  rw [RbHead.put_field, Function.update_of_ne (hne y (by simp)), hu]
  exact RbHead.hang_field_of_ne (hne x (by simp)) fun b hb => hne b (by simp [hb])

/-- The two halves together rotate the tree. -/
theorem Rep.rotated (h : Rep s (Tree.plug z (.join d ta x (.join d tb y tc))))
    (hroot : u.root = s.root) (hs' : s'.root = (u.swing d z x y ta tb tc).root)
    (hf' : s'.field = (u.swing d z x y ta tb tc).field) : Rotated s s' d z x y ta tb tc := by
  have hap := h.apart
  have hx := h.pivot_ne_label x (by simp)
  have hy := h.pivot_ne_label y (by simp)
  obtain ⟨hset, hlabels⟩ := RbHead.setHole_eq_of_agree
    ((RbHead.put_root u y.addr _).trans hroot) (h.hang_label hu) y.addr
  refine ⟨hs'.trans hset, fun c hc => ?_, ?_, ?_, fun b hb => ?_, fun b hb => ?_⟩ <;> rw [hf']
  · rw [← hlabels c hc, RbHead.swing, RbHead.put_field, Function.update_of_ne (hx c hc).symm,
      RbHead.put_field, Function.update_of_ne (hy c hc).symm]
  · rw [RbHead.swing, RbHead.put_field, Function.update_of_ne hap.pivots.symm]
    exact Function.update_self _ _ _
  · exact Function.update_self _ _ _
  · rw [h.swing_field (hap.upper b (by simp [hb])) (hap.lower b (by simp [hb])) (by simp [hb]), hu]
    exact hap.hang_middle b hb
  · have hmem : b ∈ ta.toList ++ (tb.toList ++ tc.toList) := by
      simp only [List.mem_append] at hb ⊢
      tauto
    rw [h.swing_field (hap.upper b hmem) (hap.lower b hmem)
      (by simp only [List.mem_append, List.mem_cons] at hb ⊢; tauto), hu]
    exact RbHead.hang_field_of_ne (hap.upper b hmem) (hap.middle b hb)

/-- The second half of a rotation, up to the calls that augment. -/
theorem Rep.swing (h : Rep s (Tree.plug z (.join d ta x (.join d tb y tc)))) :
    ∃ s₃ s₄ s₅, rbGetparent u x.addr = .ok (above z) ∧
      rbSetparent u y.addr (above z) = .ok (s₃, above z) ∧
      rbRelink s₃ (above z) x.addr y.addr = .ok s₄ ∧ rbSetChild s₄ d y.addr x.addr = .ok s₅ ∧
      rbSetparent s₅ x.addr y.addr = .ok (u.swing d z x y ta tb tc, y.addr) := by
  have hap := h.apart
  have hP := h.above_even
  have hvx := h.valid_pivot x (by simp)
  have hvy := h.valid_pivot y (by simp)
  have hx : u.field x.addr = .ofSides d (top ta) (top tb) (packWord (above z) x.color) := by
    rw [hu, hap.hang_upper]
  have hy : u.field y.addr = .ofSides d (top tb) (top tc) (packWord x.addr y.color) := by
    rw [hu, RbHead.hang_field_of_ne hap.pivots.symm fun b hb => (hap.lower b (by simp [hb])).symm]
    exact (placed_join.mp (placed_join.mp h.placed_tree).2.2).1
  have e₃ := rbSetparent_ok (c := y.color) hvy.ne_zero hvx.even
    (by rw [hy, RbEntry.ofSides_parent]) hP
  rw [hy, RbEntry.ofSides_with_parent] at e₃
  have e₄ := h.relink (Tree.join_ne_nil _ _ _ _) (h.hang_label hu) y.addr
  rw [top_join] at e₄
  obtain ⟨s₄, hs₄⟩ : ∃ s₄, s₄ = (u.put y.addr (.ofSides d (top tb) (top tc)
      (packWord (above z) y.color))).setHole z y.addr := ⟨_, rfl⟩
  have hx₄ : s₄.field x.addr = .ofSides d (top ta) (top tb) (packWord (above z) x.color) := by
    rw [hs₄, RbHead.setHole_field_of_notMem (h.pivot_ne_label x (by simp)), RbHead.put_field,
      Function.update_of_ne hap.pivots, hx]
  have hy₄ : s₄.field y.addr = .ofSides d (top tb) (top tc) (packWord (above z) y.color) := by
    rw [hs₄, RbHead.setHole_field_of_notMem (h.pivot_ne_label y (by simp))]
    exact Function.update_self _ _ _
  have e₅ : rbSetChild s₄ d y.addr x.addr =
      .ok (s₄.put y.addr (.ofSides d x.addr (top tc) (packWord (above z) y.color))) := by
    rw [rbSetChild_ok hvy.ne_zero, hy₄, RbEntry.ofSides_setChild]
  have hx₅ : (s₄.put y.addr
      (.ofSides d x.addr (top tc) (packWord (above z) y.color))).field x.addr =
      .ofSides d (top ta) (top tb) (packWord (above z) x.color) := by
    rw [RbHead.put_field, Function.update_of_ne hap.pivots, hx₄]
  have e₆ := rbSetparent_ok (c := x.color) hvx.ne_zero hP
    (by rw [hx₅, RbEntry.ofSides_parent]) hvy.even
  rw [hx₅, RbEntry.ofSides_with_parent, hs₄] at e₆
  refine ⟨_, s₄, _, ?_, e₃, hs₄ ▸ e₄, e₅, hs₄ ▸ e₆⟩
  exact rbGetparent_ok (c := x.color) hvx.ne_zero hP (by rw [hx, RbEntry.ofSides_parent])

omit hu

/-- A rotation refreshes `x` once the middle subtree hangs below it, and `y` and the node
above it in the rotated tree. -/
theorem Rep.rotate_states (h : Rep s (Tree.plug z (.join d ta x (.join d tb y tc)))) :
    ∃ s₁ s₂ : RbHead A w, s₁.aug = s.aug ∧
      s₁.field x.addr = .ofSides d (top ta) (top tb) (packWord (above z) x.color) ∧
      s₂.aug = (rbAugment augment s₁ x.addr).aug ∧
      Rep s₂ (Tree.plug z (.join d (.join d ta x tb) y tc)) ∧
      rbRotate augment d s x.addr =
        .ok (rbAugmentAbove augment (rbAugment augment s₂ y.addr) (above z), y.addr) := by
  have hvx := h.valid_pivot x (by simp)
  have hvy := h.valid_pivot y (by simp)
  have e₁ : rbChild s d.opp x.addr = .ok y.addr := by
    rw [rbChild_ok hvx.ne_zero, h.entry, RbEntry.ofSides_child_opp, top_join]
  have e₂ : rbChild s d y.addr = .ok (top tb) := by
    rw [rbChild_ok hvy.ne_zero, (placed_join.mp (placed_join.mp h.placed_tree).2.2).1,
      RbEntry.ofSides_child]
  obtain ⟨s₁, e₃, e₄⟩ := h.hang
  have hfield := rbAugment_field augment (s.hang d z x ta tb) x.addr
  obtain ⟨s₃, s₄, s₅, e₅, e₆, e₇, e₈, e₉⟩ := h.swing hfield
  have hrot := h.rotated hfield RbHead.reparent_root rfl rfl
  have haug : ((rbAugment augment (s.hang d z x ta tb) x.addr).swing d z x y ta tb tc).aug =
      (rbAugment augment (s.hang d z x ta tb) x.addr).aug := by
    simp [RbHead.swing]
  generalize (rbAugment augment (s.hang d z x ta tb) x.addr).swing d z x y ta tb tc = s₆
    at e₉ hrot haug
  have e₁₀ : rbGetparent (rbAugment augment s₆ y.addr) y.addr = .ok (above z) :=
    rbGetparent_ok (c := y.color) hvy.ne_zero h.above_even
      (by rw [rbAugment_field, hrot.above, RbEntry.ofSides_parent])
  refine ⟨s.hang d z x ta tb, s₆, ?_, h.apart.hang_upper, haug, hrot.rep h, ?_⟩
  · rw [RbHead.hang, RbHead.reparent_aug, RbHead.put_aug]
  · simp only [rbRotate, e₁, e₂, e₃, e₄, e₅, e₆, e₇, e₈, e₉, e₁₀, ok_bind]
    rfl

/-- `RB_ROTATE_LEFT` and `RB_ROTATE_RIGHT`. -/
theorem Rep.rotate (h : Rep s (Tree.plug z (.join d ta x (.join d tb y tc)))) :
    ∃ s', rbRotate augment d s x.addr = .ok (s', y.addr) ∧
      Rep s' (Tree.plug z (.join d (.join d ta x tb) y tc)) := by
  obtain ⟨s₁, s₂, -, -, -, hrep, e⟩ := h.rotate_states augment
  refine ⟨_, e, hrep.congr ?_ ?_⟩
  · rw [rbAugmentAbove_root, rbAugment_root]
  · rw [rbAugmentAbove_field, rbAugment_field]

end Rotate

section Unlink

variable {ta : Tree (Cell w)} (augment : Augment A w)

/-- A node with an empty child is replaced by its other child; its own entry stays, and the
node above is refreshed. -/
theorem Rep.unlink (h : Rep s (Tree.plug z (.join d .nil c ta))) :
    ∃ s₁ : RbHead A w, s₁.aug = s.aug ∧ rbUnlink augment s c.addr (top ta) (above z) =
        .ok (rbAugmentAbove augment s₁ (above z)) ∧
      Rep s₁ (Tree.plug z ta) ∧ s₁.field c.addr = s.field c.addr := by
  have hperm := Tree.toList_join_perm d .nil c ta
  obtain ⟨-, -, hpa⟩ := placed_join.mp h.placed_tree
  have hn := h.addrs_nodup
  rw [((hperm.map Cell.addr).append_right _).nodup_iff] at hn
  simp only [Tree.toList_nil, List.nil_append, List.map_cons, List.cons_append,
    List.nodup_cons, List.mem_append, List.mem_map, not_or, not_exists, not_and] at hn
  obtain ⟨⟨hca, hcctx⟩, hn⟩ := hn
  have hmem : ∀ {b}, b ∈ ta.toList → b ∈ (Tree.join d .nil c ta).toList := fun hb =>
    hperm.mem_iff.mpr (by simp [hb])
  have e₁ : rbAdopt s (top ta) (above z) = .ok (s.reparent ta (above z)) :=
    rbAdopt_ok hpa (h.valid_tree mem_join).even h.above_even fun b hb => h.valid_tree (hmem hb)
  have hctx : ∀ b ∈ Tree.labels z,
      (s.reparent ta (above z)).field b.addr = s.field b.addr := fun b hb =>
    RbHead.reparent_field_of_notMem fun a ha => (h.addr_ne (hmem ha) hb).symm
  have e₂ := h.relink (Tree.join_ne_nil _ _ _ _) hctx (top ta)
  rw [top_join] at e₂
  obtain ⟨hsetroot, hsetctx⟩ := RbHead.setHole_eq_of_agree RbHead.reparent_root hctx (top ta)
  refine ⟨_, ?_, by simp only [rbUnlink, e₁, e₂, ok_bind]; rfl, h.refill hsetroot hsetctx ?_ hn
    fun b hb => h.valid_tree (hmem hb), ?_⟩
  · rw [RbHead.setHole_aug, RbHead.reparent_aug]
  · refine hpa.reparent (List.nodup_append.mp hn).1 fun b hb => ?_
    exact RbHead.setHole_field_of_notMem fun a ha => h.addr_ne (hmem hb) ha
  · rw [RbHead.setHole_field_of_notMem fun b hb he => hcctx b hb he.symm]
    exact RbHead.reparent_field_of_notMem fun b hb he => hca b hb he.symm

/-- Updating extra fields keeps the tree. -/
theorem Rep.augmentAbove (h : Rep s t) (a : BitVec w) : Rep (rbAugmentAbove augment s a) t :=
  h.congr (rbAugmentAbove_root augment s a) (rbAugmentAbove_field augment s a)

end Unlink

section TakePlace

variable {l r : Tree (Cell w)} (augment : Augment A w)

/-- The cells of a tree in a hole, its root first. -/
theorem addrs_node_perm (l r : Tree (Cell w)) (c : Cell w) (z : List (Frame (Cell w))) :
    ((Tree.node l c r).toList.map Cell.addr ++ (Tree.labels z).map Cell.addr).Perm
      (c.addr :: ((l.toList ++ r.toList) ++ Tree.labels z).map Cell.addr) := by
  simp only [Tree.toList_node, List.map_append, List.map_cons]
  exact List.perm_middle.append_right _

/-- What a node at `a` that takes the place of `c` leaves in memory. -/
structure Replaced (s s' : RbHead A w) (z : List (Frame (Cell w))) (l : Tree (Cell w))
    (c : Cell w) (r : Tree (Cell w)) (a : BitVec w) : Prop where
  root : s'.root = (s.setHole z a).root
  context : ∀ b ∈ Tree.labels z, s'.field b.addr = (s.setHole z a).field b.addr
  entry : s'.field a = s.field c.addr
  left : ∀ b ∈ l.toList, s'.field b.addr = (s.reparent l a).field b.addr
  right : ∀ b ∈ r.toList, s'.field b.addr = (s.reparent r a).field b.addr

/-- Memory after a node took the place of another holds the tree with the two exchanged. -/
theorem Replaced.rep (hrep : Replaced s s' z l c r a) (h : Rep s (Tree.plug z (.node l c r)))
    (ha : Valid a) (hnew : a ∉ (Tree.plug z (.node l c r)).toList.map Cell.addr) :
    Rep s' (Tree.plug z (.node l ⟨a, c.color⟩ r)) := by
  have hn := (addrs_node_perm l r c z).nodup_iff.mp h.addrs_nodup
  rw [(addrs_plug_perm z _).mem_iff, (addrs_node_perm l r c z).mem_iff, List.mem_cons,
    not_or] at hnew
  have hsub := List.nodup_append.mp (List.map_append ▸ (List.nodup_cons.mp hn).2)
  obtain ⟨hnl, hnr, -⟩ := List.nodup_append.mp (List.map_append ▸ hsub.1)
  obtain ⟨-, hpl, hpr⟩ := h.placed_tree
  refine h.refill hrep.root hrep.context ⟨?_, Placed.reparent hpl hnl hrep.left,
    Placed.reparent hpr hnr hrep.right⟩ ?_ fun b hb => ?_
  · rw [Links, hrep.entry]
    exact h.entry (d := .left)
  · rw [(addrs_node_perm l r ⟨a, c.color⟩ z).nodup_iff]
    exact List.nodup_cons.mpr ⟨hnew.2, (List.nodup_cons.mp hn).2⟩
  · rw [Tree.toList_node, List.mem_append, List.mem_cons] at hb
    rcases hb with hb | rfl | hb
    · exact h.valid_tree (by simp [hb])
    · exact ha
    · exact h.valid_tree (by simp [hb])

/-- The memory once the new node has the entry of `c` and the hole leads to it. -/
def RbHead.enter (s : RbHead A w) (z : List (Frame (Cell w))) (c : Cell w) (a : BitVec w) :
    RbHead A w :=
  rbAugmentAbove augment ((s.put a (s.field c.addr)).setHole z a) (above z)

variable {augment}

/-- Entering a new cell leaves what is neither it nor above it. -/
theorem RbHead.enter_field {v : BitVec w} (hv : v ≠ a) (hz : ∀ b ∈ Tree.labels z, v ≠ b.addr) :
    (s.enter augment z c a).field v = s.field v := by
  rw [RbHead.enter, rbAugmentAbove_field, RbHead.setHole_field_of_notMem hz]
  exact Function.update_of_ne hv _ _

variable (augment)

/-- Entering and adopting both subtrees takes the place of `c`. -/
theorem Rep.replaced (h : Rep s (Tree.plug z (.node l c r)))
    (hnew : a ∉ (Tree.plug z (.node l c r)).toList.map Cell.addr) :
    Replaced s (((s.enter augment z c a).reparent l a).reparent r a) z l c r a := by
  have hne : ∀ b ∈ (Tree.plug z (.node l c r)).toList, b.addr ≠ a := fun b hb he =>
    hnew (he ▸ List.mem_map_of_mem hb)
  have htree : ∀ b ∈ (Tree.node l c r).toList, b.addr ≠ a := fun b hb =>
    hne b (Tree.mem_plug.mpr (.inl hb))
  have hlabel : ∀ b ∈ Tree.labels z, b.addr ≠ a := fun b hb =>
    hne b (Tree.mem_plug.mpr (.inr hb))
  have hlr : ∀ b ∈ l.toList, ∀ b' ∈ r.toList, b.addr ≠ b'.addr := by
    have hn := (List.nodup_append.mp h.addrs_nodup).1
    rw [Tree.toList_node, List.map_append, List.map_cons, List.nodup_append] at hn
    exact fun b hb b' hb' => hn.2.2 _ (List.mem_map_of_mem hb) _ (by simp [List.mem_map_of_mem hb'])
  have henter : ∀ b ∈ (Tree.node l c r).toList,
      (s.enter augment z c a).field b.addr = s.field b.addr := fun b hb =>
    RbHead.enter_field (htree b hb) fun b' hb' => h.addr_ne hb hb'
  obtain ⟨hroot, hctx⟩ := RbHead.setHole_eq_of_agree (RbHead.put_root s a (s.field c.addr))
    (fun b hb => Function.update_of_ne (hlabel b hb) _ _) a
  refine ⟨?_, fun b hb => ?_, ?_, fun b hb => ?_, fun b hb => ?_⟩
  · rw [RbHead.reparent_root, RbHead.reparent_root, RbHead.enter, rbAugmentAbove_root, hroot]
  · rw [RbHead.reparent_field_of_notMem fun b' hb' => (h.addr_ne (by simp [hb']) hb).symm,
      RbHead.reparent_field_of_notMem fun b' hb' => (h.addr_ne (by simp [hb']) hb).symm,
      RbHead.enter, rbAugmentAbove_field, hctx b hb]
  · rw [RbHead.reparent_field_of_notMem fun b hb => (htree b (by simp [hb])).symm,
      RbHead.reparent_field_of_notMem fun b hb => (htree b (by simp [hb])).symm, RbHead.enter,
      rbAugmentAbove_field, RbHead.setHole_field_of_notMem fun b hb => (hlabel b hb).symm]
    exact Function.update_self _ _ _
  · rw [RbHead.reparent_field_of_notMem (hlr b hb)]
    exact RbHead.reparent_field_congr (fun b hb => henter b (by simp [hb])) b hb
  · refine RbHead.reparent_field_congr (fun b' hb' => ?_) b hb
    rw [RbHead.reparent_field_of_notMem fun v hv => (hlr v hv b' hb').symm]
    exact henter b' (by simp [hb'])

/-- A node outside the tree takes over the place and the colour of a node with a left
child; no field changes but that of the node above. -/
theorem Rep.takePlace (h : Rep s (Tree.plug z (.node l c r)))
    (hl : l ≠ .nil) (ha : Valid a) (hnew : a ∉ (Tree.plug z (.node l c r)).toList.map Cell.addr) :
    ∃ s', rbTakePlace augment s c.addr a = .ok s' ∧
      Rep s' (Tree.plug z (.node l ⟨a, c.color⟩ r)) ∧
      ∀ v, v ≠ above z → s'.aug v = s.aug v := by
  have hentry : s.field c.addr = ⟨top l, top r, packWord (above z) c.color⟩ :=
    h.entry (d := .left)
  obtain ⟨-, hpl, hpr⟩ := h.placed_tree
  have hvc : Valid c.addr := h.valid_tree (by simp)
  have hne : ∀ b ∈ (Tree.plug z (.node l c r)).toList, b.addr ≠ a := fun b hb he =>
    hnew (he ▸ List.mem_map_of_mem hb)
  have hca : c.addr ≠ a := hne c (Tree.mem_plug.mpr (.inl (by simp)))
  have hput : ∀ b ∈ Tree.labels z, (s.put a (s.field c.addr)).field b.addr = s.field b.addr :=
    fun b hb => Function.update_of_ne (hne b (Tree.mem_plug.mpr (.inr hb))) _ _
  have hn := (List.nodup_append.mp h.addrs_nodup).1
  rw [Tree.toList_node, List.map_append, List.map_cons, List.nodup_append] at hn
  have hlr : ∀ b ∈ l.toList, ∀ v ∈ c.addr :: r.toList.map Cell.addr, b.addr ≠ v := fun b hb =>
    hn.2.2 _ (List.mem_map_of_mem hb)
  have henter : ∀ b ∈ (Tree.node l c r).toList,
      (s.enter augment z c a).field b.addr = s.field b.addr := fun b hb =>
    RbHead.enter_field (hne b (Tree.mem_plug.mpr (.inl hb))) fun b' hb' => h.addr_ne hb hb'
  have hpl' : Placed (s.enter augment z c a).field c.addr l :=
    Placed.congr hpl fun b hb => henter b (by simp [hb])
  have e₁ : rbGetparent (s.put a (s.field c.addr)) c.addr = .ok (above z) :=
    rbGetparent_ok (c := c.color) hvc.ne_zero h.above_even
      (by rw [RbHead.put_field, Function.update_of_ne hca, hentry])
  have e₂ := h.relink (Tree.node_ne_nil l c r) hput a
  have e₃ : rbChild (s.enter augment z c a) .left c.addr = .ok (top l) := by
    rw [rbChild_ok hvc.ne_zero, henter c (by simp), hentry]
    rfl
  have e₄ : rbSetparent (s.enter augment z c a) (top l) a =
      .ok ((s.enter augment z c a).reparent l a, a) := by
    obtain - | ⟨l', b, r'⟩ := l
    · exact absurd rfl hl
    · exact rbSetparent_ok (h.valid_tree (c := b) (by simp)).ne_zero hvc.even
        (by rw [top_node, hpl'.1]) ha.even
  have e₅ : rbChild ((s.enter augment z c a).reparent l a) .right c.addr = .ok (top r) := by
    rw [rbChild_ok hvc.ne_zero, RbHead.reparent_field_of_notMem fun b hb =>
      (hlr b hb _ List.mem_cons_self).symm, henter c (by simp), hentry]
    rfl
  have e₆ : rbAdopt ((s.enter augment z c a).reparent l a) (top r) a =
      .ok (((s.enter augment z c a).reparent l a).reparent r a) := by
    refine rbAdopt_ok (Placed.congr hpr fun b hb => ?_) hvc.even ha.even fun b hb =>
      h.valid_tree (by simp [hb])
    rw [RbHead.reparent_field_of_notMem fun v hv =>
      (hlr v hv _ (List.mem_cons_of_mem _ (List.mem_map_of_mem hb))).symm]
    exact henter b (by simp [hb])
  have hdef : rbAugmentAbove augment ((s.put a (s.field c.addr)).setHole z a) (above z) =
      s.enter augment z c a := rfl
  rw [top_node] at e₂
  refine ⟨_, ?_, (h.replaced augment hnew).rep h ha hnew, fun v hv => ?_⟩
  · simp only [rbTakePlace, RbHead.load_ok hvc.ne_zero, RbHead.modify_ok ha.ne_zero, e₁, e₂, hdef,
      e₃, e₄, e₅, e₆, ok_bind]
  · rw [RbHead.reparent_aug, RbHead.reparent_aug, RbHead.enter, rbAugmentAbove_aug_of_ne _ _ hv,
      RbHead.setHole_aug, RbHead.put_aug]

end TakePlace

section Leaf

/-- A red leaf is put into a hole. -/
theorem Rep.leaf (h : Rep s (Tree.plug z .nil)) (ha : Valid a)
    (hnew : a ∉ (Tree.plug z .nil).toList.map Cell.addr) :
    Rep ((s.put a ⟨0, 0, packWord (above z) .red⟩).setHole z a)
      (Tree.plug z (.node .nil ⟨a, .red⟩ .nil)) := by
  have hnctx : a ∉ (Tree.labels z).map Cell.addr := fun hc =>
    hnew ((addrs_plug_perm z .nil).mem_iff.mpr hc)
  have hne : ∀ b ∈ Tree.labels z, a ≠ b.addr := fun b hb he =>
    hnctx (he ▸ List.mem_map_of_mem hb)
  obtain ⟨hsetroot, hsetctx⟩ := RbHead.setHole_eq_of_agree (z := z) (s := s)
    (RbHead.put_root s a _) (fun b hb => Function.update_of_ne (hne b hb).symm _ _) a
  refine h.refill hsetroot hsetctx ⟨?_, trivial, trivial⟩ ?_ fun b hb => ?_
  · rw [Links, RbHead.setHole_field_of_notMem hne]
    exact Function.update_self _ _ _
  · exact List.nodup_cons.mpr ⟨hnctx, (List.nodup_append.mp h.addrs_nodup).2.1⟩
  · rw [List.mem_singleton.mp hb]
    exact ha

end Leaf

section Climb

/-- A tree has fewer nodes than there are addresses. -/
theorem Rep.size_lt (h : Rep s t) : t.toList.length < 2 ^ w := by
  have hn : (0 :: t.toList.map Cell.addr).Nodup := by
    refine List.nodup_cons.mpr ⟨fun h0 => ?_, h.nodup⟩
    obtain ⟨c, hc, h0⟩ := List.mem_map.mp h0
    exact (h.valid c hc).ne_zero h0
  have hlen := length_le_of_nodup hn
  rw [List.length_cons, List.length_map] at hlen
  omega

/-- The fuel of a loop suffices for every path of the tree. -/
theorem Rep.length_lt (h : Rep s (Tree.plug z t)) :
    t.toList.length + z.length + 1 < walkFuel w :=
  Nat.succ_lt_succ ((Tree.length_ctx_le z t).trans_lt h.size_lt)

/-- The parent of the node at a hole. -/
theorem Rep.getparent (h : Rep s (Tree.plug z (.join d near c far))) :
    rbGetparent s c.addr = .ok (above z) :=
  rbGetparent_ok (c := c.color) (h.valid_tree mem_join).ne_zero h.above_even
    (by rw [h.entry, RbEntry.ofSides_parent])

variable (augment : Augment A w)

/-- The loop that augments a node and all its ancestors ends at the root. -/
theorem Rep.augmentUp (h : Rep s (Tree.plug z t)) (hctx : z ≠ []) :
    ∃ s', loop (rbAugmentUpBody augment) (walkFuel w) (s, above z) = .ok s' ∧
      s'.root = s.root ∧ s'.field = s.field := by
  refine loop_spec (fun bound (p : RbHead A w × BitVec w) =>
      p.1.root = s.root ∧ p.1.field = s.field ∧
      ∃ z u, z ≠ [] ∧ z.length = bound ∧ p.2 = above z ∧ Rep p.1 (Tree.plug z u))
    (fun s' : RbHead A w => s'.root = s.root ∧ s'.field = s.field) ?_
    ⟨rfl, rfl, z, t, hctx, rfl, rfl, h⟩ (by have := h.length_lt; omega)
  rintro bound ⟨s₁, v⟩ ⟨hroot, hfield, z, u, hne, rfl, rfl, hrep⟩
  obtain ⟨f, z, rfl⟩ := List.exists_cons_of_ne_nil hne
  have hrep' : Rep (rbAugment augment s₁ (above (f :: z)))
      (Tree.plug z (.join f.side u f.label f.sibling)) := hrep.congr rfl rfl
  have e₁ : rbGetparent (rbAugment augment s₁ (above (f :: z))) (above (f :: z)) =
      .ok (above z) := hrep'.getparent
  simp only [rbAugmentUpBody, e₁, ok_bind]
  cases z with
  | nil => exact .inr ⟨_, if_neg (not_not.mpr rfl), hroot, hfield⟩
  | cons g z =>
    refine .inl ⟨_, z.length + 1, by simp, if_pos ?_, hroot, hfield, g :: z, _, nofun, rfl, rfl,
      hrep'⟩
    exact (hrep'.valid_label (by simp [Tree.labels])).ne_zero

end Climb

end MacKernel.RedBlack
