import MacKernel.Core.Balance
import MacKernel.Models.RedBlack.Surgery

/-!
# Reading around the focus of a repair

The repairs after an insertion and a removal look at the links and the colours of a few
nodes around one place of the tree. Their reads are evaluated here on the tree in memory,
and their recolourings and rotations are shown to keep the addresses in order.
-/

namespace MacKernel.RedBlack

variable {A : Type} {w : Nat} {s : RbHead A w} {t t' near far : Tree (Cell w)}
  {z : List (Frame (Cell w))} {f : Frame (Cell w)} {c x y : Cell w} {d : Side}

/-- A tree in memory, split at one of its places. -/
structure Place (A : Type) (w : Nat) where
  head : RbHead A w
  path : List (Frame (Cell w))
  tree : Tree (Cell w)

/-- A red cell. -/
abbrev Cell.Red (c : Cell w) : Prop := c.color = .red

/-- The addresses of a tree in order. -/
abbrev addrs (t : Tree (Cell w)) : List (BitVec w) := t.toList.map Cell.addr

/-- A black cell is not red. -/
theorem not_red_black {a : BitVec w} : ¬Cell.Red ⟨a, .black⟩ := by
  simp

/-- Below a red cell both parts have black roots and the same height. -/
theorem balanced_red_cell {k : Bool} {n : Nat} {a : BitVec w} :
    Balanced Cell.Red k n (.join d near ⟨a, .red⟩ far) ↔
      k = true ∧ Balanced Cell.Red false n near ∧ Balanced Cell.Red false n far :=
  balanced_join_red rfl

/-- Below a black cell both parts have the same height, which is one less. -/
theorem balanced_black_cell {k : Bool} {n : Nat} {a : BitVec w} :
    Balanced Cell.Red k n (.join d near ⟨a, .black⟩ far) ↔
      ∃ m, n = m + 1 ∧ Balanced Cell.Red true m near ∧ Balanced Cell.Red true m far :=
  balanced_join_black not_red_black

section Addresses

/-- The empty tree has no cells. -/
theorem addrs_nil : addrs (.nil : Tree (Cell w)) = [] := rfl

/-- The cells of a tree from left to right. -/
theorem addrs_node (l : Tree (Cell w)) (c : Cell w) (r : Tree (Cell w)) :
    addrs (.node l c r) = addrs l ++ c.addr :: addrs r := by
  rw [addrs, Tree.toList_node, List.map_append, List.map_cons]

/-- Around a hole, the cells before it and those after it. -/
theorem addrs_plug (z : List (Frame (Cell w))) (t : Tree (Cell w)) :
    addrs (Tree.plug z t) = (Tree.before z).map Cell.addr ++ addrs t ++
      (Tree.after z).map Cell.addr := by
  rw [addrs, Tree.toList_plug, List.map_append, List.map_append]

/-- A context extends equal addresses to equal addresses. -/
theorem addrs_plug_congr (h : addrs t = addrs t') :
    addrs (Tree.plug z t) = addrs (Tree.plug z t') := by
  rw [addrs_plug, addrs_plug, h]

/-- The addresses of a node depend on those of its parts only. -/
theorem addrs_join_congr {near' far' : Tree (Cell w)} (hn : addrs near = addrs near')
    (hc : x.addr = y.addr) (hf : addrs far = addrs far') :
    addrs (.join d near x far) = addrs (.join d near' y far') := by
  cases d <;> simp_all [Tree.join, addrs]

end Addresses

section Reads

/-- No cell is at the null pointer. -/
theorem Rep.ne_zero (h : Rep s (Tree.plug z (.join d near c far))) : c.addr ≠ 0 :=
  (h.valid_tree mem_join).ne_zero

/-- The pointer to a tree that is not empty. -/
theorem Rep.top_ne_zero (h : Rep s (Tree.plug z t)) (ht : t ≠ .nil) : top t ≠ 0 := by
  cases t with
  | nil => exact absurd rfl ht
  | node l c r => exact Rep.ne_zero (d := .left) h

/-- The child on the near side. -/
theorem Rep.child_near (h : Rep s (Tree.plug z (.join d near c far))) :
    rbChild s d c.addr = .ok (top near) := by
  rw [rbChild_ok h.ne_zero, h.entry, RbEntry.ofSides_child]

/-- The child on the far side. -/
theorem Rep.child_far (h : Rep s (Tree.plug z (.join d near c far))) :
    rbChild s d.opp c.addr = .ok (top far) := by
  rw [rbChild_ok h.ne_zero, h.entry, RbEntry.ofSides_child_opp]

/-- `RB_GETCOLOR` reads the colour of a cell. -/
theorem Rep.getcolor (h : Rep s (Tree.plug z (.join d near c far))) :
    rbGetcolor s c.addr = .ok c.color :=
  rbGetcolor_ok h.ne_zero h.above_even (by rw [h.entry, RbEntry.ofSides_parent])

/-- The empty tree and trees with a black root. -/
def rootBlack : Tree (Cell w) → Bool
  | .nil => true
  | .node _ c _ => c.color = .black

@[simp] theorem rootBlack_join : rootBlack (.join d near c far) = decide (c.color = .black) := by
  cases d <;> rfl

/-- A cell that is not red is a black root. -/
theorem rootBlack_of_not_red (hc : ¬c.Red) : rootBlack (.join d near c far) = true := by
  cases hcolor : c.color
  · simp [hcolor]
  · exact absurd hcolor hc

/-- Below a red cell a root is black. -/
theorem rootBlack_of_balanced {n : Nat} (h : Balanced Cell.Red false n t) :
    rootBlack t = true := by
  cases h with
  | nil => rfl
  | @black k n l r a ha hl hr =>
    obtain ⟨v, color⟩ := a
    cases color
    · rfl
    · exact absurd rfl ha

/-- A tree with a black root may stand below a red cell. -/
theorem balanced_of_rootBlack {k : Bool} {n : Nat} (h : Balanced Cell.Red k n t)
    (hb : rootBlack t = true) : Balanced Cell.Red false n t := by
  cases h with
  | nil => exact .nil
  | black ha hl hr => exact .black ha hl hr
  | red ha hl hr => simp [rootBlack, ha] at hb

/-- The test of the source for a black child or none. -/
theorem Rep.blackOrNull (h : Rep s (Tree.plug z t)) :
    rbBlackOrNull s (top t) = .ok (rootBlack t) := by
  cases t with
  | nil => rfl
  | node l c r =>
    have hc := Rep.getcolor (d := .left) h
    have h0 := Rep.ne_zero (d := .left) h
    rw [top_node, rbBlackOrNull, if_neg h0, hc, ok_bind]
    rfl

/-- The test of the child on the far side. -/
theorem Rep.far_black (h : Rep s (Tree.plug z (.join d near c far))) :
    rbBlackOrNull s (top far) = .ok (rootBlack far) := by
  rw [← Tree.join_opp] at h
  exact Rep.blackOrNull (z := ⟨d.opp, c, near⟩ :: z) h

/-- The pointers to the two children of a node differ unless both are null. -/
theorem Rep.top_sibling_ne (h : Rep s (Tree.plug (f :: z) t))
    (hne : t ≠ .nil ∨ f.sibling ≠ .nil) : top f.sibling ≠ top t := by
  intro he
  obtain ⟨d, b, sib⟩ := f
  obtain - | ⟨l, c, r⟩ := t
  · obtain - | ⟨l', c', r'⟩ := sib
    · simp at hne
    · exact (h.valid_label (c := c') (by simp [Tree.labels])).ne_zero he
  · obtain - | ⟨l', c', r'⟩ := sib
    · exact (h.valid_tree (c := c) (by simp)).ne_zero he.symm
    · exact h.addr_ne (c := c) (b := c') (by simp) (by simp [Tree.labels]) he.symm

/-- The test that finds out whether a tree is the child on side `e` of its parent. -/
theorem Rep.side_test (h : Rep s (Tree.plug (f :: z) t))
    (hne : t ≠ .nil ∨ f.sibling ≠ .nil) (e : Side) :
    ∃ v, rbChild s e f.label.addr = .ok v ∧ (v = top t ↔ f.side = e) := by
  have hsib := h.top_sibling_ne hne
  by_cases he : f.side = e
  · subst he
    exact ⟨_, Rep.child_near (z := z) h, iff_of_true rfl rfl⟩
  · obtain rfl : e = f.side.opp := by
      generalize f.side = d at he
      cases e <;> cases d <;> simp_all [Side.opp]
    exact ⟨_, Rep.child_far (z := z) h, iff_of_false hsib he⟩

/-- The test whether both children of a node are black or null. -/
theorem Rep.children_black (h : Rep s (Tree.plug z (.join d near c far))) :
    ∃ vl vr bl br, rbChild s .left c.addr = .ok vl ∧ rbChild s .right c.addr = .ok vr ∧
      rbBlackOrNull s vl = .ok bl ∧ rbBlackOrNull s vr = .ok br ∧
      (bl = true ∧ br = true ↔ rootBlack near = true ∧ rootBlack far = true) := by
  have hn := Rep.blackOrNull (z := ⟨d, c, far⟩ :: z) h
  have hf := Rep.blackOrNull (z := ⟨d.opp, c, near⟩ :: z) (t := far)
    (by rwa [Tree.plug_cons, Tree.join_opp])
  cases d with
  | left => exact ⟨_, _, _, _, h.child_near, h.child_far, hn, hf, Iff.rfl⟩
  | right => exact ⟨_, _, _, _, h.child_far, h.child_near, hf, hn, and_comm⟩

/-- The tree at a hole below the root is not the whole tree. -/
theorem Rep.top_ne_root (h : Rep s (Tree.plug (f :: z) t)) : top t ≠ s.root := by
  have hroot : ∀ (z : List (Frame (Cell w))) f (t : Tree (Cell w)),
      ∃ c ∈ Tree.labels (f :: z), top (Tree.plug (f :: z) t) = c.addr := by
    intro z
    induction z with
    | nil => exact fun f t => ⟨f.label, by simp [Tree.labels], top_join _ _ _ _⟩
    | cons g z ih =>
      intro f t
      obtain ⟨c, hc, he⟩ := ih g (.join f.side t f.label f.sibling)
      exact ⟨c, List.mem_append_right _ hc, he⟩
  obtain ⟨c, hc, he⟩ := hroot z f t
  rw [h.root, he]
  cases t with
  | nil => exact (h.valid_label hc).ne_zero.symm
  | node l b r => exact h.addr_ne (by simp) hc

end Reads

section Recolor

/-- `RB_SET_BLACKRED` on a node and its parent. -/
theorem Rep.setBlackred {e : Side} {ta tb tc : Tree (Cell w)}
    (h : Rep s (Tree.plug z (.join d (.join e ta x tb) y tc))) :
    ∃ s', rbSetBlackred s x.addr y.addr = .ok s' ∧
      Rep s' (Tree.plug z (.join d (.join e ta { x with color := .black } tb)
        { y with color := .red } tc)) := by
  obtain ⟨s₁, e₁, h₁⟩ := Rep.setcolor (z := ⟨d, y, tc⟩ :: z) h .black
  obtain ⟨s₂, e₂, h₂⟩ := Rep.setcolor (z := z) h₁ .red
  exact ⟨s₂, by rw [rbSetBlackred, e₁, ok_bind]; exact e₂, h₂⟩

/-- The root of a tree is blackened. -/
def blackRoot : Tree (Cell w) → Tree (Cell w)
  | .nil => .nil
  | .node l c r => .node l { c with color := .black } r

@[simp] theorem blackRoot_join :
    blackRoot (.join d near c far) = .join d near { c with color := .black } far := by
  cases d <;> rfl

@[simp] theorem addrs_blackRoot (t : Tree (Cell w)) : addrs (blackRoot t) = addrs t := by
  cases t with
  | nil => rfl
  | node l c r => simp [blackRoot, addrs]

/-- Blackening the root of the tree at the hole. -/
theorem Rep.blacken (h : Rep s (Tree.plug z t)) :
    ∃ s', rbBlacken s (top t) = .ok s' ∧ Rep s' (Tree.plug z (blackRoot t)) := by
  cases t with
  | nil => exact ⟨s, if_neg (not_not.mpr rfl), h⟩
  | node l c r =>
    obtain ⟨s', e, h'⟩ := Rep.setcolor (d := .left) h .black
    exact ⟨s', (if_pos (Rep.ne_zero (d := .left) h)).trans e, h'⟩

/-- A blackened root leaves a balanced tree. -/
theorem balanced_blackRoot {k : Bool} {n : Nat} (h : Balanced Cell.Red k n t) :
    ∃ m, Balanced Cell.Red false m (blackRoot t) := by
  cases h with
  | nil => exact ⟨0, .nil⟩
  | red _ hl hr => exact ⟨_, .black nofun hl.relax hr.relax⟩
  | black _ hl hr => exact ⟨_, .black nofun hl hr⟩

/-- A deficient tree with a red root is repaired by blackening it, and one with a black root
is balanced. -/
theorem deficient_blackRoot {n : Nat} (h : Deficient Cell.Red n t) :
    (rootBlack t = false ∧ Balanced Cell.Red false (n + 1) (blackRoot t)) ∨
      (rootBlack t = true ∧ Balanced Cell.Red false n t) := by
  cases h with
  | black h => exact .inr ⟨rootBlack_of_balanced h, h⟩
  | @red l r a ha hl hr => exact .inl ⟨by simp [rootBlack, ha], .black nofun hl hr⟩

end Recolor

end MacKernel.RedBlack
