import MacKernel.Core.Memory
import MacKernel.Models.RedBlack.Native

/-!
# Red-black trees in memory

A tree of cells, each an address with a colour, is laid out in memory when every
entry holds the addresses of its children and its parent, with the colour in the
low bit of the parent word. Addresses are even, so the parent and the colour are read
back independently. The accessors of the source are evaluated here once, on entries
of this form.
-/

namespace MacKernel.RedBlack

variable {A : Type} {w : Nat}

/-- A node: its address and its colour. -/
structure Cell (w : Nat) where
  addr : BitVec w
  color : Color
  deriving DecidableEq, Repr

/-- Addresses at which a node can be: not null and even. -/
structure Valid (a : BitVec w) : Prop where
  ne_zero : a ≠ 0
  even : a &&& rbColorMask = 0

/-- A parent pointer with the colour in its low bit. -/
def packWord (parent : BitVec w) (c : Color) : BitVec w := parent ||| c.bits

section Word

variable {p : BitVec w} {c : Color}

/-- The colour is in the lowest bit of a parent word. -/
private theorem bits_and_mask (c : Color) : (c.bits : BitVec w) &&& rbColorMask = c.bits := by
  cases c
  · exact BitVec.zero_and
  · exact BitVec.and_self

/-- The parent is read back from the word. -/
theorem packWord_parent (hp : p &&& rbColorMask = 0) :
    packWord p c &&& ~~~rbColorMask = p := by
  ext i hi
  have hbit : (p &&& rbColorMask)[i] = (0 : BitVec w)[i] := by rw [hp]
  have hcol : ((c.bits : BitVec w) &&& rbColorMask)[i] = (c.bits : BitVec w)[i] := by
    rw [bits_and_mask]
  simp only [packWord, BitVec.getElem_and, BitVec.getElem_or, BitVec.getElem_not]
    at hbit hcol ⊢
  cases hm : (rbColorMask : BitVec w)[i] <;> simp_all

/-- The colour is read back from the word. -/
theorem packWord_color (hp : p &&& rbColorMask = 0) :
    packWord p c &&& rbColorMask = c.bits := by
  rw [packWord, BitVec.and_or_distrib_right, hp, bits_and_mask]
  exact BitVec.zero_or

/-- Black is the only colour without a bit, as long as there are addresses. -/
theorem bits_eq_zero {a : BitVec w} (ha : a ≠ 0) : (c.bits : BitVec w) = 0 ↔ c = .black := by
  cases c
  · exact iff_of_true rfl rfl
  · refine iff_of_false (fun h => ha ?_) nofun
    change (1 : BitVec w) = 0 at h
    rw [← BitVec.mul_one a, show (1#w : BitVec w) = 0 from h]
    exact BitVec.mul_zero

/-- Every word is a parent pointer with a colour, whatever the memory holds. -/
theorem exists_packWord (v : BitVec w) :
    ∃ p c, p &&& rbColorMask = 0 ∧ v = packWord p c := by
  have hbit : v &&& rbColorMask = 0 ∨ v &&& rbColorMask = rbColorMask := by
    rcases Nat.eq_zero_or_pos w with rfl | hw
    · exact .inl (BitVec.eq_of_zero_length rfl)
    cases hv : v.getLsbD 0 <;> rw [BitVec.getLsbD_eq_getElem hw] at hv
    · left
      ext i hi
      rcases Nat.eq_zero_or_pos i with rfl | h0
      · simp [hv]
      · simp [rbColorMask, BitVec.getElem_one, h0.ne']
    · right
      ext i hi
      rcases Nat.eq_zero_or_pos i with rfl | h0
      · simp [hv]
      · simp [rbColorMask, BitVec.getElem_one, h0.ne']
  have hsplit : v = (v &&& ~~~rbColorMask) ||| (v &&& rbColorMask) := by
    rw [← BitVec.and_or_distrib_left, BitVec.or_comm, BitVec.or_not_self, BitVec.and_allOnes]
  have heven : (v &&& ~~~rbColorMask) &&& rbColorMask = 0 := by
    rw [BitVec.and_assoc, BitVec.and_comm (~~~rbColorMask), BitVec.and_not_self]
    exact BitVec.and_zero
  rcases hbit with h | h <;> rw [h] at hsplit
  · exact ⟨_, .black, heven, hsplit⟩
  · exact ⟨_, .red, heven, hsplit⟩

end Word

section Access

variable {s : RbHead A w} {a p p' : BitVec w} {c c' : Color}

/-- The head after an assignment to the entry of a node. -/
def RbHead.put (s : RbHead A w) (a : BitVec w) (e : RbEntry w) : RbHead A w :=
  { s with field := Function.update s.field a e }

@[simp] theorem RbHead.put_root (s : RbHead A w) (a : BitVec w) (e : RbEntry w) :
    (s.put a e).root = s.root := rfl

@[simp] theorem RbHead.put_field (s : RbHead A w) (a : BitVec w) (e : RbEntry w) :
    (s.put a e).field = Function.update s.field a e := rfl

@[simp] theorem RbHead.put_aug (s : RbHead A w) (a : BitVec w) (e : RbEntry w) :
    (s.put a e).aug = s.aug := rfl

/-- Of two stores into an entry the later one stays. -/
@[simp] theorem RbHead.put_put (s : RbHead A w) (a : BitVec w) (e e' : RbEntry w) :
    (s.put a e).put a e' = s.put a e' := by
  simp [RbHead.put]

@[simp] theorem rbAugment_root (augment : Augment A w) (s : RbHead A w) (a : BitVec w) :
    (rbAugment augment s a).root = s.root := rfl

@[simp] theorem rbAugment_field (augment : Augment A w) (s : RbHead A w) (a : BitVec w) :
    (rbAugment augment s a).field = s.field := rfl

/-- Updating the fields above an entry leaves the root. -/
@[simp] theorem rbAugmentAbove_root (augment : Augment A w) (s : RbHead A w) (a : BitVec w) :
    (rbAugmentAbove augment s a).root = s.root := by
  unfold rbAugmentAbove
  split_ifs <;> rfl

/-- Updating the fields above an entry leaves the links. -/
@[simp] theorem rbAugmentAbove_field (augment : Augment A w) (s : RbHead A w) (a : BitVec w) :
    (rbAugmentAbove augment s a).field = s.field := by
  unfold rbAugmentAbove
  split_ifs <;> rfl

/-- Only the field of the node itself is refreshed. -/
theorem rbAugmentAbove_aug_of_ne (augment : Augment A w) (s : RbHead A w) {a v : BitVec w}
    (h : v ≠ a) : (rbAugmentAbove augment s a).aug v = s.aug v := by
  unfold rbAugmentAbove
  split_ifs
  · exact Function.update_of_ne h _ _
  · rfl

/-- A read through a pointer that is not null succeeds. -/
theorem RbHead.load_ok (ha : a ≠ 0) : s.load a = .ok (s.field a) := if_neg ha

/-- A change through a pointer that is not null succeeds. -/
theorem RbHead.modify_ok (ha : a ≠ 0) (f : RbEntry w → RbEntry w) :
    s.modify a f = .ok (s.put a (f (s.field a))) := if_neg ha

/-- `RB_LEFT` and `RB_RIGHT` of an element. -/
theorem rbChild_ok (ha : a ≠ 0) (d : Side) : rbChild s d a = .ok ((s.field a).child d) := by
  rw [rbChild, RbHead.load_ok ha]
  rfl

/-- A store into `RB_LEFT` or `RB_RIGHT` of an element. -/
theorem rbSetChild_ok (ha : a ≠ 0) (d : Side) (v : BitVec w) :
    rbSetChild s d a v = .ok (s.put a ((s.field a).setChild d v)) :=
  RbHead.modify_ok ha _

/-- `RB_GETPARENT` takes the colour off the word. -/
theorem rbGetparent_ok (ha : a ≠ 0) (hp : p &&& rbColorMask = 0)
    (h : (s.field a).parent = packWord p c) : rbGetparent s a = .ok p := by
  have hword := packWord_parent (c := c) hp
  simp only [rbGetparent, RbHead.load_ok ha, ok_bind, h, hword]
  split_ifs with h0 h1
  · rw [h1]
    rfl
  · rfl
  · rw [not_not.mp h0] at hword
    rw [← hword]
    exact congrArg Except.ok BitVec.zero_and.symm

/-- `RB_GETCOLOR` takes the pointer off the word. -/
theorem rbGetcolor_ok (ha : a ≠ 0) (hp : p &&& rbColorMask = 0)
    (h : (s.field a).parent = packWord p c) : rbGetcolor s a = .ok c := by
  rw [rbGetcolor, RbHead.load_ok ha, ok_bind, h, packWord_color hp]
  simp only [bits_eq_zero ha]
  cases c <;> rfl

/-- `RB_SETCOLOR` keeps the parent. -/
theorem rbSetcolor_ok (ha : a ≠ 0) (hp : p &&& rbColorMask = 0)
    (h : (s.field a).parent = packWord p c) (c' : Color) :
    rbSetcolor s a c' = .ok (s.put a { s.field a with parent := packWord p c' }) := by
  rw [rbSetcolor, rbGetparent_ok ha hp h, ok_bind, RbHead.modify_ok ha]
  rfl

/-- `RB_SETPARENT` keeps the colour. -/
theorem rbSetparent_ok (ha : a ≠ 0) (hp : p &&& rbColorMask = 0)
    (h : (s.field a).parent = packWord p c) (hp' : p' &&& rbColorMask = 0) :
    rbSetparent s a p' = .ok (s.put a { s.field a with parent := packWord p' c }, p') := by
  rw [rbSetparent, rbGetcolor_ok ha hp h, ok_bind, RbHead.modify_ok ha, ok_bind]
  have hw : packWord p' .black = p' := BitVec.or_zero
  cases c with
  | black =>
    have hget : rbGetparent (s.put a { s.field a with parent := p' }) a = .ok p' :=
      rbGetparent_ok (c := .black) ha hp' (by simp [hw])
    simp only [reduceCtorEq, if_false, pure_bind, hget, ok_bind, hw]
    rfl
  | red =>
    have hset : rbSetcolor (s.put a { s.field a with parent := p' }) a .red =
        .ok (s.put a { s.field a with parent := packWord p' .red }) := by
      rw [rbSetcolor_ok (c := .black) ha hp' (by simp [hw]), RbHead.put_put]
      simp
    have hget : rbGetparent (s.put a { s.field a with parent := packWord p' .red }) a = .ok p' :=
      rbGetparent_ok (c := .red) ha hp' (by simp)
    simp only [if_true, hset, ok_bind, hget]
    rfl

/-- `RB_SET` makes a red leaf of whatever the entry held. -/
theorem rbSet_ok (ha : a ≠ 0) (hp' : p' &&& rbColorMask = 0) :
    rbSet s a p' = .ok (s.put a ⟨0, 0, packWord p' .red⟩) := by
  obtain ⟨p, c, hp, h⟩ := exists_packWord (s.field a).parent
  have hset : ∀ e : RbEntry w, e.parent = packWord p' c →
      rbSetcolor (s.put a e) a .red = .ok (s.put a { e with parent := packWord p' .red }) :=
    fun e he => by
      rw [rbSetcolor_ok (c := c) ha hp' (by simp [he]), RbHead.put_put]
      simp
  rw [rbSet, rbSetparent_ok ha hp h hp', ok_bind]
  simp only [RbHead.modify_ok ha, ok_bind, RbHead.put_put, RbHead.put_field, Function.update_self]
  exact hset _ rfl

end Access

section Frames

variable {s s' : RbHead A w} {a : BitVec w}

/-- A change of an entry leaves the extra fields. -/
theorem RbHead.modify_aug {g : RbEntry w → RbEntry w} (h : s.modify a g = .ok s') :
    s'.aug = s.aug := by
  unfold RbHead.modify at h
  split_ifs at h
  obtain rfl := Except.ok.inj h
  rfl

/-- Colouring leaves the extra fields. -/
theorem rbSetcolor_aug {color : Color} (h : rbSetcolor s a color = .ok s') :
    s'.aug = s.aug := by
  obtain ⟨p, -, h⟩ := bind_eq_ok.mp h
  exact RbHead.modify_aug h

/-- Colouring a pair leaves the extra fields. -/
theorem rbSetBlackred_aug {b : BitVec w} (h : rbSetBlackred s a b = .ok s') :
    s'.aug = s.aug := by
  obtain ⟨s₁, h₁, h₂⟩ := bind_eq_ok.mp h
  exact (rbSetcolor_aug h₂).trans (rbSetcolor_aug h₁)

/-- Blackening leaves the extra fields. -/
theorem rbBlacken_aug (h : rbBlacken s a = .ok s') : s'.aug = s.aug := by
  unfold rbBlacken at h
  split_ifs at h
  · exact rbSetcolor_aug h
  · exact congrArg RbHead.aug (Except.ok.inj h).symm

end Frames

section Sides

variable {d : Side} {near far word a : BitVec w}

/-- An entry given by its child on one side and its child on the other. -/
def RbEntry.ofSides (d : Side) (near far word : BitVec w) : RbEntry w :=
  match d with
  | .left => ⟨near, far, word⟩
  | .right => ⟨far, near, word⟩

/-- The near child is on the side that names it. -/
@[simp] theorem RbEntry.ofSides_child : (ofSides d near far word).child d = near := by
  cases d <;> rfl

/-- The far child is on the other side. -/
@[simp] theorem RbEntry.ofSides_child_opp : (ofSides d near far word).child d.opp = far := by
  cases d <;> rfl

@[simp] theorem RbEntry.ofSides_parent : (ofSides d near far word).parent = word := by
  cases d <;> rfl

/-- A store on the near side changes the near child. -/
@[simp] theorem RbEntry.ofSides_setChild :
    (ofSides d near far word).setChild d a = ofSides d a far word := by
  cases d <;> rfl

/-- A store on the other side changes the far child. -/
@[simp] theorem RbEntry.ofSides_setChild_opp :
    (ofSides d near far word).setChild d.opp a = ofSides d near a word := by
  cases d <;> rfl

/-- A new parent word leaves both children. -/
theorem RbEntry.ofSides_with_parent :
    { ofSides d near far word with parent := a } = ofSides d near far a := by
  cases d <;> rfl

end Sides

section Rep

/-- The pointer to a tree. -/
abbrev top (t : Tree (Cell w)) : BitVec w := t.root Cell.addr 0

@[simp] theorem top_node (l : Tree (Cell w)) (c : Cell w) (r : Tree (Cell w)) :
    top (.node l c r) = c.addr := rfl

/-- The top of a joined tree is its middle cell, whichever side is near. -/
@[simp] theorem top_join (d : Side) (near : Tree (Cell w)) (c : Cell w) (far : Tree (Cell w)) :
    top (.join d near c far) = c.addr := by
  cases d <;> rfl

/-- The pointer to the node around a hole. -/
abbrev above (z : List (Frame (Cell w))) : BitVec w := parentOf Cell.addr 0 z

/-- The entry of a cell in memory. -/
def Links (f : BitVec w → RbEntry w) (c : Cell w) (parent left right : BitVec w) : Prop :=
  f c.addr = ⟨left, right, packWord parent c.color⟩

/-- A tree is laid out in memory below `parent`. -/
abbrev Placed (f : BitVec w → RbEntry w) (parent : BitVec w) (t : Tree (Cell w)) : Prop :=
  Linked Cell.addr 0 (Links f) parent t

/-- The head holds the tree. -/
structure Rep (s : RbHead A w) (t : Tree (Cell w)) : Prop where
  root : s.root = top t
  placed : Placed s.field 0 t
  nodup : (t.toList.map Cell.addr).Nodup
  valid : ∀ c ∈ t.toList, Valid c.addr

variable {s s' : RbHead A w} {f f' : BitVec w → RbEntry w} {t t' near far : Tree (Cell w)}
  {z : List (Frame (Cell w))} {c : Cell w} {d : Side} {parent : BitVec w}

/-- The links of a cell, told by sides instead of left and right. -/
theorem onSide_links {near far : BitVec w} :
    onSide (Links f) d c parent near far ↔
      f c.addr = .ofSides d near far (packWord parent c.color) := by
  cases d <;> exact Iff.rfl

/-- A joined tree is placed if its cell is and both parts are below it. -/
theorem placed_join : Placed f parent (.join d near c far) ↔
    f c.addr = .ofSides d (top near) (top far) (packWord parent c.color) ∧
      Placed f c.addr near ∧ Placed f c.addr far := by
  cases d
  · exact Iff.rfl
  · exact and_congr_right fun _ => and_comm

/-- A tree stays in place when none of its entries changes. -/
theorem Placed.congr (h : Placed f parent t) (hf : ∀ c ∈ t.toList, f' c.addr = f c.addr) :
    Placed f' parent t :=
  Linked.imp (fun c hc _ _ _ hl => by rwa [Links, hf c hc]) h

/-- The addresses of a tree in a context are those of the tree and of the context. -/
theorem addrs_plug_perm (z : List (Frame (Cell w))) (t : Tree (Cell w)) :
    ((Tree.plug z t).toList.map Cell.addr).Perm
      (t.toList.map Cell.addr ++ (Tree.labels z).map Cell.addr) := by
  rw [← List.map_append]
  exact (Tree.toList_plug_perm z t).map _

/-- No two cells of a tree and of what is above it have one address. -/
theorem Rep.addrs_nodup (h : Rep s (Tree.plug z t)) :
    (t.toList.map Cell.addr ++ (Tree.labels z).map Cell.addr).Nodup :=
  (addrs_plug_perm z t).nodup_iff.mp h.nodup

/-- A node of the tree and a node of its context are at different addresses. -/
theorem Rep.addr_ne (h : Rep s (Tree.plug z t)) {b : Cell w} (hc : c ∈ t.toList)
    (hb : b ∈ Tree.labels z) : c.addr ≠ b.addr :=
  (List.nodup_append.mp h.addrs_nodup).2.2 _ (List.mem_map_of_mem hc) _ (List.mem_map_of_mem hb)

/-- The cells of a subtree have addresses that can carry a colour bit. -/
theorem Rep.valid_tree (h : Rep s (Tree.plug z t)) (hc : c ∈ t.toList) : Valid c.addr :=
  h.valid c (Tree.mem_plug.mpr (.inl hc))

/-- The cells above a subtree have addresses that can carry a colour bit. -/
theorem Rep.valid_label (h : Rep s (Tree.plug z t)) (hc : c ∈ Tree.labels z) :
    Valid c.addr :=
  h.valid c (Tree.mem_plug.mpr (.inr hc))

/-- A subtree is placed below the cell that is above it. -/
theorem Rep.placed_tree (h : Rep s (Tree.plug z t)) : Placed s.field (above z) t :=
  ((linked_plug z t).mp h.placed).2

/-- The entry of a node of the tree. -/
theorem Rep.entry (h : Rep s (Tree.plug z (.join d near c far))) :
    s.field c.addr = .ofSides d (top near) (top far) (packWord (above z) c.color) :=
  (placed_join.mp h.placed_tree).1

/-- The parent pointer of a hole is even. -/
theorem Rep.above_even (h : Rep s (Tree.plug z t)) : above z &&& rbColorMask = 0 := by
  cases z with
  | nil => exact BitVec.zero_and
  | cons f z => exact (h.valid_label (by simp [Tree.labels])).even

/-- The middle cell of a joined tree is one of its cells. -/
theorem mem_join : c ∈ (Tree.join d near c far).toList := by
  cases d <;> simp [Tree.join]

/-- The pointer at the hole of a context is set. -/
def RbHead.setHole (s : RbHead A w) (z : List (Frame (Cell w))) (a : BitVec w) : RbHead A w :=
  match z with
  | [] => { s with root := a }
  | f :: _ => s.put f.label.addr ((s.field f.label.addr).setChild f.side a)

@[simp] theorem RbHead.setHole_aug (a : BitVec w) : (s.setHole z a).aug = s.aug := by
  cases z <;> rfl

/-- Filling a hole changes cells above it only. -/
theorem RbHead.setHole_field_of_notMem {a b : BitVec w} (h : ∀ c ∈ Tree.labels z, a ≠ c.addr) :
    (s.setHole z b).field a = s.field a := by
  cases z with
  | nil => rfl
  | cons f z => exact Function.update_of_ne (h f.label (by simp [Tree.labels])) _ _

/-- Another tree is in the hole once it is laid out below the context and the pointer at the
hole leads to it. -/
theorem Rep.refill (h : Rep s (Tree.plug z t))
    (hroot : s'.root = (s.setHole z (top t')).root)
    (hctx : ∀ c ∈ Tree.labels z, s'.field c.addr = (s.setHole z (top t')).field c.addr)
    (hplaced : Placed s'.field (above z) t')
    (hnodup : (t'.toList.map Cell.addr ++ (Tree.labels z).map Cell.addr).Nodup)
    (hvalid : ∀ c ∈ t'.toList, Valid c.addr) : Rep s' (Tree.plug z t') := by
  refine ⟨?_, ?_, (addrs_plug_perm z t').nodup_iff.mpr hnodup, fun c hc => ?_⟩
  · cases z with
    | nil => exact hroot
    | cons f z =>
      rw [hroot]
      refine h.root.trans ?_
      rw [Tree.plug_cons, Tree.plug_cons]
      exact Tree.root_plug_congr (by rw [Tree.root_join, Tree.root_join])
  · cases z with
    | nil => exact hplaced
    | cons f z =>
      have hn := (List.nodup_append.mp h.addrs_nodup).2.1
      rw [Tree.labels, List.cons_append, List.map_cons, List.nodup_cons] at hn
      refine Linked.plug_replace h.placed (fun parent far hl => ?_) (fun c hc _ _ _ hl => ?_)
        hplaced
      · rw [onSide_links] at hl ⊢
        rw [hctx f.label (by simp [Tree.labels]), RbHead.setHole, RbHead.put_field,
          Function.update_self, hl, RbEntry.ofSides_setChild]
      · have hne : c.addr ≠ f.label.addr := fun he => hn.1 (he ▸ List.mem_map_of_mem hc)
        rwa [Links, hctx c (List.mem_cons_of_mem _ hc), RbHead.setHole, RbHead.put_field,
          Function.update_of_ne hne]
  · rcases Tree.mem_plug.mp hc with hc | hc
    · exact hvalid c hc
    · exact h.valid_label hc

/-- A tree with the same root pointer is in the hole once it is laid out below the context
and the context has not changed. -/
theorem Rep.refill_same (h : Rep s (Tree.plug z t)) (htop : top t' = top t)
    (hroot : s'.root = s.root) (hctx : ∀ c ∈ Tree.labels z, s'.field c.addr = s.field c.addr)
    (hplaced : Placed s'.field (above z) t')
    (haddr : t'.toList.map Cell.addr = t.toList.map Cell.addr) : Rep s' (Tree.plug z t') := by
  refine ⟨?_, ?_, ?_, fun c hc => ?_⟩
  · rw [hroot, h.root]
    exact Tree.root_plug_congr htop.symm
  · refine (linked_plug z t').mpr ⟨?_, hplaced⟩
    change LinkedCtx Cell.addr 0 (Links s'.field) (top t') z
    rw [htop]
    exact LinkedCtx.imp (fun c hc _ _ _ hl => by rwa [Links, hctx c hc])
      ((linked_plug z t).mp h.placed).1
  · rw [(addrs_plug_perm z t').nodup_iff, haddr]
    exact h.addrs_nodup
  · rcases Tree.mem_plug.mp hc with hc | hc
    · obtain ⟨b, hb, hbc⟩ := List.mem_map.mp (haddr ▸ List.mem_map_of_mem (f := Cell.addr) hc)
      exact hbc ▸ h.valid_tree hb
    · exact h.valid_label hc

/-- The tree in memory does not depend on the augmented field. -/
theorem Rep.congr (h : Rep s t) (hroot : s'.root = s.root) (hfield : s'.field = s.field) :
    Rep s' t :=
  ⟨hroot.trans h.root, hfield ▸ h.placed, h.nodup, h.valid⟩

/-- `RB_SETCOLOR` on a node of the tree recolours it. -/
theorem Rep.setcolor (h : Rep s (Tree.plug z (.join d near c far))) (color : Color) :
    ∃ s', rbSetcolor s c.addr color = .ok s' ∧
      Rep s' (Tree.plug z (.join d near { c with color := color } far)) := by
  have hentry := h.entry
  have hv := h.valid_tree mem_join
  refine ⟨_, rbSetcolor_ok (c := c.color) hv.ne_zero h.above_even (by simp [hentry]) color,
    h.refill_same (by simp) rfl (fun b hb => ?_) ?_ ?_⟩
  · exact Function.update_of_ne (h.addr_ne mem_join hb).symm _ _
  · have hn := (List.nodup_append.mp h.addrs_nodup).1
    rw [((Tree.toList_join_perm d near c far).map Cell.addr).nodup_iff, List.map_append,
      List.map_cons, List.nodup_append, List.nodup_cons] at hn
    obtain ⟨-, hnear, hfar⟩ := placed_join.mp h.placed_tree
    refine placed_join.mpr ⟨?_, hnear.congr fun b hb => ?_, hfar.congr fun b hb => ?_⟩
    · simp [hentry, RbEntry.ofSides_with_parent]
    · exact Function.update_of_ne (hn.2.2 _ (List.mem_map_of_mem hb) _ (by simp)) _ _
    · refine Function.update_of_ne (fun he => hn.2.1.1 ?_) _ _
      exact he ▸ List.mem_map_of_mem hb
  · cases d <;> simp [Tree.join]

end Rep

end MacKernel.RedBlack
