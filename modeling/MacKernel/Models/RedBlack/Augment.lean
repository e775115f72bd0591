import MacKernel.Core.Augmented
import MacKernel.Models.RedBlack.Focus

/-!
# The augmented field

`RB_AUGMENT` computes the field of a node from the node itself and from the fields of its
children. Recolouring touches no field. A rotation refreshes its two nodes and the node
above them, in an order in which each of them finds the fields of its children right.
-/

namespace MacKernel.RedBlack

variable {A : Type} {w : Nat} {s s' : RbHead A w} {t near far ta tb tc : Tree (Cell w)}
  {z : List (Frame (Cell w))} {c x y : Cell w} {d : Side} {a : BitVec w} {q : Option A}

section Field

/-- The field of a child, if there is one. -/
def childField (s : RbHead A w) (child : BitVec w) : Option A :=
  if child = 0 then none else some (s.aug child)

/-- An `RB_AUGMENT` that computes the field of a node from the node and the fields of its
children. -/
def recompute (f : BitVec w → Option A → Option A → A) : Augment A w := fun s elm =>
  f elm (childField s (s.field elm).left) (childField s (s.field elm).right)

/-- What is computed at a cell does not depend on its colour. -/
def atCell (f : BitVec w → Option A → Option A → A) (c : Cell w) : Option A → Option A → A :=
  f c.addr

/-- The field of a cell in memory. -/
def RbHead.fieldOf (s : RbHead A w) (c : Cell w) : A := s.aug c.addr

variable {f : BitVec w → Option A → Option A → A}

theorem fieldOf_of_aug (h : s'.aug = s.aug) : s'.fieldOf = s.fieldOf := by
  funext c
  rw [RbHead.fieldOf, h, RbHead.fieldOf]

/-- Only the field of the node itself is refreshed. -/
theorem rbAugment_fieldOf {augment : Augment A w} (h : c.addr ≠ a) :
    (rbAugment augment s a).fieldOf c = s.fieldOf c :=
  Function.update_of_ne h _ _

@[simp] theorem value_blackRoot (t : Tree (Cell w)) :
    (blackRoot t).value (atCell f) = t.value (atCell f) := by
  cases t <;> rfl

theorem stores_blackRoot :
    Stores (atCell f) s.fieldOf (blackRoot t) ↔ Stores (atCell f) s.fieldOf t := by
  cases t <;> exact Iff.rfl

/-- The colour of a node does not matter for its field. -/
theorem stores_join_color {color color' : Color} :
    Stores (atCell f) s.fieldOf (.join d near ⟨a, color⟩ far) ↔
      Stores (atCell f) s.fieldOf (.join d near ⟨a, color'⟩ far) := by
  cases d <;> exact Iff.rfl

/-- The field of a child is the value of its tree. -/
theorem childField_top (hv : ∀ c ∈ t.toList, Valid c.addr)
    (h : Stores (atCell f) s.fieldOf t) : childField s (top t) = t.value (atCell f) := by
  cases t with
  | nil => exact if_pos rfl
  | node l c r =>
    have h0 : c.addr ≠ 0 := (hv c (by simp)).ne_zero
    exact (if_neg h0).trans (congrArg some h.1)

/-- A node whose children have the right fields is refreshed to its value. -/
theorem recompute_eq {word : BitVec w}
    (hentry : s.field c.addr = .ofSides d (top near) (top far) word)
    (hv : ∀ b ∈ near.toList ++ far.toList, Valid b.addr)
    (hnear : Stores (atCell f) s.fieldOf near) (hfar : Stores (atCell f) s.fieldOf far) :
    some (recompute f s c.addr) = (Tree.join d near c far).value (atCell f) := by
  have hn := childField_top (fun b hb => hv b (by simp [hb])) hnear
  have hf := childField_top (fun b hb => hv b (by simp [hb])) hfar
  rw [recompute, hentry]
  cases d with
  | left => exact congrArg some (congrArg₂ (f c.addr) hn hf)
  | right => exact congrArg some (congrArg₂ (f c.addr) hf hn)

end Field

section Refresh

variable {f : BitVec w → Option A → Option A → A}

/-- A node with right fields below it is refreshed. -/
theorem Rep.augment_stores (h : Rep s (Tree.plug z (.join d near c far)))
    (hnear : Stores (atCell f) s.fieldOf near) (hfar : Stores (atCell f) s.fieldOf far) :
    Stores (atCell f) (rbAugment (recompute f) s c.addr).fieldOf (.join d near c far) := by
  have hperm := Tree.toList_join_perm d near c far
  have hmem : ∀ {b}, b ∈ near.toList ++ far.toList → b ∈ (Tree.join d near c far).toList := by
    intro b hb
    rw [hperm.mem_iff]
    simp only [List.mem_append, List.mem_cons] at hb ⊢
    tauto
  have hn := (List.nodup_append.mp h.addrs_nodup).1
  rw [(hperm.map Cell.addr).nodup_iff, List.map_append, List.map_cons,
    List.nodup_middle, List.nodup_cons, ← List.map_append] at hn
  have hframe : ∀ b ∈ near.toList ++ far.toList,
      (rbAugment (recompute f) s c.addr).fieldOf b = s.fieldOf b := fun b hb =>
    rbAugment_fieldOf fun he => hn.1 (he ▸ List.mem_map_of_mem hb)
  refine stores_join.mpr ⟨?_, hnear.congr fun b hb => hframe b (by simp [hb]),
    hfar.congr fun b hb => hframe b (by simp [hb])⟩
  rw [← recompute_eq h.entry (fun b hb => h.valid_tree (hmem hb)) hnear hfar]
  exact congrArg some (Function.update_self _ _ _)

/-- The node above a tree with right fields is refreshed, if there is one. -/
theorem Rep.augmentAbove_stores (h : Rep s (Tree.plug z t))
    (ht : Stores (atCell f) s.fieldOf t) (hz : StoresBeyond (atCell f) s.fieldOf q z) :
    Stores (atCell f) (rbAugmentAbove (recompute f) s (above z)).fieldOf t ∧
      Renewed (atCell f) (rbAugmentAbove (recompute f) s (above z)).fieldOf q
        (t.value (atCell f)) z := by
  cases z with
  | nil =>
    have e : rbAugmentAbove (recompute f) s (above []) = s := if_neg (not_not.mpr rfl)
    rw [e]
    exact ⟨ht, trivial⟩
  | cons fr z =>
    have h0 : above (fr :: z) ≠ 0 := (h.valid_label (by simp [Tree.labels])).ne_zero
    have e : rbAugmentAbove (recompute f) s (above (fr :: z)) =
        rbAugment (recompute f) s fr.label.addr := if_pos h0
    obtain ⟨hsib, hctx⟩ := hz
    obtain ⟨hlabel, ht, hsib⟩ := stores_join.mp (Rep.augment_stores (z := z) h ht hsib)
    rw [Tree.value_join] at hlabel
    rw [e]
    refine ⟨ht, hlabel, hsib, hctx.congr fun b hb => rbAugment_fieldOf ?_⟩
    exact (Rep.addr_ne (z := z) h mem_join hb).symm

/-- A rotation of a tree with right fields below its two nodes leaves a tree with right
fields and refreshes the node above. -/
theorem Rep.rotate_stores (h : Rep s (Tree.plug z (.join d ta x (.join d tb y tc))))
    (ha : Stores (atCell f) s.fieldOf ta) (hb : Stores (atCell f) s.fieldOf tb)
    (hc : Stores (atCell f) s.fieldOf tc) (hz : StoresBeyond (atCell f) s.fieldOf q z)
    (e : rbRotate (recompute f) d s x.addr = .ok (s', a)) :
    Stores (atCell f) s'.fieldOf (.join d (.join d ta x tb) y tc) ∧
      Renewed (atCell f) s'.fieldOf q
        ((Tree.join d (.join d ta x tb) y tc).value (atCell f)) z := by
  obtain ⟨s₁, s₂, haug₁, hentry, haug₂, hrep, e'⟩ := h.rotate_states (recompute f)
  obtain ⟨rfl, -⟩ := Prod.mk.inj (Except.ok.inj (e.symm.trans e'))
  have hap := h.apart
  have hfield₁ := fieldOf_of_aug haug₁
  have hfield₂ := fieldOf_of_aug haug₂
  have hx : some (s₂.fieldOf x) = (Tree.join d ta x tb).value (atCell f) := by
    have hx₁ := recompute_eq (f := f) hentry (fun b hb => h.valid_pivot b (by
      simp only [List.mem_append, List.mem_cons] at hb ⊢
      tauto)) (hfield₁ ▸ ha) (hfield₁ ▸ hb)
    rw [← hx₁, hfield₂]
    exact congrArg some (Function.update_self _ _ _)
  have hframe : ∀ b : Cell w, b.addr ≠ x.addr → s₂.fieldOf b = s.fieldOf b := by
    intro b hb
    rw [hfield₂, ← hfield₁]
    exact rbAugment_fieldOf hb
  have hlow : Stores (atCell f) s₂.fieldOf (.join d ta x tb) :=
    stores_join.mpr ⟨hx, ha.congr fun b hb => hframe b (hap.upper b (by simp [hb])),
      hb.congr fun b hb => hframe b (hap.upper b (by simp [hb]))⟩
  have hc₂ : Stores (atCell f) s₂.fieldOf tc :=
    hc.congr fun b hb => hframe b (hap.upper b (by simp [hb]))
  have hz₂ : StoresBeyond (atCell f) (rbAugment (recompute f) s₂ y.addr).fieldOf q z := by
    refine hz.congr fun b hb => ?_
    have hxy := fun c hc => (h.pivot_ne_label c hc b hb).symm
    rw [rbAugment_fieldOf (hxy y (by simp)), hframe b (hxy x (by simp))]
  exact Rep.augmentAbove_stores (hrep.congr rfl rfl) (hrep.augment_stores hlow hc₂) hz₂

/-- The walk to the root refreshes every node on its way from below. -/
theorem Rep.augmentUp_stores (h : Rep s (Tree.plug z t)) (hctx : z ≠ [])
    (ht : Stores (atCell f) s.fieldOf t) (hs : StoresSiblings (atCell f) s.fieldOf z)
    (e : loop (rbAugmentUpBody (recompute f)) (walkFuel w) (s, above z) = .ok s') :
    Stores (atCell f) s'.fieldOf (Tree.plug z t) := by
  suffices hloop : ∃ s', loop (rbAugmentUpBody (recompute f)) (walkFuel w) (s, above z) = .ok s' ∧
      Stores (atCell f) s'.fieldOf (Tree.plug z t) by
    obtain ⟨s'', e', hstores⟩ := hloop
    obtain rfl := Except.ok.inj (e.symm.trans e')
    exact hstores
  refine loop_spec (fun bound (p : RbHead A w × BitVec w) =>
      ∃ z' u, z' ≠ [] ∧ z'.length = bound ∧ p.2 = above z' ∧ Tree.plug z t = Tree.plug z' u ∧
        Rep p.1 (Tree.plug z' u) ∧ Stores (atCell f) p.1.fieldOf u ∧
        StoresSiblings (atCell f) p.1.fieldOf z')
    (fun s' : RbHead A w => Stores (atCell f) s'.fieldOf (Tree.plug z t)) ?_
    ⟨z, t, hctx, rfl, rfl, rfl, h, ht, hs⟩ (by have := h.length_lt; omega)
  rintro bound ⟨s₁, v⟩ ⟨z', u, hne, rfl, rfl, hplug, hrep, hu, hsib⟩
  obtain ⟨fr, z', rfl⟩ := List.exists_cons_of_ne_nil hne
  have hjoin := Rep.augment_stores (z := z') hrep hu (hsib fr List.mem_cons_self)
  have hrep' : Rep (rbAugment (recompute f) s₁ (above (fr :: z')))
      (Tree.plug z' (.join fr.side u fr.label fr.sibling)) := hrep.congr rfl rfl
  have e₁ : rbGetparent (rbAugment (recompute f) s₁ (above (fr :: z'))) (above (fr :: z')) =
      .ok (above z') := hrep'.getparent
  simp only [rbAugmentUpBody, e₁, ok_bind]
  rw [hplug]
  cases z' with
  | nil => exact .inr ⟨_, if_neg (not_not.mpr rfl), hjoin⟩
  | cons g z' =>
    refine .inl ⟨_, z'.length + 1, by simp, if_pos ?_, g :: z', _, List.cons_ne_nil _ _, rfl, rfl,
      rfl, hrep', hjoin, ?_⟩
    · exact (hrep'.valid_label (by simp [Tree.labels])).ne_zero
    · have hsib' : StoresSiblings (atCell f) s₁.fieldOf (g :: z') := fun fr' hfr' =>
        hsib fr' (List.mem_cons_of_mem _ hfr')
      refine hsib'.congr fun fr' hfr' b hb => rbAugment_fieldOf ?_
      exact (hrep'.addr_ne mem_join (Tree.mem_labels_of_mem_sibling hfr' hb)).symm

end Refresh

end MacKernel.RedBlack
