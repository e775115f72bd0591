import MacKernel.Models.SplayTree.Native

/-!
# Trees and side trees in memory

A side tree of a splay is a spine that hangs off the node on the stack: its nodes follow
one side, each with a subtree on the other, and the child of the last node on that side is
still to be set. A spine is a context that stays on one side, and setting that child fills
its hole.
-/

namespace MacKernel.SplayTree

open MacKernel.Tree

variable {E : Type} {c c' : Links E} {d d' : Side} {t u near far : Tree E} {a b : E}
variable {ctx ctx' : List (Frame E)} {x y : Slot E} {v : Option E}

/-- The pointer to a tree. -/
abbrev top (t : Tree E) : Option E := t.root some none

/-- Every node of the tree has the children of the tree. -/
def Laid (c : Links E) : Tree E → Prop
  | .nil => True
  | .node l a r => c .left (.elm a) = top l ∧ c .right (.elm a) = top r ∧
      Laid c l ∧ Laid c r

section Trees

/-- A joined tree is laid out if its top is and both parts are. -/
theorem laid_join : Laid c (join d near a far) ↔ c d (.elm a) = top near ∧
    c d.opp (.elm a) = top far ∧ Laid c near ∧ Laid c far := by
  cases d with
  | left => exact Iff.rfl
  | right =>
    simp only [join, Laid, Side.opp]
    tauto

/-- A tree depends on the links of its elements only. -/
theorem Laid.frame (h : Laid c t)
    (hc : ∀ a ∈ t.toList, ∀ d, c' d (.elm a) = c d (.elm a)) : Laid c' t := by
  induction t with
  | nil => trivial
  | node l a r ihl ihr =>
    simp only [toList_node, List.mem_append, List.mem_cons] at hc
    obtain ⟨hleft, hright, hl, hr⟩ := h
    refine ⟨?_, ?_, ihl hl ?_, ihr hr ?_⟩
    · rw [hc a (.inr (.inl rfl)), hleft]
    · rw [hc a (.inr (.inl rfl)), hright]
    · exact fun b hb => hc b (.inl hb)
    · exact fun b hb => hc b (.inr (.inr hb))

/-- A tree that is not empty, read from a side. -/
theorem exists_join (d : Side) (h : t ≠ .nil) : ∃ near a far, t = join d near a far := by
  cases t with
  | nil => exact absurd rfl h
  | node l a r =>
    cases d with
    | left => exact ⟨l, a, r, rfl⟩
    | right => exact ⟨r, a, l, rfl⟩

@[simp] theorem top_join (d : Side) (near : Tree E) (a : E) (far : Tree E) :
    top (join d near a far) = some a :=
  root_join ..

/-- Only the empty tree has no top. -/
theorem top_eq_none : top t = none ↔ t = .nil := by
  cases t <;> simp

/-- The nodes of a rotated tree. -/
theorem rotate_perm (d : Side) (near : Tree E) (b : E) (far' : Tree E) (a : E) (far : Tree E) :
    (join d (join d near b far') a far).toList.Perm
      ((near.toList ++ b :: far'.toList) ++ a :: far.toList) :=
  (toList_join_perm _ _ _ _).trans ((toList_join_perm _ _ _ _).append_right _)

end Trees

section Stores

variable [DecidableEq E]

@[simp] theorem set_self (c : Links E) (d : Side) (x : Slot E) (v : Option E) :
    c.set d x v d x = v := by
  simp [Links.set]

/-- A store leaves the links of the other side. -/
theorem set_of_ne_side (h : d' ≠ d) : c.set d x v d' = c d' :=
  Function.update_of_ne h ..

/-- A store leaves the links of other slots. -/
theorem set_of_ne (h : y ≠ x) (d' : Side) : c.set d x v d' y = c d' y := by
  by_cases hd : d' = d
  · subst hd
    simp [Links.set, Function.update_of_ne h]
  · rw [set_of_ne_side hd]

/-- A store outside of a tree leaves it. -/
theorem Laid.set (h : Laid c t) (hx : ∀ a ∈ t.toList, x ≠ .elm a) : Laid (c.set d x v) t :=
  h.frame fun a ha d' => set_of_ne (hx a ha).symm d'

/-- A new root above two trees. -/
theorem Laid.set_join (hnear : Laid c near) (hfar : Laid c far) (hn : a ∉ near.toList)
    (hf : a ∉ far.toList) :
    Laid ((c.set d (.elm a) (top near)).set d.opp (.elm a) (top far)) (join d near a far) := by
  have hout : ∀ {u : Tree E}, a ∉ u.toList → ∀ e ∈ u.toList, (.elm a : Slot E) ≠ .elm e :=
    fun hu e he heq => hu (Slot.elm.inj heq ▸ he)
  apply laid_join.mpr
  refine ⟨?_, set_self _ _ _ _, ?_, ?_⟩
  · rw [set_of_ne_side (Side.opp_ne d).symm, set_self]
  · exact (hnear.set (hout hn)).set (hout hn)
  · exact (hfar.set (hout hf)).set (hout hf)

/-- The root gets another child on the side. -/
theorem Laid.graft (h : Laid c (join d near a far)) (hu : Laid c u) (ha : a ∉ u.toList)
    (hf : a ∉ far.toList) : Laid (c.set d (.elm a) (top u)) (join d u a far) := by
  obtain ⟨-, hfar, -, hlfar⟩ := laid_join.mp h
  apply laid_join.mpr
  refine ⟨set_self _ _ _ _, ?_, ?_, ?_⟩
  · rw [set_of_ne_side (Side.opp_ne d), hfar]
  · exact hu.set fun e he heq => ha (Slot.elm.inj heq ▸ he)
  · exact hlfar.set fun e he heq => hf (Slot.elm.inj heq ▸ he)

/-- The child on the side becomes the root. -/
theorem Laid.rotate {far' : Tree E} (h : Laid c (join d (join d near b far') a far))
    (hnodup : (join d (join d near b far') a far).toList.Nodup) :
    Laid ((c.set d (.elm a) (c d.opp (.elm b))).set d.opp (.elm b) (some a))
      (join d near b (join d far' a far)) := by
  rw [(rotate_perm _ _ _ _ _ _).nodup_iff] at hnodup
  obtain ⟨-, hfar, hinner, hlfar⟩ := laid_join.mp h
  obtain ⟨hnear, hfar', hlnear, hlfar'⟩ := laid_join.mp hinner
  have hab : a ≠ b := by
    rintro rfl
    simp [List.nodup_append] at hnodup
  have hslot : (.elm a : Slot E) ≠ .elm b := fun heq => hab (Slot.elm.inj heq)
  have hdisjoint : ∀ e, e ∈ near.toList ∨ e ∈ far'.toList ∨ e ∈ far.toList → e ≠ a ∧ e ≠ b := by
    intro e he
    simp only [List.nodup_append, List.nodup_cons, List.mem_append, List.mem_cons] at hnodup
    grind
  have hout : ∀ {u : Tree E} {v : Option E}, (∀ e ∈ u.toList, e ≠ a ∧ e ≠ b) → Laid c u →
      Laid ((c.set d (.elm a) v).set d.opp (.elm b) (some a)) u := by
    intro u v hu hlaid
    apply Laid.set _ fun e he heq => (hu e he).2 (Slot.elm.inj heq).symm
    exact hlaid.set fun e he heq => (hu e he).1 (Slot.elm.inj heq).symm
  apply laid_join.mpr
  refine ⟨?_, ?_, hout (fun e he => hdisjoint e (.inl he)) hlnear, ?_⟩
  · rw [set_of_ne_side (Side.opp_ne d).symm, set_of_ne hslot.symm, hnear]
  · rw [set_self, top_join]
  · apply laid_join.mpr
    refine ⟨?_, ?_, hout (fun e he => hdisjoint e (.inr (.inl he))) hlfar',
      hout (fun e he => hdisjoint e (.inr (.inr he))) hlfar⟩
    · rw [set_of_ne hslot, set_self, hfar']
    · rw [set_of_ne hslot, set_of_ne_side (Side.opp_ne d), hfar]

/-- A new root takes the child of the old one on the side, and the old root for the other. -/
theorem Laid.put {e : E} (h : Laid c (join d near a far))
    (hnodup : (join d near a far).toList.Nodup) (he : e ∉ (join d near a far).toList) :
    Laid (((c.set d (.elm e) (c d (.elm a))).set d.opp (.elm e) (some a)).set d (.elm a) none)
      (join d near e (join d .nil a far)) := by
  have hperm := toList_join_perm d near a far
  rw [hperm.nodup_iff] at hnodup
  rw [hperm.mem_iff, List.mem_append, List.mem_cons, not_or, not_or] at he
  obtain ⟨henear, hea, hefar⟩ := he
  obtain ⟨-, hright, hcross⟩ := List.nodup_append.mp hnodup
  have hanear : a ∉ near.toList := fun hmem => hcross a hmem a List.mem_cons_self rfl
  have hafar : a ∉ far.toList := (List.nodup_cons.mp hright).1
  obtain ⟨hnear, hfar, hlnear, hlfar⟩ := laid_join.mp h
  have hslot : (.elm e : Slot E) ≠ .elm a := fun heq => hea (Slot.elm.inj heq)
  have hout : ∀ {b : E} {u : Tree E}, b ∉ u.toList → ∀ x ∈ u.toList, (.elm b : Slot E) ≠ .elm x :=
    fun hu x hx heq => hu (Slot.elm.inj heq ▸ hx)
  have hframe : ∀ {u : Tree E} {v w z : Option E}, e ∉ u.toList → a ∉ u.toList → Laid c u →
      Laid (((c.set d (.elm e) v).set d.opp (.elm e) w).set d (.elm a) z) u := by
    intro u v w z hue hua hlaid
    exact ((hlaid.set (hout hue)).set (hout hue)).set (hout hua)
  apply laid_join.mpr
  refine ⟨?_, ?_, hframe henear hanear hlnear, laid_join.mpr ⟨?_, ?_, trivial, ?_⟩⟩
  · rw [set_of_ne hslot, set_of_ne_side (Side.opp_ne d).symm, set_self, hnear]
  · rw [set_of_ne hslot, set_self, top_join]
  · exact set_self _ _ _ _
  · rw [set_of_ne_side (Side.opp_ne d), set_of_ne hslot.symm, set_of_ne hslot.symm, hfar]
  · exact hframe hefar hafar hlfar

end Stores

section Spines

/-- The last node of a side tree. -/
def tipOf : List (Frame E) → Slot E
  | [] => .node
  | f :: _ => .elm f.label

/-- A side tree that hangs off the node on the stack, last node first. -/
def Spine (c : Links E) (d : Side) : List (Frame E) → Prop
  | [] => True
  | f :: ctx => f.side = d ∧ c d (tipOf ctx) = some f.label ∧
      c d.opp (.elm f.label) = top f.sibling ∧ Laid c f.sibling ∧ Spine c d ctx

/-- A spine goes to one side all the way. -/
theorem Spine.side (h : Spine c d ctx) : ∀ f ∈ ctx, f.side = d := by
  induction ctx with
  | nil =>
    intro f hf
    cases hf
  | cons g ctx ih =>
    intro f hf
    rcases List.mem_cons.mp hf with rfl | hf
    · exact h.1
    · exact ih h.2.2.2.2 f hf

/-- The tip of a spine is the sentinel or one of its elements. -/
theorem tipOf_eq (ctx : List (Frame E)) :
    tipOf ctx = .node ∨ ∃ e ∈ labels ctx, tipOf ctx = .elm e := by
  cases ctx with
  | nil => exact .inl rfl
  | cons f ctx => exact .inr ⟨f.label, by simp [labels], rfl⟩

/-- The tip of a spine is not an element elsewhere. -/
theorem tipOf_ne (h : a ∉ labels ctx) : tipOf ctx ≠ .elm a := by
  intro heq
  rcases tipOf_eq ctx with hnode | ⟨e, he, htip⟩
  · rw [hnode] at heq
    cases heq
  · rw [htip] at heq
    exact h (Slot.elm.inj heq ▸ he)

/-- A spine depends on the sentinel and on its own links only. -/
theorem Spine.frame (h : Spine c d ctx) (hnode : c' d .node = c d .node)
    (hc : ∀ a ∈ labels ctx, ∀ d, c' d (.elm a) = c d (.elm a)) : Spine c' d ctx := by
  induction ctx with
  | nil => trivial
  | cons f ctx ih =>
    obtain ⟨hside, hchild, hsib, hlaid, hrest⟩ := h
    simp only [labels, List.cons_append, List.mem_cons, List.mem_append] at hc
    refine ⟨hside, ?_, ?_, ?_, ?_⟩
    · rcases tipOf_eq ctx with htip | ⟨e, he, htip⟩
      · rw [htip] at hchild ⊢
        rw [hnode, hchild]
      · rw [htip] at hchild ⊢
        rw [hc e (.inr (.inr he)), hchild]
    · rw [hc f.label (.inl rfl), hsib]
    · exact hlaid.frame fun a ha => hc a (.inr (.inl ha))
    · exact ih hrest fun a ha => hc a (.inr (.inr ha))

/-- Filling the hole of a side tree. -/
theorem Spine.plug (h : Spine c d ctx) (htip : c d (tipOf ctx) = top u) (hu : Laid c u) :
    Laid c (Tree.plug ctx u) ∧ c d .node = top (Tree.plug ctx u) := by
  induction ctx generalizing u with
  | nil => exact ⟨hu, htip⟩
  | cons f ctx ih =>
    obtain ⟨rfl, hchild, hsib, hlaid, hrest⟩ := h
    rw [plug_cons]
    apply ih hrest
    · rw [hchild]
      exact (top_join _ _ _ _).symm
    · exact laid_join.mpr ⟨htip, hsib, hu, hlaid⟩

variable [DecidableEq E]

/-- A store to a node elsewhere leaves a side tree. -/
theorem Spine.set (h : Spine c d ctx) (hx : ∀ a ∈ labels ctx, x ≠ .elm a)
    (hd : d' ≠ d ∨ x ≠ .node) : Spine (c.set d' x v) d ctx := by
  apply h.frame
  · rcases hd with hd | hnode
    · rw [set_of_ne_side hd.symm]
    · exact set_of_ne hnode.symm d
  · exact fun a ha d' => set_of_ne (hx a ha).symm d'

/-- A store to the hole of a side tree leaves its nodes. -/
theorem Spine.set_tip (h : Spine c d ctx) (hnodup : (labels ctx).Nodup) :
    Spine (c.set d (tipOf ctx) v) d ctx := by
  cases ctx with
  | nil => trivial
  | cons f ctx =>
    obtain ⟨hside, hchild, hsib, hlaid, hrest⟩ := h
    rw [labels, List.cons_append, List.nodup_cons, List.mem_append, not_or] at hnodup
    obtain ⟨⟨hfsib, hfctx⟩, -⟩ := hnodup
    refine ⟨hside, ?_, ?_, ?_, ?_⟩
    · rw [tipOf, set_of_ne (tipOf_ne hfctx), hchild]
    · rw [set_of_ne_side (Side.opp_ne d), hsib]
    · exact hlaid.set fun a ha heq => hfsib (Slot.elm.inj heq ▸ ha)
    · exact hrest.set (fun a ha heq => hfctx (Slot.elm.inj heq ▸ ha)) (.inr (by simp [tipOf]))

end Spines

end MacKernel.SplayTree
