import MacKernel.Models.SplayTree.Layout

/-!
# The three parts of a splay

While a splay runs, the elements are in the tree that is left and in the two side trees.
Rotating the root and linking it to a side tree keep the parts and the order of their
elements, and at the end they are put together as one tree.
-/

namespace MacKernel.SplayTree

open MacKernel.Tree

variable {E : Type}

/-- The tree that is left and the side trees, with all elements in order. The side tree of
`__right` stays on the left and comes after the tree, that of `__left` comes before it. -/
structure Parts (start : SplayHead E) (members : List E) (l : SplayLoop E)
    (ctx : Side → List (Frame E)) (t : Tree E) : Prop where
  root : l.head.root = top t
  laid : Laid l.head.child t
  spine : ∀ d, Spine l.head.child d (ctx d)
  tip : ∀ d, l.tip d = tipOf (ctx d)
  order : before (ctx .right) ++ t.toList ++ after (ctx .left) = members
  /-- No other element was touched. -/
  frame : ∀ e ∉ members, ∀ d, l.head.child d (.elm e) = start.child d (.elm e)

variable {start : SplayHead E} {members : List E} {l : SplayLoop E} {ctx : Side → List (Frame E)}
variable {t near near' far far' : Tree E} {a b e : E} {d : Side}

section Distinct

/-- The three parts together have all members. -/
theorem Parts.perm (h : Parts start members l ctx t) :
    (labels (ctx .right) ++ t.toList ++ labels (ctx .left)).Perm members := by
  rw [← h.order]
  have hright := labels_perm_before (h.spine .right).side
  exact (hright.append_right _).append (labels_perm_after (h.spine .left).side)

/-- What is in the middle is a member. -/
theorem Parts.mem_of_tree (h : Parts start members l ctx t) (he : e ∈ t.toList) : e ∈ members := by
  rw [← h.perm.mem_iff]
  simp [he]

/-- What is on a side is a member. -/
theorem Parts.mem_of_labels (h : Parts start members l ctx t) (he : e ∈ labels (ctx d)) :
    e ∈ members := by
  rw [← h.perm.mem_iff]
  cases d <;> simp [he]

/-- The middle has every element once. -/
theorem Parts.tree_nodup (h : Parts start members l ctx t) (hm : members.Nodup) :
    t.toList.Nodup :=
  (List.nodup_append.mp (List.nodup_append.mp (h.perm.nodup_iff.mpr hm)).1).2.1

/-- A side has every element once. -/
theorem Parts.labels_nodup (h : Parts start members l ctx t) (hm : members.Nodup) (d : Side) :
    (labels (ctx d)).Nodup := by
  have hall := List.nodup_append.mp (h.perm.nodup_iff.mpr hm)
  cases d with
  | left => exact hall.2.1
  | right => exact (List.nodup_append.mp hall.1).1

/-- The tree and the side trees share no element. -/
theorem Parts.not_mem_labels (h : Parts start members l ctx t) (hm : members.Nodup)
    (he : e ∈ t.toList) (d : Side) : e ∉ labels (ctx d) := by
  have hall := List.nodup_append.mp (h.perm.nodup_iff.mpr hm)
  intro hmem
  cases d with
  | left => exact hall.2.2 e (List.mem_append_right _ he) e hmem rfl
  | right => exact (List.nodup_append.mp hall.1).2.2 e hmem e he rfl

/-- No element is on both sides. -/
theorem Parts.not_mem_opp (h : Parts start members l ctx t) (hm : members.Nodup)
    (he : e ∈ labels (ctx d)) : e ∉ labels (ctx d.opp) := by
  have hall := List.nodup_append.mp (h.perm.nodup_iff.mpr hm)
  intro hmem
  cases d with
  | left => exact hall.2.2 e (List.mem_append_left _ hmem) e he rfl
  | right => exact hall.2.2 e (List.mem_append_left _ he) e hmem rfl

end Distinct

variable [DecidableEq E]

/-- Before the first pass there are no side trees. -/
theorem parts_start {s : SplayHead E} (hroot : s.root = top t) (hlaid : Laid s.child t) :
    Parts s t.toList (splayStart s) (fun _ => []) t where
  root := hroot
  laid := (hlaid.set (by simp)).set (by simp)
  spine _ := trivial
  tip d := by cases d <;> rfl
  order := by simp [before, after]
  frame e he d := by
    exact (set_of_ne (by simp) d).trans (set_of_ne (by simp) d)

section Rotation

omit [DecidableEq E] in
/-- The head names the top of the middle. -/
theorem Parts.root_eq (h : Parts start members l ctx (join d near a far)) :
    l.head.root = some a := by
  rw [h.root, top_join]

/-- A rotation makes two links and moves the root. -/
theorem splayRotate_eq {s : SplayHead E} (hroot : s.root = some a) :
    splayRotate d s b = .ok ⟨some b,
      (s.child.set d (.elm a) (s.child d.opp (.elm b))).set d.opp (.elm b) (some a)⟩ := by
  simp only [splayRotate, hroot, deref_some, ok_bind, SplayHead.setChild]
  rfl

/-- A rotation keeps the parts. -/
theorem Parts.rotate (h : Parts start members l ctx (join d (join d near b far') a far))
    (hm : members.Nodup) : ∃ s, splayRotate d l.head b = .ok s ∧
      Parts start members { l with head := s } ctx (join d near b (join d far' a far)) := by
  have hperm := rotate_perm d near b far' a far
  have hamem : a ∈ (join d (join d near b far') a far).toList := hperm.mem_iff.mpr (by simp)
  have hbmem : b ∈ (join d (join d near b far') a far).toList := hperm.mem_iff.mpr (by simp)
  refine ⟨_, splayRotate_eq h.root_eq, ?_⟩
  constructor
  case root => exact (top_join _ _ _ _).symm
  case laid => exact h.laid.rotate (h.tree_nodup hm)
  case spine =>
    intro d'
    have hout : ∀ {c}, c ∈ (join d (join d near b far') a far).toList →
        ∀ e ∈ labels (ctx d'), (.elm c : Slot E) ≠ .elm e := by
      intro c hc e he heq
      exact h.not_mem_labels hm hc d' (Slot.elm.inj heq ▸ he)
    exact ((h.spine d').set (hout hamem) (.inr (by simp))).set (hout hbmem) (.inr (by simp))
  case tip => exact h.tip
  case order =>
    rw [← h.order]
    cases d <;> simp [join]
  case frame =>
    intro e he d'
    have hout : ∀ {c}, c ∈ (join d (join d near b far') a far).toList →
        (.elm e : Slot E) ≠ .elm c := by
      intro c hc heq
      exact he (Slot.elm.inj heq ▸ h.mem_of_tree hc)
    rw [← h.frame e he d']
    exact (set_of_ne (hout hbmem) d').trans (set_of_ne (hout hamem) d')

end Rotation

section Linking

/-- `SPLAY_LINKLEFT` and `SPLAY_LINKRIGHT` make one link and move the root. -/
theorem splayLink_eq (hroot : l.head.root = some a) (htip : l.tip d ≠ .elm a) :
    splayLink d l = .ok { l.setTip d (.elm a) with
      head := ⟨l.head.child d (.elm a), l.head.child.set d (l.tip d) (some a)⟩ } := by
  have hchild : l.head.child.set d (l.tip d) (some a) d (.elm a) = l.head.child d (.elm a) :=
    set_of_ne htip.symm d
  simp only [splayLink, SplayHead.setChild, hroot, deref_some, ok_bind, hchild]
  rfl

/-- The root goes to a side tree, with its child on the other side. -/
theorem Parts.link (h : Parts start members l ctx (join d near a far)) (hm : members.Nodup) :
    ∃ l', splayLink d l = .ok l' ∧
      Parts start members l' (Function.update ctx d (⟨d, a, far⟩ :: ctx d)) near := by
  have hperm := toList_join_perm d near a far
  have hamem : a ∈ (join d near a far).toList := hperm.mem_iff.mpr (by simp)
  obtain ⟨hnear, hfar, hlnear, hlfar⟩ := laid_join.mp h.laid
  have htip : ∀ e ∈ (join d near a far).toList, tipOf (ctx d) ≠ .elm e :=
    fun e he => tipOf_ne (h.not_mem_labels hm he d)
  have htip_a : l.tip d ≠ .elm a := by
    rw [h.tip d]
    exact htip a hamem
  refine ⟨_, splayLink_eq h.root_eq htip_a, ?_⟩
  rw [h.tip d]
  constructor
  case root => exact hnear
  case laid =>
    apply hlnear.set
    exact fun e he => htip e (hperm.mem_iff.mpr (List.mem_append_left _ he))
  case spine =>
    intro d'
    by_cases hd : d' = d
    · subst hd
      rw [Function.update_self]
      refine ⟨rfl, set_self _ _ _ _, ?_, ?_, ?_⟩
      · exact (congrFun (set_of_ne_side (Side.opp_ne d')) _).trans hfar
      · apply hlfar.set
        exact fun e he => htip e (hperm.mem_iff.mpr (by simp [he]))
      · exact (h.spine d').set_tip (h.labels_nodup hm d')
    · rw [Function.update_of_ne hd]
      apply (h.spine d').set _ (.inl (Ne.symm hd))
      intro e he
      apply tipOf_ne
      obtain rfl : d = d'.opp := by cases d <;> cases d' <;> simp_all [Side.opp]
      exact h.not_mem_opp hm he
  case tip =>
    intro d'
    by_cases hd : d' = d
    · subst hd
      rw [Function.update_self]
      cases d' <;> rfl
    · rw [Function.update_of_ne hd, ← h.tip d']
      cases d <;> cases d' <;> first | rfl | exact absurd rfl hd
  case order =>
    rw [← h.order]
    cases d <;> simp [join, before, after]
  case frame =>
    intro e he d'
    rw [← h.frame e he d']
    apply set_of_ne
    exact (tipOf_ne fun hmem => he (h.mem_of_labels hmem)).symm

end Linking

section Assembly

variable {left right : Tree E}

/-- Fill the holes of the side trees. -/
def fill (c : Links E) (ctx : Side → List (Frame E)) (left right : Tree E) : Links E :=
  (c.set .right (tipOf (ctx .right)) (top left)).set .left (tipOf (ctx .left)) (top right)

/-- The node on the stack then has the side trees for its children, with the sides exchanged. -/
theorem Parts.fill (h : Parts start members l ctx (.node left a right)) (hm : members.Nodup) :
    (Laid (SplayTree.fill l.head.child ctx left right) (plug (ctx .right) left) ∧
      SplayTree.fill l.head.child ctx left right .right .node = top (plug (ctx .right) left)) ∧
    Laid (SplayTree.fill l.head.child ctx left right) (plug (ctx .left) right) ∧
      SplayTree.fill l.head.child ctx left right .left .node = top (plug (ctx .left) right) := by
  obtain ⟨-, -, hleft, hright⟩ := h.laid
  have htip : ∀ d, ∀ e ∈ (node left a right).toList, tipOf (ctx d) ≠ .elm e :=
    fun d e he => tipOf_ne (h.not_mem_labels hm he d)
  have hopp : ∀ d, ∀ e ∈ labels (ctx d), tipOf (ctx d.opp) ≠ .elm e :=
    fun d e he => tipOf_ne (h.not_mem_opp hm he)
  have hlaid : ∀ {u : Tree E}, (∀ e ∈ u.toList, e ∈ (node left a right).toList) →
      Laid l.head.child u → Laid (SplayTree.fill l.head.child ctx left right) u := by
    intro u hu hlaid
    exact (hlaid.set fun e he => htip .right e (hu e he)).set fun e he => htip .left e (hu e he)
  constructor
  · apply Spine.plug
    · have hspine : Spine (l.head.child.set .right (tipOf (ctx .right)) (top left)) .right
          (ctx .right) := (h.spine .right).set_tip (h.labels_nodup hm .right)
      exact hspine.set (hopp .right) (.inl (by decide))
    · exact (congrFun (set_of_ne_side (by decide)) _).trans (set_self _ _ _ _)
    · exact hlaid (fun e he => by simp [he]) hleft
  · apply Spine.plug
    · have hspine : Spine (l.head.child.set .right (tipOf (ctx .right)) (top left)) .left
          (ctx .left) := (h.spine .left).set (hopp .left) (.inl (by decide))
      exact hspine.set_tip (h.labels_nodup hm .left)
    · exact set_self _ _ _ _
    · exact hlaid (fun e he => by simp [he]) hright

/-- `SPLAY_ASSEMBLE` makes four links. -/
theorem Parts.splayAssemble_eq (h : Parts start members l ctx (.node left a right))
    (hm : members.Nodup) : splayAssemble l = .ok ⟨some a,
      ((SplayTree.fill l.head.child ctx left right).set .left (.elm a)
        (top (plug (ctx .right) left))).set .right (.elm a) (top (plug (ctx .left) right))⟩ := by
  obtain ⟨⟨-, hnode_right⟩, -, hnode_left⟩ := h.fill hm
  have htip : tipOf (ctx .right) ≠ .elm a := tipOf_ne (h.not_mem_labels hm (by simp) .right)
  have hright : l.head.child.set .right (tipOf (ctx .right)) (top left) .right (.elm a) =
      top right := (set_of_ne htip.symm _).trans h.laid.2.1
  have hnode : ∀ v, (SplayTree.fill l.head.child ctx left right).set .left (.elm a) v .left
      .node = SplayTree.fill l.head.child ctx left right .left .node :=
    fun v => set_of_ne (by simp) _
  have hroot : l.head.root = some a := h.root
  have hl : l.left = tipOf (ctx .right) := h.tip .right
  have hr : l.right = tipOf (ctx .left) := h.tip .left
  simp only [splayAssemble, SplayHead.setChild, hroot, deref_some, ok_bind, hl, hr, h.laid.1,
    hright]
  rw [← SplayTree.fill, hnode, hnode_right, hnode_left]
  rfl

/-- The parts are put together as one tree with the same elements in order. -/
theorem Parts.assemble (h : Parts start members l ctx (.node left a right)) (hm : members.Nodup) :
    ∃ s, splayAssemble l = .ok s ∧ s.root = some a ∧
      Laid s.child (.node (plug (ctx .right) left) a (plug (ctx .left) right)) ∧
      (plug (ctx .right) left).toList = before (ctx .right) ++ left.toList ∧
      (plug (ctx .left) right).toList = right.toList ++ after (ctx .left) ∧
      ∀ e ∉ members, ∀ d, s.child d (.elm e) = start.child d (.elm e) := by
  obtain ⟨⟨hlaid_left, -⟩, hlaid_right, -⟩ := h.fill hm
  have hplug_left : (plug (ctx .right) left).toList = before (ctx .right) ++ left.toList := by
    rw [toList_plug, after_eq_nil (h.spine .right).side, List.append_nil]
  have hplug_right : (plug (ctx .left) right).toList = right.toList ++ after (ctx .left) := by
    rw [toList_plug, before_eq_nil (h.spine .left).side, List.nil_append]
  have hnodup :
      ((plug (ctx .right) left).toList ++ a :: (plug (ctx .left) right).toList).Nodup := by
    rw [hplug_left, hplug_right]
    have horder := h.order
    rw [toList_node] at horder
    rw [← horder] at hm
    simpa using hm
  obtain ⟨-, hright_nodup, hdisjoint⟩ := List.nodup_append.mp hnodup
  have ha_left : a ∉ (plug (ctx .right) left).toList :=
    fun hmem => hdisjoint a hmem a List.mem_cons_self rfl
  have ha_right : a ∉ (plug (ctx .left) right).toList := (List.nodup_cons.mp hright_nodup).1
  refine ⟨_, h.splayAssemble_eq hm, rfl, ?_, hplug_left, hplug_right, ?_⟩
  · exact Laid.set_join (d := .left) hlaid_left hlaid_right ha_left ha_right
  · intro e he d
    have hea : (.elm e : Slot E) ≠ .elm a := by
      intro heq
      exact he (Slot.elm.inj heq ▸ h.mem_of_tree (by simp))
    have htip : ∀ d', (.elm e : Slot E) ≠ tipOf (ctx d') := by
      intro d'
      exact (tipOf_ne fun hmem => he (h.mem_of_labels hmem)).symm
    rw [← h.frame e he d]
    calc _ = SplayTree.fill l.head.child ctx left right d (.elm e) :=
          (set_of_ne hea d).trans (set_of_ne hea d)
      _ = l.head.child d (.elm e) := (set_of_ne (htip .left) d).trans (set_of_ne (htip .right) d)

end Assembly

end MacKernel.SplayTree
