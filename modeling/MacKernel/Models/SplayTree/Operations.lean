import MacKernel.Models.SplayTree.Splay

/-!
# Operations on splay trees

Each operation splays first, so that the root is the member closest to the element, and
then works at the root. A removal splays the left subtree once more: all its elements are
below the removed one, so that its new root has no right child to lose.
-/

namespace MacKernel.SplayTree

open MacKernel.Tree

variable {E : Type} {cmp : E → E → Int} {s : SplayHead E} {members : List E} {fuel : Nat} {e : E}

/-- The head holds a tree of the members in ascending order. -/
structure Holds (cmp : E → E → Int) (s : SplayHead E) (members : List E) : Prop where
  tree : ∃ t, Represents s t ∧ t.toList = members
  ascending : Ascending cmp members

/-- `SPLAY_INIT` makes an empty tree. -/
theorem holds_empty (cmp : E → E → Int) (s : SplayHead E) : Holds cmp (splayInit s) [] :=
  ⟨⟨.nil, ⟨rfl, trivial⟩, rfl⟩, List.Pairwise.nil⟩

/-- `SPLAY_EMPTY` tells whether there are members. -/
theorem Holds.empty_iff (h : Holds cmp s members) : splayEmpty s = true ↔ members = [] := by
  obtain ⟨⟨t, hrep, rfl⟩, -⟩ := h
  rw [splayEmpty, hrep.root, Option.isNone_iff_eq_none, top_eq_none]
  cases t with
  | nil => simp
  | node l a r => simp

section Search

variable [DecidableEq E] (hcmp : Comparison cmp)

include hcmp

/-- `SPLAY` on a tree that is not empty. -/
theorem Holds.splay (h : Holds cmp s members) (hne : members ≠ []) (key : E)
    (hfuel : members.length < fuel) :
    ∃ s' left a right, SplayTree.splay cmp fuel s key = .ok s' ∧
      Represents s' (.node left a right) ∧ left.toList ++ a :: right.toList = members ∧
      Closest (cmp key) left.toList right.toList := by
  obtain ⟨⟨t, hrep, rfl⟩, hasc⟩ := h
  have ht : t ≠ .nil := by
    rintro rfl
    exact hne rfl
  obtain ⟨s', left, a, right, hs, hrep', hlist, hclosest, -⟩ :=
    hrep.splay hcmp ht hasc key hfuel
  exact ⟨s', left, a, right, hs, hrep', hlist, hclosest⟩

/-- `SPLAY_FIND` finds the member that is equal. -/
theorem Holds.find (h : Holds cmp s members) (hfuel : members.length < fuel) (e : E) :
    ∃ s', splayFind cmp fuel s e = .ok (s', equalTo cmp e members) ∧ Holds cmp s' members := by
  unfold splayFind
  by_cases hempty : members = []
  · refine ⟨s, ?_, h⟩
    rw [if_pos (h.empty_iff.mpr hempty), hempty]
    rfl
  · obtain ⟨s', left, a, right, hs, hrep, rfl, hclosest⟩ := h.splay hcmp hempty e hfuel
    have hroot : s'.root = some a := hrep.root
    refine ⟨s', ?_, ⟨_, hrep, rfl⟩, h.ascending⟩
    rw [if_neg (mt h.empty_iff.mp hempty), hs, ok_bind, hclosest.equalTo_eq, hroot, deref_some,
      ok_bind]
    split <;> rfl

/-- `SPLAY_INSERT` adds an element or returns the member that is equal. -/
theorem Holds.insert (h : Holds cmp s members) (hfuel : members.length < fuel) (e : E) :
    ∃ s', splayInsert cmp fuel s e = .ok (s', equalTo cmp e members) ∧
      Holds cmp s' (insertNew cmp e members) := by
  have hasc := h.ascending.insertNew hcmp e
  unfold splayInsert
  by_cases hempty : members = []
  · have hnil : Laid s.child .nil := trivial
    rw [if_pos (h.empty_iff.mpr hempty)]
    rw [hempty] at hasc ⊢
    refine ⟨_, rfl, ⟨.node .nil e .nil, ⟨rfl, ?_⟩, rfl⟩, hasc⟩
    exact Laid.set_join (d := .right) hnil hnil (by simp) (by simp)
  · obtain ⟨s', left, a, right, hs, hrep, rfl, hclosest⟩ := h.splay hcmp hempty e hfuel
    have hroot : s'.root = some a := hrep.root
    have hnodup := h.ascending.nodup hcmp
    have hnot : cmp e a ≠ 0 → e ∉ left.toList ++ a :: right.toList := by
      intro hne hmem
      have hself := hcmp.self e
      rcases List.mem_append.mp hmem with hl | hr
      · have := hclosest.1 e hl
        omega
      · rcases List.mem_cons.mp hr with rfl | hr
        · exact hne hself
        · have := hclosest.2 e hr
          omega
    rw [if_neg (mt h.empty_iff.mp hempty), hs, ok_bind, hclosest.equalTo_eq, hroot, deref_some,
      ok_bind]
    rcases lt_trichotomy (cmp e a) 0 with hneg | hzero | hpos
    · refine ⟨splayPut .left s' e a, ?_, ⟨.node left e (.node .nil a right), ⟨rfl, ?_⟩, ?_⟩, hasc⟩
      · rw [if_pos hneg, if_neg hneg.ne]
        rfl
      · exact Laid.put (d := .left) hrep.laid hnodup (hnot hneg.ne)
      · rw [hclosest.insertNew_of_lt hneg]
        rfl
    · refine ⟨s', ?_, ⟨_, hrep, (hclosest.insertNew_of_eq hzero).symm⟩, hasc⟩
      rw [if_neg (by omega), if_neg (by omega), if_pos hzero]
      rfl
    · refine ⟨splayPut .right s' e a, ?_, ⟨.node (.node left a .nil) e right, ⟨rfl, ?_⟩, ?_⟩, hasc⟩
      · rw [if_neg (by omega), if_pos hpos, if_neg hpos.ne']
        rfl
      · exact Laid.put (d := .right) hrep.laid hnodup (hnot hpos.ne')
      · rw [hclosest.insertNew_of_gt hpos]
        simp

/-- The left subtree of the removed element is splayed, and its root gets the right one. -/
theorem Represents.rejoin {left right : Tree E} {a : E} (h : Represents s (.node left a right))
    (hasc : Ascending cmp (left.toList ++ a :: right.toList)) (hne : left ≠ .nil)
    (hbelow : ∀ b ∈ left.toList, 0 < cmp e b)
    (hfuel : (left.toList ++ a :: right.toList).length < fuel) :
    ∃ s' b t, SplayTree.splay cmp fuel { s with root := top left } e = .ok s' ∧
      s'.root = some b ∧ Represents (s'.setChild .right (.elm b) (top right)) t ∧
      t.toList = left.toList ++ right.toList := by
  obtain ⟨-, -, hleft, hright⟩ := h.laid
  have hsub : left.toList.Sublist (left.toList ++ a :: right.toList) :=
    List.sublist_append_left _ _
  have hnodup := hasc.nodup hcmp
  obtain ⟨-, -, hcross⟩ := List.nodup_append.mp hnodup
  have hrep : Represents { s with root := top left } left := ⟨rfl, hleft⟩
  obtain ⟨s', left', b, right', hs, hrep', hlist, hclosest, hframe⟩ :=
    hrep.splay hcmp hne (hasc.sublist hsub) e (lt_of_le_of_lt hsub.length_le hfuel)
  have hnil : right' = .nil := by
    cases right' with
    | nil => rfl
    | node x c y =>
      have hmem : c ∈ left.toList := by
        rw [← hlist]
        simp
      have hc := hbelow c hmem
      have hc' := hclosest.2 c (by simp)
      omega
  subst hnil
  rw [toList_node, toList_nil] at hlist
  have hright' : Laid s'.child right := by
    apply hright.frame
    intro x hx d
    exact hframe x (fun hmem => hcross x hmem x (List.mem_cons_of_mem a hx) rfl) d
  have hbmem : b ∈ left.toList := by
    rw [← hlist]
    simp
  have hbright : b ∉ right.toList :=
    fun hmem => hcross b hbmem b (List.mem_cons_of_mem a hmem) rfl
  have hbleft : b ∉ left'.toList := by
    intro hmem
    have hn := hnodup.sublist hsub
    rw [← hlist] at hn
    exact (List.nodup_append.mp hn).2.2 b hmem b List.mem_cons_self rfl
  refine ⟨s', b, .node left' b right, hs, hrep'.root, ⟨hrep'.root, ?_⟩, ?_⟩
  · exact Laid.graft (d := .right) hrep'.laid hright' hbright hbleft
  · rw [← hlist]
    simp

/-- `SPLAY_REMOVE` takes the member that is equal. -/
theorem Holds.remove (h : Holds cmp s members) (hfuel : members.length < fuel) (e : E) :
    ∃ s', splayRemove cmp fuel s e =
        .ok (s', if (equalTo cmp e members).isSome then some e else none) ∧
      Holds cmp s' (removeEqual cmp e members) := by
  have hasc := h.ascending.removeEqual e
  unfold splayRemove
  by_cases hempty : members = []
  · refine ⟨s, ?_, ⟨?_, hasc⟩⟩
    · rw [if_pos (h.empty_iff.mpr hempty), hempty]
      rfl
    · rw [hempty] at h ⊢
      exact h.tree
  · obtain ⟨s', left, a, right, hs, hrep, rfl, hclosest⟩ := h.splay hcmp hempty e hfuel
    have hroot : s'.root = some a := hrep.root
    have hleft : s'.child .left (.elm a) = top left := hrep.laid.1
    have hright : s'.child .right (.elm a) = top right := hrep.laid.2.1
    rw [if_neg (mt h.empty_iff.mp hempty), hs, ok_bind, hclosest.equalTo_eq, hroot, deref_some,
      ok_bind, hleft, hright]
    rw [hclosest.removeEqual_eq] at hasc ⊢
    by_cases hzero : cmp e a = 0
    · rw [if_pos hzero] at hasc
      simp only [if_pos hzero]
      by_cases hnil : left = .nil
      · subst hnil
        exact ⟨_, rfl, ⟨right, ⟨rfl, hrep.laid.2.2.2⟩, rfl⟩, hasc⟩
      · obtain ⟨s'', b, t, hs'', hroot', hrep', hlist⟩ :=
          hrep.rejoin hcmp h.ascending hnil hclosest.1 hfuel
        have hsome : ¬(top left).isNone = true := by
          rw [Option.isNone_iff_eq_none, top_eq_none]
          exact hnil
        refine ⟨_, ?_, ⟨t, hrep', hlist⟩, hasc⟩
        rw [if_neg hsome, hs'', ok_bind, hroot', deref_some, ok_bind]
        rfl
    · rw [if_neg hzero] at hasc
      simp only [if_neg hzero]
      exact ⟨s', rfl, ⟨_, hrep, rfl⟩, hasc⟩

end Search

section Walks

/-- The loop of `SPLAY_NEXT` ends at the first element of the tree. -/
theorem leftmost_loop {l r : Tree E} {a : E} (h : Laid s.child (.node l a r))
    (hfuel : (node l a r).toList.length ≤ fuel) :
    ∃ b, loop (leftmostPass s) fuel a = .ok b ∧ (node l a r).toList.head? = some b := by
  induction l generalizing a r fuel with
  | nil =>
    obtain ⟨fuel, rfl⟩ := Nat.exists_eq_succ_of_ne_zero (by simp at hfuel; omega : fuel ≠ 0)
    refine ⟨a, ?_, rfl⟩
    apply loop_done
    rw [leftmostPass, h.1]
    rfl
  | node l b r' ih _ =>
    simp only [toList_node, List.length_append, List.length_cons] at hfuel
    obtain ⟨fuel, rfl⟩ := Nat.exists_eq_succ_of_ne_zero (by omega : fuel ≠ 0)
    have hrest : (node l b r').toList.length ≤ fuel := by
      simp only [toList_node, List.length_append, List.length_cons]
      omega
    obtain ⟨c, hloop, hhead⟩ := ih h.2.2.1 hrest
    refine ⟨c, ?_, ?_⟩
    · rw [← hloop]
      apply loop_again
      rw [leftmostPass, h.1]
      rfl
    · rw [toList_node, List.head?_append, hhead]
      rfl

variable [DecidableEq E]

/-- `SPLAY_MINMAX` splays the least or the greatest member. -/
theorem Holds.minMax (h : Holds cmp s members) (hcmp : Comparison cmp) (hne : members ≠ [])
    {comp : Int} (hcomp : comp ≠ 0) (hfuel : members.length < fuel) :
    ∃ s' l₁ a l₂, splayMinmax fuel s comp = .ok s' ∧ s'.root = some a ∧
      l₁ ++ a :: l₂ = members ∧ (comp < 0 → l₁ = []) ∧ (0 < comp → l₂ = []) ∧
      Holds cmp s' members := by
  obtain ⟨⟨t, hrep, rfl⟩, hasc⟩ := h
  have ht : t ≠ .nil := by
    rintro rfl
    exact hne rfl
  obtain ⟨s', left, a, right, hs, hrep', hlist, hneg, hpos⟩ :=
    hrep.splayMinmax ht (hasc.nodup hcmp) hcomp hfuel
  exact ⟨s', _, a, _, hs, hrep'.root, hlist, hneg, hpos, ⟨_, hrep', hlist⟩, hasc⟩

/-- `SPLAY_MIN` returns the least member. -/
theorem Holds.min (h : Holds cmp s members) (hcmp : Comparison cmp)
    (hfuel : members.length < fuel) :
    ∃ s', splayMin fuel s = .ok (s', members.head?) ∧ Holds cmp s' members := by
  unfold splayMin
  by_cases hempty : members = []
  · refine ⟨s, ?_, h⟩
    rw [if_pos (h.empty_iff.mpr hempty), hempty]
    rfl
  · have hcomp : splayNeginf ≠ 0 := by decide
    obtain ⟨s', l₁, a, l₂, hs, hroot, hlist, hnil, -, h'⟩ := h.minMax hcmp hempty hcomp hfuel
    refine ⟨s', ?_, h'⟩
    rw [if_neg (mt h.empty_iff.mp hempty), splayMinMax, hs, ok_bind, hroot, ← hlist,
      hnil (by decide)]
    rfl

/-- `SPLAY_MAX` returns the greatest member. -/
theorem Holds.max (h : Holds cmp s members) (hcmp : Comparison cmp)
    (hfuel : members.length < fuel) :
    ∃ s', splayMax fuel s = .ok (s', members.getLast?) ∧ Holds cmp s' members := by
  unfold splayMax
  by_cases hempty : members = []
  · refine ⟨s, ?_, h⟩
    rw [if_pos (h.empty_iff.mpr hempty), hempty]
    rfl
  · have hcomp : splayInf ≠ 0 := by decide
    obtain ⟨s', l₁, a, l₂, hs, hroot, hlist, -, hnil, h'⟩ := h.minMax hcmp hempty hcomp hfuel
    refine ⟨s', ?_, h'⟩
    rw [if_neg (mt h.empty_iff.mp hempty), splayMinMax, hs, ok_bind, hroot, ← hlist,
      hnil (by decide), List.getLast?_concat]
    rfl

/-- `SPLAY_NEXT` returns the least member above. -/
theorem Holds.next (h : Holds cmp s members) (hcmp : Comparison cmp) (he : e ∈ members)
    (hfuel : members.length < fuel) :
    ∃ s', splayNext cmp fuel s e = .ok (s', (above cmp e members).head?) ∧
      Holds cmp s' members := by
  obtain ⟨s', left, a, right, hs, hrep, rfl, hclosest⟩ :=
    h.splay hcmp (List.ne_nil_of_mem he) e hfuel
  have hself := hcmp.self e
  obtain rfl : e = a := by
    rcases List.mem_append.mp he with hl | hr
    · have := hclosest.1 e hl
      omega
    · rcases List.mem_cons.mp hr with heq | hr
      · exact heq
      · have := hclosest.2 e hr
        omega
  have hright : s'.child .right (.elm e) = top right := hrep.laid.2.1
  refine ⟨s', ?_, ⟨_, hrep, rfl⟩, h.ascending⟩
  rw [splayNext, hs, ok_bind, hclosest.above_eq, if_neg (by omega)]
  cases right with
  | nil =>
    simp only [hright]
    rfl
  | node l b r =>
    have hle : (node l b r).toList.length ≤ fuel := by
      simp only [List.length_append, List.length_cons] at hfuel
      omega
    obtain ⟨c, hloop, hhead⟩ := leftmost_loop hrep.laid.2.2.2 hle
    rw [hhead]
    simp only [hright, root_node, hloop, ok_bind]
    rfl

/-- `SPLAY_FOREACH` visits the members in ascending order. -/
theorem Holds.foreach (h : Holds cmp s members) (hcmp : Comparison cmp)
    (hfuel : members.length < fuel) :
    ∃ s', splayForeach cmp fuel s = .ok (s', members) ∧ Holds cmp s' members := by
  obtain ⟨s₁, hs₁, h₁⟩ := h.min hcmp hfuel
  rw [splayForeach, hs₁, ok_bind]
  have hvisits := loop_visits (foreachPass cmp fuel)
    (fun visited r l => visited ++ r = members ∧ ∃ s, l = ⟨s, r.head?, visited⟩ ∧
      Holds cmp s members)
    (fun r => ∃ s', r = (s', members) ∧ Holds cmp s' members) ?_ ?_ ⟨rfl, s₁, rfl, h₁⟩ hfuel
  · obtain ⟨_, hloop, s', rfl, h'⟩ := hvisits
    exact ⟨s', hloop, h'⟩
  · rintro l ⟨-, s, rfl, hs⟩
    exact ⟨(s, members), rfl, s, rfl, hs⟩
  · rintro visited x r l ⟨rfl, s, rfl, hs⟩
    obtain ⟨s', hnext, hs'⟩ := hs.next hcmp (e := x) (by simp) hfuel
    have habove : above cmp x (visited ++ x :: r) = r := by
      rw [(hs.ascending.closest hcmp).above_eq, hcmp.self, if_neg (lt_irrefl 0)]
    rw [habove] at hnext
    refine ⟨⟨s', r.head?, visited ++ [x]⟩, ?_, by simp, s', rfl, hs'⟩
    simp only [foreachPass, List.head?_cons, hnext, ok_bind]
    rfl

end Walks

end MacKernel.SplayTree
