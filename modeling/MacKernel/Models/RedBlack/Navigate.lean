import MacKernel.Models.RedBlack.System

/-!
# Navigation

`RB_MIN`, `RB_MAX`, `RB_NEXT` and `RB_PREV` on the tree in memory. They only follow
links, so each is determined by the list of the elements towards one side: the first
element of it, or the element that follows a given one.
-/

namespace MacKernel.RedBlack

variable {A : Type} {w : Nat} {s : RbHead A w} {t u near far : Tree (Cell w)}
  {z : List (Frame (Cell w))} {c : Cell w} {d : Side} {a : BitVec w}

/-- The addresses of cells listed towards a side. -/
abbrev listed (d : Side) (t : Tree (Cell w)) : List (BitVec w) := (Tree.toward d t).map Cell.addr

/-- The first address of the cells, or null. -/
abbrev firstOf (l : List (Cell w)) : BitVec w := (l.map Cell.addr).headD 0

section Neighbor

/-- The test whether a node is the child on side `e` of its parent. -/
theorem Rep.isChild (h : Rep s (Tree.plug z u)) (hu : u ≠ .nil) (e : Side) :
    ∃ b, rbIsChild e s (top u) (above z) = .ok b ∧
      (b = true ↔ ∃ f ∈ z.head?, f.side = e) := by
  obtain - | ⟨f, z⟩ := z
  · exact ⟨false, rfl, by simp⟩
  · have h0 : f.label.addr ≠ 0 := (h.valid_label (by simp [Tree.labels])).ne_zero
    obtain ⟨v, e₁, hv⟩ := h.side_test (.inl hu) e
    refine ⟨decide (top u = v), ?_, ?_⟩
    · simp only [rbIsChild, above, parentOf, if_pos h0, e₁, ok_bind]
      rfl
    · rw [decide_eq_true_iff, eq_comm, hv, List.head?_cons]
      constructor
      · exact fun hf => ⟨f, rfl, hf⟩
      · rintro ⟨g, hg, he⟩
        exact Option.mem_some_iff.mp hg ▸ he

theorem Rep.getparent_top (h : Rep s (Tree.plug z u)) (hu : u ≠ .nil) :
    rbGetparent s (top u) = .ok (above z) := by
  cases u with
  | nil => exact absurd rfl hu
  | node l c r => exact Rep.getparent (d := .left) h

/-- The climb of `RB_NEXT` and `RB_PREV` ends at the first element beyond the node, or at the
root with null. -/
theorem Rep.climb (h : Rep s (Tree.plug z u)) (hu : u ≠ .nil) (d : Side) :
    loop (rbClimbBody d s) (walkFuel w) (top u) = .ok (firstOf (Tree.beyond d z)) := by
  suffices hloop : ∃ v, loop (rbClimbBody d s) (walkFuel w) (top u) = .ok v ∧
      v = firstOf (Tree.beyond d z) by
    obtain ⟨v, e, rfl⟩ := hloop
    exact e
  refine loop_spec (fun bound v => ∃ z' u', Rep s (Tree.plug z' u') ∧ u' ≠ .nil ∧ v = top u' ∧
      Tree.beyond d z' = Tree.beyond d z ∧ z'.length = bound) _ ?_
    ⟨z, u, h, hu, rfl, rfl, rfl⟩ (by have := h.length_lt; omega)
  rintro bound v ⟨z', u', h', hu', rfl, hbeyond, rfl⟩
  obtain ⟨b, e₂, htest⟩ := h'.isChild hu' d
  simp only [rbClimbBody, h'.getparent_top hu', e₂, ok_bind]
  obtain - | ⟨f, z'⟩ := z'
  · rw [if_neg fun hb => nomatch htest.mp hb]
    exact .inr ⟨_, rfl, by rw [← hbeyond]; rfl⟩
  by_cases hside : f.side = d
  · rw [if_pos (htest.mpr ⟨f, rfl, hside⟩)]
    refine .inl ⟨_, z'.length, by simp, rfl, z', _, h', ?_, (top_join _ _ _ _).symm, ?_, rfl⟩
    · exact Tree.join_ne_nil _ _ _ _
    · rw [← hbeyond, Tree.beyond, if_pos hside]
  · have hne : ¬b = true := fun hb => by
      obtain ⟨g, hg, he⟩ := htest.mp hb
      exact hside (Option.mem_some_iff.mp hg ▸ he)
    rw [if_neg hne]
    refine .inr ⟨_, rfl, ?_⟩
    rw [← hbeyond, Tree.beyond_cons_of_ne hside]
    rfl

/-- The first element of a tree towards a side is the last node on the other side. -/
theorem toward_farthest {inner : List (Frame (Cell w))} {m : Cell w}
    (h : ∀ f ∈ inner, f.side = d.opp) :
    ∃ l, Tree.toward d (Tree.plug inner (.join d.opp .nil m u)) = m :: l := by
  rw [Tree.toward_plug, Tree.beyond_eq_nil h, Tree.join_opp, Tree.toward_join]
  cases d <;> exact ⟨_, rfl⟩

/-- `RB_NEXT` and `RB_PREV` at a place of the tree. -/
theorem Rep.neighbor_at (h : Rep s (Tree.plug z (.join d near c far))) :
    rbNeighbor d s c.addr = .ok (firstOf (Tree.toward d near ++ Tree.beyond d z)) := by
  have e₁ := h.child_near
  by_cases hnear : near = .nil
  · subst hnear
    have hne : Tree.join d .nil c far ≠ .nil := Tree.join_ne_nil _ _ _ _
    have e₂ := h.getparent
    obtain ⟨b, e₃, htest⟩ := h.isChild hne d.opp
    have e₄ := h.climb hne d
    rw [top_join] at e₃ e₄
    have hnull : ¬top (Tree.nil : Tree (Cell w)) ≠ 0 := not_not.mpr rfl
    have hlist : Tree.toward d .nil ++ Tree.beyond d z = Tree.beyond d z := by
      cases d <;> rfl
    simp only [rbNeighbor, e₁, e₂, e₃, ok_bind, if_neg hnull, hlist]
    split_ifs with hb
    · obtain ⟨f, hf, hside⟩ := htest.mp hb
      obtain - | ⟨g, z⟩ := z
      · exact absurd hf nofun
      obtain rfl := Option.mem_some_iff.mp hf
      rw [Tree.beyond_cons_of_ne (by rw [hside]; exact d.opp_ne)]
      rfl
    · exact e₄
  · have hnearRep : Rep s (Tree.plug (⟨d, c, far⟩ :: z) near) := h
    obtain ⟨inner, m, u, rfl, hside, e₂⟩ := hnearRep.farthest hnear d.opp
    obtain ⟨l, hl⟩ := toward_farthest (u := u) (m := m) hside
    simp only [rbNeighbor, e₁, ok_bind, if_pos (hnearRep.top_ne_zero hnear), e₂, hl]
    rfl

theorem listed_nodup (h : Rep s t) (d : Side) : (listed d t).Nodup := by
  cases d with
  | left =>
    rw [listed, Tree.toward, List.map_reverse, List.nodup_reverse]
    exact h.nodup
  | right => exact h.nodup

theorem mem_listed : a ∈ listed d t ↔ a ∈ addrs t := by
  cases d with
  | left => rw [listed, Tree.toward, List.map_reverse, List.mem_reverse]
  | right => exact Iff.rfl

/-- `RB_NEXT` and `RB_PREV` return the next element towards their side, or null. -/
theorem Rep.neighbor (h : Rep s t) {l₁ l₂ : List (BitVec w)} (hl : listed d t = l₁ ++ a :: l₂) :
    rbNeighbor d s a = .ok (l₂.headD 0) := by
  have hmem : a ∈ addrs t := by
    rw [← mem_listed (d := d), hl]
    simp
  obtain ⟨c, hc, rfl⟩ := List.mem_map.mp hmem
  obtain ⟨z, near, far, rfl⟩ : ∃ z near far, t = Tree.plug z (.join d near c far) := by
    obtain ⟨z, l, r, rfl⟩ := Tree.exists_plug hc
    cases d
    · exact ⟨z, l, r, rfl⟩
    · exact ⟨z, r, l, rfl⟩
  have hn := listed_nodup h d
  have hplug : listed d (Tree.plug z (.join d near c far)) =
      ((Tree.beyond d.opp z).reverse ++ Tree.toward d far).map Cell.addr ++
        c.addr :: (Tree.toward d near ++ Tree.beyond d z).map Cell.addr := by
    rw [listed, Tree.toward_plug, Tree.toward_join]
    simp
  rw [hplug, List.nodup_append, List.nodup_cons] at hn
  obtain ⟨-, -, rfl⟩ := (List.append_cons_inj_of_notMem
    (fun hx => hn.2.2 _ hx _ List.mem_cons_self rfl) hn.2.1.1).mp (hplug.symm.trans hl)
  exact h.neighbor_at

end Neighbor

section Extremes

/-- `RB_MIN` and `RB_MAX` return the last element on their side, or null. -/
theorem Rep.minmax (h : Rep s t) (d : Side) :
    rbMinmax d s = .ok ((listed d.opp t).headD 0) := by
  suffices hloop : ∃ v, rbMinmax d s = .ok v ∧ v = (listed d.opp t).headD 0 by
    obtain ⟨v, e, rfl⟩ := hloop
    exact e
  refine loop_spec (fun bound (p : BitVec w × BitVec w) => ∃ z u, t = Tree.plug z u ∧
      (∀ f ∈ z, f.side = d) ∧ p.1 = above z ∧ p.2 = top u ∧ u.toList.length = bound) _ ?_
    ⟨[], t, rfl, nofun, rfl, h.root, rfl⟩ (by have := Rep.length_lt (z := []) h; omega)
  rintro bound ⟨parent, tmp⟩ ⟨z, u, rfl, hside, rfl, rfl, rfl⟩
  obtain - | ⟨l, c, r⟩ := u
  · refine .inr ⟨_, rfl, ?_⟩
    obtain - | ⟨f, z⟩ := z
    · cases d <;> rfl
    · have hne : f.side ≠ d.opp := by
        rw [hside f List.mem_cons_self]
        exact d.opp_ne.symm
      rw [listed, Tree.toward_plug, Side.opp_opp, Tree.beyond_eq_nil hside,
        Tree.beyond_cons_of_ne hne]
      cases d <;> rfl
  · obtain ⟨near, far, hjoin, hlen⟩ : ∃ near far, Tree.node l c r = .join d near c far ∧
        near.toList.length < (Tree.node l c r).toList.length := by
      cases d
      · exact ⟨l, r, rfl, by simp⟩
      · exact ⟨r, l, rfl, by simp; omega⟩
    rw [hjoin] at h hlen ⊢
    refine .inl ⟨(c.addr, top near), _, hlen, ?_, ⟨d, c, far⟩ :: z, near, rfl, ?_, rfl, rfl, rfl⟩
    · simp only [rbMinmaxBody, top_join, if_pos h.ne_zero, h.child_near, ok_bind]
      rfl
    · simpa using hside

end Extremes

end MacKernel.RedBlack
