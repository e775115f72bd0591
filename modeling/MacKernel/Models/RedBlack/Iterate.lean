import MacKernel.Models.RedBlack.Navigate

/-!
# Lookup and iteration

`RB_FIND` and `RB_NFIND` over the members, and the `RB_FOREACH` family. A safe iteration
looks up the next element before its body runs. A body that removes the current element
may rebalance the tree and move its successor into its place, but what is still to be
visited stays in the tree in the same order.
-/

namespace MacKernel.RedBlack

variable {A : Type} {w : Nat} {cmp : BitVec w → BitVec w → Int} {s : System A w}
  {head : RbHead A w} {t : Tree (Cell w)} {n : Nat} {d : Side}

section Lookup

variable (hcmp : Comparison cmp)

include hcmp

/-- `RB_FIND` returns the member equal to the key, or null if there is none. -/
theorem System.Holds.find (h : s.Holds cmp t n) (key : BitVec w) :
    (∃ v ∈ s.members, cmp key v = 0 ∧ rbFind cmp s.head key = .ok v) ∨
      (∀ v ∈ s.members, cmp key v ≠ 0) ∧ rbFind cmp s.head key = .ok 0 := by
  obtain ⟨⟨res, tmp⟩, e, ⟨c, hc, rfl, hzero⟩ | ⟨z, rfl, hfit, rfl, -⟩⟩ :=
    h.rep.search hcmp h.ascending key
  · refine .inl ⟨c.addr, (h.mem _).mp (List.mem_map_of_mem hc), hzero, ?_⟩
    rw [rbFind, e]
    rfl
  · refine .inr ⟨fun v hv => hfit.ne_zero ((h.mem v).mpr hv), ?_⟩
    rw [rbFind, e]
    rfl

/-- `RB_NFIND` returns the least member that is not smaller than the key, or null if there is
none. -/
theorem System.Holds.nfind (h : s.Holds cmp t n) (key : BitVec w) :
    (∃ v ∈ s.members, cmp key v ≤ 0 ∧ (∀ b ∈ s.members, cmp key b ≤ 0 → cmp v b ≤ 0) ∧
      rbNfind cmp s.head key = .ok v) ∨
      (∀ v ∈ s.members, 0 < cmp key v) ∧ rbNfind cmp s.head key = .ok 0 := by
  obtain ⟨⟨res, tmp⟩, e, ⟨c, hc, rfl, hzero⟩ | ⟨z, rfl, hfit, rfl, rfl⟩⟩ :=
    h.rep.search hcmp h.ascending key
  · refine .inl ⟨c.addr, (h.mem _).mp (List.mem_map_of_mem hc), hzero.le, fun b _ hb => ?_, ?_⟩
    · exact hcmp.trans (hcmp.zero_symm hzero).le hb
    · rw [rbNfind, e, ok_bind]
      exact congrArg Except.ok (if_pos (h.rep.valid c hc).ne_zero)
  have hcode : rbNfind cmp s.head key = .ok (firstOf (Tree.after z)) := by
    rw [rbNfind, e, ok_bind]
    exact congrArg Except.ok (if_neg (not_not.mpr rfl))
  have hmem := h.mem
  have hasc := h.ascending
  simp only [addrs_plug, addrs_nil, List.append_nil, List.mem_append, List.mem_map] at hmem
  rw [addrs_plug, addrs_nil, List.append_nil] at hasc
  obtain hafter | ⟨c, rest, hafter⟩ : Tree.after z = [] ∨ ∃ c rest, Tree.after z = c :: rest := by
    cases Tree.after z with
    | nil => exact .inl rfl
    | cons c rest => exact .inr ⟨c, rest, rfl⟩
  · refine .inr ⟨fun v hv => ?_, by rw [hcode, hafter]; rfl⟩
    obtain ⟨c, hc, rfl⟩ | ⟨c, hc, rfl⟩ := (hmem v).mpr hv
    · exact hfit.before c hc
    · rw [hafter] at hc
      cases hc
  · have hc : c ∈ Tree.after z := hafter ▸ List.mem_cons_self
    refine .inl ⟨c.addr, (hmem _).mp (.inr ⟨c, hc, rfl⟩), (hfit.after c hc).le, fun b hb hle => ?_,
      by rw [hcode, hafter]; rfl⟩
    obtain ⟨x, hx, rfl⟩ | ⟨x, hx, rfl⟩ := (hmem b).mpr hb
    · exact absurd hle (hfit.before x hx).not_ge
    · rw [hafter, List.map_cons, ascending_middle] at hasc
      rw [hafter, List.mem_cons] at hx
      rcases hx with rfl | hx
      · exact (hcmp.self _).le
      · exact (hasc.2.2 _ (List.mem_map_of_mem hx)).le

end Lookup

section Iteration

variable (augment : Augment A w)

/-- A loop body that removes the current element if it is chosen. -/
def removeChosen (chosen : BitVec w → Bool) (s : RbHead A w) (x : BitVec w) :
    Except Fault (RbHead A w) :=
  if chosen x then Prod.fst <$> rbRemove augment s x else return s

/-- Removing an element from a list towards either side. -/
theorem listed_erase {t' : Tree (Cell w)} {x : BitVec w} (h : Rep head t)
    (he : addrs t' = (addrs t).erase x) (d : Side) : listed d t' = (listed d t).erase x := by
  cases d with
  | left =>
    have hn : (addrs t).Nodup := h.nodup
    rw [listed, listed, Tree.toward, Tree.toward, List.map_reverse, List.map_reverse,
      (List.nodup_reverse.mpr hn).erase_eq_filter, List.filter_reverse, ← hn.erase_eq_filter]
    exact congrArg List.reverse he
  | right => exact he

/-- What the body leaves of the tree. -/
theorem Rep.removeChosen (chosen : BitVec w → Bool) {kept rest : List (BitVec w)} {x : BitVec w}
    (h : Rep head t) (hbal : Balanced Cell.Red false n t) (hl : listed d t = kept ++ x :: rest) :
    ∃ head' t' n', RedBlack.removeChosen augment chosen head x = .ok head' ∧ Rep head' t' ∧
      Balanced Cell.Red false n' t' ∧
      listed d t' = kept ++ [x].filter (fun a => !chosen a) ++ rest ∧
      (chosen x = false → head' = head) := by
  unfold RedBlack.removeChosen
  by_cases hchosen : chosen x = true
  · have hmem : x ∈ addrs t := by
      rw [← mem_listed (d := d), hl]
      simp
    obtain ⟨c, hc, rfl⟩ := List.mem_map.mp hmem
    obtain ⟨head', n', t', hremove, hbal', h', herase, -⟩ := h.remove augment hbal hc
    have hnodup := listed_nodup h d
    rw [hl, List.nodup_append] at hnodup
    refine ⟨head', t', n', ?_, h', hbal', ?_, fun hnone => absurd hchosen (by simp [hnone])⟩
    · rw [if_pos hchosen, hremove]
      rfl
    · rw [listed_erase h herase, hl, List.erase_append_right _
        (fun hx => hnodup.2.2 _ hx _ List.mem_cons_self rfl), List.erase_cons_head,
        List.filter_cons_of_neg (by simp [hchosen]), List.filter_nil, List.append_nil]
  · refine ⟨head, t, n, if_neg hchosen, h, hbal, ?_, fun _ => rfl⟩
    rw [hl, List.filter_cons_of_pos (by simp [hchosen]), List.filter_nil, List.append_assoc,
      List.singleton_append]

/-- A safe iteration visits everything that was still to be visited, whatever its body
removes, and leaves a balanced tree of the elements that were not chosen. -/
theorem Rep.iterate (chosen : BitVec w → Bool) {kept rest : List (BitVec w)} {fuel : Nat}
    (h : Rep head t) (hbal : Balanced Cell.Red false n t) (hl : listed d t = kept ++ rest)
    (hfuel : rest.length < fuel) :
    ∃ head' t' n', loop (rbForeachSafeBody (RedBlack.removeChosen augment chosen) d) fuel
        (head, rest.headD 0, []) = .ok (head', rest) ∧
      Rep head' t' ∧ Balanced Cell.Red false n' t' ∧
      listed d t' = kept ++ rest.filter (fun a => !chosen a) ∧
      ((∀ a ∈ rest, chosen a = false) → head' = head) := by
  -- the elements that were visited and not chosen come before those that are left
  let inv : List (BitVec w) → List (BitVec w) → RbHead A w → Prop := fun visited left head' =>
    ∃ t' n', Rep head' t' ∧ Balanced Cell.Red false n' t' ∧
      listed d t' = kept ++ visited.filter (fun a => !chosen a) ++ left ∧
      ((∀ a ∈ visited, chosen a = false) → head' = head)
  have hstart : inv [] rest head := by
    refine ⟨t, n, h, hbal, ?_, fun _ => rfl⟩
    rw [hl, List.filter_nil, List.append_nil]
  have hvisits := loop_visits (rbForeachSafeBody (RedBlack.removeChosen augment chosen) d)
    (fun visited left s => ∃ head', s = (head', left.headD 0, visited) ∧ inv visited left head')
    (fun r => ∃ head', r = (head', rest) ∧ inv rest [] head') ?_ ?_ ⟨head, rfl, hstart⟩ hfuel
  · obtain ⟨_, hloop, head', rfl, t', n', h', hbal', hl', hsame⟩ := hvisits
    rw [List.append_nil] at hl'
    exact ⟨head', t', n', hloop, h', hbal', hl', hsame⟩
  · rintro s ⟨head', rfl, hinv⟩
    exact ⟨(head', rest), rfl, head', rfl, hinv⟩
  · rintro visited x left s ⟨head₁, rfl, t₁, n₁, h₁, hbal₁, hl₁, hsame₁⟩
    have hmem : x ∈ addrs t₁ := by
      rw [← mem_listed (d := d), hl₁]
      simp
    obtain ⟨c, hc, hx⟩ := List.mem_map.mp hmem
    have h0 : x ≠ 0 := hx ▸ (h₁.valid c hc).ne_zero
    obtain ⟨head₂, t₂, n₂, hbody, h₂, hbal₂, hl₂, hsame₂⟩ :=
      h₁.removeChosen augment chosen hbal₁ hl₁
    refine ⟨(head₂, left.headD 0, visited ++ [x]), ?_, head₂, rfl, t₂, n₂, h₂, hbal₂, ?_, ?_⟩
    · simp only [rbForeachSafeBody, List.headD_cons, if_pos h0, h₁.neighbor hl₁, hbody, ok_bind]
      rfl
    · rw [hl₂, List.filter_append, List.append_assoc kept]
    · intro hnone
      rw [hsame₂ (hnone x (by simp))]
      exact hsame₁ fun a ha => hnone a (List.mem_append_left _ ha)

end Iteration

section Contract

variable (augment : Augment A w)

/-- What navigation over the members does, in terms of their list in order. -/
structure System.Navigable (cmp : BitVec w → BitVec w → Int) (s : System A w)
    (L : List (BitVec w)) : Prop where
  ascending : Ascending cmp L
  nodup : L.Nodup
  mem : ∀ a, a ∈ L ↔ a ∈ s.members
  /-- `RB_FIND` returns the member equal to the key and otherwise null. -/
  find : ∀ key, (∃ v ∈ s.members, cmp key v = 0 ∧ rbFind cmp s.head key = .ok v) ∨
    (∀ v ∈ s.members, cmp key v ≠ 0) ∧ rbFind cmp s.head key = .ok 0
  /-- `RB_NFIND` returns the least member not smaller than the key, or null. -/
  nfind : ∀ key, (∃ v ∈ s.members, cmp key v ≤ 0 ∧
      (∀ b ∈ s.members, cmp key b ≤ 0 → cmp v b ≤ 0) ∧ rbNfind cmp s.head key = .ok v) ∨
    (∀ v ∈ s.members, 0 < cmp key v) ∧ rbNfind cmp s.head key = .ok 0
  /-- `RB_MIN` returns the first member, or null. -/
  min : rbMin s.head = .ok (L.headD 0)
  /-- `RB_MAX` returns the last member, or null. -/
  max : rbMax s.head = .ok (L.getLastD 0)
  /-- `RB_NEXT` and `RB_PREV` lead between adjacent members. -/
  adjacent : ∀ l₁ a b l₂, L = l₁ ++ a :: b :: l₂ →
    rbNext s.head a = .ok b ∧ rbPrev s.head b = .ok a
  /-- `RB_PREV` of the minimum is null. -/
  prev_min : ∀ a l, L = a :: l → rbPrev s.head a = .ok 0
  /-- `RB_NEXT` of the maximum is null. -/
  next_max : ∀ l a, L = l ++ [a] → rbNext s.head a = .ok 0
  /-- `RB_FOREACH` visits the members in order. -/
  foreach : rbForeach (fun head _ => pure head) s.head = .ok (s.head, L)

/-- What the safe iterations over the members do when their body removes chosen elements. -/
structure System.Iterable (cmp : BitVec w → BitVec w → Int) (s : System A w)
    (L : List (BitVec w)) (chosen : BitVec w → Bool) : Prop where
  /-- `RB_FOREACH_SAFE` visits all members and leaves a red-black tree of the others. -/
  foreachSafe : ∃ head' t', rbForeachSafe (removeChosen augment chosen) s.head = .ok (head', L) ∧
    System.Contract cmp ⟨head', s.members.filter fun a => chosen a = false⟩ t'
  /-- `RB_FOREACH_FROM` visits the members from the given one upwards. -/
  foreachFrom : ∀ l₁ a l₂, L = l₁ ++ a :: l₂ →
    ∃ head', rbForeachFrom (removeChosen augment chosen) s.head a = .ok (head', a :: l₂)
  /-- `RB_FOREACH_REVERSE_FROM` visits the members from the given one downwards. -/
  foreachReverseFrom : ∀ l₁ a l₂, L = l₁ ++ a :: l₂ →
    ∃ head', rbForeachReverseFrom (removeChosen augment chosen) s.head a =
      .ok (head', a :: l₁.reverse)

private theorem listed_left (t : Tree (Cell w)) : listed .left t = (addrs t).reverse :=
  List.map_reverse

/-- The elements of the tree fit into the fuel of an iteration. -/
theorem Rep.length_addrs_lt (h : Rep head t) : (addrs t).length < walkFuel w := by
  rw [addrs, List.length_map]
  exact h.size_lt.trans (Nat.lt_succ_self _)

/-- A body that chooses nothing leaves the head alone. -/
theorem removeChosen_none : removeChosen augment (fun _ => false) = fun head _ => pure head := rfl

/-- A loop that leaves the head alone may look up the next element before or after its body. -/
theorem rbForeachBody_pure : rbForeachBody (fun (head : RbHead A w) _ => pure head) =
    rbForeachSafeBody (fun head _ => pure head) .right := by
  funext ⟨head, x, visited⟩
  simp only [rbForeachBody, rbForeachSafeBody, pure_bind]
  rfl

/-- The list towards the left, split at an element. -/
theorem listed_left_of_eq {l₁ l₂ : List (BitVec w)} {a : BitVec w}
    (h : addrs t = l₁ ++ a :: l₂) : listed .left t = l₂.reverse ++ a :: l₁.reverse := by
  rw [listed_left, h]
  simp

theorem System.Holds.navigable (augment : Augment A w) (hcmp : Comparison cmp)
    (h : s.Holds cmp t n) :
    s.Navigable cmp (addrs t) where
  ascending := h.ascending
  nodup := h.rep.nodup
  mem := h.mem
  find := h.find hcmp
  nfind := h.nfind hcmp
  min := h.rep.minmax .left
  max := by
    rw [rbMax, h.rep.minmax .right, show Side.right.opp = Side.left from rfl, listed_left,
      List.headD_eq_head?_getD, List.head?_reverse, List.getLastD_eq_getLast?]
  adjacent l₁ a b l₂ hL := by
    refine ⟨h.rep.neighbor (d := .right) hL, ?_⟩
    rw [← List.singleton_append, ← List.append_assoc] at hL
    rw [rbPrev, h.rep.neighbor (listed_left_of_eq hL), List.reverse_append]
    rfl
  prev_min a l hL := by
    have hL' : addrs t = [] ++ a :: l := hL
    exact h.rep.neighbor (listed_left_of_eq hL')
  next_max l a hL := h.rep.neighbor (d := .right) hL
  foreach := by
    have hl : listed .right t = [] ++ addrs t := rfl
    obtain ⟨head', -, -, e, -, -, -, hsame⟩ := h.rep.iterate augment (fun _ => false)
      h.balanced hl h.rep.length_addrs_lt
    rw [removeChosen_none, hsame fun _ _ => rfl] at e
    rw [rbForeach, rbForeachBody_pure, rbMin, h.rep.minmax .left, ok_bind]
    exact e

theorem System.Holds.iterable (h : s.Holds cmp t n) (chosen : BitVec w → Bool) :
    s.Iterable augment cmp (addrs t) chosen where
  foreachSafe := by
    have hl : listed .right t = [] ++ addrs t := rfl
    obtain ⟨head', t', n', e, hrep, hbal, hl', -⟩ := h.rep.iterate augment chosen
      h.balanced hl h.rep.length_addrs_lt
    refine ⟨head', t', ?_, System.Holds.contract ⟨hrep, ?_, hbal, fun a => ?_⟩⟩
    · rw [rbForeachSafe, rbMin, h.rep.minmax .left, ok_bind]
      exact e
    · rw [show addrs t' = _ from hl']
      exact h.ascending.sublist List.filter_sublist
    · rw [show addrs t' = _ from hl', List.nil_append, List.mem_filter, h.mem, Finset.mem_filter,
        Bool.not_eq_true']
  foreachFrom l₁ a l₂ hL := by
    have hfuel : (a :: l₂).length < walkFuel w := by
      have := h.rep.length_addrs_lt
      rw [hL, List.length_append] at this
      omega
    obtain ⟨head', -, -, e, -⟩ := h.rep.iterate augment chosen (d := .right)
      h.balanced hL hfuel
    exact ⟨head', e⟩
  foreachReverseFrom l₁ a l₂ hL := by
    have hfuel : (a :: l₁.reverse).length < walkFuel w := by
      have := h.rep.length_addrs_lt
      rw [hL, List.length_append, List.length_cons] at this
      rw [List.length_cons, List.length_reverse]
      omega
    obtain ⟨head', -, -, e, -⟩ := h.rep.iterate augment chosen
      h.balanced (listed_left_of_eq hL) hfuel
    exact ⟨head', e⟩

/-- In every state of every run from an empty tree, navigation and iteration go through the
members in order. -/
theorem navigable_of_calls (hcmp : Comparison cmp) {head : RbHead A w} {calls : List (Call w)}
    (hrun : Run (Step augment cmp) (emptyTree head) calls s) :
    ∃ L, s.Navigable cmp L ∧ ∀ chosen, s.Iterable augment cmp L chosen := by
  obtain ⟨t, n, h⟩ := holds_of_run augment hcmp hrun
  exact ⟨addrs t, h.navigable augment hcmp, h.iterable augment⟩

theorem navigable_of_calls_two : ∃ s, Run (Step (fun _ _ => ()) cmpAddr) (clearTree 4)
    [.insert 4, .insert 2] s ∧ ∃ L, s.Navigable cmpAddr L ∧
      ∀ chosen, s.Iterable (fun _ _ => ()) cmpAddr L chosen := by
  have hrun : Run (Step (fun _ _ => ()) cmpAddr) (clearTree 4) [.insert 4, .insert 2] _ :=
    .snoc (.snoc .nil ⟨⟨by decide, by decide⟩, rfl⟩) ⟨⟨by decide, by decide⟩, rfl⟩
  exact ⟨_, hrun, navigable_of_calls _ comparison_cmpAddr hrun⟩

end Contract

end MacKernel.RedBlack
