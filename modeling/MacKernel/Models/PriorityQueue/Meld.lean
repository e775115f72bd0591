import MacKernel.Core.Memory
import MacKernel.Models.PriorityQueue.Surgery

/-!
# A meld that keeps the promise

The header describes `pqueue_pair_meld` and leaves its definition to the kernel:
subtrees are paired from left to right and the pairs melded from right to left.
The meld defined here does that with `pqueue_merge`, and keeps what the queue
relies on. Runs of the queue on concrete entries use it.
-/

namespace MacKernel.PriorityQueue

variable {E K : Type} {w : Nat} [EntryLayout E w]

/-- Pair the first two trees of a sibling list, meld the others, and merge. -/
def meldPairs (cmpFn : CompareFn K) : Nat → PairMeld E K w
  | 0, _, _ => .error .diverged
  | fuel + 1, s, a => do
    let b := (← s.load a).next
    if b = 0 then
      let s ← s.modify a (EntryLayout.setPrev · 0)
      return (s, a)
    else
      let rest := (← s.load b).next
      let (s, pair) ← pqueueMerge cmpFn s a b
      if rest = 0 then return (s, pair)
      else
        let (s, melded) ← meldPairs cmpFn fuel s rest
        pqueueMerge cmpFn s melded pair

/-- No sibling list has more entries than there are addresses. -/
def meldSiblings (cmpFn : CompareFn K) : PairMeld E K w := meldPairs cmpFn (2 ^ w)

section Forest

variable {c : Comparator K} {ρ : BitVec w → Rank K} {s s' : Store E K w} {prev a : BitVec w}
  {ch sib t : Tree (BitVec w)}

/-- A sibling list is its first tree and the list behind it. -/
theorem Store.Forest.split (h : s.Forest c ρ prev (.node ch a sib)) :
    s.Subtree c ρ ch a ∧ s.Forest c ρ a sib ∧
      ∀ x ∈ (Tree.node ch a .nil).toList, ∀ y ∈ sib.toList, x ≠ y := by
  have hlist : (Tree.node ch a sib).toList = (Tree.node ch a .nil).toList ++ sib.toList := by simp
  have hnodup := h.nodup
  rw [hlist, List.nodup_append] at hnodup
  have hvalid := h.valid
  rw [hlist] at hvalid
  exact ⟨⟨h.chain.1.2.1, h.chain.2.1, hnodup.1,
      fun b hb => hvalid b (List.mem_append_left _ hb), h.ordered.1, h.ordered.2.1, trivial⟩,
    ⟨h.chain.2.2, hnodup.2.1, fun b hb => hvalid b (List.mem_append_right _ hb),
      h.ordered.2.2⟩, hnodup.2.2⟩

variable [LawfulLayout E w]

/-- A single tree is melded by clearing the `prev` pointer of its root. -/
theorem Store.Forest.setPrev (h : s.Forest c s.rank prev (.node ch a .nil)) :
    ∃ s', s.modify a (EntryLayout.setPrev · 0) = .ok s' ∧
      s'.Forest c s'.rank 0 (.node ch a .nil) ∧ s.Keeps s' (Tree.node ch a .nil).toList := by
  refine ⟨_, Store.modify_ok (h.valid a (by simp)).ne_zero _, ?_⟩
  have hkeeps : s.Keeps (s.set a (EntryLayout.setPrev · 0)) (Tree.node ch a .nil).toList := by
    refine ⟨fun b hb => ?_, fun b => ?_, rfl⟩
    · rw [Store.fields_setPrev, Function.update_of_ne]
      rintro rfl
      exact hb (by simp)
    · rw [Store.fields_setPrev]
      exact update_key rfl
  refine ⟨⟨?_, h.nodup, h.valid, hkeeps.rank ▸ h.ordered⟩, hkeeps⟩
  refine h.chain.reparent h.nodup (fun b _ hb => ?_) fun _ => ?_
  · rw [Store.fields_setPrev]
    exact Function.update_of_ne hb _ _
  · rw [Store.fields_setPrev]
    exact Function.update_self _ _ _

/-- Pairing and melding makes one tree of a sibling list. -/
theorem meldPairs_spec {fuel : Nat} (ht : t ≠ .nil) (hfuel : t.toList.length ≤ fuel)
    (h : s.Forest c s.rank prev t) :
    ∃ s' r ch, meldPairs c.compare fuel s (top t) = .ok (s', r) ∧
      s'.Forest c s'.rank 0 (.node ch r .nil) ∧ (Tree.node ch r .nil).toList.Perm t.toList ∧
      s.Keeps s' t.toList := by
  induction fuel generalizing s prev t with
  | zero =>
    cases t with
    | nil => exact absurd rfl ht
    | node ch a sib => simp at hfuel
  | succ fuel ih =>
    obtain - | ⟨cha, a, - | ⟨chb, b, rest⟩⟩ := t
    · exact absurd rfl ht
    · obtain ⟨s', hs', hf, hkeeps⟩ := h.setPrev
      refine ⟨s', a, cha, ?_, hf, .refl _, hkeeps⟩
      rw [meldPairs, top_node, Store.load_ok (h.valid a (by simp)).ne_zero, ok_bind,
        h.chain.1.2.2]
      simp only [Tree.root_nil, if_true, hs', ok_bind]
      rfl
    · obtain ⟨ha, hsib, hdisj⟩ := h.split
      obtain ⟨hb, hrest, hdisj'⟩ := hsib.split
      have ha0 : a ≠ 0 := (ha.valid a (by simp)).ne_zero
      have hb0 : b ≠ 0 := (hb.valid b (by simp)).ne_zero
      have hlist : (Tree.node cha a (.node chb b rest)).toList =
          (Tree.node cha a .nil).toList ++ (Tree.node chb b .nil).toList ++ rest.toList := by simp
      obtain ⟨s₁, m, chm, hs₁, hm, hpermm, hkeepsm⟩ := pqueueMerge_spec ha hb
        fun x hx y hy => hdisj x hx y (by simp at hy ⊢; tauto)
      have hout : ∀ x ∈ (Tree.node chm m .nil).toList, ∀ y ∈ rest.toList, x ≠ y := by
        intro x hx y hy
        rcases List.mem_append.mp (hpermm.mem_iff.mp hx) with hx | hx
        · exact hdisj x hx y (by simp [hy])
        · exact hdisj' x hx y hy
      rw [meldPairs, top_node, Store.load_ok ha0, ok_bind, h.chain.1.2.2]
      simp only [Tree.root_node, id_eq, if_neg hb0, Store.load_ok hb0, ok_bind,
        hsib.chain.1.2.2, hs₁]
      by_cases hnil : rest = .nil
      · subst hnil
        rw [Tree.root_nil, if_pos rfl]
        rw [Tree.toList_nil, List.append_nil] at hlist
        exact ⟨s₁, m, chm, rfl, hm, hlist ▸ hpermm, hlist ▸ hkeepsm⟩
      · rw [if_neg fun h0 => hnil ((top_eq_zero hrest.zero_notMem).mp h0)]
        have hrest₁ : s₁.Forest c s₁.rank b rest := by
          refine hrest.frame (fun y hy => hkeepsm.fields y fun hx => ?_) fun y _ => by
            rw [hkeepsm.rank]
          exact hout y (hpermm.mem_iff.mpr hx) y hy rfl
        obtain ⟨s₂, r, chr, hs₂, hr, hpermr, hkeepsr⟩ := ih hnil
          (by rw [hlist] at hfuel; simp at hfuel; omega) hrest₁
        have hm₂ : s₂.Forest c s₂.rank 0 (.node chm m .nil) := by
          refine hm.frame (fun x hx => hkeepsr.fields x fun hy => ?_) fun x _ => by
            rw [hkeepsr.rank]
          exact hout x hx x hy rfl
        obtain ⟨s₃, r₃, ch₃, hs₃, hf₃, hperm₃, hkeeps₃⟩ := pqueueMerge_spec hr.subtree
          hm₂.subtree fun x hx y hy => (hout y hy x (hpermr.mem_iff.mp hx)).symm
        have hall := (hperm₃.trans (hpermr.append hpermm)).trans List.perm_append_comm
        rw [← hlist] at hall
        have hin : ∀ l : List (BitVec w), l ⊆ rest.toList ++
            ((Tree.node cha a .nil).toList ++ (Tree.node chb b .nil).toList) →
            l ⊆ (Tree.node cha a (.node chb b rest)).toList := fun l hl x hx => by
          rw [hlist, List.mem_append, or_comm]
          exact List.mem_append.mp (hl hx)
        refine ⟨s₃, r₃, ch₃, by rw [← hs₃, hs₂]; rfl, hf₃, hall, ?_⟩
        refine ((hkeepsm.mono (hin _ (by simp))).trans (hkeepsr.mono (hin _ (by simp)))).trans ?_
        exact hkeeps₃.mono fun x hx => hall.mem_iff.mp (hperm₃.mem_iff.mpr hx)

/-- The meld keeps the promise of the header. -/
theorem meldSiblings_melds : Melds c (meldSiblings (E := E) (w := w) c.compare) :=
  fun _ _ _ ht h => meldPairs_spec ht (length_le_of_nodup h.nodup) h

end Forest

end MacKernel.PriorityQueue
