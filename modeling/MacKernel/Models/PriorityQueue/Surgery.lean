import MacKernel.Core.HeapOrder
import MacKernel.Models.PriorityQueue.Links

/-!
# What the helper routines do to the heap

The specification of the three routines that relink entries. Each is described by
the forest it leaves in memory and by a frame: only the links of the entries it
works on change, and no key changes. The melding of a sibling list is specified
here and not defined, as in the header.
-/

namespace MacKernel.PriorityQueue

variable {E K : Type} {w : Nat}

/-- A comparison function under which ranks are totally preordered: the first
argument is not worse when the result is not negative. -/
structure Comparator (K : Type) where
  compare : CompareFn K
  total : ∀ a b, 0 ≤ compare a b ∨ 0 ≤ compare b a
  trans : ∀ {a b c}, 0 ≤ compare a b → 0 ≤ compare b c → 0 ≤ compare a c

/-- Larger builtin keys are better. -/
def schedPriMax : Comparator K where
  compare := schedPriMaxHeapCompare
  total a b := by simp only [schedPriMaxHeapCompare, builtinKeyCompare]; omega
  trans := by simp only [schedPriMaxHeapCompare, builtinKeyCompare]; omega

/-- Smaller builtin keys are better. -/
def schedPriMin : Comparator K where
  compare := schedPriMinHeapCompare
  total a b := by simp only [schedPriMinHeapCompare, builtinKeyCompare]; omega
  trans := by simp only [schedPriMinHeapCompare, builtinKeyCompare]; omega

/-- Entry `a` is not worse than entry `b`. -/
def Comparator.Above (c : Comparator K) (rank : BitVec w → Rank K) (a b : BitVec w) : Prop :=
  0 ≤ c.compare (rank a) (rank b)

instance (c : Comparator K) (rank : BitVec w → Rank K) (a b : BitVec w) :
    Decidable (c.Above rank a b) := inferInstanceAs (Decidable (_ ≤ _))

/-- Addresses at which an entry can be: not null, with the flag bits of the root
word clear, and unchanged by packing. -/
structure Valid (E : Type) [EntryLayout E w] (a : BitVec w) : Prop where
  ne_zero : a ≠ 0
  aligned : a &&& rootFlagsMask = 0
  packable : EntryLayout.Packable E a

section Store

/-- The store after an assignment through a pointer that is not null. -/
def Store.set (s : Store E K w) (a : BitVec w) (g : E → E) : Store E K w :=
  { s with entry := Function.update s.entry a (g (s.entry a)) }

/-- A change through a pointer that is not null succeeds. -/
theorem Store.modify_ok {s : Store E K w} {a : BitVec w} (ha : a ≠ 0) (g : E → E) :
    s.modify a g = .ok (s.set a g) := if_neg ha

variable [EntryLayout E w]

/-- A read through a pointer that is not null succeeds. -/
theorem Store.load_ok {s : Store E K w} {a : BitVec w} (ha : a ≠ 0) :
    s.load a = .ok (s.fields a) := if_neg ha

/-- A change of one entry leaves the others. -/
theorem Store.fields_set (s : Store E K w) (a : BitVec w) (g : E → E) :
    (s.set a g).fields = Function.update s.fields a (EntryLayout.fields (g (s.entry a))) := by
  funext b
  by_cases hb : b = a
  · subst hb
    simp [Store.fields, Store.set]
  · simp [Store.fields, Store.set, hb]

variable [LawfulLayout E w]

@[simp] theorem Store.fields_setNext (s : Store E K w) (a p : BitVec w) :
    (s.set a (EntryLayout.setNext · p)).fields =
      Function.update s.fields a { s.fields a with next := p } := by
  rw [Store.fields_set, LawfulLayout.fields_setNext]
  rfl

@[simp] theorem Store.fields_setPrev (s : Store E K w) (a p : BitVec w) :
    (s.set a (EntryLayout.setPrev · p)).fields =
      Function.update s.fields a { s.fields a with prev := p } := by
  rw [Store.fields_set, LawfulLayout.fields_setPrev]
  rfl

/-- A packed child pointer is read back, and the key stays. -/
theorem Store.fields_packChild (s : Store E K w) (a : BitVec w) {p : BitVec w}
    (hp : EntryLayout.Packable E p) :
    (s.set a (EntryLayout.packChild · p)).fields =
      Function.update s.fields a { s.fields a with child := p } := by
  rw [Store.fields_set, LawfulLayout.fields_packChild _ _ hp]
  rfl

@[simp] theorem Store.fields_setKey (s : Store E K w) (a : BitVec w) (k : UInt8) :
    (s.set a (EntryLayout.setKey · k)).fields =
      Function.update s.fields a { s.fields a with key := k } := by
  rw [Store.fields_set, LawfulLayout.fields_setKey]
  rfl

end Store

section Frame

variable [EntryLayout E w] {s s' s'' : Store E K w} {foot foot' : List (BitVec w)}

/-- Only the links of the entries of `foot` have changed. -/
structure Store.Keeps (s s' : Store E K w) (foot : List (BitVec w)) : Prop where
  fields : ∀ a ∉ foot, s'.fields a = s.fields a
  key : ∀ a, (s'.fields a).key = (s.fields a).key
  data : s'.data = s.data

/-- What keeps an entry keeps its rank. -/
theorem Store.Keeps.rank (h : s.Keeps s' foot) : s'.rank = s.rank := by
  funext a
  simp only [Store.rank, h.key a, h.data]

/-- Two changes touch what either touches. -/
theorem Store.Keeps.trans (h : s.Keeps s' foot) (h' : s'.Keeps s'' foot) :
    s.Keeps s'' foot where
  fields a ha := (h'.fields a ha).trans (h.fields a ha)
  key a := (h'.key a).trans (h.key a)
  data := h'.data.trans h.data

/-- A change touches no more than a larger footprint. -/
theorem Store.Keeps.mono (h : s.Keeps s' foot) (hsub : foot ⊆ foot') : s.Keeps s' foot' where
  fields a ha := h.fields a fun hmem => ha (hsub hmem)
  key := h.key
  data := h.data

end Frame

section Forest

variable [EntryLayout E w] {c : Comparator K} {ρ : BitVec w → Rank K} {s s' : Store E K w}
  {prev : BitVec w} {t : Tree (BitVec w)}

/-- A sibling list of trees in memory, heap-ordered for the given ranks. -/
structure Store.Forest (c : Comparator K) (ρ : BitVec w → Rank K) (s : Store E K w)
    (prev : BitVec w) (t : Tree (BitVec w)) : Prop where
  chain : Chain s.fields prev t
  nodup : t.toList.Nodup
  valid : ∀ a ∈ t.toList, Valid E a
  ordered : t.HeapOrdered (c.Above ρ)

/-- An entry with its children, wherever its own `next` and `prev` point. -/
structure Store.Subtree (c : Comparator K) (ρ : BitVec w → Rank K) (s : Store E K w)
    (children : Tree (BitVec w)) (a : BitVec w) : Prop where
  child : (s.fields a).child = top children
  chain : Chain s.fields a children
  nodup : (Tree.node children a .nil).toList.Nodup
  valid : ∀ b ∈ (Tree.node children a .nil).toList, Valid E b
  ordered : (Tree.node children a .nil).HeapOrdered (c.Above ρ)

/-- No entry of a heap is at the null pointer. -/
theorem Store.Forest.zero_notMem (h : s.Forest c ρ prev t) : 0 ∉ t.toList :=
  fun h0 => (h.valid 0 h0).ne_zero rfl

/-- A forest of one tree is a subtree. -/
theorem Store.Forest.subtree {ch : Tree (BitVec w)} {r : BitVec w}
    (h : s.Forest c ρ prev (.node ch r .nil)) : s.Subtree c ρ ch r where
  child := h.chain.1.2.1
  chain := h.chain.2.1
  nodup := h.nodup
  valid := h.valid
  ordered := h.ordered

/-- The children of an entry are a forest behind it. -/
theorem Store.Subtree.children {ch : Tree (BitVec w)} {a : BitVec w}
    (h : s.Subtree c ρ ch a) : s.Forest c ρ a ch where
  chain := h.chain
  nodup := (List.nodup_append.mp h.nodup).1
  valid b hb := h.valid b (by simp [hb])
  ordered := h.ordered.2.1

/-- An entry is not one of its descendants. -/
theorem Store.Subtree.notMem {ch : Tree (BitVec w)} {a : BitVec w} (h : s.Subtree c ρ ch a) :
    a ∉ ch.toList := by
  have hn := h.nodup
  rw [Tree.toList_node, List.nodup_append] at hn
  exact fun hmem => hn.2.2 a hmem a (by simp) rfl

/-- A forest outside the footprint of a change is kept, for ranks that agree on it. -/
theorem Store.Forest.frame {ρ' : BitVec w → Rank K} (h : s.Forest c ρ prev t)
    (hf : ∀ a ∈ t.toList, s'.fields a = s.fields a) (hρ : ∀ a ∈ t.toList, ρ' a = ρ a) :
    s'.Forest c ρ' prev t where
  chain := h.chain.congr hf
  nodup := h.nodup
  valid := h.valid
  ordered := h.ordered.imp fun a ha b hb hab => by
    rwa [Comparator.Above, hρ a ha, hρ b hb]

/-- What the header promises of `pqueue_pair_meld`: a sibling list that is not empty
becomes one heap-ordered tree of the same entries. -/
def Melds (c : Comparator K) (pairMeld : PairMeld E K w) : Prop :=
  ∀ (s : Store E K w) (prev : BitVec w) (t : Tree (BitVec w)), t ≠ .nil →
    s.Forest c s.rank prev t →
    ∃ s' r ch, pairMeld s (top t) = .ok (s', r) ∧ s'.Forest c s'.rank 0 (.node ch r .nil) ∧
      (Tree.node ch r .nil).toList.Perm t.toList ∧ s.Keeps s' t.toList

end Forest

section Merge

variable [EntryLayout E w] {c : Comparator K} {s : Store E K w}

/-- The parent and the child that `pqueue_merge` makes of two roots. -/
def mergeOrder (cmpFn : CompareFn K) (s : Store E K w) (a b : BitVec w) : BitVec w × BitVec w :=
  if cmpFn (s.rank a) (s.rank b) < 0 then (b, a) else (a, b)

/-- The root chosen as the parent is not worse than the other one. -/
theorem mergeOrder_above (c : Comparator K) (s : Store E K w) (a b : BitVec w) :
    c.Above s.rank (mergeOrder c.compare s a b).1 (mergeOrder c.compare s a b).2 := by
  unfold mergeOrder Comparator.Above
  split_ifs with h
  · exact (c.total _ _).resolve_left (not_le.mpr h)
  · exact not_lt.mp h

/-- The first root stays the parent unless the second one is better. -/
theorem mergeOrder_of_above {a b : BitVec w} (h : c.Above s.rank a b) :
    (mergeOrder c.compare s a b).1 = a := by
  rw [mergeOrder, if_neg (not_lt.mpr h)]

/-- The root of a merge is one of the two roots. -/
theorem mergeOrder_fst (cmpFn : CompareFn K) (s : Store E K w) (a b : BitVec w) :
    (mergeOrder cmpFn s a b).1 = b ∨ (mergeOrder cmpFn s a b).1 = a := by
  unfold mergeOrder
  split_ifs
  · exact .inl rfl
  · exact .inr rfl

/-- Linking a subtree under one that is not worse gives one heap-ordered tree. -/
theorem Store.Subtree.linkUnder {s' : Store E K w} {chp chx : Tree (BitVec w)} {p x : BitVec w}
    (hp : s.Subtree c s.rank chp p) (hx : s.Subtree c s.rank chx x)
    (hdisj : ∀ a ∈ (Tree.node chx x .nil).toList, ∀ b ∈ (Tree.node chp p .nil).toList, a ≠ b)
    (habove : c.Above s.rank p x) (hf : s'.fields = PriorityQueue.linkUnder s.fields p x)
    (hd : s'.data = s.data) :
    s'.Forest c s'.rank 0 (.node (.node chx x chp) p .nil) ∧
      s.Keeps s' (Tree.node (.node chx x chp) p .nil).toList := by
  have hmem : ∀ a, a ∈ (Tree.node (.node chx x chp) p .nil).toList ↔
      a ∈ (Tree.node chx x .nil).toList ∨ a ∈ (Tree.node chp p .nil).toList := by
    intro a
    simp only [Tree.toList_node, Tree.toList_nil, List.mem_append, List.mem_cons,
      List.not_mem_nil, or_false]
    tauto
  have hperm : (Tree.node (.node chx x chp) p .nil).toList =
      (Tree.node chx x .nil).toList ++ (Tree.node chp p .nil).toList := by simp
  have hnodup : (Tree.node (.node chx x chp) p .nil).toList.Nodup := by
    rw [hperm]
    exact List.nodup_append.mpr ⟨hx.nodup, hp.nodup, hdisj⟩
  have hvalid : ∀ a ∈ (Tree.node (.node chx x chp) p .nil).toList, Valid E a :=
    fun a ha => ((hmem a).mp ha).elim (hx.valid a) (hp.valid a)
  have hkeeps : s.Keeps s' (Tree.node (.node chx x chp) p .nil).toList := by
    refine ⟨fun a ha => ?_, fun a => by rw [hf, linkUnder_key], hd⟩
    rw [hf, linkUnder_of_ne]
    · rintro rfl
      exact ha (by simp)
    · rintro rfl
      exact ha (by simp)
    · rw [hp.child]
      exact ne_top fun hmem => ha (by simp [hmem])
  refine ⟨⟨?_, hnodup, hvalid, ?_⟩, hkeeps⟩
  · rw [hf]
    exact linkUnder_chain hnodup (fun h => (hvalid 0 h).ne_zero rfl) hx.child hx.chain
      hp.child hp.chain
  · rw [hkeeps.rank]
    refine ⟨fun b hb => ?_, ⟨hx.ordered.1, hx.ordered.2.1, hp.ordered.2.1⟩, trivial⟩
    simp only [Tree.toList_node, List.mem_append, List.mem_cons] at hb
    rcases hb with hb | rfl | hb
    · exact c.trans habove (hx.ordered.1 b hb)
    · exact habove
    · exact hp.ordered.1 b hb

variable [LawfulLayout E w]

/-- Two different roots are merged by linking one under the other. -/
theorem pqueueMerge_eq (cmpFn : CompareFn K) {a b : BitVec w} (ha : Valid E a) (hb : Valid E b)
    (hab : a ≠ b) :
    ∃ s', pqueueMerge cmpFn s a b = .ok (s', (mergeOrder cmpFn s a b).1) ∧
      s'.fields = linkUnder s.fields (mergeOrder cmpFn s a b).1 (mergeOrder cmpFn s a b).2 ∧
      s'.data = s.data := by
  have hp : Valid E (mergeOrder cmpFn s a b).1 := by unfold mergeOrder; split_ifs <;> assumption
  have hx : Valid E (mergeOrder cmpFn s a b).2 := by unfold mergeOrder; split_ifs <;> assumption
  have hxp : (mergeOrder cmpFn s a b).1 ≠ (mergeOrder cmpFn s a b).2 := by
    unfold mergeOrder
    split_ifs
    exacts [hab.symm, hab]
  rw [pqueueMerge, if_neg ha.ne_zero, if_neg (not_or.mpr ⟨hb.ne_zero, hab⟩)]
  rw [show (if cmpFn (s.rank a) (s.rank b) < 0 then (b, a) else (a, b)) =
    mergeOrder cmpFn s a b from rfl]
  generalize mergeOrder cmpFn s a b = px at *
  obtain ⟨p, x⟩ := px
  simp only at hp hx hxp
  have hchild : (Function.update (Function.update s.fields x { s.fields x with
      next := (s.fields p).child }) x { s.fields x with
      next := (s.fields p).child, prev := p } p).child = (s.fields p).child := by
    simp [hxp]
  simp only [Store.load_ok hp.ne_zero, Store.modify_ok hp.ne_zero, Store.modify_ok hx.ne_zero,
    ok_bind, Store.fields_setNext, Store.fields_setPrev, Function.update_self, hchild]
  unfold linkUnder
  by_cases hc : (s.fields p).child = 0
  · simp only [hc, ne_eq, not_true_eq_false, if_false, pure_bind]
    refine ⟨_, rfl, ?_, rfl⟩
    simp [Store.fields_packChild _ _ hx.packable, hxp]
  · simp only [hc, ne_eq, not_false_eq_true, if_true, Store.modify_ok hc, ok_bind]
    refine ⟨_, rfl, ?_, rfl⟩
    simp [Store.fields_packChild _ _ hx.packable]

/-- The root that a merge returns. -/
theorem pqueueMerge_root {cmpFn : CompareFn K} {s' : Store E K w} {a b r : BitVec w}
    (ha : Valid E a) (hb : Valid E b) (hab : a ≠ b) (h : pqueueMerge cmpFn s a b = .ok (s', r)) :
    r = (mergeOrder cmpFn s a b).1 := by
  obtain ⟨s'', hs'', -⟩ := pqueueMerge_eq (s := s) cmpFn ha hb hab
  exact congrArg Prod.snd (Except.ok.inj (h.symm.trans hs''))

/-- `pqueue_merge` makes one heap-ordered tree of two. -/
theorem pqueueMerge_spec {cha chb : Tree (BitVec w)} {a b : BitVec w}
    (ha : s.Subtree c s.rank cha a) (hb : s.Subtree c s.rank chb b)
    (hdisj : ∀ x ∈ (Tree.node cha a .nil).toList, ∀ y ∈ (Tree.node chb b .nil).toList, x ≠ y) :
    ∃ s' r ch, pqueueMerge c.compare s a b = .ok (s', r) ∧
      s'.Forest c s'.rank 0 (.node ch r .nil) ∧
      (Tree.node ch r .nil).toList.Perm
        ((Tree.node cha a .nil).toList ++ (Tree.node chb b .nil).toList) ∧
      s.Keeps s' ((Tree.node cha a .nil).toList ++ (Tree.node chb b .nil).toList) := by
  obtain ⟨s', hs', hf, hd⟩ := pqueueMerge_eq (s := s) c.compare (ha.valid a (by simp))
    (hb.valid b (by simp)) (hdisj a (by simp) b (by simp))
  have habove := mergeOrder_above c s a b
  rw [hs']
  unfold mergeOrder at hf habove ⊢
  split_ifs at hf habove ⊢ with hlt
  · obtain ⟨hforest, hkeeps⟩ := hb.linkUnder ha hdisj habove hf hd
    have hlist : (Tree.node (.node cha a chb) b .nil).toList =
        (Tree.node cha a .nil).toList ++ (Tree.node chb b .nil).toList := by simp
    exact ⟨s', b, _, rfl, hforest, .of_eq hlist, hlist ▸ hkeeps⟩
  · obtain ⟨hforest, hkeeps⟩ := ha.linkUnder hb
      (fun x hx y hy => (hdisj y hy x hx).symm) habove hf hd
    have hperm : (Tree.node (.node chb b cha) a .nil).toList.Perm
        ((Tree.node cha a .nil).toList ++ (Tree.node chb b .nil).toList) :=
      (List.Perm.of_eq (by simp)).trans List.perm_append_comm
    exact ⟨s', a, _, rfl, hforest, hperm, hkeeps.mono hperm.subset⟩

end Merge

section ListRemove

variable [EntryLayout E w] {c : Comparator K} {ρ : BitVec w → Rank K} {s : Store E K w}
  {fr : Frame (BitVec w)} {ctx : List (Frame (BitVec w))} {ch sib : Tree (BitVec w)}
  {elt : BitVec w}

/-- An entry and its children are one part of a forest, its other entries another. -/
theorem plug_node_perm (ctx : List (Frame (BitVec w))) (ch sib : Tree (BitVec w))
    (elt : BitVec w) :
    (Tree.plug ctx (.node ch elt sib)).toList.Perm
      ((Tree.node ch elt .nil).toList ++ (Tree.plug ctx sib).toList) := by
  refine (Tree.toList_plug_perm _ _).trans ?_
  refine .trans (.of_eq ?_) ((Tree.toList_plug_perm ctx sib).symm.append_left _)
  simp

/-- The entry that points to `elt` does so by the link on the side of the frame. -/
theorem child_eq_iff (h : s.Forest c ρ 0 (Tree.plug (fr :: ctx) (.node ch elt sib))) :
    (s.fields fr.label).child = elt ↔ fr.side = .left := by
  obtain ⟨hctx, -⟩ := (linked_plug _ _).mp h.chain
  obtain ⟨hl, -, -⟩ := linkedCtx_cons.mp hctx
  cases hd : fr.side <;> rw [hd] at hl <;> simp only [onSide, Links] at hl
  · exact iff_of_true hl.2.1 rfl
  · rw [hl.2.1]
    refine iff_of_false (top_ne ?_ (h.valid elt ?_).ne_zero) (by decide)
    · intro hmem
      exact (Tree.nodup_plug.mp h.nodup).2.2 elt (by simp) elt (by simp [Tree.labels, hmem]) rfl
    · exact Tree.mem_plug.mpr (.inl (by simp))

variable [LawfulLayout E w]

/-- Unhooking an entry closes the gap it leaves. -/
theorem pqueueListRemove_eq (h : s.Forest c ρ 0 (Tree.plug (fr :: ctx) (.node ch elt sib))) :
    ∃ s', pqueueListRemove s elt = .ok s' ∧
      s'.fields = relink s.fields fr.side fr.label (top sib) ∧ s'.data = s.data := by
  obtain ⟨hprev, -, hnext⟩ := ((linked_plug _ _).mp h.chain).2.1
  have hside := child_eq_iff h
  have hvalid : ∀ a ∈ (Tree.node ch elt sib).toList ++ Tree.labels (fr :: ctx), Valid E a :=
    fun a ha => h.valid a (Tree.mem_plug.mpr (List.mem_append.mp ha))
  have helt : elt ≠ 0 := (hvalid elt (by simp)).ne_zero
  have hp : fr.label ≠ 0 := (hvalid fr.label (by simp [Tree.labels])).ne_zero
  have hne : elt ≠ fr.label :=
    (Tree.nodup_plug.mp h.nodup).2.2 elt (by simp) fr.label (by simp [Tree.labels])
  have hpack : EntryLayout.Packable E (top sib) := by
    rcases top_mem_or (t := sib) with rfl | hmem
    · exact LawfulLayout.packable_zero
    · exact (hvalid _ (by simp [hmem])).packable
  simp only [parentOf, id_eq] at hprev hnext
  have hlast : ∀ s₁ : Store E K w, s₁.data = s.data →
      s₁.fields = Function.update s.fields fr.label
        ((s.fields fr.label).setLink fr.side (top sib)) →
      ∃ s', (if (s₁.fields elt).next ≠ 0 then
          s₁.modify (s₁.fields elt).next (EntryLayout.setPrev · (s₁.fields elt).prev)
        else pure s₁) = .ok s' ∧
        s'.fields = relink s.fields fr.side fr.label (top sib) ∧ s'.data = s.data := by
    intro s₁ hd hf
    have hself : s₁.fields elt = s.fields elt := by rw [hf, Function.update_of_ne hne]
    rw [hself, hprev, hnext, relink, ← hf]
    split_ifs with h0
    · refine ⟨_, Store.modify_ok h0 _, ?_, hd⟩
      rw [Store.fields_setPrev]
    · exact ⟨s₁, rfl, rfl, hd⟩
  unfold pqueueListRemove
  simp only [Store.load_ok helt, ok_bind, hprev, hp, if_false, Store.load_ok hp]
  by_cases hd : fr.side = .left
  · rw [if_pos (hside.mpr hd), Store.modify_ok hp, ok_bind]
    refine hlast _ rfl ?_
    rw [hnext, Store.fields_packChild _ _ hpack, hd]
    rfl
  · rw [if_neg (fun h => hd (hside.mp h)), Store.modify_ok hp, ok_bind]
    refine hlast _ rfl ?_
    rw [hnext, Store.fields_setNext]
    cases hd' : fr.side with
    | left => exact absurd hd' hd
    | right => rfl

/-- `pqueue_list_remove` takes an entry with its children out of the heap. -/
theorem pqueueListRemove_spec
    (h : s.Forest c ρ 0 (Tree.plug (fr :: ctx) (.node ch elt sib))) :
    ∃ s', pqueueListRemove s elt = .ok s' ∧ s'.Forest c ρ 0 (Tree.plug (fr :: ctx) sib) ∧
      s'.Subtree c ρ ch elt ∧ s.Keeps s' (Tree.plug (fr :: ctx) sib).toList := by
  obtain ⟨s', hs', hf, hd⟩ := pqueueListRemove_eq h
  have hperm := plug_node_perm (fr :: ctx) ch sib elt
  obtain ⟨hnsub, hnrest, hdisj⟩ := List.nodup_append.mp (hperm.nodup_iff.mp h.nodup)
  have hvalid : ∀ a ∈ (Tree.node ch elt .nil).toList ++ (Tree.plug (fr :: ctx) sib).toList,
      Valid E a := fun a ha => h.valid a (hperm.mem_iff.mpr ha)
  have hkeeps : s.Keeps s' (Tree.plug (fr :: ctx) sib).toList := by
    refine ⟨fun a ha => ?_, fun a => by rw [hf, relink_key], hd⟩
    rw [Tree.mem_plug, not_or] at ha
    rw [hf, relink_of_ne (fun h => ha.2 (by simp [h, Tree.labels])) (ne_top ha.1)]
  obtain ⟨⟨-, hchild, -⟩, hch, -⟩ := ((linked_plug _ _).mp h.chain).2
  have hord := h.ordered.of_plug
  refine ⟨s', hs', ⟨?_, hnrest, fun a ha => hvalid a (List.mem_append_right _ ha), ?_⟩,
    ⟨?_, ?_, hnsub, fun a ha => hvalid a (List.mem_append_left _ ha), ?_⟩, hkeeps⟩
  · rw [hf]
    exact relink_chain h.nodup h.zero_notMem h.chain
  · exact h.ordered.plug_of_subset hord.2.2 fun a ha => by simp [ha]
  · rw [hkeeps.fields elt fun hmem => hdisj elt (by simp) elt hmem rfl]
    exact hchild
  · exact Chain.congr hch fun a ha =>
      hkeeps.fields a fun hmem => hdisj a (by simp [ha]) a hmem rfl
  · exact ⟨hord.1, hord.2.1, trivial⟩

end ListRemove

end MacKernel.PriorityQueue
