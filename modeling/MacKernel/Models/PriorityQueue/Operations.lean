import MacKernel.Models.PriorityQueue.Surgery

/-!
# The operations on a queue

Each operation of the queue is specified by the heap it leaves behind and by what
it changes: links of members and of the given entry, the key of that entry, and
nothing else. Priorities that the caller changes before a call are accounted for by
stating heap order with ranks that may differ from memory at the given entry.
-/

namespace MacKernel.PriorityQueue

variable {E K : Type} {w : Nat}

section RootWord

variable {q : Queue E K w} {r : BitVec w}

/-- The flags packed into the root word. -/
def Queue.flags (q : Queue E K w) : BitVec w := q.rootPacked &&& rootFlagsMask

theorem and_not_of_and_eq_zero {m : BitVec w} (h : r &&& m = 0) : r &&& ~~~m = r := by
  ext i hi
  have hbit : (r &&& m)[i] = (0 : BitVec w)[i] := by rw [h]
  simp only [BitVec.getElem_and, BitVec.getElem_not] at hbit ⊢
  cases hr : r[i]
  · rfl
  · simpa [hr] using hbit

/-- An aligned pointer is unpacked as it was packed. -/
theorem Queue.unpackRoot_packRoot (hr : r &&& rootFlagsMask = 0) :
    (q.packRoot r).unpackRoot = r := by
  simp only [Queue.unpackRoot, Queue.packRoot, rootPointerMask]
  rw [BitVec.and_or_distrib_right, and_not_of_and_eq_zero hr, BitVec.and_assoc,
    BitVec.and_not_self]
  simp

/-- Packing an aligned pointer keeps the flags. -/
theorem Queue.flags_packRoot (hr : r &&& rootFlagsMask = 0) :
    (q.packRoot r).flags = q.flags := by
  simp only [Queue.flags, Queue.packRoot]
  rw [BitVec.and_or_distrib_right, hr, BitVec.and_assoc, BitVec.and_self]
  simp

/-- The kind of key is one of the flags. -/
theorem Queue.hasBuiltinKeys_eq (q : Queue E K w) :
    q.hasBuiltinKeys = (q.flags &&& genericKey == 0) := by
  have hmask : (rootFlagsMask : BitVec w) &&& genericKey = genericKey :=
    (BitVec.ofNat_and (x := 3) (y := 1)).symm
  rw [Queue.hasBuiltinKeys, Queue.flags, BitVec.and_assoc, hmask]

end RootWord

section Rep

variable [EntryLayout E w] {c : Comparator K} {ρ ρ' : BitVec w → Rank K} {q q' : Queue E K w}
  {t : Tree (BitVec w)}

/-- The queue holds one heap-ordered tree, or none. -/
structure Queue.Rep (c : Comparator K) (ρ : BitVec w → Rank K) (q : Queue E K w)
    (t : Tree (BitVec w)) : Prop where
  forest : q.Forest c ρ 0 t
  root : q.unpackRoot = top t
  single : t = .nil ∨ ∃ ch r, t = .node ch r .nil

/-- A queue with a member has a member as its root. -/
theorem Queue.Rep.root_mem {a : BitVec w} (h : q.Rep c ρ t) (ha : a ∈ t.toList) :
    q.unpackRoot ∈ t.toList := by
  rcases h.single with rfl | ⟨ch, r, rfl⟩
  · cases ha
  · rw [h.root, top_node]
    simp

/-- The root is not worse than any member. -/
theorem Queue.Rep.root_above {a : BitVec w} (h : q.Rep c ρ t) (ha : a ∈ t.toList) :
    c.Above ρ q.unpackRoot a := by
  rcases h.single with rfl | ⟨ch, r, rfl⟩
  · cases ha
  · rw [h.root, top_node]
    simp only [Tree.toList_node, Tree.toList_nil, List.mem_append, List.mem_singleton] at ha
    rcases ha with ha | rfl
    · exact h.forest.ordered.1 a ha
    · exact (c.total _ _).elim id id

/-- An operation on `elt` has changed links in `foot` and the key of `elt` only. -/
structure Queue.Changes (q q' : Queue E K w) (foot : List (BitVec w)) (elt : BitVec w)
    (key : UInt8) : Prop where
  fields : ∀ a ∉ foot, q'.fields a = q.fields a
  key : (q'.fields elt).key = key
  otherKey : ∀ a ≠ elt, (q'.fields a).key = (q.fields a).key
  data : q'.data = q.data
  flags : q'.flags = q.flags

/-- The key of `elt` once `pqueue_update_key` was given `k` for it. -/
def Queue.newKey (q : Queue E K w) (elt : BitVec w) (k : UInt8) : UInt8 :=
  if q.hasBuiltinKeys then k else (q.fields elt).key

/-- The ranks once `elt` has the key `k`. -/
def Store.rankWith (s : Store E K w) (elt : BitVec w) (k : UInt8) : BitVec w → Rank K :=
  Function.update s.rank elt ⟨EntryLayout.keyInt E k, s.data elt⟩

theorem Store.rankWith_of_ne {s : Store E K w} {elt a : BitVec w} (k : UInt8) (h : a ≠ elt) :
    s.rankWith elt k a = s.rank a := Function.update_of_ne h _ _

theorem Queue.Changes.rank {foot : List (BitVec w)} {elt : BitVec w} {k : UInt8}
    (h : q.Changes q' foot elt k) : q'.rank = q.rankWith elt k := by
  funext a
  by_cases ha : a = elt
  · subst ha
    simp [Store.rankWith, Store.rank, h.key, h.data]
  · rw [Store.rankWith_of_ne k ha, Store.rank, Store.rank, h.otherKey a ha, h.data]

/-- What the result of an insertion tells about the root: whether the entry has become it,
and that it is the old one otherwise. An entry that is not better does not replace it. -/
structure Queue.InsertReports (c : Comparator K) (q q' : Queue E K w) (elt : BitVec w)
    (b : Bool) : Prop where
  became : b = true ↔ q'.unpackRoot = elt
  either : q'.unpackRoot = elt ∨ q'.unpackRoot = q.unpackRoot
  stays : q.unpackRoot ≠ 0 → c.Above q'.rank q.unpackRoot elt → q'.unpackRoot = q.unpackRoot

theorem Queue.InsertReports.kept {elt : BitVec w} (h : q.InsertReports c q' elt false) :
    q'.unpackRoot = q.unpackRoot :=
  h.either.resolve_left fun helt => Bool.false_ne_true (h.became.mpr helt)

/-- Packing the root of a tree makes the queue hold it. -/
theorem Queue.rep_packRoot {s : Store E K w} (h : s.Forest c ρ 0 t)
    (hsingle : t = .nil ∨ ∃ ch r, t = .node ch r .nil) :
    ({ q with toStore := s }.packRoot (top t)).Rep c ρ t ∧
      ({ q with toStore := s }.packRoot (top t)).flags = q.flags := by
  have halign : top t &&& rootFlagsMask = 0 := by
    rcases top_mem_or (t := t) with rfl | hmem
    · exact BitVec.zero_and
    · exact (h.valid _ hmem).aligned
  exact ⟨⟨h, Queue.unpackRoot_packRoot halign, hsingle⟩, Queue.flags_packRoot halign⟩

end Rep

section Insert

variable [EntryLayout E w] [LawfulLayout E w] {c : Comparator K} {q : Queue E K w}
  {t ch : Tree (BitVec w)} {elt : BitVec w} {k : UInt8}

/-- `pqueue_update_key` writes a key in a queue that has them. -/
theorem pqueueUpdateKey_eq (helt : elt ≠ 0) (hk : q.hasBuiltinKeys = true ∨ k = keyNone) :
    ∃ q', pqueueUpdateKey q elt k = .ok q' ∧ q'.rootPacked = q.rootPacked ∧
      q'.data = q.data ∧
      q'.fields = Function.update q.fields elt { q.fields elt with key := q.newKey elt k } := by
  unfold pqueueUpdateKey Queue.newKey
  by_cases hb : q.hasBuiltinKeys = true
  · rw [if_pos hb, if_pos hb, Store.modify_ok helt, ok_bind]
    exact ⟨_, rfl, rfl, rfl, Store.fields_setKey _ _ _⟩
  · rw [if_neg hb, if_neg hb, if_pos (hk.resolve_left hb)]
    exact ⟨q, rfl, rfl, rfl, (Function.update_eq_self elt q.fields).symm⟩

omit [LawfulLayout E w] in
/-- A new key for `elt`, and then new links. -/
theorem Queue.Changes.of_rekey {q₁ q' : Queue E K w} {foot : List (BitVec w)}
    (hf : q₁.fields = Function.update q.fields elt { q.fields elt with key := k })
    (hd : q₁.data = q.data) (hkeeps : q₁.Keeps q'.toStore foot) (helt : elt ∈ foot)
    (hflags : q'.flags = q.flags) : q.Changes q' foot elt k where
  fields a ha := by
    rw [hkeeps.fields a ha, hf, Function.update_of_ne (ne_of_mem_of_not_mem helt ha).symm]
  key := by rw [hkeeps.key, hf, Function.update_self]
  otherKey a ha := by rw [hkeeps.key, hf, Function.update_of_ne ha]
  data := hkeeps.data.trans hd
  flags := hflags

omit [LawfulLayout E w] in
private theorem rank_of_rekey {q₁ : Queue E K w}
    (hf : q₁.fields = Function.update q.fields elt { q.fields elt with key := k })
    (hd : q₁.data = q.data) : q₁.rank = q.rankWith elt k := by
  have hchg : q.Changes { q₁ with rootPacked := q.rootPacked } [elt] elt k :=
    .of_rekey hf hd ⟨fun _ _ => rfl, fun _ => rfl, rfl⟩ (by simp) rfl
  exact hchg.rank

/-- Insertion of an entry with its children: the two trees become one. -/
theorem priorityQueueInsert_subtree (hk : q.hasBuiltinKeys = true ∨ k = keyNone)
    (hrep : q.Rep c (q.rankWith elt (q.newKey elt k)) t)
    (hsub : q.Subtree c (q.rankWith elt (q.newKey elt k)) ch elt)
    (hdisj : ∀ x ∈ t.toList, ∀ y ∈ (Tree.node ch elt .nil).toList, x ≠ y)
    (hlinks : t = .nil → (q.fields elt).prev = 0 ∧ (q.fields elt).next = 0) :
    ∃ q' t' b, priorityQueueInsert c.compare q elt k = .ok (q', b) ∧ q'.Rep c q'.rank t' ∧
      t'.toList.Perm (t.toList ++ (Tree.node ch elt .nil).toList) ∧
      q.Changes q' (t.toList ++ (Tree.node ch elt .nil).toList) elt (q.newKey elt k) ∧
      q.InsertReports c q' elt b := by
  obtain ⟨q₁, hq₁, hroot, hdata, hf⟩ := pqueueUpdateKey_eq (hsub.valid elt (by simp)).ne_zero hk
  have hrank := rank_of_rekey hf hdata
  have hforest : q₁.Forest c q₁.rank 0 t :=
    ⟨hf ▸ hrep.forest.chain.rekey, hrep.forest.nodup, hrep.forest.valid,
      hrank ▸ hrep.forest.ordered⟩
  have hsub₁ : q₁.Subtree c q₁.rank ch elt :=
    ⟨by rw [hf, Function.update_self]; exact hsub.child, hf ▸ hsub.chain.rekey, hsub.nodup,
      hsub.valid, hrank ▸ hsub.ordered⟩
  have hunpack : q₁.unpackRoot = top t := by
    rw [← hrep.root, Queue.unpackRoot, hroot, Queue.unpackRoot]
  have hflags : q₁.flags = q.flags := by rw [Queue.flags, hroot, Queue.flags]
  unfold priorityQueueInsert
  rw [hq₁, ok_bind, hunpack]
  rcases hrep.single with rfl | ⟨cht, r, rfl⟩
  · obtain ⟨hprev, hnext⟩ := hlinks rfl
    have hf₁ : q₁.Forest c q₁.rank 0 (.node ch elt .nil) :=
      ⟨⟨⟨by rw [hf, Function.update_self]; exact hprev, hsub₁.child,
          by rw [hf, Function.update_self]; exact hnext⟩, hsub₁.chain, trivial⟩,
        hsub.nodup, hsub.valid, hsub₁.ordered⟩
    obtain ⟨hrep', hflags'⟩ := Queue.rep_packRoot (q := q₁) hf₁ (.inr ⟨ch, elt, rfl⟩)
    refine ⟨_, .node ch elt .nil, _, rfl, hrep', .refl _, ?_, ⟨?_, .inl hrep'.root, ?_⟩⟩
    · exact .of_rekey hf hdata ⟨fun _ _ => rfl, fun _ => rfl, rfl⟩ (by simp)
        (hflags'.trans hflags)
    · exact iff_of_true (beq_self_eq_true elt) hrep'.root
    · intro hne
      exact absurd hrep.root hne
  · obtain ⟨s', r', ch', hs', hf', hperm, hkeeps⟩ := pqueueMerge_spec hforest.subtree hsub₁ hdisj
    obtain ⟨hrep', hflags'⟩ := Queue.rep_packRoot (q := q₁) hf' (.inr ⟨ch', r', rfl⟩)
    have hr' := pqueueMerge_root (hforest.valid r (by simp)) (hsub.valid elt (by simp))
      (hdisj r (by simp) elt (by simp)) hs'
    have hroot' : q.unpackRoot = r := hrep.root
    have hnew : ({ q₁ with toStore := s' }.packRoot r').unpackRoot = r' := hrep'.root
    rw [top_node, hs', ok_bind]
    refine ⟨_, .node ch' r' .nil, _, rfl, hrep', hperm, ?_, ⟨?_, ?_, ?_⟩⟩
    · exact .of_rekey hf hdata hkeeps (by simp) (hflags'.trans hflags)
    · rw [hnew, beq_iff_eq]
    · rw [hnew, hroot', hr']
      exact mergeOrder_fst _ _ _ _
    · intro _ habove
      rw [hroot'] at habove ⊢
      rw [hnew, hr']
      refine mergeOrder_of_above ?_
      rwa [← hkeeps.rank]

/-- `priority_queue_insert` of an initialised entry. -/
theorem priorityQueueInsert_spec (hk : q.hasBuiltinKeys = true ∨ k = keyNone)
    (hrep : q.Rep c q.rank t) (hvalid : Valid E elt) (hnew : elt ∉ t.toList)
    (hprev : (q.fields elt).prev = 0) (hnext : (q.fields elt).next = 0)
    (hchild : (q.fields elt).child = 0) :
    ∃ q' t' b, priorityQueueInsert c.compare q elt k = .ok (q', b) ∧ q'.Rep c q'.rank t' ∧
      t'.toList.Perm (t.toList ++ [elt]) ∧
      q.Changes q' (t.toList ++ [elt]) elt (q.newKey elt k) ∧ q.InsertReports c q' elt b := by
  have hleaf : (Tree.node .nil elt .nil).toList = [elt] := rfl
  rw [← hleaf]
  refine priorityQueueInsert_subtree hk ?_ ?_ ?_ fun _ => ⟨hprev, hnext⟩
  · refine ⟨hrep.forest.frame (fun _ _ => rfl) fun a ha => ?_, hrep.root, hrep.single⟩
    exact Store.rankWith_of_ne _ (ne_of_mem_of_not_mem ha hnew)
  · exact ⟨hchild, trivial, by simp, by simpa using hvalid, by simp [Tree.HeapOrdered]⟩
  · intro x hx y hy
    rw [List.mem_singleton.mp hy]
    exact ne_of_mem_of_not_mem hx hnew

end Insert

section Remove

variable [EntryLayout E w] {c : Comparator K} {pairMeld : PairMeld E K w}
  {ρ : BitVec w → Rank K} {q : Queue E K w} {t : Tree (BitVec w)} {elt : BitVec w}

/-- A member that is the root has the whole tree below it. -/
theorem Queue.Rep.eq_node (h : q.Rep c ρ t) (hmem : elt ∈ t.toList)
    (hroot : elt = q.unpackRoot) : ∃ ch, t = .node ch elt .nil := by
  have htop : top t = elt := (hroot.trans h.root).symm
  rcases h.single with rfl | ⟨ch, r, rfl⟩
  · cases hmem
  · exact ⟨ch, by rw [← htop, top_node]⟩

/-- A member that is not the root hangs from another member, and the tree without it
has the same root. -/
theorem Queue.Rep.unhook (h : q.Rep c ρ t) (hmem : elt ∈ t.toList) (hroot : elt ≠ q.unpackRoot) :
    ∃ fr ctx ch sib ch', t = Tree.plug (fr :: ctx) (.node ch elt sib) ∧
      Tree.plug (fr :: ctx) sib = .node ch' q.unpackRoot .nil := by
  rcases h.single with rfl | ⟨x, r, rfl⟩
  · cases hmem
  · have hr : q.unpackRoot = r := h.root
    rw [hr] at hroot ⊢
    have hx : elt ∈ x.toList := by simpa [hroot] using hmem
    obtain ⟨ctx, ch, sib, rfl⟩ := Tree.exists_plug hx
    obtain ⟨fr, ctx', hctx⟩ := List.exists_cons_of_ne_nil
      (show ctx ++ [⟨Side.left, r, .nil⟩] ≠ [] by simp)
    refine ⟨fr, ctx', ch, sib, Tree.plug ctx sib, ?_, ?_⟩
    · rw [← hctx, Tree.plug_append]
      rfl
    · rw [← hctx, Tree.plug_append]
      rfl

/-- `pqueue_remove_root` leaves the children of the root, melded. -/
theorem pqueueRemoveRoot_spec (hmeld : Melds c pairMeld) {ch : Tree (BitVec w)}
    (h : q.Rep c ρ (.node ch elt .nil)) (hρ : ∀ a ≠ elt, ρ a = q.rank a) :
    ∃ q' t', pqueueRemoveRoot pairMeld q elt = .ok (q', elt) ∧ q'.Rep c q'.rank t' ∧
      t'.toList.Perm ch.toList ∧ q.Keeps q'.toStore ch.toList ∧ q'.flags = q.flags := by
  have hsub := h.forest.subtree
  have hch : q.Forest c q.rank elt ch := hsub.children.frame (fun _ _ => rfl)
    fun a ha => (hρ a (ne_of_mem_of_not_mem ha hsub.notMem)).symm
  unfold pqueueRemoveRoot
  rw [Store.load_ok (hsub.valid elt (by simp)).ne_zero, ok_bind, hsub.child]
  by_cases hnil : ch = .nil
  · subst hnil
    obtain ⟨hrep, hflags⟩ := Queue.rep_packRoot (q := q) (t := .nil)
      ⟨trivial, List.nodup_nil, nofun, trivial⟩ (.inl rfl)
    exact ⟨_, .nil, rfl, hrep, .refl _, ⟨fun _ _ => rfl, fun _ => rfl, rfl⟩, hflags⟩
  · obtain ⟨s', r, ch', hs', hforest, hperm, hkeeps⟩ := hmeld _ _ _ hnil hch
    obtain ⟨hrep, hflags⟩ := Queue.rep_packRoot (q := q) hforest (.inr ⟨ch', r, rfl⟩)
    rw [if_pos (fun h0 => hnil ((top_eq_zero hch.zero_notMem).mp h0)), hs', ok_bind]
    exact ⟨_, _, rfl, hrep, hperm, hkeeps, hflags⟩

variable [LawfulLayout E w]

/-- `pqueue_list_remove` of a member that is not the root: its subtree, and apart from it the
rest of the heap under the same root. -/
theorem Queue.Rep.listRemove (h : q.Rep c ρ t) (hmem : elt ∈ t.toList)
    (hroot : elt ≠ q.unpackRoot) : ∃ s ch ch', pqueueListRemove q.toStore elt = .ok s ∧
      s.Forest c ρ 0 (.node ch' q.unpackRoot .nil) ∧ s.Subtree c ρ ch elt ∧
      q.Keeps s (Tree.node ch' q.unpackRoot .nil).toList ∧
      t.toList.Perm
        ((Tree.node ch elt .nil).toList ++ (Tree.node ch' q.unpackRoot .nil).toList) ∧
      ∀ x ∈ (Tree.node ch elt .nil).toList, ∀ y ∈ (Tree.node ch' q.unpackRoot .nil).toList,
        x ≠ y := by
  obtain ⟨fr, ctx, ch, sib, ch', rfl, hrest⟩ := h.unhook hmem hroot
  obtain ⟨s, hs, hforest, hsub, hkeeps⟩ := pqueueListRemove_spec h.forest
  have hperm := plug_node_perm (fr :: ctx) ch sib elt
  rw [hrest] at hforest hkeeps hperm
  obtain ⟨-, -, hdisj⟩ := List.nodup_append.mp (hperm.nodup_iff.mp h.forest.nodup)
  exact ⟨s, ch, ch', hs, hforest, hsub, hkeeps, hperm, hdisj⟩

/-- `pqueue_remove_non_root` leaves the other members, with the children melded in. -/
theorem pqueueRemoveNonRoot_spec (hmeld : Melds c pairMeld) (h : q.Rep c ρ t)
    (hmem : elt ∈ t.toList) (hroot : elt ≠ q.unpackRoot) (hρ : ∀ a ≠ elt, ρ a = q.rank a) :
    ∃ q' t', pqueueRemoveNonRoot pairMeld c.compare q elt = .ok (q', elt) ∧
      q'.Rep c q'.rank t' ∧ t.toList.Perm (elt :: t'.toList) ∧ q.Keeps q'.toStore t'.toList ∧
      q'.flags = q.flags ∧ q'.unpackRoot = q.unpackRoot := by
  obtain ⟨s₁, ch, ch', hs₁, hforest, hsub, hkeeps, hperm, hdisj⟩ := h.listRemove hmem hroot
  have hρ₁ : ∀ a ≠ elt, s₁.rank a = ρ a := fun a ha => by rw [hkeeps.rank, hρ a ha]
  have hrestF : s₁.Forest c s₁.rank 0 (.node ch' q.unpackRoot .nil) :=
    hforest.frame (fun _ _ => rfl) fun a ha => hρ₁ a (hdisj elt (by simp) a ha).symm
  have hchF : s₁.Forest c s₁.rank elt ch := hsub.children.frame (fun _ _ => rfl)
    fun a ha => hρ₁ a (ne_of_mem_of_not_mem ha hsub.notMem)
  unfold pqueueRemoveNonRoot
  rw [hs₁, ok_bind, Store.load_ok (hsub.valid elt (by simp)).ne_zero, ok_bind, hsub.child]
  by_cases hnil : ch = .nil
  · subst hnil
    exact ⟨{ q with toStore := s₁ }, .node ch' q.unpackRoot .nil, rfl,
      ⟨hrestF, rfl, .inr ⟨ch', _, rfl⟩⟩, hperm, hkeeps, rfl, rfl⟩
  · rw [if_pos (fun h0 => hnil ((top_eq_zero hchF.zero_notMem).mp h0))]
    obtain ⟨s₂, r₂, ch₂, hs₂, hforest₂, hperm₂, hkeeps₂⟩ := hmeld _ _ _ hnil hchF
    have hrestF₂ : s₂.Forest c s₂.rank 0 (.node ch' q.unpackRoot .nil) := by
      refine hrestF.frame (fun a ha => hkeeps₂.fields a fun hmem => ?_) fun a _ => by
        rw [hkeeps₂.rank]
      exact hdisj a (by simp [hmem]) a ha rfl
    obtain ⟨s₃, r₃, ch₃, hs₃, hforest₃, hperm₃, hkeeps₃⟩ := pqueueMerge_spec hrestF₂.subtree
      hforest₂.subtree fun x hx y hy => (hdisj y (by simp [hperm₂.mem_iff.mp hy]) x hx).symm
    obtain ⟨hrep, hflags⟩ := Queue.rep_packRoot (q := q) hforest₃ (.inr ⟨ch₃, r₃, rfl⟩)
    have hall : (Tree.node ch₃ r₃ .nil).toList.Perm
        ((Tree.node ch' q.unpackRoot .nil).toList ++ ch.toList) :=
      hperm₃.trans (hperm₂.append_left _)
    have hr₂ : r₂ ∈ ch.toList := hperm₂.mem_iff.mp (by simp)
    have hr₃ : r₃ = q.unpackRoot := by
      refine (pqueueMerge_root (hrestF₂.valid _ (by simp)) (hforest₂.valid r₂ (by simp))
        (hdisj r₂ (by simp [hr₂]) _ (by simp)).symm hs₃).trans (mergeOrder_of_above ?_)
      rw [Comparator.Above, hkeeps₂.rank, hρ₁ _ hroot.symm,
        hρ₁ r₂ (ne_of_mem_of_not_mem hr₂ hsub.notMem)]
      exact h.root_above (hperm.mem_iff.mpr (by simp [hr₂]))
    simp only [hs₂, hs₃, ok_bind]
    refine ⟨_, _, rfl, hrep, ?_, ?_, hflags, hrep.root.trans hr₃⟩
    · refine hperm.trans (.trans ?_ (hall.symm.cons elt))
      rw [Tree.toList_node ch, Tree.toList_nil, List.append_assoc, List.singleton_append]
      exact List.perm_middle.trans (List.perm_append_comm.cons elt)
    · have hin : ∀ l : List (BitVec w), l ⊆ (Tree.node ch' q.unpackRoot .nil).toList ++ ch.toList →
          l ⊆ (Tree.node ch₃ r₃ .nil).toList := fun l hl a ha => hall.mem_iff.mpr (hl ha)
      exact ((hkeeps.mono (hin _ (by simp))).trans (hkeeps₂.mono (hin _ (by simp)))).trans
        (hkeeps₃.mono hperm₃.symm.subset)

/-- `priority_queue_entry_init` clears the entry. -/
theorem priorityQueueEntryInit_eq {s : Store E K w} (helt : elt ≠ 0) :
    ∃ s', priorityQueueEntryInit s elt = .ok s' ∧
      s'.fields = Function.update s.fields elt ⟨0, 0, 0, keyNone⟩ ∧ s'.data = s.data := by
  unfold priorityQueueEntryInit
  simp only [Store.modify_ok helt, ok_bind]
  refine ⟨_, rfl, ?_, rfl⟩
  rw [Store.fields_setKey, Store.fields_packChild _ _ LawfulLayout.packable_zero]
  simp

/-- Clearing an entry that a removal has taken out leaves the heap alone. -/
theorem Queue.Rep.entryInit {q' : Queue E K w} {t' : Tree (BitVec w)} (hrep : q'.Rep c q'.rank t')
    (hperm : t.toList.Perm (elt :: t'.toList)) (hnodup : t.toList.Nodup) (helt : elt ≠ 0)
    (hkeeps : q.Keeps q'.toStore t'.toList) (hflags : q'.flags = q.flags) :
    ∃ s, priorityQueueEntryInit q'.toStore elt = .ok s ∧
      { q' with toStore := s }.Rep c s.rank t' ∧
      q.Changes { q' with toStore := s } t.toList elt keyNone ∧
      s.fields elt = ⟨0, 0, 0, keyNone⟩ := by
  obtain ⟨s, hs, hf, hd⟩ := priorityQueueEntryInit_eq (s := q'.toStore) helt
  have hnew : elt ∉ t'.toList := (List.nodup_cons.mp (hperm.nodup_iff.mp hnodup)).1
  have hother : ∀ a ≠ elt, s.fields a = q'.fields a := fun a ha => by
    rw [hf, Function.update_of_ne ha]
  refine ⟨s, hs, ⟨hrep.forest.frame ?_ ?_, hrep.root, hrep.single⟩, ⟨?_, ?_, ?_, ?_, hflags⟩, ?_⟩
  · exact fun a ha => hother a (ne_of_mem_of_not_mem ha hnew)
  · intro a ha
    rw [Store.rank, hother a (ne_of_mem_of_not_mem ha hnew), hd]
    rfl
  · intro a ha
    rw [hperm.mem_iff, List.mem_cons, not_or] at ha
    exact (hother a ha.1).trans (hkeeps.fields a ha.2)
  · simp [hf]
  · exact fun a ha => by rw [hother a ha, hkeeps.key]
  · exact hd.trans hkeeps.data
  · simp [hf]

/-- `priority_queue_remove` of a member. -/
theorem priorityQueueRemove_spec (hmeld : Melds c pairMeld) (h : q.Rep c ρ t)
    (hmem : elt ∈ t.toList) (hρ : ∀ a ≠ elt, ρ a = q.rank a) :
    ∃ q' t' b, priorityQueueRemove pairMeld c.compare q elt = .ok (q', b) ∧
      q'.Rep c q'.rank t' ∧ t.toList.Perm (elt :: t'.toList) ∧
      q.Changes q' t.toList elt keyNone ∧ q'.fields elt = ⟨0, 0, 0, keyNone⟩ ∧
      (b = true ↔ elt = q.unpackRoot) ∧ (b = false → q'.unpackRoot = q.unpackRoot) := by
  have helt : elt ≠ 0 := (h.forest.valid elt hmem).ne_zero
  unfold priorityQueueRemove
  by_cases hroot : elt = q.unpackRoot
  · rw [if_pos hroot]
    obtain ⟨ch, rfl⟩ := h.eq_node hmem hroot
    obtain ⟨q', t', hq', hrep, hperm, hkeeps, hflags⟩ := pqueueRemoveRoot_spec hmeld h hρ
    have hperm' : (Tree.node ch elt .nil).toList.Perm (elt :: t'.toList) := by
      rw [Tree.toList_node, Tree.toList_nil]
      exact (List.perm_append_singleton _ _).trans (hperm.symm.cons elt)
    obtain ⟨s, hs, hrep', hchg, hclear⟩ := hrep.entryInit hperm' h.forest.nodup helt
      (hkeeps.mono hperm.symm.subset) hflags
    simp only [hq', hs, ok_bind]
    exact ⟨_, t', true, rfl, hrep', hperm', hchg, hclear, iff_of_true rfl hroot,
      fun hfalse => absurd hfalse Bool.true_eq_false.mp⟩
  · rw [if_neg hroot]
    obtain ⟨q', t', hq', hrep, hperm, hkeeps, hflags, hsame⟩ :=
      pqueueRemoveNonRoot_spec hmeld h hmem hroot hρ
    obtain ⟨s, hs, hrep', hchg, hclear⟩ := hrep.entryInit hperm h.forest.nodup helt hkeeps hflags
    simp only [hq', hs, ok_bind]
    exact ⟨_, t', false, rfl, hrep', hperm, hchg, hclear,
      iff_of_false Bool.false_ne_true hroot, fun _ => hsame⟩

end Remove

section Update

variable [EntryLayout E w] {c : Comparator K} {pairMeld : PairMeld E K w}
  {ρ ρ' : BitVec w → Rank K} {q q' q'' : Queue E K w} {t : Tree (BitVec w)} {elt : BitVec w}
  {k : UInt8}

/-- Two operations on the same entry change what the second one leaves. -/
theorem Queue.Changes.trans {foot : List (BitVec w)} {k' : UInt8}
    (h : q.Changes q' foot elt k) (h' : q'.Changes q'' foot elt k') :
    q.Changes q'' foot elt k' where
  fields a ha := (h'.fields a ha).trans (h.fields a ha)
  key := h'.key
  otherKey a ha := (h'.otherKey a ha).trans (h.otherKey a ha)
  data := h'.data.trans h.data
  flags := h'.flags.trans h.flags

theorem Queue.Changes.mono {foot foot' : List (BitVec w)} (h : q.Changes q' foot elt k)
    (hsub : foot ⊆ foot') : q.Changes q' foot' elt k where
  fields a ha := h.fields a fun hmem => ha (hsub hmem)
  key := h.key
  otherKey := h.otherKey
  data := h.data
  flags := h.flags

/-- An entry that is not worse than its descendants under its new rank keeps its
subtree in order. -/
theorem Store.Subtree.rerank {s : Store E K w} {ch : Tree (BitVec w)}
    (h : s.Subtree c ρ ch elt) (hρ : ∀ a ≠ elt, ρ' a = ρ a)
    (hkeep : ∀ b ∈ ch.toList, c.Above ρ elt b → c.Above ρ' elt b) :
    s.Subtree c ρ' ch elt where
  child := h.child
  chain := h.chain
  nodup := h.nodup
  valid := h.valid
  ordered := by
    have hne : ∀ a ∈ ch.toList, a ≠ elt := fun a ha => ne_of_mem_of_not_mem ha h.notMem
    refine ⟨fun b hb => hkeep b hb (h.ordered.1 b hb), h.ordered.2.1.imp ?_, trivial⟩
    intro a ha b hb hab
    rwa [Comparator.Above, hρ a (hne a ha), hρ b (hne b hb)]

variable [LawfulLayout E w]

/-- `priority_queue_entry_decrease` of a member whose priority has changed. -/
theorem priorityQueueEntryDecrease_spec (hmeld : Melds c pairMeld)
    (hk : q.hasBuiltinKeys = true ∨ k = keyNone) (h : q.Rep c ρ t) (hmem : elt ∈ t.toList)
    (hρ : ∀ a ≠ elt, ρ a = q.rank a) :
    ∃ q' t' b, priorityQueueEntryDecrease pairMeld c.compare q elt k = .ok (q', b) ∧
      q'.Rep c q'.rank t' ∧ t'.toList.Perm t.toList ∧
      q.Changes q' t.toList elt (if q.hasBuiltinKeys then k else keyNone) ∧
      (b = true ↔ elt = q.unpackRoot) ∧
      (elt ≠ q.unpackRoot → c.Above q'.rank q.unpackRoot elt → q'.unpackRoot = q.unpackRoot) := by
  obtain ⟨q₁, t₁, b₁, hq₁, hrep₁, hperm₁, hchg₁, hclear, hwas, hkept⟩ :=
    priorityQueueRemove_spec hmeld h hmem hρ
  have hbuiltin : q₁.hasBuiltinKeys = q.hasBuiltinKeys := by
    rw [Queue.hasBuiltinKeys_eq, hchg₁.flags, ← Queue.hasBuiltinKeys_eq]
  obtain ⟨q₂, t₂, b₂, hq₂, hrep₂, hperm₂, hchg₂, hreports⟩ := priorityQueueInsert_spec (k := k)
    (by rwa [hbuiltin]) hrep₁ (h.forest.valid elt hmem)
    (List.nodup_cons.mp (hperm₁.nodup_iff.mp h.forest.nodup)).1 (by rw [hclear]) (by rw [hclear])
    (by rw [hclear])
  have hall : (t₁.toList ++ [elt]).Perm t.toList :=
    (List.perm_append_singleton _ _).trans hperm₁.symm
  have hkey : q₁.newKey elt k = if q.hasBuiltinKeys then k else keyNone := by
    rw [Queue.newKey, hbuiltin, hclear]
  unfold priorityQueueEntryDecrease
  simp only [hq₁, hq₂, ok_bind]
  refine ⟨q₂, t₂, b₁, rfl, hrep₂, hperm₂.trans hall,
    hkey ▸ hchg₁.trans (hchg₂.mono hall.subset), hwas, fun hne habove => ?_⟩
  have hb₁ : b₁ = false := Bool.eq_false_iff.mpr fun hb => hne (hwas.mp hb)
  have hstays := hreports.stays
  rw [hkept hb₁] at hstays
  exact hstays (h.forest.valid _ (h.root_mem hmem)).ne_zero habove

/-- A new key for a root that stays above the other members. -/
theorem Queue.Rep.rekeyRoot {ch : Tree (BitVec w)} (hk : q.hasBuiltinKeys = true ∨ k = keyNone)
    (h : q.Rep c ρ (.node ch elt .nil))
    (hρ : ∀ a ≠ elt, q.rankWith elt (q.newKey elt k) a = ρ a)
    (hkeep : ∀ b ∈ ch.toList, c.Above ρ elt b →
      c.Above (q.rankWith elt (q.newKey elt k)) elt b) :
    ∃ q', pqueueUpdateKey q elt k = .ok q' ∧ q'.Rep c q'.rank (.node ch elt .nil) ∧
      q.Changes q' (Tree.node ch elt .nil).toList elt (q.newKey elt k) := by
  have hmem : elt ∈ (Tree.node ch elt .nil).toList := by simp
  obtain ⟨q', hq', hpacked, hdata, hf⟩ := pqueueUpdateKey_eq (h.forest.valid elt hmem).ne_zero hk
  have hsub := h.forest.subtree.rerank hρ hkeep
  have hflags : q'.flags = q.flags := by rw [Queue.flags, hpacked, Queue.flags]
  refine ⟨q', hq', ⟨⟨?_, h.forest.nodup, h.forest.valid, ?_⟩, ?_, .inr ⟨ch, elt, rfl⟩⟩, ?_⟩
  · exact hf ▸ h.forest.chain.rekey
  · rw [rank_of_rekey hf hdata]
    exact hsub.ordered
  · rw [← h.root, Queue.unpackRoot, hpacked, Queue.unpackRoot]
  · exact .of_rekey hf hdata ⟨fun _ _ => rfl, fun _ => rfl, rfl⟩ hmem hflags

/-- `priority_queue_entry_increase` of a member that stays above every member it was
above before. -/
theorem priorityQueueEntryIncrease_spec (hk : q.hasBuiltinKeys = true ∨ k = keyNone)
    (h : q.Rep c ρ t) (hmem : elt ∈ t.toList) (hρ : ∀ a ≠ elt, ρ a = q.rank a)
    (hkeep : ∀ b ∈ t.toList, b ≠ elt → c.Above ρ elt b →
      c.Above (q.rankWith elt (q.newKey elt k)) elt b) :
    ∃ q' t' b, priorityQueueEntryIncrease c.compare q elt k = .ok (q', b) ∧
      q'.Rep c q'.rank t' ∧ t'.toList.Perm t.toList ∧
      q.Changes q' t.toList elt (q.newKey elt k) ∧
      (b = false → elt ≠ q.unpackRoot ∧ q'.unpackRoot = q.unpackRoot) := by
  have hρ' : ∀ a ≠ elt, q.rankWith elt (q.newKey elt k) a = ρ a := fun a ha => by
    rw [Store.rankWith_of_ne _ ha, hρ a ha]
  unfold priorityQueueEntryIncrease
  by_cases hroot : elt = q.unpackRoot
  · rw [if_pos hroot]
    obtain ⟨ch, rfl⟩ := h.eq_node hmem hroot
    obtain ⟨q₁, hq₁, hrep₁, hchg₁⟩ := h.rekeyRoot hk hρ' fun b hb =>
      hkeep b (by simp [hb]) (ne_of_mem_of_not_mem hb h.forest.subtree.notMem)
    rw [hq₁, ok_bind]
    exact ⟨q₁, .node ch elt .nil, true, rfl, hrep₁, .refl _, hchg₁,
      fun hfalse => absurd hfalse Bool.true_eq_false.mp⟩
  · rw [if_neg hroot]
    obtain ⟨s₁, ch, ch', hs₁, hforest, hsub, hkeeps, hperm, hdisj⟩ := h.listRemove hmem hroot
    have hkey : { q with toStore := s₁ }.newKey elt k = q.newKey elt k := by
      rw [Queue.newKey, hkeeps.key elt]
      rfl
    have hrank : s₁.rankWith elt (q.newKey elt k) = q.rankWith elt (q.newKey elt k) := by
      rw [Store.rankWith, hkeeps.rank, hkeeps.data, Store.rankWith]
    have hsub' := hsub.rerank hρ' fun b hb => hkeep b (hperm.mem_iff.mpr (by simp [hb]))
      (ne_of_mem_of_not_mem hb hsub.notMem)
    have hforest' : s₁.Forest c (q.rankWith elt (q.newKey elt k)) 0
        (.node ch' q.unpackRoot .nil) := hforest.frame (fun _ _ => rfl)
      fun a ha => hρ' a (hdisj elt (by simp) a ha).symm
    rw [← hrank, ← hkey] at hsub' hforest'
    obtain ⟨q₂, t₂, b₂, hq₂, hrep₂, hperm₂, hchg₂, hreports⟩ := priorityQueueInsert_subtree
      (q := { q with toStore := s₁ }) hk ⟨hforest', rfl, .inr ⟨ch', _, rfl⟩⟩ hsub'
      (fun x hx y hy => (hdisj y hy x hx).symm) nofun
    have hall := List.perm_append_comm.trans hperm.symm
    rw [hs₁, ok_bind]
    refine ⟨q₂, t₂, b₂, hq₂, hrep₂, hperm₂.trans hall, ?_, fun hfalse => ?_⟩
    swap
    · subst hfalse
      exact ⟨hroot, hreports.kept⟩
    rw [hkey] at hchg₂
    have hchg := hchg₂.mono hall.subset
    have hsub₁ := hkeeps.mono fun a ha => hperm.mem_iff.mpr (List.mem_append_right _ ha)
    exact ⟨fun a ha => (hchg.fields a ha).trans (hsub₁.fields a ha), hchg.key,
      fun a ha => (hchg.otherKey a ha).trans (hkeeps.key a), hchg.data.trans hkeeps.data,
      hchg.flags⟩

end Update

end MacKernel.PriorityQueue
