import MacKernel.Models.PriorityQueue.Contract

/-!
# What the operations report about the root

The routines of the queue return whether the root may have changed, so that a caller
can keep what it last saw there. On every reachable heap a negative answer is right,
as long as an increase raises the entry and a decrease does not lift an entry above
the root: a decrease answers whether the entry was the root, not whether it became it.
-/

namespace MacKernel.PriorityQueue

variable {E K : Type} {w : Nat} [EntryLayout E w] {c : Comparator K}
  {pairMeld : PairMeld E K w} {flags : BitVec w} {s s' s₀ : System E K w}
  {calls : List (Call K w)}

/-- The root and what the comparator reads of it. -/
def Queue.rootView (q : Queue E K w) : BitVec w × Rank K := (q.unpackRoot, q.rank q.unpackRoot)

/-- The boolean that a call returns. The initialisation of an entry returns nothing and is no
reason to look at the root; the variants that extract the root are. -/
def System.answer (pairMeld : PairMeld E K w) (cmpFn : CompareFn K) (s : System E K w) :
    Call K w → Except Fault Bool
  | .entryInit _ => return false
  | .insert elt key data => do
    return (← priorityQueueInsert cmpFn (s.que.setData elt data) elt key).2
  | .remove elt => do
    return (← priorityQueueRemove pairMeld cmpFn s.que elt).2
  | .increase elt key data => do
    return (← priorityQueueEntryIncrease cmpFn (s.que.setData elt data) elt key).2
  | .decrease elt key data => do
    return (← priorityQueueEntryDecrease pairMeld cmpFn (s.que.setData elt data) elt key).2
  | .removeMax | .removeMin => return true

/-- A decrease does not lift an entry above the root. -/
def System.Lowers (c : Comparator K) (s : System E K w) : Call K w → Prop
  | .decrease elt key data => elt ≠ s.que.unpackRoot →
      0 ≤ c.compare (s.que.rank s.que.unpackRoot)
        ⟨EntryLayout.keyInt E (if s.que.hasBuiltinKeys then key else keyNone), data⟩
  | _ => True

/-- The call returns; a negative answer means the same root with the same key, and a positive
one of an insertion or removal that the entry has become, or was, the root. -/
def System.ReportsRoot (c : Comparator K) (pairMeld : PairMeld E K w) (s : System E K w)
    (call : Call K w) : Prop :=
  ∃ s' b, s.perform pairMeld c.compare call = .ok s' ∧
    s.answer pairMeld c.compare call = .ok b ∧
    (b = false → s'.que.rootView = s.que.rootView) ∧
    (∀ elt key data, call = .insert elt key data → (b = true ↔ s'.que.unpackRoot = elt)) ∧
    ∀ elt, call = .remove elt → (b = true ↔ s.que.unpackRoot = elt)

/-- A raising step whose decreases lower, by a caller that keeps what it saw at the root and
looks again only after a positive answer. -/
def CachedStep (c : Comparator K) (pairMeld : PairMeld E K w)
    (s : System E K w × (BitVec w × Rank K)) (call : Call K w)
    (s' : System E K w × (BitVec w × Rank K)) : Prop :=
  RaisingStep c pairMeld s.1 call s'.1 ∧ s.1.Lowers c call ∧
    ∃ b, s.1.answer pairMeld c.compare call = .ok b ∧
      s'.2 = if b then s'.1.que.rootView else s.2

section Answers

variable {elt : BitVec w} {key : UInt8} {data : K} {q q' : Queue E K w}

/-- The same root, which the call has not given a rank, has the same rank. -/
theorem Queue.Changes.rootView_eq {foot : List (BitVec w)} {k : UInt8}
    (hchg : (q.setData elt data).Changes q' foot elt k) (hroot : q'.unpackRoot = q.unpackRoot)
    (hne : elt ≠ q.unpackRoot) : q'.rootView = q.rootView := by
  rw [Queue.rootView, Queue.rootView, hroot, hchg.rank, Store.rankWith_of_ne k hne.symm,
    Queue.rank_setData_of_ne hne.symm]

/-- An entry outside the queue is not its root. -/
theorem System.Inv.ne_root (h : s.Inv c flags) (hv : Valid E elt) (hout : elt ∉ s.members) :
    elt ≠ s.que.unpackRoot := by
  obtain ⟨t, hrep, hmem⟩ := h.heap
  rw [hrep.root]
  rcases top_mem_or (t := t) with hzero | hin
  · rw [hzero]
    exact hv.ne_zero
  · rintro rfl
    exact hout ((hmem _).mp hin)

variable [LawfulLayout E w]

theorem System.Inv.reports_entryInit (h : s.Inv c flags) (hv : Valid E elt)
    (hout : elt ∉ s.members) : s.ReportsRoot c pairMeld (.entryInit elt) := by
  obtain ⟨store, hs, hf, hd⟩ := priorityQueueEntryInit_eq (s := s.que.toStore) hv.ne_zero
  have hne := h.ne_root hv hout
  refine ⟨_, false, by rw [System.perform, hs]; rfl, rfl, fun _ => ?_, ?_, ?_⟩
  · change (s.que.unpackRoot, store.rank s.que.unpackRoot) = _
    rw [Queue.rootView, Store.rank, hf, Function.update_of_ne hne.symm, hd]
    rfl
  · intro _ _ _ hcall
    cases hcall
  · intro _ hcall
    cases hcall

theorem System.Inv.reports_insert (h : s.Inv c flags) (helt : elt ∈ s.idle)
    (hk : s.que.TakesKey key) (hchild : (s.que.fields elt).child = 0) :
    s.ReportsRoot c pairMeld (.insert elt key data) := by
  obtain ⟨t, hrep, hmem⟩ := h.heap
  obtain ⟨q', t', b, hq', -, -, hchg, hreports⟩ := h.insert_spec hrep hmem helt hk hchild data
  have hne := h.ne_root (h.idleValid elt helt) (h.idleOut elt helt)
  refine ⟨_, b, by rw [System.perform, hq']; rfl, by rw [System.answer, hq']; rfl, ?_, ?_, ?_⟩
  · rintro rfl
    exact hchg.rootView_eq hreports.kept hne
  · intro _ _ _ hcall
    cases hcall
    exact hreports.became
  · intro _ hcall
    cases hcall

theorem System.Inv.reports_remove (hmeld : Melds c pairMeld) (h : s.Inv c flags)
    (helt : elt ∈ s.members) : s.ReportsRoot c pairMeld (.remove elt) := by
  obtain ⟨t, hrep, hmem⟩ := h.heap
  obtain ⟨q', t', b, hq', -, -, hchg, -, hwas, hkept⟩ :=
    priorityQueueRemove_spec hmeld hrep ((hmem elt).mpr helt) fun _ _ => rfl
  refine ⟨_, b, by rw [System.perform, hq']; rfl, by rw [System.answer, hq']; rfl, ?_, ?_, ?_⟩
  · rintro rfl
    have hne : elt ≠ s.que.unpackRoot := fun hroot => Bool.false_ne_true (hwas.mpr hroot)
    rw [Queue.rootView, Queue.rootView, hkept rfl, hchg.rank, Store.rankWith_of_ne _ hne.symm]
  · intro _ _ _ hcall
    cases hcall
  · intro _ hcall
    cases hcall
    exact hwas.trans eq_comm

theorem System.Inv.reports_increase (h : s.Inv c flags) (helt : elt ∈ s.members)
    (hk : s.que.TakesKey key) (hraise : s.Raises c (.increase elt key data)) :
    s.ReportsRoot c pairMeld (.increase elt key data) := by
  obtain ⟨t, hrep, hmem⟩ := h.heap
  obtain ⟨q', t', b, hq', -, -, hchg, hkept⟩ := System.increase_spec hrep hmem helt hk hraise
  refine ⟨_, b, by rw [System.perform, hq']; rfl, by rw [System.answer, hq']; rfl, ?_, ?_, ?_⟩
  · intro hb
    exact hchg.rootView_eq (hkept hb).2 (hkept hb).1
  · intro _ _ _ hcall
    cases hcall
  · intro _ hcall
    cases hcall

/-- A decrease reports on the root exactly when it lowers: it answers whether the entry was the
root, and an entry that is lifted above the root becomes it. -/
theorem System.Inv.reports_decrease_iff (hmeld : Melds c pairMeld) (h : s.Inv c flags)
    (helt : elt ∈ s.members) (hk : s.que.TakesKey key) :
    s.ReportsRoot c pairMeld (.decrease elt key data) ↔ s.Lowers c (.decrease elt key data) := by
  obtain ⟨t, hrep, hmem⟩ := h.heap
  obtain ⟨q', t', b, hq', hrep', hperm, hchg, hwas, hkept⟩ := priorityQueueEntryDecrease_spec
    (q := s.que.setData elt data) hmeld hk (hrep.setData elt data) ((hmem elt).mpr helt)
    fun a ha => (Queue.rank_setData_of_ne ha).symm
  change b = true ↔ elt = s.que.unpackRoot at hwas
  change elt ≠ s.que.unpackRoot → c.Above q'.rank s.que.unpackRoot elt →
    q'.unpackRoot = s.que.unpackRoot at hkept
  -- the new rank of the entry, against the rank that the root has kept
  have habove : elt ≠ s.que.unpackRoot → (c.Above q'.rank s.que.unpackRoot elt ↔
      0 ≤ c.compare (s.que.rank s.que.unpackRoot)
        ⟨EntryLayout.keyInt E (if s.que.hasBuiltinKeys then key else keyNone), data⟩) := by
    intro hne
    rw [Comparator.Above, hchg.rank, Store.rankWith_of_ne _ hne.symm,
      Queue.rank_setData_of_ne hne.symm, Store.rankWith, Function.update_self]
    simp only [Queue.setData, Function.update_self]
    rfl
  have hperform : s.perform pairMeld c.compare (.decrease elt key data) =
      .ok { s with que := q' } := by
    rw [System.perform, hq']
    rfl
  have hanswer : s.answer pairMeld c.compare (.decrease elt key data) = .ok b := by
    rw [System.answer, hq']
    rfl
  constructor
  · rintro ⟨s', b', hs', hb', hfalse, -⟩ hne
    obtain rfl := Except.ok.inj (hperform.symm.trans hs')
    obtain rfl := Except.ok.inj (hanswer.symm.trans hb')
    have hb : b = false := Bool.eq_false_iff.mpr fun hb => hne (hwas.mp hb)
    have hroot : q'.unpackRoot = s.que.unpackRoot := congrArg Prod.fst (hfalse hb)
    refine (habove hne).mp ?_
    rw [← hroot]
    exact hrep'.root_above (hperm.mem_iff.mpr ((hmem elt).mpr helt))
  · intro hlower
    refine ⟨_, b, hperform, hanswer, ?_, ?_, ?_⟩
    · intro hb
      have hne : elt ≠ s.que.unpackRoot := fun heq => Bool.eq_false_iff.mp hb (hwas.mpr heq)
      exact hchg.rootView_eq (hkept hne ((habove hne).mpr (hlower hne))) hne
    · intro _ _ _ hcall
      cases hcall
    · intro _ hcall
      cases hcall

/-- A promised call that does not extract the root reports on it exactly when it lowers. -/
theorem System.Inv.reports_iff (hmeld : Melds c pairMeld) (h : s.Inv c flags) {call : Call K w}
    (hx : ¬ call.Extracts) (hp : s.Promised call) (hraise : s.Raises c call)
    (hun : s.Unlinked call) : s.ReportsRoot c pairMeld call ↔ s.Lowers c call := by
  cases call with
  | entryInit elt => exact iff_of_true (h.reports_entryInit hp.1 hp.2) trivial
  | insert elt key data => exact iff_of_true (h.reports_insert hp.1 hp.2 hun) trivial
  | remove elt => exact iff_of_true (h.reports_remove hmeld hp) trivial
  | increase elt key data => exact iff_of_true (h.reports_increase hp.1 hp.2 hraise) trivial
  | decrease elt key data => exact h.reports_decrease_iff hmeld hp.1 hp.2
  | removeMax => exact absurd trivial hx
  | removeMin => exact absurd trivial hx

end Answers

section Runs

variable [LawfulLayout E w]

/-- A caller that was up to date before a step is so after it. -/
theorem CachedStep.upToDate {call : Call K w} {v v' : System E K w × (BitVec w × Rank K)}
    (hmeld : Melds c pairMeld)
    (h : (v.1.Inv c flags ∧ v.1.Clean) ∧ v.2 = v.1.que.rootView)
    (hstep : CachedStep c pairMeld v call v') :
    (v'.1.Inv c flags ∧ v'.1.Clean) ∧ v'.2 = v'.1.que.rootView := by
  obtain ⟨⟨hinv, hclean⟩, hcache⟩ := h
  obtain ⟨hraising, hlower, b, hb, hnew⟩ := hstep
  refine ⟨hraising.inv hmeld ⟨hinv, hclean⟩, ?_⟩
  obtain ⟨⟨hx, hp, hs'⟩, hraise⟩ := hraising
  obtain ⟨s', b', hs'', hb', hkept, -⟩ :=
    (hinv.reports_iff hmeld hx hp hraise (hclean.unlinked hp)).mpr hlower
  obtain rfl : s' = v'.1 := Except.ok.inj (hs''.symm.trans hs')
  obtain rfl : b' = b := Except.ok.inj (hb'.symm.trans hb)
  cases b' with
  | true => exact hnew
  | false => exact hnew.trans (hcache.trans (hkept rfl).symm)

/-- On every reachable heap the calls report what they do to the root, decreases exactly when they
lower, and a caller that looks at it again only after a positive answer stays up to date as long
as decreases do. -/
theorem rootReports_of_run (hmeld : Melds c pairMeld) (hs : s₀.Fresh flags)
    (hrun : Run (RaisingStep c pairMeld) s₀ calls s) :
    (∀ call, ¬ call.Extracts → s.Promised call → s.Raises c call →
      (s.ReportsRoot c pairMeld call ↔ s.Lowers c call)) ∧
    ∀ further s' cache, Run (CachedStep c pairMeld) (s, s.que.rootView) further (s', cache) →
      cache = s'.que.rootView := by
  obtain ⟨hinv, hclean⟩ := hrun.invariant (fun s => s.Inv c flags ∧ s.Clean)
    (fun h hstep => hstep.inv hmeld h) ⟨hs.inv, hs.clean⟩
  constructor
  · intro call hx hp hraise
    exact hinv.reports_iff hmeld hx hp hraise (hclean.unlinked hp)
  · intro further s' cache hcached
    have hend := hcached.invariant
      (fun v => (v.1.Inv c flags ∧ v.1.Clean) ∧ v.2 = v.1.que.rootView)
      (fun h hstep => hstep.upToDate hmeld h) ⟨⟨hinv, hclean⟩, rfl⟩
    exact hend.2

/-- A max-queue with the entry `4` of key 5 at its root and the entry `8` of key 3 under it. -/
theorem twoEntries_run : ∃ s, Run (RaisingStep schedPriMax
    (meldSiblings (E := EntryLP64) (K := Unit) schedPriMax.compare)) (emptyQueue EntryLP64 0)
      [.entryInit 4, .insert 4 5 (), .entryInit 8, .insert 8 3 ()] s ∧
    s.que.unpackRoot = 4 ∧ s.Promised (.decrease 8 1 ()) ∧ s.Promised (.decrease 8 7 ()) ∧
    s.Lowers schedPriMax (.decrease 8 1 ()) ∧
    ∃ q', priorityQueueEntryDecrease (meldSiblings schedPriMax.compare) schedPriMax.compare
      (s.que.setData 8 ()) 8 7 = .ok (q', false) ∧ q'.unpackRoot = 8 := by
  refine ⟨_, .snoc (.snoc (.snoc (.snoc .nil
      ⟨⟨id, ⟨⟨by decide, by decide, rfl⟩, by decide⟩, rfl⟩, trivial⟩)
      ⟨⟨id, ⟨by decide, .inl rfl⟩, rfl⟩, trivial⟩)
      ⟨⟨id, ⟨⟨by decide, by decide, rfl⟩, by decide⟩, rfl⟩, trivial⟩)
      ⟨⟨id, ⟨by decide, .inl rfl⟩, rfl⟩, trivial⟩, by decide, ⟨by decide, .inl rfl⟩,
    ⟨by decide, .inl rfl⟩, fun _ => by decide, _, rfl, by decide⟩

theorem rootReports_of_run_twoEntries : ∃ s, Run (RaisingStep schedPriMax
    (meldSiblings (E := EntryLP64) (K := Unit) schedPriMax.compare)) (emptyQueue EntryLP64 0)
      [.entryInit 4, .insert 4 5 (), .entryInit 8, .insert 8 3 ()] s ∧
    s.ReportsRoot schedPriMax (meldSiblings schedPriMax.compare) (.decrease 8 1 ()) := by
  obtain ⟨s, hrun, -, hp, -, hlower, -⟩ := twoEntries_run
  exact ⟨s, hrun, ((rootReports_of_run meldSiblings_melds (emptyQueue_fresh (by decide)) hrun).1
    _ id hp trivial).mpr hlower⟩

omit [LawfulLayout E w] in
/-- An answer that nothing changed is wrong when another entry is the root. -/
theorem not_reportsRoot_decrease {elt : BitVec w} {key : UInt8} {data : K} {q' : Queue E K w}
    (hq' : priorityQueueEntryDecrease pairMeld c.compare (s.que.setData elt data) elt key =
      .ok (q', false)) (hroot : q'.unpackRoot ≠ s.que.unpackRoot) :
    ¬ s.ReportsRoot c pairMeld (.decrease elt key data) := by
  rintro ⟨s', b, hs', hb, hkept, -⟩
  rw [System.perform, hq'] at hs'
  rw [System.answer, hq'] at hb
  cases hs'
  cases hb
  exact hroot (congrArg Prod.fst (hkept rfl))

/-- A decrease to a better key makes the entry the root and answers that nothing changed: on a
max-queue with a larger key, and on a min-queue with a smaller one. -/
theorem lifting_decrease_not_reported :
    (Melds schedPriMax (meldSiblings (E := EntryLP64) (K := Unit) schedPriMax.compare) ∧
      (emptyQueue EntryLP64 0).Fresh 0 ∧
      ∃ s, Run (RaisingStep schedPriMax (meldSiblings schedPriMax.compare))
          (emptyQueue EntryLP64 0) [.entryInit 4, .insert 4 5 (), .entryInit 8, .insert 8 3 ()] s ∧
        s.Promised (.decrease 8 7 ()) ∧
        ¬ s.ReportsRoot schedPriMax (meldSiblings schedPriMax.compare) (.decrease 8 7 ())) ∧
    Melds schedPriMin (meldSiblings (E := EntryLP64) (K := Unit) schedPriMin.compare) ∧
      (emptyQueue EntryLP64 minHeap).Fresh minHeap ∧
      ∃ s, Run (RaisingStep schedPriMin (meldSiblings schedPriMin.compare))
          (emptyQueue EntryLP64 minHeap)
          [.entryInit 4, .insert 4 3 (), .entryInit 8, .insert 8 5 ()] s ∧
        s.Promised (.decrease 8 1 ()) ∧
        ¬ s.ReportsRoot schedPriMin (meldSiblings schedPriMin.compare) (.decrease 8 1 ()) := by
  constructor
  · obtain ⟨s, hrun, hroot, -, hp, -, q', hq', hroot'⟩ := twoEntries_run
    refine ⟨meldSiblings_melds, emptyQueue_fresh (by decide), s, hrun, hp,
      not_reportsRoot_decrease hq' ?_⟩
    rw [hroot, hroot']
    decide
  · refine ⟨meldSiblings_melds, emptyQueue_fresh (by decide), _, .snoc (.snoc (.snoc (.snoc .nil
      ⟨⟨id, ⟨⟨by decide, by decide, rfl⟩, by decide⟩, rfl⟩, trivial⟩)
      ⟨⟨id, ⟨by decide, .inl rfl⟩, rfl⟩, trivial⟩)
      ⟨⟨id, ⟨⟨by decide, by decide, rfl⟩, by decide⟩, rfl⟩, trivial⟩)
      ⟨⟨id, ⟨by decide, .inl rfl⟩, rfl⟩, trivial⟩, ⟨by decide, .inl rfl⟩,
      not_reportsRoot_decrease rfl (by decide)⟩

end Runs

end MacKernel.PriorityQueue
