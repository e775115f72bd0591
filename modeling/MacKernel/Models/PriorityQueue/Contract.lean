import MacKernel.Models.PriorityQueue.Meld
import MacKernel.Models.PriorityQueue.System

/-!
# The contract of the queue over whole runs

Runs in which entries are initialised before they are inserted and increases do not
worsen an entry keep the heap well formed, ordered and complete, and no call of
such a run fails. Entries extracted by the max and min variants keep a stale child
link; runs that insert only entries without one stay well formed.
-/

namespace MacKernel.PriorityQueue

variable {E K : Type} {w : Nat} [EntryLayout E w] {c : Comparator K}
  {pairMeld : PairMeld E K w} {flags : BitVec w} {s s₀ : System E K w}
  {calls : List (Call K w)}

/-- The links form a finite tree from the root that has every member exactly once
and no other entry. -/
def System.WellFormed (s : System E K w) : Prop :=
  ∃ t, Chain s.que.fields 0 t ∧ s.que.unpackRoot = top t ∧ t.toList.Nodup ∧
    ∀ a, a ∈ t.toList ↔ a ∈ s.members

/-- What the queue owes its callers: a well-formed tree in which no entry is worse
than one below it, an extremal root, and the flags it was initialised with. -/
structure System.Contract (c : Comparator K) (flags : BitVec w) (s : System E K w) : Prop where
  heap : ∃ t, Chain s.que.fields 0 t ∧ s.que.unpackRoot = top t ∧ t.toList.Nodup ∧
    (∀ a, a ∈ t.toList ↔ a ∈ s.members) ∧ t.HeapOrdered (c.Above s.que.rank)
  root : ∀ a ∈ s.members, s.que.unpackRoot ∈ s.members ∧
    c.Above s.que.rank s.que.unpackRoot a
  peek : ∀ r, priorityQueueMax s.que = .ok r ∨ priorityQueueMin s.que = .ok r →
    (s.members = ∅ ∧ r = 0) ∨ (r ∈ s.members ∧ ∀ a ∈ s.members, c.Above s.que.rank r a)
  flags : s.que.flags = flags

/-- A promised call by `priority_queue_insert`, `priority_queue_remove`,
`priority_queue_entry_increase` or `priority_queue_entry_decrease`, or the
initialisation of an entry, that returns. -/
def PlainStep (c : Comparator K) (pairMeld : PairMeld E K w) (s : System E K w)
    (call : Call K w) (s' : System E K w) : Prop :=
  ¬ call.Extracts ∧ s.Promised call ∧ s.perform pairMeld c.compare call = .ok s'

/-- A plain step in which an increase raises the entry. -/
def RaisingStep (c : Comparator K) (pairMeld : PairMeld E K w) (s : System E K w)
    (call : Call K w) (s' : System E K w) : Prop :=
  PlainStep c pairMeld s call s' ∧ s.Raises c call

/-- A promised call of any kind that raises what it increases and returns. -/
def ReuseStep (c : Comparator K) (pairMeld : PairMeld E K w) (s : System E K w)
    (call : Call K w) (s' : System E K w) : Prop :=
  s.Promised call ∧ s.Raises c call ∧ s.perform pairMeld c.compare call = .ok s'

/-- A reusing step that inserts only entries without a child link. -/
def UnlinkedStep (c : Comparator K) (pairMeld : PairMeld E K w) (s : System E K w)
    (call : Call K w) (s' : System E K w) : Prop :=
  ReuseStep c pairMeld s call s' ∧ s.Unlinked call

/-- The root of a heap-ordered tree is not worse than any entry of it. -/
theorem System.Inv.contract (h : s.Inv c flags) : s.Contract c flags := by
  obtain ⟨t, hrep, hmem⟩ := h.heap
  have hroot : ∀ a ∈ s.members, s.que.unpackRoot ∈ s.members ∧
      c.Above s.que.rank s.que.unpackRoot a := by
    intro a ha
    have hin := (hmem a).mpr ha
    exact ⟨(hmem _).mp (hrep.root_mem hin), hrep.root_above hin⟩
  refine ⟨⟨t, hrep.forest.chain, hrep.root, hrep.forest.nodup, hmem, hrep.forest.ordered⟩, hroot,
    ?_, h.flags⟩
  intro r hr
  have hunpack : r = s.que.unpackRoot := by
    unfold priorityQueueMax priorityQueueMin at hr
    split_ifs at hr <;> simp_all
  subst hunpack
  rcases s.members.eq_empty_or_nonempty with hempty | ⟨a, ha⟩
  · refine .inl ⟨hempty, ?_⟩
    rcases hrep.single with rfl | ⟨ch, r, rfl⟩
    · exact hrep.root
    · have hin := (hmem r).mp (by simp)
      simp [hempty] at hin
  · exact .inr ⟨(hroot a ha).1, fun b hb => (hroot b hb).2⟩

theorem System.Inv.wellFormed (h : s.Inv c flags) : s.WellFormed := by
  obtain ⟨t, hrep, hmem⟩ := h.heap
  exact ⟨t, hrep.forest.chain, hrep.root, hrep.forest.nodup, hmem⟩

variable [LawfulLayout E w]

/-- A raising step from a clean state keeps the invariant and clean idle entries. -/
theorem RaisingStep.inv {call : Call K w} {s' : System E K w} (hmeld : Melds c pairMeld)
    (h : s.Inv c flags ∧ s.Clean) (hstep : RaisingStep c pairMeld s call s') :
    s'.Inv c flags ∧ s'.Clean := by
  obtain ⟨⟨hx, hp, hs'⟩, hraise⟩ := hstep
  obtain ⟨s'', hs'', hinv, hclean, -⟩ := h.1.perform hmeld hp hraise (h.2.unlinked hp)
  obtain rfl : s'' = s' := Except.ok.inj (hs''.symm.trans hs')
  exact ⟨hinv, hclean hx h.2⟩

/-- A reusing step that inserts only unlinked entries keeps the invariant. -/
theorem UnlinkedStep.inv {call : Call K w} {s' : System E K w} (hmeld : Melds c pairMeld)
    (h : s.Inv c flags) (hstep : UnlinkedStep c pairMeld s call s') : s'.Inv c flags := by
  obtain ⟨⟨hp, hraise, hs'⟩, hun⟩ := hstep
  obtain ⟨s'', hs'', hinv, -⟩ := h.perform hmeld hp hraise hun
  obtain rfl : s'' = s' := Except.ok.inj (hs''.symm.trans hs')
  exact hinv

/-- Over every run of plain calls whose increases raise the entry, the queue keeps its
contract, and every further such call returns. -/
theorem contract_of_run (hmeld : Melds c pairMeld) (hs : s₀.Fresh flags)
    (hrun : Run (RaisingStep c pairMeld) s₀ calls s) :
    s.Contract c flags ∧ ∀ call, ¬ call.Extracts → s.Promised call → s.Raises c call →
      ∃ s', s.perform pairMeld c.compare call = .ok s' := by
  obtain ⟨hinv, hclean⟩ := hrun.invariant (fun s => s.Inv c flags ∧ s.Clean)
    (fun h hstep => hstep.inv hmeld h) ⟨hs.inv, hs.clean⟩
  refine ⟨hinv.contract, fun call _ hp hraise => ?_⟩
  obtain ⟨s', hs', -⟩ := hinv.perform hmeld hp hraise (hclean.unlinked hp)
  exact ⟨s', hs'⟩

/-- Over every run that also extracts the root and inserts extracted entries again, the
queue stays well formed as long as no inserted entry has a child link, and every
further such call returns. -/
theorem wellFormed_of_unlinked_run (hmeld : Melds c pairMeld) (hs : s₀.Fresh flags)
    (hrun : Run (UnlinkedStep c pairMeld) s₀ calls s) :
    s.WellFormed ∧ ∀ call, s.Promised call → s.Raises c call → s.Unlinked call →
      ∃ s', s.perform pairMeld c.compare call = .ok s' := by
  have hinv := hrun.invariant (fun s => s.Inv c flags) (fun h hstep => hstep.inv hmeld h) hs.inv
  refine ⟨hinv.wellFormed, fun call hp hraise hun => ?_⟩
  obtain ⟨s', hs', -⟩ := hinv.perform hmeld hp hraise hun
  exact ⟨s', hs'⟩

section Runs

/-- An empty queue whose entries are all clear and whose elements have no data. -/
def emptyQueue (E : Type) {w : Nat} [EntryLayout E w] [Inhabited E] (flags : BitVec w) :
    System E Unit w :=
  ⟨priorityQueueInit ⟨⟨fun _ => default, fun _ => ()⟩, 0⟩ flags, ∅, ∅⟩

theorem emptyQueue_fresh {E : Type} [EntryLayout E w] [Inhabited E] {flags : BitVec w}
    (h : flags &&& rootPointerMask = 0) : (emptyQueue E flags).Fresh flags :=
  ⟨⟨_, rfl⟩, h, rfl, rfl⟩

theorem contract_of_run_three : ∃ s, Run (RaisingStep schedPriMax
    (meldSiblings schedPriMax.compare)) (emptyQueue EntryLP64 0)
      [.entryInit 4, .insert 4 5 (), .entryInit 8, .insert 8 3 (), .increase 8 7 (), .remove 8] s ∧
    s.Contract schedPriMax 0 := by
  have hrun : Run (RaisingStep schedPriMax (meldSiblings schedPriMax.compare))
      (emptyQueue EntryLP64 0) [.entryInit 4, .insert 4 5 (), .entryInit 8, .insert 8 3 (),
        .increase 8 7 (), .remove 8] _ :=
    .snoc (.snoc (.snoc (.snoc (.snoc (.snoc .nil
      ⟨⟨nofun, ⟨⟨by decide, by decide, rfl⟩, by decide⟩, rfl⟩, trivial⟩)
      ⟨⟨nofun, ⟨by decide, .inl rfl⟩, rfl⟩, trivial⟩)
      ⟨⟨nofun, ⟨⟨by decide, by decide, rfl⟩, by decide⟩, rfl⟩, trivial⟩)
      ⟨⟨nofun, ⟨by decide, .inl rfl⟩, rfl⟩, trivial⟩)
      ⟨⟨nofun, ⟨by decide, .inl rfl⟩, rfl⟩, System.raises_of_compare (by decide)⟩)
      ⟨⟨nofun, by unfold System.Promised; decide, rfl⟩, trivial⟩
  exact ⟨_, hrun, (contract_of_run meldSiblings_melds (emptyQueue_fresh (by decide)) hrun).1⟩

/-- An increase to a worse key leaves a root that is worse than its child: on a
max-queue with a smaller key, and on a min-queue with a larger one. -/
theorem worsened_root_not_contract :
    (Melds schedPriMax (meldSiblings (E := EntryLP64) (K := Unit) schedPriMax.compare) ∧
      (emptyQueue EntryLP64 0).Fresh 0 ∧
      ∃ s, Run (PlainStep schedPriMax (meldSiblings schedPriMax.compare)) (emptyQueue EntryLP64 0)
        [.entryInit 4, .insert 4 5 (), .entryInit 8, .insert 8 3 (), .increase 4 1 ()] s ∧
      ¬ s.Contract schedPriMax 0) ∧
    Melds schedPriMin (meldSiblings (E := EntryLP64) (K := Unit) schedPriMin.compare) ∧
      (emptyQueue EntryLP64 minHeap).Fresh minHeap ∧
      ∃ s, Run (PlainStep schedPriMin (meldSiblings schedPriMin.compare))
        (emptyQueue EntryLP64 minHeap)
        [.entryInit 4, .insert 4 1 (), .entryInit 8, .insert 8 2 (), .increase 4 9 ()] s ∧
      ¬ s.Contract schedPriMin minHeap := by
  constructor
  · refine ⟨meldSiblings_melds, emptyQueue_fresh (by decide), _,
      .snoc (.snoc (.snoc (.snoc (.snoc .nil
      ⟨nofun, ⟨⟨by decide, by decide, rfl⟩, by decide⟩, rfl⟩)
      ⟨nofun, ⟨by decide, .inl rfl⟩, rfl⟩)
      ⟨nofun, ⟨⟨by decide, by decide, rfl⟩, by decide⟩, rfl⟩)
      ⟨nofun, ⟨by decide, .inl rfl⟩, rfl⟩)
      ⟨nofun, ⟨by decide, .inl rfl⟩, rfl⟩, fun h => ?_⟩
    exact absurd (h.root 8 (by decide)).2 (by decide)
  · refine ⟨meldSiblings_melds, emptyQueue_fresh (by decide), _,
      .snoc (.snoc (.snoc (.snoc (.snoc .nil
      ⟨nofun, ⟨⟨by decide, by decide, rfl⟩, by decide⟩, rfl⟩)
      ⟨nofun, ⟨by decide, .inl rfl⟩, rfl⟩)
      ⟨nofun, ⟨⟨by decide, by decide, rfl⟩, by decide⟩, rfl⟩)
      ⟨nofun, ⟨by decide, .inl rfl⟩, rfl⟩)
      ⟨nofun, ⟨by decide, .inl rfl⟩, rfl⟩, fun h => ?_⟩
    exact absurd (h.root 8 (by decide)).2 (by decide)

theorem wellFormed_of_unlinked_run_one : ∃ s, Run (UnlinkedStep schedPriMax
    (meldSiblings schedPriMax.compare)) (emptyQueue EntryLP64 0)
      [.entryInit 4, .insert 4 5 (), .removeMax, .insert 4 6 ()] s ∧ s.WellFormed := by
  have hrun : Run (UnlinkedStep schedPriMax (meldSiblings schedPriMax.compare))
      (emptyQueue EntryLP64 0) [.entryInit 4, .insert 4 5 (), .removeMax, .insert 4 6 ()] _ :=
    .snoc (.snoc (.snoc (.snoc .nil
      ⟨⟨⟨⟨by decide, by decide, rfl⟩, by decide⟩, trivial, rfl⟩, trivial⟩)
      ⟨⟨⟨by decide, .inl rfl⟩, trivial, rfl⟩, by unfold System.Unlinked; rfl⟩)
      ⟨⟨⟨⟨4, by decide⟩, rfl⟩, trivial, rfl⟩, trivial⟩)
      ⟨⟨⟨by decide, .inl rfl⟩, trivial, rfl⟩, by unfold System.Unlinked; rfl⟩
  exact ⟨_, hrun,
    (wellFormed_of_unlinked_run meldSiblings_melds (emptyQueue_fresh (by decide)) hrun).1⟩

/-- A root extracted above a child still points to it; inserted again, it makes the
child its own next sibling. -/
theorem reinserted_root_not_wellFormed :
    Melds schedPriMax (meldSiblings (E := EntryLP64) (K := Unit) schedPriMax.compare) ∧
      (emptyQueue EntryLP64 0).Fresh 0 ∧
      ∃ s, Run (ReuseStep schedPriMax (meldSiblings schedPriMax.compare)) (emptyQueue EntryLP64 0)
        [.entryInit 4, .insert 4 5 (), .entryInit 8, .insert 8 3 (), .removeMax,
          .insert 4 5 ()] s ∧
      ¬ s.WellFormed := by
  refine ⟨meldSiblings_melds, emptyQueue_fresh (by decide), _, .snoc (.snoc (.snoc (.snoc
    (.snoc (.snoc .nil
      ⟨⟨⟨by decide, by decide, rfl⟩, by decide⟩, trivial, rfl⟩)
      ⟨⟨by decide, .inl rfl⟩, trivial, rfl⟩)
      ⟨⟨⟨by decide, by decide, rfl⟩, by decide⟩, trivial, rfl⟩)
      ⟨⟨by decide, .inl rfl⟩, trivial, rfl⟩)
      ⟨⟨⟨4, by decide⟩, rfl⟩, trivial, rfl⟩)
      ⟨⟨by decide, .inl rfl⟩, trivial, rfl⟩, ?_⟩
  rintro ⟨t, hchain, -, hnodup, hmem⟩
  exact hchain.next_ne hnodup ((hmem 8).mpr (by decide)) (by decide) (by decide)

end Runs

end MacKernel.PriorityQueue
