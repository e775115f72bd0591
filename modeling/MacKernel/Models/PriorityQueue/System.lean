import Mathlib.Data.Finset.Basic
import MacKernel.Models.PriorityQueue.Operations

/-!
# A queue and its callers

The callers of one queue, with what they promise. The two sets of entries are
history variables: the members are the inserted entries less the removed ones, and
the idle entries are those that were initialised or taken out of the queue and not
inserted since. An element's own data changes only in a call that inserts it or
moves it.
-/

namespace MacKernel.PriorityQueue

variable {E K : Type} {w : Nat}

/-- A queue with the entries that are in it and those that can be put into it. -/
structure System (E K : Type) (w : Nat) where
  que : Queue E K w
  members : Finset (BitVec w)
  idle : Finset (BitVec w)

/-- The calls on a queue. Where the priority of an element is given or changed, the
caller writes the element's data just before the call. -/
inductive Call (K : Type) (w : Nat) where
  | entryInit (elt : BitVec w)
  | insert (elt : BitVec w) (key : UInt8) (data : K)
  | remove (elt : BitVec w)
  | increase (elt : BitVec w) (key : UInt8) (data : K)
  | decrease (elt : BitVec w) (key : UInt8) (data : K)
  | removeMax
  | removeMin

/-- The call is `priority_queue_remove_max` or `priority_queue_remove_min`. -/
def Call.Extracts : Call K w → Prop
  | .removeMax | .removeMin => True
  | _ => False

/-- The entry that a call gives a key, and the key. -/
def Call.given : Call K w → Option (BitVec w × UInt8)
  | .insert elt key _ | .increase elt key _ | .decrease elt key _ => some (elt, key)
  | _ => none

/-- The keys of all entries once a call has given its key. -/
def Call.giveKey (call : Call K w) (keys : BitVec w → UInt8) : BitVec w → UInt8 :=
  match call.given with
  | some (elt, key) => Function.update keys elt key
  | none => keys

/-- The caller writes the data of an element. -/
def Queue.setData (q : Queue E K w) (elt : BitVec w) (data : K) : Queue E K w :=
  { q with data := Function.update q.data elt data }

section Calls

variable [EntryLayout E w] (pairMeld : PairMeld E K w) (cmpFn : CompareFn K)

/-- Run one call. -/
def System.perform (s : System E K w) : Call K w → Except Fault (System E K w)
  | .entryInit elt => do
    let store ← priorityQueueEntryInit s.que.toStore elt
    return { s with que := { s.que with toStore := store }, idle := insert elt s.idle }
  | .insert elt key data => do
    let (que, _) ← priorityQueueInsert cmpFn (s.que.setData elt data) elt key
    return ⟨que, insert elt s.members, s.idle.erase elt⟩
  | .remove elt => do
    let (que, _) ← priorityQueueRemove pairMeld cmpFn s.que elt
    return ⟨que, s.members.erase elt, insert elt s.idle⟩
  | .increase elt key data => do
    let (que, _) ← priorityQueueEntryIncrease cmpFn (s.que.setData elt data) elt key
    return { s with que := que }
  | .decrease elt key data => do
    let (que, _) ← priorityQueueEntryDecrease pairMeld cmpFn (s.que.setData elt data) elt key
    return { s with que := que }
  | .removeMax => do
    let (que, elt) ← priorityQueueRemoveMax pairMeld s.que
    return ⟨que, s.members.erase elt, insert elt s.idle⟩
  | .removeMin => do
    let (que, elt) ← priorityQueueRemoveMin pairMeld s.que
    return ⟨que, s.members.erase elt, insert elt s.idle⟩

/-- A key can be given: any key to a queue with builtin keys, none to another. -/
def Queue.TakesKey (q : Queue E K w) (key : UInt8) : Prop :=
  q.hasBuiltinKeys = true ∨ key = keyNone

/-- What the callers promise: entries are initialised before they are inserted,
members are removed and moved, and the variant for the kind of heap is called. -/
def System.Promised (s : System E K w) : Call K w → Prop
  | .entryInit elt => Valid E elt ∧ elt ∉ s.members
  | .insert elt key _ => elt ∈ s.idle ∧ s.que.TakesKey key
  | .remove elt => elt ∈ s.members
  | .increase elt key _ | .decrease elt key _ => elt ∈ s.members ∧ s.que.TakesKey key
  | .removeMax => s.members.Nonempty ∧ s.que.isMaxHeap = true
  | .removeMin => s.members.Nonempty ∧ s.que.isMinHeap = true

/-- An increase leaves the entry not worse than every other member that it was not
worse than. -/
def System.Raises (c : Comparator K) (s : System E K w) : Call K w → Prop
  | .increase elt key data => ∀ b ∈ s.members, b ≠ elt → c.Above s.que.rank elt b →
      0 ≤ c.compare ⟨EntryLayout.keyInt E (s.que.newKey elt key), data⟩ (s.que.rank b)
  | _ => True

/-- An increase to a rank that is not worse than the current one raises the entry. -/
theorem System.raises_of_compare {c : Comparator K} {s : System E K w} {elt : BitVec w}
    {key : UInt8} {data : K} (h : 0 ≤ c.compare
      ⟨EntryLayout.keyInt E (s.que.newKey elt key), data⟩ (s.que.rank elt)) :
    s.Raises c (.increase elt key data) :=
  fun _ _ _ habove => c.trans h habove

/-- An inserted entry has no child link left over. -/
def System.Unlinked (s : System E K w) : Call K w → Prop
  | .insert elt _ _ => (s.que.fields elt).child = 0
  | _ => True

end Calls

section Invariant

variable [EntryLayout E w] {c : Comparator K} {flags : BitVec w} {s : System E K w}

/-- The queue holds exactly the members, and idle entries are linked to no other
entry by `next` or `prev`. -/
structure System.Inv (c : Comparator K) (flags : BitVec w) (s : System E K w) : Prop where
  heap : ∃ t, s.que.Rep c s.que.rank t ∧ ∀ a, a ∈ t.toList ↔ a ∈ s.members
  idleValid : ∀ a ∈ s.idle, Valid E a
  idleOut : ∀ a ∈ s.idle, a ∉ s.members
  idlePrev : ∀ a ∈ s.idle, (s.que.fields a).prev = 0
  idleNext : ∀ a ∈ s.idle, (s.que.fields a).next = 0
  flags : s.que.flags = flags

/-- No idle entry has a child link left over. -/
def System.Clean (s : System E K w) : Prop := ∀ a ∈ s.idle, (s.que.fields a).child = 0

/-- A queue that was just initialised. -/
structure System.Fresh (flags : BitVec w) (s : System E K w) : Prop where
  init : ∃ q, s.que = priorityQueueInit q flags
  flagBits : flags &&& rootPointerMask = 0
  members : s.members = ∅
  idle : s.idle = ∅

/-- An empty queue holds no member. -/
theorem System.Fresh.inv (h : s.Fresh flags) : s.Inv c flags := by
  obtain ⟨q, hq⟩ := h.init
  have hpacked : s.que.rootPacked = flags := by rw [hq]; rfl
  constructor
  case heap =>
    refine ⟨.nil, ⟨⟨trivial, List.nodup_nil, nofun, trivial⟩, ?_, .inl rfl⟩, by simp [h.members]⟩
    rw [Queue.unpackRoot, hpacked]
    exact h.flagBits
  case flags =>
    rw [Queue.flags, hpacked, ← BitVec.not_not (b := rootFlagsMask)]
    exact and_not_of_and_eq_zero h.flagBits
  all_goals simp [h.idle]

theorem System.Fresh.clean (h : s.Fresh flags) : s.Clean := by
  simp [System.Clean, h.idle]

/-- The common part of all calls: one entry may have joined or left the members or
the idle entries, and no other entry outside the queue has changed. -/
theorem System.Inv.update {q' : Queue E K w} {t' : Tree (BitVec w)} {members : Finset (BitVec w)}
    (h : s.Inv c flags) (elt : BitVec w) (idle : Finset (BitVec w)) (hrep : q'.Rep c q'.rank t')
    (hmem : ∀ a, a ∈ t'.toList ↔ a ∈ members) (hflags : q'.flags = s.que.flags)
    (hfields : ∀ a ∉ s.members, a ≠ elt → q'.fields a = s.que.fields a)
    (hmembers : ∀ a ∈ members, a ≠ elt → a ∈ s.members)
    (hidle : ∀ a ∈ idle, a ≠ elt → a ∈ s.idle)
    (helt : elt ∈ idle → Valid E elt ∧ elt ∉ members ∧ (q'.fields elt).prev = 0 ∧
      (q'.fields elt).next = 0) :
    System.Inv c flags ⟨q', members, idle⟩ ∧
      (s.Clean → (elt ∈ idle → (q'.fields elt).child = 0) →
        System.Clean ⟨q', members, idle⟩) := by
  have hsame : ∀ a ∈ idle, a ≠ elt → q'.fields a = s.que.fields a :=
    fun a ha hne => hfields a (h.idleOut a (hidle a ha hne)) hne
  refine ⟨⟨⟨t', hrep, hmem⟩, fun a ha => ?_, fun a ha => ?_, fun a ha => ?_, fun a ha => ?_,
    hflags.trans h.flags⟩, fun hclean hchild a ha => ?_⟩ <;> by_cases hne : a = elt
  · exact hne ▸ (helt (hne ▸ ha)).1
  · exact h.idleValid a (hidle a ha hne)
  · exact hne ▸ (helt (hne ▸ ha)).2.1
  · exact fun hm => h.idleOut a (hidle a ha hne) (hmembers a hm hne)
  · exact hne ▸ (helt (hne ▸ ha)).2.2.1
  · rw [hsame a ha hne]
    exact h.idlePrev a (hidle a ha hne)
  · exact hne ▸ (helt (hne ▸ ha)).2.2.2
  · rw [hsame a ha hne]
    exact h.idleNext a (hidle a ha hne)
  · exact hne ▸ hchild (hne ▸ ha)
  · exact (congrArg Fields.child (hsame a ha hne)).trans (hclean a (hidle a ha hne))

/-- Ranks read after the caller has written the data of `elt`. -/
theorem Queue.rank_setData_of_ne {q : Queue E K w} {elt a : BitVec w} {data : K} (h : a ≠ elt) :
    (q.setData elt data).rank a = q.rank a := by
  simp only [Store.rank, Queue.setData, Function.update_of_ne h]
  rfl

/-- The data of elements is no part of the links. -/
theorem Queue.Rep.setData {q : Queue E K w} {ρ : BitVec w → Rank K} {t : Tree (BitVec w)}
    (h : q.Rep c ρ t) (elt : BitVec w) (data : K) : (q.setData elt data).Rep c ρ t :=
  ⟨⟨h.forest.chain, h.forest.nodup, h.forest.valid, h.forest.ordered⟩, h.root, h.single⟩

end Invariant

section Steps

variable [EntryLayout E w] {c : Comparator K} {pairMeld : PairMeld E K w} {flags : BitVec w}
  {s : System E K w} {elt : BitVec w} {key : UInt8} {data : K}

/-- A call that returns and keeps the invariant. It keeps idle entries clean when they
were clean and it does not extract the root; only an entry that is given a key can
become a member; and builtin keys are those given. -/
def System.Keeps (c : Comparator K) (flags : BitVec w) (pairMeld : PairMeld E K w)
    (s : System E K w) (call : Call K w) : Prop :=
  ∃ s', s.perform pairMeld c.compare call = .ok s' ∧ s'.Inv c flags ∧
    (¬ call.Extracts → s.Clean → s'.Clean) ∧
    (∀ a ∈ s'.members, a ∈ s.members ∨ ∃ key, call.given = some (a, key)) ∧
    (s.que.hasBuiltinKeys = true → ∀ a ∈ s'.members,
      (s'.que.fields a).key = call.giveKey (fun a => (s.que.fields a).key) a)

/-- Clean idle entries are unlinked. -/
theorem System.Clean.unlinked (h : s.Clean) {call : Call K w} (hp : s.Promised call) :
    s.Unlinked call := by
  cases call with
  | insert elt key data => exact h elt hp.1
  | _ => trivial

/-- A call that moves a member changes no set. -/
theorem System.Inv.move {q' : Queue E K w} {t t' : Tree (BitVec w)} {k : UInt8}
    (h : s.Inv c flags) (helt : elt ∈ s.members) (hmem : ∀ a, a ∈ t.toList ↔ a ∈ s.members)
    (hrep : q'.Rep c q'.rank t') (hperm : t'.toList.Perm t.toList)
    (hchg : (s.que.setData elt data).Changes q' t.toList elt k) :
    System.Inv c flags { s with que := q' } ∧ (s.Clean → System.Clean { s with que := q' }) := by
  have hout : elt ∉ s.idle := fun hm => h.idleOut elt hm helt
  have hinv := h.update elt s.idle hrep (fun a => hperm.mem_iff.trans (hmem a)) hchg.flags
    (fun a ha _ => hchg.fields a (by simp [hmem, ha])) (fun a ha _ => ha) (fun a ha _ => ha)
    fun hm => absurd hm hout
  exact ⟨hinv.1, fun hc => hinv.2 hc fun hm => absurd hm hout⟩

/-- An operation that leaves `elt` with the key it was given has given it that key. -/
theorem Queue.Changes.giveKey {q' : Queue E K w} {foot : List (BitVec w)} {k : UInt8}
    (hchg : (s.que.setData elt data).Changes q' foot elt k)
    (hk : k = key) (a : BitVec w) :
    (q'.fields a).key = Function.update (fun a => (s.que.fields a).key) elt key a := by
  subst hk
  by_cases ha : a = elt
  · subst ha
    rw [Function.update_self, hchg.key]
  · rw [Function.update_of_ne ha]
    exact hchg.otherKey a ha

/-- Taking the root out leaves an entry that no entry links to. -/
theorem System.Inv.extract (hmeld : Melds c pairMeld) (h : s.Inv c flags)
    (hne : s.members.Nonempty) :
    ∃ q' r, pqueueRemoveRoot pairMeld s.que s.que.unpackRoot = .ok (q', r) ∧
      System.Inv c flags ⟨q', s.members.erase r, insert r s.idle⟩ ∧
      ∀ a, (q'.fields a).key = (s.que.fields a).key := by
  obtain ⟨t, hrep, hmem⟩ := h.heap
  rcases hrep.single with rfl | ⟨ch, r, rfl⟩
  · obtain ⟨a, ha⟩ := hne
    cases (hmem a).mpr ha
  · obtain ⟨q', t', hq', hrep', hperm, hkeeps, hflags⟩ :=
      pqueueRemoveRoot_spec hmeld hrep fun _ _ => rfl
    have hnew := hrep.forest.subtree.notMem
    have hr := hrep.forest.chain.1
    have hself : q'.fields r = s.que.fields r := hkeeps.fields r hnew
    have hmem' : ∀ a, a ∈ t'.toList ↔ a ∈ s.members.erase r := by
      intro a
      rw [Finset.mem_erase, ← hmem, hperm.mem_iff]
      simp only [Tree.toList_node, Tree.toList_nil, List.mem_append, List.mem_singleton]
      constructor
      · exact fun ha => ⟨ne_of_mem_of_not_mem ha hnew, .inl ha⟩
      · exact fun ha => ha.2.resolve_right ha.1
    rw [hrep.root, top_node, hq']
    refine ⟨q', r, rfl, (h.update r (insert r s.idle) hrep' hmem' hflags (fun a ha _ => ?_)
      (fun a ha _ => Finset.mem_of_mem_erase ha)
      (fun a ha hne => Finset.mem_of_mem_insert_of_ne ha hne) fun _ => ?_).1, hkeeps.key⟩
    · exact hkeeps.fields a fun hm => ha ((hmem a).mp (by simp [hm]))
    · rw [hself]
      exact ⟨hrep.forest.valid r (by simp), by simp, hr.1, hr.2.2⟩

variable [LawfulLayout E w]

theorem System.Inv.perform_entryInit (h : s.Inv c flags) (hv : Valid E elt)
    (hout : elt ∉ s.members) :
    s.Keeps c flags pairMeld (.entryInit elt) := by
  obtain ⟨t, hrep, hmem⟩ := h.heap
  obtain ⟨store, hs, hf, hd⟩ := priorityQueueEntryInit_eq (s := s.que.toStore) hv.ne_zero
  have hother : ∀ a ≠ elt, store.fields a = s.que.fields a := fun a ha => by
    rw [hf, Function.update_of_ne ha]
  have hin : ∀ a ∈ t.toList, a ≠ elt := fun a ha =>
    ne_of_mem_of_not_mem ((hmem a).mp ha) hout
  have hrep' : { s.que with toStore := store }.Rep c store.rank t := by
    refine ⟨hrep.forest.frame (fun a ha => hother a (hin a ha)) fun a ha => ?_, hrep.root,
      hrep.single⟩
    rw [Store.rank, hother a (hin a ha), hd]
    rfl
  have hclear : store.fields elt = ⟨0, 0, 0, keyNone⟩ := by rw [hf, Function.update_self]
  have hflags : { s.que with toStore := store }.flags = s.que.flags := rfl
  have hinv := h.update elt (insert elt s.idle) hrep' hmem hflags
    (fun a _ ha => hother a ha) (fun _ ha _ => ha)
    (fun a ha hne => Finset.mem_of_mem_insert_of_ne ha hne)
    fun _ => ⟨hv, hout, by rw [hclear], by rw [hclear]⟩
  refine ⟨_, ?_, hinv.1, fun _ hc => hinv.2 hc fun _ => by rw [hclear], fun a ha => .inl ha,
    fun _ a ha => ?_⟩
  · rw [System.perform, hs]
    rfl
  · exact congrArg Fields.key (hother a (ne_of_mem_of_not_mem ha hout))

/-- The insertion of an idle entry without a child link. -/
theorem System.Inv.insert_spec {t : Tree (BitVec w)} (h : s.Inv c flags)
    (hrep : s.que.Rep c s.que.rank t) (hmem : ∀ a, a ∈ t.toList ↔ a ∈ s.members)
    (helt : elt ∈ s.idle) (hk : s.que.TakesKey key) (hchild : (s.que.fields elt).child = 0)
    (data : K) :
    ∃ q' t' b, priorityQueueInsert c.compare (s.que.setData elt data) elt key = .ok (q', b) ∧
      q'.Rep c q'.rank t' ∧ t'.toList.Perm (t.toList ++ [elt]) ∧
      (s.que.setData elt data).Changes q' (t.toList ++ [elt]) elt
        ((s.que.setData elt data).newKey elt key) ∧
      (s.que.setData elt data).InsertReports c q' elt b := by
  have hnew : elt ∉ t.toList := fun hm => h.idleOut elt helt ((hmem elt).mp hm)
  have hset := hrep.setData elt data
  refine priorityQueueInsert_spec (q := s.que.setData elt data) hk ⟨?_, hset.root, hset.single⟩
    (h.idleValid elt helt) hnew (h.idlePrev elt helt) (h.idleNext elt helt) hchild
  exact hset.forest.frame (fun _ _ => rfl) fun a ha =>
    Queue.rank_setData_of_ne (ne_of_mem_of_not_mem ha hnew)

/-- An increase that raises a member. -/
theorem System.increase_spec {t : Tree (BitVec w)} (hrep : s.que.Rep c s.que.rank t)
    (hmem : ∀ a, a ∈ t.toList ↔ a ∈ s.members) (helt : elt ∈ s.members)
    (hk : s.que.TakesKey key) (hraise : s.Raises c (.increase elt key data)) :
    ∃ q' t' b, priorityQueueEntryIncrease c.compare (s.que.setData elt data) elt key =
        .ok (q', b) ∧
      q'.Rep c q'.rank t' ∧ t'.toList.Perm t.toList ∧
      (s.que.setData elt data).Changes q' t.toList elt
        ((s.que.setData elt data).newKey elt key) ∧
      (b = false → elt ≠ s.que.unpackRoot ∧ q'.unpackRoot = s.que.unpackRoot) := by
  refine priorityQueueEntryIncrease_spec (q := s.que.setData elt data) hk
    (hrep.setData elt data) ((hmem elt).mpr helt)
    (fun a ha => (Queue.rank_setData_of_ne ha).symm) fun b hb hne habove => ?_
  have hlt := hraise b ((hmem b).mp hb) hne habove
  rw [Comparator.Above, Store.rankWith_of_ne _ hne, Queue.rank_setData_of_ne hne,
    Store.rankWith, Function.update_self]
  simp only [Queue.setData, Function.update_self]
  exact hlt

theorem System.Inv.perform_insert (h : s.Inv c flags) (helt : elt ∈ s.idle)
    (hk : s.que.TakesKey key) (hchild : (s.que.fields elt).child = 0) :
    s.Keeps c flags pairMeld (.insert elt key data) := by
  obtain ⟨t, hrep, hmem⟩ := h.heap
  obtain ⟨q', t', b, hq', hrep'', hperm, hchg, -⟩ := h.insert_spec hrep hmem helt hk hchild data
  have hmem' : ∀ a, a ∈ t'.toList ↔ a ∈ insert elt s.members := by
    intro a
    rw [hperm.mem_iff, List.mem_append, List.mem_singleton, Finset.mem_insert, hmem, or_comm]
  have hinv := h.update elt (s.idle.erase elt) hrep'' hmem' hchg.flags
    (fun a ha hne => hchg.fields a (by simp [hmem, ha, hne]))
    (fun a ha hne => Finset.mem_of_mem_insert_of_ne ha hne)
    (fun a ha _ => Finset.mem_of_mem_erase ha) fun hm => absurd hm (by simp)
  refine ⟨_, ?_, hinv.1, fun _ hc => hinv.2 hc fun hm => absurd hm (by simp), fun a ha => ?_,
    fun hb a _ => hchg.giveKey (if_pos hb) a⟩
  · rw [System.perform, hq']
    rfl
  · rcases Finset.mem_insert.mp ha with rfl | ha
    · exact .inr ⟨key, rfl⟩
    · exact .inl ha

theorem System.Inv.perform_remove (hmeld : Melds c pairMeld) (h : s.Inv c flags)
    (helt : elt ∈ s.members) : s.Keeps c flags pairMeld (.remove elt) := by
  obtain ⟨t, hrep, hmem⟩ := h.heap
  obtain ⟨q', t', b, hq', hrep', hperm, hchg, hclear, -⟩ :=
    priorityQueueRemove_spec hmeld hrep ((hmem elt).mpr helt) fun _ _ => rfl
  have hnew := (List.nodup_cons.mp (hperm.nodup_iff.mp hrep.forest.nodup)).1
  have hmem' : ∀ a, a ∈ t'.toList ↔ a ∈ s.members.erase elt := by
    intro a
    rw [Finset.mem_erase, ← hmem, hperm.mem_iff, List.mem_cons]
    constructor
    · exact fun ha => ⟨ne_of_mem_of_not_mem ha hnew, .inr ha⟩
    · exact fun ha => ha.2.resolve_left ha.1
  have hinv := h.update elt (insert elt s.idle) hrep' hmem' hchg.flags
    (fun a ha _ => hchg.fields a (by simp [hmem, ha])) (fun a ha _ => Finset.mem_of_mem_erase ha)
    (fun a ha hne => Finset.mem_of_mem_insert_of_ne ha hne)
    fun _ => ⟨hrep.forest.valid elt ((hmem elt).mpr helt), by simp, by rw [hclear],
      by rw [hclear]⟩
  refine ⟨_, ?_, hinv.1, fun _ hc => hinv.2 hc fun _ => by rw [hclear],
    fun a ha => .inl (Finset.mem_of_mem_erase ha), fun _ a ha => ?_⟩
  · rw [System.perform, hq']
    rfl
  · exact hchg.otherKey a (Finset.ne_of_mem_erase ha)

theorem System.Inv.perform_decrease (hmeld : Melds c pairMeld) (h : s.Inv c flags)
    (helt : elt ∈ s.members) (hk : s.que.TakesKey key) :
    s.Keeps c flags pairMeld (.decrease elt key data) := by
  obtain ⟨t, hrep, hmem⟩ := h.heap
  obtain ⟨q', t', b, hq', hrep', hperm, hchg, -⟩ := priorityQueueEntryDecrease_spec
    (q := s.que.setData elt data) hmeld hk (hrep.setData elt data) ((hmem elt).mpr helt)
    fun a ha => (Queue.rank_setData_of_ne ha).symm
  have hinv := h.move helt hmem hrep' hperm hchg
  refine ⟨_, ?_, hinv.1, fun _ => hinv.2, fun a ha => .inl ha,
    fun hb a _ => hchg.giveKey (if_pos hb) a⟩
  rw [System.perform, hq']
  rfl

theorem System.Inv.perform_increase (h : s.Inv c flags) (helt : elt ∈ s.members)
    (hk : s.que.TakesKey key) (hraise : s.Raises c (.increase elt key data)) :
    s.Keeps c flags pairMeld (.increase elt key data) := by
  obtain ⟨t, hrep, hmem⟩ := h.heap
  obtain ⟨q', t', b, hq', hrep', hperm, hchg, -⟩ :=
    System.increase_spec hrep hmem helt hk hraise
  have hinv := h.move helt hmem hrep' hperm hchg
  refine ⟨_, ?_, hinv.1, fun _ => hinv.2, fun a ha => .inl ha,
    fun hb a _ => hchg.giveKey (if_pos hb) a⟩
  rw [System.perform, hq']
  rfl

/-- Every promised call that raises what it increases and inserts unlinked entries
returns and keeps the invariant. -/
theorem System.Inv.perform (hmeld : Melds c pairMeld) (h : s.Inv c flags) {call : Call K w}
    (hp : s.Promised call) (hraise : s.Raises c call) (hun : s.Unlinked call) :
    s.Keeps c flags pairMeld call := by
  cases call with
  | entryInit elt => exact h.perform_entryInit hp.1 hp.2
  | insert elt key data => exact h.perform_insert hp.1 hp.2 hun
  | remove elt => exact h.perform_remove hmeld hp
  | increase elt key data => exact h.perform_increase hp.1 hp.2 hraise
  | decrease elt key data => exact h.perform_decrease hmeld hp.1 hp.2
  | removeMax =>
    obtain ⟨q', r, hq', hinv, hkey⟩ := h.extract hmeld hp.1
    refine ⟨_, ?_, hinv, fun hx => absurd trivial hx,
      fun a ha => .inl (Finset.mem_of_mem_erase ha), fun _ a _ => hkey a⟩
    rw [System.perform, priorityQueueRemoveMax, if_pos hp.2, hq']
    rfl
  | removeMin =>
    obtain ⟨q', r, hq', hinv, hkey⟩ := h.extract hmeld hp.1
    refine ⟨_, ?_, hinv, fun hx => absurd trivial hx,
      fun a ha => .inl (Finset.mem_of_mem_erase ha), fun _ a _ => hkey a⟩
    rw [System.perform, priorityQueueRemoveMin, if_pos hp.2, hq']
    rfl

end Steps

end MacKernel.PriorityQueue
