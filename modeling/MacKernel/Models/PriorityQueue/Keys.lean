import MacKernel.Models.PriorityQueue.Contract

/-!
# Builtin keys in both layouts

The comparators for builtin keys read the key field as an `int`. In the 32-bit
layout that is the key itself. In the LP64 layout the bit-field is signed, so keys
from 128 on are read as negative, and the order of the heap is the order of the keys
only among keys on one side of 128.
-/

namespace MacKernel.PriorityQueue

variable {E : Type} {w : Nat} [EntryLayout E w]

/-- The two kinds of queue with builtin keys. -/
inductive HeapKind where
  | max
  | min
  deriving DecidableEq, Repr

/-- The flags of the kind of queue. -/
def HeapKind.flags : HeapKind → BitVec w
  | .max => 0
  | .min => minHeap

/-- The comparator for the kind of queue. -/
def HeapKind.comparator : HeapKind → Comparator Unit
  | .max => schedPriMax
  | .min => schedPriMin

/-- Key `j` belongs at least as near to the root as key `k`. -/
def HeapKind.NotWorse : HeapKind → UInt8 → UInt8 → Prop
  | .max, j, k => k ≤ j
  | .min, j, k => j ≤ k

instance (kind : HeapKind) (j k : UInt8) : Decidable (kind.NotWorse j k) :=
  match kind with
  | .max => inferInstanceAs (Decidable (k ≤ j))
  | .min => inferInstanceAs (Decidable (j ≤ k))

/-- The last key that the calls have given each entry. -/
def givenKeys (calls : List (Call Unit w)) : BitVec w → UInt8 :=
  calls.foldl (fun keys call => call.giveKey keys) fun _ => keyNone

/-- The order of the keys, and their storage beside the child pointers, after the calls
of a run. -/
structure System.KeyOrdered (kind : HeapKind) (calls : List (Call Unit w))
    (s : System E Unit w) : Prop where
  given : ∀ a ∈ s.members, priorityQueueEntryKey s.que a = .ok (givenKeys calls a)
  root : ∀ a ∈ s.members, s.que.unpackRoot ∈ s.members ∧
    kind.NotWorse (givenKeys calls s.que.unpackRoot) (givenKeys calls a)
  links : s.WellFormed
  child : ∀ a ∈ s.members, ∀ k, ∃ q, pqueueUpdateKey s.que a k = .ok q ∧
    ∀ b, (q.fields b).child = (s.que.fields b).child

/-- An increase gives a key that is not worse than the key of every other member that the
current key is not worse than. -/
def System.KeyRaises (kind : HeapKind) (s : System E Unit w) : Call Unit w → Prop
  | .increase elt key _ => ∀ b ∈ s.members, b ≠ elt →
      kind.NotWorse (s.que.fields elt).key (s.que.fields b).key →
      kind.NotWorse key (s.que.fields b).key
  | _ => True

/-- The key that a call gives agrees with the keys of all other members. -/
def System.Agrees (agree : UInt8 → UInt8 → Prop) (s : System E Unit w) (call : Call Unit w) :
    Prop :=
  ∀ elt key, call.given = some (elt, key) → ∀ b ∈ s.members, b ≠ elt →
    agree key (s.que.fields b).key

/-- A plain step that raises the keys it increases, with keys that agree. -/
def KeyStep (kind : HeapKind) (agree : UInt8 → UInt8 → Prop) (pairMeld : PairMeld E Unit w)
    (s : System E Unit w) (call : Call Unit w) (s' : System E Unit w) : Prop :=
  PlainStep kind.comparator pairMeld s call s' ∧ s.KeyRaises kind call ∧ s.Agrees agree call

/-- Keys on the same side of 128. -/
def SameSide (j k : UInt8) : Prop := j < 128 ↔ k < 128

instance (j k : UInt8) : Decidable (SameSide j k) := inferInstanceAs (Decidable (_ ↔ _))

/-- Two keys are read in their own order. -/
def ReadInOrder (E : Type) {w : Nat} [EntryLayout E w] (j k : UInt8) : Prop :=
  (EntryLayout.keyInt E j ≤ EntryLayout.keyInt E k ↔ j ≤ k) ∧
    (EntryLayout.keyInt E k ≤ EntryLayout.keyInt E j ↔ k ≤ j)

/-- Keys that are read in order are so both ways. -/
theorem ReadInOrder.symm {j k : UInt8} (h : ReadInOrder E j k) : ReadInOrder E k j :=
  ⟨h.2, h.1⟩

/-- On LP64, keys on the same side of 128 are read in order. -/
theorem readInOrder_lp64 {j k : UInt8} (h : SameSide j k) : ReadInOrder EntryLP64 j k := by
  have hj := j.toNat_lt
  have hk := k.toNat_lt
  simp only [SameSide, UInt8.lt_iff_toNat_lt] at h
  simp only [ReadInOrder, EntryLayout.keyInt, UInt8.le_iff_toNat_le,
    BitVec.toInt_eq_toNat_cond, UInt8.toNat_toBitVec]
  simp only [show UInt8.toNat 128 = 128 from rfl] at h
  split_ifs <;> omega

/-- On ILP32 all keys are read in order. -/
theorem readInOrder_ilp32 (j k : UInt8) : ReadInOrder EntryILP32 j k := by
  simp only [ReadInOrder, EntryLayout.keyInt, UInt8.le_iff_toNat_le]
  omega

/-- The comparator ranks keys that are read in their own order by that order. -/
theorem ReadInOrder.compare_iff (kind : HeapKind) {j k : UInt8} (h : ReadInOrder E j k) :
    0 ≤ kind.comparator.compare ⟨EntryLayout.keyInt E j, ()⟩ ⟨EntryLayout.keyInt E k, ()⟩ ↔
      kind.NotWorse j k := by
  obtain ⟨hle, hge⟩ := h
  cases kind
  · rw [HeapKind.NotWorse, ← hge]
    simp only [HeapKind.comparator, schedPriMax, schedPriMaxHeapCompare, builtinKeyCompare]
    omega
  · rw [HeapKind.NotWorse, ← hle]
    simp only [HeapKind.comparator, schedPriMin, schedPriMinHeapCompare, builtinKeyCompare]
    omega

section Invariant

variable {kind : HeapKind} {agree : UInt8 → UInt8 → Prop} {pairMeld : PairMeld E Unit w}
  {calls : List (Call Unit w)} {s s' s₀ : System E Unit w} {call : Call Unit w}

/-- The invariant of runs with builtin keys: the heap is in order, members have the keys
given, and any two of them are read in their own order. -/
structure System.KeyInv (kind : HeapKind) (calls : List (Call Unit w)) (s : System E Unit w) :
    Prop where
  inv : s.Inv kind.comparator kind.flags
  clean : s.Clean
  given : ∀ a ∈ s.members, (s.que.fields a).key = givenKeys calls a
  read : ∀ a ∈ s.members, ∀ b ∈ s.members, a ≠ b →
    ReadInOrder E (s.que.fields a).key (s.que.fields b).key

/-- Both kinds of queue have builtin keys. -/
theorem System.KeyInv.builtin (h : s.KeyInv kind calls) : s.que.hasBuiltinKeys = true := by
  rw [Queue.hasBuiltinKeys_eq, h.inv.flags, beq_iff_eq]
  cases kind
  · exact BitVec.zero_and
  · exact (BitVec.ofNat_and (x := 2) (y := 1)).symm

/-- A fresh queue has no keys to remember. -/
theorem System.Fresh.keyInv (h : s.Fresh kind.flags) : s.KeyInv kind [] :=
  ⟨h.inv, h.clean, by simp [h.members], by simp [h.members]⟩

/-- Raising the key raises the rank. -/
theorem System.KeyInv.raises (h : s.KeyInv kind calls) (hp : s.Promised call)
    (hraise : s.KeyRaises kind call)
    (hread : ∀ elt key, call.given = some (elt, key) → ∀ b ∈ s.members, b ≠ elt →
      ReadInOrder E key (s.que.fields b).key) : s.Raises kind.comparator call := by
  cases call with
  | increase elt key data =>
    intro b hb hne habove
    have hkey : s.que.newKey elt key = key := if_pos h.builtin
    rw [hkey]
    refine ((hread elt key rfl b hb hne).compare_iff kind).mpr (hraise b hb hne ?_)
    exact ((h.read elt hp.1 b hb hne.symm).compare_iff kind).mp habove
  | _ => trivial

/-- The keys given by a run with one call more. -/
theorem givenKeys_snoc (calls : List (Call Unit w)) (call : Call Unit w) :
    givenKeys (calls ++ [call]) = call.giveKey (givenKeys calls) := by
  simp [givenKeys]

/-- A call gives the key that it says. -/
theorem Call.giveKey_of_given {K : Type} {call : Call K w} {a : BitVec w} {key : UInt8}
    (keys : BitVec w → UInt8) (h : call.given = some (a, key)) : call.giveKey keys a = key := by
  simp [Call.giveKey, h]

/-- A call leaves the keys of other entries. -/
theorem Call.giveKey_of_not_given {K : Type} {call : Call K w} {a : BitVec w}
    (keys : BitVec w → UInt8) (h : ∀ key, call.given ≠ some (a, key)) :
    call.giveKey keys a = keys a := by
  cases hg : call.given with
  | none => simp [Call.giveKey, hg]
  | some p =>
    have hne : a ≠ p.1 := by
      rintro rfl
      exact h p.2 hg
    simp [Call.giveKey, hg, hne]

variable [LawfulLayout E w]

/-- A step with keys that are read in order keeps the invariant. -/
theorem KeyStep.keyInv (hread : ∀ j k, agree j k → ReadInOrder E j k)
    (hmeld : Melds kind.comparator pairMeld) (h : s.KeyInv kind calls)
    (hstep : KeyStep kind agree pairMeld s call s') : s'.KeyInv kind (calls ++ [call]) := by
  obtain ⟨⟨hx, hp, hs'⟩, hraise, hagree⟩ := hstep
  have hnew : ∀ elt key, call.given = some (elt, key) → ∀ b ∈ s.members, b ≠ elt →
      ReadInOrder E key (s.que.fields b).key :=
    fun elt key hg b hb hne => hread _ _ (hagree elt key hg b hb hne)
  obtain ⟨s'', hs'', hinv, hclean, hmem, hkey⟩ := h.inv.perform hmeld hp
    (h.raises hp hraise hnew) (h.clean.unlinked hp)
  obtain rfl : s'' = s' := Except.ok.inj (hs''.symm.trans hs')
  have hold : ∀ a ∈ s''.members, (∀ key, call.given ≠ some (a, key)) → a ∈ s.members ∧
      (s''.que.fields a).key = (s.que.fields a).key := by
    intro a ha hno
    refine ⟨(hmem a ha).resolve_right fun ⟨key, hg⟩ => hno key hg, ?_⟩
    rw [hkey h.builtin a ha, Call.giveKey_of_not_given _ hno]
  have hgiven : ∀ a ∈ s''.members, ∀ key, call.given = some (a, key) →
      (s''.que.fields a).key = key := by
    intro a ha key hg
    rw [hkey h.builtin a ha, Call.giveKey_of_given _ hg]
  have hfresh : ∀ a ∈ s''.members, ∀ key, call.given = some (a, key) → ∀ b ∈ s''.members,
      b ≠ a → ReadInOrder E (s''.que.fields a).key (s''.que.fields b).key := by
    intro a ha key hg b hb hne
    obtain ⟨hb', hkb⟩ := hold b hb fun k hk =>
      hne (congrArg Prod.fst (Option.some.inj (hk.symm.trans hg)))
    rw [hgiven a ha key hg, hkb]
    exact hnew a key hg b hb' hne
  refine ⟨hinv, hclean hx h.clean, fun a ha => ?_, fun a ha b hb hne => ?_⟩
  · rw [givenKeys_snoc]
    by_cases hg : ∃ key, call.given = some (a, key)
    · obtain ⟨key, hg⟩ := hg
      rw [hgiven a ha key hg, Call.giveKey_of_given _ hg]
    · rw [not_exists] at hg
      obtain ⟨ha', hka⟩ := hold a ha hg
      rw [hka, Call.giveKey_of_not_given _ hg, h.given a ha']
  · by_cases hga : ∃ key, call.given = some (a, key)
    · obtain ⟨key, hga⟩ := hga
      exact hfresh a ha key hga b hb hne.symm
    · by_cases hgb : ∃ key, call.given = some (b, key)
      · obtain ⟨key, hgb⟩ := hgb
        exact (hfresh b hb key hgb a ha hne).symm
      · rw [not_exists] at hga hgb
        obtain ⟨ha', hka⟩ := hold a ha hga
        obtain ⟨hb', hkb⟩ := hold b hb hgb
        rw [hka, hkb]
        exact h.read a ha' b hb' hne

/-- The invariant gives the order of the keys. -/
theorem System.KeyInv.keyOrdered (h : s.KeyInv kind calls) : s.KeyOrdered kind calls := by
  have hcontract := h.inv.contract
  have hne0 : ∀ a ∈ s.members, a ≠ 0 := by
    obtain ⟨t, hrep, hmem⟩ := h.inv.heap
    exact fun a ha => (hrep.forest.valid a ((hmem a).mpr ha)).ne_zero
  refine ⟨fun a ha => ?_, fun a ha => ?_, h.inv.wellFormed, fun a ha k => ?_⟩
  · rw [priorityQueueEntryKey, h.builtin, Store.load_ok (hne0 a ha), ← h.given a ha]
    rfl
  · obtain ⟨hroot, habove⟩ := hcontract.root a ha
    refine ⟨hroot, ?_⟩
    rw [← h.given a ha, ← h.given _ hroot]
    by_cases hne : s.que.unpackRoot = a
    · rw [hne]
      cases kind <;> exact UInt8.le_refl _
    · exact ((h.read _ hroot a ha hne).compare_iff kind).mp habove
  · obtain ⟨q, hq, -, -, hf⟩ := pqueueUpdateKey_eq (k := k) (hne0 a ha) (.inl h.builtin)
    refine ⟨q, hq, fun b => ?_⟩
    rw [hf]
    by_cases hb : b = a
    · subst hb
      rw [Function.update_self]
    · rw [Function.update_of_ne hb]

/-- With keys that are read in order, runs keep the keys in order, and every further call
with such a key returns. -/
theorem keyOrdered_of_run (hread : ∀ j k, agree j k → ReadInOrder E j k)
    (hmeld : Melds kind.comparator pairMeld) (hs : s₀.Fresh kind.flags)
    (hrun : Run (KeyStep kind agree pairMeld) s₀ calls s) :
    s.KeyOrdered kind calls ∧ ∀ call, ¬ call.Extracts → s.Promised call →
      s.KeyRaises kind call → s.Agrees agree call →
      ∃ s', s.perform pairMeld kind.comparator.compare call = .ok s' := by
  have hinv := hrun.history (fun calls (s : System E Unit w) => s.KeyInv kind calls)
    (fun h hstep => KeyStep.keyInv hread hmeld h hstep) hs.keyInv
  refine ⟨hinv.keyOrdered, fun call _ hp hraise hagree => ?_⟩
  obtain ⟨s', hs', -⟩ := hinv.inv.perform hmeld hp
    (hinv.raises hp hraise fun elt key hg b hb hne => hread _ _ (hagree elt key hg b hb hne))
    (hinv.clean.unlinked hp)
  exact ⟨s', hs'⟩

end Invariant

/-- Over every run that raises the keys it increases, members have the keys given and the
root has the best one, in the LP64 layout as long as all members have keys on the same
side of 128, and in the 32-bit layout with any keys. -/
theorem keyOrdered_both_layouts (kind : HeapKind) :
    (∀ (pairMeld : PairMeld EntryLP64 Unit 64) (s₀ s : System EntryLP64 Unit 64)
      (calls : List (Call Unit 64)), Melds kind.comparator pairMeld → s₀.Fresh kind.flags →
      Run (KeyStep kind SameSide pairMeld) s₀ calls s →
      s.KeyOrdered kind calls ∧ ∀ call, ¬ call.Extracts → s.Promised call →
        s.KeyRaises kind call → s.Agrees SameSide call →
        ∃ s', s.perform pairMeld kind.comparator.compare call = .ok s') ∧
    ∀ (pairMeld : PairMeld EntryILP32 Unit 32) (s₀ s : System EntryILP32 Unit 32)
      (calls : List (Call Unit 32)), Melds kind.comparator pairMeld → s₀.Fresh kind.flags →
      Run (KeyStep kind (fun _ _ => True) pairMeld) s₀ calls s →
      s.KeyOrdered kind calls ∧ ∀ call, ¬ call.Extracts → s.Promised call →
        s.KeyRaises kind call →
        ∃ s', s.perform pairMeld kind.comparator.compare call = .ok s' := by
  constructor
  · intro pairMeld s₀ s calls hmeld hs hrun
    exact keyOrdered_of_run (fun _ _ => readInOrder_lp64) hmeld hs hrun
  · intro pairMeld s₀ s calls hmeld hs hrun
    obtain ⟨hord, hret⟩ :=
      keyOrdered_of_run (fun j k _ => readInOrder_ilp32 j k) hmeld hs hrun
    exact ⟨hord, fun call hx hp hraise => hret call hx hp hraise fun _ _ _ _ _ _ => trivial⟩

/-- Two keys on LP64 above 128, and two on either side on ILP32. -/
theorem keyOrdered_both_layouts_two :
    (∃ s, Run (KeyStep .max SameSide (meldSiblings HeapKind.max.comparator.compare))
        (emptyQueue EntryLP64 0)
        [.entryInit 4, .insert 4 200 (), .entryInit 8, .insert 8 250 ()] s ∧
      s.KeyOrdered .max [.entryInit 4, .insert 4 200 (), .entryInit 8, .insert 8 250 ()]) ∧
    ∃ s, Run (KeyStep .max (fun _ _ => True) (meldSiblings HeapKind.max.comparator.compare))
        (emptyQueue EntryILP32 0)
        [.entryInit 4, .insert 4 200 (), .entryInit 8, .insert 8 100 ()] s ∧
      s.KeyOrdered .max [.entryInit 4, .insert 4 200 (), .entryInit 8, .insert 8 100 ()] := by
  constructor
  · have hrun : Run (KeyStep .max SameSide (meldSiblings HeapKind.max.comparator.compare))
        (emptyQueue EntryLP64 0)
        [.entryInit 4, .insert 4 200 (), .entryInit 8, .insert 8 250 ()] _ :=
      .snoc (.snoc (.snoc (.snoc .nil
        ⟨⟨nofun, ⟨⟨by decide, by decide, rfl⟩, by decide⟩, rfl⟩, trivial, nofun⟩)
        ⟨⟨nofun, ⟨by decide, .inl rfl⟩, rfl⟩, trivial, fun _ _ _ _ hb => absurd hb nofun⟩)
        ⟨⟨nofun, ⟨⟨by decide, by decide, rfl⟩, by decide⟩, rfl⟩, trivial, nofun⟩)
        ⟨⟨nofun, ⟨by decide, .inl rfl⟩, rfl⟩, trivial, fun _ _ h b hb _ => by
          cases h
          cases List.mem_singleton.mp hb
          decide +kernel⟩
    exact ⟨_, hrun, ((keyOrdered_both_layouts .max).1 _ _ _ _ meldSiblings_melds
      (emptyQueue_fresh (by decide)) hrun).1⟩
  · have hrun : Run (KeyStep .max (fun _ _ => True)
        (meldSiblings HeapKind.max.comparator.compare)) (emptyQueue EntryILP32 0)
        [.entryInit 4, .insert 4 200 (), .entryInit 8, .insert 8 100 ()] _ :=
      .snoc (.snoc (.snoc (.snoc .nil
        ⟨⟨nofun, ⟨⟨by decide, by decide, trivial⟩, by decide⟩, rfl⟩, trivial, nofun⟩)
        ⟨⟨nofun, ⟨by decide, .inl rfl⟩, rfl⟩, trivial, fun _ _ _ _ _ _ => trivial⟩)
        ⟨⟨nofun, ⟨⟨by decide, by decide, trivial⟩, by decide⟩, rfl⟩, trivial, nofun⟩)
        ⟨⟨nofun, ⟨by decide, .inl rfl⟩, rfl⟩, trivial, fun _ _ _ _ _ _ => trivial⟩
    exact ⟨_, hrun, ((keyOrdered_both_layouts .max).2 _ _ _ _ meldSiblings_melds
      (emptyQueue_fresh (by decide)) hrun).1⟩

/-- In the LP64 layout the key 200 is read as a negative number, so the root of a max-queue
that also holds the key 100 does not have the largest key. -/
theorem negative_key_not_keyOrdered :
    Melds schedPriMax (meldSiblings (E := EntryLP64) (K := Unit) schedPriMax.compare) ∧
      (emptyQueue EntryLP64 0).Fresh 0 ∧
      ∃ s, Run (KeyStep .max (fun _ _ => True) (meldSiblings HeapKind.max.comparator.compare))
        (emptyQueue EntryLP64 0)
        [.entryInit 4, .insert 4 200 (), .entryInit 8, .insert 8 100 ()] s ∧
      ¬ s.KeyOrdered .max [.entryInit 4, .insert 4 200 (), .entryInit 8, .insert 8 100 ()] := by
  refine ⟨meldSiblings_melds, emptyQueue_fresh (by decide), _, .snoc (.snoc (.snoc (.snoc .nil
    ⟨⟨nofun, ⟨⟨by decide, by decide, rfl⟩, by decide⟩, rfl⟩, trivial, nofun⟩)
    ⟨⟨nofun, ⟨by decide, .inl rfl⟩, rfl⟩, trivial, fun _ _ _ _ _ _ => trivial⟩)
    ⟨⟨nofun, ⟨⟨by decide, by decide, rfl⟩, by decide⟩, rfl⟩, trivial, nofun⟩)
    ⟨⟨nofun, ⟨by decide, .inl rfl⟩, rfl⟩, trivial, fun _ _ _ _ _ _ => trivial⟩, fun h => ?_⟩
  exact absurd (h.root 4 (by decide +kernel)).2 (by decide +kernel)

end MacKernel.PriorityQueue
