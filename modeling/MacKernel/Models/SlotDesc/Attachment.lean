import MacKernel.Models.SlotDesc.Native
import MacKernel.Core.Tally

/-!
# Kernel descriptors, user descriptors and quanta agree

Attachment is recorded three times: in the kernel slot descriptor, in the user slot
descriptor and in the back-pointer of the quantum. Attaching, detaching and swapping
keep the three records in step on rings that user space can see.
-/

namespace MacKernel.SlotDesc

open Buflet

section System

variable {R Q : Type} [DecidableEq R] [DecidableEq Q]

/-- Attachment, and what happens to quanta and lengths between two attachments. -/
inductive Op (R Q : Type) where
  | attach (sync : Bool) (kring : R) (ksd : SlotPtr R) (kqum : Q)
  | detach (sync : Bool) (kring : R) (ksd : SlotPtr R)
  | swap (ksd₁ ksd₂ : SlotPtr R)
  | setQflags (kqum : Q) (qflags : BitVec 16)
  | setLength (usd : SlotPtr R) (mdLen : BitVec 16)

/-- One operation; a swap gets the user descriptors that belong to its slots. -/
def Slots.step (rings : R → KernChannelRing) (s : Slots R Q) :
    Op R Q → Except Fault (Slots R Q)
  | .attach sync kring ksd kqum => krSlotAttachMetadata rings sync kring ksd kqum s
  | .detach sync kring ksd => do
    let (s, _) ← krSlotDetachMetadata rings sync kring ksd s
    return s
  | .swap ksd₁ ksd₂ =>
    sdSwap ksd₁ (krUsd ksd₁.ring ksd₁.idx) ksd₂ (krUsd ksd₂.ring ksd₂.idx) s
  | .setQflags kqum qflags => .ok (s.setQum kqum { s.quanta kqum with qflags := qflags })
  | .setLength usd mdLen => .ok (usdSetLength usd mdLen s)

/-- The descriptors after `KSD_INIT` and `USD_INIT`. -/
def Slots.Initialised (s : Slots R Q) : Prop := ∀ k, s.ksds k = ksdInit ∧ s.usds k = usdInit

/-- The user descriptor shows metadata. -/
def UserSlotDesc.Attached (d : UserSlotDesc) : Prop :=
  d.sdFlags &&& sdIdxValid ≠ 0 ∧ d.sdMdIdx ≠ objIdxNone

/-- The three records of a slot agree. -/
structure Slots.MatchedAt (s : Slots R Q) (k : SlotPtr R) : Prop where
  attached : (s.ksds k).sdMd ≠ none ↔ (s.usds k).Attached
  index : ∀ q, (s.ksds k).sdMd = some q → (s.usds k).sdMdIdx = (s.quanta q).mdpIdx
  ksd : ∀ q, (s.ksds k).sdMd = some q → (s.quanta q).ksd = some k

/-- The three records agree everywhere, and quanta have indices that user space can tell. -/
structure Slots.Matched (s : Slots R Q) : Prop where
  slot : ∀ k, s.MatchedAt k
  mdpIdx : ∀ q, (s.quanta q).mdpIdx ≠ objIdxNone

end System

section Slot

variable {R Q : Type} {s t : Slots R Q} {k k' : SlotPtr R} {q : Q}

/-- A slot with a packet is matched if both sides name each other. -/
theorem Slots.MatchedAt.of_some (hmd : (s.ksds k).sdMd = some q)
    (hvalid : (s.usds k).sdFlags &&& sdIdxValid ≠ 0)
    (hidx : (s.usds k).sdMdIdx = (s.quanta q).mdpIdx) (hnone : (s.quanta q).mdpIdx ≠ objIdxNone)
    (hksd : (s.quanta q).ksd = some k) : s.MatchedAt k where
  attached := ⟨fun _ => ⟨hvalid, hidx ▸ hnone⟩, fun _ => by simp [hmd]⟩
  index q' hq' := by
    obtain rfl : q = q' := Option.some.inj (hmd.symm.trans hq')
    exact hidx
  ksd q' hq' := by
    obtain rfl : q = q' := Option.some.inj (hmd.symm.trans hq')
    exact hksd

/-- A slot without a packet is matched if the user side says so. -/
theorem Slots.MatchedAt.of_none (hmd : (s.ksds k).sdMd = none)
    (hidx : (s.usds k).sdMdIdx = objIdxNone) : s.MatchedAt k where
  attached := ⟨fun h => absurd hmd h, fun h => absurd hidx h.2⟩
  index q hq := by simp [hmd] at hq
  ksd q hq := by simp [hmd] at hq

/-- Records that match at a slot match where they are moved to, often to the same slot. -/
theorem Slots.MatchedAt.move (h : s.MatchedAt k') (hmd : t.ksds k = s.ksds k')
    (hidx : (t.usds k).sdMdIdx = (s.usds k').sdMdIdx)
    (hflags : (t.usds k).sdFlags = (s.usds k').sdFlags)
    (hq : ∀ q, (s.ksds k').sdMd = some q →
      (t.quanta q).mdpIdx = (s.quanta q).mdpIdx ∧ (t.quanta q).ksd = some k) :
    t.MatchedAt k where
  attached := by
    rw [hmd, h.attached, UserSlotDesc.Attached, UserSlotDesc.Attached, hidx, hflags]
  index q hmd' := by
    rw [hmd] at hmd'
    rw [hidx, h.index q hmd', (hq q hmd').1]
  ksd q hmd' := by
    rw [hmd] at hmd'
    exact (hq q hmd').2

/-- No quantum is attached to two slots. -/
theorem Slots.Matched.unique (h : s.Matched) (hk : (s.ksds k).sdMd = some q)
    (hk' : (s.ksds k').sdMd = some q) : k = k' :=
  Option.some.inj (((h.slot k).ksd q hk).symm.trans ((h.slot k').ksd q hk'))

/-- Slots are matched when they are initialised. -/
theorem Slots.Initialised.matched (h : s.Initialised)
    (hidx : ∀ q, (s.quanta q).mdpIdx ≠ objIdxNone) : s.Matched where
  slot k := .of_none (by rw [(h k).1]; rfl) (by rw [(h k).2]; rfl)
  mdpIdx := hidx

end Slot

section Inversion

variable {R Q : Type} [DecidableEq R] [DecidableEq Q] {s t : Slots R Q}
  {rings : R → KernChannelRing} {sync : Bool} {kring : R} {ksd ksd₁ ksd₂ : SlotPtr R} {kqum : Q}

/-- The index of a slot finds its user side. -/
theorem krSlotIndex_eq_ok {idx : UInt32} (h : krSlotIndex rings kring ksd = .ok idx) :
    krUsd kring idx = ksd := by
  obtain ⟨_, ha, h⟩ := bind_eq_ok.mp h
  obtain rfl := Except.ok.inj h
  rw [kassert_eq_ok] at ha
  rw [krUsd, ← ha.1]

/-- What `KR_SLOT_ATTACH_METADATA` requires and does on a ring that user space can see. -/
theorem krSlotAttachMetadata_eq_ok (hk : ¬krKernelOnly (rings kring))
    (h : krSlotAttachMetadata rings sync kring ksd kqum s = .ok t) :
    (s.quanta kqum).ksd = none ∧ (s.ksds ksd).sdMd = none ∧
      t = ((s.setQum kqum { s.quanta kqum with ksd := some ksd }).setKsd ksd ⟨some kqum⟩).setUsd ksd
        ⟨(s.quanta kqum).mdpIdx, ((s.usds ksd).sdFlags ||| sdIdxValid) &&& sdFlagsUser,
          (s.usds ksd).sdLen⟩ := by
  obtain ⟨idx, hidx, h⟩ := bind_eq_ok.mp h
  obtain ⟨_, -, h⟩ := bind_eq_ok.mp h
  obtain ⟨_, -, h⟩ := bind_eq_ok.mp h
  obtain ⟨_, hksd, h⟩ := bind_eq_ok.mp h
  obtain ⟨_, -, h⟩ := bind_eq_ok.mp h
  obtain ⟨_, -, h⟩ := bind_eq_ok.mp h
  obtain ⟨s', hattach, h⟩ := bind_eq_ok.mp h
  obtain ⟨_, hmd, hattach⟩ := bind_eq_ok.mp hattach
  obtain rfl := Except.ok.inj hattach
  rw [if_neg hk, krSlotIndex_eq_ok hidx] at h
  obtain ⟨_, -, h⟩ := bind_eq_ok.mp h
  obtain ⟨_, -, h⟩ := bind_eq_ok.mp h
  obtain rfl := Except.ok.inj h
  rw [kassert_eq_ok] at hksd hmd
  refine ⟨hksd, hmd, ?_⟩
  simp [Slots.setUsd, Slots.setKsd, Slots.setQum]

/-- What `KR_SLOT_DETACH_METADATA` requires and does on a ring that user space can see. -/
theorem krSlotDetachMetadata_eq_ok {r : Slots R Q × Q} (hk : ¬krKernelOnly (rings kring))
    (h : krSlotDetachMetadata rings sync kring ksd s = .ok r) :
    (s.ksds ksd).sdMd = some r.2 ∧ (s.quanta r.2).ksd = some ksd ∧
      r.1 = ((s.setQum r.2 { s.quanta r.2 with
        qflags := (s.quanta r.2).qflags &&& ~~~qumFFinalized
        ksd := none }).setKsd ksd ⟨none⟩).setUsd ksd
          ⟨objIdxNone, (s.usds ksd).sdFlags &&& sdFlagsUser &&& ~~~sdIdxValid,
            (s.usds ksd).sdLen⟩ := by
  obtain ⟨idx, hidx, h⟩ := bind_eq_ok.mp h
  obtain ⟨_, -, h⟩ := bind_eq_ok.mp h
  cases hmd : (s.ksds ksd).sdMd with
  | none =>
    rw [hmd] at h
    cases h
  | some q =>
    rw [hmd] at h
    obtain ⟨_, hksd, h⟩ := bind_eq_ok.mp h
    obtain ⟨_, -, h⟩ := bind_eq_ok.mp h
    obtain ⟨_, -, h⟩ := bind_eq_ok.mp h
    obtain ⟨s', hdetach, h⟩ := bind_eq_ok.mp h
    obtain ⟨_, -, hdetach⟩ := bind_eq_ok.mp hdetach
    obtain rfl := Except.ok.inj hdetach
    rw [if_neg hk, krSlotIndex_eq_ok hidx] at h
    obtain rfl := Except.ok.inj h
    rw [kassert_eq_ok] at hksd
    exact ⟨rfl, hksd, rfl⟩

omit [DecidableEq R] in
/-- The packet of a slot is made to name the slot. -/
theorem setQumKsd_eq_ok (h : setQumKsd ksd s = .ok t) : ∃ q, (s.ksds ksd).sdMd = some q ∧
    t = s.setQum q { s.quanta q with ksd := some ksd } := by
  unfold setQumKsd at h
  split at h
  · cases h
  · next q hmd =>
    obtain rfl := Except.ok.inj h
    exact ⟨q, hmd, rfl⟩

/-- What `SD_SWAP` requires and does. -/
theorem sdSwap_eq_ok (h : sdSwap ksd₁ ksd₁ ksd₂ ksd₂ s = .ok t) :
    ∃ q₁ q₂, (s.ksds ksd₁).sdMd = some q₁ ∧ (s.ksds ksd₂).sdMd = some q₂ ∧
      t = (({ s with
        ksds := s.ksds ∘ Equiv.swap ksd₁ ksd₂
        usds := s.usds ∘ Equiv.swap ksd₁ ksd₂ } : Slots R Q).setQum q₂
          { s.quanta q₂ with ksd := some ksd₁ }).setQum q₁
            { Function.update s.quanta q₂ { s.quanta q₂ with ksd := some ksd₁ } q₁ with
              ksd := some ksd₂ } := by
  have hswap : ksdSwap ksd₁ ksd₂ (usdSwap ksd₁ ksd₂ s) = { s with
      ksds := s.ksds ∘ Equiv.swap ksd₁ ksd₂
      usds := s.usds ∘ Equiv.swap ksd₁ ksd₂ } := by
    rw [← update_update_swap, ← update_update_swap]
    rfl
  obtain ⟨s', h₁, h₂⟩ := bind_eq_ok.mp h
  rw [hswap] at h₁
  obtain ⟨q₂, hq₂, rfl⟩ := setQumKsd_eq_ok h₁
  obtain ⟨q₁, hq₁, rfl⟩ := setQumKsd_eq_ok h₂
  refine ⟨q₁, q₂, ?_, ?_, rfl⟩
  · simpa [Slots.setQum] using hq₁
  · simpa using hq₂

end Inversion

section Preservation

variable {R Q : Type} [DecidableEq R] [DecidableEq Q] {s t : Slots R Q}
  {rings : R → KernChannelRing} {sync : Bool} {kring : R} {ksd ksd₁ ksd₂ : SlotPtr R} {kqum : Q}

omit [DecidableEq R] in
/-- No store into a quantum touches an index. -/
theorem mdpIdx_update (quanta : Q → KernQuantum R) (ksd : Option (SlotPtr R))
    (qflags : BitVec 16) (q : Q) :
    (Function.update quanta kqum ⟨(quanta kqum).pp, ksd, qflags, (quanta kqum).mdpIdx⟩ q).mdpIdx =
      (quanta q).mdpIdx := by
  by_cases hq : q = kqum
  · subst hq
    simp
  · simp [hq]

/-- The flag set by `USD_ATTACH_METADATA` survives the mask. -/
theorem attached_flags (flags : BitVec 16) :
    (flags ||| sdIdxValid) &&& sdFlagsUser &&& sdIdxValid ≠ 0 := by
  have hbit : (flags ||| sdIdxValid) &&& sdIdxValid = sdIdxValid := by
    ext i
    simp only [BitVec.getElem_and, BitVec.getElem_or]
    cases sdIdxValid[i] <;> simp
  rw [sdFlagsUser, hbit]
  decide

/-- Attaching a packet keeps the slots matched. -/
theorem matched_attach (hs : s.Matched) (hk : ¬krKernelOnly (rings kring))
    (h : krSlotAttachMetadata rings sync kring ksd kqum s = .ok t) : t.Matched := by
  obtain ⟨hksd, -, rfl⟩ := krSlotAttachMetadata_eq_ok hk h
  constructor
  · intro k
    by_cases hkk : k = ksd
    · subst hkk
      refine .of_some (q := kqum) (by simp) ?_ (by simp) ?_ (by simp)
      · simpa using attached_flags (s.usds k).sdFlags
      · simpa using hs.mdpIdx kqum
    · -- a quantum attached elsewhere has a back-pointer, so it is not the new one
      refine (hs.slot k).move (by simp [hkk]) (by simp [hkk]) (by simp [hkk]) fun q hq => ?_
      have hback := (hs.slot k).ksd q hq
      have hne : q ≠ kqum := by
        rintro rfl
        simp [hksd] at hback
      simp [hne, hback]
  · intro q
    exact ne_of_eq_of_ne (mdpIdx_update s.quanta _ _ q) (hs.mdpIdx q)

/-- Detaching a packet keeps the slots matched. -/
theorem matched_detach {r : Slots R Q × Q} (hs : s.Matched) (hk : ¬krKernelOnly (rings kring))
    (h : krSlotDetachMetadata rings sync kring ksd s = .ok r) : r.1.Matched := by
  obtain ⟨hmd, -, ht⟩ := krSlotDetachMetadata_eq_ok hk h
  rw [ht]
  constructor
  · intro k
    by_cases hkk : k = ksd
    · subst hkk
      exact .of_none (by simp) (by simp)
    · refine (hs.slot k).move (by simp [hkk]) (by simp [hkk]) (by simp [hkk]) fun q hq => ?_
      have hne : q ≠ r.2 := by
        rintro rfl
        exact hkk (hs.unique hq hmd)
      simp [hne, (hs.slot k).ksd q hq]
  · intro q
    exact ne_of_eq_of_ne (mdpIdx_update s.quanta _ _ q) (hs.mdpIdx q)

/-- The quantum of a slot moves with its descriptors. -/
theorem matched_swap (hs : s.Matched) (h : sdSwap ksd₁ ksd₁ ksd₂ ksd₂ s = .ok t) :
    t.Matched := by
  obtain ⟨q₁, q₂, hq₁, hq₂, rfl⟩ := sdSwap_eq_ok h
  have hidx : ∀ q, (Function.update (Function.update s.quanta q₂
      { s.quanta q₂ with ksd := some ksd₁ }) q₁
      { Function.update s.quanta q₂ { s.quanta q₂ with ksd := some ksd₁ } q₁ with
        ksd := some ksd₂ } q).mdpIdx = (s.quanta q).mdpIdx := fun q =>
    (mdpIdx_update _ _ _ q).trans (mdpIdx_update _ _ _ q)
  refine ⟨fun k => ?_, fun q => ne_of_eq_of_ne (hidx q) (hs.mdpIdx q)⟩
  refine (hs.slot (Equiv.swap ksd₁ ksd₂ k)).move rfl rfl rfl fun q hq => ⟨hidx q, ?_⟩
  by_cases h₁ : q = q₁
  · -- its slot is the first one, so the new slot is the second one
    subst h₁
    have hk : Equiv.swap ksd₁ ksd₂ k = ksd₁ := hs.unique hq hq₁
    rw [Equiv.swap_apply_eq_iff, Equiv.swap_apply_left] at hk
    simp [hk]
  · by_cases h₂ : q = q₂
    · subst h₂
      have hk : Equiv.swap ksd₁ ksd₂ k = ksd₂ := hs.unique hq hq₂
      rw [Equiv.swap_apply_eq_iff, Equiv.swap_apply_right] at hk
      simp [h₁, hk]
    · have hk₁ : k ≠ ksd₁ := by
        rintro rfl
        rw [Equiv.swap_apply_left] at hq
        exact h₂ (Option.some.inj (hq.symm.trans hq₂))
      have hk₂ : k ≠ ksd₂ := by
        rintro rfl
        rw [Equiv.swap_apply_right] at hq
        exact h₁ (Option.some.inj (hq.symm.trans hq₁))
      rw [Equiv.swap_apply_of_ne_of_ne hk₁ hk₂] at hq
      simp [h₁, h₂, (hs.slot k).ksd q hq]

/-- Every operation keeps the three records in step. -/
theorem Slots.Matched.step {op : Op R Q} (hrings : ∀ r, ¬krKernelOnly (rings r))
    (hs : s.Matched) (h : s.step rings op = .ok t) : t.Matched := by
  cases op with
  | attach sync kring ksd kqum => exact matched_attach hs (hrings kring) h
  | detach sync kring ksd =>
    obtain ⟨r, hr, h⟩ := bind_eq_ok.mp h
    obtain rfl := Except.ok.inj h
    exact matched_detach hs (hrings kring) hr
  | swap ksd₁ ksd₂ => exact matched_swap hs h
  | setQflags kqum qflags =>
    obtain rfl := Except.ok.inj h
    refine ⟨fun k => ?_, fun q => ne_of_eq_of_ne (mdpIdx_update s.quanta _ _ q) (hs.mdpIdx q)⟩
    refine (hs.slot k).move rfl rfl rfl fun q hq => ⟨mdpIdx_update s.quanta _ _ q, ?_⟩
    have hback := (hs.slot k).ksd q hq
    by_cases hne : q = kqum
    · subst hne
      simpa using hback
    · simpa [hne] using hback
  | setLength usd mdLen =>
    obtain rfl := Except.ok.inj h
    refine ⟨fun k => ?_, hs.mdpIdx⟩
    by_cases hkk : k = usd
    · subst hkk
      exact (hs.slot k).move rfl (by simp [usdSetLength]) (by simp [usdSetLength])
        fun q hq => ⟨rfl, (hs.slot k).ksd q hq⟩
    · exact (hs.slot k).move rfl (by simp [usdSetLength, hkk]) (by simp [usdSetLength, hkk])
        fun q hq => ⟨rfl, (hs.slot k).ksd q hq⟩

end Preservation

section Runs

variable {R Q : Type} [DecidableEq R] [DecidableEq Q] {s t : Slots R Q}
  {rings : R → KernChannelRing}

/-- Executions of attachment on a set of rings, as long as no `ASSERT` fails. -/
abbrev Execution (rings : R → KernChannelRing) : Slots R Q → List (Op R Q) → Slots R Q → Prop :=
  Run fun s op t => s.step rings op = .ok t

/-- In every state reached from initialised descriptors, a kernel descriptor holds a
quantum exactly when the user descriptor shows one, the user index is that of the
quantum, the back-pointer names the slot, and no other slot holds the quantum. -/
theorem slots_agree_of_execution {ops : List (Op R Q)} (hrings : ∀ r, ¬krKernelOnly (rings r))
    (hs : s.Initialised) (hidx : ∀ q, (s.quanta q).mdpIdx ≠ objIdxNone)
    (h : Execution rings s ops t) (k : SlotPtr R) :
    ((t.ksds k).sdMd ≠ none ↔
      (t.usds k).sdFlags &&& sdIdxValid ≠ 0 ∧ (t.usds k).sdMdIdx ≠ objIdxNone) ∧
      ∀ q, (t.ksds k).sdMd = some q →
        (t.usds k).sdMdIdx = (t.quanta q).mdpIdx ∧ (t.quanta q).ksd = some k ∧
          ∀ k', (t.ksds k').sdMd = some q → k' = k := by
  have ht : t.Matched :=
    h.invariant Slots.Matched (fun hu hstep => hu.step hrings hstep) (hs.matched hidx)
  refine ⟨(ht.slot k).attached, fun q hq => ⟨(ht.slot k).index q hq, (ht.slot k).ksd q hq, ?_⟩⟩
  intro k' hk'
  exact ht.unique hk' hq

/-- A ring of two slots that user space can see. -/
def twoSlots : Unit → KernChannelRing := fun _ => ⟨0, 0x1000, 2⟩

/-- Two finalized quanta, and no attachment. -/
def twoQuanta : Slots Unit Bool where
  ksds _ := ksdInit
  usds _ := usdInit
  quanta q := ⟨0x1000, none, qumFInternalized ||| qumFFinalized, if q then 7 else 3⟩

/-- Attach a quantum to each slot, swap the slots and detach the first one. -/
def attachSwapDetach : List (Op Unit Bool) :=
  [.attach true () ⟨(), 0⟩ true, .attach true () ⟨(), 1⟩ false, .swap ⟨(), 0⟩ ⟨(), 1⟩,
    .detach true () ⟨(), 0⟩]

/-- The quantum first attached to slot 0 ends in slot 1, with its index and its back-pointer. -/
theorem slots_agree_after_swap : ∃ t, Execution twoSlots twoQuanta attachSwapDetach t ∧
    (t.usds ⟨(), 1⟩).sdMdIdx = 7 ∧ (t.quanta true).ksd = some ⟨(), 1⟩ ∧
      (t.ksds ⟨(), 0⟩).sdMd = none := by
  have hrings : ∀ r, ¬krKernelOnly (twoSlots r) := by decide
  have hidx : ∀ q, (twoQuanta.quanta q).mdpIdx ≠ objIdxNone := by decide
  have hrun : Execution twoSlots twoQuanta attachSwapDetach _ :=
    .snoc (.snoc (.snoc (.snoc .nil rfl) rfl) rfl) rfl
  have hagree := slots_agree_of_execution hrings (fun _ => ⟨rfl, rfl⟩) hidx hrun ⟨(), 1⟩
  obtain ⟨hindex, hback, -⟩ := hagree.2 true rfl
  exact ⟨_, hrun, hindex, hback, rfl⟩

end Runs

end MacKernel.SlotDesc
