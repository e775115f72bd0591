import MacKernel.Models.Buflet.Native
import Mathlib.Logic.Function.Basic

/-!
# Slot descriptors of `skywalk/channel`

A ring has an array of kernel slot descriptors and one of user slot descriptors of
the same length. A pointer into one of the arrays is a ring and an index, and the
stores are made one after the other, as in the source. `ASSERT` is checked.
-/

namespace MacKernel.SlotDesc

open Buflet

section Data

/-- `SD_IDX_VALID`: slot has metadata attached. -/
def sdIdxValid : BitVec 16 := 0x1

/-- `SD_FLAGS_USER`. -/
def sdFlagsUser : BitVec 16 := sdIdxValid

/-- `QUM_F_FINALIZED`: has been finalized. -/
def qumFFinalized : BitVec 16 := 0x0001

/-- `QUM_F_DROPPED`: has been dropped. -/
def qumFDropped : BitVec 16 := 0x0002

/-- `QUM_F_INTERNALIZED`: has been internalized. -/
def qumFInternalized : BitVec 16 := 0x1000

/-- `CKRF_KERNEL_ONLY`: not usable by userland. -/
def ckrfKernelOnly : BitVec 32 := 1 <<< 31

/-- `struct __slot_desc *`: an element of a descriptor array. -/
structure SlotPtr (R : Type) where
  ring : R
  idx : UInt32
  deriving DecidableEq

/-- `struct __kern_slot_desc`; `sd_md` and `sd_qum` share their storage. -/
structure KernSlotDesc (Q : Type) where
  sdMd : Option Q
  deriving DecidableEq

/-- `struct __user_slot_desc`. -/
structure UserSlotDesc where
  sdMdIdx : BitVec 32
  sdFlags : BitVec 16
  sdLen : BitVec 16
  deriving DecidableEq

/-- The part of `struct __kern_quantum` and of its preamble that attachment reads. -/
structure KernQuantum (R : Type) where
  pp : BitVec 64
  ksd : Option (SlotPtr R)
  qflags : BitVec 16
  /-- `METADATA_IDX`. -/
  mdpIdx : BitVec 32

/-- The part of `struct __kern_channel_ring` that attachment reads. -/
structure KernChannelRing where
  flags : BitVec 32
  pp : BitVec 64
  numSlots : UInt32

/-- Descriptor arrays and quanta. -/
structure Slots (R Q : Type) where
  ksds : SlotPtr R → KernSlotDesc Q
  usds : SlotPtr R → UserSlotDesc
  quanta : Q → KernQuantum R

end Data

section Macros

variable {R Q : Type} [DecidableEq R] [DecidableEq Q]

/-- `KR_KERNEL_ONLY`. -/
def krKernelOnly (kr : KernChannelRing) : Prop := kr.flags &&& ckrfKernelOnly ≠ 0

instance (kr : KernChannelRing) : Decidable (krKernelOnly kr) :=
  inferInstanceAs (Decidable (_ ≠ _))

/-- `KR_SLOT_INDEX`. -/
def krSlotIndex (rings : R → KernChannelRing) (kr : R) (slot : SlotPtr R) :
    Except Fault UInt32 := do
  kassert (slot.ring = kr ∧ slot.idx < (rings kr).numSlots)
  return slot.idx

/-- `KR_USD`. -/
def krUsd (kr : R) (idx : UInt32) : SlotPtr R := ⟨kr, idx⟩

/-- Store into a kernel slot descriptor. -/
def Slots.setKsd (s : Slots R Q) (ksd : SlotPtr R) (d : KernSlotDesc Q) : Slots R Q :=
  { s with ksds := Function.update s.ksds ksd d }

/-- Store into a user slot descriptor. -/
def Slots.setUsd (s : Slots R Q) (usd : SlotPtr R) (d : UserSlotDesc) : Slots R Q :=
  { s with usds := Function.update s.usds usd d }

/-- Store into a quantum. -/
def Slots.setQum (s : Slots R Q) (q : Q) (d : KernQuantum R) : Slots R Q :=
  { s with quanta := Function.update s.quanta q d }

/-- `KSD_INIT`. -/
def ksdInit : KernSlotDesc Q := ⟨none⟩

/-- `USD_INIT`. -/
def usdInit : UserSlotDesc := ⟨objIdxNone, 0, 0⟩

/-- `KSD_ATTACH_METADATA`. -/
def ksdAttachMetadata (ksd : SlotPtr R) (mdAddr : Q) (s : Slots R Q) :
    Except Fault (Slots R Q) := do
  kassert ((s.ksds ksd).sdMd = none)
  return s.setKsd ksd ⟨some mdAddr⟩

/-- `KSD_DETACH_METADATA`. -/
def ksdDetachMetadata (ksd : SlotPtr R) (s : Slots R Q) : Except Fault (Slots R Q) := do
  kassert ((s.ksds ksd).sdMd ≠ none)
  return s.setKsd ksd ⟨none⟩

/-- `USD_ATTACH_METADATA`; non-user flags are masked off. -/
def usdAttachMetadata (usd : SlotPtr R) (mdIdx : BitVec 32) (s : Slots R Q) :
    Except Fault (Slots R Q) := do
  let d := s.usds usd
  kassert (d.sdMdIdx = objIdxNone)
  kassert (d.sdFlags &&& sdIdxValid = 0)
  return s.setUsd usd ⟨mdIdx, (d.sdFlags ||| sdIdxValid) &&& sdFlagsUser, d.sdLen⟩

/-- `USD_DETACH_METADATA`; non-user flags are masked off. -/
def usdDetachMetadata (usd : SlotPtr R) (s : Slots R Q) : Slots R Q :=
  let d := s.usds usd
  s.setUsd usd ⟨objIdxNone, d.sdFlags &&& sdFlagsUser &&& ~~~sdIdxValid, d.sdLen⟩

/-- `USD_SET_LENGTH`. -/
def usdSetLength (usd : SlotPtr R) (mdLen : BitVec 16) (s : Slots R Q) : Slots R Q :=
  s.setUsd usd { s.usds usd with sdLen := mdLen }

/-- `_USD_SWAP`: three copies through a descriptor on the stack. -/
def usdSwap (usd₁ usd₂ : SlotPtr R) (s : Slots R Q) : Slots R Q :=
  let tusd := s.usds usd₁
  let s := s.setUsd usd₁ (s.usds usd₂)
  s.setUsd usd₂ tusd

/-- `_KSD_SWAP`: three copies through a descriptor on the stack. -/
def ksdSwap (ksd₁ ksd₂ : SlotPtr R) (s : Slots R Q) : Slots R Q :=
  let tksd := s.ksds ksd₁
  let s := s.setKsd ksd₁ (s.ksds ksd₂)
  s.setKsd ksd₂ tksd

/-- The store of `SD_SWAP` into the quantum of a slot. -/
def setQumKsd (ksd : SlotPtr R) (s : Slots R Q) : Except Fault (Slots R Q) :=
  match (s.ksds ksd).sdMd with
  | none => .error .nullDeref
  | some q => .ok (s.setQum q { s.quanta q with ksd := some ksd })

/-- `SD_SWAP`. -/
def sdSwap (ksd₁ usd₁ ksd₂ usd₂ : SlotPtr R) (s : Slots R Q) : Except Fault (Slots R Q) := do
  let s := usdSwap usd₁ usd₂ s
  let s := ksdSwap ksd₁ ksd₂ s
  -- swap packet attachment
  let s ← setQumKsd ksd₁ s
  setQumKsd ksd₂ s

/-- Finalized and dropped exclude each other, and one of them holds. -/
def FinalizedXorDropped (qflags : BitVec 16) : Prop :=
  xor (qflags &&& qumFFinalized != 0) (qflags &&& qumFDropped != 0) = true

instance (qflags : BitVec 16) : Decidable (FinalizedXorDropped qflags) :=
  inferInstanceAs (Decidable (_ = _))

/-- `KR_SLOT_ATTACH_METADATA`; `sync` is `sk_is_sync_protected`. -/
def krSlotAttachMetadata (rings : R → KernChannelRing) (sync : Bool) (kring : R)
    (ksd : SlotPtr R) (kqum : Q) (s : Slots R Q) : Except Fault (Slots R Q) := do
  let idx ← krSlotIndex rings kring ksd
  kassert (sync = true)
  kassert ((s.quanta kqum).pp = (rings kring).pp)
  kassert ((s.quanta kqum).ksd = none)
  kassert ((s.quanta kqum).qflags &&& qumFInternalized ≠ 0)
  kassert (FinalizedXorDropped (s.quanta kqum).qflags)
  let s := s.setQum kqum { s.quanta kqum with ksd := some ksd }
  let s ← ksdAttachMetadata ksd kqum s
  if krKernelOnly (rings kring) then return s
  else usdAttachMetadata (krUsd kring idx) (s.quanta kqum).mdpIdx s

/-- `KR_SLOT_DETACH_METADATA`; the quantum is returned. -/
def krSlotDetachMetadata (rings : R → KernChannelRing) (sync : Bool) (kring : R)
    (ksd : SlotPtr R) (s : Slots R Q) : Except Fault (Slots R Q × Q) := do
  let idx ← krSlotIndex rings kring ksd
  kassert (sync = true)
  match (s.ksds ksd).sdMd with
  | none => .error .assertFailed
  | some kqum =>
    let q := s.quanta kqum
    kassert (q.ksd = some ksd)
    kassert (q.pp = (rings kring).pp)
    kassert (q.qflags &&& qumFInternalized ≠ 0 ∨ FinalizedXorDropped q.qflags)
    -- detaching requires the packet to be finalized later
    let s := s.setQum kqum { q with qflags := q.qflags &&& ~~~qumFFinalized, ksd := none }
    let s ← ksdDetachMetadata ksd s
    if krKernelOnly (rings kring) then return (s, kqum)
    else return (usdDetachMetadata (krUsd kring idx) s, kqum)

end Macros

section Stores

variable {R Q : Type} [DecidableEq R] [DecidableEq Q] (s : Slots R Q) (k : SlotPtr R)

omit [DecidableEq Q] in
@[simp] theorem Slots.ksds_setKsd (d : KernSlotDesc Q) :
    (s.setKsd k d).ksds = Function.update s.ksds k d := rfl

omit [DecidableEq Q] in
@[simp] theorem Slots.usds_setKsd (d : KernSlotDesc Q) : (s.setKsd k d).usds = s.usds := rfl

omit [DecidableEq Q] in
@[simp] theorem Slots.quanta_setKsd (d : KernSlotDesc Q) : (s.setKsd k d).quanta = s.quanta := rfl

omit [DecidableEq Q] in
@[simp] theorem Slots.ksds_setUsd (d : UserSlotDesc) : (s.setUsd k d).ksds = s.ksds := rfl

omit [DecidableEq Q] in
@[simp] theorem Slots.usds_setUsd (d : UserSlotDesc) :
    (s.setUsd k d).usds = Function.update s.usds k d := rfl

omit [DecidableEq Q] in
@[simp] theorem Slots.quanta_setUsd (d : UserSlotDesc) : (s.setUsd k d).quanta = s.quanta := rfl

omit [DecidableEq R] in
@[simp] theorem Slots.ksds_setQum (q : Q) (d : KernQuantum R) : (s.setQum q d).ksds = s.ksds := rfl

omit [DecidableEq R] in
@[simp] theorem Slots.usds_setQum (q : Q) (d : KernQuantum R) : (s.setQum q d).usds = s.usds := rfl

omit [DecidableEq R] in
@[simp] theorem Slots.quanta_setQum (q : Q) (d : KernQuantum R) :
    (s.setQum q d).quanta = Function.update s.quanta q d := rfl

end Stores

end MacKernel.SlotDesc
