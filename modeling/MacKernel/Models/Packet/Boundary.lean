import MacKernel.Models.Packet.Native

/-!
# Packets across the user boundary

Two packets that agree on what user space may see have the same user image, up to
the link of their buflets: `UBUF_INIT` hands the kernel address of the next buflet
out. In the other direction nothing of the user image reaches the kernel-only part
of a packet, and an image that was not modified restores the packet.
-/

namespace MacKernel.Packet

open Buflet

section Masks

variable {n : Nat} (x y mask : BitVec n)

/-- Bits outside a mask survive a masked merge. -/
theorem merge_and_not : ((x &&& mask) ||| (y &&& ~~~mask)) &&& ~~~mask = y &&& ~~~mask := by
  ext i hi
  simp only [BitVec.getElem_and, BitVec.getElem_or, BitVec.getElem_not]
  cases mask[i] <;> simp

/-- A word is the merge of its two parts. -/
theorem merge_self : ((y &&& mask) &&& mask) ||| (y &&& ~~~mask) = y := by
  ext i hi
  simp only [BitVec.getElem_and, BitVec.getElem_or, BitVec.getElem_not]
  cases mask[i] <;> simp

private theorem merge_not_and : ((x &&& ~~~mask) ||| (y &&& mask)) &&& mask = y &&& mask := by
  ext i hi
  simp only [BitVec.getElem_and, BitVec.getElem_or, BitVec.getElem_not]
  cases mask[i] <;> simp

end Masks

section Externalize

/-- Two kernel buflets agree on every field meant for user space. -/
structure SameUserBuflet (b₁ b₂ : KernBuflet) : Prop where
  idx : bufIdx.get b₁.com = bufIdx.get b₂.com
  nbftIdx : bufNbftIdx.get b₁.com = bufNbftIdx.get b₂.com
  bftIdxReg : bufBftIdxReg.get b₁.com = bufBftIdxReg.get b₂.com
  dlim : bufDlim.get b₁.com = bufDlim.get b₂.com
  dlen : bufDlen.get b₁.com = bufDlen.get b₂.com
  doff : bufDoff.get b₁.com = bufDoff.get b₂.com
  flag : bufFlag.get b₁.com = bufFlag.get b₂.com

/-- Two kernel packets, each with the areas it points to, agree on everything meant for
user space. Options are meant for it when a flag says that there are any. -/
structure SameUserPacket (m₁ : Areas) (k₁ : KernPacket) (m₂ : Areas) (k₂ : KernPacket) : Prop where
  flowId : qumFlowId.get k₁.qum.com = qumFlowId.get k₂.qum.com
  len : qumLen.get k₁.qum.com = qumLen.get k₂.qum.com
  svcClass : qumSvcClass.get k₁.qum.com = qumSvcClass.get k₂.qum.com
  qflags : qumQflags.get k₁.qum.com &&& ~~~qumFKernelFlags =
    qumQflags.get k₂.qum.com &&& ~~~qumFKernelFlags
  idx : k₁.qum.md.idx = k₂.qum.md.idx
  type : k₁.qum.md.type = k₂.qum.md.type
  subtype : k₁.qum.md.subtype = k₂.qum.md.subtype
  metadata : pktMeta.get k₁.com = pktMeta.get k₂.com
  pflags : k₁.pflags &&& pktFUserMask = k₂.pflags &&& pktFUserMask
  opt : k₁.pflags &&& pktFOptData ≠ 0 → m₁.opt k₁.comOpt = m₂.opt k₂.comOpt

/-- The user buflet holds the link of the kernel buflet. -/
theorem ubufInit_nbftAddr (b : KernBuflet) (u : BufletCom) :
    bufNbftAddr.get (ubufInit b u) = bufNbftAddr.get b.com := by
  simp (disch := decide) only [ubufInit, bufCtor, Field.get_set_of_disjoint, Field.get_set_self]

private theorem SameUserBuflet.ubufInit_eq_iff {b₁ b₂ : KernBuflet} (h : SameUserBuflet b₁ b₂)
    (u : BufletCom) :
    ubufInit b₁ u = ubufInit b₂ u ↔ bufNbftAddr.get b₁.com = bufNbftAddr.get b₂.com := by
  constructor
  · intro he
    rw [← ubufInit_nbftAddr b₁ u, he, ubufInit_nbftAddr]
  · intro hn
    simp only [ubufInit, hn, h.idx, h.nbftIdx, h.bftIdxReg, h.dlim, h.dlen, h.doff, h.flag]

/-- What `KBUF_EXTERNALIZE` returns when its assertions hold. -/
theorem kbufExternalize_eq_ok {objaddr : BitVec 64 → BitVec 64} {bufletSize : BitVec 16}
    {b : KernBuflet} {u u' : BufletCom} (h : kbufExternalize objaddr bufletSize b u = .ok u') :
    u' = ubufInit b u := by
  obtain ⟨-, -, h⟩ := bind_eq_ok.mp h
  obtain ⟨-, -, h⟩ := bind_eq_ok.mp h
  split at h
  · cases h
  · obtain ⟨-, -, h⟩ := bind_eq_ok.mp h
    exact (Except.ok.inj h).symm

variable {m₁ m₂ : Areas} {k₁ k₂ : KernPacket}

/-- The three words before the flags of a quantum. -/
theorem copyWords_quantum {x y : BitVec 256} (hflow : qumFlowId.get x = qumFlowId.get y)
    (hlen : qumLen.get x = qumLen.get y) (hsvc : qumSvcClass.get x = qumSvcClass.get y)
    (dst : BitVec 256) : copyWords 3 x dst = copyWords 3 y dst := by
  refine copyWords_congr (by decide) (fun i hi => ?_) dst
  by_cases h₁ : i < 128
  · exact Field.getLsbD_eq_of_get_eq hflow (Nat.zero_le _) (by change i < 0 + 128; omega)
  by_cases h₂ : i < 160
  · exact Field.getLsbD_eq_of_get_eq hlen (by change 128 ≤ i; omega) (by change i < 128 + 32; omega)
  · exact Field.getLsbD_eq_of_get_eq hsvc (by change 160 ≤ i; omega) (by change i < 160 + 32; omega)

/-- The three words before the flags of a packet. -/
theorem copyWords_packet {x y : BitVec 256} (h : pktMeta.get x = pktMeta.get y)
    (dst : BitVec 256) : copyWords 3 x dst = copyWords 3 y dst :=
  copyWords_congr (by decide)
    (fun _ hi => Field.getLsbD_eq_of_get_eq h (Nat.zero_le _) (by change _ < 0 + 192; omega)) dst

private theorem SameUserPacket.qumExternalize_eq (h : SameUserPacket m₁ k₁ m₂ k₂)
    (u : UserQuantum) :
    qumExternalize k₁.qum u = qumExternalize k₂.qum u := by
  simp only [qumExternalize, copyWords_quantum h.flowId h.len h.svcClass, h.qflags, h.idx, h.type,
    h.subtype]

/-- The user image of a packet, when its assertions hold. -/
theorem pktExternalize_eq_ok {m : Areas} {k : KernPacket} {u u' : UserPacket}
    (h : pktExternalize m k u = .ok u') : u' = { u with
      com := pktPflags.set (k.pflags &&& pktFUserMask) (copyWords 3 k.com u.com)
      comOpt := if k.pflags &&& pktFOptData ≠ 0 then m.opt k.comOpt else u.comOpt } := by
  unfold pktExternalize at h
  by_cases hopt : k.pflags &&& pktFOptData ≠ 0
  · simp only [if_pos hopt] at h ⊢
    obtain ⟨-, -, h⟩ := bind_eq_ok.mp h
    split at h
    · cases h
    · rw [← Except.ok.inj h, copyWords_all (k := 4) (by decide)]
  · simp only [if_neg hopt] at h ⊢
    exact (Except.ok.inj h).symm

/-- Options are announced by user bits. -/
theorem optData_and_userMask (x : BitVec 64) :
    (x &&& pktFUserMask) &&& pktFOptData = x &&& pktFOptData := by
  rw [BitVec.and_assoc]
  congr 1

private theorem SameUserPacket.pktExternalize_eq (h : SameUserPacket m₁ k₁ m₂ k₂)
    {u u₁ u₂ : UserPacket}
    (h₁ : pktExternalize m₁ k₁ u = .ok u₁) (h₂ : pktExternalize m₂ k₂ u = .ok u₂) : u₁ = u₂ := by
  have hopt : k₁.pflags &&& pktFOptData = k₂.pflags &&& pktFOptData := by
    rw [← optData_and_userMask, h.pflags, optData_and_userMask]
  have hif : (if k₁.pflags &&& pktFOptData ≠ 0 then m₁.opt k₁.comOpt else u.comOpt) =
      if k₂.pflags &&& pktFOptData ≠ 0 then m₂.opt k₂.comOpt else u.comOpt := by
    rw [← hopt]
    split
    · next hne => exact h.opt hne
    · rfl
  rw [pktExternalize_eq_ok h₁, pktExternalize_eq_ok h₂, copyWords_packet h.metadata, h.pflags, hif]

/-- The user images of two packets and two buflets that agree on everything meant for user
space are identical exactly when the buflets have the same next buflet. -/
theorem externalized_eq_iff (hp : SameUserPacket m₁ k₁ m₂ k₂) {b₁ b₂ : KernBuflet}
    (hb : SameUserBuflet b₁ b₂) {objaddr₁ objaddr₂ : BitVec 64 → BitVec 64}
    {bufletSize : BitVec 16} (ub : BufletCom) (uq : UserQuantum) (up : UserPacket)
    {ub₁ ub₂ : BufletCom} {up₁ up₂ : UserPacket}
    (hub₁ : kbufExternalize objaddr₁ bufletSize b₁ ub = .ok ub₁)
    (hub₂ : kbufExternalize objaddr₂ bufletSize b₂ ub = .ok ub₂)
    (hup₁ : pktExternalize m₁ k₁ up = .ok up₁) (hup₂ : pktExternalize m₂ k₂ up = .ok up₂) :
    (ubufInit b₁ ub = ubufInit b₂ ub ∧ ub₁ = ub₂ ∧
      qumExternalize k₁.qum uq = qumExternalize k₂.qum uq ∧ up₁ = up₂) ↔
        bufNbftAddr.get b₁.com = bufNbftAddr.get b₂.com := by
  rw [kbufExternalize_eq_ok hub₁, kbufExternalize_eq_ok hub₂, hb.ubufInit_eq_iff]
  exact ⟨fun h => h.1, fun h => ⟨h, h, hp.qumExternalize_eq uq, hp.pktExternalize_eq hup₁ hup₂⟩⟩

/-- A kernel buflet over the buffer at `addr`, linked to the buflet at `next`. -/
def linkedBuflet (addr next : BitVec 64) : KernBuflet where
  com := bufNbftAddr.set next (bufAddr.set addr (bufDlim.set 2048 0))
  ctl := addr

/-- Areas that hold nothing. -/
def zeroAreas : Areas := ⟨fun _ => 0, fun _ => 0, fun _ => 0⟩

/-- A kernel packet whose bytes are all zero. -/
def zeroPacket : KernPacket where
  qum := ⟨⟨0, 0, 0, 0⟩, 0, 0, 0, 0, 0, ⟨0, 0⟩, 0⟩
  com := 0
  comOpt := 0
  timestamp := 0
  nextpkt := 0
  mbuf := 0
  flow := 0
  txCompl := 0
  bufsMax := 0
  bufsCnt := 0
  chainCount := 0
  chainBytes := 0

/-- A user packet whose bytes are all zero. -/
def zeroUserPacket : UserPacket where
  qum := ⟨⟨0, 0, 0, 0⟩, 0, 0, 0⟩
  com := 0
  comOpt := 0
  bufsMax := 0
  bufsCnt := 0

theorem SameUserPacket.refl (m : Areas) (k : KernPacket) : SameUserPacket m k m k :=
  ⟨rfl, rfl, rfl, rfl, rfl, rfl, rfl, rfl, rfl, fun _ => rfl⟩

private theorem pktExternalize_zero (u : UserPacket) : pktExternalize zeroAreas zeroPacket u =
    .ok { u with com := pktPflags.set 0 (copyWords 3 0 u.com) } := rfl

private theorem sameUserBuflet_linked (addr next addr' next' : BitVec 64) :
    SameUserBuflet (linkedBuflet addr next) (linkedBuflet addr' next') := by
  constructor <;>
    simp (disch := decide) only [linkedBuflet, Field.get_set_of_disjoint]

private theorem kbufExternalize_linked {addr : BitVec 64} (ha : addr ≠ 0) (next : BitVec 64)
    (u : BufletCom) : kbufExternalize id 2048 (linkedBuflet addr next) u =
      .ok (ubufInit (linkedBuflet addr next) u) := by
  have hdlim : bufDlim.get (linkedBuflet addr next).com = 2048 := by
    simp (disch := decide) only [linkedBuflet, Field.get_set_of_disjoint, Field.get_set_self]
  have haddr : bufAddr.get (linkedBuflet addr next).com = addr := by
    simp (disch := decide) only [linkedBuflet, Field.get_set_of_disjoint, Field.get_set_self]
  have hctl : (linkedBuflet addr next).ctl ≠ 0 := ha
  have hobj : addr = id (linkedBuflet addr next).ctl := rfl
  rw [kbufExternalize, hdlim, haddr, kassert_of rfl, ok_bind, kassert_of ha, ok_bind, if_neg hctl,
    kassert_of hobj, ok_bind]
  rfl

/-- Two buflets in different buffers with one next buflet look the same to user space. -/
theorem externalized_eq_unlinked :
    ubufInit (linkedBuflet 0x10000 0) 0 = ubufInit (linkedBuflet 0x20000 0) 0 :=
  ((externalized_eq_iff (SameUserPacket.refl zeroAreas zeroPacket)
    (sameUserBuflet_linked 0x10000 0 0x20000 0) 0 zeroUserPacket.qum zeroUserPacket
    (kbufExternalize_linked (by decide) 0 0) (kbufExternalize_linked (by decide) 0 0)
    (pktExternalize_zero zeroUserPacket) (pktExternalize_zero zeroUserPacket)).mpr
      (by simp only [linkedBuflet, Field.get_set_self])).1

/-- Two buflets in one buffer whose next buflets are at different kernel addresses: the
assertions hold, everything meant for user space agrees, and the user buflets differ. -/
theorem linked_buflets_differ :
    SameUserBuflet (linkedBuflet 0x10000 0xfff0) (linkedBuflet 0x10000 0xffe0) ∧
      ∃ ub₁ ub₂, kbufExternalize id 2048 (linkedBuflet 0x10000 0xfff0) 0 = .ok ub₁ ∧
        kbufExternalize id 2048 (linkedBuflet 0x10000 0xffe0) 0 = .ok ub₂ ∧ ub₁ ≠ ub₂ := by
  have hsame := sameUserBuflet_linked 0x10000 0xfff0 0x10000 0xffe0
  refine ⟨hsame, _, _, kbufExternalize_linked (by decide) 0xfff0 0,
    kbufExternalize_linked (by decide) 0xffe0 0, ?_⟩
  rw [ne_eq, hsame.ubufInit_eq_iff]
  simp only [linkedBuflet, Field.get_set_self]
  decide

end Externalize

section Internalize

/-- The packet with everything that user space may see blanked. -/
def KernPacket.kernelOnly (k : KernPacket) : KernPacket :=
  { k with
    qum := { k.qum with
      com := qumQflags.set (qumQflags.get k.qum.com &&& qumFKernelFlags) (copyWords 3 0 k.qum.com) }
    com := pktPflags.set (k.pflags &&& ~~~pktFUserMask) 0 }

/-- Both halves of a packet are taken over from user space. -/
def internalize (m : Areas) (u : UserPacket) (k : KernPacket) :
    Except Fault (Areas × KernPacket) :=
  pktInternalize m u { k with qum := qumInternalize u.qum k.qum }

/-- `_PKT_INTERNALIZE` where `ASSERT` is compiled out. -/
def pktInternalizeUnasserted (m : Areas) (up : UserPacket) (kp : KernPacket) :
    Except Fault (Areas × KernPacket) := do
  let kf := kp.pflags &&& ~~~pktFUserMask
  let kp := { kp with com := copyWords 3 up.com kp.com }
  let kp := kp.setPflags ((pktPflags.get up.com &&& pktFUserMask) ||| kf)
  if kp.pflags &&& pktFOptData ≠ 0 then
    if kp.comOpt = 0 then .error .nullDeref
    else return (m.setOpt kp.comOpt (copyWords 4 up.comOpt (m.opt kp.comOpt)), kp)
  else return (m, kp)

/-- Both halves of a packet are taken over where `ASSERT` is compiled out. -/
def internalizeUnasserted (m : Areas) (u : UserPacket) (k : KernPacket) :
    Except Fault (Areas × KernPacket) :=
  pktInternalizeUnasserted m u { k with qum := qumInternalize u.qum k.qum }

/-- Both halves of a packet are handed to user space. -/
def externalize (m : Areas) (k : KernPacket) (u : UserPacket) : Except Fault UserPacket :=
  pktExternalize m k { u with qum := qumExternalize k.qum u.qum }

variable {m m' : Areas} {k k' : KernPacket} {u : UserPacket}

/-- The flags that a packet is left with. -/
def mergedPflags (u : UserPacket) (k : KernPacket) : BitVec 64 :=
  (pktPflags.get u.com &&& pktFUserMask) ||| (k.pflags &&& ~~~pktFUserMask)

/-- The packet with the user part of another image. -/
def KernPacket.setMerged (k : KernPacket) (u : UserPacket) : KernPacket :=
  { k with com := pktPflags.set (mergedPflags u k) (copyWords 3 u.com k.com) }

/-- What holds without the assertion does so with it. -/
theorem pktInternalize_unasserted (h : pktInternalize m u k = .ok (m', k')) :
    pktInternalizeUnasserted m u k = .ok (m', k') := by
  change (if _ then _ else _) = _ at h
  change (if _ then _ else _) = _
  split at h
  · next hopt =>
    obtain ⟨-, -, h⟩ := bind_eq_ok.mp h
    rw [if_pos hopt]
    exact h
  · next hopt =>
    rw [if_neg hopt]
    exact h

/-- The packet that `_PKT_INTERNALIZE` leaves, whether its assertion is there or not. -/
theorem pktInternalizeUnasserted_eq_ok (h : pktInternalizeUnasserted m u k = .ok (m', k')) :
    k' = k.setMerged u ∧
      m' = if mergedPflags u k &&& pktFOptData ≠ 0 then m.setOpt k.comOpt u.comOpt else m := by
  have hmerged : (k.setMerged u).pflags = mergedPflags u k := Field.get_set_self _ _ _
  change (if (k.setMerged u).pflags &&& pktFOptData ≠ 0 then _ else _) = _ at h
  rw [hmerged] at h
  split at h
  · next hopt =>
    split at h
    · cases h
    · obtain ⟨rfl, rfl⟩ := Prod.mk.inj (Except.ok.inj h)
      refine ⟨rfl, ?_⟩
      rw [if_pos hopt, copyWords_all (k := 4) (by decide)]
      rfl
  · next hopt =>
    obtain ⟨rfl, rfl⟩ := Prod.mk.inj (Except.ok.inj h)
    exact ⟨rfl, (if_neg hopt).symm⟩

/-- The packet that `_PKT_INTERNALIZE` leaves, when its assertions hold. -/
theorem pktInternalize_eq_ok (h : pktInternalize m u k = .ok (m', k')) :
    k' = k.setMerged u ∧
      m' = if mergedPflags u k &&& pktFOptData ≠ 0 then m.setOpt k.comOpt u.comOpt else m :=
  pktInternalizeUnasserted_eq_ok (pktInternalize_unasserted h)

/-- The flags of a quantum keep only what is saved. -/
theorem qumQflags_internalize (uq : UserQuantum) (kq : KernQuantum) :
    qumQflags.get (qumInternalize uq kq).com = qumQflags.get kq.com &&& qumFSaveMask := by
  simp only [qumInternalize, qumCopy, Field.get_set_self, merge_not_and]

/-- Blanking a quantum hides what was taken over from user space. -/
theorem blank_qumInternalize (v : BitVec 16) (uq : UserQuantum) (kq : KernQuantum) :
    qumQflags.set v (copyWords 3 0 (qumInternalize uq kq).com) =
      qumQflags.set v (copyWords 3 0 kq.com) := by
  apply BitVec.eq_of_getLsbD_eq
  intro i _
  simp only [qumInternalize, qumCopy, Field.getLsbD_set,
    getLsbD_copyWords (show 64 * 3 ≤ 256 by decide)]
  split
  · rfl
  · split <;> rfl

/-- What user space cannot see once a packet has been taken over. -/
def KernPacket.kernelOnlySaved (k : KernPacket) : KernPacket :=
  { k with
    qum := { k.qum with
      com := qumQflags.set ((qumQflags.get k.qum.com &&& qumFSaveMask) &&& qumFKernelFlags)
        (copyWords 3 0 k.qum.com) }
    com := pktPflags.set (k.pflags &&& ~~~pktFUserMask) 0 }

/-- It is a function of the packet alone. -/
theorem kernelOnly_internalize (h : internalizeUnasserted m u k = .ok (m', k')) :
    k'.kernelOnly = k.kernelOnlySaved := by
  obtain ⟨rfl, -⟩ := pktInternalizeUnasserted_eq_ok h
  simp only [KernPacket.kernelOnly, KernPacket.setMerged, KernPacket.pflags, mergedPflags,
    Field.get_set_self, qumQflags_internalize, blank_qumInternalize, merge_and_not]
  rfl

/-- Taking a packet over stores to no area but its own options. -/
theorem areas_internalize (h : internalizeUnasserted m u k = .ok (m', k')) :
    m'.flowInit = m.flowInit ∧ m'.txComplData = m.txComplData ∧
      ∀ a ≠ k.comOpt, m'.opt a = m.opt a := by
  obtain ⟨-, rfl⟩ := pktInternalizeUnasserted_eq_ok h
  split
  · exact ⟨rfl, rfl, fun a ha => Function.update_of_ne ha _ _⟩
  · exact ⟨rfl, rfl, fun _ _ => rfl⟩

/-- `_PKT_EXTERNALIZE` returns when its assertion holds. -/
theorem pktExternalize_ok (hopt : k.pflags &&& pktFOptData ≠ 0 →
      k.pflags &&& pktFOptAlloc ≠ 0 ∧ k.comOpt ≠ 0) (u : UserPacket) :
    ∃ u', pktExternalize m k u = .ok u' := by
  unfold pktExternalize
  by_cases hd : k.pflags &&& pktFOptData ≠ 0
  · obtain ⟨ha, hp⟩ := hopt hd
    simp only [if_pos hd, kassert_of ha, ok_bind, if_neg hp]
    exact ⟨_, rfl⟩
  · simp only [if_neg hd]
    exact ⟨_, rfl⟩

/-- `_PKT_INTERNALIZE` returns when its assertion holds of the merged flags. -/
theorem pktInternalize_ok (hopt : mergedPflags u k &&& pktFOptData ≠ 0 →
      mergedPflags u k &&& pktFOptAlloc ≠ 0 ∧ k.comOpt ≠ 0) :
    ∃ r, pktInternalize m u k = .ok r := by
  have hmerged : (k.setMerged u).pflags = mergedPflags u k := Field.get_set_self _ _ _
  change ∃ r, (if (k.setMerged u).pflags &&& pktFOptData ≠ 0 then
    kassert ((k.setMerged u).pflags &&& pktFOptAlloc ≠ 0) >>= _ else _) = .ok r
  rw [hmerged]
  by_cases hd : mergedPflags u k &&& pktFOptData ≠ 0
  · obtain ⟨ha, hp⟩ := hopt hd
    have hp' : (k.setMerged u).comOpt ≠ 0 := hp
    rw [if_pos hd, kassert_of ha, ok_bind]
    exact ⟨_, if_neg hp'⟩
  · rw [if_neg hd]
    exact ⟨_, rfl⟩

/-- An image that user space did not modify merges to the flags it came from. -/
theorem mergedPflags_externalized {u u' : UserPacket} {t : KernPacket}
    (h : pktExternalize m k u = .ok u')
    (ht : t.pflags &&& ~~~pktFUserMask = k.pflags &&& ~~~pktFUserMask) :
    mergedPflags u' t = k.pflags := by
  rw [pktExternalize_eq_ok h, mergedPflags, ht]
  simp only [Field.get_set_self, merge_self]

/-- The options of a packet can be copied. -/
def KernPacket.OptAsserted (k : KernPacket) : Prop :=
  k.pflags &&& pktFOptData ≠ 0 → k.pflags &&& pktFOptAlloc ≠ 0 ∧ k.comOpt ≠ 0

/-- A packet that has the kernel-only flags of another one, and options if that one has any. It
may be that packet itself, also with other contents in what user space may see. -/
structure KernPacket.TakesOver (t k : KernPacket) : Prop where
  pflags : t.pflags &&& ~~~pktFUserMask = k.pflags &&& ~~~pktFUserMask
  qflags : qumQflags.get t.qum.com &&& qumFSaveMask = qumQflags.get k.qum.com &&& qumFSaveMask
  comOpt : k.pflags &&& pktFOptData ≠ 0 → t.comOpt ≠ 0

private theorem KernPacket.OptAsserted.takesOver_self (h : k.OptAsserted) : k.TakesOver k where
  pflags := rfl
  qflags := rfl
  comOpt hopt := (h hopt).2

/-- What a packet `t` with the areas `m₁` has of the packet `k` after a round trip through user
space. -/
structure Restored (m : Areas) (k : KernPacket) (m₁ : Areas) (t : KernPacket) (m' : Areas)
    (t' : KernPacket) : Prop where
  flowId : qumFlowId.get t'.qum.com = qumFlowId.get k.qum.com
  len : qumLen.get t'.qum.com = qumLen.get k.qum.com
  svcClass : qumSvcClass.get t'.qum.com = qumSvcClass.get k.qum.com
  metadata : pktMeta.get t'.com = pktMeta.get k.com
  opt : m'.opt t.comOpt =
    if k.pflags &&& pktFOptData ≠ 0 then m.opt k.comOpt else m₁.opt t.comOpt
  pflags : t'.pflags = k.pflags
  qflags : qumQflags.get t'.qum.com = qumQflags.get k.qum.com &&& qumFSaveMask

/-- A field before the flags of a quantum goes to user space and back. -/
theorem qumInternalize_externalize {len : Nat} (f : Field 256 len) (hf : f.off + len ≤ 192)
    (kq tq : KernQuantum) (uq : UserQuantum) :
    f.get (qumInternalize (qumExternalize kq uq) tq).com = f.get kq.com := by
  have hd : f.Disjoint qumQflags := .inl hf
  simp only [qumInternalize, qumCopy, qumExternalize, Field.get_set_of_disjoint hd]
  rw [Field.get_copyWords f (by decide) hf, Field.get_set_of_disjoint hd,
    Field.get_copyWords f (by decide) hf]

variable {m₁ : Areas} {t t' : KernPacket}

private theorem restored_of_roundtrip (ht : t.TakesOver k) {u u' : UserPacket}
    (hu : externalize m k u = .ok u') (hk : internalize m₁ u' t = .ok (m', t')) :
    Restored m k m₁ t m' t' := by
  have hqum : u'.qum = qumExternalize k.qum u.qum := by rw [pktExternalize_eq_ok hu]
  have hflags : mergedPflags u' { t with qum := qumInternalize u'.qum t.qum } = k.pflags :=
    mergedPflags_externalized hu ht.pflags
  obtain ⟨rfl, rfl⟩ := pktInternalize_eq_ok hk
  have hq : ({ t with qum := qumInternalize u'.qum t.qum }.setMerged u').qum =
      qumInternalize (qumExternalize k.qum u.qum) t.qum := by rw [← hqum]; rfl
  refine ⟨?_, ?_, ?_, ?_, ?_, ?_, ?_⟩
  · rw [hq]; exact qumInternalize_externalize qumFlowId (by decide) _ _ _
  · rw [hq]; exact qumInternalize_externalize qumLen (by decide) _ _ _
  · rw [hq]; exact qumInternalize_externalize qumSvcClass (by decide) _ _ _
  · have hd : pktMeta.Disjoint pktPflags := .inl le_rfl
    simp only [KernPacket.setMerged, Field.get_set_of_disjoint hd]
    rw [Field.get_copyWords pktMeta (by decide) (by decide), pktExternalize_eq_ok hu]
    simp only [Field.get_set_of_disjoint hd]
    exact Field.get_copyWords pktMeta (by decide) (by decide) _ _
  · rw [hflags]
    split
    · next hopt =>
      rw [pktExternalize_eq_ok hu]
      simp only [if_pos hopt]
      exact Function.update_self _ _ _
    · rfl
  · rw [KernPacket.pflags, KernPacket.setMerged, Field.get_set_self, hflags]
  · rw [hq, qumQflags_internalize, ht.qflags]

/-- No two user images that are taken over leave different kernel-only parts of the packet, or
different areas but for the options of the packet. -/
def Noninterfering (takeOver : UserPacket → KernPacket → Except Fault (Areas × KernPacket))
    (k : KernPacket) : Prop :=
  ∀ u₁ u₂ m₁ m₂ k₁ k₂, takeOver u₁ k = .ok (m₁, k₁) → takeOver u₂ k = .ok (m₂, k₂) →
    k₁.kernelOnly = k₂.kernelOnly ∧ m₁.flowInit = m₂.flowInit ∧
      m₁.txComplData = m₂.txComplData ∧ ∀ a ≠ k.comOpt, m₁.opt a = m₂.opt a

theorem internalizeUnasserted_noninterfering (m : Areas) (k : KernPacket) :
    Noninterfering (internalizeUnasserted m) k := by
  intro u₁ u₂ m₁ m₂ k₁ k₂ h₁ h₂
  obtain ⟨hf₁, ht₁, ho₁⟩ := areas_internalize h₁
  obtain ⟨hf₂, ht₂, ho₂⟩ := areas_internalize h₂
  refine ⟨?_, hf₁.trans hf₂.symm, ht₁.trans ht₂.symm, ?_⟩
  · rw [kernelOnly_internalize h₁, kernelOnly_internalize h₂]
  · intro a ha
    exact (ho₁ a ha).trans (ho₂ a ha).symm

/-- For every packet: no user image reaches what user space cannot see, or any area but
the options of the packet, whether `ASSERT` is compiled in or out; and a packet whose option
assertion holds can be handed to user space and taken over into itself, or into any packet with
its kernel-only flags, which restores it. -/
theorem internalize_confined_and_restores (m : Areas) (k : KernPacket) :
    Noninterfering (internalize m) k ∧ Noninterfering (internalizeUnasserted m) k ∧
    (k.OptAsserted → k.TakesOver k ∧ ∀ u m₁ t, t.TakesOver k → ∃ u' m' t',
      externalize m k u = .ok u' ∧ internalize m₁ u' t = .ok (m', t') ∧
        Restored m k m₁ t m' t') := by
  refine ⟨?_, internalizeUnasserted_noninterfering m k, fun hopt => ⟨hopt.takesOver_self, ?_⟩⟩
  · intro u₁ u₂ m₁ m₂ k₁ k₂ h₁ h₂
    exact internalizeUnasserted_noninterfering m k u₁ u₂ m₁ m₂ k₁ k₂
      (pktInternalize_unasserted h₁) (pktInternalize_unasserted h₂)
  · intro u m₁ t ht
    obtain ⟨u', hu⟩ := pktExternalize_ok (m := m) hopt { u with qum := qumExternalize k.qum u.qum }
    have hflags : mergedPflags u' { t with qum := qumInternalize u'.qum t.qum } = k.pflags :=
      mergedPflags_externalized hu ht.pflags
    obtain ⟨⟨m', t'⟩, hk⟩ := pktInternalize_ok (m := m₁)
      (k := { t with qum := qumInternalize u'.qum t.qum }) (u := u')
      (by rw [hflags]; exact fun hd => ⟨(hopt hd).1, ht.comOpt hd⟩)
    exact ⟨u', m', t', hu, hk, restored_of_roundtrip ht hu hk⟩

/-- A packet with a token among its options, at some address. -/
def tokenPacket (comOpt : BitVec 64) : KernPacket :=
  { zeroPacket with com := pktPflags.set (pktFOptAlloc ||| 0x800000000) 0, comOpt := comOpt }

/-- The options at one address. -/
def optionArea : Areas := zeroAreas.setOpt 0x1000 (BitVec.allOnes _)

/-- A packet is taken over into one that has its options at another address. -/
theorem internalize_restores_token : (tokenPacket 0x1000).OptAsserted ∧ ∃ u' m' t',
    externalize optionArea (tokenPacket 0x1000) zeroUserPacket = .ok u' ∧
      internalize zeroAreas u' (tokenPacket 0x5000) = .ok (m', t') ∧
      m'.opt 0x5000 = BitVec.allOnes _ ∧ t'.pflags = (tokenPacket 0x1000).pflags := by
  have hflags : ∀ comOpt, (tokenPacket comOpt).pflags = pktFOptAlloc ||| 0x800000000 :=
    fun _ => Field.get_set_self _ _ _
  have hopt : (tokenPacket 0x1000).OptAsserted := fun _ => by
    rw [hflags]
    decide
  have htakes : (tokenPacket 0x5000).TakesOver (tokenPacket 0x1000) := by
    refine ⟨?_, rfl, fun _ => by decide⟩
    rw [hflags, hflags]
  obtain ⟨u', m', t', hu, hk, hrestored⟩ :=
    ((internalize_confined_and_restores optionArea (tokenPacket 0x1000)).2.2 hopt).2
      zeroUserPacket zeroAreas (tokenPacket 0x5000) htakes
  have hdata : (tokenPacket 0x1000).pflags &&& pktFOptData ≠ 0 := by
    rw [hflags]
    decide
  have harea : optionArea.opt 0x1000 = BitVec.allOnes _ := by
    simp only [optionArea, Areas.setOpt, Function.update_self]
  have hoptions := hrestored.opt
  rw [if_pos hdata] at hoptions
  exact ⟨hopt, u', m', t', hu, hk, hoptions.trans harea, hrestored.pflags⟩

end Internalize

end MacKernel.Packet
