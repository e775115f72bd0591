import MacKernel.Models.Packet.Options

/-!
# Buflet chains of `skywalk/packet`

A packet contains its first buflet and links to more of them by address. The memory
is one map from addresses to buflets, in which the contained buflet has an address of
its own. The user and the kernel variant read and link buflets the same way and
differ in what they check; `VERIFY` is modelled as `ASSERT`. Address zero is `NULL`.
-/

namespace MacKernel.Packet

open Buflet

section States

/-- `SK_PTR_TYPE` of a handle. -/
inductive MetaType where
  | quantum
  | packet
  deriving DecidableEq, Repr

/-- `SK_PTR_SUBTYPE` of a handle. -/
inductive MetaSubtype where
  | payload
  | raw
  deriving DecidableEq, Repr

/-- A user handle with the packet it points to and the memory its buflets are in. The bytes
behind a quantum stand for the rest of the packet. -/
structure UserMeta where
  type : MetaType
  subtype : MetaSubtype
  pkt : UserPacket
  /-- The address of `pkt_qum_buf`. -/
  self : BitVec 64
  bufs : BitVec 64 → BufletCom

/-- What `BUF_IN_RANGE` reads of `struct skmem_bufctl`. -/
structure Bufctl where
  addr : BitVec 64
  lim : BitVec 32
  deriving DecidableEq, Repr

/-- A kernel handle with its packet and the memory around it. -/
structure KernMeta where
  type : MetaType
  subtype : MetaSubtype
  pkt : KernPacket
  /-- The address of `pkt_qum_buf`. -/
  self : BitVec 64
  bufs : BitVec 64 → KernBuflet
  areas : Areas
  bufctl : BitVec 64 → Bufctl
  /-- `PP_HAS_BUFFER_ON_DEMAND` of the pool of the packet. -/
  onDemand : Bool

/-- The buflet at an address. -/
def KernMeta.kbuflet (s : KernMeta) (a : BitVec 64) : KernBuflet :=
  if a = s.self then s.pkt.qum.buf else s.bufs a

/-- What the chain functions read and write: the count and the common part of the buflets. -/
class BufletMeta (S : Type) where
  type : S → MetaType
  bufsCnt : S → BitVec 16
  bufsMax : S → BitVec 16
  setBufsCnt : BitVec 16 → S → S
  self : S → BitVec 64
  buflet : S → BitVec 64 → BufletCom
  setBuflet : BitVec 64 → BufletCom → S → S
  bufsCnt_setBufsCnt : ∀ c s, bufsCnt (setBufsCnt c s) = c
  bufsMax_setBufsCnt : ∀ c s, bufsMax (setBufsCnt c s) = bufsMax s
  self_setBufsCnt : ∀ c s, self (setBufsCnt c s) = self s
  type_setBufsCnt : ∀ c s, type (setBufsCnt c s) = type s
  buflet_setBufsCnt : ∀ c s, buflet (setBufsCnt c s) = buflet s
  bufsMax_setBuflet : ∀ a b s, bufsMax (setBuflet a b s) = bufsMax s
  self_setBuflet : ∀ a b s, self (setBuflet a b s) = self s
  type_setBuflet : ∀ a b s, type (setBuflet a b s) = type s
  buflet_setBuflet : ∀ a b s, buflet (setBuflet a b s) = Function.update (buflet s) a b

export BufletMeta (buflet setBuflet)

instance : BufletMeta UserMeta where
  type s := s.type
  bufsCnt s := s.pkt.bufsCnt
  bufsMax s := s.pkt.bufsMax
  setBufsCnt c s := { s with pkt := { s.pkt with bufsCnt := c } }
  self s := s.self
  buflet s a := if a = s.self then s.pkt.qum.buf else s.bufs a
  setBuflet a b s :=
    if a = s.self then { s with pkt := { s.pkt with qum := { s.pkt.qum with buf := b } } }
    else { s with bufs := Function.update s.bufs a b }
  bufsCnt_setBufsCnt _ _ := rfl
  bufsMax_setBufsCnt _ _ := rfl
  self_setBufsCnt _ _ := rfl
  type_setBufsCnt _ _ := rfl
  buflet_setBufsCnt _ _ := rfl
  bufsMax_setBuflet _ _ _ := by split <;> rfl
  self_setBuflet _ _ _ := by split <;> rfl
  type_setBuflet _ _ _ := by split <;> rfl
  buflet_setBuflet a b s := by
    funext a'
    by_cases ha : a = s.self
    · rw [if_pos ha, Function.update_apply, ha]
      dsimp only
      split <;> rfl
    · rw [if_neg ha, Function.update_apply]
      dsimp only
      rw [Function.update_apply]
      by_cases h : a' = a
      · rw [if_neg (h ▸ ha), if_pos h, if_pos h]
      · simp only [if_neg h]

instance : BufletMeta KernMeta where
  type s := s.type
  bufsCnt s := s.pkt.bufsCnt
  bufsMax s := s.pkt.bufsMax
  setBufsCnt c s := { s with pkt := { s.pkt with bufsCnt := c } }
  self s := s.self
  buflet s a := (s.kbuflet a).com
  setBuflet a b s :=
    if a = s.self then
      { s with pkt := { s.pkt with qum := { s.pkt.qum with
          buf := { s.pkt.qum.buf with com := b } } } }
    else { s with bufs := Function.update s.bufs a { s.bufs a with com := b } }
  bufsCnt_setBufsCnt _ _ := rfl
  bufsMax_setBufsCnt _ _ := rfl
  self_setBufsCnt _ _ := rfl
  type_setBufsCnt _ _ := rfl
  buflet_setBufsCnt _ _ := rfl
  bufsMax_setBuflet _ _ _ := by split <;> rfl
  self_setBuflet _ _ _ := by split <;> rfl
  type_setBuflet _ _ _ := by split <;> rfl
  buflet_setBuflet a b s := by
    funext a'
    by_cases ha : a = s.self
    · rw [if_pos ha, Function.update_apply, ha]
      simp only [KernMeta.kbuflet]
      split <;> rfl
    · rw [if_neg ha, Function.update_apply]
      simp only [KernMeta.kbuflet]
      rw [Function.update_apply]
      by_cases h : a' = a
      · rw [if_neg (h ▸ ha), if_pos h, if_pos h]
      · simp only [if_neg h]

end States

section Walking

variable {S : Type} [BufletMeta S]

/-- `PKT_GET_FIRST_BUFLET`: the contained buflet when it has a buffer, else what it links to. -/
def pktGetFirstBuflet (s : S) (bcnt : BitVec 32) : BitVec 64 :=
  if bcnt = 0 then 0
  else if bufAddr.get (buflet s (BufletMeta.self s)) ≠ 0 then BufletMeta.self s
  else bufNbftAddr.get (buflet s (BufletMeta.self s))

/-- `_PKT_GET_NEXT_BUFLET`. -/
def pktGetNextBuflet (s : S) (bcnt : BitVec 32) (pbuf : BitVec 64) : BitVec 64 :=
  if pbuf = 0 then pktGetFirstBuflet s bcnt else bufNbftAddr.get (buflet s pbuf)

/-- `QUM_GET_NEXT_BUFLET`. -/
def qumGetNextBuflet (s : S) (pbuf : BitVec 64) : Except Fault (BitVec 64) := do
  kassert (pbuf = 0 ∨ pbuf = BufletMeta.self s)
  return if pbuf = 0 then BufletMeta.self s else 0

/-- `__packet_get_next_buflet` in user space. A count of zero is taken for a packet whose
metadata was replaced by zeros, with one buflet. -/
def UserMeta.packetGetNextBuflet (s : UserMeta) (bprev : BitVec 64) :
    Except Fault (BitVec 64) :=
  match s.type with
  | .packet =>
    let bcnt := s.pkt.bufsCnt.setWidth 32
    if bcnt = 0 then return pktGetNextBuflet s 1 0
    else return pktGetNextBuflet s bcnt bprev
  | .quantum => qumGetNextBuflet s bprev

/-- `__packet_get_next_buflet` in the kernel. -/
def KernMeta.packetGetNextBuflet (s : KernMeta) (bprev : BitVec 64) :
    Except Fault (BitVec 64) :=
  match s.type with
  | .packet => do
    let bcnt := s.pkt.bufsCnt.setWidth 32
    kassert (bcnt ≠ 0 ∨ s.onDemand)
    kassert (1 ≤ bcnt ∨ bprev = 0)
    return pktGetNextBuflet s bcnt bprev
  | .quantum => qumGetNextBuflet s bprev

/-- `__packet_get_buflet_count` in user space. -/
def UserMeta.packetGetBufletCount (s : UserMeta) : BitVec 16 :=
  match s.type with
  | .packet => if s.pkt.bufsCnt = 0 then 1 else s.pkt.bufsCnt
  | .quantum => 1

/-- `__packet_get_buflet_count` in the kernel. -/
def KernMeta.packetGetBufletCount (s : KernMeta) : Except Fault (BitVec 16) :=
  match s.type with
  | .packet => do
    kassert (s.pkt.bufsCnt ≠ 0 ∨ s.onDemand)
    return s.pkt.bufsCnt
  | .quantum => return 1

/-- The count in the 32 bits of `bcnt`. -/
theorem setWidth_bufsCnt_eq_zero {c : BitVec 16} : c.setWidth 32 = 0 ↔ c = 0 := by
  rw [← BitVec.toNat_inj, ← BitVec.toNat_inj, BitVec.toNat_setWidth_of_le (by decide)]
  rfl

theorem UserMeta.packetGetNextBuflet_of_count {s : UserMeta} (htype : s.type = .packet)
    (hcnt : s.pkt.bufsCnt ≠ 0) (bprev : BitVec 64) :
    s.packetGetNextBuflet bprev =
      .ok (pktGetNextBuflet s (s.pkt.bufsCnt.setWidth 32) bprev) := by
  have hne : s.pkt.bufsCnt.setWidth 32 ≠ 0 := fun h => hcnt (setWidth_bufsCnt_eq_zero.mp h)
  rw [UserMeta.packetGetNextBuflet, htype]
  exact if_neg hne

theorem UserMeta.packetGetNextBuflet_of_zero {s : UserMeta} (htype : s.type = .packet)
    (hcnt : s.pkt.bufsCnt = 0) (bprev : BitVec 64) :
    s.packetGetNextBuflet bprev = .ok (pktGetNextBuflet s 1 0) := by
  rw [UserMeta.packetGetNextBuflet, htype]
  exact if_pos (setWidth_bufsCnt_eq_zero.mpr hcnt)

/-- The next buflet of a kernel packet whose assertions hold. -/
theorem KernMeta.packetGetNextBuflet_eq {s : KernMeta} {bprev : BitVec 64}
    (htype : s.type = .packet) (hcnt : s.pkt.bufsCnt ≠ 0 ∨ s.onDemand = true)
    (hprev : s.pkt.bufsCnt ≠ 0 ∨ bprev = 0) :
    s.packetGetNextBuflet bprev =
      .ok (pktGetNextBuflet s (s.pkt.bufsCnt.setWidth 32) bprev) := by
  have hcount : s.pkt.bufsCnt.setWidth 32 ≠ 0 ∨ s.onDemand = true :=
    hcnt.imp_left (setWidth_bufsCnt_eq_zero.not.mpr)
  have hone : 1 ≤ s.pkt.bufsCnt.setWidth 32 ∨ bprev = 0 := by
    refine hprev.imp_left fun hne => ?_
    rw [BitVec.le_def, BitVec.toNat_setWidth_of_le (by decide)]
    exact Nat.pos_of_ne_zero fun h => hne (BitVec.eq_of_toNat_eq h)
  rw [KernMeta.packetGetNextBuflet, htype]
  dsimp only
  rw [kassert_of hcount, ok_bind, kassert_of hone, ok_bind]
  rfl

end Walking

section Adding

variable {S : Type} [BufletMeta S]

/-- The stores of `UBUF_LINK` and `KBUF_LINK`. -/
def bufLink (bprev bnew : BitVec 64) (s : S) : S :=
  let s := setBuflet bprev (bufNbftAddr.set bnew (buflet s bprev)) s
  setBuflet bprev (bufNbftIdx.set (bufBftIdxReg.get (buflet s bnew)) (buflet s bprev)) s

/-- `UBUF_LINK`. -/
def ubufLink (bprev bnew : BitVec 64) (s : UserMeta) : Except Fault UserMeta := do
  kassert (bnew ≠ 0)
  return bufLink bprev bnew s

/-- `KBUF_LINK`. -/
def kbufLink (bprev bnew : BitVec 64) (s : KernMeta) : Except Fault KernMeta := do
  kassert (bufNbftAddr.get (buflet s bprev) = 0)
  kassert (bufNbftIdx.get (buflet s bprev) = objIdxNone)
  kassert (bnew ≠ 0)
  kassert (bufBftIdxReg.get (buflet s bnew) ≠ objIdxNone)
  return bufLink bprev bnew s

/-- The walk of a development kernel to the last buflet: the value of `n` and the last buflet
seen. It stops at the end of the chain, or one step after the count with `n` below zero. -/
def walkToLast (s : S) : Nat → BitVec 64 → BitVec 64 → Int × BitVec 64
  | 0, pbft, kbft => if kbft ≠ 0 then (-1, pbft) else (0, pbft)
  | n + 1, pbft, kbft =>
    if kbft ≠ 0 then walkToLast s n kbft (bufNbftAddr.get (buflet s kbft)) else (n + 1, pbft)

/-- `__packet_add_buflet` in user space; `addr` is the packet of the handle. -/
def UserMeta.packetAddBuflet (s : UserMeta) (addr bprev bnew : BitVec 64) :
    Except Fault (Errno × UserMeta) :=
  if addr = 0 ∨ bnew = 0 ∨ bnew = bprev then return (.einval, s)
  else
    let bcnt := s.pkt.bufsCnt
    if s.pkt.bufsMax ≤ bcnt ∨ (bprev = 0 ∧ bcnt ≠ 0) then return (.einval, s)
    else do
      let s ← ubufLink (if bprev = 0 then s.self else bprev) bnew s
      return (.success, BufletMeta.setBufsCnt (bcnt + 1) s)

/-- `__packet_add_buflet` in a development kernel. -/
def KernMeta.packetAddBuflet (s : KernMeta) (addr bprev bnew : BitVec 64) :
    Except Fault (Errno × KernMeta) := do
  kassert (addr ≠ 0 ∧ bnew ≠ 0 ∧ bnew ≠ bprev)
  kassert s.onDemand
  let bcnt := s.pkt.bufsCnt
  kassert ((bprev ≠ 0 ∨ bcnt = 0) ∧ bcnt < s.pkt.bufsMax)
  let first := pktGetFirstBuflet s (bcnt.setWidth 32)
  let (n, pbft) := walkToLast s bcnt.toNat first first
  kassert (n = 0)
  kassert (bprev = pbft)
  let s ← kbufLink (if bprev = 0 then s.self else bprev) bnew s
  return (.success, BufletMeta.setBufsCnt (bcnt + 1) s)

/-- A loop over `__packet_get_next_buflet` from `NULL` to `NULL`, with the buflets it meets. -/
def bufletsBody (next : BitVec 64 → Except Fault (BitVec 64)) (s : List (BitVec 64) × BitVec 64) :
    Except Fault ((List (BitVec 64) × BitVec 64) ⊕ List (BitVec 64)) := do
  let bcur ← next s.2
  if bcur = 0 then return .inr s.1 else return .inl (s.1 ++ [bcur], bcur)

/-- The buflets that the loop meets. -/
def bufletsOf (next : BitVec 64 → Except Fault (BitVec 64)) : Except Fault (List (BitVec 64)) :=
  loop (bufletsBody next) (2 ^ 16) ([], 0)

end Adding

end MacKernel.Packet
