import MacKernel.Models.Packet.Buflets

/-!
# `__packet_finalize` of `skywalk/packet`

The user and the kernel variant count the buflets, walk them, and then check the
header offsets against the first one and the options of the packet. The locals that
hold the offset and the limit of the first buflet are not initialised: what they
contain before is a parameter, a value or a trap.
-/

namespace MacKernel.Packet

open Buflet

section Layout

/-- `pkt_headroom`. -/
def pktHeadroom : Field 256 8 := ⟨16, by decide⟩

/-- `pkt_l2_len`. -/
def pktL2Len : Field 256 8 := ⟨24, by decide⟩

/-- Assign to the common part of the quantum. -/
def UserMeta.setQum (s : UserMeta) (com : BitVec 256) : UserMeta :=
  { s with pkt := { s.pkt with qum := { s.pkt.qum with com := com } } }

/-- Assign to the common part of the quantum. -/
def KernMeta.setQum (s : KernMeta) (com : BitVec 256) : KernMeta :=
  { s with pkt := { s.pkt with qum := { s.pkt.qum with com := com } } }

/-- `pkt_com_opt` as the place of the options. -/
def KernMeta.optAt (s : KernMeta) : Option (BitVec 256) :=
  if s.pkt.comOpt = 0 then none else some (s.areas.opt s.pkt.comOpt)

/-- The contents of a local: a value, or a trap when nothing has been assigned. -/
abbrev Local := Except Fault (BitVec 32)

/-- The locals of `__packet_finalize` that its loop assigns. -/
structure FinalizeVars where
  len : BitVec 32
  bdoff0 : Local
  bdlim0 : Local
  bprev : BitVec 64

end Layout

section Buflets

/-- The last conjunct of `BUF_IN_RANGE`, in the arithmetic of `int`. -/
def dataInRange (b : BufletCom) : Bool :=
  (bufDoff.get b).toNat + (bufDlen.get b).toNat ≤ (bufDlim.get b).toNat

/-- `BUF_IN_RANGE` in user space. -/
def UserMeta.bufInRange (s : UserMeta) (a : BitVec 64) : Bool := dataInRange (buflet s a)

/-- `buf_ctl` as the place of a buffer control. -/
def KernMeta.ctlAt (s : KernMeta) (a : BitVec 64) : Option Bufctl :=
  if (s.kbuflet a).ctl = 0 then none else some (s.bufctl (s.kbuflet a).ctl)

/-- The conjuncts of `BUF_IN_RANGE` in the kernel, on a buflet and its buffer control. -/
def objInRange (b : BufletCom) (bc : Bufctl) : Bool :=
  bc.addr ≤ bufAddr.get b ∧
    bufAddr.get b + (bufDlim.get b).setWidth 64 ≤ bc.addr + bc.lim.setWidth 64 ∧
    dataInRange b

/-- `BUF_IN_RANGE` in the kernel. -/
def KernMeta.bufInRange (s : KernMeta) (a : BitVec 64) : Except Fault Bool := do
  let bc ← deref (s.ctlAt a)
  return objInRange (buflet s a) bc

/-- `PKT_HAS_ATTACHED_MBUF`. -/
def KernMeta.pktHasAttachedMbuf (s : KernMeta) : Bool := s.pkt.pflags &&& pktFMbufData ≠ 0

/-- What user space does with a buflet that is `NULL`: it stops. -/
def UserMeta.bufPresent (_ : UserMeta) (bcur : BitVec 64) : Except Fault Bool :=
  return bcur ≠ 0

/-- What the kernel asserts of a buflet. -/
def KernMeta.bufPresent (s : KernMeta) (bcur : BitVec 64) : Except Fault Bool := do
  kassert (bcur ≠ 0)
  kassert (bufAddr.get (buflet s bcur) ≠ 0)
  return true

/-- The range check of user space. -/
def UserMeta.bufAccepted (s : UserMeta) (bcur : BitVec 64) : Except Fault Bool :=
  return s.bufInRange bcur

/-- The range check of the kernel, which an attached mbuf passes. -/
def KernMeta.bufAccepted (s : KernMeta) (bcur : BitVec 64) : Except Fault Bool := do
  let inRange ← s.bufInRange bcur
  return inRange || s.pktHasAttachedMbuf

/-- The loop of `__packet_finalize`, for the number of passes that are left. -/
def finalizeLoop (buf : BitVec 64 → BufletCom) (next : BitVec 64 → Except Fault (BitVec 64))
    (present accepted : BitVec 64 → Except Fault Bool) :
    Nat → FinalizeVars → Except Fault (Errno × FinalizeVars)
  | 0, v => return (.success, v)
  | bcnt + 1, v => do
    let bcur ← next v.bprev
    if ← present bcur then
      -- save data offset and limit from the first buflet
      let v := if v.bprev = 0 then
          { v with
            bdoff0 := .ok ((bufDoff.get (buf bcur)).setWidth 32)
            bdlim0 := .ok ((bufDlim.get (buf bcur)).setWidth 32) }
        else v
      if ← accepted bcur then
        finalizeLoop buf next present accepted bcnt
          { v with len := v.len + (bufDlen.get (buf bcur)).setWidth 32, bprev := bcur }
      else return (.erange, v)
    else return (.erange, v)

end Buflets

section Headers

/-- `L2 == bdoff && L2 < bdlim`, the limit compared only when the offset is right. -/
def rawInRange (com : BitVec 256) (bdoff0 bdlim0 : Local) : Except Fault Bool := do
  let off ← bdoff0
  if (pktHeadroom.get com).setWidth 32 ≠ off then return false
  else do
    let lim ← bdlim0
    return (pktHeadroom.get com).setWidth 32 < lim

/-- The check of a payload packet; its locals are compared only without headroom. -/
def payloadInRange (com : BitVec 256) (bdoff0 : Local) : Except Fault Bool :=
  if pktHeadroom.get com ≠ 0 then return false
  else do
    let off ← bdoff0
    if off ≠ 0 then return false else return pktL2Len.get com = 0

/-- The header checks of user space, which overwrite the L2 length of raw packets. -/
def UserMeta.finalizeHeaders (s : UserMeta) (bdoff0 bdlim0 : Local) :
    Except Fault (Errno × UserMeta) :=
  match s.subtype with
  | .raw => do
    if ← rawInRange s.pkt.com bdoff0 bdlim0 then
      return (.success, { s with pkt := { s.pkt with com := pktL2Len.set 0 s.pkt.com } })
    else return (.erange, s)
  | .payload => do
    if ← payloadInRange s.pkt.com bdoff0 then return (.success, s) else return (.erange, s)

/-- The header checks of the kernel. -/
def KernMeta.finalizeHeaders (s : KernMeta) (bdoff0 bdlim0 : Local) : Except Fault Errno :=
  match s.subtype with
  | .raw => do
    if ← rawInRange s.pkt.com bdoff0 bdlim0 then
      let lim ← bdlim0
      if lim ≤ (pktHeadroom.get s.pkt.com).setWidth 32 + (pktL2Len.get s.pkt.com).setWidth 32 then
        return .erange
      else return .success
    else return .erange
  | .payload => do
    if ← payloadInRange s.pkt.com bdoff0 then return .success else return .erange

/-- An option whose flag is set and whose field is zero. -/
def optEmpty {len : Nat} (pflags flag : BitVec 64) (f : Field 256 len)
    (po : Option (BitVec 256)) : Except Fault Bool :=
  if pflags &&& flag ≠ 0 then do
    let po ← deref po
    return f.get po = 0
  else return false

/-- The option checks. -/
def finalizeOptions (pflags : BitVec 64) (po : Option (BitVec 256)) : Except Fault Errno :=
  if pflags &&& pktFOptData ≠ 0 then do
    if ← optEmpty pflags pktFOptExpireTs poExpireTs po then return .einval
    else if ← optEmpty pflags pktFOptToken poTokenLen po then return .einval
    else return .success
  else return .success

/-- The checks of user space after the loop. -/
def UserMeta.finalizeChecks (s : UserMeta) (v : FinalizeVars) :
    Except Fault (Errno × UserMeta) :=
  match s.type with
  | .packet => do
    let (err, s) ← s.finalizeHeaders v.bdoff0 v.bdlim0
    if err ≠ .success then return (err, s)
    else do
      let err ← finalizeOptions (pktPflags.get s.pkt.com) (some s.pkt.comOpt)
      return (err, s)
  | .quantum => return (.success, s)

/-- The checks of the kernel after the loop. -/
def KernMeta.finalizeChecks (s : KernMeta) (v : FinalizeVars) : Except Fault Errno :=
  match s.type with
  | .packet => do
    let err ← s.finalizeHeaders v.bdoff0 v.bdlim0
    if err ≠ .success then return err else finalizeOptions s.pkt.pflags s.optAt
  | .quantum => return .success

end Headers

section Finalize

/-- The flags that a call starts from. -/
def finalizeClear (com : BitVec 256) : BitVec 256 :=
  qumQflags.set (qumQflags.get com &&& ~~~(qumFDropped ||| qumFFinalized)) com

/-- The stores at `done`. -/
def finalizeDone (err : Errno) (len : BitVec 32) (com : BitVec 256) : BitVec 256 :=
  if err = .success then
    let com := qumLen.set len com
    qumQflags.set (qumQflags.get com ||| qumFFinalized) com
  else
    let com := qumLen.set 0 com
    qumQflags.set (qumQflags.get com ||| qumFDropped) com

/-- `__packet_finalize` in user space. -/
def UserMeta.packetFinalize (s : UserMeta) (bdoff0 bdlim0 : Local) :
    Except Fault (Errno × UserMeta) := do
  let s := s.setQum (finalizeClear s.pkt.qum.com)
  let bcnt := s.packetGetBufletCount
  let s := s.setQum (qumLen.set 0 s.pkt.qum.com)
  let (err, v) ← finalizeLoop (buflet s) s.packetGetNextBuflet s.bufPresent s.bufAccepted
    bcnt.toNat ⟨0, bdoff0, bdlim0, 0⟩
  let (err, s) ← if err ≠ .success then pure (err, s) else s.finalizeChecks v
  return (err, s.setQum (finalizeDone err v.len s.pkt.qum.com))

/-- `__packet_finalize` in the kernel. -/
def KernMeta.packetFinalize (s : KernMeta) (bdoff0 bdlim0 : Local) :
    Except Fault (Errno × KernMeta) := do
  kassert (qumQflags.get s.pkt.qum.com &&& qumFInternalized ≠ 0)
  let s := s.setQum (finalizeClear s.pkt.qum.com)
  let bcnt ← s.packetGetBufletCount
  let s := s.setQum (qumLen.set 0 s.pkt.qum.com)
  let (err, v) ← finalizeLoop (buflet s) s.packetGetNextBuflet s.bufPresent s.bufAccepted
    bcnt.toNat ⟨0, bdoff0, bdlim0, 0⟩
  let err ← if err ≠ .success then pure err else s.finalizeChecks v
  return (err, s.setQum (finalizeDone err v.len s.pkt.qum.com))

end Finalize

end MacKernel.Packet
