import MacKernel.Models.Buflet.Native

/-!
# Kernel and user packets of `skywalk/packet`

The quantum and the packet have a common image of 32 bytes each, shared by their
user and kernel variants, that the macros copy in 64-bit words. Options, flow data
and completion data of a kernel packet are reached through pointers; the memory
they point into is part of the state. `KPKT_SC_UNSPEC` is defined outside these
headers and is a parameter.
-/

namespace MacKernel.Packet

open Buflet

section Flags

/-- `QUM_F_FINALIZED`. -/
def qumFFinalized : BitVec 16 := 0x0001

/-- `QUM_F_DROPPED`. -/
def qumFDropped : BitVec 16 := 0x0002

/-- `QUM_F_INTERNALIZED`. -/
def qumFInternalized : BitVec 16 := 0x1000

/-- `QUM_F_KERNEL_ONLY`. -/
def qumFKernelOnly : BitVec 16 := 0x8000

/-- `QUM_F_SAVE_MASK`. -/
def qumFSaveMask : BitVec 16 := qumFKernelOnly

/-- `QUM_F_KERNEL_FLAGS`. -/
def qumFKernelFlags : BitVec 16 := qumFInternalized ||| qumFKernelOnly

/-- `PKT_F_OPT_DATA`: group start and end, expiry, token and the two VLAN tags. -/
def pktFOptData : BitVec 64 :=
  0x100000000 ||| 0x200000000 ||| 0x400000000 ||| 0x800000000 ||| 0x40000000000 ||| 0x80000000000

/-- `PKT_F_TX_COMPL_DATA`. -/
def pktFTxComplData : BitVec 64 := 0x2000000000

/-- `PKT_F_MBUF_DATA`. -/
def pktFMbufData : BitVec 64 := 0x4000000000

/-- `PKT_F_TRUNCATED`. -/
def pktFTruncated : BitVec 64 := 0x8000000000

/-- `PKT_F_PKT_DATA`. -/
def pktFPktData : BitVec 64 := 0x10000000000

/-- `PKT_F_OPT_ALLOC`. -/
def pktFOptAlloc : BitVec 64 := 0x0100000000000000

/-- `PKT_F_FLOW_ALLOC`. -/
def pktFFlowAlloc : BitVec 64 := 0x0200000000000000

/-- `PKT_F_TX_COMPL_ALLOC`. -/
def pktFTxComplAlloc : BitVec 64 := 0x0400000000000000

/-- `PKT_F_USER_MASK`: background, realtime, retransmission, last packet, option data,
promiscuous, truncated and wake packet. -/
def pktFUserMask : BitVec 64 :=
  0x8000 ||| 0x80000 ||| 0x200000 ||| 0x10000000 ||| pktFOptData ||| 0x20000000000 |||
    pktFTruncated ||| 0x400

/-- `PKT_F_MBUF_MASK`. -/
def pktFMbufMask : BitVec 64 := pktFMbufData ||| pktFTruncated

/-- `PKT_F_PKT_MASK`. -/
def pktFPktMask : BitVec 64 := pktFPktData ||| pktFTruncated

/-- `PKT_F_COPY_MASK`. -/
def pktFCopyMask : BitVec 64 := ~~~(pktFMbufMask ||| pktFPktMask)

end Flags

section Layout

/-- `struct __metadata_preamble`, in front of every quantum and packet. -/
structure Preamble where
  /-- `_mdp_next` in the kernel, `mdp_redzone` in user space. -/
  head : BitVec 64
  idx : BitVec 32
  type : BitVec 16
  subtype : BitVec 16
  deriving DecidableEq, Repr

/-- `qum_flow_id`. -/
def qumFlowId : Field 256 128 := ⟨0, by decide⟩

/-- `qum_len`. -/
def qumLen : Field 256 32 := ⟨128, by decide⟩

/-- `qum_svc_class`. -/
def qumSvcClass : Field 256 32 := ⟨160, by decide⟩

/-- `qum_qflags`. -/
def qumQflags : Field 256 16 := ⟨192, by decide⟩

/-- The bytes of `struct __packet` before its flags. -/
def pktMeta : Field 256 192 := ⟨0, by decide⟩

/-- `pkt_pflags`. -/
def pktPflags : Field 256 64 := ⟨192, by decide⟩

/-- `struct __user_quantum`. -/
structure UserQuantum where
  md : Preamble
  com : BitVec 256
  buf : BufletCom
  usecnt : BitVec 16
  deriving DecidableEq, Repr

/-- `struct __user_packet`. -/
structure UserPacket where
  qum : UserQuantum
  com : BitVec 256
  comOpt : BitVec 256
  bufsMax : BitVec 16
  bufsCnt : BitVec 16
  deriving DecidableEq, Repr

/-- `struct __kern_quantum`. -/
structure KernQuantum where
  md : Preamble
  com : BitVec 256
  uppLink : BitVec 64
  pp : BitVec 64
  user : BitVec 64
  ksd : BitVec 64
  buf : KernBuflet
  pid : BitVec 32
  deriving DecidableEq, Repr

/-- `struct __kern_packet`. -/
structure KernPacket where
  qum : KernQuantum
  com : BitVec 256
  comOpt : BitVec 64
  timestamp : BitVec 64
  nextpkt : BitVec 64
  /-- The union of `pkt_mbuf` and `pkt_pkt`. -/
  mbuf : BitVec 64
  flow : BitVec 64
  txCompl : BitVec 64
  bufsMax : BitVec 16
  bufsCnt : BitVec 16
  chainCount : BitVec 32
  chainBytes : BitVec 32
  deriving DecidableEq, Repr

/-- `pkt_pflags` of a kernel packet. -/
def KernPacket.pflags (k : KernPacket) : BitVec 64 := pktPflags.get k.com

/-- The areas that kernel packets point to: options, flows (the part zeroed on each
allocation) and completion data. -/
structure Areas where
  opt : BitVec 64 → BitVec 256
  flowInit : BitVec 64 → BitVec 1024
  txComplData : BitVec 64 → BitVec 192

/-- What the macros read of `struct kern_pbufpool`. -/
structure Pbufpool where
  addr : BitVec 64
  bufletSize : BitVec 16
  mdType : BitVec 16
  mdSubtype : BitVec 16
  /-- `PP_KERNEL_ONLY`. -/
  kernelOnly : Bool

end Layout

section Quantum

/-- `_QUM_COPY`. -/
def qumCopy (skq dkq : BitVec 256) : BitVec 256 :=
  let sf := qumQflags.get dkq &&& qumFSaveMask
  let dkq := copyWords 3 skq dkq
  qumQflags.set ((qumQflags.get skq &&& ~~~qumFSaveMask) ||| sf) dkq

/-- `_QUM_INTERNALIZE`. -/
def qumInternalize (uq : UserQuantum) (kq : KernQuantum) : KernQuantum :=
  let com := qumCopy uq.com kq.com
  { kq with com := qumQflags.set (qumQflags.get com &&& qumFSaveMask) com }

/-- `_QUM_EXTERNALIZE`. -/
def qumExternalize (kq : KernQuantum) (uq : UserQuantum) : UserQuantum :=
  let com := copyWords 3 kq.com uq.com
  { uq with
    com := qumQflags.set (qumQflags.get kq.com &&& ~~~qumFKernelFlags) com
    md := { uq.md with idx := kq.md.idx, type := kq.md.type, subtype := kq.md.subtype }
    usecnt := 0 }

/-- The flags of a new quantum. -/
def Pbufpool.qflags (pp : Pbufpool) (qflags : BitVec 16) : BitVec 16 :=
  (if pp.kernelOnly then qumFKernelOnly else 0) ||| qflags

/-- `KQUM_CTOR`. -/
def kqumCtor (midx : BitVec 32) (uqum : BitVec 64) (pp : Pbufpool) (qflags : BitVec 16)
    (kqum : KernQuantum) : KernQuantum :=
  let com := qumFlowId.set 0 kqum.com
  let com := qumQflags.set (pp.qflags qflags) com
  let com := qumLen.set 0 com
  { kqum with
    com := com
    md := { kqum.md with idx := midx, type := pp.mdType, subtype := pp.mdSubtype }
    buf := { kqum.buf with
      com := bufCtor 0 objIdxNone pp.bufletSize 0 0 0 objIdxNone 0 kqum.buf.com }
    pp := pp.addr
    user := uqum
    pid := 0xffffffff
    ksd := 0 }

/-- `KQUM_INIT`. -/
def kqumInit (pp : Pbufpool) (flags : BitVec 16) (kqum : KernQuantum) :
    Except Fault KernQuantum := do
  kassert (kqum.ksd = 0)
  kassert (kqum.pid = 0xffffffff)
  let com := qumFlowId.set 0 kqum.com
  let com := qumQflags.set (pp.qflags flags) com
  let com := qumLen.set 0 com
  return { kqum with com := com, buf := { kqum.buf with com := bufInit 0 0 kqum.buf.com } }

end Quantum

section Packet

/-- Assign to `pkt_pflags`. -/
def KernPacket.setPflags (k : KernPacket) (pflags : BitVec 64) : KernPacket :=
  { k with com := pktPflags.set pflags k.com }

@[simp] theorem pflags_setPflags (k : KernPacket) (pflags : BitVec 64) :
    (k.setPflags pflags).pflags = pflags := Field.get_set_self _ _ _

/-- `_PKT_COM_INIT`. -/
def pktComInit (scUnspec : BitVec 32) (p : KernPacket) (pflags : BitVec 64) : KernPacket :=
  { p with
    com := pktPflags.set pflags 0
    qum := { p.qum with com := qumSvcClass.set scUnspec p.qum.com } }

/-- `KPKT_CLEAR_MBUF_PKT_DATA`. -/
def kpktClearMbufPktData (pk : KernPacket) : KernPacket :=
  { pk.setPflags (pk.pflags &&& ~~~(pktFMbufMask ||| pktFPktMask)) with mbuf := 0 }

/-- `KPKT_CLEAR_MBUF_DATA`. -/
def kpktClearMbufData (pk : KernPacket) : KernPacket :=
  { pk.setPflags (pk.pflags &&& ~~~pktFMbufMask) with mbuf := 0 }

/-- `KPKT_CLEAR_PKT_DATA`. -/
def kpktClearPktData (pk : KernPacket) : KernPacket :=
  { pk.setPflags (pk.pflags &&& ~~~pktFPktMask) with mbuf := 0 }

/-- `KPKT_CLEAR_FLOW_INIT`. -/
def kpktClearFlowInit (m : Areas) (fl : BitVec 64) : Areas :=
  { m with flowInit := Function.update m.flowInit fl 0 }

/-- `_KPKT_INIT_PRIV_VARS`. -/
def kpktInitPrivVars (m : Areas) (p : KernPacket) : Areas × KernPacket :=
  (if p.flow ≠ 0 then kpktClearFlowInit m p.flow else m,
    { kpktClearMbufPktData { p with timestamp := 0, nextpkt := 0 } with
      chainCount := 0, chainBytes := 0 })

/-- `KPKT_CTOR`. -/
def kpktCtor (scUnspec : BitVec 32) (pflags opt flow txcomp : BitVec 64) (midx : BitVec 32)
    (pu : BitVec 64) (pp : Pbufpool) (bufcnt maxfrags qflags : BitVec 16) (pk : KernPacket) :
    KernPacket :=
  let pk := { pk with qum := kqumCtor midx pu pp qflags pk.qum }
  let pk := pktComInit scUnspec pk pflags
  { pk with bufsMax := maxfrags, bufsCnt := bufcnt, comOpt := opt, flow := flow, txCompl := txcomp }

/-- `KPKT_INIT`. -/
def kpktInit (scUnspec : BitVec 32) (pp : Pbufpool) (flags : BitVec 16) (m : Areas)
    (pk : KernPacket) : Except Fault (Areas × KernPacket) := do
  let qum ← kqumInit pp flags pk.qum
  let pk := { pk with qum := qum }
  return kpktInitPrivVars m (pktComInit scUnspec pk pk.pflags)

/-- `_KPKT_INIT_TX_COMPL_DATA`. -/
def kpktInitTxComplData (m : Areas) (p : KernPacket) : Except Fault (Areas × KernPacket) :=
  if p.pflags &&& pktFTxComplData = 0 then do
    kassert (p.pflags &&& pktFTxComplAlloc ≠ 0)
    if p.txCompl = 0 then .error .nullDeref
    else return ({ m with txComplData := Function.update m.txComplData p.txCompl 0 },
      p.setPflags (p.pflags ||| pktFTxComplData))
  else return (m, p)

/-- Store 32 bytes of options. -/
def Areas.setOpt (m : Areas) (a : BitVec 64) (x : BitVec 256) : Areas :=
  { m with opt := Function.update m.opt a x }

/-- `_PKT_COPY`, with `_PKT_COPY_OPT_DATA`. -/
def pktCopy (m : Areas) (skp dkp : KernPacket) : Except Fault (Areas × KernPacket) := do
  let dkp := { dkp with com := copyWords 3 skp.com dkp.com }
  let dkp := dkp.setPflags (skp.pflags &&& pktFCopyMask)
  if skp.pflags &&& pktFOptData ≠ 0 then
    kassert (skp.pflags &&& pktFOptAlloc ≠ 0)
    if skp.comOpt = 0 ∨ dkp.comOpt = 0 then .error .nullDeref
    else return (m.setOpt dkp.comOpt (copyWords 4 (m.opt skp.comOpt) (m.opt dkp.comOpt)), dkp)
  else return (m, dkp)

/-- `_PKT_INTERNALIZE`. -/
def pktInternalize (m : Areas) (up : UserPacket) (kp : KernPacket) :
    Except Fault (Areas × KernPacket) := do
  let kf := kp.pflags &&& ~~~pktFUserMask
  let kp := { kp with com := copyWords 3 up.com kp.com }
  let kp := kp.setPflags ((pktPflags.get up.com &&& pktFUserMask) ||| kf)
  if kp.pflags &&& pktFOptData ≠ 0 then
    kassert (kp.pflags &&& pktFOptAlloc ≠ 0)
    if kp.comOpt = 0 then .error .nullDeref
    else return (m.setOpt kp.comOpt (copyWords 4 up.comOpt (m.opt kp.comOpt)), kp)
  else return (m, kp)

/-- `_PKT_EXTERNALIZE`. -/
def pktExternalize (m : Areas) (kp : KernPacket) (up : UserPacket) : Except Fault UserPacket := do
  let up := { up with com := copyWords 3 kp.com up.com }
  let up := { up with com := pktPflags.set (kp.pflags &&& pktFUserMask) up.com }
  if kp.pflags &&& pktFOptData ≠ 0 then
    kassert (kp.pflags &&& pktFOptAlloc ≠ 0)
    if kp.comOpt = 0 then .error .nullDeref
    else return { up with comOpt := copyWords 4 (m.opt kp.comOpt) up.comOpt }
  else return up

end Packet

end MacKernel.Packet
