import MacKernel.Core.Simulation
import MacKernel.Models.Packet.MbufPacket
import MacKernel.Models.Packet.Options

/-!
# Header metadata of `skywalk/packet`

The small setters and getters of `packet_common.h`: lengths, flags in two words, the
service class, the checksum in a union, the flow UUID that is copied in words as wide as
its alignment allows, and two numbers.
-/

namespace MacKernel.Packet

open Buflet

section Layout

/-- `pkt_link_flags`. -/
def pktLinkFlags : Field 256 16 := ⟨0, by decide⟩

/-- `pkt_csum_flags`. -/
def pktCsumFlags : Field 256 32 := ⟨32, by decide⟩

/-- `pkt_csum_rx_start_off`. -/
def pktCsumRxStartOff : Field 256 16 := ⟨64, by decide⟩

/-- `pkt_csum_rx_value`. -/
def pktCsumRxValue : Field 256 16 := ⟨80, by decide⟩

/-- `pkt_csum_tx_start_off`, in the same union. -/
def pktCsumTxStartOff : Field 256 16 := ⟨64, by decide⟩

/-- `pkt_csum_tx_stuff_off`, in the same union. -/
def pktCsumTxStuffOff : Field 256 16 := ⟨80, by decide⟩

/-- `pkt_comp_gencnt`. -/
def pktCompGencnt : Field 256 32 := ⟨96, by decide⟩

private theorem pktTraceId_fits : 128 + 32 ≤ 256 := by decide

/-- `pkt_trace_id`. -/
def pktTraceId : Field 256 32 := ⟨128, pktTraceId_fits⟩

/-- `PKT_LINKF_BCAST`. -/
def pktLinkfBcast : BitVec 16 := 0x0001

/-- `PKT_LINKF_MCAST`. -/
def pktLinkfMcast : BitVec 16 := 0x0002

/-- `PKT_LINKF_ETHFCS`. -/
def pktLinkfEthfcs : BitVec 16 := 0x0004

/-- `PKT_F_WAKE_PKT`. -/
def pktFWakePkt : BitVec 64 := 0x0000000000000400

/-- `PKT_F_BACKGROUND`. -/
def pktFBackground : BitVec 64 := 0x0000000000008000

/-- `PKT_F_KEEPALIVE`. -/
def pktFKeepalive : BitVec 64 := 0x0000000000040000

/-- `PKT_F_REALTIME`. -/
def pktFRealtime : BitVec 64 := 0x0000000000080000

/-- `PKT_F_REXMT`. -/
def pktFRexmt : BitVec 64 := 0x0000000000200000

/-- `PKT_F_LAST_PKT`. -/
def pktFLastPkt : BitVec 64 := 0x0000000010000000

/-- `PKT_F_OPT_GROUP_START`. -/
def pktFOptGroupStart : BitVec 64 := 0x0000000100000000

/-- `PKT_F_OPT_GROUP_END`. -/
def pktFOptGroupEnd : BitVec 64 := 0x0000000200000000

end Layout

namespace KernMeta

section Flags

variable (s : KernMeta)

/-- Set a link flag of a raw packet. -/
def setLinkFlag (flag : BitVec 16) : Except Fault KernMeta := do
  kassert (s.type = .packet ∧ s.subtype = .raw)
  return s.setCom pktLinkFlags (pktLinkFlags.get s.pkt.com ||| flag)

/-- Read a link flag. -/
def getLinkFlag (flag : BitVec 16) : Bool := pktLinkFlags.get s.pkt.com &&& flag ≠ 0

/-- `__packet_set_link_broadcast`. -/
def packetSetLinkBroadcast := s.setLinkFlag pktLinkfBcast

/-- `__packet_get_link_broadcast`. -/
def packetGetLinkBroadcast := s.getLinkFlag pktLinkfBcast

/-- `__packet_set_link_multicast`. -/
def packetSetLinkMulticast := s.setLinkFlag pktLinkfMcast

/-- `__packet_get_link_multicast`. -/
def packetGetLinkMulticast := s.getLinkFlag pktLinkfMcast

/-- `__packet_set_link_ethfcs`. -/
def packetSetLinkEthfcs := s.setLinkFlag pktLinkfEthfcs

/-- `__packet_get_link_ethfcs`. -/
def packetGetLinkEthfcs := s.getLinkFlag pktLinkfEthfcs

/-- Set a flag of a packet. -/
def setFlag (flag : BitVec 64) : Except Fault KernMeta := do
  kassert (s.type = .packet)
  return s.setPflags (s.pkt.pflags ||| flag)

/-- Read a flag of a packet. -/
def getFlag (flag : BitVec 64) : Bool := s.pkt.pflags &&& flag ≠ 0

/-- `__packet_set_transport_traffic_background`. -/
def packetSetTransportTrafficBackground := s.setFlag pktFBackground

/-- `__packet_get_transport_traffic_background`. -/
def packetGetTransportTrafficBackground := s.getFlag pktFBackground

/-- `__packet_set_transport_traffic_realtime`. -/
def packetSetTransportTrafficRealtime := s.setFlag pktFRealtime

/-- `__packet_get_transport_traffic_realtime`. -/
def packetGetTransportTrafficRealtime := s.getFlag pktFRealtime

/-- `__packet_set_transport_retransmit`. -/
def packetSetTransportRetransmit := s.setFlag pktFRexmt

/-- `__packet_get_transport_retransmit`. -/
def packetGetTransportRetransmit := s.getFlag pktFRexmt

/-- `__packet_set_transport_last_packet`. -/
def packetSetTransportLastPacket := s.setFlag pktFLastPkt

/-- `__packet_get_transport_last_packet`. -/
def packetGetTransportLastPacket := s.getFlag pktFLastPkt

/-- `__packet_set_group_start`. -/
def packetSetGroupStart := s.setFlag pktFOptGroupStart

/-- `__packet_get_group_start`. -/
def packetGetGroupStart := s.getFlag pktFOptGroupStart

/-- `__packet_set_group_end`. -/
def packetSetGroupEnd := s.setFlag pktFOptGroupEnd

/-- `__packet_get_group_end`. -/
def packetGetGroupEnd := s.getFlag pktFOptGroupEnd

/-- `__packet_set_wake_flag`. -/
def packetSetWakeFlag := s.setFlag pktFWakePkt

/-- `__packet_get_wake_flag`. -/
def packetGetWakeFlag := s.getFlag pktFWakePkt

/-- `__packet_set_keep_alive`. -/
def packetSetKeepAlive (isKeepAlive : Bool) : Except Fault KernMeta := do
  kassert (s.type = .packet)
  if isKeepAlive then return s.setPflags (s.pkt.pflags ||| pktFKeepalive)
  else return s.setPflags (s.pkt.pflags &&& ~~~pktFKeepalive)

/-- `__packet_get_keep_alive`. -/
def packetGetKeepAlive := s.getFlag pktFKeepalive

end Flags

section Classes

/-- `PKT_SC_BK_SYS`. -/
def pktScBkSys : BitVec 32 := 0x00080090

/-- `PKT_SC_BK`. -/
def pktScBk : BitVec 32 := 0x00100080

/-- `PKT_SC_BE`. -/
def pktScBe : BitVec 32 := 0x00000000

/-- `PKT_SC_RD`. -/
def pktScRd : BitVec 32 := 0x00180010

/-- `PKT_SC_OAM`. -/
def pktScOam : BitVec 32 := 0x00200020

/-- `PKT_SC_AV`. -/
def pktScAv : BitVec 32 := 0x00280120

/-- `PKT_SC_RV`. -/
def pktScRv : BitVec 32 := 0x00300110

/-- `PKT_SC_VI`. -/
def pktScVi : BitVec 32 := 0x00380100

/-- `PKT_SC_SIG`. -/
def pktScSig : BitVec 32 := 0x00380130

/-- `PKT_SC_VO`. -/
def pktScVo : BitVec 32 := 0x00400180

/-- `PKT_SC_CTL`. -/
def pktScCtl : BitVec 32 := 0x00480190

/-- `PKT_SCVAL`. -/
def pktScval (sc : BitVec 32) : BitVec 32 := sc &&& 0xffff

/-- `PKT_SC2TC`. -/
def pktSc2Tc (sc : BitVec 32) : BitVec 32 := pktScval sc >>> 7

/-- `PKT_TC2SCVAL`. -/
def pktTc2Scval (tc : BitVec 32) : BitVec 32 := tc <<< 7

/-- The cases of the service class, as they are listed. -/
def serviceClasses : List (BitVec 32) :=
  [pktScBe, pktScBkSys, pktScBk, pktScRd, pktScOam, pktScAv, pktScRv, pktScVi, pktScSig, pktScVo,
    pktScCtl]

variable (s : KernMeta)

/-- `__packet_set_service_class`. -/
def packetSetServiceClass (sc : BitVec 32) : KernMeta × Errno :=
  if sc ∈ serviceClasses then (s.setQum (qumSvcClass.set sc s.pkt.qum.com), .success)
  else (s, .einval)

/-- `__packet_get_service_class`. -/
def packetGetServiceClass : BitVec 32 :=
  if qumSvcClass.get s.pkt.qum.com ∈ serviceClasses then qumSvcClass.get s.pkt.qum.com else pktScBe

/-- The switch of `__packet_set_traffic_class`. -/
def scOfScval (val : BitVec 32) : BitVec 32 :=
  if val = pktScval pktScBkSys then pktScBkSys
  else if val = pktScval pktScBk then pktScBk
  else if val = pktScval pktScBe then pktScBe
  else if val = pktScval pktScRd then pktScRd
  else if val = pktScval pktScOam then pktScOam
  else if val = pktScval pktScAv then pktScAv
  else if val = pktScval pktScRv then pktScRv
  else if val = pktScval pktScVi then pktScVi
  else if val = pktScval pktScSig then pktScSig
  else if val = pktScval pktScVo then pktScVo
  else if val = pktScval pktScCtl then pktScCtl
  else pktScBe

/-- `__packet_set_traffic_class`. -/
def packetSetTrafficClass (tc : BitVec 32) : KernMeta × Errno :=
  s.packetSetServiceClass (scOfScval (pktTc2Scval tc))

/-- `__packet_get_traffic_class`. -/
def packetGetTrafficClass : BitVec 32 := pktSc2Tc s.packetGetServiceClass

end Classes

section Numbers

variable (s : KernMeta)

/-- `__packet_get_headroom`. -/
def packetGetHeadroom : BitVec 8 := pktHeadroom.get s.pkt.com

/-- `__packet_get_link_header_length`. -/
def packetGetLinkHeaderLength : BitVec 8 := pktL2Len.get s.pkt.com

/-- `__packet_set_comp_gencnt`. -/
def packetSetCompGencnt (gencnt : BitVec 32) : Except Fault KernMeta := do
  kassert (s.type = .packet)
  return s.setCom pktCompGencnt gencnt

/-- `__packet_get_comp_gencnt`. -/
def packetGetCompGencnt : BitVec 32 := pktCompGencnt.get s.pkt.com

/-- `__packet_set_trace_id`. -/
def packetSetTraceId (id : BitVec 32) : Except Fault KernMeta := do
  kassert (s.type = .packet)
  return s.setCom pktTraceId id

/-- `__packet_get_trace_id`. -/
def packetGetTraceId : BitVec 32 :=
  match s.type with
  | .packet => pktTraceId.get s.pkt.com
  | _ => 0

/-- `__packet_set_inet_checksum`. -/
def packetSetInetChecksum (flags : BitVec 32) (start stuffVal : BitVec 16) (tx : Bool) :
    Except Fault KernMeta := do
  kassert (s.type = .packet)
  let s := s.setCom pktCsumFlags flags
  if tx then return (s.setCom pktCsumTxStartOff start).setCom pktCsumTxStuffOff stuffVal
  else return (s.setCom pktCsumRxStartOff start).setCom pktCsumRxValue stuffVal

/-- `__packet_get_inet_checksum`: what it returns, `*start` and `*stuff_val`. -/
def packetGetInetChecksum (tx : Bool) : BitVec 32 × BitVec 16 × BitVec 16 :=
  if tx then
    (pktCsumFlags.get s.pkt.com, pktCsumTxStartOff.get s.pkt.com, pktCsumTxStuffOff.get s.pkt.com)
  else
    (pktCsumFlags.get s.pkt.com, pktCsumRxStartOff.get s.pkt.com, pktCsumRxValue.get s.pkt.com)

end Numbers

section FlowUuid

/-- `IS_P2ALIGNED(v, 4)`. -/
def isP2Aligned4 (v : BitVec 64) : Bool := v &&& 3 = 0

/-- Copy a UUID to the flow id, in words of a width. -/
def copyUuid (m : Memory 64) (uuid : BitVec 64) (width : Nat) :
    Nat → BitVec 256 → Except Fault (BitVec 256)
  | 0, com => return com
  | k + 1, com => do
    let com ← copyUuid m uuid width k com
    return putBytes (width * k) (← m.readBytes width (uuid + BitVec.ofNat 64 (width * k))) com

variable (s : KernMeta)

/-- `__packet_set_flow_uuid`, from a UUID in memory. -/
def packetSetFlowUuid (m : Memory 64) (uuid : BitVec 64) : Except Fault KernMeta := do
  let com ← if isP2Aligned8 uuid then copyUuid m uuid 8 2 s.pkt.qum.com
    else if isP2Aligned4 uuid then copyUuid m uuid 4 4 s.pkt.qum.com
    else copyUuid m uuid 16 1 s.pkt.qum.com
  return s.setQum com

/-- `__packet_clear_flow_uuid`. -/
def packetClearFlowUuid : KernMeta :=
  let com := putBytes 0 (List.replicate 8 0) s.pkt.qum.com
  s.setQum (putBytes 8 (List.replicate 8 0) com)

/-- What `__packet_get_flow_uuid` stores at a UUID, in words of a width. -/
def uuidWords (width count : Nat) : List UInt8 :=
  (List.range count).flatMap fun k =>
    (List.range width).map fun i => byteAt s.pkt.qum.com (width * k + i)

/-- `__packet_get_flow_uuid`: the bytes that are stored. -/
def packetGetFlowUuid (uuid : BitVec 64) : List UInt8 :=
  if isP2Aligned8 uuid then s.uuidWords 8 2
  else if isP2Aligned4 uuid then s.uuidWords 4 4
  else s.uuidWords 16 1

end FlowUuid

end KernMeta

end MacKernel.Packet
