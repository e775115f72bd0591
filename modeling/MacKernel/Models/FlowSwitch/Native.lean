import MacKernel.Core.Bytes

/-!
# Flow keys of the flow switch

A flow key is an image of 48 bytes. It is compared field by field or as one vector
under a mask, hashed field by field, and made from a request or from the classifier
data of a packet. `net_flowhash`, `sk_memcmp_mask_48B`, `sk_sa_has_addr` and
`sk_sa_has_port` are only declared in the headers and are parameters.
-/

namespace MacKernel.FlowSwitch

section Layout

/-- `struct flow_key`. -/
abbrev FlowKey := BitVec 384

/-- `fk_mask`. -/
def fkMask : Field 384 16 := ⟨0, by decide⟩

/-- `fk_ipver`. -/
def fkIpver : Field 384 8 := ⟨16, by decide⟩

/-- `fk_proto`. -/
def fkProto : Field 384 8 := ⟨24, by decide⟩

/-- `fk_sport`. -/
def fkSport : Field 384 16 := ⟨32, by decide⟩

/-- `fk_dport`. -/
def fkDport : Field 384 16 := ⟨48, by decide⟩

/-- `fk_src`, and `fk_src6` in its union. -/
def fkSrc : Field 384 128 := ⟨64, by decide⟩

/-- `fk_dst`, and `fk_dst6` in its union. -/
def fkDst : Field 384 128 := ⟨192, by decide⟩

/-- `fk_src4`. -/
def fkSrc4 : Field 384 32 := ⟨64, by decide⟩

/-- `fk_dst4`. -/
def fkDst4 : Field 384 32 := ⟨192, by decide⟩

/-- The fields that `FK_CMP` and `FK_HASH` are used for. -/
inductive FkField where
  | ipver
  | proto
  | src
  | dst
  | sport
  | dport
  deriving DecidableEq, Repr

/-- The number of bits of a field. -/
def FkField.len : FkField → Nat
  | .ipver | .proto => 8
  | .src | .dst => 128
  | .sport | .dport => 16

/-- Where a field is. -/
def FkField.field : (f : FkField) → Field 384 f.len
  | .ipver => fkIpver
  | .proto => fkProto
  | .src => fkSrc
  | .dst => fkDst
  | .sport => fkSport
  | .dport => fkDport

/-- `FKMASK_IPVER`, `FKMASK_PROTO`, `FKMASK_SRC`, `FKMASK_SPORT`, `FKMASK_DST` and
`FKMASK_DPORT`. -/
def FkField.bit : FkField → BitVec 16
  | .ipver => 0x01
  | .proto => 0x02
  | .src => 0x04
  | .sport => 0x08
  | .dst => 0x10
  | .dport => 0x20

/-- `FKMASK_2TUPLE`. -/
def fkmask2tuple : BitVec 16 := FkField.proto.bit ||| FkField.sport.bit

/-- `FKMASK_3TUPLE`. -/
def fkmask3tuple : BitVec 16 := fkmask2tuple ||| FkField.ipver.bit ||| FkField.src.bit

/-- `FKMASK_4TUPLE`. -/
def fkmask4tuple : BitVec 16 := fkmask3tuple ||| FkField.dport.bit

/-- `FKMASK_5TUPLE`. -/
def fkmask5tuple : BitVec 16 := fkmask4tuple ||| FkField.dst.bit

/-- `FKMASK_IPFLOW1`. -/
def fkmaskIpflow1 : BitVec 16 := FkField.proto.bit

/-- `FKMASK_IPFLOW2`. -/
def fkmaskIpflow2 : BitVec 16 := fkmaskIpflow1 ||| FkField.ipver.bit ||| FkField.src.bit

/-- `FKMASK_IPFLOW3`. -/
def fkmaskIpflow3 : BitVec 16 := fkmaskIpflow2 ||| FkField.dst.bit

end Layout

section Compare

/-- `FK_CMP`, with what follows it. -/
def fkCmp (f : FkField) (m k : FlowKey) (rest : Int) : Int :=
  if fkMask.get m &&& f.bit ≠ 0 then
    if fkMask.get k &&& f.bit = 0 then 1
    else
      let d := memcmp (bytesOf (f.field.get m)) (bytesOf (f.field.get k))
      if d ≠ 0 then d else rest
  else rest

/-- `flow_key_cmp`. -/
def flowKeyCmp (m k : FlowKey) : Int :=
  fkCmp .ipver m k <| fkCmp .proto m k <| fkCmp .src m k <| fkCmp .dst m k <|
    fkCmp .sport m k <| fkCmp .dport m k 0

/-- `flow_key_cmp_mask`. -/
def flowKeyCmpMask (skMemcmpMask48B : FlowKey → FlowKey → FlowKey → Int) (m k mask : FlowKey) :
    Int :=
  skMemcmpMask48B m k mask

/-- `FK_HASH_SEED`. -/
def fkHashSeed : UInt32 := 0xabcd

variable (netFlowhash : List UInt8 → UInt32 → UInt32)

/-- `FK_HASH`. -/
def fkHash (f : FkField) (k : FlowKey) (hash : UInt32) : UInt32 :=
  if fkMask.get k &&& f.bit ≠ 0 then netFlowhash (bytesOf (f.field.get k)) hash else hash

/-- `flow_key_hash`. -/
def flowKeyHash (k : FlowKey) : UInt32 :=
  let hash := fkHash netFlowhash .ipver k fkHashSeed
  let hash := fkHash netFlowhash .proto k hash
  let hash := fkHash netFlowhash .src k hash
  let hash := fkHash netFlowhash .dst k hash
  let hash := fkHash netFlowhash .sport k hash
  fkHash netFlowhash .dport k hash

end Compare

section Addresses

/-- `AF_INET`. -/
def afInet : BitVec 8 := 2

/-- `AF_INET6`. -/
def afInet6 : BitVec 8 := 30

/-- `IPVERSION`. -/
def ipversion : BitVec 8 := 4

/-- `IPV6_VERSION`. -/
def ipv6Version : BitVec 8 := 0x60

/-- `ENOTSUP`. -/
def enotsup : Int := 45

/-- `QUM_F_FLOW_CLASSIFIED`. -/
def qumFFlowClassified : BitVec 16 := 0x0010

/-- `union sockaddr_in_4_6`: the images of a `struct sockaddr_in` and a
`struct sockaddr_in6` over each other. -/
abbrev SockaddrIn46 := BitVec 224

/-- `sa.sa_family`. -/
def saFamily : Field 224 8 := ⟨8, by decide⟩

/-- `sin.sin_port`. -/
def sinPort : Field 224 16 := ⟨16, by decide⟩

/-- `sin.sin_addr`. -/
def sinAddr : Field 224 32 := ⟨32, by decide⟩

/-- `sin6.sin6_port`. -/
def sin6Port : Field 224 16 := ⟨16, by decide⟩

/-- `sin6.sin6_addr`. -/
def sin6Addr : Field 224 128 := ⟨64, by decide⟩

/-- The part of `struct nx_flow_req` that a flow key is made from. -/
structure NxFlowReq where
  nfrSaddr : SockaddrIn46
  nfrDaddr : SockaddrIn46
  nfrIpProtocol : BitVec 8
  deriving DecidableEq, Repr

end Addresses

section Requests

/-- A block of `flow_key_unpack` for one address family. -/
def unpackFamily {len : Nat} (family : BitVec 8) (src dst : Field 384 len) (addr : Field 224 len)
    (port : Field 224 16) (key : FlowKey) (laddr faddr : SockaddrIn46) :
    SockaddrIn46 × SockaddrIn46 :=
  let laddr := saFamily.set family laddr
  let laddr := addr.set (src.get key) laddr
  let laddr := port.set (fkSport.get key) laddr
  let faddr := saFamily.set family faddr
  let faddr := addr.set (dst.get key) faddr
  let faddr := port.set (fkDport.get key) faddr
  (laddr, faddr)

/-- `flow_key_unpack`: the two addresses afterwards and the protocol. -/
def flowKeyUnpack (key : FlowKey) (laddr faddr : SockaddrIn46) :
    (SockaddrIn46 × SockaddrIn46) × BitVec 8 :=
  (if fkIpver.get key = ipversion then
      unpackFamily afInet fkSrc4 fkDst4 sinAddr sinPort key laddr faddr
    else if fkIpver.get key = ipv6Version then
      unpackFamily afInet6 fkSrc fkDst sin6Addr sin6Port key laddr faddr
    else (laddr, faddr), fkProto.get key)

variable (skSaHasAddr skSaHasPort : SockaddrIn46 → Bool)

/-- `key->fk_mask |= bits`. -/
def orMask (bits : BitVec 16) (key : FlowKey) : FlowKey := fkMask.set (fkMask.get key ||| bits) key

/-- `if (supplied) { key->field = value; key->fk_mask |= bits; }`. -/
def supply {len : Nat} (supplied : Bool) (f : Field 384 len) (value : BitVec len)
    (bits : BitVec 16) (key : FlowKey) : FlowKey :=
  if supplied then orMask bits (f.set value key) else key

/-- A block of `flow_req2key` for one address family. -/
def req2keyFamily {len : Nat} (version : BitVec 8) (src dst : Field 384 len)
    (addr : Field 224 len) (port : Field 224 16) (req : NxFlowReq) (key : FlowKey) : FlowKey :=
  let key := fkIpver.set version key
  let key := fkProto.set req.nfrIpProtocol key
  let key := orMask FkField.proto.bit key
  let key := supply (skSaHasAddr req.nfrSaddr) src (addr.get req.nfrSaddr)
    (FkField.ipver.bit ||| FkField.src.bit) key
  let key := supply (skSaHasAddr req.nfrDaddr) dst (addr.get req.nfrDaddr)
    (FkField.ipver.bit ||| FkField.dst.bit) key
  let key := supply (skSaHasPort req.nfrSaddr) fkSport (port.get req.nfrSaddr)
    FkField.sport.bit key
  supply (skSaHasPort req.nfrDaddr) fkDport (port.get req.nfrDaddr) FkField.dport.bit key

/-- The masks that `flow_req2key` accepts. -/
def supportedMasks : List (BitVec 16) :=
  [fkmask5tuple, fkmask4tuple, fkmask3tuple, fkmask2tuple, fkmaskIpflow3, fkmaskIpflow2,
    fkmaskIpflow1]

/-- The end of `flow_req2key`. -/
def checkMask (key : FlowKey) : Int × FlowKey :=
  if fkMask.get key ∈ supportedMasks then (0, key) else (enotsup, key)

/-- `flow_req2key`: the return value and the key, which is cleared first. -/
def flowReq2key (req : NxFlowReq) : Int × FlowKey :=
  if saFamily.get req.nfrSaddr = afInet then
    checkMask (req2keyFamily skSaHasAddr skSaHasPort ipversion fkSrc4 fkDst4 sinAddr sinPort req 0)
  else if saFamily.get req.nfrSaddr = afInet6 then
    checkMask (req2keyFamily skSaHasAddr skSaHasPort ipv6Version fkSrc fkDst sin6Addr sin6Port
      req 0)
  else (enotsup, 0)

end Requests

section Packets

/-- `struct __flow`: 128 bytes that are cleared on each allocation, and layer 4. -/
abbrev Flow := BitVec 1280

/-- `flow_ipv4_src`. -/
def flowIpv4Src : Field 1280 32 := ⟨0, by decide⟩

/-- `flow_ipv4_dst`. -/
def flowIpv4Dst : Field 1280 32 := ⟨32, by decide⟩

/-- `flow_ipv6_src`. -/
def flowIpv6Src : Field 1280 128 := ⟨0, by decide⟩

/-- `flow_ipv6_dst`. -/
def flowIpv6Dst : Field 1280 128 := ⟨128, by decide⟩

/-- `flow_ip_ver`, which is `flow_l3._l3_ip_ver`. -/
def flowIpVer : Field 1280 8 := ⟨256, by decide⟩

/-- `flow_ip_proto`. -/
def flowIpProto : Field 1280 8 := ⟨264, by decide⟩

/-- `flow_tcp_src`. -/
def flowTcpSrc : Field 1280 16 := ⟨1024, by decide⟩

/-- `flow_tcp_dst`. -/
def flowTcpDst : Field 1280 16 := ⟨1040, by decide⟩

/-- The part of `struct __kern_packet` that a flow key is made from. -/
structure FlowPacket where
  pktQumQflags : BitVec 16
  pktFlow : Flow
  deriving DecidableEq, Repr

/-- One of the four blocks of `flow_pkt2key`, with the fields of the packet that go to the
source and to the destination of the key. -/
def pkt2keyBlock {len : Nat} (src dst : Field 384 len) (toSrc toDst : Field 1280 len)
    (toSport toDport : Field 1280 16) (flow : Flow) (key : FlowKey) : FlowKey :=
  let key := src.set (toSrc.get flow) key
  let key := fkSport.set (toSport.get flow) key
  let key := dst.set (toDst.get flow) key
  fkDport.set (toDport.get flow) key

/-- `flow_pkt2key`, on a key that is cleared first. -/
def flowPkt2key (pkt : FlowPacket) (input : Bool) : Except Fault FlowKey :=
  let flow := pkt.pktFlow
  if pkt.pktQumQflags &&& qumFFlowClassified = 0 then return 0
  else if flowIpVer.get flow = 0 then throw .assertFailed
  else
    let key := fkIpver.set (flowIpVer.get flow) 0
    let key := fkProto.set (flowIpProto.get flow) key
    if input then
      if flowIpVer.get flow = ipversion then
        return pkt2keyBlock fkSrc4 fkDst4 flowIpv4Dst flowIpv4Src flowTcpDst flowTcpSrc flow key
      else
        return pkt2keyBlock fkSrc fkDst flowIpv6Dst flowIpv6Src flowTcpDst flowTcpSrc flow key
    else
      if flowIpVer.get flow = ipversion then
        return pkt2keyBlock fkSrc4 fkDst4 flowIpv4Src flowIpv4Dst flowTcpSrc flowTcpDst flow key
      else
        return pkt2keyBlock fkSrc fkDst flowIpv6Src flowIpv6Dst flowTcpSrc flowTcpDst flow key

end Packets

end MacKernel.FlowSwitch
