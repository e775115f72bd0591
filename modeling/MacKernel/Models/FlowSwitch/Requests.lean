import MacKernel.Models.FlowSwitch.Native

/-!
# Flow keys of requests and of packets

A key is determined by its fields, so every way to make one is described by the values
it gives them. The blocks for the two address families, and those for the two
directions of a packet, then differ in these values only.
-/

namespace MacKernel.FlowSwitch

/-- `fk_pad`. -/
def fkPad : Field 384 64 := ⟨320, by decide⟩

section Keys

variable {key key' : FlowKey}

/-- Keys with the same fields are the same 48 bytes. -/
theorem flowKey_ext (hmask : fkMask.get key = fkMask.get key')
    (hipver : fkIpver.get key = fkIpver.get key') (hproto : fkProto.get key = fkProto.get key')
    (hsport : fkSport.get key = fkSport.get key') (hdport : fkDport.get key = fkDport.get key')
    (hsrc : fkSrc.get key = fkSrc.get key') (hdst : fkDst.get key = fkDst.get key')
    (hpad : fkPad.get key = fkPad.get key') : key = key' := by
  apply BitVec.eq_of_getLsbD_eq
  intro i hi
  rcases Nat.lt_or_ge i 16 with h | h
  · exact Field.getLsbD_eq_of_get_eq hmask (Nat.zero_le i) (by simpa [fkMask] using h)
  rcases Nat.lt_or_ge i 24 with h' | h
  · exact Field.getLsbD_eq_of_get_eq hipver h h'
  rcases Nat.lt_or_ge i 32 with h' | h
  · exact Field.getLsbD_eq_of_get_eq hproto h h'
  rcases Nat.lt_or_ge i 48 with h' | h
  · exact Field.getLsbD_eq_of_get_eq hsport h h'
  rcases Nat.lt_or_ge i 64 with h' | h
  · exact Field.getLsbD_eq_of_get_eq hdport h h'
  rcases Nat.lt_or_ge i 192 with h' | h
  · exact Field.getLsbD_eq_of_get_eq hsrc h h'
  rcases Nat.lt_or_ge i 320 with h' | h
  · exact Field.getLsbD_eq_of_get_eq hdst h h'
  · exact Field.getLsbD_eq_of_get_eq hpad h hi

/-- The key has these fields and no padding. -/
structure HasFields (key : FlowKey) (mask : BitVec 16) (ipver proto : BitVec 8)
    (sport dport : BitVec 16) (src dst : BitVec 128) : Prop where
  mask : fkMask.get key = mask
  ipver : fkIpver.get key = ipver
  proto : fkProto.get key = proto
  sport : fkSport.get key = sport
  dport : fkDport.get key = dport
  src : fkSrc.get key = src
  dst : fkDst.get key = dst
  pad : fkPad.get key = 0

variable {mask mask' : BitVec 16} {ipver proto : BitVec 8} {sport dport : BitVec 16}
  {src dst : BitVec 128}

/-- The fields tell keys apart. -/
theorem HasFields.unique (h : HasFields key mask ipver proto sport dport src dst)
    (h' : HasFields key' mask ipver proto sport dport src dst) : key = key' :=
  flowKey_ext (h.mask.trans h'.mask.symm) (h.ipver.trans h'.ipver.symm)
    (h.proto.trans h'.proto.symm) (h.sport.trans h'.sport.symm) (h.dport.trans h'.dport.symm)
    (h.src.trans h'.src.symm) (h.dst.trans h'.dst.symm) (h.pad.trans h'.pad.symm)

/-- `FLOW_KEY_CLEAR`. -/
theorem hasFields_zero : HasFields 0 0 0 0 0 0 0 0 := by
  constructor <;> exact Field.get_zero _

/-- A store into the mask changes the mask. -/
theorem HasFields.setMask (h : HasFields key mask ipver proto sport dport src dst)
    (v : BitVec 16) : HasFields (fkMask.set v key) v ipver proto sport dport src dst := by
  constructor <;> simp (disch := decide) only [Field.get_set_self, Field.get_set_of_disjoint,
    h.ipver, h.proto, h.sport, h.dport, h.src, h.dst, h.pad]

/-- A store into the version changes the version. -/
theorem HasFields.setIpver (h : HasFields key mask ipver proto sport dport src dst)
    (v : BitVec 8) : HasFields (fkIpver.set v key) mask v proto sport dport src dst := by
  constructor <;> simp (disch := decide) only [Field.get_set_self, Field.get_set_of_disjoint,
    h.mask, h.proto, h.sport, h.dport, h.src, h.dst, h.pad]

/-- A store into the protocol changes the protocol. -/
theorem HasFields.setProto (h : HasFields key mask ipver proto sport dport src dst)
    (v : BitVec 8) : HasFields (fkProto.set v key) mask ipver v sport dport src dst := by
  constructor <;> simp (disch := decide) only [Field.get_set_self, Field.get_set_of_disjoint,
    h.mask, h.ipver, h.sport, h.dport, h.src, h.dst, h.pad]

/-- A store into the source port changes the source port. -/
theorem HasFields.setSport (h : HasFields key mask ipver proto sport dport src dst)
    (v : BitVec 16) : HasFields (fkSport.set v key) mask ipver proto v dport src dst := by
  constructor <;> simp (disch := decide) only [Field.get_set_self, Field.get_set_of_disjoint,
    h.mask, h.ipver, h.proto, h.dport, h.src, h.dst, h.pad]

/-- A store into the destination port changes the destination port. -/
theorem HasFields.setDport (h : HasFields key mask ipver proto sport dport src dst)
    (v : BitVec 16) : HasFields (fkDport.set v key) mask ipver proto sport v src dst := by
  constructor <;> simp (disch := decide) only [Field.get_set_self, Field.get_set_of_disjoint,
    h.mask, h.ipver, h.proto, h.sport, h.src, h.dst, h.pad]

end Keys

section Families

variable {key : FlowKey} {mask : BitVec 16} {ipver proto : BitVec 8} {sport dport : BitVec 16}
  {s d : BitVec 128} {len : Nat} {src dst : Field 384 len}

/-- The members of the two address unions that one family uses. -/
structure IsFamily (src dst : Field 384 len) : Prop where
  src_off : src.off = fkSrc.off
  dst_off : dst.off = fkDst.off
  len_le : len ≤ 128

/-- The short addresses are a family of address fields. -/
theorem isFamily_inet : IsFamily fkSrc4 fkDst4 := ⟨rfl, rfl, by decide⟩

/-- The long addresses are a family of address fields. -/
theorem isFamily_inet6 : IsFamily fkSrc fkDst := ⟨rfl, rfl, le_rfl⟩

/-- The source address stays between the ports and the destination. -/
theorem IsFamily.src_disjoint (h : IsFamily src dst) {l : Nat} (g : Field 384 l)
    (hg : g.off + l ≤ 64 ∨ 192 ≤ g.off) : g.Disjoint src := by
  have hoff : src.off = 64 := h.src_off
  have hlen := h.len_le
  rcases hg with hg | hg
  · exact .inl (by omega)
  · exact .inr (by omega)

/-- The destination address stays between the source and the padding. -/
theorem IsFamily.dst_disjoint (h : IsFamily src dst) {l : Nat} (g : Field 384 l)
    (hg : g.off + l ≤ 192 ∨ 320 ≤ g.off) : g.Disjoint dst := by
  have hoff : dst.off = 192 := h.dst_off
  have hlen := h.len_le
  rcases hg with hg | hg
  · exact .inl (by omega)
  · exact .inr (by omega)

/-- A store into the source address of a family changes the source address. -/
theorem HasFields.setSrc (h : HasFields key mask ipver proto sport dport 0 d)
    (hf : IsFamily src dst) (v : BitVec len) :
    HasFields (src.set v key) mask ipver proto sport dport (v.setWidth 128) d := by
  constructor
  case src => exact Field.get_set_of_off_eq hf.src_off v h.src
  all_goals rw [Field.get_set_of_disjoint (hf.src_disjoint _ (by decide))]
  exacts [h.mask, h.ipver, h.proto, h.sport, h.dport, h.dst, h.pad]

/-- A store into the destination address of a family changes the destination address. -/
theorem HasFields.setDst (h : HasFields key mask ipver proto sport dport s 0)
    (hf : IsFamily src dst) (v : BitVec len) :
    HasFields (dst.set v key) mask ipver proto sport dport s (v.setWidth 128) := by
  constructor
  case dst => exact Field.get_set_of_off_eq hf.dst_off v h.dst
  all_goals rw [Field.get_set_of_disjoint (hf.dst_disjoint _ (by decide))]
  exacts [h.mask, h.ipver, h.proto, h.sport, h.dport, h.src, h.pad]

/-- Mask bits are added to the mask. -/
theorem HasFields.orMask (h : HasFields key mask ipver proto sport dport s d)
    (bits : BitVec 16) :
    HasFields (orMask bits key) (mask ||| bits) ipver proto sport dport s d := by
  rw [FlowSwitch.orMask, h.mask]
  exact h.setMask _

/-- A source address is stored with its bit if there is one. -/
theorem HasFields.supplySrc (h : HasFields key mask ipver proto sport dport 0 d)
    (hf : IsFamily src dst) (supplied : Bool) (v : BitVec len) (bits : BitVec 16) :
    HasFields (supply supplied src v bits key) (mask ||| if supplied then bits else 0) ipver proto
      sport dport (if supplied then v.setWidth 128 else 0) d := by
  cases supplied with
  | false => exact (BitVec.or_zero (x := mask)).symm ▸ h
  | true => exact (h.setSrc hf v).orMask bits

/-- A destination address is stored with its bit if there is one. -/
theorem HasFields.supplyDst (h : HasFields key mask ipver proto sport dport s 0)
    (hf : IsFamily src dst) (supplied : Bool) (v : BitVec len) (bits : BitVec 16) :
    HasFields (supply supplied dst v bits key) (mask ||| if supplied then bits else 0) ipver proto
      sport dport s (if supplied then v.setWidth 128 else 0) := by
  cases supplied with
  | false => exact (BitVec.or_zero (x := mask)).symm ▸ h
  | true => exact (h.setDst hf v).orMask bits

/-- A source port is stored with its bit if there is one. -/
theorem HasFields.supplySport (h : HasFields key mask ipver proto 0 dport s d) (supplied : Bool)
    (v bits : BitVec 16) :
    HasFields (supply supplied fkSport v bits key) (mask ||| if supplied then bits else 0) ipver
      proto (if supplied then v else 0) dport s d := by
  cases supplied with
  | false => exact (BitVec.or_zero (x := mask)).symm ▸ h
  | true => exact (h.setSport v).orMask bits

/-- A destination port is stored with its bit if there is one. -/
theorem HasFields.supplyDport (h : HasFields key mask ipver proto sport 0 s d) (supplied : Bool)
    (v bits : BitVec 16) :
    HasFields (supply supplied fkDport v bits key) (mask ||| if supplied then bits else 0) ipver
      proto sport (if supplied then v else 0) s d := by
  cases supplied with
  | false => exact (BitVec.or_zero (x := mask)).symm ▸ h
  | true => exact (h.setDport v).orMask bits

end Families

section Requests

variable (skSaHasAddr skSaHasPort : SockaddrIn46 → Bool) (req : NxFlowReq)

/-- The mask that names the parts a request supplies, and the protocol. -/
def suppliedMask : BitVec 16 :=
  FkField.proto.bit |||
    (if skSaHasAddr req.nfrSaddr then FkField.ipver.bit ||| FkField.src.bit else 0) |||
    (if skSaHasAddr req.nfrDaddr then FkField.ipver.bit ||| FkField.dst.bit else 0) |||
    (if skSaHasPort req.nfrSaddr then FkField.sport.bit else 0) |||
    (if skSaHasPort req.nfrDaddr then FkField.dport.bit else 0)

variable {req} {len : Nat} {src dst : Field 384 len}

/-- The key that the block for one family makes. -/
theorem req2keyFamily_hasFields (req : NxFlowReq) (hf : IsFamily src dst) (version : BitVec 8)
    (addr : Field 224 len) (port : Field 224 16) :
    HasFields (req2keyFamily skSaHasAddr skSaHasPort version src dst addr port req 0)
      (suppliedMask skSaHasAddr skSaHasPort req) version req.nfrIpProtocol
      (if skSaHasPort req.nfrSaddr then port.get req.nfrSaddr else 0)
      (if skSaHasPort req.nfrDaddr then port.get req.nfrDaddr else 0)
      (if skSaHasAddr req.nfrSaddr then (addr.get req.nfrSaddr).setWidth 128 else 0)
      (if skSaHasAddr req.nfrDaddr then (addr.get req.nfrDaddr).setWidth 128 else 0) := by
  have hproto := ((hasFields_zero.setIpver version).setProto req.nfrIpProtocol).orMask
    FkField.proto.bit
  have hzero : (0 : BitVec 16) ||| FkField.proto.bit = FkField.proto.bit := BitVec.zero_or
  rw [hzero] at hproto
  have haddrs := (hproto.supplySrc hf (skSaHasAddr req.nfrSaddr) (addr.get req.nfrSaddr)
    (FkField.ipver.bit ||| FkField.src.bit)).supplyDst hf (skSaHasAddr req.nfrDaddr)
    (addr.get req.nfrDaddr) (FkField.ipver.bit ||| FkField.dst.bit)
  exact (haddrs.supplySport (skSaHasPort req.nfrSaddr) (port.get req.nfrSaddr)
    FkField.sport.bit).supplyDport (skSaHasPort req.nfrDaddr) (port.get req.nfrDaddr)
    FkField.dport.bit

/-- The address that a socket address of either family carries, in 16 bytes. -/
def addressOf (a : SockaddrIn46) : BitVec 128 :=
  if saFamily.get a = afInet then (sinAddr.get a).setWidth 128 else sin6Addr.get a

/-- The port that a socket address of either family carries. -/
def portOf (a : SockaddrIn46) : BitVec 16 := sinPort.get a

/-- The IP version of an address family. -/
def versionOf (family : BitVec 8) : BitVec 8 := if family = afInet then ipversion else ipv6Version

/-- The family of the request is IPv4 or IPv6. -/
def NxFlowReq.IsIp (req : NxFlowReq) : Prop :=
  saFamily.get req.nfrSaddr = afInet ∨ saFamily.get req.nfrSaddr = afInet6

/-- The key of a request of either family. -/
theorem flowReq2key_hasFields (hip : req.IsIp)
    (hsame : saFamily.get req.nfrDaddr = saFamily.get req.nfrSaddr) :
    ∃ key, flowReq2key skSaHasAddr skSaHasPort req = checkMask key ∧
      HasFields key (suppliedMask skSaHasAddr skSaHasPort req)
        (versionOf (saFamily.get req.nfrSaddr)) req.nfrIpProtocol
        (if skSaHasPort req.nfrSaddr then portOf req.nfrSaddr else 0)
        (if skSaHasPort req.nfrDaddr then portOf req.nfrDaddr else 0)
        (if skSaHasAddr req.nfrSaddr then addressOf req.nfrSaddr else 0)
        (if skSaHasAddr req.nfrDaddr then addressOf req.nfrDaddr else 0) := by
  rcases hip with hinet | hinet6
  · refine ⟨_, if_pos hinet, ?_⟩
    rw [addressOf, addressOf, hsame, versionOf, if_pos hinet, if_pos hinet, if_pos hinet]
    exact req2keyFamily_hasFields skSaHasAddr skSaHasPort req isFamily_inet ipversion sinAddr
      sinPort
  · have hinet : saFamily.get req.nfrSaddr ≠ afInet := by rw [hinet6]; decide
    refine ⟨_, (if_neg hinet).trans (if_pos hinet6), ?_⟩
    rw [addressOf, addressOf, hsame, versionOf, if_neg hinet, if_neg hinet, if_neg hinet]
    have hfields := req2keyFamily_hasFields skSaHasAddr skSaHasPort req isFamily_inet6 ipv6Version
      sin6Addr sin6Port
    simp only [BitVec.setWidth_eq] at hfields
    exact hfields

/-- What is accepted, and that the rest is refused. -/
theorem flowReq2key_eq_zero
    (hsame : saFamily.get req.nfrDaddr = saFamily.get req.nfrSaddr) :
    (flowReq2key skSaHasAddr skSaHasPort req).1 = 0 ↔
      req.IsIp ∧ suppliedMask skSaHasAddr skSaHasPort req ∈ supportedMasks := by
  by_cases hip : req.IsIp
  · obtain ⟨key, hkey, hfields⟩ := flowReq2key_hasFields skSaHasAddr skSaHasPort hip hsame
    rw [hkey, checkMask, hfields.mask]
    split
    · next h => exact iff_of_true rfl ⟨hip, h⟩
    · next h =>
      have hne : enotsup ≠ 0 := by decide
      exact iff_of_false hne fun h' => h h'.2
  · obtain ⟨hinet, hinet6⟩ := not_or.mp hip
    rw [flowReq2key, if_neg hinet, if_neg hinet6]
    exact iff_of_false (by decide) fun h => hip h.1

end Requests

section Unpack

variable {key : FlowKey} {len : Nat}

/-- What one block of `flow_key_unpack` writes. -/
structure Unpacked (u : SockaddrIn46 × SockaddrIn46) (family : BitVec 8) (addr : Field 224 len)
    (laddr faddr : BitVec len) (lport fport : BitVec 16) : Prop where
  laddrFamily : saFamily.get u.1 = family
  faddrFamily : saFamily.get u.2 = family
  laddr : addr.get u.1 = laddr
  faddr : addr.get u.2 = faddr
  lport : portOf u.1 = lport
  fport : portOf u.2 = fport

/-- A key is unpacked into addresses of its family. -/
theorem unpackFamily_spec (addr : Field 224 len) (haddr : 32 ≤ addr.off) (family : BitVec 8)
    (src dst : Field 384 len) (key : FlowKey) (laddr faddr : SockaddrIn46) :
    Unpacked (unpackFamily family src dst addr sinPort key laddr faddr) family addr (src.get key)
      (dst.get key) (fkSport.get key) (fkDport.get key) := by
  have hport : addr.Disjoint sinPort := .inr haddr
  have hfamily : saFamily.Disjoint addr := .inl (Nat.le_trans (by decide) haddr)
  have hpf : saFamily.Disjoint sinPort := by decide
  constructor <;> simp only [unpackFamily, portOf, Field.get_set_self,
    Field.get_set_of_disjoint hport, Field.get_set_of_disjoint hpf,
    Field.get_set_of_disjoint hfamily]

/-- The key is unpacked into addresses of its version that carry its fields. -/
theorem flowKeyUnpack_spec {family : BitVec 8} (hip : family = afInet ∨ family = afInet6)
    (hversion : fkIpver.get key = versionOf family) (laddr faddr : SockaddrIn46) :
    (flowKeyUnpack key laddr faddr).2 = fkProto.get key ∧
    saFamily.get (flowKeyUnpack key laddr faddr).1.1 = family ∧
    saFamily.get (flowKeyUnpack key laddr faddr).1.2 = family ∧
    portOf (flowKeyUnpack key laddr faddr).1.1 = fkSport.get key ∧
    portOf (flowKeyUnpack key laddr faddr).1.2 = fkDport.get key ∧
    addressOf (flowKeyUnpack key laddr faddr).1.1 = (if family = afInet then
      (fkSrc4.get key).setWidth 128 else fkSrc.get key) ∧
    addressOf (flowKeyUnpack key laddr faddr).1.2 = (if family = afInet then
      (fkDst4.get key).setWidth 128 else fkDst.get key) := by
  refine ⟨rfl, ?_⟩
  rcases hip with rfl | rfl
  · have hkey : (flowKeyUnpack key laddr faddr).1 =
        unpackFamily afInet fkSrc4 fkDst4 sinAddr sinPort key laddr faddr := if_pos hversion
    have h := unpackFamily_spec sinAddr le_rfl afInet fkSrc4 fkDst4 key laddr faddr
    rw [hkey, addressOf, addressOf, h.laddrFamily, h.faddrFamily, h.laddr, h.faddr]
    simp only [if_true]
    exact ⟨trivial, trivial, h.lport, h.fport, trivial, trivial⟩
  · have hne : ipv6Version ≠ ipversion := by decide
    have hfamily : afInet6 ≠ afInet := by decide
    have hversion : fkIpver.get key = ipv6Version := hversion
    have hkey : (flowKeyUnpack key laddr faddr).1 =
        unpackFamily afInet6 fkSrc fkDst sin6Addr sinPort key laddr faddr := by
      rw [flowKeyUnpack, hversion, if_neg hne, if_pos rfl]
      rfl
    have h := unpackFamily_spec sin6Addr (by decide) afInet6 fkSrc fkDst key laddr faddr
    rw [hkey, addressOf, addressOf, h.laddrFamily, h.faddrFamily, h.laddr, h.faddr]
    simp only [if_neg hfamily]
    exact ⟨trivial, trivial, h.lport, h.fport, trivial, trivial⟩

end Unpack

section Packets

variable {pkt p q : FlowPacket}

/-- The packet was classified. -/
def FlowPacket.Classified (pkt : FlowPacket) : Prop :=
  pkt.pktQumQflags &&& qumFFlowClassified ≠ 0

/-- The source address of a packet of either version, in 16 bytes. -/
def flowSrc (flow : Flow) : BitVec 128 :=
  if flowIpVer.get flow = ipversion then (flowIpv4Src.get flow).setWidth 128
  else flowIpv6Src.get flow

/-- The destination address of a packet of either version, in 16 bytes. -/
def flowDst (flow : Flow) : BitVec 128 :=
  if flowIpVer.get flow = ipversion then (flowIpv4Dst.get flow).setWidth 128
  else flowIpv6Dst.get flow

/-- One block of `flow_pkt2key`. -/
theorem pkt2keyBlock_hasFields {len : Nat} {src dst : Field 384 len} (hf : IsFamily src dst)
    (toSrc toDst : Field 1280 len) (toSport toDport : Field 1280 16) (flow : Flow)
    (ipver proto : BitVec 8) :
    HasFields (pkt2keyBlock src dst toSrc toDst toSport toDport flow
        (fkProto.set proto (fkIpver.set ipver 0)))
      0 ipver proto (toSport.get flow) (toDport.get flow) ((toSrc.get flow).setWidth 128)
      ((toDst.get flow).setWidth 128) :=
  (((((hasFields_zero.setIpver ipver).setProto proto).setSrc hf _).setSport _).setDst hf
    _).setDport _

/-- The key of a classified packet: that of its fields, swapped on input. -/
theorem flowPkt2key_hasFields (hclass : pkt.Classified) (hver : flowIpVer.get pkt.pktFlow ≠ 0)
    (input : Bool) :
    ∃ key, flowPkt2key pkt input = .ok key ∧
      HasFields key 0 (flowIpVer.get pkt.pktFlow) (flowIpProto.get pkt.pktFlow)
        (if input then flowTcpDst.get pkt.pktFlow else flowTcpSrc.get pkt.pktFlow)
        (if input then flowTcpSrc.get pkt.pktFlow else flowTcpDst.get pkt.pktFlow)
        (if input then flowDst pkt.pktFlow else flowSrc pkt.pktFlow)
        (if input then flowSrc pkt.pktFlow else flowDst pkt.pktFlow) := by
  unfold flowPkt2key flowSrc flowDst
  rw [if_neg hclass, if_neg hver]
  by_cases hv4 : flowIpVer.get pkt.pktFlow = ipversion
  · simp only [if_pos hv4]
    cases input with
    | true => exact ⟨_, rfl, pkt2keyBlock_hasFields isFamily_inet _ _ _ _ _ _ _⟩
    | false => exact ⟨_, rfl, pkt2keyBlock_hasFields isFamily_inet _ _ _ _ _ _ _⟩
  · simp only [if_neg hv4]
    cases input with
    | true =>
      have h := pkt2keyBlock_hasFields isFamily_inet6 flowIpv6Dst flowIpv6Src flowTcpDst
        flowTcpSrc pkt.pktFlow (flowIpVer.get pkt.pktFlow) (flowIpProto.get pkt.pktFlow)
      simp only [BitVec.setWidth_eq] at h
      exact ⟨_, rfl, h⟩
    | false =>
      have h := pkt2keyBlock_hasFields isFamily_inet6 flowIpv6Src flowIpv6Dst flowTcpSrc
        flowTcpDst pkt.pktFlow (flowIpVer.get pkt.pktFlow) (flowIpProto.get pkt.pktFlow)
      simp only [BitVec.setWidth_eq] at h
      exact ⟨_, rfl, h⟩

/-- Two packets of one IP version between the same endpoints, in opposite directions. -/
structure Mirrored (p q : FlowPacket) : Prop where
  version : flowIpVer.get p.pktFlow = flowIpVer.get q.pktFlow
  src : flowSrc p.pktFlow = flowDst q.pktFlow
  dst : flowDst p.pktFlow = flowSrc q.pktFlow
  sport : flowTcpSrc.get p.pktFlow = flowTcpDst.get q.pktFlow
  dport : flowTcpDst.get p.pktFlow = flowTcpSrc.get q.pktFlow

/-- Mirrored packets of one protocol have one key, going out and coming in. -/
theorem Mirrored.flowPkt2key_eq (h : Mirrored p q) (hp : p.Classified) (hq : q.Classified)
    (hproto : flowIpProto.get p.pktFlow = flowIpProto.get q.pktFlow)
    (hver : flowIpVer.get p.pktFlow ≠ 0) :
    ∃ key, flowPkt2key p false = .ok key ∧ flowPkt2key q true = .ok key := by
  obtain ⟨key, hkey, hfields⟩ := flowPkt2key_hasFields hp hver false
  obtain ⟨key', hkey', hfields'⟩ := flowPkt2key_hasFields hq (h.version ▸ hver) true
  have hout : HasFields key 0 (flowIpVer.get p.pktFlow) (flowIpProto.get p.pktFlow)
    (flowTcpSrc.get p.pktFlow) (flowTcpDst.get p.pktFlow) (flowSrc p.pktFlow)
    (flowDst p.pktFlow) := hfields
  rw [h.version, h.src, h.dst, h.sport, h.dport, hproto] at hout
  exact ⟨key, hkey, hout.unique hfields' ▸ hkey'⟩

/-- The packet has the version, protocol, addresses and ports of the request. -/
structure CarriesTuple (req : NxFlowReq) (p : FlowPacket) : Prop where
  version : flowIpVer.get p.pktFlow = versionOf (saFamily.get req.nfrSaddr)
  proto : flowIpProto.get p.pktFlow = req.nfrIpProtocol
  src : flowSrc p.pktFlow = addressOf req.nfrSaddr
  dst : flowDst p.pktFlow = addressOf req.nfrDaddr
  sport : flowTcpSrc.get p.pktFlow = portOf req.nfrSaddr
  dport : flowTcpDst.get p.pktFlow = portOf req.nfrDaddr

/-- Mirrored packets of one protocol get the same result; it is a key unless the classifier
has left the version out, which the source asserts it has not. -/
theorem Mirrored.flowPkt2key_eq' (h : Mirrored p q) (hp : p.Classified) (hq : q.Classified)
    (hproto : flowIpProto.get p.pktFlow = flowIpProto.get q.pktFlow) :
    flowPkt2key p false = flowPkt2key q true ∧
      (flowIpVer.get p.pktFlow ≠ 0 → ∃ key, flowPkt2key p false = .ok key) := by
  by_cases hver : flowIpVer.get p.pktFlow = 0
  · refine ⟨?_, fun hne => absurd hver hne⟩
    unfold flowPkt2key
    rw [if_neg hp, if_pos hver, if_neg hq, if_pos (h.version ▸ hver)]
  · obtain ⟨key, hkey, hkey'⟩ := h.flowPkt2key_eq hp hq hproto hver
    exact ⟨hkey.trans hkey'.symm, fun _ => ⟨key, hkey⟩⟩

end Packets

section Agreement

variable (skSaHasAddr skSaHasPort : SockaddrIn46 → Bool)

/-- The key of an accepted request: its mask names what was supplied, what was not is zero,
and unpacking gives back what was. -/
structure RequestKey (req : NxFlowReq) (key : FlowKey) : Prop where
  mask : fkMask.get key = suppliedMask skSaHasAddr skSaHasPort req
  ipver : fkIpver.get key = versionOf (saFamily.get req.nfrSaddr)
  noSrc : skSaHasAddr req.nfrSaddr = false → fkSrc.get key = 0
  noDst : skSaHasAddr req.nfrDaddr = false → fkDst.get key = 0
  noSport : skSaHasPort req.nfrSaddr = false → fkSport.get key = 0
  noDport : skSaHasPort req.nfrDaddr = false → fkDport.get key = 0
  noPad : fkPad.get key = 0
  protocol : ∀ laddr faddr, (flowKeyUnpack key laddr faddr).2 = req.nfrIpProtocol
  families : ∀ laddr faddr,
    saFamily.get (flowKeyUnpack key laddr faddr).1.1 = saFamily.get req.nfrSaddr ∧
      saFamily.get (flowKeyUnpack key laddr faddr).1.2 = saFamily.get req.nfrDaddr
  src : skSaHasAddr req.nfrSaddr = true → ∀ laddr faddr,
    addressOf (flowKeyUnpack key laddr faddr).1.1 = addressOf req.nfrSaddr
  dst : skSaHasAddr req.nfrDaddr = true → ∀ laddr faddr,
    addressOf (flowKeyUnpack key laddr faddr).1.2 = addressOf req.nfrDaddr
  sport : skSaHasPort req.nfrSaddr = true → ∀ laddr faddr,
    portOf (flowKeyUnpack key laddr faddr).1.1 = portOf req.nfrSaddr
  dport : skSaHasPort req.nfrDaddr = true → ∀ laddr faddr,
    portOf (flowKeyUnpack key laddr faddr).1.2 = portOf req.nfrDaddr

/-- An IPv4 address comes back from the first four bytes of its sixteen. -/
theorem inet_bytes {x : BitVec 128} {a : SockaddrIn46} (hx : x = addressOf a) :
    (if saFamily.get a = afInet then (x.setWidth 32).setWidth 128 else x) = addressOf a := by
  subst hx
  by_cases hinet : saFamily.get a = afInet
  · have hback : ((sinAddr.get a).setWidth 128).setWidth 32 = sinAddr.get a := by
      rw [BitVec.setWidth_setWidth_of_le _ (by decide), BitVec.setWidth_eq]
    rw [addressOf, if_pos hinet, if_pos hinet, hback]
  · rw [if_neg hinet]

variable {skSaHasAddr skSaHasPort} {req : NxFlowReq} {p : FlowPacket}

/-- A key with these fields is the key of the request. -/
theorem requestKey_of_hasFields {key : FlowKey} (hip : req.IsIp)
    (hsame : saFamily.get req.nfrDaddr = saFamily.get req.nfrSaddr)
    (h : HasFields key (suppliedMask skSaHasAddr skSaHasPort req)
      (versionOf (saFamily.get req.nfrSaddr)) req.nfrIpProtocol
      (if skSaHasPort req.nfrSaddr then portOf req.nfrSaddr else 0)
      (if skSaHasPort req.nfrDaddr then portOf req.nfrDaddr else 0)
      (if skSaHasAddr req.nfrSaddr then addressOf req.nfrSaddr else 0)
      (if skSaHasAddr req.nfrDaddr then addressOf req.nfrDaddr else 0)) :
    RequestKey skSaHasAddr skSaHasPort req key := by
  have hunpack := flowKeyUnpack_spec hip h.ipver
  constructor
  case mask => exact h.mask
  case ipver => exact h.ipver
  case noSrc => intro hno; rw [h.src, hno]; rfl
  case noDst => intro hno; rw [h.dst, hno]; rfl
  case noSport => intro hno; rw [h.sport, hno]; rfl
  case noDport => intro hno; rw [h.dport, hno]; rfl
  case noPad => exact h.pad
  case protocol => intro laddr faddr; rw [(hunpack laddr faddr).1, h.proto]
  case families =>
    intro laddr faddr
    obtain ⟨-, hl, hf, -⟩ := hunpack laddr faddr
    exact ⟨hl, hf.trans hsame.symm⟩
  case src =>
    intro hhas laddr faddr
    obtain ⟨-, -, -, -, -, hl, -⟩ := hunpack laddr faddr
    rw [hl, Field.get_of_off_eq isFamily_inet.src_off (by decide)]
    exact inet_bytes (by rw [h.src, if_pos hhas])
  case dst =>
    intro hhas laddr faddr
    obtain ⟨-, -, -, -, -, -, hf⟩ := hunpack laddr faddr
    rw [hf, Field.get_of_off_eq isFamily_inet.dst_off (by decide), ← hsame]
    exact inet_bytes (by rw [h.dst, if_pos hhas])
  case sport =>
    intro hhas laddr faddr
    obtain ⟨-, -, -, hl, -⟩ := hunpack laddr faddr
    rw [hl, h.sport, if_pos hhas]
  case dport =>
    intro hhas laddr faddr
    obtain ⟨-, -, -, -, hf, -⟩ := hunpack laddr faddr
    rw [hf, h.dport, if_pos hhas]

/-- A fully specified request and an outgoing packet with its tuple have the same key but for
the mask. -/
theorem CarriesTuple.keys_agree (h : CarriesTuple req p) (hclass : p.Classified) (hip : req.IsIp)
    (hsame : saFamily.get req.nfrDaddr = saFamily.get req.nfrSaddr)
    (haddrs : skSaHasAddr req.nfrSaddr = true ∧ skSaHasAddr req.nfrDaddr = true)
    (hports : skSaHasPort req.nfrSaddr = true ∧ skSaHasPort req.nfrDaddr = true) :
    ∃ key key', flowReq2key skSaHasAddr skSaHasPort req = (0, key) ∧
      flowPkt2key p false = .ok key' ∧ fkMask.set 0 key = fkMask.set 0 key' := by
  obtain ⟨key, hkey, hfields⟩ := flowReq2key_hasFields skSaHasAddr skSaHasPort hip hsame
  have hver : flowIpVer.get p.pktFlow ≠ 0 := by
    rw [h.version, versionOf]
    split <;> decide
  obtain ⟨key', hkey', hfields'⟩ := flowPkt2key_hasFields hclass hver false
  have hfull : suppliedMask skSaHasAddr skSaHasPort req = fkmask5tuple := by
    rw [suppliedMask, if_pos haddrs.1, if_pos haddrs.2, if_pos hports.1, if_pos hports.2]
    decide
  have hpacket : HasFields key' 0 (flowIpVer.get p.pktFlow) (flowIpProto.get p.pktFlow)
    (flowTcpSrc.get p.pktFlow) (flowTcpDst.get p.pktFlow) (flowSrc p.pktFlow)
    (flowDst p.pktFlow) := hfields'
  rw [h.version, h.proto, h.sport, h.dport, h.src, h.dst] at hpacket
  rw [if_pos haddrs.1, if_pos haddrs.2, if_pos hports.1, if_pos hports.2] at hfields
  refine ⟨key, key', ?_, hkey', (hfields.setMask 0).unique (hpacket.setMask 0)⟩
  rw [hkey, checkMask, hfields.mask, hfull, if_pos (by decide)]

/-- Requests, keys and packets agree: what is accepted and what its key looks like, one key
for the two directions of a flow, and one for a request and its packets. -/
theorem flowKeys_agree (skSaHasAddr skSaHasPort : SockaddrIn46 → Bool) :
    (∀ req : NxFlowReq, saFamily.get req.nfrDaddr = saFamily.get req.nfrSaddr →
      ((flowReq2key skSaHasAddr skSaHasPort req).1 = 0 ↔
        req.IsIp ∧ suppliedMask skSaHasAddr skSaHasPort req ∈ supportedMasks) ∧
      ((flowReq2key skSaHasAddr skSaHasPort req).1 = 0 →
        RequestKey skSaHasAddr skSaHasPort req (flowReq2key skSaHasAddr skSaHasPort req).2)) ∧
    (∀ p q : FlowPacket, p.Classified → q.Classified → Mirrored p q →
      flowIpProto.get p.pktFlow = flowIpProto.get q.pktFlow →
      flowPkt2key p false = flowPkt2key q true ∧
        (flowIpVer.get p.pktFlow ≠ 0 → ∃ key, flowPkt2key p false = .ok key)) ∧
    (∀ (req : NxFlowReq) (p : FlowPacket), req.IsIp →
      saFamily.get req.nfrDaddr = saFamily.get req.nfrSaddr →
      skSaHasAddr req.nfrSaddr = true ∧ skSaHasAddr req.nfrDaddr = true →
      skSaHasPort req.nfrSaddr = true ∧ skSaHasPort req.nfrDaddr = true →
      p.Classified → CarriesTuple req p →
      ∃ key key', flowReq2key skSaHasAddr skSaHasPort req = (0, key) ∧
        flowPkt2key p false = .ok key' ∧ fkMask.set 0 key = fkMask.set 0 key') := by
  refine ⟨?_, ?_, ?_⟩
  · intro req hsame
    refine ⟨flowReq2key_eq_zero skSaHasAddr skSaHasPort hsame, fun hzero => ?_⟩
    obtain ⟨hip, hmask⟩ := (flowReq2key_eq_zero skSaHasAddr skSaHasPort hsame).mp hzero
    obtain ⟨key, hkey, hfields⟩ := flowReq2key_hasFields skSaHasAddr skSaHasPort hip hsame
    have hresult : (flowReq2key skSaHasAddr skSaHasPort req).2 = key := by
      rw [hkey, checkMask, hfields.mask, if_pos hmask]
    rw [hresult]
    exact requestKey_of_hasFields hip hsame hfields
  · intro p q hp hq hmirror hproto
    exact hmirror.flowPkt2key_eq' hp hq hproto
  · intro req p hip hsame haddrs hports hclass htuple
    exact htuple.keys_agree hclass hip hsame haddrs hports

/-- A classified IPv4 packet without addresses or ports. -/
def barePacket (proto : BitVec 8) : FlowPacket :=
  ⟨qumFFlowClassified, flowIpVer.set ipversion (flowIpProto.set proto 0)⟩

/-- A packet without addresses and ports passes the classification. -/
theorem barePacket_classified (proto : BitVec 8) : (barePacket proto).Classified := by
  change qumFFlowClassified &&& qumFFlowClassified ≠ 0
  decide

/-- Such packets mirror each other. -/
theorem barePacket_mirrored (proto proto' : BitVec 8) :
    Mirrored (barePacket proto) (barePacket proto') := by
  constructor <;> simp (disch := decide) only [barePacket, flowSrc, flowDst, Field.get_set_self,
    Field.get_set_of_disjoint, Field.get_zero, if_true]

section Connection

/-- An IPv4 address with a port. -/
def inetAddress (addr : BitVec 32) (port : BitVec 16) : SockaddrIn46 :=
  saFamily.set afInet (sinPort.set port (sinAddr.set addr 0))

/-- A classified IPv4 packet of TCP. -/
def tcpPacket (src dst : BitVec 32) (sport dport : BitVec 16) : FlowPacket :=
  ⟨qumFFlowClassified, flowIpVer.set ipversion (flowIpProto.set 6 (flowIpv4Src.set src
    (flowIpv4Dst.set dst (flowTcpSrc.set sport (flowTcpDst.set dport 0)))))⟩

/-- A packet and its reply mirror each other. -/
theorem tcpPacket_mirrored (src dst : BitVec 32) (sport dport : BitVec 16) :
    Mirrored (tcpPacket src dst sport dport) (tcpPacket dst src dport sport) := by
  constructor <;> simp (disch := decide) only [tcpPacket, flowSrc, flowDst, Field.get_set_self,
    Field.get_set_of_disjoint, if_true]

/-- A packet carries the addresses and ports that it was made with. -/
theorem tcpPacket_carriesTuple (src dst : BitVec 32) (sport dport : BitVec 16) :
    CarriesTuple ⟨inetAddress src sport, inetAddress dst dport, 6⟩
      (tcpPacket src dst sport dport) := by
  constructor <;> simp (disch := decide) only [tcpPacket, inetAddress, flowSrc, flowDst, addressOf,
    portOf, versionOf, Field.get_set_self, Field.get_set_of_disjoint, if_true]

/-- An address or a port that is zero was not supplied. -/
def hasAddr (a : SockaddrIn46) : Bool := addressOf a ≠ 0

/-- An address or a port that is zero was not supplied. -/
def hasPort (a : SockaddrIn46) : Bool := portOf a ≠ 0

/-- From 10.0.0.1, port 80, to 10.0.0.2, port 443, in network byte order. -/
def tcpRequest : NxFlowReq := ⟨inetAddress 0x0100000a 0x5000, inetAddress 0x0200000a 0xbb01, 6⟩

/-- A packet of the connection that is requested. -/
def tcpSent : FlowPacket := tcpPacket 0x0100000a 0x0200000a 0x5000 0xbb01

/-- A packet that answers it. -/
def tcpReceived : FlowPacket := tcpPacket 0x0200000a 0x0100000a 0xbb01 0x5000

/-- A full request, a packet with its tuple and the packet that answers it. -/
theorem flowKeys_agree_tcp :
    ∃ key key', flowReq2key hasAddr hasPort tcpRequest = (0, key) ∧
      RequestKey hasAddr hasPort tcpRequest key ∧ flowPkt2key tcpSent false = .ok key' ∧
      flowPkt2key tcpReceived true = .ok key' ∧ fkMask.set 0 key = fkMask.set 0 key' := by
  have hclass : tcpSent.Classified ∧ tcpReceived.Classified := by
    constructor <;> exact (by decide : qumFFlowClassified &&& qumFFlowClassified ≠ 0)
  have hfamily : saFamily.get tcpRequest.nfrDaddr = saFamily.get tcpRequest.nfrSaddr := by
    decide +kernel
  obtain ⟨hkey, hpkt, htuple⟩ := flowKeys_agree hasAddr hasPort
  obtain ⟨key, key', hreq, hout, hsame⟩ := htuple tcpRequest tcpSent (.inl (by decide +kernel))
    hfamily (by decide +kernel) (by decide +kernel) hclass.1 (tcpPacket_carriesTuple ..)
  have hrequest := (hkey tcpRequest hfamily).2 (by rw [hreq])
  rw [hreq] at hrequest
  have hanswer := (hpkt tcpSent tcpReceived hclass.1 hclass.2 (tcpPacket_mirrored ..)
    (by decide +kernel)).1
  exact ⟨key, key', hreq, hrequest, hout, hanswer.symm.trans hout, hsame⟩

end Connection

/-- Mirrored packets of TCP and of UDP have different keys. -/
theorem mirrored_protocols_differ :
    (barePacket 6).Classified ∧ (barePacket 17).Classified ∧
      Mirrored (barePacket 6) (barePacket 17) ∧
      flowPkt2key (barePacket 6) false ≠ flowPkt2key (barePacket 17) true := by
  refine ⟨barePacket_classified 6, barePacket_classified 17, barePacket_mirrored 6 17, ?_⟩
  have hkey : ∀ proto input, ∃ key, flowPkt2key (barePacket proto) input = .ok key ∧
      fkProto.get key = proto := by
    intro proto input
    have hver : flowIpVer.get (barePacket proto).pktFlow ≠ 0 := by
      rw [barePacket, Field.get_set_self]
      decide
    obtain ⟨key, hkey, hfields⟩ := flowPkt2key_hasFields (barePacket_classified proto) hver input
    refine ⟨key, hkey, ?_⟩
    rw [hfields.proto, barePacket, Field.get_set_of_disjoint (by decide), Field.get_set_self]
  obtain ⟨key, hout, hproto⟩ := hkey 6 false
  obtain ⟨key', hin, hproto'⟩ := hkey 17 true
  intro heq
  obtain rfl : key = key' := Except.ok.inj (hout.symm.trans (heq.trans hin))
  rw [hproto] at hproto'
  exact absurd hproto' (by decide)

end Agreement

end MacKernel.FlowSwitch
