import MacKernel.Models.Packet.Header
import MacKernel.Models.Packet.OptionRegisters

/-!
# Header metadata as registers

Over any interleaving of the setters the header metadata behave as independent
registers: eleven flags, a service class out of eleven with its traffic class, one
checksum for both directions, a UUID of sixteen bytes, two lengths and two numbers.
-/

namespace MacKernel.Packet

open Buflet

section Specification

/-- The flags that have a setter. -/
inductive HeaderFlag where
  | broadcast
  | multicast
  | ethfcs
  | background
  | realtime
  | retransmit
  | lastPacket
  | groupStart
  | groupEnd
  | wake
  | keepAlive
  deriving DecidableEq, Repr

/-- The service classes. -/
inductive ServiceClass where
  | be
  | bkSys
  | bk
  | rd
  | oam
  | av
  | rv
  | vi
  | sig
  | vo
  | ctl
  deriving DecidableEq, Repr

/-- `PKT_SC_*`. -/
def ServiceClass.code : ServiceClass → BitVec 32
  | .be => KernMeta.pktScBe
  | .bkSys => KernMeta.pktScBkSys
  | .bk => KernMeta.pktScBk
  | .rd => KernMeta.pktScRd
  | .oam => KernMeta.pktScOam
  | .av => KernMeta.pktScAv
  | .rv => KernMeta.pktScRv
  | .vi => KernMeta.pktScVi
  | .sig => KernMeta.pktScSig
  | .vo => KernMeta.pktScVo
  | .ctl => KernMeta.pktScCtl

/-- Every service class, in the order of the switch. -/
def ServiceClass.all : List ServiceClass :=
  [.be, .bkSys, .bk, .rd, .oam, .av, .rv, .vi, .sig, .vo, .ctl]

/-- The service class with a code. -/
def ServiceClass.ofCode? (code : BitVec 32) : Option ServiceClass :=
  ServiceClass.all.find? fun sc => sc.code = code

/-- The documented traffic class of a service class: best effort 0, background 1, video 2 and
voice 3. -/
def ServiceClass.trafficClass : ServiceClass → Nat
  | .bkSys | .bk => 1
  | .be | .rd | .oam => 0
  | .av | .rv | .vi | .sig => 2
  | .vo | .ctl => 3

/-- The service class that is set for a traffic class. -/
def ServiceClass.ofTrafficClass : Nat → ServiceClass
  | 1 => .bk
  | 2 => .vi
  | 3 => .vo
  | _ => .be

/-- The registers behind the header metadata. -/
@[ext]
structure HeaderRegs where
  /-- The data limit of the contained buflet, which no setter changes. -/
  dlim : BitVec 16
  headroom : BitVec 8
  l2Len : BitVec 8
  flags : HeaderFlag → Bool
  svcClass : ServiceClass
  compGencnt : BitVec 32
  traceId : BitVec 32
  /-- Flags, start and value of the checksum. -/
  csum : BitVec 32 × BitVec 16 × BitVec 16
  uuid : List UInt8

/-- A setter with its arguments, and for a UUID the memory that the pointer is into. -/
inductive HeaderCall where
  | setHeadroom (headroom : BitVec 8)
  | setLinkHeaderLength (len : BitVec 8)
  | setFlag (flag : HeaderFlag)
  | clearKeepAlive
  | setServiceClass (sc : BitVec 32)
  | setTrafficClass (tc : BitVec 32)
  | setCompGencnt (gencnt : BitVec 32)
  | setTraceId (id : BitVec 32)
  | setInetChecksum (flags : BitVec 32) (start stuffVal : BitVec 16) (tx : Bool)
  | setFlowUuid (byte : BitVec 64 → UInt8) (uuid : BitVec 64)
  | clearFlowUuid

/-- The registers as a specification of the setters. -/
def headerSpec : Spec HeaderRegs HeaderCall Errno where
  pre _ _ := True
  apply r
    | .setHeadroom headroom =>
      if headroom.toNat < r.dlim.toNat then { r with headroom := headroom } else r
    | .setLinkHeaderLength len =>
      if len.toNat ≤ r.dlim.toNat then { r with l2Len := len } else r
    | .setFlag flag => { r with flags := Function.update r.flags flag true }
    | .clearKeepAlive => { r with flags := Function.update r.flags .keepAlive false }
    | .setServiceClass sc => { r with svcClass := (ServiceClass.ofCode? sc).getD r.svcClass }
    | .setTrafficClass tc =>
      { r with svcClass := ServiceClass.ofTrafficClass (tc.toNat % 2 ^ 25) }
    | .setCompGencnt gencnt => { r with compGencnt := gencnt }
    | .setTraceId id => { r with traceId := id }
    | .setInetChecksum flags start stuffVal _ => { r with csum := (flags, start, stuffVal) }
    | .setFlowUuid byte uuid => { r with uuid := bytesAt byte uuid 16 }
    | .clearFlowUuid => { r with uuid := List.replicate 16 0 }
  result r
    | .setHeadroom headroom => if headroom.toNat < r.dlim.toNat then .success else .erange
    | .setLinkHeaderLength len => if len.toNat ≤ r.dlim.toNat then .success else .erange
    | .setServiceClass sc => if (ServiceClass.ofCode? sc).isSome then .success else .einval
    | _ => .success

end Specification

section Steps

namespace HeaderFlag

/-- The setter of a flag. -/
def set (s : KernMeta) : HeaderFlag → Except Fault KernMeta
  | .broadcast => s.packetSetLinkBroadcast
  | .multicast => s.packetSetLinkMulticast
  | .ethfcs => s.packetSetLinkEthfcs
  | .background => s.packetSetTransportTrafficBackground
  | .realtime => s.packetSetTransportTrafficRealtime
  | .retransmit => s.packetSetTransportRetransmit
  | .lastPacket => s.packetSetTransportLastPacket
  | .groupStart => s.packetSetGroupStart
  | .groupEnd => s.packetSetGroupEnd
  | .wake => s.packetSetWakeFlag
  | .keepAlive => s.packetSetKeepAlive true

/-- The getter of a flag. -/
def get (s : KernMeta) : HeaderFlag → Bool
  | .broadcast => s.packetGetLinkBroadcast
  | .multicast => s.packetGetLinkMulticast
  | .ethfcs => s.packetGetLinkEthfcs
  | .background => s.packetGetTransportTrafficBackground
  | .realtime => s.packetGetTransportTrafficRealtime
  | .retransmit => s.packetGetTransportRetransmit
  | .lastPacket => s.packetGetTransportLastPacket
  | .groupStart => s.packetGetGroupStart
  | .groupEnd => s.packetGetGroupEnd
  | .wake => s.packetGetWakeFlag
  | .keepAlive => s.packetGetKeepAlive

end HeaderFlag

/-- A setter that returns nothing or zero. -/
def succeeds (run : Except Fault KernMeta) : Except Fault (KernMeta × Errno) := do
  return (← run, .success)

/-- One call. -/
def headerStep (s : KernMeta) : HeaderCall → Except Fault (KernMeta × Errno)
  | .setHeadroom headroom => s.packetSetHeadroom headroom
  | .setLinkHeaderLength len => s.packetSetLinkHeaderLength len
  | .setFlag flag => succeeds (flag.set s)
  | .clearKeepAlive => succeeds (s.packetSetKeepAlive false)
  | .setServiceClass sc => return s.packetSetServiceClass sc
  | .setTrafficClass tc => return s.packetSetTrafficClass tc
  | .setCompGencnt gencnt => succeeds (s.packetSetCompGencnt gencnt)
  | .setTraceId id => succeeds (s.packetSetTraceId id)
  | .setInetChecksum flags start stuffVal tx =>
    succeeds (s.packetSetInetChecksum flags start stuffVal tx)
  | .setFlowUuid byte uuid => succeeds (s.packetSetFlowUuid (.flat byte) uuid)
  | .clearFlowUuid => return (s.packetClearFlowUuid, .success)

/-- What the metadata hold. -/
def headerRegs (s : KernMeta) : HeaderRegs where
  dlim := bufDlim.get (buflet s s.self)
  headroom := s.packetGetHeadroom
  l2Len := s.packetGetLinkHeaderLength
  flags := fun flag => flag.get s
  svcClass := (ServiceClass.ofCode? (qumSvcClass.get s.pkt.qum.com)).getD .be
  compGencnt := s.packetGetCompGencnt
  traceId := pktTraceId.get s.pkt.com
  csum := s.packetGetInetChecksum true
  uuid := (List.range 16).map (byteAt s.pkt.qum.com)

end Steps

section Flags

namespace HeaderFlag

/-- The word that a flag is in, and its mask. -/
def mask : HeaderFlag → BitVec 16 ⊕ BitVec 64
  | .broadcast => .inl pktLinkfBcast
  | .multicast => .inl pktLinkfMcast
  | .ethfcs => .inl pktLinkfEthfcs
  | .background => .inr pktFBackground
  | .realtime => .inr pktFRealtime
  | .retransmit => .inr pktFRexmt
  | .lastPacket => .inr pktFLastPkt
  | .groupStart => .inr pktFOptGroupStart
  | .groupEnd => .inr pktFOptGroupEnd
  | .wake => .inr pktFWakePkt
  | .keepAlive => .inr pktFKeepalive

variable {s s' : KernMeta} {flag other : HeaderFlag} {c d : BitVec 16} {c' d' : BitVec 64}

/-- A flag of the quantum is read there. -/
theorem get_inl (h : flag.mask = .inl c) : flag.get s = s.getLinkFlag c := by
  cases flag <;> cases h <;> rfl

/-- A flag of the packet is read there. -/
theorem get_inr (h : flag.mask = .inr c') : flag.get s = s.getFlag c' := by
  cases flag <;> cases h <;> rfl

/-- A flag of the quantum is set there. -/
theorem set_inl (h : flag.mask = .inl c) : flag.set s = s.setLinkFlag c := by
  cases flag <;> cases h <;> rfl

/-- A flag of the packet is set there. -/
theorem set_inr (h : flag.mask = .inr c') : flag.set s = s.setFlag c' := by
  cases flag <;> cases h <;> rfl

/-- No flag of the quantum is empty. -/
private theorem ne_zero_inl (h : flag.mask = .inl c) : c ≠ 0 := by
  cases flag <;> cases h <;> decide

/-- No flag of the packet is empty. -/
private theorem ne_zero_inr (h : flag.mask = .inr c') : c' ≠ 0 := by
  cases flag <;> cases h <;> decide

/-- The masks of a word share no bit. -/
private theorem disjoint_inl (h : flag.mask = .inl c) (hother : other.mask = .inl d)
    (hne : other ≠ flag) : c &&& d = 0 := by
  cases flag <;> cases h <;> cases other <;> cases hother <;> first | decide | exact absurd rfl hne

/-- Two flags of the packet have no bit in common. -/
private theorem disjoint_inr (h : flag.mask = .inr c') (hother : other.mask = .inr d')
    (hne : other ≠ flag) : c' &&& d' = 0 := by
  cases flag <;> cases h <;> cases other <;> cases hother <;> first | decide | exact absurd rfl hne

/-- A flag is read from the two words. -/
theorem get_of_words (hlink : pktLinkFlags.get s'.pkt.com = pktLinkFlags.get s.pkt.com)
    (hpflags : s'.pkt.pflags = s.pkt.pflags) (flag : HeaderFlag) : flag.get s' = flag.get s := by
  cases h : flag.mask with
  | inl c => rw [get_inl h, get_inl h, KernMeta.getLinkFlag, KernMeta.getLinkFlag, hlink]
  | inr c => rw [get_inr h, get_inr h, KernMeta.getFlag, KernMeta.getFlag, hpflags]

end HeaderFlag

end Flags

section Stores

variable (s : KernMeta)

/-- The buflet at the address of a quantum is the one inside it. -/
theorem buflet_contained : buflet s s.self = s.pkt.qum.buf.com := by
  have h : buflet s s.self = (s.kbuflet s.self).com := rfl
  rw [h, KernMeta.kbuflet, if_pos rfl]

/-- A store to the packet outside its flags. -/
theorem headerRegs_setCom {len : Nat} (f : Field 256 len) (v : BitVec len)
    (hlink : pktLinkFlags.Disjoint f) (hpflags : pktPflags.Disjoint f) :
    headerRegs (s.setCom f v) = { headerRegs s with
      headroom := pktHeadroom.get (f.set v s.pkt.com)
      l2Len := pktL2Len.get (f.set v s.pkt.com)
      compGencnt := pktCompGencnt.get (f.set v s.pkt.com)
      traceId := pktTraceId.get (f.set v s.pkt.com)
      csum := (pktCsumFlags.get (f.set v s.pkt.com), pktCsumTxStartOff.get (f.set v s.pkt.com),
        pktCsumTxStuffOff.get (f.set v s.pkt.com)) } := by
  have hflags : (headerRegs (s.setCom f v)).flags = (headerRegs s).flags := by
    funext flag
    apply HeaderFlag.get_of_words
    · rw [com_setCom, Field.get_set_of_disjoint hlink]
    · rw [KernPacket.pflags, com_setCom, Field.get_set_of_disjoint hpflags, KernPacket.pflags]
  apply HeaderRegs.ext
  case flags => exact hflags
  case dlim => simp only [headerRegs, buflet_contained, KernMeta.setCom]
  all_goals rfl

/-- A store to the quantum. -/
theorem headerRegs_setQum (com : BitVec 256) :
    headerRegs (s.setQum com) = { headerRegs s with
      svcClass := (ServiceClass.ofCode? (qumSvcClass.get com)).getD .be
      uuid := (List.range 16).map (byteAt com) } := by
  have hflags : (headerRegs (s.setQum com)).flags = (headerRegs s).flags := by
    funext flag
    apply HeaderFlag.get_of_words
    · rw [com_setQum]
    · rw [KernPacket.pflags, com_setQum, KernPacket.pflags]
  apply HeaderRegs.ext
  case flags => exact hflags
  case dlim => simp only [headerRegs, buflet_contained, KernMeta.setQum]
  all_goals rfl

/-- A store to the link flags. -/
theorem headerRegs_linkFlags (v : BitVec 16) :
    headerRegs (s.setCom pktLinkFlags v) = { headerRegs s with
      flags := fun flag => flag.get (s.setCom pktLinkFlags v) } := by
  apply HeaderRegs.ext
  case dlim => simp only [headerRegs, buflet_contained, KernMeta.setCom]
  case headroom => exact Field.get_set_of_disjoint (by decide) _ _
  case l2Len => exact Field.get_set_of_disjoint (by decide) _ _
  case compGencnt => exact Field.get_set_of_disjoint (by decide) _ _
  case traceId => exact Field.get_set_of_disjoint (by decide) _ _
  case csum =>
    simp (disch := decide) only [headerRegs, KernMeta.packetGetInetChecksum, com_setCom,
      Field.get_set_of_disjoint]
  all_goals rfl

/-- A store to the flags of the packet. -/
theorem headerRegs_pflags (v : BitVec 64) :
    headerRegs (s.setPflags v) = { headerRegs s with
      flags := fun flag => flag.get (s.setPflags v) } := by
  apply HeaderRegs.ext
  case dlim => simp only [headerRegs, buflet_contained, KernMeta.setPflags, KernPacket.setPflags]
  case headroom => exact Field.get_set_of_disjoint (by decide) _ _
  case l2Len => exact Field.get_set_of_disjoint (by decide) _ _
  case compGencnt => exact Field.get_set_of_disjoint (by decide) _ _
  case traceId => exact Field.get_set_of_disjoint (by decide) _ _
  case csum =>
    simp (disch := decide) only [headerRegs, KernMeta.packetGetInetChecksum, com_setPflags,
      Field.get_set_of_disjoint]
  all_goals rfl

end Stores

section Classes

namespace ServiceClass

/-- Every service class is found by its code. -/
@[simp] theorem ofCode?_code (sc : ServiceClass) : ofCode? sc.code = some sc := by
  cases sc <;> decide

/-- A class that was found has that code. -/
private theorem code_of_ofCode? {code : BitVec 32} {sc : ServiceClass}
    (h : ofCode? code = some sc) :
    sc.code = code := by
  have hp := List.find?_some h
  exact of_decide_eq_true hp

/-- The code of a class is in the table of the source. -/
private theorem code_mem (sc : ServiceClass) : sc.code ∈ KernMeta.serviceClasses := by
  cases sc <;> decide

/-- The table of the source has the codes of the classes and no others. -/
theorem ofCode?_isSome (code : BitVec 32) :
    (ofCode? code).isSome ↔ code ∈ KernMeta.serviceClasses := by
  have hlist : KernMeta.serviceClasses = all.map ServiceClass.code := rfl
  rw [ofCode?, List.find?_isSome, hlist, List.mem_map]
  simp only [decide_eq_true_eq]

/-- A code of the table fits the field that holds it. -/
theorem pktScval_lt {code : BitVec 32} (h : code ∈ KernMeta.serviceClasses) :
    (KernMeta.pktScval code).toNat < 512 := by
  obtain ⟨sc, hsc⟩ := Option.isSome_iff_exists.mp ((ofCode?_isSome code).mpr h)
  rw [← code_of_ofCode? hsc]
  cases sc <;> decide

/-- A value that is too large for every case selects the last. -/
theorem scOfScval_of_le {val : BitVec 32} (h : 512 ≤ val.toNat) :
    KernMeta.scOfScval val = ServiceClass.be.code := by
  have hne : ∀ sc : ServiceClass, val ≠ KernMeta.pktScval sc.code := by
    rintro sc rfl
    exact absurd (pktScval_lt sc.code_mem) (Nat.not_lt.mpr h)
  unfold KernMeta.scOfScval
  exact (if_neg (hne .bkSys)).trans ((if_neg (hne .bk)).trans ((if_neg (hne .be)).trans
    ((if_neg (hne .rd)).trans ((if_neg (hne .oam)).trans ((if_neg (hne .av)).trans
    ((if_neg (hne .rv)).trans ((if_neg (hne .vi)).trans ((if_neg (hne .sig)).trans
    ((if_neg (hne .vo)).trans (if_neg (hne .ctl)))))))))))

/-- The service class that the switch selects for a multiple of 128. -/
theorem scOfScval_mul {n : Nat} (hn : n < 2 ^ 25) :
    KernMeta.scOfScval (BitVec.ofNat 32 (128 * n)) = (ofTrafficClass n).code := by
  by_cases hlarge : 4 ≤ n
  · have hother : ofTrafficClass n = .be := by
      obtain ⟨k, rfl⟩ := Nat.exists_eq_add_of_le' hlarge
      rfl
    rw [hother, scOfScval_of_le]
    rw [BitVec.toNat_ofNat]
    omega
  · have hsmall : n = 0 ∨ n = 1 ∨ n = 2 ∨ n = 3 := by omega
    rcases hsmall with rfl | rfl | rfl | rfl <;> rfl

/-- The upper seven bits of a traffic class are shifted out. -/
theorem scOfScval_tc (tc : BitVec 32) :
    KernMeta.scOfScval (KernMeta.pktTc2Scval tc) = (ofTrafficClass (tc.toNat % 2 ^ 25)).code := by
  have hval : KernMeta.pktTc2Scval tc = BitVec.ofNat 32 (128 * (tc.toNat % 2 ^ 25)) := by
    apply BitVec.eq_of_toNat_eq
    rw [KernMeta.pktTc2Scval, BitVec.toNat_shiftLeft, BitVec.toNat_ofNat, Nat.shiftLeft_eq]
    omega
  rw [hval, scOfScval_mul (Nat.mod_lt _ (by decide))]

/-- The traffic class is what the class says. -/
theorem pktSc2Tc_code (sc : ServiceClass) :
    (KernMeta.pktSc2Tc sc.code).toNat = sc.trafficClass := by
  cases sc <;> rfl

end ServiceClass

/-- A service class that is stored. -/
theorem headerRegs_svcClass (s : KernMeta) (sc : ServiceClass) :
    headerRegs (s.setQum (qumSvcClass.set sc.code s.pkt.qum.com)) =
      { headerRegs s with svcClass := sc } := by
  have huuid : (List.range 16).map (byteAt (qumSvcClass.set sc.code s.pkt.qum.com)) =
      (List.range 16).map (byteAt s.pkt.qum.com) := by
    apply List.map_congr_left
    intro i hi
    have hi : i < 16 := List.mem_range.mp hi
    exact byteAt_set (.inl (by change 8 * i + 8 ≤ 160; omega)) _ _
  rw [headerRegs_setQum, Field.get_set_self, ServiceClass.ofCode?_code, huuid]
  rfl

end Classes

section Uuid

variable {byte : BitVec 64 → UInt8} {a : BitVec 64}

/-- Bytes are read in two pieces. -/
theorem bytesAt_add (n k : Nat) :
    bytesAt byte a (n + k) = bytesAt byte a n ++ bytesAt byte (a + BitVec.ofNat 64 n) k := by
  rw [bytesAt, List.range_add, List.map_append, List.map_map]
  congr 1
  apply List.map_congr_left
  intro i _
  rw [Function.comp_apply, BitVec.ofNat_add, ← BitVec.add_assoc]

/-- Words of every width copy the same bytes. -/
theorem copyUuid_flat (width k : Nat) (com : BitVec 256) :
    KernMeta.copyUuid (.flat byte) a width k com =
      .ok (putBytes 0 (bytesAt byte a (width * k)) com) := by
  induction k with
  | zero => rfl
  | succ k ih =>
    have hread : (Memory.flat byte).readBytes width (a + BitVec.ofNat 64 (width * k)) =
        .ok (bytesAt byte (a + BitVec.ofNat 64 (width * k)) width) :=
      Memory.readBytes_eq_ok.mpr ⟨length_bytesAt _ _ _, holds_bytesAt _ _ _⟩
    rw [KernMeta.copyUuid, ih, ok_bind, hread, ok_bind, Nat.mul_succ, bytesAt_add, putBytes_append,
      length_bytesAt, Nat.zero_add]
    rfl

/-- Whether the bytes are aligned or not, all 16 are stored. -/
theorem packetSetFlowUuid_flat (s : KernMeta) :
    s.packetSetFlowUuid (.flat byte) a =
      .ok (s.setQum (putBytes 0 (bytesAt byte a 16) s.pkt.qum.com)) := by
  rw [KernMeta.packetSetFlowUuid]
  split
  · rw [copyUuid_flat, ok_bind]
    rfl
  · split
    · rw [copyUuid_flat, ok_bind]
      rfl
    · rw [copyUuid_flat, ok_bind]
      rfl

/-- Sixteen bytes that are stored over the UUID. -/
theorem headerRegs_putUuid (s : KernMeta) {bytes : List UInt8} (h : bytes.length = 16) :
    headerRegs (s.setQum (putBytes 0 bytes s.pkt.qum.com)) =
      { headerRegs s with uuid := bytes } := by
  have hsvc : qumSvcClass.get (putBytes 0 bytes s.pkt.qum.com) = qumSvcClass.get s.pkt.qum.com :=
    Field.get_putBytes (.inr (by rw [h]; decide)) (by rw [h]; decide) _
  have huuid : (List.range 16).map (byteAt (putBytes 0 bytes s.pkt.qum.com)) = bytes := by
    apply List.ext_getElem
    · rw [List.length_map, List.length_range, h]
    · intro i _ hi
      rw [List.getElem_map, List.getElem_range, byteAt_putBytes (by rw [h]; decide),
        if_pos (Nat.zero_le i), Nat.sub_zero, List.getElem?_eq_getElem hi]
      rfl
  rw [headerRegs_setQum, hsvc, huuid]
  rfl

/-- Clearing the identifier stores 16 zeros. -/
theorem packetClearFlowUuid_eq (s : KernMeta) :
    s.packetClearFlowUuid = s.setQum (putBytes 0 (List.replicate 16 0) s.pkt.qum.com) := by
  have hsplit : List.replicate 16 (0 : UInt8) = List.replicate 8 0 ++ List.replicate 8 0 := rfl
  rw [hsplit, putBytes_append]
  rfl

/-- Words of every width store the same bytes. -/
theorem uuidWords_eq (s : KernMeta) (width count : Nat) :
    s.uuidWords width count = (List.range (width * count)).map (byteAt s.pkt.qum.com) := by
  unfold KernMeta.uuidWords
  induction count with
  | zero => rfl
  | succ count ih =>
    rw [List.range_succ, List.flatMap_append, ih, Nat.mul_succ, List.range_add, List.map_append,
      List.flatMap_singleton, List.map_map]
    rfl

/-- The identifier is read as it stands in the registers. -/
theorem packetGetFlowUuid_eq (s : KernMeta) (a : BitVec 64) :
    s.packetGetFlowUuid a = (headerRegs s).uuid := by
  rw [KernMeta.packetGetFlowUuid]
  split
  · exact uuidWords_eq s 8 2
  · split
    · exact uuidWords_eq s 4 4
    · exact uuidWords_eq s 16 1

end Uuid

section Calls

variable {s : KernMeta}

/-- A link flag that is set. -/
theorem headerRegs_setLinkFlag {flag : HeaderFlag} {c : BitVec 16} (h : flag.mask = .inl c) :
    headerRegs (s.setCom pktLinkFlags (pktLinkFlags.get s.pkt.com ||| c)) =
      { headerRegs s with flags := Function.update (headerRegs s).flags flag true } := by
  rw [headerRegs_linkFlags]
  refine HeaderRegs.ext rfl rfl rfl (funext fun other => ?_) rfl rfl rfl rfl rfl
  dsimp only
  rw [Function.update_apply]
  cases hother : other.mask with
  | inl d =>
    rw [HeaderFlag.get_inl hother, KernMeta.getLinkFlag, com_setCom, Field.get_set_self]
    split
    · next heq =>
      subst heq
      obtain rfl : d = c := Sum.inl.inj (hother.symm.trans h)
      rw [or_flag_and_self]
      exact decide_eq_true (HeaderFlag.ne_zero_inl h)
    · next hne =>
      rw [or_flag_and_of_disjoint (HeaderFlag.disjoint_inl h hother hne)]
      exact (HeaderFlag.get_inl hother).symm
  | inr d =>
    have hne : other ≠ flag := by
      rintro rfl
      cases hother.symm.trans h
    rw [if_neg hne, HeaderFlag.get_inr hother, KernMeta.getFlag, KernPacket.pflags, com_setCom,
      Field.get_set_of_disjoint (by decide)]
    exact (HeaderFlag.get_inr hother).symm

/-- What a store to the flags of the packet shows, when it writes one flag. -/
theorem headerRegs_setFlag {flag : HeaderFlag} {c : BitVec 64} (h : flag.mask = .inr c)
    {v : BitVec 64} {b : Bool} (hself : v &&& c ≠ 0 ↔ b = true)
    (hrest : ∀ d, c &&& d = 0 → v &&& d = s.pkt.pflags &&& d) :
    headerRegs (s.setPflags v) =
      { headerRegs s with flags := Function.update (headerRegs s).flags flag b } := by
  rw [headerRegs_pflags]
  refine HeaderRegs.ext rfl rfl rfl (funext fun other => ?_) rfl rfl rfl rfl rfl
  dsimp only
  rw [Function.update_apply]
  cases hother : other.mask with
  | inr d =>
    rw [HeaderFlag.get_inr hother, KernMeta.getFlag, KernPacket.pflags, com_setPflags,
      Field.get_set_self]
    split
    · next heq =>
      subst heq
      obtain rfl : d = c := Sum.inr.inj (hother.symm.trans h)
      exact Bool.eq_iff_iff.mpr (decide_eq_true_iff.trans hself)
    · next hne =>
      rw [hrest d (HeaderFlag.disjoint_inr h hother hne)]
      exact (HeaderFlag.get_inr hother).symm
  | inl d =>
    have hne : other ≠ flag := by
      rintro rfl
      cases hother.symm.trans h
    rw [if_neg hne, HeaderFlag.get_inl hother, KernMeta.getLinkFlag, com_setPflags,
      Field.get_set_of_disjoint (by decide)]
    exact (HeaderFlag.get_inl hother).symm

/-- A raw packet. -/
structure RawPacket (s : KernMeta) : Prop where
  type : s.type = .packet
  subtype : s.subtype = .raw

/-- A setter that returned, with the registers it wrote. -/
def Wrote (run : Except Fault (KernMeta × Errno)) (r : HeaderRegs) (err : Errno) : Prop :=
  ∃ s', run = .ok (s', err) ∧ RawPacket s' ∧ headerRegs s' = r

/-- Setting a flag changes its register and no other. -/
theorem wrote_setFlag (hs : RawPacket s) (flag : HeaderFlag) :
    Wrote (succeeds (flag.set s))
      { headerRegs s with flags := Function.update (headerRegs s).flags flag true } .success := by
  cases h : flag.mask with
  | inl c =>
    rw [HeaderFlag.set_inl h, KernMeta.setLinkFlag, kassert_of ⟨hs.type, hs.subtype⟩]
    exact ⟨_, rfl, ⟨hs.type, hs.subtype⟩, headerRegs_setLinkFlag h⟩
  | inr c =>
    have hself : (s.pkt.pflags ||| c) &&& c ≠ 0 ↔ true = true := by
      rw [or_flag_and_self]
      exact iff_of_true (HeaderFlag.ne_zero_inr h) rfl
    rw [HeaderFlag.set_inr h, KernMeta.setFlag, kassert_of hs.type]
    exact ⟨_, rfl, ⟨hs.type, hs.subtype⟩,
      headerRegs_setFlag h hself fun _ => or_flag_and_of_disjoint⟩

/-- Clearing the keep-alive flag changes its register and no other. -/
theorem wrote_clearKeepAlive (hs : RawPacket s) :
    Wrote (succeeds (s.packetSetKeepAlive false))
      { headerRegs s with flags := Function.update (headerRegs s).flags .keepAlive false }
      .success := by
  have hself : (s.pkt.pflags &&& ~~~pktFKeepalive) &&& pktFKeepalive ≠ 0 ↔ false = true := by
    rw [clear_flag_and_self]
    exact iff_of_false (fun h => h rfl) Bool.false_ne_true
  rw [KernMeta.packetSetKeepAlive, kassert_of hs.type]
  exact ⟨_, rfl, ⟨hs.type, hs.subtype⟩,
    @headerRegs_setFlag s .keepAlive _ rfl _ _ hself fun _ => clear_flag_and_of_disjoint⟩

/-- The headroom is stored if it is in range. -/
theorem wrote_setHeadroom (hs : RawPacket s) (headroom : BitVec 8) :
    Wrote (s.packetSetHeadroom headroom)
      (headerSpec.apply (headerRegs s) (.setHeadroom headroom))
      (headerSpec.result (headerRegs s) (.setHeadroom headroom)) := by
  have hlt : headroom.setWidth 16 < bufDlim.get (buflet s s.self) ↔
      headroom.toNat < (headerRegs s).dlim.toNat := by
    rw [BitVec.lt_def, BitVec.toNat_setWidth_of_le (by decide)]
    rfl
  rw [KernMeta.packetSetHeadroom, kassert_of ⟨hs.type, hs.subtype⟩, ok_bind]
  simp only [headerSpec]
  by_cases h : headroom.toNat < (headerRegs s).dlim.toNat
  · rw [if_pos h, if_pos h, if_pos (hlt.mpr h)]
    refine ⟨_, rfl, ⟨hs.type, hs.subtype⟩, ?_⟩
    rw [headerRegs_setCom _ _ _ (by decide) (by decide)]
    simp (disch := decide) only [Field.get_set_of_disjoint, Field.get_set_self]
    rfl
  · rw [if_neg h, if_neg h, if_neg (mt hlt.mp h)]
    exact ⟨_, rfl, hs, rfl⟩

/-- The link header length is stored if it is in range. -/
theorem wrote_setLinkHeaderLength (hs : RawPacket s) (len : BitVec 8) :
    Wrote (s.packetSetLinkHeaderLength len)
      (headerSpec.apply (headerRegs s) (.setLinkHeaderLength len))
      (headerSpec.result (headerRegs s) (.setLinkHeaderLength len)) := by
  have hle : len.setWidth 16 ≤ bufDlim.get (buflet s s.self) ↔
      len.toNat ≤ (headerRegs s).dlim.toNat := by
    rw [BitVec.le_def, BitVec.toNat_setWidth_of_le (by decide)]
    rfl
  rw [KernMeta.packetSetLinkHeaderLength, kassert_of hs.type, ok_bind]
  simp only [headerSpec]
  by_cases h : len.toNat ≤ (headerRegs s).dlim.toNat
  · rw [if_pos h, if_pos h, if_pos (hle.mpr h)]
    refine ⟨_, rfl, ⟨hs.type, hs.subtype⟩, ?_⟩
    rw [headerRegs_setCom _ _ _ (by decide) (by decide)]
    simp (disch := decide) only [Field.get_set_of_disjoint, Field.get_set_self]
    rfl
  · rw [if_neg h, if_neg h, if_neg (mt hle.mp h)]
    exact ⟨_, rfl, hs, rfl⟩

/-- A code that is no service class stores nothing. -/
theorem wrote_setServiceClass (hs : RawPacket s) (sc : BitVec 32) :
    Wrote (.ok (s.packetSetServiceClass sc))
      { headerRegs s with svcClass := (ServiceClass.ofCode? sc).getD (headerRegs s).svcClass }
      (if (ServiceClass.ofCode? sc).isSome then .success else .einval) := by
  rw [KernMeta.packetSetServiceClass]
  cases h : ServiceClass.ofCode? sc with
  | some k =>
    obtain rfl := ServiceClass.code_of_ofCode? h
    rw [if_pos k.code_mem]
    exact ⟨_, rfl, ⟨hs.type, hs.subtype⟩, headerRegs_svcClass s k⟩
  | none =>
    have hnot : sc ∉ KernMeta.serviceClasses := by
      rw [← ServiceClass.ofCode?_isSome, h]
      exact Bool.false_ne_true
    rw [if_neg hnot]
    exact ⟨_, rfl, hs, rfl⟩

/-- The checksum fields are stored together. -/
theorem wrote_setInetChecksum (hs : RawPacket s) (flags : BitVec 32) (start stuffVal : BitVec 16)
    (tx : Bool) :
    Wrote (succeeds (s.packetSetInetChecksum flags start stuffVal tx))
      { headerRegs s with csum := (flags, start, stuffVal) } .success := by
  have hstart : pktCsumRxStartOff = pktCsumTxStartOff := rfl
  have hvalue : pktCsumRxValue = pktCsumTxStuffOff := rfl
  rw [KernMeta.packetSetInetChecksum, kassert_of hs.type, hstart, hvalue, ok_bind]
  cases tx <;>
  · refine ⟨_, rfl, ⟨hs.type, hs.subtype⟩, ?_⟩
    rw [headerRegs_setCom _ _ _ (by decide) (by decide),
      headerRegs_setCom _ _ _ (by decide) (by decide),
      headerRegs_setCom _ _ _ (by decide) (by decide)]
    simp (disch := decide) only [com_setCom, Field.get_set_of_disjoint, Field.get_set_self]
    rfl

/-- A call of a setter does what the registers do. -/
theorem headerStep_wrote (hs : RawPacket s) (call : HeaderCall) :
    Wrote (headerStep s call) (headerSpec.apply (headerRegs s) call)
      (headerSpec.result (headerRegs s) call) := by
  cases call with
  | setHeadroom headroom => exact wrote_setHeadroom hs headroom
  | setLinkHeaderLength len => exact wrote_setLinkHeaderLength hs len
  | setFlag flag => exact wrote_setFlag hs flag
  | clearKeepAlive => exact wrote_clearKeepAlive hs
  | setServiceClass sc => exact wrote_setServiceClass hs sc
  | setTrafficClass tc =>
    have h := wrote_setServiceClass hs (ServiceClass.ofTrafficClass (tc.toNat % 2 ^ 25)).code
    rw [ServiceClass.ofCode?_code, ← ServiceClass.scOfScval_tc] at h
    exact h
  | setCompGencnt gencnt =>
    rw [headerStep, KernMeta.packetSetCompGencnt, kassert_of hs.type]
    refine ⟨_, rfl, ⟨hs.type, hs.subtype⟩, ?_⟩
    rw [headerRegs_setCom _ _ _ (by decide) (by decide)]
    simp (disch := decide) only [Field.get_set_of_disjoint, Field.get_set_self]
    rfl
  | setTraceId id =>
    rw [headerStep, KernMeta.packetSetTraceId, kassert_of hs.type]
    refine ⟨_, rfl, ⟨hs.type, hs.subtype⟩, ?_⟩
    rw [headerRegs_setCom _ _ _ (by decide) (by decide)]
    simp (disch := decide) only [Field.get_set_of_disjoint, Field.get_set_self]
    rfl
  | setInetChecksum flags start stuffVal tx =>
    exact wrote_setInetChecksum hs flags start stuffVal tx
  | setFlowUuid byte uuid =>
    rw [headerStep, packetSetFlowUuid_flat]
    exact ⟨_, rfl, ⟨hs.type, hs.subtype⟩, headerRegs_putUuid s (length_bytesAt byte uuid 16)⟩
  | clearFlowUuid =>
    rw [headerStep, packetClearFlowUuid_eq]
    exact ⟨_, rfl, ⟨hs.type, hs.subtype⟩, headerRegs_putUuid s List.length_replicate⟩

end Calls

section Runs

/-- The getters return what the registers hold. -/
structure HeaderReads (s : KernMeta) (r : HeaderRegs) : Prop where
  headroom : s.packetGetHeadroom = r.headroom
  linkHeaderLength : s.packetGetLinkHeaderLength = r.l2Len
  flags : ∀ flag : HeaderFlag, flag.get s = r.flags flag
  serviceClass : s.packetGetServiceClass = r.svcClass.code
  trafficClass : s.packetGetTrafficClass.toNat = r.svcClass.trafficClass
  compGencnt : s.packetGetCompGencnt = r.compGencnt
  traceId : s.packetGetTraceId = r.traceId
  /-- In both directions the same checksum is read. -/
  inetChecksum : ∀ tx, s.packetGetInetChecksum tx = r.csum
  /-- Wherever the UUID is stored to, the same bytes are. -/
  flowUuid : ∀ uuid, s.packetGetFlowUuid uuid = r.uuid

/-- The service class is read as it stands in the registers. -/
theorem packetGetServiceClass_eq (s : KernMeta) :
    s.packetGetServiceClass = (headerRegs s).svcClass.code := by
  rw [KernMeta.packetGetServiceClass, headerRegs]
  cases h : ServiceClass.ofCode? (qumSvcClass.get s.pkt.qum.com) with
  | some k =>
    rw [← ServiceClass.code_of_ofCode? h, if_pos k.code_mem]
    rfl
  | none =>
    have hnot : qumSvcClass.get s.pkt.qum.com ∉ KernMeta.serviceClasses := by
      rw [← ServiceClass.ofCode?_isSome, h]
      exact Bool.false_ne_true
    rw [if_neg hnot]
    rfl

/-- Every getter returns what the registers hold. -/
theorem RawPacket.headerReads {s : KernMeta} (hs : RawPacket s) :
    HeaderReads s (headerRegs s) := by
  constructor
  case headroom => rfl
  case linkHeaderLength => rfl
  case flags => exact fun _ => rfl
  case serviceClass => exact packetGetServiceClass_eq s
  case trafficClass =>
    rw [KernMeta.packetGetTrafficClass, packetGetServiceClass_eq, ServiceClass.pktSc2Tc_code]
  case compGencnt => rfl
  case traceId =>
    rw [KernMeta.packetGetTraceId, hs.type]
    rfl
  case inetChecksum =>
    intro tx
    cases tx <;> rfl
  case flowUuid => exact packetGetFlowUuid_eq s

/-- Over every run of setters a raw packet returns the errors of the registers, and after it the
getters return what the registers then hold. -/
theorem header_registers_of_exec {s : KernMeta} (htype : s.type = .packet)
    (hraw : s.subtype = .raw) (calls : List HeaderCall) :
    ∃ s', execAll headerStep s calls = .ok (s', headerSpec.results (headerRegs s) calls) ∧
      HeaderReads s' (headerSpec.applyAll (headerRegs s) calls) := by
  have hadm : headerSpec.Admissible (headerRegs s) calls :=
    headerSpec.admissible_of_forall (fun _ _ _ => trivial) _
  obtain ⟨s', hrun, hs', hregs⟩ := execAll_refines headerSpec
    (fun s r => RawPacket s ∧ headerRegs s = r)
    (fun {s r call} ⟨hs, hr⟩ _ => hr ▸ headerStep_wrote hs call)
    (⟨⟨htype, hraw⟩, rfl⟩ : RawPacket s ∧ headerRegs s = headerRegs s) hadm
  refine ⟨s', hrun, ?_⟩
  rw [← hregs]
  exact hs'.headerReads

/-- A traffic class, a flag that is set and cleared, and a class that there is not. -/
theorem header_registers_refused : ∃ s',
    execAll headerStep oneBuflet
        [.setTrafficClass 3, .setFlag .keepAlive, .setServiceClass 7, .setFlag .broadcast,
          .clearKeepAlive] =
      .ok (s', [.success, .success, .einval, .success, .success]) ∧
    s'.packetGetServiceClass = KernMeta.pktScVo ∧ s'.packetGetTrafficClass.toNat = 3 ∧
    s'.packetGetLinkBroadcast = true ∧ s'.packetGetKeepAlive = false := by
  obtain ⟨s', hrun, hreads⟩ := header_registers_of_exec (s := oneBuflet) rfl rfl
    [.setTrafficClass 3, .setFlag .keepAlive, .setServiceClass 7, .setFlag .broadcast,
      .clearKeepAlive]
  exact ⟨s', hrun, hreads.serviceClass, hreads.trafficClass, hreads.flags .broadcast,
    hreads.flags .keepAlive⟩

end Runs

end MacKernel.Packet
