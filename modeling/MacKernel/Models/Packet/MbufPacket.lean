import MacKernel.Models.Packet.BufletBounds

/-!
# Kernel packets with an attached mbuf

A packet may convey an mbuf instead of the data of its buflet. It is finalized from the
moment the mbuf is attached, and `__packet_finalize_with_mbuf` finalizes it again after
some of the data were copied to the buflet. What is read of an mbuf is a parameter.
-/

namespace MacKernel.Packet

open Buflet

section Native

/-- What is read of mbufs. -/
structure Mbufs where
  /-- `m_pktlen`. -/
  pktlen : BitVec 64 → BitVec 32
  /-- `m_nextpkt`. -/
  nextpkt : BitVec 64 → BitVec 64

/-- Address zero is `NULL`. -/
def pointer (a : BitVec 64) : Option (BitVec 64) := if a = 0 then none else some a

/-- Assign to `pkt_pflags`. -/
def KernMeta.setPflags (s : KernMeta) (pflags : BitVec 64) : KernMeta :=
  { s with pkt := s.pkt.setPflags pflags }

/-- Assign to `pkt_mbuf`. -/
def KernMeta.setMbuf (s : KernMeta) (mbuf : BitVec 64) : KernMeta :=
  { s with pkt := { s.pkt with mbuf := mbuf } }

/-- Assign to a field of the packet. -/
def KernMeta.setCom {len : Nat} (s : KernMeta) (f : Field 256 len) (v : BitVec len) : KernMeta :=
  { s with pkt := { s.pkt with com := f.set v s.pkt.com } }

/-- Assign to a field of the contained buflet. -/
def KernMeta.setSelf {len : Nat} (s : KernMeta) (f : Field 288 len) (v : BitVec len) : KernMeta :=
  setBuflet s.self (f.set v (buflet s s.self)) s

/-- `__packet_set_headroom`. -/
def KernMeta.packetSetHeadroom (s : KernMeta) (headroom : BitVec 8) :
    Except Fault (KernMeta × Errno) := do
  kassert (s.type = .packet ∧ s.subtype = .raw)
  if headroom.setWidth 16 < bufDlim.get (buflet s s.self) then
    return (s.setCom pktHeadroom headroom, .success)
  else return (s, .erange)

/-- `__packet_set_link_header_length`. -/
def KernMeta.packetSetLinkHeaderLength (s : KernMeta) (len : BitVec 8) :
    Except Fault (KernMeta × Errno) := do
  kassert (s.type = .packet)
  if len.setWidth 16 ≤ bufDlim.get (buflet s s.self) then
    return (s.setCom pktL2Len len, .success)
  else return (s, .erange)

variable (mb : Mbufs)

/-- The stores of `__packet_initialize_with_mbufchain`, with the length of the mbuf. -/
def KernMeta.attachMbuf (s : KernMeta) (mbuf : BitVec 64) (headroom l2len : BitVec 8)
    (length : BitVec 32) : KernMeta :=
  let s := s.setQum (finalizeClear s.pkt.qum.com)
  let s := s.setMbuf mbuf
  let s := s.setPflags (s.pkt.pflags ||| (pktFMbufData ||| pktFTruncated))
  let s := s.setCom pktHeadroom headroom
  let s := s.setCom pktL2Len l2len
  let s := s.setQum (qumLen.set length s.pkt.qum.com)
  let s := s.setSelf bufDlen 0
  let s := s.setSelf bufDoff 0
  s.setQum (qumQflags.set (qumQflags.get s.pkt.qum.com ||| qumFFinalized) s.pkt.qum.com)

/-- `__packet_initialize_with_mbufchain`. -/
def KernMeta.packetInitializeWithMbufchain (s : KernMeta) (mbuf : BitVec 64)
    (headroom l2len : BitVec 8) : Except Fault KernMeta := do
  kassert (s.type = .packet)
  kassert (qumQflags.get s.pkt.qum.com &&& qumFInternalized ≠ 0)
  kassert (s.pkt.pflags &&& pktFMbufMask = 0)
  kassert (s.pkt.pflags &&& pktFPktData = 0)
  kassert (s.pkt.mbuf = 0)
  let m ← deref (pointer mbuf)
  return s.attachMbuf mbuf headroom l2len (mb.pktlen m)

/-- `__packet_initialize_with_mbuf`. -/
def KernMeta.packetInitializeWithMbuf (s : KernMeta) (mbuf : BitVec 64)
    (headroom l2len : BitVec 8) : Except Fault KernMeta := do
  let s ← s.packetInitializeWithMbufchain mb mbuf headroom l2len
  kassert (mb.nextpkt mbuf = 0)
  return s

/-- The checks of `__packet_finalize_with_mbuf`, which stops at the first that fails. -/
def KernMeta.mbufChecks (s : KernMeta) (buf : BitVec 64) : Except Fault Errno := do
  let bdlim := bufDlim.get (buflet s buf)
  let bdoff := bufDoff.get (buflet s buf)
  if ← s.bufInRange buf then
    let err ← s.finalizeHeaders (.ok (bdoff.setWidth 32)) (.ok (bdlim.setWidth 32))
    if err ≠ .success then return err else finalizeOptions s.pkt.pflags s.optAt
  else return .erange

/-- The flags that `__packet_finalize_with_mbuf` starts from. -/
def KernMeta.mbufClear (s : KernMeta) : KernMeta :=
  let s := s.setQum (finalizeClear s.pkt.qum.com)
  s.setPflags (s.pkt.pflags &&& ~~~pktFTruncated)

/-- The stores at `done`. -/
def KernMeta.mbufDone (s : KernMeta) (bdlen : BitVec 16) (err : Errno) : KernMeta :=
  let length := mb.pktlen s.pkt.mbuf
  let s := if err = .success ∧ bdlen.setWidth 32 < length then
      s.setPflags (s.pkt.pflags ||| pktFTruncated)
    else s
  s.setQum (finalizeDone err length s.pkt.qum.com)

/-- `__packet_finalize_with_mbuf`. -/
def KernMeta.packetFinalizeWithMbuf (s : KernMeta) : Except Fault (KernMeta × Errno) := do
  kassert (s.type = .packet)
  kassert (s.pkt.pflags &&& (pktFMbufData ||| pktFPktData) = pktFMbufData)
  kassert (s.pkt.mbuf ≠ 0)
  kassert (qumQflags.get s.pkt.qum.com &&& qumFInternalized ≠ 0)
  kassert (s.pkt.bufsCnt = 1)
  let buf ← deref (pointer (pktGetFirstBuflet s (s.pkt.bufsCnt.setWidth 32)))
  kassert (bufAddr.get (buflet s buf) ≠ 0)
  let s := s.mbufClear
  let bdlen := bufDlen.get (buflet s buf)
  let err ← s.mbufChecks buf
  return (s.mbufDone mb bdlen err, err)

/-- The functions on a packet that may have an mbuf. -/
inductive MbufOp where
  | initializeWithMbufchain (mbuf : BitVec 64) (headroom l2len : BitVec 8)
  | initializeWithMbuf (mbuf : BitVec 64) (headroom l2len : BitVec 8)
  | finalizeWithMbuf
  | clearMbufData
  | setHeadroom (headroom : BitVec 8)
  | setLinkHeaderLength (len : BitVec 8)
  | setDataOffset (doff : BitVec 16)
  | setDataLength (dlen : BitVec 16)

/-- The mbuf of a packet. -/
def KernMeta.held (s : KernMeta) : List (BitVec 64) :=
  if s.pkt.mbuf = 0 then [] else [s.pkt.mbuf]

/-- One call, with the error it returns and the mbuf that the packet no longer has. -/
def mbufStep (s : KernMeta) : MbufOp → Except Fault (KernMeta × Errno × List (BitVec 64))
  | .initializeWithMbufchain mbuf headroom l2len => do
    let s ← s.packetInitializeWithMbufchain mb mbuf headroom l2len
    return (s, .success, [])
  | .initializeWithMbuf mbuf headroom l2len => do
    let s ← s.packetInitializeWithMbuf mb mbuf headroom l2len
    return (s, .success, [])
  | .finalizeWithMbuf => do
    let (s, err) ← s.packetFinalizeWithMbuf mb
    return (s, err, [])
  | .clearMbufData => return ({ s with pkt := kpktClearMbufData s.pkt }, .success, s.held)
  | .setHeadroom headroom => do
    let (s, err) ← s.packetSetHeadroom headroom
    return (s, err, [])
  | .setLinkHeaderLength len => do
    let (s, err) ← s.packetSetLinkHeaderLength len
    return (s, err, [])
  | .setDataOffset doff => do
    let (s, err) ← s.bufletSetDataOffset s.self doff
    return (s, err, [])
  | .setDataLength dlen => do
    let (s, err) ← s.bufletSetDataLength s.self dlen
    return (s, err, [])

/-- The mbuf that a call attaches. -/
def MbufOp.attached : MbufOp → List (BitVec 64)
  | .initializeWithMbufchain mbuf _ _ | .initializeWithMbuf mbuf _ _ => [mbuf]
  | _ => []

end Native

section Flags

variable {n : Nat} {f c d : BitVec n}

/-- Setting flags shows in each of them. -/
private theorem or_flag_and_of_subset (h : c &&& d = d) : (f ||| c) &&& d = d := by
  rw [BitVec.and_or_distrib_right, h]
  apply BitVec.eq_of_getLsbD_eq
  intro i _
  simp only [BitVec.getLsbD_or, BitVec.getLsbD_and]
  cases f.getLsbD i <;> cases d.getLsbD i <;> rfl

/-- Cleared flags are clear, each of them. -/
theorem clear_flag_and_of_subset (h : c &&& d = d) : (f &&& ~~~c) &&& d = 0 := by
  rw [← h, ← BitVec.and_assoc, clear_flag_and_self]
  exact BitVec.zero_and

/-- Flags that are clear together are clear one by one. -/
private theorem and_eq_zero_of_subset (h : c &&& d = d) (hf : f &&& c = 0) : f &&& d = 0 := by
  rw [← h, ← BitVec.and_assoc, hf]
  exact BitVec.zero_and

/-- A flag of one bit that is not clear is set. -/
private theorem and_twoPow_eq_of_ne_zero {i : Nat} (h : f &&& BitVec.twoPow n i ≠ 0) :
    f &&& BitVec.twoPow n i = BitVec.twoPow n i := by
  rw [BitVec.and_twoPow] at h ⊢
  split at h
  · next hbit => exact if_pos hbit
  · exact absurd rfl h

end Flags

section Invariant

/-- The packet is finalized with the length of its mbuf, or dropped. -/
def Settled (length : BitVec 32) (com : BitVec 256) : Prop :=
  (qumQflags.get com &&& qumFFinalized ≠ 0 ∧ qumQflags.get com &&& qumFDropped = 0 ∧
      qumLen.get com = length) ∨
    (qumQflags.get com &&& qumFFinalized = 0 ∧ qumQflags.get com &&& qumFDropped ≠ 0 ∧
      qumLen.get com = 0)

/-- What holds of a packet that has an mbuf, or has none. -/
structure MbufInv (mb : Mbufs) (s : KernMeta) : Prop where
  /-- The flag and the pointer agree. -/
  data : s.pkt.pflags &&& pktFMbufData ≠ 0 ↔ s.pkt.mbuf ≠ 0
  noPkt : s.pkt.pflags &&& pktFPktData = 0
  truncated : s.pkt.mbuf = 0 → s.pkt.pflags &&& pktFTruncated = 0
  settled : s.pkt.mbuf ≠ 0 → Settled (mb.pktlen s.pkt.mbuf) s.pkt.qum.com

variable {mb : Mbufs} {s s' : KernMeta}

/-- The invariant reads the flags, the mbuf and the quantum. -/
theorem MbufInv.of_eq (h : MbufInv mb s) (hflags : s'.pkt.pflags = s.pkt.pflags)
    (hmbuf : s'.pkt.mbuf = s.pkt.mbuf) (hcom : s'.pkt.qum.com = s.pkt.qum.com) :
    MbufInv mb s' := by
  constructor
  case data => rw [hflags, hmbuf]; exact h.data
  case noPkt => rw [hflags]; exact h.noPkt
  case truncated => rw [hflags, hmbuf]; exact h.truncated
  case settled => rw [hmbuf, hcom]; exact h.settled

section Stores

/-- A store into a buflet leaves the packet fields. -/
theorem pkt_setBuflet (s : KernMeta) (a : BitVec 64) (b : BufletCom) :
    (setBuflet a b s).pkt.com = s.pkt.com ∧ (setBuflet a b s).pkt.mbuf = s.pkt.mbuf ∧
      (setBuflet a b s).pkt.qum.com = s.pkt.qum.com := by
  by_cases ha : a = s.self
  · have hset : setBuflet a b s = { s with pkt := { s.pkt with qum := { s.pkt.qum with
        buf := { s.pkt.qum.buf with com := b } } } } := if_pos ha
    rw [hset]
    exact ⟨rfl, rfl, rfl⟩
  · have hset : setBuflet a b s =
        { s with bufs := Function.update s.bufs a { s.bufs a with com := b } } := if_neg ha
    rw [hset]
    exact ⟨rfl, rfl, rfl⟩

/-- A store into a buflet keeps the invariant. -/
theorem MbufInv.setBuflet (h : MbufInv mb s) (a : BitVec 64) (b : BufletCom) :
    MbufInv mb (BufletMeta.setBuflet a b s) := by
  obtain ⟨hcom, hmbuf, hqum⟩ := pkt_setBuflet s a b
  exact h.of_eq (congrArg pktPflags.get hcom) hmbuf hqum

/-- A store beside the packet flags keeps the invariant. -/
theorem MbufInv.setCom (h : MbufInv mb s) {len : Nat} {f : Field 256 len}
    (hf : pktPflags.Disjoint f) (v : BitVec len) : MbufInv mb (s.setCom f v) :=
  h.of_eq (Field.get_set_of_disjoint hf v s.pkt.com) rfl rfl

/-- A setter with a range check keeps the invariant. -/
theorem MbufInv.storeIf (h : MbufInv mb s) (buf : BitVec 64) {len : Nat} (f : Field 288 len)
    (v : BitVec len) (inRange : Bool) : MbufInv mb (s.storeIf buf f v inRange).1 := by
  unfold KernMeta.storeIf
  split
  · exact h.setBuflet buf _
  · exact h

/-- A setter with a range check leaves the mbuf. -/
theorem mbuf_storeIf (s : KernMeta) (buf : BitVec 64) {len : Nat} (f : Field 288 len)
    (v : BitVec len) (inRange : Bool) : (s.storeIf buf f v inRange).1.pkt.mbuf = s.pkt.mbuf := by
  unfold KernMeta.storeIf
  split
  · exact (pkt_setBuflet s buf _).2.1
  · rfl

end Stores

/-- The quantum after a finalization. -/
theorem settled_finalizeDone (err : Errno) (length : BitVec 32) (com : BitVec 256) :
    Settled length (finalizeDone err length (finalizeClear com)) := by
  have hclear : ∀ d, (qumFDropped ||| qumFFinalized) &&& d = d →
      qumQflags.get (finalizeClear com) &&& d = 0 := by
    intro d hd
    rw [finalizeClear, Field.get_set_self]
    exact clear_flag_and_of_subset hd
  unfold finalizeDone
  split
  · refine .inl ⟨?_, ?_, ?_⟩
    · rw [Field.get_set_self, or_flag_and_self]
      decide
    · rw [Field.get_set_self, or_flag_and_of_disjoint (by decide),
        Field.get_set_of_disjoint (by decide)]
      exact hclear _ (by decide)
    · rw [Field.get_set_of_disjoint (by decide), Field.get_set_self]
  · refine .inr ⟨?_, ?_, ?_⟩
    · rw [Field.get_set_self, or_flag_and_of_disjoint (by decide),
        Field.get_set_of_disjoint (by decide)]
      exact hclear _ (by decide)
    · rw [Field.get_set_self, or_flag_and_self]
      decide
    · rw [Field.get_set_of_disjoint (by decide), Field.get_set_self]

end Invariant

section Calls

variable {mb : Mbufs} {s s' : KernMeta}

section Projections

variable {len : Nat} (s : KernMeta) (com : BitVec 256) (mbuf pflags : BitVec 64)

@[simp] theorem com_setQum : (s.setQum com).pkt.com = s.pkt.com := rfl

@[simp] theorem mbuf_setQum : (s.setQum com).pkt.mbuf = s.pkt.mbuf := rfl

@[simp] theorem qum_setQum : (s.setQum com).pkt.qum.com = com := rfl

@[simp] theorem com_setMbuf : (s.setMbuf mbuf).pkt.com = s.pkt.com := rfl

@[simp] theorem mbuf_setMbuf : (s.setMbuf mbuf).pkt.mbuf = mbuf := rfl

@[simp] theorem qum_setMbuf : (s.setMbuf mbuf).pkt.qum.com = s.pkt.qum.com := rfl

@[simp] theorem com_setPflags : (s.setPflags pflags).pkt.com = pktPflags.set pflags s.pkt.com := rfl

@[simp] theorem mbuf_setPflags : (s.setPflags pflags).pkt.mbuf = s.pkt.mbuf := rfl

@[simp] theorem qum_setPflags : (s.setPflags pflags).pkt.qum.com = s.pkt.qum.com := rfl

@[simp] theorem com_setCom (f : Field 256 len) (v : BitVec len) :
    (s.setCom f v).pkt.com = f.set v s.pkt.com := rfl

@[simp] theorem mbuf_setCom (f : Field 256 len) (v : BitVec len) :
    (s.setCom f v).pkt.mbuf = s.pkt.mbuf := rfl

@[simp] theorem qum_setCom (f : Field 256 len) (v : BitVec len) :
    (s.setCom f v).pkt.qum.com = s.pkt.qum.com := rfl

@[simp] theorem com_setSelf (f : Field 288 len) (v : BitVec len) :
    (s.setSelf f v).pkt.com = s.pkt.com := (pkt_setBuflet s _ _).1

@[simp] theorem mbuf_setSelf (f : Field 288 len) (v : BitVec len) :
    (s.setSelf f v).pkt.mbuf = s.pkt.mbuf := (pkt_setBuflet s _ _).2.1

@[simp] theorem qum_setSelf (f : Field 288 len) (v : BitVec len) :
    (s.setSelf f v).pkt.qum.com = s.pkt.qum.com := (pkt_setBuflet s _ _).2.2

end Projections

/-- The packet holds the mbuf that was attached. -/
theorem mbuf_attachMbuf (s : KernMeta) (mbuf : BitVec 64) (headroom l2len : BitVec 8)
    (length : BitVec 32) : (s.attachMbuf mbuf headroom l2len length).pkt.mbuf = mbuf := by
  simp [KernMeta.attachMbuf]

/-- Attaching an mbuf marks the packet, which counts as truncated at first. -/
theorem pflags_attachMbuf (s : KernMeta) (mbuf : BitVec 64) (headroom l2len : BitVec 8)
    (length : BitVec 32) : (s.attachMbuf mbuf headroom l2len length).pkt.pflags =
      s.pkt.pflags ||| (pktFMbufData ||| pktFTruncated) := by
  have hroom : pktPflags.Disjoint pktHeadroom := by decide
  have hl2 : pktPflags.Disjoint pktL2Len := by decide
  simp [KernMeta.attachMbuf, KernPacket.pflags, Field.get_set_of_disjoint hroom,
    Field.get_set_of_disjoint hl2]

/-- Attaching an mbuf finalizes the packet at the length of the mbuf. -/
theorem qum_attachMbuf (s : KernMeta) (mbuf : BitVec 64) (headroom l2len : BitVec 8)
    (length : BitVec 32) : (s.attachMbuf mbuf headroom l2len length).pkt.qum.com =
      finalizeDone .success length (finalizeClear s.pkt.qum.com) := by
  simp [KernMeta.attachMbuf, finalizeDone]

/-- What `__packet_initialize_with_mbufchain` requires and leaves. -/
theorem packetInitializeWithMbufchain_spec {mbuf : BitVec 64} {headroom l2len : BitVec 8}
    (h : s.packetInitializeWithMbufchain mb mbuf headroom l2len = .ok s') :
    s.pkt.mbuf = 0 ∧ mbuf ≠ 0 ∧ s.pkt.pflags &&& pktFPktData = 0 ∧
      s' = s.attachMbuf mbuf headroom l2len (mb.pktlen mbuf) := by
  obtain ⟨_, -, h⟩ := bind_eq_ok.mp h
  obtain ⟨_, -, h⟩ := bind_eq_ok.mp h
  obtain ⟨_, -, h⟩ := bind_eq_ok.mp h
  obtain ⟨_, hpkt, h⟩ := bind_eq_ok.mp h
  obtain ⟨_, hnone, h⟩ := bind_eq_ok.mp h
  obtain ⟨m, hm, h⟩ := bind_eq_ok.mp h
  unfold pointer at hm
  split at hm
  · cases hm
  · next hne =>
    obtain rfl := Except.ok.inj hm
    exact ⟨kassert_eq_ok.mp hnone, hne, kassert_eq_ok.mp hpkt, (Except.ok.inj h).symm⟩

/-- Attaching an mbuf to a packet without packet data meets the invariant. -/
theorem mbufInv_attachMbuf (hpkt : s.pkt.pflags &&& pktFPktData = 0) {mbuf : BitVec 64}
    (hmbuf : mbuf ≠ 0) (headroom l2len : BitVec 8) :
    MbufInv mb (s.attachMbuf mbuf headroom l2len (mb.pktlen mbuf)) := by
  constructor
  case data =>
    rw [pflags_attachMbuf, mbuf_attachMbuf, or_flag_and_of_subset (by decide)]
    exact iff_of_true (by decide) hmbuf
  case noPkt =>
    rw [pflags_attachMbuf, or_flag_and_of_disjoint (by decide)]
    exact hpkt
  case truncated =>
    rw [mbuf_attachMbuf]
    exact fun h => absurd h hmbuf
  case settled =>
    rw [mbuf_attachMbuf, qum_attachMbuf]
    exact fun _ => settled_finalizeDone _ _ _

/-- Giving up the mbuf keeps the invariant. -/
theorem mbufInv_clearMbufData (h : MbufInv mb s) :
    MbufInv mb { s with pkt := kpktClearMbufData s.pkt } := by
  have hflags : (kpktClearMbufData s.pkt).pflags = s.pkt.pflags &&& ~~~pktFMbufMask :=
    pflags_setPflags s.pkt _
  constructor
  case data =>
    rw [hflags, clear_flag_and_of_subset (by decide)]
    exact iff_of_false (not_not.mpr rfl) (not_not.mpr rfl)
  case noPkt =>
    rw [hflags, clear_flag_and_of_disjoint (by decide)]
    exact h.noPkt
  case truncated =>
    rw [hflags]
    exact fun _ => clear_flag_and_of_subset (by decide)
  case settled => exact fun h0 => absurd rfl h0

end Calls

section Finalize

variable {mb : Mbufs} {s s' : KernMeta} {err : Errno}

/-- When `__packet_finalize_with_mbuf` returns zero. -/
structure KernMeta.MbufFinalizable (s : KernMeta) : Prop where
  inRange : objInRange (counted s 0) (s.bufctl (s.kbuflet (bufletAt s 0)).ctl)
  headers : KernTable s.subtype s.pkt.com (counted s 0)
  options : NoEmptyOption s.pkt.pflags (s.areas.opt s.pkt.comOpt)

/-- Without an option block only an unflagged option passes. -/
theorem optEmpty_none {len : Nat} {pflags flag : BitVec 64} {f : Field 256 len} {b : Bool}
    (h : optEmpty pflags flag f none = .ok b) : pflags &&& flag = 0 ∧ b = false := by
  unfold optEmpty at h
  split at h
  · cases h
  · next hflag => exact ⟨not_not.mp hflag, (Except.ok.inj h).symm⟩

/-- Option checks that do not trap. -/
theorem finalizeOptions_optAt (h : finalizeOptions s.pkt.pflags s.optAt = .ok err) :
    err = .success ↔ NoEmptyOption s.pkt.pflags (s.areas.opt s.pkt.comOpt) := by
  unfold KernMeta.optAt at h
  split at h
  · -- without an option area no flag is looked up
    unfold finalizeOptions at h
    split at h
    · obtain ⟨b, hb, h⟩ := bind_eq_ok.mp h
      obtain ⟨hexpiry, rfl⟩ := optEmpty_none hb
      obtain ⟨b, hb, h⟩ := bind_eq_ok.mp h
      obtain ⟨htoken, rfl⟩ := optEmpty_none hb
      exact iff_of_true (Except.ok.inj h).symm
        ⟨fun hf => absurd hexpiry hf, fun hf => absurd htoken hf⟩
    · next hdata =>
      exact iff_of_true (Except.ok.inj h).symm
        ⟨fun hf => absurd (pktFOptData_of_flag (by decide) hf) hdata,
          fun hf => absurd (pktFOptData_of_flag (by decide) hf) hdata⟩
  · rw [finalizeOptions_eq] at h
    rw [← Except.ok.inj h]
    exact ite_success_iff (by decide)

/-- The checks that return, on the buflet they are given. -/
theorem mbufChecks_eq_ok {buf : BitVec 64} (h : s.mbufChecks buf = .ok err) :
    err = .success ↔ objInRange (buflet s buf) (s.bufctl (s.kbuflet buf).ctl) ∧
      KernTable s.subtype s.pkt.com (buflet s buf) ∧
      NoEmptyOption s.pkt.pflags (s.areas.opt s.pkt.comOpt) := by
  unfold KernMeta.mbufChecks at h
  obtain ⟨inRange, hrange, h⟩ := bind_eq_ok.mp h
  obtain ⟨bc, hbc, hrange⟩ := bind_eq_ok.mp hrange
  obtain rfl := ctlAt_eq_some hbc
  obtain rfl := Except.ok.inj hrange
  split at h
  · next hin =>
    rw [KernMeta.finalizeHeaders_eq, ok_bind] at h
    split at h
    · next htable =>
      rw [if_neg (not_not.mpr rfl)] at h
      rw [finalizeOptions_optAt h]
      exact ⟨fun hopt => ⟨hin, htable, hopt⟩, fun hall => hall.2.2⟩
    · next htable =>
      obtain rfl : Errno.erange = err := Except.ok.inj h
      exact iff_of_false (by decide) fun hall => htable hall.2.1
  · next hout =>
    obtain rfl := Except.ok.inj h
    exact iff_of_false (by decide) fun hall => hout hall.1

/-- The header checks do not read the packet flags. -/
theorem kernTable_setPflags (subtype : MetaSubtype) (pflags : BitVec 64) (com : BitVec 256)
    (b : BufletCom) :
    KernTable subtype (pktPflags.set pflags com) b ↔ KernTable subtype com b := by
  have hroom : pktHeadroom.get (pktPflags.set pflags com) = pktHeadroom.get com :=
    Field.get_set_of_disjoint (by decide) _ _
  have hl2 : pktL2Len.get (pktPflags.set pflags com) = pktL2Len.get com :=
    Field.get_set_of_disjoint (by decide) _ _
  cases subtype <;> simp only [KernTable, l2Off, l3Off, hroom, hl2]

/-- Whether the packet is truncated says nothing about its options. -/
theorem noEmptyOption_clear (pflags : BitVec 64) (po : BitVec 256) :
    NoEmptyOption (pflags &&& ~~~pktFTruncated) po ↔ NoEmptyOption pflags po := by
  have hexpiry : (pflags &&& ~~~pktFTruncated) &&& pktFOptExpireTs = pflags &&& pktFOptExpireTs :=
    clear_flag_and_of_disjoint (by decide)
  have htoken : (pflags &&& ~~~pktFTruncated) &&& pktFOptToken = pflags &&& pktFOptToken :=
    clear_flag_and_of_disjoint (by decide)
  constructor
  · exact fun h => ⟨hexpiry ▸ h.expiry, htoken ▸ h.token⟩
  · exact fun h => ⟨hexpiry.symm ▸ h.expiry, htoken.symm ▸ h.token⟩

/-- A packet with an mbuf before and after `__packet_finalize_with_mbuf`. -/
structure FinalizedWithMbuf (mb : Mbufs) (s s' : KernMeta) (err : Errno) : Prop where
  some : s.pkt.mbuf ≠ 0
  mbuf : s'.pkt.mbuf = s.pkt.mbuf
  success : err = .success ↔ s.MbufFinalizable
  quantum : s'.pkt.qum.com =
    finalizeDone err (mb.pktlen s.pkt.mbuf) (finalizeClear s.pkt.qum.com)
  truncated : s'.pkt.pflags &&& pktFTruncated ≠ 0 ↔
    err = .success ∧ (bufDlen.get (counted s 0)).toNat < (mb.pktlen s.pkt.mbuf).toNat
  flags : ∀ flag, pktFTruncated &&& flag = 0 → s'.pkt.pflags &&& flag = s.pkt.pflags &&& flag

variable (mb) in
/-- The flag of truncated data at `done`. -/
theorem pflags_mbufDone (s : KernMeta) (bdlen : BitVec 16) (err : Errno) :
    (s.mbufDone mb bdlen err).pkt.pflags =
      if err = .success ∧ bdlen.toNat < (mb.pktlen s.pkt.mbuf).toNat then
        s.pkt.pflags ||| pktFTruncated
      else s.pkt.pflags := by
  have hlt : bdlen.setWidth 32 < mb.pktlen s.pkt.mbuf ↔
      bdlen.toNat < (mb.pktlen s.pkt.mbuf).toNat := by
    rw [BitVec.lt_def, BitVec.toNat_setWidth_of_le (by decide)]
  simp only [KernMeta.mbufDone, KernPacket.pflags, com_setQum, hlt]
  split
  · exact pflags_setPflags s.pkt _
  · rfl

variable (mb) in
/-- The end of finalizing keeps the mbuf and takes its length. -/
theorem mbuf_mbufDone (s : KernMeta) (bdlen : BitVec 16) (err : Errno) :
    (s.mbufDone mb bdlen err).pkt.mbuf = s.pkt.mbuf ∧
      (s.mbufDone mb bdlen err).pkt.qum.com =
        finalizeDone err (mb.pktlen s.pkt.mbuf) s.pkt.qum.com := by
  unfold KernMeta.mbufDone
  dsimp only
  split
  · exact ⟨rfl, rfl⟩
  · exact ⟨rfl, rfl⟩

/-- The start of finalizing clears the truncation. -/
theorem pflags_mbufClear (s : KernMeta) :
    s.mbufClear.pkt.pflags = s.pkt.pflags &&& ~~~pktFTruncated := pflags_setPflags _ _

/-- What a finalized packet with an mbuf is like, whatever the outcome. -/
theorem packetFinalizeWithMbuf_spec (h : s.packetFinalizeWithMbuf mb = .ok (s', err)) :
    FinalizedWithMbuf mb s s' err := by
  obtain ⟨_, htype, h⟩ := bind_eq_ok.mp h
  obtain ⟨_, -, h⟩ := bind_eq_ok.mp h
  obtain ⟨_, hmbuf, h⟩ := bind_eq_ok.mp h
  obtain ⟨_, -, h⟩ := bind_eq_ok.mp h
  obtain ⟨_, hcnt, h⟩ := bind_eq_ok.mp h
  obtain ⟨buf, hbuf, h⟩ := bind_eq_ok.mp h
  obtain ⟨_, -, h⟩ := bind_eq_ok.mp h
  obtain ⟨err', hchecks, h⟩ := bind_eq_ok.mp h
  obtain ⟨rfl, rfl⟩ := Prod.mk.inj (Except.ok.inj h)
  rw [kassert_eq_ok.mp hcnt, pktGetFirstBuflet_eq (kassert_eq_ok.mp htype) (by decide)] at hbuf
  obtain rfl : buf = bufletAt s 0 := by
    unfold pointer at hbuf
    split at hbuf
    · cases hbuf
    · exact (Except.ok.inj hbuf).symm
  obtain ⟨hkept, hquantum⟩ := mbuf_mbufDone mb s.mbufClear
    (bufDlen.get (buflet s.mbufClear (bufletAt s 0))) err'
  have hflags := pflags_mbufDone mb s.mbufClear
    (bufDlen.get (buflet s.mbufClear (bufletAt s 0))) err'
  rw [pflags_mbufClear] at hflags
  constructor
  case some => exact kassert_eq_ok.mp hmbuf
  case mbuf => exact hkept
  case success =>
    rw [mbufChecks_eq_ok hchecks, pflags_mbufClear, noEmptyOption_clear]
    constructor
    · exact fun hall => ⟨hall.1, (kernTable_setPflags _ _ _ _).mp hall.2.1, hall.2.2⟩
    · exact fun hf => ⟨hf.inRange, (kernTable_setPflags _ _ _ _).mpr hf.headers, hf.options⟩
  case quantum => exact hquantum
  case truncated =>
    rw [hflags]
    split
    · next hshort =>
      rw [or_flag_and_self]
      exact iff_of_true (by decide) hshort
    · next hfull =>
      rw [clear_flag_and_self]
      exact iff_of_false (not_not.mpr rfl) hfull
  case flags =>
    intro flag hflag
    rw [hflags]
    split
    · rw [or_flag_and_of_disjoint hflag, clear_flag_and_of_disjoint hflag]
    · exact clear_flag_and_of_disjoint hflag

/-- Finalizing keeps the invariant. -/
theorem FinalizedWithMbuf.mbufInv (h : FinalizedWithMbuf mb s s' err) (hs : MbufInv mb s) :
    MbufInv mb s' := by
  constructor
  case data =>
    rw [h.flags _ (by decide), h.mbuf]
    exact hs.data
  case noPkt =>
    rw [h.flags _ (by decide)]
    exact hs.noPkt
  case truncated =>
    rw [h.mbuf]
    exact fun h0 => absurd h0 h.some
  case settled =>
    rw [h.mbuf, h.quantum]
    exact fun _ => settled_finalizeDone _ _ _

/-- Checks with a buffer control, and an option area when it is needed. -/
theorem mbufChecks_returns {buf : BitVec 64} (hctl : (s.kbuflet buf).ctl ≠ 0)
    (hopt : s.pkt.pflags &&& pktFOptData ≠ 0 → s.pkt.comOpt ≠ 0) :
    ∃ err, s.mbufChecks buf = .ok err := by
  have hoptions : ∃ err, finalizeOptions s.pkt.pflags s.optAt = .ok err := by
    by_cases hdata : s.pkt.pflags &&& pktFOptData = 0
    · exact ⟨.success, by rw [finalizeOptions, if_neg (not_not.mpr hdata)]; rfl⟩
    · exact ⟨_, by rw [KernMeta.optAt, if_neg (hopt hdata), finalizeOptions_eq]⟩
  obtain ⟨err, herr⟩ := hoptions
  simp only [KernMeta.mbufChecks, KernMeta.bufInRange, KernMeta.ctlAt, if_neg hctl, deref_some,
    ok_bind, KernMeta.finalizeHeaders_eq]
  by_cases hin : objInRange (buflet s buf) (s.bufctl (s.kbuflet buf).ctl) = true
  · by_cases htable : KernTable s.subtype s.pkt.com (buflet s buf)
    · exact ⟨err, by simpa [hin, htable, pure_bind] using herr⟩
    · exact ⟨.erange, by simp [hin, htable, pure, Except.pure]⟩
  · exact ⟨.erange, by simp [hin, pure, Except.pure]⟩

/-- A packet with an mbuf that is admitted to `__packet_finalize` can be finalized with it. -/
theorem packetFinalizeWithMbuf_returns (hs : MbufInv mb s) (hadm : s.Admitted)
    (htype : s.type = .packet) (hcnt : s.pkt.bufsCnt = 1) (hmbuf : s.pkt.mbuf ≠ 0) :
    ∃ s' err, s.packetFinalizeWithMbuf mb = .ok (s', err) := by
  have hone : 0 < s.count := by
    simp only [KernMeta.count, htype, hcnt]
    decide
  have hflags : s.pkt.pflags &&& (pktFMbufData ||| pktFPktData) = pktFMbufData := by
    have hdata : s.pkt.pflags &&& pktFMbufData = pktFMbufData :=
      and_twoPow_eq_of_ne_zero (i := 38) (hs.data.mpr hmbuf)
    rw [BitVec.and_or_distrib_left, hs.noPkt, hdata]
    exact BitVec.or_zero
  have hfirst : pktGetFirstBuflet s (s.pkt.bufsCnt.setWidth 32) = bufletAt s 0 := by
    rw [hcnt]
    exact pktGetFirstBuflet_eq htype (by decide)
  have hpointer : pointer (bufletAt s 0) = some (bufletAt s 0) := if_neg (hadm.chain 0 hone)
  obtain ⟨err, herr⟩ := mbufChecks_returns (s := s.mbufClear) (hadm.control 0 hone) (by
    rw [pflags_mbufClear, clear_flag_and_of_disjoint (by decide)]
    exact hadm.optArea htype)
  have hbuffer : bufAddr.get (buflet s (bufletAt s 0)) ≠ 0 := hadm.buffer 0 hone
  simp only [KernMeta.packetFinalizeWithMbuf, kassert_of htype, kassert_of hflags,
    kassert_of hmbuf, kassert_of hadm.internalized, kassert_of hcnt, hfirst, hpointer, deref_some,
    kassert_of hbuffer, herr, ok_bind]
  exact ⟨_, _, rfl⟩

end Finalize

section Runs

variable {mb : Mbufs} {s s' : KernMeta} {err : Errno}

/-- What a packet holds depends on its mbuf only. -/
theorem held_eq_of_mbuf (h : s'.pkt.mbuf = s.pkt.mbuf) : s'.held = s.held := by
  rw [KernMeta.held, KernMeta.held, h]

/-- A call that returns. -/
theorem MbufInv.step (h : MbufInv mb s) {op : MbufOp} {out : Errno × List (BitVec 64)}
    (hstep : mbufStep mb s op = .ok (s', out)) :
    MbufInv mb s' ∧ out.2 ++ s'.held = s.held ++ op.attached := by
  -- every other call leaves the mbuf where it is
  have hkeep : ∀ {run : Except Fault (KernMeta × Errno)},
      (run >>= fun r => .ok (r.1, r.2, [])) = .ok (s', out) →
      (∀ {s₁ err}, run = .ok (s₁, err) → MbufInv mb s₁ ∧ s₁.pkt.mbuf = s.pkt.mbuf) →
      MbufInv mb s' ∧ out.2 ++ s'.held = s.held ++ [] := by
    intro run hrun hcall
    obtain ⟨⟨s₁, err⟩, hs₁, hrun⟩ := bind_eq_ok.mp hrun
    obtain ⟨rfl, rfl⟩ := Prod.mk.inj (Except.ok.inj hrun)
    obtain ⟨hinv, hmbuf⟩ := hcall hs₁
    refine ⟨hinv, ?_⟩
    rw [List.append_nil, List.nil_append, held_eq_of_mbuf hmbuf]
  have hattach : ∀ {mbuf : BitVec 64} {headroom l2len : BitVec 8} {s₁ : KernMeta},
      s.packetInitializeWithMbufchain mb mbuf headroom l2len = .ok s₁ →
      MbufInv mb s₁ ∧ [] ++ s₁.held = s.held ++ [mbuf] := by
    intro mbuf headroom l2len s₁ hinit
    obtain ⟨hnone, hmbuf, hpkt, rfl⟩ := packetInitializeWithMbufchain_spec hinit
    refine ⟨mbufInv_attachMbuf hpkt hmbuf headroom l2len, ?_⟩
    rw [KernMeta.held, KernMeta.held, mbuf_attachMbuf, if_neg hmbuf, if_pos hnone]
  cases op with
  | initializeWithMbufchain mbuf headroom l2len =>
    obtain ⟨s₁, hs₁, hstep⟩ := bind_eq_ok.mp hstep
    obtain ⟨rfl, rfl⟩ := Prod.mk.inj (Except.ok.inj hstep)
    exact hattach hs₁
  | initializeWithMbuf mbuf headroom l2len =>
    obtain ⟨s₁, hs₁, hstep⟩ := bind_eq_ok.mp hstep
    obtain ⟨rfl, rfl⟩ := Prod.mk.inj (Except.ok.inj hstep)
    obtain ⟨s₂, hs₂, hs₁⟩ := bind_eq_ok.mp hs₁
    obtain ⟨_, -, hs₁⟩ := bind_eq_ok.mp hs₁
    obtain rfl := Except.ok.inj hs₁
    exact hattach hs₂
  | finalizeWithMbuf =>
    refine hkeep hstep fun hfinal => ?_
    have hdone := packetFinalizeWithMbuf_spec hfinal
    exact ⟨hdone.mbufInv h, hdone.mbuf⟩
  | clearMbufData =>
    obtain ⟨rfl, rfl⟩ := Prod.mk.inj (Except.ok.inj hstep)
    exact ⟨mbufInv_clearMbufData h, rfl⟩
  | setHeadroom headroom =>
    refine hkeep hstep fun hset => ?_
    obtain ⟨_, -, hset⟩ := bind_eq_ok.mp hset
    split at hset
    · obtain ⟨rfl, rfl⟩ := Prod.mk.inj (Except.ok.inj hset)
      exact ⟨h.setCom (by decide) _, rfl⟩
    · obtain ⟨rfl, rfl⟩ := Prod.mk.inj (Except.ok.inj hset)
      exact ⟨h, rfl⟩
  | setLinkHeaderLength len =>
    refine hkeep hstep fun hset => ?_
    obtain ⟨_, -, hset⟩ := bind_eq_ok.mp hset
    split at hset
    · obtain ⟨rfl, rfl⟩ := Prod.mk.inj (Except.ok.inj hset)
      exact ⟨h.setCom (by decide) _, rfl⟩
    · obtain ⟨rfl, rfl⟩ := Prod.mk.inj (Except.ok.inj hset)
      exact ⟨h, rfl⟩
  | setDataOffset doff =>
    refine hkeep hstep fun hset => ?_
    obtain ⟨_, -, hset⟩ := bind_eq_ok.mp hset
    obtain ⟨bc, -, hset⟩ := bind_eq_ok.mp hset
    obtain rfl := congrArg Prod.fst (Except.ok.inj hset)
    exact ⟨h.storeIf _ _ _ _, mbuf_storeIf _ _ _ _ _⟩
  | setDataLength dlen =>
    refine hkeep hstep fun hset => ?_
    obtain ⟨_, -, hset⟩ := bind_eq_ok.mp hset
    obtain ⟨bc, -, hset⟩ := bind_eq_ok.mp hset
    obtain rfl := congrArg Prod.fst (Except.ok.inj hset)
    exact ⟨h.storeIf _ _ _ _, mbuf_storeIf _ _ _ _ _⟩

/-- A packet without an mbuf and without the flags of attached data meets the invariant. -/
theorem mbufInv_of_fresh (hmbuf : s.pkt.mbuf = 0)
    (hflags : s.pkt.pflags &&& (pktFMbufMask ||| pktFPktData) = 0) : MbufInv mb s := by
  constructor
  case data =>
    exact iff_of_false (not_not.mpr (and_eq_zero_of_subset (by decide) hflags)) (not_not.mpr hmbuf)
  case noPkt => exact and_eq_zero_of_subset (by decide) hflags
  case truncated => exact fun _ => and_eq_zero_of_subset (by decide) hflags
  case settled => exact fun h0 => absurd hmbuf h0

/-- In every run on a packet that starts without an mbuf, the mbufs that were attached are the
ones given up and the one the packet has, in this order. The flag and the pointer agree, and a
packet with an mbuf is finalized with its length or dropped. Finalizing it again returns, exactly
when the checks pass with success, and the data are then marked as truncated exactly when the
buflet has fewer bytes than the mbuf. -/
theorem mbuf_packet_of_exec {s₀ : KernMeta} {ops : List MbufOp}
    {outs : List (Errno × List (BitVec 64))} (hmbuf : s₀.pkt.mbuf = 0)
    (hflags : s₀.pkt.pflags &&& (pktFMbufMask ||| pktFPktData) = 0)
    (hrun : execAll (mbufStep mb) s₀ ops = .ok (s, outs)) :
    outs.flatMap (·.2) ++ s.held = ops.flatMap MbufOp.attached ∧ MbufInv mb s ∧
    (s.Admitted → s.type = .packet → s.pkt.bufsCnt = 1 → s.pkt.mbuf ≠ 0 → ∃ s' err,
      s.packetFinalizeWithMbuf mb = .ok (s', err) ∧ FinalizedWithMbuf mb s s' err ∧
      MbufInv mb s') := by
  obtain ⟨hinv, hheld⟩ := execAll_conserves (MbufInv mb) KernMeta.held MbufOp.attached
    (fun out => out.2) (fun h hstep => h.step hstep) (mbufInv_of_fresh hmbuf hflags) hrun
  have hnone : s₀.held = [] := if_pos hmbuf
  rw [hnone, List.nil_append] at hheld
  refine ⟨hheld, hinv, ?_⟩
  intro hadm htype hcnt hsome
  obtain ⟨s', err, hfinal⟩ := packetFinalizeWithMbuf_returns hinv hadm htype hcnt hsome
  have hdone := packetFinalizeWithMbuf_spec hfinal
  exact ⟨s', err, hfinal, hdone, hdone.mbufInv hinv⟩

/-- Every mbuf has 1000 bytes. -/
def thousandBytes : Mbufs := ⟨fun _ => 1000, fun _ => 0⟩

/-- A packet with an mbuf, of which 100 bytes were copied to the buflet. -/
def partlyCopied : KernMeta :=
  let s := oneBuflet.attachMbuf 0x5000 16 14 1000
  let s := (s.storeIf 0x1000 bufDoff 16 true).1
  (s.storeIf 0x1000 bufDlen 100 true).1

theorem partlyCopied_admitted : partlyCopied.Admitted := by
  constructor
  case internalized => decide +kernel
  case onDemand => exact fun _ => .inl (by decide +kernel)
  case chain => decide +kernel
  case buffer => decide +kernel
  case control => decide +kernel
  case optArea => exact fun _ => by decide +kernel

/-- The setters of a packet whose buflet has a buffer, on a value that is in range. -/
theorem mbufStep_setData {mb : Mbufs} {s : KernMeta} {v : BitVec 16}
    (hlim : bufDlim.get (buflet s s.self) ≠ 0) (hctl : (s.kbuflet s.self).ctl ≠ 0)
    (hv : v.setWidth 32 ≤ (s.bufctl (s.kbuflet s.self).ctl).lim) :
    mbufStep mb s (.setDataOffset v) =
        .ok ((s.storeIf s.self bufDoff v true).1, .success, []) ∧
      mbufStep mb s (.setDataLength v) =
        .ok ((s.storeIf s.self bufDlen v true).1, .success, []) := by
  simp only [mbufStep, KernMeta.bufletSetDataOffset, KernMeta.bufletSetDataLength,
    kassert_of hlim, KernMeta.ctlAt, if_neg hctl, deref_some, ok_bind, decide_eq_true hv]
  exact ⟨rfl, rfl⟩

/-- Of an mbuf of 1000 bytes 100 are kept: the packet is truncated. -/
theorem mbuf_packet_partlyCopied : ∃ outs,
    execAll (mbufStep thousandBytes) oneBuflet
      [.initializeWithMbuf 0x5000 16 14, .setDataOffset 16, .setDataLength 100] =
        .ok (partlyCopied, outs) ∧
    partlyCopied.held = [0x5000] ∧ ∃ s',
      partlyCopied.packetFinalizeWithMbuf thousandBytes = .ok (s', .success) ∧
      s'.pkt.pflags &&& pktFTruncated ≠ 0 := by
  have hattach : mbufStep thousandBytes oneBuflet (.initializeWithMbuf 0x5000 16 14) =
      .ok (oneBuflet.attachMbuf 0x5000 16 14 1000, .success, []) := rfl
  have hoff : mbufStep thousandBytes (oneBuflet.attachMbuf 0x5000 16 14 1000)
      (.setDataOffset 16) =
      .ok (((oneBuflet.attachMbuf 0x5000 16 14 1000).storeIf 0x1000 bufDoff 16 true).1,
        .success, []) :=
    (mbufStep_setData (by decide +kernel) (by decide +kernel) (by decide +kernel)).1
  have hlen : mbufStep thousandBytes
      ((oneBuflet.attachMbuf 0x5000 16 14 1000).storeIf 0x1000 bufDoff 16 true).1
      (.setDataLength 100) = .ok (partlyCopied, .success, []) :=
    (mbufStep_setData (by decide +kernel) (by decide +kernel) (by decide +kernel)).2
  have hnil : execAll (mbufStep thousandBytes) partlyCopied [] = .ok (partlyCopied, []) := rfl
  have hrun := execAll_cons hattach (execAll_cons hoff (execAll_cons hlen hnil))
  obtain ⟨hheld, -, hfinal⟩ := mbuf_packet_of_exec (by decide +kernel) (by decide +kernel) hrun
  obtain ⟨s', err, hs', hdone, -⟩ := hfinal partlyCopied_admitted rfl (by decide +kernel)
    (by decide +kernel)
  have hfinalizable : partlyCopied.MbufFinalizable := by
    constructor
    case inRange => decide +kernel
    case headers => decide +kernel
    case options => decide +kernel
  obtain rfl := hdone.success.mpr hfinalizable
  exact ⟨_, hrun, hheld, s', hs', hdone.truncated.mpr ⟨rfl, by decide +kernel⟩⟩

end Runs

end MacKernel.Packet
