import MacKernel.Models.ControlMessage.Native

/-!
# Reading control messages back

The sender of control messages is not part of the headers; `CMSG_LEN` and `CMSG_SPACE` fix
what it stores. The length in a header leaves out the padding behind the data, and the next
header stands behind the padding. The walk of the receiver finds every message again.
-/

namespace MacKernel.ControlMessage

variable {m : Memory 64} {mhdr : Msghdr} {msg : Message} {msgs : List Message} {cmsg : BitVec 64}

section Format

/-- The bytes of a message up to the end of its data: the length is `CMSG_LEN`. -/
def Message.bytes (msg : Message) : List UInt8 :=
  Memory.leBytes 4 (cmsgLen (BitVec.ofNat 64 msg.data.length)).toNat ++
    (Memory.leBytes 4 msg.level.toNat ++ (Memory.leBytes 4 msg.type.toNat ++ msg.data))

/-- The room that a message takes, with the padding behind its data. -/
def Message.space (msg : Message) : Nat := 12 + (msg.data.length + 3) / 4 * 4

/-- Messages stand in memory, each of them `CMSG_SPACE` behind the one before it. -/
def Placed (m : Memory 64) : BitVec 64 → List Message → Prop
  | _, [] => True
  | cmsg, msg :: msgs =>
    m.Holds cmsg msg.bytes ∧ Placed m (cmsg + cmsgSpace (BitVec.ofNat 64 msg.data.length)) msgs

/-- The room that messages take. -/
def space : List Message → Nat
  | [] => 0
  | msg :: msgs => msg.space + space msgs

/-- The room that messages take without the padding behind the last of them. -/
def extent : List Message → Nat
  | [] => 0
  | [msg] => 12 + msg.data.length
  | msg :: next :: msgs => msg.space + extent (next :: msgs)

/-- The padding has fewer than four bytes. -/
theorem space_le_extent (msgs : List Message) : space msgs ≤ extent msgs + 3 := by
  induction msgs with
  | nil => exact Nat.zero_le _
  | cons msg msgs ih =>
    cases msgs with
    | nil =>
      simp only [space, extent, Message.space]
      omega
    | cons next msgs =>
      rw [space, extent]
      omega

/-- The first message is inside the extent. -/
private theorem le_extent (msg : Message) (msgs : List Message) :
    12 + msg.data.length ≤ extent (msg :: msgs) := by
  cases msgs with
  | nil => exact le_rfl
  | cons next msgs =>
    simp only [extent, Message.space]
    omega

end Format

section Sizes

variable (h : msg.data.length + 12 < 2 ^ 32)

include h

/-- The length of the data does not wrap. -/
private theorem toNat_dataLength : (BitVec.ofNat 64 msg.data.length).toNat = msg.data.length := by
  rw [BitVec.toNat_ofNat, Nat.mod_eq_of_lt (by omega)]

/-- `CMSG_LEN` does not wrap. -/
private theorem toNat_cmsgLen :
    (cmsgLen (BitVec.ofNat 64 msg.data.length)).toNat = 12 + msg.data.length := by
  rw [cmsgLen, darwinAlign32_cmsghdrSize, BitVec.toNat_add, toNat_dataLength h]
  exact Nat.mod_eq_of_lt (by change 12 + _ < _; omega)

/-- `CMSG_SPACE` does not wrap. -/
theorem toNat_cmsgSpace :
    (cmsgSpace (BitVec.ofNat 64 msg.data.length)).toNat = msg.space := by
  have halign := toNat_darwinAlign32 (p := BitVec.ofNat 64 msg.data.length)
    (by rw [toNat_dataLength h]; omega)
  rw [toNat_dataLength h] at halign
  rw [cmsgSpace, darwinAlign32_cmsghdrSize, BitVec.toNat_add, halign, Message.space]
  exact Nat.mod_eq_of_lt (by change 12 + _ < _; omega)

/-- `CMSG_LEN` fits into the length of a header. -/
private theorem ofNat_cmsgLenField : BitVec.ofNat 64 (UInt32.ofNat (12 + msg.data.length)).toNat =
    cmsgLen (BitVec.ofNat 64 msg.data.length) := by
  apply BitVec.eq_of_toNat_eq
  rw [UInt32.toNat_ofNat', BitVec.toNat_ofNat, toNat_cmsgLen h]
  omega

/-- A length of `CMSG_LEN`, aligned, is `CMSG_SPACE`. -/
theorem darwinAlign32_cmsgLen :
    darwinAlign32 (cmsgLen (BitVec.ofNat 64 msg.data.length)) =
      cmsgSpace (BitVec.ofNat 64 msg.data.length) := by
  apply BitVec.eq_of_toNat_eq
  rw [toNat_darwinAlign32 (by rw [toNat_cmsgLen h]; omega), toNat_cmsgLen h, toNat_cmsgSpace h,
    Message.space]
  omega

end Sizes

section Header

variable (hsize : msg.data.length + 12 < 2 ^ 32) (h : m.Holds cmsg msg.bytes)

include hsize h

/-- The length field is that of the header and the data. -/
theorem cmsgLenField_eq :
    cmsgLenField m cmsg = .ok (UInt32.ofNat (12 + msg.data.length)) := by
  have hfield : m.Holds cmsg (Memory.leBytes 4 (UInt32.ofNat (12 + msg.data.length)).toNat) := by
    rw [UInt32.toNat_ofNat', Nat.mod_eq_of_lt (by omega), ← toNat_cmsgLen hsize]
    exact h.left
  exact hfield.readU32

/-- A stored message is read back. -/
theorem readMessage_eq : readMessage m cmsg = .ok msg := by
  have hlevel : cmsgLevel m cmsg = .ok msg.level := Memory.Holds.readU32 h.right.left
  have hright := h.right.right
  rw [Memory.length_leBytes, Memory.length_leBytes, BitVec.add_assoc, ← BitVec.ofNat_add] at hright
  have htype : cmsgType m cmsg = .ok msg.type := hright.left.readU32
  have hdata := hright.right
  rw [Memory.length_leBytes, BitVec.add_assoc, ← BitVec.ofNat_add] at hdata
  have hcount : (cmsgLen (BitVec.ofNat 64 msg.data.length) - cmsgLen 0).toNat =
      msg.data.length := by
    have hzero : (cmsgLen 0).toNat = 12 := rfl
    have hle : (cmsgLen 0).toNat ≤ (cmsgLen (BitVec.ofNat 64 msg.data.length)).toNat := by
      rw [hzero, toNat_cmsgLen hsize]
      exact Nat.le_add_right 12 _
    rw [BitVec.toNat_sub_of_le hle, hzero, toNat_cmsgLen hsize, Nat.add_sub_cancel_left]
  have hread : m.readBytes msg.data.length (cmsgData cmsg) = .ok msg.data :=
    Memory.readBytes_eq_ok.mpr ⟨rfl, hdata⟩
  simp only [readMessage, cmsgLenField_eq hsize h, hlevel, htype, ok_bind,
    ofNat_cmsgLenField hsize, hcount, hread]
  rfl

end Header

section Walk

/-- A walk that stands at the first of the messages that are left, which end where the
ancillary data does. -/
structure Standing (m : Memory 64) (mhdr : Msghdr) (msgs : List Message) (cmsg : BitVec 64) :
    Prop where
  nonnull : cmsg ≠ 0
  behind : mhdr.control.toNat ≤ cmsg.toNat
  placed : Placed m cmsg msgs
  inside : cmsg.toNat + extent msgs ≤ mhdr.stop
  whole : mhdr.stop < cmsg.toNat + space msgs + 12

/-- The pointer of a walk with these messages left. -/
def Found (m : Memory 64) (mhdr : Msghdr) : List Message → BitVec 64 → Prop
  | [], cmsg => cmsg = 0
  | msg :: msgs, cmsg => Standing m mhdr (msg :: msgs) cmsg

/-- A message inside the data has a length that its header can hold. -/
theorem Standing.size (h : Standing m mhdr (msg :: msgs) cmsg) :
    msg.data.length + 12 < 2 ^ 32 := by
  have hle := le_extent msg msgs
  have hlen := mhdr.controllen.toNat_lt
  have hbehind := h.behind
  have hinside := h.inside
  unfold Msghdr.stop at hinside
  omega

/-- The message at a place is read back. -/
theorem Standing.read (h : Standing m mhdr (msg :: msgs) cmsg) :
    readMessage m cmsg = .ok msg :=
  readMessage_eq h.size h.placed.1

section Step

variable (hstop : mhdr.stop + 15 < 2 ^ 64) (h : Standing m mhdr (msg :: msgs) cmsg)

include h

/-- The header of a message claims the room that the message takes. -/
theorem Standing.claimed_eq : claimed (UInt32.ofNat (12 + msg.data.length)) = msg.space := by
  have hsize := h.size
  rw [claimed, UInt32.toNat_ofNat', Nat.mod_eq_of_lt (by omega), Message.space]
  omega

include hstop

/-- Neither the end of a message nor a header behind it is past the address space. -/
theorem Standing.bound :
    cmsg.toNat + claimed (UInt32.ofNat (12 + msg.data.length)) + 12 < 2 ^ 64 := by
  have hpad := space_le_extent (msg :: msgs)
  have hinside := h.inside
  rw [space] at hpad
  rw [h.claimed_eq]
  omega

/-- The next place does not wrap. -/
theorem Standing.toNat_next :
    (cmsg + cmsgSpace (BitVec.ofNat 64 msg.data.length)).toNat = cmsg.toNat + msg.space := by
  rw [← darwinAlign32_cmsgLen h.size, ← ofNat_cmsgLenField h.size,
    toNat_add_claimed (h.bound hstop), h.claimed_eq]

/-- `CMSG_NXTHDR` leads to the next place or ends. -/
theorem Standing.nxthdr : cmsgNxthdr m mhdr cmsg =
    .ok (if mhdr.stop < cmsg.toNat + msg.space + 12 then 0
      else cmsg + cmsgSpace (BitVec.ofNat 64 msg.data.length)) := by
  rw [cmsgNxthdr_eq (h.bound hstop) h.nonnull (by omega) (cmsgLenField_eq h.size h.placed.1),
    h.claimed_eq, ofNat_cmsgLenField h.size, darwinAlign32_cmsgLen h.size]

/-- A step of the walk comes to the next message, or to `NULL` behind the last one. -/
theorem Standing.step : ∃ next, cmsgNxthdr m mhdr cmsg = .ok next ∧ Found m mhdr msgs next := by
  refine ⟨_, h.nxthdr hstop, ?_⟩
  have hinside := h.inside
  have hwhole := h.whole
  have hbehind := h.behind
  have hnext := h.toNat_next hstop
  cases msgs with
  | nil =>
    simp only [space] at hwhole
    exact if_pos (by omega)
  | cons msg' msgs =>
    have hle := le_extent msg' msgs
    rw [extent] at hinside
    rw [space] at hwhole
    rw [if_neg (by omega)]
    exact ⟨ne_zero_of_toNat_le h.nonnull (by omega), by omega, h.placed.2, by omega, by omega⟩

end Step

/-- The walk starts at the first message. -/
theorem found_cmsgFirsthdr (hnull : mhdr.control ≠ 0) (hplaced : Placed m mhdr.control msgs)
    (hinside : extent msgs ≤ mhdr.controllen.toNat)
    (hwhole : mhdr.controllen.toNat < space msgs + 12) :
    Found m mhdr msgs (cmsgFirsthdr mhdr) := by
  rw [cmsgFirsthdr_eq]
  cases msgs with
  | nil =>
    simp only [space] at hwhole
    exact if_neg (by omega)
  | cons msg msgs =>
    have hle := le_extent msg msgs
    rw [if_pos (by omega)]
    exact ⟨hnull, le_rfl, hplaced, by unfold Msghdr.stop; omega, by unfold Msghdr.stop; omega⟩

/-- A pass over a message reads it and leaves the others. -/
theorem Standing.pass (hstop : mhdr.stop + 15 < 2 ^ 64)
    (h : Standing m mhdr (msg :: msgs) cmsg) (acc : List Message) :
    ∃ next, foreachPass m mhdr (readMessage m) (cmsg, acc) = .ok (.inl (next, acc ++ [msg])) ∧
      Found m mhdr msgs next := by
  obtain ⟨next, hnext, hfound⟩ := h.step hstop
  refine ⟨next, ?_, hfound⟩
  simp only [foreachPass, if_neg h.nonnull, h.read, hnext, ok_bind]
  rfl

/-- Messages that were laid out with `CMSG_LEN` and `CMSG_SPACE` are read back by a walk with
`CMSG_FIRSTHDR`, `CMSG_NXTHDR` and `CMSG_DATA`, whether the padding behind the last of them is
counted or not. -/
theorem messages_of_walk (hnull : mhdr.control ≠ 0) (hplaced : Placed m mhdr.control msgs)
    (hinside : extent msgs ≤ mhdr.controllen.toNat)
    (hwhole : mhdr.controllen.toNat < space msgs + 12) (hstop : mhdr.stop + 15 < 2 ^ 64)
    {fuel : Nat} (hfuel : msgs.length < fuel) :
    foreachCmsg m mhdr (readMessage m) fuel = .ok msgs := by
  let inv (visited left : List Message) (s : BitVec 64 × List Message) : Prop :=
    Found m mhdr left s.1 ∧ s.2 = visited
  have hdone : ∀ s, inv msgs [] s →
      ∃ r, foreachPass m mhdr (readMessage m) s = .ok (.inr r) ∧ r = msgs := by
    rintro ⟨cmsg, acc⟩ ⟨hfound, rfl⟩
    obtain rfl : cmsg = 0 := hfound
    exact ⟨acc, rfl, rfl⟩
  have hpass : ∀ visited msg left s, inv visited (msg :: left) s →
      ∃ s', foreachPass m mhdr (readMessage m) s = .ok (.inl s') ∧
        inv (visited ++ [msg]) left s' := by
    rintro visited msg left ⟨cmsg, acc⟩ ⟨hfound, rfl⟩
    obtain ⟨next, hnext, hleft⟩ := Standing.pass hstop hfound acc
    exact ⟨_, hnext, hleft, rfl⟩
  have hfirst : inv [] msgs (cmsgFirsthdr mhdr, []) :=
    ⟨found_cmsgFirsthdr hnull hplaced hinside hwhole, rfl⟩
  obtain ⟨r, hr, rfl⟩ := loop_visits _ inv (· = msgs) hdone hpass hfirst hfuel
  exact hr

/-- The data of the first message has three bytes, so there is one byte of padding behind it. -/
theorem messages_of_walk_two :
    let msgs : List Message := [⟨0xffff, 1, [1, 2, 3]⟩, ⟨0xffff, 2, [5]⟩]
    let m := Memory.ofBuffer 0x1000
      ([15, 0, 0, 0, 0xff, 0xff, 0, 0, 1, 0, 0, 0, 1, 2, 3, 0] ++
        [13, 0, 0, 0, 0xff, 0xff, 0, 0, 2, 0, 0, 0, 5])
    foreachCmsg m ⟨0x1000, 29⟩ (readMessage m) 3 = .ok msgs := by
  intro msgs m
  have hfirst : m.Holds 0x1000 (Message.bytes ⟨0xffff, 1, [1, 2, 3]⟩) := by
    unfold Memory.Holds
    decide
  have hsecond : m.Holds 0x1010 (Message.bytes ⟨0xffff, 2, [5]⟩) := by
    unfold Memory.Holds
    decide
  have hplaced : Placed m 0x1000 msgs := ⟨hfirst, hsecond, trivial⟩
  exact messages_of_walk (by decide) hplaced (by decide) (by decide) (by decide) (by decide)

end Walk

end MacKernel.ControlMessage
