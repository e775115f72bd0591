import MacKernel.Core.Bytes

/-!
# Control messages of `sys/socket.h`

The macros for the ancillary data of a message, with 64-bit pointers. A header is read from
memory at every use.
-/

namespace MacKernel.ControlMessage

/-- `__DARWIN_ALIGN32`. -/
def darwinAlign32 (p : BitVec 64) : BitVec 64 := (p + 3) &&& ~~~3

/-- `sizeof(struct cmsghdr)`: length, level and type before the data. -/
def cmsghdrSize : BitVec 64 := 12

/-- The ancillary data of a `struct msghdr`. -/
structure Msghdr where
  /-- `msg_control`. -/
  control : BitVec 64
  /-- `msg_controllen`. -/
  controllen : UInt32
  deriving DecidableEq, Repr

/-- `cmsg->cmsg_len`. -/
def cmsgLenField (m : Memory 64) (cmsg : BitVec 64) : Except Fault UInt32 := m.readU32 cmsg

/-- `cmsg->cmsg_level`. -/
def cmsgLevel (m : Memory 64) (cmsg : BitVec 64) : Except Fault UInt32 := m.readU32 (cmsg + 4)

/-- `cmsg->cmsg_type`. -/
def cmsgType (m : Memory 64) (cmsg : BitVec 64) : Except Fault UInt32 := m.readU32 (cmsg + 8)

/-- `CMSG_DATA`. -/
def cmsgData (cmsg : BitVec 64) : BitVec 64 := cmsg + darwinAlign32 cmsghdrSize

/-- `CMSG_SPACE`. -/
def cmsgSpace (l : BitVec 64) : BitVec 64 := darwinAlign32 cmsghdrSize + darwinAlign32 l

/-- `CMSG_LEN`. -/
def cmsgLen (l : BitVec 64) : BitVec 64 := darwinAlign32 cmsghdrSize + l

/-- `CMSG_FIRSTHDR`. -/
def cmsgFirsthdr (mhdr : Msghdr) : BitVec 64 :=
  if cmsghdrSize ≤ BitVec.ofNat 64 mhdr.controllen.toNat then mhdr.control else 0

/-- `CMSG_NXTHDR`. -/
def cmsgNxthdr (m : Memory 64) (mhdr : Msghdr) (cmsg : BitVec 64) :
    Except Fault (BitVec 64) := do
  if cmsg = 0 then return cmsgFirsthdr mhdr
  else
    let len ← cmsgLenField m cmsg
    if cmsg + darwinAlign32 (BitVec.ofNat 64 len.toNat) + darwinAlign32 cmsghdrSize >
        mhdr.control + BitVec.ofNat 64 mhdr.controllen.toNat then return 0
    else
      let len ← cmsgLenField m cmsg
      return cmsg + darwinAlign32 (BitVec.ofNat 64 len.toNat)

/-- One pass of a walk over the control messages, which collects what is read from each. -/
def foreachPass {ρ : Type} (m : Memory 64) (mhdr : Msghdr) (read : BitVec 64 → Except Fault ρ) :
    BitVec 64 × List ρ → Except Fault (BitVec 64 × List ρ ⊕ List ρ)
  | (cmsg, acc) => do
    if cmsg = 0 then return .inr acc
    else
      let r ← read cmsg
      let next ← cmsgNxthdr m mhdr cmsg
      return .inl (next, acc ++ [r])

/-- The walk from `CMSG_FIRSTHDR` by `CMSG_NXTHDR` up to `NULL`. -/
def foreachCmsg {ρ : Type} (m : Memory 64) (mhdr : Msghdr) (read : BitVec 64 → Except Fault ρ)
    (fuel : Nat) : Except Fault (List ρ) :=
  loop (foreachPass m mhdr read) fuel (cmsgFirsthdr mhdr, [])

/-- A control message as its receiver has it. -/
structure Message where
  level : UInt32
  type : UInt32
  data : List UInt8
  deriving DecidableEq, Repr

/-- Read a control message, whose data has `CMSG_LEN(0)` bytes less than its length says. -/
def readMessage (m : Memory 64) (cmsg : BitVec 64) : Except Fault Message := do
  let len ← cmsgLenField m cmsg
  let level ← cmsgLevel m cmsg
  let type ← cmsgType m cmsg
  let data ← m.readBytes (BitVec.ofNat 64 len.toNat - cmsgLen 0).toNat (cmsgData cmsg)
  return ⟨level, type, data⟩

section Align

private theorem darwinAlign32_eq (p : BitVec 64) : darwinAlign32 p = (p + 3) >>> 2 <<< 2 := by
  unfold darwinAlign32
  generalize p + 3 = x
  apply BitVec.eq_of_getLsbD_eq
  intro i hi
  have hthree : (3 : BitVec 64).getLsbD i = decide (i < 2) := by
    change (BitVec.ofNat 64 (2 ^ 2 - 1)).getLsbD i = _
    rw [BitVec.getLsbD_ofNat, Nat.testBit_two_pow_sub_one, decide_eq_true hi, Bool.true_and]
  rw [BitVec.getLsbD_and, BitVec.getLsbD_not, hthree, BitVec.getLsbD_shiftLeft,
    BitVec.getLsbD_ushiftRight, decide_eq_true hi]
  by_cases hlow : i < 2
  · simp [hlow]
  · simp [hlow, Nat.add_sub_cancel' (Nat.le_of_not_lt hlow)]

/-- The least multiple of four that is not less. -/
theorem toNat_darwinAlign32 {p : BitVec 64} (h : p.toNat + 3 < 2 ^ 64) :
    (darwinAlign32 p).toNat = (p.toNat + 3) / 4 * 4 := by
  have hsum : (p + 3).toNat = p.toNat + 3 := by
    rw [BitVec.toNat_add]
    exact Nat.mod_eq_of_lt h
  have hle := Nat.div_mul_le_self (p.toNat + 3) 4
  rw [darwinAlign32_eq, BitVec.toNat_shiftLeft, BitVec.toNat_ushiftRight, hsum,
    Nat.shiftRight_eq_div_pow, Nat.shiftLeft_eq]
  exact Nat.mod_eq_of_lt (Nat.lt_of_le_of_lt hle h)

@[simp] theorem darwinAlign32_cmsghdrSize : darwinAlign32 cmsghdrSize = 12 := rfl

end Align

section Next

variable {m : Memory 64} {mhdr : Msghdr} {cmsg : BitVec 64}

/-- Where the ancillary data ends. -/
def Msghdr.stop (mhdr : Msghdr) : Nat := mhdr.control.toNat + mhdr.controllen.toNat

/-- The room that a header with this length claims. -/
def claimed (len : UInt32) : Nat := (len.toNat + 3) / 4 * 4

private theorem toNat_stop (hstop : mhdr.stop < 2 ^ 64) :
    (mhdr.control + BitVec.ofNat 64 mhdr.controllen.toNat).toNat = mhdr.stop := by
  have hlen := mhdr.controllen.toNat_lt
  unfold Msghdr.stop at hstop ⊢
  rw [BitVec.toNat_add, BitVec.toNat_ofNat]
  omega

theorem cmsgFirsthdr_eq (mhdr : Msghdr) :
    cmsgFirsthdr mhdr = if 12 ≤ mhdr.controllen.toNat then mhdr.control else 0 := by
  have hlen := mhdr.controllen.toNat_lt
  have hcmp : cmsghdrSize ≤ BitVec.ofNat 64 mhdr.controllen.toNat ↔
      12 ≤ mhdr.controllen.toNat := by
    rw [BitVec.le_def, BitVec.toNat_ofNat, Nat.mod_eq_of_lt (by omega)]
    rfl
  simp only [cmsgFirsthdr, hcmp]

/-- No address behind a header is `NULL`. -/
theorem ne_zero_of_toNat_le {next : BitVec 64} (hnull : cmsg ≠ 0)
    (hle : cmsg.toNat ≤ next.toNat) : next ≠ 0 := by
  rintro rfl
  exact hnull (BitVec.eq_of_toNat_eq (Nat.le_zero.mp hle))

variable {len : UInt32} (hbound : cmsg.toNat + claimed len + 12 < 2 ^ 64)

include hbound

theorem toNat_add_claimed :
    (cmsg + darwinAlign32 (BitVec.ofNat 64 len.toNat)).toNat = cmsg.toNat + claimed len := by
  have hlt := len.toNat_lt
  have hlen : (BitVec.ofNat 64 len.toNat).toNat = len.toNat := by
    rw [BitVec.toNat_ofNat, Nat.mod_eq_of_lt (by omega)]
  rw [BitVec.toNat_add, toNat_darwinAlign32 (by rw [hlen]; omega), hlen]
  exact Nat.mod_eq_of_lt (by unfold claimed at hbound; omega)

/-- `CMSG_NXTHDR` compares the end of a header behind the message with the end of the data. -/
theorem cmsgNxthdr_eq (hnull : cmsg ≠ 0) (hstop : mhdr.stop < 2 ^ 64)
    (hlen : cmsgLenField m cmsg = .ok len) : cmsgNxthdr m mhdr cmsg =
      .ok (if mhdr.stop < cmsg.toNat + claimed len + 12 then 0
        else cmsg + darwinAlign32 (BitVec.ofNat 64 len.toNat)) := by
  have hend : (cmsg + darwinAlign32 (BitVec.ofNat 64 len.toNat) + 12).toNat =
      cmsg.toNat + claimed len + 12 := by
    rw [BitVec.toNat_add, toNat_add_claimed hbound]
    exact Nat.mod_eq_of_lt hbound
  simp only [cmsgNxthdr, if_neg hnull, hlen, ok_bind, darwinAlign32_cmsghdrSize, gt_iff_lt,
    BitVec.lt_def, toNat_stop hstop, hend]
  split <;> rfl

end Next

end MacKernel.ControlMessage
