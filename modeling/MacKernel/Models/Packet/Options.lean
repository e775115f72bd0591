import MacKernel.Core.Bytes
import MacKernel.Models.Packet.Native

/-!
# Packet options of `skywalk/packet`

The setters and getters of token, packet id, expiry, VLAN tag and timestamp. User
packets hold their options themselves and kernel packets behind a pointer; the
functions are the same otherwise and are written once, over what both offer. Output
pointers are optional values, `none` for `NULL`, and token bytes are read from memory.
-/

namespace MacKernel.Packet

section Layout

/-- The values of `errno_t` that the packet functions return; `success` is zero. -/
inductive Errno where
  | success
  | enoent
  | einval
  | erange
  deriving DecidableEq, Repr

/-- `PKT_F_TS_VALID`. -/
def pktFTsValid : BitVec 64 := 0x1000000

/-- `PKT_F_OPT_EXPIRE_TS`. -/
def pktFOptExpireTs : BitVec 64 := 0x400000000

/-- `PKT_F_OPT_TOKEN`. -/
def pktFOptToken : BitVec 64 := 0x800000000

/-- `PKT_F_OPT_VLTAG`. -/
def pktFOptVltag : BitVec 64 := 0x40000000000

/-- `PKT_F_OPT_VLTAG_IN_PKT`. -/
def pktFOptVltagInPkt : BitVec 64 := 0x80000000000

/-- `PKT_OPT_TOKEN_TYPE_OPAQUE`. -/
def pktOptTokenTypeOpaque : BitVec 8 := 1

/-- `PKT_OPT_TOKEN_TYPE_PACKET_ID`. -/
def pktOptTokenTypePacketId : BitVec 8 := 2

/-- `PKT_OPT_MAX_TOKEN_SIZE`. -/
def pktOptMaxTokenSize : BitVec 16 := 16

/-- `sizeof(packet_id_t)`. -/
def packetIdSize : BitVec 16 := 16

/-- `__po_token_type`. -/
def poTokenType : Field 256 32 := ⟨0, by decide⟩

/-- `__po_token_len`. -/
def poTokenLen : Field 256 16 := ⟨32, by decide⟩

/-- `__po_vlan_tag`. -/
def poVlanTag : Field 256 16 := ⟨48, by decide⟩

private theorem poExpireTs_fits : 192 + 64 ≤ 256 := by decide

/-- `__po_expire_ts`. -/
def poExpireTs : Field 256 64 := ⟨192, poExpireTs_fits⟩

/-- The first byte of `__po_token`, in bytes from the start of the block. -/
def poTokenOffset : Nat := 8

/-- `__po_token[i]`. -/
def poToken (po : BitVec 256) (i : Nat) : UInt8 := byteAt po (poTokenOffset + i)

/-- What the option functions read and write of a packet: its flags and its option block. -/
class PacketOpts (P : Type) where
  pflags : P → BitVec 64
  setPflags : BitVec 64 → P → P
  po : P → BitVec 256
  setPo : BitVec 256 → P → P
  pflags_setPflags : ∀ f p, pflags (setPflags f p) = f
  pflags_setPo : ∀ x p, pflags (setPo x p) = pflags p
  po_setPflags : ∀ f p, po (setPflags f p) = po p
  po_setPo : ∀ x p, po (setPo x p) = x

export PacketOpts (pflags setPflags po setPo)

attribute [simp] PacketOpts.pflags_setPflags PacketOpts.pflags_setPo PacketOpts.po_setPflags
  PacketOpts.po_setPo

instance : PacketOpts UserPacket where
  pflags p := pktPflags.get p.com
  setPflags f p := { p with com := pktPflags.set f p.com }
  po p := p.comOpt
  setPo x p := { p with comOpt := x }
  pflags_setPflags _ _ := Field.get_set_self _ _ _
  pflags_setPo _ _ := rfl
  po_setPflags _ _ := rfl
  po_setPo _ _ := rfl

/-- A kernel packet with option storage, and the memory its options are in. -/
structure KernOptPacket where
  areas : Areas
  pkt : KernPacket
  stored : pkt.comOpt ≠ 0

instance : PacketOpts KernOptPacket where
  pflags p := p.pkt.pflags
  setPflags f p := { p with pkt := p.pkt.setPflags f, stored := p.stored }
  po p := p.areas.opt p.pkt.comOpt
  setPo x p := { p with areas := p.areas.setOpt p.pkt.comOpt x }
  pflags_setPflags _ _ := Field.get_set_self _ _ _
  pflags_setPo _ _ := rfl
  po_setPflags _ _ := rfl
  po_setPo _ _ := Function.update_self _ _ _

end Layout

section Expiry

variable {P : Type} [PacketOpts P]

/-- `__packet_get_expire_time`. -/
def packetGetExpireTime (ph : P) (ts : Option (BitVec 64)) : Errno × Option (BitVec 64) :=
  if pflags ph &&& pktFOptExpireTs = 0 then (.enoent, ts)
  else match ts with
    | none => (.einval, none)
    | some _ => (.success, some (poExpireTs.get (po ph)))

/-- `__packet_set_expire_time`. -/
def packetSetExpireTime (ph : P) (ts : BitVec 64) : Errno × P :=
  if ts ≠ 0 then
    let ph := setPo (poExpireTs.set ts (po ph)) ph
    (.success, setPflags (pflags ph ||| pktFOptExpireTs) ph)
  else
    let ph := setPo (poExpireTs.set 0 (po ph)) ph
    (.success, setPflags (pflags ph &&& ~~~pktFOptExpireTs) ph)

end Expiry

section Token

variable {P : Type} [PacketOpts P]

/-- The memory behind an output pointer, by offset. -/
abbrev OutBuf := Nat → UInt8

/-- `bcopy(po->__po_token, token, tlen)`. -/
def copyToken (po : BitVec 256) (tlen : BitVec 16) (token : OutBuf) : OutBuf :=
  fun i => if i < tlen.toNat then poToken po i else token i

/-- `__packet_opt_get_token`: the error, then the three outputs. -/
def packetOptGetToken (po : BitVec 256) (token : Option OutBuf) (len : Option (BitVec 16))
    (type : Option (BitVec 8)) :
    Except Fault (Errno × Option OutBuf × Option (BitVec 16) × Option (BitVec 8)) :=
  let tlen := poTokenLen.get po
  match token, len, type with
  | some token, some len, some type =>
    if len < tlen ∨ 255 < poTokenType.get po then
      return (.einval, some token, some len, some type)
    else do
      let ttype := (poTokenType.get po).setWidth 8
      kassert (tlen ≤ pktOptMaxTokenSize)
      return (.success, some (copyToken po tlen token), some tlen, some ttype)
  | token, len, type => return (.einval, token, len, type)

/-- `__packet_get_token`. The type is a local, of which nothing is known before. -/
def packetGetToken (ph : P) (token : Option OutBuf) (len : Option (BitVec 16)) (type : BitVec 8) :
    Except Fault (Errno × Option OutBuf × Option (BitVec 16)) :=
  if pflags ph &&& pktFOptToken = 0 then return (.enoent, token, len)
  else do
    let (err, token, len, type) ← packetOptGetToken (po ph) token len (some type)
    if err = .success ∧ type ≠ some pktOptTokenTypeOpaque then return (.enoent, token, len)
    else return (err, token, len)

/-- `IS_P2ALIGNED(token, 8)`. -/
def isP2Aligned8 (token : BitVec 64) : Bool := token &&& 7 = 0

/-- The two ways to copy a token: an aligned one is moved as two words of eight bytes,
another one as `len` bytes. -/
def storeToken (m : Memory 64) (token : BitVec 64) (len : BitVec 16) (po : BitVec 256) :
    Except Fault (BitVec 256) :=
  if isP2Aligned8 token then do
    let po := putBytes poTokenOffset (← m.readBytes 8 token) po
    return putBytes (poTokenOffset + 8) (← m.readBytes 8 (token + 8)) po
  else do
    return putBytes poTokenOffset (← m.readBytes len.toNat token) po

/-- `__packet_opt_set_token`: the error, the option block and the flags. -/
def packetOptSetToken (m : Memory 64) (po : BitVec 256) (token : BitVec 64) (len : BitVec 16)
    (type : BitVec 8) (pflags : BitVec 64) : Except Fault (Errno × BitVec 256 × BitVec 64) :=
  if len ≠ 0 then
    if token = 0 ∨ pktOptMaxTokenSize < len ∨ type = 0 then return (.einval, po, pflags)
    else do
      let po ← storeToken m token len po
      let po := poTokenLen.set len po
      let po := poTokenType.set (type.setWidth 32) po
      return (.success, po, pflags ||| pktFOptToken)
  else
    let po := putBytes poTokenOffset (List.replicate 8 0) po
    let po := putBytes (poTokenOffset + 8) (List.replicate 8 0) po
    let po := poTokenLen.set 0 po
    let po := poTokenType.set 0 po
    return (.success, po, pflags &&& ~~~pktFOptToken)

/-- The calls of `__packet_opt_set_token` on a packet, with the type that the caller gives. -/
def packetSetTokenOf (m : Memory 64) (ph : P) (token : BitVec 64) (len : BitVec 16)
    (type : BitVec 8) : Except Fault (Errno × P) := do
  let (err, x, f) ← packetOptSetToken m (po ph) token len type (pflags ph)
  return (err, setPflags f (setPo x ph))

/-- `__packet_set_token`. -/
def packetSetToken (m : Memory 64) (ph : P) (token : BitVec 64) (len : BitVec 16) :
    Except Fault (Errno × P) :=
  packetSetTokenOf m ph token len pktOptTokenTypeOpaque

/-- `__packet_get_packetid`. Length and type are locals. -/
def packetGetPacketid (ph : P) (pktid : Option OutBuf) (type : BitVec 8) :
    Except Fault (Errno × Option OutBuf) :=
  let len := packetIdSize
  if pflags ph &&& pktFOptToken = 0 then return (.enoent, pktid)
  else do
    let (err, pktid, len, type) ← packetOptGetToken (po ph) pktid (some len) (some type)
    if err = .success ∧ (type ≠ some pktOptTokenTypePacketId ∨ len ≠ some packetIdSize) then
      return (.enoent, pktid)
    else return (err, pktid)

/-- `__packet_set_packetid`. -/
def packetSetPacketid (m : Memory 64) (ph : P) (pktid : BitVec 64) : Except Fault (Errno × P) :=
  packetSetTokenOf m ph pktid packetIdSize pktOptTokenTypePacketId

end Token

section VlanTag

variable {P : Type} [PacketOpts P]

/-- `__packet_get_vlan_tag`. -/
def packetGetVlanTag (ph : P) (vlanTag : Option (BitVec 16)) (tagInPkt : Option (BitVec 32)) :
    Errno × Option (BitVec 16) × Option (BitVec 32) :=
  if pflags ph &&& pktFOptVltag = 0 then (.enoent, vlanTag, tagInPkt)
  else (.success, vlanTag.map fun _ => poVlanTag.get (po ph),
    tagInPkt.map fun _ => if pflags ph &&& pktFOptVltagInPkt ≠ 0 then 1 else 0)

/-- `__packet_set_vlan_tag`. -/
def packetSetVlanTag (ph : P) (vlanTag : BitVec 16) (tagInPkt : BitVec 32) : Errno × P :=
  let ph := setPflags (pflags ph ||| pktFOptVltag) ph
  let ph := setPo (poVlanTag.set vlanTag (po ph)) ph
  if tagInPkt ≠ 0 then (.success, setPflags (pflags ph ||| pktFOptVltagInPkt) ph)
  else (.success, ph)

end VlanTag

section Timestamp

/-- `__packet_get_timestamp`: the error, then the outputs. -/
def packetGetTimestamp (ph : KernPacket) (ts : Option (BitVec 64)) (valid : Option (BitVec 32)) :
    Except Fault (Errno × Option (BitVec 64) × Option (BitVec 32)) := do
  let _ ← deref ts
  if ph.pflags &&& pktFTsValid ≠ 0 then
    return (.success, some ph.timestamp, valid.map fun _ => 1)
  else return (.success, some 0, valid.map fun _ => 0)

/-- `__packet_set_timestamp`. -/
def packetSetTimestamp (ph : KernPacket) (ts : BitVec 64) (valid : BitVec 32) :
    Errno × KernPacket :=
  if valid ≠ 0 then
    let ph := { ph with timestamp := ts }
    (.success, ph.setPflags (ph.pflags ||| pktFTsValid))
  else
    let ph := ph.setPflags (ph.pflags &&& ~~~pktFTsValid)
    (.success, { ph with timestamp := 0 })

end Timestamp

end MacKernel.Packet
