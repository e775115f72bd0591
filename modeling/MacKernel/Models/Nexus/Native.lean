import Mathlib.Logic.Function.Basic

/-!
# Nexus attributes and provider registration

`__nexus_attr_set` collects attributes of 64 bits with a flag for each one that was
requested, `__nexus_provider_reg_prepare` packs the requested ones into the parameters of
32 bits that are sent to register a provider, and `__nexus_attr_from_params` unpacks
parameters for `__nexus_attr_get`.
-/

namespace MacKernel.Nexus

section Types

/-- The error numbers that are returned. -/
inductive Errno where
  | success
  | einval
  | enotsup
  deriving DecidableEq, Repr

/-- `nexus_attr_type_t`. -/
inductive NexusAttrType where
  | txRings
  | rxRings
  | txSlots
  | rxSlots
  | slotBufSize
  | slotMetaSize
  | anonymous
  | mhints
  | pipes
  | extensions
  | ifindex
  | statsSize
  | flowadvMax
  | qmap
  | checksumOffload
  | userPacketPool
  | advSize
  | userChannel
  | maxFrags
  | rejectOnClose
  deriving DecidableEq, Repr

/-- `nexus_type_t`. -/
inductive NexusType where
  | userPipe
  | kernelPipe
  | netIf
  | flowSwitch
  deriving DecidableEq, Repr

/-- The number of the bit of `NXA_REQ_*`. -/
def nxaReq : NexusAttrType → Nat
  | .txRings => 0
  | .rxRings => 1
  | .txSlots => 2
  | .rxSlots => 3
  | .slotBufSize => 4
  | .slotMetaSize => 5
  | .statsSize => 6
  | .anonymous => 7
  | .pipes => 8
  | .extensions => 9
  | .mhints => 10
  | .flowadvMax => 11
  | .qmap => 12
  | .checksumOffload => 13
  | .userPacketPool => 14
  | .advSize => 16
  | .ifindex => 17
  | .userChannel => 18
  | .maxFrags => 19
  | .rejectOnClose => 20

/-- The number of the bit of `NXPREQ_*`. -/
def nxpreq : NexusAttrType → Nat
  | .txRings => 0
  | .rxRings => 1
  | .txSlots => 2
  | .rxSlots => 3
  | .slotBufSize => 4
  | .slotMetaSize => 5
  | .statsSize => 6
  | .anonymous => 7
  | .pipes => 8
  | .extensions => 9
  | .mhints => 10
  | .flowadvMax => 11
  | .qmap => 12
  | .checksumOffload => 13
  | .userPacketPool => 14
  | .advSize => 16
  | .ifindex => 17
  | .userChannel => 18
  | .maxFrags => 19
  | .rejectOnClose => 20

/-- `struct nexus_attr`, with its values by attribute. -/
structure NexusAttr where
  /-- `nxa_requested`. -/
  requested : BitVec 64
  value : NexusAttrType → BitVec 64

/-- The fields of `struct nxprov_params` that are read or written. -/
structure NxprovParams where
  name : List UInt8
  namelen : BitVec 32
  type : NexusType
  flags : BitVec 32
  txRings : BitVec 32
  rxRings : BitVec 32
  txSlots : BitVec 32
  rxSlots : BitVec 32
  bufSize : BitVec 32
  metaSize : BitVec 32
  statsSize : BitVec 32
  pipes : BitVec 32
  extensions : BitVec 32
  mhints : BitVec 32
  ifindex : BitVec 32
  flowadvMax : BitVec 32
  qmap : BitVec 32
  capabilities : BitVec 32
  nexusadvSize : BitVec 32
  maxFrags : BitVec 32
  rejectOnClose : BitVec 32
  deriving DecidableEq

/-- `struct nxprov_reg`. -/
structure NxprovReg where
  version : BitVec 32
  requested : BitVec 32
  params : NxprovParams
  deriving DecidableEq

/-- Attributes of zeros. -/
def NexusAttr.zero : NexusAttr := ⟨0, fun _ => 0⟩

/-- Parameters of zeros, where `NEXUS_TYPE_USER_PIPE` is zero. -/
def NxprovParams.zero : NxprovParams :=
  ⟨List.replicate 64 0, 0, .userPipe, 0, 0, 0, 0, 0, 0, 0, 0, 0, 0, 0, 0, 0, 0, 0, 0, 0, 0⟩

end Types

section Attributes

/-- `NXPF_ANONYMOUS`. -/
def nxpfAnonymous : BitVec 32 := 0x1

/-- `NXPF_USER_CHANNEL`. -/
def nxpfUserChannel : BitVec 32 := 0x2

/-- `NXPCAP_CHECKSUM_PARTIAL`. -/
def nxpcapChecksumPartial : BitVec 32 := 0x1

/-- `NXPCAP_USER_PACKET_POOL`. -/
def nxpcapUserPacketPool : BitVec 32 := 0x2

/-- `NEXUS_QMAP_TYPE_WMM`. -/
def nexusQmapTypeWmm : BitVec 64 := 2

/-- `NEXUS_NUM_WMM_QUEUES`. -/
def nexusNumWmmQueues : BitVec 32 := 4

/-- `NXPROV_REG_CURRENT_VERSION`. -/
def nxprovRegCurrentVersion : BitVec 32 := 1

/-- A truth value as an integer. -/
def bit (n : Nat) (b : Bool) : BitVec n := if b then 1 else 0

/-- Set the flag of an attribute and its value. -/
def NexusAttr.request (nxa : NexusAttr) (type : NexusAttrType) (value : BitVec 64) : NexusAttr where
  requested := nxa.requested ||| BitVec.twoPow 64 (nxaReq type)
  value := Function.update nxa.value type value

/-- `__nexus_attr_set`, in the kernel or in the library of system calls. `none` is an attribute
type that is no enumerator. -/
def nexusAttrSet (libsyscall : Bool) (nxa : Option NexusAttr) (type : Option NexusAttrType)
    (value : BitVec 64) : Option NexusAttr × Errno :=
  match nxa with
  | none => (none, .einval)
  | some nxa =>
    match type with
    | some .txRings => (some (nxa.request .txRings value), .success)
    | some .rxRings => (some (nxa.request .rxRings value), .success)
    | some .txSlots => (some (nxa.request .txSlots value), .success)
    | some .rxSlots => (some (nxa.request .rxSlots value), .success)
    | some .slotBufSize => (some (nxa.request .slotBufSize value), .success)
    | some .anonymous => (some (nxa.request .anonymous value), .success)
    | some .pipes => (some (nxa.request .pipes value), .success)
    | some .extensions => (some (nxa.request .extensions value), .success)
    | some .mhints => (some (nxa.request .mhints value), .success)
    | some .qmap => (some (nxa.request .qmap value), .success)
    | some .ifindex =>
      if libsyscall then (some nxa, .enotsup) else (some (nxa.request .ifindex value), .success)
    | some .userChannel => (some (nxa.request .userChannel value), .success)
    | some .maxFrags => (some (nxa.request .maxFrags value), .success)
    | some .rejectOnClose => (some (nxa.request .rejectOnClose (bit 64 (value ≠ 0))), .success)
    | some .flowadvMax | some .statsSize | some .slotMetaSize | some .checksumOffload
    | some .userPacketPool | some .advSize => (some nxa, .enotsup)
    | none => (some nxa, .einval)

/-- `__nexus_attr_get`, with what is at `value` before and after. -/
def nexusAttrGet (nxa : Option NexusAttr) (type : Option NexusAttrType)
    (value : Option (BitVec 64)) : Option (BitVec 64) × Errno :=
  match nxa, value with
  | some nxa, some value =>
    match type with
    | some type => (some (nxa.value type), .success)
    | none => (some value, .einval)
  | _, _ => (value, .einval)

/-- `__nexus_attr_from_params`. -/
def nexusAttrFromParams (p : NxprovParams) : NexusAttr where
  requested := 0
  value
    | .txRings => p.txRings.setWidth 64
    | .rxRings => p.rxRings.setWidth 64
    | .txSlots => p.txSlots.setWidth 64
    | .rxSlots => p.rxSlots.setWidth 64
    | .slotBufSize => p.bufSize.setWidth 64
    | .slotMetaSize => p.metaSize.setWidth 64
    | .statsSize => p.statsSize.setWidth 64
    | .flowadvMax => p.flowadvMax.setWidth 64
    | .anonymous => bit 64 (p.flags &&& nxpfAnonymous ≠ 0)
    | .pipes => p.pipes.setWidth 64
    | .extensions => p.extensions.setWidth 64
    | .mhints => p.mhints.setWidth 64
    | .ifindex => p.ifindex.setWidth 64
    | .qmap => p.qmap.setWidth 64
    | .checksumOffload => bit 64 (p.capabilities &&& nxpcapChecksumPartial ≠ 0)
    | .userPacketPool => bit 64 (p.capabilities &&& nxpcapUserPacketPool ≠ 0)
    | .advSize => p.nexusadvSize.setWidth 64
    | .userChannel => bit 64 (p.flags &&& nxpfUserChannel ≠ 0)
    | .maxFrags => p.maxFrags.setWidth 64
    | .rejectOnClose => bit 64 (p.rejectOnClose ≠ 0)

end Attributes

section Registration

/-- The order in which `__nexus_provider_reg_prepare` looks at the attributes. -/
def prepareOrder : List NexusAttrType :=
  [.txRings, .rxRings, .txSlots, .rxSlots, .slotBufSize, .anonymous, .pipes, .extensions, .mhints,
    .qmap, .ifindex, .userChannel, .maxFrags, .rejectOnClose]

/-- The checks of a requested attribute. -/
def attrValid (type : NexusType) (p : NxprovParams) (value : BitVec 64) : NexusAttrType → Bool
  | .qmap => type = .netIf ∧ ¬(value = nexusQmapTypeWmm ∧ p.txRings ≠ nexusNumWmmQueues)
  | .ifindex => type = .netIf
  | .maxFrags => ¬(type ≠ .netIf ∧ type ≠ .flowSwitch)
  | .rejectOnClose => type = .userPipe
  | _ => true

/-- Set or clear a flag. -/
def flagged (flag : BitVec 32) (value : BitVec 64) (flags : BitVec 32) : BitVec 32 :=
  if value ≠ 0 then flags ||| flag else flags &&& ~~~flag

/-- Where a requested attribute is stored. -/
def attrStore (p : NxprovParams) (value : BitVec 64) : NexusAttrType → NxprovParams
  | .txRings => { p with txRings := value.setWidth 32 }
  | .rxRings => { p with rxRings := value.setWidth 32 }
  | .txSlots => { p with txSlots := value.setWidth 32 }
  | .rxSlots => { p with rxSlots := value.setWidth 32 }
  | .slotBufSize => { p with bufSize := value.setWidth 32 }
  | .anonymous => { p with flags := flagged nxpfAnonymous value p.flags }
  | .pipes => { p with pipes := value.setWidth 32 }
  | .extensions => { p with extensions := value.setWidth 32 }
  | .mhints => { p with mhints := value.setWidth 32 }
  | .qmap => { p with qmap := value.setWidth 32 }
  | .ifindex => { p with ifindex := value.setWidth 32 }
  | .userChannel => { p with flags := flagged nxpfUserChannel value p.flags }
  | .maxFrags => { p with maxFrags := value.setWidth 32 }
  | .rejectOnClose => { p with rejectOnClose := bit 32 (value ≠ 0) }
  | .slotMetaSize | .statsSize | .flowadvMax | .checksumOffload | .userPacketPool | .advSize => p

/-- The part of `__nexus_provider_reg_prepare` for one attribute; an error leaves the
registration as it is. -/
def prepareAttr (type : NexusType) (nxa : NexusAttr) (reg : NxprovReg) (attr : NexusAttrType) :
    Except NxprovReg NxprovReg :=
  if nxa.requested &&& BitVec.twoPow 64 (nxaReq attr) ≠ 0 then
    if attrValid type reg.params (nxa.value attr) attr then
      .ok { reg with
        requested := reg.requested ||| BitVec.twoPow 32 (nxpreq attr)
        params := attrStore reg.params (nxa.value attr) attr }
    else .error reg
  else .ok reg

/-- What `strlcpy` leaves in a name of 64 bytes that was zero. -/
def nexusName (name : List UInt8) : List UInt8 :=
  name.take 63 ++ List.replicate (64 - min name.length 63) 0

/-- `__nexus_provider_reg_prepare`, for a name without its `NUL`. -/
def nexusProviderRegPrepare (name : List UInt8) (type : NexusType) (nxa : Option NexusAttr) :
    NxprovReg × Errno :=
  -- `strlcpy` returns the length of its source
  let p := { NxprovParams.zero with
    name := nexusName name
    namelen := BitVec.ofNat 32 name.length }
  let reg : NxprovReg := ⟨nxprovRegCurrentVersion, 0, p⟩
  if p.namelen = 0 then (reg, .einval)
  else
    let reg := { reg with params := { p with type := type } }
    match nxa with
    | none => (reg, .success)
    | some nxa =>
      match prepareOrder.foldlM (prepareAttr type nxa) reg with
      | .ok reg => (reg, .success)
      | .error reg => (reg, .einval)

end Registration

end MacKernel.Nexus
