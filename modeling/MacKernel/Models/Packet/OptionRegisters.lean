import MacKernel.Core.Simulation
import MacKernel.Models.Packet.Boundary
import MacKernel.Models.Packet.Tokens

/-!
# Packet options as registers

Token and packet id share one area, the expiry and the timestamp have one each, and a
flag word shared by all of them says what is there. Over any interleaving of the
setters the options behave as three registers, in which the latest write counts.
-/

namespace MacKernel.Packet

section Specification

/-- What the token area holds. -/
inductive TokenArea where
  | empty
  | token (bytes : List UInt8)
  | packetid (bytes : List UInt8)
  deriving DecidableEq, Repr

/-- The registers behind the options. An expiry of zero is none. -/
structure Registers where
  area : TokenArea
  expiry : BitVec 64
  timestamp : Option (BitVec 64)

/-- A setter with its arguments, and for tokens the memory that the pointer is into. -/
inductive OptCall where
  | setToken (byte : BitVec 64 → UInt8) (token : BitVec 64) (len : BitVec 16)
  | setPacketid (byte : BitVec 64 → UInt8) (pktid : BitVec 64)
  | setExpireTime (ts : BitVec 64)
  | setTimestamp (ts : BitVec 64) (valid : BitVec 32)

/-- The bytes of a memory from an address on. -/
def bytesAt (byte : BitVec 64 → UInt8) (a : BitVec 64) (n : Nat) : List UInt8 :=
  (List.range n).map fun i => byte (a + BitVec.ofNat 64 i)

namespace OptCall

/-- What a call writes to the token area. A rejected call writes nothing: a token or a packet
id at `NULL`, or a token that is too long. -/
def tokenWrite : OptCall → Option TokenArea
  | .setToken byte token len =>
    if len = 0 then some .empty
    else if token = 0 ∨ pktOptMaxTokenSize < len then none
    else some (.token (bytesAt byte token len.toNat))
  | .setPacketid byte pktid =>
    if pktid = 0 then none else some (.packetid (bytesAt byte pktid 16))
  | _ => none

/-- What a call writes to the expiry. -/
def expiryWrite : OptCall → Option (BitVec 64)
  | .setExpireTime ts => some ts
  | _ => none

/-- What a call writes to the timestamp: a value that is valid, or none. -/
def timestampWrite : OptCall → Option (Option (BitVec 64))
  | .setTimestamp ts valid => some (if valid ≠ 0 then some ts else none)
  | _ => none

/-- What a call returns. -/
def result : OptCall → Errno
  | .setToken _ token len =>
    if len ≠ 0 ∧ (token = 0 ∨ pktOptMaxTokenSize < len) then .einval else .success
  | .setPacketid _ pktid => if pktid = 0 then .einval else .success
  | _ => .success

/-- `__packet_set_timestamp` on a packet with option storage. -/
def stepTimestamp (ph : KernOptPacket) (ts : BitVec 64) (valid : BitVec 32) :
    KernOptPacket where
  areas := ph.areas
  pkt := (packetSetTimestamp ph.pkt ts valid).2
  stored := by
    rw [packetSetTimestamp]
    split <;> exact ph.stored

/-- One call on a kernel packet with option storage. -/
def step (ph : KernOptPacket) : OptCall → Except Fault (KernOptPacket × Errno)
  | .setToken byte token len => do
    let (err, ph) ← packetSetToken (.flat byte) ph token len
    return (ph, err)
  | .setPacketid byte pktid => do
    let (err, ph) ← packetSetPacketid (.flat byte) ph pktid
    return (ph, err)
  | .setExpireTime ts => return ((packetSetExpireTime ph ts).2, (packetSetExpireTime ph ts).1)
  | .setTimestamp ts valid =>
    return (stepTimestamp ph ts valid, (packetSetTimestamp ph.pkt ts valid).1)

end OptCall

/-- The registers as a specification of the setters. -/
def registerSpec : Spec Registers OptCall Errno where
  pre _ _ := True
  apply r call :=
    { area := call.tokenWrite.getD r.area
      expiry := call.expiryWrite.getD r.expiry
      timestamp := call.timestampWrite.getD r.timestamp }
  result _ call := call.result

/-- The latest write of a run, if there is one. -/
def lastWrite {α : Type} (write : OptCall → Option α) (calls : List OptCall) : Option α :=
  (calls.filterMap write).getLast?

/-- A register keeps the latest write. -/
theorem foldl_getD_eq_lastWrite {α : Type} (write : OptCall → Option α) (calls : List OptCall)
    (a : α) : calls.foldl (fun a call => (write call).getD a) a =
      (lastWrite write calls).getD a := by
  induction calls generalizing a with
  | nil => rfl
  | cons call calls ih =>
    rw [List.foldl_cons, ih, lastWrite, lastWrite]
    cases h : write call with
    | none => rw [List.filterMap_cons_none h, Option.getD_none]
    | some b => rw [List.filterMap_cons_some h, List.getLast?_cons, Option.getD_some,
        Option.getD_some]

/-- The registers after a run are the latest writes. -/
theorem applyAll_registerSpec (r : Registers) (calls : List OptCall) :
    registerSpec.applyAll r calls =
      { area := (lastWrite OptCall.tokenWrite calls).getD r.area
        expiry := (lastWrite OptCall.expiryWrite calls).getD r.expiry
        timestamp := (lastWrite OptCall.timestampWrite calls).getD r.timestamp } := by
  simp only [← foldl_getD_eq_lastWrite]
  induction calls generalizing r with
  | nil => rfl
  | cons call calls ih => exact ih (registerSpec.apply r call)

end Specification

section Agreement

variable {P : Type} [PacketOpts P]

/-- Two packets agree in what the token getters read. -/
structure SameToken (ph ph' : P) : Prop where
  flag : pflags ph' &&& pktFOptToken = pflags ph &&& pktFOptToken
  kind : poTokenType.get (po ph') = poTokenType.get (po ph)
  len : poTokenLen.get (po ph') = poTokenLen.get (po ph)
  bytes : ∀ i < 16, poToken (po ph') i = poToken (po ph) i

/-- Two packets agree in what `__packet_get_expire_time` reads. -/
structure SameExpiry (ph ph' : P) : Prop where
  flag : pflags ph' &&& pktFOptExpireTs = pflags ph &&& pktFOptExpireTs
  value : poExpireTs.get (po ph') = poExpireTs.get (po ph)

/-- Two packets agree in what `__packet_get_timestamp` reads. -/
structure SameTimestamp (k k' : KernPacket) : Prop where
  flag : k'.pflags &&& pktFTsValid = k.pflags &&& pktFTsValid
  value : k'.timestamp = k.timestamp

/-- The token is read from the fields that stayed. -/
theorem SameToken.optGetToken {ph ph' : P} (h : SameToken ph ph') (token : Option OutBuf)
    (len : Option (BitVec 16)) (type : Option (BitVec 8)) :
    packetOptGetToken (po ph') token len type = packetOptGetToken (po ph) token len type := by
  simp only [packetOptGetToken, h.len, h.kind]
  split
  · next buf l t =>
    split
    · rfl
    · -- no more than sixteen bytes are copied
      by_cases hmax : poTokenLen.get (po ph) ≤ pktOptMaxTokenSize
      · have hcopy : copyToken (po ph') (poTokenLen.get (po ph)) buf =
            copyToken (po ph) (poTokenLen.get (po ph)) buf := by
          have hle : (poTokenLen.get (po ph)).toNat ≤ 16 := hmax
          funext i
          simp only [copyToken]
          split
          · next hi => exact h.bytes i (by omega)
          · rfl
        rw [kassert_of hmax, ok_bind, ok_bind, hcopy]
      · rw [kassert, if_neg hmax]
        rfl
  · rfl

/-- The token is read from the fields that stayed. -/
theorem SameToken.getToken {ph ph' : P} (h : SameToken ph ph') (token : Option OutBuf)
    (len : Option (BitVec 16)) (type : BitVec 8) :
    packetGetToken ph' token len type = packetGetToken ph token len type := by
  rw [packetGetToken, packetGetToken, h.flag, h.optGetToken]

/-- The packet identifier is read from the fields that stayed. -/
theorem SameToken.getPacketid {ph ph' : P} (h : SameToken ph ph') (pktid : Option OutBuf)
    (type : BitVec 8) : packetGetPacketid ph' pktid type = packetGetPacketid ph pktid type := by
  rw [packetGetPacketid, packetGetPacketid, h.flag, h.optGetToken]

/-- The expiry time is read from the fields that stayed. -/
theorem SameExpiry.getExpireTime {ph ph' : P} (h : SameExpiry ph ph') (ts : Option (BitVec 64)) :
    packetGetExpireTime ph' ts = packetGetExpireTime ph ts := by
  simp only [packetGetExpireTime, h.flag, h.value]

/-- The timestamp is read from the fields that stayed. -/
theorem SameTimestamp.getTimestamp {k k' : KernPacket} (h : SameTimestamp k k')
    (ts : Option (BitVec 64)) (valid : Option (BitVec 32)) :
    packetGetTimestamp k' ts valid = packetGetTimestamp k ts valid := by
  rw [packetGetTimestamp, packetGetTimestamp, h.flag, h.value]

/-- A buffer with a string of bytes copied to its front. -/
def overlay (bytes : List UInt8) (buf : OutBuf) : OutBuf := fun i => (bytes[i]?).getD (buf i)

/-- What the token getters return of a token area, with an output of sixteen bytes: the token
or the packet id that it holds, and an error when it holds something else. -/
structure TokenAnswers (ph : P) (area : TokenArea) : Prop where
  token : ∀ bytes, area = .token bytes → ∀ buf type,
    packetGetToken ph (some buf) (some 16) type =
      .ok (.success, some (overlay bytes buf), some (BitVec.ofNat 16 bytes.length))
  noToken : (∀ bytes, area ≠ .token bytes) → ∀ buf type, ∃ err token len,
    packetGetToken ph (some buf) (some 16) type = .ok (err, token, len) ∧ err ≠ .success
  packetid : ∀ bytes, area = .packetid bytes → ∀ buf type,
    packetGetPacketid ph (some buf) type = .ok (.success, some (overlay bytes buf))
  noPacketid : (∀ bytes, area ≠ .packetid bytes) → ∀ buf type, ∃ err pktid,
    packetGetPacketid ph (some buf) type = .ok (err, pktid) ∧ err ≠ .success

/-- What all getters return of the registers. -/
structure Answers (ph : KernOptPacket) (r : Registers) : Prop where
  area : TokenAnswers ph r.area
  expiry : ∀ out, packetGetExpireTime ph (some out) =
    if r.expiry = 0 then (.enoent, some out) else (.success, some r.expiry)
  timestamp : ∀ out valid, packetGetTimestamp ph.pkt (some out) (some valid) =
    .ok (.success, some (r.timestamp.getD 0), some (if r.timestamp.isSome then 1 else 0))

/-- The answers about the token stay as well. -/
theorem SameToken.answers {ph ph' : P} {area : TokenArea} (h : SameToken ph ph')
    (ha : TokenAnswers ph area) : TokenAnswers ph' area := by
  constructor
  · intro bytes hbytes buf type
    rw [h.getToken]
    exact ha.token bytes hbytes buf type
  · intro hno buf type
    rw [h.getToken]
    exact ha.noToken hno buf type
  · intro bytes hbytes buf type
    rw [h.getPacketid]
    exact ha.packetid bytes hbytes buf type
  · intro hno buf type
    rw [h.getPacketid]
    exact ha.noPacketid hno buf type

end Agreement

section Setters

variable {P : Type} [PacketOpts P]

/-- The expiry does not reach the other options. -/
theorem packetSetExpireTime_same (ph : P) (ts : BitVec 64) :
    SameToken ph (packetSetExpireTime ph ts).2 ∧
      pflags (packetSetExpireTime ph ts).2 &&& pktFTsValid = pflags ph &&& pktFTsValid := by
  have hpo (v : BitVec 64) (f : BitVec 64) (hf : f &&& pktFOptToken = pflags ph &&& pktFOptToken) :
      SameToken ph (setPflags f (setPo (poExpireTs.set v (po ph)) ph)) := by
    constructor
    · rw [PacketOpts.pflags_setPflags, hf]
    · rw [PacketOpts.po_setPflags, PacketOpts.po_setPo, Field.get_set_of_disjoint (by decide)]
    · rw [PacketOpts.po_setPflags, PacketOpts.po_setPo, Field.get_set_of_disjoint (by decide)]
    · intro i hi
      rw [PacketOpts.po_setPflags, PacketOpts.po_setPo, poToken, poToken, byteAt_set]
      rw [poTokenOffset, poExpireTs]
      dsimp only
      omega
  have htoken : pktFOptExpireTs &&& pktFOptToken = 0 := by decide
  have hts : pktFOptExpireTs &&& pktFTsValid = 0 := by decide
  by_cases h : ts ≠ 0
  · simp only [packetSetExpireTime, if_pos h, PacketOpts.pflags_setPo, PacketOpts.pflags_setPflags]
    exact ⟨hpo _ _ (or_flag_and_of_disjoint htoken), or_flag_and_of_disjoint hts⟩
  · simp only [packetSetExpireTime, if_neg h, PacketOpts.pflags_setPo, PacketOpts.pflags_setPflags]
    exact ⟨hpo _ _ (clear_flag_and_of_disjoint htoken), clear_flag_and_of_disjoint hts⟩

/-- The expiry that is read afterwards. -/
theorem packetGetExpireTime_set (ph : P) (ts out : BitVec 64) :
    packetGetExpireTime (packetSetExpireTime ph ts).2 (some out) =
      if ts = 0 then (.enoent, some out) else (.success, some ts) := by
  by_cases h : ts = 0
  · simp only [packetSetExpireTime, if_neg (not_not.mpr h), packetGetExpireTime,
      PacketOpts.pflags_setPo, PacketOpts.pflags_setPflags, clear_flag_and_self, if_pos h, ite_true]
  · have hflag : pktFOptExpireTs ≠ 0 := by decide
    simp only [packetSetExpireTime, ne_eq, h, not_false_eq_true, ite_true, packetGetExpireTime,
      PacketOpts.pflags_setPo, PacketOpts.pflags_setPflags, or_flag_and_self, hflag, ite_false,
      PacketOpts.po_setPflags, PacketOpts.po_setPo, Field.get_set_self]

/-- A packet without a token answers as an empty area. -/
theorem TokenAnswers.empty {ph : P} (h : pflags ph &&& pktFOptToken = 0) :
    TokenAnswers ph .empty := by
  have htoken (buf : OutBuf) (type : BitVec 8) : packetGetToken ph (some buf) (some 16) type =
      .ok (.enoent, some buf, some 16) := by
    rw [packetGetToken, if_pos h]
    rfl
  have hpacketid (buf : OutBuf) (type : BitVec 8) : packetGetPacketid ph (some buf) type =
      .ok (.enoent, some buf) := by
    rw [packetGetPacketid, if_pos h]
    rfl
  constructor
  · intro bytes hbytes
    cases hbytes
  · exact fun _ buf type => ⟨_, _, _, htoken buf type, by decide⟩
  · intro bytes hbytes
    cases hbytes
  · exact fun _ buf type => ⟨_, _, hpacketid buf type, by decide⟩

/-- The block holds a token of a kind. -/
structure Holding (ph : P) (type : BitVec 8) (bytes : List UInt8) : Prop where
  flag : pflags ph &&& pktFOptToken ≠ 0
  kind : poTokenType.get (po ph) = type.setWidth 32
  len : poTokenLen.get (po ph) = BitVec.ofNat 16 bytes.length
  stored : ∀ i (h : i < bytes.length), poToken (po ph) i = bytes[i]
  small : bytes.length ≤ 16

variable {ph : P} {kind : BitVec 8} {bytes : List UInt8}

/-- The length field is the number of bytes held. -/
private theorem Holding.toNat_len (h : Holding ph kind bytes) :
    (poTokenLen.get (po ph)).toNat = bytes.length := by
  have hsmall := h.small
  rw [h.len, BitVec.toNat_ofNat, Nat.mod_eq_of_lt (by omega)]

/-- The bytes held fit a buffer of 16. -/
theorem Holding.fits (h : Holding ph kind bytes) : TokenFits (po ph) 16 := by
  have hlen : (poTokenLen.get (po ph)).toNat ≤ 16 := h.toNat_len ▸ h.small
  refine ⟨hlen, hlen, ?_⟩
  have hkind := kind.isLt
  rw [h.kind, BitVec.le_def, BitVec.toNat_setWidth]
  change kind.toNat % 2 ^ 32 ≤ 255
  omega

/-- Copying writes the bytes held over the buffer. -/
theorem Holding.copyToken_eq (h : Holding ph kind bytes) (buf : OutBuf) :
    copyToken (po ph) (poTokenLen.get (po ph)) buf = overlay bytes buf := by
  funext i
  rw [copyToken, h.toNat_len, overlay]
  split
  · next hi => rw [List.getElem?_eq_getElem hi, Option.getD_some, h.stored i hi]
  · next hi => rw [List.getElem?_eq_none (Nat.le_of_not_lt hi), Option.getD_none]

/-- What the helper gives of a held token. -/
theorem Holding.optGetToken (h : Holding ph kind bytes) (buf : OutBuf) (type : BitVec 8) :
    packetOptGetToken (po ph) (some buf) (some 16) (some type) =
      .ok (.success, some (overlay bytes buf), some (BitVec.ofNat 16 bytes.length), some kind) := by
  have hkind : (poTokenType.get (po ph)).setWidth 8 = kind :=
    (tokenType_eq_iff h.fits.2.2 kind).mpr h.kind
  rw [packetOptGetToken_fits h.fits, h.copyToken_eq, h.len, hkind]

/-- The token is returned with its length if it is opaque. -/
theorem Holding.getToken (h : Holding ph kind bytes) (buf : OutBuf) (type : BitVec 8) :
    packetGetToken ph (some buf) (some 16) type =
      .ok (if kind = pktOptTokenTypeOpaque then .success else .enoent, some (overlay bytes buf),
        some (BitVec.ofNat 16 bytes.length)) := by
  simp only [packetGetToken, if_neg h.flag, h.optGetToken, ok_bind, true_and, ne_eq,
    Option.some.injEq]
  by_cases hkind : kind = pktOptTokenTypeOpaque
  · rw [if_neg (not_not.mpr hkind), if_pos hkind]
    rfl
  · rw [if_pos hkind, if_neg hkind]
    rfl

/-- The packet identifier is returned if the token is one. -/
theorem Holding.getPacketid (h : Holding ph kind bytes) (buf : OutBuf) (type : BitVec 8) :
    packetGetPacketid ph (some buf) type =
      .ok (if kind = pktOptTokenTypePacketId ∧ bytes.length = 16 then .success else .enoent,
        some (overlay bytes buf)) := by
  have hlen : BitVec.ofNat 16 bytes.length = packetIdSize ↔ bytes.length = 16 := by
    have hsmall := h.small
    rw [BitVec.toNat_eq, BitVec.toNat_ofNat, Nat.mod_eq_of_lt (by omega)]
    rfl
  have hopt := h.optGetToken buf type
  simp only [packetGetPacketid, if_neg h.flag]
  rw [packetIdSize, hopt]
  simp only [ok_bind, true_and, ne_eq, Option.some.injEq]
  by_cases hkind : kind = pktOptTokenTypePacketId ∧ bytes.length = 16
  · rw [if_neg (by rw [← packetIdSize, hlen]; exact fun h => h.elim (· hkind.1) (· hkind.2)),
      if_pos hkind]
    rfl
  · rw [if_pos (by rw [← packetIdSize, hlen]; exact not_and_or.mp hkind), if_neg hkind]
    rfl

/-- A held opaque token is a token, and no packet id. -/
theorem Holding.answers_token (h : Holding ph pktOptTokenTypeOpaque bytes) :
    TokenAnswers ph (.token bytes) := by
  constructor
  · intro bytes' he buf type
    cases he
    rw [h.getToken, if_pos rfl]
  · exact fun hno => absurd rfl (hno bytes)
  · intro bytes' he
    cases he
  · intro _ buf type
    refine ⟨_, _, h.getPacketid buf type, ?_⟩
    rw [if_neg fun hboth => absurd hboth.1 (by decide)]
    decide

/-- A held packet id is one, and no token. -/
theorem Holding.answers_packetid (h : Holding ph pktOptTokenTypePacketId bytes)
    (hlen : bytes.length = 16) : TokenAnswers ph (.packetid bytes) := by
  constructor
  · intro bytes' he
    cases he
  · intro _ buf type
    refine ⟨_, _, _, h.getToken buf type, ?_⟩
    rw [if_neg (by decide)]
    decide
  · intro bytes' he buf type
    cases he
    rw [h.getPacketid, if_pos ⟨rfl, hlen⟩]
  · exact fun hno => absurd rfl (hno bytes)

end Setters

section TokenSetter

variable {P : Type} [PacketOpts P] {byte : BitVec 64 → UInt8} {a : BitVec 64} {len : BitVec 16}

@[simp] theorem length_bytesAt (byte : BitVec 64 → UInt8) (a : BitVec 64) (n : Nat) :
    (bytesAt byte a n).length = n := by
  simp [bytesAt]

/-- A byte of a range is the byte at its address. -/
theorem getElem_bytesAt {n i : Nat} (h : i < (bytesAt byte a n).length) :
    (bytesAt byte a n)[i] = byte (a + BitVec.ofNat 64 i) := by
  simp [bytesAt]

/-- A memory holds the bytes that are read from it. -/
theorem holds_bytesAt (byte : BitVec 64 → UInt8) (a : BitVec 64) (n : Nat) :
    (Memory.flat byte).Holds a (bytesAt byte a n) := by
  intro i hi
  rw [getElem_bytesAt hi]
  rfl

/-- In a mapped memory a token is copied, by the fast path with what is behind it. -/
theorem storeToken_flat (byte : BitVec 64 → UInt8) (a : BitVec 64) (hmax : len ≤ pktOptMaxTokenSize)
    (x : BitVec 256) : ∃ n, len.toNat ≤ n ∧ n ≤ 16 ∧
      storeToken (.flat byte) a len x = .ok (putBytes poTokenOffset (bytesAt byte a n) x) := by
  have hle : len.toNat ≤ 16 := hmax
  by_cases halign : isP2Aligned8 a = true
  · exact ⟨16, hle, le_rfl, (storeToken_aligned_iff halign).mpr
      ⟨_, length_bytesAt byte a 16, holds_bytesAt byte a 16, rfl⟩⟩
  · exact ⟨len.toNat, le_rfl, hle, storeToken_unaligned (Bool.not_eq_true _ ▸ halign)
      (length_bytesAt byte a _) (holds_bytesAt byte a _) x⟩

/-- A block with a token stored over it. -/
def tokenBlock (bytes : List UInt8) (len : BitVec 16) (type : BitVec 32) (x : BitVec 256) :
    BitVec 256 :=
  poTokenType.set type (poTokenLen.set len (putBytes poTokenOffset bytes x))

/-- Storing a token leaves the expiry alone. -/
theorem poExpireTs_tokenBlock {bytes : List UInt8} (h : bytes.length ≤ 16) (len : BitVec 16)
    (type : BitVec 32) (x : BitVec 256) :
    poExpireTs.get (tokenBlock bytes len type x) = poExpireTs.get x := by
  rw [tokenBlock, Field.get_set_of_disjoint (by decide), Field.get_set_of_disjoint (by decide),
    Field.get_putBytes]
  · right
    change 8 * (8 + bytes.length) ≤ 192
    omega
  · rw [poTokenOffset]
    omega

/-- The bytes of a stored token. -/
theorem poToken_tokenBlock {bytes : List UInt8} (h : bytes.length ≤ 16) (len : BitVec 16)
    (type : BitVec 32) (x : BitVec 256) {i : Nat} (hi : i < bytes.length) :
    poToken (tokenBlock bytes len type x) i = bytes[i] := by
  have hoff : poTokenOffset = 8 := rfl
  have htype : poTokenType.off + 32 ≤ 8 * (poTokenOffset + i) := by
    change 0 + 32 ≤ 8 * (8 + i)
    omega
  have hlen : poTokenLen.off + 16 ≤ 8 * (poTokenOffset + i) := by
    change 32 + 16 ≤ 8 * (8 + i)
    omega
  rw [poToken, tokenBlock, byteAt_set (.inr htype), byteAt_set (.inr hlen),
    byteAt_putBytes (by omega), if_pos (Nat.le_add_right _ _), Nat.add_sub_cancel_left,
    List.getElem?_eq_getElem hi, Option.getD_some]

/-- The setter on a mapped memory: it clears the area, rejects the call, or stores the token. -/
theorem packetOptSetToken_flat (byte : BitVec 64 → UInt8) (x : BitVec 256) (a : BitVec 64)
    (len : BitVec 16) {type : BitVec 8} (htype : type ≠ 0) (f : BitVec 64) :
    (len = 0 ∧ packetOptSetToken (.flat byte) x a len type f =
      .ok (.success, tokenBlock (List.replicate 16 0) 0 0 x, f &&& ~~~pktFOptToken)) ∨
    (len ≠ 0 ∧ (a = 0 ∨ pktOptMaxTokenSize < len) ∧
      packetOptSetToken (.flat byte) x a len type f = .ok (.einval, x, f)) ∨
    (len ≠ 0 ∧ ¬(a = 0 ∨ pktOptMaxTokenSize < len) ∧ ∃ n, len.toNat ≤ n ∧ n ≤ 16 ∧
      packetOptSetToken (.flat byte) x a len type f =
        .ok (.success, tokenBlock (bytesAt byte a n) len (type.setWidth 32) x,
          f ||| pktFOptToken)) := by
  by_cases hlen : len = 0
  · left
    refine ⟨hlen, ?_⟩
    have happend := putBytes_append poTokenOffset (List.replicate 8 (0 : UInt8))
      (List.replicate 8 0) x
    rw [packetOptSetToken, if_neg (not_not.mpr hlen), tokenBlock]
    exact congrArg (fun y => Except.ok (Errno.success,
      poTokenType.set 0 (poTokenLen.set 0 y), f &&& ~~~pktFOptToken)) happend.symm
  · right
    by_cases hbad : a = 0 ∨ pktOptMaxTokenSize < len
    · left
      refine ⟨hlen, hbad, ?_⟩
      have hany : a = 0 ∨ pktOptMaxTokenSize < len ∨ type = 0 := hbad.imp_right .inl
      rw [packetOptSetToken, if_pos hlen, if_pos hany]
      rfl
    · right
      obtain ⟨ha, hlt⟩ := not_or.mp hbad
      have hmax : len ≤ pktOptMaxTokenSize := BitVec.not_lt.mp hlt
      obtain ⟨n, hn, hn16, hstore⟩ := storeToken_flat byte a hmax x
      refine ⟨hlen, hbad, n, hn, hn16, ?_⟩
      rw [packetOptSetToken_of_store hlen hmax ha htype, hstore]
      rfl

/-- A store to the flags and the option block that keeps the expiry. -/
theorem sameExpiry_set {ph : P} {f : BitVec 64} {x : BitVec 256}
    (hflag : f &&& pktFOptExpireTs = pflags ph &&& pktFOptExpireTs)
    (hvalue : poExpireTs.get x = poExpireTs.get (po ph)) :
    SameExpiry ph (setPflags f (setPo x ph)) := by
  constructor
  · rw [PacketOpts.pflags_setPflags, hflag]
  · rw [PacketOpts.po_setPflags, PacketOpts.po_setPo, hvalue]

/-- Storing flags and block as they are changes no token. -/
theorem sameToken_set (ph : P) : SameToken ph (setPflags (pflags ph) (setPo (po ph) ph)) := by
  have hpo : po (setPflags (pflags ph) (setPo (po ph) ph)) = po ph := by
    rw [PacketOpts.po_setPflags, PacketOpts.po_setPo]
  constructor
  · rw [PacketOpts.pflags_setPflags]
  · rw [hpo]
  · rw [hpo]
  · intro i _
    rw [hpo]

/-- A stored block holds the token, whatever was copied behind it. -/
theorem holding_tokenBlock {n : Nat} (hn : len.toNat ≤ n) (hn16 : n ≤ 16) (ph : P)
    (type : BitVec 8) (x : BitVec 256) :
    Holding (setPflags (pflags ph ||| pktFOptToken)
      (setPo (tokenBlock (bytesAt byte a n) len (type.setWidth 32) x) ph)) type
      (bytesAt byte a len.toNat) := by
  have hbytes : (bytesAt byte a n).length ≤ 16 := (length_bytesAt byte a n).le.trans hn16
  have hflag : pktFOptToken ≠ 0 := by decide
  constructor
  · rw [PacketOpts.pflags_setPflags, or_flag_and_self]
    exact hflag
  · rw [PacketOpts.po_setPflags, PacketOpts.po_setPo, tokenBlock, Field.get_set_self]
  · rw [PacketOpts.po_setPflags, PacketOpts.po_setPo, tokenBlock,
      Field.get_set_of_disjoint (by decide), Field.get_set_self, length_bytesAt,
      BitVec.ofNat_toNat, BitVec.setWidth_eq]
  · -- the first bytes of what was stored are the token
    intro i hi
    have hi' : i < (bytesAt byte a n).length := by
      rw [length_bytesAt] at hi ⊢
      omega
    rw [PacketOpts.po_setPflags, PacketOpts.po_setPo, poToken_tokenBlock hbytes _ _ _ hi',
      getElem_bytesAt hi', getElem_bytesAt hi]
  · rw [length_bytesAt]
    omega

/-- What the token setters do to a packet in a mapped memory: the expiry and the flag of the
timestamp stay, and the token area is cleared, unchanged after a rejected call, or holds the
new token. -/
theorem packetSetTokenOf_flat (byte : BitVec 64 → UInt8) (ph : P) (a : BitVec 64)
    (len : BitVec 16) {type : BitVec 8} (htype : type ≠ 0) :
    ∃ f x, packetSetTokenOf (.flat byte) ph a len type =
        .ok (if len ≠ 0 ∧ (a = 0 ∨ pktOptMaxTokenSize < len) then .einval else .success,
          setPflags f (setPo x ph)) ∧
      SameExpiry ph (setPflags f (setPo x ph)) ∧ f &&& pktFTsValid = pflags ph &&& pktFTsValid ∧
      ((len = 0 ∧ f &&& pktFOptToken = 0) ∨
        (len ≠ 0 ∧ (a = 0 ∨ pktOptMaxTokenSize < len) ∧ SameToken ph (setPflags f (setPo x ph))) ∨
        (len ≠ 0 ∧ ¬(a = 0 ∨ pktOptMaxTokenSize < len) ∧
          Holding (setPflags f (setPo x ph)) type (bytesAt byte a len.toNat))) := by
  have hexpiry : pktFOptToken &&& pktFOptExpireTs = 0 := by decide
  have hts : pktFOptToken &&& pktFTsValid = 0 := by decide
  rcases packetOptSetToken_flat byte (po ph) a len htype (pflags ph) with
    ⟨hlen, hset⟩ | ⟨hlen, hbad, hset⟩ | ⟨hlen, hgood, n, hn, hn16, hset⟩
  · refine ⟨pflags ph &&& ~~~pktFOptToken, tokenBlock (List.replicate 16 0) 0 0 (po ph), ?_, ?_,
      clear_flag_and_of_disjoint hts, .inl ⟨hlen, clear_flag_and_self⟩⟩
    · rw [packetSetTokenOf, hset, if_neg fun h => h.1 hlen]
      rfl
    · exact sameExpiry_set (clear_flag_and_of_disjoint hexpiry)
        (poExpireTs_tokenBlock List.length_replicate.le _ _ _)
  · refine ⟨pflags ph, po ph, ?_, sameExpiry_set rfl rfl, rfl,
      .inr (.inl ⟨hlen, hbad, sameToken_set ph⟩)⟩
    rw [packetSetTokenOf, hset, if_pos ⟨hlen, hbad⟩]
    rfl
  · have hbytes : (bytesAt byte a n).length ≤ 16 := (length_bytesAt byte a n).le.trans hn16
    refine ⟨pflags ph ||| pktFOptToken,
      tokenBlock (bytesAt byte a n) len (type.setWidth 32) (po ph), ?_, ?_,
      or_flag_and_of_disjoint hts, .inr (.inr ⟨hlen, hgood, holding_tokenBlock hn hn16 ph _ _⟩)⟩
    · rw [packetSetTokenOf, hset, if_neg fun h => hgood h.2]
      rfl
    · exact sameExpiry_set (or_flag_and_of_disjoint hexpiry) (poExpireTs_tokenBlock hbytes _ _ _)

end TokenSetter

section Timestamps

variable {k : KernPacket} {ts : BitVec 64} {valid : BitVec 32}

/-- The timestamp that is read afterwards. -/
theorem packetGetTimestamp_set (k : KernPacket) (ts : BitVec 64) (valid : BitVec 32)
    (out : BitVec 64) (valid₀ : BitVec 32) :
    packetGetTimestamp (packetSetTimestamp k ts valid).2 (some out) (some valid₀) =
      .ok (.success, some (if valid ≠ 0 then ts else 0), some (if valid ≠ 0 then 1 else 0)) := by
  by_cases h : valid ≠ 0
  · have hflag : ((packetSetTimestamp k ts valid).2).pflags &&& pktFTsValid ≠ 0 := by
      rw [packetSetTimestamp, if_pos h, pflags_setPflags, or_flag_and_self]
      decide
    have hvalue : ((packetSetTimestamp k ts valid).2).timestamp = ts := by
      rw [packetSetTimestamp, if_pos h]
      rfl
    rw [packetGetTimestamp, deref_some, ok_bind, if_pos hflag, hvalue, if_pos h, if_pos h]
    rfl
  · have hflag : ¬((packetSetTimestamp k ts valid).2).pflags &&& pktFTsValid ≠ 0 := by
      have hclear : ((packetSetTimestamp k ts valid).2).pflags = k.pflags &&& ~~~pktFTsValid := by
        rw [packetSetTimestamp, if_neg h]
        exact pflags_setPflags k _
      rw [hclear, clear_flag_and_self]
      exact fun h => h rfl
    rw [packetGetTimestamp, deref_some, ok_bind, if_neg hflag, if_neg h, if_neg h]
    rfl

/-- The flags after setting the timestamp, outside its own. -/
theorem pflags_packetSetTimestamp (k : KernPacket) (ts : BitVec 64) (valid : BitVec 32)
    {d : BitVec 64} (hd : pktFTsValid &&& d = 0) :
    ((packetSetTimestamp k ts valid).2).pflags &&& d = k.pflags &&& d := by
  rw [packetSetTimestamp]
  split
  · rw [pflags_setPflags, or_flag_and_of_disjoint hd]
    rfl
  · have hclear : ({ k.setPflags (k.pflags &&& ~~~pktFTsValid) with timestamp := 0 } :
        KernPacket).pflags = k.pflags &&& ~~~pktFTsValid := pflags_setPflags k _
    rw [hclear, clear_flag_and_of_disjoint hd]

/-- Storing a timestamp leaves the option pointer. -/
theorem comOpt_packetSetTimestamp (k : KernPacket) (ts : BitVec 64) (valid : BitVec 32) :
    ((packetSetTimestamp k ts valid).2).comOpt = k.comOpt := by
  rw [packetSetTimestamp]
  split <;> rfl

/-- The timestamp does not reach the other options. -/
theorem stepTimestamp_same (ph : KernOptPacket) (ts : BitVec 64) (valid : BitVec 32) :
    SameToken ph (OptCall.stepTimestamp ph ts valid) ∧
      SameExpiry ph (OptCall.stepTimestamp ph ts valid) := by
  have hpo : po (OptCall.stepTimestamp ph ts valid) = po ph :=
    congrArg ph.areas.opt (comOpt_packetSetTimestamp ph.pkt ts valid)
  have hpflags {d : BitVec 64} (hd : pktFTsValid &&& d = 0) :
      pflags (OptCall.stepTimestamp ph ts valid) &&& d = pflags ph &&& d :=
    pflags_packetSetTimestamp ph.pkt ts valid hd
  refine ⟨⟨hpflags (by decide), ?_, ?_, ?_⟩, ⟨hpflags (by decide), ?_⟩⟩
  · rw [hpo]
  · rw [hpo]
  · intro i _
    rw [hpo]
  · rw [hpo]

end Timestamps

section Runs

variable {ph ph' : KernOptPacket} {r : Registers} {call : OptCall} {err : Errno}

/-- A setter of the token area, as a step: the other registers keep their answers, and the area
answers as what the call wrote. -/
theorem step_token (byte : BitVec 64 → UInt8) (ph : KernOptPacket) (a : BitVec 64)
    (len : BitVec 16) (type : BitVec 8) (write : Option TokenArea) (htype : type ≠ 0)
    (hempty : len = 0 → write = some .empty)
    (hnone : len ≠ 0 → a = 0 ∨ pktOptMaxTokenSize < len → write = none)
    (hsome : ∀ ph' : KernOptPacket, len ≠ 0 → ¬(a = 0 ∨ pktOptMaxTokenSize < len) →
      Holding ph' type (bytesAt byte a len.toNat) → ∃ area, write = some area ∧
        TokenAnswers ph' area) :
    ∃ ph', packetSetTokenOf (.flat byte) ph a len type =
        .ok (if len ≠ 0 ∧ (a = 0 ∨ pktOptMaxTokenSize < len) then .einval else .success, ph') ∧
      SameExpiry ph ph' ∧ SameTimestamp ph.pkt ph'.pkt ∧
      (write = none → SameToken ph ph') ∧ ∀ area, write = some area → TokenAnswers ph' area := by
  obtain ⟨f, x, hset, hexpiry, hts, harea⟩ := packetSetTokenOf_flat byte ph a len htype
  have hflag : (setPflags f (setPo x ph)).pkt.pflags &&& pktFTsValid =
      ph.pkt.pflags &&& pktFTsValid :=
    (congrArg (· &&& pktFTsValid) (pflags_setPflags (setPo x ph).pkt f)).trans hts
  refine ⟨_, hset, hexpiry, ⟨hflag, rfl⟩, ?_⟩
  rcases harea with ⟨hlen, hclear⟩ | ⟨hlen, hbad, hsame⟩ | ⟨hlen, hgood, hhold⟩
  · rw [hempty hlen]
    refine ⟨fun h => absurd h (Option.some_ne_none _), fun area harea => ?_⟩
    cases harea
    exact .empty (by rw [PacketOpts.pflags_setPflags, hclear])
  · rw [hnone hlen hbad]
    exact ⟨fun _ => hsame, fun area harea => absurd harea.symm (Option.some_ne_none _)⟩
  · obtain ⟨area, hwrite, hanswers⟩ := hsome _ hlen hgood hhold
    rw [hwrite]
    refine ⟨fun h => absurd h (Option.some_ne_none _), fun area' harea => ?_⟩
    cases harea
    exact hanswers

/-- What one call does to the answers of the getters: each register that it writes answers with
the value written, and every other one as before. -/
structure Writes (ph : KernOptPacket) (call : OptCall) (ph' : KernOptPacket) : Prop where
  token : call.tokenWrite = none → SameToken ph ph'
  tokenWritten : ∀ area, call.tokenWrite = some area → TokenAnswers ph' area
  expiry : call.expiryWrite = none → SameExpiry ph ph'
  expiryWritten : ∀ ts, call.expiryWrite = some ts → ∀ out, packetGetExpireTime ph' (some out) =
    if ts = 0 then (.enoent, some out) else (.success, some ts)
  timestamp : call.timestampWrite = none → SameTimestamp ph.pkt ph'.pkt
  timestampWritten : ∀ ts, call.timestampWrite = some ts → ∀ out valid,
    packetGetTimestamp ph'.pkt (some out) (some valid) =
      .ok (.success, some (ts.getD 0), some (if ts.isSome then 1 else 0))

/-- A call that writes the token area only. -/
theorem Writes.of_token (hexpiry : SameExpiry ph ph') (hts : SameTimestamp ph.pkt ph'.pkt)
    (hno : call.expiryWrite = none) (hno' : call.timestampWrite = none)
    (hsame : call.tokenWrite = none → SameToken ph ph')
    (hanswers : ∀ area, call.tokenWrite = some area → TokenAnswers ph' area) :
    Writes ph call ph' := by
  refine ⟨hsame, hanswers, fun _ => hexpiry, fun ts h => ?_, fun _ => hts, fun ts h => ?_⟩
  · cases hno.symm.trans h
  · cases hno'.symm.trans h

/-- Setting a token writes what it says or fails without a change. -/
theorem step_setToken (ph : KernOptPacket) (byte : BitVec 64 → UInt8) (a : BitVec 64)
    (len : BitVec 16) :
    ∃ ph',
      OptCall.step ph (.setToken byte a len) = .ok (ph', (OptCall.setToken byte a len).result) ∧
      Writes ph (.setToken byte a len) ph' := by
  have htoken := step_token byte ph a len pktOptTokenTypeOpaque
    (OptCall.setToken byte a len).tokenWrite (by decide) ?_ ?_ ?_
  · obtain ⟨ph', hset, hexpiry, hts, hsame, hanswers⟩ := htoken
    refine ⟨ph', ?_, .of_token hexpiry hts rfl rfl hsame hanswers⟩
    rw [OptCall.step, packetSetToken, hset]
    rfl
  · exact fun hlen => if_pos hlen
  · exact fun hlen hbad => (if_neg hlen).trans (if_pos hbad)
  · exact fun ph' hlen hgood hhold =>
      ⟨_, (if_neg hlen).trans (if_neg hgood), hhold.answers_token⟩

/-- Setting a packet identifier writes what it says or fails without a change. -/
theorem step_setPacketid (ph : KernOptPacket) (byte : BitVec 64 → UInt8) (a : BitVec 64) :
    ∃ ph', OptCall.step ph (.setPacketid byte a) = .ok (ph', (OptCall.setPacketid byte a).result) ∧
      Writes ph (.setPacketid byte a) ph' := by
  -- the length is that of a packet id, so only the pointer can be wrong
  have hlen : packetIdSize ≠ 0 := by decide
  have hbad : a = 0 ∨ pktOptMaxTokenSize < packetIdSize ↔ a = 0 :=
    or_iff_left (by decide)
  have htoken := step_token byte ph a packetIdSize pktOptTokenTypePacketId
    (OptCall.setPacketid byte a).tokenWrite (by decide) ?_ ?_ ?_
  · obtain ⟨ph', hset, hexpiry, hts, hsame, hanswers⟩ := htoken
    refine ⟨ph', ?_, .of_token hexpiry hts rfl rfl hsame hanswers⟩
    simp only [hbad, ne_eq, hlen, not_false_eq_true, true_and] at hset
    rw [OptCall.step, packetSetPacketid, hset]
    rfl
  · exact fun hzero => absurd hzero hlen
  · exact fun _ h => if_pos (hbad.mp h)
  · intro ph' _ hgood hhold
    exact ⟨_, if_neg fun ha => hgood (hbad.mpr ha), hhold.answers_packetid (length_bytesAt _ _ _)⟩

/-- Setting an expiry time writes it. -/
theorem step_setExpireTime (ph : KernOptPacket) (ts : BitVec 64) :
    ∃ ph', OptCall.step ph (.setExpireTime ts) = .ok (ph', .success) ∧
      Writes ph (.setExpireTime ts) ph' := by
  obtain ⟨hsame, hts⟩ := packetSetExpireTime_same ph ts
  have hvalue : (packetSetExpireTime ph ts).2.pkt.timestamp = ph.pkt.timestamp := by
    rw [packetSetExpireTime]
    split <;> rfl
  have hresult : (packetSetExpireTime ph ts).1 = .success := by
    rw [packetSetExpireTime]
    split <;> rfl
  refine ⟨(packetSetExpireTime ph ts).2, ?_, ⟨fun _ => hsame, ?_, ?_, ?_, fun _ => ⟨hts, hvalue⟩,
    ?_⟩⟩
  · rw [OptCall.step, hresult]
    rfl
  · intro area h
    cases h
  · intro h
    cases h
  · intro ts' h out
    cases h
    exact packetGetExpireTime_set ph ts out
  · intro ts' h
    cases h

/-- Setting a timestamp writes it. -/
theorem step_setTimestamp (ph : KernOptPacket) (ts : BitVec 64) (valid : BitVec 32) :
    ∃ ph', OptCall.step ph (.setTimestamp ts valid) = .ok (ph', .success) ∧
      Writes ph (.setTimestamp ts valid) ph' := by
  obtain ⟨htoken, hexpiry⟩ := stepTimestamp_same ph ts valid
  have hresult : (packetSetTimestamp ph.pkt ts valid).1 = .success := by
    rw [packetSetTimestamp]
    split <;> rfl
  refine ⟨OptCall.stepTimestamp ph ts valid, ?_, ⟨fun _ => htoken, ?_, fun _ => hexpiry, ?_, ?_,
    ?_⟩⟩
  · rw [OptCall.step, hresult]
    rfl
  · intro area h
    cases h
  · intro ts' h
    cases h
  · intro h
    cases h
  · intro ts' h out valid₀
    obtain rfl := Option.some.inj h
    refine (packetGetTimestamp_set ph.pkt ts valid out valid₀).trans ?_
    split <;> rfl

/-- Every call returns, with its result, and writes what it is meant to. -/
theorem step_writes (ph : KernOptPacket) (call : OptCall) :
    ∃ ph', OptCall.step ph call = .ok (ph', call.result) ∧ Writes ph call ph' := by
  cases call with
  | setToken byte a len => exact step_setToken ph byte a len
  | setPacketid byte a => exact step_setPacketid ph byte a
  | setExpireTime ts => exact step_setExpireTime ph ts
  | setTimestamp ts valid => exact step_setTimestamp ph ts valid

/-- The answers follow the registers. -/
theorem Writes.answers (h : Writes ph call ph') (ha : Answers ph r) :
    Answers ph' (registerSpec.apply r call) := by
  constructor
  · cases hw : call.tokenWrite with
    | none =>
      simp only [registerSpec, hw, Option.getD_none]
      exact (h.token hw).answers ha.area
    | some area =>
      simp only [registerSpec, hw, Option.getD_some]
      exact h.tokenWritten area hw
  · cases hw : call.expiryWrite with
    | none =>
      simp only [registerSpec, hw, Option.getD_none, (h.expiry hw).getExpireTime]
      exact ha.expiry
    | some ts =>
      simp only [registerSpec, hw, Option.getD_some]
      exact h.expiryWritten ts hw
  · cases hw : call.timestampWrite with
    | none =>
      simp only [registerSpec, hw, Option.getD_none, (h.timestamp hw).getTimestamp]
      exact ha.timestamp
    | some ts =>
      simp only [registerSpec, hw, Option.getD_some]
      exact h.timestampWritten ts hw

/-- A packet on which none of the options was set. -/
structure NoneSet (ph : KernOptPacket) : Prop where
  token : ph.pkt.pflags &&& pktFOptToken = 0
  expiry : ph.pkt.pflags &&& pktFOptExpireTs = 0
  timestamp : ph.pkt.pflags &&& pktFTsValid = 0

/-- Where nothing was set the getters find nothing. -/
theorem NoneSet.answers (h : NoneSet ph) : Answers ph ⟨.empty, 0, none⟩ := by
  refine ⟨.empty h.token, fun out => ?_, fun out valid => ?_⟩
  · rw [if_pos rfl]
    exact if_pos h.expiry
  · rw [packetGetTimestamp, deref_some, ok_bind, if_neg (not_not.mpr h.timestamp)]
    rfl

/-- Over every sequence of setters on a packet with option storage and no option set, every call
returns and the getters answer with the latest write to their register: the latest token if the
area was last written by a token that is not empty, the latest packet id if it was last written
by that, the latest expiry unless it is zero, and the latest timestamp if it was valid. On any
packet, a setter does not change what the getters of the registers that it does not write
return. -/
theorem optionRegisters_lastWrite (ph : KernOptPacket) (hnone : NoneSet ph)
    (calls : List OptCall) :
    (∃ ph' outs, execAll OptCall.step ph calls = .ok (ph', outs) ∧
      Answers ph'
        { area := (lastWrite OptCall.tokenWrite calls).getD .empty
          expiry := (lastWrite OptCall.expiryWrite calls).getD 0
          timestamp := (lastWrite OptCall.timestampWrite calls).getD none }) ∧
    ∀ ph call ph' err, OptCall.step ph call = .ok (ph', err) →
      (call.tokenWrite = none →
        (∀ token len type, packetGetToken ph' token len type = packetGetToken ph token len type) ∧
        ∀ pktid type, packetGetPacketid ph' pktid type = packetGetPacketid ph pktid type) ∧
      (call.expiryWrite = none → ∀ ts, packetGetExpireTime ph' ts = packetGetExpireTime ph ts) ∧
      (call.timestampWrite = none → ∀ ts valid,
        packetGetTimestamp ph'.pkt ts valid = packetGetTimestamp ph.pkt ts valid) := by
  constructor
  · obtain ⟨ph', hexec, hanswers⟩ := execAll_refines registerSpec Answers
      (fun {ph r call} ha _ => by
        obtain ⟨ph', hstep, hwrites⟩ := step_writes ph call
        exact ⟨ph', hstep, hwrites.answers ha⟩)
      hnone.answers (registerSpec.admissible_of_forall (fun call (_ : call ∈ calls) _ => trivial) _)
    rw [applyAll_registerSpec] at hanswers
    exact ⟨ph', _, hexec, hanswers⟩
  · intro ph call ph' err hstep
    obtain ⟨ph₁, hstep₁, hwrites⟩ := step_writes ph call
    obtain rfl : ph₁ = ph' := congrArg Prod.fst (Except.ok.inj (hstep₁.symm.trans hstep))
    refine ⟨fun h => ⟨(hwrites.token h).getToken, (hwrites.token h).getPacketid⟩,
      fun h => (hwrites.expiry h).getExpireTime, fun h => (hwrites.timestamp h).getTimestamp⟩

/-- A kernel packet with zeroed options. -/
def emptyOptPacket : KernOptPacket where
  areas := zeroAreas
  pkt := { zeroPacket with comOpt := 0x1000 }
  stored := by decide

/-- A token, an expiry and a packet id: the expiry and the packet id can be read. -/
theorem optionRegisters_lastWrite_packetid : ∃ ph' outs,
    execAll OptCall.step emptyOptPacket
      [.setToken (fun _ => 7) 0x2001 3, .setExpireTime 9, .setPacketid (fun _ => 5) 0x3000] =
        .ok (ph', outs) ∧
      packetGetExpireTime ph' (some 0) = (.success, some 9) ∧
      packetGetPacketid ph' (some fun _ => 0) 0 =
        .ok (.success, some (overlay (bytesAt (fun _ => 5) 0x3000 16) fun _ => 0)) := by
  have hnone : NoneSet emptyOptPacket := ⟨by decide, by decide, by decide⟩
  obtain ⟨⟨ph', outs, hexec, hanswers⟩, -⟩ := optionRegisters_lastWrite emptyOptPacket hnone
    [.setToken (fun _ => 7) 0x2001 3, .setExpireTime 9, .setPacketid (fun _ => 5) 0x3000]
  exact ⟨ph', outs, hexec, hanswers.expiry 0, hanswers.area.packetid _ rfl _ _⟩

end Runs

end MacKernel.Packet
