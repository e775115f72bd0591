import MacKernel.Models.Packet.Options

/-!
# Tokens in the option block

What `__packet_opt_set_token` stores and what the token getters give back. A token at
an address that is a multiple of eight is moved as sixteen bytes whatever its length,
so the block then depends on the bytes behind it. The getters copy the token out
before they look at its kind.
-/

namespace MacKernel.Packet

section Storing

variable {m : Memory 64} {a : BitVec 64} {len : BitVec 16} {token : List UInt8}

/-- An address that is no multiple of eight: the token is stored, and nothing else is read. -/
theorem storeToken_unaligned (halign : isP2Aligned8 a = false) (hlen : token.length = len.toNat)
    (h : m.Holds a token) (x : BitVec 256) :
    storeToken m a len x = .ok (putBytes poTokenOffset token x) := by
  rw [storeToken, halign, Memory.readBytes_eq_ok.mpr ⟨hlen, h⟩]
  rfl

/-- A multiple of eight: sixteen bytes are read, and all of them are stored. -/
theorem storeToken_aligned_iff (halign : isP2Aligned8 a = true) {x y : BitVec 256} :
    storeToken m a len x = .ok y ↔ ∃ bytes, bytes.length = 16 ∧ m.Holds a bytes ∧
      y = putBytes poTokenOffset bytes x := by
  rw [storeToken, halign]
  constructor
  · intro h
    obtain ⟨front, hfront, h⟩ := bind_eq_ok.mp h
    obtain ⟨back, hback, h⟩ := bind_eq_ok.mp h
    obtain ⟨hflen, hfholds⟩ := Memory.readBytes_eq_ok.mp hfront
    obtain ⟨hblen, hbholds⟩ := Memory.readBytes_eq_ok.mp hback
    refine ⟨front ++ back, by rw [List.length_append, hflen, hblen], hfholds.append ?_, ?_⟩
    · rw [hflen]
      exact hbholds
    · rw [putBytes_append, hflen]
      exact (Except.ok.inj h).symm
  · rintro ⟨bytes, hlen, hholds, rfl⟩
    have hsplit : bytes.take 8 ++ bytes.drop 8 = bytes := List.take_append_drop 8 bytes
    have hfront : (bytes.take 8).length = 8 := by rw [List.length_take]; omega
    have hback : (bytes.drop 8).length = 8 := by rw [List.length_drop]; omega
    rw [← hsplit] at hholds
    have hright := hholds.right
    rw [hfront] at hright
    have hread8 : m.readBytes 8 (a + 8) = .ok (bytes.drop 8) :=
      Memory.readBytes_eq_ok.mpr ⟨hback, hright⟩
    simp only [Memory.readBytes_eq_ok.mpr ⟨hfront, hholds.left⟩, hread8, ok_bind, if_true]
    have happend := putBytes_append poTokenOffset (bytes.take 8) (bytes.drop 8) x
    rw [hsplit, hfront] at happend
    rw [happend]
    rfl

/-- A full token, and one at an address that is no multiple of eight, is stored as it is. -/
theorem storeToken_held (hcond : len = pktOptMaxTokenSize ∨ isP2Aligned8 a = false)
    (hlen : token.length = len.toNat) (h : m.Holds a token) (x : BitVec 256) :
    storeToken m a len x = .ok (putBytes poTokenOffset token x) := by
  by_cases halign : isP2Aligned8 a = false
  · exact storeToken_unaligned halign hlen h x
  · have hfull : len = pktOptMaxTokenSize := hcond.resolve_right halign
    rw [hfull] at hlen
    exact (storeToken_aligned_iff (Bool.not_eq_false _ ▸ halign)).mpr ⟨token, hlen, h, rfl⟩

/-- The setter once the token was copied. -/
theorem packetOptSetToken_of_store {type : BitVec 8} (hne : len ≠ 0)
    (hmax : len ≤ pktOptMaxTokenSize) (ha : a ≠ 0) (htype : type ≠ 0) (x : BitVec 256)
    (f : BitVec 64) :
    packetOptSetToken m x a len type f = storeToken m a len x >>= fun y =>
      .ok (.success, poTokenType.set (type.setWidth 32) (poTokenLen.set len y),
        f ||| pktFOptToken) := by
  have hno : ¬(a = 0 ∨ pktOptMaxTokenSize < len ∨ type = 0) := by
    rintro (h | h | h)
    · exact ha h
    · exact absurd hmax (BitVec.not_le.mpr h)
    · exact htype h
  rw [packetOptSetToken, if_pos hne, if_neg hno]
  rfl

end Storing

section Determined

/-- The setter depends on the token only: in every two memories that hold the same `len` bytes
at `a₁` and at `a₂` it returns, with the same option block and the same flags. A memory need
not be mapped behind the token, so no byte there is read. -/
def TokenDetermined (x : BitVec 256) (f : BitVec 64) (type : BitVec 8) (len : BitVec 16)
    (a₁ a₂ : BitVec 64) : Prop :=
  ∀ (token : List UInt8) (m₁ m₂ : Memory 64), token.length = len.toNat → m₁.Holds a₁ token →
    m₂.Holds a₂ token → ∃ r, packetOptSetToken m₁ x a₁ len type f = .ok r ∧
      packetOptSetToken m₂ x a₂ len type f = .ok r

/-- The setter that returns in every memory which holds the token does not take the fast path
with a shorter token. -/
theorem not_aligned_of_returns {x : BitVec 256} {f : BitVec 64} {type : BitVec 8} {len : BitVec 16}
    {a : BitVec 64} (hne : len ≠ 0) (hlt : len < pktOptMaxTokenSize) (ha : a ≠ 0)
    (htype : type ≠ 0) {token : List UInt8} (hlen : token.length = len.toNat)
    (h : ∃ r, packetOptSetToken (Memory.ofBuffer a token) x a len type f = .ok r) :
    isP2Aligned8 a = false := by
  by_contra halign
  obtain ⟨r, h⟩ := h
  rw [packetOptSetToken_of_store hne (BitVec.le_of_lt hlt) ha htype] at h
  obtain ⟨y, hy, -⟩ := bind_eq_ok.mp h
  obtain ⟨bytes, h16, hholds, -⟩ :=
    (storeToken_aligned_iff (Bool.not_eq_false _ ▸ halign)).mp hy
  -- the byte behind the token is not mapped in this memory
  have hlt' : len.toNat < 16 := hlt
  have hbyte := hholds len.toNat (by omega)
  have hsub : (a + BitVec.ofNat 64 len.toNat - a).toNat = len.toNat := by
    rw [BitVec.add_comm, BitVec.add_sub_cancel, BitVec.toNat_ofNat, Nat.mod_eq_of_lt (by omega)]
  rw [Memory.ofBuffer, hsub, List.getElem?_eq_none hlen.le] at hbyte
  cases hbyte

private theorem holds_ofBuffer (a : BitVec 64) {token : List UInt8} (h : token.length ≤ 16) :
    (Memory.ofBuffer a token).Holds a token := by
  intro i hi
  have hsub : (a + BitVec.ofNat 64 i - a).toNat = i := by
    rw [BitVec.add_comm, BitVec.add_sub_cancel, BitVec.toNat_ofNat, Nat.mod_eq_of_lt (by omega)]
  rw [Memory.ofBuffer, hsub, List.getElem?_eq_getElem hi]

/-- The setter depends on the token only exactly when it rejects every token of this type, or
the token fills the token area, or neither address is a multiple of eight. -/
theorem tokenDetermined_iff (x : BitVec 256) (f : BitVec 64) (type : BitVec 8) (len : BitVec 16)
    (a₁ a₂ : BitVec 64) (hne : len ≠ 0) (hmax : len ≤ pktOptMaxTokenSize) (ha₁ : a₁ ≠ 0)
    (ha₂ : a₂ ≠ 0) :
    TokenDetermined x f type len a₁ a₂ ↔
      type = 0 ∨ len = pktOptMaxTokenSize ∨ isP2Aligned8 a₁ = false ∧ isP2Aligned8 a₂ = false := by
  have hle : len.toNat ≤ 16 := hmax
  constructor
  · intro h
    by_cases htype : type = 0
    · exact .inl htype
    by_cases hfull : len = pktOptMaxTokenSize
    · exact .inr (.inl hfull)
    have hlt : len < pktOptMaxTokenSize :=
      Nat.lt_of_le_of_ne hmax fun h => hfull (BitVec.eq_of_toNat_eq h)
    have hlen : (List.replicate len.toNat (0 : UInt8)).length = len.toNat := List.length_replicate
    have h16 : (List.replicate len.toNat (0 : UInt8)).length ≤ 16 := by omega
    obtain ⟨r, h₁, h₂⟩ := h _ _ _ hlen (holds_ofBuffer a₁ h16) (holds_ofBuffer a₂ h16)
    exact .inr (.inr ⟨not_aligned_of_returns hne hlt ha₁ htype hlen ⟨r, h₁⟩,
      not_aligned_of_returns hne hlt ha₂ htype hlen ⟨r, h₂⟩⟩)
  · intro hcond token m₁ m₂ hlen h₁ h₂
    by_cases htype : type = 0
    · refine ⟨(.einval, x, f), ?_, ?_⟩ <;>
        rw [packetOptSetToken, if_pos hne, if_pos (.inr (.inr htype))] <;> rfl
    have hcond' := hcond.resolve_left htype
    refine ⟨(.success, poTokenType.set (type.setWidth 32)
      (poTokenLen.set len (putBytes poTokenOffset token x)), f ||| pktFOptToken), ?_, ?_⟩
    · rw [packetOptSetToken_of_store hne hmax ha₁ htype,
        storeToken_held (hcond'.imp_right And.left) hlen h₁]
      rfl
    · rw [packetOptSetToken_of_store hne hmax ha₂ htype,
        storeToken_held (hcond'.imp_right And.right) hlen h₂]
      rfl

theorem tokenDetermined_unaligned : TokenDetermined 0 0 1 3 0x1001 0x1002 :=
  (tokenDetermined_iff 0 0 1 3 0x1001 0x1002 (by decide) (by decide) (by decide) (by decide)).mpr
    (.inr (.inr (by decide)))

/-- A token of one byte at an address that is a multiple of eight, in two memories that differ
behind it: both calls succeed, and the option blocks differ. -/
theorem tokenDetermined_fails :
    (Memory.flat fun _ => 0xAA).Holds 0x1000#64 [0xAA] ∧
      (Memory.flat fun a => if a = 0x1000#64 then 0xAA else 0).Holds 0x1000#64 [0xAA] ∧
      packetOptSetToken (.flat fun _ => 0xAA) 0 0x1000 1 1 0 ≠
        packetOptSetToken (.flat fun a => if a = 0x1000#64 then 0xAA else 0) 0 0x1000 1 1 0 ∧
      ¬TokenDetermined 0 0 1 1 0x1000 0x1000 := by
  have h₁ : (Memory.flat fun _ => 0xAA).Holds 0x1000#64 [0xAA] := by
    unfold Memory.Holds
    decide
  have h₂ : (Memory.flat fun a => if a = 0x1000#64 then 0xAA else 0).Holds 0x1000#64 [0xAA] := by
    unfold Memory.Holds
    decide
  have hne : packetOptSetToken (.flat fun _ => 0xAA) 0 0x1000 1 1 0 ≠
      packetOptSetToken (.flat fun a => if a = 0x1000#64 then 0xAA else 0) 0 0x1000 1 1 0 := by
    intro he
    have hbyte := congrArg (fun r => r.toOption.map fun t => poToken t.2.1 1) he
    exact absurd hbyte (by decide)
  refine ⟨h₁, h₂, hne, ?_⟩
  intro h
  obtain ⟨r, hr₁, hr₂⟩ := h [0xAA] _ _ rfl h₁ h₂
  exact hne (hr₁.trans hr₂.symm)

end Determined

section Getting

variable {x : BitVec 256} {err : Errno} {token token' : Option OutBuf}
  {len len' : Option (BitVec 16)} {type type' : Option (BitVec 8)}

/-- The stored token can be copied to a buffer of this capacity: it fits, and its length and
its type are in the range that the source expects. -/
def TokenFits (x : BitVec 256) (capacity : BitVec 16) : Prop :=
  poTokenLen.get x ≤ capacity ∧ poTokenLen.get x ≤ pktOptMaxTokenSize ∧ poTokenType.get x ≤ 255

/-- A token that fits is copied out. -/
theorem packetOptGetToken_fits {buf : OutBuf} {l : BitVec 16} {t : BitVec 8}
    (h : TokenFits x l) : packetOptGetToken x (some buf) (some l) (some t) =
      .ok (.success, some (copyToken x (poTokenLen.get x) buf), some (poTokenLen.get x),
        some ((poTokenType.get x).setWidth 8)) := by
  obtain ⟨hcap, hmax, htype⟩ := h
  have hno : ¬(l < poTokenLen.get x ∨ 255 < poTokenType.get x) :=
    not_or.mpr ⟨BitVec.not_lt.mpr hcap, BitVec.not_lt.mpr htype⟩
  simp only [packetOptGetToken, if_neg hno, kassert_of hmax, ok_bind]
  rfl

/-- The helper fails and leaves its outputs alone, or copies a token that fits. -/
theorem packetOptGetToken_cases
    (h : packetOptGetToken x token len type = .ok (err, token', len', type')) :
    (err = .einval ∧ token' = token ∧ len' = len ∧ type' = type) ∨
      ∃ buf l, token = some buf ∧ len = some l ∧ TokenFits x l ∧ err = .success ∧
        token' = some (copyToken x (poTokenLen.get x) buf) ∧ len' = some (poTokenLen.get x) ∧
        type' = some ((poTokenType.get x).setWidth 8) := by
  unfold packetOptGetToken at h
  split at h
  · next buf l t =>
    dsimp only at h
    split at h
    · cases h
      exact .inl ⟨rfl, rfl, rfl, rfl⟩
    · next hno =>
      obtain ⟨_, hmax, h⟩ := bind_eq_ok.mp h
      rw [kassert_eq_ok] at hmax
      obtain ⟨hcap, htype⟩ := not_or.mp hno
      cases h
      exact .inr ⟨buf, l, rfl, rfl, ⟨BitVec.not_lt.mp hcap, hmax, BitVec.not_lt.mp htype⟩, rfl, rfl,
        rfl, rfl⟩
  · cases h
    exact .inl ⟨rfl, rfl, rfl, rfl⟩

/-- The byte that is compared with a token type tells the whole field, once that fits a byte. -/
theorem tokenType_eq_iff (h : poTokenType.get x ≤ 255) (t : BitVec 8) :
    (poTokenType.get x).setWidth 8 = t ↔ poTokenType.get x = t.setWidth 32 := by
  have hle : (poTokenType.get x).toNat ≤ 255 := h
  have ht := t.isLt
  rw [BitVec.toNat_eq, BitVec.toNat_eq, BitVec.toNat_setWidth, BitVec.toNat_setWidth,
    Nat.mod_eq_of_lt (by omega), Nat.mod_eq_of_lt (by omega)]

/-- The copy changes nothing when the buffer already begins with the token. -/
theorem copyToken_eq_self_iff {tlen : BitVec 16} {buf : OutBuf} :
    copyToken x tlen buf = buf ↔ ∀ i < tlen.toNat, buf i = poToken x i := by
  constructor
  · intro h i hi
    have hcopy := congrFun h i
    rw [copyToken, if_pos hi] at hcopy
    exact hcopy.symm
  · intro h
    funext i
    rw [copyToken]
    split
    · next hi => exact (h i hi).symm
    · rfl

end Getting

section Atomic

variable {P : Type} [PacketOpts P]

/-- A failing `__packet_get_token` leaves the buffer and the length as they were. -/
def GetTokenAtomic (ph : P) (token : Option OutBuf) (len : Option (BitVec 16)) : Prop :=
  ∀ type err token' len', packetGetToken ph token len type = .ok (err, token', len') →
    err ≠ .success → token' = token ∧ len' = len

/-- A failing `__packet_get_packetid` leaves the packet id as it was. -/
def GetPacketidAtomic (ph : P) (pktid : Option OutBuf) : Prop :=
  ∀ type err pktid', packetGetPacketid ph pktid type = .ok (err, pktid') →
    err ≠ .success → pktid' = pktid

/-- The outputs already hold what is copied whenever a token of another kind is copied. -/
def TokenUnharmed (ph : P) (token : Option OutBuf) (len : Option (BitVec 16)) : Prop :=
  ∀ buf l, token = some buf → len = some l → pflags ph &&& pktFOptToken ≠ 0 →
    TokenFits (po ph) l → poTokenType.get (po ph) ≠ pktOptTokenTypeOpaque.setWidth 32 →
    l = poTokenLen.get (po ph) ∧
      ∀ i < (poTokenLen.get (po ph)).toNat, buf i = poToken (po ph) i

/-- The packet id already holds what is copied whenever the token is no packet id. -/
def PacketidUnharmed (ph : P) (pktid : Option OutBuf) : Prop :=
  ∀ buf, pktid = some buf → pflags ph &&& pktFOptToken ≠ 0 → TokenFits (po ph) packetIdSize →
    (poTokenType.get (po ph) ≠ pktOptTokenTypePacketId.setWidth 32 ∨
      poTokenLen.get (po ph) ≠ packetIdSize) →
    ∀ i < (poTokenLen.get (po ph)).toNat, buf i = poToken (po ph) i

/-- A token of another kind is copied to the caller, who is then told that there is none. -/
theorem packetGetToken_otherKind {ph : P} {buf : OutBuf} {l : BitVec 16}
    (hflag : pflags ph &&& pktFOptToken ≠ 0) (hfits : TokenFits (po ph) l)
    (htype : poTokenType.get (po ph) ≠ pktOptTokenTypeOpaque.setWidth 32) :
    packetGetToken ph (some buf) (some l) 0 =
      .ok (.enoent, some (copyToken (po ph) (poTokenLen.get (po ph)) buf),
        some (poTokenLen.get (po ph))) := by
  have hkind : (poTokenType.get (po ph)).setWidth 8 ≠ pktOptTokenTypeOpaque :=
    fun he => htype ((tokenType_eq_iff hfits.2.2 _).mp he)
  simp only [packetGetToken, if_neg hflag, packetOptGetToken_fits hfits, ok_bind]
  rw [if_pos ⟨trivial, fun he => hkind (Option.some.inj he)⟩]
  rfl

/-- A token that is no packet id is copied to the caller as well. -/
theorem packetGetPacketid_otherKind {ph : P} {buf : OutBuf}
    (hflag : pflags ph &&& pktFOptToken ≠ 0) (hfits : TokenFits (po ph) packetIdSize)
    (hwrong : poTokenType.get (po ph) ≠ pktOptTokenTypePacketId.setWidth 32 ∨
      poTokenLen.get (po ph) ≠ packetIdSize) :
    packetGetPacketid ph (some buf) 0 =
      .ok (.enoent, some (copyToken (po ph) (poTokenLen.get (po ph)) buf)) := by
  have hkind : some ((poTokenType.get (po ph)).setWidth 8) ≠ some pktOptTokenTypePacketId ∨
      some (poTokenLen.get (po ph)) ≠ some packetIdSize := by
    refine hwrong.imp (fun htype he => ?_) fun hlen he => hlen (Option.some.inj he)
    exact htype ((tokenType_eq_iff hfits.2.2 _).mp (Option.some.inj he))
  simp only [packetGetPacketid, if_neg hflag, packetOptGetToken_fits hfits, ok_bind]
  rw [if_pos ⟨trivial, hkind⟩]
  rfl

private theorem getTokenAtomic_iff (ph : P) (token : Option OutBuf) (len : Option (BitVec 16)) :
    GetTokenAtomic ph token len ↔ TokenUnharmed ph token len := by
  constructor
  · rintro h buf l rfl rfl hflag hfits htype
    obtain ⟨hbuf, hl⟩ := h _ _ _ _ (packetGetToken_otherKind hflag hfits htype) (by decide)
    exact ⟨(Option.some.inj hl).symm, copyToken_eq_self_iff.mp (Option.some.inj hbuf)⟩
  · intro h type err token' len' hcall herr
    rw [packetGetToken] at hcall
    split at hcall
    · cases hcall
      exact ⟨rfl, rfl⟩
    · next hflag =>
      obtain ⟨⟨err₁, token₁, len₁, type₁⟩, hopt, hcall⟩ := bind_eq_ok.mp hcall
      dsimp only at hcall
      rcases packetOptGetToken_cases hopt with
        ⟨rfl, rfl, rfl, rfl⟩ | ⟨buf, l, rfl, rfl, hfits, rfl, rfl, rfl, rfl⟩
      · rw [if_neg (by simp)] at hcall
        cases hcall
        exact ⟨rfl, rfl⟩
      · split at hcall
        · next hkind =>
          have htype : poTokenType.get (po ph) ≠ pktOptTokenTypeOpaque.setWidth 32 :=
            fun he => hkind.2 (congrArg some ((tokenType_eq_iff hfits.2.2 _).mpr he))
          obtain ⟨hl, hbuf⟩ := h buf l rfl rfl hflag hfits htype
          cases hcall
          exact ⟨congrArg some (copyToken_eq_self_iff.mpr hbuf), congrArg some hl.symm⟩
        · cases hcall
          exact absurd rfl herr

private theorem getPacketidAtomic_iff (ph : P) (pktid : Option OutBuf) :
    GetPacketidAtomic ph pktid ↔ PacketidUnharmed ph pktid := by
  constructor
  · rintro h buf rfl hflag hfits hwrong
    have hbuf := h _ _ _ (packetGetPacketid_otherKind hflag hfits hwrong) (by decide)
    exact copyToken_eq_self_iff.mp (Option.some.inj hbuf)
  · intro h type err pktid' hcall herr
    rw [packetGetPacketid] at hcall
    split at hcall
    · cases hcall
      rfl
    · next hflag =>
      obtain ⟨⟨err₁, token₁, len₁, type₁⟩, hopt, hcall⟩ := bind_eq_ok.mp hcall
      dsimp only at hcall
      rcases packetOptGetToken_cases hopt with
        ⟨rfl, rfl, rfl, rfl⟩ | ⟨buf, l, rfl, hl, hfits, rfl, rfl, rfl, rfl⟩
      · rw [if_neg (by simp)] at hcall
        cases hcall
        rfl
      · cases hl
        split at hcall
        · next hkind =>
          have hwrong : poTokenType.get (po ph) ≠ pktOptTokenTypePacketId.setWidth 32 ∨
              poTokenLen.get (po ph) ≠ packetIdSize := by
            refine hkind.2.imp (fun htype he => htype ?_) fun hlen he => hlen (congrArg some he)
            exact congrArg some ((tokenType_eq_iff hfits.2.2 _).mpr he)
          cases hcall
          exact congrArg some (copyToken_eq_self_iff.mpr (h buf rfl hflag hfits hwrong))
        · cases hcall
          exact absurd rfl herr

/-- The getters leave their outputs alone on an error exactly when no token of another kind is
copied over different bytes: the token flag is set, the outputs are there, the stored token
fits them, and its type (for packet ids also its length) is another one. -/
theorem tokenGetters_atomic_iff (ph : P) (token pktid : Option OutBuf)
    (len : Option (BitVec 16)) :
    (GetTokenAtomic ph token len ↔ TokenUnharmed ph token len) ∧
      (GetPacketidAtomic ph pktid ↔ PacketidUnharmed ph pktid) :=
  ⟨getTokenAtomic_iff ph token len, getPacketidAtomic_iff ph pktid⟩

/-- A user packet with a zeroed token of sixteen bytes and the given type. -/
def userTokenPacket (type : BitVec 32) : UserPacket where
  qum := ⟨⟨0, 0, 0, 0⟩, 0, 0, 0⟩
  com := pktPflags.set pktFOptToken 0
  comOpt := poTokenLen.set 16 (poTokenType.set type 0)
  bufsMax := 1
  bufsCnt := 1

/-- A packet id is copied to the caller of `__packet_get_token`, and an opaque token to the
caller of `__packet_get_packetid`, before either reports an error. -/
theorem tokenGetters_not_atomic :
    ¬GetTokenAtomic (userTokenPacket 2) (some fun _ => 0xFF) (some 16) ∧
      ¬GetPacketidAtomic (userTokenPacket 1) (some fun _ => 0xFF) := by
  constructor
  · rw [getTokenAtomic_iff]
    intro h
    have hbyte := (h _ _ rfl rfl (by decide) ⟨by decide, by decide, by decide⟩ (by decide)).2 0
      (by decide)
    exact absurd hbyte (by decide)
  · rw [getPacketidAtomic_iff]
    intro h
    have hbyte := h _ rfl (by decide) ⟨by decide, by decide, by decide⟩ (.inl (by decide)) 0
      (by decide)
    exact absurd hbyte (by decide)

end Atomic

end MacKernel.Packet
