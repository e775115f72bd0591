import MacKernel.Core.Simulation
import MacKernel.Models.Packet.FinalizeOutcome

/-!
# Bounds of buflets in the kernel

A buffer object may be shared by buflets that each cover a part of it. The setters
check every field by itself against the object, and leave it to `BUF_IN_RANGE` to check
the fields together when the packet is finalized. `BUF_IN_RANGE` adds in 64 bits, so
that it also accepts a part that runs past the end of the address space.
-/

namespace MacKernel.Packet

open Buflet

section Native

/-- `SKMEM_BUFCTL_SHAREOK`. -/
def skmemBufctlShareok : BitVec 32 := 0x1

variable (bcFlags : BitVec 64 → BitVec 32)

/-- `ASSERT(buf->buf_ctl->bc_flags & SKMEM_BUFCTL_SHAREOK)`. -/
def KernMeta.assertShareok (s : KernMeta) (buf : BitVec 64) : Except Fault Bufctl := do
  let bc ← deref (s.ctlAt buf)
  kassert (bcFlags (s.kbuflet buf).ctl &&& skmemBufctlShareok ≠ 0)
  return bc

/-- Store into a field of a buflet, if the value is in range. -/
def KernMeta.storeIf (s : KernMeta) (buf : BitVec 64) {len : Nat} (f : Field 288 len)
    (v : BitVec len) (inRange : Bool) : KernMeta × Errno :=
  if inRange then (setBuflet buf (f.set v (buflet s buf)) s, .success) else (s, .erange)

/-- `__buflet_set_data_limit`. -/
def KernMeta.bufletSetDataLimit (s : KernMeta) (buf : BitVec 64) (dlim : BitVec 16) :
    Except Fault (KernMeta × Errno) := do
  let bc ← s.assertShareok bcFlags buf
  return s.storeIf buf bufDlim dlim (dlim.setWidth 32 ≤ bc.lim)

/-- `__buflet_set_data_address`. -/
def KernMeta.bufletSetDataAddress (s : KernMeta) (buf addr : BitVec 64) :
    Except Fault (KernMeta × Errno) := do
  let bc ← s.assertShareok bcFlags buf
  return s.storeIf buf bufAddr addr (bc.addr ≤ addr)

/-- `__buflet_set_data_offset`. -/
def KernMeta.bufletSetDataOffset (s : KernMeta) (buf : BitVec 64) (doff : BitVec 16) :
    Except Fault (KernMeta × Errno) := do
  kassert (bufDlim.get (buflet s buf) ≠ 0)
  let bc ← deref (s.ctlAt buf)
  return s.storeIf buf bufDoff doff (doff.setWidth 32 ≤ bc.lim)

/-- `__buflet_set_data_length`. -/
def KernMeta.bufletSetDataLength (s : KernMeta) (buf : BitVec 64) (dlen : BitVec 16) :
    Except Fault (KernMeta × Errno) := do
  kassert (bufDlim.get (buflet s buf) ≠ 0)
  let bc ← deref (s.ctlAt buf)
  return s.storeIf buf bufDlen dlen (dlen.setWidth 32 ≤ bc.lim)

/-- The setters, and `__packet_finalize` with its locals. -/
inductive BufletOp where
  | setDataLimit (buf : BitVec 64) (dlim : BitVec 16)
  | setDataAddress (buf addr : BitVec 64)
  | setDataOffset (buf : BitVec 64) (doff : BitVec 16)
  | setDataLength (buf : BitVec 64) (dlen : BitVec 16)
  | finalize (bdoff0 bdlim0 : Local)

/-- One call, with the error it returns. -/
def bufletStep (s : KernMeta) : BufletOp → Except Fault (KernMeta × Errno)
  | .setDataLimit buf dlim => s.bufletSetDataLimit bcFlags buf dlim
  | .setDataAddress buf addr => s.bufletSetDataAddress bcFlags buf addr
  | .setDataOffset buf doff => s.bufletSetDataOffset buf doff
  | .setDataLength buf dlen => s.bufletSetDataLength buf dlen
  | .finalize bdoff0 bdlim0 => do
    let (err, s) ← s.packetFinalize bdoff0 bdlim0
    return (s, err)

end Native

section Range

/-- The fields that are compared with the size of the buffer object. -/
def sizeFields : List (Field 288 16) := [bufDlim, bufDlen, bufDoff]

/-- Every field of a buflet is inside its buffer object by itself. -/
structure InObject (b : BufletCom) (bc : Bufctl) : Prop where
  addr : bc.addr ≤ bufAddr.get b
  size : ∀ f ∈ sizeFields, (f.get b).toNat ≤ bc.lim.toNat

/-- The buffer object does not run past the end of the address space. -/
def Bufctl.Fits (bc : Bufctl) : Prop := bc.addr.toNat + bc.lim.toNat < 2 ^ 64

instance (bc : Bufctl) : Decidable bc.Fits := inferInstanceAs (Decidable (_ < _))

/-- The part that the buflet covers runs past the end of the address space. -/
def PastEnd (b : BufletCom) : Prop := 2 ^ 64 ≤ (bufAddr.get b).toNat + (bufDlim.get b).toNat

instance (b : BufletCom) : Decidable (PastEnd b) := inferInstanceAs (Decidable (_ ≤ _))

/-- The part that the buflet covers ends inside the buffer object. -/
def EndsInside (b : BufletCom) (bc : Bufctl) : Prop :=
  (bufAddr.get b).toNat + (bufDlim.get b).toNat ≤ bc.addr.toNat + bc.lim.toNat

instance (b : BufletCom) (bc : Bufctl) : Decidable (EndsInside b bc) :=
  inferInstanceAs (Decidable (_ ≤ _))

/-- Every byte of the data is a byte of the buffer object. -/
def DataInside (b : BufletCom) (bc : Bufctl) : Prop :=
  ∀ i < (bufDlen.get b).toNat,
    bc.addr.toNat ≤ (bufAddr.get b).toNat + (bufDoff.get b).toNat + i ∧
      (bufAddr.get b).toNat + (bufDoff.get b).toNat + i < bc.addr.toNat + bc.lim.toNat

variable {b : BufletCom} {bc : Bufctl}

/-- The check of the source, without its 32-bit sum. -/
theorem dataInRange_iff : dataInRange b = true ↔
    (bufDoff.get b).toNat + (bufDlen.get b).toNat ≤ (bufDlim.get b).toNat := by
  simp [dataInRange]

/-- The sum in 64 bits is small when it has run past the end. -/
theorem InObject.end_le_iff (h : InObject b bc) (hfits : bc.Fits) :
    bufAddr.get b + (bufDlim.get b).setWidth 64 ≤ bc.addr + bc.lim.setWidth 64 ↔
      EndsInside b bc ∨ PastEnd b := by
  have haddr := (bufAddr.get b).isLt
  have hdlim := h.size bufDlim List.mem_cons_self
  have hsum : (bc.addr + bc.lim.setWidth 64).toNat = bc.addr.toNat + bc.lim.toNat := by
    rw [BitVec.toNat_add, BitVec.toNat_setWidth_of_le (by decide), Nat.mod_eq_of_lt hfits]
  rw [BitVec.le_def, hsum, BitVec.toNat_add, BitVec.toNat_setWidth_of_le (by decide)]
  unfold EndsInside PastEnd
  unfold Bufctl.Fits at hfits
  by_cases hpast : 2 ^ 64 ≤ (bufAddr.get b).toNat + (bufDlim.get b).toNat
  · have hmod : ((bufAddr.get b).toNat + (bufDlim.get b).toNat) % 2 ^ 64 =
        (bufAddr.get b).toNat + (bufDlim.get b).toNat - 2 ^ 64 := by
      rw [Nat.mod_eq_sub_mod hpast, Nat.mod_eq_of_lt (by omega)]
    rw [hmod]
    exact iff_of_true (by omega) (.inr hpast)
  · rw [Nat.mod_eq_of_lt (Nat.not_le.mp hpast)]
    exact (or_iff_left hpast).symm

/-- What `BUF_IN_RANGE` accepts of a buflet whose fields were checked one by one. -/
theorem InObject.objInRange_iff (h : InObject b bc) (hfits : bc.Fits) :
    objInRange b bc = true ↔
      (bufDoff.get b).toNat + (bufDlen.get b).toNat ≤ (bufDlim.get b).toNat ∧
        (EndsInside b bc ∨ PastEnd b) := by
  simp only [objInRange, decide_eq_true_eq, h.addr, true_and, h.end_le_iff hfits, dataInRange_iff]
  exact and_comm

/-- A part that ends inside the object keeps the data there. -/
theorem InObject.dataInside (h : InObject b bc) (hend : EndsInside b bc)
    (hdata : (bufDoff.get b).toNat + (bufDlen.get b).toNat ≤ (bufDlim.get b).toNat) :
    DataInside b bc := by
  intro i hi
  have haddr := BitVec.le_def.mp h.addr
  unfold EndsInside at hend
  omega

end Range

section Setters

variable {b : BufletCom} {bc : Bufctl}

/-- A later data address keeps a buflet inside its object. -/
theorem InObject.set_addr (h : InObject b bc) {addr : BitVec 64} (ha : bc.addr ≤ addr) :
    InObject (bufAddr.set addr b) bc := by
  have hapart : ∀ f ∈ sizeFields, f.Disjoint bufAddr := by decide
  constructor
  case addr =>
    rw [Field.get_set_self]
    exact ha
  case size =>
    intro f hf
    rw [Field.get_set_of_disjoint (hapart f hf)]
    exact h.size f hf

/-- A size within the object keeps a buflet inside it. -/
theorem InObject.set_size (h : InObject b bc) {f : Field 288 16} (hf : f ∈ sizeFields)
    {v : BitVec 16} (hv : v.setWidth 32 ≤ bc.lim) : InObject (f.set v b) bc := by
  have haddr : ∀ f ∈ sizeFields, bufAddr.Disjoint f := by decide
  have hapart : ∀ f ∈ sizeFields, ∀ g ∈ sizeFields, g.off = f.off ∨ g.Disjoint f := by decide
  constructor
  case addr =>
    rw [Field.get_set_of_disjoint (haddr f hf)]
    exact h.addr
  case size =>
    intro g hg
    rcases hapart f hf g hg with hoff | hdisj
    · obtain rfl : g = f := by
        cases g
        cases f
        cases hoff
        rfl
      rw [Field.get_set_self]
      rwa [BitVec.le_def, BitVec.toNat_setWidth_of_le (by decide)] at hv
    · rw [Field.get_set_of_disjoint hdisj]
      exact h.size g hg

/-- The buflets with a buffer control are inside their objects, field by field. -/
def KernMeta.InObjects (s : KernMeta) : Prop :=
  ∀ a, (s.kbuflet a).ctl ≠ 0 → InObject (buflet s a) (s.bufctl (s.kbuflet a).ctl)

/-- What the calls do not change. -/
structure KernMeta.SameObjects (s s' : KernMeta) : Prop where
  bufctl : s'.bufctl = s.bufctl
  ctl : ∀ a, (s'.kbuflet a).ctl = (s.kbuflet a).ctl

variable {s s' : KernMeta} {buf : BitVec 64}

/-- The objects stay the same over two calls. -/
theorem KernMeta.SameObjects.trans {s'' : KernMeta} (h : s.SameObjects s')
    (h' : s'.SameObjects s'') : s.SameObjects s'' where
  bufctl := h'.bufctl.trans h.bufctl
  ctl a := (h'.ctl a).trans (h.ctl a)

/-- A store into a buflet leaves the objects. -/
theorem KernMeta.sameObjects_setBuflet (s : KernMeta) (a : BitVec 64) (b : BufletCom) :
    s.SameObjects (setBuflet a b s) := by
  by_cases ha : a = s.self
  · have hset : setBuflet a b s = { s with pkt := { s.pkt with qum := { s.pkt.qum with
        buf := { s.pkt.qum.buf with com := b } } } } := if_pos ha
    rw [hset]
    refine ⟨rfl, fun a' => ?_⟩
    unfold KernMeta.kbuflet
    split
    · rfl
    · rfl
  · have hset : setBuflet a b s =
        { s with bufs := Function.update s.bufs a { s.bufs a with com := b } } := if_neg ha
    rw [hset]
    refine ⟨rfl, fun a' => ?_⟩
    unfold KernMeta.kbuflet
    dsimp only
    split
    · rfl
    · by_cases h : a' = a
      · rw [h, Function.update_self]
      · rw [Function.update_of_ne h]

/-- A store that keeps a buflet inside its object keeps all of them there. -/
theorem KernMeta.InObjects.storeIf (h : s.InObjects) {len : Nat} (f : Field 288 len)
    (v : BitVec len) {inRange : Bool}
    (hset : inRange = true → (s.kbuflet buf).ctl ≠ 0 →
      InObject (f.set v (buflet s buf)) (s.bufctl (s.kbuflet buf).ctl)) :
    s.SameObjects (s.storeIf buf f v inRange).1 ∧ (s.storeIf buf f v inRange).1.InObjects := by
  unfold KernMeta.storeIf
  split
  · next hr =>
    have hsame := s.sameObjects_setBuflet buf (f.set v (buflet s buf))
    refine ⟨hsame, fun a ha => ?_⟩
    rw [hsame.ctl a] at ha ⊢
    rw [hsame.bufctl, BufletMeta.buflet_setBuflet, Function.update_apply]
    split
    · next heq =>
      subst heq
      exact hset hr ha
    · exact h a ha
  · exact ⟨⟨rfl, fun _ => rfl⟩, h⟩

/-- `__packet_finalize` writes to the quantum only. -/
theorem KernMeta.packetFinalize_setQum {err : Errno} {bdoff0 bdlim0 : Local}
    (h : s.packetFinalize bdoff0 bdlim0 = .ok (err, s')) : ∃ com, s' = s.setQum com := by
  unfold KernMeta.packetFinalize at h
  obtain ⟨-, -, h⟩ := bind_eq_ok.mp h
  obtain ⟨c, -, h⟩ := bind_eq_ok.mp h
  obtain ⟨⟨err₁, v⟩, -, h⟩ := bind_eq_ok.mp h
  dsimp only at h
  split at h
  · exact ⟨_, (congrArg Prod.snd (Except.ok.inj h)).symm⟩
  · obtain ⟨err₂, -, h⟩ := bind_eq_ok.mp h
    exact ⟨_, (congrArg Prod.snd (Except.ok.inj h)).symm⟩

variable {bcFlags : BitVec 64 → BitVec 32}

/-- The object of a buflet is the one that its pointer names. -/
theorem ctlAt_eq_some {bc : Bufctl} (h : deref (s.ctlAt buf) = .ok bc) :
    bc = s.bufctl (s.kbuflet buf).ctl := by
  unfold KernMeta.ctlAt at h
  split at h
  · cases h
  · exact (Except.ok.inj h).symm

/-- An assertion on an object returns the object. -/
theorem assertShareok_eq {bc : Bufctl} (h : s.assertShareok bcFlags buf = .ok bc) :
    bc = s.bufctl (s.kbuflet buf).ctl := by
  obtain ⟨bc', hbc, h⟩ := bind_eq_ok.mp h
  obtain ⟨-, -, h⟩ := bind_eq_ok.mp h
  obtain rfl := Except.ok.inj h
  exact ctlAt_eq_some hbc

/-- A call that returns leaves the buflets inside their objects, and the objects as they are. -/
theorem KernMeta.InObjects.step (h : s.InObjects) {op : BufletOp} {err : Errno}
    (hstep : bufletStep bcFlags s op = .ok (s', err)) : s.SameObjects s' ∧ s'.InObjects := by
  cases op with
  | setDataLimit buf dlim =>
    obtain ⟨bc, hbc, hs'⟩ := bind_eq_ok.mp hstep
    obtain rfl := assertShareok_eq hbc
    obtain rfl := congrArg Prod.fst (Except.ok.inj hs')
    exact h.storeIf _ _ fun hr hctl => (h buf hctl).set_size (by simp [sizeFields])
      (of_decide_eq_true hr)
  | setDataAddress buf addr =>
    obtain ⟨bc, hbc, hs'⟩ := bind_eq_ok.mp hstep
    obtain rfl := assertShareok_eq hbc
    obtain rfl := congrArg Prod.fst (Except.ok.inj hs')
    exact h.storeIf _ _ fun hr hctl => (h buf hctl).set_addr (of_decide_eq_true hr)
  | setDataOffset buf doff =>
    obtain ⟨-, -, hstep⟩ := bind_eq_ok.mp hstep
    obtain ⟨bc, hbc, hs'⟩ := bind_eq_ok.mp hstep
    obtain rfl := ctlAt_eq_some hbc
    obtain rfl := congrArg Prod.fst (Except.ok.inj hs')
    exact h.storeIf _ _ fun hr hctl => (h buf hctl).set_size (by simp [sizeFields])
      (of_decide_eq_true hr)
  | setDataLength buf dlen =>
    obtain ⟨-, -, hstep⟩ := bind_eq_ok.mp hstep
    obtain ⟨bc, hbc, hs'⟩ := bind_eq_ok.mp hstep
    obtain rfl := ctlAt_eq_some hbc
    obtain rfl := congrArg Prod.fst (Except.ok.inj hs')
    exact h.storeIf _ _ fun hr hctl => (h buf hctl).set_size (by simp [sizeFields])
      (of_decide_eq_true hr)
  | finalize bdoff0 bdlim0 =>
    obtain ⟨⟨err', s₁⟩, hfinal, hs'⟩ := bind_eq_ok.mp hstep
    obtain ⟨com, rfl⟩ := KernMeta.packetFinalize_setQum hfinal
    obtain rfl := congrArg Prod.fst (Except.ok.inj hs')
    exact ⟨⟨rfl, fun _ => rfl⟩, h⟩

/-- Every run keeps the buflets inside their objects. -/
theorem KernMeta.InObjects.run {ops : List BufletOp} {errs : List Errno} (h : s.InObjects)
    (hrun : execAll (bufletStep bcFlags) s ops = .ok (s', errs)) :
    s.SameObjects s' ∧ s'.InObjects := by
  refine execAll_invariant (fun s' => s.SameObjects s' ∧ s'.InObjects) ?_
    ⟨⟨rfl, fun _ => rfl⟩, h⟩ hrun
  intro s₁ s₂ op err ⟨hsame, h₁⟩ hstep
  obtain ⟨hsame', h₂⟩ := h₁.step hstep
  exact ⟨hsame.trans hsame', h₂⟩

end Setters

section Outcome

variable {bcFlags : BitVec 64 → BitVec 32} {s₀ s : KernMeta} {ops : List BufletOp}
variable {errs : List Errno}

/-- After every run of the setters, `BUF_IN_RANGE` accepts a buflet exactly when its data are in
the part it covers and that part ends inside the buffer object or runs past the end of the address
space; and the data of a finalized packet are in their objects, unless a part runs past the end. -/
theorem finalized_data_of_exec (h₀ : s₀.InObjects) (hfits : ∀ c, (s₀.bufctl c).Fits)
    (hrun : execAll (bufletStep bcFlags) s₀ ops = .ok (s, errs)) :
    (∀ a, (s.kbuflet a).ctl ≠ 0 →
      (s.bufInRange a = .ok true ↔
        (bufDoff.get (buflet s a)).toNat + (bufDlen.get (buflet s a)).toNat ≤
            (bufDlim.get (buflet s a)).toNat ∧
          (EndsInside (buflet s a) (s₀.bufctl (s₀.kbuflet a).ctl) ∨ PastEnd (buflet s a)))) ∧
    ∀ bdoff0 bdlim0 s', s.Admitted → s.count ≠ 0 → s.pktHasAttachedMbuf = false →
      s.packetFinalize bdoff0 bdlim0 = .ok (.success, s') → ∀ i < s.count,
        DataInside (counted s i) (s₀.bufctl (s₀.kbuflet (bufletAt s i)).ctl) ∨
          PastEnd (counted s i) := by
  obtain ⟨hsame, h⟩ := h₀.run hrun
  have hobject : ∀ a, s.bufctl (s.kbuflet a).ctl = s₀.bufctl (s₀.kbuflet a).ctl := by
    intro a
    rw [hsame.bufctl, hsame.ctl]
  have hrange : ∀ a, (s.kbuflet a).ctl ≠ 0 →
      (objInRange (buflet s a) (s.bufctl (s.kbuflet a).ctl) = true ↔ _) := fun a ha =>
    (h a ha).objInRange_iff (hobject a ▸ hfits _)
  constructor
  · intro a ha
    have hread : s.bufInRange a = .ok (objInRange (buflet s a) (s.bufctl (s.kbuflet a).ctl)) := by
      rw [KernMeta.bufInRange, KernMeta.ctlAt, if_neg ha]
      rfl
    rw [hread, Except.ok.injEq, hrange a ha, hobject a]
  · intro bdoff0 bdlim0 s' hadm hcount hmbuf hfinal i hi
    rw [hadm.packetFinalize_eq hcount] at hfinal
    have hok := s.finalizeErr_eq_success.mp (congrArg Prod.fst (Except.ok.inj hfinal))
    have haccept := hok.inRange i hi
    rw [KernMeta.accepts, hmbuf, Bool.or_false] at haccept
    obtain ⟨hdata, hend⟩ := (hrange _ (hadm.control i hi)).mp haccept
    rcases hend with hend | hpast
    · rw [← hobject]
      exact .inl ((h _ (hadm.control i hi)).dataInside hend hdata)
    · exact .inr hpast

/-- The buflet of the example is inside its object. -/
theorem oneBuflet_inObjects : oneBuflet.InObjects := by
  intro a ha
  by_cases hself : a = oneBuflet.self
  · subst hself
    exact ⟨by decide +kernel, by decide +kernel⟩
  · rw [KernMeta.kbuflet, if_neg hself] at ha
    exact absurd rfl ha

/-- The packet `oneBuflet` after one call of a setter of its buflet. -/
def stored {len : Nat} (f : Field 288 len) (v : BitVec len) : KernMeta :=
  (oneBuflet.storeIf 0x1000 f v true).1

/-- With another length the packet meets the asserts still. -/
private theorem stored_admitted : (stored bufDlen 300).Admitted := by
  constructor
  case internalized => decide
  case onDemand => exact fun _ => .inl (by decide)
  case chain => decide +kernel
  case buffer => decide +kernel
  case control => decide +kernel
  case optArea => exact fun _ h => absurd h (by decide)

/-- With 300 bytes of data the packet can be finalized. -/
private theorem stored_finalizable : (stored bufDlen 300).Finalizable := by
  constructor
  case inRange => decide +kernel
  case headers => decide +kernel
  case options => decide +kernel

/-- A length inside the object, after which the packet is finalized with its data inside; and an
address that is far behind the object, so that the part runs past the end. -/
theorem finalized_data_inside_pastEnd :
    (∃ s',
      execAll (bufletStep fun _ => skmemBufctlShareok) oneBuflet [.setDataLength 0x1000 300] =
        .ok (stored bufDlen 300, [.success]) ∧
      (stored bufDlen 300).packetFinalize (.ok 0) (.ok 0) = .ok (.success, s') ∧
      DataInside (counted (stored bufDlen 300) 0) ⟨0x2000, 2048⟩) ∧
    execAll (bufletStep fun _ => skmemBufctlShareok) oneBuflet
      [.setDataAddress 0x1000 0xfffffffffffff900] =
        .ok (stored bufAddr 0xfffffffffffff900, [.success]) ∧
    (stored bufAddr 0xfffffffffffff900).bufInRange 0x1000 = .ok true ∧
    PastEnd (buflet (stored bufAddr 0xfffffffffffff900) 0x1000) ∧
    ¬EndsInside (buflet (stored bufAddr 0xfffffffffffff900) 0x1000) ⟨0x2000, 2048⟩ := by
  have hlength : execAll (bufletStep fun _ => skmemBufctlShareok) oneBuflet
      [.setDataLength 0x1000 300] = .ok (stored bufDlen 300, [.success]) := by
    have hdlim : bufDlim.get (buflet oneBuflet 0x1000) ≠ 0 := by decide +kernel
    rw [execAll, bufletStep, KernMeta.bufletSetDataLength, kassert_of hdlim]
    rfl
  have haddress : execAll (bufletStep fun _ => skmemBufctlShareok) oneBuflet
      [.setDataAddress 0x1000 0xfffffffffffff900] =
        .ok (stored bufAddr 0xfffffffffffff900, [.success]) := rfl
  have hfits : ∀ c, (oneBuflet.bufctl c).Fits := fun _ => (by decide : Bufctl.Fits ⟨0x2000, 2048⟩)
  refine ⟨?_, haddress, ?_, by decide +kernel, by decide +kernel⟩
  · have hadm := stored_admitted
    have hcount : (stored bufDlen 300).count ≠ 0 := by decide
    have hfinal := hadm.packetFinalize_eq hcount (.ok 0) (.ok 0)
    rw [(KernMeta.finalizeErr_eq_success _).mpr stored_finalizable] at hfinal
    have hdata := (finalized_data_of_exec oneBuflet_inObjects hfits hlength).2 _ _ _ hadm
      (by decide) rfl hfinal 0 (by decide)
    exact ⟨_, hlength, hfinal, hdata.resolve_right (by decide +kernel)⟩
  · have hiff := (finalized_data_of_exec oneBuflet_inObjects hfits haddress).1 0x1000
      (by decide +kernel)
    exact hiff.mpr ⟨by decide +kernel, .inr (by decide +kernel)⟩

end Outcome

end MacKernel.Packet
