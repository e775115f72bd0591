import MacKernel.Models.FlowSwitch.MemcmpMask
import MacKernel.Models.FlowSwitch.Native

/-!
# Comparing and hashing flow keys

The field by field comparison accepts exactly when every field that the match selects
is selected and equal in the key. From this it agrees with the masked comparison and
with the hash. Bits of `fk_mask` that name no field are looked at by none of them.
-/

namespace MacKernel.FlowSwitch

variable {m k mask : FlowKey} {f : FkField}

/-- The key has the field in its mask. -/
def Selects (k : FlowKey) (f : FkField) : Prop := fkMask.get k &&& f.bit ≠ 0

/-- The mask of the key contains that of the match. -/
def Contains (k m : FlowKey) : Prop := fkMask.get m &&& fkMask.get k = fkMask.get m

/-- The bits of `fk_mask` that name a field. -/
def fkmaskDefined : BitVec 16 := 0x3f

/-- The key whose bytes are `0xff` on the fields that the match selects and 0 elsewhere. -/
def IsFieldMask (m mask : FlowKey) : Prop :=
  ∀ i < 48,
    ((∃ f, Selects m f ∧ f.field.off ≤ 8 * i ∧ 8 * i < f.field.off + f.len) →
      byteAt mask i = 0xff) ∧
    ((¬∃ f, Selects m f ∧ f.field.off ≤ 8 * i ∧ 8 * i < f.field.off + f.len) → byteAt mask i = 0)

/-- Fields are made of whole bytes. -/
theorem eight_dvd_len (f : FkField) : 8 ∣ f.len := by
  cases f <;> decide

private theorem eight_dvd_off (f : FkField) : 8 ∣ f.field.off := by
  cases f <;> decide

private theorem fkCmp_eq_zero (rest : Int) : fkCmp f m k rest = 0 ↔
    (Selects m f → Selects k f ∧ f.field.get m = f.field.get k) ∧ rest = 0 := by
  have hbytes : memcmp (bytesOf (f.field.get m)) (bytesOf (f.field.get k)) = 0 ↔
      f.field.get m = f.field.get k := by
    rw [memcmp_eq_zero (by simp only [length_bytesOf]), bytesOf_inj (eight_dvd_len f)]
  unfold fkCmp
  by_cases hm : fkMask.get m &&& f.bit ≠ 0
  · rw [if_pos hm]
    by_cases hk : fkMask.get k &&& f.bit = 0
    · rw [if_pos hk]
      exact iff_of_false (by decide) fun h => (h.1 hm).1 hk
    · rw [if_neg hk]
      by_cases hd : memcmp (bytesOf (f.field.get m)) (bytesOf (f.field.get k)) = 0
      · rw [if_neg (not_not.mpr hd)]
        exact ⟨fun h => ⟨fun _ => ⟨hk, hbytes.mp hd⟩, h⟩, And.right⟩
      · rw [if_pos hd]
        exact iff_of_false hd fun h => hd (hbytes.mpr (h.1 hm).2)
  · rw [if_neg hm]
    exact ⟨fun h => ⟨fun hs => absurd hs hm, h⟩, And.right⟩

/-- The comparison accepts exactly what the match selects. -/
theorem flowKeyCmp_eq_zero : flowKeyCmp m k = 0 ↔
    ∀ f, Selects m f → Selects k f ∧ f.field.get m = f.field.get k := by
  simp only [flowKeyCmp, fkCmp_eq_zero, and_true]
  constructor
  · rintro ⟨hipver, hproto, hsrc, hdst, hsport, hdport⟩ f
    cases f with
    | ipver => exact hipver
    | proto => exact hproto
    | src => exact hsrc
    | dst => exact hdst
    | sport => exact hsport
    | dport => exact hdport
  · intro h
    exact ⟨h .ipver, h .proto, h .src, h .dst, h .sport, h .dport⟩

/-- A field is hashed alike in keys that select it alike, with the same value. -/
theorem fkHash_congr {netFlowhash : List UInt8 → UInt32 → UInt32}
    (hmask : fkMask.get m = fkMask.get k)
    (h : Selects m f → Selects k f ∧ f.field.get m = f.field.get k) (hash : UInt32) :
    fkHash netFlowhash f m hash = fkHash netFlowhash f k hash := by
  unfold fkHash
  rw [← hmask]
  by_cases hm : fkMask.get m &&& f.bit ≠ 0
  · rw [if_pos hm, if_pos hm, (h hm).2]
  · rw [if_neg hm, if_neg hm]

/-- Keys with the same mask that match have the same hash. -/
theorem flowKeyHash_congr (netFlowhash : List UInt8 → UInt32 → UInt32)
    (hmask : fkMask.get m = fkMask.get k) (h : flowKeyCmp m k = 0) :
    flowKeyHash netFlowhash m = flowKeyHash netFlowhash k := by
  have hfields := flowKeyCmp_eq_zero.mp h
  simp only [flowKeyHash, fkHash_congr hmask (hfields _)]

/-- A mask that contains another selects all that it selects. -/
theorem Contains.selects (h : Contains k m) (hm : Selects m f) : Selects k f := by
  intro hk
  refine hm ?_
  rw [← h, BitVec.and_assoc, hk]
  exact BitVec.and_zero

/-- The bytes under a mask of whole fields agree exactly when these fields do. -/
theorem masked_eq_iff (hmask : IsFieldMask m mask) :
    (∀ i < 48, byteAt m i &&& byteAt mask i = byteAt k i &&& byteAt mask i) ↔
      ∀ f, Selects m f → f.field.get m = f.field.get k := by
  constructor
  · intro h f hf
    rw [f.field.get_eq_iff_byteAt (eight_dvd_off f) (eight_dvd_len f)]
    intro i hlo hhi
    have hi : i < 48 := by
      have hfits := f.field.fits
      omega
    have hbyte := h i hi
    have hones : ∀ b : UInt8, b &&& 0xff = b := fun _ => UInt8.and_neg_one
    rwa [(hmask i hi).1 ⟨f, hf, hlo, hhi⟩, hones, hones] at hbyte
  · intro h i hi
    by_cases hin : ∃ f, Selects m f ∧ f.field.off ≤ 8 * i ∧ 8 * i < f.field.off + f.len
    · obtain ⟨f, hf, hlo, hhi⟩ := hin
      rw [(f.field.get_eq_iff_byteAt (eight_dvd_off f) (eight_dvd_len f)).mp (h f hf) i hlo hhi]
    · rw [(hmask i hi).2 hin, UInt8.and_zero, UInt8.and_zero]

/-- The number of the mask bit of a field. -/
def FkField.index : FkField → Nat
  | .ipver => 0
  | .proto => 1
  | .src => 2
  | .sport => 3
  | .dst => 4
  | .dport => 5

private theorem exists_index {i : Nat} (h : i < 6) : ∃ f : FkField, f.index = i := by
  match i, h with
  | 0, _ => exact ⟨.ipver, rfl⟩
  | 1, _ => exact ⟨.proto, rfl⟩
  | 2, _ => exact ⟨.src, rfl⟩
  | 3, _ => exact ⟨.sport, rfl⟩
  | 4, _ => exact ⟨.dst, rfl⟩
  | 5, _ => exact ⟨.dport, rfl⟩

private theorem selects_iff : Selects k f ↔ (fkMask.get k).getLsbD f.index = true := by
  have hbit : f.bit = BitVec.twoPow 16 f.index := by cases f <;> decide
  have hne : BitVec.twoPow 16 f.index ≠ 0 := by cases f <;> decide
  rw [Selects, hbit, BitVec.and_twoPow]
  split
  · next h => exact iff_of_true hne h
  · next h => exact iff_of_false (not_not.mpr rfl) h

/-- The field by field comparison says that the defined bits of the mask are contained. -/
theorem contains_defined (h : flowKeyCmp m k = 0) :
    fkMask.get m &&& fkmaskDefined &&& fkMask.get k = fkMask.get m &&& fkmaskDefined := by
  have hfields := flowKeyCmp_eq_zero.mp h
  apply BitVec.eq_of_getLsbD_eq
  intro i hi
  simp only [BitVec.getLsbD_and]
  by_cases hdefined : i < 6
  · obtain ⟨f, hf⟩ := exists_index hdefined
    cases hbit : (fkMask.get m).getLsbD i
    · simp
    · rw [← hf, ← selects_iff] at hbit
      rw [← hf, selects_iff.mp (hfields f hbit).1, Bool.and_true]
  · have hout : fkmaskDefined.getLsbD i = false := by
      obtain ⟨j, rfl⟩ := Nat.exists_eq_add_of_le (Nat.le_of_not_lt hdefined)
      exact Nat.testBit_lt_two_pow ((show fkmaskDefined.toNat < 2 ^ 6 by decide).trans_le
        (Nat.pow_le_pow_right (by decide) (Nat.le_add_right 6 j)))
    rw [hout, Bool.and_false, Bool.false_and]

section Agreement

/-- What `sk_memcmp_mask_48B` is for: zero exactly when the bytes agree under the mask. -/
def ComparesMasked (skMemcmpMask48B : FlowKey → FlowKey → FlowKey → Int) : Prop :=
  ∀ a b mask, skMemcmpMask48B a b mask = 0 ↔
    ∀ i < 48, byteAt a i &&& byteAt mask i = byteAt b i &&& byteAt mask i

/-- The bytes of two flow keys and of a mask. -/
def keyOperands (a b mask : FlowKey) : Operands 48 where
  src1 j := (byteAt a j).toBitVec
  src2 j := (byteAt b j).toBitVec
  byteMask j := (byteAt mask j).toBitVec

/-- The scalar comparison of 48 bytes does for flow keys what their masked comparison is
for. -/
theorem comparesMasked_of_scalar {cmp : FlowKey → FlowKey → FlowKey → Int}
    (hcmp : ∀ a b mask, ∃ result, skMemcmpMask48BScalar (keyOperands a b mask) = .ok result ∧
      cmp a b mask = result.toInt) : ComparesMasked cmp := by
  intro a b mask
  obtain ⟨result, hresult, hint⟩ := hcmp a b mask
  obtain ⟨result', hresult', hzero⟩ := skMemcmpMaskScalar_spec (keyOperands a b mask)
    (show (48 : BitVec 64).toNat = 48 from rfl)
  obtain rfl : result = result' := Except.ok.inj (hresult.symm.trans hresult')
  have htoInt : result.toInt = 0 ↔ result = 0 := by
    rw [← BitVec.toInt_inj]
    rfl
  rw [hint, htoInt, hzero]
  constructor
  · intro h i hi
    exact UInt8.toBitVec_inj.mp (h ⟨i, hi⟩)
  · intro h j
    exact congrArg UInt8.toBitVec (h j j.isLt)

/-- Comparison, masked comparison and hash agree, and a key that is accepted has the defined
bits of the mask it is matched with. -/
theorem flowKey_agreement (netFlowhash : List UInt8 → UInt32 → UInt32)
    {skMemcmpMask48B : FlowKey → FlowKey → FlowKey → Int}
    (hcompares : ComparesMasked skMemcmpMask48B) (m k : FlowKey) :
    (fkMask.get m = fkMask.get k → flowKeyCmp m k = 0 →
      flowKeyHash netFlowhash m = flowKeyHash netFlowhash k) ∧
    (Contains k m → ∀ mask, IsFieldMask m mask →
      (flowKeyCmp m k = 0 ↔ flowKeyCmpMask skMemcmpMask48B m k mask = 0)) ∧
    (flowKeyCmp m k = 0 →
      fkMask.get m &&& fkmaskDefined &&& fkMask.get k = fkMask.get m &&& fkmaskDefined) := by
  refine ⟨flowKeyHash_congr netFlowhash, ?_, contains_defined⟩
  intro hcontains mask hmask
  rw [flowKeyCmpMask, hcompares, masked_eq_iff hmask, flowKeyCmp_eq_zero]
  constructor
  · intro h f hf
    exact (h f hf).2
  · intro h f hf
    exact ⟨hcontains.selects hf, h f hf⟩

/-- `sk_memcmp_mask_48B` where there is no vector code. -/
def scalarMask48B (a b mask : FlowKey) : Int :=
  ((skMemcmpMask48BScalar (keyOperands a b mask)).toOption.getD 0).toInt

theorem scalarMask48B_compares : ComparesMasked scalarMask48B := by
  refine comparesMasked_of_scalar fun a b mask => ?_
  obtain ⟨result, hresult, -⟩ := skMemcmpMaskScalar_spec (keyOperands a b mask)
    (show (48 : BitVec 64).toNat = 48 from rfl)
  refine ⟨result, hresult, ?_⟩
  have hrun : skMemcmpMask48BScalar (keyOperands a b mask) = .ok result := hresult
  rw [scalarMask48B, hrun]
  rfl

section Match

instance (k : FlowKey) (f : FkField) : Decidable (Selects k f) :=
  inferInstanceAs (Decidable (_ ≠ _))

/-- A byte of a field that the match selects. -/
def SelectsByte (m : FlowKey) (i : Nat) : Prop :=
  ∃ f ∈ [FkField.ipver, .proto, .src, .dst, .sport, .dport],
    Selects m f ∧ f.field.off ≤ 8 * i ∧ 8 * i < f.field.off + f.len

instance (m : FlowKey) (i : Nat) : Decidable (SelectsByte m i) :=
  inferInstanceAs (Decidable (∃ f ∈ _, _))

private theorem isFieldMask_of_selectsByte
    (h : ∀ i < 48, byteAt mask i = if SelectsByte m i then 0xff else 0) : IsFieldMask m mask := by
  intro i hi
  have hiff : (∃ f, Selects m f ∧ f.field.off ≤ 8 * i ∧ 8 * i < f.field.off + f.len) ↔
      SelectsByte m i := by
    constructor
    · rintro ⟨f, hf⟩
      exact ⟨f, by cases f <;> decide, hf⟩
    · rintro ⟨f, -, hf⟩
      exact ⟨f, hf⟩
  rw [hiff, h i hi]
  exact ⟨fun hin => if_pos hin, fun hout => if_neg hout⟩

/-- A match on TCP at port 80. -/
def tcpMatch : FlowKey := fkMask.set fkmask2tuple (fkProto.set 6 (fkSport.set 0x5000 0))

/-- A key with the mask of the match, and one with a larger mask; both also have an address. -/
def tcpKey (mask : BitVec 16) : FlowKey := fkMask.set mask (fkIpver.set ipversion (fkProto.set 6
  (fkSport.set 0x5000 (fkSrc4.set 0x0100000a 0))))

/-- A hash of bytes. -/
def foldHash (bytes : List UInt8) (hash : UInt32) : UInt32 :=
  bytes.foldl (fun hash byte => 31 * hash + byte.toUInt32) hash

/-- A key that is hashed like the match, and one that is accepted under the mask of the match. -/
theorem flowKey_agreement_tcp :
    flowKeyHash foldHash tcpMatch = flowKeyHash foldHash (tcpKey fkmask2tuple) ∧
      flowKeyCmpMask scalarMask48B tcpMatch (tcpKey fkmask3tuple)
        (fkProto.set 0xff (fkSport.set 0xffff 0)) = 0 ∧
      fkMask.get tcpMatch &&& fkmaskDefined &&& fkMask.get (tcpKey fkmask3tuple) =
        fkMask.get tcpMatch &&& fkmaskDefined := by
  have hcmp : flowKeyCmp tcpMatch (tcpKey fkmask3tuple) = 0 := by decide +kernel
  have hcontains : Contains (tcpKey fkmask3tuple) tcpMatch := by
    unfold Contains
    decide +kernel
  have hmask : IsFieldMask tcpMatch (fkProto.set 0xff (fkSport.set 0xffff 0)) :=
    isFieldMask_of_selectsByte (by decide +kernel)
  have hhash := (flowKey_agreement foldHash scalarMask48B_compares tcpMatch
    (tcpKey fkmask2tuple)).1 (by decide +kernel) (by decide +kernel)
  obtain ⟨-, hmasked, hdefined⟩ := flowKey_agreement foldHash scalarMask48B_compares tcpMatch
    (tcpKey fkmask3tuple)
  exact ⟨hhash, (hmasked hcontains _ hmask).mp hcmp, hdefined hcmp⟩

end Match

/-- A mask bit that names no field is not looked for in the key. -/
theorem undefined_bit_not_contained :
    flowKeyCmp (fkMask.set 0x40 0) 0 = 0 ∧ ¬Contains 0 (fkMask.set 0x40 0) := by
  constructor
  · decide +kernel
  · intro h
    rw [Contains, Field.get_set_self] at h
    exact absurd h (by decide +kernel)

end Agreement

end MacKernel.FlowSwitch
