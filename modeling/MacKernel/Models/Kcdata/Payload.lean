import MacKernel.Models.Kcdata.Arrays

/-!
# Kcdata payload accessors

The accessors that look into the payload of an item: strings, container types and
data behind a description. What they read is bounded by `kcdata_iter_size`, which is
never more than the size field. The test for described data adds its minimum to the
length of a description in 32 bits, and that sum can wrap.
-/

namespace MacKernel.Kcdata

open Memory

variable {w : Nat} {m : Memory w} {byte : BitVec w → UInt8} {iter : KcdataIter w}

/-- `KCDATA_DESC_MAXLEN`. -/
def kcdataDescMaxlen : UInt32 := 32

/-- `kcdata_iter_container_valid`. -/
def kcdataIterContainerValid (m : Memory w) (iter : KcdataIter w) : Except Fault Bool := do
  if ¬(← kcdataIterValid m iter) then return false
  else if (← kcdataIterType m iter) ≠ kcdataTypeContainerBegin then return false
  else return 4 ≤ (← iter.size m)

/-- `kcdata_iter_container_type`. -/
def kcdataIterContainerType (m : Memory w) (iter : KcdataIter w) : Except Fault UInt32 :=
  m.readU32 (kcdataIterPayload iter)

/-- `kcdata_iter_string`; the null result is `none`. -/
def kcdataIterString (m : Memory w) (iter : KcdataIter w) (offset : UInt32) :
    Except Fault (Option (BitVec w)) := do
  if offset > (← kcdataIterSize m iter) then return none
  else
    let maxlen := (← kcdataIterSize m iter) - offset
    let s := kcdataIterPayload iter + BitVec.ofNat w offset.toNat
    if (← m.strnlen s maxlen.toNat) < maxlen.toNat then return some s else return none

/-- `kcdata_iter_data_with_desc_valid`: the sum is taken in `uint32_t`. -/
def kcdataIterDataWithDescValid (m : Memory w) (iter : KcdataIter w) (minsize : UInt32) :
    Except Fault Bool := do
  if ¬(← kcdataIterValid m iter) then return false
  else if (← kcdataIterSize m iter) < kcdataDescMaxlen + minsize then return false
  else
    return (← m.readByte (kcdataIterPayload iter +
      BitVec.ofNat w (kcdataDescMaxlen - 1).toNat)) = 0

/-- What `kcdata_iter_get_data_with_desc` stores; nothing goes through a null argument. -/
structure DataWithDesc (w : Nat) where
  desc : Option (BitVec w)
  data : Option (BitVec w)
  size : Option UInt32
  deriving DecidableEq, Repr

/-- `kcdata_iter_get_data_with_desc`, told which of its three arguments are not null. -/
def kcdataIterGetDataWithDesc (m : Memory w) (iter : KcdataIter w)
    (descPtr dataPtr sizePtr : Bool) : Except Fault (DataWithDesc w) := do
  let desc := if descPtr then some (kcdataIterPayload iter) else none
  let data :=
    if dataPtr then some (kcdataIterPayload iter + BitVec.ofNat w kcdataDescMaxlen.toNat)
    else none
  if sizePtr then
    return ⟨desc, data, some ((← kcdataIterSize m iter) - kcdataDescMaxlen)⟩
  else return ⟨desc, data, none⟩

section Header

/-- The header fields are decided by the sixteen bytes of the header. -/
theorem size_congr (h : m.Agrees byte iter.item kcdataItemSize) :
    iter.size m = iter.size (.flat byte) :=
  (h.drop (k := 4) (l := 4) (by decide)).readU32

private theorem rawType_congr (h : m.Agrees byte iter.item kcdataItemSize) :
    iter.rawType m = iter.rawType (.flat byte) := by
  have htype := (h.drop (k := 0) (l := 4) (by decide)).readU32
  rwa [BitVec.add_zero] at htype

private theorem flags_congr (h : m.Agrees byte iter.item kcdataItemSize) :
    iter.flags m = iter.flags (.flat byte) :=
  (h.drop (k := 8) (l := 8) (by decide)).readU64

private theorem kcdataIterSize_congr (h : m.Agrees byte iter.item kcdataItemSize) :
    kcdataIterSize m iter = kcdataIterSize (.flat byte) iter := by
  simp only [kcdataIterSize, kcdataIterType, kcdataIterLegacySize, kcdataIterIsLegacyItem,
    kcdataIterPaddedSize, size_congr h, rawType_congr h, flags_congr h]

private theorem readU64_flat (byte : BitVec w → UInt8) (a : BitVec w) :
    ∃ v, (Memory.flat byte).readU64 a = .ok v := by
  obtain ⟨v, hv⟩ := Memory.readLE_ok (m := .flat byte) (n := 8) (a := a) fun _ _ => rfl
  refine ⟨UInt64.ofNat v, ?_⟩
  simp only [Memory.readU64, hv]
  rfl

end Header

section PayloadSize

private theorem kcdataIterPaddedSize_le {sz : UInt32} (hsize : iter.size (.flat byte) = .ok sz) :
    ∃ n, kcdataIterPaddedSize (.flat byte) iter = .ok n ∧ n ≤ sz := by
  obtain ⟨flags, hflags⟩ := readU64_flat byte (iter.item + 8)
  have hflags : iter.flags (.flat byte) = .ok flags := hflags
  refine ⟨_, by simp only [kcdataIterPaddedSize, hsize, hflags, ok_bind]; rfl, ?_⟩
  split
  · exact UInt32.zero_le
  next hge =>
    rw [UInt32.le_iff_toNat_le, UInt32.toNat_sub_of_le _ _ (UInt32.not_lt.mp hge)]
    exact Nat.sub_le _ _

/-- A size that predates recorded padding is below the padded size it is recognised by. -/
theorem kcdataIterLegacySize_le {sz legacySize : UInt32}
    (hsize : iter.size (.flat byte) = .ok sz)
    (hlegacy : legacySize ≤ legacySize + kcdataCalcPadding legacySize) :
    ∃ n, kcdataIterLegacySize (.flat byte) iter legacySize = .ok n ∧ n ≤ sz := by
  obtain ⟨flags, hflags⟩ := readU64_flat byte (iter.item + 8)
  have hflags : iter.flags (.flat byte) = .ok flags := hflags
  simp only [kcdataIterLegacySize, kcdataIterIsLegacyItem, hsize, hflags, ok_bind]
  split
  · next hpadded =>
    by_cases hbits : flags &&& (kcdataFlagsStructPaddingMask ||| kcdataFlagsStructHasPadding) = 0
    · refine ⟨legacySize, ?_, hpadded ▸ hlegacy⟩
      rw [decide_eq_true hbits]
      rfl
    · simpa [hbits] using kcdataIterPaddedSize_le hsize
  · simpa using kcdataIterPaddedSize_le hsize

/-- `kcdata_iter_size` answers on any bytes, with at most the size field. -/
theorem kcdataIterSize_le (byte : BitVec w → UInt8) (iter : KcdataIter w) :
    ∃ n sz, kcdataIterSize (.flat byte) iter = .ok n ∧ iter.size (.flat byte) = .ok sz ∧
      n ≤ sz := by
  obtain ⟨sz, hsize⟩ := readU32_flat byte (iter.item + 4)
  have hsize : iter.size (.flat byte) = .ok sz := hsize
  obtain ⟨raw, hraw⟩ := readU32_flat byte iter.item
  have hraw : iter.rawType (.flat byte) = .ok raw := hraw
  obtain ⟨type, htype⟩ : ∃ type, kcdataIterType (.flat byte) iter = .ok type := by
    simp only [kcdataIterType, hraw, ok_bind]
    split <;> exact ⟨_, rfl⟩
  suffices h : ∃ n, kcdataIterSize (.flat byte) iter = .ok n ∧ n ≤ sz by
    obtain ⟨n, hn, hle⟩ := h
    exact ⟨n, sz, hn, hsize, hle⟩
  simp only [kcdataIterSize, htype, ok_bind]
  split
  · exact ⟨sz, hsize, UInt32.le_refl sz⟩
  split
  · exact kcdataIterLegacySize_le hsize (by decide)
  split
  · exact kcdataIterLegacySize_le hsize (by decide)
  · exact kcdataIterPaddedSize_le hsize

end PayloadSize

section Strings

/-- The string accessor looks at the header and at the payload from the offset on. -/
theorem kcdataIterString_congr {n offset : UInt32} (hn : kcdataIterSize (.flat byte) iter = .ok n)
    (hheader : m.Agrees byte iter.item kcdataItemSize)
    (hpayload : m.Agrees byte (kcdataIterPayload iter + BitVec.ofNat w offset.toNat)
      (n.toNat - offset.toNat)) :
    kcdataIterString m iter offset = kcdataIterString (.flat byte) iter offset := by
  simp only [kcdataIterString, kcdataIterSize_congr hheader, hn, ok_bind]
  by_cases hout : offset > n
  · rw [if_pos hout, if_pos hout]
  · have hmax : (n - offset).toNat = n.toNat - offset.toNat :=
      UInt32.toNat_sub_of_le _ _ (UInt32.not_lt.mp hout)
    rw [if_neg hout, if_neg hout, hmax, hpayload.strnlen]

/-- The string accessor returns a pointer exactly when there is a NUL in front of the end
of the payload, and looks at no byte behind that end. -/
theorem kcdataIterString_spec {n : UInt32} (hn : kcdataIterSize (.flat byte) iter = .ok n)
    (offset : UInt32) :
    ∃ r, kcdataIterString (.flat byte) iter offset = .ok r ∧
      (r.isSome ↔ ∃ i, offset.toNat ≤ i ∧ i < n.toNat ∧
        byte (kcdataIterPayload iter + BitVec.ofNat w i) = 0) ∧
      (∀ s, r = some s → s = kcdataIterPayload iter + BitVec.ofNat w offset.toNat) ∧
      ∀ m : Memory w, m.Agrees byte iter.item kcdataItemSize →
        m.Agrees byte (kcdataIterPayload iter + BitVec.ofNat w offset.toNat)
          (n.toNat - offset.toNat) →
        kcdataIterString m iter offset = .ok r := by
  suffices h : ∃ r, kcdataIterString (.flat byte) iter offset = .ok r ∧
      (r.isSome ↔ ∃ i, offset.toNat ≤ i ∧ i < n.toNat ∧
        byte (kcdataIterPayload iter + BitVec.ofNat w i) = 0) ∧
      ∀ s, r = some s → s = kcdataIterPayload iter + BitVec.ofNat w offset.toNat by
    obtain ⟨r, hr, hfound, haddr⟩ := h
    exact ⟨r, hr, hfound, haddr, fun m hheader hpayload =>
      (kcdataIterString_congr hn hheader hpayload).trans hr⟩
  by_cases hout : offset > n
  · have hlt := UInt32.lt_iff_toNat_lt.mp hout
    refine ⟨none, ?_, ?_, ?_⟩
    · simp only [kcdataIterString, hn, ok_bind, if_pos hout]
      rfl
    · simp only [Option.isSome_none, Bool.false_eq_true, false_iff]
      rintro ⟨i, hlo, hhi, -⟩
      omega
    · intro s hs
      cases hs
  · have hmax : (n - offset).toNat = n.toNat - offset.toNat :=
      UInt32.toNat_sub_of_le _ _ (UInt32.not_lt.mp hout)
    obtain ⟨k, hk, hterminated⟩ := strnlen_lt_iff byte
      (kcdataIterPayload iter + BitVec.ofNat w offset.toNat) (n.toNat - offset.toNat)
    refine ⟨if k < n.toNat - offset.toNat then
      some (kcdataIterPayload iter + BitVec.ofNat w offset.toNat) else none, ?_, ?_, ?_⟩
    · simp only [kcdataIterString, hn, ok_bind, if_neg hout, hmax, hk]
      split <;> rfl
    · have haddr : ∀ i, kcdataIterPayload iter + BitVec.ofNat w offset.toNat + BitVec.ofNat w i =
          kcdataIterPayload iter + BitVec.ofNat w (offset.toNat + i) := by
        intro i
        rw [BitVec.add_assoc, ← BitVec.ofNat_add]
      rw [Option.isSome_ite, hterminated]
      constructor
      · rintro ⟨i, hi, hzero⟩
        exact ⟨offset.toNat + i, by omega, by omega, haddr i ▸ hzero⟩
      · rintro ⟨i, hlo, hhi, hzero⟩
        refine ⟨i - offset.toNat, by omega, ?_⟩
        rw [haddr, Nat.add_sub_cancel' hlo]
        exact hzero
    · intro s hs
      split at hs
      · exact (Option.some.inj hs).symm
      · cases hs

end Strings

section Accepted

/-- The end of the payload, as the validity test computes it. -/
theorem payload_end_le {sz : UInt32} (hsize : iter.size m = .ok sz)
    (h : kcdataIterValid m iter = .ok true) :
    kcdataIterPayload iter + BitVec.ofNat w sz.toNat ≤ iter.stop := by
  rw [kcdataIterValid] at h
  split at h
  · simp only [hsize, ok_bind] at h
    exact of_decide_eq_true (Except.ok.inj h)
  · cases h

/-- An accepted container has the room for its type in the payload. -/
theorem kcdataIterContainerValid_inv {n : UInt32} (hn : kcdataIterSize m iter = .ok n)
    (h : kcdataIterContainerValid m iter = .ok true) : 4 ≤ n := by
  obtain ⟨valid, -, h⟩ := bind_eq_ok.mp h
  cases valid with
  | false => cases h
  | true =>
    obtain ⟨type, htype, h⟩ := bind_eq_ok.mp h
    split at h
    · cases h
    next hcontainer =>
      have hcontainer : type = kcdataTypeContainerBegin := not_not.mp hcontainer
      obtain ⟨sz, hsize, h⟩ := bind_eq_ok.mp h
      have hfits : 4 ≤ sz := of_decide_eq_true (Except.ok.inj h)
      have hwhole : kcdataIterSize m iter = .ok sz := by
        simp only [kcdataIterSize, htype, ok_bind, if_pos (Or.inr hcontainer), hsize]
      obtain rfl : n = sz := Except.ok.inj (hn.symm.trans hwhole)
      exact hfits

/-- On an accepted item the payload ends inside the buffer, strings are found exactly when
their terminator is in the payload, and no accessor looks at a byte outside header and
payload. -/
theorem payload_accessors_bounded (byte : BitVec w → UInt8) (iter : KcdataIter w)
    (hvalid : kcdataIterValid (.flat byte) iter = .ok true) :
    ∃ n sz : UInt32, kcdataIterSize (.flat byte) iter = .ok n ∧
      iter.size (.flat byte) = .ok sz ∧ n ≤ sz ∧
      kcdataIterPayload iter + BitVec.ofNat w sz.toNat ≤ iter.stop ∧
      (∀ offset : UInt32, ∃ r, kcdataIterString (.flat byte) iter offset = .ok r ∧
        (r ≠ none ↔ ∃ i, offset.toNat ≤ i ∧ i < n.toNat ∧
          byte (kcdataIterPayload iter + BitVec.ofNat w i) = 0) ∧
        (∀ s, r = some s → s = kcdataIterPayload iter + BitVec.ofNat w offset.toNat ∧
          ∃ len, offset.toNat + len < n.toNat ∧ byte (s + BitVec.ofNat w len) = 0) ∧
        ∀ m : Memory w, m.Agrees byte iter.item kcdataItemSize →
          m.Agrees byte (kcdataIterPayload iter + BitVec.ofNat w offset.toNat)
            (n.toNat - offset.toNat) →
          kcdataIterString m iter offset = .ok r) ∧
      (kcdataIterContainerValid (.flat byte) iter = .ok true → 4 ≤ n ∧
        ∃ type, kcdataIterContainerType (.flat byte) iter = .ok type ∧
          ∀ m : Memory w, m.Agrees byte (kcdataIterPayload iter) 4 →
            kcdataIterContainerType m iter = .ok type) := by
  obtain ⟨n, sz, hn, hsize, hle⟩ := kcdataIterSize_le byte iter
  refine ⟨n, sz, hn, hsize, hle, payload_end_le hsize hvalid, ?_, ?_⟩
  · intro offset
    obtain ⟨r, hr, hfound, haddr, hlocal⟩ := kcdataIterString_spec hn offset
    refine ⟨r, hr, by rw [← hfound, Option.isSome_iff_ne_none], ?_, hlocal⟩
    intro s hs
    have hsome : r.isSome := by rw [hs]; rfl
    obtain ⟨i, hlo, hhi, hzero⟩ := hfound.mp hsome
    refine ⟨haddr s hs, i - offset.toNat, by omega, ?_⟩
    rw [haddr s hs, BitVec.add_assoc, ← BitVec.ofNat_add, Nat.add_sub_cancel' hlo]
    exact hzero
  · intro hcontainer
    obtain ⟨type, htype⟩ := readU32_flat byte (kcdataIterPayload iter)
    refine ⟨kcdataIterContainerValid_inv hn hcontainer, type, htype, ?_⟩
    intro m hagrees
    exact hagrees.readU32.trans htype

/-- A string item of four payload bytes at `0x1000`, the last of them its terminator. -/
def threeLetters (a : BitVec 64) : UInt8 :=
  if a = 0x1000#64 then 1 else if a = 0x1004#64 then 4
  else if 0x1010#64 ≤ a ∧ a ≤ 0x1012#64 then 0x61 else 0

theorem payload_accessors_bounded_threeLetters :
    ∃ n sz : UInt32, kcdataIterSize (.flat threeLetters) (kcdataIter 0x1000#64 20#64) = .ok n ∧
      KcdataIter.size (.flat threeLetters) (kcdataIter 0x1000#64 20#64) = .ok sz ∧ n ≤ sz := by
  obtain ⟨n, sz, hn, hsize, hle, -⟩ :=
    payload_accessors_bounded threeLetters (kcdataIter 0x1000#64 20#64) rfl
  exact ⟨n, sz, hn, hsize, hle⟩

end Accepted

section DescribedData

/-- What an accepted item with a description promises: a terminated description and the
data behind it, both in the payload, with at least the data that was asked for. -/
def DescribedDataSound (byte : BitVec w → UInt8) (iter : KcdataIter w) (minsize : UInt32) : Prop :=
  kcdataIterDataWithDescValid (.flat byte) iter minsize = .ok true →
    ∃ n size : UInt32, kcdataIterSize (.flat byte) iter = .ok n ∧
      32 ≤ n.toNat ∧ (∃ i < 32, byte (kcdataIterPayload iter + BitVec.ofNat w i) = 0) ∧
      kcdataIterGetDataWithDesc (.flat byte) iter true true true =
        .ok ⟨some (kcdataIterPayload iter),
          some (kcdataIterPayload iter + BitVec.ofNat w 32), some size⟩ ∧
      32 + size.toNat ≤ n.toNat ∧ minsize ≤ size

/-- What the test compares once the payload size is known. -/
theorem kcdataIterDataWithDescValid_iff {n : UInt32}
    (hn : kcdataIterSize (.flat byte) iter = .ok n) (minsize : UInt32) :
    kcdataIterDataWithDescValid (.flat byte) iter minsize = .ok true ↔
      kcdataIterValid (.flat byte) iter = .ok true ∧ kcdataDescMaxlen + minsize ≤ n ∧
        byte (kcdataIterPayload iter + BitVec.ofNat w 31) = 0 := by
  have hlast : (Memory.flat byte).readByte (kcdataIterPayload iter +
      BitVec.ofNat w (kcdataDescMaxlen - 1).toNat) =
      .ok (byte (kcdataIterPayload iter + BitVec.ofNat w 31)).toNat := rfl
  obtain ⟨sz, hsize⟩ := readU32_flat byte (iter.item + 4)
  have hsize : iter.size (.flat byte) = .ok sz := hsize
  obtain ⟨valid, hvalid⟩ : ∃ valid, kcdataIterValid (.flat byte) iter = .ok valid :=
    ⟨_, kcdataIterValid_eq hsize⟩
  simp only [kcdataIterDataWithDescValid, hvalid, hn, hlast, ok_bind]
  cases valid with
  | false => simp [pure, Except.pure]
  | true =>
    by_cases hshort : n < kcdataDescMaxlen + minsize
    · simp [hshort, UInt32.not_le.mpr hshort, pure, Except.pure]
    · simp [hshort, UInt32.not_lt.mp hshort, ← UInt8.toNat_inj, pure, Except.pure]

/-- The data and size that are reported. -/
theorem kcdataIterGetDataWithDesc_eq {n : UInt32}
    (hn : kcdataIterSize (.flat byte) iter = .ok n) :
    kcdataIterGetDataWithDesc (.flat byte) iter true true true =
      .ok ⟨some (kcdataIterPayload iter), some (kcdataIterPayload iter + BitVec.ofNat w 32),
        some (n - 32)⟩ := by
  simp only [kcdataIterGetDataWithDesc, hn, ok_bind, if_true]
  rfl

/-- The sum of the test when it does not leave 32 bits. -/
private theorem toNat_descMaxlen_add {minsize : UInt32} (h : minsize.toNat + 32 < 2 ^ 32) :
    (kcdataDescMaxlen + minsize).toNat = 32 + minsize.toNat := by
  rw [UInt32.toNat_add, Nat.mod_eq_of_lt]
  · rfl
  · change 32 + minsize.toNat < _
    omega

/-- The sum of the test when it wraps. -/
private theorem toNat_descMaxlen_add_wrap {minsize : UInt32} (h : 2 ^ 32 ≤ minsize.toNat + 32) :
    (kcdataDescMaxlen + minsize).toNat = minsize.toNat + 32 - 2 ^ 32 := by
  have hlt := minsize.toNat_lt
  have hlen : kcdataDescMaxlen.toNat = 32 := rfl
  rw [UInt32.toNat_add, hlen]
  omega

/-- Described data is as promised exactly when the sum of the test does not wrap or one of
its three parts rejects the item anyway. -/
theorem describedDataSound_iff (byte : BitVec w → UInt8) (iter : KcdataIter w)
    (minsize : UInt32) :
    DescribedDataSound byte iter minsize ↔
      minsize.toNat + 32 < 2 ^ 32 ∨ kcdataIterValid (.flat byte) iter ≠ .ok true ∨
      (∃ n, kcdataIterSize (.flat byte) iter = .ok n ∧ n.toNat + 2 ^ 32 < minsize.toNat + 32) ∨
      byte (kcdataIterPayload iter + BitVec.ofNat w 31) ≠ 0 := by
  obtain ⟨n, -, hn, -⟩ := kcdataIterSize_le byte iter
  constructor
  · intro hsound
    by_contra hnot
    simp only [not_or, not_lt, not_exists, not_and, ne_eq, not_not] at hnot
    obtain ⟨hwrap, hvalid, hlong, hlast⟩ := hnot
    have hn' := hlong n hn
    have haccept : kcdataDescMaxlen + minsize ≤ n := by
      rw [UInt32.le_iff_toNat_le, toNat_descMaxlen_add_wrap hwrap]
      omega
    -- the reported size is below `2 ^ 32 - 32`, and the minimum is not
    obtain ⟨n', size, hn', -, -, -, hfits, hmin⟩ :=
      hsound ((kcdataIterDataWithDescValid_iff hn minsize).mpr ⟨hvalid, haccept, hlast⟩)
    have hmin := UInt32.le_iff_toNat_le.mp hmin
    have hlt := n'.toNat_lt
    omega
  · intro hcond haccept
    obtain ⟨hvalid, hlong, hlast⟩ := (kcdataIterDataWithDescValid_iff hn minsize).mp haccept
    have hlong := UInt32.le_iff_toNat_le.mp hlong
    rcases hcond with hsmall | hreject | ⟨n', hn', hshort⟩ | hlast'
    · rw [toNat_descMaxlen_add hsmall] at hlong
      have hsub : (n - 32).toNat = n.toNat - 32 :=
        UInt32.toNat_sub_of_le _ _ (UInt32.le_iff_toNat_le.mpr (by change 32 ≤ _; omega))
      refine ⟨n, n - 32, hn, by omega, ⟨31, by omega, hlast⟩, kcdataIterGetDataWithDesc_eq hn,
        by omega, UInt32.le_iff_toNat_le.mpr (by omega)⟩
    · exact absurd hvalid hreject
    · obtain rfl : n' = n := Except.ok.inj (hn'.symm.trans hn)
      rw [toNat_descMaxlen_add_wrap (by omega)] at hlong
      omega
    · exact absurd hlast hlast'

/-- An item without payload at `0x1000` and the minimum that brings the sum to zero: the test
accepts it although there is no room for the description. -/
theorem describedData_wrap_not_sound :
    kcdataIterDataWithDescValid (.flat fun _ => 0) (kcdataIter 0x1000#64 16#64) 0xffffffe0 =
        .ok true ∧
      ¬ DescribedDataSound (fun _ => 0) (kcdataIter 0x1000#64 16#64) 0xffffffe0 := by
  refine ⟨rfl, ?_⟩
  intro hsound
  obtain ⟨n, size, hn, hroom, -⟩ := hsound rfl
  have hzero : kcdataIterSize (.flat fun _ => 0) (kcdataIter 0x1000#64 16#64) = .ok 0 := rfl
  obtain rfl : n = 0 := Except.ok.inj (hn.symm.trans hzero)
  exact absurd hroom (by decide)

end DescribedData

end MacKernel.Kcdata
