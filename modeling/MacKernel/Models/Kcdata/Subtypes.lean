import MacKernel.Core.Run
import Mathlib.Data.BitVec

/-!
# Kcdata subtype descriptors

One field of a custom type definition. An array keeps its count and its element size
packed in one word. The getters tell an array by its flag and the setter by its count,
so what is set is read back only where the two agree.
-/

namespace MacKernel.Kcdata

/-- `KCS_SUBTYPE_FLAGS_ARRAY`. -/
def kcsSubtypeFlagsArray : UInt8 := 0x1

/-- `struct kcdata_subtype_descriptor`. -/
structure KcdataSubtypeDescriptor where
  kcsFlags : UInt8
  kcsElemType : UInt8
  kcsElemOffset : UInt16
  kcsElemSize : UInt32
  kcsName : Vector UInt8 32
  deriving DecidableEq, Repr

/-- `d->kcs_flags & KCS_SUBTYPE_FLAGS_ARRAY`. -/
def KcdataSubtypeDescriptor.IsArray (d : KcdataSubtypeDescriptor) : Prop :=
  d.kcsFlags &&& kcsSubtypeFlagsArray ≠ 0

instance (d : KcdataSubtypeDescriptor) : Decidable d.IsArray :=
  inferInstanceAs (Decidable (_ ≠ _))

/-- `KCS_SUBTYPE_PACK_SIZE`: the count above the element size. -/
def kcsSubtypePackSize (count size : UInt32) : UInt32 :=
  (count &&& 0xffff) <<< 16 ||| (size &&& 0xffff)

/-- `kcs_get_elem_size`. -/
def kcsGetElemSize (d : KcdataSubtypeDescriptor) : UInt32 :=
  if d.IsArray then
    let size : UInt32 := d.kcsElemSize &&& 0xffff
    let count : UInt32 := (d.kcsElemSize &&& 0xffff0000) >>> 16
    size * count
  else d.kcsElemSize

/-- `kcs_get_elem_count`. -/
def kcsGetElemCount (d : KcdataSubtypeDescriptor) : UInt32 :=
  if d.IsArray then (d.kcsElemSize >>> 16) &&& 0xffff else 1

/-- `kcs_set_elem_size`: the return value and the descriptor afterwards. -/
def kcsSetElemSize (d : KcdataSubtypeDescriptor) (size count : UInt32) :
    Int × KcdataSubtypeDescriptor :=
  if count > 1 then
    if size > 0xffff ∨ count > 0xffff then (-1, d)
    else (0, { d with kcsElemSize := kcsSubtypePackSize count size })
  else (0, { d with kcsElemSize := size })

section Packing

variable {count size v : UInt32}

/-- The lower half of a word. -/
private theorem toNat_and_ffff (v : UInt32) : (v &&& 0xffff).toNat = v.toNat % 2 ^ 16 := by
  rw [UInt32.toNat_and]
  exact Nat.and_two_pow_sub_one_eq_mod _ 16

/-- The upper half of a word. -/
private theorem toNat_shiftRight_16 (v : UInt32) : (v >>> 16).toNat = v.toNat / 2 ^ 16 := by
  rw [UInt32.toNat_shiftRight]
  exact Nat.shiftRight_eq_div_pow _ 16

/-- The two halves of the word that the getters read. -/
private theorem toNat_packedCount (v : UInt32) :
    ((v >>> 16) &&& 0xffff).toNat = v.toNat / 2 ^ 16 := by
  have hv := v.toNat_lt
  rw [toNat_and_ffff, toNat_shiftRight_16, Nat.mod_eq_of_lt (by omega)]

/-- The upper half, with the mask that the source applies first. -/
private theorem and_ffff0000_shiftRight (v : UInt32) :
    (v &&& 0xffff0000) >>> 16 = (v >>> 16) &&& 0xffff := by
  rw [UInt32.shiftRight_and]
  rfl

/-- A count and a size share a word. -/
private theorem toNat_pack (hcount : count.toNat < 2 ^ 16) (hsize : size.toNat < 2 ^ 16) :
    (kcsSubtypePackSize count size).toNat = 2 ^ 16 * count.toNat + size.toNat := by
  have hshift : ((count &&& 0xffff) <<< 16).toNat = 2 ^ 16 * count.toNat := by
    rw [UInt32.toNat_shiftLeft, toNat_and_ffff, Nat.mod_eq_of_lt hcount]
    change count.toNat <<< 16 % 2 ^ 32 = _
    rw [Nat.shiftLeft_eq]
    omega
  rw [kcsSubtypePackSize, UInt32.toNat_or, hshift, toNat_and_ffff, Nat.mod_eq_of_lt hsize,
    Nat.two_pow_add_eq_or_of_lt hsize]

end Packing

section RoundTrip

variable {d : KcdataSubtypeDescriptor} {size count : UInt32}

/-- What is set is read back, as a product that fits in 32 bits, and a rejected call leaves
the descriptor as it was. -/
def SizeRoundTrip (d : KcdataSubtypeDescriptor) (size count : UInt32) : Prop :=
  ((kcsSetElemSize d size count).1 = 0 →
    kcsGetElemCount (kcsSetElemSize d size count).2 = count ∧
      (kcsGetElemSize (kcsSetElemSize d size count).2).toNat = size.toNat * count.toNat) ∧
  ((kcsSetElemSize d size count).1 = -1 → (kcsSetElemSize d size count).2 = d)

/-- A size does not make an array. -/
theorem isArray_set (d : KcdataSubtypeDescriptor) (v : UInt32) :
    KcdataSubtypeDescriptor.IsArray { d with kcsElemSize := v } ↔ d.IsArray := Iff.rfl

/-- The getters on an array whose word is known. -/
theorem array_getters (harray : d.IsArray) (v : UInt32) :
    (kcsGetElemCount { d with kcsElemSize := v }).toNat = v.toNat / 2 ^ 16 ∧
      (kcsGetElemSize { d with kcsElemSize := v }).toNat =
        v.toNat % 2 ^ 16 * (v.toNat / 2 ^ 16) := by
  constructor
  · rw [kcsGetElemCount, if_pos ((isArray_set d v).mpr harray), toNat_packedCount]
  · have hv := v.toNat_lt
    have hsize : v.toNat % 2 ^ 16 ≤ 2 ^ 16 - 1 := by omega
    have hcount : v.toNat / 2 ^ 16 ≤ 2 ^ 16 - 1 := by omega
    have hprod : v.toNat % 2 ^ 16 * (v.toNat / 2 ^ 16) < 2 ^ 32 :=
      (Nat.mul_le_mul hsize hcount).trans_lt (by decide)
    rw [kcsGetElemSize, if_pos ((isArray_set d v).mpr harray), and_ffff0000_shiftRight,
      UInt32.toNat_mul, toNat_and_ffff, toNat_packedCount]
    exact Nat.mod_eq_of_lt hprod

/-- The getters on anything else. -/
theorem plain_getters (harray : ¬d.IsArray) (v : UInt32) :
    kcsGetElemCount { d with kcsElemSize := v } = 1 ∧
      kcsGetElemSize { d with kcsElemSize := v } = v := by
  rw [kcsGetElemCount, kcsGetElemSize, if_neg (mt (isArray_set d v).mp harray),
    if_neg (mt (isArray_set d v).mp harray)]
  exact ⟨rfl, rfl⟩

/-- The three outcomes of the setter. -/
theorem kcsSetElemSize_plain (h : count = 1) :
    kcsSetElemSize d size count = (0, { d with kcsElemSize := size }) := by
  rw [kcsSetElemSize, if_neg (by rw [h]; decide)]

/-- A count above 1 is packed with the size. -/
theorem kcsSetElemSize_packed (h : 1 < count) (hsize : size ≤ 0xffff) (hcount : count ≤ 0xffff) :
    kcsSetElemSize d size count = (0, { d with kcsElemSize := kcsSubtypePackSize count size }) := by
  rw [kcsSetElemSize, if_pos h,
    if_neg (not_or.mpr ⟨UInt32.not_lt.mpr hsize, UInt32.not_lt.mpr hcount⟩)]

/-- What does not fit is refused without a store. -/
theorem kcsSetElemSize_rejected (h : 1 < count) (hlarge : size > 0xffff ∨ count > 0xffff) :
    kcsSetElemSize d size count = (-1, d) := by
  rw [kcsSetElemSize, if_pos h, if_pos hlarge]

/-- A single element is read back unless the flag says array. -/
theorem plain_roundTrip_iff (h : count = 1) : SizeRoundTrip d size count ↔ ¬d.IsArray := by
  have hone : count.toNat = 1 := by rw [h]; rfl
  simp only [SizeRoundTrip, kcsSetElemSize_plain h, forall_const, hone, Nat.mul_one]
  by_cases harray : d.IsArray
  · obtain ⟨hcount, hsize⟩ := array_getters harray size
    refine iff_of_false ?_ (not_not.mpr harray)
    rintro ⟨⟨hc, hs⟩, -⟩
    -- a count of one in the upper half leaves the size `2 ^ 16` short
    rw [hc, hone] at hcount
    rw [← hcount, Nat.mul_one] at hsize
    omega
  · obtain ⟨hcount, hsize⟩ := plain_getters harray size
    refine iff_of_true ⟨⟨hcount.trans h.symm, congrArg _ hsize⟩, ?_⟩ harray
    intro hrejected
    cases hrejected

/-- A packed size is read back only if the flag says array. -/
theorem packed_roundTrip_iff (h : 1 < count) (hsize : size ≤ 0xffff) (hcount : count ≤ 0xffff) :
    SizeRoundTrip d size count ↔ d.IsArray := by
  simp only [SizeRoundTrip, kcsSetElemSize_packed h hsize hcount, forall_const]
  have hsize : size.toNat < 2 ^ 16 := Nat.lt_succ_of_le (UInt32.le_iff_toNat_le.mp hsize)
  have hcount : count.toNat < 2 ^ 16 := Nat.lt_succ_of_le (UInt32.le_iff_toNat_le.mp hcount)
  by_cases harray : d.IsArray
  · obtain ⟨hc, hs⟩ := array_getters harray (kcsSubtypePackSize count size)
    rw [toNat_pack hcount hsize] at hc hs
    have hdiv : (2 ^ 16 * count.toNat + size.toNat) / 2 ^ 16 = count.toNat := by omega
    have hmod : (2 ^ 16 * count.toNat + size.toNat) % 2 ^ 16 = size.toNat := by omega
    rw [hdiv] at hc hs
    rw [hmod] at hs
    refine iff_of_true ⟨⟨UInt32.toNat.inj hc, hs⟩, ?_⟩ harray
    intro hrejected
    cases hrejected
  · refine iff_of_false ?_ harray
    rintro ⟨⟨hc, -⟩, -⟩
    rw [(plain_getters harray _).1] at hc
    rw [← hc] at h
    exact absurd h (by decide)

/-- What was refused need not be read back. -/
theorem rejected_roundTrip (h : 1 < count) (hlarge : size > 0xffff ∨ count > 0xffff) :
    SizeRoundTrip d size count := by
  rw [SizeRoundTrip, kcsSetElemSize_rejected h hlarge]
  refine ⟨?_, fun _ => rfl⟩
  intro haccepted
  cases haccepted

/-- A size is read back exactly when the flag and the count agree on what is an array, or
the call is rejected. -/
theorem sizeRoundTrip_iff (d : KcdataSubtypeDescriptor) (size count : UInt32) (h : 1 ≤ count) :
    SizeRoundTrip d size count ↔
      (d.IsArray ↔ 1 < count) ∨ (1 < count ∧ (size > 0xffff ∨ count > 0xffff)) := by
  by_cases hone : count = 1
  · have hnot : ¬ 1 < count := by rw [hone]; decide
    rw [plain_roundTrip_iff hone]
    simp [hnot]
  · have hmany : 1 < count := UInt32.lt_of_le_of_ne h (Ne.symm hone)
    by_cases hlarge : size > 0xffff ∨ count > 0xffff
    · exact iff_of_true (rejected_roundTrip hmany hlarge) (.inr ⟨hmany, hlarge⟩)
    · obtain ⟨hsize, hcount⟩ := not_or.mp hlarge
      rw [packed_roundTrip_iff hmany (UInt32.not_lt.mp hsize) (UInt32.not_lt.mp hcount)]
      simp [hmany, hlarge]

/-- A descriptor with the given flags. -/
def namelessDescriptor (flags : UInt8) : KcdataSubtypeDescriptor :=
  ⟨flags, 9, 0, 0, Vector.replicate 32 0⟩

/-- Four elements of eight bytes, with the flag set. -/
theorem sizeRoundTrip_four : SizeRoundTrip (namelessDescriptor 1) 8 4 :=
  (sizeRoundTrip_iff (namelessDescriptor 1) 8 4 (by decide)).mpr (by decide)

/-- An array of one element of eight bytes is read back as no element, and four elements
set without the flag as one. -/
theorem sizeRoundTrip_fails :
    ¬ SizeRoundTrip (namelessDescriptor 1) 8 1 ∧ ¬ SizeRoundTrip (namelessDescriptor 0) 8 4 := by
  constructor
  · rintro ⟨hread, -⟩
    exact absurd (hread rfl).1 (by decide)
  · rintro ⟨hread, -⟩
    exact absurd (hread rfl).1 (by decide)

end RoundTrip

end MacKernel.Kcdata
