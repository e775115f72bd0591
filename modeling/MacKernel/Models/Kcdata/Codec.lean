import MacKernel.Models.Kcdata.Walk

/-!
# Decoding what was encoded

The writer of kcdata buffers is not part of the headers; the comment at
`struct kcdata_item` fixes what it stores. A structure is padded to sixteen bytes
and its flags record the padding; an array records the padding in its type and the
element type and count in its flags. The iterators read the original lengths back.
-/

namespace MacKernel.Kcdata

variable {w : Nat} {m : Memory w} {iter : KcdataIter w} {ty sz : UInt32} {fl : UInt64}
  {data : List UInt8}

section Format

/-- An item as a buffer holds it. -/
def itemBytes (type size : UInt32) (flags : UInt64) (data : List UInt8) : List UInt8 :=
  Memory.leBytes 4 type.toNat ++
    (Memory.leBytes 4 size.toNat ++ (Memory.leBytes 8 flags.toNat ++ data))

/-- The bytes stand in memory at the iterator, before the end of its buffer. -/
structure Stored (m : Memory w) (iter : KcdataIter w) (bytes : List UInt8) : Prop where
  holds : m.Holds iter.item bytes
  fits : iter.item.toNat + bytes.length ≤ iter.stop.toNat

/-- The types of items that hold one structure. -/
def IsStructType (type : UInt32) : Prop :=
  type ≠ kcdataTypeArray ∧ type &&& ~~~0xf ≠ kcdataTypeArrayPad0 ∧
    type ≠ kcdataTypeContainerBegin

instance (type : UInt32) : Decidable (IsStructType type) :=
  inferInstanceAs (Decidable (_ ∧ _))

/-- A structure of `len` bytes: the data is padded and the low bits of the flags say by
how much. -/
structure StructItem where
  type : UInt32
  len : UInt32
  flags : UInt64
  data : List UInt8
  isStruct : IsStructType type
  fits : len.toNat + (kcdataCalcPadding len).toNat < 2 ^ 32
  padding : flags &&& (kcdataFlagsStructPaddingMask ||| kcdataFlagsStructHasPadding) =
    (kcdataCalcPadding len).toUInt64 ||| kcdataFlagsStructHasPadding
  length : data.length = len.toNat + (kcdataCalcPadding len).toNat

/-- The stored form of a structure. -/
def StructItem.bytes (i : StructItem) : List UInt8 :=
  itemBytes i.type (i.len + kcdataCalcPadding i.len) i.flags i.data

/-- A structure from before padding was recorded. -/
structure LegacyItem where
  type : UInt32
  len : UInt32
  flags : UInt64
  data : List UInt8
  known : (type = stackshotKctypeThreadSnapshot ∧ len = threadSnapshotV2Size) ∨
    (type = stackshotKctypeSharedcacheLoadinfo ∧ len = dyldUuidInfo64Size)
  flagless : flags &&& (kcdataFlagsStructPaddingMask ||| kcdataFlagsStructHasPadding) = 0
  length : data.length = len.toNat + (kcdataCalcPadding len).toNat

/-- The stored form of a legacy structure. -/
def LegacyItem.bytes (i : LegacyItem) : List UInt8 :=
  itemBytes i.type (i.len + kcdataCalcPadding i.len) i.flags i.data

/-- An array of `count` elements of `elemSize` bytes. -/
structure ArrayItem where
  elemType : UInt32
  count : UInt32
  elemSize : UInt32
  data : List UInt8
  count_pos : 0 < count.toNat
  elemSize_pos : 0 < elemSize.toNat
  fits : count.toNat * elemSize.toNat + (kcdataCalcPadding (count * elemSize)).toNat < 2 ^ 32
  length : data.length =
    count.toNat * elemSize.toNat + (kcdataCalcPadding (count * elemSize)).toNat

/-- The padding behind the elements. -/
def ArrayItem.padding (i : ArrayItem) : UInt32 := kcdataCalcPadding (i.count * i.elemSize)

/-- The stored size of an array. -/
def ArrayItem.size (i : ArrayItem) : UInt32 := i.count * i.elemSize + i.padding

/-- The stored form of an array. -/
def ArrayItem.bytes (i : ArrayItem) : List UInt8 :=
  itemBytes (kcdataTypeArrayPad0 ||| i.padding) i.size
    (i.elemType.toUInt64 <<< 32 ||| i.count.toUInt64) i.data

end Format

section Header

variable (h : Stored m iter (itemBytes ty sz fl data))

include h

/-- The type of a stored item is read as it is. -/
theorem Stored.rawType : iter.rawType m = .ok ty :=
  h.holds.left.readU32

/-- The size of a stored item is read as it is. -/
theorem Stored.size : iter.size m = .ok sz :=
  Memory.Holds.readU32 h.holds.right.left

/-- The flags of a stored item are read as they are. -/
theorem Stored.flags : iter.flags m = .ok fl := by
  have hright := h.holds.right.right.left
  rw [Memory.length_leBytes, Memory.length_leBytes, BitVec.add_assoc, ← BitVec.ofNat_add] at hright
  exact hright.readU64

/-- The sixteen array types with padding are read as one. -/
theorem Stored.iterType : kcdataIterType m iter =
    .ok (if ty &&& ~~~0xf = kcdataTypeArrayPad0 then kcdataTypeArray else ty) := by
  simp only [kcdataIterType, h.rawType, ok_bind]
  split <;> rfl

/-- An item before the end of its buffer passes the test. -/
theorem Stored.valid (hd : data.length = sz.toNat) : kcdataIterValid m iter = .ok true := by
  have hfits := h.fits
  have hstop := iter.stop.isLt
  simp only [itemBytes, List.length_append, Memory.length_leBytes] at hfits
  rw [kcdataIterValid_eq h.size, Nat.mod_eq_of_lt (by omega), Nat.mod_eq_of_lt (by omega)]
  exact congrArg Except.ok (decide_eq_true (by omega))

end Header

section Padding

/-- A padding fits the lower four bits. -/
theorem kcdataCalcPadding_and (size : UInt32) :
    kcdataCalcPadding size &&& 0xf = kcdataCalcPadding size := by
  rw [kcdataCalcPadding, UInt32.and_assoc, UInt32.and_self]

variable {padding : UInt32} (hp : padding &&& 0xf = padding)

include hp

/-- The padding is read back from the flags of a structure. -/
theorem kcdataFlagsGetPadding_eq
    (hf : fl &&& (kcdataFlagsStructPaddingMask ||| kcdataFlagsStructHasPadding) =
      padding.toUInt64 ||| kcdataFlagsStructHasPadding) :
    kcdataFlagsGetPadding fl = padding := by
  have hsub : kcdataFlagsStructPaddingMask =
      (kcdataFlagsStructPaddingMask ||| kcdataFlagsStructHasPadding) &&&
        kcdataFlagsStructPaddingMask := by decide
  rw [kcdataFlagsGetPadding, hsub, ← UInt64.and_assoc, hf, UInt64.toUInt32_and,
    UInt64.toUInt32_or, UInt32.toUInt32_toUInt64]
  have hmask : kcdataFlagsStructPaddingMask.toUInt32 = 0xf := by decide
  have hhas : kcdataFlagsStructHasPadding.toUInt32 = 0x80 := by decide
  have hzero : (0x80 : UInt32).toNat &&& (0xf : UInt32).toNat = 0 := by decide
  rw [hmask, hhas, ← hp]
  apply UInt32.toNat.inj
  simp only [UInt32.toNat_and, UInt32.toNat_or]
  rw [Nat.and_or_distrib_right, hzero, Nat.or_zero, Nat.and_assoc, Nat.and_self]

/-- The type of a padded array is its first type with the padding as low bits. -/
theorem arrayPad_and :
    (kcdataTypeArrayPad0 ||| padding) &&& ~~~0xf = kcdataTypeArrayPad0 ∧
      (kcdataTypeArrayPad0 ||| padding) &&& 0xf = padding := by
  have hhigh : (kcdataTypeArrayPad0 &&& ~~~0xf).toNat = kcdataTypeArrayPad0.toNat := by decide
  have hlow : (kcdataTypeArrayPad0 &&& 0xf).toNat = 0 := by decide
  have hnone : ((0xf : UInt32) &&& ~~~0xf).toNat = 0 := by decide
  rw [← hp]
  constructor <;> apply UInt32.toNat.inj <;>
    simp only [UInt32.toNat_and, UInt32.toNat_or] at hhigh hlow hnone ⊢
  · rw [Nat.and_or_distrib_right, Nat.and_assoc, hnone, hhigh, Nat.and_zero, Nat.or_zero]
  · rw [Nat.and_or_distrib_right, Nat.and_assoc, hlow, Nat.and_self, Nat.zero_or]

end Padding

section Structs

/-- The rule for types with recorded padding. -/
theorem StructItem.paddedSize (i : StructItem) (h : Stored m iter i.bytes) :
    kcdataIterPaddedSize m iter = .ok i.len := by
  have hpad := kcdataFlagsGetPadding_eq (kcdataCalcPadding_and i.len) i.padding
  have hfits := i.fits
  have hadd : (i.len + kcdataCalcPadding i.len).toNat =
      i.len.toNat + (kcdataCalcPadding i.len).toNat := by
    rw [UInt32.toNat_add, Nat.mod_eq_of_lt hfits]
  have hlt : ¬i.len + kcdataCalcPadding i.len < kcdataCalcPadding i.len := by
    rw [UInt32.lt_iff_toNat_lt, hadd]
    omega
  simp only [kcdataIterPaddedSize, Stored.size h, Stored.flags h, ok_bind, hpad, if_neg hlt]
  rw [UInt32.add_sub_cancel]
  rfl

/-- Recorded padding makes an item different from every legacy item. -/
theorem StructItem.not_legacy (i : StructItem) (h : Stored m iter i.bytes) (legacySize : UInt32) :
    kcdataIterIsLegacyItem m iter legacySize = .ok false := by
  have hne : i.flags &&& (kcdataFlagsStructPaddingMask ||| kcdataFlagsStructHasPadding) ≠ 0 := by
    rw [i.padding]
    intro hz
    have hhas : kcdataFlagsStructHasPadding = 0 := (UInt64.or_eq_zero_iff.mp hz).2
    exact absurd hhas (by decide)
  simp only [kcdataIterIsLegacyItem, Stored.size h, Stored.flags h, ok_bind, decide_eq_false hne]
  split <;> rfl

/-- The size of a structure is given without its padding. -/
theorem StructItem.iterSize (i : StructItem) (h : Stored m iter i.bytes) :
    kcdataIterSize m iter = .ok i.len := by
  obtain ⟨harray, hpad, hcontainer⟩ := i.isStruct
  have htype : kcdataIterType m iter = .ok i.type := by
    rw [Stored.iterType h, if_neg hpad]
  have hlegacy (legacySize : UInt32) : kcdataIterLegacySize m iter legacySize = .ok i.len := by
    simp only [kcdataIterLegacySize, i.not_legacy h, ok_bind, Bool.false_eq_true, ite_false,
      i.paddedSize h]
  have hfirst : ¬(i.type = kcdataTypeArray ∨ i.type = kcdataTypeContainerBegin) :=
    not_or.mpr ⟨harray, hcontainer⟩
  simp only [kcdataIterSize, htype, ok_bind, if_neg hfirst, hlegacy, i.paddedSize h, ite_self]

/-- A structure of the old layout is told by its type and size. -/
theorem LegacyItem.isLegacy (i : LegacyItem) (h : Stored m iter i.bytes) :
    kcdataIterIsLegacyItem m iter i.len = .ok true := by
  simp only [kcdataIterIsLegacyItem, Stored.size h, Stored.flags h, ok_bind, ite_true, i.flagless,
    decide_true]
  rfl

/-- The size of a legacy structure is the size that it had then. -/
theorem LegacyItem.iterSize (i : LegacyItem) (h : Stored m iter i.bytes) :
    kcdataIterSize m iter = .ok i.len := by
  have hlegacy : kcdataIterLegacySize m iter i.len = .ok i.len := by
    simp only [kcdataIterLegacySize, i.isLegacy h, ok_bind, ite_true]
    rfl
  rcases i.known with ⟨ht, hl⟩ | ⟨ht, hl⟩ <;> rw [hl] at hlegacy ⊢
  · have htype : kcdataIterType m iter = .ok stackshotKctypeThreadSnapshot := by
      rw [Stored.iterType h, ht]
      rfl
    simp only [kcdataIterSize, htype, ok_bind]
    exact hlegacy
  · have htype : kcdataIterType m iter = .ok stackshotKctypeSharedcacheLoadinfo := by
      rw [Stored.iterType h, ht]
      rfl
    simp only [kcdataIterSize, htype, ok_bind]
    exact hlegacy

end Structs

section Arrays

/-- Element type and count are read back from the flags of an array. -/
theorem arrayFlags_eq (elemType count : UInt32) :
    ((elemType.toUInt64 <<< 32 ||| count.toUInt64) >>> 32).toUInt32 = elemType ∧
      (elemType.toUInt64 <<< 32 ||| count.toUInt64).toUInt32 = count := by
  have he := elemType.toNat_lt
  have hc := count.toNat_lt
  have hshift : (elemType.toUInt64 <<< 32).toNat = 2 ^ 32 * elemType.toNat := by
    simp only [UInt64.toNat_shiftLeft, UInt32.toNat_toUInt64, Nat.shiftLeft_eq, UInt64.reduceToNat,
      Nat.reduceMod]
    omega
  have hn : (elemType.toUInt64 <<< 32 ||| count.toUInt64).toNat =
      2 ^ 32 * elemType.toNat + count.toNat := by
    rw [UInt64.toNat_or, hshift, UInt32.toNat_toUInt64, Nat.two_pow_add_eq_or_of_lt hc]
  constructor <;> apply UInt32.toNat.inj
  · simp only [UInt64.toNat_toUInt32, UInt64.toNat_shiftRight, hn, Nat.shiftRight_eq_div_pow,
      UInt64.reduceToNat, Nat.reduceMod]
    omega
  · rw [UInt64.toNat_toUInt32, hn]
    omega

variable (i : ArrayItem) (h : Stored m iter i.bytes)

/-- The bytes of all elements do not wrap. -/
theorem ArrayItem.toNat_mul : (i.count * i.elemSize).toNat = i.count.toNat * i.elemSize.toNat := by
  have hfits := i.fits
  rw [UInt32.toNat_mul, Nat.mod_eq_of_lt (by omega)]

/-- The size of an array is that of its elements and of the padding. -/
private theorem ArrayItem.toNat_size :
    i.size.toNat = i.count.toNat * i.elemSize.toNat + i.padding.toNat := by
  rw [ArrayItem.size, UInt32.toNat_add, i.toNat_mul]
  exact Nat.mod_eq_of_lt i.fits

/-- Without the padding the elements are left. -/
theorem ArrayItem.size_sub : i.size - i.padding = i.count * i.elemSize := by
  rw [ArrayItem.size, UInt32.add_sub_cancel]

/-- An encoded array is not empty. -/
theorem ArrayItem.count_ne_zero : i.count ≠ 0 := by
  intro hz
  have hpos := i.count_pos
  rw [hz] at hpos
  exact absurd hpos (by decide)

/-- The stored type carries the padding. -/
theorem ArrayItem.rawType_and :
    (kcdataTypeArrayPad0 ||| i.padding) &&& ~~~0xf = kcdataTypeArrayPad0 ∧
    (kcdataTypeArrayPad0 ||| i.padding) &&& 0xf = i.padding :=
  arrayPad_and (kcdataCalcPadding_and _)

/-- No type with padding is the type without. -/
theorem ArrayItem.rawType_ne : kcdataTypeArrayPad0 ||| i.padding ≠ kcdataTypeArray := by
  intro he
  have hand := i.rawType_and.1
  rw [he] at hand
  exact absurd hand (by decide)

include h

/-- An encoded array is read as an array. -/
theorem ArrayItem.iterType : kcdataIterType m iter = .ok kcdataTypeArray := by
  rw [Stored.iterType h, if_pos i.rawType_and.1]

/-- The element type is read back. -/
theorem ArrayItem.elemType_eq : kcdataIterArrayElemType m iter = .ok i.elemType := by
  simp only [kcdataIterArrayElemType, Stored.flags h, ok_bind, (arrayFlags_eq _ _).1]
  rfl

/-- The element count is read back. -/
theorem ArrayItem.elemCount_eq : kcdataIterArrayElemCount m iter = .ok i.count := by
  simp only [kcdataIterArrayElemCount, Stored.flags h, ok_bind, (arrayFlags_eq _ _).2]
  rfl

/-- The element size is read back from the size and the count. -/
theorem ArrayItem.elemSize_eq : kcdataIterArrayElemSize m iter = .ok i.elemSize := by
  have hdiv : i.count * i.elemSize / i.count = i.elemSize := by
    apply UInt32.toNat.inj
    rw [UInt32.toNat_div, i.toNat_mul, Nat.mul_div_cancel_left _ i.count_pos]
  simp only [kcdataIterArrayElemSize, Stored.rawType h, Stored.size h, i.elemCount_eq h, ok_bind,
    if_neg i.rawType_ne, if_neg i.count_ne_zero]
  rw [i.rawType_and.2, i.size_sub, hdiv]
  rfl

/-- The size of an array includes its padding. -/
theorem ArrayItem.iterSize : kcdataIterSize m iter = .ok i.size := by
  simp only [kcdataIterSize, i.iterType h, ok_bind, true_or, ite_true]
  exact Stored.size h

/-- An encoded array is valid. -/
theorem ArrayItem.arrayValid : kcdataIterArrayValid m iter = .ok true := by
  have hsize := i.toNat_size
  have hvalid : kcdataIterValid m iter = .ok true :=
    Stored.valid h (i.length.trans hsize.symm)
  have hle : i.padding ≤ i.size := by
    rw [UInt32.le_iff_toNat_le, hsize]
    omega
  have hcount : i.count ≤ i.count * i.elemSize := by
    rw [UInt32.le_iff_toNat_le, i.toNat_mul]
    exact Nat.le_mul_of_pos_right _ i.elemSize_pos
  have hmod : i.count * i.elemSize % i.count = 0 := by
    apply UInt32.toNat.inj
    rw [UInt32.toNat_mod, i.toNat_mul, Nat.mul_mod_right]
    rfl
  simp only [kcdataIterArrayValid, hvalid, i.iterType h, Stored.rawType h, Stored.size h,
    i.elemCount_eq h, ok_bind, not_true, ite_false, ne_eq, if_neg i.rawType_ne,
    if_neg i.count_ne_zero]
  rw [i.rawType_and.2, i.size_sub]
  exact congrArg Except.ok (decide_eq_true ⟨hle, hcount, hmod⟩)

end Arrays

/-- Whatever the documented rule stores, the iterators read back: the length of a
structure, also of the two types that have a legacy size; the size of a legacy
structure; and the element type, count and size of an array. -/
theorem decode_encode (m : Memory w) (iter : KcdataIter w) :
    (∀ i : StructItem, Stored m iter i.bytes → kcdataIterSize m iter = .ok i.len) ∧
    (∀ i : LegacyItem, Stored m iter i.bytes → kcdataIterSize m iter = .ok i.len) ∧
    (∀ i : ArrayItem, Stored m iter i.bytes →
      kcdataIterArrayValid m iter = .ok true ∧
      kcdataIterArrayElemType m iter = .ok i.elemType ∧
      kcdataIterArrayElemCount m iter = .ok i.count ∧
      kcdataIterArrayElemSize m iter = .ok i.elemSize ∧
      kcdataIterType m iter = .ok kcdataTypeArray ∧
      kcdataIterSize m iter = .ok i.size) :=
  ⟨fun i h => i.iterSize h, fun i h => i.iterSize h, fun i h =>
    ⟨i.arrayValid h, i.elemType_eq h, i.elemCount_eq h, i.elemSize_eq h, i.iterType h,
      i.iterSize h⟩⟩

/-- Three two-byte elements, with ten bytes of padding behind them. -/
def threeShorts : ArrayItem where
  elemType := 0x907
  count := 3
  elemSize := 2
  data := [1, 0, 2, 0, 3, 0] ++ List.replicate 10 0
  count_pos := by decide
  elemSize_pos := by decide
  fits := by decide
  length := by decide

/-- Three elements of two bytes, with ten bytes of padding. -/
theorem decode_encode_threeShorts :
    Stored (Memory.ofBuffer 0x1000#64 threeShorts.bytes) ⟨0x1000, 0x1020⟩ threeShorts.bytes ∧
      kcdataIterArrayElemSize (Memory.ofBuffer 0x1000#64 threeShorts.bytes) ⟨0x1000, 0x1020⟩ =
        .ok 2 := by
  have hs : Stored (Memory.ofBuffer 0x1000#64 threeShorts.bytes) ⟨0x1000, 0x1020⟩
      threeShorts.bytes := ⟨by unfold Memory.Holds; decide, by decide⟩
  exact ⟨hs, ((decode_encode _ _).2.2 threeShorts hs).2.2.2.1⟩

end MacKernel.Kcdata
