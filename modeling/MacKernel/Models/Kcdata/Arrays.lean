import MacKernel.Models.Kcdata.Walk

/-!
# Kcdata arrays

What `kcdata_iter_array_valid` accepts and what the element accessors make of it.
Every accepted element lies in the payload, and none of the operators that C leaves
open is evaluated outside its domain. For the legacy type the test is looser than
its comment: it bounds the rest modulo the count, not the padding.
-/

namespace MacKernel.Kcdata

variable {w : Nat} {m : Memory w} {iter : KcdataIter w} {ty sz count es : UInt32}

/-- `kcdata_iter_payload`. -/
def kcdataIterPayload (iter : KcdataIter w) : BitVec w :=
  iter.item + BitVec.ofNat w kcdataItemSize

section Checked

/-- A difference that is not allowed to fall below zero. -/
def checkedSub (a b : UInt32) : Except Fault UInt32 :=
  if b ≤ a then .ok (a - b) else .error .assertFailed

/-- A quotient whose divisor is not allowed to be zero. -/
def checkedDiv (a b : UInt32) : Except Fault UInt32 :=
  if b ≠ 0 then .ok (a / b) else .error .assertFailed

/-- A remainder whose divisor is not allowed to be zero. -/
def checkedMod (a b : UInt32) : Except Fault UInt32 :=
  if b ≠ 0 then .ok (a % b) else .error .assertFailed

private theorem checkedSub_ok {a b : UInt32} (h : b ≤ a) : checkedSub a b = .ok (a - b) := if_pos h

private theorem checkedDiv_ok {a b : UInt32} (h : b ≠ 0) : checkedDiv a b = .ok (a / b) := if_pos h

private theorem checkedMod_ok {a b : UInt32} (h : b ≠ 0) : checkedMod a b = .ok (a % b) := if_pos h

/-- `kcdata_iter_array_valid` with every difference, quotient and remainder checked where
the short-circuit operators reach it. -/
def kcdataIterArrayValidChecked (m : Memory w) (iter : KcdataIter w) : Except Fault Bool := do
  if ¬(← kcdataIterValid m iter) then return false
  else if (← kcdataIterType m iter) ≠ kcdataTypeArray then return false
  else
    let count ← kcdataIterArrayElemCount m iter
    let size ← iter.size m
    let type ← iter.rawType m
    if count = 0 then return size = 0
    else if type = kcdataTypeArray then
      let elemSize ← kcdataIterArraySizeSwitch m iter
      if elemSize = 0 then return false
      else if count ≤ (← checkedDiv size elemSize) then return (← checkedMod size count) < 16
      else return false
    else if type &&& 0xf ≤ size then
      if count ≤ (← checkedSub size (type &&& 0xf)) then
        return (← checkedMod (← checkedSub size (type &&& 0xf)) count) = 0
      else return false
    else return false

/-- `kcdata_iter_array_elem_size` with its difference and its quotient checked. -/
def kcdataIterArrayElemSizeChecked (m : Memory w) (iter : KcdataIter w) :
    Except Fault UInt32 := do
  let type ← iter.rawType m
  if type = kcdataTypeArray then kcdataIterArraySizeSwitch m iter
  else
    let count ← kcdataIterArrayElemCount m iter
    if count = 0 then return 0
    else checkedDiv (← checkedSub (← iter.size m) (type &&& 0xf)) count

/-- The test evaluates no operator outside its domain, on any iterator. -/
theorem kcdataIterArrayValidChecked_eq (m : Memory w) (iter : KcdataIter w) :
    kcdataIterArrayValidChecked m iter = kcdataIterArrayValid m iter := by
  unfold kcdataIterArrayValidChecked kcdataIterArrayValid
  refine congrArg _ (funext fun valid => ?_)
  split
  · rfl
  refine congrArg _ (funext fun type => ?_)
  split
  · rfl
  refine congrArg _ (funext fun count => congrArg _ (funext fun size =>
    congrArg _ (funext fun raw => ?_)))
  split
  · rfl
  next hcount =>
    split
    · -- the quotient is by a size of the table, the remainder by a count, both not zero
      refine congrArg _ (funext fun elemSize => ?_)
      split
      · rfl
      next helem =>
        simp only [checkedDiv_ok helem, checkedMod_ok hcount, ok_bind]
        by_cases h : count ≤ size / elemSize <;> simp [h]
    · -- the padding is compared with the size before it is taken off
      by_cases hpad : raw &&& 0xf ≤ size
      · simp only [checkedSub_ok hpad, checkedMod_ok hcount, ok_bind]
        by_cases h : count ≤ size - (raw &&& 0xf) <;> simp [h, hpad]
      · simp [hpad]

end Checked

section Accepted

/-- The comparisons of the test once the header is read and the count is not zero. -/
def ArrayFits (m : Memory w) (iter : KcdataIter w) (type size count : UInt32) : Prop :=
  if type = kcdataTypeArray then
    ∃ es, kcdataIterArraySizeSwitch m iter = .ok es ∧ es ≠ 0 ∧ count ≤ size / es ∧ size % count < 16
  else type &&& 0xf ≤ size ∧ count ≤ size - (type &&& 0xf) ∧ (size - (type &&& 0xf)) % count = 0

/-- An accepted array: its header was read, the item is in range, and the comparisons hold. -/
theorem kcdataIterArrayValid_inv (h : kcdataIterArrayValid m iter = .ok true) :
    kcdataIterValid m iter = .ok true ∧ ∃ type size count, iter.rawType m = .ok type ∧
      iter.size m = .ok size ∧ kcdataIterArrayElemCount m iter = .ok count ∧
      ((count = 0 ∧ size = 0) ∨ (count ≠ 0 ∧ ArrayFits m iter type size count)) := by
  obtain ⟨valid, hvalid, h⟩ := bind_eq_ok.mp h
  cases valid with
  | false => cases h
  | true =>
    obtain ⟨kind, hkind, h⟩ := bind_eq_ok.mp h
    split at h
    · cases h
    obtain ⟨count, hcount, h⟩ := bind_eq_ok.mp h
    obtain ⟨size, hsize, h⟩ := bind_eq_ok.mp h
    obtain ⟨type, htype, h⟩ := bind_eq_ok.mp h
    refine ⟨hvalid, type, size, count, htype, hsize, hcount, ?_⟩
    split at h
    · next hzero => exact .inl ⟨hzero, of_decide_eq_true (Except.ok.inj h)⟩
    next hzero =>
      refine .inr ⟨hzero, ?_⟩
      rw [ArrayFits]
      split at h
      · next harray =>
        rw [if_pos harray]
        obtain ⟨es, hes, h⟩ := bind_eq_ok.mp h
        split at h
        · cases h
        next hne => exact ⟨es, hes, hne, of_decide_eq_true (Except.ok.inj h)⟩
      · next harray =>
        rw [if_neg harray]
        exact of_decide_eq_true (Except.ok.inj h)

/-- The table answers for every flags word that can be read. -/
theorem kcdataIterArraySizeSwitch_ok (h : kcdataIterArrayElemCount m iter = .ok count) :
    ∃ es, kcdataIterArraySizeSwitch m iter = .ok es := by
  obtain ⟨flags, hflags, -⟩ := bind_eq_ok.mp h
  have htype : kcdataIterArrayElemType m iter = .ok (flags >>> 32).toUInt32 := by
    simp only [kcdataIterArrayElemType, hflags, ok_bind]
    rfl
  simp only [kcdataIterArraySizeSwitch, htype, ok_bind]
  split <;> exact ⟨_, rfl⟩

/-- A count that fits in the quotient by the element size fits with all its elements. -/
theorem mul_le_of_le_div (hes : es ≠ 0) (h : count ≤ sz / es) :
    count.toNat * es.toNat ≤ sz.toNat := by
  have hpos : 0 < es.toNat := Nat.pos_of_ne_zero fun hz => hes (UInt32.toNat.inj hz)
  rw [UInt32.le_iff_toNat_le, UInt32.toNat_div] at h
  exact (Nat.le_div_iff_mul_le hpos).mp h

/-- The accessor on an accepted array: it evaluates no operator outside its domain, and
the elements fit in the size. -/
theorem ArrayFits.elemSize (htype : iter.rawType m = .ok ty) (hsize : iter.size m = .ok sz)
    (hcount : kcdataIterArrayElemCount m iter = .ok count) (hne : count ≠ 0)
    (h : ArrayFits m iter ty sz count) :
    ∃ es, kcdataIterArrayElemSize m iter = .ok es ∧
      kcdataIterArrayElemSizeChecked m iter = .ok es ∧ count.toNat * es.toNat ≤ sz.toNat := by
  rw [ArrayFits] at h
  split at h
  · next harray =>
    obtain ⟨es, hes, hes0, hle, -⟩ := h
    refine ⟨es, ?_, ?_, mul_le_of_le_div hes0 hle⟩
    · simp only [kcdataIterArrayElemSize, htype, ok_bind, if_pos harray, hes]
    · simp only [kcdataIterArrayElemSizeChecked, htype, ok_bind, if_pos harray, hes]
  · next harray =>
    obtain ⟨hpad, -, -⟩ := h
    refine ⟨(sz - (ty &&& 0xf)) / count, ?_, ?_, ?_⟩
    · simp only [kcdataIterArrayElemSize, htype, hsize, hcount, ok_bind, if_neg harray, if_neg hne]
      rfl
    · simp only [kcdataIterArrayElemSizeChecked, htype, hsize, hcount, ok_bind, if_neg harray,
        if_neg hne, checkedSub_ok hpad, checkedDiv_ok hne]
    · rw [UInt32.toNat_div]
      calc count.toNat * ((sz - (ty &&& 0xf)).toNat / count.toNat)
          ≤ (sz - (ty &&& 0xf)).toNat := Nat.mul_div_le _ _
        _ ≤ sz.toNat := by rw [UInt32.toNat_sub_of_le _ _ hpad]; exact Nat.sub_le _ _

/-- The accessors on every accepted array. -/
theorem kcdataIterArrayValid_elements (h : kcdataIterArrayValid m iter = .ok true) :
    ∃ count es size, kcdataIterArrayElemCount m iter = .ok count ∧
      kcdataIterArrayElemSize m iter = .ok es ∧ kcdataIterArrayElemSizeChecked m iter = .ok es ∧
      iter.size m = .ok size ∧ count.toNat * es.toNat ≤ size.toNat := by
  obtain ⟨-, type, size, count, htype, hsize, hcount, hcase⟩ := kcdataIterArrayValid_inv h
  rcases hcase with ⟨rfl, rfl⟩ | ⟨hne, hfits⟩
  · -- an empty array: the table may still give a size, but there is no element of it
    have hzero : ∀ es : UInt32, (0 : UInt32).toNat * es.toNat ≤ (0 : UInt32).toNat := by simp
    by_cases harray : type = kcdataTypeArray
    · obtain ⟨es, hes⟩ := kcdataIterArraySizeSwitch_ok hcount
      refine ⟨0, es, 0, hcount, ?_, ?_, hsize, hzero es⟩
      · simp only [kcdataIterArrayElemSize, htype, ok_bind, if_pos harray, hes]
      · simp only [kcdataIterArrayElemSizeChecked, htype, ok_bind, if_pos harray, hes]
    · refine ⟨0, 0, 0, hcount, ?_, ?_, hsize, hzero 0⟩
      · simp only [kcdataIterArrayElemSize, htype, hcount, ok_bind, if_neg harray, ite_true]
        rfl
      · simp only [kcdataIterArrayElemSizeChecked, htype, hcount, ok_bind, if_neg harray, ite_true]
        rfl
  · obtain ⟨es, hes, hchecked, hle⟩ := hfits.elemSize htype hsize hcount hne
    exact ⟨count, es, size, hcount, hes, hchecked, hsize, hle⟩

end Accepted

section Safety

/-- An accepted item of a buffer far enough below the top of the address space lies in the
buffer, wherever its iterator stands. -/
theorem Inside.of_valid {base : BitVec 64} {bytes : List UInt8} {iter : KcdataIter 64}
    (hend : base.toNat + bytes.length + (2 ^ 32 + 16) ≤ 2 ^ 64)
    (hstop : iter.stop.toNat = base.toNat + bytes.length)
    (htype : iter.rawType (Memory.ofBuffer base bytes) = .ok ty)
    (hvalid : kcdataIterValid (Memory.ofBuffer base bytes) iter = .ok true) :
    Inside (Memory.ofBuffer base bytes) base.toNat (base.toNat + bytes.length) iter := by
  -- the type was read, so the item begins in the buffer
  obtain ⟨hlo, hhi⟩ := Memory.mem_of_ofBuffer_isSome (by omega) (Memory.isSome_of_readU32 htype)
  rcases sound_ofBuffer base bytes hend iter hstop hlo hhi.le with hfalse | ⟨-, hin, -⟩
  · cases hvalid.symm.trans hfalse
  · exact hin

/-- Every array that the LP64 test accepts can be read element by element: count times
element size does not leave 32 bits and is at most the size, and every byte of every element
lies in the payload of the item and in the buffer. Neither the test nor the accessor divides
by zero or subtracts below zero. -/
theorem array_elements_inside {base : BitVec 64} {bytes : List UInt8} {iter : KcdataIter 64}
    (hend : base.toNat + bytes.length + (2 ^ 32 + 16) ≤ 2 ^ 64)
    (hstop : iter.stop.toNat = base.toNat + bytes.length)
    (haccept : kcdataIterArrayValid (Memory.ofBuffer base bytes) iter = .ok true) :
    ∃ count es size,
      kcdataIterArrayElemCount (Memory.ofBuffer base bytes) iter = .ok count ∧
      kcdataIterArrayElemSize (Memory.ofBuffer base bytes) iter = .ok es ∧
      iter.size (Memory.ofBuffer base bytes) = .ok size ∧
      (count * es).toNat = count.toNat * es.toNat ∧ count * es ≤ size ∧
      (∀ i < count.toNat, ∀ j < es.toNat,
        ((kcdataIterPayload iter + BitVec.ofNat 64 (i * es.toNat + j)).toNat =
            (kcdataIterPayload iter).toNat + (i * es.toNat + j) ∧ i * es.toNat + j < size.toNat) ∧
          base.toNat ≤ (kcdataIterPayload iter).toNat + (i * es.toNat + j) ∧
          (kcdataIterPayload iter).toNat + size.toNat ≤ base.toNat + bytes.length) ∧
      kcdataIterArrayValidChecked (Memory.ofBuffer base bytes) iter = .ok true ∧
      kcdataIterArrayElemSizeChecked (Memory.ofBuffer base bytes) iter = .ok es := by
  obtain ⟨hvalid, type, -, -, htype, -⟩ := kcdataIterArrayValid_inv haccept
  obtain ⟨count, es, size, hcount, hes, hchecked, hsize, hle⟩ :=
    kcdataIterArrayValid_elements haccept
  obtain ⟨size', hsize', hlo, hhi⟩ := Inside.of_valid hend hstop htype hvalid
  obtain rfl : size' = size := Except.ok.inj (hsize'.symm.trans hsize)
  have hlt := size'.toNat_lt
  have hmul : (count * es).toNat = count.toNat * es.toNat := by
    rw [UInt32.toNat_mul, Nat.mod_eq_of_lt (by omega)]
  have hpayload : (kcdataIterPayload iter).toNat = iter.item.toNat + 16 := by
    rw [kcdataIterPayload, toNat_add_ofNat, kcdataItemSize, Nat.mod_eq_of_lt (by omega)]
  refine ⟨count, es, size', hcount, hes, hsize, hmul, ?_, ?_, ?_, hchecked⟩
  · rwa [UInt32.le_iff_toNat_le, hmul]
  · intro i hi j hj
    have hlast : i * es.toNat + es.toNat ≤ count.toNat * es.toNat := by
      rw [← Nat.succ_mul]
      exact Nat.mul_le_mul_right _ hi
    refine ⟨⟨?_, by omega⟩, by omega, by omega⟩
    rw [toNat_add_ofNat, Nat.mod_eq_of_lt (by omega)]
  · rw [kcdataIterArrayValidChecked_eq]
    exact haccept

/-- One 32-bit stack frame behind its header, padded to sixteen bytes. -/
def oneFrame : List UInt8 :=
  [0x11, 0, 0, 0, 16, 0, 0, 0, 1, 0, 0, 0, 0x0A, 0x09, 0, 0] ++ List.replicate 16 0

theorem array_elements_inside_oneFrame :
    kcdataIterArrayValid (Memory.ofBuffer 0x1000#64 oneFrame) ⟨0x1000, 0x1020⟩ = .ok true ∧
      ∃ count es size,
        kcdataIterArrayElemCount (Memory.ofBuffer 0x1000#64 oneFrame) ⟨0x1000, 0x1020⟩ =
          .ok count ∧
        kcdataIterArrayElemSize (Memory.ofBuffer 0x1000#64 oneFrame) ⟨0x1000, 0x1020⟩ = .ok es ∧
        KcdataIter.size (Memory.ofBuffer 0x1000#64 oneFrame) ⟨0x1000, 0x1020⟩ = .ok size ∧
        count * es ≤ size := by
  have haccept : kcdataIterArrayValid (Memory.ofBuffer 0x1000#64 oneFrame) ⟨0x1000, 0x1020⟩ =
    .ok true := rfl
  obtain ⟨count, es, size, hcount, hes, hsize, -, hle, -⟩ :=
    array_elements_inside (by decide) (by decide) haccept
  exact ⟨haccept, count, es, size, hcount, hes, hsize, hle⟩

end Safety

section Legacy

/-- The header of a legacy array that is not empty and whose elements the table knows. -/
structure LegacyArray (m : Memory w) (iter : KcdataIter w) (size count es : UInt32) : Prop where
  rawType : iter.rawType m = .ok kcdataTypeArray
  size_eq : iter.size m = .ok size
  elemCount : kcdataIterArrayElemCount m iter = .ok count
  sizeSwitch : kcdataIterArraySizeSwitch m iter = .ok es
  count_ne : count ≠ 0
  es_ne : es ≠ 0

/-- Accepted up to alignment padding: an item in the buffer whose size is that of the elements
rounded up to sixteen is accepted, and an accepted item has at most fifteen bytes behind its
elements. -/
def AcceptedUpToPadding (m : Memory w) (iter : KcdataIter w) (size count es : UInt32) : Prop :=
  (iter.item.toNat + 16 + size.toNat ≤ iter.stop.toNat →
    size.toNat = (count.toNat * es.toNat + 15) / 16 * 16 →
    kcdataIterArrayValid m iter = .ok true) ∧
  (kcdataIterArrayValid m iter = .ok true →
    count.toNat * es.toNat ≤ size.toNat ∧ size.toNat - count.toNat * es.toNat ≤ 15)

/-- The bytes behind the elements that the test lets pass although they are no padding: sixteen
or more, with a small remainder by the count. -/
def PassingSurplus (size count es : UInt32) : Prop :=
  count.toNat * es.toNat + 16 ≤ size.toNat ∧
    (size.toNat - count.toNat * es.toNat) % count.toNat < 16

/-- The test on a legacy array, in natural numbers: the elements fit, and what is behind them
leaves a small remainder by the count. -/
theorem LegacyArray.accepted_iff (h : LegacyArray m iter sz count es) :
    kcdataIterArrayValid m iter = .ok true ↔
      kcdataIterValid m iter = .ok true ∧ count.toNat * es.toNat ≤ sz.toNat ∧
        (sz.toNat - count.toNat * es.toNat) % count.toNat < 16 := by
  have hpos : 0 < es.toNat := Nat.pos_of_ne_zero fun hz => h.es_ne (UInt32.toNat.inj hz)
  have hrest : ∀ n, count.toNat * es.toNat ≤ n →
      (n - count.toNat * es.toNat) % count.toNat = n % count.toNat :=
    fun n hn => Nat.sub_mul_mod hn
  have htest : (count ≤ sz / es ∧ sz % count < 16) ↔ count.toNat * es.toNat ≤ sz.toNat ∧
      (sz.toNat - count.toNat * es.toNat) % count.toNat < 16 := by
    rw [UInt32.le_iff_toNat_le, UInt32.toNat_div, Nat.le_div_iff_mul_le hpos,
      UInt32.lt_iff_toNat_lt, UInt32.toNat_mod]
    refine and_congr_right fun hle => ?_
    rw [hrest _ hle]
    rfl
  have htype : kcdataIterType m iter = .ok kcdataTypeArray := by
    simp only [kcdataIterType, h.rawType, ok_bind]
    rfl
  rw [← htest]
  constructor
  · intro haccept
    obtain ⟨hvalid, type, size, count', hty, hsz, hcount, hcase⟩ := kcdataIterArrayValid_inv haccept
    obtain rfl := Except.ok.inj (hty.symm.trans h.rawType)
    obtain rfl := Except.ok.inj (hsz.symm.trans h.size_eq)
    obtain rfl := Except.ok.inj (hcount.symm.trans h.elemCount)
    rcases hcase with ⟨hzero, -⟩ | ⟨-, es', hes, -, hle, hmod⟩
    · exact absurd hzero h.count_ne
    · obtain rfl := Except.ok.inj (hes.symm.trans h.sizeSwitch)
      exact ⟨hvalid, hle, hmod⟩
  · rintro ⟨hvalid, hle, hmod⟩
    simp only [kcdataIterArrayValid, hvalid, htype, h.rawType, h.size_eq, h.elemCount,
      h.sizeSwitch, ok_bind, not_true, ite_false, ne_eq, if_neg h.count_ne, ite_true,
      if_neg h.es_ne, hle, hmod, and_self, decide_true]
    rfl

/-- A legacy array is accepted exactly up to alignment padding, unless it lies in the buffer
and carries a surplus of at least sixteen bytes whose remainder by the count is small. -/
theorem legacyArray_acceptedUpToPadding_iff (h : LegacyArray m iter sz count es) :
    AcceptedUpToPadding m iter sz count es ↔
      ¬(kcdataIterValid m iter = .ok true ∧ PassingSurplus sz count es) := by
  constructor
  · rintro ⟨-, honly⟩ ⟨hvalid, hle, hmod⟩
    have := (honly (h.accepted_iff.mpr ⟨hvalid, by omega, hmod⟩)).2
    omega
  · intro hno
    constructor
    · intro hin hsize
      have hstop := iter.stop.isLt
      refine h.accepted_iff.mpr ⟨?_, by omega, ?_⟩
      · rw [kcdataIterValid_eq h.size_eq, Nat.mod_eq_of_lt (by omega), Nat.mod_eq_of_lt (by omega)]
        exact congrArg Except.ok (decide_eq_true (by omega))
      · refine Nat.lt_of_le_of_lt (Nat.mod_le _ _) ?_
        omega
    · intro haccept
      obtain ⟨hvalid, hle, hmod⟩ := h.accepted_iff.mp haccept
      refine ⟨hle, ?_⟩
      by_contra hgt
      exact hno ⟨hvalid, by omega, hmod⟩

theorem legacyArray_acceptedUpToPadding_oneFrame :
    AcceptedUpToPadding (Memory.ofBuffer 0x1000#64 oneFrame) ⟨0x1000, 0x1020⟩ 16 1 8 := by
  have hheader : LegacyArray (Memory.ofBuffer 0x1000#64 oneFrame) ⟨0x1000, 0x1020⟩ 16 1 8 :=
    ⟨rfl, rfl, rfl, rfl, by decide, by decide⟩
  refine (legacyArray_acceptedUpToPadding_iff hheader).mpr ?_
  rintro ⟨-, hle, -⟩
  exact absurd hle (by decide)

/-- One 32-bit stack frame in an item of 32 bytes. -/
def looseFrame : List UInt8 :=
  [0x11, 0, 0, 0, 32, 0, 0, 0, 1, 0, 0, 0, 0x0A, 0x09, 0, 0] ++ List.replicate 32 0

/-- One element of eight bytes is accepted with twenty-four bytes behind it: every remainder
by one is zero. -/
theorem looseFrame_not_acceptedUpToPadding :
    LegacyArray (Memory.ofBuffer 0x1000#64 looseFrame) ⟨0x1000, 0x1030⟩ 32 1 8 ∧
      kcdataIterArrayValid (Memory.ofBuffer 0x1000#64 looseFrame) ⟨0x1000, 0x1030⟩ = .ok true ∧
      ¬AcceptedUpToPadding (Memory.ofBuffer 0x1000#64 looseFrame) ⟨0x1000, 0x1030⟩ 32 1 8 := by
  have haccept : kcdataIterArrayValid (Memory.ofBuffer 0x1000#64 looseFrame) ⟨0x1000, 0x1030⟩ =
    .ok true := rfl
  refine ⟨⟨rfl, rfl, rfl, rfl, by decide, by decide⟩, haccept, ?_⟩
  rintro ⟨-, honly⟩
  exact absurd (honly haccept).2 (by decide)

end Legacy

end MacKernel.Kcdata
