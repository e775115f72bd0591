import MacKernel.Core.Bytes
import MacKernel.Core.Scan

/-!
# Masked comparison of `skywalk/core/skywalk_common.h`

`__sk_memcmp_mask` compares 64, 32 and 16 bytes at a time and ends with the last 16
bytes, which overlap what was compared before; buffers below 16 bytes are compared
byte by byte. Every access is checked against the length of the buffers. The vector
comparisons are external, and are parameters here; the scalar variants stand in for
them where there are none.
-/

namespace MacKernel.FlowSwitch

section MemcmpMask

variable {len k : Nat}

/-- The arguments of a comparison: two buffers and the byte mask, of `len` bytes each. -/
structure Operands (len : Nat) where
  src1 : Fin len → BitVec 8
  src2 : Fin len → BitVec 8
  byteMask : Fin len → BitVec 8

namespace Operands

/-- The buffers are identical after applying the byte mask. -/
def Agree (ops : Operands len) : Prop :=
  ∀ j, ops.src1 j &&& ops.byteMask j = ops.src2 j &&& ops.byteMask j

/-- `(src1[i] ^ src2[i]) & byte_mask[i]`, promoted. -/
def differenceAt (ops : Operands len) (i : BitVec 64) : Except Fault (BitVec 32) :=
  if h : i.toNat < len then
    .ok (((ops.src1 ⟨i.toNat, h⟩ ^^^ ops.src2 ⟨i.toNat, h⟩) &&&
      ops.byteMask ⟨i.toNat, h⟩).setWidth 32)
  else .error .unmapped

/-- The `k` bytes at `src1 + i`, `src2 + i` and `byte_mask + i`. -/
def block (ops : Operands len) (k : Nat) (i : BitVec 64) : Except Fault (Operands k) :=
  if h : i.toNat + k ≤ len then
    let place (j : Fin k) : Fin len := ⟨i.toNat + j, (Nat.add_lt_add_left j.isLt _).trans_le h⟩
    .ok ⟨fun j => ops.src1 (place j), fun j => ops.src2 (place j), fun j => ops.byteMask (place j)⟩
  else .error .unmapped

end Operands

/-- How far a comparison has come. -/
structure Progress where
  i : BitVec 64
  result : BitVec 32

/-- `for (; i < n; i++)`. -/
def scalarLoop (ops : Operands len) (n : BitVec 64) (s : Progress) : Except Fault (BitVec 32) :=
  loop (fun s => do
    if s.i < n then
      let difference ← ops.differenceAt s.i
      return .inl ⟨s.i + 1, s.result ||| difference⟩
    else return .inr s.result) (n.toNat + 1) s

/-- `for (; i + k <= n; i += k)`, around the comparison of `k` bytes. -/
def blockLoop (cmp : Operands k → Except Fault (BitVec 32)) (ops : Operands len) (n : BitVec 64)
    (s : Progress) : Except Fault Progress :=
  loop (fun s => do
    if s.i + BitVec.ofNat 64 k ≤ n then
      let operands ← ops.block k s.i
      let difference ← cmp operands
      return .inl ⟨s.i + BitVec.ofNat 64 k, s.result ||| difference⟩
    else return .inr s) (n.toNat + 1) s

/-- `__sk_memcmp_mask_scalar`. -/
def skMemcmpMaskScalar (ops : Operands len) (n : BitVec 64) : Except Fault (BitVec 32) :=
  scalarLoop ops n ⟨0, 0⟩

/-- `__sk_memcmp_mask_16B_scalar`. -/
def skMemcmpMask16BScalar (ops : Operands 16) : Except Fault (BitVec 32) :=
  skMemcmpMaskScalar ops 16

/-- `__sk_memcmp_mask_32B_scalar`. -/
def skMemcmpMask32BScalar (ops : Operands 32) : Except Fault (BitVec 32) :=
  skMemcmpMaskScalar ops 32

/-- `__sk_memcmp_mask_48B_scalar`. -/
def skMemcmpMask48BScalar (ops : Operands 48) : Except Fault (BitVec 32) :=
  skMemcmpMaskScalar ops 48

/-- `__sk_memcmp_mask_64B_scalar`. -/
def skMemcmpMask64BScalar (ops : Operands 64) : Except Fault (BitVec 32) :=
  skMemcmpMaskScalar ops 64

/-- `__sk_memcmp_mask`. -/
def skMemcmpMask (skMemcmpMask16B : Operands 16 → Except Fault (BitVec 32))
    (skMemcmpMask32B : Operands 32 → Except Fault (BitVec 32))
    (skMemcmpMask64B : Operands 64 → Except Fault (BitVec 32)) (ops : Operands len)
    (n : BitVec 64) : Except Fault (BitVec 32) := do
  let s ← blockLoop skMemcmpMask64B ops n ⟨0, 0⟩
  let s ← blockLoop skMemcmpMask32B ops n s
  let s ← blockLoop skMemcmpMask16B ops n s
  if s.i < n then
    if n ≥ 16 then
      -- Compare the last 16 bytes with vector code.
      let operands ← ops.block 16 (n - 16)
      let difference ← skMemcmpMask16B operands
      return s.result ||| difference
    else
      -- Use scalar code if n < 16.
      scalarLoop ops n s
  else return s.result

/-- A comparison returns zero exactly when its operands agree. -/
def Compares (cmp : Operands k → Except Fault (BitVec 32)) : Prop :=
  ∀ ops, ∃ result, cmp ops = .ok result ∧ (result = 0 ↔ ops.Agree)

namespace Operands

variable {ops : Operands len} {n i : BitVec 64}

/-- Byte `j` agrees, if there is one. -/
def AgreesAt (ops : Operands len) (j : Nat) : Prop :=
  ∀ h : j < len, ops.src1 ⟨j, h⟩ &&& ops.byteMask ⟨j, h⟩ = ops.src2 ⟨j, h⟩ &&& ops.byteMask ⟨j, h⟩

/-- Operands agree if they do at every place. -/
theorem agree_iff : ops.Agree ↔ ∀ j < len, ops.AgreesAt j :=
  ⟨fun h j _ hj => h ⟨j, hj⟩, fun h j => h j j.isLt j.isLt⟩

/-- The difference of two bytes under the mask. -/
theorem difference_eq_zero_iff (x y mask : BitVec 8) :
    ((x ^^^ y) &&& mask).setWidth 32 = 0 ↔ x &&& mask = y &&& mask := by
  have hdistrib : (x ^^^ y) &&& mask = (x &&& mask) ^^^ (y &&& mask) := by
    ext j
    simp only [BitVec.getElem_and, BitVec.getElem_xor, Bool.and_xor_distrib_right]
  rw [← BitVec.xor_eq_zero_iff (x := x &&& mask), ← hdistrib]
  constructor
  · intro h
    have hback := congrArg (BitVec.setWidth 8) h
    rwa [BitVec.setWidth_setWidth_of_le _ (by decide), BitVec.setWidth_eq] at hback
  · intro h
    rw [h]
    rfl

/-- One byte is compared under its mask. -/
theorem differenceAt_spec (hi : i.toNat < len) :
    ∃ difference, ops.differenceAt i = .ok difference ∧
      (difference = 0 ↔ ∀ j, i.toNat ≤ j → j < i.toNat + 1 → ops.AgreesAt j) := by
  refine ⟨_, dif_pos hi, (difference_eq_zero_iff _ _ _).trans ?_⟩
  constructor
  · intro h j hlo hhi
    obtain rfl : i.toNat = j := by omega
    exact fun _ => h
  · exact fun h => h i.toNat le_rfl (Nat.lt_succ_self _) hi

/-- A block of the operands agrees where they do. -/
theorem block_spec (hi : i.toNat + k ≤ len) : ∃ operands, ops.block k i = .ok operands ∧
    (operands.Agree ↔ ∀ j, i.toNat ≤ j → j < i.toNat + k → ops.AgreesAt j) := by
  refine ⟨_, dif_pos hi, ?_⟩
  constructor
  · intro h j hlo hhi hj
    have hplace : i.toNat + (j - i.toNat) = j := by omega
    have hagree := h ⟨j - i.toNat, by omega⟩
    simpa only [hplace] using hagree
  · exact fun h j => h _ (Nat.le_add_right _ _) (Nat.add_lt_add_left j.isLt _) _

/-- All bytes below `i` are compared. -/
structure Compared (ops : Operands len) (s : Progress) : Prop where
  bound : s.i.toNat ≤ len
  reports : Reports ops.AgreesAt s.i.toNat s.result

/-- Before the first byte nothing differs. -/
theorem compared_start : ops.Compared ⟨0, 0⟩ where
  bound := Nat.zero_le _
  reports := reports_zero

/-- The next `k` bytes are compared as well. -/
theorem Compared.extend {s : Progress} {difference : BitVec 32} (h : ops.Compared s)
    (hi : i.toNat = s.i.toNat + k) (hle : s.i.toNat + k ≤ len)
    (hdifference : difference = 0 ↔
      ∀ j, s.i.toNat ≤ j → j < s.i.toNat + k → ops.AgreesAt j) :
    ops.Compared ⟨i, s.result ||| difference⟩ := by
  have hmono : s.i.toNat ≤ i.toNat := by omega
  rw [← hi] at hle hdifference
  exact ⟨hle, h.reports.extend le_rfl hmono hdifference⟩

end Operands

section Loops

variable {ops : Operands len} {n : BitVec 64} {s : Progress}

/-- The loop by bytes finds whether the rest differs. -/
theorem scalarLoop_spec (hlen : n.toNat = len) (h : ops.Compared s) :
    ∃ result, scalarLoop ops n s = .ok result ∧ Reports ops.AgreesAt len result := by
  refine loop_spec (fun bound s => ops.Compared s ∧ n.toNat - s.i.toNat = bound) _ ?_ ⟨h, rfl⟩
    (by omega)
  rintro bound s ⟨hs, rfl⟩
  have hbound := hs.bound
  by_cases hi : s.i < n
  · have hi' : s.i.toNat < n.toNat := hi
    have hnext : (s.i + 1).toNat = s.i.toNat + 1 := BitVec.toNat_add_of_lt
      ((Nat.succ_le_of_lt hi').trans_lt n.isLt)
    obtain ⟨difference, hdifference, hzero⟩ := ops.differenceAt_spec (hi'.trans_eq hlen)
    refine .inl ⟨⟨s.i + 1, s.result ||| difference⟩, n.toNat - (s.i + 1).toNat, by omega, ?_,
      hs.extend hnext (by omega) hzero, rfl⟩
    rw [if_pos hi, hdifference]
    rfl
  · have hend : s.i.toNat = len := by
      have hle : n.toNat ≤ s.i.toNat := Nat.not_lt.mp hi
      omega
    exact .inr ⟨s.result, if_neg hi, hend ▸ hs.reports⟩

/-- A loop by blocks leaves less than a block. -/
theorem blockLoop_spec {cmp : Operands k → Except Fault (BitVec 32)} (hcmp : Compares cmp)
    (hk : 0 < k) (hlen : n.toNat = len) (hn : n.toNat + k < 2 ^ 64) (h : ops.Compared s) :
    ∃ s', blockLoop cmp ops n s = .ok s' ∧ ops.Compared s' ∧ n.toNat < s'.i.toNat + k := by
  refine loop_spec (fun bound s => ops.Compared s ∧ n.toNat - s.i.toNat = bound) _ ?_ ⟨h, rfl⟩
    (by omega)
  rintro bound s ⟨hs, rfl⟩
  have hbound := hs.bound
  have hnext : (s.i + BitVec.ofNat 64 k).toNat = s.i.toNat + k := by
    rw [BitVec.toNat_add, BitVec.toNat_ofNat, Nat.mod_eq_of_lt (a := k) (by omega),
      Nat.mod_eq_of_lt (by omega)]
  have hle : s.i + BitVec.ofNat 64 k ≤ n ↔ s.i.toNat + k ≤ n.toNat := by
    rw [BitVec.le_def, hnext]
  by_cases hi : s.i + BitVec.ofNat 64 k ≤ n
  · have hi' := hle.mp hi
    obtain ⟨operands, hblock, hagree⟩ := ops.block_spec (hi'.trans_eq hlen)
    obtain ⟨difference, hdifference, hzero⟩ := hcmp operands
    refine .inl ⟨⟨s.i + BitVec.ofNat 64 k, s.result ||| difference⟩,
      n.toNat - (s.i + BitVec.ofNat 64 k).toNat, by omega, ?_,
      hs.extend hnext (by omega) (hzero.trans hagree), rfl⟩
    rw [if_pos hi, hblock, ok_bind, hdifference]
    rfl
  · exact .inr ⟨s, if_neg hi, hs, Nat.not_le.mp (mt hle.mpr hi)⟩

end Loops

/-- `__sk_memcmp_mask_scalar` compares all bytes. -/
theorem skMemcmpMaskScalar_spec (ops : Operands len) {n : BitVec 64} (hlen : n.toNat = len) :
    ∃ result, skMemcmpMaskScalar ops n = .ok result ∧ (result = 0 ↔ ops.Agree) := by
  obtain ⟨result, hresult, hreports⟩ := scalarLoop_spec hlen ops.compared_start
  exact ⟨result, hresult, hreports.trans Operands.agree_iff.symm⟩

/-- The last 16 bytes begin no later than what was compared ends. -/
theorem lastBlock_spec {cmp : Operands 16 → Except Fault (BitVec 32)} (hcmp : Compares cmp)
    {ops : Operands len} {n : BitVec 64} {s : Progress} (hlen : n.toNat = len)
    (h : ops.Compared s) (hn : 16 ≤ n.toNat) (hs : n.toNat < s.i.toNat + 16) :
    ∃ operands difference, ops.block 16 (n - 16) = .ok operands ∧
      cmp operands = .ok difference ∧ Reports ops.AgreesAt len (s.result ||| difference) := by
  have hstart : (n - 16).toNat = n.toNat - 16 := BitVec.toNat_sub_of_le hn
  obtain ⟨operands, hblock, hagree⟩ := ops.block_spec (i := n - 16) (k := 16) (by omega)
  obtain ⟨difference, hdifference, hzero⟩ := hcmp operands
  have hend : (n - 16).toNat + 16 = len := by omega
  rw [hend] at hagree
  exact ⟨operands, difference, hblock, hdifference,
    h.reports.extend (by omega) h.bound (hzero.trans hagree)⟩

section Agreement

variable {skMemcmpMask16B : Operands 16 → Except Fault (BitVec 32)}
  {skMemcmpMask32B : Operands 32 → Except Fault (BitVec 32)}
  {skMemcmpMask64B : Operands 64 → Except Fault (BitVec 32)}

/-- `__sk_memcmp_mask` compares all bytes, by blocks as far as it can. -/
theorem skMemcmpMask_spec (h16 : Compares skMemcmpMask16B) (h32 : Compares skMemcmpMask32B)
    (h64 : Compares skMemcmpMask64B) (ops : Operands len) {n : BitVec 64} (hlen : n.toNat = len)
    (hn : n.toNat + 64 < 2 ^ 64) :
    ∃ result, skMemcmpMask skMemcmpMask16B skMemcmpMask32B skMemcmpMask64B ops n = .ok result ∧
      (result = 0 ↔ ops.Agree) := by
  obtain ⟨s₁, hloop₁, hs₁, -⟩ := blockLoop_spec h64 (by decide) hlen hn ops.compared_start
  obtain ⟨s₂, hloop₂, hs₂, -⟩ := blockLoop_spec h32 (by decide) hlen (by omega) hs₁
  obtain ⟨s₃, hloop₃, hs₃, hrest⟩ := blockLoop_spec h16 (by decide) hlen (by omega) hs₂
  simp only [skMemcmpMask, hloop₁, hloop₂, hloop₃, ok_bind]
  rw [Operands.agree_iff]
  by_cases hi : s₃.i < n
  · rw [if_pos hi]
    by_cases h16n : n ≥ 16
    · obtain ⟨operands, difference, hblock, hcmp, hreports⟩ :=
        lastBlock_spec h16 hlen hs₃ h16n hrest
      rw [if_pos h16n, hblock, ok_bind, hcmp]
      exact ⟨_, rfl, hreports⟩
    · rw [if_neg h16n]
      exact scalarLoop_spec hlen hs₃
  · have hend : s₃.i.toNat = len := le_antisymm hs₃.bound (hlen ▸ Nat.not_lt.mp hi)
    rw [if_neg hi]
    exact ⟨_, rfl, hend ▸ hs₃.reports⟩

/-- The vectorised comparison and the scalar one return on all buffers of `n` bytes, without
an access outside of them, and both return zero exactly when the buffers agree. -/
theorem skMemcmpMask_agrees_scalar (h16 : Compares skMemcmpMask16B)
    (h32 : Compares skMemcmpMask32B) (h64 : Compares skMemcmpMask64B) (n : BitVec 64)
    (hn : n.toNat < 2 ^ 64 - 64) (ops : Operands n.toNat) :
    ∃ result scalar,
      skMemcmpMask skMemcmpMask16B skMemcmpMask32B skMemcmpMask64B ops n = .ok result ∧
      skMemcmpMaskScalar ops n = .ok scalar ∧
      (result = 0 ↔ scalar = 0) ∧ (result = 0 ↔ ops.Agree) := by
  obtain ⟨result, hresult, hzero⟩ := skMemcmpMask_spec h16 h32 h64 ops rfl (by omega)
  obtain ⟨scalar, hscalar, hzero'⟩ := skMemcmpMaskScalar_spec ops rfl
  exact ⟨result, scalar, hresult, hscalar, hzero.trans hzero'.symm, hzero⟩

end Agreement

/-- Twenty bytes that differ in the last one: one block and the overlapping end. -/
def lastByteDiffers : Operands 20 where
  src1 _ := 0
  src2 j := if j = 19 then 0x80 else 0
  byteMask _ := 0xff

/-- Twenty bytes, of which the last differs. -/
theorem skMemcmpMask_agrees_scalar_twenty : ∃ result scalar,
    skMemcmpMask skMemcmpMask16BScalar skMemcmpMask32BScalar skMemcmpMask64BScalar
      lastByteDiffers 20 = .ok result ∧
    skMemcmpMaskScalar lastByteDiffers 20 = .ok scalar ∧ result ≠ 0 ∧ scalar ≠ 0 := by
  have h16 : Compares skMemcmpMask16BScalar := fun ops => skMemcmpMaskScalar_spec ops rfl
  have h32 : Compares skMemcmpMask32BScalar := fun ops => skMemcmpMaskScalar_spec ops rfl
  have h64 : Compares skMemcmpMask64BScalar := fun ops => skMemcmpMaskScalar_spec ops rfl
  obtain ⟨result, scalar, hresult, hscalar, hzero, hagree⟩ :=
    skMemcmpMask_agrees_scalar h16 h32 h64 20 (by decide) lastByteDiffers
  have hdiffers : result ≠ 0 := by
    rw [Ne, hagree]
    intro h
    exact absurd (h (19 : Fin 20)) (by decide)
  exact ⟨result, scalar, hresult, hscalar, hdiffers, mt hzero.mpr hdiffers⟩

end MemcmpMask

end MacKernel.FlowSwitch
