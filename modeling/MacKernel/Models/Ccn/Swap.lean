import Mathlib.Data.List.Range
import Mathlib.Data.Nat.Digits.Defs
import Mathlib.Tactic.IntervalCases
import MacKernel.Models.Ccn.Numbers

/-!
# Byte order of number vectors

`ccn_swap` reverses the bytes of a vector in place, from both ends. What was the number
in the order of the machine is then the number in big endian, and a second swap is back.
-/

namespace MacKernel.Ccn

section Bytes

variable {n : Nat}

/-- The bytes of a disjunction. -/
theorem byteAt_or (x y : BitVec n) (i : Nat) :
    byteAt (x ||| y) i = byteAt x i ||| byteAt y i := by
  apply UInt8.toBitVec_inj.mp
  exact BitVec.extractLsb'_or

/-- The bytes of a conjunction. -/
theorem byteAt_and (x y : BitVec n) (i : Nat) :
    byteAt (x &&& y) i = byteAt x i &&& byteAt y i := by
  apply UInt8.toBitVec_inj.mp
  exact BitVec.extractLsb'_and

/-- A shift by whole bytes to the right. -/
theorem byteAt_ushiftRight (x : BitVec n) (k i : Nat) :
    byteAt (x >>> (8 * k)) i = byteAt x (i + k) := by
  apply UInt8.toBitVec_inj.mp
  apply BitVec.eq_of_getLsbD_eq
  intro j hj
  rw [getLsbD_byteAt, getLsbD_byteAt, BitVec.getLsbD_ushiftRight, Nat.mul_add]
  congr 2
  omega

/-- A shift by whole bytes to the left. -/
theorem byteAt_shiftLeft (x : BitVec n) (k : Nat) {i : Nat} (hi : 8 * i + 8 ≤ n) :
    byteAt (x <<< (8 * k)) i = if i < k then 0 else byteAt x (i - k) := by
  apply UInt8.toBitVec_inj.mp
  apply BitVec.eq_of_getLsbD_eq
  intro j hj
  have hin : 8 * i + j < n := by omega
  rw [getLsbD_byteAt, BitVec.getLsbD_shiftLeft, decide_eq_true hj, decide_eq_true hin]
  split
  · next h =>
    have hlow : 8 * i + j < 8 * k := by omega
    rw [decide_eq_true hlow]
    simp
  · next h =>
    have hhigh : ¬8 * i + j < 8 * k := by omega
    have hsub : 8 * i + j - 8 * k = 8 * (i - k) + j := by omega
    rw [decide_eq_false hhigh, getLsbD_byteAt, decide_eq_true hj, hsub]
    rfl

/-- Behind the last byte of a word there are zeros. -/
theorem byteAt_of_le (x : BitVec n) {i : Nat} (hi : n ≤ 8 * i) : byteAt x i = 0 := by
  apply UInt8.toBitVec_inj.mp
  apply BitVec.eq_of_getLsbD_eq
  intro j hj
  rw [getLsbD_byteAt, BitVec.getLsbD_of_ge x _ (by omega), Bool.and_false]
  exact BitVec.getLsbD_zero.symm

/-- The mask of one byte. -/
def MasksByte (mask : CcUnit) (k : Nat) : Prop := ∀ j < 8, byteAt mask j = if j = k then 255 else 0

instance (mask : CcUnit) (k : Nat) : Decidable (MasksByte mask k) :=
  inferInstanceAs (Decidable (∀ j < 8, _))

variable {mask : CcUnit} {k i : Nat}

/-- A mask of one byte leaves that byte. -/
theorem MasksByte.byteAt_and (h : MasksByte mask k) (hk : k < 8) (x : CcUnit) (j : Nat) :
    byteAt (x &&& mask) j = if j = k then byteAt x k else 0 := by
  by_cases hj : j < 8
  · rw [Ccn.byteAt_and, h j hj]
    split
    · next heq =>
      subst heq
      exact UInt8.and_neg_one
    · exact UInt8.and_zero
  · rw [byteAt_of_le _ (by omega), if_neg (by omega)]

/-- One byte, moved down. -/
theorem MasksByte.right (h : MasksByte mask k) (hk : k < 8) (x : CcUnit) {d : Nat} (hd : d ≤ k) :
    byteAt ((x &&& mask) >>> (8 * d)) i = if i = k - d then byteAt x k else 0 := by
  have hplace : i + d = k ↔ i = k - d := by omega
  rw [byteAt_ushiftRight, h.byteAt_and hk]
  simp only [hplace]

/-- One byte, moved up. -/
theorem MasksByte.left (h : MasksByte mask k) (hk : k < 8) (x : CcUnit) (d : Nat) (hi : i < 8) :
    byteAt ((x &&& mask) <<< (8 * d)) i = if i = k + d then byteAt x k else 0 := by
  rw [byteAt_shiftLeft _ _ (by omega), h.byteAt_and hk]
  split
  · rw [if_neg (by omega)]
  · have hplace : i - d = k ↔ i = k + d := by omega
    simp only [hplace]

/-- A unit with its bytes in the other order. -/
theorem byteAt_ccSwapHostBig64 (x : CcUnit) (hi : i < 8) :
    byteAt (ccSwapHostBig64 x) i = byteAt x (7 - i) := by
  have h0 : byteAt ((x &&& 0x00000000000000ff) <<< 56) i = if i = 7 then byteAt x 0 else 0 :=
    MasksByte.left (by decide +kernel) (by decide) x 7 hi
  have h1 : byteAt ((x &&& 0x000000000000ff00) <<< 40) i = if i = 6 then byteAt x 1 else 0 :=
    MasksByte.left (by decide +kernel) (by decide) x 5 hi
  have h2 : byteAt ((x &&& 0x0000000000ff0000) <<< 24) i = if i = 5 then byteAt x 2 else 0 :=
    MasksByte.left (by decide +kernel) (by decide) x 3 hi
  have h3 : byteAt ((x &&& 0x00000000ff000000) <<< 8) i = if i = 4 then byteAt x 3 else 0 :=
    MasksByte.left (by decide +kernel) (by decide) x 1 hi
  have h4 : byteAt ((x &&& 0x000000ff00000000) >>> 8) i = if i = 3 then byteAt x 4 else 0 :=
    @MasksByte.right _ 4 _ (by decide +kernel) (by decide) x 1 (by decide)
  have h5 : byteAt ((x &&& 0x0000ff0000000000) >>> 24) i = if i = 2 then byteAt x 5 else 0 :=
    @MasksByte.right _ 5 _ (by decide +kernel) (by decide) x 3 (by decide)
  have h6 : byteAt ((x &&& 0x00ff000000000000) >>> 40) i = if i = 1 then byteAt x 6 else 0 :=
    @MasksByte.right _ 6 _ (by decide +kernel) (by decide) x 5 (by decide)
  have h7 : byteAt ((x &&& 0xff00000000000000) >>> 56) i = if i = 0 then byteAt x 7 else 0 :=
    @MasksByte.right _ 7 _ (by decide +kernel) (by decide) x 7 (by decide)
  rw [ccSwapHostBig64, byteAt_or, byteAt_or, byteAt_or, byteAt_or, byteAt_or, byteAt_or,
    byteAt_or, h0, h1, h2, h3, h4, h5, h6, h7]
  interval_cases i <;> simp

/-- `CC_SWAP_HOST_BIG_64` reverses the bytes of a unit. -/
theorem bytesOf_ccSwapHostBig64 (x : CcUnit) :
    bytesOf (ccSwapHostBig64 x) = (bytesOf x).reverse := by
  have hlen : (bytesOf (ccSwapHostBig64 x)).length = (bytesOf x).reverse.length := by
    rw [List.length_reverse, length_bytesOf, length_bytesOf]
  apply List.ext_getElem hlen
  intro j hj _
  have hj : j < 8 := by rwa [length_bytesOf] at hj
  rw [List.getElem_reverse]
  simp only [bytesOf, List.getElem_map, List.getElem_range, List.length_map, List.length_range]
  exact byteAt_ccSwapHostBig64 x hj

/-- Swapped twice, a unit is as it was. -/
theorem ccSwapHostBig64_ccSwapHostBig64 (x : CcUnit) :
    ccSwapHostBig64 (ccSwapHostBig64 x) = x := by
  apply (bytesOf_inj (by decide)).mp
  rw [bytesOf_ccSwapHostBig64, bytesOf_ccSwapHostBig64, List.reverse_reverse]

end Bytes

section Swapping

variable {m : Units} {n r : Nat}

/-- A memory in which the units of a vector are swapped from both ends, up to `j`. -/
structure SwappedTo (m m' : Units) (r n j : Nat) : Prop where
  same : SameOutside m m' r n
  unit : ∀ i < n, m' (r + i) =
    if i < j ∨ n ≤ i + j then ccSwapHostBig64 (m (r + (n - 1 - i))) else m (r + i)

/-- The state after `j` passes of the loop. -/
structure SwapState.At (m : Units) (r n j : Nat) (s : SwapState) : Prop where
  r_eq : s.r = r + j
  e_eq : s.e = r + n - 1 - j
  half : 2 * j ≤ n
  mem : SwappedTo m s.mem r n j

/-- Before the first pass nothing is swapped. -/
theorem swappedTo_zero (m : Units) (r n : Nat) : SwappedTo m m r n 0 := by
  refine ⟨fun _ _ => rfl, fun i hi => ?_⟩
  rw [if_neg (by omega)]

/-- The loop starts at both ends. -/
theorem swapState_at_zero (m : Units) (r n : Nat) : SwapState.At m r n 0 ⟨r, r + n - 1, m⟩ :=
  ⟨rfl, rfl, Nat.zero_le n, swappedTo_zero m r n⟩

/-- A pass of the loop swaps the next two units. -/
theorem SwapState.At.pass {s : SwapState} {j : Nat} (h : s.At m r n j) (hlt : s.r < s.e) :
    ∃ s', swapBody s = .ok (.inl s') ∧ s'.At m r n (j + 1) := by
  have hr := h.r_eq
  have he := h.e_eq
  have hi : j < n ∧ n - 1 - j < n ∧ j < n - 1 - j := by omega
  have hfirst := h.mem.unit j hi.1
  have hlast := h.mem.unit (n - 1 - j) hi.2.1
  have hre : r + (n - 1 - j) = s.e := by omega
  rw [if_neg (by omega), ← hr] at hfirst
  rw [if_neg (by omega), hre] at hlast
  refine ⟨_, if_pos hlt, ?_⟩
  constructor
  case r_eq => simp only [hr, Nat.add_assoc]
  case e_eq => simp only [he]; omega
  case half => omega
  case mem =>
    refine ⟨?_, fun i hin => ?_⟩
    · intro a ha
      dsimp only
      rw [Function.update_of_ne (by omega), Function.update_of_ne (by omega), h.mem.same a ha]
    · dsimp only
      by_cases hilast : i = n - 1 - j
      · subst hilast
        have hback : n - 1 - (n - 1 - j) = j := by omega
        rw [hre, Function.update_self, hfirst, if_pos (by omega), hback, hr]
      · rw [Function.update_of_ne (by omega)]
        by_cases hifirst : i = j
        · subst hifirst
          rw [← hr, Function.update_self, hlast, if_pos (by omega), hre]
        · rw [Function.update_of_ne (by omega), h.mem.unit i hin]
          have hiff : (i < j + 1 ∨ n ≤ i + (j + 1)) ↔ (i < j ∨ n ≤ i + j) := by omega
          simp only [hiff]

/-- The units are reversed, each with its bytes in the other order. -/
theorem ccnSwap_spec (m : Units) (n r : Nat) {fuel : Nat} (hfuel : n < fuel) :
    ∃ m', ccnSwap fuel m n r = .ok m' ∧ SameOutside m m' r n ∧
      ∀ i < n, m' (r + i) = ccSwapHostBig64 (m (r + (n - 1 - i))) := by
  obtain ⟨s, hloop, j, hs, hge⟩ := loop_spec
    (fun bound (s : SwapState) => ∃ j, s.At m r n j ∧ bound = n - j)
    (fun s : SwapState => ∃ j, s.At m r n j ∧ ¬s.r < s.e)
    (fun bound s ⟨j, hs, hbound⟩ => by
      by_cases hlt : s.r < s.e
      · obtain ⟨s', hbody, hs'⟩ := hs.pass hlt
        have hr := hs.r_eq
        have he := hs.e_eq
        exact .inl ⟨s', n - (j + 1), by omega, hbody, j + 1, hs', rfl⟩
      · exact .inr ⟨s, if_neg hlt, j, hs, hlt⟩)
    ⟨0, swapState_at_zero m r n, rfl⟩ (by omega)
  have hr := hs.r_eq
  have he := hs.e_eq
  have hhalf := hs.half
  have hand : n &&& 1 = n % 2 := Nat.and_one_is_mod n
  rw [ccnSwap, hloop, ok_bind, hand]
  by_cases hodd : n % 2 = 1
  · -- the unit in the middle is left
    have hmid : n - 1 - j = j := by omega
    refine ⟨_, if_pos hodd, ?_, fun i hi => ?_⟩
    · intro a ha
      rw [Function.update_of_ne (by omega), hs.mem.same a ha]
    · have hunit := hs.mem.unit i hi
      by_cases hij : i = j
      · subst hij
        rw [if_neg (by omega), ← hr] at hunit
        rw [← hr, Function.update_self, hunit, hmid, hr]
      · rw [if_pos (by omega)] at hunit
        rw [Function.update_of_ne (by omega), hunit]
  · refine ⟨_, if_neg hodd, hs.mem.same, fun i hi => ?_⟩
    have hunit := hs.mem.unit i hi
    rwa [if_pos (by omega)] at hunit

end Swapping

section Order

/-- The bytes of a vector, in the order of their addresses. -/
def vectorBytes (m : Units) (r n : Nat) : List UInt8 :=
  (List.range n).flatMap fun i => bytesOf (m (r + i))

/-- A byte string read in big endian. -/
def bigEndian (bytes : List UInt8) : Nat := bytes.foldl (fun x b => 256 * x + b.toNat) 0

/-- The last byte of a big-endian number weighs least. -/
theorem bigEndian_append_singleton (bytes : List UInt8) (b : UInt8) :
    bigEndian (bytes ++ [b]) = 256 * bigEndian bytes + b.toNat := by
  rw [bigEndian, List.foldl_append]
  rfl

/-- A byte string with its least significant bytes first, in two parts. -/
theorem bigEndian_reverse_append (low high : List UInt8) :
    bigEndian (low ++ high).reverse =
      bigEndian low.reverse + 256 ^ low.length * bigEndian high.reverse := by
  induction low with
  | nil => simp [bigEndian]
  | cons b low ih =>
    rw [List.cons_append, List.reverse_cons, List.reverse_cons, bigEndian_append_singleton,
      bigEndian_append_singleton, ih, List.length_cons, Nat.pow_succ]
    ring

/-- The first bytes of a unit. -/
theorem bigEndian_bytes (x : CcUnit) (k : Nat) :
    bigEndian ((List.range k).map (byteAt x)).reverse = x.toNat % 256 ^ k := by
  induction k with
  | zero => simp [bigEndian, Nat.mod_one]
  | succ k ih =>
    have hbyte : (byteAt x k).toNat = x.toNat / 256 ^ k % 256 := by
      have hpow : 256 ^ k = 2 ^ (8 * k) := by rw [Nat.pow_mul]
      rw [hpow, ← Nat.shiftRight_eq_div_pow]
      rfl
    have hsingle : bigEndian ([byteAt x k] : List UInt8).reverse = (byteAt x k).toNat :=
      Nat.zero_add _
    rw [List.range_succ, List.map_append, bigEndian_reverse_append, ih, List.length_map,
      List.length_range, Nat.pow_succ, Nat.mod_mul, ← hbyte, ← hsingle]
    rfl

/-- The bytes of a unit in reverse are its big-endian form. -/
theorem bigEndian_bytesOf (x : CcUnit) : bigEndian (bytesOf x).reverse = x.toNat := by
  rw [bytesOf, bigEndian_bytes]
  exact Nat.mod_eq_of_lt x.isLt

/-- The bytes of a vector begin with those of its first unit. -/
theorem vectorBytes_succ (m : Units) (r n : Nat) :
    vectorBytes m r (n + 1) = bytesOf (m r) ++ vectorBytes m (r + 1) n := by
  rw [vectorBytes, List.range_succ_eq_map, List.flatMap_cons, List.flatMap_map]
  congr 1
  apply List.flatMap_congr
  intro i _
  rw [Nat.succ_eq_add_one, Nat.add_assoc, Nat.add_comm 1]

/-- The bytes of a vector from the last to the first are its number in big endian. -/
theorem bigEndian_vectorBytes (m : Units) (r n : Nat) :
    bigEndian (vectorBytes m r n).reverse = limbs m r n := by
  induction n generalizing r with
  | zero => rfl
  | succ n ih =>
    have hpow : 256 ^ (64 / 8) = 2 ^ 64 := by norm_num
    rw [vectorBytes_succ, bigEndian_reverse_append, bigEndian_bytesOf, ih, length_bytesOf, limbs,
      hpow]

/-- Units in the other order, each with its bytes in the other order. -/
theorem vectorBytes_reverse {m m' : Units} {r n : Nat}
    (h : ∀ i < n, m' (r + i) = ccSwapHostBig64 (m (r + (n - 1 - i)))) :
    vectorBytes m' r n = (vectorBytes m r n).reverse := by
  rw [vectorBytes, vectorBytes, List.reverse_flatMap, List.range_eq_range', List.reverse_range',
    List.flatMap_map]
  rw [← List.range_eq_range']
  apply List.flatMap_congr
  intro i hi
  have hi : i < n := List.mem_range.mp hi
  have hplace : r + (0 + n - 1 - i) = r + (n - 1 - i) := by rw [Nat.zero_add]
  rw [h i hi, bytesOf_ccSwapHostBig64, Function.comp_apply, hplace]

/-- A swap returns with the bytes of the vector reversed and the rest of the memory as it was;
the vector read in big endian is then the number that it held, and a second swap is back. -/
theorem ccn_swap_big_endian (m : Units) (n r : Nat) {fuel : Nat} (hfuel : n < fuel) :
    ∃ m', ccnSwap fuel m n r = .ok m' ∧ vectorBytes m' r n = (vectorBytes m r n).reverse ∧
      SameOutside m m' r n ∧ bigEndian (vectorBytes m' r n) = limbs m r n ∧
      ccnSwap fuel m' n r = .ok m := by
  obtain ⟨m', hswap, hsame, hunit⟩ := ccnSwap_spec m n r hfuel
  obtain ⟨m'', hback, hsame', hunit'⟩ := ccnSwap_spec m' n r hfuel
  have hreverse := vectorBytes_reverse hunit
  refine ⟨m', hswap, hreverse, hsame, ?_, ?_⟩
  · rw [hreverse, bigEndian_vectorBytes]
  · have hsecond : m'' = m := by
      funext a
      by_cases ha : a < r ∨ r + n ≤ a
      · exact (hsame' a ha).trans (hsame a ha)
      · obtain ⟨i, rfl⟩ := Nat.exists_eq_add_of_le (Nat.le_of_not_lt fun h => ha (.inl h))
        have hi : i < n := by omega
        have htwice : n - 1 - (n - 1 - i) = i := by omega
        rw [hunit' i hi, hunit (n - 1 - i) (by omega), htwice, ccSwapHostBig64_ccSwapHostBig64]
    rw [hback, hsecond]

/-- Three units, the middle one of which is swapped alone. -/
theorem ccn_swap_big_endian_three : ∃ m', ccnSwap 4 (fun i => BitVec.ofNat 64 i) 3 7 = .ok m' ∧
    bigEndian (vectorBytes m' 7 3) = 7 + 2 ^ 64 * 8 + 2 ^ 128 * 9 := by
  obtain ⟨m', hswap, -, -, hval, -⟩ :=
    ccn_swap_big_endian (fun i => BitVec.ofNat 64 i) 3 7 (by decide : 3 < 4)
  exact ⟨m', hswap, hval.trans (by decide +kernel)⟩

end Order

end MacKernel.Ccn
