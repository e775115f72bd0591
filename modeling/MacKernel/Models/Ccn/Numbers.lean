import Mathlib.Data.Nat.Bitwise
import MacKernel.Core.Simulation
import MacKernel.Models.Ccn.Native

/-!
# Number vectors as numbers

A family of vectors of any lengths holds natural numbers. Every run of the inline
functions computes with them as numbers, modulo a power of two where the length of the
destination says so, when the functions that are called do what `ccn.h` says of them.
-/

namespace MacKernel.Ccn

section Contracts

/-- Nothing was written outside a vector. -/
def SameOutside (m m' : Units) (r n : Nat) : Prop := ∀ a, a < r ∨ r + n ≤ a → m' a = m a

/-- A source begins where the destination begins, or is apart from it. -/
def Compatible (r n s k : Nat) : Prop := s = r ∨ r + n ≤ s ∨ s + k ≤ r

/-- What a subtraction borrows. -/
def borrow (a b : Nat) : Nat := if a < b then 1 else 0

/-- What `ccn.h` says of the functions that the inline functions call. -/
structure Library.Lawful (lib : Library) : Prop where
  add : ∀ m n r s t, Compatible r n s n → Compatible r n t n →
    SameOutside m (lib.add m n r s t).1 r n ∧
      limbs (lib.add m n r s t).1 r n + 2 ^ (64 * n) * (lib.add m n r s t).2.toNat =
        limbs m s n + limbs m t n
  add1 : ∀ m n r s (v : CcUnit), Compatible r n s n → v.toNat ≤ 1 →
    SameOutside m (lib.add1 m n r s v).1 r n ∧
      limbs (lib.add1 m n r s v).1 r n + 2 ^ (64 * n) * (lib.add1 m n r s v).2.toNat =
        limbs m s n + v.toNat
  sub : ∀ m n r s t, Compatible r n s n → Compatible r n t n →
    SameOutside m (lib.sub m n r s t).1 r n ∧
      (lib.sub m n r s t).2.toNat = borrow (limbs m s n) (limbs m t n) ∧
      limbs (lib.sub m n r s t).1 r n + limbs m t n =
        limbs m s n + 2 ^ (64 * n) * borrow (limbs m s n) (limbs m t n)
  sub1 : ∀ m n r s (v : CcUnit), Compatible r n s n → v.toNat ≤ 1 →
    SameOutside m (lib.sub1 m n r s v).1 r n ∧
      (lib.sub1 m n r s v).2.toNat = borrow (limbs m s n) v.toNat ∧
      limbs (lib.sub1 m n r s v).1 r n + v.toNat =
        limbs m s n + 2 ^ (64 * n) * borrow (limbs m s n) v.toNat
  cmp : ∀ m n s t, lib.cmp m n s t =
    if limbs m s n < limbs m t n then -1 else if limbs m t n < limbs m s n then 1 else 0
  set : ∀ m n r s, Compatible r n s n →
    SameOutside m (lib.set m n r s) r n ∧ limbs (lib.set m n r s) r n = limbs m s n
  clear : ∀ m n r, SameOutside m (lib.clear m (8 * n) r) r n ∧
    limbs (lib.clear m (8 * n) r) r n = 0

variable {m m' m'' : Units} {r n s k a b : Nat}

/-- Two changes of one vector. -/
theorem SameOutside.trans (h : SameOutside m m' r n) (h' : SameOutside m' m'' r n) :
    SameOutside m m'' r n :=
  fun a ha => (h' a ha).trans (h a ha)

/-- A change of a part is a change of the whole. -/
theorem SameOutside.mono (h : SameOutside m m' a b) (hlo : r ≤ a) (hhi : a + b ≤ r + n) :
    SameOutside m m' r n := by
  intro c hc
  exact h c (by omega)

/-- A vector outside is not changed. -/
theorem SameOutside.limbs_eq (h : SameOutside m m' r n) (hs : s + k ≤ r ∨ r + n ≤ s) :
    limbs m' s k = limbs m s k := by
  apply limbs_congr
  intro i hi
  exact h _ (by omega)

/-- Parts of compatible vectors are compatible. -/
theorem Compatible.mono (h : Compatible r n s k) (ha : a ≤ n) (hb : b ≤ k) :
    Compatible r a s b := by
  unfold Compatible at h ⊢
  omega

/-- A store into a unit changes its vector only. -/
theorem sameOutside_update {i : Nat} (hi : i < n) (x : CcUnit) :
    SameOutside m (Function.update m (r + i) x) r n := by
  intro a ha
  exact Function.update_of_ne (by omega) _ _

/-- A borrow is 0 or 1. -/
theorem borrow_le_one (a b : Nat) : borrow a b ≤ 1 := by
  unfold borrow
  split <;> omega

/-- A borrow is determined by the difference. -/
theorem eq_borrow {x a b c d : Nat} (hc : c ≤ 1) (hx : x < d) (h : x + b = a + d * c) :
    c = borrow a b := by
  unfold borrow
  have hcases : c = 0 ∨ c = 1 := by omega
  rcases hcases with rfl | rfl
  · rw [if_neg (by omega)]
  · rw [if_pos (by omega)]

/-- A difference, as it is reduced. -/
theorem eq_sub_mod {x a b d : Nat} (hx : x < d) (h : x + b = a + d * borrow a b) :
    x = (a + d - b) % d := by
  unfold borrow at h
  split at h
  · have hsub : a + d - b = x := by omega
    rw [hsub, Nat.mod_eq_of_lt hx]
  · have hsub : a + d - b = x + d := by omega
    rw [hsub, Nat.add_mod_right, Nat.mod_eq_of_lt hx]

end Contracts

section Functions

variable {lib : Library} (hlib : lib.Lawful) {m : Units} {n r s nt t : Nat}
include hlib

/-- A sum of vectors, in two parts. -/
theorem ccnAddn_spec (hle : nt ≤ n) (hs : Compatible r n s n) (ht : Compatible r n t nt) :
    ∃ m' c, ccnAddn lib m n r s nt t = .ok (m', c) ∧ SameOutside m m' r n ∧
      limbs m' r n + 2 ^ (64 * n) * c.toNat = limbs m s n + limbs m t nt := by
  obtain ⟨k, rfl⟩ := Nat.exists_eq_add_of_le hle
  have hlow := hlib.add m nt r s t (hs.mono hle hle) (ht.mono hle le_rfl)
  rcases hadd : lib.add m nt r s t with ⟨m₁, c₁⟩
  rw [hadd] at hlow
  obtain ⟨hsame₁, hsum₁⟩ := hlow
  have hcarry : c₁.toNat ≤ 1 := by
    have hslt := limbs_lt m s nt
    have htlt := limbs_lt m t nt
    by_contra hc
    have hmul : 2 ^ (64 * nt) * 2 ≤ 2 ^ (64 * nt) * c₁.toNat := Nat.mul_le_mul_left _ (by omega)
    dsimp only at hsum₁
    omega
  have hupper : limbs m₁ (s + nt) k = limbs m (s + nt) k := by
    apply hsame₁.limbs_eq
    unfold Compatible at hs
    omega
  have hhigh := hlib.add1 m₁ k (r + nt) (s + nt) c₁ (by unfold Compatible at hs ⊢; omega) hcarry
  rcases hadd1 : lib.add1 m₁ k (r + nt) (s + nt) c₁ with ⟨m₂, c₂⟩
  rw [hadd1, hupper] at hhigh
  obtain ⟨hsame₂, hsum₂⟩ := hhigh
  have hlower : limbs m₂ r nt = limbs m₁ r nt := hsame₂.limbs_eq (.inl le_rfl)
  refine ⟨m₂, c₂, ?_, (hsame₁.mono le_rfl (by omega)).trans (hsame₂.mono (by omega) (by omega)), ?_⟩
  · rw [ccnAddn, kassert_of hle, ok_bind, hadd, Nat.add_sub_cancel_left]
    exact congrArg Except.ok hadd1
  · dsimp only at hsum₁ hsum₂
    rw [limbs_add, limbs_add, hlower, Nat.mul_add, Nat.pow_add]
    calc limbs m₁ r nt + 2 ^ (64 * nt) * limbs m₂ (r + nt) k +
          2 ^ (64 * nt) * 2 ^ (64 * k) * c₂.toNat
        = limbs m₁ r nt + 2 ^ (64 * nt) *
            (limbs m₂ (r + nt) k + 2 ^ (64 * k) * c₂.toNat) := by ring
      _ = (limbs m₁ r nt + 2 ^ (64 * nt) * c₁.toNat) +
            2 ^ (64 * nt) * limbs m (s + nt) k := by rw [hsum₂]; ring
      _ = limbs m s nt + 2 ^ (64 * nt) * limbs m (s + nt) k + limbs m t nt := by
        rw [hsum₁]; ring

/-- A difference of vectors, in two parts. -/
theorem ccnSubn_spec (hle : nt ≤ n) (hs : Compatible r n s n) (ht : Compatible r n t nt) :
    ∃ m' c, ccnSubn lib m n r s nt t = .ok (m', c) ∧ SameOutside m m' r n ∧
      c.toNat = borrow (limbs m s n) (limbs m t nt) ∧
      limbs m' r n + limbs m t nt =
        limbs m s n + 2 ^ (64 * n) * borrow (limbs m s n) (limbs m t nt) := by
  obtain ⟨k, rfl⟩ := Nat.exists_eq_add_of_le hle
  have hlow := hlib.sub m nt r s t (hs.mono hle hle) (ht.mono hle le_rfl)
  rcases hsub : lib.sub m nt r s t with ⟨m₁, c₁⟩
  rw [hsub] at hlow
  obtain ⟨hsame₁, hc₁, hdiff₁⟩ := hlow
  have hle₁ : c₁.toNat ≤ 1 := hc₁ ▸ borrow_le_one _ _
  have hupper : limbs m₁ (s + nt) k = limbs m (s + nt) k := by
    apply hsame₁.limbs_eq
    unfold Compatible at hs
    omega
  have hhigh := hlib.sub1 m₁ k (r + nt) (s + nt) c₁ (by unfold Compatible at hs ⊢; omega) hle₁
  rcases hsub1 : lib.sub1 m₁ k (r + nt) (s + nt) c₁ with ⟨m₂, c₂⟩
  rw [hsub1, hupper] at hhigh
  obtain ⟨hsame₂, hc₂, hdiff₂⟩ := hhigh
  have hlower : limbs m₂ r nt = limbs m₁ r nt := hsame₂.limbs_eq (.inl le_rfl)
  have hdiff : limbs m₂ r (nt + k) + limbs m t nt =
      limbs m s (nt + k) + 2 ^ (64 * (nt + k)) * c₂.toNat := by
    dsimp only at hc₁ hc₂ hdiff₁ hdiff₂
    rw [← hc₁] at hdiff₁
    rw [← hc₂] at hdiff₂
    rw [limbs_add, limbs_add, hlower, Nat.mul_add, Nat.pow_add]
    calc limbs m₁ r nt + 2 ^ (64 * nt) * limbs m₂ (r + nt) k + limbs m t nt
        = (limbs m₁ r nt + limbs m t nt) + 2 ^ (64 * nt) * limbs m₂ (r + nt) k := by ring
      _ = limbs m s nt + 2 ^ (64 * nt) * (limbs m₂ (r + nt) k + c₁.toNat) := by
        rw [hdiff₁]; ring
      _ = limbs m s nt + 2 ^ (64 * nt) * limbs m (s + nt) k +
            2 ^ (64 * nt) * 2 ^ (64 * k) * c₂.toNat := by rw [hdiff₂]; ring
  have hc : c₂.toNat = borrow (limbs m s (nt + k)) (limbs m t nt) :=
    eq_borrow (hc₂ ▸ borrow_le_one _ _) (limbs_lt m₂ r (nt + k)) hdiff
  refine ⟨m₂, c₂, ?_, (hsame₁.mono le_rfl (by omega)).trans (hsame₂.mono (by omega) (by omega)),
    hc, ?_⟩
  · rw [ccnSubn, kassert_of hle, ok_bind, hsub, Nat.add_sub_cancel_left]
    exact congrArg Except.ok hsub1
  · rw [← hc]
    exact hdiff

/-- `ccn_zero` stores the number 0. -/
theorem ccnZero_spec (m : Units) (n r : Nat) :
    SameOutside m (ccnZero lib m n r) r n ∧ limbs (ccnZero lib m n r) r n = 0 :=
  hlib.clear m n r

/-- A vector of one unit, padded with zeros. -/
theorem ccnSeti_spec (m : Units) (hn : 0 < n) (r : Nat) (v : CcUnit) :
    SameOutside m (ccnSeti lib m n r v) r n ∧ limbs (ccnSeti lib m n r v) r n = v.toNat := by
  obtain ⟨k, rfl⟩ := Nat.exists_eq_add_of_le' hn
  obtain ⟨hsame, hzero⟩ := ccnZero_spec hlib (Function.update m r v) k (r + 1)
  have hfirst : ccnZero lib (Function.update m r v) k (r + 1) r = v := by
    rw [hsame r (.inl (Nat.lt_succ_self r)), Function.update_self]
  rw [ccnSeti, Nat.add_sub_cancel]
  refine ⟨(sameOutside_update (Nat.succ_pos k) v).trans (hsame.mono (by omega) (by omega)), ?_⟩
  rw [limbs, hzero, hfirst]
  rfl

/-- A vector, padded with zeros. -/
theorem ccnSetn_spec (m : Units) (hle : nt ≤ n) (hs : Compatible r n s nt) :
    SameOutside m (ccnSetn lib m n r nt s) r n ∧
      limbs (ccnSetn lib m n r nt s) r n = limbs m s nt := by
  obtain ⟨k, rfl⟩ := Nat.exists_eq_add_of_le hle
  obtain ⟨hsame₁, hset⟩ := hlib.set m nt r s (hs.mono hle le_rfl)
  obtain ⟨hsame₂, hzero⟩ := ccnZero_spec hlib (lib.set m nt r s) k (r + nt)
  rw [ccnSetn, Nat.add_sub_cancel_left]
  refine ⟨(hsame₁.mono le_rfl (by omega)).trans (hsame₂.mono (by omega) (by omega)), ?_⟩
  rw [limbs_add, hzero, hsame₂.limbs_eq (.inl le_rfl), hset]
  rfl

omit hlib

/-- Every word is combined before its own place or a later one is written. -/
theorem ccnXor_spec (m : Units) (hs : Compatible r n s n) (ht : Compatible r n t n) :
    SameOutside m (ccnXor m n r s t) r n ∧
      ∀ i < n, ccnXor m n r s t (r + i) = m (s + i) ^^^ m (t + i) := by
  induction n generalizing m with
  | zero => exact ⟨fun _ _ => rfl, fun i hi => absurd hi (Nat.not_lt_zero i)⟩
  | succ n ih =>
    obtain ⟨hsame, hword⟩ := ih (Function.update m (r + n) (m (s + n) ^^^ m (t + n)))
      (hs.mono (Nat.le_succ n) (Nat.le_succ n)) (ht.mono (Nat.le_succ n) (Nat.le_succ n))
    refine ⟨(sameOutside_update (Nat.lt_succ_self n) _).trans
      (hsame.mono le_rfl (Nat.le_succ _)), fun i hi => ?_⟩
    rw [ccnXor]
    rcases Nat.lt_or_eq_of_le (Nat.le_of_lt_succ hi) with hlt | rfl
    · rw [hword i hlt, Function.update_of_ne (by unfold Compatible at hs; omega),
        Function.update_of_ne (by unfold Compatible at ht; omega)]
    · rw [hsame _ (.inr le_rfl), Function.update_self]

/-- A shifted one has one bit. -/
private theorem getLsbD_one_shiftLeft {i : Nat} (hi : i < 64) (j : Nat) :
    ((1 : CcUnit) <<< i).getLsbD j = decide (i = j) := by
  have h : (1 : CcUnit) <<< i = BitVec.twoPow 64 i := rfl
  rw [h, BitVec.getLsbD_twoPow, decide_eq_true hi, Bool.true_and]

/-- Where a bit of a vector is. -/
private theorem bit_place (k : Nat) : k &&& 63 = k % 64 ∧ k >>> 6 = k / 64 :=
  ⟨Nat.and_two_pow_sub_one_eq_mod k 6, Nat.shiftRight_eq_div_pow k 6⟩

/-- A bit of the number. -/
theorem ccnBit_spec (m : Units) {k : Nat} (hk : k < 64 * n) :
    (ccnBit m r k).toNat = ((limbs m r n).testBit k).toNat := by
  obtain ⟨hand, hshift⟩ := bit_place k
  have hone : BitVec.toNat (1 : CcUnit) = 1 := rfl
  rw [testBit_limbs (by decide), decide_eq_true hk, Bool.true_and, ccnBit, hand, hshift,
    BitVec.toNat_and, BitVec.toNat_ushiftRight, hone, BitVec.getLsbD, Nat.testBit,
    Nat.one_and_eq_mod_two]
  rcases Nat.mod_two_eq_zero_or_one ((m (r + k / 64)).toNat >>> (k % 64)) with h | h
  · rw [h]
    rfl
  · rw [h]
    rfl

/-- A bit that is set or cleared. -/
theorem ccnSetBit_spec (m : Units) {k : Nat} (hk : k < 64 * n) (v : Bool) :
    SameOutside m (ccnSetBit m r k v) r n ∧
      limbs (ccnSetBit m r k v) r n =
        if v then limbs m r n ||| 2 ^ k else (limbs m r n ||| 2 ^ k) ^^^ 2 ^ k := by
  obtain ⟨hand, hshift⟩ := bit_place k
  have hi : k / 64 < n := Nat.div_lt_of_lt_mul hk
  have hmod : k % 64 < 64 := Nat.mod_lt _ (by decide)
  have hout : ∀ j, ¬j / 64 = k / 64 → decide (k = j) = false := by
    rintro j hj
    exact decide_eq_false fun h => hj (congrArg (· / 64) h.symm)
  have hbit : ∀ j, j / 64 = k / 64 →
      ((1 : CcUnit) <<< (k % 64)).getLsbD (j % 64) = decide (k = j) ∧ j < 64 * n := by
    intro j hj
    rw [getLsbD_one_shiftLeft hmod]
    exact ⟨decide_eq_decide.mpr (by omega), by omega⟩
  unfold ccnSetBit
  rw [hand, hshift]
  constructor
  · split <;> exact sameOutside_update hi _
  · apply Nat.eq_of_testBit_eq
    intro j
    cases v with
    | true =>
      rw [if_pos rfl, if_pos rfl, testBit_limbs_update (by decide), Nat.testBit_or,
        Nat.testBit_two_pow]
      split
      · next hj =>
        obtain ⟨hone, hlt⟩ := hbit j hj
        rw [testBit_limbs (by decide), hj, BitVec.getLsbD_or, hone, decide_eq_true hlt,
          Bool.true_and, Bool.true_and]
      · next hj => rw [hout j hj, Bool.or_false]
    | false =>
      rw [if_neg Bool.false_ne_true, if_neg Bool.false_ne_true, testBit_limbs_update (by decide),
        Nat.testBit_xor, Nat.testBit_or, Nat.testBit_two_pow]
      split
      · next hj =>
        obtain ⟨hone, hlt⟩ := hbit j hj
        rw [testBit_limbs (by decide), hj, BitVec.getLsbD_and, BitVec.getLsbD_not, hone,
          decide_eq_true hlt, decide_eq_true (Nat.mod_lt j (by decide)), Bool.true_and,
          Bool.true_and, Bool.true_and]
        cases decide (k = j) <;> cases (m (r + k / 64)).getLsbD (j % 64) <;> rfl
      · next hj => rw [hout j hj, Bool.or_false, Bool.xor_false]

end Functions

end MacKernel.Ccn
