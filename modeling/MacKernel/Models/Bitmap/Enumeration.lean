import MacKernel.Models.Bitmap.Sets

/-!
# Enumeration of bitmaps

The searches find the neighbours of a number in the set that a bitmap represents, so
the iterations visit the members of the set in descending and in ascending order.
-/

namespace MacKernel.Bitmap

variable {map : Map} {nbits : BitVec 32} {s : Finset Nat}

section Indices

/-- A small bit number is returned as it is. -/
theorem intIndex_of_lt {k : Nat} (h : k < 2 ^ 31) : intIndex k = k := by
  unfold intIndex int
  rw [Int.bmod_eq_of_le]
  · omega
  · omega

/-- A small bit number is not taken for the answer that there is none. -/
theorem intIndex_ne_neg_one {k : Nat} (h : k < 2 ^ 31) : intIndex k ≠ -1 := by
  rw [intIndex_of_lt h]
  omega

/-- A small bit number can be given back as an argument. -/
private theorem ofInt_intIndex {k : Nat} (h : k < 2 ^ 31) :
    (BitVec.ofInt 32 (intIndex k)).toNat = k := by
  rw [intIndex_of_lt h, BitVec.ofInt_natCast, BitVec.toNat_ofNat]
  omega

end Indices

section Neighbours

/-- A bitmap has the bits of its set. -/
theorem Represents.member_eq (h : Represents nbits map s) : map.member = fun k => decide (k ∈ s) :=
  funext h.member

/-- No bit behind the last is in the set. -/
theorem Represents.not_mem_of_le (h : Represents nbits map s) {k : Nat} (hk : nbits.toNat ≤ k) :
    decide (k ∈ s) = false :=
  decide_eq_false fun hmem => Nat.not_lt.mpr hk (h.lt k hmem)

/-- The words hold all bits. -/
theorem le_words (hpos : 0 < nbits.toNat) : nbits.toNat ≤ 64 * words nbits := by
  rw [words_eq hpos]
  omega

/-- `bitmap_first` finds the greatest member. -/
theorem Represents.first (h : Represents nbits map s) (hpos : 0 < nbits.toNat) :
    ∃ r, IsLast (fun k => decide (k ∈ s)) nbits.toNat r ∧
      bitmapFirst map nbits = .ok (code r) := by
  obtain ⟨r, hr, hfirst⟩ := bitmapFirst_isLast h.length.ge
  rw [h.member_eq] at hr
  exact ⟨r, hr.shrink (le_words hpos) fun k hk => h.not_mem_of_le hk, hfirst⟩

/-- `bitmap_lsb_first` finds the least member. -/
theorem Represents.lsbFirst (h : Represents nbits map s) (hpos : 0 < nbits.toNat) :
    ∃ r, IsNext (fun k => decide (k ∈ s)) 0 nbits.toNat r ∧
      bitmapLsbFirst map nbits = .ok (code r) := by
  obtain ⟨r, hr, hfirst⟩ := bitmapLsbFirst_isNext h.length.ge
  rw [h.member_eq] at hr
  exact ⟨r, hr.shrink (le_words hpos) fun k hk => h.not_mem_of_le hk, hfirst⟩

/-- `bitmap_next` finds the greatest member below the last one. -/
theorem Represents.next (h : Represents nbits map s) {prev : BitVec 32} (hprev : prev ≤ nbits) :
    ∃ r, IsLast (fun k => decide (k ∈ s)) prev.toNat r ∧
      bitmapNext map prev = .ok (code r) := by
  have hlen : words prev ≤ map.length ∨ prev = 0 := by
    by_cases hzero : prev = 0
    · exact .inr hzero
    · left
      have hle : prev.toNat ≤ nbits.toNat := BitVec.le_def.mp hprev
      have hpos : 0 < prev.toNat := Nat.pos_of_ne_zero fun hz => hzero (BitVec.eq_of_toNat_eq hz)
      rw [h.length, words_eq hpos, words_eq (hpos.trans_le hle)]
      exact Nat.succ_le_succ (Nat.div_le_div_right (by omega))
  obtain ⟨r, hr, hnext⟩ := bitmapNext_isLast hlen
  rw [h.member_eq] at hr
  exact ⟨r, hr, hnext⟩

/-- `bitmap_lsb_next` finds the least member above the last one. -/
theorem Represents.lsbNext (h : Represents nbits map s) (prev : BitVec 32) :
    ∃ r, IsNext (fun k => decide (k ∈ s)) (prev + 1).toNat nbits.toNat r ∧
      bitmapLsbNext map nbits prev = .ok (code r) := by
  by_cases hlt : prev + 1 < nbits
  · obtain ⟨r, hr, hnext⟩ := bitmapLsbNext_isNext h.length.ge hlt
    have hpos : 0 < nbits.toNat := Nat.zero_lt_of_lt (BitVec.lt_def.mp hlt)
    rw [h.member_eq] at hr
    exact ⟨r, hr.shrink (le_words hpos) fun k hk => h.not_mem_of_le hk, hnext⟩
  · have hle : nbits.toNat ≤ (prev + 1).toNat := BitVec.le_def.mp (BitVec.not_lt.mp hlt)
    refine ⟨none, fun k hlo hhi => absurd hhi (by omega), ?_⟩
    rw [bitmapLsbNext, if_pos (BitVec.not_lt.mp hlt)]
    rfl

end Neighbours

section Iterations

/-- Small bit numbers are returned as they are. -/
private theorem map_intIndex {l : List Nat} (h : ∀ k ∈ l, k < 2 ^ 31) :
    l.map intIndex = l.map Nat.cast :=
  List.map_congr_left fun k hk => intIndex_of_lt (h k hk)

/-- The members in descending order, and then -1. -/
theorem Represents.descending (h : Represents nbits map s) (hpos : 0 < nbits.toNat)
    (hsmall : ∀ k ∈ s, k < 2 ^ 31) : Bitmap.descending map nbits =
      .ok (((List.range nbits.toNat).filter (· ∈ s)).reverse.map Nat.cast) := by
  obtain ⟨r, hr, hfirst⟩ := h.first hpos
  rw [Bitmap.descending, hfirst, ok_bind, ← map_intIndex]
  · apply visit_descending (n := nbits.toNat) _ _ le_rfl (Nat.lt_succ_self _) hr
    · intro k _ hk
      exact intIndex_ne_neg_one (hsmall k (of_decide_eq_true hk))
    · intro k hlt hk
      have hindex := ofInt_intIndex (hsmall k (of_decide_eq_true hk))
      have hprev : BitVec.ofInt 32 (intIndex k) ≤ nbits := by
        rw [BitVec.le_def, hindex]
        exact hlt.le
      obtain ⟨r, hr, hnext⟩ := h.next hprev
      rw [hindex] at hr
      exact ⟨r, hr, hnext⟩
  · intro k hk
    exact hsmall k (of_decide_eq_true (List.mem_filter.mp (List.mem_reverse.mp hk)).2)

/-- The members in ascending order, and then -1. -/
theorem Represents.ascending (h : Represents nbits map s) (hpos : 0 < nbits.toNat)
    (hsmall : ∀ k ∈ s, k < 2 ^ 31) : Bitmap.ascending map nbits =
      .ok (((List.range nbits.toNat).filter (· ∈ s)).map Nat.cast) := by
  obtain ⟨r, hr, hfirst⟩ := h.lsbFirst hpos
  rw [Bitmap.ascending, hfirst, ok_bind, ← map_intIndex, List.range_eq_range']
  · apply visit_ascending (n := nbits.toNat) _ _ (Nat.lt_succ_self _) hr
    · intro k _ hk
      exact intIndex_ne_neg_one (hsmall k (of_decide_eq_true hk))
    · intro k hlt hk
      have hk31 := hsmall k (of_decide_eq_true hk)
      have hindex : (BitVec.ofInt 32 (intIndex k) + 1).toNat = k + 1 := by
        rw [BitVec.toNat_add, ofInt_intIndex hk31]
        simp only [BitVec.ofNat_eq_ofNat, BitVec.toNat_ofNat]
        omega
      obtain ⟨r, hr, hnext⟩ := h.lsbNext (BitVec.ofInt 32 (intIndex k))
      rw [hindex] at hr
      exact ⟨r, hr, hnext⟩
  · intro k hk
    exact hsmall k (of_decide_eq_true (List.mem_filter.mp hk).2)

/-- What was found among small bits, or -1. -/
private theorem code_of_lt {r : Option Nat} (h : ∀ k, r = some k → k < 2 ^ 31) :
    code r = (r.map Nat.cast).getD (-1) := by
  cases r with
  | none => rw [code_none, Option.map_none, Option.getD_none]
  | some k =>
    rw [code_some, intIndex_of_lt (h k rfl)]
    rfl

end Iterations

section Refinement

/-- What a bitmap promises after a run of operations. -/
structure Refines (nbits : BitVec 32) (ops : List Op) (map : Map) (outs : List (Option Bool)) :
    Prop where
  /-- Every operation returns what the set model prescribes. -/
  outs_eq : outs = (spec nbits).results ∅ ops
  /-- The bitmap represents the set that the model prescribes. -/
  test : ∀ n < nbits,
    bitmapTest map n = .ok (decide (n.toNat ∈ (spec nbits).applyAll ∅ ops))
  lt : ∀ k ∈ (spec nbits).applyAll ∅ ops, k < nbits.toNat
  /-- The members are visited in descending order. -/
  descending : Bitmap.descending map nbits = .ok
    (((List.range nbits.toNat).filter (· ∈ (spec nbits).applyAll ∅ ops)).reverse.map Nat.cast)
  /-- The members are visited in ascending order. -/
  ascending : Bitmap.ascending map nbits = .ok
    (((List.range nbits.toNat).filter (· ∈ (spec nbits).applyAll ∅ ops)).map Nat.cast)
  /-- The greatest member that is not in a mask. -/
  andNotMask : ∀ mask : Map, mask.length = map.length → ∃ r,
    IsLast (fun k => decide (k ∈ (spec nbits).applyAll ∅ ops) && !mask.member k) nbits.toNat r ∧
      bitmapAndNotMaskFirst map mask nbits = .ok ((r.map Nat.cast).getD (-1))

/-- `bitmap_and_not_mask_first` finds the greatest member outside of the mask. -/
theorem Represents.andNotMask (h : Represents nbits map s) (hpos : 0 < nbits.toNat)
    (hsmall : ∀ k ∈ s, k < 2 ^ 31) {mask : Map} (hmask : mask.length = map.length) :
    ∃ r, IsLast (fun k => decide (k ∈ s) && !mask.member k) nbits.toNat r ∧
      bitmapAndNotMaskFirst map mask nbits = .ok ((r.map Nat.cast).getD (-1)) := by
  obtain ⟨r, hr, hfirst⟩ := bitmapAndNotMaskFirst_isLast h.length.ge (hmask.trans h.length).ge
  simp only [h.member_eq] at hr
  refine ⟨r, hr.shrink (le_words hpos) fun k hk => ?_, ?_⟩
  · rw [h.not_mem_of_le hk, Bool.false_and]
  · rw [hfirst, code_of_lt]
    rintro k rfl
    have hk := hr.2.1
    rw [Bool.and_eq_true, decide_eq_true_eq] at hk
    exact hsmall k hk.1

/-- For every number of bits up to 2^31, after every run of operations on single bits of a zeroed
bitmap, the bitmap is the set that the run describes. -/
theorem refines_of_exec (hpos : 0 < nbits.toNat) (hle : nbits.toNat ≤ 2 ^ 31) (ops : List Op)
    (hsingle : ∀ op ∈ ops, op.Single) (hops : ∀ op ∈ ops, op.InRange nbits) :
    ∃ map outs, execAll (step nbits) (zeroed nbits) ops = .ok (map, outs) ∧
      Refines nbits ops map outs := by
  have hle' : nbits.toNat ≤ 2 ^ 32 - 64 := by omega
  obtain ⟨map, hexec, hmap⟩ := (represents_zeroed hpos hle').exec hpos hle' hops
    fun op hop => (hsingle op hop).wholeWords
  have hsmall : ∀ k ∈ (spec nbits).applyAll ∅ ops, k < 2 ^ 31 :=
    fun k hk => (hmap.lt k hk).trans_le hle
  refine ⟨map, _, hexec, ?_⟩
  constructor
  case outs_eq => rfl
  case test =>
    intro n hn
    rw [bitmapTest, toNat_bits_index, bitmapBit_eq, Map.read_of_lt (Op.index_lt hn hmap.length),
      ok_bind, bitTest_word, hmap.member]
    rfl
  case lt => exact hmap.lt
  case descending => exact hmap.descending hpos hsmall
  case ascending => exact hmap.ascending hpos hsmall
  case andNotMask => exact fun mask hmask => hmap.andNotMask hpos hsmall hmask

/-- Bits on both sides of a word boundary. -/
theorem refines_two_words : ∃ map outs,
    execAll (step 70) (zeroed 70) [.set 63, .atomicSet 64, .set 0, .atomicClear 0, .test 63] =
      .ok (map, outs) ∧
    Refines 70 [.set 63, .atomicSet 64, .set 0, .atomicClear 0, .test 63] map outs := by
  apply refines_of_exec (by decide) (by decide)
  · simp [Op.Single]
  · simp [Op.InRange]

end Refinement

end MacKernel.Bitmap
