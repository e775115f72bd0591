import MacKernel.Models.Bitmap.Words
import Mathlib.Data.List.GetD

/-!
# Members of bitmaps

The bits of all words of a bitmap, numbered as the operations number them, and what
the searches find among them.
-/

namespace MacKernel.Bitmap

/-- Bit `k` of a bitmap. -/
def Map.member (map : Map) (k : Nat) : Bool := (map.getD (k / 64) 0).getLsbD (k % 64)

variable {map : Map} {nbits : BitVec 32}

section Accesses

/-- The members of a word are its bits. -/
theorem Map.member_word (map : Map) (i : Nat) {b : Nat} (hb : b < 64) :
    map.member (64 * i + b) = (map.getD i 0).getLsbD b := by
  rw [Map.member, show (64 * i + b) / 64 = i by omega, show (64 * i + b) % 64 = b by omega]

/-- Behind the words there is no member. -/
theorem Map.member_of_le {k : Nat} (h : 64 * map.length ≤ k) : map.member k = false := by
  rw [Map.member, List.getD_eq_default _ _ (by omega)]
  exact BitVec.getLsbD_zero

/-- A word inside the bounds is read. -/
theorem Map.read_of_lt {i : Nat} (h : i < map.length) : map.read i = .ok (map.getD i 0) := by
  rw [Map.read, List.getElem?_eq_getElem h, List.getD_eq_getElem _ _ h]

/-- A word inside the bounds is written. -/
theorem Map.write_of_lt {i : Nat} (h : i < map.length) (word : BitVec 64) :
    map.write i word = .ok (map.set i word) := if_pos h

/-- Store a word in which one bit changes. -/
theorem Map.member_set {n : Nat} (h : n / 64 < map.length) {word : BitVec 64} {v : Bool}
    (hword : ∀ b < 64, word.getLsbD b =
      if b = n % 64 then v else (map.getD (n / 64) 0).getLsbD b) (k : Nat) :
    Map.member (map.set (n / 64) word) k = if k = n then v else map.member k := by
  unfold Map.member
  by_cases hi : k / 64 = n / 64
  · have hget : (map.set (n / 64) word).getD (k / 64) 0 = word := by
      rw [hi, List.getD_eq_getElem _ _ (by rwa [List.length_set]), List.getElem_set_self]
    rw [hget, hword _ (Nat.mod_lt k (by omega)), hi]
    by_cases hk : k = n
    · rw [hk, if_pos rfl, if_pos rfl]
    · rw [if_neg hk, if_neg (by omega)]
  · have hget : (map.set (n / 64) word).getD (k / 64) 0 = map.getD (k / 64) 0 := by
      rw [List.getD_eq_getElem?_getD, List.getD_eq_getElem?_getD, List.getElem?_set_ne (Ne.symm hi)]
    rw [hget, if_neg fun hk => hi (by rw [hk])]

end Accesses

section Searches

/-- One word of a search from the top. -/
theorem wordLast {p : Nat → Bool} {i : Nat} {word : BitVec 64}
    (hp : ∀ b < 64, word.getLsbD b = p (64 * i + b)) :
    ∃ r, IsLast (fun b => p (64 * i + b)) 64 r ∧
      (if word = 0 then return none else return some (int ((i <<< 6 : Nat) + bitFirst word)) :
        Except Fault (Option Int)) = .ok (r.map fun b => intIndex (64 * i + b)) := by
  by_cases hw : word = 0
  · refine ⟨none, ?_, if_pos hw⟩
    intro b hb
    exact (hp b hb).symm.trans (getLsbD_of_eq_zero hw b)
  · obtain ⟨b, hb, hfirst⟩ := bitFirst_isLast hw
    refine ⟨some b, hb.congr hp, ?_⟩
    rw [if_neg hw, hfirst, int_shift]
    rfl

/-- One word of a search from the bottom. -/
theorem wordNext {p : Nat → Bool} {i : Nat} {word : BitVec 64}
    (hp : ∀ b < 64, word.getLsbD b = p (64 * i + b)) :
    ∃ r, IsNext (fun b => p (64 * i + b)) 0 64 r ∧
      (if word = 0 then return none else return some (int ((i <<< 6 : Nat) + lsbFirst word)) :
        Except Fault (Option Int)) = .ok (r.map fun b => intIndex (64 * i + b)) := by
  by_cases hw : word = 0
  · refine ⟨none, ?_, if_pos hw⟩
    intro b _ hb
    exact (hp b hb).symm.trans (getLsbD_of_eq_zero hw b)
  · obtain ⟨b, hb, hfirst⟩ := lsbFirst_isNext hw
    refine ⟨some b, hb.congr hp, ?_⟩
    rw [if_neg hw, hfirst, int_shift]
    rfl

/-- The words below `n`, from the last one down. -/
theorem scanDown_member {n : Nat} (hn : n ≤ map.length) : ∃ r, IsLast map.member (64 * n) r ∧
    scanDown (fun i => do
      let word ← map.read i
      if word = 0 then return none
      else return some (int ((i <<< 6 : Nat) + bitFirst word))) n =
        .ok (r.map intIndex) := by
  apply scanDown_isLast
  intro i hi
  simp only [Map.read_of_lt (hi.trans_le hn), ok_bind]
  exact wordLast fun b hb => (map.member_word i hb).symm

/-- The words from `i` up. -/
theorem scanUp_member (i count : Nat) (hn : i + count ≤ map.length) :
    ∃ r, IsNext map.member (64 * i) (64 * (i + count)) r ∧
      scanUp (fun i => do
        let word ← map.read i
        if word = 0 then return none
        else return some (int ((i <<< 6 : Nat) + lsbFirst word))) i count =
          .ok (r.map intIndex) := by
  apply scanUp_isNext
  intro j _ hj
  simp only [Map.read_of_lt (hj.trans_le hn), ok_bind]
  exact wordNext fun b hb => (map.member_word j hb).symm

/-- The number of words that the searches look at. -/
def words (nbits : BitVec 32) : Nat := (nbits - 1).toNat / 64 + 1

/-- `bitmap_first` finds the last member in the words. -/
theorem bitmapFirst_isLast (hlen : words nbits ≤ map.length) :
    ∃ r, IsLast map.member (64 * words nbits) r ∧ bitmapFirst map nbits = .ok (code r) := by
  obtain ⟨r, hr, hscan⟩ := scanDown_member hlen
  refine ⟨r, hr, ?_⟩
  rw [words, ← toNat_bits_index] at hscan
  rw [bitmapFirst, hscan]
  rfl

/-- `bitmap_lsb_first` finds the first member in the words. -/
theorem bitmapLsbFirst_isNext (hlen : words nbits ≤ map.length) :
    ∃ r, IsNext map.member 0 (64 * words nbits) r ∧
      bitmapLsbFirst map nbits = .ok (code r) := by
  obtain ⟨r, hr, hscan⟩ := scanUp_member 0 (words nbits) (by rwa [Nat.zero_add])
  rw [Nat.mul_zero, Nat.zero_add] at hr
  refine ⟨r, hr, ?_⟩
  rw [words, ← toNat_bits_index] at hscan
  rw [bitmapLsbFirst, hscan]
  rfl

/-- `bitmap_and_not_mask_first` finds the last member outside of the mask. -/
theorem bitmapAndNotMaskFirst_isLast {mask : Map} (hlen : words nbits ≤ map.length)
    (hmask : words nbits ≤ mask.length) :
    ∃ r, IsLast (fun k => map.member k && !mask.member k) (64 * words nbits) r ∧
      bitmapAndNotMaskFirst map mask nbits = .ok (code r) := by
  have hscan : ∃ r, IsLast (fun k => map.member k && !mask.member k) (64 * words nbits) r ∧
      scanDown (fun i => do
        let word ← map.read i
        let maskWord ← mask.read i
        if word &&& ~~~maskWord = 0 then return none
        else return some (int ((i <<< 6 : Nat) + bitFirst (word &&& ~~~maskWord))))
        (words nbits) = .ok (r.map intIndex) := by
    apply scanDown_isLast
    intro i hi
    simp only [Map.read_of_lt (hi.trans_le hlen), Map.read_of_lt (hi.trans_le hmask), ok_bind]
    apply wordLast (p := fun k => map.member k && !mask.member k)
    intro b hb
    rw [BitVec.getLsbD_and, BitVec.getLsbD_not, map.member_word i hb, mask.member_word i hb,
      decide_eq_true hb, Bool.true_and]
  obtain ⟨r, hr, hscan⟩ := hscan
  refine ⟨r, hr, ?_⟩
  rw [words, ← toNat_bits_index] at hscan
  rw [bitmapAndNotMaskFirst, hscan]
  rfl

/-- `bitmap_next` finds the last member before a bit. -/
theorem bitmapNext_isLast {prev : BitVec 32} (hlen : words prev ≤ map.length ∨ prev = 0) :
    ∃ r, IsLast map.member prev.toNat r ∧ bitmapNext map prev = .ok (code r) := by
  by_cases hzero : prev = 0
  · refine ⟨none, ?_, ?_⟩
    · intro i hi
      simp [hzero] at hi
    · rw [bitmapNext, if_pos hzero]
      rfl
  have hlen : words prev ≤ map.length := hlen.resolve_right hzero
  have hpos : 0 < prev.toNat := Nat.pos_of_ne_zero fun h => hzero (BitVec.eq_of_toNat_eq h)
  have hsub : (prev - 1).toNat = prev.toNat - 1 := toNat_pred hpos
  have hi : (prev - 1).toNat / 64 < map.length := hlen
  -- the rest of the word, up to the previous bit
  have hend : 64 * ((prev - 1).toNat / 64) +
      (if prev.toNat % 64 = 0 then 64 else prev.toNat % 64) = prev.toNat := by
    split_ifs <;> omega
  obtain ⟨r, hr, hres⟩ := bitNext_isLast (map.getD ((prev - 1).toNat / 64) 0)
    (Nat.mod_lt prev.toNat (by omega : 64 > 0))
  have hr := hr.congr (q := fun b => map.member (64 * ((prev - 1).toNat / 64) + b)) fun b hb =>
    (map.member_word _ (by split_ifs at hb <;> omega)).symm
  rw [bitmapNext, if_neg hzero]
  simp only [toNat_bits_index, Map.read_of_lt hi, ok_bind, toNat_bits_bit, hres]
  cases r with
  | some b =>
    have hlast := hr.some_block
    rw [hend] at hlast
    refine ⟨_, hlast, ?_⟩
    rw [if_pos (by simp)]
    simp only [Option.map_some, Option.getD_some, Int.add_comm (b : Int), int_shift,
      code_some]
    rfl
  | none =>
    obtain ⟨r, hr', hscan⟩ := scanDown_member hi.le
    refine ⟨r, hr'.extend (by omega) fun k hlo hhi => ?_, ?_⟩
    · exact hr.none_block k hlo (by omega)
    · rw [if_neg (by simp), hscan]
      rfl

/-- `bitmap_lsb_next` finds the first member behind a bit. -/
theorem bitmapLsbNext_isNext {prev : BitVec 32} (hlen : words nbits ≤ map.length)
    (hlt : prev + 1 < nbits) :
    ∃ r, IsNext map.member (prev + 1).toNat (64 * words nbits) r ∧
      bitmapLsbNext map nbits prev = .ok (code r) := by
  have hnat : (prev + 1).toNat < nbits.toNat := BitVec.lt_def.mp hlt
  have hsub : (nbits - 1).toNat = nbits.toNat - 1 := toNat_pred (Nat.zero_lt_of_lt hnat)
  have hle : (prev + 1).toNat / 64 ≤ (nbits - 1).toNat / 64 := Nat.div_le_div_right (by omega)
  have hwords : (prev + 1).toNat / 64 + 1 + ((nbits - 1).toNat / 64 - (prev + 1).toNat / 64) =
      words nbits := by
    unfold words
    omega
  have hi : (prev + 1).toNat / 64 < map.length := by omega
  have hstart : 64 * ((prev + 1).toNat / 64) + (prev + 1).toNat % 64 = (prev + 1).toNat :=
    Nat.div_add_mod _ _
  obtain ⟨r, hr, hres⟩ := lsbNext_isNext (map.getD ((prev + 1).toNat / 64) 0)
    (Nat.mod_lt (prev + 1).toNat (by omega : 64 > 0))
  have hr := hr.congr (q := fun b => map.member (64 * ((prev + 1).toNat / 64) + b)) fun b hb =>
    (map.member_word _ hb).symm
  rw [bitmapLsbNext, if_neg (BitVec.not_le.mpr hlt)]
  simp only [toNat_bits_index, Map.read_of_lt hi, ok_bind, toInt_bits_pred, hres]
  cases r with
  | some b =>
    have hblock : 64 * ((prev + 1).toNat / 64) + 64 ≤ 64 * words nbits := by omega
    have hnext := hr.some_block hblock
    rw [hstart] at hnext
    refine ⟨_, hnext, ?_⟩
    rw [if_pos (by simp)]
    simp only [Option.map_some, Option.getD_some, Int.add_comm (b : Int), int_shift,
      code_some]
    rfl
  | none =>
    obtain ⟨r, hr', hscan⟩ := scanUp_member ((prev + 1).toNat / 64 + 1)
      ((nbits - 1).toNat / 64 - (prev + 1).toNat / 64) (by rwa [hwords])
    rw [hwords] at hr'
    refine ⟨r, hr'.extend (by omega) fun k hlo hhi => ?_, ?_⟩
    · exact hr.none_block k (by omega) (by omega)
    · rw [if_neg (by simp), hscan]
      rfl

end Searches

end MacKernel.Bitmap
