import Mathlib.Algebra.Order.BigOperators.Group.Finset
import Mathlib.Data.BitVec
import Mathlib.Data.Fin.VecNotation
import Mathlib.Data.Fintype.BigOperators
import Mathlib.Data.Int.ModEq

/-!
# Incremental checksums of `skywalk/packet`

`__packet_fold_sum` folds a 32-bit sum of 16-bit words to 16 bits, `__packet_fix_sum`
corrects a checksum word for one replaced word, and `__packet_fix_hdr_sum` replaces a
field of two words. A header that verifies, so folds to `0xffff`, verifies again after
the update, as long as the new sum still fits into the 32 bits that are folded.
-/

namespace MacKernel.Packet

open Function

section Native

/-- `__packet_fold_sum`. -/
def packetFoldSum (sum : BitVec 32) : BitVec 16 :=
  let sum := (sum >>> 16) + (sum &&& 0xffff)
  let sum := (sum >>> 16) + (sum &&& 0xffff)
  let sum := (sum >>> 16) + (sum &&& 0xffff)
  (sum &&& 0xffff).setWidth 16

/-- `__packet_fix_sum`. The difference is taken in `int` and stored in 32 bits. -/
def packetFixSum (csum old new : BitVec 16) : BitVec 16 :=
  let c : BitVec 32 := csum.setWidth 32 + old.setWidth 32 - new.setWidth 32
  let c := (c >>> 16) + (c &&& 0xffff)
  (c &&& 0xffff).setWidth 16

variable {n : Nat}

/-- `memcpy(&old, field, 4)`, where the field is the words at `lo` and `hi`. -/
def readField (words : Fin n → BitVec 16) (lo hi : Fin n) : BitVec 32 :=
  words hi ++ words lo

/-- `memcpy(field, &new, 4)`. -/
def writeField (words : Fin n → BitVec 16) (lo hi : Fin n) (new : BitVec 32) :
    Fin n → BitVec 16 :=
  update (update words lo (new.setWidth 16)) hi ((new >>> 16).setWidth 16)

/-- `__packet_fix_hdr_sum`, on the words that the field and the checksum are part of. -/
def packetFixHdrSum (words : Fin n → BitVec 16) (lo hi csum : Fin n) (new : BitVec 32) :
    Fin n → BitVec 16 :=
  let old := readField words lo hi
  let words := writeField words lo hi new
  update words csum (packetFixSum
    (packetFixSum (words csum) ((old >>> 16).setWidth 16) ((new >>> 16).setWidth 16))
    ((old &&& 0xffff).setWidth 16) ((new &&& 0xffff).setWidth 16))

/-- The exact sum of the words. -/
def wordSum (words : Fin n → BitVec 16) : Nat := ∑ i, (words i).toNat

/-- The sum of the words in 32 bits. -/
def wordSum32 (words : Fin n → BitVec 16) : BitVec 32 := BitVec.ofNat 32 (wordSum words)

end Native

section Folding

/-- One fold: the carries are added to the low word. -/
private theorem toNat_fold (x : BitVec 32) :
    ((x >>> 16) + (x &&& 0xffff)).toNat = x.toNat / 65536 + x.toNat % 65536 := by
  have hx := x.isLt
  have hlow : (x &&& 0xffff).toNat = x.toNat % 65536 := by
    rw [BitVec.toNat_and]
    exact Nat.and_two_pow_sub_one_eq_mod x.toNat 16
  rw [BitVec.toNat_add, BitVec.toNat_ushiftRight, Nat.shiftRight_eq_div_pow, hlow,
    Nat.mod_eq_of_lt (by omega)]

/-- The lower half of a word. -/
private theorem toNat_low (x : BitVec 32) :
    ((x &&& 0xffff).setWidth 16).toNat = x.toNat % 65536 := by
  rw [BitVec.toNat_setWidth, BitVec.toNat_and]
  exact congrArg (· % 65536) (Nat.and_two_pow_sub_one_eq_mod x.toNat 16) |>.trans (Nat.mod_mod _ _)

/-- One fold keeps the residue, and only zero folds to zero. -/
theorem fold_spec (x : Nat) : (x / 65536 + x % 65536) % 65535 = x % 65535 ∧
    (x / 65536 + x % 65536 = 0 ↔ x = 0) := by
  omega

/-- Folding keeps the residue, and only zero folds to zero. -/
theorem packetFoldSum_spec (sum : BitVec 32) :
    (packetFoldSum sum).toNat % 65535 = sum.toNat % 65535 ∧
      ((packetFoldSum sum).toNat = 0 ↔ sum.toNat = 0) := by
  have hsum := sum.isLt
  -- 32 bits fold to 17, those to 16 with their carry, and the last fold finds no carry
  obtain ⟨hmod1, hzero1⟩ := fold_spec sum.toNat
  have hle1 : sum.toNat / 65536 + sum.toNat % 65536 ≤ 131070 := by omega
  simp only [packetFoldSum, toNat_low, toNat_fold]
  generalize sum.toNat / 65536 + sum.toNat % 65536 = once at hmod1 hzero1 hle1 ⊢
  obtain ⟨hmod2, hzero2⟩ := fold_spec once
  have hle2 : once / 65536 + once % 65536 ≤ 65535 := by omega
  generalize once / 65536 + once % 65536 = twice at hmod2 hzero2 hle2 ⊢
  have hlast : (twice / 65536 + twice % 65536) % 65536 = twice := by omega
  rw [hlast]
  exact ⟨hmod2.trans hmod1, hzero2.trans hzero1⟩

/-- A sum verifies when it is a multiple of 65535 and not zero. -/
theorem packetFoldSum_eq_iff (sum : BitVec 32) :
    packetFoldSum sum = 0xffff ↔ sum.toNat ≠ 0 ∧ sum.toNat % 65535 = 0 := by
  obtain ⟨hmod, hzero⟩ := packetFoldSum_spec sum
  have hlt := (packetFoldSum sum).isLt
  rw [BitVec.toNat_eq]
  change (packetFoldSum sum).toNat = 65535 ↔ _
  omega

/-- The corrected checksum word: the difference, with 65535 added or taken off when it
leaves 16 bits. -/
theorem toNat_packetFixSum (csum old new : BitVec 16) :
    ((packetFixSum csum old new).toNat : Int) =
      if (csum.toNat : Int) + old.toNat - new.toNat < 0 then
        (csum.toNat : Int) + old.toNat - new.toNat + 65535
      else if 65536 ≤ (csum.toNat : Int) + old.toNat - new.toNat then
        (csum.toNat : Int) + old.toNat - new.toNat - 65535
      else (csum.toNat : Int) + old.toNat - new.toNat := by
  have hc := csum.isLt
  have ho := old.isLt
  have hn := new.isLt
  have hdiff : (csum.setWidth 32 + old.setWidth 32 - new.setWidth 32 : BitVec 32).toNat =
      (csum.toNat + old.toNat + (4294967296 - new.toNat)) % 4294967296 := by
    simp only [BitVec.toNat_sub, BitVec.toNat_add, BitVec.toNat_setWidth, Nat.reducePow]
    omega
  simp only [packetFixSum, toNat_low, toNat_fold, hdiff]
  split
  · omega
  · split <;> omega

/-- A fix replaces the old word by the new one in the sum. -/
theorem packetFixSum_modEq (csum old new : BitVec 16) :
    ((packetFixSum csum old new).toNat : Int) ≡
      csum.toNat + old.toNat - new.toNat [ZMOD 65535] := by
  rw [toNat_packetFixSum, Int.ModEq]
  split
  · omega
  · split <;> omega

end Folding

section Update

variable {n : Nat} {words : Fin n → BitVec 16} {lo hi csum : Fin n}

/-- Replacing one word changes the sum by the difference of the two. -/
theorem wordSum_update (words : Fin n → BitVec 16) (i : Fin n) (word : BitVec 16) :
    wordSum (update words i word) + (words i).toNat = wordSum words + word.toNat := by
  have hrest : ∑ j ∈ Finset.univ.erase i, (update words i word j).toNat =
      ∑ j ∈ Finset.univ.erase i, (words j).toNat := by
    refine Finset.sum_congr rfl fun j hj => ?_
    rw [update_of_ne (Finset.ne_of_mem_erase hj)]
  have hold := Finset.add_sum_erase Finset.univ (fun j => (words j).toNat) (Finset.mem_univ i)
  have hnew := Finset.add_sum_erase Finset.univ (fun j => (update words i word j).toNat)
    (Finset.mem_univ i)
  simp only [update_self, hrest] at hold hnew
  rw [wordSum, wordSum]
  omega

/-- The field as a number: its low word stands first. -/
private theorem toNat_readField (words : Fin n → BitVec 16) (lo hi : Fin n) :
    (readField words lo hi).toNat = 65536 * (words hi).toNat + (words lo).toNat := by
  have hlow := (words lo).isLt
  rw [readField, BitVec.toNat_append, Nat.shiftLeft_eq, Nat.mul_comm,
    ← Nat.two_pow_add_eq_or_of_lt hlow]

/-- The upper word of a field is its second. -/
private theorem readField_high (words : Fin n → BitVec 16) (lo hi : Fin n) :
    (readField words lo hi >>> 16).setWidth 16 = words hi := by
  have hhigh := (words hi).isLt
  have hlow := (words lo).isLt
  apply BitVec.eq_of_toNat_eq
  rw [BitVec.toNat_setWidth, BitVec.toNat_ushiftRight, toNat_readField, Nat.shiftRight_eq_div_pow]
  omega

/-- The lower word of a field is its first. -/
private theorem readField_low (words : Fin n → BitVec 16) (lo hi : Fin n) :
    (readField words lo hi &&& 0xffff).setWidth 16 = words lo := by
  have hlow := (words lo).isLt
  apply BitVec.eq_of_toNat_eq
  rw [toNat_low, toNat_readField]
  omega

/-- Narrowing takes the lower half. -/
private theorem setWidth_eq_low (x : BitVec 32) : x.setWidth 16 = (x &&& 0xffff).setWidth 16 := by
  apply BitVec.eq_of_toNat_eq
  rw [toNat_low, BitVec.toNat_setWidth]

/-- The sum after the update, with the words that leave and enter it. -/
theorem wordSum_packetFixHdrSum (words : Fin n → BitVec 16) (hne : lo ≠ hi) (hlo : csum ≠ lo)
    (hhi : csum ≠ hi) (new : BitVec 32) :
    ∃ first last newLo newHi : BitVec 16,
      newLo = (new &&& 0xffff).setWidth 16 ∧ newHi = (new >>> 16).setWidth 16 ∧
      first = packetFixSum (words csum) (words hi) newHi ∧
      last = packetFixSum first (words lo) newLo ∧
      packetFixHdrSum words lo hi csum new =
        update (update (update words lo newLo) hi newHi) csum last ∧
      wordSum (packetFixHdrSum words lo hi csum new) + (words csum).toNat + (words lo).toNat +
          (words hi).toNat =
        wordSum words + last.toNat + newLo.toNat + newHi.toNat := by
  have hcsum : writeField words lo hi new csum = words csum := by
    rw [writeField, update_of_ne hhi, update_of_ne hlo]
  refine ⟨_, _, _, _, rfl, rfl, rfl, rfl, ?_, ?_⟩ <;>
    rw [packetFixHdrSum] <;> simp only [hcsum, readField_high, readField_low] <;>
    rw [writeField, setWidth_eq_low new]
  have h1 := wordSum_update words lo ((new &&& 0xffff).setWidth 16)
  have h2 := wordSum_update (update words lo ((new &&& 0xffff).setWidth 16)) hi
    ((new >>> 16).setWidth 16)
  have h3 := wordSum_update (update (update words lo ((new &&& 0xffff).setWidth 16)) hi
    ((new >>> 16).setWidth 16)) csum (packetFixSum
      (packetFixSum (words csum) (words hi) ((new >>> 16).setWidth 16)) (words lo)
      ((new &&& 0xffff).setWidth 16))
  rw [update_of_ne hne.symm] at h2
  rw [update_of_ne hhi, update_of_ne hlo] at h3
  omega

/-- A small sum fits its 32 bits. -/
private theorem toNat_wordSum32 (h : wordSum words < 2 ^ 32) :
    (wordSum32 words).toNat = wordSum words := by
  rw [wordSum32, BitVec.toNat_ofNat, Nat.mod_eq_of_lt h]

/-- No word is larger than the sum. -/
private theorem toNat_le_wordSum (words : Fin n → BitVec 16) (i : Fin n) :
    (words i).toNat ≤ wordSum words :=
  Finset.single_le_sum (f := fun j => (words j).toNat) (fun _ _ => Nat.zero_le _)
    (Finset.mem_univ i)

/-- The update cannot lead to the other zero: an all-zero packet comes from one. -/
private theorem wordSum_ne_zero (hne : lo ≠ hi) (hlo : csum ≠ lo) (hhi : csum ≠ hi)
    (new : BitVec 32)
    (h : wordSum words ≠ 0) : wordSum (packetFixHdrSum words lo hi csum new) ≠ 0 := by
  intro hzero
  obtain ⟨first, last, newLo, newHi, -, -, hfirst, hlast, hwords, hsum⟩ :=
    wordSum_packetFixHdrSum words hne hlo hhi new
  have hword (i : Fin n) : (packetFixHdrSum words lo hi csum new i).toNat = 0 :=
    Nat.le_zero.mp (hzero ▸ toNat_le_wordSum _ i)
  have hlast0 := hword csum
  have hlo0 := hword lo
  have hhi0 := hword hi
  rw [hwords, update_self] at hlast0
  rw [hwords, update_of_ne hlo.symm, update_of_ne hne, update_self] at hlo0
  rw [hwords, update_of_ne hhi.symm, update_self] at hhi0
  -- a correction by a zero word is zero only when the checksum and the old word are
  have hfix1 := toNat_packetFixSum (words csum) (words hi) newHi
  have hfix2 := toNat_packetFixSum first (words lo) newLo
  rw [← hfirst, hhi0] at hfix1
  rw [← hlast, hlast0, hlo0] at hfix2
  have hfirst0 : first.toNat = 0 ∧ (words lo).toNat = 0 := by
    split at hfix2
    · omega
    · split at hfix2 <;> omega
  have hcsum0 : (words csum).toNat = 0 ∧ (words hi).toNat = 0 := by
    split at hfix1
    · omega
    · split at hfix1 <;> omega
  omega

/-- The update keeps the residue of the sum. -/
private theorem wordSum_mod (hne : lo ≠ hi) (hlo : csum ≠ lo) (hhi : csum ≠ hi) (new : BitVec 32) :
    wordSum (packetFixHdrSum words lo hi csum new) % 65535 = wordSum words % 65535 := by
  obtain ⟨first, last, newLo, newHi, -, -, hfirst, hlast, -, hsum⟩ :=
    wordSum_packetFixHdrSum words hne hlo hhi new
  have hfix1 := packetFixSum_modEq (words csum) (words hi) newHi
  have hfix2 := packetFixSum_modEq first (words lo) newLo
  rw [← hfirst, Int.ModEq] at hfix1
  rw [← hlast, Int.ModEq] at hfix2
  omega

/-- A header that verifies still verifies after a field was replaced, if neither the sum before
nor the sum after the update leaves 32 bits. In support: a correction is congruent to the
difference, also where that is negative, and folding keeps the residue and gives zero only
for zero. -/
theorem packetFixHdrSum_verifies (words : Fin n → BitVec 16) (lo hi csum : Fin n)
    (hne : lo ≠ hi) (hlo : csum ≠ lo) (hhi : csum ≠ hi) (new : BitVec 32)
    (hbefore : wordSum words < 2 ^ 32)
    (hafter : wordSum (packetFixHdrSum words lo hi csum new) < 2 ^ 32)
    (hverify : packetFoldSum (wordSum32 words) = 0xffff) :
    packetFoldSum (wordSum32 (packetFixHdrSum words lo hi csum new)) = 0xffff ∧
      (∀ csum old new : BitVec 16, ((packetFixSum csum old new).toNat : Int) ≡
        csum.toNat + old.toNat - new.toNat [ZMOD 65535]) ∧
      ∀ sum : BitVec 32, (packetFoldSum sum).toNat % 65535 = sum.toNat % 65535 ∧
        (packetFoldSum sum = 0 → sum = 0) := by
  refine ⟨?_, packetFixSum_modEq, fun sum => ?_⟩
  · rw [packetFoldSum_eq_iff, toNat_wordSum32 hbefore] at hverify
    rw [packetFoldSum_eq_iff, toNat_wordSum32 hafter, wordSum_mod hne hlo hhi]
    exact ⟨wordSum_ne_zero hne hlo hhi new hverify.1, hverify.2⟩
  · obtain ⟨hmod, hzero⟩ := packetFoldSum_spec sum
    refine ⟨hmod, fun hfold => ?_⟩
    apply BitVec.eq_of_toNat_eq
    exact hzero.mp (congrArg BitVec.toNat hfold)

/-- The header `(1, 2, 0xfffc)` verifies; its first two words become `0x0005` and `0x0007`. -/
theorem packetFixHdrSum_verifies_small :
    packetFoldSum (wordSum32 (packetFixHdrSum ![1, 2, 0xfffc] 0 1 2 0x00070005)) = 0xffff :=
  (packetFixHdrSum_verifies ![1, 2, 0xfffc] 0 1 2 (by decide) (by decide) (by decide) 0x00070005
    (by decide) (by decide) (by decide)).1

/-- A field of zeros, a checksum word and 65536 more words, all of them `0xffff`. -/
def crowdedWords : Fin 65539 → BitVec 16 :=
  update (update (fun _ => 0xffff) 1 0) 2 0

/-- The sum of a header of ones with two zero words. -/
private theorem wordSum_ones_but_two {i j : Fin n} (h : j ≠ i) :
    wordSum (update (update (fun _ : Fin n => (0xffff : BitVec 16)) i 0) j 0) =
      (n - 2) * 65535 := by
  have hconst : wordSum (fun _ : Fin n => (0xffff : BitVec 16)) = n * 65535 := by
    rw [wordSum, Finset.sum_const, Finset.card_univ, Fintype.card_fin]
    rfl
  have h1 := wordSum_update (fun _ : Fin n => (0xffff : BitVec 16)) i 0
  have h2 := wordSum_update (update (fun _ : Fin n => (0xffff : BitVec 16)) i 0) j 0
  have hzero : (0 : BitVec 16).toNat = 0 := rfl
  have hones : (0xffff : BitVec 16).toNat = 65535 := rfl
  rw [hconst, hzero, hones] at h1
  rw [update_of_ne h, hzero, hones] at h2
  omega

/-- The header of the counterexample sums up to more than 32 bits. -/
private theorem wordSum_crowdedWords : wordSum crowdedWords = 65537 * 65535 := by
  have hne : (2 : Fin 65539) ≠ 1 := by decide
  exact wordSum_ones_but_two hne

/-- The sum of these words is `2 ^ 32 - 1` and verifies; with the field set to `0xffffffff` it
leaves 32 bits, and what is left does not verify. -/
theorem crowdedWords_not_verified :
    wordSum crowdedWords < 2 ^ 32 ∧ packetFoldSum (wordSum32 crowdedWords) = 0xffff ∧
      packetFoldSum (wordSum32 (packetFixHdrSum crowdedWords 1 2 0 0xffffffff)) ≠ 0xffff := by
  have hsum := wordSum_crowdedWords
  have hlt : wordSum crowdedWords < 2 ^ 32 := by omega
  refine ⟨hlt, ?_, ?_⟩
  · rw [packetFoldSum_eq_iff, toNat_wordSum32 hlt, hsum]
    decide
  · have hne : (1 : Fin 65539) ≠ 2 := by decide
    have hlo : (0 : Fin 65539) ≠ 1 := by decide
    have hhi : (0 : Fin 65539) ≠ 2 := by decide
    have hc0 : crowdedWords 0 = 0xffff := by
      rw [crowdedWords, update_of_ne hhi, update_of_ne hlo]
    have hc1 : crowdedWords 1 = 0 := by rw [crowdedWords, update_of_ne hne, update_self]
    have hc2 : crowdedWords 2 = 0 := by rw [crowdedWords, update_self]
    have hafter : wordSum (packetFixHdrSum crowdedWords 1 2 0 0xffffffff) = 65538 * 65535 := by
      obtain ⟨first, last, newLo, newHi, hnewLo, hnewHi, hfirst, hlast, -, hafter⟩ :=
        wordSum_packetFixHdrSum crowdedWords hne hlo hhi 0xffffffff
      have hnewLo' : newLo = 0xffff := hnewLo.trans (by decide)
      have hnewHi' : newHi = 0xffff := hnewHi.trans (by decide)
      rw [hc0, hc2, hnewHi'] at hfirst
      have hfirst' : first = 0 := hfirst.trans (by decide)
      rw [hfirst', hc1, hnewLo'] at hlast
      have hlast' : last = 0 := hlast.trans (by decide)
      rw [hc0, hc1, hc2, hlast', hnewLo', hnewHi', hsum] at hafter
      have hzero : (0 : BitVec 16).toNat = 0 := rfl
      have hones : (0xffff : BitVec 16).toNat = 65535 := rfl
      omega
    rw [ne_eq, packetFoldSum_eq_iff, wordSum32, hafter]
    decide

end Update

end MacKernel.Packet
