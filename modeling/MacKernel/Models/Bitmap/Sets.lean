import MacKernel.Core.Simulation
import MacKernel.Models.Bitmap.Members
import Mathlib.Data.Finset.Basic
import Mathlib.Data.Finset.Range

/-!
# Bitmaps as finite sets

Every operation changes the bits of a bitmap as the operation on sets prescribes, so
a run of operations leaves the set that the run describes, and the iterations visit
its members in order.
-/

namespace MacKernel.Bitmap

section Sets

/-- The operations on sets of numbers below `nbits`. -/
def Op.apply (nbits : BitVec 32) (s : Finset Nat) : Op → Finset Nat
  | .zero => ∅
  | .full => Finset.range nbits.toNat
  | .set n | .atomicSet n => insert n.toNat s
  | .clear n | .atomicClear n => s.erase n.toNat
  | .test _ => s

/-- What an operation says about the set before it. -/
def Op.result (s : Finset Nat) : Op → Option Bool
  | .test n | .atomicSet n | .atomicClear n => some (decide (n.toNat ∈ s))
  | .zero | .full | .set _ | .clear _ => none

/-- The indices of an operation are below `nbits`. -/
def Op.InRange (nbits : BitVec 32) : Op → Prop
  | .zero | .full => True
  | .set n | .clear n | .test n | .atomicSet n | .atomicClear n => n < nbits

/-- `bitmap_full` fills whole words. -/
def Op.WholeWords (nbits : BitVec 32) : Op → Prop
  | .full => nbits.toNat % 64 = 0
  | _ => True

/-- The set model. -/
def spec (nbits : BitVec 32) : Spec (Finset Nat) Op (Option Bool) where
  pre _ op := op.InRange nbits ∧ op.WholeWords nbits
  apply s op := op.apply nbits s
  result s op := op.result s

/-- Operations on one bit. -/
def Op.Single : Op → Prop
  | .zero | .full => False
  | .set _ | .clear _ | .test _ | .atomicSet _ | .atomicClear _ => True

/-- Iterate `bitmap_first` and `bitmap_next`, up to a result of -1. -/
def descending (map : Map) (nbits : BitVec 32) : Except Fault (List Int) := do
  visit (-1) (fun i => bitmapNext map (BitVec.ofInt 32 i)) (nbits.toNat + 1)
    (← bitmapFirst map nbits)

/-- Iterate `bitmap_lsb_first` and `bitmap_lsb_next`, up to a result of -1. -/
def ascending (map : Map) (nbits : BitVec 32) : Except Fault (List Int) := do
  visit (-1) (fun i => bitmapLsbNext map nbits (BitVec.ofInt 32 i)) (nbits.toNat + 1)
    (← bitmapLsbFirst map nbits)

end Sets

section Effects

variable {map : Map} {nbits : BitVec 32}

/-- What an operation leaves of bit `k`. -/
def Op.bitAfter (nbits : BitVec 32) (k : Nat) (old : Bool) : Op → Bool
  | .zero => false
  | .full => decide (k < 64 * words nbits)
  | .set n | .atomicSet n => if k = n.toNat then true else old
  | .clear n | .atomicClear n => if k = n.toNat then false else old
  | .test _ => old

/-- What an operation returns. -/
def Op.out (bits : Nat → Bool) : Op → Option Bool
  | .test n | .atomicSet n | .atomicClear n => some (bits n.toNat)
  | .zero | .full | .set _ | .clear _ => none

/-- Every 64 bits, begun or full, take a word. -/
theorem words_eq (hpos : 0 < nbits.toNat) : words nbits = (nbits.toNat - 1) / 64 + 1 := by
  rw [words, toNat_pred hpos]

/-- The length is that of the searches, unless it wraps. -/
private theorem toNat_bitmapLen (hpos : 0 < nbits.toNat) (hle : nbits.toNat ≤ 2 ^ 32 - 64) :
    (bitmapLen nbits).toNat = words nbits := by
  rw [words_eq hpos, bitmapLen, BitVec.toNat_ushiftRight, BitVec.toNat_add,
    Nat.shiftRight_eq_div_pow]
  simp only [BitVec.ofNat_eq_ofNat, BitVec.toNat_ofNat]
  omega

/-- The size is that of the words. -/
theorem bitmapSize_eq (hpos : 0 < nbits.toNat) (hle : nbits.toNat ≤ 2 ^ 32 - 64) :
    bitmapSize nbits = 8 * words nbits := by
  have hlen := toNat_bitmapLen hpos hle
  rw [bitmapSize, BitVec.toNat_shiftLeft, hlen, Nat.shiftLeft_eq]
  rw [words_eq hpos] at hlen ⊢
  omega

/-- `memset` of the whole bitmap, with a byte whose bits are all the same. -/
theorem memset_spec (hpos : 0 < nbits.toNat) (hle : nbits.toNat ≤ 2 ^ 32 - 64)
    (hlen : map.length = words nbits) {c : BitVec 8} {v : Bool} (hc : ∀ b < 8, c.getLsbD b = v) :
    ∃ map', map.memset c (bitmapSize nbits) = .ok map' ∧ map'.length = words nbits ∧
      ∀ k, map'.member k = (decide (k < 64 * words nbits) && v) := by
  refine ⟨List.replicate (words nbits) (c.replicate 8), ?_, List.length_replicate, fun k => ?_⟩
  · rw [bitmapSize_eq hpos hle, Map.memset, if_pos (by omega),
      Nat.mul_div_cancel_left _ (by omega), List.drop_of_length_le (by omega), List.append_nil]
  · unfold Map.member
    by_cases hk : k < 64 * words nbits
    · rw [List.getD_replicate _ (by omega), BitVec.getLsbD_replicate,
        hc _ (Nat.mod_lt _ (by omega)), decide_eq_true hk,
        decide_eq_true (Nat.mod_lt k (by omega : 8 * 8 > 0))]
    · rw [List.getD_eq_default _ _ (by rw [List.length_replicate]; omega), decide_eq_false hk]
      exact BitVec.getLsbD_zero

/-- A bit of the bitmap is in one of its words. -/
theorem Op.index_lt {n : BitVec 32} (h : n < nbits) (hlen : map.length = words nbits) :
    n.toNat / 64 < map.length := by
  have hn : n.toNat < nbits.toNat := BitVec.lt_def.mp h
  rw [hlen, words_eq (Nat.zero_lt_of_lt hn)]
  omega

/-- Store a word in which bit `n` is set. -/
theorem write_set {n : BitVec 32} (hn : n < nbits) (hlen : map.length = words nbits) :
    ∃ map', map.write (n.toNat / 64) (map.getD (n.toNat / 64) 0 ||| bit (n.toNat % 64)) =
        .ok map' ∧ map'.length = words nbits ∧
      ∀ k, map'.member k = if k = n.toNat then true else map.member k := by
  have hi := Op.index_lt hn hlen
  refine ⟨_, Map.write_of_lt hi _, by rwa [List.length_set], Map.member_set hi fun b hb => ?_⟩
  rw [BitVec.getLsbD_or, getLsbD_bit]
  by_cases hbn : b = n.toNat % 64
  · simp [hbn, Nat.mod_lt]
  · simp [hbn]

/-- Store a word in which bit `n` is cleared. -/
theorem write_clear {n : BitVec 32} (hn : n < nbits) (hlen : map.length = words nbits) :
    ∃ map', map.write (n.toNat / 64) (map.getD (n.toNat / 64) 0 &&& ~~~bit (n.toNat % 64)) =
        .ok map' ∧ map'.length = words nbits ∧
      ∀ k, map'.member k = if k = n.toNat then false else map.member k := by
  have hi := Op.index_lt hn hlen
  refine ⟨_, Map.write_of_lt hi _, by rwa [List.length_set], Map.member_set hi fun b hb => ?_⟩
  rw [BitVec.getLsbD_and, BitVec.getLsbD_not, getLsbD_bit]
  by_cases hbn : b = n.toNat % 64
  · simp [hbn, Nat.mod_lt]
  · simp [hbn, hb]

/-- The bit that the test looks at. -/
theorem bitTest_word (map : Map) (n : Nat) :
    bitTest (map.getD (n / 64) 0) (n % 64) = map.member n :=
  bitTest_eq _ (Nat.mod_lt n (by omega))

/-- Every operation returns, with the effect described. -/
theorem step_spec (hpos : 0 < nbits.toNat) (hle : nbits.toNat ≤ 2 ^ 32 - 64)
    (hlen : map.length = words nbits) {op : Op} (hop : op.InRange nbits) :
    ∃ map', step nbits map op = .ok (map', op.out map.member) ∧ map'.length = words nbits ∧
      ∀ k, map'.member k = op.bitAfter nbits k (map.member k) := by
  cases op with
  | zero =>
    obtain ⟨map', hset, hlen', hmember⟩ := memset_spec hpos hle hlen (c := 0) (v := false)
      fun b _ => BitVec.getLsbD_zero
    refine ⟨map', ?_, hlen', fun k => ?_⟩
    · rw [step, bitmapZero, hset]
      rfl
    · rw [hmember, Bool.and_false]
      rfl
  | full =>
    have hones : ∀ b < 8, (~~~0 : BitVec 8).getLsbD b = true := by
      intro b hb
      rw [BitVec.getLsbD_not, decide_eq_true hb]
      exact congrArg not BitVec.getLsbD_zero
    obtain ⟨map', hset, hlen', hmember⟩ := memset_spec hpos hle hlen hones
    refine ⟨map', ?_, hlen', fun k => ?_⟩
    · rw [step, bitmapFull, hset]
      rfl
    · rw [hmember, Bool.and_true]
      rfl
  | set n =>
    obtain ⟨map', hwrite, hlen', hmember⟩ := write_set hop hlen
    refine ⟨map', ?_, hlen', hmember⟩
    rw [step, bitmapSet, toNat_bits_index, bitmapBit_eq, Map.read_of_lt (Op.index_lt hop hlen),
      ok_bind, bitSet, hwrite]
    rfl
  | clear n =>
    obtain ⟨map', hwrite, hlen', hmember⟩ := write_clear hop hlen
    refine ⟨map', ?_, hlen', hmember⟩
    rw [step, bitmapClear, toNat_bits_index, bitmapBit_eq, Map.read_of_lt (Op.index_lt hop hlen),
      ok_bind, bitClear, hwrite]
    rfl
  | test n =>
    refine ⟨map, ?_, hlen, fun k => rfl⟩
    rw [step, bitmapTest, toNat_bits_index, bitmapBit_eq, Map.read_of_lt (Op.index_lt hop hlen),
      ok_bind, bitTest_word]
    rfl
  | atomicSet n =>
    obtain ⟨map', hwrite, hlen', hmember⟩ := write_set hop hlen
    refine ⟨map', ?_, hlen', hmember⟩
    rw [step, atomicBitmapSet, toNat_bits_index, bitmapBit_eq,
      Map.read_of_lt (Op.index_lt hop hlen), ok_bind, hwrite, ok_bind, bitTest_word]
    rfl
  | atomicClear n =>
    obtain ⟨map', hwrite, hlen', hmember⟩ := write_clear hop hlen
    refine ⟨map', ?_, hlen', hmember⟩
    rw [step, atomicBitmapClear, toNat_bits_index, bitmapBit_eq,
      Map.read_of_lt (Op.index_lt hop hlen), ok_bind, hwrite, ok_bind, bitTest_word]
    rfl

end Effects

section Runs

variable {map map' : Map} {nbits : BitVec 32} {s : Finset Nat} {ops : List Op}

/-- A bitmap with the bits of a set of numbers below `nbits`. -/
structure Represents (nbits : BitVec 32) (map : Map) (s : Finset Nat) : Prop where
  length : map.length = words nbits
  member : ∀ k, map.member k = decide (k ∈ s)
  lt : ∀ k ∈ s, k < nbits.toNat

/-- A call on one bit needs no whole words. -/
theorem Op.Single.wholeWords {op : Op} (h : op.Single) : op.WholeWords nbits := by
  cases op with
  | full => exact h.elim
  | _ => trivial

/-- A call returns what it returns of the set. -/
theorem Represents.out_eq (h : Represents nbits map s) (op : Op) :
    op.out map.member = op.result s := by
  cases op <;> simp [Op.out, Op.result, h.member]

/-- After a call the bits are those of the new set. -/
theorem Represents.bitAfter_eq (h : Represents nbits map s) (hpos : 0 < nbits.toNat) {op : Op}
    (hfull : op.WholeWords nbits) (k : Nat) :
    op.bitAfter nbits k (map.member k) = decide (k ∈ op.apply nbits s) := by
  rw [h.member]
  cases op with
  | zero => simp [Op.bitAfter, Op.apply]
  | full =>
    have hend : 64 * words nbits = nbits.toNat := by
      have hmod : nbits.toNat % 64 = 0 := hfull
      rw [words_eq hpos]
      omega
    simp [Op.bitAfter, Op.apply, hend]
  | test n => rfl
  | set n | atomicSet n =>
    by_cases hk : k = n.toNat
    · simp [Op.bitAfter, Op.apply, hk]
    · simp [Op.bitAfter, Op.apply, hk]
  | clear n | atomicClear n =>
    by_cases hk : k = n.toNat
    · simp [Op.bitAfter, Op.apply, hk]
    · simp [Op.bitAfter, Op.apply, hk]

/-- A call in range leaves a set in range. -/
theorem Op.apply_lt {op : Op} (hop : op.InRange nbits) (hs : ∀ k ∈ s, k < nbits.toNat) :
    ∀ k ∈ op.apply nbits s, k < nbits.toNat := by
  intro k hk
  cases op with
  | zero => exact absurd hk (Finset.notMem_empty k)
  | full => exact Finset.mem_range.mp hk
  | test n => exact hs k hk
  | set n | atomicSet n =>
    rcases Finset.mem_insert.mp hk with rfl | hk
    · exact BitVec.lt_def.mp hop
    · exact hs k hk
  | clear n | atomicClear n => exact hs k (Finset.mem_of_mem_erase hk)

/-- Every call on a bitmap is the call on its set. -/
theorem Represents.step (h : Represents nbits map s) (hpos : 0 < nbits.toNat)
    (hle : nbits.toNat ≤ 2 ^ 32 - 64) {op : Op} (hop : op.InRange nbits)
    (hfull : op.WholeWords nbits) : ∃ map', Bitmap.step nbits map op = .ok (map', op.result s) ∧
      Represents nbits map' (op.apply nbits s) := by
  obtain ⟨map', hstep, hlen, hmember⟩ := step_spec hpos hle h.length hop
  rw [h.out_eq op] at hstep
  refine ⟨map', hstep, hlen, fun k => ?_, Op.apply_lt hop h.lt⟩
  rw [hmember, h.bitAfter_eq hpos hfull]

/-- After every run the bitmap has the bits of the set that the run describes. -/
theorem Represents.exec (h : Represents nbits map s) (hpos : 0 < nbits.toNat)
    (hle : nbits.toNat ≤ 2 ^ 32 - 64) (hops : ∀ op ∈ ops, op.InRange nbits)
    (hfull : ∀ op ∈ ops, op.WholeWords nbits) :
    ∃ map', execAll (Bitmap.step nbits) map ops = .ok (map', (spec nbits).results s ops) ∧
      Represents nbits map' ((spec nbits).applyAll s ops) := by
  have hadm : (spec nbits).Admissible s ops :=
    (spec nbits).admissible_of_forall (fun op hop _ => ⟨hops op hop, hfull op hop⟩) s
  apply execAll_refines (spec nbits) (Represents nbits) _ h hadm
  intro map s op hmap hpre
  exact hmap.step hpos hle hpre.1 hpre.2

/-- A bitmap of zeros is the empty set. -/
theorem represents_zeroed (hpos : 0 < nbits.toNat) (hle : nbits.toNat ≤ 2 ^ 32 - 64) :
    Represents nbits (zeroed nbits) ∅ where
  length := by rw [zeroed, List.length_replicate, toNat_bitmapLen hpos hle]
  member k := by
    have hword : (zeroed nbits).getD (k / 64) 0 = 0 := by
      unfold zeroed
      rw [List.getD_eq_getElem?_getD, List.getElem?_replicate]
      split_ifs <;> rfl
    rw [Map.member, hword]
    exact BitVec.getLsbD_zero
  lt k hk := absurd hk (Finset.notMem_empty k)

end Runs

end MacKernel.Bitmap
