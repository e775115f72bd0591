import MacKernel.Models.Bitmap.Enumeration
import Mathlib.Data.List.Infix

/-!
# Results below the number of bits

`bitmap_full` sets the bits of whole words, also those that are not below `nbits`, and
the searches find them. The results stay below `nbits` exactly as long as a bitmap that
is filled ends at a word boundary and the indices that are set fit an `int`.
-/

namespace MacKernel.Bitmap

variable {map : Map} {nbits : BitVec 32} {s : Finset Nat}

section Bounded

/-- A search returns -1 or an index below `nbits`. -/
def ReturnsBelow (nbits : BitVec 32) (search : Except Fault Int) : Prop :=
  ∃ i, search = .ok i ∧ (i = -1 ∨ 0 ≤ i ∧ i < nbits.toNat)

/-- All searches return -1 or an index below `nbits`, and the iterations visit a set. -/
structure Bounded (nbits : BitVec 32) (map : Map) (s : Finset Nat) : Prop where
  first : ReturnsBelow nbits (bitmapFirst map nbits)
  next : ∀ prev ≤ nbits, ReturnsBelow nbits (bitmapNext map prev)
  lsbFirst : ReturnsBelow nbits (bitmapLsbFirst map nbits)
  lsbNext : ∀ prev, ReturnsBelow nbits (bitmapLsbNext map nbits prev)
  descending : Bitmap.descending map nbits =
    .ok (((List.range nbits.toNat).filter (· ∈ s)).reverse.map Nat.cast)
  ascending : Bitmap.ascending map nbits =
    .ok (((List.range nbits.toNat).filter (· ∈ s)).map Nat.cast)

/-- The step leaves no bit set that the searches cannot return. -/
def Op.Exact (nbits : BitVec 32) : Op → Prop
  | .full => nbits.toNat % 64 = 0 ∧ nbits.toNat ≤ 2 ^ 31
  | .set n | .atomicSet n => n.toNat < 2 ^ 31
  | .zero | .clear _ | .test _ | .atomicClear _ => True

theorem Op.Exact.wholeWords {op : Op} (h : op.Exact nbits) : op.WholeWords nbits := by
  cases op with
  | full => exact h.1
  | _ => trivial

private theorem returnsBelow_code {r : Option Nat}
    (h : ∀ k, r = some k → k < nbits.toNat ∧ k < 2 ^ 31) {search : Except Fault Int}
    (hsearch : search = .ok (code r)) : ReturnsBelow nbits search := by
  refine ⟨_, hsearch, ?_⟩
  cases r with
  | none => exact .inl code_none
  | some k =>
    obtain ⟨hk, hk31⟩ := h k rfl
    right
    rw [code_some, intIndex_of_lt hk31]
    omega

theorem Represents.bounded (h : Represents nbits map s) (hpos : 0 < nbits.toNat)
    (hsmall : ∀ k ∈ s, k < 2 ^ 31) : Bounded nbits map s := by
  have hmem : ∀ k, decide (k ∈ s) = true → k < nbits.toNat ∧ k < 2 ^ 31 :=
    fun k hk => ⟨h.lt k (of_decide_eq_true hk), hsmall k (of_decide_eq_true hk)⟩
  constructor
  case first =>
    obtain ⟨r, hr, hfirst⟩ := h.first hpos
    refine returnsBelow_code ?_ hfirst
    rintro k rfl
    exact hmem k hr.2.1
  case next =>
    intro prev hprev
    obtain ⟨r, hr, hnext⟩ := h.next hprev
    refine returnsBelow_code ?_ hnext
    rintro k rfl
    exact hmem k hr.2.1
  case lsbFirst =>
    obtain ⟨r, hr, hfirst⟩ := h.lsbFirst hpos
    refine returnsBelow_code ?_ hfirst
    rintro k rfl
    exact hmem k hr.2.2.1
  case lsbNext =>
    intro prev
    obtain ⟨r, hr, hnext⟩ := h.lsbNext prev
    refine returnsBelow_code ?_ hnext
    rintro k rfl
    exact hmem k hr.2.2.1
  case descending => exact h.descending hpos hsmall
  case ascending => exact h.ascending hpos hsmall

/-- Exact steps keep the members in the range of `int`. -/
theorem Op.Exact.apply_lt {op : Op} (h : op.Exact nbits) (hs : ∀ k ∈ s, k < 2 ^ 31) :
    ∀ k ∈ op.apply nbits s, k < 2 ^ 31 := by
  intro k hk
  cases op with
  | zero => exact absurd hk (Finset.notMem_empty k)
  | full => exact (Finset.mem_range.mp hk).trans_le h.2
  | test n => exact hs k hk
  | set n | atomicSet n =>
    rcases Finset.mem_insert.mp hk with rfl | hk
    · exact h
    · exact hs k hk
  | clear n | atomicClear n => exact hs k (Finset.mem_of_mem_erase hk)

private theorem applyAll_lt {ops : List Op} (h : ∀ op ∈ ops, op.Exact nbits)
    (hs : ∀ k ∈ s, k < 2 ^ 31) : ∀ k ∈ (spec nbits).applyAll s ops, k < 2 ^ 31 := by
  induction ops generalizing s with
  | nil => exact hs
  | cons op ops ih =>
    exact ih (fun op hop => h op (List.mem_cons_of_mem _ hop))
      ((h op List.mem_cons_self).apply_lt hs)

end Bounded

section Defects

/-- A bitmap whose length wraps has no words, and the searches leave it. -/
theorem not_first_of_wraps (hgt : 2 ^ 32 - 64 < nbits.toNat) :
    ¬ReturnsBelow nbits (bitmapFirst (zeroed nbits) nbits) := by
  have hlen : (bitmapLen nbits).toNat = 0 := by
    have hlt := nbits.isLt
    rw [bitmapLen, BitVec.toNat_ushiftRight, BitVec.toNat_add, Nat.shiftRight_eq_div_pow]
    simp only [BitVec.ofNat_eq_ofNat, BitVec.toNat_ofNat]
    omega
  have hfault : bitmapFirst (zeroed nbits) nbits = .error .unmapped := by
    rw [bitmapFirst, zeroed, hlen]
    rfl
  rintro ⟨i, hi, -⟩
  rw [hfault] at hi
  cases hi

/-- A member that the first search passes over is below `nbits` and fits an `int`. -/
theorem lt_of_first (hpos : 0 < nbits.toNat) (hle : nbits.toNat ≤ 2 ^ 32 - 64)
    (hlen : map.length = words nbits) (hfirst : ReturnsBelow nbits (bitmapFirst map nbits))
    {k : Nat} (hk : map.member k) : k < nbits.toNat ∧ k < 2 ^ 31 := by
  have hwords : 64 * words nbits ≤ 2 ^ 32 - 64 := by
    rw [words_eq hpos]
    omega
  have hk64 : k < 64 * words nbits := by
    by_contra hge
    rw [Map.member_of_le (by omega)] at hk
    exact Bool.false_ne_true hk
  obtain ⟨r, hr, hcode⟩ := bitmapFirst_isLast hlen.ge
  obtain ⟨i, hi, hrange⟩ := hfirst
  obtain rfl : code r = i := Except.ok.inj (hcode.symm.trans hi)
  cases r with
  | none => exact absurd ((hr k hk64).symm.trans hk) Bool.false_ne_true
  | some top =>
    obtain ⟨htop, -, hgap⟩ := hr
    have hle : k ≤ top := by
      by_contra hgt
      exact Bool.false_ne_true ((hgap k (by omega) hk64).symm.trans hk)
    have htop31 : top < 2 ^ 31 := by
      by_contra hge
      have hneg : intIndex top = (top : Int) - 2 ^ 32 := by
        unfold intIndex int
        rw [Int.bmod_def, Int.emod_eq_of_lt (by omega) (by omega), if_neg (by omega)]
        omega
      rw [code_some, hneg] at hrange
      omega
    rw [code_some, intIndex_of_lt htop31] at hrange
    omega

/-- What is left of a run is as the run so far leaves it. -/
theorem exec_length (hpos : 0 < nbits.toNat) (hle : nbits.toNat ≤ 2 ^ 32 - 64) {ops : List Op}
    (hops : ∀ op ∈ ops, op.InRange nbits) {map : Map} (hlen : map.length = words nbits) :
    ∃ map' outs, execAll (step nbits) map ops = .ok (map', outs) ∧ map'.length = words nbits := by
  induction ops generalizing map with
  | nil => exact ⟨map, [], rfl, hlen⟩
  | cons op ops ih =>
    obtain ⟨map₁, hstep, hlen₁, -⟩ := step_spec hpos hle hlen (hops op List.mem_cons_self)
    obtain ⟨map₂, outs, hexec, hlen₂⟩ :=
      ih (fun op hop => hops op (List.mem_cons_of_mem _ hop)) hlen₁
    exact ⟨map₂, op.out map.member :: outs, execAll_cons hstep hexec, hlen₂⟩

/-- The searches after a step show that it was exact. -/
theorem exact_of_first (hpos : 0 < nbits.toNat) (hle : nbits.toNat ≤ 2 ^ 32 - 64) {map : Map}
    (hlen : map.length = words nbits) {op : Op} (hop : op.InRange nbits) {map' : Map}
    {out : Option Bool} (hstep : step nbits map op = .ok (map', out))
    (hfirst : ReturnsBelow nbits (bitmapFirst map' nbits)) : op.Exact nbits := by
  obtain ⟨map'', hstep', hlen', hmember⟩ := step_spec hpos hle hlen hop
  obtain rfl : map'' = map' := congrArg Prod.fst (Except.ok.inj (hstep'.symm.trans hstep))
  have hlt := fun {k : Nat} => lt_of_first (k := k) hpos hle hlen' hfirst
  cases op with
  | full =>
    -- the last bit of the last word
    have hwords : 64 * words nbits ≥ nbits.toNat := le_words hpos
    have hlast : map''.member (64 * words nbits - 1) = true := by
      rw [hmember]
      exact decide_eq_true (by omega)
    have hbound := hlt hlast
    rw [words_eq hpos] at hbound hwords
    constructor
    · omega
    · omega
  | set n | atomicSet n =>
    have hset : map''.member n.toNat = true := by
      rw [hmember]
      exact if_pos rfl
    exact (hlt hset).2
  | _ => trivial

end Defects

/-- For every number of bits and every run of operations with indices below it on a zeroed
bitmap, the searches stay below `nbits` and the iterations visit the set of the run, in every
state reached, if and only if the length of the bitmap does not wrap, bitmaps are filled only if
they end at a word boundary, and the indices that are set fit an `int`. -/
theorem bounded_iff (hpos : 0 < nbits.toNat) (ops : List Op)
    (hops : ∀ op ∈ ops, op.InRange nbits) :
    (∀ past, past <+: ops → ∃ map outs, execAll (step nbits) (zeroed nbits) past = .ok (map, outs) ∧
      Bounded nbits map ((spec nbits).applyAll ∅ past)) ↔
    nbits.toNat ≤ 2 ^ 32 - 64 ∧ ∀ op ∈ ops, op.Exact nbits := by
  constructor
  · intro h
    have hle : nbits.toNat ≤ 2 ^ 32 - 64 := by
      by_contra hgt
      obtain ⟨map, outs, hexec, hbounded⟩ := h [] List.nil_prefix
      obtain rfl : zeroed nbits = map := congrArg Prod.fst (Except.ok.inj hexec)
      exact not_first_of_wraps (Nat.not_le.mp hgt) hbounded.first
    refine ⟨hle, fun op hop => ?_⟩
    obtain ⟨before, after, rfl⟩ := List.append_of_mem hop
    have hprefix : before ++ [op] <+: before ++ op :: after := by
      refine ⟨after, ?_⟩
      rw [List.append_assoc]
      rfl
    obtain ⟨map, outs, hexec, hbounded⟩ := h _ hprefix
    obtain ⟨map₁, outs₁, hbefore, hlen₁⟩ := exec_length hpos hle
      (fun op hop => hops op (List.mem_append_left _ hop)) (represents_zeroed hpos hle).length
    obtain ⟨map₂, outs₂, out, hbefore', hstep⟩ := execAll_snoc hexec
    obtain rfl : map₁ = map₂ := congrArg Prod.fst (Except.ok.inj (hbefore.symm.trans hbefore'))
    exact exact_of_first hpos hle hlen₁ (hops op hop) hstep hbounded.first
  · rintro ⟨hle, hexact⟩ past hpast
    have hmem : ∀ op ∈ past, op ∈ ops := fun op hop => hpast.subset hop
    obtain ⟨map, hexec, hmap⟩ := (represents_zeroed hpos hle).exec hpos hle
      (fun op hop => hops op (hmem op hop)) fun op hop => (hexact op (hmem op hop)).wholeWords
    refine ⟨map, _, hexec, hmap.bounded hpos ?_⟩
    exact applyAll_lt (fun op hop => hexact op (hmem op hop))
      fun k hk => absurd hk (Finset.notMem_empty k)

/-- Two whole words. -/
theorem bounded_two_words : (∀ op ∈ [Op.set 5, .full, .clear 127], op.Exact 128) ∧
    ∀ past, past <+: [Op.set 5, .full, .clear 127] →
      ∃ map outs, execAll (step 128) (zeroed 128) past = .ok (map, outs) ∧
        Bounded 128 map ((spec 128).applyAll ∅ past) := by
  have hexact : ∀ op ∈ [Op.set 5, .full, .clear 127], op.Exact 128 := by
    simp [Op.Exact]
  refine ⟨hexact, (bounded_iff (by decide) _ ?_).mpr ⟨by decide, hexact⟩⟩
  simp [Op.InRange]

/-- A full bitmap of 10 bits has 64 members. -/
theorem full_past_end : ∃ map outs, execAll (step 10) (zeroed 10) [.full] = .ok (map, outs) ∧
    bitmapFirst map 10 = .ok 63 ∧ ¬Bounded 10 map ((spec 10).applyAll ∅ [.full]) := by
  have hfirst : bitmapFirst [BitVec.allOnes 64] 10 = .ok 63 := by rfl
  refine ⟨[BitVec.allOnes 64], [none], by rfl, hfirst, ?_⟩
  intro hbounded
  obtain ⟨i, hi, hrange⟩ := hbounded.first
  obtain rfl : 63 = i := Except.ok.inj (hfirst.symm.trans hi)
  revert hrange
  decide

end MacKernel.Bitmap
