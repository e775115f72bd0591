import MacKernel.Models.UnrolledCopy.Native

/-!
# Unrolled copies are `memcpy`

The length goes down to zero and one unit further, where it is the largest numbers there are;
the loop ends there because they are read as negative ones. A length that is itself read as
negative is no length of a buffer, since two separate buffers have at most half of the
addresses each.
-/

namespace MacKernel.UnrolledCopy

open Memory (Moved Separate)

variable {m : Memory 64} {src dst l : BitVec 64} {unit word count : Nat}

/-- A copy that has come `k` bytes far. -/
structure Copying (m : Memory 64) (src dst : BitVec 64) (k : Nat) (s : CopyState) : Prop where
  src_eq : s.src = src + BitVec.ofNat 64 k
  dst_eq : s.dst = dst + BitVec.ofNat 64 k
  moved : Moved m s.mem src dst k

/-- Two buffers that a copy may be asked for. -/
structure Buffers (m : Memory 64) (src dst l : BitVec 64) : Prop where
  separate : Separate src dst l.toNat
  mapped_src : m.Mapped src l.toNat
  mapped_dst : m.Mapped dst l.toNat

/-- The words of one pass. -/
theorem copyWords_spec (h : Buffers m src dst l) (word count : Nat) {k : Nat} {s : CopyState}
    (hs : Copying m src dst k s) (hk : k + word * count ≤ l.toNat) :
    ∃ s', copyWords word count s = .ok s' ∧ s'.l = s.l
      ∧ Copying m src dst (k + word * count) s' := by
  induction count generalizing k s with
  | zero => exact ⟨s, rfl, rfl, hs⟩
  | succ count ih =>
    rw [Nat.mul_succ] at hk
    obtain ⟨mem, hmem, hmoved⟩ := hs.moved.copyBytes (n := word) l.isLt h.separate h.mapped_src
      h.mapped_dst (by omega)
    have hnext : Copying m src dst (k + word)
        { s with
          src := s.src + BitVec.ofNat 64 word
          dst := s.dst + BitVec.ofNat 64 word
          mem := mem } := by
      refine ⟨?_, ?_, hmoved⟩
      · rw [hs.src_eq, Memory.add_ofNat_add]
      · rw [hs.dst_eq, Memory.add_ofNat_add]
    obtain ⟨s', hs', hl, hcopy⟩ := ih hnext (by omega)
    refine ⟨s', ?_, hl, ?_⟩
    · rw [copyWords, hs.src_eq, hs.dst_eq, hmem, ok_bind, ← hs.src_eq, ← hs.dst_eq]
      exact hs'
    · rwa [Nat.mul_succ, Nat.add_comm (word * count), ← Nat.add_assoc]

private theorem toInt_nonneg_iff (x : BitVec 64) : 0 ≤ x.toInt ↔ x.toNat < 2 ^ 63 := by
  have hx := x.isLt
  rw [BitVec.toInt_eq_toNat_cond]
  split <;> omega

/-- A pass that has a whole unit left. -/
theorem copyBody_again (h : Buffers m src dst l) (hunit : unit = word * count)
    (hhalf : l.toNat ≤ 2 ^ 63) (hpos : 0 < unit) {k left : Nat} {s : CopyState}
    (hs : Copying m src dst k s) (hleft : s.l.toNat = left + unit)
    (hk : k + left + unit = l.toNat) :
    ∃ s', copyBody unit word count s = .ok (.inl s') ∧ s'.l.toNat = left
      ∧ Copying m src dst (k + unit) s' := by
  have hl : (s.l - BitVec.ofNat 64 unit).toNat = left := by
    have hlt := s.l.isLt
    rw [BitVec.toNat_sub, BitVec.toNat_ofNat]
    omega
  have hnonneg : 0 ≤ (s.l - BitVec.ofNat 64 unit).toInt := by
    rw [toInt_nonneg_iff]
    omega
  have hstart : Copying m src dst k { s with l := s.l - BitVec.ofNat 64 unit } :=
    ⟨hs.src_eq, hs.dst_eq, hs.moved⟩
  obtain ⟨s', hwords, hsl, hcopy⟩ := copyWords_spec h word count hstart (by omega)
  refine ⟨s', ?_, ?_, ?_⟩
  · simp only [copyBody, if_pos hnonneg, hwords, ok_bind]
    rfl
  · rw [hsl]
    exact hl
  · rwa [hunit]

/-- The pass after the last unit, on a length below zero. -/
theorem copyBody_done (hpos : 0 < unit) (hsmall : unit ≤ 2 ^ 63) {s : CopyState}
    (hs : s.l.toNat = 0) : copyBody unit word count s = .ok (.inr s.mem) := by
  have hneg : ¬ 0 ≤ (s.l - BitVec.ofNat 64 unit).toInt := by
    rw [toInt_nonneg_iff, BitVec.toNat_sub, BitVec.toNat_ofNat]
    omega
  simp only [copyBody, if_neg hneg]
  rfl

/-- The loop copies the whole length and ends. -/
theorem copyLoop_spec (h : Buffers m src dst l) (hunit : unit = word * count) (hpos : 0 < unit)
    (hsmall : unit ≤ 2 ^ 63) (hdvd : unit ∣ l.toNat) :
    ∃ m', loop (copyBody unit word count) (l.toNat + 1) ⟨l, src, dst, m⟩ = .ok m'
      ∧ Moved m m' src dst l.toNat := by
  have hhalf : l.toNat ≤ 2 ^ 63 := by
    have htwo := h.separate.two_mul_le l.isLt
    omega
  refine loop_spec (fun left s => ∃ k, k + left = l.toNat ∧ s.l.toNat = left ∧ unit ∣ left
    ∧ Copying m src dst k s) _ ?_ ?_ (Nat.lt_succ_self l.toNat)
  · rintro left s ⟨k, hk, hl, hleft, hs⟩
    rcases Nat.eq_zero_or_pos left with rfl | hlpos
    · refine .inr ⟨s.mem, copyBody_done hpos hsmall hl, ?_⟩
      have hend : k = l.toNat := hk
      exact hend ▸ hs.moved
    · have hge := Nat.le_of_dvd hlpos hleft
      have hsplit : s.l.toNat = left - unit + unit := by omega
      obtain ⟨s', hbody, hl', hs'⟩ := copyBody_again h hunit hhalf hpos hs hsplit (by omega)
      refine .inl ⟨s', left - unit, by omega, hbody, k + unit, by omega, hl', ?_, hs'⟩
      exact Nat.dvd_sub hleft (Nat.dvd_refl unit)
  · refine ⟨0, Nat.zero_add _, rfl, hdvd, ?_, ?_, Moved.nil m src dst⟩
    · exact (BitVec.add_zero src).symm
    · exact (BitVec.add_zero dst).symm

theorem memcpy_spec (h : Buffers m src dst l) :
    ∃ m', memcpy dst src l m = .ok m' ∧ Moved m m' src dst l.toNat := by
  obtain ⟨m', hcopy, hmoved⟩ := (Moved.nil m src dst).copyBytes (n := l.toNat) l.isLt h.separate
    h.mapped_src h.mapped_dst (Nat.zero_add _).le
  rw [BitVec.add_zero, BitVec.add_zero] at hcopy
  rw [Nat.zero_add] at hmoved
  exact ⟨m', hcopy, hmoved⟩

/-- A copy does what `memcpy` does: the bytes of the source come to the destination, and all
other memory is as it was. -/
def CopiesLikeMemcpy (m : Memory 64) (src dst l : BitVec 64) (r : Except Fault (Memory 64)) :
    Prop :=
  r = memcpy dst src l m
    ∧ ∃ m', r = .ok m'
      ∧ (∀ i < l.toNat, m' (dst + BitVec.ofNat 64 i) = m (src + BitVec.ofNat 64 i))
      ∧ ∀ a, (∀ i < l.toNat, a ≠ dst + BitVec.ofNat 64 i) → m' a = m a

theorem skCopy64_spec (h : Buffers m src dst l) (thres : BitVec 64) (hunit : unit = word * count)
    (hpos : 0 < unit) (hsmall : unit ≤ 2 ^ 63) (hdvd : unit ∣ l.toNat) :
    CopiesLikeMemcpy m src dst l (skCopy64 unit word count thres src dst l m) := by
  obtain ⟨m', hmemcpy, hmoved⟩ := memcpy_spec h
  have hcopy : skCopy64 unit word count thres src dst l m = .ok m' := by
    unfold skCopy64
    split
    · obtain ⟨m'', hloop, hmoved'⟩ := copyLoop_spec h hunit hpos hsmall hdvd
      rw [hloop, hmoved'.unique hmoved]
    · exact hmemcpy
  exact ⟨hcopy.trans hmemcpy.symm, m', hcopy, hmoved.copied, hmoved.frame⟩

/-- The four copies, for every threshold and every two buffers that do not overlap. -/
theorem skCopy64_eq_memcpy (m : Memory 64) (thres src dst l : BitVec 64)
    (h : Buffers m src dst l) :
    (4 ∣ l.toNat → CopiesLikeMemcpy m src dst l (skCopy64_4x thres src dst l m))
      ∧ (8 ∣ l.toNat → CopiesLikeMemcpy m src dst l (skCopy64_8x thres src dst l m))
      ∧ (32 ∣ l.toNat → CopiesLikeMemcpy m src dst l (skCopy64_32x thres src dst l m))
      ∧ (64 ∣ l.toNat → CopiesLikeMemcpy m src dst l (skCopy64_64x thres src dst l m)) := by
  refine ⟨?_, ?_, ?_, ?_⟩
  · exact skCopy64_spec h thres rfl (by decide) (by decide)
  · exact skCopy64_spec h thres rfl (by decide) (by decide)
  · exact skCopy64_spec h thres rfl (by decide) (by decide)
  · exact skCopy64_spec h thres rfl (by decide) (by decide)

/-- 64 bytes, below the threshold, in a memory that is mapped everywhere. -/
theorem skCopy64_eq_memcpy_64 :
    Buffers (Memory.flat fun a => .ofNat a.toNat) 0x1000 0x2000 64
      ∧ CopiesLikeMemcpy (Memory.flat fun a => .ofNat a.toNat) 0x1000 0x2000 64
          (skCopy64_64x 1024 0x1000 0x2000 64 (Memory.flat fun a => .ofNat a.toNat)) := by
  have hseparate : Separate (0x1000 : BitVec 64) 0x2000 64 := by
    intro i hi j hj heq
    have hnat := congrArg BitVec.toNat heq
    simp only [BitVec.ofNat_eq_ofNat, BitVec.toNat_add, BitVec.toNat_ofNat] at hnat
    omega
  have hbuffers : Buffers (Memory.flat fun a => .ofNat a.toNat) 0x1000 0x2000 64 :=
    ⟨hseparate, fun _ _ => rfl, fun _ _ => rfl⟩
  exact ⟨hbuffers, (skCopy64_eq_memcpy _ 1024 _ _ _ hbuffers).2.2.2 (by decide)⟩

end MacKernel.UnrolledCopy
