import MacKernel.Models.Histogram.Native
import Mathlib.Logic.Equiv.Fin.Basic

/-!
# Buckets of histogram reports

A value goes to the first bucket whose bound it does not exceed. The bound is the
product of the width and the number of the bucket as long as that fits in 32 bits,
and goes back to small numbers after it.
-/

namespace MacKernel.Histogram

section Tally

variable {n : Nat} {info : Info n} {width : UInt32} {value : Int64}

/-- The first bucket whose bound a value does not exceed. -/
def route (width : UInt32) (n : Nat) (value : Int64) : Option (Fin n) :=
  Fin.find? fun k => value ≤ bucketBound width.toInt32 (UInt32.ofNat k)

/-- A value is recorded in a bucket, or nowhere. -/
def Info.credit (info : Info n) (value : Int64) : Option (Fin n) → Info n
  | some k => info.record k value
  | none => info

/-- A buffer of `n` buckets of a width. -/
structure Info.IsHistogram (info : Info n) (width : UInt32) : Prop where
  count_pos : 0 < n
  count_lt : n < 2 ^ 16
  width_eq : info.bucketWidth = width.toInt32
  nelements_eq : ∀ k, (info.elem k).channelType.nelements = UInt16.ofNat n

/-- The bucket count is read from the report. -/
theorem Info.IsHistogram.nelements (h : info.IsHistogram width) :
    info.nelements = .ok (UInt16.ofNat n) := by
  rw [Info.nelements, StateReport.index, dif_pos h.count_pos, ok_bind, h.nelements_eq]
  rfl

/-- The loop looks at the buckets in turn and stops at the first one that has a large enough
bound. -/
theorem histreportTallyvalue_spec (h : info.IsHistogram width) (value : Int64) :
    histreportTallyvalue value info = .ok (info.credit value (route width n value)) := by
  have hcount := h.count_lt
  have hlimit : (UInt16.ofNat n).toUInt32.toNat = n := by
    rw [UInt16.toNat_toUInt32, UInt16.toNat_ofNat', Nat.mod_eq_of_lt hcount]
  suffices hloop : ∃ info', histreportTallyvalue value info = .ok info' ∧
      info' = info.credit value (route width n value) by
    obtain ⟨info', hrun, rfl⟩ := hloop
    exact hrun
  -- Every bucket before `no` has a bound below the value.
  refine loop_spec (fun bound (no : UInt32) => no.toNat + bound = n ∧
      ∀ k : Fin n, k < no.toNat → ¬ value ≤ bucketBound width.toInt32 (UInt32.ofNat k)) _ ?_
    ⟨Nat.zero_add n, fun k hk => absurd hk (Nat.not_lt_zero _)⟩ hcount
  rintro bound no ⟨hno, hbefore⟩
  rw [h.nelements, ok_bind, h.width_eq]
  by_cases hlt : no < (UInt16.ofNat n).toUInt32
  · have hlt' : no.toNat < n := hlimit ▸ UInt32.lt_iff_toNat_lt.mp hlt
    rw [if_pos hlt]
    by_cases hle : value ≤ bucketBound width.toInt32 no
    · have hroute : route width n value = some ⟨no.toNat, hlt'⟩ := by
        refine Fin.find?_eq_some_iff.mpr ⟨?_, fun k hk => ?_⟩
        · simpa using hle
        · simpa using hbefore k hk
      rw [if_pos hle, StateReport.index, dif_pos hlt', hroute]
      exact .inr ⟨_, rfl, rfl⟩
    · have hnext : (no + 1).toNat = no.toNat + 1 := by
        rw [UInt32.toNat_add, UInt32.toNat_one, Nat.mod_eq_of_lt (by omega)]
      rw [if_neg hle]
      refine .inl ⟨no + 1, bound - 1, by omega, rfl, by omega, fun k hk => ?_⟩
      by_cases hk' : k < no.toNat
      · exact hbefore k hk'
      · have hkno : UInt32.ofNat k = no := by
          rw [show (k : Nat) = no.toNat by omega, UInt32.ofNat_toNat]
        rwa [hkno]
  · have hend : n ≤ no.toNat := hlimit ▸ Nat.not_lt.mp (mt UInt32.lt_iff_toNat_lt.mpr hlt)
    have hroute : route width n value = none := by
      refine Fin.find?_eq_none_iff.mpr fun k => ?_
      simpa using hbefore k (k.isLt.trans_le hend)
    rw [if_neg hlt, hroute]
    exact .inr ⟨_, rfl, rfl⟩

/-- A record changes one bucket. -/
theorem Info.record_elem (info : Info n) (k j : Fin n) (value : Int64) :
    (info.record k value).elem j = { info.elem j with
      values := if j = k then (info.elem j).values.record value else (info.elem j).values } := by
  by_cases hj : j = k
  · subst hj
    simp only [Info.record, Function.update_self, if_true]
  · simp only [Info.record, Function.update_of_ne hj, if_neg hj]

/-- A credit changes the bucket that it goes to, if any. -/
theorem Info.credit_elem (info : Info n) (value : Int64) (o : Option (Fin n)) (j : Fin n) :
    (info.credit value o).elem j = { info.elem j with
      values := if o = some j then (info.elem j).values.record value
        else (info.elem j).values } := by
  cases o with
  | none => simp only [Info.credit, reduceCtorEq, if_false]
  | some k => simp only [Info.credit, Info.record_elem, Option.some.injEq, eq_comm]

/-- A credit leaves the bucket width. -/
theorem Info.credit_bucketWidth (info : Info n) (value : Int64) (o : Option (Fin n)) :
    (info.credit value o).bucketWidth = info.bucketWidth := by
  cases o <;> rfl

/-- A credited report is a histogram still. -/
theorem Info.IsHistogram.credit (h : info.IsHistogram width) (value : Int64)
    (o : Option (Fin n)) : (info.credit value o).IsHistogram width where
  count_pos := h.count_pos
  count_lt := h.count_lt
  width_eq := (info.credit_bucketWidth value o).trans h.width_eq
  nelements_eq k := by
    rw [info.credit_elem]
    exact h.nelements_eq k

/-- Initialising makes a histogram of the asked width. -/
theorem histreportInit_isHistogram {bufSize : Nat} {providerID channelID : UInt64} {cats : UInt16}
    (hn : 1 ≤ n ∧ n ≤ 65535)
    (hinit : histreportInit n width bufSize providerID channelID cats = .ok info) :
    info.IsHistogram width := by
  unfold histreportInit at hinit
  split at hinit
  · obtain rfl := Except.ok.inj hinit
    exact ⟨hn.1, Nat.lt_succ_of_le hn.2, rfl, fun _ => rfl⟩
  · cases hinit

/-- A run of tallies leaves a histogram. -/
theorem Info.IsHistogram.tallyAll (h : info.IsHistogram width) {values : List Int64}
    {info' : Info n} (hrun : info.tallyAll values = .ok info') : info'.IsHistogram width := by
  induction values generalizing info with
  | nil => exact Except.ok.inj hrun ▸ h
  | cons value values ih =>
    rw [Info.tallyAll, histreportTallyvalue_spec h, ok_bind] at hrun
    exact ih (h.credit _ _) hrun

end Tally

section Bounds

variable {n : Nat} {width : UInt32} {value : Int64}

/-- The least bucket `k` with `value ≤ width * (k + 1)`, in unbounded integers. -/
def leastBucket (width : UInt32) (n : Nat) (value : Int64) : Option (Fin n) :=
  Fin.find? fun k => value.toInt ≤ (width.toNat * (k + 1) : Nat)

/-- The bound of a bucket, as the source computes it, wraps in 32 bits. -/
private theorem toInt_bucketBound (width : UInt32) {k : Nat} (hk : k < 2 ^ 16) :
    (bucketBound width.toInt32 (UInt32.ofNat k)).toInt =
      (width.toNat * (k + 1) % 2 ^ 32 : Nat) := by
  have hnat : (width * (UInt32.ofNat k + 1)).toNat = width.toNat * (k + 1) % 2 ^ 32 := by
    rw [UInt32.toNat_mul, UInt32.toNat_add, UInt32.toNat_ofNat', UInt32.toNat_one,
      Nat.mod_eq_of_lt (a := k) (by omega), Nat.mod_eq_of_lt (a := k + 1) (by omega)]
  have hlt := Nat.mod_lt (width.toNat * (k + 1)) (show 0 < 2 ^ 32 by decide)
  have hnat' : (width * (UInt32.ofNat k + 1)).toUInt64.toNat =
      width.toNat * (k + 1) % 2 ^ 32 := by
    rw [UInt32.toNat_toUInt64, hnat]
  change (width * (UInt32.ofNat k + 1)).toUInt64.toBitVec.toInt = _
  rw [BitVec.toInt_eq_toNat_of_lt, UInt64.toNat_toBitVec, hnat']
  rw [UInt64.toNat_toBitVec, hnat']
  omega

/-- A value is below a bound if it is below the wrapped product. -/
theorem le_bucketBound_iff {k : Nat} (hk : k < 2 ^ 16) :
    value ≤ bucketBound width.toInt32 (UInt32.ofNat k) ↔
      value.toInt ≤ (width.toNat * (k + 1) % 2 ^ 32 : Nat) := by
  rw [Int64.le_iff_toInt_le, toInt_bucketBound width hk]

/-- A bucket is the least if its bound reaches the value and no earlier one does. -/
theorem leastBucket_eq_some_iff {k : Fin n} : leastBucket width n value = some k ↔
    value.toInt ≤ (width.toNat * (k + 1) : Nat) ∧
      ∀ j < k, (width.toNat * (j + 1) : Nat) < value.toInt := by
  rw [leastBucket, Fin.find?_eq_some_iff]
  simp only [decide_eq_true_iff, decide_eq_false_iff_not, Int.not_le]

/-- No bucket is the least if no bound reaches the value. -/
theorem leastBucket_eq_none_iff : leastBucket width n value = none ↔
    ∀ k : Fin n, (width.toNat * (k + 1) : Nat) < value.toInt := by
  rw [leastBucket, Fin.find?_eq_none_iff]
  simp only [decide_eq_false_iff_not, Int.not_le]

/-- The bucket before the least one is too small. -/
theorem lt_of_leastBucket_eq_some {k : Fin n} (h : leastBucket width n value = some k)
    (hpos : 0 < (k : Nat)) : (width.toNat * k : Nat) < value.toInt := by
  have hprev := (leastBucket_eq_some_iff.mp h).2 ⟨k - 1, by omega⟩ (Nat.sub_lt hpos Nat.one_pos)
  rwa [Nat.sub_add_cancel hpos] at hprev

/-- A value is routed to the first bucket whose wrapped bound reaches it. -/
theorem route_eq_some_iff (hn : n < 2 ^ 16) {k : Fin n} : route width n value = some k ↔
    value.toInt ≤ (width.toNat * (k + 1) % 2 ^ 32 : Nat) ∧
      ∀ j < k, (width.toNat * (j + 1) % 2 ^ 32 : Nat) < value.toInt := by
  rw [route, Fin.find?_eq_some_iff]
  simp only [decide_eq_true_iff, decide_eq_false_iff_not, Int.not_le,
    le_bucketBound_iff (Fin.isLt _ |>.trans hn)]

/-- A value is routed nowhere if no wrapped bound reaches it. -/
theorem route_eq_none_iff (hn : n < 2 ^ 16) : route width n value = none ↔
    ∀ k : Fin n, (width.toNat * (k + 1) % 2 ^ 32 : Nat) < value.toInt := by
  rw [route, Fin.find?_eq_none_iff]
  simp only [decide_eq_false_iff_not, le_bucketBound_iff (Fin.isLt _ |>.trans hn), Int.not_le]

/-- A bound that does not fit in 32 bits falls below the bucket. -/
theorem wrapped_bound_lt {k : Nat} (hover : 2 ^ 32 ≤ width.toNat * (k + 1)) :
    width.toNat * (k + 1) % 2 ^ 32 < width.toNat * k := by
  have hwidth : width.toNat < 2 ^ 32 := width.toNat_lt
  rw [Nat.mul_succ] at hover ⊢
  calc (width.toNat * k + width.toNat) % 2 ^ 32
      = (width.toNat * k + width.toNat - 2 ^ 32) % 2 ^ 32 := Nat.mod_eq_sub_mod hover
    _ ≤ width.toNat * k + width.toNat - 2 ^ 32 := Nat.mod_le _ _
    _ < width.toNat * k := by omega

/-- A value above all buckets is routed nowhere: wrapping makes bounds smaller. -/
theorem route_of_leastBucket_none (hn : n < 2 ^ 16) (h : leastBucket width n value = none) :
    route width n value = none := by
  rw [leastBucket_eq_none_iff] at h
  rw [route_eq_none_iff hn]
  intro k
  exact (Int.ofNat_le.mpr (Nat.mod_le _ _)).trans_lt (h k)

/-- The macro finds the least bucket exactly when the bound of this bucket fits in 32 bits. -/
theorem route_of_leastBucket_some (hn : n < 2 ^ 16) {k : Fin n}
    (h : leastBucket width n value = some k) :
    route width n value = some k ↔ width.toNat * (k + 1) < 2 ^ 32 := by
  obtain ⟨hle, hbefore⟩ := leastBucket_eq_some_iff.mp h
  rw [route_eq_some_iff hn]
  constructor
  · rintro ⟨hle', -⟩
    by_contra hover
    have hwrap := wrapped_bound_lt (Nat.not_lt.mp hover)
    -- The wrapped bound of the bucket is below the bound of the bucket before it.
    have hpos : 0 < (k : Nat) := Nat.pos_of_ne_zero fun hzero => by simp [hzero] at hwrap
    have hprev := lt_of_leastBucket_eq_some h hpos
    omega
  · intro hfit
    refine ⟨by rwa [Nat.mod_eq_of_lt hfit], fun j hj => ?_⟩
    exact (Int.ofNat_le.mpr (Nat.mod_le _ _)).trans_lt (hbefore j hj)

/-- The greatest multiple of the width that fits in 32 bits. -/
def largestBound (width : UInt32) : Nat := width.toNat * ((2 ^ 32 - 1) / width.toNat)

/-- The largest bound is the last multiple of the width that does not wrap. -/
theorem le_largestBound_iff (hwidth : 0 < width.toNat) (k : Nat) :
    width.toNat * k ≤ largestBound width ↔ width.toNat * k < 2 ^ 32 := by
  rw [largestBound, Nat.mul_le_mul_left_iff hwidth, Nat.le_div_iff_mul_le hwidth, Nat.mul_comm k]
  omega

/-- Routing is right for values above all buckets, and up to the largest bound that does not
wrap. -/
theorem route_eq_leastBucket_iff (hwidth : 0 < width.toNat) (hpos : 0 < n) (hn : n < 2 ^ 16) :
    route width n value = leastBucket width n value ↔
      (width.toNat * n : Nat) < value.toInt ∨ value.toInt ≤ (largestBound width : Nat) := by
  cases hleast : leastBucket width n value with
  | none =>
    have hlast := leastBucket_eq_none_iff.mp hleast ⟨n - 1, Nat.sub_lt hpos Nat.one_pos⟩
    rw [Nat.sub_add_cancel hpos] at hlast
    exact iff_of_true (route_of_leastBucket_none hn hleast) (.inl hlast)
  | some k =>
    have hle := (leastBucket_eq_some_iff.mp hleast).1
    rw [route_of_leastBucket_some hn hleast, ← le_largestBound_iff hwidth]
    have hcount : width.toNat * (k + 1) ≤ width.toNat * n := Nat.mul_le_mul_left _ k.isLt
    constructor
    · exact fun hfit => .inr (hle.trans (Int.ofNat_le.mpr hfit))
    · rintro (hbeyond | hvalue)
      · omega
      · -- The multiple before the bound is below the value, so the bound is the next one.
        rw [largestBound] at hvalue ⊢
        apply Nat.mul_le_mul_left
        rcases Nat.eq_zero_or_pos (k : Nat) with hzero | hkpos
        · rw [hzero, Nat.le_div_iff_mul_le hwidth]
          have := width.toNat_lt
          omega
        · have hprev := lt_of_leastBucket_eq_some hleast hkpos
          exact Nat.lt_of_mul_lt_mul_left (Int.ofNat_lt.mp (hprev.trans_le hvalue))

end Bounds

section Routing

variable {n : Nat} {info : Info n} {width : UInt32}

/-- A record adds one hit, and the value to the sum. -/
theorem Values.record_totals (rep : Values) (value : Int64) :
    (rep.record value).bucketHits = rep.bucketHits + 1 ∧
      (rep.record value).bucketSum = rep.bucketSum + value := by
  unfold Values.record
  split
  · exact ⟨rfl, rfl⟩
  · split
    · exact ⟨rfl, rfl⟩
    · split <;> exact ⟨rfl, rfl⟩

/-- A buffer shows where a value was recorded. -/
theorem Info.credit_inj {value : Int64} {o o' : Option (Fin n)} :
    info.credit value o = info.credit value o' ↔ o = o' := by
  refine ⟨fun h => Option.ext fun k => ?_, congrArg _⟩
  have hhits := congrArg (fun info => (Info.elem info k).values.bucketHits) h
  simp only [Info.credit_elem] at hhits
  have hnext : (info.elem k).values.bucketHits + 1 ≠ (info.elem k).values.bucketHits := by
    simp
  by_cases hk : o = some k <;> by_cases hk' : o' = some k
  · exact iff_of_true hk hk'
  · rw [if_pos hk, if_neg hk', (Values.record_totals _ _).1] at hhits
    exact absurd hhits hnext
  · rw [if_neg hk, if_pos hk', (Values.record_totals _ _).1] at hhits
    exact absurd hhits.symm hnext
  · exact iff_of_false hk hk'

/-- The macro credits a value to the least bucket that has room for it exactly when the value
is beyond all buckets, or some multiple of the width that fits in 32 bits is not below it. -/
theorem tallyvalue_leastBucket_iff {start : Info n} {bufSize : Nat}
    {providerID channelID : UInt64} {cats : UInt16} {values : List Int64}
    (hn : 1 ≤ n ∧ n ≤ 65535) (hwidth : 1 ≤ width.toNat)
    (hinit : histreportInit n width bufSize providerID channelID cats = .ok start)
    (hrun : start.tallyAll values = .ok info) (value : Int64) :
    histreportTallyvalue value info = .ok (info.credit value (leastBucket width n value)) ↔
      (width.toNat * n : Nat) < value.toInt ∨ value.toInt ≤ (largestBound width : Nat) := by
  have h := (histreportInit_isHistogram hn hinit).tallyAll hrun
  rw [histreportTallyvalue_spec h, Except.ok.injEq, Info.credit_inj]
  exact route_eq_leastBucket_iff hwidth h.count_pos h.count_lt

/-- A new histogram of three buckets of ten. -/
def threeTens : Info 3 where
  bucketWidth := 10
  elem no := ⟨0, 0, ⟨kIOReportFormatHistogram, 0, 0, 3, .ofNat no⟩, 0, ⟨0, 0, 0, 0⟩⟩

/-- Buckets of width 10: the value 25 goes to the third. -/
theorem tallyvalue_leastBucket_twentyFive :
    histreportTallyvalue 25 threeTens = .ok (threeTens.credit 25 (leastBucket 10 3 25)) :=
  (tallyvalue_leastBucket_iff (by decide) (by decide)
    (show histreportInit 3 10 196 0 0 0 = .ok threeTens from rfl)
    (show threeTens.tallyAll [] = .ok threeTens from rfl) 25).mpr (.inr (by decide))

/-- Two buckets of `2 ^ 31`: the bound of the second one is zero, and a value between the
bounds is lost. -/
theorem wrapped_bound_not_credited : ∃ info,
    histreportInit 2 0x80000000 132 0 0 0 = .ok info ∧
      leastBucket 0x80000000 2 0x80000001 = some 1 ∧
      histreportTallyvalue 0x80000001 info = .ok info ∧
      histreportTallyvalue 0x80000001 info ≠
        .ok (info.credit 0x80000001 (leastBucket 0x80000000 2 0x80000001)) := by
  refine ⟨_, rfl, by decide, ?_⟩
  have h := histreportInit_isHistogram (n := 2) (by decide)
    (show histreportInit 2 0x80000000 132 0 0 0 = .ok _ from rfl)
  have hroute : route 0x80000000 2 0x80000001 = none := by decide
  rw [histreportTallyvalue_spec h, hroute]
  refine ⟨rfl, ?_⟩
  rw [Ne, Except.ok.injEq, Info.credit_inj]
  decide

end Routing

end MacKernel.Histogram
