import MacKernel.Core.Extremes
import MacKernel.Models.Histogram.Routing
import Mathlib.Algebra.BigOperators.Fin
import Mathlib.Data.Nat.ModEq

/-!
# Accounting of histogram reports

A bucket summarises the values that went to it: their number and their sum modulo
`2 ^ 64`, and their extremes as long as the number has not come back to zero. Over a
sequence of values each bucket follows its own values only, so the order of the
sequence leaves no trace.
-/

namespace MacKernel.Histogram

instance instLinearOrderInt64 : LinearOrder Int64 where
  le_refl := Int64.le_refl
  le_trans _ _ _ := Int64.le_trans
  lt_iff_le_not_ge _ _ := by
    rw [Int64.not_le, Int64.lt_iff_le_and_ne]
    exact ⟨fun h => ⟨h.1, h⟩, And.right⟩
  le_antisymm _ _ := Int64.le_antisymm
  le_total := Int64.le_total
  toDecidableLE := inferInstance

section Buckets

variable {rep rep' : Values} {l l' : List Int64}

/-- What the values that went to a bucket leave in it. -/
structure Values.Summarises (rep : Values) (l : List Int64) : Prop where
  hits : rep.bucketHits = UInt64.ofNat l.length
  sum : rep.bucketSum = Int64.ofInt (l.map Int64.toInt).sum
  fresh : l = [] → rep.bucketMin = 0 ∧ rep.bucketMax = 0
  extremes : l ≠ [] → l.length < 2 ^ 64 → Extremes l rep.bucketMin rep.bucketMax

/-- The first hit seeds the extremes. -/
theorem Values.record_of_fresh (h : rep.bucketHits = 0) (value : Int64) :
    (rep.record value).bucketMin = value ∧ (rep.record value).bucketMax = value := by
  rw [Values.record, if_pos h]
  exact ⟨rfl, rfl⟩

/-- A value cannot be below the minimum and above the maximum at once, so one branch is
enough. -/
theorem Values.record_extremes (h : rep.bucketHits ≠ 0) (hle : rep.bucketMin ≤ rep.bucketMax)
    (value : Int64) : (rep.record value).bucketMin = min value rep.bucketMin ∧
      (rep.record value).bucketMax = max value rep.bucketMax := by
  rw [Values.record, if_neg h]
  by_cases hbelow : value < rep.bucketMin
  · rw [if_pos hbelow, min_eq_left hbelow.le, max_eq_right (hbelow.le.trans hle)]
    exact ⟨rfl, rfl⟩
  · rw [if_neg hbelow, min_eq_right (not_lt.mp hbelow)]
    by_cases habove : value > rep.bucketMax
    · rw [if_pos habove, max_eq_left (le_of_lt habove)]
      exact ⟨rfl, rfl⟩
    · rw [if_neg habove, max_eq_right (not_lt.mp habove)]
      exact ⟨rfl, rfl⟩

/-- A bucket with values, fewer than wrap the count, has hits. -/
theorem Values.Summarises.hits_ne_zero (h : rep.Summarises l) (hne : l ≠ [])
    (hlt : l.length < 2 ^ 64) : rep.bucketHits ≠ 0 := by
  intro hzero
  have hnat := congrArg UInt64.toNat (h.hits.symm.trans hzero)
  rw [UInt64.toNat_ofNat', Nat.mod_eq_of_lt hlt] at hnat
  exact hne (List.length_eq_zero_iff.mp hnat)

/-- One more value. -/
theorem Values.Summarises.record (h : rep.Summarises l) (value : Int64) :
    (rep.record value).Summarises (l ++ [value]) where
  hits := by
    rw [(rep.record_totals value).1, h.hits, List.length_append, UInt64.ofNat_add]
    rfl
  sum := by
    rw [(rep.record_totals value).2, h.sum, List.map_append, List.sum_append, Int64.ofInt_add,
      List.map_singleton, List.sum_singleton, Int64.ofInt_toInt]
  fresh hnil := absurd hnil (List.append_ne_nil_of_right_ne_nil _ (List.cons_ne_nil _ _))
  extremes _ hlt := by
    rw [List.length_append, List.length_singleton] at hlt
    by_cases hnil : l = []
    · subst hnil
      obtain ⟨hmin, hmax⟩ := Values.record_of_fresh h.hits value
      rw [hmin, hmax]
      exact extremes_singleton value
    · have hlt' : l.length < 2 ^ 64 := by omega
      have hextremes := h.extremes hnil hlt'
      obtain ⟨hmin, hmax⟩ := Values.record_extremes (h.hits_ne_zero hnil hlt') hextremes.le value
      rw [hmin, hmax]
      exact hextremes.snoc value

/-- The values of a bucket in another order. -/
theorem Values.Summarises.unique (h : rep.Summarises l) (h' : rep'.Summarises l')
    (hperm : l.Perm l') (hlt : l.length < 2 ^ 64) : rep = rep' := by
  have hhits : rep.bucketHits = rep'.bucketHits := by rw [h.hits, h'.hits, hperm.length_eq]
  have hsum : rep.bucketSum = rep'.bucketSum := by
    rw [h.sum, h'.sum, (hperm.map Int64.toInt).sum_eq]
  have hextremes : rep.bucketMin = rep'.bucketMin ∧ rep.bucketMax = rep'.bucketMax := by
    by_cases hnil : l = []
    · subst hnil
      obtain ⟨hmin, hmax⟩ := h.fresh rfl
      obtain ⟨hmin', hmax'⟩ := h'.fresh hperm.nil_eq.symm
      exact ⟨hmin.trans hmin'.symm, hmax.trans hmax'.symm⟩
    · have hnil' : l' ≠ [] := fun hnil' => hnil (hnil' ▸ hperm).eq_nil
      exact (h.extremes hnil hlt).unique (h'.extremes hnil' (hperm.length_eq ▸ hlt))
        fun v => hperm.mem_iff
  exact Values.ext hhits hextremes.1 hextremes.2 hsum

end Buckets

section Sequences

variable {n : Nat} {start info info' : Info n} {width : UInt32} {values values' : List Int64}

/-- The values that go to a bucket. -/
def routed (width : UInt32) (values : List Int64) (k : Fin n) : List Int64 :=
  values.filter fun value => route width n value = some k

/-- The values that go to no bucket. -/
def unrouted (width : UInt32) (n : Nat) (values : List Int64) : List Int64 :=
  values.filter fun value => route width n value = none

/-- A value more goes to the bucket that it is routed to. -/
theorem routed_snoc (width : UInt32) (values : List Int64) (value : Int64) (k : Fin n) :
    routed width (values ++ [value]) k =
      if route width n value = some k then routed width values k ++ [value]
      else routed width values k := by
  rw [routed, List.filter_append, ← routed]
  by_cases h : route width n value = some k
  · simp [h]
  · simp [h]

/-- Every value goes to one bucket or to none. -/
theorem sum_length_routed (width : UInt32) (n : Nat) (values : List Int64) :
    ∑ k : Fin n, (routed width values k).length + (unrouted width n values).length =
      values.length := by
  induction values with
  | nil => simp [routed, unrouted]
  | cons value values ih =>
    have hrouted : ∀ k : Fin n, (routed width (value :: values) k).length =
        (if route width n value = some k then 1 else 0) + (routed width values k).length := by
      intro k
      by_cases h : route width n value = some k
      · simp [routed, h, Nat.add_comm]
      · simp [routed, h]
    have hone : ∑ k : Fin n, (if route width n value = some k then 1 else 0) +
        (unrouted width n (value :: values)).length = 1 + (unrouted width n values).length := by
      cases h : route width n value with
      | none => simp [unrouted, h, Nat.add_comm]
      | some k => simp [unrouted, h]
    rw [Finset.sum_congr rfl fun k _ => hrouted k, Finset.sum_add_distrib, List.length_cons]
    omega

/-- A buffer after a sequence of values: each bucket has the values that went to it. -/
structure Info.Accounts (info start : Info n) (width : UInt32) (values : List Int64) : Prop where
  histogram : info.IsHistogram width
  frame : ∀ k, info.elem k = { start.elem k with values := (info.elem k).values }
  summaries : ∀ k, (info.elem k).values.Summarises (routed width values k)

/-- A credit keeps the accounts. -/
theorem Info.Accounts.credit (h : info.Accounts start width values) (value : Int64) :
    (info.credit value (route width n value)).Accounts start width (values ++ [value]) where
  histogram := h.histogram.credit _ _
  frame k := by
    rw [info.credit_elem, h.frame k]
  summaries k := by
    rw [info.credit_elem, routed_snoc]
    by_cases hk : route width n value = some k
    · simpa only [if_pos hk] using (h.summaries k).record value
    · simpa only [if_neg hk] using h.summaries k

/-- Every run of tallies goes through and keeps the accounts. -/
theorem Info.Accounts.tallyAll (h : info.Accounts start width values) (values' : List Int64) :
    ∃ info', info.tallyAll values' = .ok info' ∧
      info'.Accounts start width (values ++ values') := by
  induction values' generalizing info values with
  | nil => exact ⟨info, rfl, values.append_nil.symm ▸ h⟩
  | cons value values' ih =>
    obtain ⟨info', hrun, h'⟩ := ih (h.credit value)
    refine ⟨info', ?_, by rwa [List.append_assoc] at h'⟩
    rw [Info.tallyAll, histreportTallyvalue_spec h.histogram, ok_bind, hrun]

/-- The order of the values does not matter. -/
theorem Info.Accounts.unique (h : info.Accounts start width values)
    (h' : info'.Accounts start width values') (hperm : values.Perm values')
    (hlt : ∀ k : Fin n, (routed width values k).length < 2 ^ 64) : info = info' := by
  have hwidth := h.histogram.width_eq.trans h'.histogram.width_eq.symm
  refine Info.ext hwidth (funext fun k => ?_)
  have hvalues := (h.summaries k).unique (h'.summaries k) (hperm.filter _) (hlt k)
  rw [h.frame k, h'.frame k, hvalues]

/-- Initialising starts the accounts. -/
theorem histreportInit_accounts {bufSize : Nat} (hn : 1 ≤ n ∧ n ≤ 65535)
    (hsize : bufSize ≥ histreportBufsize n) (width : UInt32) (providerID channelID : UInt64)
    (cats : UInt16) : ∃ start : Info n,
      histreportInit n width bufSize providerID channelID cats = .ok start ∧
      start.Accounts start width [] := by
  refine ⟨_, if_pos hsize, ?_⟩
  refine ⟨histreportInit_isHistogram hn (if_pos hsize), fun _ => rfl, fun k => ?_⟩
  exact ⟨rfl, rfl, fun _ => ⟨rfl, rfl⟩, fun hne => absurd rfl hne⟩

end Sequences

section Accounting

variable {n : Nat} {start info : Info n} {width : UInt32} {values : List Int64}

/-- All hits together are the values that were routed, up to wrapping. -/
theorem Info.Accounts.total_hits (h : info.Accounts start width values) :
    ∑ k, (info.elem k).values.bucketHits.toNat + (unrouted width n values).length ≡
      values.length [MOD 2 ^ 64] := by
  have hhits : ∀ k : Fin n, (info.elem k).values.bucketHits.toNat =
      (routed width values k).length % 2 ^ 64 := by
    intro k
    rw [(h.summaries k).hits, UInt64.toNat_ofNat']
  rw [← sum_length_routed width n values, Finset.sum_congr rfl fun k _ => hhits k]
  exact Nat.ModEq.add_right _ (Finset.sum_nat_mod _ _ _).symm

/-- All hits together are the values that were routed. -/
theorem Info.Accounts.total_hits_of_lt (h : info.Accounts start width values)
    (hlt : ∀ k : Fin n, (routed width values k).length < 2 ^ 64) :
    ∑ k, (info.elem k).values.bucketHits.toNat + (unrouted width n values).length =
      values.length := by
  have hhits : ∀ k : Fin n, (info.elem k).values.bucketHits.toNat =
      (routed width values k).length := by
    intro k
    rw [(h.summaries k).hits, UInt64.toNat_ofNat', Nat.mod_eq_of_lt (hlt k)]
  rw [Finset.sum_congr rfl fun k _ => hhits k, sum_length_routed]

/-- The buckets after any sequence of values: hits and sums modulo `2 ^ 64`, one bucket for
the next value or none, and the extremes, the total and independence of the order where no
bucket gets `2 ^ 64` values. -/
theorem histogram_accounting {bufSize : Nat} (hn : 1 ≤ n ∧ n ≤ 65535)
    (hsize : bufSize ≥ histreportBufsize n) (width : UInt32) (providerID channelID : UInt64)
    (cats : UInt16) : ∃ start : Info n,
      histreportInit n width bufSize providerID channelID cats = .ok start ∧
      ∀ values, ∃ info, start.tallyAll values = .ok info ∧
        (∀ k, (info.elem k).values.bucketHits = UInt64.ofNat (routed width values k).length ∧
          (info.elem k).values.bucketSum =
            Int64.ofInt ((routed width values k).map Int64.toInt).sum) ∧
        (∀ k, routed width values k ≠ [] → (routed width values k).length < 2 ^ 64 →
          IsLeast {v | v ∈ routed width values k} (info.elem k).values.bucketMin ∧
            IsGreatest {v | v ∈ routed width values k} (info.elem k).values.bucketMax) ∧
        (∀ value, histreportTallyvalue value info =
          .ok (info.credit value (route width n value))) ∧
        (∀ value, route width n value = none → histreportTallyvalue value info = .ok info) ∧
        ∑ k, (info.elem k).values.bucketHits.toNat + (unrouted width n values).length ≡
          values.length [MOD 2 ^ 64] ∧
        ((∀ k : Fin n, (routed width values k).length < 2 ^ 64) →
          ∑ k, (info.elem k).values.bucketHits.toNat + (unrouted width n values).length =
              values.length ∧
            ∀ values', values.Perm values' → start.tallyAll values' = .ok info) := by
  obtain ⟨start, hinit, hstart⟩ :=
    histreportInit_accounts hn hsize width providerID channelID cats
  refine ⟨start, hinit, fun values => ?_⟩
  obtain ⟨info, hrun, h⟩ := hstart.tallyAll values
  refine ⟨info, hrun, fun k => ⟨(h.summaries k).hits, (h.summaries k).sum⟩, fun k hne hlt => ?_,
    histreportTallyvalue_spec h.histogram, fun value hroute => ?_, h.total_hits,
    fun hlt => ⟨h.total_hits_of_lt hlt, ?_⟩⟩
  · have hextremes := (h.summaries k).extremes hne hlt
    exact ⟨hextremes.least, hextremes.greatest⟩
  · rw [histreportTallyvalue_spec h.histogram, hroute]
    rfl
  · intro values' hperm
    obtain ⟨info', hrun', h'⟩ := hstart.tallyAll values'
    rw [h.unique h' hperm hlt]
    exact hrun'

/-- Four values, of which one is above all buckets. -/
theorem histogram_accounting_fourValues : ∃ start : Info 3,
    histreportInit 3 10 196 0 0 0 = .ok start ∧ ∃ info,
      start.tallyAll [25, -4, 31, 22] = .ok info ∧
        (info.elem 2).values.bucketHits = 2 ∧ (info.elem 2).values.bucketSum = 47 := by
  obtain ⟨start, hinit, hvalues⟩ :=
    histogram_accounting (n := 3) (by decide) (show 196 ≥ histreportBufsize 3 by decide) 10 0 0 0
  obtain ⟨info, hrun, hbuckets, -⟩ := hvalues [25, -4, 31, 22]
  have hrouted : routed 10 [25, -4, 31, 22] (2 : Fin 3) = [25, 22] := by decide
  obtain ⟨hhits, hsum⟩ := hbuckets 2
  rw [hrouted] at hhits hsum
  exact ⟨start, hinit, info, hrun, hhits, hsum⟩

end Accounting

section Wrapping

variable {n : Nat} {start : Info n} {width : UInt32} {values : List Int64} {k : Fin n}

/-- Equal values go to one bucket. -/
theorem routed_replicate {value : Int64} (h : route width n value = some k) (m : Nat) :
    routed width (List.replicate m value) k = List.replicate m value := by
  rw [routed, List.filter_eq_self]
  intro v hv
  rw [List.eq_of_mem_replicate hv, h]
  exact decide_eq_true rfl

/-- Two runs of tallies are one. -/
theorem Info.tallyAll_append {info info' : Info n} {values' : List Int64}
    (h : info.tallyAll values = .ok info') :
    info.tallyAll (values ++ values') = info'.tallyAll values' := by
  induction values generalizing info with
  | nil => rw [Except.ok.inj h, List.nil_append]
  | cons value values ih =>
    obtain ⟨mid, hmid, hrest⟩ := bind_eq_ok.mp h
    rw [List.cons_append, Info.tallyAll, hmid]
    exact ih hrest

/-- When the number of hits has come back to zero, the next value seeds the extremes again. -/
theorem Info.Accounts.reseeds (h : start.Accounts start width [])
    (hwrap : UInt64.ofNat (routed width values k).length = 0) {value : Int64}
    (hroute : route width n value = some k) :
    ∃ info, start.tallyAll (values ++ [value]) = .ok info ∧
      (info.elem k).values.bucketHits = 1 ∧ (info.elem k).values.bucketMin = value := by
  obtain ⟨info, hrun, hinfo⟩ := h.tallyAll values
  have hhits : (info.elem k).values.bucketHits = 0 := (hinfo.summaries k).hits.trans hwrap
  refine ⟨info.record k value, ?_, ?_, ?_⟩
  · rw [Info.tallyAll_append hrun, Info.tallyAll, histreportTallyvalue_spec hinfo.histogram, hroute]
    rfl
  · rw [info.record_elem, if_pos rfl, (Values.record_totals _ _).1, hhits]
    rfl
  · rw [info.record_elem, if_pos rfl]
    exact (Values.record_of_fresh hhits value).1

/-- After `2 ^ 64` zeros in one bucket its only hit is the next value, and the minimum is no
longer the least one. -/
theorem wrapped_hits_lose_minimum : ∃ (start info : Info 1),
    histreportInit 1 1 68 0 0 0 = .ok start ∧
      start.tallyAll (List.replicate (2 ^ 64) 0 ++ [1]) = .ok info ∧
      (info.elem 0).values.bucketHits = 1 ∧
      ¬ IsLeast {v | v ∈ routed 1 (List.replicate (2 ^ 64) 0 ++ [1]) (0 : Fin 1)}
        (info.elem 0).values.bucketMin := by
  have hzero : route 1 1 0 = some 0 := by decide
  have hone : route 1 1 1 = some 0 := by decide
  have hpos : 0 < 2 ^ 64 := by decide
  have hcount : UInt64.ofNat (2 ^ 64) = 0 := by decide
  generalize 2 ^ 64 = m at hpos hcount ⊢
  obtain ⟨start, hinit, hstart⟩ := histreportInit_accounts (n := 1) (by decide)
    (show 68 ≥ histreportBufsize 1 by decide) 1 0 0 0
  have hwrap : UInt64.ofNat (routed 1 (List.replicate m 0) (0 : Fin 1)).length = 0 := by
    rw [routed_replicate hzero, List.length_replicate, hcount]
  obtain ⟨info, hrun, hhits, hmin⟩ := hstart.reseeds hwrap hone
  refine ⟨start, info, hinit, hrun, hhits, fun hleast => ?_⟩
  have hmem : (0 : Int64) ∈ routed 1 (List.replicate m 0 ++ [1]) (0 : Fin 1) := by
    rw [routed_snoc, if_pos hone, routed_replicate hzero]
    exact List.mem_append_left _ (List.mem_replicate.mpr ⟨hpos.ne', rfl⟩)
  rw [hmin] at hleast
  exact absurd (hleast.2 hmem) (by decide)

end Wrapping

end MacKernel.Histogram
