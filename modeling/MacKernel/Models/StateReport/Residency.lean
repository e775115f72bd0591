import MacKernel.Models.StateReport.Effects
import Mathlib.Algebra.BigOperators.Fin
import Mathlib.Algebra.Order.BigOperators.Group.Finset

/-!
# Residency of state reports

The time that a machine spends in a state is read off its transitions alone; the
macros accumulate it from one update to the next. Both agree at the last update,
whatever updates were made before it.
-/

namespace MacKernel.StateReport

section Histories

/-- The transitions of a run: the new state and the time. -/
def transitions (n : Nat) (ops : List Op) : List (Nat × Nat) := ops.filterMap (Op.transition? n)

/-- The last time at which the ticks were brought up to date. -/
def lastUpdate (n : Nat) (ops : List Op) : Nat :=
  ((ops.filterMap (Op.update? n)).getLast?.getD 0).toNat

/-- The time that is passed to a macro. -/
def Op.time? : Op → Option UInt64
  | .setstate _ changeTime => some changeTime
  | .updateprep currentTime => some currentTime
  | _ => none

/-- Times are nonzero and do not decrease. -/
def Timed (ops : List Op) : Prop :=
  (∀ t ∈ ops.filterMap Op.time?, t ≠ 0) ∧ (ops.filterMap Op.time?).Pairwise (· ≤ ·)

/-- The macros of a run other than `STATEREPORT_UPDATEPREP`. -/
def withoutUpdates (ops : List Op) : List Op :=
  ops.filter fun op => match op with
    | .updateprep _ => false
    | _ => true

/-- The time spent in a state up to a time `stop`, by the transitions before it. -/
def spent (i : Nat) : List (Nat × Nat) → Nat → Nat
  | [], _ => 0
  | [(s, t)], stop => if s = i then stop - t else 0
  | (s, t) :: (s', t') :: rest, stop =>
    (if s = i then t' - t else 0) + spent i ((s', t') :: rest) stop

end Histories

section Spent

variable {i s t stop stop' : Nat} {trs : List (Nat × Nat)}

/-- One transition more ends a period and begins one. -/
theorem spent_snoc (i s t stop : Nat) (trs : List (Nat × Nat)) :
    spent i (trs ++ [(s, t)]) stop = spent i trs t + if s = i then stop - t else 0 := by
  induction trs with
  | nil => simp [spent]
  | cons tr trs ih =>
    obtain ⟨s₁, t₁⟩ := tr
    cases trs with
    | nil => simp [spent]
    | cons tr₂ trs =>
      obtain ⟨s₂, t₂⟩ := tr₂
      simp only [List.cons_append, spent] at ih ⊢
      rw [ih, Nat.add_assoc]

/-- More time passes in the last state. -/
theorem spent_extend (hlast : trs.getLast? = some (s, t)) (ht : t ≤ stop) (hs : stop ≤ stop') :
    spent i trs stop' = spent i trs stop + if s = i then stop' - stop else 0 := by
  obtain ⟨ys, rfl⟩ := List.getLast?_eq_some_iff.mp hlast
  rw [spent_snoc, spent_snoc]
  split_ifs <;> omega

/-- The time in all states is the time since the first transition. -/
theorem sum_spent {n : Nat} (hn : ∀ tr ∈ trs, tr.1 < n)
    (hsorted : (trs.map Prod.snd).Pairwise (· ≤ ·)) (hstop : ∀ tr ∈ trs, tr.2 ≤ stop)
    (hhead : trs.head? = some (s, t)) : ∑ i : Fin n, spent i trs stop = stop - t := by
  induction trs generalizing s t with
  | nil => cases hhead
  | cons tr trs ih =>
    obtain rfl : tr = (s, t) := Option.some.inj hhead
    have hone : ∀ d : Nat, ∑ i : Fin n, (if s = i.val then d else 0) = d := by
      intro d
      have hs : s < n := hn (s, t) List.mem_cons_self
      rw [Finset.sum_eq_single (⟨s, hs⟩ : Fin n)]
      · simp
      · intro j _ hj
        exact if_neg fun hsj => hj (Fin.ext hsj.symm)
      · simp
    cases trs with
    | nil => exact hone _
    | cons tr₂ trs =>
      obtain ⟨s₂, t₂⟩ := tr₂
      have hrest := ih (fun tr htr => hn tr (List.mem_cons_of_mem _ htr))
        (List.Pairwise.of_cons hsorted) (fun tr htr => hstop tr (List.mem_cons_of_mem _ htr)) rfl
      have hle : t ≤ t₂ := List.rel_of_pairwise_cons hsorted List.mem_cons_self
      have hle₂ : t₂ ≤ stop := hstop (s₂, t₂) (by simp)
      simp only [spent, Finset.sum_add_distrib, hone, hrest]
      omega

/-- No state has more time than there was. -/
theorem spent_le {n : Nat} (hn : ∀ tr ∈ trs, tr.1 < n)
    (hsorted : (trs.map Prod.snd).Pairwise (· ≤ ·)) (hstop : ∀ tr ∈ trs, tr.2 ≤ stop) (i : Fin n) :
    spent i trs stop ≤ stop := by
  cases trs with
  | nil => exact Nat.zero_le _
  | cons tr trs =>
    have hsum := sum_spent hn hsorted hstop (s := tr.1) (t := tr.2) rfl
    have hle : spent i (tr :: trs) stop ≤ ∑ j : Fin n, spent j (tr :: trs) stop :=
      Finset.single_le_sum (f := fun j : Fin n => spent j (tr :: trs) stop)
        (fun _ _ => Nat.zero_le _) (Finset.mem_univ i)
    omega

end Spent

section Times

variable {n : Nat} {ops : List Op} {op : Op} {t : UInt64}

/-- An update is made at the time of its call. -/
theorem Op.update?_eq_time? (h : op.update? n = some t) : op.time? = some t := by
  cases op with
  | setstate newStateIdx changeTime =>
    by_cases hlt : newStateIdx.toNat < n
    · simpa [Op.update?, Op.time?, hlt] using h
    · simp [Op.update?, hlt] at h
  | _ => exact h

/-- A call that updates stays in its state, or enters one at that time. -/
theorem Op.transition?_of_update? (h : op.update? n = some t) :
    op.transition? n = none ∨ ∃ s, s < n ∧ op.transition? n = some (s, t.toNat) := by
  cases op with
  | setstate newStateIdx changeTime =>
    by_cases hlt : newStateIdx.toNat < n
    · obtain rfl : changeTime = t := by simpa [Op.update?, hlt] using h
      exact .inr ⟨_, hlt, if_pos hlt⟩
    · simp [Op.update?, hlt] at h
  | _ => exact .inl rfl

/-- A call that does not update enters no state. -/
theorem Op.transition?_eq_none (h : op.update? n = none) : op.transition? n = none := by
  cases op with
  | setstate newStateIdx changeTime =>
    by_cases hlt : newStateIdx.toNat < n
    · simp [Op.update?, hlt] at h
    · exact if_neg hlt
  | _ => rfl

/-- The transitions of a run with one call more. -/
theorem transitions_snoc (n : Nat) (ops : List Op) (op : Op) :
    transitions n (ops ++ [op]) = transitions n ops ++ (op.transition? n).toList := by
  unfold transitions
  rw [List.filterMap_append]
  cases h : op.transition? n <;> simp [h]

/-- Updates are no transitions. -/
theorem transitions_withoutUpdates (n : Nat) (ops : List Op) :
    transitions n (withoutUpdates ops) = transitions n ops := by
  unfold transitions withoutUpdates
  rw [List.filterMap_filter]
  congr 1
  funext op
  cases op <;> rfl

/-- Only states of the report are entered. -/
theorem transition_lt {tr : Nat × Nat} (h : tr ∈ transitions n ops) : tr.1 < n := by
  obtain ⟨op, -, hop⟩ := List.mem_filterMap.mp h
  cases op with
  | setstate newStateIdx changeTime =>
    by_cases hlt : newStateIdx.toNat < n
    · obtain rfl := Option.some.inj ((if_pos hlt).symm.trans hop)
      exact hlt
    · exact absurd ((if_neg hlt).symm.trans hop) (by simp)
  | _ => cases hop

/-- A call that updates is the last update. -/
theorem lastUpdate_snoc_some (h : op.update? n = some t) :
    lastUpdate n (ops ++ [op]) = t.toNat := by
  simp [lastUpdate, h]

/-- A call that does not update leaves the last one. -/
theorem lastUpdate_snoc_none (h : op.update? n = none) :
    lastUpdate n (ops ++ [op]) = lastUpdate n ops := by
  simp [lastUpdate, h]

/-- The last update is one of the times. -/
theorem lastUpdate_eq (n : Nat) (ops : List Op) :
    lastUpdate n ops = 0 ∨ ∃ t ∈ ops.filterMap Op.time?, lastUpdate n ops = t.toNat := by
  unfold lastUpdate
  cases hlast : (ops.filterMap (Op.update? n)).getLast? with
  | none => exact .inl rfl
  | some t =>
    obtain ⟨op, hop, ht⟩ := List.mem_filterMap.mp (List.mem_of_getLast? hlast)
    exact .inr ⟨t, List.mem_filterMap.mpr ⟨op, hop, Op.update?_eq_time? ht⟩, rfl⟩

/-- The calls before a call of a timed run are timed. -/
theorem Timed.of_snoc (h : Timed (ops ++ [op])) : Timed ops := by
  unfold Timed at h ⊢
  rw [List.filterMap_append] at h
  exact ⟨fun t ht => h.1 t (List.mem_append_left _ ht), (List.pairwise_append.mp h.2).1⟩

/-- The time of the last macro is not before the updates. -/
theorem Timed.lastUpdate_le (h : Timed (ops ++ [op])) (ht : op.time? = some t) :
    t ≠ 0 ∧ lastUpdate n ops ≤ t.toNat := by
  unfold Timed at h
  rw [List.filterMap_append] at h
  have hmem : t ∈ [op].filterMap Op.time? := by simp [ht]
  refine ⟨h.1 t (List.mem_append_right _ hmem), ?_⟩
  rcases lastUpdate_eq n ops with hzero | ⟨t', ht', heq⟩
  · omega
  · rw [heq]
    exact UInt64.le_iff_toNat_le.mp ((List.pairwise_append.mp h.2).2.2 t' ht' t hmem)

end Times

section Accrual

variable {n : Nat} {past : List Op} {u v : Info n} {op : Op} {t : UInt64}

/-- The buffer holds what the transitions say, as of the last update. -/
structure Accrued (n : Nat) (ops : List Op) (info : Info n) : Prop where
  sorted : ((transitions n ops).map Prod.snd).Pairwise (· ≤ ·)
  le_last : ∀ tr ∈ transitions n ops, tr.2 ≤ lastUpdate n ops
  pos : transitions n ops ≠ [] → lastUpdate n ops ≠ 0
  curr : ∀ s t, (transitions n ops).getLast? = some (s, t) → info.currState.toNat = s
  updateTs : info.updateTs.toNat = if transitions n ops = [] then 0 else lastUpdate n ops
  upticks : ∀ i : Fin n,
    (info.elem i).values.upticks.toNat = spent i (transitions n ops) (lastUpdate n ops)
  intransitions : ∀ i : Fin n, (info.elem i).values.intransitions =
    UInt64.ofNat ((transitions n ops).countP (·.1 = i.val))

/-- Before the first transition the time of update is 0. -/
theorem Accrued.updateTs_eq_zero (h : Accrued n past u) (hnil : transitions n past = []) :
    u.updateTs = 0 := by
  apply UInt64.toNat.inj
  rw [h.updateTs, if_pos hnil]
  rfl

/-- From the first transition on it is not. -/
theorem Accrued.updateTs_ne_zero (h : Accrued n past u) (hne : transitions n past ≠ []) :
    u.updateTs ≠ 0 := by
  intro hz
  have hts := h.updateTs
  rw [if_neg hne, hz] at hts
  exact h.pos hne hts.symm

/-- After an update the ticks are those of the new time. -/
theorem Accrued.upticks_update (h : Accrued n past u) (hs : Stepped op u v)
    (hu : op.update? n = some t) (hle : lastUpdate n past ≤ t.toNat) (i : Fin n) :
    (v.elem i).values.upticks.toNat = spent i (transitions n past) t.toNat := by
  rw [hs.upticks, hu, Option.getD_some]
  have hupticks := h.upticks i
  cases hlast : (transitions n past).getLast? with
  | none =>
    have hnil := List.getLast?_eq_none_iff.mp hlast
    have hts := h.updateTs_eq_zero hnil
    rw [hnil] at hupticks ⊢
    simpa [hts, spent] using hupticks
  | some tr =>
    obtain ⟨s, t₀⟩ := tr
    have hne : transitions n past ≠ [] := by
      intro hnil
      simp [hnil] at hlast
    have hts : u.updateTs.toNat = lastUpdate n past := by rw [h.updateTs, if_neg hne]
    have hts0 := h.updateTs_ne_zero hne
    have hmem := List.mem_of_getLast? hlast
    have hext : spent i (transitions n past) t.toNat = spent i (transitions n past)
        (lastUpdate n past) + if s = i.val then t.toNat - lastUpdate n past else 0 :=
      spent_extend hlast (h.le_last _ hmem) hle
    have hbound : spent i (transitions n past) t.toNat ≤ t.toNat :=
      spent_le (fun tr htr => transition_lt htr) h.sorted
        (fun tr htr => (h.le_last tr htr).trans hle) i
    have hlt := t.toNat_lt
    rw [h.curr s t₀ hlast, hext]
    rw [hext] at hbound
    by_cases hsi : s = i.val
    · have hsub : (t - u.updateTs).toNat = t.toNat - lastUpdate n past := by
        rw [UInt64.toNat_sub_of_le _ _ (UInt64.le_iff_toNat_le.mpr (by omega)), hts]
      rw [if_pos hsi] at hbound
      rw [if_pos ⟨hts0, hsi⟩, if_pos hsi, UInt64.toNat_add, hupticks, hsub,
        Nat.mod_eq_of_lt (by omega)]
    · rw [if_neg fun hand => hsi hand.2, if_neg hsi]
      simpa using hupticks

/-- A call that does not update keeps the account. -/
theorem Accrued.skip (h : Accrued n past u) (hs : Stepped op u v) (hu : op.update? n = none) :
    Accrued n (past ++ [op]) v := by
  have ht := Op.transition?_eq_none hu
  have htrs : transitions n (past ++ [op]) = transitions n past := by
    rw [transitions_snoc, ht]
    exact List.append_nil _
  have hlast : lastUpdate n (past ++ [op]) = lastUpdate n past := lastUpdate_snoc_none hu
  constructor
  case sorted => rw [htrs]; exact h.sorted
  case le_last => rw [htrs, hlast]; exact h.le_last
  case pos => rw [htrs, hlast]; exact h.pos
  case curr =>
    intro s t hlast
    rw [htrs] at hlast
    rw [hs.currState, ht]
    exact h.curr s t hlast
  case updateTs =>
    rw [hs.updateTs, hu, htrs, hlast, Option.getD_none, ite_self]
    exact h.updateTs
  case upticks =>
    intro i
    rw [hs.upticks, hu, htrs, hlast]
    simpa using h.upticks i
  case intransitions =>
    intro i
    rw [hs.intransitions, ht, htrs]
    simpa using h.intransitions i

/-- Updates without a transition. -/
theorem Accrued.update (h : Accrued n past u) (hs : Stepped op u v) (hu : op.update? n = some t)
    (ht : op.transition? n = none) (ht0 : t ≠ 0) (hle : lastUpdate n past ≤ t.toNat) :
    Accrued n (past ++ [op]) v := by
  have htrs : transitions n (past ++ [op]) = transitions n past := by
    rw [transitions_snoc, ht]
    exact List.append_nil _
  have hlast : lastUpdate n (past ++ [op]) = t.toNat := lastUpdate_snoc_some hu
  constructor
  case sorted => rw [htrs]; exact h.sorted
  case le_last =>
    intro tr htr
    rw [htrs] at htr
    rw [hlast]
    exact (h.le_last tr htr).trans hle
  case pos =>
    intro _ hz
    rw [hlast] at hz
    exact ht0 (UInt64.toNat.inj hz)
  case curr =>
    intro s t hlast
    rw [htrs] at hlast
    rw [hs.currState, ht]
    exact h.curr s t hlast
  case updateTs =>
    rw [hs.updateTs, hu, ht, htrs, hlast]
    by_cases hnil : transitions n past = []
    · simp [h.updateTs_eq_zero hnil, hnil]
    · simp [h.updateTs_ne_zero hnil, hnil]
  case upticks =>
    intro i
    rw [htrs, hlast]
    exact h.upticks_update hs hu hle i
  case intransitions =>
    intro i
    rw [hs.intransitions, ht, htrs]
    simpa using h.intransitions i

/-- A transition to a state in range. -/
theorem Accrued.enter {s : Nat} (h : Accrued n past u) (hs : Stepped op u v)
    (hu : op.update? n = some t) (ht : op.transition? n = some (s, t.toNat)) (ht0 : t ≠ 0)
    (hle : lastUpdate n past ≤ t.toNat) : Accrued n (past ++ [op]) v := by
  have htrs : transitions n (past ++ [op]) = transitions n past ++ [(s, t.toNat)] := by
    rw [transitions_snoc, ht]
    rfl
  have hlast : lastUpdate n (past ++ [op]) = t.toNat := lastUpdate_snoc_some hu
  constructor
  case sorted =>
    rw [htrs, List.map_append, List.pairwise_append]
    refine ⟨h.sorted, List.pairwise_singleton _ _, ?_⟩
    intro t₁ ht₁ t₂ ht₂
    obtain ⟨tr, htr, rfl⟩ := List.mem_map.mp ht₁
    obtain rfl : t₂ = t.toNat := by simpa using ht₂
    exact (h.le_last tr htr).trans hle
  case le_last =>
    intro tr htr
    rw [htrs] at htr
    rw [hlast]
    rcases List.mem_append.mp htr with htr | htr
    · exact (h.le_last tr htr).trans hle
    · obtain rfl := List.mem_singleton.mp htr
      exact le_rfl
  case pos =>
    intro _ hz
    rw [hlast] at hz
    exact ht0 (UInt64.toNat.inj hz)
  case curr =>
    intro s' t' hlast'
    rw [htrs, List.getLast?_concat] at hlast'
    rw [hs.currState, ht]
    cases hlast'
    rfl
  case updateTs =>
    rw [hs.updateTs, hu, ht, htrs, hlast]
    simp
  case upticks =>
    intro i
    rw [htrs, hlast, spent_snoc, Nat.sub_self, ite_self, Nat.add_zero]
    exact h.upticks_update hs hu hle i
  case intransitions =>
    intro i
    rw [hs.intransitions, ht, htrs, List.countP_append, h.intransitions i]
    by_cases hsi : s = i.val
    · simp [hsi]
    · simp [hsi]

/-- Every call of a timed run keeps the account. -/
theorem Accrued.step (h : Accrued n past u) (hs : Stepped op u v) (htimed : Timed (past ++ [op])) :
    Accrued n (past ++ [op]) v := by
  cases hu : op.update? n with
  | none => exact h.skip hs hu
  | some t =>
    obtain ⟨ht0, hle⟩ := htimed.lastUpdate_le (n := n) (Op.update?_eq_time? hu)
    rcases Op.transition?_of_update? hu with ht | ⟨s, -, ht⟩
    · exact h.update hs hu ht ht0 hle
    · exact h.enter hs hu ht ht0 hle

/-- Every run goes through, and a timed one keeps the account. -/
theorem accrued_of_exec {info₀ : Info n} (hvalid : info₀.Valid) (hts : info₀.updateTs = 0)
    (hzero : ∀ i, (info₀.elem i).values.intransitions = 0 ∧ (info₀.elem i).values.upticks = 0 ∧
      (info₀.elem i).values.lastIntransition = 0) (ops : List Op) :
    ∃ info, info₀.exec ops = .ok info ∧ info.Valid ∧ (Timed ops → Accrued n ops info) := by
  apply Info.exec_spec (fun ops info => Timed ops → Accrued n ops info) hvalid
  · intro _
    constructor
    case sorted => exact List.Pairwise.nil
    case le_last => simp [transitions]
    case pos => simp [transitions]
    case curr => simp [transitions]
    case updateTs => simp [transitions, hts]
    case upticks =>
      intro i
      rw [(hzero i).2.1]
      rfl
    case intransitions =>
      intro i
      rw [(hzero i).1]
      rfl
  · intro past u v op hinv _ hstepped htimed
    exact (hinv htimed.of_snoc).step hstepped htimed

end Accrual

section Conservation

/-- What a buffer with `n` states promises after a run of macros. -/
structure Conserved (n : Nat) (info₀ : Info n) (ops : List Op) (info : Info n) : Prop where
  /-- The ticks of all states add up to the time from the first transition to the last update. -/
  total : ∀ s t, (transitions n ops).head? = some (s, t) →
    ∑ i : Fin n, (info.elem i).values.upticks.toNat = lastUpdate n ops - t
  /-- The ticks of a state are the time spent in it. -/
  upticks : ∀ i : Fin n,
    (info.elem i).values.upticks.toNat = spent i (transitions n ops) (lastUpdate n ops)
  /-- The transitions into a state are counted. -/
  intransitions : ∀ i : Fin n, (info.elem i).values.intransitions =
    UInt64.ofNat ((transitions n ops).countP (·.1 = i.val))
  /-- The getters return what is in the buffer. -/
  getters : ∀ (stateIdx : UInt32) (h : stateIdx.toNat < n),
    statereportGetticks stateIdx info = .ok (info.elem ⟨_, h⟩).values.upticks ∧
      statereportGettransitions stateIdx info = .ok (info.elem ⟨_, h⟩).values.intransitions
  /-- A state that is out of range changes nothing. -/
  outOfRange : ∀ (newStateIdx : UInt32) (changeTime : UInt64), n ≤ newStateIdx.toNat →
    info.step (.setstate newStateIdx changeTime) = .ok info
  /-- Other updates before a last one make no difference. -/
  updates : ∀ (ops' : List Op) (currentTime : UInt64) (info₁ info₂ : Info n),
    withoutUpdates ops' = withoutUpdates ops →
    Timed (ops ++ [.updateprep currentTime]) → Timed (ops' ++ [.updateprep currentTime]) →
    info₀.exec (ops ++ [.updateprep currentTime]) = .ok info₁ →
    info₀.exec (ops' ++ [.updateprep currentTime]) = .ok info₂ →
    ∀ i, (info₁.elem i).values.upticks = (info₂.elem i).values.upticks ∧
      (info₁.elem i).values.intransitions = (info₂.elem i).values.intransitions

variable {n : Nat} {info₀ info info₁ info₂ : Info n} {ops ops' : List Op}

/-- Updates in between do not change what the last one leaves. -/
theorem Accrued.eq_of_updateprep {currentTime : UInt64}
    (h₁ : Accrued n (ops ++ [.updateprep currentTime]) info₁)
    (h₂ : Accrued n (ops' ++ [.updateprep currentTime]) info₂)
    (hops : withoutUpdates ops' = withoutUpdates ops) (i : Fin n) :
    (info₁.elem i).values.upticks = (info₂.elem i).values.upticks ∧
      (info₁.elem i).values.intransitions = (info₂.elem i).values.intransitions := by
  have hlast : ∀ l : List Op, lastUpdate n (l ++ [.updateprep currentTime]) = currentTime.toNat :=
    fun l => lastUpdate_snoc_some rfl
  have htrs : transitions n (ops' ++ [.updateprep currentTime]) =
      transitions n (ops ++ [.updateprep currentTime]) := by
    rw [transitions_snoc, transitions_snoc, ← transitions_withoutUpdates n ops', hops,
      transitions_withoutUpdates]
  constructor
  · apply UInt64.toNat.inj
    rw [h₁.upticks, h₂.upticks, hlast, hlast, htrs]
  · rw [h₁.intransitions, h₂.intransitions, htrs]

/-- For every number of states, after every run of macros at nonzero times that do not decrease,
the ticks and transitions in the buffer are those of the run. -/
theorem conserved_of_exec {bufSize : Nat} (hpos : 0 < n) (hn : n ≤ 65535)
    (hsize : statereportBufsize n ≤ bufSize) (providerID channelID : UInt64) (cats : UInt16)
    (htimed : Timed ops) :
    ∃ info₀ info, statereportInit n bufSize providerID channelID cats = .ok info₀ ∧
      info₀.exec ops = .ok info ∧ Conserved n info₀ ops info := by
  obtain ⟨info₀, hinit, hvalid₀, hts, hzero⟩ :=
    statereportInit_ok hpos hn hsize providerID channelID cats
  have hexec := accrued_of_exec hvalid₀ hts hzero
  obtain ⟨info, hinfo, hvalid, hacc⟩ := hexec ops
  have hacc := hacc htimed
  refine ⟨info₀, info, hinit, hinfo, ?_⟩
  constructor
  case total =>
    intro s t hhead
    rw [Finset.sum_congr rfl fun i _ => hacc.upticks i]
    exact sum_spent (fun tr htr => transition_lt htr) hacc.sorted hacc.le_last hhead
  case upticks => exact hacc.upticks
  case intransitions => exact hacc.intransitions
  case getters =>
    intro stateIdx h
    exact ⟨statereportGetticks_of_lt hvalid h, statereportGettransitions_of_lt hvalid h⟩
  case outOfRange =>
    intro newStateIdx changeTime hle
    exact statereportSetstate_of_le hvalid changeTime hle
  case updates =>
    intro ops' currentTime info₁ info₂ hops ht₁ ht₂ h₁ h₂
    obtain ⟨_, h₁', -, hacc₁⟩ := hexec (ops ++ [.updateprep currentTime])
    obtain ⟨_, h₂', -, hacc₂⟩ := hexec (ops' ++ [.updateprep currentTime])
    obtain rfl := Except.ok.inj (h₁.symm.trans h₁')
    obtain rfl := Except.ok.inj (h₂.symm.trans h₂')
    exact (hacc₁ ht₁).eq_of_updateprep (hacc₂ ht₂) hops

/-- Two states, with an update between the transitions. -/
theorem conserved_two_states : ∃ info₀ info : Info 2,
    statereportInit 2 144 1 2 0 = .ok info₀ ∧
      info₀.exec [.setstate 0 5, .updateprep 7, .setstate 1 9] = .ok info ∧
      Conserved 2 info₀ [.setstate 0 5, .updateprep 7, .setstate 1 9] info := by
  have htimed : Timed [.setstate 0 5, .updateprep 7, .setstate 1 9] := by simp [Timed, Op.time?]
  exact conserved_of_exec (by decide) (by decide) (by decide) 1 2 0 htimed

/-- A last macro that names no state does not bring the ticks up to its time. -/
theorem out_of_range_not_counted : Timed [.setstate 0 5, .setstate 1 9] ∧
    ∃ info₀ info : Info 1, statereportInit 1 80 1 2 0 = .ok info₀ ∧
      info₀.exec [.setstate 0 5, .setstate 1 9] = .ok info ∧
      (∑ i : Fin 1, (info.elem i).values.upticks.toNat) ≠ 9 - 5 := by
  have htimed : Timed [.setstate 0 5, .setstate 1 9] := by simp [Timed, Op.time?]
  exact ⟨htimed, _, _, rfl, rfl, by decide⟩

end Conservation

end MacKernel.StateReport
