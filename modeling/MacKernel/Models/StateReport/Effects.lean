import MacKernel.Models.StateReport.Native
import Mathlib.Data.List.Induction

/-!
# What the state report macros do

The effect of every macro on the fields of a buffer, stated once for all macros, and
the induction over runs of macros that follows from it.
-/

namespace MacKernel.StateReport

/-- The transition of a macro, if the state is in range. -/
def Op.transition? (n : Nat) : Op → Option (Nat × Nat)
  | .setstate newStateIdx changeTime =>
    if newStateIdx.toNat < n then some (newStateIdx.toNat, changeTime.toNat) else none
  | _ => none

/-- The time at which a macro brings the ticks up to date. -/
def Op.update? (n : Nat) : Op → Option UInt64
  | .setstate newStateIdx changeTime =>
    if newStateIdx.toNat < n then some changeTime else none
  | .updateprep currentTime => some currentTime
  | _ => none

section Steps

variable {n : Nat} {info : Info n}

/-- What every macro relies on. -/
structure Info.Valid (info : Info n) : Prop where
  nelements : ∀ i, (info.elem i).channelType.nelements.toNat = n
  currState : info.currState.toNat < n

/-- An index inside the bounds is read. -/
theorem index_of_lt {i : Nat} (h : i < n) : index n i = .ok ⟨i, h⟩ := dif_pos h

/-- The state count is read from the report. -/
theorem Info.Valid.nelements_eq (h : info.Valid) :
    ∃ m, info.nelements = .ok m ∧ m.toNat = n := by
  have hpos : 0 < n := Nat.zero_lt_of_lt h.currState
  refine ⟨(info.elem ⟨0, hpos⟩).channelType.nelements, ?_, h.nelements _⟩
  simp only [Info.nelements, index_of_lt hpos, ok_bind]
  rfl

/-- A change of one state leaves the others. -/
theorem Info.elem_modify (info : Info n) (j i : Fin n) (f : Element → Element) :
    (info.modify j f).elem i = if i = j then f (info.elem i) else info.elem i := by
  by_cases hi : i = j
  · subst hi
    simp [Info.modify]
  · simp [Info.modify, hi]

/-- An update of the current state, or nothing before the first transition. -/
def Info.accrue (info : Info n) (curr : Fin n) (time : UInt64) : Info n :=
  if info.updateTs ≠ 0 then info.modify curr (·.addUpticks (time - info.updateTs)) else info

/-- Ticks accrue to the current state, once there is a time to count from. -/
theorem Info.elem_accrue (info : Info n) (curr i : Fin n) (time : UInt64) :
    (info.accrue curr time).elem i =
      (info.elem i).addUpticks
        (if info.updateTs ≠ 0 ∧ curr = i then time - info.updateTs else 0) := by
  unfold Info.accrue
  by_cases hu : info.updateTs = 0
  · simp [hu, Element.addUpticks]
  · rw [if_pos hu, Info.elem_modify]
    by_cases hi : curr = i
    · simp [hu, hi]
    · simp [hu, hi, Ne.symm hi, Element.addUpticks]

/-- A transition to a state in range. -/
theorem statereportSetstate_of_lt (h : info.Valid) {newStateIdx : UInt32} (changeTime : UInt64)
    (hlt : newStateIdx.toNat < n) : statereportSetstate newStateIdx changeTime info =
      .ok { (info.accrue ⟨_, h.currState⟩ changeTime).modify ⟨_, hlt⟩ (·.enter changeTime) with
        currState := newStateIdx.toUInt16, updateTs := changeTime } := by
  obtain ⟨m, hm, hn⟩ := h.nelements_eq
  simp only [statereportSetstate, hm, ok_bind, hn, if_pos hlt, index_of_lt h.currState,
    index_of_lt hlt]
  rfl

/-- A state that is not in range changes nothing. -/
theorem statereportSetstate_of_le (h : info.Valid) {newStateIdx : UInt32} (changeTime : UInt64)
    (hle : n ≤ newStateIdx.toNat) : statereportSetstate newStateIdx changeTime info = .ok info := by
  obtain ⟨m, hm, hn⟩ := h.nelements_eq
  simp only [statereportSetstate, hm, ok_bind, hn, if_neg (Nat.not_lt.mpr hle)]
  rfl

/-- `STATEREPORT_UPDATEPREP` accrues ticks to the current state. -/
theorem statereportUpdateprep_eq (h : info.Valid) (currentTime : UInt64) :
    ∃ size, statereportUpdateprep currentTime info = .ok
      (if info.updateTs ≠ 0 then
        { info.modify ⟨_, h.currState⟩ fun e =>
            { e.addUpticks (currentTime - info.updateTs) with timestamp := currentTime } with
          updateTs := currentTime }
      else info, size) := by
  obtain ⟨m, hm, hn⟩ := h.nelements_eq
  refine ⟨m.toNat * 64, ?_⟩
  simp only [statereportUpdateprep, hm, ok_bind, index_of_lt h.currState]
  split_ifs
  · rfl
  · rfl

/-- The transitions of a state are read. -/
theorem statereportGettransitions_of_lt (h : info.Valid) {i : UInt32} (hi : i.toNat < n) :
    statereportGettransitions i info = .ok (info.elem ⟨_, hi⟩).values.intransitions := by
  obtain ⟨m, hm, hn⟩ := h.nelements_eq
  simp only [statereportGettransitions, hm, ok_bind, hn, if_pos hi, index_of_lt hi]
  rfl

/-- The ticks of a state are read. -/
theorem statereportGetticks_of_lt (h : info.Valid) {i : UInt32} (hi : i.toNat < n) :
    statereportGetticks i info = .ok (info.elem ⟨_, hi⟩).values.upticks := by
  obtain ⟨m, hm, hn⟩ := h.nelements_eq
  simp only [statereportGetticks, hm, ok_bind, hn, if_pos hi, index_of_lt hi]
  rfl

/-- The getters return for every index. -/
theorem Info.Valid.getters (h : info.Valid) (i : UInt32) :
    (∃ v, statereportGettransitions i info = .ok v) ∧
      ∃ v, statereportGetticks i info = .ok v := by
  by_cases hi : i.toNat < n
  · exact ⟨⟨_, statereportGettransitions_of_lt h hi⟩, _, statereportGetticks_of_lt h hi⟩
  · obtain ⟨m, hm, hn⟩ := h.nelements_eq
    constructor
    · refine ⟨kIOReportInvalidValue, ?_⟩
      simp only [statereportGettransitions, hm, ok_bind, hn, if_neg hi]
      rfl
    · refine ⟨kIOReportInvalidValue, ?_⟩
      simp only [statereportGetticks, hm, ok_bind, hn, if_neg hi]
      rfl

/-- What a macro does to the fields of the buffer. -/
structure Stepped (op : Op) (info info' : Info n) : Prop where
  channelType : ∀ i, (info'.elem i).channelType = (info.elem i).channelType
  lastIntransition : ∀ i,
    (info'.elem i).values.lastIntransition = (info.elem i).values.lastIntransition
  intransitions : ∀ i, (info'.elem i).values.intransitions =
    (info.elem i).values.intransitions +
      if (op.transition? n).map Prod.fst = some i.val then 1 else 0
  upticks : ∀ i, (info'.elem i).values.upticks = (info.elem i).values.upticks +
    if info.updateTs ≠ 0 ∧ info.currState.toNat = i then
      ((op.update? n).getD info.updateTs) - info.updateTs else 0
  currState : info'.currState.toNat = ((op.transition? n).map Prod.fst).getD info.currState.toNat
  updateTs : info'.updateTs =
    if info.updateTs ≠ 0 ∨ op.transition? n ≠ none then (op.update? n).getD info.updateTs
    else info.updateTs

/-- Macros that store nothing. -/
theorem Stepped.refl {op : Op} (ht : op.transition? n = none)
    (hu : op.update? n = none ∨ info.updateTs = 0) : Stepped op info info := by
  constructor
  case channelType => exact fun _ => rfl
  case lastIntransition => exact fun _ => rfl
  case intransitions => simp [ht]
  case upticks =>
    intro i
    rcases hu with hu | hu
    · simp [hu]
    · simp [hu]
  case currState => simp [ht]
  case updateTs =>
    rcases hu with hu | hu
    · simp [hu]
    · simp [hu, ht]

/-- `STATEREPORT_SETSTATE` accrues ticks and enters the new state. -/
theorem Stepped.setstate (h : info.Valid) {newStateIdx : UInt32} (changeTime : UInt64)
    (hlt : newStateIdx.toNat < n) : Stepped (.setstate newStateIdx changeTime) info
      { (info.accrue ⟨_, h.currState⟩ changeTime).modify ⟨_, hlt⟩ (·.enter changeTime) with
        currState := newStateIdx.toUInt16, updateTs := changeTime } := by
  have ht : Op.transition? n (.setstate newStateIdx changeTime) =
      some (newStateIdx.toNat, changeTime.toNat) := if_pos hlt
  have hu : Op.update? n (.setstate newStateIdx changeTime) = some changeTime := if_pos hlt
  have hn : n < 65536 := by
    have hm := (info.elem ⟨_, h.currState⟩).channelType.nelements.toNat_lt
    rwa [h.nelements] at hm
  have helem : ∀ i : Fin n, ((info.accrue ⟨_, h.currState⟩ changeTime).modify ⟨_, hlt⟩
      (·.enter changeTime)).elem i = if i.val = newStateIdx.toNat then
        ((info.elem i).addUpticks (if info.updateTs ≠ 0 ∧ info.currState.toNat = i then
          changeTime - info.updateTs else 0)).enter changeTime
      else (info.elem i).addUpticks (if info.updateTs ≠ 0 ∧ info.currState.toNat = i then
          changeTime - info.updateTs else 0) := by
    intro i
    simp only [Info.elem_modify, Info.elem_accrue, Fin.ext_iff]
  constructor
  case channelType =>
    intro i
    simp only [helem]
    split_ifs <;> rfl
  case lastIntransition =>
    intro i
    simp only [helem]
    split_ifs <;> rfl
  case intransitions =>
    intro i
    simp only [helem, ht, Option.map_some, Option.some.injEq, eq_comm (a := newStateIdx.toNat)]
    split_ifs <;> simp [Element.enter, Element.addUpticks]
  case upticks =>
    intro i
    simp only [helem, hu, Option.getD_some]
    split_ifs <;> simp [Element.enter, Element.addUpticks]
  case currState =>
    rw [ht]
    simp
    omega
  case updateTs => simp [ht, hu]

/-- `STATEREPORT_UPDATEPREP` is a step that enters no state. -/
theorem Stepped.updateprep (h : info.Valid) (currentTime : UInt64) (hts : info.updateTs ≠ 0) :
    Stepped (.updateprep currentTime) info
      { info.modify ⟨_, h.currState⟩ fun e =>
          { e.addUpticks (currentTime - info.updateTs) with timestamp := currentTime } with
        updateTs := currentTime } := by
  have ht : Op.transition? n (.updateprep currentTime) = none := rfl
  have hu : Op.update? n (.updateprep currentTime) = some currentTime := rfl
  constructor
  case channelType =>
    intro i
    simp only [Info.elem_modify]
    split_ifs <;> rfl
  case lastIntransition =>
    intro i
    simp only [Info.elem_modify]
    split_ifs <;> rfl
  case intransitions =>
    intro i
    simp only [Info.elem_modify, ht, Option.map_none, reduceCtorEq, if_false]
    split_ifs <;> simp [Element.addUpticks]
  case upticks =>
    intro i
    simp only [Info.elem_modify, hu, Option.getD_some, Fin.ext_iff, hts, ne_eq, not_false_iff,
      true_and, eq_comm (a := info.currState.toNat)]
    split_ifs <;> simp [Element.addUpticks]
  case currState => simp [ht, Info.modify]
  case updateTs => simp [hts, hu]

/-- Every step keeps a report valid. -/
theorem Stepped.valid {op : Op} {info' : Info n} (h : Stepped op info info') (hi : info.Valid) :
    info'.Valid where
  nelements i := by
    rw [h.channelType]
    exact hi.nelements i
  currState := by
    rw [h.currState]
    cases op with
    | setstate newStateIdx changeTime =>
      by_cases hlt : newStateIdx.toNat < n
      · simp [Op.transition?, hlt]
      · simpa [Op.transition?, hlt] using hi.currState
    | _ => exact hi.currState

/-- Every macro returns, with the effect described. -/
theorem Info.Valid.step (h : info.Valid) (op : Op) :
    ∃ info', info.step op = .ok info' ∧ Stepped op info info' := by
  cases op with
  | setstate newStateIdx changeTime =>
    by_cases hlt : newStateIdx.toNat < n
    · exact ⟨_, statereportSetstate_of_lt h changeTime hlt, .setstate h changeTime hlt⟩
    · refine ⟨info, statereportSetstate_of_le h changeTime (Nat.not_lt.mp hlt), .refl ?_ (.inl ?_)⟩
      · exact if_neg hlt
      · exact if_neg hlt
  | updateprep currentTime =>
    obtain ⟨size, hprep⟩ := statereportUpdateprep_eq h currentTime
    refine ⟨_, by rw [Info.step, hprep]; rfl, ?_⟩
    by_cases hts : info.updateTs = 0
    · simp only [hts, ne_eq, not_true_eq_false, if_false]
      exact .refl rfl (.inr hts)
    · simp only [if_pos hts]
      exact .updateprep h currentTime hts
  | gettransitions i =>
    obtain ⟨v, hv⟩ := (h.getters i).1
    exact ⟨info, by rw [Info.step, hv]; rfl, .refl rfl (.inl rfl)⟩
  | getticks i =>
    obtain ⟨v, hv⟩ := (h.getters i).2
    exact ⟨info, by rw [Info.step, hv]; rfl, .refl rfl (.inl rfl)⟩

end Steps

section Runs

variable {n : Nat} {info : Info n}

/-- A run ends with its last call. -/
theorem Info.exec_snoc (info : Info n) (ops : List Op) (op : Op) :
    info.exec (ops ++ [op]) = info.exec ops >>= fun info' => info'.step op := by
  induction ops generalizing info with
  | nil =>
    change (info.step op >>= fun info' => .ok info') = info.step op
    cases info.step op <;> rfl
  | cons op' ops ih =>
    change (info.step op' >>= fun info' => info'.exec (ops ++ [op])) =
      (info.step op' >>= fun info' => info'.exec ops) >>= fun info' => info'.step op
    cases info.step op' with
    | error e => rfl
    | ok info' => exact ih info'

/-- A property of the macros so far and the buffer that every macro extends holds after every
run, and every run returns. -/
theorem Info.exec_spec (inv : List Op → Info n → Prop) (hvalid : info.Valid) (hs : inv [] info)
    (hstep : ∀ {past u v op}, inv past u → u.Valid → Stepped op u v → inv (past ++ [op]) v)
    (ops : List Op) : ∃ info', info.exec ops = .ok info' ∧ info'.Valid ∧ inv ops info' := by
  induction ops using List.reverseRecOn with
  | nil => exact ⟨info, rfl, hvalid, hs⟩
  | append_singleton ops op ih =>
    obtain ⟨u, hu, huv, hinv⟩ := ih
    obtain ⟨v, hv, hstepped⟩ := huv.step op
    refine ⟨v, ?_, hstepped.valid huv, hstep hinv huv hstepped⟩
    rw [Info.exec_snoc, hu, ok_bind, hv]

/-- The buffer after `STATEREPORT_INIT`. -/
theorem statereportInit_ok {n bufSize : Nat} (hpos : 0 < n) (hn : n ≤ 65535)
    (hsize : statereportBufsize n ≤ bufSize) (providerID channelID : UInt64) (cats : UInt16) :
    ∃ info, statereportInit n bufSize providerID channelID cats = .ok info ∧ info.Valid ∧
      info.updateTs = 0 ∧ ∀ i, (info.elem i).values.intransitions = 0 ∧
        (info.elem i).values.upticks = 0 ∧ (info.elem i).values.lastIntransition = 0 := by
  refine ⟨_, if_pos hsize, ⟨fun i => ?_, hpos⟩, rfl, fun i => ⟨rfl, rfl, rfl⟩⟩
  change (UInt16.ofNat n).toNat = n
  rw [UInt16.toNat_ofNat']
  omega

end Runs

end MacKernel.StateReport
