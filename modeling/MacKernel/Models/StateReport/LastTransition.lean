import MacKernel.Models.StateReport.Effects
import Mathlib.Data.List.Infix

/-!
# The time of the last transition

`last_intransition` is documented as the ticks at the last in-transition. No macro
stores into it after `STATEREPORT_INIT`, so it is right exactly as long as all
transitions are at time 0.
-/

namespace MacKernel.StateReport

variable {n : Nat}

/-- The time of the last transition into a state, or 0. -/
def lastInto (n i : Nat) (ops : List Op) : UInt64 :=
  (ops.filterMap fun op =>
    if (op.transition? n).map Prod.fst = some i then op.update? n else none).getLast?.getD 0

/-- `last_intransition` of every state is the time of the last transition into it. -/
def Info.LastRecorded (info : Info n) (ops : List Op) : Prop :=
  ∀ i : Fin n, (info.elem i).values.lastIntransition = lastInto n i ops

private theorem lastInto_snoc_setstate {newStateIdx : UInt32} (hlt : newStateIdx.toNat < n)
    (t : UInt64)
    (ops : List Op) : lastInto n newStateIdx.toNat (ops ++ [.setstate newStateIdx t]) = t := by
  simp [lastInto, Op.transition?, Op.update?, hlt]

/-- The time of a last transition is that of a macro that names the state. -/
theorem lastInto_eq (n i : Nat) (ops : List Op) : lastInto n i ops = 0 ∨
    ∃ (newStateIdx : UInt32) (t : UInt64), Op.setstate newStateIdx t ∈ ops ∧
      newStateIdx.toNat < n ∧ lastInto n i ops = t := by
  unfold lastInto
  cases hlast : (ops.filterMap fun op =>
      if (op.transition? n).map Prod.fst = some i then op.update? n else none).getLast? with
  | none => exact .inl rfl
  | some t =>
    obtain ⟨op, hop, ht⟩ := List.mem_filterMap.mp (List.mem_of_getLast? hlast)
    right
    cases op with
    | setstate newStateIdx changeTime =>
      by_cases hlt : newStateIdx.toNat < n
      · refine ⟨newStateIdx, changeTime, hop, hlt, ?_⟩
        simp only [Op.update?, if_pos hlt] at ht
        split at ht
        · exact (Option.some.inj ht).symm
        · cases ht
      · simp [Op.transition?, hlt] at ht
    | _ => simp [Op.transition?] at ht

/-- After every run on an initialised buffer, with any times, `last_intransition` is right in
every state reached if and only if every transition to a state in range was at time 0. -/
theorem lastRecorded_iff {bufSize : Nat} (hpos : 0 < n) (hn : n ≤ 65535)
    (hsize : statereportBufsize n ≤ bufSize) (providerID channelID : UInt64) (cats : UInt16)
    (ops : List Op) :
    ∃ info₀, statereportInit n bufSize providerID channelID cats = .ok info₀ ∧
      (∀ past, past <+: ops → ∃ info, info₀.exec past = .ok info) ∧
      ((∀ past info, past <+: ops → info₀.exec past = .ok info → info.LastRecorded past) ↔
        ∀ newStateIdx changeTime, Op.setstate newStateIdx changeTime ∈ ops →
          newStateIdx.toNat < n → changeTime = 0) := by
  obtain ⟨info₀, hinit, hvalid, -, hzero⟩ :=
    statereportInit_ok hpos hn hsize providerID channelID cats
  -- the field keeps the value that `STATEREPORT_INIT` stored
  have hexec : ∀ past, ∃ info, info₀.exec past = .ok info ∧ info.Valid ∧
      ∀ i, (info.elem i).values.lastIntransition = 0 := by
    apply Info.exec_spec (fun _ info => ∀ i, (info.elem i).values.lastIntransition = 0) hvalid
    · intro i
      exact (hzero i).2.2
    · intro past u v op hu _ hstepped i
      rw [hstepped.lastIntransition]
      exact hu i
  refine ⟨info₀, hinit, ?_, ?_, ?_⟩
  · intro past _
    obtain ⟨info, hinfo, -⟩ := hexec past
    exact ⟨info, hinfo⟩
  · intro hrec newStateIdx changeTime hmem hlt
    obtain ⟨before, after, rfl⟩ := List.append_of_mem hmem
    have hprefix : before ++ [Op.setstate newStateIdx changeTime] <+:
        before ++ Op.setstate newStateIdx changeTime :: after := by
      refine ⟨after, ?_⟩
      rw [List.append_assoc]
      rfl
    obtain ⟨info, hinfo, -, hlast⟩ := hexec (before ++ [.setstate newStateIdx changeTime])
    have hrecorded := hrec _ info hprefix hinfo ⟨_, hlt⟩
    rw [hlast, lastInto_snoc_setstate hlt] at hrecorded
    exact hrecorded.symm
  · intro htimes past info hpast hinfo i
    obtain ⟨info', hinfo', -, hlast⟩ := hexec past
    obtain rfl := Except.ok.inj (hinfo.symm.trans hinfo')
    rw [hlast]
    rcases lastInto_eq n i past with hzero | ⟨newStateIdx, t, hmem, hlt, heq⟩
    · exact hzero.symm
    · rw [heq]
      exact (htimes newStateIdx t (hpast.subset hmem) hlt).symm

/-- Transitions at time 0 are the ones that are recorded. -/
theorem lastRecorded_at_zero : ∃ info₀, statereportInit 1 80 1 2 0 = .ok info₀ ∧
    (∀ past, past <+: [Op.setstate 0 0] → ∃ info : Info 1, info₀.exec past = .ok info) ∧
    ((∀ past info, past <+: [Op.setstate 0 0] → info₀.exec past = .ok info →
      info.LastRecorded past) ↔ ∀ newStateIdx changeTime,
        Op.setstate newStateIdx changeTime ∈ [Op.setstate 0 0] →
          newStateIdx.toNat < 1 → changeTime = 0) :=
  lastRecorded_iff (by decide) (by decide) (by decide) 1 2 0 [.setstate 0 0]

/-- A transition at time 5 leaves `last_intransition` at 0. -/
theorem transition_not_recorded : ∃ info₀ info : Info 1, statereportInit 1 80 1 2 0 = .ok info₀ ∧
    info₀.exec [.setstate 0 5] = .ok info ∧ ¬info.LastRecorded [.setstate 0 5] := by
  refine ⟨_, _, rfl, rfl, ?_⟩
  intro hrec
  exact absurd (hrec 0) (by decide)

end MacKernel.StateReport
