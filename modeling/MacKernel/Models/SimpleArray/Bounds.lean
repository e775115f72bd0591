import MacKernel.Models.SimpleArray.Native
import Mathlib.Algebra.Ring.Nat

/-!
# Bounds of a simple array

Only whole elements are checked, so the places that fill up the last element can be written
and read like the values before them. A report is an array with checked bounds exactly as long
as no call changes one of these places.
-/

namespace MacKernel.SimpleArray

open StateReport (index)

/-- The index of a call. -/
def Call.idx : Call → UInt32
  | .setvalue idx _ => idx
  | .incrementvalue idx _ => idx

/-- What a call does to a value in bounds. -/
def Call.update (old : Int64) : Call → Int64
  | .setvalue _ newValue => newValue.toInt64
  | .incrementvalue _ value => old + value

/-- The value that the calls on one index leave there. -/
def replay (idx : UInt32) (calls : List Call) : Int64 :=
  (calls.filter fun c => c.idx = idx).foldl (fun v c => c.update v) kIOReportInvalidIntValue

/-- A buffer for `nValues` values that ends in `final` acts as an array of that many: an index in
bounds reads what the calls on it left, and one out of bounds changes nothing and reads as
invalid. -/
structure ChecksBounds {n : Nat} (nValues : Nat) (buf : Buffer n) (calls : List Call)
    (final : Buffer n) : Prop where
  inside : ∀ idx : UInt32, idx.toNat < nValues →
    simplearrayGetvalue final idx = .ok (replay idx calls)
  unchanged : ∀ before c after, calls = before ++ c :: after → nValues ≤ c.idx.toNat →
    buf.callAll (before ++ [c]) = buf.callAll before
  outside : ∀ idx : UInt32, nValues ≤ idx.toNat →
    simplearrayGetvalue final idx = .ok kIOReportInvalidIntValue

/-- The index is out of bounds, and in the last element. -/
def Call.InPadding (nValues : Nat) (c : Call) : Prop :=
  nValues ≤ c.idx.toNat ∧ c.idx.toNat < 4 * nElems nValues

/-- The call keeps the invalid value. -/
def Call.Neutral : Call → Prop
  | .setvalue _ newValue => newValue.toInt64 = kIOReportInvalidIntValue
  | .incrementvalue _ value => value = 0

/-- A call leaves the invalid value as it is exactly if it stores it or adds nothing. -/
theorem Call.neutral_iff (c : Call) :
    c.update kIOReportInvalidIntValue = kIOReportInvalidIntValue ↔ c.Neutral := by
  cases c with
  | setvalue idx newValue => exact Iff.rfl
  | incrementvalue idx value =>
    show kIOReportInvalidIntValue + value = kIOReportInvalidIntValue ↔ value = 0
    exact Int64.add_eq_left

variable {n nValues : Nat} {buf : Buffer n}

/-! ## One call -/

/-- The first element has the number of elements. -/
def Buffer.Sized (buf : Buffer n) : Prop :=
  n < 2 ^ 16 ∧ ∃ i : Fin n, i.val = 0 ∧ (buf.elem i).channelType.nelements = .ofNat n

/-- The element count is read from the size of the buffer. -/
theorem Buffer.Sized.nelements (h : buf.Sized) : buf.nelements = .ok (.ofNat n) := by
  obtain ⟨-, i, hi, hn⟩ := h
  have hindex : index n 0 = .ok i := by
    rw [index, dif_pos (hi ▸ i.isLt)]
    exact congrArg Except.ok (Fin.ext hi.symm)
  rw [Buffer.nelements, hindex, ok_bind, hn]
  rfl

/-- The value at an index. -/
def Buffer.value (buf : Buffer n) (j : Nat) : Int64 :=
  if h : j / 4 < n then (buf.elem ⟨j / 4, h⟩).simpleValues ⟨j % 4, Nat.mod_lt j (by decide)⟩
  else kIOReportInvalidIntValue

/-- The buffer after a call. -/
def Buffer.after (buf : Buffer n) (c : Call) : Buffer n :=
  if h : c.idx.toNat / 4 < n then
    buf.modify ⟨c.idx.toNat / 4, h⟩ ⟨c.idx.toNat % 4, Nat.mod_lt _ (by decide)⟩ c.update
  else buf

/-- The element count fits its 16 bits. -/
private theorem toNat_nelements (h : n < 2 ^ 16) : (UInt16.ofNat n).toUInt32.toNat = n := by
  rw [UInt16.toNat_toUInt32, UInt16.toNat_ofNat']
  exact Nat.mod_eq_of_lt h

/-- An index inside the bounds is read. -/
theorem index_of_lt {i : Nat} (h : i < n) : index n i = .ok ⟨i, h⟩ := dif_pos h

/-- An element index below the count is inside the bounds. -/
theorem index_elem {idx : UInt32} (h : idx.toNat / 4 < n) :
    index n (idx / 4).toNat = .ok ⟨idx.toNat / 4, h⟩ := index_of_lt h

/-- A value index is below 4. -/
theorem index_value (idx : UInt32) :
    index 4 (idx % 4).toNat = .ok ⟨idx.toNat % 4, Nat.mod_lt _ (by decide)⟩ := index_of_lt _

/-- An index below four times the element count is found. -/
theorem saFindrep_of_lt (hs : buf.Sized) {idx : UInt32} (h : idx.toNat / 4 < n) :
    saFindrep buf idx
      = .ok (some (⟨idx.toNat / 4, h⟩, ⟨idx.toNat % 4, Nat.mod_lt _ (by decide)⟩)) := by
  have hlt : idx / 4 < (UInt16.ofNat n).toUInt32 := by
    rw [UInt32.lt_iff_toNat_lt, toNat_nelements hs.1]
    exact h
  simp only [saFindrep, hs.nelements, ok_bind, if_pos hlt, index_elem h, index_value]
  rfl

/-- An index from there on is refused. -/
theorem saFindrep_of_le (hs : buf.Sized) {idx : UInt32} (h : ¬ idx.toNat / 4 < n) :
    saFindrep buf idx = .ok none := by
  have hle : ¬ idx / 4 < (UInt16.ofNat n).toUInt32 := by
    rw [UInt32.lt_iff_toNat_lt, toNat_nelements hs.1]
    exact h
  simp only [saFindrep, hs.nelements, ok_bind, if_neg hle]
  rfl

/-- A call changes what was found and nothing if nothing was. -/
theorem Call.step_of_findrep {c : Call} {r : Option (Fin n × Fin 4)}
    (h : saFindrep buf c.idx = .ok r) :
    c.step buf = .ok (match r with
      | some (e, v) => buf.modify e v c.update
      | none => buf) := by
  cases c with
  | setvalue idx newValue =>
    have hfind : saFindrep buf idx = .ok r := h
    cases r <;> simp only [Call.step, simplearraySetvalue, hfind, ok_bind] <;> rfl
  | incrementvalue idx value =>
    have hfind : saFindrep buf idx = .ok r := h
    cases r <;> simp only [Call.step, simplearrayIncrementvalue, hfind, ok_bind] <;> rfl

/-- One call, told without the search. -/
theorem Call.step_eq (hs : buf.Sized) (c : Call) : c.step buf = .ok (buf.after c) := by
  unfold Buffer.after
  split
  · next h => exact Call.step_of_findrep (saFindrep_of_lt hs h)
  · next h => exact Call.step_of_findrep (saFindrep_of_le hs h)

/-- A read agrees with the bound that the calls have. -/
theorem getvalue_eq (hs : buf.Sized) (idx : UInt32) :
    simplearrayGetvalue buf idx = .ok (buf.value idx.toNat) := by
  obtain ⟨hn, i, hi⟩ := id hs
  have hpos : 0 < n := Nat.zero_lt_of_lt i.isLt
  have hmax : ((UInt16.ofNat n).toUInt32 * 4 - 1).toNat = n * 4 - 1 := by
    rw [UInt32.toNat_sub_of_le, UInt32.toNat_mul, toNat_nelements hn]
    · show n * 4 % 2 ^ 32 - 1 = n * 4 - 1
      omega
    · rw [UInt32.le_iff_toNat_le, UInt32.toNat_mul, toNat_nelements hn]
      show 1 ≤ n * 4 % 2 ^ 32
      omega
  have hzero : ¬ idx < 0 := UInt32.not_lt_zero
  simp only [simplearrayGetvalue, saMaxindex, hs.nelements, ok_bind, pure_bind, hzero, or_false]
  unfold Buffer.value
  by_cases h : idx.toNat / 4 < n
  · have hle : ¬ idx > (UInt16.ofNat n).toUInt32 * 4 - 1 := by
      rw [gt_iff_lt, UInt32.lt_iff_toNat_lt, hmax]
      omega
    rw [dif_pos h]
    simp only [if_neg hle, index_elem h, index_value, ok_bind]
    rfl
  · have hlt : idx > (UInt16.ofNat n).toUInt32 * 4 - 1 := by
      rw [gt_iff_lt, UInt32.lt_iff_toNat_lt, hmax]
      omega
    rw [dif_neg h]
    simp only [if_pos hlt]
    rfl

/-! ## Values after a call -/

/-- A stored value leaves the channel types. -/
theorem Buffer.channelType_modify (buf : Buffer n) (e i : Fin n) (v : Fin 4)
    (f : Int64 → Int64) :
    ((buf.modify e v f).elem i).channelType = (buf.elem i).channelType := by
  simp only [Buffer.modify]
  by_cases hi : i = e
  · subst hi
    rw [Function.update_self]
  · rw [Function.update_of_ne hi]

/-- A stored value changes one place. -/
theorem Buffer.simpleValues_modify (buf : Buffer n) (e i : Fin n) (v k : Fin 4)
    (f : Int64 → Int64) :
    ((buf.modify e v f).elem i).simpleValues k
      = if i = e ∧ k = v then f ((buf.elem e).simpleValues v)
        else (buf.elem i).simpleValues k := by
  simp only [Buffer.modify]
  by_cases hi : i = e
  · subst hi
    rw [Function.update_self]
    simp only [Function.update_apply, true_and]
  · rw [Function.update_of_ne hi, if_neg fun h => hi h.1]

/-- Storing what is there changes nothing. -/
theorem Buffer.modify_eq_self {e : Fin n} {v : Fin 4} {f : Int64 → Int64}
    (h : f ((buf.elem e).simpleValues v) = (buf.elem e).simpleValues v) :
    buf.modify e v f = buf := by
  ext1
  simp only [Buffer.modify, h, Function.update_eq_self]

/-- A call keeps the element count. -/
theorem Buffer.Sized.after (hs : buf.Sized) (c : Call) : (buf.after c).Sized := by
  obtain ⟨hn, i, hi, hsize⟩ := hs
  refine ⟨hn, i, hi, ?_⟩
  unfold Buffer.after
  split
  · rw [Buffer.channelType_modify, hsize]
  · exact hsize

/-- A place of the buffer holds its value. -/
theorem Buffer.value_of_lt (buf : Buffer n) {j : Nat} (h : j / 4 < n) :
    buf.value j
      = (buf.elem ⟨j / 4, h⟩).simpleValues ⟨j % 4, Nat.mod_lt j (by decide)⟩ := dif_pos h

/-- Places behind the buffer read as invalid. -/
theorem Buffer.value_of_le (buf : Buffer n) {j : Nat} (h : ¬ j / 4 < n) :
    buf.value j = kIOReportInvalidIntValue := dif_neg h

/-- A call changes the value at its index, if that is in an element. -/
theorem Buffer.value_after (buf : Buffer n) (c : Call) (j : Nat) :
    (buf.after c).value j
      = if j = c.idx.toNat ∧ j / 4 < n then c.update (buf.value j) else buf.value j := by
  by_cases hj : j / 4 < n
  · rw [Buffer.value_of_lt _ hj, Buffer.value_of_lt _ hj, Buffer.after]
    split
    · next h =>
      rw [Buffer.simpleValues_modify]
      by_cases heq : j = c.idx.toNat
      · subst heq
        rw [if_pos ⟨rfl, rfl⟩, if_pos ⟨rfl, hj⟩]
      · have hplace : ¬ ((⟨j / 4, hj⟩ : Fin n) = ⟨c.idx.toNat / 4, h⟩
            ∧ (⟨j % 4, Nat.mod_lt j (by decide)⟩ : Fin 4)
              = ⟨c.idx.toNat % 4, Nat.mod_lt _ (by decide)⟩) := by
          simp only [Fin.mk.injEq]
          omega
        rw [if_neg hplace, if_neg fun hand => heq hand.1]
    · next h =>
      rw [if_neg]
      rintro ⟨rfl, hlt⟩
      exact h hlt
  · rw [Buffer.value_of_le _ hj, Buffer.value_of_le _ hj, if_neg fun hand => hj hand.2]

/-- A call that finds nothing to change leaves the whole buffer. -/
theorem Buffer.after_eq_self {c : Call}
    (h : c.idx.toNat / 4 < n → c.update (buf.value c.idx.toNat) = buf.value c.idx.toNat) :
    buf.after c = buf := by
  unfold Buffer.after
  split
  · next hlt =>
    have hsame := h hlt
    rw [Buffer.value_of_lt _ hlt] at hsame
    exact Buffer.modify_eq_self hsame
  · rfl

/-! ## Runs -/

/-- A list of calls runs to the end, each on what the others left. -/
theorem callAll_eq (hs : buf.Sized) (calls : List Call) :
    buf.callAll calls = .ok (calls.foldl Buffer.after buf)
      ∧ (calls.foldl Buffer.after buf).Sized := by
  induction calls generalizing buf with
  | nil => exact ⟨rfl, hs⟩
  | cons c calls ih =>
    obtain ⟨hrun, hsized⟩ := ih (hs.after c)
    refine ⟨?_, hsized⟩
    rw [Buffer.callAll, List.foldlM_cons, c.step_eq hs, ok_bind]
    exact hrun

/-- An index in an element holds what the calls on it leave. -/
theorem value_foldl (calls : List Call) {idx : UInt32} (h : idx.toNat / 4 < n) :
    (calls.foldl Buffer.after buf).value idx.toNat
      = (calls.filter fun c => c.idx = idx).foldl (fun v c => c.update v)
        (buf.value idx.toNat) := by
  induction calls generalizing buf with
  | nil => rfl
  | cons c calls ih =>
    rw [List.foldl_cons, ih, Buffer.value_after]
    by_cases hc : c.idx = idx
    · rw [if_pos ⟨by rw [hc], h⟩, List.filter_cons_of_pos (by simpa using hc), List.foldl_cons]
    · have hne : ¬ idx.toNat = c.idx.toNat := fun heq => hc (UInt32.toNat_inj.1 heq.symm)
      rw [if_neg fun hand => hne hand.1, List.filter_cons_of_neg (by simpa using hc)]

/-- The places after the values are invalid. -/
def Buffer.Quiet (nValues : Nat) (buf : Buffer n) : Prop :=
  ∀ j, nValues ≤ j → buf.value j = kIOReportInvalidIntValue

/-- The calls of a run that are out of bounds change nothing. -/
def Untouched (nValues : Nat) (buf : Buffer n) (calls : List Call) : Prop :=
  ∀ before c after, calls = before ++ c :: after → nValues ≤ c.idx.toNat →
    (before.foldl Buffer.after buf).after c = before.foldl Buffer.after buf

/-- The padding is untouched if the first call and all later ones leave it. -/
theorem untouched_cons {c : Call} {calls : List Call} :
    Untouched nValues buf (c :: calls)
      ↔ (nValues ≤ c.idx.toNat → buf.after c = buf) ∧ Untouched nValues (buf.after c) calls := by
  constructor
  · intro h
    refine ⟨h [] c calls rfl, ?_⟩
    intro before d after heq
    exact h (c :: before) d after (by rw [heq, List.cons_append])
  · rintro ⟨hfirst, hrest⟩ before d after heq
    cases before with
    | nil =>
      obtain ⟨rfl, -⟩ := List.cons.inj heq
      exact hfirst
    | cons b before =>
      obtain ⟨rfl, htail⟩ := List.cons.inj heq
      exact hrest before d after htail

/-- A call below the bound leaves the padding. -/
theorem Buffer.Quiet.after_of_lt (hq : buf.Quiet nValues) {c : Call}
    (h : c.idx.toNat < nValues) : (buf.after c).Quiet nValues := by
  intro j hj
  rw [Buffer.value_after, if_neg fun hand => absurd hand.1 (by omega)]
  exact hq j hj

/-- A call out of bounds changes nothing exactly when it keeps the invalid value, or is not in
an element. -/
theorem Buffer.Quiet.after_eq_self_iff (hq : buf.Quiet nValues) {c : Call}
    (h : nValues ≤ c.idx.toNat) :
    buf.after c = buf ↔ (c.idx.toNat / 4 < n → c.Neutral) := by
  have hvalue := hq _ h
  constructor
  · intro hsame hlt
    have hafter := buf.value_after c c.idx.toNat
    rw [hsame, if_pos ⟨rfl, hlt⟩, hvalue] at hafter
    exact c.neutral_iff.1 hafter.symm
  · intro hneutral
    refine Buffer.after_eq_self fun hlt => ?_
    rw [hvalue]
    exact c.neutral_iff.2 (hneutral hlt)

/-- The run rule: as long as nothing is changed after the values, each further call there is
neutral, and the other way round. -/
theorem untouched_iff (hq : buf.Quiet nValues) (calls : List Call) :
    Untouched nValues buf calls
      ↔ ∀ c ∈ calls, nValues ≤ c.idx.toNat → c.idx.toNat / 4 < n → c.Neutral := by
  induction calls generalizing buf with
  | nil =>
    refine iff_of_true ?_ fun c hc => absurd hc List.not_mem_nil
    intro before c after heq
    exact absurd heq.symm (List.append_ne_nil_of_right_ne_nil _ (List.cons_ne_nil c after))
  | cons c calls ih =>
    rw [untouched_cons, List.forall_mem_cons]
    by_cases hc : nValues ≤ c.idx.toNat
    · rw [hq.after_eq_self_iff hc]
      simp only [hc, true_imp_iff]
      constructor
      · rintro ⟨hneutral, hrest⟩
        rw [(hq.after_eq_self_iff hc).2 hneutral] at hrest
        exact ⟨hneutral, (ih hq).1 hrest⟩
      · rintro ⟨hneutral, hrest⟩
        rw [(hq.after_eq_self_iff hc).2 hneutral]
        exact ⟨hneutral, (ih hq).2 hrest⟩
    · rw [ih (hq.after_of_lt (Nat.lt_of_not_le hc))]
      simp only [hc, false_imp_iff, true_and]

/-- Calls that leave the padding leave it invalid. -/
theorem Untouched.quiet (hq : buf.Quiet nValues) {calls : List Call}
    (h : Untouched nValues buf calls) : (calls.foldl Buffer.after buf).Quiet nValues := by
  induction calls generalizing buf with
  | nil => exact hq
  | cons c calls ih =>
    obtain ⟨hfirst, hrest⟩ := untouched_cons.1 h
    refine ih ?_ hrest
    by_cases hc : nValues ≤ c.idx.toNat
    · rw [hfirst hc]
      exact hq
    · exact hq.after_of_lt (Nat.lt_of_not_le hc)

/-- The bound is checked for exactly those runs that leave the padding. -/
theorem checksBounds_iff_untouched (hs : buf.Sized) (hq : buf.Quiet nValues)
    (hroom : ∀ j < nValues, j / 4 < n ∧ buf.value j = kIOReportInvalidIntValue)
    (calls : List Call) :
    ChecksBounds nValues buf calls (calls.foldl Buffer.after buf)
      ↔ Untouched nValues buf calls := by
  have hrun : ∀ before c, buf.callAll (before ++ [c]) = buf.callAll before
      ↔ (before.foldl Buffer.after buf).after c = before.foldl Buffer.after buf := by
    intro before c
    rw [(callAll_eq hs _).1, (callAll_eq hs _).1, List.foldl_concat]
    exact Except.ok.injEq .. |>.to_iff
  constructor
  · intro h before c after heq hc
    exact (hrun before c).1 (h.unchanged before c after heq hc)
  · intro h
    have hsized := (callAll_eq hs calls).2
    refine ⟨?_, ?_, ?_⟩
    · intro idx hidx
      obtain ⟨hlt, hvalue⟩ := hroom idx.toNat hidx
      rw [getvalue_eq hsized, value_foldl calls hlt, hvalue]
      rfl
    · intro before c after heq hc
      exact (hrun before c).2 (h before c after heq hc)
    · intro idx hidx
      rw [getvalue_eq hsized, h.quiet hq idx.toNat hidx]

/-! ## An initialised buffer -/

/-- Elements of four values hold all values, with at most three places of padding. -/
theorem four_mul_nElems (nValues : Nat) :
    nValues ≤ 4 * nElems nValues ∧ 4 * nElems nValues < nValues + 4 := by
  unfold nElems
  split <;> omega

/-- Initialising gives a buffer in which every value is invalid. -/
theorem simplearrayInit_spec (nValues bufSize : Nat) (hpos : 1 ≤ nValues)
    (hcap : nElems nValues ≤ 65535) (hbuf : simplearrayBufsize nValues ≤ bufSize)
    (providerID channelID : UInt64) (cats : UInt16) :
    ∃ buf, simplearrayInit nValues bufSize providerID channelID cats = .ok buf ∧ buf.Sized
      ∧ ∀ j, buf.value j = kIOReportInvalidIntValue := by
  have hle := (four_mul_nElems nValues).1
  refine ⟨_, if_pos hbuf, ⟨by omega, ⟨0, by omega⟩, rfl, rfl⟩, ?_⟩
  intro j
  unfold Buffer.value
  split <;> rfl

/-- An initialised buffer is an array with checked bounds, along a run of calls, exactly when
the run keeps the places that fill up the last element invalid. -/
theorem checksBounds_iff (nValues bufSize : Nat) (hpos : 1 ≤ nValues)
    (hcap : nElems nValues ≤ 65535) (hbuf : simplearrayBufsize nValues ≤ bufSize)
    (providerID channelID : UInt64) (cats : UInt16) (calls : List Call) :
    ∃ buf final, simplearrayInit nValues bufSize providerID channelID cats = .ok buf
      ∧ buf.callAll calls = .ok final
      ∧ (ChecksBounds nValues buf calls final
          ↔ ∀ c ∈ calls, c.InPadding nValues → c.Neutral) := by
  obtain ⟨hle, hge⟩ := four_mul_nElems nValues
  obtain ⟨buf, hinit, hs, hvalue⟩ :=
    simplearrayInit_spec nValues bufSize hpos hcap hbuf providerID channelID cats
  have hq : buf.Quiet nValues := fun j _ => hvalue j
  have hroom : ∀ j < nValues, j / 4 < nElems nValues
      ∧ buf.value j = kIOReportInvalidIntValue := fun j hj => ⟨by omega, hvalue j⟩
  refine ⟨buf, _, hinit, (callAll_eq hs calls).1, ?_⟩
  rw [checksBounds_iff_untouched hs hq hroom, untouched_iff hq]
  refine forall₂_congr fun c _ => ?_
  rw [Call.InPadding, and_imp, Nat.div_lt_iff_lt_mul (by decide), Nat.mul_comm (nElems nValues)]

/-- Eight values fill two elements, so an index of 9 is out of bounds in every way. -/
theorem checksBounds_iff_eight :
    ∃ buf final, simplearrayInit 8 128 1 2 0 = .ok buf
      ∧ buf.callAll [.setvalue 3 7, .incrementvalue 3 1, .setvalue 9 5] = .ok final
      ∧ ChecksBounds 8 buf [.setvalue 3 7, .incrementvalue 3 1, .setvalue 9 5] final := by
  obtain ⟨buf, final, hinit, hrun, hiff⟩ := checksBounds_iff 8 128 (by decide) (by decide)
    (by decide) 1 2 0 [.setvalue 3 7, .incrementvalue 3 1, .setvalue 9 5]
  refine ⟨buf, final, hinit, hrun, hiff.2 ?_⟩
  simp [Call.InPadding, Call.idx, nElems]

/-- A report of five values stores and returns a value at index 6. -/
theorem not_checksBounds_five :
    ∃ buf final, simplearrayInit 5 128 1 2 0 = .ok buf
      ∧ buf.callAll [.setvalue 6 42] = .ok final
      ∧ simplearrayGetvalue final 6 = .ok 42
      ∧ ¬ ChecksBounds 5 buf [.setvalue 6 42] final := by
  obtain ⟨buf, hinit, hs, hvalue⟩ :=
    simplearrayInit_spec 5 128 (by decide) (by decide) (by decide) 1 2 0
  have hread : simplearrayGetvalue ([.setvalue 6 42].foldl Buffer.after buf) 6 = .ok 42 := by
    rw [getvalue_eq (callAll_eq hs _).2, value_foldl _ (by decide)]
    rfl
  refine ⟨buf, _, hinit, (callAll_eq hs _).1, hread, ?_⟩
  intro h
  have hinvalid := h.outside 6 (by decide)
  rw [hread] at hinvalid
  exact absurd (Except.ok.inj hinvalid) (by decide)

end MacKernel.SimpleArray
