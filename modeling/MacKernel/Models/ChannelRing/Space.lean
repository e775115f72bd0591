import MacKernel.Models.ChannelRing.Safety

/-!
# Free slots of a ring with outstanding leases

The space for enqueuing into an Rx ring is counted from `ckr_ktail`, the space that can
be leased from `ckr_klease`. The two counts differ by the slots of the leases that no
scan has passed.
-/

namespace MacKernel.ChannelRing

/-- `kr_available_slots_rxring`. -/
def krAvailableSlotsRxring (rxkring : Kring) : UInt32 :=
  let busy := (rxkring.ktail - rxkring.khead).toInt32
  let busy := if busy < 0 then busy + rxkring.numSlots.toInt32 else busy
  rxkring.lim - busy.toUInt32

/-- `SLOT_PREV`: the previous index, with wraparound. -/
def slotPrev (i lim : UInt32) : UInt32 := if i = 0 then lim else i - 1

/-- `SLOT_INCREMENT`: the incremented index, with wraparound. -/
def slotIncrement (i n lim : UInt32) : UInt32 :=
  let i := i + n
  if i > lim then i - lim - 1 else i

section Slots

variable {i lim : UInt32} {size : Nat}

private theorem slotPrev_slotNext (hi : i ≤ lim) : slotPrev (slotNext i lim) lim = i := by
  have hle : i.toNat ≤ lim.toNat := UInt32.le_iff_toNat_le.mp hi
  unfold slotNext slotPrev
  split
  · next h => rw [if_pos rfl, h]
  · next h =>
    have hne : i.toNat ≠ lim.toNat := fun he => h (UInt32.toNat.inj he)
    have hlt := lim.toNat_lt
    have hsucc : (i + 1).toNat = i.toNat + 1 := by
      rw [UInt32.toNat_add, UInt32.toNat_one, Nat.mod_eq_of_lt (by omega)]
    have hpos : i + 1 ≠ 0 := by
      intro h0
      rw [h0, UInt32.toNat_zero] at hsucc
      omega
    rw [if_neg hpos, UInt32.add_sub_cancel]

private theorem iterate_slotNext_toNat (hlim : lim.toNat + 1 = size) (hsize : size ≤ 2 ^ 31)
    (hi : i.toNat < size) (k : Nat) :
    ((slotNext · lim)^[k] i).toNat = (i.toNat + k) % size := by
  induction k with
  | zero => exact (Nat.mod_eq_of_lt hi).symm
  | succ k ih =>
    have hlt : ((slotNext · lim)^[k] i).toNat < size := by
      rw [ih]
      exact Nat.mod_lt _ (by omega)
    rw [Function.iterate_succ_apply', slotNext_toNat hlim hsize hlt, ih, Nat.mod_add_mod,
      Nat.add_assoc]

/-- As many steps back lead to where the steps forward began. -/
theorem iterate_slotPrev_slotNext (hlim : lim.toNat + 1 = size) (hsize : size ≤ 2 ^ 31)
    (hi : i.toNat < size) (k : Nat) : (slotPrev · lim)^[k] ((slotNext · lim)^[k] i) = i := by
  induction k with
  | zero => rfl
  | succ k ih =>
    have hle : (slotNext · lim)^[k] i ≤ lim := by
      have hlt := Nat.mod_lt (i.toNat + k) (show 0 < size by omega)
      rw [UInt32.le_iff_toNat_le, iterate_slotNext_toNat hlim hsize hi]
      omega
    rw [Function.iterate_succ_apply, Function.iterate_succ_apply', slotPrev_slotNext hle, ih]

private theorem slotIncrement_toNat {n : UInt32} (hlim : lim.toNat + 1 = size)
    (hsize : size ≤ 2 ^ 31)
    (hi : i.toNat < size) (hn : n.toNat ≤ size) :
    (slotIncrement i n lim).toNat = (i.toNat + n.toNat) % size := by
  have hadd : (i + n).toNat = i.toNat + n.toNat := by
    rw [UInt32.toNat_add, Nat.mod_eq_of_lt (by omega)]
  unfold slotIncrement
  dsimp only
  split
  · next h =>
    have hgt : lim.toNat < (i + n).toNat := UInt32.lt_iff_toNat_lt.mp h
    have hsub : (i + n - lim).toNat = (i + n).toNat - lim.toNat :=
      UInt32.toNat_sub_of_le _ _ (UInt32.le_iff_toNat_le.mpr hgt.le)
    have hone : (1 : UInt32) ≤ i + n - lim := by
      rw [UInt32.le_iff_toNat_le, hsub, UInt32.toNat_one]
      omega
    rw [UInt32.toNat_sub_of_le _ _ hone, hsub, UInt32.toNat_one, hadd,
      Nat.mod_eq_sub_mod (by omega), Nat.mod_eq_of_lt (by omega)]
    omega
  · next h =>
    have hle : (i + n).toNat ≤ lim.toNat := by
      rw [gt_iff_lt, UInt32.lt_iff_toNat_lt] at h
      omega
    rw [hadd, Nat.mod_eq_of_lt (by omega)]

/-- Incrementing an index by at most one turn is as many steps to the next one. -/
theorem slotIncrement_eq_iterate {n : UInt32} (hlim : lim.toNat + 1 = size)
    (hsize : size ≤ 2 ^ 31) (hi : i.toNat < size) (hn : n.toNat ≤ size) :
    slotIncrement i n lim = (slotNext · lim)^[n.toNat] i := by
  apply UInt32.toNat.inj
  rw [slotIncrement_toNat hlim hsize hi hn, iterate_slotNext_toNat hlim hsize hi]

end Slots

section Space

variable {g : Origin} {h : Nat} {s s₀ : System}

/-- The slots of the leases that no scan has passed. -/
def System.outstanding (s : System) : Nat :=
  ((s.leases.drop s.reported).map fun l => l.n.toNat).sum

private theorem System.pos_length (s : System) (base : Nat) :
    pos base s.slots s.leases.length = pos base s.slots s.reported + s.outstanding := by
  have hdrop : s.outstanding = (s.slots.drop s.reported).sum := by
    rw [System.outstanding, System.slots, List.map_drop]
  rw [pos, pos, hdrop, Nat.add_assoc, ← List.sum_append, List.take_append_drop,
    ← System.slots_length, List.take_length]

/-- Outstanding leases hold a slot each. -/
theorem Layout.outstanding_eq_zero (w : Layout g h s) :
    s.outstanding = 0 ↔ s.reported = s.leases.length := by
  have hgap := w.pos_add_le w.reported_le le_rfl
  have hle := w.reported_le
  rw [s.pos_length] at hgap
  constructor
  · intro h0
    omega
  · intro hr
    rw [System.outstanding, hr, List.drop_length]
    rfl

/-- The space in front of the slots that the consumer has not read. -/
theorem Layout.available_rxring (w : Layout g h s) : (krAvailableSlotsRxring s.kr).toNat =
    g.size - 1 - (pos g.base s.slots s.reported - h) := by
  have htail : s.kr.ktail.toNat < g.size := by
    rw [w.ktail]
    exact Nat.mod_lt _ w.size_pos
  have hlt := w.lease_lt
  rw [s.pos_length] at hlt
  -- the same arithmetic, on a ring whose leases end at `ktail`
  have hspace : (krAvailableSlotsRxring s.kr).toNat =
      g.size - 1 - cyclicDist g.size s.kr.khead.toNat s.kr.ktail.toNat :=
    @krAvailableSlots_toNat { s.kr with klease := s.kr.ktail } g.size w.size_le w.size w.lim
      w.khead_lt htail
  rw [hspace, w.khead, w.ktail, cyclicDist_mod w.head_le (by omega)]

/-- The space of a ring, and what a reservation is granted of it. -/
structure System.Spaced (s : System) : Prop where
  /-- One slot is kept free, the others are unread or free. -/
  unread : (krAvailableSlotsRxring s.kr).toNat +
    cyclicDist s.size s.kr.khead.toNat s.kr.ktail.toNat = s.size - 1
  /-- Part of the space is leased. -/
  leased : (krAvailableSlotsRxring s.kr).toNat = (krAvailableSlots s.kr).toNat + s.outstanding
  /-- The whole space is granted only when no lease is outstanding. -/
  whole : (krReserveSlotsLocked s.kr (krAvailableSlotsRxring s.kr)).2.n =
    krAvailableSlotsRxring s.kr ↔ s.reported = s.leases.length
  /-- A reservation ends as many steps behind its start as it was granted slots. -/
  stop : ∀ n, (krReserveSlotsLocked s.kr n).2.stop =
      slotIncrement s.kr.klease (krReserveSlotsLocked s.kr n).2.n s.kr.lim ∧
    (krReserveSlotsLocked s.kr n).2.stop =
      (slotNext · s.kr.lim)^[(krReserveSlotsLocked s.kr n).2.n.toNat] s.kr.klease ∧
    (slotPrev · s.kr.lim)^[(krReserveSlotsLocked s.kr n).2.n.toNat]
      (krReserveSlotsLocked s.kr n).2.stop = s.kr.klease

private theorem granted_le (kr : Kring) (n : UInt32) :
    (krReserveSlotsLocked kr n).2.n = if n > krAvailableSlots kr then krAvailableSlots kr else n :=
  rfl

theorem Layout.spaced (w : Layout g h s) : s.Spaced := by
  have hlt := w.lease_lt
  have hhead := w.head_le
  have hlease := w.available
  have hrx := w.available_rxring
  rw [s.pos_length] at hlt hlease
  have hleased : (krAvailableSlotsRxring s.kr).toNat =
      (krAvailableSlots s.kr).toNat + s.outstanding := by omega
  constructor
  case unread =>
    rw [w.size, w.khead, w.ktail, cyclicDist_mod hhead (by omega)]
    omega
  case leased => exact hleased
  case whole =>
    rw [← w.outstanding_eq_zero, granted_le]
    split
    · next hgt =>
      have hgt' := UInt32.lt_iff_toNat_lt.mp hgt
      refine iff_of_false (fun he => ?_) (by omega)
      rw [he] at hgt'
      exact lt_irrefl _ hgt'
    · next hle =>
      rw [gt_iff_lt, UInt32.lt_iff_toNat_lt] at hle
      exact iff_of_true rfl (by omega)
  case stop =>
    intro n
    have hn : (krReserveSlotsLocked s.kr n).2.n.toNat ≤ g.size := by
      rw [(w.reservation n).1]
      omega
    have hstop : (krReserveSlotsLocked s.kr n).2.stop =
        slotIncrement s.kr.klease (krReserveSlotsLocked s.kr n).2.n s.kr.lim := by
      apply UInt32.toNat.inj
      rw [(w.reservation n).2, slotIncrement_toNat w.lim w.size_le w.klease_lt hn, w.klease,
        Nat.mod_add_mod]
    have hsteps := slotIncrement_eq_iterate w.lim w.size_le w.klease_lt hn
    refine ⟨hstop, hstop.trans hsteps, ?_⟩
    rw [hstop, hsteps]
    exact iterate_slotPrev_slotNext w.lim w.size_le w.klease_lt _

/-- In every run of any number of producers and the consumer whose reservations are granted a
slot and whose locked sections are timely, the space of the ring is the space that can be leased
and the slots of the outstanding leases. -/
theorem spaced_of_orderly_run {as : List Action} (hf : s₀.Fresh) (hn : s₀.size ≤ 2 ^ 31)
    (hrun : Run OrderlyStep s₀ as s) : s.Spaced := by
  obtain ⟨h, w⟩ := hrun.invariant (fun s => ∃ h, Layout s₀.origin h s)
    (fun w hs => hs.layout w) ⟨_, hf.layout hn⟩
  exact w.spaced

/-- With one of two leases reported the space of a ring of four slots is two, and one slot can be
leased. -/
theorem spaced_of_orderly_run_four : ∃ s,
    Run OrderlyStep (emptyRing 4) [.reserve 1, .reserve 1, .mark 0, .advance 0] s ∧ s.Spaced ∧
      krAvailableSlotsRxring s.kr = 2 ∧ krAvailableSlots s.kr = 1 := by
  have hrun : Run OrderlyStep (emptyRing 4) [.reserve 1, .reserve 1, .mark 0, .advance 0] _ :=
    .snoc (.snoc (.snoc (.snoc .nil ⟨(by decide : (emptyRing 4).Granted 1), rfl⟩)
      ⟨(by decide : ((emptyRing 4).reserve 1).Granted 1), rfl⟩) ⟨trivial, rfl⟩)
      ⟨fun _ _ hlt => absurd hlt (by decide), rfl⟩
  exact ⟨_, hrun, spaced_of_orderly_run (emptyRing_fresh (by decide)) (by decide) hrun, by decide,
    by decide⟩

end Space

end MacKernel.ChannelRing
