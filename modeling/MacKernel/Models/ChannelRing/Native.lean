import MacKernel.Core.Run
import MacKernel.Core.Cyclic
import Mathlib.Logic.Function.Basic

/-!
# Kernel channel rings and slot leases

The flow-switch part of a kernel channel ring: `kr_available_slots`,
`kr_reserve_slots_locked` and `kr_publish_slots`, on the unsigned 32-bit slot
indices of the source. Publishing is split at its lock: the mark is the store
made before the lock is taken, the advance is the section under the lock.
-/

namespace MacKernel.ChannelRing

/-- `CKR_NOSLOT`: the writer holding this lease has not finished yet. -/
def ckrNoslot : UInt32 := ~~~0

/-- The fields of `struct __kern_channel_ring` that leases read and write. -/
structure Kring where
  /-- `ckr_num_slots`, the number of slots. -/
  numSlots : UInt32
  /-- `ckr_lim`, documented as `ckr_num_slots - 1`. -/
  lim : UInt32
  /-- `ckr_khead`, the next slot to be consumed. -/
  khead : UInt32
  /-- `ckr_ktail`, the first slot not yet shown to the consumer. -/
  ktail : UInt32
  /-- `ckr_klease`, the slot after the last one leased. -/
  klease : UInt32
  /-- `ckr_lease_idx`, the next ticket to be assigned. -/
  leaseIdx : UInt32
  /-- `ckr_leases`, where writers report the end of their block. -/
  leases : UInt32 → UInt32

/-- `SLOT_NEXT`: the next index, with wraparound. -/
def slotNext (i lim : UInt32) : UInt32 := if i = lim then 0 else i + 1

/-- `kr_available_slots`: the slots that can still be leased. -/
def krAvailableSlots (kr : Kring) : UInt32 :=
  let busy := (kr.klease - kr.khead).toInt32
  let busy := if busy < 0 then busy + kr.numSlots.toInt32 else busy
  kr.lim - busy.toUInt32

/-- What `kr_reserve_slots_locked` hands to its caller: the granted count it
returns and the three values it stores through its pointer arguments. -/
structure Reservation where
  n : UInt32
  start : UInt32
  stop : UInt32
  ticket : UInt32
  deriving DecidableEq, Repr

/-- `kr_reserve_slots_locked`: lease at most `n` slots and take a ticket. -/
def krReserveSlotsLocked (kr : Kring) (n : UInt32) : Kring × Reservation :=
  let nAvailable := krAvailableSlots kr
  let n := if n > nAvailable then nAvailable else n
  let ticket := kr.leaseIdx
  let start := kr.klease
  let stop := start + n
  let stop := if stop > kr.lim then stop - (kr.lim + 1) else stop
  ({ kr with
      leases := Function.update kr.leases ticket ckrNoslot
      leaseIdx := slotNext ticket kr.lim
      klease := stop }, ⟨n, start, stop, ticket⟩)

/-- The store `l[ticket] = end` that `kr_publish_slots` makes before locking. -/
def krPublishMark (kr : Kring) (stop ticket : UInt32) : Kring :=
  { kr with leases := Function.update kr.leases ticket stop }

/-- The variables of the scan over subsequent leases. -/
structure Walk where
  leases : UInt32 → UInt32
  stop : UInt32
  ticket : UInt32

/-- One pass of the scan: stop at the next ticket or at an unfinished writer. -/
def walkBody (leaseIdx lim : UInt32) (w : Walk) : Except Fault (Walk ⊕ Walk) :=
  if w.ticket ≠ leaseIdx ∧ w.leases w.ticket ≠ ckrNoslot then
    .ok (.inl ⟨Function.update w.leases w.ticket ckrNoslot, w.leases w.ticket,
      slotNext w.ticket lim⟩)
  else .ok (.inr w)

/-- The scan of the locked section; each pass clears an entry, so more passes
than the array has entries would be a fault. -/
def leaseWalk (kr : Kring) (stop ticket : UInt32) : Except Fault Walk :=
  loop (walkBody kr.leaseIdx kr.lim) (kr.numSlots.toNat + 1) ⟨kr.leases, stop, ticket⟩

/-- The outcome of the locked section: the ring, whether a notification is due,
and the value its ticket variable ends with. -/
structure Advanced where
  kr : Kring
  newBufs : Bool
  ticket : UInt32

/-- The locked section of `kr_publish_slots`. -/
def krPublishAdvance (kr : Kring) (start stop ticket : UInt32) : Except Fault Advanced :=
  if start = kr.ktail then do
    let w ← leaseWalk kr stop ticket
    if w.stop ≠ start then
      return ⟨{ kr with leases := w.leases, ktail := w.stop }, true, w.ticket⟩
    else
      return ⟨{ kr with leases := w.leases }, false, w.ticket⟩
  else
    return ⟨kr, false, ticket⟩

/-- `kr_publish_slots`, mark and locked section together. -/
def krPublishSlots (kr : Kring) (start stop ticket : UInt32) : Except Fault Advanced :=
  krPublishAdvance (krPublishMark kr stop ticket) start stop ticket

theorem walkBody_again {leaseIdx lim : UInt32} {w : Walk} (hidx : w.ticket ≠ leaseIdx)
    (hentry : w.leases w.ticket ≠ ckrNoslot) : walkBody leaseIdx lim w =
      .ok (.inl ⟨Function.update w.leases w.ticket ckrNoslot, w.leases w.ticket,
        slotNext w.ticket lim⟩) :=
  if_pos ⟨hidx, hentry⟩

/-- The locked section of a lease that starts at `ktail`, once its scan has ended elsewhere. -/
theorem krPublishAdvance_moved {kr : Kring} {start stop ticket : UInt32} {w : Walk}
    (hstart : start = kr.ktail) (hwalk : leaseWalk kr stop ticket = .ok w)
    (hne : w.stop ≠ start) : krPublishAdvance kr start stop ticket =
      .ok ⟨{ kr with leases := w.leases, ktail := w.stop }, true, w.ticket⟩ := by
  rw [krPublishAdvance, if_pos hstart, hwalk]
  exact if_pos hne

theorem krPublishAdvance_kept {kr : Kring} {start stop ticket : UInt32}
    (hstart : start ≠ kr.ktail) :
    krPublishAdvance kr start stop ticket = .ok ⟨kr, false, ticket⟩ :=
  if_neg hstart

section Counters

variable {kr : Kring} {n : Nat}

private theorem toInt32_neg_iff (a : UInt32) : a.toInt32 < 0 ↔ 2 ^ 31 ≤ a.toNat := by
  rw [Int32.lt_iff_toInt_lt]
  change a.toBitVec.toInt < 0 ↔ _
  rw [BitVec.toInt_eq_toNat_cond]
  have := a.toNat_lt
  change (if 2 * a.toNat < 2 ^ 32 then (a.toNat : Int)
    else a.toNat - ((2 ^ 32 : Nat) : Int)) < 0 ↔ _
  split <;> omega

/-- On a ring of at most `2 ^ 31` slots the signed computation of the free slots
is exact: all but one slot, less the distance from `khead` to `klease`. -/
theorem krAvailableSlots_toNat (hn : n ≤ 2 ^ 31) (hnum : kr.numSlots.toNat = n)
    (hlim : kr.lim.toNat + 1 = n) (hhead : kr.khead.toNat < n) (hlease : kr.klease.toNat < n) :
    (krAvailableSlots kr).toNat = n - 1 - cyclicDist n kr.khead.toNat kr.klease.toNat := by
  have hsub : (kr.klease - kr.khead).toNat =
      if kr.khead.toNat ≤ kr.klease.toNat then kr.klease.toNat - kr.khead.toNat
      else 2 ^ 32 - kr.khead.toNat + kr.klease.toNat := by
    rw [UInt32.toNat_sub]
    split <;> omega
  unfold krAvailableSlots cyclicDist
  simp only [toInt32_neg_iff]
  by_cases h : kr.khead.toNat ≤ kr.klease.toNat
  · rw [if_neg (by rw [hsub]; simp only [h, ite_true]; omega), UInt32.toUInt32_toInt32,
      UInt32.toNat_sub, hsub]
    simp only [h, ite_true]
    omega
  · rw [if_pos (by rw [hsub]; simp only [h, ite_false]; omega), Int32.toUInt32_add,
      UInt32.toUInt32_toInt32, UInt32.toUInt32_toInt32, UInt32.toNat_sub, UInt32.toNat_add, hsub]
    simp only [h, ite_false]
    omega

theorem slotNext_toNat {i lim : UInt32} (hlim : lim.toNat + 1 = n) (hn : n ≤ 2 ^ 31)
    (hi : i.toNat < n) : (slotNext i lim).toNat = (i.toNat + 1) % n := by
  unfold slotNext
  by_cases h : i = lim
  · subst h
    simp only [ite_true, hlim, Nat.mod_self, UInt32.toNat_zero]
  · have hne : i.toNat ≠ lim.toNat := fun he => h (UInt32.toNat.inj he)
    rw [if_neg h, UInt32.toNat_add, UInt32.toNat_one, Nat.mod_eq_of_lt (by omega),
      Nat.mod_eq_of_lt (by omega)]

end Counters

end MacKernel.ChannelRing
