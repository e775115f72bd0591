import MacKernel.Models.ChannelRing.System
import Mathlib.Algebra.BigOperators.Group.List.Basic
import Mathlib.Algebra.Order.BigOperators.Group.List

/-!
# The lease layout of an orderly ring

Every slot index and ticket of the ring is the residue of an unbounded position.
Leases occupy consecutive blocks of positions in reservation order, the reported
leases are a prefix of them, and the whole leased range is shorter than one turn.
The lease array is pinned exactly on the tickets of the leases not yet reported.
-/

namespace MacKernel.ChannelRing

/-- Position of the first slot of block `i` when blocks follow one another from `base`. -/
def pos (base : Nat) (slots : List Nat) (i : Nat) : Nat := base + (slots.take i).sum

section Positions

variable {base : Nat} {slots : List Nat} {i j : Nat}

@[simp] theorem pos_zero : pos base slots 0 = base := by simp [pos]

/-- The next block begins where this one ends. -/
theorem pos_succ {n : Nat} (h : slots[i]? = some n) :
    pos base slots (i + 1) = pos base slots i + n := by
  rw [pos, pos, List.take_add_one, h, Option.toList_some, List.sum_append, List.sum_singleton,
    Nat.add_assoc]

/-- A block appended later moves none of the earlier blocks. -/
theorem pos_append (more : List Nat) (hi : i ≤ slots.length) :
    pos base (slots ++ more) i = pos base slots i := by
  rw [pos, pos, List.take_append_of_le_length hi]

/-- Non-empty blocks keep later blocks at least as far apart as their numbers. -/
theorem pos_add_le (hpos : ∀ n ∈ slots, 0 < n) (hij : i ≤ j) (hj : j ≤ slots.length) :
    pos base slots i + (j - i) ≤ pos base slots j := by
  induction j with
  | zero =>
    obtain rfl : i = 0 := by omega
    omega
  | succ j ih =>
    rcases Nat.lt_or_ge j i with hlt | hle
    · rw [show i = j + 1 by omega]
      omega
    · have hget : slots[j]? = some slots[j] := List.getElem?_eq_getElem (by omega)
      have hn := hpos _ (List.mem_of_getElem? hget)
      have := ih hle (by omega)
      rw [pos_succ hget]
      omega

/-- Every position from the base up to the end of block `k` lies in one block below `k`. -/
theorem exists_block {p k : Nat} (hk : k ≤ slots.length) (hb : base ≤ p)
    (hp : p < pos base slots k) :
    ∃ i, i < k ∧ pos base slots i ≤ p ∧ p < pos base slots (i + 1) := by
  induction k with
  | zero => simp at hp; omega
  | succ k ih =>
    rcases Nat.lt_or_ge p (pos base slots k) with h | h
    · obtain ⟨i, hi, hle, hlt⟩ := ih (by omega) h
      exact ⟨i, by omega, hle, hlt⟩
    · exact ⟨k, by omega, h, hp⟩

end Positions

/-- Where the unbounded positions of a run begin. -/
structure Origin where
  /-- Number of slots of the ring. -/
  size : Nat
  /-- Position of `khead` before the run. -/
  head : Nat
  /-- Position of `ktail` and `klease` before the run. -/
  base : Nat
  /-- First ticket of the run. -/
  ticket : Nat

/-- The granted block sizes in reservation order. -/
def System.slots (s : System) : List Nat := s.leases.map fun l => l.n.toNat

/-- Lease `i` was granted the non-empty block `i` and the `i`-th ticket. -/
structure LeaseAt (g : Origin) (slots : List Nat) (i : Nat) (l : Lease) : Prop where
  pos_n : 0 < l.n.toNat
  n_lt : l.n.toNat < g.size
  start : l.start.toNat = pos g.base slots i % g.size
  stop : l.stop.toNat = pos g.base slots (i + 1) % g.size
  ticket : l.ticket.toNat = (g.ticket + i) % g.size

/-- The layout of an orderly ring whose consumer stands at position `h`. -/
structure Layout (g : Origin) (h : Nat) (s : System) : Prop where
  two_le : 2 ≤ g.size
  size_le : g.size ≤ 2 ^ 31
  size : s.size = g.size
  lim : s.kr.lim.toNat + 1 = g.size
  origin : g.head ≤ h ∧ g.base < g.head + g.size ∧ g.head ≤ g.base
  reported_le : s.reported ≤ s.leases.length
  head_le : h ≤ pos g.base s.slots s.reported
  lease_lt : pos g.base s.slots s.leases.length < h + g.size
  khead : s.kr.khead.toNat = h % g.size
  ktail : s.kr.ktail.toNat = pos g.base s.slots s.reported % g.size
  klease : s.kr.klease.toNat = pos g.base s.slots s.leases.length % g.size
  leaseIdx : s.kr.leaseIdx.toNat = (g.ticket + s.leases.length) % g.size
  granted : ∀ i l, s.leases[i]? = some l → LeaseAt g s.slots i l
  marked : ∀ i l, i < s.reported → s.leases[i]? = some l → l.marked = true
  entry : ∀ i l, s.reported ≤ i → s.leases[i]? = some l →
    s.kr.leases l.ticket = if l.marked then l.stop else ckrNoslot

section Layouts

variable {g : Origin} {h : Nat} {s t : System}

@[simp] theorem System.slots_length (s : System) : s.slots.length = s.leases.length := by
  simp [System.slots]

/-- A lease covers the slots that it was granted. -/
theorem System.slots_getElem? {i : Nat} {l : Lease} (hl : s.leases[i]? = some l) :
    s.slots[i]? = some l.n.toNat := by
  simp [System.slots, hl]

/-- Recording progress of one publisher changes no granted block. -/
theorem System.slots_set {i : Nat} {l l' : Lease} (hl : s.leases[i]? = some l)
    (he : l'.toReservation = l.toReservation) :
    (s.leases.set i l').map (fun l => l.n.toNat) = s.slots := by
  obtain ⟨hi, rfl⟩ := List.getElem?_eq_some_iff.mp hl
  rw [System.slots, List.map_set, he,
    ← List.getElem_map (fun l : Lease => l.n.toNat) (h := by simpa using hi),
    List.set_getElem_self]

/-- Everything a mark can do. -/
theorem System.mark_eq {i : Nat} (hs : s.mark i = some t) :
    ∃ l, s.leases[i]? = some l ∧ l.marked = false ∧ t = { s with
      kr := krPublishMark s.kr l.stop l.ticket
      leases := s.leases.set i { l with marked := true } } := by
  simp only [System.mark, Option.bind_eq_bind, Option.bind_eq_some_iff] at hs
  obtain ⟨l, hl, hs⟩ := hs
  cases hm : l.marked with
  | true => simp [hm] at hs
  | false =>
    simp only [hm, Bool.false_eq_true, ite_false, Option.some.injEq] at hs
    exact ⟨l, hl, hm, hs.symm⟩

/-- A lease that is not marked yet can be. -/
theorem System.mark_of {i : Nat} {l : Lease} (hl : s.leases[i]? = some l)
    (hm : l.marked = false) : s.mark i = some { s with
      kr := krPublishMark s.kr l.stop l.ticket
      leases := s.leases.set i { l with marked := true } } := by
  simp only [System.mark, hl, Option.bind_eq_bind, Option.bind_some, hm, Bool.false_eq_true,
    ite_false]

/-- A marked lease whose locked section returns takes the step. -/
theorem System.advance_of {i : Nat} {l : Lease} {r : Advanced} (hl : s.leases[i]? = some l)
    (hm : l.marked = true) (ha : l.advanced = false)
    (hr : krPublishAdvance s.kr l.start l.stop l.ticket = .ok r) :
    s.advance i = some {
      kr := r.kr
      leases := s.leases.set i { l with advanced := true }
      reported := if l.start = s.kr.ktail
        then i + cyclicDist s.size l.ticket.toNat r.ticket.toNat else s.reported } := by
  have hguard : ¬(l.marked = false ∨ l.advanced = true) := by simp [hm, ha]
  simp only [System.advance, hl, Option.bind_eq_bind, Option.bind_some, if_neg hguard, hr]

/-- Everything a locked section can do. -/
theorem System.advance_eq {i : Nat} (hs : s.advance i = some t) :
    ∃ l r, s.leases[i]? = some l ∧ l.marked = true ∧ l.advanced = false ∧
      krPublishAdvance s.kr l.start l.stop l.ticket = .ok r ∧ t = {
        kr := r.kr
        leases := s.leases.set i { l with advanced := true }
        reported := if l.start = s.kr.ktail
          then i + cyclicDist s.size l.ticket.toNat r.ticket.toNat else s.reported } := by
  simp only [System.advance, Option.bind_eq_bind, Option.bind_eq_some_iff] at hs
  obtain ⟨l, hl, hs⟩ := hs
  split at hs
  case isTrue => cases hs
  case isFalse hguard =>
    simp only [not_or, Bool.not_eq_false, Bool.not_eq_true] at hguard
    cases hr : krPublishAdvance s.kr l.start l.stop l.ticket with
    | error e => simp [hr] at hs
    | ok r =>
      simp only [hr, Option.some.injEq] at hs
      exact ⟨l, r, hl, hguard.1, hguard.2, hr, hs.symm⟩

/-- A publisher that is not interrupted runs `kr_publish_slots` on its lease. -/
theorem System.publish_eq {i : Nat} (hs : s.call (.publish i) = some t) :
    ∃ l r, s.leases[i]? = some l ∧
      krPublishSlots s.kr l.start l.stop l.ticket = .ok r ∧ t.kr = r.kr := by
  obtain ⟨u, hu, hs⟩ := Option.bind_eq_some_iff.mp hs
  obtain ⟨l, hl, -, rfl⟩ := System.mark_eq hu
  obtain ⟨m, r, hm, -, -, hr, rfl⟩ := System.advance_eq hs
  -- The lease that advances is the one that was just marked.
  have hi : i < s.leases.length := (List.getElem?_eq_some_iff.mp hl).1
  obtain rfl : { l with marked := true } = m := by
    simpa only [List.getElem?_set_self hi, Option.some.injEq] using hm
  exact ⟨l, r, hl, hr, rfl⟩

namespace Layout

/-- A ring has a slot. -/
theorem size_pos (w : Layout g h s) : 0 < g.size := by
  have := w.two_le
  omega

/-- Every lease covers a slot. -/
theorem slots_pos (w : Layout g h s) : ∀ n ∈ s.slots, 0 < n := by
  intro n hn
  obtain ⟨l, hl, rfl⟩ := List.mem_map.mp hn
  obtain ⟨i, hi⟩ := List.mem_iff_getElem?.mp hl
  exact (w.granted i l hi).pos_n

/-- Blocks start at least as far apart as their reservation numbers. -/
theorem pos_add_le (w : Layout g h s) {i j : Nat} (hij : i ≤ j) (hj : j ≤ s.leases.length) :
    pos g.base s.slots i + (j - i) ≤ pos g.base s.slots j :=
  ChannelRing.pos_add_le w.slots_pos hij (by simpa using hj)

/-- The leases not yet reported are fewer than the slots of the ring. -/
theorem pending_lt (w : Layout g h s) : s.leases.length - s.reported < g.size := by
  have := w.pos_add_le w.reported_le le_rfl
  have := w.head_le
  have := w.lease_lt
  omega

/-- The head is a slot of the ring. -/
theorem khead_lt (w : Layout g h s) : s.kr.khead.toNat < g.size := by
  rw [w.khead]
  exact Nat.mod_lt _ w.size_pos

/-- The lease position is a slot of the ring. -/
theorem klease_lt (w : Layout g h s) : s.kr.klease.toNat < g.size := by
  rw [w.klease]
  exact Nat.mod_lt _ w.size_pos

/-- The next lease is one of the ring. -/
theorem leaseIdx_lt (w : Layout g h s) : s.kr.leaseIdx.toNat < g.size := by
  rw [w.leaseIdx]
  exact Nat.mod_lt _ w.size_pos

/-- The head does not pass the end of the leases. -/
theorem head_le_lease (w : Layout g h s) : h ≤ pos g.base s.slots s.leases.length := by
  have := w.pos_add_le w.reported_le le_rfl
  have := w.head_le
  omega

/-- The free slots are those of one turn less one, minus the leased and unread ones. -/
theorem available (w : Layout g h s) : (krAvailableSlots s.kr).toNat =
    g.size - 1 - (pos g.base s.slots s.leases.length - h) := by
  rw [krAvailableSlots_toNat w.size_le w.size w.lim w.khead_lt w.klease_lt, w.khead, w.klease,
    cyclicDist_mod w.head_le_lease w.lease_lt]

/-- The next ticket belongs to no lease that is still to be reported. -/
theorem ticket_ne_leaseIdx (w : Layout g h s) {i : Nat} {l : Lease} (hi : s.reported ≤ i)
    (hl : s.leases[i]? = some l) : l.ticket ≠ s.kr.leaseIdx := by
  intro he
  have hlen : i < s.leases.length := (List.getElem?_eq_some_iff.mp hl).1
  have hp := w.pending_lt
  have hmod := congrArg UInt32.toNat he
  rw [(w.granted i l hl).ticket, w.leaseIdx] at hmod
  have := eq_of_mod_eq hmod (by omega) (by omega)
  omega

/-- Leases still to be reported hold pairwise distinct tickets. -/
theorem ticket_inj (w : Layout g h s) {i j : Nat} {l l' : Lease} (hi : s.reported ≤ i)
    (hj : s.reported ≤ j) (hl : s.leases[i]? = some l) (hl' : s.leases[j]? = some l')
    (he : l.ticket = l'.ticket) : i = j := by
  have hilen : i < s.leases.length := (List.getElem?_eq_some_iff.mp hl).1
  have hjlen : j < s.leases.length := (List.getElem?_eq_some_iff.mp hl').1
  have hp := w.pending_lt
  have hmod := congrArg UInt32.toNat he
  rw [(w.granted i l hl).ticket, (w.granted j l' hl').ticket] at hmod
  rcases Nat.le_total i j with hij | hij
  · have := eq_of_mod_eq hmod (by omega) (by omega)
    omega
  · have := eq_of_mod_eq hmod.symm (by omega) (by omega)
    omega

/-- The slots of a lease are the residues of its block of positions. -/
theorem holds_iff (w : Layout g h s) {i slot : Nat} {l : Lease} (hl : s.leases[i]? = some l)
    (hslot : slot < g.size) : l.Holds g.size slot ↔
      ∃ y, pos g.base s.slots i ≤ y ∧ y < pos g.base s.slots (i + 1) ∧ y % g.size = slot := by
  have hat := w.granted i l hl
  rw [Lease.Holds, hat.start, cyclicDist_lt_iff hat.n_lt.le hslot,
    pos_succ (System.slots_getElem? hl)]

/-- Two positions of the leased range with one residue are the same position. -/
theorem eq_of_residue (w : Layout g h s) {y z : Nat} (hy : h ≤ y) (hz : h ≤ z)
    (hy' : y < pos g.base s.slots s.leases.length) (hz' : z < pos g.base s.slots s.leases.length)
    (he : y % g.size = z % g.size) : y = z := by
  have := w.lease_lt
  rcases Nat.le_total y z with hyz | hyz
  · exact eq_of_mod_eq he hyz (by omega)
  · exact (eq_of_mod_eq he.symm hyz (by omega)).symm

end Layout

end Layouts

end MacKernel.ChannelRing
