import MacKernel.Models.ChannelRing.Invariant

/-!
# Orderly steps keep the lease layout

One lemma for each atomic step. The locked section is the only one with a loop:
its scan passes exactly the leases up to the first unfinished writer.
-/

namespace MacKernel.ChannelRing

variable {g : Origin} {h : Nat} {s t : System}

/-- The positions of a run that starts on a fresh ring. -/
def System.origin (s : System) : Origin where
  size := s.size
  head := s.kr.khead.toNat
  base := s.kr.khead.toNat + cyclicDist s.size s.kr.khead.toNat s.kr.ktail.toNat
  ticket := s.kr.leaseIdx.toNat

/-- A fresh ring has the empty layout. -/
theorem System.Fresh.layout (hf : s.Fresh) (hn : s.size ≤ 2 ^ 31) :
    Layout s.origin s.kr.khead.toNat s := by
  have hslots : s.slots = [] := by simp [System.slots, hf.leases]
  have hdist := cyclicDist_lt hf.khead hf.ktail
  have htail := add_cyclicDist_mod hf.khead hf.ktail
  constructor
  case two_le => exact hf.two_le
  case size_le => exact hn
  case size => rfl
  case lim => exact hf.lim
  case origin => exact ⟨le_rfl, by simp only [System.origin]; omega, Nat.le_add_right _ _⟩
  case reported_le => simp [hf.reported]
  case head_le => simp [hf.reported, System.origin]
  case lease_lt => simpa [hf.leases, System.origin] using hdist
  case khead => exact (Nat.mod_eq_of_lt hf.khead).symm
  case ktail => simpa [hf.reported, System.origin] using htail.symm
  case klease => simpa [hf.leases, hf.klease, System.origin] using htail.symm
  case leaseIdx => simpa [hf.leases, System.origin] using (Nat.mod_eq_of_lt hf.leaseIdx).symm
  case granted => simp [hf.leases]
  case marked => simp [hf.leases]
  case entry => simp [hf.leases]

namespace Layout

/-- The consumer only shortens the published range. -/
theorem consume (w : Layout g h s) {p : UInt32} (hs : s.consume p = some t) :
    ∃ h', Layout g h' t := by
  simp only [System.consume] at hs
  split at hs
  case isFalse => cases hs
  case isTrue hguard =>
    cases hs
    obtain ⟨hp, hd⟩ := hguard
    have hr := w.pos_add_le w.reported_le le_rfl
    have hl := w.lease_lt
    rw [w.size, w.khead, w.ktail, cyclicDist_mod w.head_le (by omega)] at hd
    rw [w.size] at hp
    have hmod := add_cyclicDist_mod (Nat.mod_lt h w.size_pos) hp
    have ho := w.origin
    have hh := w.head_le
    refine ⟨h + cyclicDist g.size (h % g.size) p.toNat, { w with
      origin := ⟨by omega, ho.2⟩
      head_le := ?_
      lease_lt := ?_
      khead := ?_ }⟩
    · change _ ≤ pos g.base s.slots s.reported
      omega
    · change pos g.base s.slots s.leases.length < _
      omega
    · rw [Nat.add_mod, Nat.mod_eq_of_lt (cyclicDist_lt (Nat.mod_lt h w.size_pos) hp)]
      exact hmod.symm

end Layout

/-- The granted count, start, end and ticket of a reservation on an orderly ring. -/
theorem Layout.reservation (w : Layout g h s) (n : UInt32) :
    (krReserveSlotsLocked s.kr n).2.n.toNat = min n.toNat (krAvailableSlots s.kr).toNat ∧
      (krReserveSlotsLocked s.kr n).2.stop.toNat =
        (pos g.base s.slots s.leases.length +
          (krReserveSlotsLocked s.kr n).2.n.toNat) % g.size := by
  have hav := w.available
  have hle := w.size_le
  have hlim := w.lim
  have hstart := w.klease_lt
  have hn : (krReserveSlotsLocked s.kr n).2.n.toNat =
      min n.toNat (krAvailableSlots s.kr).toNat := by
    simp only [krReserveSlotsLocked]
    split
    · next hgt =>
      have := UInt32.lt_iff_toNat_lt.mp hgt
      omega
    · next hgt =>
      have := mt UInt32.lt_iff_toNat_lt.mpr hgt
      omega
  refine ⟨hn, ?_⟩
  have hsmall : (krReserveSlotsLocked s.kr n).2.n.toNat < g.size := by omega
  have hsum : (s.kr.klease + (krReserveSlotsLocked s.kr n).2.n).toNat =
      s.kr.klease.toNat + (krReserveSlotsLocked s.kr n).2.n.toNat := by
    rw [UInt32.toNat_add, Nat.mod_eq_of_lt (by omega)]
  rw [← Nat.mod_add_mod, ← w.klease]
  change (if s.kr.klease + (krReserveSlotsLocked s.kr n).2.n > s.kr.lim then
    s.kr.klease + (krReserveSlotsLocked s.kr n).2.n - (s.kr.lim + 1)
    else s.kr.klease + (krReserveSlotsLocked s.kr n).2.n).toNat = _
  split
  · next hgt =>
    have hgt' := UInt32.lt_iff_toNat_lt.mp hgt
    rw [hsum] at hgt'
    have hlim1 : (s.kr.lim + 1).toNat = g.size := by
      rw [UInt32.toNat_add, UInt32.toNat_one, Nat.mod_eq_of_lt (by omega), hlim]
    rw [UInt32.toNat_sub_of_le _ _ (UInt32.le_iff_toNat_le.mpr (by omega)), hsum, hlim1,
      Nat.mod_eq_sub_mod (by omega), Nat.mod_eq_of_lt (by omega)]
  · next hgt =>
    have hgt' := mt UInt32.lt_iff_toNat_lt.mpr hgt
    rw [hsum] at hgt'
    rw [hsum, Nat.mod_eq_of_lt (by omega)]

/-- An element of an extended list is an old one or the appended one. -/
theorem getElem?_concat {α : Type*} {xs : List α} {x y : α} {i : Nat}
    (hy : (xs ++ [x])[i]? = some y) : xs[i]? = some y ∨ (i = xs.length ∧ y = x) := by
  rcases Nat.lt_trichotomy i xs.length with hi | rfl | hi
  · exact Or.inl (by rwa [List.getElem?_append_left hi] at hy)
  · rw [List.getElem?_concat_length, Option.some.injEq] at hy
    exact Or.inr ⟨rfl, hy.symm⟩
  · rw [List.getElem?_eq_none (by simp; omega)] at hy
    cases hy

/-- A reservation that is granted a slot appends one block to the layout. -/
theorem Layout.reserve (w : Layout g h s) {n : UInt32} (hg : s.Granted n) :
    Layout g h (s.reserve n) := by
  obtain ⟨hn, hstop⟩ := w.reservation n
  have hav := w.available
  have hn0 := UInt32.lt_iff_toNat_lt.mp hg.1
  have ha0 := UInt32.lt_iff_toNat_lt.mp hg.2
  simp only [UInt32.toNat_zero] at hn0 ha0
  let l : Lease := ⟨(krReserveSlotsLocked s.kr n).2, false, false⟩
  have hleases : (s.reserve n).leases = s.leases ++ [l] := rfl
  have hslots : (s.reserve n).slots = s.slots ++ [l.n.toNat] := by simp [System.slots, hleases]
  have hold : ∀ i, i ≤ s.leases.length →
      pos g.base (s.slots ++ [l.n.toNat]) i = pos g.base s.slots i := by
    intro i hi
    exact pos_append _ (by simpa using hi)
  have hend : pos g.base (s.slots ++ [l.n.toNat]) (s.leases.length + 1) =
      pos g.base s.slots s.leases.length + l.n.toNat := by
    rw [pos_succ (n := l.n.toNat) (by simp), hold _ le_rfl]
  have hlt := w.lease_lt
  have hhl := w.head_le_lease
  constructor
  case two_le => exact w.two_le
  case size_le => exact w.size_le
  case size => exact w.size
  case lim => exact w.lim
  case origin => exact w.origin
  case reported_le =>
    have := w.reported_le
    simp only [List.length_append, List.length_singleton, System.reserve]
    omega
  case head_le =>
    rw [hslots]
    change h ≤ pos g.base _ s.reported
    rw [hold _ w.reported_le]
    exact w.head_le
  case lease_lt =>
    rw [hslots, hleases, List.length_append, List.length_singleton, hend]
    change _ + (krReserveSlotsLocked s.kr n).2.n.toNat < _
    omega
  case khead => exact w.khead
  case ktail =>
    rw [hslots]
    change s.kr.ktail.toNat = pos g.base _ s.reported % _
    rw [hold _ w.reported_le]
    exact w.ktail
  case klease =>
    rw [hslots, hleases, List.length_append, List.length_singleton, hend]
    exact hstop
  case leaseIdx =>
    rw [hleases, List.length_append, List.length_singleton]
    change (slotNext s.kr.leaseIdx s.kr.lim).toNat = _
    rw [slotNext_toNat w.lim w.size_le w.leaseIdx_lt, w.leaseIdx, Nat.mod_add_mod, Nat.add_assoc]
  case granted =>
    intro i l' hl'
    rw [hslots]
    rcases getElem?_concat hl' with hl' | ⟨rfl, rfl⟩
    · have hi : i < s.leases.length := (List.getElem?_eq_some_iff.mp hl').1
      have hat := w.granted i l' hl'
      exact ⟨hat.pos_n, hat.n_lt, by rw [hold _ hi.le]; exact hat.start,
        by rw [hold _ hi]; exact hat.stop, hat.ticket⟩
    · refine ⟨?_, ?_, ?_, ?_, w.leaseIdx⟩
      · change 0 < (krReserveSlotsLocked s.kr n).2.n.toNat
        omega
      · change (krReserveSlotsLocked s.kr n).2.n.toNat < g.size
        omega
      · rw [hold _ le_rfl]
        exact w.klease
      · rw [hend]
        exact hstop
  case marked =>
    intro i l' hi hl'
    rcases getElem?_concat hl' with hl' | ⟨rfl, rfl⟩
    · exact w.marked i l' hi hl'
    · exact absurd w.reported_le (not_le.mpr hi)
  case entry =>
    intro i l' hi hl'
    change Function.update s.kr.leases s.kr.leaseIdx ckrNoslot l'.ticket = _
    rcases getElem?_concat hl' with hl' | ⟨rfl, rfl⟩
    · rw [Function.update_of_ne (w.ticket_ne_leaseIdx hi hl')]
      exact w.entry i l' hi hl'
    · exact Function.update_self ..

/-- Recording progress of the publisher of lease `i`, with a lease array that is
still right about every pending lease, keeps the layout. -/
theorem Layout.relabel (w : Layout g h s) {i : Nat} {l m : Lease} {entries : UInt32 → UInt32}
    (hl : s.leases[i]? = some l) (he : m.toReservation = l.toReservation)
    (hmark : i < s.reported → m.marked = true)
    (hself : s.reported ≤ i → entries l.ticket = if m.marked then m.stop else ckrNoslot)
    (hother : ∀ j lj, j ≠ i → s.reported ≤ j → s.leases[j]? = some lj →
      entries lj.ticket = s.kr.leases lj.ticket) :
    Layout g h { s with
      kr := { s.kr with leases := entries }, leases := s.leases.set i m } := by
  have hi : i < s.leases.length := (List.getElem?_eq_some_iff.mp hl).1
  have hslots : System.slots { s with
      kr := { s.kr with leases := entries }, leases := s.leases.set i m } = s.slots :=
    System.slots_set hl he
  have hget : ∀ j lj, (s.leases.set i m)[j]? = some lj →
      (j = i ∧ lj = m) ∨ (j ≠ i ∧ s.leases[j]? = some lj) := by
    intro j lj hj
    rw [List.getElem?_set] at hj
    split at hj
    · next hij =>
      rw [Option.some.injEq] at hj
      exact Or.inl ⟨hij.symm, hj.symm⟩
    · next hij => exact Or.inr ⟨fun hji => hij hji.symm, hj⟩
  constructor
  case two_le => exact w.two_le
  case size_le => exact w.size_le
  case size => exact w.size
  case lim => exact w.lim
  case origin => exact w.origin
  case reported_le => simpa only [List.length_set] using w.reported_le
  case head_le => rw [hslots]; exact w.head_le
  case lease_lt => rw [hslots, List.length_set]; exact w.lease_lt
  case khead => exact w.khead
  case ktail => rw [hslots]; exact w.ktail
  case klease => rw [hslots, List.length_set]; exact w.klease
  case leaseIdx => rw [List.length_set]; exact w.leaseIdx
  case granted =>
    intro j lj hj
    rw [hslots]
    rcases hget j lj hj with ⟨rfl, rfl⟩ | ⟨_, hj⟩
    · have hat := w.granted j l hl
      constructor
      all_goals rw [he]
      exacts [hat.pos_n, hat.n_lt, hat.start, hat.stop, hat.ticket]
    · exact w.granted j lj hj
  case marked =>
    intro j lj hjr hj
    rcases hget j lj hj with ⟨rfl, rfl⟩ | ⟨_, hj⟩
    · exact hmark hjr
    · exact w.marked j lj hjr hj
  case entry =>
    intro j lj hjr hj
    rcases hget j lj hj with ⟨rfl, rfl⟩ | ⟨hne, hj⟩
    · rw [he]
      simpa only [he] using hself hjr
    · change entries lj.ticket = _
      rw [hother j lj hne hjr hj]
      exact w.entry j lj hjr hj

/-- A publisher's mark is recorded in its own entry and in no other pending one. -/
theorem Layout.mark (w : Layout g h s) {i : Nat} (hs : s.mark i = some t) : Layout g h t := by
  obtain ⟨l, hl, hm, rfl⟩ := System.mark_eq hs
  have hi : s.reported ≤ i := by
    by_contra hlt
    rw [w.marked i l (by omega) hl] at hm
    cases hm
  refine w.relabel hl rfl (fun _ => rfl) (fun _ => Function.update_self ..) ?_
  intro j lj hne hj hlj
  exact Function.update_of_ne (fun he => hne (w.ticket_inj hj hi hlj hl he)) ..

/-- The scan has passed the leases below `j`, all finished, and stands at lease `j`. -/
structure WalkAt (g : Origin) (s : System) (j : Nat) (w : Walk) : Prop where
  reported_le : s.reported ≤ j
  le_length : j ≤ s.leases.length
  marked : ∀ i l, i < j → s.leases[i]? = some l → l.marked = true
  stop : w.stop.toNat = pos g.base s.slots (max j (s.reported + 1)) % g.size
  ticket : w.ticket.toNat = (g.ticket + j) % g.size
  entry : ∀ i l, j ≤ i → s.leases[i]? = some l → w.leases l.ticket = s.kr.leases l.ticket

/-- One pass either moves over a finished lease or ends at the first one that is not. -/
theorem Layout.walkBody_spec (w : Layout g h s) {j : Nat} {v : Walk} (hv : WalkAt g s j v) :
    (∃ v', walkBody s.kr.leaseIdx s.kr.lim v = .ok (.inl v') ∧ j < s.leases.length ∧
      WalkAt g s (j + 1) v') ∨
    (walkBody s.kr.leaseIdx s.kr.lim v = .ok (.inr v) ∧
      ∀ l, s.leases[j]? = some l → l.marked = false) := by
  rcases Nat.lt_or_ge j s.leases.length with hj | hj
  · have hl : s.leases[j]? = some s.leases[j] := List.getElem?_eq_getElem hj
    have hat := w.granted j _ hl
    have hticket : v.ticket = s.leases[j].ticket :=
      UInt32.toNat.inj (hv.ticket.trans hat.ticket.symm)
    have hentry : v.leases v.ticket =
        if s.leases[j].marked then s.leases[j].stop else ckrNoslot := by
      rw [hticket, hv.entry j _ le_rfl hl, w.entry j _ hv.reported_le hl]
    have hidx : v.ticket ≠ s.kr.leaseIdx := by
      rw [hticket]
      exact w.ticket_ne_leaseIdx hv.reported_le hl
    cases hm : s.leases[j].marked with
    | false =>
      right
      rw [hm] at hentry
      refine ⟨by simp [walkBody, hentry], ?_⟩
      intro l hl'
      rw [hl, Option.some.injEq] at hl'
      rwa [← hl']
    | true =>
      left
      rw [hm, if_pos rfl] at hentry
      have hstop : s.leases[j].stop ≠ ckrNoslot := by
        intro he
        have hb : s.leases[j].stop.toNat < g.size := by
          rw [hat.stop]
          exact Nat.mod_lt _ w.size_pos
        have hle := w.size_le
        rw [he, show ckrNoslot.toNat = 4294967295 from rfl] at hb
        omega
      refine ⟨_, walkBody_again hidx (by rwa [hentry]), hj, ?_⟩
      constructor
      case reported_le => exact hv.reported_le.trans (Nat.le_succ j)
      case le_length => exact hj
      case marked =>
        intro i l hi hl'
        rcases Nat.lt_or_ge i j with hij | hij
        · exact hv.marked i l hij hl'
        · obtain rfl : i = j := by omega
          rw [hl, Option.some.injEq] at hl'
          rwa [← hl']
      case stop =>
        rw [max_eq_left (by have := hv.reported_le; omega), hentry]
        exact hat.stop
      case ticket =>
        have hlt : v.ticket.toNat < g.size := by
          rw [hv.ticket]
          exact Nat.mod_lt _ w.size_pos
        rw [slotNext_toNat w.lim w.size_le hlt, hv.ticket, Nat.mod_add_mod, Nat.add_assoc]
      case entry =>
        intro i l hi hl'
        rw [← hv.entry i l (by omega) hl']
        refine Function.update_of_ne ?_ ..
        rw [hticket]
        intro he
        have := w.ticket_inj (by have := hv.reported_le; omega) hv.reported_le hl' hl he
        omega
  · right
    obtain rfl : j = s.leases.length := le_antisymm hv.le_length hj
    have hidx : v.ticket = s.kr.leaseIdx :=
      UInt32.toNat.inj (hv.ticket.trans w.leaseIdx.symm)
    refine ⟨by simp [walkBody, hidx], ?_⟩
    intro l hl
    rw [List.getElem?_eq_none le_rfl] at hl
    cases hl

/-- Started at the first lease not yet reported, when its writer has finished, the
scan ends and has passed exactly the leases before the next unfinished writer. -/
theorem Layout.leaseWalk_spec (w : Layout g h s) {l : Lease}
    (hl : s.leases[s.reported]? = some l) (hm : l.marked = true) :
    ∃ v j, leaseWalk s.kr l.stop l.ticket = .ok v ∧ s.reported < j ∧ WalkAt g s j v ∧
      ∀ l', s.leases[j]? = some l' → l'.marked = false := by
  have hr : s.reported < s.leases.length := (List.getElem?_eq_some_iff.mp hl).1
  have hat := w.granted _ _ hl
  have hstart : WalkAt g s s.reported ⟨s.kr.leases, l.stop, l.ticket⟩ := by
    refine ⟨le_rfl, hr.le, w.marked, ?_, hat.ticket, fun _ _ _ _ => rfl⟩
    rw [max_eq_right (Nat.le_succ _)]
    exact hat.stop
  have hfuel : s.leases.length - s.reported < s.kr.numSlots.toNat + 1 := by
    have := w.pending_lt
    have hsize : s.kr.numSlots.toNat = g.size := w.size
    omega
  have hbody : ∀ bound v, (∃ j, WalkAt g s j v ∧ bound = s.leases.length - j) →
      (∃ v' bound', bound' < bound ∧ walkBody s.kr.leaseIdx s.kr.lim v = .ok (.inl v') ∧
        ∃ j, WalkAt g s j v' ∧ bound' = s.leases.length - j) ∨
      ∃ r, walkBody s.kr.leaseIdx s.kr.lim v = .ok (.inr r) ∧
        ∃ j, WalkAt g s j r ∧ ∀ l', s.leases[j]? = some l' → l'.marked = false := by
    rintro bound v ⟨j, hj, rfl⟩
    rcases w.walkBody_spec hj with ⟨v', hb, hlt, hj'⟩ | ⟨hb, hend⟩
    · exact Or.inl ⟨v', _, by omega, hb, j + 1, hj', rfl⟩
    · exact Or.inr ⟨v, hb, j, hj, hend⟩
  obtain ⟨v, hv, j, hj, hend⟩ := loop_spec _ _ hbody ⟨s.reported, hstart, rfl⟩ hfuel
  refine ⟨v, j, hv, lt_of_le_of_ne hj.reported_le ?_, hj, hend⟩
  rintro rfl
  rw [hend l hl] at hm
  cases hm

/-- The locked section of the first pending lease, when its writer has finished,
moves `ktail` to the end of the last lease before the next unfinished writer. -/
theorem Layout.publishAdvance_spec (w : Layout g h s) {l : Lease}
    (hl : s.leases[s.reported]? = some l) (hm : l.marked = true) :
    ∃ r j, krPublishAdvance s.kr l.start l.stop l.ticket = .ok r ∧ s.reported < j ∧
      j ≤ s.leases.length ∧ s.reported + cyclicDist s.size l.ticket.toNat r.ticket.toNat = j ∧
      Layout g h { s with kr := r.kr, reported := j } ∧
      ∀ l', s.leases[j]? = some l' → l'.marked = false := by
  obtain ⟨v, j, hwalk, hlt, hv, hend⟩ := w.leaseWalk_spec hl hm
  have hat := w.granted _ _ hl
  have hlen := hv.le_length
  have hgap := w.pos_add_le hlt.le hlen
  have hgap' := w.pos_add_le hlen le_rfl
  have hll := w.lease_lt
  have hhl := w.head_le
  have hstop : v.stop.toNat = pos g.base s.slots j % g.size := by
    rw [hv.stop, max_eq_left hlt]
  have hne : v.stop ≠ l.start := by
    intro he
    have hmod := congrArg UInt32.toNat he
    rw [hstop, hat.start] at hmod
    have := eq_of_mod_eq hmod.symm (by omega) (by omega)
    omega
  have hktail : l.start = s.kr.ktail := UInt32.toNat.inj (hat.start.trans w.ktail.symm)
  refine ⟨_, j, krPublishAdvance_moved hktail hwalk hne, hlt, hlen, ?_, ?_, hend⟩
  · have hp := w.pending_lt
    rw [w.size, hat.ticket, hv.ticket, cyclicDist_mod (by omega) (by omega)]
    omega
  · exact { w with
      reported_le := hlen
      head_le := show h ≤ pos g.base s.slots j by omega
      ktail := hstop
      marked := hv.marked
      entry := fun i l' hi hl' =>
        (hv.entry i l' hi hl').trans (w.entry i l' (hlt.le.trans hi) hl') }

/-- A pending lease starts at `ktail` exactly when it is the first one. -/
theorem Layout.start_eq_ktail_iff (w : Layout g h s) {i : Nat} {l : Lease}
    (hi : s.reported ≤ i) (hl : s.leases[i]? = some l) :
    l.start = s.kr.ktail ↔ i = s.reported := by
  have hat := w.granted i l hl
  have hlen : i < s.leases.length := (List.getElem?_eq_some_iff.mp hl).1
  have hgap := w.pos_add_le hi hlen.le
  have hgap' := w.pos_add_le hlen.le le_rfl
  have hll := w.lease_lt
  have hhl := w.head_le
  constructor
  · intro he
    have hmod := congrArg UInt32.toNat he
    rw [hat.start, w.ktail] at hmod
    have := eq_of_mod_eq hmod.symm (by omega) (by omega)
    omega
  · rintro rfl
    exact UInt32.toNat.inj (hat.start.trans w.ktail.symm)

/-- A timely locked section keeps the layout, and it always ends. -/
theorem Layout.advance (w : Layout g h s) {i : Nat} {l : Lease} (hl : s.leases[i]? = some l)
    (hm : l.marked = true) (ha : l.advanced = false) (ht : s.Timely i) :
    ∃ t, s.advance i = some t ∧ Layout g h t ∧
      t.leases = s.leases.set i { l with advanced := true } ∧
      (i ≠ s.reported → t.reported = s.reported) ∧
      (i = s.reported → i < t.reported ∧
        ∀ l', s.leases[t.reported]? = some l' → l'.marked = false) := by
  by_cases hi : i = s.reported
  · subst hi
    obtain ⟨r, j, hr, hlt, hlen, hdist, wj, hend⟩ := w.publishAdvance_spec hl hm
    have hstart := (w.start_eq_ktail_iff le_rfl hl).mpr rfl
    refine ⟨_, System.advance_of hl hm ha hr, ?_, rfl, fun hne => absurd rfl hne, ?_⟩
    · rw [if_pos hstart, hdist]
      exact wj.relabel (m := { l with advanced := true }) hl rfl (fun _ => hm)
        (fun hle => absurd hle (not_le.mpr hlt)) (fun _ _ _ _ _ => rfl)
    · simp only [if_pos hstart, hdist]
      exact fun _ => ⟨hlt, hend⟩
  · have hstart : l.start ≠ s.kr.ktail := by
      rcases Nat.lt_or_ge i s.reported with hlt | hle
      · exact ht l hl hlt
      · exact fun he => hi ((w.start_eq_ktail_iff hle hl).mp he)
    refine ⟨_, System.advance_of hl hm ha (krPublishAdvance_kept hstart), ?_, rfl,
      fun _ => if_neg hstart, fun he => absurd he hi⟩
    rw [if_neg hstart]
    exact w.relabel (m := { l with advanced := true }) hl rfl (fun _ => hm)
      (fun hle => w.entry i l hle hl) (fun _ _ _ _ _ => rfl)

end MacKernel.ChannelRing
