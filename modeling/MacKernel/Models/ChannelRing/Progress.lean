import MacKernel.Models.ChannelRing.Safety

/-!
# Exact progress when publishing is one step

With mark and locked section together, the reported leases are exactly the
longest prefix of published ones. The pending leases then tile the leased range,
their tickets are distinct, and the free-slot count is exact.
-/

namespace MacKernel.ChannelRing

variable {g : Origin} {h : Nat} {s t s₀ : System}

/-- The longest prefix, in reservation order, of consecutively published leases. -/
def System.published (s : System) : List Lease := s.leases.takeWhile fun l => l.marked

/-- Lease `i` is outstanding, or marked behind a lease that is. -/
def System.Pending (s : System) (i : Nat) (l : Lease) : Prop :=
  s.published.length ≤ i ∧ s.leases[i]? = some l

/-- No scan stops before a finished writer. -/
def System.Tight (s : System) : Prop :=
  ∀ l, s.leases[s.reported]? = some l → l.marked = false

/-- No lease has been through its locked section without its store before the lock. -/
def System.Staged (s : System) : Prop := ∀ l ∈ s.leases, l.advanced = true → l.marked = true

/-- Publishing an outstanding lease returns: the scan of its locked section stops. -/
def System.Publishes (s : System) : Prop :=
  ∀ i l, s.leases[i]? = some l → l.marked = false →
    ∃ t r, s.call (.publish i) = some t ∧
      krPublishSlots s.kr l.start l.stop l.ticket = .ok r ∧ t.kr = r.kr

/-- A prefix of satisfying elements followed by none or a failing one is the longest. -/
theorem takeWhile_eq_take {α : Type*} {p : α → Bool} {xs : List α} {k : Nat}
    (hlow : ∀ i x, i < k → xs[i]? = some x → p x = true)
    (hend : ∀ x, xs[k]? = some x → p x = false) : xs.takeWhile p = xs.take k := by
  induction xs generalizing k with
  | nil => simp
  | cons x xs ih =>
    cases k with
    | zero => simp [hend x rfl]
    | succ k =>
      rw [List.takeWhile_cons_of_pos (hlow 0 x (by omega) rfl), List.take_succ_cons,
        ih (fun i y hi hy => hlow (i + 1) y (by omega) hy) (fun y hy => hend y hy)]

/-- On a tight layout the published prefix is what the scans have reported. -/
theorem Layout.published_eq (w : Layout g h s) (ht : s.Tight) :
    s.published = s.leases.take s.reported :=
  takeWhile_eq_take w.marked ht

theorem Layout.published_length (w : Layout g h s) (ht : s.Tight) :
    s.published.length = s.reported := by
  rw [w.published_eq ht, List.length_take, min_eq_left w.reported_le]

/-- Marking precedes advancing in every call. -/
theorem System.Staged.call {c : Call} (hs : s.call c = some t) (h : s.Staged) : t.Staged := by
  cases c with
  | reserve n =>
    cases hs
    intro l hl
    rcases List.mem_append.mp hl with hl | hl
    · exact h l hl
    · obtain rfl := List.mem_singleton.mp hl
      exact fun he => nomatch he
  | consume p =>
    simp only [System.call, System.consume] at hs
    split at hs
    · cases hs
      exact h
    · cases hs
  | publish i =>
    obtain ⟨u, hu, hs⟩ := Option.bind_eq_some_iff.mp hs
    obtain ⟨l₀, -, -, rfl⟩ := System.mark_eq hu
    obtain ⟨l₁, r, -, hm, -, -, rfl⟩ := System.advance_eq hs
    intro l hl
    rcases List.mem_or_eq_of_mem_set hl with hl | rfl
    · rcases List.mem_or_eq_of_mem_set hl with hl | rfl
      · exact h l hl
      · exact fun _ => rfl
    · exact fun _ => hm

/-- On a layout whose calls mark before they advance, every outstanding lease can be
published. -/
theorem Layout.publishes (w : Layout g h s) (hs : s.Staged) : s.Publishes := by
  intro i l hl hm
  have hlen : i < s.leases.length := (List.getElem?_eq_some_iff.mp hl).1
  have ha : l.advanced = false := by
    by_contra hne
    have hmarked := hs l (List.mem_of_getElem? hl) (Bool.not_eq_false _ ▸ hne)
    exact Bool.false_ne_true (hm.symm.trans hmarked)
  have hi : s.reported ≤ i := by
    by_contra hlt
    exact Bool.false_ne_true (hm.symm.trans (w.marked i l (by omega) hl))
  have hmark := System.mark_of hl hm
  obtain ⟨t, hadv, -⟩ := (w.mark hmark).advance (List.getElem?_set_self hlen) rfl ha
    fun _ _ hlt => absurd hi (not_le.mpr hlt)
  have hcall : s.call (.publish i) = some t := by
    rw [System.call, hmark]
    exact hadv
  obtain ⟨l', r, hl', hr, hkr⟩ := System.publish_eq hcall
  obtain rfl : l = l' := Option.some.inj (hl.symm.trans hl')
  exact ⟨t, r, hcall, hr, hkr⟩

/-- Calls that grant a slot keep a tight layout. -/
theorem GrantedCall.layout {c : Call} (hs : GrantedCall s c t)
    (w : (∃ h, Layout g h s) ∧ s.Tight) : (∃ h, Layout g h t) ∧ t.Tight := by
  obtain ⟨⟨h, w⟩, ht⟩ := w
  obtain ⟨hg, hs⟩ := hs
  cases c with
  | reserve n =>
    cases hs
    refine ⟨⟨h, w.reserve hg⟩, ?_⟩
    intro l hl
    rcases getElem?_concat hl with hl | ⟨-, rfl⟩
    · exact ht l hl
    · rfl
  | consume p =>
    refine ⟨w.consume hs, ?_⟩
    simp only [System.call, System.consume] at hs
    split at hs
    · cases hs
      exact ht
    · cases hs
  | publish i =>
    simp only [System.call, Option.bind_eq_bind, Option.bind_eq_some_iff] at hs
    obtain ⟨u, hu, hs⟩ := hs
    have wu := w.mark hu
    obtain ⟨l₀, hl₀, hm₀, rfl⟩ := System.mark_eq hu
    have hi : s.reported ≤ i := by
      by_contra hlt
      rw [w.marked i l₀ (by omega) hl₀] at hm₀
      cases hm₀
    obtain ⟨l, r, hl, hm, ha, -⟩ := System.advance_eq hs
    obtain ⟨t', ht', wt', hleases, hkept, hmoved⟩ :=
      wu.advance hl hm ha (fun _ _ hlt => absurd hi (not_le.mpr hlt))
    obtain rfl : t' = t := Option.some.inj (ht'.symm.trans hs)
    refine ⟨⟨h, wt'⟩, ?_⟩
    intro l' hl'
    rw [hleases] at hl'
    by_cases hir : i = s.reported
    · obtain ⟨hlt, hend⟩ := hmoved hir
      rw [List.getElem?_set_ne (by omega)] at hl'
      exact hend l' hl'
    · rw [hkept hir, List.getElem?_set_ne hir, List.getElem?_set_ne hir] at hl'
      exact ht l' hl'

/-- A run of granting calls from a fresh ring keeps a tight layout. -/
theorem tight_of_granted_run {cs : List Call} (hf : s₀.Fresh) (hn : s₀.size ≤ 2 ^ 31)
    (hrun : Run GrantedCall s₀ cs s) : (∃ h, Layout s₀.origin h s) ∧ s.Tight :=
  hrun.invariant (fun s => (∃ h, Layout s₀.origin h s) ∧ s.Tight) (fun w hs => hs.layout w)
    ⟨⟨_, hf.layout hn⟩, by simp [System.Tight, hf.leases]⟩

/-- Every run marks before it advances. -/
theorem staged_of_granted_run {cs : List Call} (hf : s₀.Fresh)
    (hrun : Run GrantedCall s₀ cs s) : s.Staged :=
  hrun.invariant System.Staged (fun h hs => h.call hs.2)
    (by simp [System.Staged, hf.leases])

/-- The exact state of a ring whose leases are published in one step each. -/
structure System.Exact (s₀ s : System) : Prop where
  /-- Tickets follow the reservation order around the lease array. -/
  ticket : ∀ i l, s.leases[i]? = some l →
    l.ticket.toNat = (s₀.kr.leaseIdx.toNat + i) % s.size
  /-- The pending leases cover exactly the range from `ktail` to `klease`. -/
  tile : ∀ slot < s.size, CyclicMem s.size s.kr.ktail.toNat s.kr.klease.toNat slot ↔
    ∃ i l, s.Pending i l ∧ l.Holds s.size slot
  /-- No slot is in two pending leases. -/
  disjoint : ∀ slot < s.size, ∀ i j l l', s.Pending i l → s.Pending j l' →
    l.Holds s.size slot → l'.Holds s.size slot → i = j
  /-- No slot shown to the consumer is leased. -/
  apart : ∀ slot < s.size, CyclicMem s.size s.kr.khead.toNat s.kr.ktail.toNat slot →
    ¬ CyclicMem s.size s.kr.ktail.toNat s.kr.klease.toNat slot
  /-- `ktail` is the end of the published prefix. -/
  ktail : s.kr.ktail = (s.published.getLast?.map fun l => l.stop).getD s₀.kr.ktail
  /-- When every lease is published nothing is left between `ktail` and `klease`. -/
  drained : (∀ l ∈ s.leases, l.marked = true) → s.kr.ktail = s.kr.klease
  /-- The free-slot count neither underflows nor misses a slot. -/
  available : (krAvailableSlots s.kr).toNat +
    cyclicDist s.size s.kr.khead.toNat s.kr.klease.toNat = s.size - 1

namespace Layout

/-- Residues of the positions from `ktail` to `klease` are the slots of pending leases. -/
theorem pending_tile (w : Layout g h s) {slot : Nat} (hslot : slot < g.size) :
    CyclicMem g.size s.kr.ktail.toNat s.kr.klease.toNat slot ↔
      ∃ i l, (s.reported ≤ i ∧ s.leases[i]? = some l) ∧ l.Holds g.size slot := by
  have hgap := w.pos_add_le w.reported_le le_rfl
  have hlt := w.lease_lt
  have hhead := w.head_le
  rw [w.ktail, w.klease, cyclicMem_iff (by omega) (by omega) hslot]
  constructor
  · rintro ⟨y, hy, hy', hmod⟩
    obtain ⟨i, hi, hle, hlt'⟩ := exists_block (by simp)
      (show g.base ≤ y from (Nat.le_add_right _ _).trans hy) hy'
    have hl : s.leases[i]? = some s.leases[i] := List.getElem?_eq_getElem hi
    refine ⟨i, _, ⟨?_, hl⟩, (w.holds_iff hl hslot).mpr ⟨y, hle, hlt', hmod⟩⟩
    by_contra hir
    have := w.pos_add_le (show i + 1 ≤ s.reported by omega) w.reported_le
    omega
  · rintro ⟨i, l, ⟨hi, hl⟩, hholds⟩
    obtain ⟨y, hy, hy', hmod⟩ := (w.holds_iff hl hslot).mp hholds
    have hlen : i < s.leases.length := (List.getElem?_eq_some_iff.mp hl).1
    have h1 := w.pos_add_le hi hlen.le
    have h2 := w.pos_add_le (show i + 1 ≤ s.leases.length from hlen) le_rfl
    exact ⟨y, by omega, by omega, hmod⟩

/-- Blocks of different pending leases share no slot. -/
theorem pending_disjoint (w : Layout g h s) {slot i j : Nat} {l l' : Lease}
    (hslot : slot < g.size) (hi : s.reported ≤ i) (hj : s.reported ≤ j)
    (hl : s.leases[i]? = some l) (hl' : s.leases[j]? = some l')
    (hh : l.Holds g.size slot) (hh' : l'.Holds g.size slot) : i = j := by
  obtain ⟨y, hy, hy', hmod⟩ := (w.holds_iff hl hslot).mp hh
  obtain ⟨z, hz, hz', hmod'⟩ := (w.holds_iff hl' hslot).mp hh'
  have hilen : i < s.leases.length := (List.getElem?_eq_some_iff.mp hl).1
  have hjlen : j < s.leases.length := (List.getElem?_eq_some_iff.mp hl').1
  have hhead := w.head_le
  have h1 := w.pos_add_le hi hilen.le
  have h2 := w.pos_add_le hj hjlen.le
  have h3 := w.pos_add_le (show i + 1 ≤ s.leases.length from hilen) le_rfl
  have h4 := w.pos_add_le (show j + 1 ≤ s.leases.length from hjlen) le_rfl
  have he := w.eq_of_residue (show h ≤ y by omega) (show h ≤ z by omega) (by omega) (by omega)
    (hmod.trans hmod'.symm)
  by_contra hne
  rcases Nat.lt_or_gt_of_ne hne with hij | hij
  · have := w.pos_add_le (show i + 1 ≤ j from hij) hjlen.le
    omega
  · have := w.pos_add_le (show j + 1 ≤ i from hij) hilen.le
    omega

/-- The end of the published prefix is where `ktail` stands. -/
theorem ktail_eq (w : Layout s₀.origin h s) (hf : s₀.Fresh) (ht : s.Tight) :
    s.kr.ktail = (s.published.getLast?.map fun l => l.stop).getD s₀.kr.ktail := by
  rw [w.published_eq ht]
  apply UInt32.toNat.inj
  cases hr : s.reported with
  | zero =>
    rw [w.ktail, hr, pos_zero]
    exact add_cyclicDist_mod hf.khead hf.ktail
  | succ r =>
    have hlen : r < s.leases.length := by
      have := w.reported_le
      omega
    have hl : s.leases[r]? = some s.leases[r] := List.getElem?_eq_getElem hlen
    rw [List.getLast?_take, if_neg (Nat.succ_ne_zero r), Nat.add_sub_cancel, hl, Option.some_or,
      Option.map_some, Option.getD_some, w.ktail, hr, (w.granted r _ hl).stop]

end Layout

/-- The ring is exact when its layout is tight. -/
theorem Layout.exact (w : Layout s₀.origin h s) (hf : s₀.Fresh) (ht : s.Tight) :
    System.Exact s₀ s := by
  have hsize : s.size = s₀.origin.size := w.size
  have hgap := w.pos_add_le w.reported_le le_rfl
  have hlt := w.lease_lt
  have hhead := w.head_le
  constructor
  case ticket =>
    intro i l hl
    rw [hsize]
    exact (w.granted i l hl).ticket
  case tile =>
    intro slot hslot
    simp only [System.Pending, w.published_length ht]
    rw [hsize] at hslot ⊢
    exact w.pending_tile hslot
  case disjoint =>
    intro slot hslot i j l l' hi hj
    simp only [System.Pending, w.published_length ht] at hi hj
    rw [hsize] at hslot ⊢
    exact w.pending_disjoint hslot hi.1 hj.1 hi.2 hj.2
  case apart =>
    intro slot hslot hmem hmem'
    rw [hsize] at hslot hmem hmem'
    obtain ⟨i, l, ⟨hi, hl⟩, hholds⟩ := (w.pending_tile hslot).mp hmem'
    rw [w.khead, w.ktail, cyclicMem_iff w.head_le (by omega) hslot] at hmem
    obtain ⟨y, hy, hy', rfl⟩ := hmem
    exact absurd (w.lt_reported hy hy' hl hholds) (not_lt.mpr hi)
  case ktail => exact w.ktail_eq hf ht
  case drained =>
    intro hall
    have hr : s.reported = s.leases.length := by
      by_contra hne
      have hr : s.reported < s.leases.length := lt_of_le_of_ne w.reported_le hne
      have hl : s.leases[s.reported]? = some s.leases[s.reported] := List.getElem?_eq_getElem hr
      have := ht _ hl
      rw [hall _ (List.mem_of_getElem? hl)] at this
      cases this
    apply UInt32.toNat.inj
    rw [w.ktail, w.klease, hr]
  case available =>
    rw [hsize, w.available, w.khead, w.klease, cyclicDist_mod (by omega) (by omega)]
    omega

/-- On a ring of at most `2 ^ 31` slots, in every run whose reservations are granted
a slot, the ring is exact after every call, and every outstanding lease can be published. -/
theorem exact_of_granted_run {cs : List Call} (hf : s₀.Fresh) (hn : s₀.size ≤ 2 ^ 31)
    (hrun : Run GrantedCall s₀ cs s) : System.Exact s₀ s ∧ s.Publishes := by
  obtain ⟨⟨h, w⟩, ht⟩ := tight_of_granted_run hf hn hrun
  exact ⟨w.exact hf ht, w.publishes (staged_of_granted_run hf hrun)⟩

/-- The second lease is published, and the first one is left to be. -/
theorem exact_of_granted_run_three :
    ∃ s t, Run GrantedCall (emptyRing 3) [.reserve 1, .reserve 1, .publish 1] s ∧
      System.Exact (emptyRing 3) s ∧ s.call (.publish 0) = some t := by
  have hrun : Run GrantedCall (emptyRing 3) [.reserve 1, .reserve 1, .publish 1] _ :=
    .snoc (.snoc (.snoc .nil ⟨(by decide : (emptyRing 3).Granted 1), rfl⟩)
      ⟨(by decide : ((emptyRing 3).reserve 1).Granted 1), rfl⟩) ⟨trivial, rfl⟩
  obtain ⟨hexact, hpub⟩ := exact_of_granted_run (emptyRing_fresh (by decide)) (by decide) hrun
  obtain ⟨t, -, ht, -⟩ := hpub 0 _ rfl rfl
  exact ⟨_, t, hrun, hexact, ht⟩

/-- With more than `2 ^ 31` slots the signed distance wraps: after one granted
reservation the free-slot count is off. -/
theorem oversized_not_exact : (emptyRing 3221225472).Fresh ∧
    ∃ s, Run GrantedCall (emptyRing 3221225472) [.reserve 2147483653] s ∧
      ¬ System.Exact (emptyRing 3221225472) s := by
  refine ⟨emptyRing_fresh (by decide), _,
    .snoc .nil ⟨(by decide : (emptyRing 3221225472).Granted 2147483653), rfl⟩, ?_⟩
  intro hex
  exact absurd hex.available (by decide)

/-- Unpublished reservations hold distinct tickets, and no reservation, of any
requested size, touches the entry of a pending lease. -/
structure System.TicketsUnique (s : System) : Prop where
  distinct : ∀ (i j : Nat) (l l' : Lease), s.leases[i]? = some l → s.leases[j]? = some l' →
    l.marked = false → l'.marked = false → l.ticket = l'.ticket → i = j
  untouched : ∀ n i l, s.Pending i l → (krReserveSlotsLocked s.kr n).2.ticket ≠ l.ticket ∧
    (krReserveSlotsLocked s.kr n).1.leases l.ticket = s.kr.leases l.ticket

/-- On a ring of at most `2 ^ 31` slots, in every run whose reservations are granted
a slot, tickets are unique after every call. -/
theorem ticketsUnique_of_granted_run {cs : List Call} (hf : s₀.Fresh) (hn : s₀.size ≤ 2 ^ 31)
    (hrun : Run GrantedCall s₀ cs s) : s.TicketsUnique := by
  obtain ⟨⟨h, w⟩, ht⟩ := tight_of_granted_run hf hn hrun
  have hpending : ∀ i l, s.leases[i]? = some l → l.marked = false → s.reported ≤ i := by
    intro i l hl hm
    by_contra hlt
    rw [w.marked i l (by omega) hl] at hm
    cases hm
  constructor
  · intro i j l l' hl hl' hm hm' he
    exact w.ticket_inj (hpending i l hl hm) (hpending j l' hl' hm') hl hl' he
  · intro n i l hp
    simp only [System.Pending, w.published_length ht] at hp
    have hne := w.ticket_ne_leaseIdx hp.1 hp.2
    exact ⟨hne.symm, Function.update_of_ne hne ..⟩

theorem ticketsUnique_of_granted_run_three :
    ∃ s, Run GrantedCall (emptyRing 3) [.reserve 1, .reserve 1] s ∧ s.TicketsUnique := by
  have hrun : Run GrantedCall (emptyRing 3) [.reserve 1, .reserve 1] _ :=
    .snoc (.snoc .nil ⟨(by decide : (emptyRing 3).Granted 1), rfl⟩)
      ⟨(by decide : ((emptyRing 3).reserve 1).Granted 1), rfl⟩
  exact ⟨_, hrun, ticketsUnique_of_granted_run (emptyRing_fresh (by decide)) (by decide) hrun⟩

/-- Empty grants still consume tickets: on a full ring of two slots the second
empty grant takes the ticket of the lease that fills the ring. -/
theorem empty_grants_share_ticket : (emptyRing 2).Fresh ∧
    ∃ s, (emptyRing 2).calls [.reserve 1, .reserve 1, .reserve 1] = some s ∧
      ¬ s.TicketsUnique := by
  refine ⟨emptyRing_fresh (by decide), _, rfl, ?_⟩
  intro hu
  exact absurd (hu.distinct 0 2 _ _ rfl rfl rfl rfl rfl) (by decide)

end MacKernel.ChannelRing
