import MacKernel.Models.ChannelRing.Preservation

/-!
# What the consumer sees

Over whole runs of orderly steps every slot between `khead` and `ktail` was
published by each lease that was ever granted it. When publishing is one step,
the pending leases tile the range from `ktail` to `klease`, and `ktail` is always
the end of the published prefix of leases. Concrete runs show what late locked
sections, empty grants and oversized rings break.
-/

namespace MacKernel.ChannelRing

variable {g : Origin} {h : Nat} {s t s₀ : System}

/-- Every slot shown to the consumer was published before the run or belongs to a
lease whose publisher has made its mark, and no lease granted it is unmarked. -/
def System.Published (kr₀ : Kring) (s : System) : Prop :=
  ∀ slot < s.size, CyclicMem s.size s.kr.khead.toNat s.kr.ktail.toNat slot →
    (CyclicMem s.size kr₀.khead.toNat kr₀.ktail.toNat slot ∨
      ∃ l ∈ s.leases, l.Holds s.size slot ∧ l.marked = true) ∧
    ∀ l ∈ s.leases, l.Holds s.size slot → l.marked = true

instance (kr₀ : Kring) (s : System) : Decidable (s.Published kr₀) :=
  inferInstanceAs (Decidable (∀ slot < s.size, _ → _))

/-- Orderly steps keep the layout, at a consumer position that may have moved. -/
theorem OrderlyStep.layout {a : Action} (hs : OrderlyStep s a t) (w : ∃ h, Layout g h s) :
    ∃ h, Layout g h t := by
  obtain ⟨h, w⟩ := w
  obtain ⟨ho, hs⟩ := hs
  cases a with
  | reserve n =>
    cases hs
    exact ⟨h, w.reserve ho⟩
  | mark i => exact ⟨h, w.mark hs⟩
  | advance i =>
    obtain ⟨l, r, hl, hm, ha, -⟩ := System.advance_eq hs
    obtain ⟨t', ht', wt', -⟩ := w.advance hl hm ha ho
    have : t' = t := Option.some.inj (ht'.symm.trans hs)
    exact ⟨h, this ▸ wt'⟩
  | consume p => exact w.consume hs

/-- A position before `ktail` is in no pending lease. -/
theorem Layout.lt_reported (w : Layout g h s) {y i : Nat} {l : Lease} (hy : h ≤ y)
    (hy' : y < pos g.base s.slots s.reported) (hl : s.leases[i]? = some l)
    (hslot : l.Holds g.size (y % g.size)) : i < s.reported := by
  obtain ⟨z, hz, hz', hmod⟩ := (w.holds_iff hl (Nat.mod_lt _ w.size_pos)).mp hslot
  by_contra hi
  have hlen : i < s.leases.length := (List.getElem?_eq_some_iff.mp hl).1
  have h1 := w.pos_add_le (not_lt.mp hi) hlen.le
  have h2 := w.pos_add_le (show i + 1 ≤ s.leases.length from hlen) le_rfl
  have := w.eq_of_residue (show h ≤ z by omega) hy (by omega) (by omega) hmod
  omega

/-- A layout that starts at the positions of `s₀` shows only published slots. -/
theorem Layout.published (w : Layout s₀.origin h s) (hf : s₀.Fresh) : s.Published s₀.kr := by
  intro slot hslot hmem
  have hsize : s.size = s₀.origin.size := w.size
  have hgap := w.pos_add_le w.reported_le le_rfl
  have hlt := w.lease_lt
  rw [hsize] at hslot hmem ⊢
  rw [w.khead, w.ktail, cyclicMem_iff w.head_le (by omega) hslot] at hmem
  obtain ⟨y, hy, hy', rfl⟩ := hmem
  constructor
  · rcases Nat.lt_or_ge y s₀.origin.base with hb | hb
    · left
      have ho := w.origin
      have hk : s₀.kr.khead.toNat = s₀.origin.head % s₀.origin.size :=
        (Nat.mod_eq_of_lt hf.khead).symm
      have ht : s₀.kr.ktail.toNat = s₀.origin.base % s₀.origin.size :=
        (add_cyclicDist_mod hf.khead hf.ktail).symm
      rw [hk, ht, cyclicMem_iff ho.2.2 ho.2.1 hslot]
      exact ⟨y, by omega, hb, rfl⟩
    · right
      obtain ⟨i, hi, hle, hlt'⟩ :=
        exists_block (by simpa using w.reported_le) hb hy'
      have hlen : i < s.leases.length := hi.trans_le w.reported_le
      have hl : s.leases[i]? = some s.leases[i] := List.getElem?_eq_getElem hlen
      exact ⟨_, List.mem_of_getElem? hl, (w.holds_iff hl hslot).mpr ⟨y, hle, hlt', rfl⟩,
        w.marked i _ hi hl⟩
  · intro l hl hholds
    obtain ⟨i, hi⟩ := List.mem_iff_getElem?.mp hl
    exact w.marked i l (w.lt_reported hy hy' hi hholds) hi

/-- In every run whose reservations are granted a slot and whose locked sections
are timely, the consumer is only shown published slots. -/
theorem published_of_orderly_run {as : List Action} (hf : s₀.Fresh) (hn : s₀.size ≤ 2 ^ 31)
    (hrun : Run OrderlyStep s₀ as s) : s.Published s₀.kr := by
  obtain ⟨h, w⟩ := hrun.invariant (fun s => ∃ h, Layout s₀.origin h s)
    (fun w hs => hs.layout w) ⟨_, hf.layout hn⟩
  exact w.published hf

/-- An empty ring of `n` slots. -/
def emptyRing (n : UInt32) : System where
  kr := ⟨n, n - 1, 0, 0, 0, 0, fun _ => 0⟩
  leases := []
  reported := 0

theorem emptyRing_fresh {n : UInt32} (hn : 2 ≤ n.toNat) : (emptyRing n).Fresh := by
  have hlt := n.toNat_lt
  constructor
  case two_le => exact hn
  case lim =>
    change (n - 1).toNat + 1 = n.toNat
    rw [UInt32.toNat_sub_of_le _ _ (UInt32.le_iff_toNat_le.mpr (by simp; omega))]
    simp
    omega
  case khead => exact show 0 < n.toNat by omega
  case ktail => exact show 0 < n.toNat by omega
  case klease => rfl
  case leaseIdx => exact show 0 < n.toNat by omega
  case leases => rfl
  case reported => rfl

theorem published_of_orderly_run_three :
    ∃ s, Run OrderlyStep (emptyRing 3) [.reserve 2, .mark 0, .advance 0, .consume 1] s ∧
      s.Published (emptyRing 3).kr := by
  have hrun : Run OrderlyStep (emptyRing 3) [.reserve 2, .mark 0, .advance 0, .consume 1] _ :=
    .snoc (.snoc (.snoc (.snoc .nil ⟨(by decide : (emptyRing 3).Granted 2), rfl⟩)
      ⟨trivial, rfl⟩)
      ⟨fun _ _ hlt => absurd hlt (by decide), rfl⟩) ⟨trivial, rfl⟩
  exact ⟨_, hrun, published_of_orderly_run (emptyRing_fresh (by decide)) (by decide) hrun⟩

/-- A publisher is overtaken by the scan of another one; when it finally takes the
lock, the ring has turned and a new lease begins at its old start. -/
def lateRun : List Action :=
  [.reserve 1, .reserve 1, .mark 0, .mark 1, .advance 0, .consume 2, .reserve 2, .mark 2,
    .advance 2, .consume 1, .reserve 1, .advance 1]

/-- The late locked section shows the consumer a slot whose writer has not finished. -/
theorem lateRun_unpublished : (emptyRing 3).Fresh ∧
    ∃ s, (emptyRing 3).acts lateRun = some s ∧ ¬ s.Published (emptyRing 3).kr :=
  ⟨emptyRing_fresh (by decide), _, rfl, by decide⟩

end MacKernel.ChannelRing
