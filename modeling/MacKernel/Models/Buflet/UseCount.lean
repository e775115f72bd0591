import MacKernel.Models.Buflet.System
import MacKernel.Core.Tally

/-!
# Use counts of buffer controls

The use count of a buffer control is compared with the buflets that hold a counted use
of it: those that are neither before the addition nor after the subtraction in the
macro that a thread runs.
-/

namespace MacKernel.Buflet

section Invariant

variable {T B : Type}

/-- The buflet whose stored buffer control is not counted: not yet, or no longer. -/
def Pc.uncounted : Pc B → Option B
  | .ctor kbuf _ | .copy _ kbuf | .clear kbuf _ => some kbuf
  | _ => none

open Classical in
/-- The buffer control of which a buflet holds a counted use. -/
noncomputable def System.refs (s : System T B) (b : B) : BitVec 64 :=
  if ∃ i, (s.threads i).uncounted = some b then 0 else (s.bufs b).ctl

/-- A buflet with `BUFLET_FLAG_EXTERNAL` cleared. -/
def KernBuflet.cleared (k : KernBuflet) : KernBuflet :=
  { k with com := bufFlag.set (bufFlag.get k.com &&& ~~~bufletFlagExternal) k.com }

/-- What a macro in progress relies on. -/
def Pc.Ok (bufs : B → KernBuflet) : Pc B → Prop
  | .ctor kbuf bc => (bufs kbuf).ctl = bc
  | .copy skb dkb => bufs dkb = (bufs skb).cleared
  | .unuse kbuf => (bufs kbuf).ctl ≠ 0
  | _ => True

/-- Macros in progress do not meet at a buflet that one of them writes. -/
def System.Apart (s : System T B) : Prop :=
  ∀ i j b, i ≠ j → (s.threads i).target = some b →
    (s.threads j).target ≠ some b ∧ (s.threads j).source ≠ some b

/-- Shared buffer controls count the buflets that use them, in the middle of macros too. -/
structure System.Balanced [Fintype B] (s : System T B) : Prop where
  shareok : ∀ c, (s.ctls c).flags &&& skmemBufctlShareok ≠ 0
  counts : ∀ c, c ≠ 0 → (s.ctls c).usecnt.toNat = tally s.refs c
  ok : ∀ i, (s.threads i).Ok s.bufs
  apart : s.Apart

end Invariant

section Frames

variable {T B : Type} [DecidableEq T] [DecidableEq B] {s : System T B} {i : T} {b : B}
  {k : KernBuflet} {pc : Pc B}

omit [DecidableEq B] in
/-- A thread that has yet to count works on that buflet. -/
theorem Pc.target_of_uncounted (h : pc.uncounted = some b) : pc.target = some b := by
  cases pc <;> simp_all [Pc.uncounted, Pc.target]

/-- Stores elsewhere do not concern a macro in progress. -/
theorem Pc.Ok.update {bufs : B → KernBuflet} (h : pc.Ok bufs) (ht : pc.target ≠ some b)
    (hs : pc.source ≠ some b) : pc.Ok (Function.update bufs b k) := by
  cases pc <;> simp_all [Pc.Ok, Pc.target, Pc.source]

/-- Only one macro in progress decides whether the use of its buflet counts. -/
theorem System.refs_of_others (h : ∀ j, j ≠ i → (s.threads j).target ≠ some b) :
    s.refs b = if (s.threads i).uncounted = some b then 0 else (s.bufs b).ctl := by
  have hiff : (∃ j, (s.threads j).uncounted = some b) ↔ (s.threads i).uncounted = some b := by
    refine ⟨fun ⟨j, hj⟩ => ?_, fun hi => ⟨i, hi⟩⟩
    by_cases hji : j = i
    · exact hji ▸ hj
    · exact absurd (Pc.target_of_uncounted hj) (h j hji)
  simp only [System.refs, hiff]

/-- A step of one thread at one buflet changes at most the reference of that buflet. -/
theorem System.refs_goto_store (hold : ∀ b', b' ≠ b → (s.threads i).target ≠ some b')
    (hnew : ∀ b', b' ≠ b → pc.target ≠ some b')
    (hothers : ∀ j, j ≠ i → (s.threads j).target ≠ some b) :
    ((s.store b k).goto i pc).refs =
      Function.update s.refs b (if pc.uncounted = some b then 0 else k.ctl) := by
  funext b'
  by_cases hb : b' = b
  · subst hb
    rw [Function.update_self, System.refs_of_others (i := i)]
    · simp [System.goto, System.store]
    · intro j hj
      simpa [System.goto, System.store, hj] using hothers j hj
  · have hiff : (∃ j, (((s.store b k).goto i pc).threads j).uncounted = some b') ↔
        ∃ j, (s.threads j).uncounted = some b' := by
      refine exists_congr fun j => ?_
      by_cases hj : j = i
      · subst hj
        have h₁ : pc.uncounted ≠ some b' := fun h => hnew b' hb (Pc.target_of_uncounted h)
        have h₂ : (s.threads j).uncounted ≠ some b' :=
          fun h => hold b' hb (Pc.target_of_uncounted h)
        simp [System.goto, System.store, h₁, h₂]
      · simp [System.goto, System.store, hj]
    rw [Function.update_of_ne hb]
    have hbuf : ((s.store b k).goto i pc).bufs b' = s.bufs b' := Function.update_of_ne hb _ _
    rw [System.refs, System.refs, hbuf]
    by_cases hex : ∃ j, (s.threads j).uncounted = some b'
    · rw [if_pos (hiff.mpr hex), if_pos hex]
    · rw [if_neg (mt hiff.mp hex), if_neg hex]

/-- A thread goes on with a buflet that the others leave alone. -/
theorem System.Apart.goto (h : s.Apart) (ctls : BitVec 64 → SkmemBufctl)
    (hnew : ∀ b', b' ≠ b → pc.target ≠ some b')
    (hothers : ∀ j, j ≠ i → (s.threads j).target ≠ some b)
    (hreaders : pc.target = some b → ∀ j, j ≠ i → (s.threads j).source ≠ some b)
    (hsource : ∀ j b', j ≠ i → pc.source = some b' → (s.threads j).target ≠ some b') :
    ({ (s.store b k).goto i pc with ctls := ctls } : System T B).Apart := by
  have honly : ∀ b', pc.target = some b' → b' = b := by
    intro b' ht
    by_contra hb
    exact hnew b' hb ht
  intro j j' b' hne ht
  by_cases hj : j = i
  · subst hj
    have hj' : j' ≠ j := hne.symm
    simp only [System.goto, System.store, Function.update_self, Function.update_of_ne hj'] at ht ⊢
    obtain rfl := honly b' ht
    exact ⟨hothers j' hj', hreaders ht j' hj'⟩
  · by_cases hj' : j' = i
    · subst hj'
      simp only [System.goto, System.store, Function.update_self, Function.update_of_ne hj] at ht ⊢
      constructor
      · intro hpc
        obtain rfl := honly b' hpc
        exact hothers j hj ht
      · intro hpc
        exact hsource j b' hj hpc ht
    · simp only [System.goto, System.store, Function.update_of_ne hj,
        Function.update_of_ne hj'] at ht ⊢
      exact h j j' b' hne ht

/-- A step of one thread at one buflet that changes the use counts as it changes the
reference of the buflet keeps the system balanced. -/
theorem System.Balanced.move [Fintype B] (hs : s.Balanced) (ctls : BitVec 64 → SkmemBufctl)
    (hold : ∀ b', b' ≠ b → (s.threads i).target ≠ some b')
    (hnew : ∀ b', b' ≠ b → pc.target ≠ some b')
    (hothers : ∀ j, j ≠ i → (s.threads j).target ≠ some b)
    (hreaders : (k = s.bufs b ∧ pc.target = none) ∨ ∀ j, j ≠ i → (s.threads j).source ≠ some b)
    (hsource : ∀ j b', j ≠ i → pc.source = some b' → (s.threads j).target ≠ some b')
    (hok : pc.Ok (Function.update s.bufs b k))
    (hflags : ∀ c, (ctls c).flags = (s.ctls c).flags)
    (hcounts : ∀ c, c ≠ 0 → (ctls c).usecnt.toNat + (if s.refs b = c then 1 else 0) =
      (s.ctls c).usecnt.toNat +
        if (if pc.uncounted = some b then 0 else k.ctl) = c then 1 else 0) :
    ({ (s.store b k).goto i pc with ctls := ctls } : System T B).Balanced where
  shareok c := by
    rw [hflags c]
    exact hs.shareok c
  counts c hc := by
    have htally := tally_update s.refs b (if pc.uncounted = some b then 0 else k.ctl) c
    rw [← System.refs_goto_store hold hnew hothers, ← hs.counts c hc, ← hcounts c hc] at htally
    exact (Nat.add_right_cancel htally).symm
  ok j := by
    by_cases hj : j = i
    · subst hj
      simpa [System.goto, System.store] using hok
    · simp only [System.goto, System.store, Function.update_of_ne hj]
      rcases hreaders with ⟨rfl, -⟩ | hreaders
      · rw [Function.update_eq_self]
        exact hs.ok j
      · exact (hs.ok j).update (hothers j hj) (hreaders j hj)
  apart := by
    apply hs.apart.goto ctls hnew hothers _ hsource
    intro htarget j hj
    rcases hreaders with ⟨-, hnone⟩ | hreaders
    · simp [hnone] at htarget
    · exact hreaders j hj

end Frames

section Counts

variable {T B : Type} {s t : System T B} {bc : BitVec 64}

/-- `skmem_bufctl_use` counts one more use, or none for `NULL`. -/
theorem System.use_eq_ok (h : s.use bc = .ok t) : ∃ ctls, t = { s with ctls := ctls } ∧
    (∀ c, (ctls c).flags = (s.ctls c).flags) ∧
    ∀ c, c ≠ 0 → (ctls c).usecnt.toNat = (s.ctls c).usecnt.toNat + if bc = c then 1 else 0 := by
  unfold System.use at h
  split at h
  · next hbc =>
    obtain rfl := Except.ok.inj h
    refine ⟨s.ctls, rfl, fun _ => rfl, fun c hc => ?_⟩
    rw [if_neg (hbc ▸ hc.symm), Nat.add_zero]
  · obtain ⟨c', huse, h⟩ := bind_eq_ok.mp h
    obtain rfl := Except.ok.inj h
    obtain ⟨_, hnew, huse⟩ := bind_eq_ok.mp huse
    obtain ⟨_, -, huse⟩ := bind_eq_ok.mp huse
    obtain rfl := Except.ok.inj huse
    rw [kassert_eq_ok] at hnew
    refine ⟨_, rfl, fun c => ?_, fun c _ => ?_⟩
    · by_cases hc : c = bc
      · subst hc
        simp
      · simp [hc]
    · by_cases hc : c = bc
      · subst hc
        rw [Function.update_self, if_pos rfl]
        exact toNat_add_one_of_ne_zero hnew
      · rw [Function.update_of_ne hc, if_neg (Ne.symm hc), Nat.add_zero]

/-- `skmem_bufctl_unuse` of a shared buffer control in use counts one use less. -/
theorem System.unuse_eq (hbc : bc ≠ 0) (hshare : (s.ctls bc).flags &&& skmemBufctlShareok ≠ 0)
    (hpos : (s.ctls bc).usecnt ≠ 0) : ∃ ctls,
    s.unuse bc = .ok ({ s with ctls := ctls }, (ctls bc).usecnt) ∧
    (∀ c, (ctls c).flags = (s.ctls c).flags) ∧
    ∀ c, (ctls c).usecnt.toNat + (if bc = c then 1 else 0) = (s.ctls c).usecnt.toNat := by
  refine ⟨Function.update s.ctls bc { s.ctls bc with usecnt := (s.ctls bc).usecnt - 1 }, ?_,
    fun c => ?_, fun c => ?_⟩
  · rw [System.unuse, if_neg hbc, skmemBufctlUnuse, kassert_of hpos, kassert_of (.inr hshare)]
    simp only [Function.update_self]
    rfl
  · by_cases hc : c = bc
    · subst hc
      simp
    · simp [hc]
  · by_cases hc : c = bc
    · subst hc
      rw [Function.update_self, if_pos rfl]
      exact toNat_sub_one_add_one hpos
    · rw [Function.update_of_ne hc, if_neg (Ne.symm hc), Nat.add_zero]

end Counts

section Preservation

variable {T B : Type} [DecidableEq T] [DecidableEq B] [Fintype B] {s t : System T B} {i : T} {b : B}

omit [Fintype B] [DecidableEq T] in
/-- Storing what is there changes nothing. -/
theorem System.store_self (s : System T B) (b : B) : s.store b (s.bufs b) = s := by
  rw [System.store, Function.update_eq_self]

omit [Fintype B] [DecidableEq B] in
/-- Staying at a place changes nothing. -/
theorem System.goto_self {pc : Pc B} (h : s.threads i = pc) : s.goto i pc = s := by
  rw [System.goto, ← h, Function.update_eq_self]

/-- A macro starts at a buflet that no macro in progress touches. -/
theorem System.Balanced.start (hs : s.Balanced) (pc : Pc B) (k : KernBuflet)
    (hidle : s.threads i = .idle)
    (hfree : ∀ j, (s.threads j).target ≠ some b ∧ (s.threads j).source ≠ some b)
    (hsource : ∀ j b', pc.source = some b' → (s.threads j).target ≠ some b')
    (hnew : ∀ b', b' ≠ b → pc.target ≠ some b') (hok : pc.Ok (Function.update s.bufs b k))
    (href : (if pc.uncounted = some b then 0 else k.ctl) = (s.bufs b).ctl) :
    ((s.store b k).goto i pc).Balanced := by
  have hrefs : s.refs b = (s.bufs b).ctl := by
    rw [System.refs_of_others (i := i) fun j _ => (hfree j).1, hidle]
    rfl
  refine hs.move s.ctls (fun b' _ => by simp [hidle, Pc.target]) hnew
    (fun j _ => (hfree j).1) (.inr fun j _ => (hfree j).2) (fun j b' _ => hsource j b') hok
    (fun _ => rfl) fun c _ => ?_
  rw [hrefs, href]

/-- The second step of a macro keeps the buflet to itself. -/
theorem System.Balanced.proceed (hs : s.Balanced) (pc : Pc B) (k : KernBuflet)
    {ctls : BitVec 64 → SkmemBufctl} (hold : (s.threads i).target = some b)
    (hnew : ∀ b', b' ≠ b → pc.target ≠ some b') (hsource : pc.source = none)
    (hok : pc.Ok (Function.update s.bufs b k)) (hflags : ∀ c, (ctls c).flags = (s.ctls c).flags)
    (hcounts : ∀ c, c ≠ 0 → (ctls c).usecnt.toNat +
      (if (if (s.threads i).uncounted = some b then 0 else (s.bufs b).ctl) = c then 1 else 0) =
      (s.ctls c).usecnt.toNat +
        if (if pc.uncounted = some b then 0 else k.ctl) = c then 1 else 0) :
    ({ (s.store b k).goto i pc with ctls := ctls } : System T B).Balanced := by
  have hfree : ∀ j, j ≠ i → (s.threads j).target ≠ some b ∧ (s.threads j).source ≠ some b :=
    fun j hj => hs.apart i j b hj.symm hold
  rw [← System.refs_of_others fun j hj => (hfree j hj).1] at hcounts
  refine hs.move ctls (fun b' hb' h => ?_) hnew (fun j hj => (hfree j hj).1)
    (.inr fun j hj => (hfree j hj).2) (fun j b' _ h => ?_) hok hflags hcounts
  · exact hb' (Option.some.inj (h.symm.trans hold))
  · simp [hsource] at h

/-- Counting the use of the buffer control that a buflet got completes its macro. -/
theorem System.Balanced.counted (hs : s.Balanced) (hold : (s.threads i).uncounted = some b)
    {u : System T B} (h : s.use (s.bufs b).ctl = .ok u) : (u.goto i .idle).Balanced := by
  obtain ⟨ctls, rfl, hflags, hcounts⟩ := System.use_eq_ok h
  have hcont := hs.proceed .idle (s.bufs b) (Pc.target_of_uncounted hold)
    (fun b' _ => by simp [Pc.target]) rfl trivial hflags fun c hc => ?_
  · rw [System.store_self] at hcont
    exact hcont
  · rw [if_pos hold, if_neg hc.symm, hcounts c hc]
    rfl

/-- The use that `KBUF_DTOR` is about to drop is counted. -/
theorem System.Balanced.usecnt_ne_zero (hs : s.Balanced) (hpc : s.threads i = .unuse b) :
    (s.ctls (s.bufs b).ctl).usecnt ≠ 0 := by
  have hctl : (s.bufs b).ctl ≠ 0 := by
    have hok := hs.ok i
    rwa [hpc] at hok
  have hothers : ∀ j, j ≠ i → (s.threads j).target ≠ some b := fun j hj =>
    (hs.apart i j b hj.symm (by rw [hpc]; rfl)).1
  have href : s.refs b = (s.bufs b).ctl := by
    rw [System.refs_of_others hothers, hpc]
    rfl
  have hpos := tally_pos href
  rw [← hs.counts _ hctl] at hpos
  intro hz
  rw [hz] at hpos
  exact absurd hpos (by decide)

/-- `KBUF_DTOR` drops a use and has the number of uses left to report. -/
theorem System.Balanced.dropped (hs : s.Balanced) (hpc : s.threads i = .unuse b) :
    ∃ u : System T B, s.resume i = .ok u ∧ u.Balanced ∧ u.bufs = s.bufs ∧
      u.threads = Function.update s.threads i (.clear b (u.ctls (s.bufs b).ctl).usecnt) := by
  have hctl : (s.bufs b).ctl ≠ 0 := by
    have hok := hs.ok i
    rwa [hpc] at hok
  obtain ⟨ctls, heq, hflags, hcounts⟩ :=
    System.unuse_eq hctl (hs.shareok _) (hs.usecnt_ne_zero hpc)
  have hbal := hs.proceed (.clear b (ctls (s.bufs b).ctl).usecnt) (s.bufs b)
    (by rw [hpc]; rfl) (fun b' hb' h => hb' (Option.some.inj h).symm) rfl trivial hflags
    fun c hc => ?_
  · rw [System.store_self] at hbal
    refine ⟨_, ?_, hbal, rfl, rfl⟩
    simp only [System.resume, hpc, heq, ok_bind]
    rfl
  · have hzero : (Pc.clear b (ctls (s.bufs b).ctl).usecnt).uncounted = some b := rfl
    rw [if_pos hzero, if_neg hc.symm, hpc, ← hcounts c]
    rfl

/-- Going on with a macro keeps the system balanced. -/
theorem System.Balanced.resume (hs : s.Balanced) (h : s.resume i = .ok t) : t.Balanced := by
  cases hpc : s.threads i with
  | idle =>
    simp only [System.resume, hpc] at h
    exact Except.ok.inj h ▸ hs
  | ctor kbuf bc =>
    have hok := hs.ok i
    simp only [System.resume, hpc] at h
    obtain ⟨u, huse, h⟩ := bind_eq_ok.mp h
    obtain rfl := Except.ok.inj h
    rw [hpc] at hok
    exact hs.counted (b := kbuf) (by rw [hpc]; rfl) (hok.symm ▸ huse)
  | copy skb dkb =>
    simp only [System.resume, hpc] at h
    obtain ⟨u, huse, h⟩ := bind_eq_ok.mp h
    obtain rfl := Except.ok.inj h
    exact hs.counted (by rw [hpc]; rfl) huse
  | unuse kbuf =>
    obtain ⟨u, hu, hbal, -⟩ := hs.dropped hpc
    exact Except.ok.inj (hu.symm.trans h) ▸ hbal
  | clear kbuf usecnt =>
    simp only [System.resume, hpc] at h
    obtain rfl := Except.ok.inj h
    refine hs.proceed .idle (kbufDtorStore (s.bufs kbuf)) (by rw [hpc]; rfl)
      (fun b' _ => by simp [Pc.target]) rfl trivial (fun _ => rfl) fun c hc => ?_
    have hzero : (Pc.clear kbuf usecnt).uncounted = some kbuf := rfl
    rw [hpc, if_pos hzero]
    rfl

/-- A buflet that was cleared is cleared. -/
theorem KernBuflet.cleared_cleared (k : KernBuflet) : k.cleared.cleared = k.cleared := by
  have hset := bufFlag.set_get_self
    (bufFlag.set (bufFlag.get k.com &&& ~~~bufletFlagExternal) k.com)
  rw [Field.get_set_self] at hset
  simp only [KernBuflet.cleared, Field.get_set_self, BitVec.and_assoc, BitVec.and_self, hset]

/-- `KBUF_CTOR` stores into a buflet that nobody else uses. -/
theorem System.Balanced.ctor {baddr bc : BitVec 64} {bidx : BitVec 32} {bufletSize : BitVec 16}
    (hs : s.Balanced) (hready : s.Ready i (.ctor b baddr bidx bc bufletSize))
    (hex : s.Exclusive (.ctor b baddr bidx bc bufletSize))
    (h : s.step i (.ctor b baddr bidx bc bufletSize) = .ok t) : t.Balanced := by
  obtain rfl := Except.ok.inj h
  obtain ⟨hidle, hctl⟩ := hready
  apply hs.start (.ctor b bc) _ hidle
  · intro j
    exact (hex j b).1 rfl
  · intro j b' hb'
    simp [Pc.source] at hb'
  · intro b' hb' htarget
    exact hb' (Option.some.inj htarget).symm
  · simp [Pc.Ok, kbufCtorStore]
  · rw [hctl]
    exact if_pos rfl

/-- `_KBUF_COPY` stores the image of its source, which nobody writes. -/
theorem System.Balanced.copy {skb : B} (hs : s.Balanced) (hready : s.Ready i (.copy skb b))
    (hex : s.Exclusive (.copy skb b)) (h : s.step i (.copy skb b) = .ok t) : t.Balanced := by
  obtain ⟨_, -, h⟩ := bind_eq_ok.mp h
  obtain ⟨_, -, h⟩ := bind_eq_ok.mp h
  obtain ⟨_, -, h⟩ := bind_eq_ok.mp h
  obtain ⟨_, -, h⟩ := bind_eq_ok.mp h
  obtain rfl := Except.ok.inj h
  obtain ⟨hidle, hctl⟩ := hready
  apply hs.start (.copy skb b) _ hidle
  · intro j
    exact (hex j b).1 rfl
  · intro j b' hb'
    exact (hex j b').2 hb'
  · intro b' hb' htarget
    exact hb' (Option.some.inj htarget).symm
  · have hcopy : kbufCopyStore (s.bufs skb) (s.bufs b) = (s.bufs skb).cleared :=
      kbufCopyStore_eq _ _
    rw [Pc.Ok, hcopy, Function.update_self]
    by_cases hsb : skb = b
    · rw [hsb, Function.update_self, KernBuflet.cleared_cleared]
    · rw [Function.update_of_ne hsb]
  · rw [hctl]
    exact if_pos rfl

/-- `KBUF_DTOR` of a buflet without a buffer control is one store. -/
theorem System.Balanced.dtor (hs : s.Balanced) (hready : s.Ready i (.dtor b))
    (hex : s.Exclusive (.dtor b)) (h : s.step i (.dtor b) = .ok t) : t.Balanced := by
  have hfree : ∀ j, (s.threads j).target ≠ some b ∧ (s.threads j).source ≠ some b := by
    intro j
    exact (hex j b).1 rfl
  have hsource : ∀ (pc : Pc B), pc.source = none → ∀ j b', pc.source = some b' →
      (s.threads j).target ≠ some b' := by
    intro pc hpc j b' hb'
    rw [hpc] at hb'
    cases hb'
  simp only [System.step] at h
  split at h
  · next hctl =>
    obtain rfl := Except.ok.inj h
    rw [← System.goto_self (s := s.store b _) (i := i) hready]
    apply hs.start .idle _ hready hfree (hsource _ rfl)
    · intro b' _
      simp [Pc.target]
    · trivial
    · rw [hctl]
      rfl
  · next hctl =>
    obtain rfl := Except.ok.inj h
    rw [← System.store_self s b]
    apply hs.start (.unuse b) _ hready hfree (hsource _ rfl)
    · intro b' hb' htarget
      exact hb' (Option.some.inj htarget).symm
    · rwa [Pc.Ok, Function.update_self]
    · rfl

/-- Every step of an exclusive execution keeps the system balanced. -/
theorem ExclusiveStep.balanced {a : T × Action B} (h : ExclusiveStep s a t) (hs : s.Balanced) :
    t.Balanced := by
  obtain ⟨i, a⟩ := a
  obtain ⟨hex, hready, h⟩ := h
  cases a with
  | ctor kbuf baddr bidx bc bufletSize => exact hs.ctor hready hex h
  | copy skb dkb => exact hs.copy hready hex h
  | dtor kbuf => exact hs.dtor hready hex h
  | resume => exact hs.resume h

end Preservation

section Runs

variable {T B : Type} [DecidableEq T] [DecidableEq B] [Fintype B] {s t : System T B}

/-- No macro is in progress. -/
def System.Idle (s : System T B) : Prop := ∀ i, s.threads i = .idle

/-- Between macros: the use count of every buffer control is the number of buflets that
designate it, and all buffer controls may be shared. -/
structure System.Settled (s : System T B) : Prop where
  idle : s.Idle
  shareok : ∀ c, (s.ctls c).flags &&& skmemBufctlShareok ≠ 0
  counts : ∀ c, c ≠ 0 → (s.ctls c).usecnt.toNat = tally (fun b => (s.bufs b).ctl) c

omit [DecidableEq T] [DecidableEq B] [Fintype B] in
/-- With idle threads only the buflets hold references. -/
theorem System.Idle.refs_eq (h : s.Idle) : s.refs = fun b => (s.bufs b).ctl := by
  funext b
  refine if_neg ?_
  rintro ⟨i, hi⟩
  rw [h i] at hi
  cases hi

omit [DecidableEq T] [DecidableEq B] in
/-- A settled system is in balance. -/
theorem System.Settled.balanced (h : s.Settled) : s.Balanced where
  shareok := h.shareok
  counts c hc := by rw [h.counts c hc, h.idle.refs_eq]
  ok i := by
    rw [h.idle i]
    trivial
  apart := by
    intro i j b _ ht
    rw [h.idle i] at ht
    cases ht

omit [DecidableEq T] [DecidableEq B] [Fintype B] in
/-- With idle threads every action is exclusive. -/
theorem System.Idle.exclusive (h : s.Idle) (a : Action B) : s.Exclusive a := by
  intro j b
  rw [h j]
  simp [Pc.target, Pc.source]

omit [DecidableEq T] [DecidableEq B] [Fintype B] in
/-- A thread that goes on needs no exclusion. -/
theorem System.exclusive_resume (s : System T B) : s.Exclusive .resume := by
  intro j b
  simp [Action.target, Action.source]

/-- What the use counts are good for. -/
structure System.Accounted (s : System T B) : Prop where
  /-- Between macros, every use count is the number of buflets that designate the control. -/
  counts : s.Idle → ∀ c, c ≠ 0 → (s.ctls c).usecnt.toNat = tally (fun b => (s.bufs b).ctl) c
  /-- `KBUF_DTOR` can always drop its use, and reports zero exactly when no counted use is
  left; if it is the only macro in progress, when no other buflet designates the control. -/
  unuse : ∀ i b, s.threads i = .unuse b → ∃ (t : System T B) (usecnt : UInt32),
    s.step i .resume = .ok t ∧ t.threads i = .clear b usecnt ∧
      (usecnt = 0 ↔ ∀ b', t.refs b' ≠ (s.bufs b).ctl) ∧
      ((∀ j, j ≠ i → s.threads j = .idle) →
        (usecnt = 0 ↔ ∀ b', b' ≠ b → (s.bufs b').ctl ≠ (s.bufs b).ctl))
  /-- At the end of `_KBUF_COPY` the destination is the source without the external flag. -/
  copy : ∀ i skb dkb t, s.threads i = .copy skb dkb → s.step i .resume = .ok t →
    t.bufs dkb = (t.bufs skb).cleared

/-- The uses that `KBUF_DTOR` reports are those that are left. -/
theorem System.Balanced.reported (hs : s.Balanced) {i : T} {b : B}
    (hpc : s.threads i = .unuse b) : ∃ (t : System T B) (usecnt : UInt32),
    s.step i .resume = .ok t ∧ t.threads i = .clear b usecnt ∧
      (usecnt = 0 ↔ ∀ b', t.refs b' ≠ (s.bufs b).ctl) ∧
      ((∀ j, j ≠ i → s.threads j = .idle) →
        (usecnt = 0 ↔ ∀ b', b' ≠ b → (s.bufs b').ctl ≠ (s.bufs b).ctl)) := by
  have hctl : (s.bufs b).ctl ≠ 0 := by
    have hok := hs.ok i
    rwa [hpc] at hok
  obtain ⟨u, hu, hbal, hbufs, hthreads⟩ := hs.dropped hpc
  have hzero : (u.ctls (s.bufs b).ctl).usecnt = 0 ↔ ∀ b', u.refs b' ≠ (s.bufs b).ctl := by
    rw [← tally_eq_zero_iff, ← hbal.counts _ hctl, ← UInt32.toNat_inj]
    rfl
  refine ⟨u, _, hu, by rw [hthreads, Function.update_self], hzero, fun hidle => ?_⟩
  rw [hzero]
  have hself : u.refs b = 0 := by
    refine if_pos ⟨i, ?_⟩
    rw [hthreads, Function.update_self]
    rfl
  have hothers : ∀ b', b' ≠ b → u.refs b' = (s.bufs b').ctl := by
    intro b' hb'
    rw [← hbufs]
    refine if_neg ?_
    rintro ⟨j, hj⟩
    rw [hthreads] at hj
    by_cases hji : j = i
    · subst hji
      rw [Function.update_self] at hj
      exact hb' (Option.some.inj hj).symm
    · rw [Function.update_of_ne hji, hidle j hji] at hj
      cases hj
  constructor
  · intro h b' hb'
    rw [← hothers b' hb']
    exact h b'
  · intro h b'
    by_cases hb' : b' = b
    · rw [hb', hself]
      exact hctl.symm
    · rw [hothers b' hb']
      exact h b' hb'

/-- In balance and with idle threads the counts are the attached buflets. -/
theorem System.Balanced.accounted (hs : s.Balanced) : s.Accounted where
  counts hidle c hc := by rw [hs.counts c hc, hidle.refs_eq]
  unuse _ _ hpc := hs.reported hpc
  copy i skb dkb t hpc h := by
    have hok := hs.ok i
    rw [hpc] at hok
    simp only [System.step, System.resume, hpc] at h
    obtain ⟨u, huse, h⟩ := bind_eq_ok.mp h
    obtain rfl := Except.ok.inj h
    obtain ⟨ctls, rfl, -⟩ := System.use_eq_ok huse
    exact hok

/-- In every interleaving in which macros in progress do not meet at a buflet that one of
them writes, the use counts match the buflets. -/
theorem accounted_of_execution {as : List (T × Action B)} (hs : s.Settled)
    (h : Run ExclusiveStep s as t) : t.Accounted :=
  (h.invariant System.Balanced (fun hu hstep => hstep.balanced hu) hs.balanced).accounted

/-- One buflet, no buffer control in use. -/
def oneBuflet : System Bool Unit where
  bufs _ := ⟨0, 0⟩
  ctls _ := ⟨skmemBufctlShareok, 0⟩
  threads _ := .idle

/-- One buflet and no thread at work. -/
theorem oneBuflet_settled : oneBuflet.Settled where
  idle _ := rfl
  shareok := fun _ => by simp [oneBuflet, skmemBufctlShareok]
  counts c hc := by
    refine (tally_eq_zero_iff.mpr fun b hb => hc ?_).symm
    exact hb.symm

/-- A thread constructs the buflet, and the use it drops then is the last one. -/
theorem accounted_of_ctor_dtor : ∃ t : System Bool Unit,
    Run ExclusiveStep oneBuflet [(true, .ctor () 0x1000 0 0x2000 2048), (true, .resume),
      (true, .dtor ())] t ∧
      ∃ u, t.step true .resume = .ok u ∧ u.threads true = .clear () 0 := by
  have hctor : ∃ t : System Bool Unit, Run ExclusiveStep oneBuflet
      [(true, .ctor () 0x1000 0 0x2000 2048), (true, .resume)] t ∧ t.Idle ∧
        (t.bufs ()).ctl = 0x2000 := by
    refine ⟨_, .snoc (.snoc .nil ⟨oneBuflet_settled.idle.exclusive _, by decide, rfl⟩)
      ⟨System.exclusive_resume _, by decide, rfl⟩, fun i => ?_, rfl⟩
    cases i <;> rfl
  obtain ⟨t, hctor, hidle, hctl⟩ := hctor
  have hdtor : t.step true (.dtor ()) = .ok (t.goto true (.unuse ())) := by
    refine if_neg ?_
    rw [hctl]
    decide
  have hexcl : ExclusiveStep t (true, .dtor ()) (t.goto true (.unuse ())) :=
    ⟨hidle.exclusive _, hidle true, hdtor⟩
  have hrun := hctor.snoc hexcl
  have hpc₀ : (t.goto true (.unuse ())).threads true = .unuse () := by simp [System.goto]
  obtain ⟨u, usecnt, hstep, hpc, -, hlast⟩ :=
    (accounted_of_execution oneBuflet_settled hrun).unuse true () hpc₀
  have hothers : ∀ j, j ≠ true → (t.goto true (.unuse ())).threads j = .idle := by
    intro j hj
    exact (Function.update_of_ne hj _ _).trans (hidle j)
  have hzero : usecnt = 0 := (hlast hothers).mpr fun b hb => absurd rfl hb
  exact ⟨_, hrun, u, hstep, hzero ▸ hpc⟩

/-- Two threads that destroy one buflet drop its use twice, and the second one fails. -/
theorem racing_dtors_fail : oneBuflet.Settled ∧ ∃ t : System Bool Unit,
    Run Step oneBuflet [(true, .ctor () 0x1000 0 0x2000 2048), (true, .resume),
      (true, .dtor ()), (false, .dtor ()), (true, .resume)] t ∧
      t.threads false = .unuse () ∧ t.step false .resume = .error .assertFailed := by
  have hrun : Run Step oneBuflet [(true, .ctor () 0x1000 0 0x2000 2048), (true, .resume),
      (true, .dtor ()), (false, .dtor ()), (true, .resume)] _ :=
    .snoc (.snoc (.snoc (.snoc (.snoc .nil ⟨by decide, rfl⟩) ⟨by decide, rfl⟩) ⟨by decide, rfl⟩)
      ⟨by decide, rfl⟩) ⟨by decide, rfl⟩
  exact ⟨oneBuflet_settled, _, hrun, rfl, rfl⟩

end Runs

end MacKernel.Buflet
