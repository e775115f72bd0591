import MacKernel.Models.Packet.Boundary

/-!
# Allocation flags and the pointers they stand for

`struct __kern_packet` promises that the options, the flow and the completion data
of a packet are not null when their allocation flag is set. `_PKT_COPY` moves the
flags of the source to a destination that keeps its own pointers, so the promise
lasts exactly as long as destinations have what the flags of their sources announce.
-/

namespace MacKernel.Packet

open Buflet

section Promise

/-- Every allocation flag comes with a pointer. -/
structure Backed (pflags opt flow txCompl : BitVec 64) : Prop where
  opt : pflags &&& pktFOptAlloc ≠ 0 → opt ≠ 0
  flow : pflags &&& pktFFlowAlloc ≠ 0 → flow ≠ 0
  txCompl : pflags &&& pktFTxComplAlloc ≠ 0 → txCompl ≠ 0

/-- The pointers of a packet back the flags of a packet, often of the same one. -/
def KernPacket.Backs (k : KernPacket) (pflags : BitVec 64) : Prop :=
  Backed pflags k.comOpt k.flow k.txCompl

/-- The flags that say what has been allocated. -/
def pktFInitMask : BitVec 64 := pktFOptAlloc ||| pktFFlowAlloc ||| pktFTxComplAlloc

/-- Flags that agree under a mask agree in every flag of the mask. -/
private theorem and_and_of_and_eq {n : Nat} {x y mask : BitVec n} (flag : BitVec n)
    (hm : mask &&& flag = flag)
    (h : x &&& mask = y &&& mask) : x &&& flag = y &&& flag := by
  rw [← hm, ← BitVec.and_assoc, h, BitVec.and_assoc]

/-- Only the allocation flags matter. -/
theorem Backed.congr {pflags pflags' opt flow txCompl : BitVec 64}
    (h : Backed pflags opt flow txCompl)
    (he : pflags' &&& pktFInitMask = pflags &&& pktFInitMask) :
    Backed pflags' opt flow txCompl where
  opt hf := h.opt (by rwa [← and_and_of_and_eq pktFOptAlloc (by decide) he])
  flow hf := h.flow (by rwa [← and_and_of_and_eq pktFFlowAlloc (by decide) he])
  txCompl hf := h.txCompl
    (by rwa [← and_and_of_and_eq pktFTxComplAlloc (by decide) he])

end Promise

section System

variable {P : Type} [DecidableEq P]

/-- Kernel packets with the areas they point to. -/
structure System (P : Type) where
  areas : Areas
  packets : P → KernPacket

/-- The operations on packets after their construction. -/
inductive Op (P : Type) where
  | init (p : P) (pp : Pbufpool) (flags : BitVec 16)
  | copy (s d : P)
  | internalize (p : P) (u : UserPacket)
  | clearMbufPktData (p : P)
  | clearMbufData (p : P)
  | clearPktData (p : P)
  | clearFlowInit (p : P)
  | initTxComplData (p : P)

/-- The packets once one of them has been changed together with its areas. -/
def System.put (s : System P) (p : P) (r : Areas × KernPacket) : System P :=
  ⟨r.1, Function.update s.packets p r.2⟩

/-- Not a macro of the source: `KPKT_CLEAR_FLOW_INIT` behind a test of `PKT_F_FLOW_ALLOC`, with
which the header promises that `pkt_flow` is not null. -/
def clearFlowOf (m : Areas) (k : KernPacket) : Except Fault (Areas × KernPacket) :=
  if k.pflags &&& pktFFlowAlloc = 0 then .ok (m, k)
  else if k.flow = 0 then .error .nullDeref
  else .ok (kpktClearFlowInit m k.flow, k)

/-- The packet that an operation changes. -/
def Op.target : Op P → P
  | init p _ _ | copy _ p | internalize p _ | clearMbufPktData p | clearMbufData p
  | clearPktData p | clearFlowInit p | initTxComplData p => p

/-- What an operation makes of the packet that it changes. -/
def System.result (scUnspec : BitVec 32) (s : System P) :
    Op P → Except Fault (Areas × KernPacket)
  | .init p pp flags => kpktInit scUnspec pp flags s.areas (s.packets p)
  | .copy a p => pktCopy s.areas (s.packets a) (s.packets p)
  | .internalize p u => pktInternalize s.areas u (s.packets p)
  | .clearMbufPktData p => .ok (s.areas, kpktClearMbufPktData (s.packets p))
  | .clearMbufData p => .ok (s.areas, kpktClearMbufData (s.packets p))
  | .clearPktData p => .ok (s.areas, kpktClearPktData (s.packets p))
  | .clearFlowInit p => clearFlowOf s.areas (s.packets p)
  | .initTxComplData p => kpktInitTxComplData s.areas (s.packets p)

/-- One operation. -/
def System.step (scUnspec : BitVec 32) (s : System P) (op : Op P) : Except Fault (System P) := do
  return s.put op.target (← s.result scUnspec op)

/-- Every packet has just been constructed, with a pointer for each allocation flag. -/
def System.Constructed (scUnspec : BitVec 32) (s : System P) : Prop :=
  ∀ p, ∃ pflags opt flow txcomp midx pu pp bufcnt maxfrags qflags pk,
    Backed pflags opt flow txcomp ∧
      s.packets p = kpktCtor scUnspec pflags opt flow txcomp midx pu pp bufcnt maxfrags qflags pk

/-- A copy goes to a packet that has what the source says is allocated. -/
def System.Covered (s : System P) : Op P → Prop
  | .copy a p => (s.packets p).Backs (s.packets a).pflags
  | _ => True

/-- An operation that is covered. -/
def CoveredStep (scUnspec : BitVec 32) (s : System P) (op : Op P) (t : System P) : Prop :=
  s.Covered op ∧ s.step scUnspec op = .ok t

/-- The promise of `struct __kern_packet` holds for every packet. -/
def System.Sound (s : System P) : Prop := ∀ p, (s.packets p).Backs (s.packets p).pflags

end System

section Steps

/-- An operation leaves a packet its pointers, and allocation flags that came from `pflags`. -/
structure Keeps (k k' : KernPacket) (pflags : BitVec 64) : Prop where
  comOpt : k'.comOpt = k.comOpt
  flow : k'.flow = k.flow
  txCompl : k'.txCompl = k.txCompl
  pflags : k'.pflags &&& pktFInitMask = pflags &&& pktFInitMask

variable {m m' : Areas} {k k' skp : KernPacket} {u : UserPacket} {r : Areas × KernPacket}
  {scUnspec : BitVec 32}

/-- What keeps the areas keeps the flags backed by them. -/
theorem Keeps.backs {pflags : BitVec 64} (h : Keeps k k' pflags) (hb : k.Backs pflags) :
    k'.Backs k'.pflags := by
  rw [KernPacket.Backs, h.comOpt, h.flow, h.txCompl]
  exact Backed.congr hb h.pflags

/-- Clearing flags about an attached packet leaves the allocation flags. -/
theorem keeps_clear (mask mbuf : BitVec 64) (hm : ~~~mask &&& pktFInitMask = pktFInitMask) :
    Keeps k { k.setPflags (k.pflags &&& ~~~mask) with mbuf := mbuf } k.pflags := by
  refine ⟨rfl, rfl, rfl, ?_⟩
  change (k.setPflags (k.pflags &&& ~~~mask)).pflags &&& _ = _
  rw [pflags_setPflags, BitVec.and_assoc, hm]

/-- `KPKT_INIT` keeps the areas of a packet and the flags that speak of them. -/
theorem kpktInit_keeps {pp : Pbufpool} {flags : BitVec 16}
    (h : kpktInit scUnspec pp flags m k = .ok r) : Keeps k r.2 k.pflags := by
  obtain ⟨qum, -, h⟩ := bind_eq_ok.mp h
  obtain rfl := Except.ok.inj h
  have hcom : (pktComInit scUnspec { k with qum := qum } k.pflags).pflags = k.pflags :=
    Field.get_set_self _ _ _
  have hclear := keeps_clear (pktFMbufMask ||| pktFPktMask) 0
    (k := { pktComInit scUnspec { k with qum := qum } k.pflags with timestamp := 0, nextpkt := 0 })
    (by decide)
  exact ⟨rfl, rfl, rfl, hclear.pflags.trans (congrArg (· &&& pktFInitMask) hcom)⟩

/-- `_PKT_COPY` keeps the areas and takes the flags of the source. -/
theorem pktCopy_keeps (h : pktCopy m skp k = .ok r) : Keeps k r.2 skp.pflags := by
  have hflags : (skp.pflags &&& pktFCopyMask) &&& pktFInitMask = skp.pflags &&& pktFInitMask := by
    rw [BitVec.and_assoc]
    congr 1
  have hkeeps : Keeps k ({ k with com := copyWords 3 skp.com k.com }.setPflags
      (skp.pflags &&& pktFCopyMask)) skp.pflags :=
    ⟨rfl, rfl, rfl, by rw [pflags_setPflags, hflags]⟩
  dsimp only [pktCopy] at h
  split at h
  · obtain ⟨-, -, h⟩ := bind_eq_ok.mp h
    split at h
    · cases h
    · obtain rfl := Except.ok.inj h
      exact hkeeps
  · obtain rfl := Except.ok.inj h
    exact hkeeps

/-- User space has no say in the allocation flags. -/
theorem mergedPflags_and_initMask (u : UserPacket) (k : KernPacket) :
    mergedPflags u k &&& pktFInitMask = k.pflags &&& pktFInitMask := by
  have hm : ~~~pktFUserMask &&& pktFInitMask = pktFInitMask := by decide
  refine and_and_of_and_eq _ hm ?_
  exact merge_and_not _ _ _

/-- `_PKT_INTERNALIZE` keeps the areas and the flags that speak of them. -/
theorem pktInternalize_keeps (h : pktInternalize m u k = .ok r) : Keeps k r.2 k.pflags := by
  obtain ⟨m', k'⟩ := r
  obtain ⟨rfl, -⟩ := pktInternalize_eq_ok h
  refine ⟨rfl, rfl, rfl, ?_⟩
  rw [← mergedPflags_and_initMask u k]
  exact congrArg (· &&& pktFInitMask) (Field.get_set_self _ _ _)

/-- Clearing the flow keeps the areas and the flags that speak of them. -/
theorem clearFlowOf_keeps (h : clearFlowOf m k = .ok r) : Keeps k r.2 k.pflags := by
  unfold clearFlowOf at h
  split at h
  · obtain rfl := Except.ok.inj h
    exact ⟨rfl, rfl, rfl, rfl⟩
  · split at h
    · cases h
    · obtain rfl := Except.ok.inj h
      exact ⟨rfl, rfl, rfl, rfl⟩

/-- Starting completion data keeps the areas and the flags that speak of them. -/
theorem kpktInitTxComplData_keeps (h : kpktInitTxComplData m k = .ok r) :
    Keeps k r.2 k.pflags := by
  have hflags : (k.pflags ||| pktFTxComplData) &&& pktFInitMask = k.pflags &&& pktFInitMask := by
    have hz : pktFTxComplData &&& pktFInitMask = 0 := by decide
    rw [BitVec.and_or_distrib_right, hz]
    exact BitVec.or_zero
  unfold kpktInitTxComplData at h
  split at h
  · obtain ⟨-, -, h⟩ := bind_eq_ok.mp h
    split at h
    · cases h
    · obtain rfl := Except.ok.inj h
      exact ⟨rfl, rfl, rfl, by rw [pflags_setPflags, hflags]⟩
  · obtain rfl := Except.ok.inj h
    exact ⟨rfl, rfl, rfl, rfl⟩

end Steps

section NullPointers

variable {m : Areas} {k skp : KernPacket} {u : UserPacket} {scUnspec : BitVec 32}

/-- `KPKT_INIT` follows no null pointer: it tests the one that it follows. -/
theorem kpktInit_ne_nullDeref {pp : Pbufpool} {flags : BitVec 16} :
    kpktInit scUnspec pp flags m k ≠ .error .nullDeref := by
  intro h
  rcases bind_eq_error.mp h with h | ⟨_, -, h⟩
  · rcases bind_eq_error.mp h with h | ⟨_, -, h⟩
    · exact kassert_ne_nullDeref h
    · rcases bind_eq_error.mp h with h | ⟨_, -, h⟩
      · exact kassert_ne_nullDeref h
      · cases h
  · cases h

/-- `_PKT_COPY` finds both areas if both packets have what the flags say. -/
theorem pktCopy_ne_nullDeref (hs : skp.Backs skp.pflags) (hd : k.Backs skp.pflags) :
    pktCopy m skp k ≠ .error .nullDeref := by
  intro h
  dsimp only [pktCopy] at h
  split at h
  · rcases bind_eq_error.mp h with h | ⟨_, ha, h⟩
    · exact kassert_ne_nullDeref h
    · rw [kassert_eq_ok] at ha
      have hne : ¬(skp.comOpt = 0 ∨ k.comOpt = 0) := not_or.mpr ⟨hs.opt ha, hd.opt ha⟩
      split at h
      · next hz => exact hne hz
      · cases h
  · cases h

/-- `_PKT_INTERNALIZE` finds the areas that the flags speak of. -/
theorem pktInternalize_ne_nullDeref (hs : k.Backs k.pflags) :
    pktInternalize m u k ≠ .error .nullDeref := by
  intro h
  have hmerged : (k.setMerged u).pflags = mergedPflags u k := Field.get_set_self _ _ _
  have hbacks : k.Backs (mergedPflags u k) := Backed.congr hs (mergedPflags_and_initMask u k)
  change (if (k.setMerged u).pflags &&& pktFOptData ≠ 0 then
    kassert ((k.setMerged u).pflags &&& pktFOptAlloc ≠ 0) >>= _ else _) = _ at h
  rw [hmerged] at h
  split at h
  · rcases bind_eq_error.mp h with h | ⟨_, ha, h⟩
    · exact kassert_ne_nullDeref h
    · rw [kassert_eq_ok] at ha
      split at h
      · next hz => exact hbacks.opt ha hz
      · cases h
  · cases h

/-- Clearing the flow finds the area that the flags speak of. -/
theorem clearFlowOf_ne_nullDeref (hs : k.Backs k.pflags) :
    clearFlowOf m k ≠ .error .nullDeref := by
  intro h
  unfold clearFlowOf at h
  split at h
  · cases h
  · next ha =>
    split at h
    · next hz => exact hs.flow ha hz
    · cases h

/-- Starting completion data finds the area that the flags speak of. -/
theorem kpktInitTxComplData_ne_nullDeref (hs : k.Backs k.pflags) :
    kpktInitTxComplData m k ≠ .error .nullDeref := by
  intro h
  unfold kpktInitTxComplData at h
  split at h
  · rcases bind_eq_error.mp h with h | ⟨_, ha, h⟩
    · exact kassert_ne_nullDeref h
    · rw [kassert_eq_ok] at ha
      split at h
      · next hz => exact hs.txCompl ha hz
      · cases h
  · cases h

end NullPointers

section Runs

variable {P : Type} {s t : System P} {op : Op P} {scUnspec : BitVec 32}

/-- The packet that the allocation flags come from. -/
def Op.flagSource : Op P → P
  | .copy a _ => a
  | op => op.target

/-- Every operation keeps the areas of its target and takes the flags of its source. -/
theorem System.result_keeps {r : Areas × KernPacket} (h : s.result scUnspec op = .ok r) :
    Keeps (s.packets op.target) r.2 (s.packets op.flagSource).pflags := by
  cases op with
  | init p pp flags => exact kpktInit_keeps h
  | copy a p => exact pktCopy_keeps h
  | internalize p u => exact pktInternalize_keeps h
  | clearMbufPktData p =>
    obtain rfl := Except.ok.inj h
    exact keeps_clear _ _ (by decide)
  | clearMbufData p =>
    obtain rfl := Except.ok.inj h
    exact keeps_clear _ _ (by decide)
  | clearPktData p =>
    obtain rfl := Except.ok.inj h
    exact keeps_clear _ _ (by decide)
  | clearFlowInit p => exact clearFlowOf_keeps h
  | initTxComplData p => exact kpktInitTxComplData_keeps h

/-- In a sound system a covered operation finds every area that it needs. -/
theorem System.Sound.covered_backs (hs : s.Sound) (hc : s.Covered op) :
    (s.packets op.target).Backs (s.packets op.flagSource).pflags := by
  cases op with
  | copy a p => exact hc
  | _ => exact hs _

/-- Behind its flag no pointer is null. -/
theorem System.Sound.result_ne_nullDeref (hs : s.Sound) (hc : s.Covered op) :
    s.result scUnspec op ≠ .error .nullDeref := by
  cases op with
  | init p pp flags => exact kpktInit_ne_nullDeref
  | copy a p => exact pktCopy_ne_nullDeref (hs a) hc
  | internalize p u => exact pktInternalize_ne_nullDeref (hs p)
  | clearMbufPktData p =>
    intro h
    cases h
  | clearMbufData p =>
    intro h
    cases h
  | clearPktData p =>
    intro h
    cases h
  | clearFlowInit p => exact clearFlowOf_ne_nullDeref (hs p)
  | initTxComplData p => exact kpktInitTxComplData_ne_nullDeref (hs p)

/-- Packets are sound when they are made. -/
theorem System.Constructed.sound (h : s.Constructed scUnspec) : s.Sound := by
  intro p
  obtain ⟨pflags, opt, flow, txcomp, midx, pu, pp, bufcnt, maxfrags, qflags, pk, hb, hp⟩ := h p
  have hflags : (s.packets p).pflags = pflags := by
    rw [hp]
    exact Field.get_set_self _ _ _
  rw [hflags, hp]
  exact hb

variable [DecidableEq P]

/-- A covered operation keeps the promise. -/
theorem CoveredStep.sound (h : CoveredStep scUnspec s op t) (hs : s.Sound) : t.Sound := by
  obtain ⟨hc, h⟩ := h
  obtain ⟨r, hr, h⟩ := bind_eq_ok.mp h
  obtain rfl := Except.ok.inj h
  intro p
  by_cases hp : p = op.target
  · subst hp
    simp only [System.put, Function.update_self]
    exact (System.result_keeps hr).backs (hs.covered_backs hc)
  · simp only [System.put, Function.update_of_ne hp]
    exact hs p

/-- In every run of covered operations from constructed packets, every allocation flag has
its pointer, and no covered operation follows a null pointer. -/
theorem sound_of_covered_run {ops : List (Op P)} (hs : s.Constructed scUnspec)
    (h : Run (CoveredStep scUnspec) s ops t) :
    t.Sound ∧ ∀ op, t.Covered op → t.step scUnspec op ≠ .error .nullDeref := by
  have ht : t.Sound := h.invariant System.Sound (fun hu hstep => hstep.sound hu) hs.sound
  refine ⟨ht, fun op hc hnull => ?_⟩
  rcases bind_eq_error.mp hnull with hr | ⟨_, -, hr⟩
  · exact ht.result_ne_nullDeref hc hr
  · cases hr

/-- A packet with options and one without, as their pools construct them. -/
def twoPackets : System Bool where
  areas := zeroAreas
  packets p := kpktCtor 0 (if p then pktFOptAlloc else 0) (if p then 0x1000 else 0) 0 0 0 0
    ⟨0x2000, 2048, 0, 0, true⟩ 1 1 0 zeroPacket

/-- The two packets of the counterexample are as their pool makes them. -/
theorem twoPackets_constructed : twoPackets.Constructed 0 := by
  intro p
  refine ⟨_, _, _, _, _, _, _, _, _, _, _, ?_, rfl⟩
  cases p <;> constructor <;> decide

/-- Only one of the two packets has an option area. -/
theorem twoPackets_pflags (p : Bool) :
    (twoPackets.packets p).pflags = if p then pktFOptAlloc else 0 := Field.get_set_self _ _ _

/-- Without option data in the source, a copy asserts nothing. -/
theorem twoPackets_copy_ok (p : Bool) : ∃ r, twoPackets.result 0 (.copy true p) = .ok r := by
  have hopt : ¬(twoPackets.packets true).pflags &&& pktFOptData ≠ 0 := by
    rw [twoPackets_pflags]
    decide
  dsimp only [System.result, pktCopy]
  rw [if_neg hopt]
  exact ⟨_, rfl⟩

/-- Two packets with options of their own, the second of which also has a flow. -/
def unlikePackets : System Bool where
  areas := zeroAreas
  packets p := kpktCtor 0 (if p then pktFOptAlloc else pktFOptAlloc ||| pktFFlowAlloc)
    (if p then 0x1000 else 0x3000) (if p then 0 else 0x4000) 0 0 0 ⟨0x2000, 2048, 0, 0, true⟩ 1 1 0
    zeroPacket

/-- Two packets of different allocations are as their pool makes them. -/
theorem unlikePackets_constructed : unlikePackets.Constructed 0 := by
  intro p
  refine ⟨_, _, _, _, _, _, _, _, _, _, _, ?_, rfl⟩
  cases p <;> constructor <;> decide

/-- The first packet is copied to the second one, which keeps its own options and flow. -/
theorem sound_of_covered_run_unlike : ∃ t : System Bool,
    Run (CoveredStep 0) unlikePackets [.copy true false] t ∧ t.Sound ∧
      (t.packets false).pflags &&& pktFOptAlloc ≠ 0 ∧ (t.packets false).comOpt = 0x3000 ∧
      (t.packets false).flow = 0x4000 := by
  have hflags : (unlikePackets.packets true).pflags = pktFOptAlloc := Field.get_set_self _ _ _
  obtain ⟨r, hr⟩ : ∃ r, unlikePackets.result 0 (.copy true false) = .ok r := by
    have hopt : ¬(unlikePackets.packets true).pflags &&& pktFOptData ≠ 0 := by
      rw [hflags]
      decide
    dsimp only [System.result, pktCopy]
    rw [if_neg hopt]
    exact ⟨_, rfl⟩
  have hkeeps := System.result_keeps hr
  have hcov : unlikePackets.Covered (.copy true false) := by
    change (unlikePackets.packets false).Backs (unlikePackets.packets true).pflags
    rw [hflags]
    constructor <;> decide
  have hrun : Run (CoveredStep 0) unlikePackets [.copy true false] (unlikePackets.put false r) :=
    .snoc .nil ⟨hcov, by rw [System.step, hr]; rfl⟩
  refine ⟨_, hrun, (sound_of_covered_run unlikePackets_constructed hrun).1, ?_, hkeeps.comOpt,
    hkeeps.flow⟩
  have hinit : r.2.pflags &&& pktFInitMask = pktFOptAlloc &&& pktFInitMask := by
    rw [hkeeps.pflags]
    exact congrArg (· &&& pktFInitMask) hflags
  change r.2.pflags &&& pktFOptAlloc ≠ 0
  rw [and_and_of_and_eq pktFOptAlloc (by decide) hinit]
  decide

/-- A copy from the packet with options to the one without leaves a set flag on a null
pointer. -/
theorem copied_flag_not_backed : twoPackets.Constructed 0 ∧
    ∃ t, twoPackets.step 0 (.copy true false) = .ok t ∧
      (t.packets false).pflags &&& pktFOptAlloc ≠ 0 ∧ (t.packets false).comOpt = 0 := by
  obtain ⟨r, hr⟩ := twoPackets_copy_ok false
  have hkeeps := System.result_keeps hr
  refine ⟨twoPackets_constructed, twoPackets.put false r, by rw [System.step, hr]; rfl, ?_, ?_⟩
  · have hflags : r.2.pflags &&& pktFInitMask = pktFOptAlloc &&& pktFInitMask := by
      rw [hkeeps.pflags]
      exact congrArg (· &&& pktFInitMask) (twoPackets_pflags true)
    change r.2.pflags &&& pktFOptAlloc ≠ 0
    rw [and_and_of_and_eq pktFOptAlloc (by decide) hflags]
    decide
  · exact hkeeps.comOpt

end Runs

end MacKernel.Packet
