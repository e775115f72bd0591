import MacKernel.Core.Fields
import MacKernel.Models.Nexus.Native

/-!
# Attributes that are set, registered and read back

Every attribute that was set reaches the parameters of a registration with 32 bits, so
reading the parameters back gives what was set last up to this truncation. The checks of
the registration are exact on the attributes, but the queue mapping is compared before it
is truncated.
-/

namespace MacKernel.Nexus

section Requests

/-- The attributes that can be set. -/
def settable (libsyscall : Bool) : NexusAttrType → Bool
  | .ifindex => !libsyscall
  | .flowadvMax | .statsSize | .slotMetaSize | .checksumOffload | .userPacketPool | .advSize => false
  | _ => true

/-- The value that is stored for an attribute. -/
def stored (value : BitVec 64) : NexusAttrType → BitVec 64
  | .rejectOnClose => bit 64 (value ≠ 0)
  | _ => value

/-- A call of `__nexus_attr_set`. -/
structure Request where
  type : Option NexusAttrType
  value : BitVec 64

/-- What is stored by the last of the calls that set an attribute. -/
def lastSet (libsyscall : Bool) (attr : NexusAttrType) : List Request → Option (BitVec 64)
  | [] => none
  | r :: rs =>
    match lastSet libsyscall attr rs with
    | some value => some value
    | none =>
      if r.type = some attr ∧ settable libsyscall attr then some (stored r.value attr) else none

/-- The attributes after some calls, with their results. -/
def attrSets (libsyscall : Bool) : NexusAttr → List Request → NexusAttr
  | nxa, [] => nxa
  | nxa, r :: rs =>
    attrSets libsyscall (((nexusAttrSet libsyscall (some nxa) r.type r.value).1).getD nxa) rs

/-- What one call does. -/
theorem nexusAttrSet_eq (libsyscall : Bool) (nxa : NexusAttr) (type : Option NexusAttrType)
    (value : BitVec 64) : (nexusAttrSet libsyscall (some nxa) type value).1 =
      match type with
      | some attr =>
        if settable libsyscall attr then some (nxa.request attr (stored value attr)) else some nxa
      | none => some nxa := by
  cases type with
  | none => rfl
  | some attr =>
    cases attr <;> first | rfl | cases libsyscall <;> rfl

/-- An attribute is requested. -/
def NexusAttr.Requests (nxa : NexusAttr) (attr : NexusAttrType) : Prop :=
  nxa.requested &&& BitVec.twoPow 64 (nxaReq attr) ≠ 0

/-- Every attribute has a bit among the lower 32. -/
theorem nxaReq_lt (attr : NexusAttrType) : nxaReq attr < 32 := by cases attr <;> decide

/-- No two attributes share a bit. -/
theorem nxaReq_inj {a b : NexusAttrType} (h : nxaReq a = nxaReq b) : a = b := by
  revert h
  cases a <;> cases b <;> decide

/-- A mask of one bit tests that bit. -/
private theorem and_twoPow_ne_zero {n i : Nat} (hi : i < n) (x : BitVec n) :
    x &&& BitVec.twoPow n i ≠ 0 ↔ x.getLsbD i = true := by
  rw [BitVec.and_twoPow]
  split
  · next h =>
    refine iff_of_true (fun h0 => ?_) h
    have hbit := congrArg (fun v : BitVec n => v.getLsbD i) h0
    simp [hi] at hbit
  · next h => exact iff_of_false (not_not.mpr rfl) h

/-- An attribute is requested if its bit is set. -/
theorem requests_iff (nxa : NexusAttr) (attr : NexusAttrType) :
    nxa.Requests attr ↔ nxa.requested.getLsbD (nxaReq attr) = true :=
  and_twoPow_ne_zero (Nat.lt_trans (nxaReq_lt attr) (by decide)) _

@[simp] theorem value_request (nxa : NexusAttr) (attr : NexusAttrType) (value : BitVec 64) :
    (nxa.request attr value).value = Function.update nxa.value attr value := rfl

/-- A request sets the bit of its attribute and no other. -/
theorem requests_request (nxa : NexusAttr) (attr attr' : NexusAttrType) (value : BitVec 64) :
    (nxa.request attr value).Requests attr' ↔ attr' = attr ∨ nxa.Requests attr' := by
  have hlt := Nat.lt_trans (nxaReq_lt attr) (show 32 < 64 by decide)
  rw [requests_iff, requests_iff, NexusAttr.request, BitVec.getLsbD_or, BitVec.getLsbD_twoPow,
    Bool.or_eq_true, Bool.and_eq_true, decide_eq_true_iff, decide_eq_true_iff, or_comm]
  have hsame : nxaReq attr = nxaReq attr' ↔ attr' = attr :=
    ⟨fun h => (nxaReq_inj h).symm, fun h => h ▸ rfl⟩
  rw [hsame]
  exact or_congr_left ⟨fun h => h.2, fun h => ⟨hlt, h⟩⟩

/-- The attributes after one call. -/
theorem nexusAttrSet_spec (libsyscall : Bool) (nxa : NexusAttr) (r : Request)
    (attr : NexusAttrType) :
    let nxa' := ((nexusAttrSet libsyscall (some nxa) r.type r.value).1).getD nxa
    nxa'.value attr = (if r.type = some attr ∧ settable libsyscall attr then
        some (stored r.value attr) else none).getD (nxa.value attr) ∧
      (nxa'.Requests attr ↔ (r.type = some attr ∧ settable libsyscall attr) ∨
        nxa.Requests attr) := by
  dsimp only
  rw [nexusAttrSet_eq]
  obtain ⟨type, value⟩ := r
  cases type with
  | none => simp
  | some attr' =>
    dsimp only
    by_cases hattr : attr' = attr
    · subst hattr
      by_cases hset : settable libsyscall attr' = true
      · simp [hset, requests_request]
      · simp [hset]
    · have hne : attr ≠ attr' := fun h => hattr h.symm
      by_cases hset : settable libsyscall attr' = true
      · simp [hset, requests_request, hattr, hne]
      · simp [hset, hattr]

/-- The attributes after any calls, of which some fail. -/
theorem attrSets_spec (libsyscall : Bool) (nxa : NexusAttr) (rs : List Request)
    (attr : NexusAttrType) :
    (attrSets libsyscall nxa rs).value attr =
        (lastSet libsyscall attr rs).getD (nxa.value attr) ∧
      ((attrSets libsyscall nxa rs).Requests attr ↔
        (lastSet libsyscall attr rs).isSome ∨ nxa.Requests attr) := by
  induction rs generalizing nxa with
  | nil => exact ⟨rfl, by simp [lastSet, attrSets]⟩
  | cons r rs ih =>
    obtain ⟨hvalue, hreq⟩ := nexusAttrSet_spec libsyscall nxa r attr
    obtain ⟨hvalues, hreqs⟩ := ih (((nexusAttrSet libsyscall (some nxa) r.type r.value).1).getD nxa)
    rw [attrSets, lastSet, hvalues, hreqs, hvalue, hreq]
    cases lastSet libsyscall attr rs with
    | some value => exact ⟨rfl, by simp⟩
    | none =>
      refine ⟨rfl, ?_⟩
      dsimp only
      split
      · next h => simp [h]
      · next h => simp [h]

end Requests

section Parameters

/-- What is read back of an attribute that was registered with a value. -/
def truncated (value : BitVec 64) : NexusAttrType → BitVec 64
  | .anonymous | .userChannel | .rejectOnClose => bit 64 (value ≠ 0)
  | _ => (value.setWidth 32).setWidth 64

/-- Setting one flag and looking at another. -/
theorem flagged_and_of_disjoint {flag flag' : BitVec 32} (h : flag &&& flag' = 0)
    (value : BitVec 64) (flags : BitVec 32) :
    flagged flag value flags &&& flag' = flags &&& flag' := by
  unfold flagged
  split
  · exact or_flag_and_of_disjoint h
  · exact clear_flag_and_of_disjoint h

/-- A value that is not zero is kept as a flag. -/
theorem flagged_and_self {flag : BitVec 32} (hflag : flag ≠ 0) (value : BitVec 64)
    (flags : BitVec 32) : flagged flag value flags &&& flag ≠ 0 ↔ value ≠ 0 := by
  unfold flagged
  split
  · next h => rw [or_flag_and_self]; exact iff_of_true hflag h
  · next h => rw [clear_flag_and_self]; exact iff_of_false (not_not.mpr rfl) h

/-- A truth value is kept as a bit. -/
private theorem bit_ne_zero (b : Bool) : bit 32 b ≠ 0 ↔ b = true := by cases b <;> decide

/-- Storing an attribute shows in it and in no other. -/
theorem value_attrStore {attr : NexusAttrType} (h : attr ∈ prepareOrder) (p : NxprovParams)
    (value : BitVec 64) (attr' : NexusAttrType) :
    (nexusAttrFromParams (attrStore p value attr)).value attr' =
      if attr' = attr then truncated value attr else (nexusAttrFromParams p).value attr' := by
  cases attr with
  | slotMetaSize | statsSize | flowadvMax | checksumOffload | userPacketPool | advSize =>
    exact absurd h (by decide)
  | anonymous =>
    cases attr' with
    | anonymous =>
      exact congrArg (bit 64) (decide_eq_decide.mpr (flagged_and_self (by decide) value p.flags))
    | userChannel =>
      exact congrArg (fun x : BitVec 32 => bit 64 (x ≠ 0))
        (flagged_and_of_disjoint (by decide) value p.flags)
    | _ => rfl
  | userChannel =>
    cases attr' with
    | anonymous =>
      exact congrArg (fun x : BitVec 32 => bit 64 (x ≠ 0))
        (flagged_and_of_disjoint (by decide) value p.flags)
    | userChannel =>
      exact congrArg (bit 64) (decide_eq_decide.mpr (flagged_and_self (by decide) value p.flags))
    | _ => rfl
  | rejectOnClose =>
    cases attr' with
    | rejectOnClose =>
      exact congrArg (bit 64) (decide_eq_decide.mpr ((bit_ne_zero _).trans decide_eq_true_iff))
    | _ => rfl
  | _ => cases attr' <;> rfl

end Parameters

section Registration

variable {type : NexusType} {nxa : NexusAttr} {reg reg' : NxprovReg}

instance (nxa : NexusAttr) (attr : NexusAttrType) : Decidable (nxa.Requests attr) :=
  inferInstanceAs (Decidable (_ ≠ _))

/-- A registration with an attribute if it is requested. -/
def NxprovReg.take (reg : NxprovReg) (nxa : NexusAttr) (attr : NexusAttrType) : NxprovReg :=
  if nxa.Requests attr then
    { reg with
      requested := reg.requested ||| BitVec.twoPow 32 (nxpreq attr)
      params := attrStore reg.params (nxa.value attr) attr }
  else reg

/-- A requested attribute passes its checks. -/
def Passes (type : NexusType) (nxa : NexusAttr) (p : NxprovParams) (attr : NexusAttrType) : Prop :=
  nxa.Requests attr → attrValid type p (nxa.value attr) attr = true

/-- An attribute that passes its check is taken into the registration. -/
theorem prepareAttr_of_passes {attr : NexusAttrType} (h : Passes type nxa reg.params attr) :
    prepareAttr type nxa reg attr = .ok (reg.take nxa attr) := by
  unfold prepareAttr NxprovReg.take
  split
  · next hreq =>
    have hreq : nxa.Requests attr := hreq
    rw [if_pos (h hreq), if_pos hreq]
  · next hreq =>
    have hreq : ¬nxa.Requests attr := hreq
    rw [if_neg hreq]

/-- An attribute that fails its check leaves the registration as it was. -/
theorem prepareAttr_of_not {attr : NexusAttrType} (h : ¬Passes type nxa reg.params attr) :
    prepareAttr type nxa reg attr = .error reg := by
  obtain ⟨hreq, hvalid⟩ := Classical.not_imp.mp h
  unfold NexusAttr.Requests at hreq
  unfold prepareAttr
  rw [if_pos hreq, if_neg hvalid]

/-- The checks look at the number of transmit rings, which one attribute changes. -/
theorem txRings_take {attr : NexusAttrType} (h : attr ≠ .txRings) :
    (reg.take nxa attr).params.txRings = reg.params.txRings := by
  unfold NxprovReg.take
  split
  · cases attr with
    | txRings => exact absurd rfl h
    | _ => rfl
  · rfl

/-- The checks read the number of transmit rings and no other parameter. -/
theorem passes_congr {p p' : NxprovParams} (h : p.txRings = p'.txRings) (attr : NexusAttrType) :
    Passes type nxa p attr ↔ Passes type nxa p' attr := by
  have hvalid : attrValid type p (nxa.value attr) attr =
      attrValid type p' (nxa.value attr) attr := by
    cases attr with
    | qmap => simp only [attrValid, h]
    | _ => rfl
  rw [Passes, Passes, hvalid]

/-- All attributes pass their checks, or the registration fails. -/
theorem foldlM_prepareAttr {attrs : List NexusAttrType} (hattrs : .txRings ∉ attrs) :
    (∀ attr ∈ attrs, Passes type nxa reg.params attr) ∧
        attrs.foldlM (prepareAttr type nxa) reg = .ok (attrs.foldl (·.take nxa) reg) ∨
      (¬∀ attr ∈ attrs, Passes type nxa reg.params attr) ∧
        ∃ reg', attrs.foldlM (prepareAttr type nxa) reg = .error reg' := by
  induction attrs generalizing reg with
  | nil => exact .inl ⟨fun _ h => absurd h List.not_mem_nil, rfl⟩
  | cons attr attrs ih =>
    rw [List.forall_mem_cons, List.foldlM_cons]
    by_cases hpass : Passes type nxa reg.params attr
    · have hne : attr ≠ .txRings := fun h => hattrs (h ▸ List.mem_cons_self)
      have hrest := @ih (reg.take nxa attr) fun h => hattrs (List.mem_cons_of_mem _ h)
      simp only [passes_congr (txRings_take hne)] at hrest
      rw [prepareAttr_of_passes hpass]
      rcases hrest with ⟨hall, hok⟩ | ⟨hnot, herr⟩
      · exact .inl ⟨⟨hpass, hall⟩, hok⟩
      · exact .inr ⟨fun h => hnot h.2, herr⟩
    · rw [prepareAttr_of_not hpass]
      exact .inr ⟨fun h => hpass h.1, reg, rfl⟩

/-- The attributes that are read back after some were taken. -/
theorem value_foldl_take {attrs : List NexusAttrType} (hattrs : attrs ⊆ prepareOrder)
    (attr : NexusAttrType) :
    (nexusAttrFromParams (attrs.foldl (·.take nxa) reg).params).value attr =
      if attr ∈ attrs ∧ nxa.Requests attr then truncated (nxa.value attr) attr
      else (nexusAttrFromParams reg.params).value attr := by
  induction attrs generalizing reg with
  | nil => simp
  | cons a attrs ih =>
    have ha : a ∈ prepareOrder := hattrs List.mem_cons_self
    rw [List.foldl_cons, ih fun _ h => hattrs (List.mem_cons_of_mem _ h)]
    by_cases hmem : attr ∈ attrs ∧ nxa.Requests attr
    · rw [if_pos hmem, if_pos ⟨List.mem_cons_of_mem _ hmem.1, hmem.2⟩]
    · rw [if_neg hmem, NxprovReg.take]
      by_cases hattr : attr = a
      · subst hattr
        by_cases hreq : nxa.Requests attr
        · rw [if_pos hreq, if_pos ⟨List.mem_cons_self, hreq⟩, value_attrStore ha, if_pos rfl]
        · rw [if_neg hreq, if_neg fun h => hreq h.2]
      · have hnot : ¬(attr ∈ a :: attrs ∧ nxa.Requests attr) :=
          fun h => hmem ⟨List.mem_of_ne_of_mem hattr h.1, h.2⟩
        rw [if_neg hnot]
        split
        · rw [value_attrStore ha, if_neg hattr]
        · rfl

/-- The number of transmit rings that a registration asks for. -/
def askedRings (nxa : NexusAttr) : BitVec 32 :=
  if nxa.Requests .txRings then (nxa.value .txRings).setWidth 32 else 0

/-- When a registration is accepted for its type. -/
structure Accepted (type : NexusType) (nxa : NexusAttr) : Prop where
  qmap : nxa.Requests .qmap → type = .netIf ∧
    (nxa.value .qmap = nexusQmapTypeWmm → askedRings nxa = nexusNumWmmQueues)
  ifindex : nxa.Requests .ifindex → type = .netIf
  maxFrags : nxa.Requests .maxFrags → type = .netIf ∨ type = .flowSwitch
  rejectOnClose : nxa.Requests .rejectOnClose → type = .userPipe

/-- With the rings taken first, all other checks together are the condition of acceptance. -/
theorem passes_iff_accepted {p : NxprovParams} (hrings : p.txRings = askedRings nxa) :
    (∀ attr ∈ prepareOrder.tail, Passes type nxa p attr) ↔ Accepted type nxa := by
  constructor
  · intro h
    constructor
    case qmap =>
      intro hreq
      have hvalid := of_decide_eq_true (h .qmap (by decide) hreq)
      rw [hrings, not_and, not_not] at hvalid
      exact hvalid
    case ifindex => exact fun hreq => of_decide_eq_true (h .ifindex (by decide) hreq)
    case maxFrags =>
      intro hreq
      have hvalid := of_decide_eq_true (h .maxFrags (by decide) hreq)
      rw [not_and_or, not_not, not_not] at hvalid
      exact hvalid
    case rejectOnClose => exact fun hreq => of_decide_eq_true (h .rejectOnClose (by decide) hreq)
  · intro h attr _ hreq
    cases attr with
    | qmap =>
      apply decide_eq_true
      rw [hrings, not_and, not_not]
      exact h.qmap hreq
    | ifindex => exact decide_eq_true (h.ifindex hreq)
    | maxFrags =>
      apply decide_eq_true
      rw [not_and_or, not_not, not_not]
      exact h.maxFrags hreq
    | rejectOnClose => exact decide_eq_true (h.rejectOnClose hreq)
    | _ => rfl

/-- The parameters before the attributes. -/
def startParams (name : List UInt8) (type : NexusType) : NxprovParams :=
  { NxprovParams.zero with
    name := nexusName name
    namelen := BitVec.ofNat 32 name.length
    type := type }

/-- A fresh registration has no attribute values. -/
theorem value_startParams (name : List UInt8) (type : NexusType) (attr : NexusAttrType) :
    (nexusAttrFromParams (startParams name type)).value attr = 0 := by
  have hflag : ∀ flags flag : BitVec 32, flags = 0 → bit 64 (flags &&& flag ≠ 0) = 0 := by
    rintro flags flag rfl
    rw [show (0 : BitVec 32) &&& flag = 0 from BitVec.zero_and]
    rfl
  cases attr with
  | anonymous | userChannel => exact hflag (startParams name type).flags _ rfl
  | checksumOffload | userPacketPool => exact hflag (startParams name type).capabilities _ rfl
  | _ => rfl

/-- The transmit rings are prepared first. -/
theorem prepareOrder_eq : prepareOrder = .txRings :: prepareOrder.tail := rfl

/-- The first attribute leaves the number of rings that is asked for. -/
theorem txRings_take_self (reg : NxprovReg) (nxa : NexusAttr) (h : reg.params.txRings = 0) :
    (reg.take nxa .txRings).params.txRings = askedRings nxa := by
  unfold NxprovReg.take askedRings
  split
  · rfl
  · exact h

/-- The attributes of a registration that starts without transmit rings. -/
theorem prepareOrder_spec (type : NexusType) (nxa : NexusAttr) (h : reg.params.txRings = 0) :
    Accepted type nxa ∧ prepareOrder.foldlM (prepareAttr type nxa) reg =
        .ok (prepareOrder.foldl (·.take nxa) reg) ∨
      ¬Accepted type nxa ∧ ∃ reg', prepareOrder.foldlM (prepareAttr type nxa) reg = .error reg' := by
  rw [prepareOrder_eq, List.foldlM_cons, List.foldl_cons,
    prepareAttr_of_passes (fun _ => rfl : Passes type nxa reg.params .txRings),
    ← passes_iff_accepted (txRings_take_self reg nxa h)]
  exact foldlM_prepareAttr (by decide)

/-- What is returned of the registration that was prepared. -/
def registered : Except NxprovReg NxprovReg → NxprovReg × Errno
  | .ok reg => (reg, .success)
  | .error reg => (reg, .einval)

/-- The outcome of a registration, with what is read back of its parameters. -/
theorem nexusProviderRegPrepare_spec (name : List UInt8) (type : NexusType) (nxa : NexusAttr) :
    ((nexusProviderRegPrepare name type (some nxa)).2 = .success ↔
        name.length % 2 ^ 32 ≠ 0 ∧ Accepted type nxa) ∧
      ((nexusProviderRegPrepare name type (some nxa)).2 = .success → ∀ attr,
        (nexusAttrFromParams (nexusProviderRegPrepare name type (some nxa)).1.params).value attr =
          if attr ∈ prepareOrder ∧ nxa.Requests attr then truncated (nxa.value attr) attr
          else 0) := by
  have hlen : BitVec.ofNat 32 name.length = 0 ↔ name.length % 2 ^ 32 = 0 := by
    rw [← BitVec.toNat_inj, BitVec.toNat_ofNat]
    rfl
  have hfailed : Errno.einval ≠ .success := by decide
  have hprepare : nexusProviderRegPrepare name type (some nxa) =
      if BitVec.ofNat 32 name.length = 0 then (_, .einval)
      else registered (prepareOrder.foldlM (prepareAttr type nxa)
        ⟨nxprovRegCurrentVersion, 0, startParams name type⟩) := rfl
  rw [hprepare]
  by_cases hname : BitVec.ofNat 32 name.length = 0
  · rw [if_pos hname]
    exact ⟨iff_of_false hfailed fun h => h.1 (hlen.mp hname), fun h => absurd h hfailed⟩
  · rw [if_neg hname]
    have hstart : (NxprovReg.params ⟨nxprovRegCurrentVersion, 0, startParams name type⟩).txRings =
        0 := rfl
    rcases prepareOrder_spec type nxa hstart with ⟨hacc, hok⟩ | ⟨hacc, reg', herr⟩
    · rw [hok, registered]
      refine ⟨iff_of_true rfl ⟨mt hlen.mpr hname, hacc⟩, fun _ attr => ?_⟩
      rw [value_foldl_take (List.Subset.refl _), value_startParams]
    · rw [herr]
      exact ⟨iff_of_false hfailed fun h => hacc h.2, fun h => absurd h hfailed⟩

end Registration

section RoundTrip

variable {libsyscall : Bool} {rs : List Request} {type : NexusType}

/-- When the attributes that some calls set can be registered for a type. -/
structure Registrable (libsyscall : Bool) (rs : List Request) (type : NexusType) : Prop where
  qmap : ∀ value, lastSet libsyscall .qmap rs = some value → type = .netIf ∧
    (value = nexusQmapTypeWmm → ∃ rings, lastSet libsyscall .txRings rs = some rings ∧
      rings.setWidth 32 = nexusNumWmmQueues)
  ifindex : (lastSet libsyscall .ifindex rs).isSome → type = .netIf
  maxFrags : (lastSet libsyscall .maxFrags rs).isSome → type = .netIf ∨ type = .flowSwitch
  rejectOnClose : (lastSet libsyscall .rejectOnClose rs).isSome → type = .userPipe

/-- After a list of calls exactly those attributes are requested that were set. -/
theorem requests_attrSets (libsyscall : Bool) (rs : List Request) (attr : NexusAttrType) :
    (attrSets libsyscall .zero rs).Requests attr ↔ (lastSet libsyscall attr rs).isSome := by
  have hzero : ¬NexusAttr.zero.Requests attr := fun h => h BitVec.zero_and
  rw [(attrSets_spec libsyscall .zero rs attr).2, or_iff_left hzero]

/-- After a list of calls an attribute has the value of its last call. -/
theorem value_attrSets (libsyscall : Bool) (rs : List Request) (attr : NexusAttrType) :
    (attrSets libsyscall .zero rs).value attr = (lastSet libsyscall attr rs).getD 0 :=
  (attrSets_spec libsyscall .zero rs attr).1

/-- The rings of a WMM mapping are asked for if the last call that set them said so. -/
theorem askedRings_attrSets (libsyscall : Bool) (rs : List Request) :
    askedRings (attrSets libsyscall .zero rs) = nexusNumWmmQueues ↔
      ∃ rings, lastSet libsyscall .txRings rs = some rings ∧
        rings.setWidth 32 = nexusNumWmmQueues := by
  simp only [askedRings, requests_attrSets, value_attrSets]
  cases lastSet libsyscall .txRings rs with
  | none => exact iff_of_false (by decide) fun ⟨_, h, _⟩ => nomatch h
  | some rings => simp

/-- The condition of acceptance, told by the calls that were made. -/
theorem accepted_attrSets : Accepted type (attrSets libsyscall .zero rs) ↔
    Registrable libsyscall rs type := by
  constructor
  · intro h
    constructor
    case qmap =>
      intro value hvalue
      obtain ⟨htype, hrings⟩ := h.qmap
        ((requests_attrSets ..).mpr (Option.isSome_iff_exists.mpr ⟨value, hvalue⟩))
      rw [value_attrSets, hvalue, askedRings_attrSets] at hrings
      exact ⟨htype, hrings⟩
    case ifindex => exact fun hset => h.ifindex ((requests_attrSets ..).mpr hset)
    case maxFrags => exact fun hset => h.maxFrags ((requests_attrSets ..).mpr hset)
    case rejectOnClose => exact fun hset => h.rejectOnClose ((requests_attrSets ..).mpr hset)
  · intro h
    constructor
    case qmap =>
      intro hreq
      obtain ⟨value, hvalue⟩ := Option.isSome_iff_exists.mp ((requests_attrSets ..).mp hreq)
      rw [value_attrSets, hvalue, askedRings_attrSets]
      exact h.qmap value hvalue
    case ifindex => exact fun hreq => h.ifindex ((requests_attrSets ..).mp hreq)
    case maxFrags => exact fun hreq => h.maxFrags ((requests_attrSets ..).mp hreq)
    case rejectOnClose => exact fun hreq => h.rejectOnClose ((requests_attrSets ..).mp hreq)

/-- Every attribute that can be set is prepared. -/
private theorem mem_prepareOrder_of_settable {attr : NexusAttrType}
    (h : settable libsyscall attr = true) : attr ∈ prepareOrder := by
  cases attr with
  | flowadvMax | statsSize | slotMetaSize | checksumOffload | userPacketPool | advSize =>
    exact Bool.noConfusion h
  | _ => decide

/-- Whatever was set is prepared. -/
private theorem mem_prepareOrder_of_lastSet {attr : NexusAttrType}
    (h : (lastSet libsyscall attr rs).isSome) : attr ∈ prepareOrder := by
  induction rs with
  | nil => cases h
  | cons r rs ih =>
    rw [lastSet] at h
    cases hrest : lastSet libsyscall attr rs with
    | some value => exact ih (by rw [hrest]; rfl)
    | none =>
      rw [hrest] at h
      dsimp only at h
      split at h
      · next hset => exact mem_prepareOrder_of_settable hset.2
      · cases h

/-- A value of 32 bits survives a field of 32 bits. -/
private theorem setWidth_setWidth_of_lt {value : BitVec 64} (h : value.toNat < 2 ^ 32) :
    (value.setWidth 32).setWidth 64 = value := by
  apply BitVec.eq_of_toNat_eq
  rw [BitVec.toNat_setWidth_of_le (by decide), BitVec.toNat_setWidth, Nat.mod_eq_of_lt h]

/-- Widening loses nothing. -/
private theorem setWidth_inj {x y : BitVec 32} (h : x.setWidth 64 = y.setWidth 64) : x = y := by
  have hnat := congrArg BitVec.toNat h
  rw [BitVec.toNat_setWidth_of_le (by decide), BitVec.toNat_setWidth_of_le (by decide)] at hnat
  exact BitVec.eq_of_toNat_eq hnat

/-- Zero is zero in every field. -/
theorem truncated_zero (attr : NexusAttrType) : truncated 0 attr = 0 := by cases attr <;> rfl

/-- Whatever is set in any order, a registration succeeds exactly when the attributes fit its type,
and then every attribute reads back as the last value that was set for it, cut to 32 bits or to a
truth value, or zero. A registered WMM mapping has four transmit rings, unless it was set to a
number of more than 32 bits. -/
theorem nexus_attr_roundtrip (libsyscall : Bool) (rs : List Request) (name : List UInt8)
    (type : NexusType) :
    let (reg, err) := nexusProviderRegPrepare name type (some (attrSets libsyscall .zero rs))
    (err = .success ↔ name.length % 2 ^ 32 ≠ 0 ∧ Registrable libsyscall rs type) ∧
    (err = .success → ∀ attr old,
      nexusAttrGet (some (nexusAttrFromParams reg.params)) (some attr) (some old) =
        (some (truncated ((lastSet libsyscall attr rs).getD 0) attr), .success)) ∧
    (err = .success → reg.params.qmap.setWidth 64 = nexusQmapTypeWmm →
      reg.params.txRings = nexusNumWmmQueues ∨
        ∃ value, lastSet libsyscall .qmap rs = some value ∧ 2 ^ 32 ≤ value.toNat) := by
  obtain ⟨hsuccess, hvalue⟩ :=
    nexusProviderRegPrepare_spec name type (attrSets libsyscall .zero rs)
  rw [accepted_attrSets] at hsuccess
  dsimp only
  have hread : (nexusProviderRegPrepare name type (some (attrSets libsyscall .zero rs))).2 =
      .success → ∀ attr, (nexusAttrFromParams (nexusProviderRegPrepare name type
        (some (attrSets libsyscall .zero rs))).1.params).value attr =
          truncated ((lastSet libsyscall attr rs).getD 0) attr := by
    intro hok attr
    rw [hvalue hok attr, value_attrSets]
    by_cases hset : (lastSet libsyscall attr rs).isSome
    · rw [if_pos ⟨mem_prepareOrder_of_lastSet hset, (requests_attrSets ..).mpr hset⟩]
    · rw [if_neg fun h => hset ((requests_attrSets ..).mp h.2), Option.not_isSome_iff_eq_none.mp hset]
      exact (truncated_zero attr).symm
  refine ⟨hsuccess, fun hok attr old => ?_, fun hok hwmm => ?_⟩
  · exact congrArg (fun value => (some value, Errno.success)) (hread hok attr)
  · have hqmap := (hread hok .qmap).symm.trans hwmm
    have hrings := hread hok .txRings
    cases hlast : lastSet libsyscall .qmap rs with
    | none =>
      rw [hlast] at hqmap
      exact absurd hqmap (by decide)
    | some value =>
      rw [hlast] at hqmap
      by_cases hwide : 2 ^ 32 ≤ value.toNat
      · exact .inr ⟨value, rfl, hwide⟩
      · left
        have hvalue : value = nexusQmapTypeWmm :=
          (setWidth_setWidth_of_lt (Nat.lt_of_not_le hwide)).symm.trans hqmap
        obtain ⟨rings, hasked, hfour⟩ := ((hsuccess.mp hok).2.qmap value hlast).2 hvalue
        rw [hasked] at hrings
        exact (setWidth_inj hrings).trans hfour

/-- A mapping of `2 ^ 32 + 2` passes the check and is registered as WMM with one ring. -/
theorem wmm_without_rings : ∃ reg,
    nexusProviderRegPrepare [110] .netIf (some (attrSets false .zero
      [⟨some .txRings, 1⟩, ⟨some .qmap, 0x100000002⟩])) = (reg, .success) ∧
    reg.params.qmap.setWidth 64 = nexusQmapTypeWmm ∧ reg.params.txRings = 1 :=
  ⟨_, rfl, rfl, rfl⟩

end RoundTrip

end MacKernel.Nexus
