import MacKernel.Core.SetBits
import MacKernel.Models.Packet.Boundary
import MacKernel.Models.Packet.Options

/-!
# Transmit completion

The callbacks that a packet asks for are bits of a mask in its completion info. They are taken
from the lowest bit upwards, each cleared before its callback is called. What
`m_get_tx_compl_callback` knows is a parameter; a callback is a record of its call.
-/

namespace MacKernel.Packet

/-! ## Definitions -/

/-- `PKT_F_TX_COMPL_TS_REQ`. -/
def pktFTxComplTsReq : BitVec 64 := 0x0000000000800000

/-- `struct __packet_compl`. -/
structure PacketCompl where
  cbArg : BitVec 64
  cbData : BitVec 64
  txStatus : BitVec 32
  /-- Bitmap indicating the requested packet completion callbacks. -/
  callbacks : BitVec 32
  context : BitVec 32
  deriving DecidableEq, Repr

/-- A packet, and the completion infos that packets point to. -/
structure TxState where
  kpkt : KernPacket
  compl : BitVec 64 → PacketCompl

/-- `*kpkt->pkt_tx_compl`. -/
def TxState.txCompl (s : TxState) : Except Fault PacketCompl :=
  if s.kpkt.txCompl = 0 then .error .nullDeref else .ok (s.compl s.kpkt.txCompl)

/-- Assign to `pkt_tx_compl_callbacks`. -/
def TxState.setCallbacks (s : TxState) (callbacks : BitVec 32) : TxState :=
  let compl := s.compl s.kpkt.txCompl
  ⟨s.kpkt, Function.update s.compl s.kpkt.txCompl { compl with callbacks := callbacks }⟩

/-- `__packet_get_tx_completion_data`: `*cb_arg` and `*cb_data`. -/
def packetGetTxCompletionData (s : TxState) : Except Fault (BitVec 64 × BitVec 64) :=
  if s.kpkt.pflags &&& pktFTxComplData ≠ 0 then do
    kassert (s.kpkt.pflags &&& pktFTxComplAlloc ≠ 0)
    let compl ← s.txCompl
    return (compl.cbArg, compl.cbData)
  else return (0, 0)

/-- `__packet_get_tx_completion_status`: `*status`. -/
def packetGetTxCompletionStatus (s : TxState) : Except Fault (BitVec 32) :=
  if s.kpkt.pflags &&& pktFTxComplData ≠ 0 then do
    kassert (s.kpkt.pflags &&& pktFTxComplAlloc ≠ 0)
    let compl ← s.txCompl
    return compl.txStatus
  else return 0

/-- `ffs`: one more than the index of the least significant '1' bit, or 0 if all zeros. -/
def ffs (x : BitVec 32) : BitVec 32 := if x = 0 then 0 else x.ctz + 1

/-- What the callbacks of a packet get, apart from the context. -/
structure CallArgs where
  ifp : BitVec 64
  ts : BitVec 64
  cbArg : BitVec 64
  cbData : BitVec 64
  txStatus : BitVec 32
  deriving DecidableEq, Repr

/-- `cb(context, ifp, ts, cb_arg, cb_data, tx_status)`. -/
structure Invocation (F : Type) where
  cb : F
  context : BitVec 32
  args : CallArgs
  deriving DecidableEq, Repr

variable {F : Type}

/-- One pass of `while (kpkt->pkt_tx_compl_callbacks != 0)`, on the packet and the calls made so
far. -/
def callbackBody (mGetTxComplCallback : BitVec 32 → Option F) (args : CallArgs)
    (s : TxState × List (Invocation F)) :
    Except Fault ((TxState × List (Invocation F)) ⊕ (TxState × List (Invocation F))) := do
  let compl ← s.1.txCompl
  if compl.callbacks ≠ 0 then
    let i := ffs compl.callbacks - 1
    let kpkt := s.1.setCallbacks (compl.callbacks &&& ~~~(1#32 <<< i.toNat))
    match mGetTxComplCallback i with
    | some cb =>
      let compl ← kpkt.txCompl
      return .inl (kpkt, s.2 ++ [⟨cb, compl.context, args⟩])
    | none => return .inl (kpkt, s.2)
  else return .inr s

/-- `__packet_perform_tx_completion_callbacks`, with the calls it makes. A pass clears one of 32
bits. -/
def packetPerformTxCompletionCallbacks (mGetTxComplCallback : BitVec 32 → Option F)
    (ifp : BitVec 64) (s : TxState) : Except Fault (TxState × List (Invocation F)) := do
  kassert (s.kpkt.pflags &&& pktFTxComplTsReq ≠ 0)
  let txStatus ← packetGetTxCompletionStatus s
  let (cbArg, cbData) ← packetGetTxCompletionData s
  let (_, ts, _) ← packetGetTimestamp s.kpkt (some 0) none
  let (s, calls) ← loop (callbackBody mGetTxComplCallback
    ⟨ifp, ts.getD 0, cbArg, cbData, txStatus⟩) 33 (s, [])
  return ({ s with kpkt := s.kpkt.setPflags (s.kpkt.pflags &&& ~~~pktFTxComplTsReq) }, calls)

/-! ## The calls of a mask -/

/-- What the callbacks of a packet should get. -/
def callArgs (ifp : BitVec 64) (s : TxState) : CallArgs :=
  let compl := s.compl s.kpkt.txCompl
  { ifp := ifp
    ts := if s.kpkt.pflags &&& pktFTsValid ≠ 0 then s.kpkt.timestamp else 0
    cbArg := if s.kpkt.pflags &&& pktFTxComplData ≠ 0 then compl.cbArg else 0
    cbData := if s.kpkt.pflags &&& pktFTxComplData ≠ 0 then compl.cbData else 0
    txStatus := if s.kpkt.pflags &&& pktFTxComplData ≠ 0 then compl.txStatus else 0 }

/-- The calls for a list of callback numbers. -/
def invocations (mGetTxComplCallback : BitVec 32 → Option F) (context : BitVec 32)
    (args : CallArgs) (bits : List Nat) : List (Invocation F) :=
  bits.filterMap fun i => (mGetTxComplCallback (BitVec.ofNat 32 i)).map fun cb =>
    ⟨cb, context, args⟩

variable {s : TxState} {mGetTxComplCallback : BitVec 32 → Option F} {args : CallArgs}

/-- The completion data of a packet are found through its pointer. -/
theorem txCompl_eq (h : s.kpkt.txCompl ≠ 0) : s.txCompl = .ok (s.compl s.kpkt.txCompl) :=
  if_neg h

/-- The callback bits that were stored are read back. -/
theorem txCompl_setCallbacks (h : s.kpkt.txCompl ≠ 0) (callbacks : BitVec 32) :
    (s.setCallbacks callbacks).txCompl
      = .ok { s.compl s.kpkt.txCompl with callbacks := callbacks } := by
  rw [txCompl_eq (s := s.setCallbacks callbacks) h]
  exact congrArg Except.ok (Function.update_self ..)

/-- Of two stores of callback bits the later one stays. -/
theorem setCallbacks_setCallbacks (s : TxState) (b c : BitVec 32) :
    (s.setCallbacks b).setCallbacks c = s.setCallbacks c := by
  simp only [TxState.setCallbacks, Function.update_self, Function.update_idem]

/-- Storing the callback bits that are there changes nothing. -/
theorem setCallbacks_self (s : TxState) :
    s.setCallbacks (s.compl s.kpkt.txCompl).callbacks = s := by
  simp only [TxState.setCallbacks, Function.update_eq_self]

/-- `ffs` finds the lowest bit, counting from 1. -/
theorem ffs_sub_one {x : BitVec 32} (h : x ≠ 0) : ffs x - 1 = x.ctz := by
  rw [ffs, if_neg h, BitVec.add_sub_cancel]

/-- One pass takes the least set bit. -/
theorem callbackBody_again (h : s.kpkt.txCompl ≠ 0) {mask : BitVec 32} (hmask : mask ≠ 0)
    (calls : List (Invocation F)) :
    callbackBody mGetTxComplCallback args (s.setCallbacks mask, calls)
      = .ok (.inl (s.setCallbacks (mask &&& ~~~(1#32 <<< mask.ctz.toNat)),
          calls ++ invocations mGetTxComplCallback (s.compl s.kpkt.txCompl).context args
            [mask.ctz.toNat])) := by
  have hindex : BitVec.ofNat 32 mask.ctz.toNat = mask.ctz := by simp
  simp only [callbackBody, txCompl_setCallbacks h, ok_bind, if_pos hmask, ffs_sub_one hmask,
    setCallbacks_setCallbacks]
  cases hcb : mGetTxComplCallback mask.ctz with
  | some cb => simp [invocations, hindex, hcb, pure, Except.pure]
  | none => simp [invocations, hindex, hcb, pure, Except.pure]

/-- Without a bit left the loop ends. -/
theorem callbackBody_done (h : s.kpkt.txCompl ≠ 0) (calls : List (Invocation F)) :
    callbackBody mGetTxComplCallback args (s.setCallbacks 0, calls)
      = .ok (.inr (s.setCallbacks 0, calls)) := by
  simp only [callbackBody, txCompl_setCallbacks h, ok_bind, ne_eq, not_true_eq_false, if_false]
  rfl

/-- The calls for two lists of bits are made one after the other. -/
theorem invocations_append (context : BitVec 32) (front back : List Nat) :
    invocations mGetTxComplCallback context args (front ++ back)
      = invocations mGetTxComplCallback context args front
        ++ invocations mGetTxComplCallback context args back := List.filterMap_append

/-- The loop makes the calls of all set bits, in their order: each pass moves the least bit from
the mask to the calls. -/
theorem callbackLoop_spec (mGetTxComplCallback : BitVec 32 → Option F) (args : CallArgs)
    (h : s.kpkt.txCompl ≠ 0) {fuel : Nat} {mask : BitVec 32} (hfuel : (setBits mask).length < fuel)
    (calls : List (Invocation F)) :
    loop (callbackBody mGetTxComplCallback args) fuel (s.setCallbacks mask, calls)
      = .ok (s.setCallbacks 0, calls ++ invocations mGetTxComplCallback
          (s.compl s.kpkt.txCompl).context args (setBits mask)) := by
  induction fuel generalizing mask calls with
  | zero => exact absurd hfuel (Nat.not_lt_zero _)
  | succ fuel ih =>
    by_cases hmask : mask = 0
    · subst hmask
      have hnil : setBits (0 : BitVec 32) = [] := setBits_zero
      rw [loop_done fuel (callbackBody_done h calls), hnil]
      exact congrArg Except.ok (congrArg _ (List.append_nil calls).symm)
    · have hbits := setBits_of_ne_zero hmask
      rw [hbits, List.length_cons] at hfuel
      rw [loop_again fuel (callbackBody_again h hmask calls), ih (by omega), List.append_assoc,
        ← invocations_append, hbits]
      rfl

/-! ## The whole function -/

/-- The callbacks are given the completion data. -/
theorem packetGetTxCompletionData_eq (h : s.kpkt.txCompl ≠ 0)
    (halloc : s.kpkt.pflags &&& pktFTxComplData ≠ 0 → s.kpkt.pflags &&& pktFTxComplAlloc ≠ 0)
    (ifp : BitVec 64) :
    packetGetTxCompletionData s = .ok ((callArgs ifp s).cbArg, (callArgs ifp s).cbData) := by
  simp only [packetGetTxCompletionData, callArgs]
  by_cases hdata : s.kpkt.pflags &&& pktFTxComplData ≠ 0
  · simp only [if_pos hdata, kassert_of (halloc hdata), ok_bind, txCompl_eq h]
    rfl
  · simp only [if_neg hdata]
    rfl

/-- The callbacks are given the completion status. -/
theorem packetGetTxCompletionStatus_eq (h : s.kpkt.txCompl ≠ 0)
    (halloc : s.kpkt.pflags &&& pktFTxComplData ≠ 0 → s.kpkt.pflags &&& pktFTxComplAlloc ≠ 0)
    (ifp : BitVec 64) :
    packetGetTxCompletionStatus s = .ok (callArgs ifp s).txStatus := by
  simp only [packetGetTxCompletionStatus, callArgs]
  by_cases hdata : s.kpkt.pflags &&& pktFTxComplData ≠ 0
  · simp only [if_pos hdata, kassert_of (halloc hdata), ok_bind, txCompl_eq h]
    rfl
  · simp only [if_neg hdata]
    rfl

/-- The callbacks are given the timestamp. -/
theorem packetGetTimestamp_eq (s : TxState) (ifp : BitVec 64) :
    packetGetTimestamp s.kpkt (some 0) none
      = .ok (.success, some (callArgs ifp s).ts, none) := by
  simp only [packetGetTimestamp, callArgs, deref_some, ok_bind]
  split <;> rfl

/-- Clearing a flag keeps the others. -/
private theorem getLsbD_clear_tsReq (pflags : BitVec 64) (j : Nat) :
    (pflags &&& ~~~pktFTxComplTsReq).getLsbD j = (pflags.getLsbD j && decide (j ≠ 23)) :=
  getLsbD_clear pflags 23 j

/-- The packet afterwards, and the calls. -/
theorem packetPerformTxCompletionCallbacks_eq (ifp : BitVec 64)
    (hreq : s.kpkt.pflags &&& pktFTxComplTsReq ≠ 0)
    (halloc : s.kpkt.pflags &&& pktFTxComplData ≠ 0 → s.kpkt.pflags &&& pktFTxComplAlloc ≠ 0)
    (hcompl : s.kpkt.txCompl ≠ 0) :
    packetPerformTxCompletionCallbacks mGetTxComplCallback ifp s
      = .ok (⟨s.kpkt.setPflags (s.kpkt.pflags &&& ~~~pktFTxComplTsReq),
            (s.setCallbacks 0).compl⟩,
          invocations mGetTxComplCallback (s.compl s.kpkt.txCompl).context (callArgs ifp s)
            (setBits (s.compl s.kpkt.txCompl).callbacks)) := by
  have hfuel : (setBits (s.compl s.kpkt.txCompl).callbacks).length < 33 :=
    Nat.lt_succ_of_le (length_setBits_le _)
  have hloop : loop (callbackBody mGetTxComplCallback (callArgs ifp s)) 33 (s, [])
      = .ok (s.setCallbacks 0, invocations mGetTxComplCallback
          (s.compl s.kpkt.txCompl).context (callArgs ifp s)
          (setBits (s.compl s.kpkt.txCompl).callbacks)) := by
    have hspec := callbackLoop_spec mGetTxComplCallback (callArgs ifp s) hcompl hfuel []
    rwa [setCallbacks_self, List.nil_append] at hspec
  rw [packetPerformTxCompletionCallbacks, kassert_of hreq, ok_bind,
    packetGetTxCompletionStatus_eq hcompl halloc ifp, ok_bind,
    packetGetTxCompletionData_eq hcompl halloc ifp, ok_bind, packetGetTimestamp_eq s ifp]
  show (loop (callbackBody mGetTxComplCallback (callArgs ifp s)) 33 (s, []) >>= _) = _
  rw [hloop]
  rfl

/-- Every requested callback that is registered is called once, in ascending order and with what
the packet held before; the mask and the request are cleared and nothing else changes. -/
theorem packetPerformTxCompletionCallbacks_spec (mGetTxComplCallback : BitVec 32 → Option F)
    (ifp : BitVec 64) (s : TxState) (hreq : s.kpkt.pflags &&& pktFTxComplTsReq ≠ 0)
    (halloc : s.kpkt.pflags &&& pktFTxComplData ≠ 0 → s.kpkt.pflags &&& pktFTxComplAlloc ≠ 0)
    (hcompl : s.kpkt.txCompl ≠ 0) :
    ∃ s' calls, packetPerformTxCompletionCallbacks mGetTxComplCallback ifp s = .ok (s', calls)
      ∧ calls = invocations mGetTxComplCallback (s.compl s.kpkt.txCompl).context
          (callArgs ifp s)
          ((List.range 32).filter fun i => (s.compl s.kpkt.txCompl).callbacks.getLsbD i)
      ∧ s'.compl = Function.update s.compl s.kpkt.txCompl
          { s.compl s.kpkt.txCompl with callbacks := 0 }
      ∧ s'.kpkt = s.kpkt.setPflags s'.kpkt.pflags
      ∧ ∀ j, s'.kpkt.pflags.getLsbD j = (s.kpkt.pflags.getLsbD j && decide (j ≠ 23)) := by
  refine ⟨_, _, packetPerformTxCompletionCallbacks_eq ifp hreq halloc hcompl, rfl, rfl, ?_, ?_⟩
  · rw [pflags_setPflags]
  · intro j
    rw [pflags_setPflags, getLsbD_clear_tsReq]

/-- A packet that asks for the callbacks 0, 2 and 31. -/
def requestingPacket : TxState where
  kpkt := { zeroPacket.setPflags pktFTxComplTsReq with txCompl := 16 }
  compl _ := ⟨0, 0, 0, 0x80000005, 7⟩

/-- Callback 2 is not registered. -/
theorem packetPerformTxCompletionCallbacks_missing :
    ∃ s' calls, packetPerformTxCompletionCallbacks
        (fun i => if i = 2 then none else some i.toNat) 0 requestingPacket = .ok (s', calls)
      ∧ calls.map (fun call => call.cb) = [0, 31] := by
  have hflags : requestingPacket.kpkt.pflags = pktFTxComplTsReq := pflags_setPflags _ _
  obtain ⟨s', calls, hrun, hcalls, -⟩ := packetPerformTxCompletionCallbacks_spec
    (fun i => if i = 2 then none else some i.toNat) 0 requestingPacket
    (by rw [hflags]; decide) (by rw [hflags]; decide) (by decide)
  refine ⟨s', calls, hrun, ?_⟩
  rw [hcalls]
  decide

end MacKernel.Packet
