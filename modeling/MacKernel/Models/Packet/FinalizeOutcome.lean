import Mathlib.Algebra.BigOperators.Group.Finset.Basic
import Mathlib.Algebra.Order.BigOperators.Group.Finset
import MacKernel.Models.Packet.Finalize

/-!
# The outcome of `__packet_finalize`

The buflets that a call counts are found by following links, without the code. The
loop of either variant visits them in this order and stops at the first that it does
not accept, which gives the exact outcome of a call. In the kernel a packet may have
no buflet; the header checks then read locals that were never assigned.
-/

namespace MacKernel.Packet

open Buflet

section Counted

variable {S : Type} [BufletMeta S]

/-- Where the buflets of a handle start. -/
def firstBuflet (s : S) : BitVec 64 :=
  match BufletMeta.type s with
  | .packet =>
    if bufAddr.get (buflet s (BufletMeta.self s)) ≠ 0 then BufletMeta.self s
    else bufNbftAddr.get (buflet s (BufletMeta.self s))
  | .quantum => BufletMeta.self s

/-- The address after some links, `NULL` behind the end of the chain. -/
def bufletAt (s : S) : Nat → BitVec 64
  | 0 => firstBuflet s
  | i + 1 => if bufletAt s i = 0 then 0 else bufNbftAddr.get (buflet s (bufletAt s i))

/-- The counted buflets. -/
def counted (s : S) (i : Nat) : BufletCom := buflet s (bufletAt s i)

/-- The data in the first buflets. -/
def dataLength (s : S) (count : Nat) : Nat :=
  ∑ i ∈ Finset.range count, (bufDlen.get (counted s i)).toNat

/-- As many buflets as a count can name hold less than 4 GiB. -/
theorem dataLength_lt (s : S) {count : Nat} (h : count < 2 ^ 16) : dataLength s count < 2 ^ 32 := by
  have hsum : dataLength s count ≤ ∑ _i ∈ Finset.range count, 65535 := by
    apply Finset.sum_le_sum
    intro i _
    have := (bufDlen.get (counted s i)).isLt
    omega
  rw [Finset.sum_const_nat fun _ _ => rfl, Finset.card_range] at hsum
  omega

/-- The buflet before a pass. -/
def prevAt (s : S) : Nat → BitVec 64
  | 0 => 0
  | i + 1 => bufletAt s i

/-- The locals before a pass. -/
def varsAt (s : S) (bdoff0 bdlim0 : Local) : Nat → FinalizeVars
  | 0 => ⟨0, bdoff0, bdlim0, 0⟩
  | i + 1 => ⟨BitVec.ofNat 32 (dataLength s (i + 1)), .ok ((bufDoff.get (counted s 0)).setWidth 32),
      .ok ((bufDlim.get (counted s 0)).setWidth 32), bufletAt s i⟩

/-- Before the loop sees buflet `i`, `bprev` is the one before it. -/
theorem bprev_varsAt (s : S) (bdoff0 bdlim0 : Local) (i : Nat) :
    (varsAt s bdoff0 bdlim0 i).bprev = prevAt s i := by
  cases i <;> rfl

/-- The length summed up so far, which wraps in 32 bits. -/
theorem len_varsAt (s : S) (bdoff0 bdlim0 : Local) (i : Nat) :
    (varsAt s bdoff0 bdlim0 i).len = BitVec.ofNat 32 (dataLength s i) := by
  cases i <;> rfl

/-- What a variant of the loop meets on its way along the counted buflets: it goes on at
the good ones and stops at the others. -/
structure Visits (s : S) (next : BitVec 64 → Except Fault (BitVec 64))
    (present accepted : BitVec 64 → Except Fault Bool) (count : Nat) (good : Nat → Prop) :
    Prop where
  next : ∀ i < count, (∀ j < i, bufletAt s j ≠ 0) → next (prevAt s i) = .ok (bufletAt s i)
  nonzero : ∀ i < count, good i → bufletAt s i ≠ 0
  pass : ∀ i < count, good i →
    present (bufletAt s i) = .ok true ∧ accepted (bufletAt s i) = .ok true
  stop : ∀ i < count, ¬good i → present (bufletAt s i) = .ok false ∨
    present (bufletAt s i) = .ok true ∧ accepted (bufletAt s i) = .ok false

section Loop

variable {s : S} {next : BitVec 64 → Except Fault (BitVec 64)}
  {present accepted : BitVec 64 → Except Fault Bool} {count : Nat} {good : Nat → Prop}
  {bdoff0 bdlim0 : Local} {i : Nat}

/-- While no buflet was bad, the next one the loop takes is buflet `i`. -/
theorem Visits.next_eq (h : Visits s next present accepted count good) (hi : i < count)
    (hbefore : ∀ j < i, good j) :
    next (varsAt s bdoff0 bdlim0 i).bprev = .ok (bufletAt s i) := by
  rw [bprev_varsAt]
  exact h.next i hi fun j hj => h.nonzero j (hj.trans hi) (hbefore j hj)

/-- A pass over a good buflet. -/
theorem Visits.step (h : Visits s next present accepted count good) (hi : i < count)
    (hbefore : ∀ j < i, good j) (hgood : good i) (left : Nat) :
    finalizeLoop (buflet s) next present accepted (left + 1) (varsAt s bdoff0 bdlim0 i) =
      finalizeLoop (buflet s) next present accepted left (varsAt s bdoff0 bdlim0 (i + 1)) := by
  obtain ⟨hpresent, haccepted⟩ := h.pass i hi hgood
  rw [finalizeLoop]
  simp only [h.next_eq hi hbefore, hpresent, haccepted, ok_bind, if_true]
  congr 1
  have hlen : BitVec.ofNat 32 (dataLength s i) + (bufDlen.get (counted s i)).setWidth 32 =
      BitVec.ofNat 32 (dataLength s (i + 1)) := by
    rw [dataLength, dataLength, Finset.sum_range_succ, BitVec.ofNat_add, BitVec.ofNat_toNat]
  cases i with
  | zero =>
    rw [varsAt, varsAt, if_pos rfl, ← hlen]
    rfl
  | succ i =>
    have hprev : bufletAt s i ≠ 0 := h.nonzero i (by omega) (hbefore i (by omega))
    rw [varsAt, varsAt, if_neg hprev, ← hlen]
    rfl

/-- A pass over another buflet. -/
theorem Visits.halt (h : Visits s next present accepted count good) (hi : i < count)
    (hbefore : ∀ j < i, good j) (hbad : ¬good i) (left : Nat) :
    ∃ v, finalizeLoop (buflet s) next present accepted (left + 1) (varsAt s bdoff0 bdlim0 i) =
      .ok (.erange, v) := by
  rw [finalizeLoop]
  rcases h.stop i hi hbad with hpresent | ⟨hpresent, haccepted⟩
  · simp only [h.next_eq hi hbefore, hpresent, ok_bind, Bool.false_eq_true, if_false]
    exact ⟨_, rfl⟩
  · simp only [h.next_eq hi hbefore, hpresent, haccepted, ok_bind, Bool.false_eq_true, if_false,
      if_true]
    exact ⟨_, rfl⟩

/-- From a pass on, the loop ends behind the last buflet or at one that is not good. -/
theorem Visits.run (h : Visits s next present accepted count good) {left : Nat}
    (hleft : i + left = count) (hbefore : ∀ j < i, good j) :
    (∀ j < count, good j) ∧
        finalizeLoop (buflet s) next present accepted left (varsAt s bdoff0 bdlim0 i) =
          .ok (.success, varsAt s bdoff0 bdlim0 count) ∨
      (¬∀ j < count, good j) ∧
        ∃ v, finalizeLoop (buflet s) next present accepted left (varsAt s bdoff0 bdlim0 i) =
          .ok (.erange, v) := by
  induction left generalizing i with
  | zero =>
    obtain rfl : i = count := by omega
    exact .inl ⟨hbefore, rfl⟩
  | succ left ih =>
    have hi : i < count := by omega
    by_cases hgood : good i
    · rw [h.step hi hbefore hgood]
      refine ih (by omega) ?_
      intro j hj
      rcases Nat.lt_succ_iff_lt_or_eq.mp hj with hj | rfl
      · exact hbefore j hj
      · exact hgood
    · exact .inr ⟨fun hall => hgood (hall i hi), h.halt hi hbefore hgood left⟩

/-- The loop from its start. -/
theorem Visits.run_start (h : Visits s next present accepted count good) (bdoff0 bdlim0 : Local) :
    (∀ j < count, good j) ∧
        finalizeLoop (buflet s) next present accepted count ⟨0, bdoff0, bdlim0, 0⟩ =
          .ok (.success, varsAt s bdoff0 bdlim0 count) ∨
      (¬∀ j < count, good j) ∧
        ∃ v, finalizeLoop (buflet s) next present accepted count ⟨0, bdoff0, bdlim0, 0⟩ =
          .ok (.erange, v) :=
  h.run (i := 0) (by omega) (by omega)

end Loop

end Counted

section Checks

/-- The offset of the L2 header. -/
def l2Off (com : BitVec 256) : Nat := (pktHeadroom.get com).toNat

/-- The offset of the L3 header. -/
def l3Off (com : BitVec 256) : Nat := (pktHeadroom.get com).toNat + (pktL2Len.get com).toNat

/-- The table for packets from user space, on the first buflet. That `l3 = l2` for raw packets
is not checked: the L2 length is overwritten. -/
def UserTable (subtype : MetaSubtype) (com : BitVec 256) (b : BufletCom) : Prop :=
  match subtype with
  | .raw => l2Off com = (bufDoff.get b).toNat ∧ l2Off com < (bufDlim.get b).toNat
  | .payload => l2Off com = 0 ∧ l3Off com = 0 ∧ (bufDoff.get b).toNat = 0

/-- The table for packets from the kernel. -/
def KernTable (subtype : MetaSubtype) (com : BitVec 256) (b : BufletCom) : Prop :=
  match subtype with
  | .raw => (l2Off com = (bufDoff.get b).toNat ∧ l2Off com < (bufDlim.get b).toNat) ∧
      l2Off com ≤ l3Off com ∧ l3Off com < (bufDlim.get b).toNat
  | .payload => l2Off com = 0 ∧ l3Off com = 0 ∧ (bufDoff.get b).toNat = 0

/-- No option flag is set with an empty option. -/
structure NoEmptyOption (pflags : BitVec 64) (po : BitVec 256) : Prop where
  expiry : pflags &&& pktFOptExpireTs ≠ 0 → poExpireTs.get po ≠ 0
  token : pflags &&& pktFOptToken ≠ 0 → poTokenLen.get po ≠ 0

instance (subtype : MetaSubtype) (com : BitVec 256) (b : BufletCom) :
    Decidable (UserTable subtype com b) :=
  match subtype with
  | .raw => inferInstanceAs (Decidable (_ ∧ _))
  | .payload => inferInstanceAs (Decidable (_ ∧ _))

instance (subtype : MetaSubtype) (com : BitVec 256) (b : BufletCom) :
    Decidable (KernTable subtype com b) :=
  match subtype with
  | .raw => inferInstanceAs (Decidable (_ ∧ _))
  | .payload => inferInstanceAs (Decidable (_ ∧ _))

instance (pflags : BitVec 64) (po : BitVec 256) : Decidable (NoEmptyOption pflags po) :=
  decidable_of_iff ((pflags &&& pktFOptExpireTs ≠ 0 → poExpireTs.get po ≠ 0) ∧
      (pflags &&& pktFOptToken ≠ 0 → poTokenLen.get po ≠ 0))
    ⟨fun h => ⟨h.1, h.2⟩, fun h => ⟨h.expiry, h.token⟩⟩

/-- `rawInRange` with the values of a buflet. -/
theorem rawInRange_eq (com : BitVec 256) (b : BufletCom) :
    rawInRange com (.ok ((bufDoff.get b).setWidth 32)) (.ok ((bufDlim.get b).setWidth 32)) =
      .ok (decide (l2Off com = (bufDoff.get b).toNat ∧ l2Off com < (bufDlim.get b).toNat)) := by
  have hoff : (pktHeadroom.get com).setWidth 32 = (bufDoff.get b).setWidth 32 ↔
      l2Off com = (bufDoff.get b).toNat := by
    rw [← BitVec.toNat_inj, BitVec.toNat_setWidth_of_le (by decide),
      BitVec.toNat_setWidth_of_le (by decide), l2Off]
  have hlim : (pktHeadroom.get com).setWidth 32 < (bufDlim.get b).setWidth 32 ↔
      l2Off com < (bufDlim.get b).toNat := by
    rw [BitVec.lt_def, BitVec.toNat_setWidth_of_le (by decide),
      BitVec.toNat_setWidth_of_le (by decide), l2Off]
  simp only [rawInRange, ok_bind, hlim]
  by_cases h : l2Off com = (bufDoff.get b).toNat
  · rw [if_neg (not_not.mpr (hoff.mpr h))]
    simp only [h, true_and]
    rfl
  · rw [if_pos fun he => h (hoff.mp he)]
    simp only [h, false_and, decide_false]
    rfl

/-- `payloadInRange` with the values of a buflet. -/
theorem payloadInRange_eq (com : BitVec 256) (b : BufletCom) :
    payloadInRange com (.ok ((bufDoff.get b).setWidth 32)) =
      .ok (decide (l2Off com = 0 ∧ l3Off com = 0 ∧ (bufDoff.get b).toNat = 0)) := by
  have hroom : pktHeadroom.get com = 0 ↔ l2Off com = 0 := by rw [← BitVec.toNat_inj]; rfl
  have hl2 : pktL2Len.get com = 0 ↔ (pktL2Len.get com).toNat = 0 := by rw [← BitVec.toNat_inj]; rfl
  have hoff : (bufDoff.get b).setWidth 32 = 0 ↔ (bufDoff.get b).toNat = 0 := by
    rw [← BitVec.toNat_inj, BitVec.toNat_setWidth_of_le (by decide)]
    rfl
  have hl3 : l3Off com = l2Off com + (pktL2Len.get com).toNat := rfl
  simp only [payloadInRange, ok_bind, ne_eq, hroom, hoff, hl2, hl3]
  by_cases h : l2Off com = 0
  · rw [if_neg (not_not.mpr h)]
    by_cases h' : (bufDoff.get b).toNat = 0
    · rw [if_neg (not_not.mpr h')]
      simp only [h, h', true_and, and_true, Nat.zero_add]
      rfl
    · rw [if_pos h']
      simp only [h', and_false, decide_false]
      rfl
  · rw [if_pos h]
    simp only [h, false_and, decide_false]
    rfl

/-- With an option block, an empty option is one that is flagged and has no value. -/
theorem optEmpty_eq {len : Nat} (pflags flag : BitVec 64) (f : Field 256 len) (po : BitVec 256) :
    optEmpty pflags flag f (some po) = .ok (decide (¬(pflags &&& flag ≠ 0 → f.get po ≠ 0))) := by
  rw [optEmpty]
  split
  · next h =>
    simp only [deref_some, ok_bind, h, true_imp_iff, ne_eq, not_not, not_false_eq_true]
    rfl
  · next h =>
    simp only [h, false_imp_iff, not_true_eq_false, decide_false]
    rfl

/-- A flag of an option is one of the flags of option data. -/
theorem pktFOptData_of_flag {pflags flag : BitVec 64} (hflag : pktFOptData &&& flag = flag)
    (h : pflags &&& flag ≠ 0) : pflags &&& pktFOptData ≠ 0 := by
  intro hz
  apply h
  calc pflags &&& flag = (pflags &&& pktFOptData) &&& flag := by rw [BitVec.and_assoc, hflag]
    _ = 0 := by rw [hz]; exact BitVec.zero_and

/-- A check succeeds exactly where its condition holds. -/
theorem ite_success_iff {p : Prop} [Decidable p] {err : Errno} (herr : err ≠ .success) :
    (if p then .success else err) = Errno.success ↔ p := by
  split
  · next h => exact iff_of_true rfl h
  · next h => exact iff_of_false herr h

/-- The option checks find exactly the flagged options without a value. -/
theorem finalizeOptions_eq (pflags : BitVec 64) (po : BitVec 256) :
    finalizeOptions pflags (some po) =
      .ok (if NoEmptyOption pflags po then .success else .einval) := by
  rw [finalizeOptions]
  split
  · simp only [optEmpty_eq, ok_bind, decide_eq_true_eq]
    split
    · next h =>
      rw [if_neg fun hn => h hn.expiry]
      rfl
    · next h =>
      split
      · next h' =>
        rw [if_neg fun hn => h' hn.token]
        rfl
      · next h' =>
        rw [if_pos ⟨not_not.mp h, not_not.mp h'⟩]
        rfl
  · next h =>
    rw [if_pos ⟨fun hf => absurd (pktFOptData_of_flag (by decide) hf) h,
      fun hf => absurd (pktFOptData_of_flag (by decide) hf) h⟩]
    rfl

end Checks

section Stores

/-- A quantum before and after a call that returns `err`, with the data that the call counts. -/
structure FinalizedQuantum (total : Nat) (err : Errno) (com com' : BitVec 256) : Prop where
  len : (qumLen.get com').toNat = if err = .success then total else 0
  finalized : qumQflags.get com' &&& qumFFinalized ≠ 0 ↔ err = .success
  dropped : qumQflags.get com' &&& qumFDropped ≠ 0 ↔ err ≠ .success
  flags : qumQflags.get com' &&& ~~~(qumFDropped ||| qumFFinalized) =
    qumQflags.get com &&& ~~~(qumFDropped ||| qumFFinalized)
  others : ∀ {len : Nat} (f : Field 256 len), f.Disjoint qumLen → f.Disjoint qumQflags →
    f.get com' = f.get com

/-- What `done` stores to: the flags are clear and the length is zero. -/
def finalizeStart (com : BitVec 256) : BitVec 256 := qumLen.set 0 (finalizeClear com)

/-- Finalizing starts by clearing the two state flags. -/
theorem qumQflags_finalizeStart (com : BitVec 256) :
    qumQflags.get (finalizeStart com) =
      qumQflags.get com &&& ~~~(qumFDropped ||| qumFFinalized) := by
  rw [finalizeStart, Field.get_set_of_disjoint (by decide), finalizeClear, Field.get_set_self]

/-- Finalizing starts by writing nothing but the length and the flags. -/
theorem get_finalizeStart {len : Nat} {f : Field 256 len} (hlen : f.Disjoint qumLen)
    (hflags : f.Disjoint qumQflags) (com : BitVec 256) :
    f.get (finalizeStart com) = f.get com := by
  rw [finalizeStart, Field.get_set_of_disjoint hlen, finalizeClear,
    Field.get_set_of_disjoint hflags]

/-- The two stores of `done`, one of the length and one of a flag. -/
theorem finalizeDone_eq (err : Errno) (len : BitVec 32) (com : BitVec 256) :
    finalizeDone err len com =
      qumQflags.set (qumQflags.get com ||| if err = .success then qumFFinalized else qumFDropped)
        (qumLen.set (if err = .success then len else 0) com) := by
  have hflags (l : BitVec 32) : qumQflags.get (qumLen.set l com) = qumQflags.get com :=
    Field.get_set_of_disjoint (by decide) l com
  rw [finalizeDone]
  split <;> simp only [hflags]

/-- An error does not store the length. -/
theorem finalizeDone_of_error {err : Errno} (herr : err ≠ .success) (len len' : BitVec 32)
    (com : BitVec 256) : finalizeDone err len com = finalizeDone err len' com := by
  rw [finalizeDone, finalizeDone, if_neg herr, if_neg herr]

/-- The end of finalizing writes the length if all went well, and the flag that says so. -/
theorem finalizedQuantum {total : Nat} {err : Errno} (len : BitVec 32) (com : BitVec 256)
    (hlen : err = .success → len = BitVec.ofNat 32 total) (htotal : total < 2 ^ 32) :
    FinalizedQuantum total err com (finalizeDone err len (finalizeStart com)) := by
  have hflags : qumQflags.get (finalizeDone err len (finalizeStart com)) =
      (qumQflags.get com &&& ~~~(qumFDropped ||| qumFFinalized)) |||
        if err = .success then qumFFinalized else qumFDropped := by
    rw [finalizeDone_eq, Field.get_set_self, qumQflags_finalizeStart]
  constructor
  case len =>
    rw [finalizeDone_eq, Field.get_set_of_disjoint (by decide), Field.get_set_self]
    by_cases h : err = .success
    · rw [if_pos h, if_pos h, hlen h, BitVec.toNat_ofNat, Nat.mod_eq_of_lt htotal]
    · rw [if_neg h, if_neg h]
      rfl
  case finalized =>
    rw [hflags]
    by_cases h : err = .success
    · rw [if_pos h, or_flag_and_self]
      exact iff_of_true (by decide) h
    · rw [if_neg h, or_flag_and_of_disjoint (by decide), BitVec.and_assoc]
      exact iff_of_false (not_not.mpr BitVec.and_zero) h
  case dropped =>
    rw [hflags]
    by_cases h : err = .success
    · rw [if_pos h, or_flag_and_of_disjoint (by decide), BitVec.and_assoc]
      exact iff_of_false (not_not.mpr BitVec.and_zero) (not_not.mpr h)
    · rw [if_neg h, or_flag_and_self]
      exact iff_of_true (by decide) h
  case flags =>
    have hdisjoint : (if err = .success then qumFFinalized else qumFDropped) &&&
        ~~~(qumFDropped ||| qumFFinalized) = 0 := by
      split <;> decide
    rw [hflags, or_flag_and_of_disjoint hdisjoint, BitVec.and_assoc, BitVec.and_self]
  case others =>
    intro len f hl hf
    rw [finalizeDone_eq, Field.get_set_of_disjoint hf, Field.get_set_of_disjoint hl,
      get_finalizeStart hl hf]

end Stores

section User

variable {s : UserMeta} {bdoff0 bdlim0 : Local}

/-- When `__packet_finalize` in user space returns zero. -/
structure UserMeta.Finalizable (s : UserMeta) : Prop where
  chain : ∀ i < s.packetGetBufletCount.toNat, bufletAt s i ≠ 0
  inRange : ∀ i < s.packetGetBufletCount.toNat, dataInRange (counted s i)
  headers : s.type = .packet → UserTable s.subtype s.pkt.com (counted s 0)
  options : s.type = .packet → NoEmptyOption (pktPflags.get s.pkt.com) s.pkt.comOpt

/-- What a call leaves: all but the quantum, and for a raw packet its L2 length. -/
structure UserMeta.Kept (s s' : UserMeta) : Prop where
  others : s' = { s with pkt := { s.pkt with
    qum := { s.pkt.qum with com := s'.pkt.qum.com }, com := s'.pkt.com } }
  headers : s'.pkt.com = s.pkt.com ∨
    (s.type = .packet ∧ s.subtype = .raw) ∧ s'.pkt.com = pktL2Len.set 0 s.pkt.com

/-- A user packet counts its own buflet, so its count is never 0. -/
theorem UserMeta.count_pos (s : UserMeta) : 0 < s.packetGetBufletCount.toNat := by
  rw [UserMeta.packetGetBufletCount]
  cases s.type with
  | quantum => exact Nat.one_pos
  | packet =>
    dsimp only
    split
    · exact Nat.one_pos
    · next h => exact Nat.pos_of_ne_zero fun h0 => h (BitVec.eq_of_toNat_eq h0)

/-- With buflets, the first of a packet is the one that the chain starts with. -/
theorem pktGetFirstBuflet_eq {S : Type} [BufletMeta S] {s : S} (htype : BufletMeta.type s = .packet)
    {bcnt : BitVec 32} (hcnt : bcnt ≠ 0) : pktGetFirstBuflet s bcnt = bufletAt s 0 := by
  rw [pktGetFirstBuflet, if_neg hcnt, bufletAt, firstBuflet, htype]

/-- `_PKT_GET_NEXT_BUFLET` from the buflet before a pass. -/
theorem pktGetNextBuflet_prevAt {S : Type} [BufletMeta S] {s : S}
    (htype : BufletMeta.type s = .packet) {bcnt : BitVec 32} (hcnt : bcnt ≠ 0) {i : Nat}
    (hchain : ∀ j < i, bufletAt s j ≠ 0) : pktGetNextBuflet s bcnt (prevAt s i) = bufletAt s i := by
  rw [pktGetNextBuflet]
  cases i with
  | zero => rw [prevAt, if_pos rfl, pktGetFirstBuflet_eq htype hcnt]
  | succ i =>
    have hprev : bufletAt s i ≠ 0 := hchain i (by omega)
    rw [prevAt, if_neg hprev, bufletAt, if_neg hprev]

/-- Only one buflet of a quantum is asked for. -/
theorem qumGetNextBuflet_zero {S : Type} [BufletMeta S] {s : S}
    (htype : BufletMeta.type s = .quantum) : qumGetNextBuflet s 0 = .ok (bufletAt s 0) := by
  rw [qumGetNextBuflet, kassert_of (.inl rfl), ok_bind, if_pos rfl, bufletAt, firstBuflet, htype]
  rfl

/-- Stepping from the buflet before `i` gives buflet `i` of the chain. -/
theorem UserMeta.packetGetNextBuflet_prevAt {i : Nat} (hi : i < s.packetGetBufletCount.toNat)
    (hchain : ∀ j < i, bufletAt s j ≠ 0) :
    s.packetGetNextBuflet (prevAt s i) = .ok (bufletAt s i) := by
  cases htype : s.type with
  | quantum =>
    simp only [UserMeta.packetGetBufletCount, htype] at hi
    obtain rfl : i = 0 := Nat.lt_one_iff.mp hi
    rw [UserMeta.packetGetNextBuflet, htype]
    exact qumGetNextBuflet_zero htype
  | packet =>
    by_cases hcnt : s.pkt.bufsCnt = 0
    · -- the count of zero stands for one buflet
      simp only [UserMeta.packetGetBufletCount, htype, hcnt, if_true] at hi
      obtain rfl : i = 0 := Nat.lt_one_iff.mp hi
      have hfirst : pktGetNextBuflet s 1 0 = bufletAt s 0 :=
        pktGetNextBuflet_prevAt (i := 0) htype (by decide) hchain
      rw [UserMeta.packetGetNextBuflet_of_zero htype hcnt, hfirst]
    · rw [UserMeta.packetGetNextBuflet_of_count htype hcnt,
        pktGetNextBuflet_prevAt htype (setWidth_bufsCnt_eq_zero.not.mpr hcnt) hchain]

/-- The loop over a user packet takes its chain in order and accepts what is in range. -/
theorem UserMeta.visits (s : UserMeta) :
    Visits s s.packetGetNextBuflet s.bufPresent s.bufAccepted s.packetGetBufletCount.toNat
      fun i => bufletAt s i ≠ 0 ∧ dataInRange (counted s i) where
  next _ hi hchain := UserMeta.packetGetNextBuflet_prevAt hi hchain
  nonzero _ _ hgood := hgood.1
  pass i _ hgood :=
    ⟨congrArg Except.ok (decide_eq_true hgood.1), congrArg Except.ok hgood.2⟩
  stop i _ hbad := by
    by_cases h : bufletAt s i = 0
    · exact .inl (congrArg Except.ok (decide_eq_false (not_not.mpr h)))
    · have hrange : dataInRange (counted s i) = false :=
        Bool.eq_false_iff.mpr fun hr => hbad ⟨h, hr⟩
      exact .inr ⟨congrArg Except.ok (decide_eq_true h), congrArg Except.ok hrange⟩

/-- The packet with the L2 length of a raw one overwritten. -/
def UserMeta.overwriteL2 (s : UserMeta) : UserMeta :=
  if s.subtype = .raw then { s with pkt := { s.pkt with com := pktL2Len.set 0 s.pkt.com } } else s

/-- Overwriting the L2 length leaves the packet flags. -/
theorem UserMeta.pflags_overwriteL2 (s : UserMeta) :
    pktPflags.get s.overwriteL2.pkt.com = pktPflags.get s.pkt.com := by
  rw [UserMeta.overwriteL2]
  split
  · exact Field.get_set_of_disjoint (by decide) 0 _
  · rfl

/-- Overwriting the L2 length leaves the option pointer. -/
theorem UserMeta.comOpt_overwriteL2 (s : UserMeta) : s.overwriteL2.pkt.comOpt = s.pkt.comOpt := by
  rw [UserMeta.overwriteL2]
  split <;> rfl

/-- The header checks on the values of a buflet. -/
theorem UserMeta.finalizeHeaders_eq (s : UserMeta) (b : BufletCom) :
    s.finalizeHeaders (.ok ((bufDoff.get b).setWidth 32)) (.ok ((bufDlim.get b).setWidth 32)) =
      .ok (if UserTable s.subtype s.pkt.com b then (.success, s.overwriteL2)
        else (.erange, s)) := by
  obtain ⟨type, subtype, pkt, self, bufs⟩ := s
  cases subtype with
  | raw =>
    simp only [UserMeta.finalizeHeaders, rawInRange_eq, ok_bind, decide_eq_true_eq]
    by_cases h : UserTable .raw pkt.com b
    · rw [if_pos h]
      exact if_pos h
    · rw [if_neg h]
      exact if_neg h
  | payload =>
    simp only [UserMeta.finalizeHeaders, payloadInRange_eq, ok_bind, decide_eq_true_eq]
    by_cases h : UserTable .payload pkt.com b
    · rw [if_pos h]
      exact if_pos h
    · rw [if_neg h]
      exact if_neg h

/-- The checks after the loop, on the values of a buflet. -/
theorem UserMeta.finalizeChecks_spec (s : UserMeta) {v : FinalizeVars} {b : BufletCom}
    (hoff : v.bdoff0 = .ok ((bufDoff.get b).setWidth 32))
    (hlim : v.bdlim0 = .ok ((bufDlim.get b).setWidth 32)) :
    ∃ err s', s.finalizeChecks v = .ok (err, s') ∧
      (err = .success ↔ (s.type = .packet → UserTable s.subtype s.pkt.com b ∧
        NoEmptyOption (pktPflags.get s.pkt.com) s.pkt.comOpt)) ∧
      (s' = s ∨ s.type = .packet ∧ s' = s.overwriteL2) ∧
      (err = .success → s.type = .packet → s' = s.overwriteL2) := by
  rw [UserMeta.finalizeChecks]
  cases htype : s.type with
  | quantum =>
    exact ⟨_, _, rfl, iff_of_true rfl (fun h => by cases h), .inl rfl, fun _ h => by cases h⟩
  | packet =>
    have hheaders := s.finalizeHeaders_eq b
    by_cases htable : UserTable s.subtype s.pkt.com b
    · rw [if_pos htable] at hheaders
      refine ⟨if NoEmptyOption (pktPflags.get s.pkt.com) s.pkt.comOpt then .success else .einval,
        s.overwriteL2, ?_, ?_, .inr ⟨rfl, rfl⟩, fun _ _ => rfl⟩
      · dsimp only
        rw [hoff, hlim, hheaders, ok_bind]
        dsimp only
        rw [if_neg (not_not.mpr rfl), s.pflags_overwriteL2, s.comOpt_overwriteL2,
          finalizeOptions_eq]
        rfl
      · rw [ite_success_iff (by decide)]
        exact ⟨fun h _ => ⟨htable, h⟩, fun h => (h rfl).2⟩
    · rw [if_neg htable] at hheaders
      refine ⟨.erange, s, ?_, iff_of_false (by decide) fun h => htable (h rfl).1, .inl rfl,
        fun h => by cases h⟩
      dsimp only
      rw [hoff, hlim, hheaders, ok_bind]
      rfl

/-- Overwriting the L2 length leaves the quantum. -/
theorem UserMeta.overwriteL2_qum (s : UserMeta) : s.overwriteL2.pkt.qum = s.pkt.qum := by
  rw [UserMeta.overwriteL2]
  split <;> rfl

/-- Neither the checks nor the stores change more than the quantum and the L2 length. -/
theorem UserMeta.kept_of_checks {s s' : UserMeta} (com com' : BitVec 256)
    (h : s' = s.setQum com ∨ s.type = .packet ∧ s' = (s.setQum com).overwriteL2) :
    s.Kept (s'.setQum com') := by
  rcases h with rfl | ⟨hp, rfl⟩
  · exact ⟨rfl, .inl rfl⟩
  · rw [UserMeta.overwriteL2]
    split
    · next hsub => exact ⟨rfl, .inr ⟨⟨hp, hsub⟩, rfl⟩⟩
    · exact ⟨rfl, .inl rfl⟩

/-- Overwriting the L2 length moves the L3 header to the L2 header. -/
theorem UserMeta.l3Off_overwriteL2 (hsub : s.subtype = .raw) :
    l3Off s.overwriteL2.pkt.com = l2Off s.overwriteL2.pkt.com := by
  rw [UserMeta.overwriteL2, if_pos hsub, l3Off, l2Off, Field.get_set_self]
  rfl

/-- The call as its loop and the checks, which do not read what was stored before. -/
theorem UserMeta.packetFinalize_eq (s : UserMeta) (bdoff0 bdlim0 : Local) :
    s.packetFinalize bdoff0 bdlim0 = (do
      let (err, v) ← finalizeLoop (buflet s) s.packetGetNextBuflet s.bufPresent s.bufAccepted
        s.packetGetBufletCount.toNat ⟨0, bdoff0, bdlim0, 0⟩
      let (err, s) ← if err ≠ .success then pure (err, s.setQum (finalizeStart s.pkt.qum.com))
        else (s.setQum (finalizeStart s.pkt.qum.com)).finalizeChecks v
      return (err, s.setQum (finalizeDone err v.len s.pkt.qum.com))) := rfl

/-- The exact outcome in user space. -/
theorem UserMeta.packetFinalize_spec (s : UserMeta) (bdoff0 bdlim0 : Local) :
    ∃ err s', s.packetFinalize bdoff0 bdlim0 = .ok (err, s') ∧
      (err = .success ↔ s.Finalizable) ∧
      FinalizedQuantum (dataLength s s.packetGetBufletCount.toNat) err s.pkt.qum.com
        s'.pkt.qum.com ∧
      s.Kept s' ∧
      (err = .success → s.type = .packet → s.subtype = .raw →
        l3Off s'.pkt.com = l2Off s'.pkt.com) := by
  have htotal := dataLength_lt s s.packetGetBufletCount.isLt
  rw [UserMeta.packetFinalize_eq]
  rcases s.visits.run_start bdoff0 bdlim0 with ⟨hgood, hloop⟩ | ⟨hbad, v, hloop⟩
  · have hlen := len_varsAt s bdoff0 bdlim0 s.packetGetBufletCount.toNat
    obtain ⟨n, hn⟩ := Nat.exists_eq_succ_of_ne_zero s.count_pos.ne'
    obtain ⟨err, s', hchecks, herr, hkept, hraw⟩ := UserMeta.finalizeChecks_spec
      (s.setQum (finalizeStart s.pkt.qum.com))
      (v := varsAt s bdoff0 bdlim0 s.packetGetBufletCount.toNat) (b := counted s 0)
      (by rw [hn]; rfl) (by rw [hn]; rfl)
    have hqum : s'.pkt.qum.com = finalizeStart s.pkt.qum.com := by
      rcases hkept with rfl | ⟨-, rfl⟩
      · rfl
      · rw [UserMeta.overwriteL2_qum]
        rfl
    let len := BitVec.ofNat 32 (dataLength s s.packetGetBufletCount.toNat)
    refine ⟨err, s'.setQum (finalizeDone err len s'.pkt.qum.com), ?_, ?_, ?_,
      UserMeta.kept_of_checks _ _ hkept, ?_⟩
    · rw [hloop, ok_bind]
      dsimp only
      rw [if_neg (not_not.mpr rfl), hchecks, hlen]
      rfl
    · rw [herr]
      exact ⟨fun h => ⟨fun i hi => (hgood i hi).1, fun i hi => (hgood i hi).2, fun hp => (h hp).1,
        fun hp => (h hp).2⟩, fun h hp => ⟨h.headers hp, h.options hp⟩⟩
    · rw [hqum]
      exact finalizedQuantum len _ (fun _ => rfl) htotal
    · intro hsuccess hp hsub
      obtain rfl := hraw hsuccess hp
      exact UserMeta.l3Off_overwriteL2 hsub
  · refine ⟨.erange, _, by rw [hloop]; rfl, ?_, ?_, UserMeta.kept_of_checks _ _ (.inl rfl),
      fun h => by cases h⟩
    · exact iff_of_false (by decide) fun h => hbad fun i hi => ⟨h.chain i hi, h.inRange i hi⟩
    · exact finalizedQuantum v.len _ (fun h => by cases h) htotal

end User

section Kernel

variable {s : KernMeta} {bdoff0 bdlim0 : Local}

/-- The number of buflets of a handle. -/
def KernMeta.count (s : KernMeta) : Nat :=
  match s.type with
  | .packet => s.pkt.bufsCnt.toNat
  | .quantum => 1

/-- A counted buflet is in range, or an mbuf is attached. -/
def KernMeta.accepts (s : KernMeta) (i : Nat) : Bool :=
  objInRange (counted s i) (s.bufctl (s.kbuflet (bufletAt s i)).ctl) || s.pktHasAttachedMbuf

/-- What `__packet_finalize` asserts of a packet or reads through a pointer. -/
structure KernMeta.Admitted (s : KernMeta) : Prop where
  internalized : qumQflags.get s.pkt.qum.com &&& qumFInternalized ≠ 0
  onDemand : s.type = .packet → s.pkt.bufsCnt ≠ 0 ∨ s.onDemand
  chain : ∀ i < s.count, bufletAt s i ≠ 0
  buffer : ∀ i < s.count, bufAddr.get (counted s i) ≠ 0
  control : ∀ i < s.count, (s.kbuflet (bufletAt s i)).ctl ≠ 0
  optArea : s.type = .packet → s.pkt.pflags &&& pktFOptData ≠ 0 → s.pkt.comOpt ≠ 0

/-- When `__packet_finalize` in the kernel returns zero. -/
structure KernMeta.Finalizable (s : KernMeta) : Prop where
  inRange : ∀ i < s.count, s.accepts i
  headers : s.type = .packet → KernTable s.subtype s.pkt.com (counted s 0)
  options : s.type = .packet → NoEmptyOption s.pkt.pflags (s.areas.opt s.pkt.comOpt)

/-- The count of a kernel packet is a 16-bit field. -/
theorem KernMeta.count_lt (s : KernMeta) : s.count < 2 ^ 16 := by
  rw [KernMeta.count]
  cases s.type with
  | packet => exact s.pkt.bufsCnt.isLt
  | quantum => exact Nat.one_lt_two_pow (by decide)

/-- Stepping from the buflet before `i` gives buflet `i` of the chain. -/
theorem KernMeta.packetGetNextBuflet_prevAt {i : Nat} (hi : i < s.count)
    (hchain : ∀ j < i, bufletAt s j ≠ 0) :
    s.packetGetNextBuflet (prevAt s i) = .ok (bufletAt s i) := by
  cases htype : s.type with
  | quantum =>
    simp only [KernMeta.count, htype] at hi
    obtain rfl : i = 0 := Nat.lt_one_iff.mp hi
    rw [KernMeta.packetGetNextBuflet, htype]
    exact qumGetNextBuflet_zero htype
  | packet =>
    simp only [KernMeta.count, htype] at hi
    have hcnt : s.pkt.bufsCnt ≠ 0 := by
      rintro h
      rw [h] at hi
      exact Nat.not_lt_zero i hi
    rw [KernMeta.packetGetNextBuflet_eq htype (.inl hcnt) (.inl hcnt),
      pktGetNextBuflet_prevAt htype (setWidth_bufsCnt_eq_zero.not.mpr hcnt) hchain]

/-- The loop over an admitted kernel packet takes its chain in order. -/
theorem KernMeta.Admitted.visits (h : s.Admitted) :
    Visits s s.packetGetNextBuflet s.bufPresent s.bufAccepted s.count fun i => s.accepts i := by
  have hpresent : ∀ i < s.count, s.bufPresent (bufletAt s i) = .ok true := by
    intro i hi
    have hbuffer : bufAddr.get (buflet s (bufletAt s i)) ≠ 0 := h.buffer i hi
    rw [KernMeta.bufPresent, kassert_of (h.chain i hi), ok_bind, kassert_of hbuffer]
    rfl
  have haccepted : ∀ i < s.count, s.bufAccepted (bufletAt s i) = .ok (s.accepts i) := by
    intro i hi
    rw [KernMeta.bufAccepted, KernMeta.bufInRange, KernMeta.ctlAt, if_neg (h.control i hi)]
    rfl
  constructor
  case next => exact fun i hi hchain => KernMeta.packetGetNextBuflet_prevAt hi hchain
  case nonzero => exact fun i hi _ => h.chain i hi
  case pass =>
    intro i hi hgood
    exact ⟨hpresent i hi, by rw [haccepted i hi, hgood]⟩
  case stop =>
    intro i hi hbad
    exact .inr ⟨hpresent i hi, by rw [haccepted i hi, Bool.eq_false_iff.mpr hbad]⟩

/-- An admitted packet passes the assertions on its count. -/
theorem KernMeta.Admitted.packetGetBufletCount (h : s.Admitted) :
    ∃ c : BitVec 16, s.packetGetBufletCount = .ok c ∧ c.toNat = s.count := by
  rw [KernMeta.packetGetBufletCount, KernMeta.count]
  cases htype : s.type with
  | quantum => exact ⟨1, rfl, rfl⟩
  | packet =>
    refine ⟨s.pkt.bufsCnt, ?_, rfl⟩
    dsimp only
    rw [kassert_of (h.onDemand htype)]
    rfl

/-- The header checks on the values of a buflet. -/
theorem KernMeta.finalizeHeaders_eq (s : KernMeta) (b : BufletCom) :
    s.finalizeHeaders (.ok ((bufDoff.get b).setWidth 32)) (.ok ((bufDlim.get b).setWidth 32)) =
      .ok (if KernTable s.subtype s.pkt.com b then .success else .erange) := by
  obtain ⟨type, subtype, pkt, self, bufs, areas, bufctl, onDemand⟩ := s
  cases subtype with
  | raw =>
    have hl3 : (bufDlim.get b).setWidth 32 ≤
        (pktHeadroom.get pkt.com).setWidth 32 + (pktL2Len.get pkt.com).setWidth 32 ↔
        ¬l3Off pkt.com < (bufDlim.get b).toNat := by
      have hroom := (pktHeadroom.get pkt.com).isLt
      have hlen := (pktL2Len.get pkt.com).isLt
      rw [BitVec.le_def, BitVec.toNat_add, BitVec.toNat_setWidth_of_le (by decide),
        BitVec.toNat_setWidth_of_le (by decide), BitVec.toNat_setWidth_of_le (by decide),
        Nat.mod_eq_of_lt (by omega), Nat.not_lt, l3Off]
    have hle : l2Off pkt.com ≤ l3Off pkt.com := Nat.le_add_right _ _
    simp only [KernMeta.finalizeHeaders, rawInRange_eq, ok_bind, decide_eq_true_eq, hl3]
    by_cases hl2 : l2Off pkt.com = (bufDoff.get b).toNat ∧ l2Off pkt.com < (bufDlim.get b).toNat
    · rw [if_pos hl2]
      by_cases h : l3Off pkt.com < (bufDlim.get b).toNat
      · rw [if_neg (not_not.mpr h), if_pos ⟨hl2, hle, h⟩]
        rfl
      · rw [if_pos h, if_neg fun ht : KernTable .raw pkt.com b => h ht.2.2]
        rfl
    · rw [if_neg hl2, if_neg fun ht : KernTable .raw pkt.com b => hl2 ht.1]
      rfl
  | payload =>
    simp only [KernMeta.finalizeHeaders, payloadInRange_eq, ok_bind, decide_eq_true_eq]
    by_cases h : KernTable .payload pkt.com b
    · rw [if_pos h]
      exact if_pos h
    · rw [if_neg h]
      exact if_neg h

/-- The option checks find the option area. -/
theorem KernMeta.Admitted.finalizeOptions_eq (h : s.Admitted) (htype : s.type = .packet) :
    finalizeOptions s.pkt.pflags s.optAt =
      .ok (if NoEmptyOption s.pkt.pflags (s.areas.opt s.pkt.comOpt) then .success
        else .einval) := by
  rw [← MacKernel.Packet.finalizeOptions_eq]
  by_cases hdata : s.pkt.pflags &&& pktFOptData = 0
  · rw [finalizeOptions, finalizeOptions, if_neg (not_not.mpr hdata), if_neg (not_not.mpr hdata)]
  · rw [KernMeta.optAt, if_neg (h.optArea htype hdata)]

/-- What the checks after the loop return, on the values of a buflet. -/
def KernMeta.checksErr (s : KernMeta) (b : BufletCom) : Errno :=
  match s.type with
  | .packet =>
    if KernTable s.subtype s.pkt.com b then
      if NoEmptyOption s.pkt.pflags (s.areas.opt s.pkt.comOpt) then .success else .einval
    else .erange
  | .quantum => .success

/-- On the offset and the limit of a buflet, the checks after the loop return what `checksErr` says.
-/
theorem KernMeta.Admitted.finalizeChecks_eq (h : s.Admitted) {v : FinalizeVars} {b : BufletCom}
    (hoff : v.bdoff0 = .ok ((bufDoff.get b).setWidth 32))
    (hlim : v.bdlim0 = .ok ((bufDlim.get b).setWidth 32)) :
    s.finalizeChecks v = .ok (s.checksErr b) := by
  rw [KernMeta.finalizeChecks, KernMeta.checksErr]
  cases htype : s.type with
  | quantum => rfl
  | packet =>
    simp only [hoff, hlim, KernMeta.finalizeHeaders_eq, ok_bind]
    by_cases htable : KernTable s.subtype s.pkt.com b
    · rw [if_pos htable, if_neg (not_not.mpr rfl), h.finalizeOptions_eq htype]
      simp only [if_pos htable]
    · simp only [if_neg htable]
      rfl

/-- The checks pass exactly if a packet meets the table of header checks and has no empty option. -/
theorem KernMeta.checksErr_eq_success (s : KernMeta) (b : BufletCom) :
    s.checksErr b = .success ↔ (s.type = .packet → KernTable s.subtype s.pkt.com b ∧
      NoEmptyOption s.pkt.pflags (s.areas.opt s.pkt.comOpt)) := by
  rw [KernMeta.checksErr]
  cases s.type with
  | quantum => exact iff_of_true rfl (fun h => by cases h)
  | packet =>
    dsimp only
    split
    · next h =>
      rw [ite_success_iff (by decide)]
      exact ⟨fun hn _ => ⟨h, hn⟩, fun hn => (hn rfl).2⟩
    · next h => exact iff_of_false (by decide) fun hn => h (hn rfl).1

/-- What a call returns for a handle with a buflet. -/
def KernMeta.finalizeErr (s : KernMeta) : Errno :=
  if ∀ i < s.count, s.accepts i then s.checksErr (counted s 0) else .erange

/-- The error is that of success exactly for a packet that can be finalized. -/
theorem KernMeta.finalizeErr_eq_success (s : KernMeta) :
    s.finalizeErr = .success ↔ s.Finalizable := by
  rw [KernMeta.finalizeErr]
  split
  · next h =>
    rw [s.checksErr_eq_success]
    exact ⟨fun hc => ⟨h, fun hp => (hc hp).1, fun hp => (hc hp).2⟩,
      fun hf hp => ⟨hf.headers hp, hf.options hp⟩⟩
  · next h => exact iff_of_false (by decide) fun hf => h hf.inRange

/-- The call as its loop and the checks, which do not read what was stored before. -/
theorem KernMeta.Admitted.packetFinalize_loop (h : s.Admitted) (bdoff0 bdlim0 : Local) :
    s.packetFinalize bdoff0 bdlim0 = (do
      let (err, v) ← finalizeLoop (buflet s) s.packetGetNextBuflet s.bufPresent s.bufAccepted
        s.count ⟨0, bdoff0, bdlim0, 0⟩
      let err ← if err ≠ .success then pure err else s.finalizeChecks v
      return (err, s.setQum (finalizeDone err v.len (finalizeStart s.pkt.qum.com)))) := by
  obtain ⟨c, hc, hcount⟩ := h.packetGetBufletCount
  have hc' : (s.setQum (finalizeClear s.pkt.qum.com)).packetGetBufletCount = .ok c := hc
  rw [KernMeta.packetFinalize, kassert_of h.internalized, ok_bind]
  dsimp only
  rw [hc', ok_bind, hcount]
  rfl

/-- The exact result of a call on a handle with a buflet. -/
theorem KernMeta.Admitted.packetFinalize_eq (h : s.Admitted) (hcount : s.count ≠ 0)
    (bdoff0 bdlim0 : Local) :
    s.packetFinalize bdoff0 bdlim0 = .ok (s.finalizeErr, s.setQum (finalizeDone s.finalizeErr
      (BitVec.ofNat 32 (dataLength s s.count)) (finalizeStart s.pkt.qum.com))) := by
  rw [h.packetFinalize_loop, KernMeta.finalizeErr]
  rcases h.visits.run_start bdoff0 bdlim0 with ⟨hgood, hloop⟩ | ⟨hbad, v, hloop⟩
  · obtain ⟨n, hn⟩ := Nat.exists_eq_succ_of_ne_zero hcount
    have hchecks := h.finalizeChecks_eq (v := varsAt s bdoff0 bdlim0 s.count) (b := counted s 0)
      (by rw [hn]; rfl) (by rw [hn]; rfl)
    rw [hloop, if_pos hgood, ok_bind]
    dsimp only
    rw [if_neg (not_not.mpr rfl), hchecks, len_varsAt]
    rfl
  · rw [hloop, if_neg hbad, finalizeDone_of_error (by decide) _ v.len]
    rfl

end Kernel

section Outcome

/-- `__packet_finalize` returns zero exactly for the packets that its checks describe, and what
it returns decides what it stores. In user space every packet has a buflet, in the kernel a
packet of a pool with buffers on demand may have none. -/
theorem packetFinalize_outcome :
    (∀ (s : UserMeta) (bdoff0 bdlim0 : Local), ∃ err s',
      s.packetFinalize bdoff0 bdlim0 = .ok (err, s') ∧
      (err = .success ↔ s.Finalizable) ∧
      FinalizedQuantum (dataLength s s.packetGetBufletCount.toNat) err s.pkt.qum.com
        s'.pkt.qum.com ∧
      s.Kept s' ∧
      (err = .success → s.type = .packet → s.subtype = .raw →
        l3Off s'.pkt.com = l2Off s'.pkt.com)) ∧
    ∀ (s : KernMeta) (bdoff0 bdlim0 : Local), s.Admitted → s.count ≠ 0 → ∃ err s',
      s.packetFinalize bdoff0 bdlim0 = .ok (err, s') ∧
      (err = .success ↔ s.Finalizable) ∧
      FinalizedQuantum (dataLength s s.count) err s.pkt.qum.com s'.pkt.qum.com ∧
      s' = s.setQum s'.pkt.qum.com := by
  refine ⟨fun s bdoff0 bdlim0 => s.packetFinalize_spec bdoff0 bdlim0, ?_⟩
  intro s bdoff0 bdlim0 h hcount
  exact ⟨_, _, h.packetFinalize_eq hcount bdoff0 bdlim0, s.finalizeErr_eq_success,
    finalizedQuantum _ _ (fun _ => rfl) (dataLength_lt s s.count_lt), rfl⟩

/-- A raw kernel packet with 100 bytes behind a headroom of 16. -/
def oneBuflet : KernMeta where
  type := .packet
  subtype := .raw
  pkt :=
    { qum :=
        { md := ⟨0, 0, 0, 0⟩
          com := qumQflags.set qumFInternalized 0
          uppLink := 0, pp := 0, user := 0, ksd := 0
          buf :=
            { com := bufCtor 0x2000 0 2048 100 16 0 objIdxNone 0 0
              ctl := 0x3000 }
          pid := 0 }
      com := pktHeadroom.set 16 0
      comOpt := 0, timestamp := 0, nextpkt := 0, mbuf := 0, flow := 0, txCompl := 0
      bufsMax := 1, bufsCnt := 1, chainCount := 0, chainBytes := 0 }
  self := 0x1000
  bufs := fun _ => ⟨0, 0⟩
  areas := ⟨fun _ => 0, fun _ => 0, fun _ => 0⟩
  bufctl := fun _ => ⟨0x2000, 2048⟩
  onDemand := false

theorem oneBuflet_admitted : oneBuflet.Admitted := by
  constructor
  case internalized => decide
  case onDemand => exact fun _ => .inl (by decide)
  case chain => decide +kernel
  case buffer => decide +kernel
  case control => decide +kernel
  case optArea => exact fun _ h => absurd rfl h

/-- One buflet with 100 bytes of data: the length is theirs. -/
theorem packetFinalize_outcome_oneBuflet :
    oneBuflet.Admitted ∧ oneBuflet.Finalizable ∧ ∃ s',
      oneBuflet.packetFinalize (.error .unmapped) (.ok 7) = .ok (.success, s') ∧
      (qumLen.get s'.pkt.qum.com).toNat = 100 ∧ s' = oneBuflet.setQum s'.pkt.qum.com := by
  have hfinalizable : oneBuflet.Finalizable := by
    constructor
    case inRange => decide +kernel
    case headers => decide +kernel
    case options => decide +kernel
  have houtcome := packetFinalize_outcome.2 oneBuflet (.error .unmapped) (.ok 7)
    oneBuflet_admitted (by decide)
  obtain ⟨err, s', hrun, herr, hquantum, hframe⟩ := houtcome
  obtain rfl := herr.mpr hfinalizable
  refine ⟨oneBuflet_admitted, hfinalizable, s', hrun, ?_, hframe⟩
  rw [hquantum.len]
  decide +kernel

end Outcome

section Determined

variable {s : KernMeta}

/-- Two packets with the same contents, whatever else the memory around them holds. -/
structure SameContents (s₁ s₂ : KernMeta) : Prop where
  type : s₁.type = s₂.type
  subtype : s₁.subtype = s₂.subtype
  pkt : s₁.pkt = s₂.pkt
  options : s₁.areas.opt s₁.pkt.comOpt = s₂.areas.opt s₂.pkt.comOpt
  buflets : ∀ i < s₁.count, s₁.kbuflet (bufletAt s₁ i) = s₂.kbuflet (bufletAt s₂ i)
  bufctls : ∀ i < s₁.count, s₁.bufctl (s₁.kbuflet (bufletAt s₁ i)).ctl =
    s₂.bufctl (s₂.kbuflet (bufletAt s₂ i)).ctl

/-- The value that a call returns and the packet that it leaves. -/
def KernMeta.finalizeResult (s : KernMeta) (bdoff0 bdlim0 : Local) :
    Except Fault (Errno × KernPacket) := do
  let (err, s') ← s.packetFinalize bdoff0 bdlim0
  return (err, s'.pkt)

/-- A call returns and leaves the same for every packet with the same contents and for all
contents of its locals; a check that compares against a local that was not assigned traps for
some of them. -/
def KernMeta.Determined (s : KernMeta) : Prop :=
  ∀ s₂ : KernMeta, s₂.Admitted → SameContents s s₂ →
    ∀ bdoff₁ bdlim₁ bdoff₂ bdlim₂ : Local,
      s.finalizeResult bdoff₁ bdlim₁ = s₂.finalizeResult bdoff₂ bdlim₂

namespace SameContents

variable {s₁ s₂ : KernMeta}

/-- Packets of the same contents have as many buflets. -/
theorem count_eq (h : SameContents s₁ s₂) : s₁.count = s₂.count := by
  rw [KernMeta.count, KernMeta.count, h.type, h.pkt]

/-- Packets of the same contents count the same data in every buflet. -/
theorem counted_eq (h : SameContents s₁ s₂) {i : Nat} (hi : i < s₁.count) :
    counted s₁ i = counted s₂ i :=
  congrArg KernBuflet.com (h.buflets i hi)

/-- Packets of the same contents accept the same buflets. -/
theorem accepts_eq (h : SameContents s₁ s₂) {i : Nat} (hi : i < s₁.count) :
    s₁.accepts i = s₂.accepts i := by
  rw [KernMeta.accepts, KernMeta.accepts, h.counted_eq hi, h.bufctls i hi,
    KernMeta.pktHasAttachedMbuf, KernMeta.pktHasAttachedMbuf, h.pkt]

/-- Packets of the same contents have as much data. -/
theorem dataLength_eq (h : SameContents s₁ s₂) :
    dataLength s₁ s₁.count = dataLength s₂ s₂.count := by
  rw [dataLength, dataLength, ← h.count_eq]
  apply Finset.sum_congr rfl
  intro i hi
  rw [h.counted_eq (Finset.mem_range.mp hi)]

/-- Packets of the same contents fail the same checks. -/
theorem checksErr_eq (h : SameContents s₁ s₂) (b : BufletCom) :
    s₁.checksErr b = s₂.checksErr b := by
  rw [KernMeta.checksErr, KernMeta.checksErr, h.type, h.subtype, h.options, h.pkt]

/-- Packets of the same contents, with a buflet, are finalized with the same error. -/
theorem finalizeErr_eq (h : SameContents s₁ s₂) (hcount : s₁.count ≠ 0) :
    s₁.finalizeErr = s₂.finalizeErr := by
  have hall : (∀ i < s₁.count, s₁.accepts i) ↔ ∀ i < s₂.count, s₂.accepts i := by
    rw [← h.count_eq]
    exact forall₂_congr fun i hi => by rw [h.accepts_eq hi]
  simp only [KernMeta.finalizeErr, hall, h.counted_eq (Nat.pos_of_ne_zero hcount), h.checksErr_eq]

theorem refl (s : KernMeta) : SameContents s s := by
  constructor
  all_goals intros; rfl

end SameContents

/-- With a buflet, the locals that start without a value are stored before they are read. -/
theorem KernMeta.Admitted.finalizeResult_eq (h : s.Admitted) (hcount : s.count ≠ 0)
    (bdoff0 bdlim0 : Local) :
    s.finalizeResult bdoff0 bdlim0 = .ok (s.finalizeErr, (s.setQum (finalizeDone s.finalizeErr
      (BitVec.ofNat 32 (dataLength s s.count)) (finalizeStart s.pkt.qum.com))).pkt) := by
  rw [KernMeta.finalizeResult, h.packetFinalize_eq hcount]
  rfl

/-- Without a buflet the checks read the locals as they are. -/
theorem KernMeta.Admitted.packetFinalize_of_empty (h : s.Admitted) (hcount : s.count = 0)
    (bdoff0 bdlim0 : Local) :
    s.packetFinalize bdoff0 bdlim0 = (do
      let err ← s.finalizeChecks ⟨0, bdoff0, bdlim0, 0⟩
      return (err, s.setQum (finalizeDone err 0 (finalizeStart s.pkt.qum.com)))) := by
  rw [h.packetFinalize_loop, hcount]
  rfl

/-- Only the handle of a packet can be without a buflet. -/
theorem KernMeta.type_of_empty (hcount : s.count = 0) : s.type = .packet := by
  cases htype : s.type with
  | packet => rfl
  | quantum => simp only [KernMeta.count, htype, one_ne_zero] at hcount

/-- The packets without a buflet that are rejected before a local is read. -/
def KernMeta.Rejected (s : KernMeta) : Prop :=
  s.subtype = .payload ∧ pktHeadroom.get s.pkt.com ≠ 0

/-- A payload with headroom is out of range whatever the locals hold. -/
theorem KernMeta.Rejected.finalizeChecks_eq (h : s.Rejected) (htype : s.type = .packet)
    (v : FinalizeVars) : s.finalizeChecks v = .ok .erange := by
  simp only [KernMeta.finalizeChecks, htype, KernMeta.finalizeHeaders, h.1, payloadInRange,
    if_pos h.2]
  rfl

/-- Every other packet is checked against the locals. -/
theorem KernMeta.finalizeChecks_of_trap (h : ¬s.Rejected) (htype : s.type = .packet)
    {v : FinalizeVars} {e : Fault} (htrap : v.bdoff0 = .error e) :
    s.finalizeChecks v = .error e := by
  cases hsub : s.subtype with
  | raw =>
    simp only [KernMeta.finalizeChecks, htype, KernMeta.finalizeHeaders, hsub, rawInRange, htrap]
    rfl
  | payload =>
    have hroom : pktHeadroom.get s.pkt.com = 0 := by
      by_contra hne
      exact h ⟨hsub, hne⟩
    simp only [KernMeta.finalizeChecks, htype, KernMeta.finalizeHeaders, hsub, payloadInRange,
      htrap, hroom]
    rfl

/-- What a call does is determined by the packet exactly when the packet has a buflet, or is
rejected before a local is read. -/
theorem packetFinalize_determined_iff (h : s.Admitted) :
    s.Determined ↔
      s.count ≠ 0 ∨ (s.subtype = .payload ∧ pktHeadroom.get s.pkt.com ≠ 0) := by
  constructor
  · intro hdet
    by_contra hnot
    obtain ⟨hcount, hrej⟩ := not_or.mp hnot
    have hempty : s.count = 0 := not_not.mp hcount
    have htrap (e : Fault) : s.finalizeResult (.error e) (.ok 0) = .error e := by
      rw [KernMeta.finalizeResult, h.packetFinalize_of_empty hempty,
        KernMeta.finalizeChecks_of_trap hrej (KernMeta.type_of_empty hempty) rfl]
      rfl
    have heq := hdet s h (.refl s) (.error .unmapped) (.ok 0) (.error .nullDeref) (.ok 0)
    rw [htrap, htrap] at heq
    cases heq
  · intro hcond s₂ h₂ hsame bdoff₁ bdlim₁ bdoff₂ bdlim₂
    by_cases hcount : s.count = 0
    · have hcount₂ : s₂.count = 0 := by rw [← hsame.count_eq, hcount]
      have hrej : s.Rejected := hcond.resolve_left (not_not.mpr hcount)
      have hrej₂ : s₂.Rejected := by rwa [KernMeta.Rejected, ← hsame.subtype, ← hsame.pkt]
      rw [KernMeta.finalizeResult, KernMeta.finalizeResult, h.packetFinalize_of_empty hcount,
        h₂.packetFinalize_of_empty hcount₂,
        hrej.finalizeChecks_eq (KernMeta.type_of_empty hcount),
        hrej₂.finalizeChecks_eq (KernMeta.type_of_empty hcount₂)]
      simp only [ok_bind, KernMeta.setQum, hsame.pkt]
      rfl
    · have hcount₂ : s₂.count ≠ 0 := by rwa [← hsame.count_eq]
      rw [h.finalizeResult_eq hcount, h₂.finalizeResult_eq hcount₂, hsame.finalizeErr_eq hcount,
        hsame.dataLength_eq]
      simp only [KernMeta.setQum, hsame.pkt]

/-- With one buflet the outcome does not depend on uninitialised memory. -/
theorem packetFinalize_determined_oneBuflet : oneBuflet.Admitted ∧ oneBuflet.Determined :=
  ⟨oneBuflet_admitted, (packetFinalize_determined_iff oneBuflet_admitted).mpr (.inl (by decide))⟩

/-- A raw packet of a pool with buffers on demand, before its first buflet. -/
def noBuflet : KernMeta :=
  { oneBuflet with
    pkt := { oneBuflet.pkt with bufsCnt := 0 }
    onDemand := true }

/-- Without a buflet the outcome depends on uninitialised memory. -/
theorem noBuflet_undetermined : noBuflet.Admitted ∧ ¬noBuflet.Determined := by
  have hadmitted : noBuflet.Admitted := by
    constructor
    case internalized => decide
    case onDemand => exact fun _ => .inr rfl
    case chain => exact fun i hi => absurd hi (Nat.not_lt_zero i)
    case buffer => exact fun i hi => absurd hi (Nat.not_lt_zero i)
    case control => exact fun i hi => absurd hi (Nat.not_lt_zero i)
    case optArea => exact fun _ h => absurd rfl h
  refine ⟨hadmitted, ?_⟩
  intro hdet
  -- the locals happen to hold the headroom and a larger limit, or another offset
  have heq := hdet noBuflet hadmitted (.refl noBuflet) (.ok 16) (.ok 17) (.ok 0) (.ok 17)
  have herr := congrArg (Except.map Prod.fst) heq
  have hsuccess : (noBuflet.finalizeResult (.ok 16) (.ok 17)).map Prod.fst = .ok .success := by
    decide +kernel
  have herange : (noBuflet.finalizeResult (.ok 0) (.ok 17)).map Prod.fst = .ok .erange := by
    decide +kernel
  rw [hsuccess, herange] at herr
  cases herr

end Determined

end MacKernel.Packet
