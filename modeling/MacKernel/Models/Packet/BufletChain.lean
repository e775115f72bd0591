import MacKernel.Core.Chain
import MacKernel.Core.Simulation
import MacKernel.Models.Packet.Boundary
import MacKernel.Models.Packet.Buflets

/-!
# Building buflet chains

A packet whose contained buflet has no buffer uses it as the head of its chain. From
an empty chain on, every sequence of `__packet_add_buflet` calls that continue the
chain, in user space mixed with calls that are rejected, leaves a packet on which the
iteration meets exactly the added buflets.
-/

namespace MacKernel.Packet

open Buflet

section Chain

variable {S : Type} [BufletMeta S] {s₀ s : S} {added : List (BitVec 64)}

/-- The buflet that a buflet links to. -/
def nextOf (s : S) (a : BitVec 64) : Option (BitVec 64) :=
  if bufNbftAddr.get (buflet s a) = 0 then none else some (bufNbftAddr.get (buflet s a))

/-- A buflet is the last if its next address is null. -/
theorem nextOf_eq_none {a : BitVec 64} : nextOf s a = none ↔ bufNbftAddr.get (buflet s a) = 0 := by
  rw [nextOf]
  split
  · next h => exact iff_of_true rfl h
  · next h => exact iff_of_false (Option.some_ne_none _) h

/-- A buflet is followed by the one that its next address names. -/
theorem nextOf_eq_some {a b : BitVec 64} :
    nextOf s a = some b ↔ bufNbftAddr.get (buflet s a) = b ∧ b ≠ 0 := by
  rw [nextOf]
  split
  · next h =>
    refine iff_of_false (fun he => Option.some_ne_none _ he.symm) ?_
    rintro ⟨rfl, hb⟩
    exact hb h
  · next h =>
    rw [Option.some.injEq]
    exact ⟨fun he => ⟨he, he ▸ h⟩, And.left⟩

/-- Every link between two buflets of a list stores the region index of the second. -/
def IndexLinked (s : S) (l : List (BitVec 64)) : Prop :=
  ∀ front a b back, l = front ++ a :: b :: back →
    bufNbftIdx.get (buflet s a) = bufBftIdxReg.get (buflet s b)

/-- The packet is a chain of the added buflets behind the contained one, which has no buffer. -/
structure Linked (s₀ s : S) (added : List (BitVec 64)) : Prop where
  type : BufletMeta.type s = .packet
  count : (BufletMeta.bufsCnt s).toNat = added.length
  max : BufletMeta.bufsMax s = BufletMeta.bufsMax s₀
  bound : added.length ≤ (BufletMeta.bufsMax s).toNat
  self : BufletMeta.self s = BufletMeta.self s₀
  noBuffer : bufAddr.get (buflet s (BufletMeta.self s)) = 0
  chain : Chain (nextOf s) (nextOf s (BufletMeta.self s)) added none
  index : IndexLinked s (BufletMeta.self s :: added)
  nodup : (BufletMeta.self s :: added).Nodup
  nonzero : (0 : BitVec 64) ∉ added
  outside : ∀ b, b ∉ BufletMeta.self s :: added → buflet s b = buflet s₀ b

/-- A buflet that can be added: it is not in the chain and has no next link. -/
structure Fresh (s₀ : S) (added : List (BitVec 64)) (bnew : BitVec 64) : Prop where
  nonzero : bnew ≠ 0
  not_mem : bnew ∉ BufletMeta.self s₀ :: added
  unlinked : bufNbftAddr.get (buflet s₀ bnew) = 0

/-- The memory after a link. -/
theorem buflet_bufLink (s : S) {bprev bnew : BitVec 64} (hne : bnew ≠ bprev) :
    buflet (bufLink bprev bnew s) = Function.update (buflet s) bprev
      (bufNbftIdx.set (bufBftIdxReg.get (buflet s bnew))
        (bufNbftAddr.set bnew (buflet s bprev))) := by
  simp only [bufLink, BufletMeta.buflet_setBuflet, Function.update_self,
    Function.update_of_ne hne, Function.update_idem]

/-- A link leaves the other fields of every buflet. -/
theorem get_bufLink {len : Nat} {f : Field 288 len} (haddr : f.Disjoint bufNbftAddr)
    (hidx : f.Disjoint bufNbftIdx) (s : S) {bprev bnew : BitVec 64} (hne : bnew ≠ bprev)
    (a : BitVec 64) : f.get (buflet (bufLink bprev bnew s) a) = f.get (buflet s a) := by
  rw [buflet_bufLink s hne, Function.update_apply]
  split
  · next h => rw [Field.get_set_of_disjoint hidx, Field.get_set_of_disjoint haddr, h]
  · rfl

/-- The links after a link. -/
theorem nextOf_bufLink (s : S) {bprev bnew : BitVec 64} (hne : bnew ≠ bprev) (hnew : bnew ≠ 0) :
    nextOf (bufLink bprev bnew s) = Function.update (nextOf s) bprev (some bnew) := by
  funext a
  rw [Function.update_apply]
  split
  · next h =>
    rw [nextOf_eq_some, buflet_bufLink s hne, h, Function.update_self,
      Field.get_set_of_disjoint (by decide), Field.get_set_self]
    exact ⟨rfl, hnew⟩
  · next h => rw [nextOf, nextOf, buflet_bufLink s hne, Function.update_of_ne h]

/-- Linking stores the index of the new buflet in the one before. -/
theorem index_bufLink (s : S) {bprev bnew : BitVec 64} (hne : bnew ≠ bprev) (a : BitVec 64) :
    bufNbftIdx.get (buflet (bufLink bprev bnew s) a) =
      if a = bprev then bufBftIdxReg.get (buflet s bnew) else bufNbftIdx.get (buflet s a) := by
  rw [buflet_bufLink s hne, Function.update_apply]
  split
  · rw [Field.get_set_self]
  · rfl

/-- Linking a new buflet to the last one keeps the indices. -/
theorem IndexLinked.snoc {front : List (BitVec 64)} {last bnew : BitVec 64}
    (h : IndexLinked s (front ++ [last])) (hnodup : (front ++ [last]).Nodup)
    (hne : bnew ≠ last) : IndexLinked (bufLink last bnew s) (front ++ [last] ++ [bnew]) := by
  intro pre a b post heq
  have hreg : bufBftIdxReg.get (buflet (bufLink last bnew s) b) = bufBftIdxReg.get (buflet s b) :=
    get_bufLink (by decide) (by decide) s hne b
  rw [index_bufLink s hne, hreg]
  rcases List.eq_nil_or_concat' post with rfl | ⟨post, y, rfl⟩
  · -- the new link
    have hsplit : front ++ [last] ++ [bnew] = pre ++ [a] ++ [b] := by simpa using heq
    obtain ⟨hpre, hb⟩ := List.append_inj' hsplit rfl
    obtain ⟨-, ha⟩ := List.append_inj' hpre rfl
    obtain rfl : last = a := List.singleton_inj.mp ha
    obtain rfl : bnew = b := List.singleton_inj.mp hb
    rw [if_pos rfl]
  · -- an old link, which is not in the last buflet
    have hsplit : front ++ [last] ++ [bnew] = pre ++ a :: b :: post ++ [y] := by simpa using heq
    obtain ⟨hold, -⟩ := List.append_inj' hsplit rfl
    have hlast : last ∈ b :: post := by
      have hget := congrArg List.getLast? hold
      rw [List.getLast?_append_of_ne_nil _ (by simp), List.getLast?_append_of_ne_nil _ (by simp)]
        at hget
      have hmem := List.mem_of_getLast? (l := b :: post) (a := last) (by simpa using hget.symm)
      exact hmem
    have hane : a ≠ last := by
      rintro rfl
      rw [hold] at hnodup
      exact (List.nodup_cons.mp (List.nodup_append.mp hnodup).2.1).1 hlast
    rw [if_neg hane]
    exact h pre a b post hold

/-- The last buflet of a chain, or the contained one of an empty chain, and what is before it. -/
theorem exists_snoc_getLastD (a : BitVec 64) (added : List (BitVec 64)) :
    ∃ front, a :: added = front ++ [added.getLastD a] := by
  induction added generalizing a with
  | nil => exact ⟨[], rfl⟩
  | cons b added ih =>
    obtain ⟨front, hfront⟩ := ih b
    exact ⟨a :: front, by rw [List.getLastD_cons, List.cons_append, ← hfront]⟩

/-- The stores of a successful `__packet_add_buflet`: the link and the count. -/
def linkNew (bprev bnew : BitVec 64) (s : S) : S :=
  BufletMeta.setBufsCnt (BufletMeta.bufsCnt s + 1) (bufLink bprev bnew s)

section LinkNew

variable (bprev bnew : BitVec 64) (s : S)

@[simp] theorem type_linkNew : BufletMeta.type (linkNew bprev bnew s) = BufletMeta.type s := by
  simp only [linkNew, bufLink, BufletMeta.type_setBufsCnt, BufletMeta.type_setBuflet]

@[simp] theorem self_linkNew : BufletMeta.self (linkNew bprev bnew s) = BufletMeta.self s := by
  simp only [linkNew, bufLink, BufletMeta.self_setBufsCnt, BufletMeta.self_setBuflet]

@[simp] theorem bufsMax_linkNew :
    BufletMeta.bufsMax (linkNew bprev bnew s) = BufletMeta.bufsMax s := by
  simp only [linkNew, bufLink, BufletMeta.bufsMax_setBufsCnt, BufletMeta.bufsMax_setBuflet]

@[simp] theorem bufsCnt_linkNew :
    BufletMeta.bufsCnt (linkNew bprev bnew s) = BufletMeta.bufsCnt s + 1 :=
  BufletMeta.bufsCnt_setBufsCnt _ _

@[simp] theorem buflet_linkNew : buflet (linkNew bprev bnew s) = buflet (bufLink bprev bnew s) :=
  BufletMeta.buflet_setBufsCnt _ _

/-- A new buflet follows where it was linked. -/
theorem nextOf_linkNew : nextOf (linkNew bprev bnew s) = nextOf (bufLink bprev bnew s) := by
  funext a
  rw [nextOf, nextOf, buflet_linkNew]

end LinkNew

/-- A new buflet behind the last element of a chain that begins with the contained buflet. -/
theorem chain_linkNew {front : List (BitVec 64)} {last bnew a : BitVec 64}
    (h : Chain (nextOf s) (some a) (front ++ [last]) none) (hlast : last ∉ front)
    (hne : bnew ≠ last) (hnew : bnew ≠ 0) (hend : nextOf s bnew = none) :
    Chain (nextOf (linkNew last bnew s)) (some a) (front ++ [last] ++ [bnew]) none := by
  rw [nextOf_linkNew, nextOf_bufLink s hne hnew]
  refine chain_snoc.mpr ⟨h.retarget hlast, ?_⟩
  rw [Function.update_of_ne hne, hend]

/-- A buflet that can be added has no next one yet. -/
theorem Linked.nextOf_fresh (h : Linked s₀ s added) {bnew : BitVec 64}
    (hnew : Fresh s₀ added bnew) : nextOf s bnew = none := by
  have hnotin : bnew ∉ BufletMeta.self s :: added := h.self ▸ hnew.not_mem
  rw [nextOf_eq_none, h.outside bnew hnotin]
  exact hnew.unlinked

/-- The count of a chain with room for one more. -/
theorem Linked.count_succ (h : Linked s₀ s added)
    (hmax : added.length < (BufletMeta.bufsMax s₀).toNat) :
    (BufletMeta.bufsCnt s + 1).toNat = added.length + 1 := by
  have hlt := (BufletMeta.bufsMax s₀).isLt
  rw [BitVec.toNat_add, h.count]
  exact Nat.mod_eq_of_lt (by change added.length + 1 < 2 ^ 16; omega)

/-- One more buflet behind the last one. -/
theorem Linked.add (h : Linked s₀ s added) {bnew : BitVec 64} (hnew : Fresh s₀ added bnew)
    (hmax : added.length < (BufletMeta.bufsMax s₀).toNat) :
    Linked s₀ (linkNew (added.getLastD (BufletMeta.self s₀)) bnew s) (added ++ [bnew]) := by
  obtain ⟨front, hfront⟩ := exists_snoc_getLastD (BufletMeta.self s₀) added
  generalize added.getLastD (BufletMeta.self s₀) = last at hfront ⊢
  have hself := h.self
  have hnotin : bnew ∉ BufletMeta.self s :: added := hself ▸ hnew.not_mem
  have hlastmem : last ∈ BufletMeta.self s :: added := by
    rw [hself, hfront]
    exact List.mem_append_right front (List.mem_singleton_self _)
  have hne : bnew ≠ last := fun he => hnotin (he ▸ hlastmem)
  have hnodup : (front ++ [last]).Nodup := hfront ▸ hself ▸ h.nodup
  have hlast : last ∉ front := fun hmem =>
    (List.nodup_append.mp hnodup).2.2 _ hmem _ (List.mem_singleton_self _) rfl
  constructor
  case type =>
    rw [type_linkNew, h.type]
  case count =>
    rw [bufsCnt_linkNew, List.length_append, List.length_singleton]
    exact h.count_succ hmax
  case max =>
    rw [bufsMax_linkNew, h.max]
  case bound =>
    rw [bufsMax_linkNew, h.max, List.length_append, List.length_singleton]
    exact hmax
  case self =>
    rw [self_linkNew, hself]
  case noBuffer =>
    rw [self_linkNew, buflet_linkNew, get_bufLink (by decide) (by decide) s hne]
    exact h.noBuffer
  case chain =>
    -- the whole chain has the contained buflet as its first element
    have hold : Chain (nextOf s) (some (BufletMeta.self s₀)) (front ++ [last]) none := by
      rw [← hfront, ← hself]
      exact ⟨rfl, h.chain⟩
    have hall := chain_linkNew hold hlast hne hnew.nonzero (h.nextOf_fresh hnew)
    rw [← hfront] at hall
    rw [self_linkNew, hself]
    exact hall.2
  case index =>
    have hindex : IndexLinked s (front ++ [last]) := hfront ▸ hself ▸ h.index
    rw [self_linkNew, hself, ← List.cons_append, hfront]
    intro pre a b post heq
    rw [buflet_linkNew]
    exact hindex.snoc hnodup hne pre a b post heq
  case nodup =>
    rw [self_linkNew, ← List.cons_append]
    exact List.nodup_append.mpr ⟨h.nodup, List.nodup_singleton _, fun a ha b hb hab =>
      hnotin (List.mem_singleton.mp hb ▸ hab ▸ ha)⟩
  case nonzero =>
    intro hmem
    rcases List.mem_append.mp hmem with hmem | hmem
    · exact h.nonzero hmem
    · exact hnew.nonzero (List.mem_singleton.mp hmem).symm
  case outside =>
    intro b hb
    rw [self_linkNew, ← List.cons_append] at hb
    have hold : b ∉ BufletMeta.self s :: added := fun hmem => hb (List.mem_append_left _ hmem)
    have hblast : b ≠ last := fun he => hold (he ▸ hlastmem)
    rw [buflet_linkNew, buflet_bufLink s hne, Function.update_of_ne hblast]
    exact h.outside b hold

end Chain

section Iterating

variable {S : Type} [BufletMeta S] {s₀ s : S} {added : List (BitVec 64)}

/-- The address behind an optional pointer. -/
theorem bufNbftAddr_of_chain {a : BitVec 64} {l : List (BitVec 64)}
    (h : Chain (nextOf s) (nextOf s a) l none) :
    bufNbftAddr.get (buflet s a) = l.headD 0 := by
  cases l with
  | nil => exact nextOf_eq_none.mp h
  | cons b l => exact (nextOf_eq_some.mp h.1).1

/-- An iteration that starts at the first buflet and follows the links meets the chain. -/
theorem Linked.bufletsOf_eq (h : Linked s₀ s added) {next : BitVec 64 → Except Fault (BitVec 64)}
    (hfirst : next 0 = .ok (bufNbftAddr.get (buflet s (BufletMeta.self s))))
    (hnext : ∀ b ∈ added, next b = .ok (bufNbftAddr.get (buflet s b))) :
    bufletsOf next = .ok added := by
  have hbody (l : List (BitVec 64)) (b cur : BitVec 64) (hcur : next b = .ok cur) :
      bufletsBody next (l, b) =
        .ok (if cur = 0 then .inr l else .inl (l ++ [cur], cur)) := by
    simp only [bufletsBody, hcur, ok_bind]
    split <;> rfl
  have hfuel : added.length < 2 ^ 16 := h.count ▸ (BufletMeta.bufsCnt s).isLt
  have hvisits := loop_visits (s := (([], 0) : List (BitVec 64) × BitVec 64)) (bufletsBody next)
    (fun visited left st => visited ++ left = added ∧ st.1 = visited ∧ ∃ a,
      next st.2 = .ok (bufNbftAddr.get (buflet s a)) ∧ Chain (nextOf s) (nextOf s a) left none)
    (fun r => r = added) ?_ ?_ ⟨rfl, rfl, BufletMeta.self s, hfirst, h.chain⟩ hfuel
  · obtain ⟨r, hloop, rfl⟩ := hvisits
    exact hloop
  · rintro ⟨visited, b⟩ ⟨-, hvisited, a, hnexta, hchain⟩
    obtain rfl : visited = added := hvisited
    have hzero : bufNbftAddr.get (buflet s a) = 0 := bufNbftAddr_of_chain hchain
    refine ⟨visited, ?_, rfl⟩
    rw [hbody visited b _ hnexta, if_pos hzero]
  · rintro visited x left ⟨visited', b⟩ ⟨hall, hvisited, a, hnexta, hchain⟩
    obtain rfl : visited' = visited := hvisited
    have hx : bufNbftAddr.get (buflet s a) = x := bufNbftAddr_of_chain hchain
    have hmem : x ∈ added := hall ▸ List.mem_append_right visited' List.mem_cons_self
    have hx0 : x ≠ 0 := fun he => h.nonzero (he ▸ hmem)
    refine ⟨(visited' ++ [x], x), ?_, ?_, rfl, x, hnext x hmem, hchain.2⟩
    · rw [hbody visited' b _ hnexta, hx, if_neg hx0]
    · rw [← hall, List.append_assoc]
      rfl

/-- The first buflet of a chain behind the contained one. -/
theorem Linked.pktGetFirstBuflet_eq (h : Linked s₀ s added) {bcnt : BitVec 32} (hcnt : bcnt ≠ 0) :
    pktGetFirstBuflet s bcnt = bufNbftAddr.get (buflet s (BufletMeta.self s)) := by
  rw [pktGetFirstBuflet, if_neg hcnt, if_neg (not_not.mpr h.noBuffer)]

/-- The count tells whether buflets were added. -/
theorem Linked.count_eq_zero_iff (h : Linked s₀ s added) :
    BufletMeta.bufsCnt s = 0 ↔ added = [] := by
  rw [← BitVec.toNat_inj, h.count, ← List.length_eq_zero_iff]
  rfl

/-- The walk of a development kernel ends at the last buflet with nothing left to count. -/
theorem walkToLast_eq {l : List (BitVec 64)} {pbft kbft : BitVec 64}
    (h : Chain (nextOf s) (if kbft = 0 then none else some kbft) l none) :
    walkToLast s l.length pbft kbft = (0, l.getLastD pbft) := by
  induction l generalizing pbft kbft with
  | nil =>
    have hk : kbft = 0 := by
      by_contra hne
      rw [if_neg hne] at h
      cases h
    rw [List.length_nil, walkToLast, if_neg (not_not.mpr hk)]
    rfl
  | cons b l ih =>
    obtain ⟨hb, hrest⟩ := h
    by_cases hk : kbft = 0
    · rw [if_pos hk] at hb
      cases hb
    · rw [if_neg hk] at hb
      obtain rfl : kbft = b := Option.some.inj hb
      rw [List.length_cons, walkToLast, if_pos hk, List.getLastD_cons]
      exact ih hrest

end Iterating

section Calls

/-- The arguments of `__packet_add_buflet`: the packet of the handle, the buflet to continue
and the new one. -/
structure AddCall where
  addr : BitVec 64
  bprev : BitVec 64
  bnew : BitVec 64
  deriving DecidableEq, Repr

/-- A call that continues the chain: from the last buflet added, or from `NULL` for the first,
to a buflet that can be added. -/
structure AddCall.Continues {S : Type} [BufletMeta S] (s₀ : S) (added : List (BitVec 64))
    (call : AddCall) : Prop where
  addr : call.addr ≠ 0
  bprev : call.bprev = added.getLastD 0
  fresh : Fresh s₀ added call.bnew

/-- Adding buflets to a list, with some calls rejected. -/
def addSpec (pre : List (BitVec 64) → AddCall → Prop)
    (rejected : List (BitVec 64) → AddCall → Bool) : Spec (List (BitVec 64)) AddCall Errno where
  pre := pre
  apply added call := if rejected added call then added else added ++ [call.bnew]
  result added call := if rejected added call then .einval else .success

/-- The buflets of the calls that succeeded. -/
def addedBy (calls : List AddCall) (outs : List Errno) : List (BitVec 64) :=
  (calls.zip outs).filterMap fun p => if p.2 = .success then some p.1.bnew else none

/-- The list of a run is that of the calls that succeeded. -/
theorem applyAll_addSpec (pre : List (BitVec 64) → AddCall → Prop)
    (rejected : List (BitVec 64) → AddCall → Bool) (added : List (BitVec 64))
    (calls : List AddCall) :
    (addSpec pre rejected).applyAll added calls =
      added ++ addedBy calls ((addSpec pre rejected).results added calls) := by
  induction calls generalizing added with
  | nil => exact (List.append_nil added).symm
  | cons call calls ih =>
    have hstep : (addSpec pre rejected).applyAll added (call :: calls) =
      (addSpec pre rejected).applyAll ((addSpec pre rejected).apply added call) calls := rfl
    rw [hstep, ih, Spec.results, addedBy, addedBy, List.zip_cons_cons]
    by_cases hrej : rejected added call = true
    · have happly : (addSpec pre rejected).apply added call = added := if_pos hrej
      have hresult : (addSpec pre rejected).result added call = .einval := if_pos hrej
      rw [happly, hresult]
      rfl
    · have happly : (addSpec pre rejected).apply added call = added ++ [call.bnew] := if_neg hrej
      have hresult : (addSpec pre rejected).result added call = .success := if_neg hrej
      rw [happly, hresult, List.append_assoc]
      rfl

/-- Where a call that continues the chain links the new buflet. -/
theorem getLastD_self (a : BitVec 64) {added : List (BitVec 64)} (h : (0 : BitVec 64) ∉ added) :
    (if added.getLastD 0 = 0 then a else added.getLastD 0) = added.getLastD a := by
  rcases List.eq_nil_or_concat' added with rfl | ⟨l, x, rfl⟩
  · rfl
  · have hx : x ≠ 0 := fun he => h (he ▸ List.mem_append_right l (List.mem_singleton_self x))
    simp only [List.getLastD_concat, if_neg hx]

end Calls

section User

variable {s₀ s : UserMeta} {added : List (BitVec 64)} {call : AddCall}

/-- What `__packet_add_buflet` rejects in user space. -/
def AddCall.Rejected (s₀ : UserMeta) (added : List (BitVec 64)) (call : AddCall) : Prop :=
  call.addr = 0 ∨ call.bnew = 0 ∨ call.bnew = call.bprev ∨
    s₀.pkt.bufsMax.toNat ≤ added.length ∨ (call.bprev = 0 ∧ added ≠ [])

instance (s₀ : UserMeta) (added : List (BitVec 64)) (call : AddCall) :
    Decidable (call.Rejected s₀ added) :=
  inferInstanceAs (Decidable (_ ∨ _))

/-- One call of `__packet_add_buflet` in user space. -/
def UserMeta.addStep (s : UserMeta) (call : AddCall) : Except Fault (UserMeta × Errno) := do
  let (err, s) ← s.packetAddBuflet call.addr call.bprev call.bnew
  return (s, err)

/-- The calls in user space: rejected ones, and ones that continue the chain. -/
def userAddSpec (s₀ : UserMeta) : Spec (List (BitVec 64)) AddCall Errno :=
  addSpec (fun added call => call.Rejected s₀ added ∨ call.Continues s₀ added)
    fun added call => call.Rejected s₀ added

/-- The getters walk a user packet along the buflets that were added. -/
theorem Linked.user_bufletsOf (h : Linked s₀ s added) :
    bufletsOf s.packetGetNextBuflet = .ok added := by
  have htype : s.type = .packet := h.type
  refine h.bufletsOf_eq ?_ fun b hb => ?_
  · by_cases hcnt : s.pkt.bufsCnt = 0
    · rw [UserMeta.packetGetNextBuflet_of_zero htype hcnt, pktGetNextBuflet, if_pos rfl,
        h.pktGetFirstBuflet_eq (by decide)]
    · rw [UserMeta.packetGetNextBuflet_of_count htype hcnt, pktGetNextBuflet, if_pos rfl,
        h.pktGetFirstBuflet_eq (setWidth_bufsCnt_eq_zero.not.mpr hcnt)]
  · have hcnt : s.pkt.bufsCnt ≠ 0 :=
      fun he => List.ne_nil_of_mem hb (h.count_eq_zero_iff.mp he)
    have hb0 : b ≠ 0 := fun he => h.nonzero (he ▸ hb)
    rw [UserMeta.packetGetNextBuflet_of_count htype hcnt, pktGetNextBuflet, if_neg hb0]

/-- A rejected call returns `EINVAL` and changes nothing. -/
theorem Linked.user_rejected (h : Linked s₀ s added) (hrej : call.Rejected s₀ added) :
    s.packetAddBuflet call.addr call.bprev call.bnew = .ok (.einval, s) := by
  have hmax : s.pkt.bufsMax = s₀.pkt.bufsMax := h.max
  have hcount : s.pkt.bufsCnt.toNat = added.length := h.count
  rw [UserMeta.packetAddBuflet]
  by_cases hargs : call.addr = 0 ∨ call.bnew = 0 ∨ call.bnew = call.bprev
  · rw [if_pos hargs]
    rfl
  · have hstate : s.pkt.bufsMax ≤ s.pkt.bufsCnt ∨ (call.bprev = 0 ∧ s.pkt.bufsCnt ≠ 0) := by
      rcases hrej with h1 | h1 | h1 | h1 | ⟨h1, h2⟩
      · exact absurd (.inl h1) hargs
      · exact absurd (.inr (.inl h1)) hargs
      · exact absurd (.inr (.inr h1)) hargs
      · left
        rw [BitVec.le_def, hmax, hcount]
        exact h1
      · refine .inr ⟨h1, fun he => h2 (List.length_eq_zero_iff.mp ?_)⟩
        rw [← hcount, he]
        rfl
    rw [if_neg hargs]
    simp only [if_pos hstate]
    rfl

/-- A call that continues the chain and is not rejected links the new buflet. -/
theorem Linked.user_accepted (h : Linked s₀ s added) (hrej : ¬call.Rejected s₀ added)
    (hcont : call.Continues s₀ added) :
    s.packetAddBuflet call.addr call.bprev call.bnew =
      .ok (.success, linkNew (added.getLastD s₀.self) call.bnew s) := by
  have hmax : s.pkt.bufsMax = s₀.pkt.bufsMax := h.max
  have hcount : s.pkt.bufsCnt.toNat = added.length := h.count
  have hself : s.self = s₀.self := h.self
  simp only [AddCall.Rejected, not_or] at hrej
  obtain ⟨haddr, hnew, hne, hlt, hnil⟩ := hrej
  have hargs : ¬(call.addr = 0 ∨ call.bnew = 0 ∨ call.bnew = call.bprev) :=
    not_or.mpr ⟨haddr, not_or.mpr ⟨hnew, hne⟩⟩
  have hstate : ¬(s.pkt.bufsMax ≤ s.pkt.bufsCnt ∨ (call.bprev = 0 ∧ s.pkt.bufsCnt ≠ 0)) := by
    refine not_or.mpr ⟨?_, fun hboth => hnil ⟨hboth.1, fun he => hboth.2 ?_⟩⟩
    · rw [BitVec.le_def, hmax, hcount]
      exact hlt
    · apply BitVec.eq_of_toNat_eq
      rw [hcount, he]
      rfl
  have hlast : (if call.bprev = 0 then s.self else call.bprev) = added.getLastD s₀.self := by
    rw [hcont.bprev, hself]
    exact getLastD_self _ h.nonzero
  rw [UserMeta.packetAddBuflet, if_neg hargs]
  simp only [if_neg hstate, ubufLink, kassert_of hnew, ok_bind, hlast]
  rfl

/-- Adding to a user packet returns what is prescribed and keeps the chain. -/
theorem Linked.user_step (h : Linked s₀ s added) (hpre : (userAddSpec s₀).pre added call) :
    ∃ s', s.addStep call = .ok (s', (userAddSpec s₀).result added call) ∧
      Linked s₀ s' ((userAddSpec s₀).apply added call) := by
  by_cases hrej : call.Rejected s₀ added
  · have hdec : decide (call.Rejected s₀ added) = true := decide_eq_true hrej
    refine ⟨s, ?_, ?_⟩
    · rw [UserMeta.addStep, h.user_rejected hrej]
      simp only [userAddSpec, addSpec, if_pos hdec]
      rfl
    · simp only [userAddSpec, addSpec, if_pos hdec]
      exact h
  · have hdec : ¬decide (call.Rejected s₀ added) = true := fun he => hrej (of_decide_eq_true he)
    have hcont : call.Continues s₀ added := hpre.resolve_left hrej
    have hlt : added.length < s₀.pkt.bufsMax.toNat := by
      by_contra hge
      exact hrej (.inr (.inr (.inr (.inl (Nat.le_of_not_lt hge)))))
    refine ⟨linkNew (added.getLastD s₀.self) call.bnew s, ?_, ?_⟩
    · rw [UserMeta.addStep, h.user_accepted hrej hcont]
      simp only [userAddSpec, addSpec, if_neg hdec]
      rfl
    · simp only [userAddSpec, addSpec, if_neg hdec]
      exact h.add hcont.fresh hlt

/-- Whatever the state, `EINVAL` means that nothing was changed. -/
theorem UserMeta.packetAddBuflet_einval {s s' : UserMeta} {addr bprev bnew : BitVec 64}
    (h : s.packetAddBuflet addr bprev bnew = .ok (.einval, s')) : s' = s := by
  rw [UserMeta.packetAddBuflet] at h
  split at h
  · cases h
    rfl
  · dsimp only at h
    split at h
    · cases h
      rfl
    · obtain ⟨s₁, -, h⟩ := bind_eq_ok.mp h
      cases h

end User

section Kernel

variable {s₀ s : KernMeta} {added : List (BitVec 64)} {call : AddCall}

/-- A chain in the kernel: the pool has buffers on demand, and the last buflet has no index to
a next one. -/
structure KernLinked (s₀ s : KernMeta) (added : List (BitVec 64)) : Prop
    extends Linked s₀ s added where
  onDemand : s.onDemand = true
  tail : bufNbftIdx.get (buflet s (added.getLastD s₀.self)) = objIdxNone

/-- One call of `__packet_add_buflet` in the kernel. -/
def KernMeta.addStep (s : KernMeta) (call : AddCall) : Except Fault (KernMeta × Errno) := do
  let (err, s) ← s.packetAddBuflet call.addr call.bprev call.bnew
  return (s, err)

/-- What the kernel asserts of a call: it continues the chain below the limit, with a buflet
that has a region index and no index to a next one. -/
structure AddCall.Admitted (s₀ : KernMeta) (added : List (BitVec 64)) (call : AddCall) : Prop
    extends call.Continues s₀ added where
  room : added.length < s₀.pkt.bufsMax.toNat
  noIndex : bufNbftIdx.get (buflet s₀ call.bnew) = objIdxNone
  region : bufBftIdxReg.get (buflet s₀ call.bnew) ≠ objIdxNone

/-- The calls in the kernel. -/
def kernAddSpec (s₀ : KernMeta) : Spec (List (BitVec 64)) AddCall Errno :=
  addSpec (fun added call => call.Admitted s₀ added) fun _ _ => false

/-- The getters walk a kernel packet along the buflets that were added. -/
theorem KernLinked.kern_bufletsOf (h : KernLinked s₀ s added) :
    bufletsOf s.packetGetNextBuflet = .ok added := by
  have htype : s.type = .packet := h.type
  refine h.toLinked.bufletsOf_eq ?_ fun b hb => ?_
  · rw [KernMeta.packetGetNextBuflet_eq htype (.inr h.onDemand) (.inr rfl), pktGetNextBuflet,
      if_pos rfl]
    by_cases hcnt : s.pkt.bufsCnt = 0
    · -- an empty chain has no first buflet, and the contained buflet no next one
      have hempty : added = [] := h.count_eq_zero_iff.mp hcnt
      have hzero : bufNbftAddr.get (buflet s (BufletMeta.self s)) = 0 :=
        (bufNbftAddr_of_chain h.chain).trans (by rw [hempty]; rfl)
      rw [pktGetFirstBuflet, if_pos (setWidth_bufsCnt_eq_zero.mpr hcnt), hzero]
    · rw [h.pktGetFirstBuflet_eq (setWidth_bufsCnt_eq_zero.not.mpr hcnt)]
  · have hcnt : s.pkt.bufsCnt ≠ 0 :=
      fun he => List.ne_nil_of_mem hb (h.count_eq_zero_iff.mp he)
    have hb0 : b ≠ 0 := fun he => h.nonzero (he ▸ hb)
    rw [KernMeta.packetGetNextBuflet_eq htype (.inl hcnt) (.inl hcnt), pktGetNextBuflet,
      if_neg hb0]

/-- The walk of a development kernel finds the last buflet of the chain. -/
theorem KernLinked.walkToLast_first (h : KernLinked s₀ s added) :
    walkToLast s s.pkt.bufsCnt.toNat (pktGetFirstBuflet s (s.pkt.bufsCnt.setWidth 32))
      (pktGetFirstBuflet s (s.pkt.bufsCnt.setWidth 32)) = (0, added.getLastD 0) := by
  have hcount : s.pkt.bufsCnt.toNat = added.length := h.count
  rw [hcount]
  by_cases hcnt : s.pkt.bufsCnt = 0
  · have hempty : added = [] := h.count_eq_zero_iff.mp hcnt
    rw [pktGetFirstBuflet, if_pos (setWidth_bufsCnt_eq_zero.mpr hcnt), hempty]
    rfl
  · rw [h.pktGetFirstBuflet_eq (setWidth_bufsCnt_eq_zero.not.mpr hcnt), walkToLast_eq h.chain]
    cases hadded : added with
    | nil => exact absurd (h.count_eq_zero_iff.mpr hadded) hcnt
    | cons b l => rw [List.getLastD_cons, List.getLastD_cons]

/-- A kernel packet takes every buflet that its callers may add. -/
theorem KernLinked.accepted (h : KernLinked s₀ s added) (hadm : call.Admitted s₀ added) :
    s.packetAddBuflet call.addr call.bprev call.bnew =
      .ok (.success, linkNew (added.getLastD s₀.self) call.bnew s) := by
  have hself : s.self = s₀.self := h.self
  have hmax : s.pkt.bufsMax = s₀.pkt.bufsMax := h.max
  have hcount : s.pkt.bufsCnt.toNat = added.length := h.count
  have hnotin : call.bnew ∉ BufletMeta.self s :: added := h.self ▸ hadm.fresh.not_mem
  have hlast : (if call.bprev = 0 then s.self else call.bprev) = added.getLastD s₀.self := by
    rw [hadm.bprev, hself]
    exact getLastD_self _ h.nonzero
  have hprev : call.bprev ≠ 0 ∨ s.pkt.bufsCnt = 0 := by
    rcases List.eq_nil_or_concat' added with rfl | ⟨l, x, rfl⟩
    · exact .inr (BitVec.eq_of_toNat_eq hcount)
    · left
      rw [hadm.bprev, List.getLastD_concat]
      exact fun he => h.nonzero (he ▸ List.mem_append_right l (List.mem_singleton_self x))
  have hne : call.bnew ≠ call.bprev := by
    rw [hadm.bprev]
    rcases List.eq_nil_or_concat' added with rfl | ⟨l, x, rfl⟩
    · exact hadm.fresh.nonzero
    · rw [List.getLastD_concat]
      rintro rfl
      exact hnotin (List.mem_cons_of_mem _ (List.mem_append_right l (List.mem_singleton_self _)))
  have hargs : call.addr ≠ 0 ∧ call.bnew ≠ 0 ∧ call.bnew ≠ call.bprev :=
    ⟨hadm.addr, hadm.fresh.nonzero, hne⟩
  have hroom : s.pkt.bufsCnt < s.pkt.bufsMax := by
    rw [BitVec.lt_def, hcount, hmax]
    exact hadm.room
  -- the last link is empty, and the new buflet is as it was at the start
  have hend : bufNbftAddr.get (buflet s (added.getLastD s₀.self)) = 0 := by
    obtain ⟨front, hfront⟩ := exists_snoc_getLastD s₀.self added
    have hall : Chain (nextOf s) (some s₀.self) (s₀.self :: added) none := by
      refine ⟨rfl, ?_⟩
      rw [← hself]
      exact h.chain
    rw [hfront] at hall
    exact nextOf_eq_none.mp (chain_snoc.mp hall).2
  have hregion : bufBftIdxReg.get (buflet s call.bnew) ≠ objIdxNone := by
    rw [h.outside call.bnew hnotin]
    exact hadm.region
  rw [KernMeta.packetAddBuflet, kassert_of hargs, ok_bind, kassert_of h.onDemand, ok_bind]
  simp only [kassert_of (And.intro hprev hroom), ok_bind, h.walkToLast_first,
    kassert_of hadm.bprev, hlast, kbufLink, kassert_of hend,
    kassert_of h.tail, kassert_of hadm.fresh.nonzero, kassert_of hregion]
  rfl

/-- A store into a buflet leaves the pool. -/
theorem onDemand_setBuflet (a : BitVec 64) (b : BufletCom) (s : KernMeta) :
    (setBuflet a b s).onDemand = s.onDemand := by
  change (if a = s.self then _ else _ : KernMeta).onDemand = _
  split <;> rfl

/-- Linking a buflet leaves the pool. -/
theorem onDemand_linkNew (bprev bnew : BitVec 64) (s : KernMeta) :
    (linkNew bprev bnew s).onDemand = s.onDemand :=
  (onDemand_setBuflet _ _ _).trans (onDemand_setBuflet _ _ _)

/-- Adding to a kernel packet succeeds and keeps the chain. -/
theorem KernLinked.step (h : KernLinked s₀ s added) (hadm : call.Admitted s₀ added) :
    ∃ s', s.addStep call = .ok (s', (kernAddSpec s₀).result added call) ∧
      KernLinked s₀ s' ((kernAddSpec s₀).apply added call) := by
  have hnotin : call.bnew ∉ BufletMeta.self s :: added := h.self ▸ hadm.fresh.not_mem
  have hne : call.bnew ≠ added.getLastD s₀.self := by
    obtain ⟨front, hfront⟩ := exists_snoc_getLastD s₀.self added
    rintro he
    refine hadm.fresh.not_mem ?_
    change call.bnew ∈ s₀.self :: added
    rw [hfront, he]
    exact List.mem_append_right front (List.mem_singleton_self _)
  refine ⟨linkNew (added.getLastD s₀.self) call.bnew s, ?_, h.toLinked.add hadm.fresh hadm.room,
    ?_, ?_⟩
  · rw [KernMeta.addStep, h.accepted hadm]
    rfl
  · exact (onDemand_linkNew _ _ s).trans h.onDemand
  · change bufNbftIdx.get (buflet _ ((added ++ [call.bnew]).getLastD s₀.self)) = objIdxNone
    rw [List.getLastD_concat, buflet_linkNew, index_bufLink s hne, if_neg hne,
      h.outside call.bnew hnotin]
    exact hadm.noIndex

end Kernel

section Runs

/-- A packet with no buflets: the count is zero, and the contained buflet has neither a buffer
nor a next link. -/
structure EmptyChain {S : Type} [BufletMeta S] (s₀ : S) : Prop where
  type : BufletMeta.type s₀ = .packet
  count : BufletMeta.bufsCnt s₀ = 0
  noBuffer : bufAddr.get (buflet s₀ (BufletMeta.self s₀)) = 0
  unlinked : bufNbftAddr.get (buflet s₀ (BufletMeta.self s₀)) = 0

/-- A packet on which the iteration meets the added buflets: the count is their number, which
is within the limit, and every link stores the region index of the buflet it leads to. -/
structure Built {S : Type} [BufletMeta S] (s₀ s : S)
    (next : BitVec 64 → Except Fault (BitVec 64)) (added : List (BitVec 64)) : Prop where
  iterated : bufletsOf next = .ok added
  count : (BufletMeta.bufsCnt s).toNat = added.length
  bound : added.length ≤ (BufletMeta.bufsMax s₀).toNat
  index : IndexLinked s (BufletMeta.self s :: added)

/-- A packet without buflets is a chain of none. -/
theorem EmptyChain.linked {S : Type} [BufletMeta S] {s₀ : S} (h : EmptyChain s₀) :
    Linked s₀ s₀ [] where
  type := h.type
  count := by rw [h.count]; rfl
  max := rfl
  bound := Nat.zero_le _
  self := rfl
  noBuffer := h.noBuffer
  chain := nextOf_eq_none.mpr h.unlinked
  index := by
    intro front a b back heq
    have hlen := congrArg List.length heq
    simp only [List.length_cons, List.length_nil, List.length_append] at hlen
    omega
  nodup := List.nodup_singleton _
  nonzero := List.not_mem_nil
  outside := fun _ _ => rfl

/-- All buflets are added behind those that were there. -/
theorem applyAll_kernAddSpec (s₀ : KernMeta) (added : List (BitVec 64)) (calls : List AddCall) :
    (kernAddSpec s₀).applyAll added calls = added ++ calls.map AddCall.bnew := by
  induction calls generalizing added with
  | nil => exact (List.append_nil added).symm
  | cons call calls ih =>
    refine (ih (added ++ [call.bnew])).trans ?_
    rw [List.append_assoc]
    rfl

/-- Every call that the kernel's asserts admit succeeds. -/
theorem results_kernAddSpec (s₀ : KernMeta) (added : List (BitVec 64)) (calls : List AddCall) :
    (kernAddSpec s₀).results added calls = List.replicate calls.length .success := by
  induction calls generalizing added with
  | nil => rfl
  | cons call calls ih => exact congrArg (Errno.success :: ·) (ih (added ++ [call.bnew]))

/-- From an empty chain on, in user space and in the kernel, every sequence of calls that
continue the chain, in user space mixed with rejected ones, returns: the calls that continue it
succeed, the rejected ones answer `EINVAL`. It leaves a packet on which the iteration meets
exactly the buflets of the calls that succeeded, in this order. A call that returns `EINVAL`
leaves the packet and all buflets as they were. -/
theorem bufletChain_built :
    (∀ (s₀ : UserMeta) (calls : List AddCall), EmptyChain s₀ →
      (userAddSpec s₀).Admissible [] calls →
      ∃ s, execAll UserMeta.addStep s₀ calls =
          .ok (s, (userAddSpec s₀).results [] calls) ∧
        Built s₀ s s.packetGetNextBuflet
          (addedBy calls ((userAddSpec s₀).results [] calls))) ∧
    (∀ (s s' : UserMeta) (addr bprev bnew : BitVec 64),
      s.packetAddBuflet addr bprev bnew = .ok (.einval, s') → s' = s) ∧
    ∀ (s₀ : KernMeta) (calls : List AddCall), EmptyChain s₀ → s₀.onDemand = true →
      bufNbftIdx.get (buflet s₀ s₀.self) = objIdxNone →
      (kernAddSpec s₀).Admissible [] calls →
      ∃ s, execAll KernMeta.addStep s₀ calls =
          .ok (s, List.replicate calls.length .success) ∧
        Built s₀ s s.packetGetNextBuflet (calls.map AddCall.bnew) := by
  refine ⟨?_, fun s s' addr bprev bnew => UserMeta.packetAddBuflet_einval, ?_⟩
  · intro s₀ calls hempty hadm
    obtain ⟨s, hexec, hlinked⟩ := execAll_refines (userAddSpec s₀) (Linked s₀)
      (fun h hpre => h.user_step hpre) hempty.linked hadm
    have hadded : (userAddSpec s₀).applyAll [] calls =
        addedBy calls ((userAddSpec s₀).results [] calls) := applyAll_addSpec _ _ [] calls
    rw [hadded] at hlinked
    exact ⟨s, hexec, hlinked.user_bufletsOf, hlinked.count, hlinked.max ▸ hlinked.bound,
      hlinked.index⟩
  · intro s₀ calls hempty hdemand hindex hadm
    obtain ⟨s, hexec, hlinked⟩ := execAll_refines (kernAddSpec s₀) (KernLinked s₀)
      (fun h hpre => h.step hpre) ⟨hempty.linked, hdemand, hindex⟩ hadm
    rw [applyAll_kernAddSpec, List.nil_append] at hlinked
    rw [results_kernAddSpec] at hexec
    exact ⟨s, hexec, hlinked.kern_bufletsOf, hlinked.count, hlinked.max ▸ hlinked.bound,
      hlinked.index⟩

/-- A user packet with room for two buflets and none yet; all memory is zero. -/
def roomForTwo : UserMeta where
  type := .packet
  subtype := .raw
  pkt := { zeroUserPacket with bufsMax := 2 }
  self := 0x1000
  bufs := fun _ => 0

/-- Two buflets, a repetition, and a third buflet that finds no room. -/
def fourCalls : List AddCall :=
  [⟨0x800, 0, 0x2000⟩, ⟨0x800, 0x2000, 0x2000⟩, ⟨0x800, 0x2000, 0x3000⟩, ⟨0x800, 0x3000, 0x4000⟩]

/-- The two buflets are in the chain, and the two other calls are answered `EINVAL`. -/
theorem bufletChain_built_fourCalls : ∃ s,
    execAll UserMeta.addStep roomForTwo fourCalls =
      .ok (s, [.success, .einval, .success, .einval]) ∧
    Built roomForTwo s s.packetGetNextBuflet [0x2000, 0x3000] := by
  have hempty : EmptyChain roomForTwo := ⟨rfl, rfl, by decide +kernel, by decide +kernel⟩
  refine bufletChain_built.1 roomForTwo fourCalls hempty
    ⟨.inr ?_, .inl ?_, .inr ?_, .inl ?_, trivial⟩
  · exact ⟨by decide, rfl, ⟨by decide, by decide, by decide +kernel⟩⟩
  · exact .inr (.inr (.inl rfl))
  · exact ⟨by decide, rfl, ⟨by decide, by decide, by decide +kernel⟩⟩
  · exact .inr (.inr (.inr (.inl (by decide))))

end Runs

end MacKernel.Packet
