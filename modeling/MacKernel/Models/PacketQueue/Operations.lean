import MacKernel.Models.PacketQueue.Representation

/-!
# What the queue macros do to the lists

One lemma for each macro: the list of its queue changes as the macro says, the lists of
the other queues stay, and the loops of the macros end.
-/

namespace MacKernel.PacketQueue

section Operations

variable {Q P : Type} [DecidableEq Q] [DecidableEq P] {s s' : Pktqs Q P} {q : Q}
  {l m : List P} {p : P} {L : Lists Q P}

omit [DecidableEq P] in
/-- One queue got another list, and the others kept theirs. -/
theorem Rep.update (h : Rep s L) (hq : RepAt s' q l)
    (hothers : ∀ {q' l'}, q' ≠ q → L q' = some l' → RepAt s' q' l' ∧ l.Disjoint l') :
    Rep s' (Function.update L q (some l)) where
  repAt := by
    intro q' l' hl'
    by_cases hq' : q' = q
    · subst hq'
      rw [Function.update_self] at hl'
      exact Option.some.inj hl' ▸ hq
    · rw [Function.update_of_ne hq'] at hl'
      exact (hothers hq' hl').1
  apart := by
    intro q₁ q₂ l₁ l₂ hne h₁ h₂
    by_cases hq₁ : q₁ = q
    · subst hq₁
      rw [Function.update_self] at h₁
      rw [Function.update_of_ne hne.symm] at h₂
      exact Option.some.inj h₁ ▸ (hothers hne.symm h₂).2
    · rw [Function.update_of_ne hq₁] at h₁
      by_cases hq₂ : q₂ = q
      · subst hq₂
        rw [Function.update_self] at h₂
        exact Option.some.inj h₂ ▸ (hothers hne h₁).2.symm
      · rw [Function.update_of_ne hq₂] at h₂
        exact h.apart hne h₁ h₂

/-- `KPKTQ_INIT` starts an empty queue. -/
theorem Rep.init (h : Rep s L) (q : Q) : Rep (kpktqInit q s) (Function.update L q (some [])) :=
  h.update (RepAt.init s q) fun hq' hl' =>
    ⟨(h.repAt hl').init_of_ne hq', List.disjoint_nil_left _⟩

/-- Appending a chain of packets that are in no queue appends its list. -/
theorem Rep.append {k : Link Q P} {c : UInt32} {a : Option P} (h : Rep s L) (hl : L q = some l)
    (hm : Chain s.links.next a m none) (hfree : ∀ x ∈ m, L.Free x)
    (hk : k = lastLink q (l ++ m)) (hc : c = UInt32.ofNat m.length) :
    Rep (s.append q a k c) (Function.update L q (some (l ++ m))) := by
  have hdisj : ∀ {q' l'}, L q' = some l' → l'.Disjoint m := fun hl' x hx hxm =>
    hfree x hxm _ _ hl' hx
  apply h.update ((h.repAt hl).append hm (hdisj hl) hk hc)
  intro q' l' hq' hl'
  have hapart := h.apart (Ne.symm hq') hl hl'
  exact ⟨(h.repAt hl').append_of_ne (h.repAt hl) hq' hapart,
    List.disjoint_append_left.mpr ⟨hapart, (hdisj hl').symm⟩⟩

/-- Clearing the next pointer of a packet in no queue changes no queue. -/
theorem Rep.store_next (h : Rep s L) (hp : L.Free p) (v : Option P) :
    Rep (s.store (.next p) v) L where
  repAt hl := (h.repAt hl).store_next (hp _ _ hl) v
  apart := h.apart

/-- `KPKTQ_ENQUEUE` puts a packet at the end. -/
theorem Rep.enqueue (h : Rep s L) (hl : L q = some l) (hnext : s.next p = none)
    (hp : L.Free p) : ∃ s', kpktqEnqueue q p s = .ok s' ∧
      Rep s' (Function.update L q (some (l ++ [p]))) := by
  refine ⟨s.append q (some p) (.next p) 1, ?_, ?_⟩
  · rw [kpktqEnqueue, kassert_of hnext]
    rfl
  · refine h.append hl ⟨rfl, hnext⟩ (fun x hx => ?_) (lastLink_snoc q l p).symm rfl
    exact List.mem_singleton.mp hx ▸ hp

/-- `KPKTQ_ENQUEUE_MULTI` puts a chain at the end. -/
theorem Rep.enqueueMulti {n : P} {c : UInt32} (h : Rep s L) (hl : L q = some l)
    (hnodup : m.Nodup) (hlast : m.getLast? = some n)
    (hm : Chain s.links.next (some p) m (s.next n)) (hc : c = UInt32.ofNat m.length)
    (hfree : ∀ x ∈ m, L.Free x) :
    Rep (kpktqEnqueueMulti q p n c s) (Function.update L q (some (l ++ m))) := by
  obtain ⟨m, rfl⟩ := List.getLast?_eq_some_iff.mp hlast
  have hn : n ∉ m := fun hn => (List.nodup_append.mp hnodup).2.2 n hn n (by simp) rfl
  have hclear : Rep (s.store (.next n) none) L := h.store_next (hfree n (by simp)) none
  have hend : Chain (s.store (.next n) none).links.next (some p) (m ++ [n]) none :=
    hm.retarget hn
  refine hclear.append hl hend hfree ?_ hc
  rw [← List.append_assoc, lastLink_snoc]

omit [DecidableEq Q] [DecidableEq P] in
/-- The loop of `KPKTQ_ENQUEUE_LIST` finds the last packet of a chain and counts. -/
theorem loop_countBody {fuel : Nat} {c : UInt32} {n : P}
    (hm : Chain s.links.next (some p) m none) (hn : m.getLast? = some n)
    (hfuel : m.length ≤ fuel) :
    loop (countBody s) fuel (p, c) = .ok (n, c + UInt32.ofNat (m.length - 1)) := by
  induction m generalizing p c fuel with
  | nil => cases hm
  | cons x m ih =>
    obtain ⟨hx, hm⟩ := hm
    obtain rfl := Option.some.inj hx
    obtain ⟨fuel, rfl⟩ : ∃ f, fuel = f + 1 := Nat.exists_eq_succ_of_ne_zero (by
      simp only [List.length_cons] at hfuel
      omega)
    cases m with
    | nil =>
      obtain rfl : p = n := Option.some.inj hn
      refine loop_done fuel ?_
      simp [countBody, Pktqs.next, chain_nil.mp hm]
    | cons y m =>
      have hy : s.next p = some y := hm.1
      have hloop := ih (c := c + 1) ⟨rfl, hm.2⟩ (by simpa using hn) (by simpa using hfuel)
      have hbody : countBody s (p, c) = .ok (.inl (y, c + 1)) := by simp [countBody, hy]
      rw [loop_again fuel hbody, hloop]
      simp only [List.length_cons, Nat.add_sub_cancel, UInt32.ofNat_add, UInt32.add_assoc]
      rw [UInt32.add_comm 1]
      rfl

/-- `KPKTQ_ENQUEUE_LIST` counts a chain and puts it at the end. -/
theorem Rep.enqueueList (h : Rep s L) (hl : L q = some l)
    (hm : Chain s.links.next (some p) m none) (hfree : ∀ x ∈ m, L.Free x) :
    ∃ s', (∀ fuel, m.length ≤ fuel → kpktqEnqueueList fuel q p s = .ok s') ∧
      Rep s' (Function.update L q (some (l ++ m))) := by
  have hne : m ≠ [] := by
    rintro rfl
    cases hm
  have hn : m.getLast? = some (m.getLast hne) := List.getLast?_eq_some_getLast hne
  refine ⟨kpktqEnqueueMulti q p (m.getLast hne) (1 + UInt32.ofNat (m.length - 1)) s,
    fun fuel hfuel => ?_, ?_⟩
  · rw [kpktqEnqueueList, loop_countBody hm hn hfuel]
    rfl
  · have hcount : 1 + UInt32.ofNat (m.length - 1) = UInt32.ofNat m.length := by
      rw [UInt32.add_comm]
      change UInt32.ofNat (m.length - 1) + UInt32.ofNat 1 = _
      rw [← UInt32.ofNat_add, Nat.sub_add_cancel (List.length_pos_iff.mpr hne)]
    have hend : s.next (m.getLast hne) = none := by
      obtain ⟨m', hm'⟩ := List.getLast?_eq_some_iff.mp hn
      rw [hm'] at hm
      exact (chain_snoc.mp hm).2
    exact h.enqueueMulti hl hm.nodup hn (hend ▸ hm) hcount hfree

/-- Emptying one queue and appending to another commute. -/
theorem kpktqInit_append {q₁ q₂ : Q} (h : RepAt s q₁ l) (hne : q₁ ≠ q₂) (a : Option P)
    (k : Link Q P) (c : UInt32) :
    kpktqInit q₂ (s.append q₁ a k c) = (kpktqInit q₂ s).append q₁ a k c := by
  have hlink : s.kqLast q₁ ≠ .head q₂ := h.last ▸ lastLink_ne_head hne l
  simp only [kpktqInit, Pktqs.append, Pktqs.store, Pktqs.setLast, Pktqs.setLen,
    Function.update_of_ne hne, Function.update_comm hne, s.links.store_comm hlink]

/-- `KPKTQ_CONCAT` moves everything, and empties the queue it takes from. -/
theorem Rep.concat {q₁ q₂ : Q} {l₁ l₂ : List P} (h : Rep s L) (h₁ : L q₁ = some l₁)
    (h₂ : L q₂ = some l₂) : Rep (kpktqConcat q₁ q₂ s)
      (Function.update (Function.update L q₁ (some (l₁ ++ l₂))) q₂ (some [])) := by
  have hrep₂ := h.repAt h₂
  cases hl₂ : l₂ with
  | nil =>
    subst hl₂
    have hfirst : s.first q₂ = none := hrep₂.leads
    rw [List.append_nil, ← h₁, Function.update_eq_self, ← h₂, Function.update_eq_self]
    simp only [kpktqConcat, hfirst]
    exact h
  | cons p l₂' =>
    have hfirst : s.links.first q₂ = some p := by
      have hleads := hrep₂.leads
      rw [hl₂] at hleads
      exact hleads.1
    have hconcat : kpktqConcat q₁ q₂ s =
        kpktqInit q₂ (s.append q₁ (some p) (s.kqLast q₂) (s.kqLen q₂)) := by
      simp only [kpktqConcat, Pktqs.first, hfirst]
      rfl
    rw [hconcat, ← hl₂]
    by_cases hne : q₁ = q₂
    · subst hne
      rw [Function.update_idem]
      refine h.update (RepAt.init _ _) fun hq' hl' => ⟨?_, List.disjoint_nil_left _⟩
      exact ((h.repAt hl').append_of_ne hrep₂ hq' (h.apart hq'.symm h₂ hl')).init_of_ne hq'
    · -- empty the second queue first: its packets are then in no queue
      rw [kpktqInit_append (h.repAt h₁) hne, Function.update_comm hne]
      have hinit := h.init q₂
      refine hinit.append (by rw [Function.update_of_ne hne, h₁]) ?_ (fun x hx q' l' hl' hx' => ?_)
        ?_ hrep₂.len
      · rw [← hfirst]
        exact hrep₂.leads
      · by_cases hq' : q' = q₂
        · rw [hq', Function.update_self] at hl'
          simp [← Option.some.inj hl'] at hx'
        · rw [Function.update_of_ne hq'] at hl'
          exact h.apart hq' hl' h₂ hx' hx
      · rw [hrep₂.last]
        exact (lastLink_append q₁ q₂ l₁ (by simp [hl₂])).symm

omit [DecidableEq P] in
/-- Storing what is there changes nothing. -/
theorem Pktqs.setLast_self (s : Pktqs Q P) (q : Q) : s.setLast q (s.kqLast q) = s := by
  rw [Pktqs.setLast, Function.update_eq_self]

/-- The queue without its first packet, whose own next pointer is still set. -/
theorem RepAt.tail {k : Link Q P} (h : RepAt s q (p :: l)) (hk : k = lastLink q l) :
    RepAt (((s.setLen q (s.kqLen q - 1)).store (.head q) (s.next p)).setLast q k) q l where
  leads := by
    have hl := h.leads.2
    simpa [Links.Leads, Links.store, Pktqs.next] using hl
  last := by simp [hk]
  len := by simp [h.len]

/-- Taking packets off one queue leaves another. -/
theorem RepAt.tail_of_ne {q' : Q} {l' : List P} {k : Link Q P} {n : UInt32} {v : Option P}
    (h : RepAt s q' l') (hq' : q' ≠ q) :
    RepAt (((s.setLen q n).store (.head q) v).setLast q k) q' l' where
  leads := h.leads.store_head_of_ne hq' v
  last := by simp [hq', h.last]
  len := by simp [hq', h.len]

/-- `KPKTQ_DEQUEUE` of the only packet moves the last link back to the head. -/
theorem kpktqDequeue_only (hfirst : s.first q = some p) (hnext : s.next p = none)
    (hlen : s.kqLen q - 1 = 0) : kpktqDequeue q s =
      .ok (((s.setLen q (s.kqLen q - 1)).store (.head q) (s.next p)).setLast q (.head q),
        some p) := by
  have hnext' : (s.setLen q (s.kqLen q - 1)).next p = none := hnext
  simp only [kpktqDequeue, hfirst, hnext', hnext]
  simp [kassert_of, hlen]

/-- `KPKTQ_DEQUEUE` of a packet with another one behind it clears its next pointer. -/
theorem kpktqDequeue_more {n : P} (hfirst : s.first q = some p) (hnext : s.next p = some n) :
    kpktqDequeue q s =
      .ok (((s.setLen q (s.kqLen q - 1)).store (.head q) (s.next p)).store (.next p) none,
        some p) := by
  have hnext' : (s.setLen q (s.kqLen q - 1)).next p = some n := hnext
  simp only [kpktqDequeue, hfirst, hnext', hnext]
  rfl

/-- `KPKTQ_DEQUEUE` returns the first packet and keeps the others. -/
theorem Rep.dequeue (h : Rep s L) (hl : L q = some l) :
    ∃ s', kpktqDequeue q s = .ok (s', l.head?) ∧ Rep s' (Function.update L q (some l.tail)) := by
  have hrep := h.repAt hl
  cases l with
  | nil =>
    have hfirst : s.first q = none := hrep.leads
    refine ⟨s, by simp [kpktqDequeue, hfirst], ?_⟩
    rw [List.tail_nil, ← hl, Function.update_eq_self]
    exact h
  | cons p l =>
    have hfirst : s.first q = some p := hrep.leads.1
    cases hlc : l with
    | nil =>
      subst hlc
      refine ⟨_, kpktqDequeue_only hfirst hrep.leads.2 (by simp [hrep.len]),
        h.update (hrep.tail rfl) fun hq' hl' => ?_⟩
      exact ⟨(h.repAt hl').tail_of_ne hq', List.disjoint_nil_left _⟩
    | cons n l' =>
      have hnext : s.next p = some n := by
        have hleads := hrep.leads.2
        rw [hlc] at hleads
        exact hleads.1
      have hlast : s.kqLast q = lastLink q l :=
        hrep.last.trans (lastLink_append q q [p] (by simp [hlc]))
      have hset : ((s.setLen q (s.kqLen q - 1)).store (.head q) (s.next p)).setLast q (s.kqLast q) =
          (s.setLen q (s.kqLen q - 1)).store (.head q) (s.next p) := Pktqs.setLast_self _ q
      refine ⟨_, kpktqDequeue_more hfirst hnext, ?_⟩
      rw [← hset, List.tail_cons, ← hlc]
      have hp : p ∉ l := (List.nodup_cons.mp hrep.nodup).1
      refine h.update ((hrep.tail hlast).store_next hp none) fun hq' hl' => ?_
      obtain ⟨hp', hdisj⟩ := List.disjoint_cons_left.mp (h.apart hq'.symm hl hl')
      exact ⟨((h.repAt hl').tail_of_ne hq').store_next hp' none, hdisj⟩

omit [DecidableEq Q] in
/-- The loop of `KPKTQ_REMOVE` finds the packet before the one to remove. -/
theorem loop_findBody {fuel : Nat} {a : Option P} {pre suf : List P} {p' : P}
    (hm : Chain s.links.next a (pre ++ p' :: p :: suf) none) (hp : p ∉ pre) (hne : p' ≠ p)
    (hfuel : pre.length < fuel) : loop (findBody s p) fuel a = .ok p' := by
  obtain ⟨fuel, rfl⟩ : ∃ f, fuel = f + 1 := Nat.exists_eq_succ_of_ne_zero (by omega)
  induction pre generalizing a fuel with
  | nil =>
    obtain ⟨rfl, hnext, -⟩ := hm
    exact loop_done fuel (if_pos hnext)
  | cons x pre ih =>
    obtain ⟨rfl, hm⟩ := hm
    obtain ⟨-, hp⟩ := not_or.mp (mt List.mem_cons.mpr hp)
    have hnext : s.next x ≠ some p := by
      intro hx
      cases pre with
      | nil => exact hne (Option.some.inj (hm.1.symm.trans hx))
      | cons y pre =>
        obtain rfl := Option.some.inj (hm.1.symm.trans hx)
        exact hp (List.mem_cons_self ..)
    have hbody : findBody s p (some x) = .ok (.inl (s.next x)) := if_neg hnext
    obtain ⟨fuel, rfl⟩ : ∃ f, fuel = f + 1 := Nat.exists_eq_succ_of_ne_zero (by
      simp only [List.length_cons] at hfuel
      omega)
    rw [loop_again _ hbody]
    exact ih hm hp fuel (by simpa using hfuel)

/-- A length counts down. -/
private theorem ofNat_succ_sub_one (n : Nat) : UInt32.ofNat (n + 1) - 1 = UInt32.ofNat n := by simp

/-- The queue without a packet that is not the first one. -/
theorem RepAt.unlink {pre suf : List P} {p' : P} {k : Link Q P}
    (h : RepAt s q (pre ++ p' :: p :: suf)) (hk : k = lastLink q (pre ++ p' :: suf)) :
    RepAt ((((s.store (.next p') (s.next p)).setLast q k).setLen q (s.kqLen q - 1)).store (.next p)
      none) q (pre ++ p' :: suf) := by
  have hperm : (pre ++ p' :: p :: suf).Perm (p :: (pre ++ p' :: suf)) := by
    have hmiddle : ((pre ++ [p']) ++ p :: suf).Perm (p :: ((pre ++ [p']) ++ suf)) :=
      List.perm_middle
    simpa using hmiddle
  obtain ⟨hp, hnodup⟩ := List.nodup_cons.mp (hperm.nodup_iff.mp h.nodup)
  obtain ⟨hp', -⟩ := List.nodup_cons.mp (List.perm_middle.nodup_iff.mp hnodup)
  have hpre : p' ∉ pre := fun hx => hp' (List.mem_append_left _ hx)
  have hsuf : p' ∉ suf := fun hx => hp' (List.mem_append_right _ hx)
  refine RepAt.store_next ⟨?_, by simp [hk], ?_⟩ hp none
  · have hleads : Chain s.links.next (s.links.first q) ((pre ++ [p']) ++ p :: suf) none := by
      rw [List.append_assoc]
      exact h.leads
    obtain ⟨b, hl, rfl, hr⟩ := chain_append.mp hleads
    have hleads' := chain_append.mpr ⟨s.links.next p, hl.retarget hpre, hr.update hsuf⟩
    rw [List.append_assoc] at hleads'
    exact hleads'
  · have hlen : (pre ++ p' :: p :: suf).length = (pre ++ p' :: suf).length + 1 := hperm.length_eq
    simp only [Pktqs.kqLen_setLen, Function.update_self, h.len, hlen]
    exact ofNat_succ_sub_one _

/-- Unlinking a packet from one queue leaves another. -/
theorem RepAt.unlink_of_ne {q' : Q} {l' : List P} {p' : P} {k : Link Q P} {n : UInt32}
    {v : Option P} (h : RepAt s q' l') (hq' : q' ≠ q) (hp : p ∉ l') (hp' : p' ∉ l') :
    RepAt ((((s.store (.next p') v).setLast q k).setLen q n).store (.next p) none) q' l' := by
  refine RepAt.store_next ⟨h.leads.store_next hp' v, ?_, ?_⟩ hp none
  · simp [hq', h.last]
  · simp [hq', h.len]

omit [DecidableEq Q] [DecidableEq P] in
/-- The last link of the queue without a packet that is not the first one. -/
theorem RepAt.last_unlink {pre suf : List P} {p' : P} (h : RepAt s q (pre ++ p' :: p :: suf)) :
    (if s.next p = none then .next p' else s.kqLast q) = lastLink q (pre ++ p' :: suf) := by
  have hsuf : Chain s.links.next (s.next p) suf none := by
    obtain ⟨b, -, -, -, hr⟩ := chain_append.mp h.leads
    exact hr
  cases suf with
  | nil =>
    have hnext : s.next p = none := hsuf
    rw [if_pos hnext, lastLink_snoc]
  | cons x suf =>
    have hnext : s.next p ≠ none := by
      rw [hsuf.1]
      exact Option.some_ne_none x
    have h₁ := lastLink_append q q (pre ++ [p', p]) (List.cons_ne_nil x suf)
    have h₂ := lastLink_append q q (pre ++ [p']) (List.cons_ne_nil x suf)
    rw [List.append_assoc] at h₁ h₂
    rw [if_neg hnext, h.last]
    exact h₁.trans h₂.symm

/-- The stores of `KPKTQ_REMOVE` behind its loop, with the last link they leave. -/
theorem kpktqRemove_eq {fuel : Nat} {p' : P} (hfirst : s.first q ≠ some p)
    (hloop : loop (findBody s p) fuel (s.first q) = .ok p') : kpktqRemove fuel q p s =
      .ok ((((s.store (.next p') (s.next p)).setLast q
        (if s.next p = none then .next p' else s.kqLast q)).setLen q (s.kqLen q - 1)).store (.next p)
          none) := by
  have hself := Pktqs.setLast_self (s.store (.next p') (s.next p)) q
  simp only [kpktqRemove, if_neg hfirst, hloop, ok_bind]
  split
  · rfl
  · exact congrArg (fun t => Except.ok ((Pktqs.setLen t q (s.kqLen q - 1)).store (.next p) none))
      hself.symm

/-- `KPKTQ_REMOVE` searches for a packet and takes it off. -/
theorem Rep.remove (h : Rep s L) (hl : L q = some l) (hp : p ∈ l) :
    ∃ s', (∀ fuel, l.length ≤ fuel → kpktqRemove fuel q p s = .ok s') ∧
      Rep s' (Function.update L q (some (l.erase p))) := by
  have hrep := h.repAt hl
  by_cases hfirst : s.first q = some p
  · obtain ⟨s', hdeq, hrep'⟩ := h.dequeue hl
    have herase : l.erase p = l.tail := by
      cases l with
      | nil => rfl
      | cons x l =>
        obtain rfl : x = p := Option.some.inj (hrep.leads.1.symm.trans hfirst)
        exact List.erase_cons_head ..
    refine ⟨s', fun fuel _ => ?_, herase ▸ hrep'⟩
    simp only [kpktqRemove, if_pos hfirst, hdeq]
    rfl
  · obtain ⟨l₁, suf, rfl, hnotin⟩ := List.eq_append_cons_of_mem hp
    rcases List.eq_nil_or_concat' l₁ with rfl | ⟨pre, p', rfl⟩
    · exact absurd hrep.leads.1 hfirst
    · obtain ⟨hpre, hne⟩ : p ∉ pre ∧ p' ≠ p := by
        rw [List.mem_append, List.mem_singleton, not_or] at hnotin
        exact ⟨hnotin.1, Ne.symm hnotin.2⟩
      rw [List.append_assoc, List.singleton_append] at *
      have hloop : ∀ fuel, (pre ++ p' :: p :: suf).length ≤ fuel →
          loop (findBody s p) fuel (s.first q) = .ok p' := by
        intro fuel hfuel
        rw [List.length_append, List.length_cons] at hfuel
        exact loop_findBody hrep.leads hpre hne (by omega)
      have herase : (pre ++ p' :: p :: suf).erase p = pre ++ p' :: suf := by
        rw [List.erase_append_right _ hpre, List.erase_cons_tail (by simpa using hne),
          List.erase_cons_head]
      rw [herase]
      refine ⟨_, fun fuel hfuel => kpktqRemove_eq hfirst (hloop fuel hfuel),
        h.update (hrep.unlink hrep.last_unlink) ?_⟩
      intro q' l' hq' hl'
      have hapart := h.apart hq'.symm hl hl'
      refine ⟨(h.repAt hl').unlink_of_ne hq' (fun hx => hapart (by simp) hx)
        (fun hx => hapart (by simp) hx), fun x hx hx' => hapart ?_ hx'⟩
      simp only [List.mem_append, List.mem_cons] at hx ⊢
      tauto

end Operations

end MacKernel.PacketQueue
