import MacKernel.Models.PacketQueue.Operations

/-!
# Runs of packet queues refine runs of lists

The macros are run beside the operations on lists that they stand for, with the
results compared at every step.
-/

namespace MacKernel.PacketQueue

section Runs

variable {Q P : Type} [DecidableEq Q] [DecidableEq P] {s : Pktqs Q P} {L : Lists Q P} {op : Op Q P}

/-- The operation ends with this result, however much fuel is left. -/
def Pktqs.Returns (s : Pktqs Q P) (op : Op Q P) (r : Pktqs Q P × Option P) : Prop :=
  ∃ bound, ∀ fuel, bound ≤ fuel → s.exec fuel op = .ok r

omit [DecidableEq Q] [DecidableEq P] in
private theorem Lists.exists_of_ne_none {q : Q} (h : L q ≠ none) : ∃ l, L q = some l :=
  Option.ne_none_iff_exists'.mp h

/-- An allowed operation returns what it returns on lists, and leaves the lists that it
leaves there. -/
theorem Rep.exec (h : Rep s L) (ha : s.Allowed L op) :
    ∃ s', s.Returns op (s', L.result op) ∧ Rep s' (L.apply op) := by
  cases op with
  | init q => exact ⟨_, ⟨0, fun _ _ => rfl⟩, h.init q⟩
  | enqueue q p =>
    obtain ⟨hq, hnext, hfree⟩ := ha
    obtain ⟨l, hl⟩ := Lists.exists_of_ne_none hq
    obtain ⟨s', hs', hrep⟩ := h.enqueue hl hnext hfree
    refine ⟨s', ⟨0, fun _ _ => ?_⟩, ?_⟩
    · simp only [Pktqs.exec, hs', ok_bind]
      rfl
    · simpa [Lists.apply, hl] using hrep
  | enqueueMulti q p n c chain =>
    obtain ⟨hq, hnodup, hlast, hchain, hc, hfree⟩ := ha
    obtain ⟨l, hl⟩ := Lists.exists_of_ne_none hq
    refine ⟨_, ⟨0, fun _ _ => rfl⟩, ?_⟩
    simpa [Lists.apply, hl] using h.enqueueMulti hl hnodup hlast hchain hc hfree
  | enqueueList q p chain =>
    obtain ⟨hq, hchain, hfree⟩ := ha
    obtain ⟨l, hl⟩ := Lists.exists_of_ne_none hq
    obtain ⟨s', hs', hrep⟩ := h.enqueueList hl hchain hfree
    refine ⟨s', ⟨chain.length, fun fuel hfuel => ?_⟩, ?_⟩
    · simp only [Pktqs.exec, hs' fuel hfuel, ok_bind]
      rfl
    · simpa [Lists.apply, hl] using hrep
  | concat q₁ q₂ =>
    obtain ⟨l₁, h₁⟩ := Lists.exists_of_ne_none ha.1
    obtain ⟨l₂, h₂⟩ := Lists.exists_of_ne_none ha.2
    refine ⟨_, ⟨0, fun _ _ => rfl⟩, ?_⟩
    simpa [Lists.apply, h₁, h₂] using h.concat h₁ h₂
  | dequeue q =>
    obtain ⟨l, hl⟩ := Lists.exists_of_ne_none ha
    obtain ⟨s', hs', hrep⟩ := h.dequeue hl
    refine ⟨s', ⟨0, fun _ _ => ?_⟩, ?_⟩
    · simpa [Pktqs.exec, Lists.result, hl] using hs'
    · simpa [Lists.apply, hl] using hrep
  | remove q p =>
    obtain ⟨l, hl, hp⟩ := ha
    obtain ⟨s', hs', hrep⟩ := h.remove hl hp
    refine ⟨s', ⟨l.length, fun fuel hfuel => ?_⟩, ?_⟩
    · simp only [Pktqs.exec, hs' fuel hfuel, ok_bind]
      rfl
    · simpa [Lists.apply, hl] using hrep

theorem Pktqs.Returns.unique {r r' : Pktqs Q P × Option P} (h : s.Returns op r)
    (h' : s.Returns op r') : r = r' := by
  obtain ⟨b, h⟩ := h
  obtain ⟨b', h'⟩ := h'
  exact Except.ok.inj ((h _ (le_max_left b b')).symm.trans (h' _ (le_max_right b b')))

/-- An allowed operation on the queues, and the same operation on the lists. -/
def Step (x : Pktqs Q P × Lists Q P) (op : Op Q P) (y : Pktqs Q P × Lists Q P) : Prop :=
  x.1.Allowed x.2 op ∧ (∃ r, x.1.Returns op (y.1, r)) ∧ y.2 = x.2.apply op

theorem Step.rep {x y : Pktqs Q P × Lists Q P} (h : Step x op y) (hx : Rep x.1 x.2) :
    Rep y.1 y.2 := by
  obtain ⟨ha, ⟨r, hr⟩, hy⟩ := h
  obtain ⟨s', hs', hrep⟩ := hx.exec ha
  have heq : y.1 = s' := congrArg Prod.fst (hr.unique hs')
  rw [heq, hy]
  exact hrep

omit [DecidableEq Q] [DecidableEq P] in
/-- Before the first `KPKTQ_INIT` no queue represents anything. -/
theorem rep_none (s : Pktqs Q P) : Rep s fun _ => none where
  repAt := by simp
  apart := by simp

/-- In every run of allowed operations, the chain of each queue is its list, the last link is
the one behind the last packet, the length is stored, and every further operation returns
what it returns on lists; `KPKTQ_CONCAT` leaves the queue it takes from empty. -/
theorem refines_lists_of_run {s₀ : Pktqs Q P} {ops : List (Op Q P)}
    (h : Run Step (s₀, fun _ => none) ops (s, L)) :
    (∀ q l, L q = some l → Chain s.links.next (s.first q) l none ∧ s.kqLast q = lastLink q l ∧
      s.kqLen q = UInt32.ofNat l.length) ∧
    (∀ op, s.Allowed L op → ∃ s', s.Returns op (s', L.result op)) ∧
    ∀ q₁ q₂ r, s.Allowed L (.concat q₁ q₂) → s.Returns (.concat q₁ q₂) r → r.1.first q₂ = none := by
  have hrep : Rep s L := h.invariant (fun x => Rep x.1 x.2) (fun hx hstep => hstep.rep hx)
    (rep_none s₀)
  refine ⟨?_, ?_, ?_⟩
  · intro q l hl
    have hq := hrep.repAt hl
    exact ⟨hq.leads, hq.last, hq.len⟩
  · intro op ha
    obtain ⟨s', hs', -⟩ := hrep.exec ha
    exact ⟨s', hs'⟩
  · intro q₁ q₂ r ha hr
    obtain ⟨s', hs', hrep'⟩ := hrep.exec ha
    have hempty : L.apply (.concat q₁ q₂) q₂ = some [] := Function.update_self ..
    rw [hr.unique hs']
    exact (hrep'.repAt hempty).leads

/-- Two queues and three packets. -/
def noPackets : Pktqs Bool (Fin 3) where
  links := ⟨fun _ => none, fun _ => none⟩
  kqLast q := .head q
  kqLen _ := 0

/-- The packets of one queue go behind the packet of the other, and one is taken out. -/
theorem refines_lists_concat : ∃ (s : Pktqs Bool (Fin 3)) (L : Lists Bool (Fin 3)),
    Run Step (noPackets, fun _ => none) [.init false, .init true, .enqueue false 0,
      .enqueue true 1, .enqueue true 2, .concat false true, .remove false 1] (s, L) ∧
      Chain s.links.next (s.first false) [0, 2] none ∧ s.kqLast false = .next 2 ∧
      s.kqLen false = 2 ∧ s.first true = none ∧
      ∃ s', s.Returns (.dequeue false) (s', some 0) := by
  have hfree : ∀ (L : Lists Bool (Fin 3)) p, (∀ q, p ∉ (L q).getD []) → L.Free p := by
    intro L p h q l hl
    have hq := h q
    rwa [hl] at hq
  have hnil : Run Step (noPackets, fun _ => none) [] (noPackets, fun _ => none) := .nil
  have hfirst := hnil.snoc (show Step _ (.init false) (_, _) from
    ⟨trivial, ⟨none, 0, fun _ _ => rfl⟩, rfl⟩)
  have hinit := hfirst.snoc (show Step _ (.init true) (_, _) from
    ⟨trivial, ⟨none, 0, fun _ _ => rfl⟩, rfl⟩)
  have hzero := hinit.snoc (show Step _ (.enqueue false 0) (_, _) from
    ⟨⟨by decide, rfl, hfree _ _ (by decide)⟩, ⟨none, 0, fun _ _ => rfl⟩, rfl⟩)
  have hone := hzero.snoc (show Step _ (.enqueue true 1) (_, _) from
    ⟨⟨by decide, rfl, hfree _ _ (by decide)⟩, ⟨none, 0, fun _ _ => rfl⟩, rfl⟩)
  have htwo := hone.snoc (show Step _ (.enqueue true 2) (_, _) from
    ⟨⟨by decide, rfl, hfree _ _ (by decide)⟩, ⟨none, 0, fun _ _ => rfl⟩, rfl⟩)
  -- the queues are initialised, so from here on the theorem gives the next state
  obtain ⟨s₁, hs₁⟩ := (refines_lists_of_run htwo).2.1 (.concat false true)
    ⟨Option.some_ne_none [0], Option.some_ne_none [1, 2]⟩
  have hconcat := htwo.snoc (show Step _ (.concat false true) (_, _) from
    ⟨⟨Option.some_ne_none [0], Option.some_ne_none [1, 2]⟩, ⟨_, hs₁⟩, rfl⟩)
  obtain ⟨s₂, hs₂⟩ := (refines_lists_of_run hconcat).2.1 (.remove false 1)
    ⟨[0, 1, 2], rfl, by decide⟩
  have hrun := hconcat.snoc (show Step _ (.remove false 1) (_, _) from
    ⟨⟨[0, 1, 2], rfl, by decide⟩, ⟨_, hs₂⟩, rfl⟩)
  obtain ⟨hlist, hreturns, -⟩ := refines_lists_of_run hrun
  obtain ⟨hchain, hlast, hlen⟩ := hlist false [0, 2] rfl
  obtain ⟨hempty, -⟩ := hlist true [] rfl
  exact ⟨_, _, hrun, hchain, hlast, hlen, hempty,
    hreturns (.dequeue false) (Option.some_ne_none [0, 2])⟩
/-- One queue and one packet. -/
def onePacket : Pktqs Unit Unit where
  links := ⟨fun _ => none, fun _ => none⟩
  kqLast _ := .head ()
  kqLen _ := 0

/-- A packet without a next pointer may be the last one of a queue; enqueued again, it is
linked to itself, and the chain of the queue does not end. -/
theorem enqueued_twice_not_list : ∃ s s' : Pktqs Unit Unit,
    kpktqEnqueue () () (kpktqInit () onePacket) = .ok s ∧ kpktqEnqueue () () s = .ok s' ∧
      ∀ l, ¬Chain s'.links.next (s'.first ()) l none := by
  have hloop : ∀ l, ¬Chain (fun _ : Unit => some ()) (some ()) l none := by
    intro l
    induction l with
    | nil => simp
    | cons p l ih => exact fun h => ih h.2
  exact ⟨_, _, rfl, rfl, hloop⟩

end Runs

end MacKernel.PacketQueue
