import MacKernel.Core.Simulation
import MacKernel.Models.SinglyTailQueue.Families

/-!
# Singly-linked tail queues as lists

Every run of the macros on a family of queues keeps in each head the list that the run
prescribes, with `stqh_last` at its end. The loop of `STAILQ_REMOVE` passes no element
twice, so it takes no more passes than elements were inserted.
-/

namespace MacKernel.SinglyTailQueue

section Lists

variable {E : Type} [DecidableEq E] {l l₁ l₂ : List E} {e p x : E}

/-- The list without the element behind `p`. -/
def eraseAfter (p : E) : List E → List E
  | [] => []
  | x :: l => if x = p then x :: l.tail else x :: eraseAfter p l

/-- What follows an element of a list. -/
def dropThrough (e : E) (l : List E) : List E := (l.dropWhile (· ≠ e)).tail

/-- Nothing is removed behind an element that is not there. -/
theorem eraseAfter_of_not_mem (h : p ∉ l) : eraseAfter p l = l := by
  induction l with
  | nil => rfl
  | cons y l ih =>
    obtain ⟨hy, hl⟩ := not_or.mp (mt List.mem_cons.mpr h)
    rw [eraseAfter, if_neg (Ne.symm hy), ih hl]

/-- The element right behind the given one is removed. -/
theorem eraseAfter_append (h : p ∉ l₁) :
    eraseAfter p (l₁ ++ p :: x :: l₂) = l₁ ++ p :: l₂ := by
  induction l₁ with
  | nil => exact if_pos rfl
  | cons y l₁ ih =>
    obtain ⟨hy, hl⟩ := not_or.mp (mt List.mem_cons.mpr h)
    rw [List.cons_append, eraseAfter, if_neg (Ne.symm hy), ih hl]
    rfl

/-- A removal adds no element. -/
theorem mem_of_mem_eraseAfter (h : x ∈ eraseAfter p l) : x ∈ l := by
  induction l with
  | nil => cases h
  | cons y l ih =>
    unfold eraseAfter at h
    split at h
    · rcases List.mem_cons.mp h with rfl | h
      · exact List.mem_cons_self
      · exact List.mem_cons_of_mem y (List.mem_of_mem_tail h)
    · rcases List.mem_cons.mp h with rfl | h
      · exact List.mem_cons_self
      · exact List.mem_cons_of_mem y (ih h)

/-- Everything up to the given element is removed. -/
theorem dropThrough_append (h : e ∉ l₁) : dropThrough e (l₁ ++ e :: l₂) = l₂ := by
  have hne : ∀ x ∈ l₁, x ≠ e := fun x hx heq => h (heq ▸ hx)
  rw [dropThrough, List.dropWhile_append_of_pos (by simpa using hne)]
  simp

/-- A removal adds no element. -/
private theorem mem_of_mem_dropThrough (h : x ∈ dropThrough e l) : x ∈ l :=
  (List.dropWhile_sublist _).mem (List.mem_of_mem_tail h)

end Lists

section Operations

/-- The macros that change singly-linked tail queues. -/
inductive Op (Q E : Type) where
  | init (q : Q)
  | insertHead (q : Q) (elm : E)
  | insertTail (q : Q) (elm : E)
  | insertAfter (q : Q) (tqelm elm : E)
  | remove (q : Q) (elm : E)
  | removeHead (q : Q)
  | removeHeadUntil (q : Q) (elm : E)
  | removeAfter (q : Q) (elm : E)
  | concat (q₁ q₂ : Q)
  | swap (q₁ q₂ : Q)

variable {Q E : Type}

/-- What callers see to: heads are initialised, an element that is inserted is on no queue, and
what is removed is there. -/
def Op.Pre (lists : Lists Q E) : Op Q E → Prop
  | .init _ => True
  | .insertHead q e | .insertTail q e => (lists q).isSome ∧ ¬lists.Has e
  | .insertAfter q tqelm e => (∃ l, lists q = some l ∧ tqelm ∈ l) ∧ ¬lists.Has e
  | .remove q e | .removeHeadUntil q e => ∃ l, lists q = some l ∧ e ∈ l
  | .removeHead q => ∃ l, lists q = some l ∧ l ≠ []
  | .removeAfter q p => ∃ l, lists q = some l ∧ p ∈ l ∧ l.getLast? ≠ some p
  | .concat q₁ q₂ | .swap q₁ q₂ => (lists q₁).isSome ∧ (lists q₂).isSome

/-- The element that a macro inserts. -/
def Op.inserted : Op Q E → List E
  | .insertHead _ e | .insertTail _ e | .insertAfter _ _ e => [e]
  | _ => []

variable [DecidableEq Q] [DecidableEq E]

/-- The macros on lists. -/
def Op.apply (lists : Lists Q E) : Op Q E → Lists Q E
  | .init q => Function.update lists q (some [])
  | .insertHead q e => lists.modify q (e :: ·)
  | .insertTail q e => lists.modify q (· ++ [e])
  | .insertAfter q tqelm e => lists.modify q (MacKernel.insertAfter tqelm e)
  | .remove q e => lists.modify q (·.erase e)
  | .removeHead q => lists.modify q List.tail
  | .removeHeadUntil q e => lists.modify q (dropThrough e)
  | .removeAfter q p => lists.modify q (eraseAfter p)
  | .concat q₁ q₂ => Function.update (lists.modify q₁ (· ++ (lists q₂).getD [])) q₂ (some [])
  | .swap q₁ q₂ => Function.update (Function.update lists q₁ (lists q₂)) q₂ (lists q₁)

/-- The list model of the queues. -/
def spec (Q E : Type) [DecidableEq Q] [DecidableEq E] : Spec (Lists Q E) (Op Q E) Unit where
  pre lists op := op.Pre lists
  apply lists op := op.apply lists
  result _ _ := ()

/-- One macro. -/
def step (fuel : Nat) (s : Stailqs Q E) : Op Q E → Except Fault (Stailqs Q E × Unit)
  | .init q => return (stailqInit s q, ())
  | .insertHead q e => return (stailqInsertHead s q e, ())
  | .insertTail q e => return (stailqInsertTail s q e, ())
  | .insertAfter q tqelm e => return (stailqInsertAfter s q tqelm e, ())
  | .remove q e => return (← stailqRemove s q e fuel, ())
  | .removeHead q => return (← stailqRemoveHead s q, ())
  | .removeHeadUntil q e => return (stailqRemoveHeadUntil s q e, ())
  | .removeAfter q p => return (← stailqRemoveAfter s q p, ())
  | .concat q₁ q₂ => return (stailqConcat s q₁ q₂, ())
  | .swap q₁ q₂ => return (stailqSwap s q₁ q₂, ())

variable {s : Stailqs Q E} {lists : Lists Q E} {q : Q} {l l₁ l₂ : List E} {e : E}

/-- `STAILQ_REMOVE` takes an element out of its queue. -/
theorem Family.remove (h : Family s lists) (hl : lists q = some l) (he : e ∈ l) {fuel : Nat}
    (hfuel : l.length ≤ fuel) : ∃ s', stailqRemove s q e fuel = .ok s' ∧
      Family s' (Function.update lists q (some (l.erase e))) := by
  obtain ⟨l₁, l₂, rfl, hnot⟩ := h.chains.split hl he
  rw [List.erase_append_right _ hnot, List.erase_cons_head]
  apply h.removeAt hl
  simp only [List.length_append, List.length_cons] at hfuel
  omega

/-- Every macro refines the operation on lists. -/
theorem Family.step (h : Family s lists) {op : Op Q E} (hop : op.Pre lists) {fuel : Nat}
    (hfuel : lists.Within fuel) :
    ∃ s', SinglyTailQueue.step fuel s op = .ok (s', ()) ∧ Family s' (op.apply lists) := by
  cases op with
  | init q => exact ⟨_, rfl, h.init q⟩
  | insertHead q e =>
    obtain ⟨l, hl⟩ := Option.isSome_iff_exists.mp hop.1
    rw [Op.apply, Lists.modify_eq hl]
    exact ⟨_, rfl, h.insertHead hl hop.2⟩
  | insertTail q e =>
    obtain ⟨l, hl⟩ := Option.isSome_iff_exists.mp hop.1
    rw [Op.apply, Lists.modify_eq hl]
    exact ⟨_, rfl, h.insertTail hl hop.2⟩
  | insertAfter q tqelm e =>
    obtain ⟨⟨l, hl, hmem⟩, he⟩ := hop
    rw [Op.apply, Lists.modify_eq hl]
    exact ⟨_, rfl, h.insertAfter hl hmem he⟩
  | remove q e =>
    obtain ⟨l, hl, he⟩ := hop
    rw [Op.apply, Lists.modify_eq hl]
    exact exists_ok_pair () (h.remove hl he (h.chains.length_le hfuel hl))
  | removeHead q =>
    obtain ⟨l, hl, hne⟩ := hop
    obtain ⟨x, l, rfl⟩ := List.exists_cons_of_ne_nil hne
    rw [Op.apply, Lists.modify_eq hl]
    exact exists_ok_pair () (h.removeHead hl)
  | removeHeadUntil q e =>
    obtain ⟨l, hl, he⟩ := hop
    obtain ⟨l₁, l₂, rfl, hnot⟩ := h.chains.split hl he
    rw [Op.apply, Lists.modify_eq hl, dropThrough_append hnot]
    exact ⟨_, rfl, h.removeHeadUntil hl⟩
  | removeAfter q p =>
    obtain ⟨l, hl, hp, hlast⟩ := hop
    obtain ⟨l₁, l₂, rfl, hnot⟩ := h.chains.split hl hp
    have hne : l₂ ≠ [] := fun hnil => hlast (by simp [hnil])
    obtain ⟨x, l₂, rfl⟩ := List.exists_cons_of_ne_nil hne
    rw [Op.apply, Lists.modify_eq hl, eraseAfter_append hnot]
    exact exists_ok_pair () (h.removeAfter hl)
  | concat q₁ q₂ =>
    obtain ⟨l₁, hl₁⟩ := Option.isSome_iff_exists.mp hop.1
    obtain ⟨l₂, hl₂⟩ := Option.isSome_iff_exists.mp hop.2
    rw [Op.apply, Lists.modify_eq hl₁, hl₂]
    exact ⟨_, rfl, h.concat hl₁ hl₂⟩
  | swap q₁ q₂ =>
    obtain ⟨l₁, hl₁⟩ := Option.isSome_iff_exists.mp hop.1
    obtain ⟨l₂, hl₂⟩ := Option.isSome_iff_exists.mp hop.2
    rw [Op.apply, hl₁, hl₂]
    exact ⟨_, rfl, h.swap hl₁ hl₂⟩

/-- What is on the lists was there, or is inserted. -/
theorem Op.has_apply {op : Op Q E} (h : (op.apply lists).Has e) :
    e ∈ op.inserted ∨ lists.Has e := by
  cases op with
  | init q => exact (Lists.has_update h).imp_left fun he => absurd he List.not_mem_nil
  | insertHead q x => exact Lists.has_modify (fun l y hy => by simpa [Op.inserted] using hy) h
  | insertTail q x =>
    exact Lists.has_modify (fun l y hy => by simpa [Op.inserted, or_comm] using hy) h
  | insertAfter q p x =>
    exact Lists.has_modify (fun l y hy => by simpa [Op.inserted] using mem_of_mem_insertAfter hy) h
  | remove q x => exact Lists.has_modify (fun l y hy => .inr (List.mem_of_mem_erase hy)) h
  | removeHead q => exact Lists.has_modify (fun l y hy => .inr (List.mem_of_mem_tail hy)) h
  | removeHeadUntil q x => exact Lists.has_modify (fun l y hy => .inr (mem_of_mem_dropThrough hy)) h
  | removeAfter q x => exact Lists.has_modify (fun l y hy => .inr (mem_of_mem_eraseAfter hy)) h
  | concat q₁ q₂ =>
    rcases Lists.has_update h with he | he
    · cases he
    · refine .inr ((Lists.has_modify (a := (lists q₂).getD []) (fun l y hy => ?_) he).elim ?_ id)
      · simpa [or_comm] using hy
      · intro he
        cases hl : lists q₂ with
        | none =>
          rw [hl] at he
          cases he
        | some l =>
          rw [hl] at he
          exact ⟨q₂, l, hl, he⟩
  | swap q₁ q₂ =>
    obtain ⟨q, l, hl, he⟩ := h
    simp only [Op.apply, Function.update_apply] at hl
    split at hl
    · exact .inr ⟨q₁, l, hl, he⟩
    · split at hl
      · exact .inr ⟨q₂, l, hl, he⟩
      · exact .inr ⟨q, l, hl, he⟩

/-- A macro puts at most one more element on the lists. -/
theorem Op.within_apply {n : Nat} (h : lists.Within n) (op : Op Q E) :
    (op.apply lists).Within (n + 1) := by
  refine h.add (fun e he => op.has_apply he) ?_
  cases op <;> simp [Op.inserted]

end Operations

section Observation

variable {Q E : Type} [DecidableEq Q] [DecidableEq E]
variable {s : Stailqs Q E} {lists : Lists Q E} {q : Q} {l l₁ l₂ : List E} {e : E}

omit [DecidableEq Q] [DecidableEq E] in
/-- `STAILQ_LAST` is the last element. -/
theorem Family.last_eq (h : Family s lists) (hl : lists q = some l) :
    stailqLast s q = .ok l.getLast? := by
  rw [stailqLast, stailqEmpty, stailqFirst, h.chains.first_eq hl, h.last q l hl]
  rcases List.eq_nil_or_concat' l with rfl | ⟨l, x, rfl⟩
  · rfl
  · have hempty : ¬(l ++ [x]).head?.isNone = true := by simp
    rw [if_neg hempty, lastLink_snoc, List.getLast?_concat]

omit [DecidableEq Q] [DecidableEq E] in
/-- `STAILQ_FOREACH` visits the list. -/
theorem Family.foreach (h : Family s lists) (hl : lists q = some l) {fuel : Nat}
    (hfuel : l.length < fuel) : stailqForeach s q fuel = .ok l := by
  rw [stailqForeach, stailqFirst, h.chains.first_eq hl]
  refine loop_foreachPass ?_ hfuel
  rintro l₁ e l₂ rfl
  rw [stailqNext, h.chains.next_eq hl]
  rfl

/-- `STAILQ_FOREACH_SAFE` visits the list while its body removes some of the elements. -/
theorem Family.foreachSafe (h : Family s lists) (hl : lists q = some l) (p : E → Bool) {fuel : Nat}
    (hfuel : l.length < fuel) :
    ∃ s', stailqForeachSafe (removeIf p fun s e => stailqRemove s q e fuel) s q fuel =
        .ok (s', l) ∧
      Family s' (Function.update lists q (some (l.filter (!p ·)))) := by
  rw [stailqForeachSafe, stailqFirst, h.chains.first_eq hl]
  apply loop_foreachSafePass_removeIf p _ _ h hl hfuel
  · intro s lists l₁ e l₂ h hl
    exact congrArg Except.ok (h.chains.next_eq hl)
  · intro s lists l₁ e l₂ h hl hlen
    exact h.removeAt hl hlen

end Observation

section Refinement

variable {Q E : Type} [DecidableEq Q] [DecidableEq E]

/-- What a head in use promises. -/
structure Refines (s : Stailqs Q E) (lists : Lists Q E) (q : Q) (l : List E) : Prop where
  /-- The `stqe_next` fields lead from `stqh_first` through the list to a null pointer. -/
  forward : Chain (stailqNext s) (stailqFirst s q) l none
  /-- `stqh_last` is the address of that null pointer. -/
  last_link : s.last q = lastLink q l ∧ s.links.load (s.last q) = none
  last : stailqLast s q = .ok l.getLast?
  foreach : ∀ fuel, l.length < fuel → stailqForeach s q fuel = .ok l
  /-- The safe iteration visits every element once, whatever elements the body removes. -/
  foreachSafe : ∀ (p : E → Bool) (fuel : Nat), l.length < fuel →
    ∃ s', stailqForeachSafe (removeIf p fun s e => stailqRemove s q e fuel) s q fuel =
        .ok (s', l) ∧
      Family s' (Function.update lists q (some (l.filter (!p ·))))

/-- The queues of a family are what the macros show. -/
theorem Family.refines {s : Stailqs Q E} {lists : Lists Q E} (h : Family s lists) {q : Q}
    {l : List E} (hl : lists q = some l) : Refines s lists q l := by
  constructor
  case forward => exact h.chains.leads q l hl
  case last_link =>
    have hl' : lists q = some (l ++ []) := by rw [hl, List.append_nil]
    rw [h.last q l hl]
    exact ⟨rfl, h.chains.load_lastLink hl'⟩
  case last => exact h.last_eq hl
  case foreach => exact fun fuel hfuel => h.foreach hl hfuel
  case foreachSafe => exact fun p fuel hfuel => h.foreachSafe hl p hfuel

omit [DecidableEq Q] [DecidableEq E] in
/-- At first no head is in use. -/
theorem family_none (s : Stailqs Q E) : Family s fun _ => none where
  chains := chainFamily_none s.links
  last _ l hl := absurd hl.symm (Option.some_ne_none l)

/-- For every family of singly-linked tail queues, whatever their fields are at first, every run
of the macros returns and leaves in each head the list that the run prescribes; the loops of
`STAILQ_REMOVE` take no more passes than the run has macros. -/
theorem stailq_refines_lists_of_exec (s : Stailqs Q E) (ops : List (Op Q E))
    (hops : (spec Q E).Admissible (fun _ => none) ops) {fuel : Nat} (hfuel : ops.length ≤ fuel) :
    ∃ s', execAll (step fuel) s ops = .ok (s', (spec Q E).results (fun _ => none) ops) ∧
      ∀ q l, (spec Q E).applyAll (fun _ => none) ops q = some l →
        Refines s' ((spec Q E).applyAll (fun _ => none) ops) q l := by
  have hlen : 0 + ops.length ≤ fuel := by rwa [Nat.zero_add]
  obtain ⟨s', hexec, hs', -⟩ := execAll_refines_of_length (spec Q E)
    (fun s lists n => Family s lists ∧ lists.Within n)
    (fun ⟨h, hn⟩ hpre hlt => by
      obtain ⟨s', hs', hfam⟩ := h.step hpre (hn.mono (Nat.le_of_lt hlt))
      exact ⟨s', hs', hfam, Op.within_apply hn _⟩)
    ⟨family_none s, Lists.within_none⟩ hops hlen
  exact ⟨s', hexec, fun q l hl => hs'.refines hl⟩

/-- Elements go in at both ends and in the middle, and come out in four ways. -/
def mixedRun : List (Op Bool Nat) :=
  [.init true, .init false, .insertTail true 1, .insertHead true 2, .insertAfter true 2 3,
    .insertTail false 4, .concat true false, .swap true false, .remove false 1,
    .removeAfter false 3, .insertTail false 5, .removeHeadUntil false 2, .removeHead false]

/-- The run that removes elements by all the macros. -/
theorem stailq_refines_lists_mixed : ∃ s',
    execAll (step mixedRun.length) ⟨⟨fun _ => none, fun _ => none⟩, Link.head⟩ mixedRun =
      .ok (s', (spec Bool Nat).results (fun _ => none) mixedRun) ∧
    ∀ q l, (spec Bool Nat).applyAll (fun _ => none) mixedRun q = some l →
      Refines s' ((spec Bool Nat).applyAll (fun _ => none) mixedRun) q l := by
  refine stailq_refines_lists_of_exec ⟨⟨fun _ => none, fun _ => none⟩, Link.head⟩ mixedRun ?_
    (Nat.le_refl _)
  simp [mixedRun, Spec.Admissible, spec, Op.Pre, Op.apply, Lists.Has, Lists.modify,
    MacKernel.insertAfter, eraseAfter, dropThrough]

end Refinement

end MacKernel.SinglyTailQueue
