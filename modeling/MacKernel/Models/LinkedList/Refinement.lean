import MacKernel.Models.LinkedList.Native
import MacKernel.Models.TailQueue.Refinement

/-!
# Lists are tail queues that have forgotten their ends

A list macro stores what the tail queue macro of the same name stores, except for
`tqh_last`. The heads of a run of list macros are followed by tail queues that have
this field beside them, and what the tail queues keep is read off for the lists.
-/

namespace MacKernel.LinkedList

open TailQueue (tailqInit tailqInsertHead tailqInsertAfter tailqInsertBefore tailqRemove
  tailqSwap)

section Forgetting

variable {Q E : Type}

/-- The fields that lists have. -/
def forget (t : TailQueue.Links Q E) : ListLinks Q E := ⟨t.next, fun e => t.prev (.entry e)⟩

/-- Tail queues with these fields. -/
def remember (m : ListLinks Q E) : TailQueue.Links Q E where
  next := m.next
  prev
    | .entry e => m.prev e
    | .head _ => none

/-- Links that are remembered for heads are forgotten again. -/
theorem forget_remember (m : ListLinks Q E) : forget (remember m) = m := rfl

variable [DecidableEq Q] [DecidableEq E] (t : TailQueue.Links Q E)

@[simp] theorem forget_setNext (x : Node Q E) (v : Option E) :
    forget (t.setNext x v) = (forget t).setNext x v := rfl

/-- A back link of an element is kept. -/
@[simp] theorem forget_setPrev_entry (e : E) (v : Option (Node Q E)) :
    forget (t.setPrev (.entry e) v) = (forget t).setPrev e v := by
  have hprev : (fun x => Function.update t.prev (.entry e) v (.entry x)) =
      Function.update (fun x => t.prev (.entry x)) e v := by
    funext x
    simp only [Function.update_apply, Node.entry.injEq]
  exact congrArg (ListLinks.mk t.next) hprev

/-- A back link of a head is forgotten. -/
@[simp] theorem forget_setPrev_head (q : Q) (v : Option (Node Q E)) :
    forget (t.setPrev (.head q) v) = forget t := by
  have hprev : (fun x => Function.update t.prev (.head q) v (.entry x)) =
      fun x => t.prev (.entry x) := by
    funext x
    exact Function.update_of_ne (by simp) ..
  exact congrArg (ListLinks.mk t.next) hprev

/-- Of the two places of a back link only the element is kept. -/
@[simp] theorem forget_setPrevOf (q : Q) (elm : Option E) (slot : Option (Node Q E)) :
    forget (TailQueue.setPrevOf t q elm slot) = (forget t).setPrevOf elm slot := by
  cases elm with
  | none => exact forget_setPrev_head t q slot
  | some e => exact forget_setPrev_entry t e slot

/-- An insertion behind a slot, with heads that do not look back. -/
theorem forget_insertBehind (q : Q) (slot : Node Q E) (elm : E) :
    forget (TailQueue.insertBehind t q slot elm) = insertBehind (forget t) slot elm := by
  have hslot : (t.setNext (.entry elm) (t.next slot)).next (.entry elm) =
      (t.setNext (.entry elm) (t.next slot)).next slot := by
    by_cases hs : slot = .entry elm
    · rw [hs]
    · rw [TailQueue.setNext_next_self, TailQueue.setNext_next_of_ne hs]
  simp only [TailQueue.insertBehind, forget_setPrev_entry, forget_setNext, forget_setPrevOf, hslot]
  rfl

omit [DecidableEq Q] [DecidableEq E] in
@[simp] theorem prev_forget (e : E) : (forget t).prev e = t.prev (.entry e) := rfl

omit [DecidableEq Q] [DecidableEq E] in
@[simp] theorem next_forget (x : Node Q E) : (forget t).next x = t.next x := rfl

/-- `LIST_INSERT_BEFORE` is `TAILQ_INSERT_BEFORE` without the head. -/
theorem forget_insertBefore (listelm elm : E) :
    (tailqInsertBefore t listelm elm).map forget = listInsertBefore (forget t) listelm elm := by
  rw [listInsertBefore, prev_forget, ← forget_setPrev_entry, ← forget_setNext, prev_forget]
  unfold tailqInsertBefore TailQueue.storeThrough
  simp only
  cases ((t.setPrev (.entry elm) (t.prev (.entry listelm))).setNext (.entry elm)
    (some listelm)).prev (.entry listelm) with
  | none => rfl
  | some slot => exact congrArg Except.ok (forget_setPrev_entry _ listelm _)

/-- `LIST_REMOVE` is `TAILQ_REMOVE` without the head. -/
theorem forget_remove (q : Q) (elm : E) :
    (tailqRemove t q elm).map forget = listRemove (forget t) elm := by
  rw [listRemove, next_forget, prev_forget, ← forget_setPrevOf t q, prev_forget, next_forget]
  unfold tailqRemove TailQueue.storeThrough
  simp only
  cases (TailQueue.setPrevOf t q (t.next (.entry elm)) (t.prev (.entry elm))).prev
    (.entry elm) with
  | none => rfl
  | some slot => rfl

/-- A back link leaves the pointers. -/
theorem next_setPrevOf (q : Q) (elm : Option E) (slot : Option (Node Q E)) :
    (TailQueue.setPrevOf t q elm slot).next = t.next := by
  cases elm with
  | none => rfl
  | some e => rfl

/-- `LIST_SWAP` is `TAILQ_SWAP` without the heads. -/
theorem forget_swap (q₁ q₂ : Q) : forget (tailqSwap t q₁ q₂) = listSwap (forget t) q₁ q₂ := by
  simp only [tailqSwap, next_setPrevOf, forget_setPrevOf]
  simp only [listSwap, listFirst, ← forget_setPrevOf _ q₁, next_forget, next_setPrevOf,
    ← forget_setNext]
  simp only [forget_setPrevOf, TailQueue.setPrev_next, forget_setPrev_head, forget_setNext]
  rfl

end Forgetting

section Operations

/-- The macros that change lists. -/
inductive Op (Q E : Type) where
  | init (q : Q)
  | insertHead (q : Q) (elm : E)
  | insertBefore (listelm elm : E)
  | insertAfter (listelm elm : E)
  | remove (elm : E)
  | swap (q₁ q₂ : Q)

variable {Q E : Type}

/-- What callers see to: heads are initialised, an element that is inserted is on no list, and
what is removed is on one. -/
def Op.Pre (lists : Lists Q E) : Op Q E → Prop
  | .init _ => True
  | .insertHead q e => (lists q).isSome ∧ ¬lists.Has e
  | .insertBefore listelm e | .insertAfter listelm e => lists.Has listelm ∧ ¬lists.Has e
  | .remove e => lists.Has e
  | .swap q₁ q₂ => (lists q₁).isSome ∧ (lists q₂).isSome

variable [DecidableEq Q] [DecidableEq E]

/-- The macros on lists. -/
def Op.apply (lists : Lists Q E) : Op Q E → Lists Q E
  | .init q => Function.update lists q (some [])
  | .insertHead q e => lists.modify q (e :: ·)
  | .insertBefore listelm e => fun q => (lists q).map (MacKernel.insertBefore listelm e)
  | .insertAfter listelm e => fun q => (lists q).map (MacKernel.insertAfter listelm e)
  | .remove e => lists.erase e
  | .swap q₁ q₂ => Function.update (Function.update lists q₁ (lists q₂)) q₂ (lists q₁)

/-- The list model of the lists. -/
def spec (Q E : Type) [DecidableEq Q] [DecidableEq E] : Spec (Lists Q E) (Op Q E) Unit where
  pre lists op := op.Pre lists
  apply lists op := op.apply lists
  result _ _ := ()

/-- One macro. -/
def step (m : ListLinks Q E) : Op Q E → Except Fault (ListLinks Q E × Unit)
  | .init q => return (listInit m q, ())
  | .insertHead q e => return (listInsertHead m q e, ())
  | .insertBefore listelm e => return (← listInsertBefore m listelm e, ())
  | .insertAfter listelm e => return (listInsertAfter m listelm e, ())
  | .remove e => return (← listRemove m e, ())
  | .swap q₁ q₂ => return (listSwap m q₁ q₂, ())

/-- The fields are those of a family of tail queues. -/
def Family (m : ListLinks Q E) (lists : Lists Q E) : Prop :=
  ∃ t, forget t = m ∧ TailQueue.Family t lists

variable {m : ListLinks Q E} {lists : Lists Q E} {q : Q} {l l₁ l₂ : List E} {e : E}

omit [DecidableEq Q] [DecidableEq E] in
/-- `LIST_NEXT` is the following element. -/
theorem Family.next_eq (h : Family m lists) (hl : lists q = some (l₁ ++ e :: l₂)) :
    listNext m e = l₂.head? := by
  obtain ⟨t, rfl, ht⟩ := h
  exact ht.next_eq hl

omit [DecidableEq Q] [DecidableEq E] in
/-- `LIST_FIRST` is the first element. -/
theorem Family.first_eq (h : Family m lists) (hl : lists q = some l) :
    listFirst m q = l.head? := by
  obtain ⟨t, rfl, ht⟩ := h
  exact TailQueue.next_eq (ht.ring q l hl).path

/-- `LIST_REMOVE` takes an element out of its list. -/
theorem Family.removeAt (h : Family m lists) (hl : lists q = some (l₁ ++ e :: l₂)) :
    ∃ m', listRemove m e = .ok m' ∧ Family m' (Function.update lists q (some (l₁ ++ l₂))) := by
  obtain ⟨t, rfl, ht⟩ := h
  obtain ⟨t', hremove, ht'⟩ := ht.removeAt hl
  refine ⟨forget t', ?_, t', rfl, ht'⟩
  rw [← forget_remove t q, hremove]
  rfl

/-- Every macro refines the operation on lists. -/
theorem Family.step (h : Family m lists) {op : Op Q E} (hop : op.Pre lists) :
    ∃ m', LinkedList.step m op = .ok (m', ()) ∧ Family m' (op.apply lists) := by
  cases op with
  | init q =>
    obtain ⟨t, rfl, ht⟩ := h
    exact ⟨_, rfl, tailqInit t q, forget_setPrev_head _ q _, ht.init q⟩
  | insertHead q e =>
    obtain ⟨t, rfl, ht⟩ := h
    obtain ⟨l, hl⟩ := Option.isSome_iff_exists.mp hop.1
    rw [Op.apply, Lists.modify_eq hl]
    exact ⟨_, rfl, tailqInsertHead t q e, forget_insertBehind t q _ e, ht.insertHead hl hop.2⟩
  | insertBefore listelm e =>
    obtain ⟨t, rfl, ht⟩ := h
    obtain ⟨⟨q, l, hl, hmem⟩, he⟩ := hop
    rw [Op.apply, ht.map_eq_update hl hmem fun l' hl' => insertBefore_of_not_mem hl']
    obtain ⟨t', hinsert, ht'⟩ := ht.insertBefore hl hmem he
    refine exists_ok_pair () ⟨forget t', ?_, t', rfl, ht'⟩
    rw [← forget_insertBefore, hinsert]
    rfl
  | insertAfter listelm e =>
    obtain ⟨t, rfl, ht⟩ := h
    obtain ⟨⟨q, l, hl, hmem⟩, he⟩ := hop
    rw [Op.apply, ht.map_eq_update hl hmem fun l' hl' => insertAfter_of_not_mem hl']
    exact ⟨_, rfl, tailqInsertAfter t q listelm e, forget_insertBehind t q _ e,
      ht.insertAfter hl hmem he⟩
  | remove e =>
    obtain ⟨q, l, hl, he⟩ := hop
    have hlists : lists.erase e = Function.update lists q (some (l.erase e)) := by
      obtain ⟨t, -, ht⟩ := h
      exact ht.erase_eq_update hl he
    obtain ⟨l₁, l₂, rfl, herase⟩ : ∃ l₁ l₂, l = l₁ ++ e :: l₂ ∧ l.erase e = l₁ ++ l₂ := by
      obtain ⟨t, -, ht⟩ := h
      obtain ⟨l₁, l₂, hparts, -, herase⟩ := ht.split hl he
      exact ⟨l₁, l₂, hparts, herase⟩
    rw [Op.apply, hlists, herase]
    exact exists_ok_pair () (h.removeAt hl)
  | swap q₁ q₂ =>
    obtain ⟨t, rfl, ht⟩ := h
    obtain ⟨l₁, hl₁⟩ := Option.isSome_iff_exists.mp hop.1
    obtain ⟨l₂, hl₂⟩ := Option.isSome_iff_exists.mp hop.2
    rw [Op.apply, hl₁, hl₂]
    exact ⟨_, rfl, tailqSwap t q₁ q₂, forget_swap t q₁ q₂, ht.swap hl₁ hl₂⟩

end Operations

section Refinement

variable {Q E : Type} [DecidableEq Q] [DecidableEq E]

/-- What a head in use promises. -/
structure Refines (m : ListLinks Q E) (lists : Lists Q E) (q : Q) (l : List E) : Prop where
  /-- The `le_next` fields lead from `lh_first` through the list to a null pointer. -/
  forward : Chain (listNext m) (listFirst m q) l none
  /-- Every `le_prev` names the pointer of its list that points at the element. -/
  prev_slot : ∀ e ∈ l, ∃ slot ∈ .head q :: l.map .entry,
    m.prev e = some slot ∧ m.next slot = some e
  empty : listEmpty m q = l.isEmpty
  foreach : ∀ fuel, l.length < fuel → listForeach m q fuel = .ok l
  /-- The safe iteration visits every element once, whatever elements the body removes. -/
  foreachSafe : ∀ (p : E → Bool) (fuel : Nat), l.length < fuel →
    ∃ m', listForeachSafe (removeIf p listRemove) m q fuel = .ok (m', l) ∧
      Family m' (Function.update lists q (some (l.filter (!p ·))))

/-- The lists of a family are what the macros show. -/
theorem Family.refines {m : ListLinks Q E} {lists : Lists Q E} (h : Family m lists) {q : Q}
    {l : List E} (hl : lists q = some l) : Refines m lists q l := by
  constructor
  case forward =>
    obtain ⟨t, rfl, ht⟩ := h
    exact (ht.refines hl).forward
  case prev_slot =>
    obtain ⟨t, rfl, ht⟩ := h
    exact (ht.refines hl).prev_slot
  case empty =>
    rw [listEmpty, h.first_eq hl]
    cases l <;> rfl
  case foreach =>
    intro fuel hfuel
    rw [listForeach, h.first_eq hl]
    refine loop_foreachPass ?_ hfuel
    rintro l₁ e l₂ rfl
    rw [h.next_eq hl]
    rfl
  case foreachSafe =>
    intro p fuel hfuel
    rw [listForeachSafe, h.first_eq hl]
    apply loop_foreachSafePass_removeIf p _ _ h hl hfuel
    · intro m lists l₁ e l₂ h hl
      exact congrArg Except.ok (h.next_eq hl)
    · intro m lists l₁ e l₂ h hl _
      exact h.removeAt hl

/-- For every family of lists, whatever their fields are at first, every run of the macros leaves
in each head the list that the run prescribes; an element is removed without its head. -/
theorem list_refines_lists_of_exec (m : ListLinks Q E) (ops : List (Op Q E))
    (hops : (spec Q E).Admissible (fun _ => none) ops) :
    ∃ m', execAll step m ops = .ok (m', (spec Q E).results (fun _ => none) ops) ∧
      ∀ q l, (spec Q E).applyAll (fun _ => none) ops q = some l →
        Refines m' ((spec Q E).applyAll (fun _ => none) ops) q l := by
  have hstart : Family m fun _ => none :=
    ⟨remember m, forget_remember m, ringFamily_none fun q => TailQueue.view q (remember m)⟩
  obtain ⟨m', hexec, hm'⟩ := execAll_refines (spec Q E) Family (fun h hpre => h.step hpre)
    hstart hops
  exact ⟨m', hexec, fun q l hl => hm'.refines hl⟩

/-- Elements are removed after their list has moved to another head. -/
def movedRun : List (Op Bool Nat) :=
  [.init true, .init false, .insertHead true 1, .insertBefore 1 2, .insertAfter 1 3,
    .swap true false, .remove 2, .remove 3, .insertHead true 4]

/-- The run that removes elements after their list has moved. -/
theorem list_refines_lists_moved : ∃ m',
    execAll step ⟨fun _ => none, fun _ => none⟩ movedRun =
      .ok (m', (spec Bool Nat).results (fun _ => none) movedRun) ∧
    ∀ q l, (spec Bool Nat).applyAll (fun _ => none) movedRun q = some l →
      Refines m' ((spec Bool Nat).applyAll (fun _ => none) movedRun) q l := by
  apply list_refines_lists_of_exec ⟨fun _ => none, fun _ => none⟩ movedRun
  simp [movedRun, Spec.Admissible, spec, Op.Pre, Op.apply, Lists.Has, Lists.modify, Lists.erase,
    MacKernel.insertAfter, MacKernel.insertBefore]

end Refinement

end MacKernel.LinkedList
