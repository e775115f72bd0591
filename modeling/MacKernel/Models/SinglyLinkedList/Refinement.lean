import MacKernel.Models.SinglyLinkedList.Native
import MacKernel.Models.SinglyTailQueue.Refinement

/-!
# Singly-linked lists as lists

Every run of the macros on a family of heads keeps in each of them the list that the run
prescribes. The links that `SLIST_FOREACH_PREVPTR` hands to its body are those through
which an element is taken out with one store, and that store is what `SLIST_REMOVE` does
after it has searched for the link.
-/

namespace MacKernel.SinglyLinkedList

open SinglyTailQueue (findPass loop_findPass head?_ne_of_not_mem eraseAfter eraseAfter_append
  eraseAfter_of_not_mem mem_of_mem_eraseAfter)

section Macros

variable {Q E : Type} [DecidableEq Q] [DecidableEq E]
variable {m : Links Q E} {lists : Lists Q E} {q : Q} {l l₁ l₂ : List E} {e p x : E}

/-- `SLIST_INSERT_HEAD` puts an element in front. -/
theorem insertHead_family (h : ChainFamily m lists) (hl : lists q = some l) (he : ¬lists.Has e) :
    ChainFamily (slistInsertHead m q e) (Function.update lists q (some (e :: l))) :=
  h.insert (k := []) hl he (h.leads q l hl)

/-- `SLIST_INSERT_AFTER` puts an element behind another. -/
theorem insertAfter_family (h : ChainFamily m lists) (hl : lists q = some l) (hp : p ∈ l)
    (he : ¬lists.Has e) : ChainFamily (slistInsertAfter m p e)
      (Function.update lists q (some (insertAfter p e l))) := by
  obtain ⟨l₁, l₂, rfl, hp₁⟩ := h.split hl hp
  have hrest := h.rest hl
  rw [insertAfter_append hp₁, List.append_cons l₁ p (e :: l₂)]
  rw [List.append_cons] at hl
  have hinsert := h.insert hl he hrest
  rw [lastLink_snoc] at hinsert
  exact hinsert

/-- The store that takes an element out of its list. -/
theorem unlink_family (h : ChainFamily m lists) (hl : lists q = some (l₁ ++ e :: l₂)) :
    ChainFamily (m.store (lastLink q l₁) (slistNext m e))
      (Function.update lists q (some (l₁ ++ l₂))) :=
  h.cut (m := [e]) hl (h.rest hl)

/-- `SLIST_REMOVE_HEAD` stores through the head. -/
theorem removeHead_eq (h : ChainFamily m lists) (hl : lists q = some (e :: l)) :
    slistRemoveHead m q = .ok (m.store (.head q) (slistNext m e)) := by
  rw [slistRemoveHead, slistFirst, h.first_eq hl]
  rfl

/-- `SLIST_REMOVE_AFTER` stores through the given element. -/
theorem removeAfter_eq (h : ChainFamily m lists) (hl : lists q = some (l₁ ++ p :: e :: l₂)) :
    slistRemoveAfter m p = .ok (m.store (.next p) (slistNext m e)) := by
  rw [slistRemoveAfter, slistNext, h.next_eq hl]
  rfl

/-- `SLIST_REMOVE` is the store that takes the element out. -/
theorem remove_eq (h : ChainFamily m lists) (hl : lists q = some (l₁ ++ e :: l₂)) {fuel : Nat}
    (hfuel : l₁.length < fuel) :
    slistRemove m q e fuel = .ok (m.store (lastLink q l₁) (slistNext m e)) := by
  have hbefore : e ∉ l₁ := fun hmem => h.disjoint_parts hl hmem List.mem_cons_self
  rcases List.eq_nil_or_concat' l₁ with rfl | ⟨l₁, p, rfl⟩
  · have hfirst : slistFirst m q = some e := h.first_eq hl
    rw [slistRemove, if_pos hfirst]
    exact removeHead_eq h hl
  · rw [List.append_assoc, List.singleton_append] at hl
    have hfirst : slistFirst m q ≠ some e := by
      rw [slistFirst, h.first_eq hl]
      exact head?_ne_of_not_mem hbefore _
    have hfind : loop (findPass (slistNext m) e) fuel (slistFirst m q) = .ok p := by
      apply loop_findPass h hl
      rw [List.length_append] at hfuel
      omega
    rw [slistRemove, if_neg hfirst, hfind, ok_bind, lastLink_snoc]
    exact removeAfter_eq h hl

end Macros

section Iteration

variable {Q E : Type} {m : Links Q E} {lists : Lists Q E} {q : Q} {l l₁ l₂ : List E} {e : E}

/-- `SLIST_FOREACH` visits the list. -/
theorem foreach_eq (h : ChainFamily m lists) (hl : lists q = some l) {fuel : Nat}
    (hfuel : l.length < fuel) : slistForeach m q fuel = .ok l := by
  rw [slistForeach, slistFirst, h.first_eq hl]
  refine loop_foreachPass ?_ hfuel
  rintro l₁ e l₂ rfl
  rw [slistNext, h.next_eq hl]
  rfl

/-- The iteration visits the list, and hands over the link behind what it has visited. -/
theorem foreachPrevptr_eq (h : ChainFamily m lists) (hl : lists q = some l) {fuel : Nat}
    (hfuel : l.length < fuel) : ∃ visited, slistForeachPrevptr m q fuel = .ok visited ∧
      visited.map Prod.snd = l ∧
      ∀ l₁ e l₂, l = l₁ ++ e :: l₂ → (lastLink q l₁, e) ∈ visited := by
  refine loop_visits (prevptrPass m)
    (fun seen left s => l = seen ++ left ∧ s.1 = lastLink q seen ∧ s.2.map Prod.snd = seen ∧
      ∀ l₁ e l₂, seen = l₁ ++ e :: l₂ → (lastLink q l₁, e) ∈ s.2) _ ?_ ?_
    ⟨rfl, rfl, rfl, by simp⟩ hfuel
  · rintro ⟨varp, pairs⟩ ⟨hseen, rfl, hmap, hpairs⟩
    have hload : m.load (lastLink q l) = none := h.load_lastLink (hl.trans (congrArg some hseen))
    exact ⟨pairs, by rw [prevptrPass, hload], hmap, hpairs⟩
  · rintro seen x left ⟨varp, pairs⟩ ⟨rfl, rfl, hmap, hpairs⟩
    have hload : m.load (lastLink q seen) = some x := h.load_lastLink hl
    refine ⟨(.next x, pairs ++ [(lastLink q seen, x)]), by rw [prevptrPass, hload], by simp,
      (lastLink_snoc q seen x).symm, by simp [← hmap], ?_⟩
    intro l₁ e l₂ hparts
    rcases List.eq_nil_or_concat' l₂ with rfl | ⟨l₂, y, rfl⟩
    · obtain ⟨rfl, rfl⟩ := List.append_singleton_inj.mp hparts
      exact List.mem_append_right pairs List.mem_cons_self
    · rw [← List.cons_append, ← List.append_assoc] at hparts
      obtain ⟨rfl, -⟩ := List.append_singleton_inj.mp hparts
      exact List.mem_append_left _ (hpairs l₁ e l₂ rfl)

variable [DecidableEq Q] [DecidableEq E]

/-- `SLIST_FOREACH_SAFE` visits the list while its body removes some of the elements. -/
theorem foreachSafe_family (h : ChainFamily m lists) (hl : lists q = some l) (p : E → Bool)
    {fuel : Nat} (hfuel : l.length < fuel) :
    ∃ m', slistForeachSafe (removeIf p fun m e => slistRemove m q e fuel) m q fuel = .ok (m', l) ∧
      ChainFamily m' (Function.update lists q (some (l.filter (!p ·)))) := by
  rw [slistForeachSafe, slistFirst, h.first_eq hl]
  apply loop_foreachSafePass_removeIf p _ _ h hl hfuel
  · intro m lists l₁ e l₂ h hl
    exact congrArg Except.ok (h.next_eq hl)
  · intro m lists l₁ e l₂ h hl hlen
    exact ⟨_, remove_eq h hl hlen, unlink_family h hl⟩

end Iteration

section Operations

/-- The macros that change singly-linked lists. -/
inductive Op (Q E : Type) where
  | init (q : Q)
  | insertHead (q : Q) (elm : E)
  | insertAfter (slistelm elm : E)
  | remove (q : Q) (elm : E)
  | removeHead (q : Q)
  | removeAfter (elm : E)

variable {Q E : Type}

/-- What callers see to: heads are initialised, an element that is inserted is on no list, and
what is removed is there. -/
def Op.Pre (lists : Lists Q E) : Op Q E → Prop
  | .init _ => True
  | .insertHead q e => (lists q).isSome ∧ ¬lists.Has e
  | .insertAfter slistelm e => lists.Has slistelm ∧ ¬lists.Has e
  | .remove q e => ∃ l, lists q = some l ∧ e ∈ l
  | .removeHead q => ∃ l, lists q = some l ∧ l ≠ []
  | .removeAfter p => ∃ q l, lists q = some l ∧ p ∈ l ∧ l.getLast? ≠ some p

/-- The element that a macro inserts. -/
def Op.inserted : Op Q E → List E
  | .insertHead _ e | .insertAfter _ e => [e]
  | _ => []

variable [DecidableEq Q] [DecidableEq E]

/-- The macros on lists. -/
def Op.apply (lists : Lists Q E) : Op Q E → Lists Q E
  | .init q => Function.update lists q (some [])
  | .insertHead q e => lists.modify q (e :: ·)
  | .insertAfter slistelm e => fun q => (lists q).map (MacKernel.insertAfter slistelm e)
  | .remove q e => lists.modify q (·.erase e)
  | .removeHead q => lists.modify q List.tail
  | .removeAfter p => fun q => (lists q).map (eraseAfter p)

/-- The list model of the lists. -/
def spec (Q E : Type) [DecidableEq Q] [DecidableEq E] : Spec (Lists Q E) (Op Q E) Unit where
  pre lists op := op.Pre lists
  apply lists op := op.apply lists
  result _ _ := ()

/-- One macro. -/
def step (fuel : Nat) (m : Links Q E) : Op Q E → Except Fault (Links Q E × Unit)
  | .init q => return (slistInit m q, ())
  | .insertHead q e => return (slistInsertHead m q e, ())
  | .insertAfter slistelm e => return (slistInsertAfter m slistelm e, ())
  | .remove q e => return (← slistRemove m q e fuel, ())
  | .removeHead q => return (← slistRemoveHead m q, ())
  | .removeAfter p => return (← slistRemoveAfter m p, ())

variable {m : Links Q E} {lists : Lists Q E} {e : E}

/-- Every macro refines the operation on lists. -/
theorem step_family (h : ChainFamily m lists) {op : Op Q E} (hop : op.Pre lists) {fuel : Nat}
    (hfuel : lists.Within fuel) :
    ∃ m', step fuel m op = .ok (m', ()) ∧ ChainFamily m' (op.apply lists) := by
  cases op with
  | init q => exact ⟨_, rfl, h.init q⟩
  | insertHead q e =>
    obtain ⟨l, hl⟩ := Option.isSome_iff_exists.mp hop.1
    rw [Op.apply, Lists.modify_eq hl]
    exact ⟨_, rfl, insertHead_family h hl hop.2⟩
  | insertAfter slistelm e =>
    obtain ⟨⟨q, l, hl, hmem⟩, he⟩ := hop
    rw [Op.apply, h.map_eq_update hl hmem fun l' hl' => insertAfter_of_not_mem hl']
    exact ⟨_, rfl, insertAfter_family h hl hmem he⟩
  | remove q e =>
    obtain ⟨l, hl, he⟩ := hop
    have hlen := h.length_le hfuel hl
    obtain ⟨l₁, l₂, rfl, hnot⟩ := h.split hl he
    rw [Op.apply, Lists.modify_eq hl, List.erase_append_right _ hnot, List.erase_cons_head]
    have hlt : l₁.length < fuel := by
      simp only [List.length_append, List.length_cons] at hlen
      omega
    exact exists_ok_pair () ⟨_, remove_eq h hl hlt, unlink_family h hl⟩
  | removeHead q =>
    obtain ⟨l, hl, hne⟩ := hop
    obtain ⟨x, l, rfl⟩ := List.exists_cons_of_ne_nil hne
    rw [Op.apply, Lists.modify_eq hl]
    rw [← List.nil_append (x :: l)] at hl
    exact exists_ok_pair () ⟨_, removeHead_eq h hl, unlink_family h hl⟩
  | removeAfter p =>
    obtain ⟨q, l, hl, hp, hlast⟩ := hop
    rw [Op.apply, h.map_eq_update hl hp fun l' hl' => eraseAfter_of_not_mem hl']
    obtain ⟨l₁, l₂, rfl, hnot⟩ := h.split hl hp
    have hne : l₂ ≠ [] := fun hnil => hlast (by simp [hnil])
    obtain ⟨x, l₂, rfl⟩ := List.exists_cons_of_ne_nil hne
    have hremove := removeAfter_eq h hl
    rw [eraseAfter_append hnot]
    rw [List.append_cons] at hl ⊢
    have hunlink := unlink_family h hl
    rw [lastLink_snoc] at hunlink
    exact exists_ok_pair () ⟨_, hremove, hunlink⟩

omit [DecidableEq Q] [DecidableEq E] in
/-- A change of all lists that adds little puts little on the lists. -/
private theorem has_map {f : List E → List E} {a : List E} (hf : ∀ l, ∀ x ∈ f l, x ∈ a ∨ x ∈ l)
    (h : Lists.Has (fun q => (lists q).map f) e) : e ∈ a ∨ lists.Has e := by
  obtain ⟨q, l, hl, he⟩ := h
  obtain ⟨l', hl', rfl⟩ := Option.map_eq_some_iff.mp hl
  exact (hf l' e he).imp_right fun he => ⟨q, l', hl', he⟩

/-- A macro puts at most one more element on the lists. -/
theorem Op.within_apply {n : Nat} (h : lists.Within n) (op : Op Q E) :
    (op.apply lists).Within (n + 1) := by
  have hhas : ∀ e, (op.apply lists).Has e → e ∈ op.inserted ∨ lists.Has e := by
    intro e he
    cases op with
    | init q => exact (Lists.has_update he).imp_left fun he => absurd he List.not_mem_nil
    | insertHead q x =>
      exact Lists.has_modify (fun l y hy => by simpa [Op.inserted] using hy) he
    | insertAfter p x =>
      exact has_map (fun l y hy => by simpa [Op.inserted] using mem_of_mem_insertAfter hy) he
    | remove q x => exact Lists.has_modify (fun l y hy => .inr (List.mem_of_mem_erase hy)) he
    | removeHead q => exact Lists.has_modify (fun l y hy => .inr (List.mem_of_mem_tail hy)) he
    | removeAfter p => exact has_map (fun l y hy => .inr (mem_of_mem_eraseAfter hy)) he
  refine h.add hhas ?_
  cases op <;> simp [Op.inserted]

end Operations

section Refinement

variable {Q E : Type} [DecidableEq Q] [DecidableEq E]

/-- What a head in use promises. -/
structure Refines (m : Links Q E) (lists : Lists Q E) (q : Q) (l : List E) : Prop where
  /-- The `sle_next` fields lead from `slh_first` through the list to a null pointer. -/
  forward : Chain (slistNext m) (slistFirst m q) l none
  empty : slistEmpty m q = l.isEmpty
  foreach : ∀ fuel, l.length < fuel → slistForeach m q fuel = .ok l
  /-- The safe iteration visits every element once, whatever elements the body removes. -/
  foreachSafe : ∀ (p : E → Bool) (fuel : Nat), l.length < fuel →
    ∃ m', slistForeachSafe (removeIf p fun m e => slistRemove m q e fuel) m q fuel =
        .ok (m', l) ∧
      ChainFamily m' (Function.update lists q (some (l.filter (!p ·))))
  /-- The iteration with links visits every element once, with the link through which a store
  does what `SLIST_REMOVE` does. -/
  foreachPrevptr : ∀ fuel, l.length < fuel →
    ∃ visited, slistForeachPrevptr m q fuel = .ok visited ∧ visited.map Prod.snd = l ∧
      ∀ e ∈ l, ∃ varp, (varp, e) ∈ visited ∧
        slistRemove m q e fuel = .ok (m.store varp (slistNext m e))

/-- The lists of a family are what the macros show. -/
theorem refines_family {m : Links Q E} {lists : Lists Q E} (h : ChainFamily m lists) {q : Q}
    {l : List E} (hl : lists q = some l) : Refines m lists q l := by
  constructor
  case forward => exact h.leads q l hl
  case empty =>
    rw [slistEmpty, slistFirst, h.first_eq hl]
    cases l <;> rfl
  case foreach => exact fun fuel hfuel => foreach_eq h hl hfuel
  case foreachSafe => exact fun p fuel hfuel => foreachSafe_family h hl p hfuel
  case foreachPrevptr =>
    intro fuel hfuel
    obtain ⟨visited, hloop, hmap, hlinks⟩ := foreachPrevptr_eq h hl hfuel
    refine ⟨visited, hloop, hmap, fun e he => ?_⟩
    obtain ⟨l₁, l₂, rfl⟩ := List.append_of_mem he
    refine ⟨_, hlinks l₁ e l₂ rfl, remove_eq h hl ?_⟩
    rw [List.length_append] at hfuel
    omega

/-- For every family of singly-linked lists, whatever their fields are at first, every run of the
macros returns and leaves in each head the list that the run prescribes; the loops of
`SLIST_REMOVE` take no more passes than the run has macros. -/
theorem slist_refines_lists_of_exec (m : Links Q E) (ops : List (Op Q E))
    (hops : (spec Q E).Admissible (fun _ => none) ops) {fuel : Nat} (hfuel : ops.length ≤ fuel) :
    ∃ m', execAll (step fuel) m ops = .ok (m', (spec Q E).results (fun _ => none) ops) ∧
      ∀ q l, (spec Q E).applyAll (fun _ => none) ops q = some l →
        Refines m' ((spec Q E).applyAll (fun _ => none) ops) q l := by
  have hlen : 0 + ops.length ≤ fuel := by rwa [Nat.zero_add]
  obtain ⟨m', hexec, hm', -⟩ := execAll_refines_of_length (spec Q E)
    (fun m lists n => ChainFamily m lists ∧ lists.Within n)
    (fun ⟨h, hn⟩ hpre hlt => by
      obtain ⟨m', hm', hfam⟩ := step_family h hpre (hn.mono (Nat.le_of_lt hlt))
      exact ⟨m', hm', hfam, Op.within_apply hn _⟩)
    ⟨chainFamily_none m, Lists.within_none⟩ hops hlen
  exact ⟨m', hexec, fun q l hl => refines_family hm' hl⟩

/-- An element is removed from the middle, and the one behind it without a search. -/
def middleRun : List (Op Bool Nat) :=
  [.init true, .insertHead true 1, .insertHead true 2, .insertAfter 2 3, .insertAfter 1 4,
    .remove true 1, .removeAfter 2, .removeHead true]

/-- The run that removes an element from the middle. -/
theorem slist_refines_lists_middle : ∃ m',
    execAll (step middleRun.length) ⟨fun _ => none, fun _ => none⟩ middleRun =
      .ok (m', (spec Bool Nat).results (fun _ => none) middleRun) ∧
    ∀ q l, (spec Bool Nat).applyAll (fun _ => none) middleRun q = some l →
      Refines m' ((spec Bool Nat).applyAll (fun _ => none) middleRun) q l := by
  refine slist_refines_lists_of_exec ⟨fun _ => none, fun _ => none⟩ middleRun ?_ (Nat.le_refl _)
  simp [middleRun, Spec.Admissible, spec, Op.Pre, Op.apply, Lists.Has, Lists.modify,
    MacKernel.insertAfter, eraseAfter]

end Refinement

end MacKernel.SinglyLinkedList
