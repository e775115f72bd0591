import MacKernel.Models.SinglyTailQueue.Native

/-!
# Families of singly-linked tail queues

Each macro gives one list another rest, and moves `stqh_last` when the rest is empty.
-/

namespace MacKernel.SinglyTailQueue

variable {Q E : Type} [DecidableEq Q] [DecidableEq E]
variable {s s' : Stailqs Q E} {lists : Lists Q E} {q q₁ q₂ : Q} {k l l₁ l₂ m r : List E} {e : E}
variable {v : Option E}

/-- Every head in use leads through its list and names the link behind it. -/
structure Family (s : Stailqs Q E) (lists : Lists Q E) : Prop where
  chains : ChainFamily s.links lists
  last : ∀ q l, lists q = some l → s.last q = lastLink q l

section Stores

variable (s) (k : Link Q E) (q : Q) (v : Option E)

@[simp] theorem links_store : (s.store k v).links = s.links.store k v := rfl

@[simp] theorem last_store : (s.store k v).last = s.last := rfl

omit [DecidableEq E] in
@[simp] theorem links_setLast : (s.setLast q k).links = s.links := rfl

omit [DecidableEq E] in
@[simp] theorem last_setLast : (s.setLast q k).last = Function.update s.last q k := rfl

/-- A store through the last pointer is a store into the links. -/
@[simp] theorem links_storeOrLast : (s.storeOrLast q k v).links = s.links.store k v := by
  unfold Stailqs.storeOrLast
  split
  · rfl
  · rfl

@[simp] theorem last_storeOrLast_none :
    (s.storeOrLast q k none).last = Function.update s.last q k := rfl

@[simp] theorem last_storeOrLast_some (e : E) : (s.storeOrLast q k (some e)).last = s.last := rfl

end Stores

omit [DecidableEq E] in
/-- The queues whose lists are left have the last links that they had. -/
theorem Family.of_update (h : Family s lists)
    (hchains : ChainFamily s'.links (Function.update lists q (some l)))
    (hlast : s'.last q = lastLink q l) (hothers : ∀ q', q' ≠ q → s'.last q' = s.last q') :
    Family s' (Function.update lists q (some l)) where
  chains := hchains
  last q' l' hl' := by
    by_cases hq : q' = q
    · subst hq
      rw [Function.update_self] at hl'
      obtain rfl := Option.some.inj hl'
      exact hlast
    · rw [Function.update_of_ne hq] at hl'
      rw [hothers q' hq]
      exact h.last q' l' hl'

/-- A list is cut behind its first part, up to a rest of what followed. -/
theorem Family.cut (h : Family s lists) (hl : lists q = some (k ++ (m ++ r)))
    (hv : Chain s.links.next v r none) :
    Family (s.storeOrLast q (lastLink q k) v) (Function.update lists q (some (k ++ r))) := by
  apply h.of_update
  · rw [links_storeOrLast]
    exact h.chains.cut hl hv
  · cases r with
    | nil =>
      obtain rfl : v = none := hv
      rw [last_storeOrLast_none, Function.update_self, List.append_nil]
    | cons x r =>
      obtain rfl : v = some x := hv.1
      rw [last_storeOrLast_some, h.last q _ hl, ← List.append_assoc,
        lastLink_append q q _ (List.cons_ne_nil x r), lastLink_append q q _ (List.cons_ne_nil x r)]
  · intro q' hq
    cases v with
    | none => rw [last_storeOrLast_none, Function.update_of_ne hq]
    | some x => rw [last_storeOrLast_some]

/-- An element that is on no list is put behind the first part of a list. -/
theorem Family.insert (h : Family s lists) (hl : lists q = some (k ++ r)) (he : ¬lists.Has e)
    (hv : Chain s.links.next v r none) :
    Family ((s.storeOrLast q (.next e) v).store (lastLink q k) (some e))
      (Function.update lists q (some (k ++ e :: r))) := by
  apply h.of_update
  · rw [links_store, links_storeOrLast]
    exact h.chains.insert hl he hv
  · cases r with
    | nil =>
      obtain rfl : v = none := hv
      rw [last_store, last_storeOrLast_none, Function.update_self, lastLink_snoc]
    | cons x r =>
      obtain rfl : v = some x := hv.1
      rw [last_store, last_storeOrLast_some, h.last q _ hl, List.append_cons k e,
        lastLink_append q q _ (List.cons_ne_nil x r), lastLink_append q q _ (List.cons_ne_nil x r)]
  · intro q' hq
    rw [last_store]
    cases v with
    | none => rw [last_storeOrLast_none, Function.update_of_ne hq]
    | some x => rw [last_storeOrLast_some]

/-- `STAILQ_INIT` starts an empty queue. -/
theorem Family.init (h : Family s lists) (q : Q) :
    Family (stailqInit s q) (Function.update lists q (some [])) := by
  apply h.of_update
  · exact h.chains.init q
  · exact Function.update_self ..
  · exact fun q' hq => Function.update_of_ne hq ..

section Insertion

/-- `STAILQ_INSERT_HEAD` puts an element in front. -/
theorem Family.insertHead (h : Family s lists) (hl : lists q = some l) (he : ¬lists.Has e) :
    Family (stailqInsertHead s q e) (Function.update lists q (some (e :: l))) :=
  h.insert (k := []) hl he (h.chains.leads q l hl)

/-- `STAILQ_INSERT_TAIL` puts an element behind all others. -/
theorem Family.insertTail (h : Family s lists) (hl : lists q = some l) (he : ¬lists.Has e) :
    Family (stailqInsertTail s q e) (Function.update lists q (some (l ++ [e]))) := by
  apply h.of_update
  · have hl' : lists q = some (l ++ []) := by rw [hl, List.append_nil]
    have hinsert := h.chains.insert hl' he (v := none) rfl
    rw [← h.last q l hl] at hinsert
    exact hinsert
  · rw [lastLink_snoc]
    exact Function.update_self ..
  · exact fun q' hq => Function.update_of_ne hq ..

/-- `STAILQ_INSERT_AFTER` puts an element behind a given one. -/
theorem Family.insertAfter {p : E} (h : Family s lists) (hl : lists q = some l) (hp : p ∈ l)
    (he : ¬lists.Has e) :
    Family (stailqInsertAfter s q p e)
      (Function.update lists q (some (MacKernel.insertAfter p e l))) := by
  obtain ⟨l₁, l₂, rfl, hp₁⟩ := h.chains.split hl hp
  have hrest := h.chains.rest hl
  rw [insertAfter_append hp₁, List.append_cons l₁ p (e :: l₂)]
  rw [List.append_cons] at hl
  have hinsert := h.insert hl he hrest
  rw [lastLink_snoc] at hinsert
  exact hinsert

end Insertion

section Removal

/-- `STAILQ_REMOVE_HEAD` takes the first element off. -/
theorem Family.removeHead {x : E} (h : Family s lists) (hl : lists q = some (x :: l)) :
    ∃ s', stailqRemoveHead s q = .ok s' ∧ Family s' (Function.update lists q (some l)) := by
  have hfirst : stailqFirst s q = some x := h.chains.first_eq hl
  refine ⟨_, by rw [stailqRemoveHead, hfirst, deref_some, ok_bind]; rfl, ?_⟩
  exact h.cut (k := []) (m := [x]) hl (h.chains.rest (l := []) hl)

/-- `STAILQ_REMOVE_HEAD_UNTIL` takes off an element and all before it. -/
theorem Family.removeHeadUntil (h : Family s lists) (hl : lists q = some (l₁ ++ e :: l₂)) :
    Family (stailqRemoveHeadUntil s q e) (Function.update lists q (some l₂)) := by
  have hrest := h.chains.rest hl
  rw [List.append_cons] at hl
  exact h.cut (k := []) hl hrest

/-- `STAILQ_REMOVE_AFTER` takes off the element behind a given one. -/
theorem Family.removeAfter {p x : E} (h : Family s lists)
    (hl : lists q = some (l₁ ++ p :: x :: l₂)) : ∃ s', stailqRemoveAfter s q p = .ok s' ∧
      Family s' (Function.update lists q (some (l₁ ++ p :: l₂))) := by
  have hnext : stailqNext s p = some x := h.chains.next_eq hl
  refine ⟨_, by rw [stailqRemoveAfter, hnext, deref_some, ok_bind]; rfl, ?_⟩
  rw [List.append_cons] at hl ⊢
  have hcut := h.cut (m := [x]) hl (h.chains.rest hl)
  rw [lastLink_snoc] at hcut
  exact hcut

omit [DecidableEq E] in
/-- An element that stands further back is not the first. -/
theorem head?_ne_of_not_mem {l : List E} {p : E} (h : e ∉ l ++ [p]) (r : List E) :
    (l ++ p :: r).head? ≠ some e := by
  intro heq
  cases l with
  | nil => exact h (by simpa using Eq.symm (Option.some.inj heq))
  | cons y l => exact h (by simpa using .inl (Eq.symm (Option.some.inj heq)))

omit [DecidableEq Q] in
/-- The loop of `STAILQ_REMOVE` stops at the element before the one that is removed. -/
theorem loop_findPass {s : Links Q E} (h : ChainFamily s lists) {p : E}
    (hl : lists q = some (l₁ ++ p :: e :: l₂)) {fuel : Nat} (hfuel : l₁.length < fuel) :
    loop (findPass s.next e) fuel (s.first q) = .ok p := by
  have hbefore : e ∉ l₁ ++ [p] := by
    rw [List.append_cons] at hl
    exact fun hmem => h.disjoint_parts hl hmem List.mem_cons_self
  -- `curelm` is the first of the elements that are left before the one to remove
  have hvisits := loop_visits (findPass s.next e)
    (fun visited left cur => l₁ = visited ++ left ∧ cur = (left ++ p :: e :: l₂).head?)
    (fun r => r = p) ?_ ?_ (s := s.first q) ⟨rfl, h.first_eq hl⟩ hfuel
  · obtain ⟨r, hloop, rfl⟩ := hvisits
    exact hloop
  · rintro cur ⟨-, rfl⟩
    have hnext : s.next p = some e := h.next_eq hl
    refine ⟨p, ?_, rfl⟩
    simp only [findPass, List.nil_append, List.head?_cons, deref_some, ok_bind, hnext, if_true]
    rfl
  · rintro visited x left cur ⟨rfl, rfl⟩
    rw [List.append_assoc, List.cons_append] at hl
    have hnext := h.next_eq hl
    have hne : s.next x ≠ some e := by
      rw [hnext]
      apply head?_ne_of_not_mem
      intro hmem
      exact hbefore (by simpa using .inr (.inr (by simpa using hmem)))
    refine ⟨s.next x, ?_, by simp, hnext⟩
    simp only [findPass, List.cons_append, List.head?_cons, deref_some, ok_bind, if_neg hne]
    rfl

/-- `STAILQ_REMOVE` searches for the element and takes it off. -/
theorem Family.removeAt (h : Family s lists) (hl : lists q = some (l₁ ++ e :: l₂)) {fuel : Nat}
    (hfuel : l₁.length < fuel) : ∃ s', stailqRemove s q e fuel = .ok s' ∧
      Family s' (Function.update lists q (some (l₁ ++ l₂))) := by
  have hbefore : e ∉ l₁ := fun hmem => h.chains.disjoint_parts hl hmem List.mem_cons_self
  rcases List.eq_nil_or_concat' l₁ with rfl | ⟨l₁, p, rfl⟩
  · have hfirst : stailqFirst s q = some e := h.chains.first_eq hl
    rw [stailqRemove, if_pos hfirst]
    exact h.removeHead hl
  · rw [List.append_assoc, List.singleton_append] at hl
    have hfirst : stailqFirst s q ≠ some e := by
      rw [stailqFirst, h.chains.first_eq hl]
      exact head?_ne_of_not_mem hbefore _
    have hfind : loop (findPass (stailqNext s) e) fuel (stailqFirst s q) = .ok p := by
      apply loop_findPass h.chains hl
      rw [List.length_append] at hfuel
      omega
    obtain ⟨s', hs', hfam⟩ := h.removeAfter hl
    refine ⟨s', ?_, by rwa [List.append_assoc]⟩
    rw [stailqRemove, if_neg hfirst, hfind, ok_bind]
    exact hs'

end Removal

section Moves

/-- `STAILQ_CONCAT` of a queue that is not empty. -/
theorem Family.concat_cons {x : E} (h : Family s lists) (h₁ : lists q₁ = some l₁)
    (h₂ : lists q₂ = some (x :: l)) (hq : q₁ ≠ q₂) :
    Family (stailqConcat s q₁ q₂)
      (Function.update (Function.update lists q₁ (some (l₁ ++ x :: l))) q₂ (some [])) := by
  have hempty : ¬stailqEmpty s q₂ = true := by
    rw [stailqEmpty, stailqFirst, h.chains.first_eq h₂]
    exact Bool.false_ne_true
  rw [stailqConcat, if_neg hempty, h.last q₁ l₁ h₁]
  constructor
  · exact h.chains.concat h₁ h₂ hq
  · intro q l' hl'
    by_cases hq₂ : q = q₂
    · subst hq₂
      rw [Function.update_self] at hl'
      obtain rfl := Option.some.inj hl'
      exact Function.update_self ..
    · rw [Function.update_of_ne hq₂] at hl'
      have hlast : s.last q₂ = lastLink q₁ (l₁ ++ x :: l) := by
        rw [h.last q₂ _ h₂, lastLink_append q₁ q₂ _ (List.cons_ne_nil x l)]
      by_cases hq₁ : q = q₁
      · subst hq₁
        rw [Function.update_self] at hl'
        obtain rfl := Option.some.inj hl'
        simp [stailqInit, hq, hlast]
      · rw [Function.update_of_ne hq₁] at hl'
        simp [stailqInit, hq₁, hq₂, h.last q l' hl']

/-- A queue that is concatenated with itself loses its elements. -/
theorem Family.concat_self {x : E} (h : Family s lists) (hl : lists q = some (x :: l)) :
    Family (stailqConcat s q q) (Function.update lists q (some [])) := by
  have hempty : ¬stailqEmpty s q = true := by
    rw [stailqEmpty, stailqFirst, h.chains.first_eq hl]
    exact Bool.false_ne_true
  obtain ⟨l', p, hl'⟩ := (List.eq_nil_or_concat' (x :: l)).resolve_left (List.cons_ne_nil x l)
  have hp : p ∈ x :: l := by
    rw [hl']
    simp
  rw [stailqConcat, if_neg hempty, h.last q _ hl, hl', lastLink_snoc]
  apply h.of_update
  · -- the last element is stored to after it was given up
    have hstore := (h.chains.drop q).store_free (h.chains.not_has_drop hl hp) (s.links.first q)
    have hinit := hstore.init q
    rw [Function.update_idem] at hinit
    exact hinit
  · exact Function.update_self ..
  · intro q' hq
    simp [stailqInit, hq]

/-- `STAILQ_CONCAT` moves the second queue behind the first. -/
theorem Family.concat (h : Family s lists) (h₁ : lists q₁ = some l₁) (h₂ : lists q₂ = some l₂) :
    Family (stailqConcat s q₁ q₂)
      (Function.update (Function.update lists q₁ (some (l₁ ++ l₂))) q₂ (some [])) := by
  cases l₂ with
  | nil =>
    have hempty : stailqEmpty s q₂ = true := by
      rw [stailqEmpty, stailqFirst, h.chains.first_eq h₂]
      rfl
    rw [stailqConcat, if_pos hempty, List.append_nil, ← h₁, Function.update_eq_self, ← h₂,
      Function.update_eq_self]
    exact h
  | cons x l =>
    by_cases hq : q₁ = q₂
    · subst hq
      rw [Function.update_idem]
      exact h.concat_self h₂
    · exact h.concat_cons h₁ h₂ hq

omit [DecidableEq Q] [DecidableEq E] in
/-- The last link of the list that a head takes over. -/
theorem Family.last_rehead (h : Family s lists) (hl : lists q = some l) (q' : Q) :
    (if (s.links.first q).isNone then .head q' else s.last q) = lastLink q' l := by
  rw [h.chains.first_eq hl, h.last q l hl]
  cases l with
  | nil => rfl
  | cons x l => exact (lastLink_append q' q [] (List.cons_ne_nil x l)).symm

omit [DecidableEq E] in
/-- Mending the last pointer leaves the links. -/
@[simp] theorem links_mendLast (s : Stailqs Q E) (q : Q) : (s.mendLast q).links = s.links := by
  unfold Stailqs.mendLast
  split
  · rfl
  · rfl

omit [DecidableEq E] in
/-- The last pointer of an emptied queue names its head again. -/
theorem last_mendLast_self (s : Stailqs Q E) (q : Q) :
    (s.mendLast q).last q = if (s.links.first q).isNone then .head q else s.last q := by
  unfold Stailqs.mendLast stailqEmpty stailqFirst
  split
  · exact Function.update_self ..
  · rfl

omit [DecidableEq E] in
/-- The last pointers of other queues are left. -/
theorem last_mendLast_of_ne (s : Stailqs Q E) {q q' : Q} (h : q ≠ q') :
    (s.mendLast q').last q = s.last q := by
  unfold Stailqs.mendLast
  split
  · exact Function.update_of_ne h ..
  · rfl

/-- `STAILQ_SWAP` exchanges the first elements. -/
theorem links_stailqSwap (s : Stailqs Q E) (q₁ q₂ : Q) :
    (stailqSwap s q₁ q₂).links =
      (s.links.store (.head q₁) (s.links.first q₂)).store (.head q₂) (s.links.first q₁) := by
  simp [stailqSwap, stailqFirst]

/-- `STAILQ_SWAP` gives the second queue the last pointer of the first. -/
theorem last_stailqSwap_right (s : Stailqs Q E) (q₁ q₂ : Q) :
    (stailqSwap s q₁ q₂).last q₂ =
      if (s.links.first q₁).isNone then .head q₂ else s.last q₁ := by
  have hfirst : ((s.links.store (.head q₁) (s.links.first q₂)).store (.head q₂)
      (s.links.first q₁)).first q₂ = s.links.first q₁ := Function.update_self ..
  rw [stailqSwap, last_mendLast_self]
  simp only [links_mendLast, links_store, links_setLast, stailqFirst, hfirst]
  by_cases hq : q₁ = q₂
  · subst hq
    rw [last_mendLast_self]
    simp only [links_store, links_setLast, hfirst]
    split
    · rfl
    · exact Function.update_self ..
  · rw [last_mendLast_of_ne _ (Ne.symm hq), last_setLast, Function.update_self]

/-- `STAILQ_SWAP` gives the first queue the last pointer of the second. -/
theorem last_stailqSwap_left (s : Stailqs Q E) {q₁ q₂ : Q} (hq : q₁ ≠ q₂) :
    (stailqSwap s q₁ q₂).last q₁ =
      if (s.links.first q₂).isNone then .head q₁ else s.last q₂ := by
  rw [stailqSwap, last_mendLast_of_ne _ hq, last_mendLast_self]
  simp [hq, stailqFirst, Links.store]

/-- `STAILQ_SWAP` leaves the last pointers of other queues. -/
theorem last_stailqSwap_of_ne (s : Stailqs Q E) {q₁ q₂ : Q} (h₁ : q ≠ q₁) (h₂ : q ≠ q₂) :
    (stailqSwap s q₁ q₂).last q = s.last q := by
  rw [stailqSwap, last_mendLast_of_ne _ h₂, last_mendLast_of_ne _ h₁]
  simp [h₁, h₂]

/-- `STAILQ_SWAP` exchanges two queues. -/
theorem Family.swap (h : Family s lists) (h₁ : lists q₁ = some l₁) (h₂ : lists q₂ = some l₂) :
    Family (stailqSwap s q₁ q₂)
      (Function.update (Function.update lists q₁ (some l₂)) q₂ (some l₁)) where
  chains := by
    rw [links_stailqSwap]
    exact h.chains.swap h₁ h₂
  last q l hl := by
    by_cases hq₂ : q = q₂
    · subst hq₂
      rw [Function.update_self] at hl
      obtain rfl := Option.some.inj hl
      rw [last_stailqSwap_right]
      exact h.last_rehead h₁ q
    · rw [Function.update_of_ne hq₂] at hl
      by_cases hq₁ : q = q₁
      · subst hq₁
        rw [Function.update_self] at hl
        obtain rfl := Option.some.inj hl
        rw [last_stailqSwap_left s hq₂]
        exact h.last_rehead h₂ q
      · rw [Function.update_of_ne hq₁] at hl
        rw [last_stailqSwap_of_ne s hq₁ hq₂]
        exact h.last q l hl

end Moves

end MacKernel.SinglyTailQueue
