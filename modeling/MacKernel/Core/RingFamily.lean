import MacKernel.Core.Ring

/-!
# Families of rings

Several heads are in use at the same time, and each of them is the start of a ring
through the elements of its list. The links of a head are those that it sees, so that
heads may read one memory in different ways. An operation that stays among the nodes
of one head, or takes an element that is on no list, leaves the other rings.
-/

namespace MacKernel

open Entries

/-- A head, or the links of an element. -/
inductive Node (Q E : Type) where
  | head (q : Q)
  | entry (e : E)
  deriving DecidableEq

variable {Q E : Type}

/-- The heads in use, and the elements on each of them. -/
abbrev Lists (Q E : Type) := Q → Option (List E)

/-- The element is on a list. -/
def Lists.Has (lists : Lists Q E) (e : E) : Prop := ∃ q l, lists q = some l ∧ e ∈ l

/-- The node belongs to another head. -/
def Lists.Elsewhere (lists : Lists Q E) (q : Q) (x : Node Q E) : Prop :=
  ∃ q' l, q' ≠ q ∧ lists q' = some l ∧ x ∈ .head q' :: l.map .entry

/-- Every head in use is the start of the ring of its list, and no element is on two lists. -/
structure RingFamily (links : Q → Entries (Node Q E)) (lists : Lists Q E) : Prop where
  ring : ∀ q l, lists q = some l → (links q).Ring (.head q) (l.map .entry)
  disjoint : ∀ q q' l l' e, lists q = some l → lists q' = some l' → e ∈ l → e ∈ l' → q = q'

variable {links links' : Q → Entries (Node Q E)} {lists : Lists Q E} {q q' : Q} {l l' : List E}
variable {e e' : E}

/-- No head is in use. -/
theorem ringFamily_none (links : Q → Entries (Node Q E)) : RingFamily links fun _ => none where
  ring _ l hl := absurd hl.symm (Option.some_ne_none l)
  disjoint _ _ l _ _ hl := absurd hl.symm (Option.some_ne_none l)

section Ownership

/-- What is on another list is on a list. -/
theorem Lists.Elsewhere.has (h : lists.Elsewhere q (.entry e)) : lists.Has e := by
  obtain ⟨q', l, -, hl, hmem⟩ := h
  have he : e ∈ l := by simpa using hmem
  exact ⟨q', l, hl, he⟩

/-- A head is on no list but its own. -/
theorem Lists.not_elsewhere_head (lists : Lists Q E) (q : Q) : ¬lists.Elsewhere q (.head q) := by
  rintro ⟨q', l, hne, -, hmem⟩
  have hq : q = q' := by simpa using hmem
  exact hne hq.symm

/-- An element is on one list only. -/
theorem RingFamily.not_elsewhere (h : RingFamily links lists) (hl : lists q = some l)
    (he : e ∈ l) : ¬lists.Elsewhere q (.entry e) := by
  rintro ⟨q', l', hne, hl', hmem⟩
  have he' : e ∈ l' := by simpa using hmem
  exact hne (h.disjoint q' q l' l e hl' hl he' he)

/-- No node of a ring belongs to another head. -/
theorem RingFamily.not_elsewhere_of_mem (h : RingFamily links lists) (hl : lists q = some l)
    {x : Node Q E} (hx : x ∈ .head q :: l.map .entry) : ¬lists.Elsewhere q x := by
  rcases List.mem_cons.mp hx with rfl | hx
  · exact lists.not_elsewhere_head q
  · obtain ⟨e, he, rfl⟩ := List.mem_map.mp hx
    exact h.not_elsewhere hl he

/-- An element is on its list once. -/
theorem RingFamily.nodup (h : RingFamily links lists) (hl : lists q = some l) : l.Nodup :=
  (List.nodup_cons.mp (h.ring q l hl).nodup).2.of_map

/-- An element that is on no list is not on the ring. -/
theorem not_mem_nodes (he : ¬lists.Has e) (hl : lists q = some l) :
    (.entry e : Node Q E) ∉ .head q :: l.map .entry := by
  intro hmem
  exact he ⟨q, l, hl, by simpa using hmem⟩

/-- An element of a list is a node of its ring. -/
theorem entry_mem_nodes (q : Q) (he : e ∈ l) : (.entry e : Node Q E) ∈ .head q :: l.map .entry :=
  List.mem_cons_of_mem _ (List.mem_map_of_mem he)

/-- The first node of a part of a list, or the head. -/
theorem head_mem_nodes (q : Q) (h : ∀ x ∈ l', x ∈ l) :
    (l'.map .entry).head?.getD (.head q : Node Q E) ∈ .head q :: l.map .entry := by
  rcases List.mem_cons.mp (head_getD_mem (Node.head q) (l'.map Node.entry)) with hhead | hmem
  · rw [hhead]
    exact List.mem_cons_self
  · exact List.mem_cons_of_mem _ (List.map_subset Node.entry h hmem)

/-- The last node of a part of a list, or the head. -/
theorem getLast_mem_nodes (q : Q) (h : ∀ x ∈ l', x ∈ l) :
    (l'.map .entry).getLast?.getD (.head q : Node Q E) ∈ .head q :: l.map .entry := by
  rcases List.mem_cons.mp (getLast_getD_mem (Node.head q) (l'.map Node.entry)) with hlast | hmem
  · rw [hlast]
    exact List.mem_cons_self
  · exact List.mem_cons_of_mem _ (List.map_subset Node.entry h hmem)

end Ownership

section Updates

variable [DecidableEq Q]

/-- One ring is changed and the others are left. -/
theorem RingFamily.replace (h : RingFamily links lists)
    (hring : (links' q).Ring (.head q) (l.map .entry))
    (hagree : ∀ q', AgreeOn (lists.Elsewhere q) (links q') (links' q'))
    (hl : ∀ e ∈ l, ¬lists.Elsewhere q (.entry e)) :
    RingFamily links' (Function.update lists q (some l)) where
  ring q' l' hl' := by
    by_cases hq : q' = q
    · subst hq
      rw [Function.update_self] at hl'
      obtain rfl := Option.some.inj hl'
      exact hring
    · rw [Function.update_of_ne hq] at hl'
      exact (h.ring q' l' hl').agree (hagree q') fun x hx => ⟨q', l', hq, hl', hx⟩
  disjoint q₁ q₂ l₁ l₂ e h₁ h₂ he₁ he₂ := by
    by_cases hq₁ : q₁ = q
    · by_cases hq₂ : q₂ = q
      · rw [hq₁, hq₂]
      · subst hq₁
        rw [Function.update_self] at h₁
        rw [Function.update_of_ne hq₂] at h₂
        obtain rfl := Option.some.inj h₁
        exact absurd ⟨q₂, l₂, hq₂, h₂, List.mem_cons_of_mem _ (List.mem_map_of_mem he₂)⟩ (hl e he₁)
    · rw [Function.update_of_ne hq₁] at h₁
      by_cases hq₂ : q₂ = q
      · subst hq₂
        rw [Function.update_self] at h₂
        obtain rfl := Option.some.inj h₂
        exact absurd ⟨q₁, l₁, hq₁, h₁, List.mem_cons_of_mem _ (List.mem_map_of_mem he₁)⟩ (hl e he₂)
      · rw [Function.update_of_ne hq₂] at h₂
        exact h.disjoint q₁ q₂ l₁ l₂ e h₁ h₂ he₁ he₂

/-- The lists that are left when one is given up. -/
theorem Lists.eq_of_update_none (hl : Function.update lists q none q' = some l) :
    q' ≠ q ∧ lists q' = some l := by
  by_cases hq : q' = q
  · rw [hq, Function.update_self] at hl
    cases hl
  · rw [Function.update_of_ne hq] at hl
    exact ⟨hq, hl⟩

/-- A head that is no longer used. -/
theorem RingFamily.drop (h : RingFamily links lists) (q : Q) :
    RingFamily links (Function.update lists q none) where
  ring q' l' hl' := h.ring q' l' (Lists.eq_of_update_none hl').2
  disjoint q₁ q₂ l₁ l₂ e h₁ h₂ he₁ he₂ :=
    h.disjoint q₁ q₂ l₁ l₂ e (Lists.eq_of_update_none h₁).2 (Lists.eq_of_update_none h₂).2 he₁ he₂

/-- The nodes of a head that is no longer used belong to none. -/
theorem RingFamily.not_elsewhere_drop (h : RingFamily links lists) (hl : lists q = some l)
    {x : Node Q E} (hx : x ∈ .head q :: l.map .entry) (q' : Q) :
    ¬Lists.Elsewhere (Function.update lists q none) q' x := by
  rintro ⟨q'', l', -, hl', hmem⟩
  obtain ⟨hq, hl'⟩ := Lists.eq_of_update_none hl'
  exact h.not_elsewhere_of_mem hl hx ⟨q'', l', hq, hl', hmem⟩

/-- Change the list of a head. -/
def Lists.modify (lists : Lists Q E) (q : Q) (f : List E → List E) : Lists Q E :=
  Function.update lists q ((lists q).map f)

/-- A list in use is changed. -/
theorem Lists.modify_eq (hl : lists q = some l) (f : List E → List E) :
    lists.modify q f = Function.update lists q (some (f l)) := by
  rw [Lists.modify, hl]
  rfl

/-- A change that only concerns lists with the element concerns one list. -/
theorem RingFamily.map_eq_update (h : RingFamily links lists) (hl : lists q = some l) (he : e ∈ l)
    {f : List E → List E} (hf : ∀ l', e ∉ l' → f l' = l') :
    (fun q => (lists q).map f) = Function.update lists q (some (f l)) := by
  funext q'
  by_cases hq : q' = q
  · subst hq
    rw [Function.update_self, hl]
    rfl
  · rw [Function.update_of_ne hq]
    cases hl' : lists q' with
    | none => rfl
    | some l' =>
      have he' : e ∉ l' := fun he' => hq (h.disjoint q' q l' l e hl' hl he' he)
      rw [Option.map_some, hf l' he']

end Updates

section Elements

variable [DecidableEq E]

/-- Take an element off its list. -/
def Lists.erase (lists : Lists Q E) (e : E) : Lists Q E := fun q => (lists q).map (·.erase e)

/-- The list with `e` behind `p`. -/
def insertAfter (p e : E) : List E → List E
  | [] => []
  | x :: l => if x = p then x :: e :: l else x :: insertAfter p e l

/-- The list with `e` before `p`. -/
def insertBefore (p e : E) : List E → List E
  | [] => []
  | x :: l => if x = p then e :: x :: l else x :: insertBefore p e l

/-- Nothing is inserted behind an element that is not there. -/
theorem insertAfter_of_not_mem {p : E} (h : p ∉ l) : insertAfter p e l = l := by
  induction l with
  | nil => rfl
  | cons x l ih =>
    obtain ⟨hx, hl⟩ := not_or.mp (mt List.mem_cons.mpr h)
    rw [insertAfter, if_neg (Ne.symm hx), ih hl]

/-- An element is inserted right behind the given one. -/
theorem insertAfter_append {p : E} (h : p ∉ l) :
    insertAfter p e (l ++ p :: l') = l ++ p :: e :: l' := by
  induction l with
  | nil => exact if_pos rfl
  | cons x l ih =>
    obtain ⟨hx, hl⟩ := not_or.mp (mt List.mem_cons.mpr h)
    rw [List.cons_append, insertAfter, if_neg (Ne.symm hx), ih hl]
    rfl

/-- An insertion adds one element. -/
theorem mem_of_mem_insertAfter {p x : E} (h : x ∈ insertAfter p e l) : x = e ∨ x ∈ l := by
  induction l with
  | nil => cases h
  | cons y l ih =>
    unfold insertAfter at h
    split at h
    · simp only [List.mem_cons] at h ⊢
      exact or_left_comm.mp h
    · rcases List.mem_cons.mp h with rfl | h
      · exact .inr List.mem_cons_self
      · exact (ih h).imp_right (List.mem_cons_of_mem y)

/-- Nothing is inserted before an element that is not there. -/
theorem insertBefore_of_not_mem {p : E} (h : p ∉ l) : insertBefore p e l = l := by
  induction l with
  | nil => rfl
  | cons x l ih =>
    obtain ⟨hx, hl⟩ := not_or.mp (mt List.mem_cons.mpr h)
    rw [insertBefore, if_neg (Ne.symm hx), ih hl]

/-- An element is inserted right before the given one. -/
theorem insertBefore_append {p : E} (h : p ∉ l) :
    insertBefore p e (l ++ p :: l') = l ++ e :: p :: l' := by
  induction l with
  | nil => exact if_pos rfl
  | cons x l ih =>
    obtain ⟨hx, hl⟩ := not_or.mp (mt List.mem_cons.mpr h)
    rw [List.cons_append, insertBefore, if_neg (Ne.symm hx), ih hl]
    rfl

/-- An insertion adds one element. -/
theorem mem_of_mem_insertBefore {p x : E} (h : x ∈ insertBefore p e l) : x = e ∨ x ∈ l := by
  induction l with
  | nil => cases h
  | cons y l ih =>
    unfold insertBefore at h
    split at h
    · exact List.mem_cons.mp h
    · rcases List.mem_cons.mp h with rfl | h
      · exact .inr List.mem_cons_self
      · exact (ih h).imp_right (List.mem_cons_of_mem y)

/-- An element that was taken off its list is on none. -/
theorem RingFamily.not_has_erase (h : RingFamily links lists) (e : E) :
    ¬(lists.erase e).Has e := by
  rintro ⟨q, l, hl, he⟩
  obtain ⟨l', hl', rfl⟩ := Option.map_eq_some_iff.mp hl
  exact (h.nodup hl').not_mem_erase he

/-- A removal leaves lists in use. -/
theorem Lists.erase_isSome (h : (lists q).isSome) (e : E) : ∃ l, lists.erase e q = some l := by
  obtain ⟨l, hl⟩ := Option.isSome_iff_exists.mp h
  exact ⟨l.erase e, by rw [Lists.erase, hl]; rfl⟩

/-- A removal changes the list of the element only. -/
theorem RingFamily.erase_eq_update [DecidableEq Q] (h : RingFamily links lists)
    (hl : lists q = some l) (he : e ∈ l) :
    lists.erase e = Function.update lists q (some (l.erase e)) :=
  h.map_eq_update hl he fun _ he' => List.erase_of_not_mem he'

/-- A list with the element at its place. -/
theorem RingFamily.split (h : RingFamily links lists) (hl : lists q = some l) (he : e ∈ l) :
    ∃ l₁ l₂, l = l₁ ++ e :: l₂ ∧ e ∉ l₁ ∧ l.erase e = l₁ ++ l₂ := by
  obtain ⟨l₁, l₂, rfl⟩ := List.append_of_mem he
  have hnot : e ∉ l₁ := fun hmem =>
    (List.nodup_append.mp (h.nodup hl)).2.2 e hmem e List.mem_cons_self rfl
  refine ⟨l₁, l₂, rfl, hnot, ?_⟩
  rw [List.erase_append_right _ hnot, List.erase_cons_head]

end Elements

end MacKernel
