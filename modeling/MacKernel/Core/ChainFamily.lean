import MacKernel.Core.Chain
import MacKernel.Core.RingFamily
import Mathlib.Data.List.Perm.Subperm

/-!
# Families of chains

Several heads are in use at the same time, and each of them leads through the elements
of its list to a null pointer. A store into the link behind some of the elements gives
the chain another rest: insertions, removals and concatenations are all of this kind,
and the chains of the other heads do not see it.
-/

namespace MacKernel

variable {Q E : Type}

/-- The pointer that a link holds. -/
def Links.load (s : Links Q E) : Link Q E → Option E
  | .head q => s.first q
  | .next e => s.next e

/-- The element is on the list of another head. -/
def Lists.OnOther (lists : Lists Q E) (q : Q) (e : E) : Prop :=
  ∃ q' l, q' ≠ q ∧ lists q' = some l ∧ e ∈ l

/-- Every head in use leads through its list, and no element is on two lists. -/
structure ChainFamily (s : Links Q E) (lists : Lists Q E) : Prop where
  leads : ∀ q l, lists q = some l → s.Leads q l none
  disjoint : ∀ q q' l l' e, lists q = some l → lists q' = some l' → e ∈ l → e ∈ l' → q = q'

variable {s s' : Links Q E} {lists : Lists Q E} {q q₁ q₂ : Q} {k l l₁ l₂ m r : List E} {e : E}
variable {v : Option E}

/-- No head is in use. -/
theorem chainFamily_none (s : Links Q E) : ChainFamily s fun _ => none where
  leads _ l hl := absurd hl.symm (Option.some_ne_none l)
  disjoint _ _ l _ _ hl := absurd hl.symm (Option.some_ne_none l)

section Ownership

/-- An element is on its list once. -/
theorem ChainFamily.nodup (h : ChainFamily s lists) (hl : lists q = some l) : l.Nodup :=
  Chain.nodup (h.leads q l hl)

/-- An element is on one list only. -/
theorem ChainFamily.not_onOther (h : ChainFamily s lists) (hl : lists q = some l) (he : e ∈ l) :
    ¬lists.OnOther q e := by
  rintro ⟨q', l', hne, hl', he'⟩
  exact hne (h.disjoint q' q l' l e hl' hl he' he)

/-- What is on another list is on a list. -/
theorem Lists.OnOther.has (h : lists.OnOther q e) : lists.Has e := by
  obtain ⟨q', l, -, hl, he⟩ := h
  exact ⟨q', l, hl, he⟩

/-- At most `n` elements are on the lists. -/
def Lists.Within (lists : Lists Q E) (n : Nat) : Prop :=
  ∃ seen : List E, seen.length ≤ n ∧ ∀ e, lists.Has e → e ∈ seen

/-- At first no list has an element. -/
theorem Lists.within_none : Lists.Within (fun _ => none : Lists Q E) 0 := by
  refine ⟨[], Nat.le_refl 0, ?_⟩
  rintro e ⟨q, l, hl, -⟩
  cases hl

/-- A bound may be larger. -/
theorem Lists.Within.mono {n n' : Nat} (h : lists.Within n) (hn : n ≤ n') : lists.Within n' := by
  obtain ⟨seen, hlen, hseen⟩ := h
  exact ⟨seen, Nat.le_trans hlen hn, hseen⟩

/-- One more element is on the lists. -/
theorem Lists.Within.add {n : Nat} {lists' : Lists Q E} (h : lists.Within n) {a : List E}
    (hhas : ∀ e, lists'.Has e → e ∈ a ∨ lists.Has e) (ha : a.length ≤ 1) :
    lists'.Within (n + 1) := by
  obtain ⟨seen, hlen, hseen⟩ := h
  refine ⟨a ++ seen, ?_, fun e he => List.mem_append.mpr ((hhas e he).imp_right (hseen e))⟩
  rw [List.length_append]
  omega

/-- A list has no more elements than all lists have. -/
theorem ChainFamily.length_le (h : ChainFamily s lists) {n : Nat} (hn : lists.Within n)
    (hl : lists q = some l) : l.length ≤ n := by
  obtain ⟨seen, hlen, hseen⟩ := hn
  have hsub : l ⊆ seen := fun e he => hseen e ⟨q, l, hl, he⟩
  exact Nat.le_trans ((h.nodup hl).subperm hsub).length_le hlen

/-- A list with the element at its place. -/
theorem ChainFamily.split (h : ChainFamily s lists) (hl : lists q = some l) (he : e ∈ l) :
    ∃ l₁ l₂, l = l₁ ++ e :: l₂ ∧ e ∉ l₁ := by
  obtain ⟨l₁, l₂, rfl⟩ := List.append_of_mem he
  refine ⟨l₁, l₂, rfl, fun hmem => ?_⟩
  exact (List.nodup_append.mp (h.nodup hl)).2.2 e hmem e List.mem_cons_self rfl

/-- The parts of a list have no element in common. -/
theorem ChainFamily.disjoint_parts (h : ChainFamily s lists) (hl : lists q = some (k ++ r)) :
    k.Disjoint r :=
  fun _ h₁ h₂ => (List.nodup_append.mp (h.nodup hl)).2.2 _ h₁ _ h₂ rfl

/-- What follows the elements of a part of a list. -/
theorem ChainFamily.rest (h : ChainFamily s lists) (hl : lists q = some (l ++ e :: l₂)) :
    Chain s.next (s.next e) l₂ none := by
  obtain ⟨b, -, -, hrest⟩ := chain_append.mp (h.leads q _ hl)
  exact hrest

/-- The first element of a list. -/
theorem ChainFamily.first_eq (h : ChainFamily s lists) (hl : lists q = some l) :
    s.first q = l.head? := by
  have hleads := h.leads q l hl
  cases l with
  | nil => exact hleads
  | cons x l => exact hleads.1

/-- The element behind another one. -/
theorem ChainFamily.next_eq (h : ChainFamily s lists) (hl : lists q = some (l ++ e :: l₂)) :
    s.next e = l₂.head? := by
  have hrest := h.rest hl
  cases l₂ with
  | nil => exact hrest
  | cons x l₂ => exact hrest.1

/-- The link behind the first part of a list holds the element that follows. -/
theorem ChainFamily.load_lastLink (h : ChainFamily s lists) (hl : lists q = some (k ++ r)) :
    s.load (lastLink q k) = r.head? := by
  rcases List.eq_nil_or_concat' k with rfl | ⟨k, e, rfl⟩
  · exact h.first_eq hl
  · rw [List.append_assoc] at hl
    rw [lastLink_snoc]
    exact h.next_eq hl

end Ownership

section Stores

variable [DecidableEq Q]

/-- What is on the lists after one of them was changed. -/
theorem Lists.has_update (h : Lists.Has (Function.update lists q (some l)) e) :
    e ∈ l ∨ lists.Has e := by
  obtain ⟨q', l', hl', he⟩ := h
  by_cases hq : q' = q
  · subst hq
    rw [Function.update_self] at hl'
    obtain rfl := Option.some.inj hl'
    exact .inl he
  · rw [Function.update_of_ne hq] at hl'
    exact .inr ⟨q', l', hl', he⟩

/-- A change of one list that adds little puts little on the lists. -/
theorem Lists.has_modify {f : List E → List E} {a : List E} (hf : ∀ l, ∀ x ∈ f l, x ∈ a ∨ x ∈ l)
    (h : (lists.modify q f).Has e) : e ∈ a ∨ lists.Has e := by
  cases hl : lists q with
  | none =>
    rw [Lists.modify, hl, Option.map_none, ← hl, Function.update_eq_self] at h
    exact .inr h
  | some l =>
    rw [Lists.modify_eq hl] at h
    rcases Lists.has_update h with he | he
    · exact (hf l e he).imp_right fun he => ⟨q, l, hl, he⟩
    · exact .inr he

/-- One list is changed and the others are left. -/
theorem ChainFamily.replace (h : ChainFamily s lists) (hleads : s'.Leads q l none)
    (hothers : ∀ q' l', q' ≠ q → lists q' = some l' → s'.Leads q' l' none)
    (hl : ∀ e ∈ l, ¬lists.OnOther q e) : ChainFamily s' (Function.update lists q (some l)) where
  leads q' l' hl' := by
    by_cases hq : q' = q
    · subst hq
      rw [Function.update_self] at hl'
      obtain rfl := Option.some.inj hl'
      exact hleads
    · rw [Function.update_of_ne hq] at hl'
      exact hothers q' l' hq hl'
  disjoint q₁ q₂ l₁ l₂ e h₁ h₂ he₁ he₂ := by
    by_cases hq₁ : q₁ = q
    · by_cases hq₂ : q₂ = q
      · rw [hq₁, hq₂]
      · subst hq₁
        rw [Function.update_self] at h₁
        rw [Function.update_of_ne hq₂] at h₂
        obtain rfl := Option.some.inj h₁
        exact absurd ⟨q₂, l₂, hq₂, h₂, he₂⟩ (hl e he₁)
    · rw [Function.update_of_ne hq₁] at h₁
      by_cases hq₂ : q₂ = q
      · subst hq₂
        rw [Function.update_self] at h₂
        obtain rfl := Option.some.inj h₂
        exact absurd ⟨q₁, l₁, hq₁, h₁, he₁⟩ (hl e he₂)
      · rw [Function.update_of_ne hq₂] at h₂
        exact h.disjoint q₁ q₂ l₁ l₂ e h₁ h₂ he₁ he₂

/-- A change that only concerns lists with the element concerns one list. -/
theorem ChainFamily.map_eq_update (h : ChainFamily s lists) (hl : lists q = some l) (he : e ∈ l)
    {f : List E → List E} (hf : ∀ l', e ∉ l' → f l' = l') :
    (fun q => (lists q).map f) = Function.update lists q (some (f l)) := by
  funext q'
  by_cases hq : q' = q
  · subst hq
    rw [Function.update_self, hl]
    rfl
  · rw [Function.update_of_ne hq]
    cases hl' : lists q' with
    | none => rfl
    | some l' =>
      rw [Option.map_some, hf l' fun he' => hq (h.disjoint q' q l' l e hl' hl he' he)]

/-- A head that is no longer used. -/
theorem ChainFamily.drop (h : ChainFamily s lists) (q : Q) :
    ChainFamily s (Function.update lists q none) where
  leads q' l' hl' := h.leads q' l' (Lists.eq_of_update_none hl').2
  disjoint q₁ q₂ l₁ l₂ e h₁ h₂ he₁ he₂ :=
    h.disjoint q₁ q₂ l₁ l₂ e (Lists.eq_of_update_none h₁).2 (Lists.eq_of_update_none h₂).2 he₁ he₂

/-- The elements of a head that is no longer used are on no list. -/
theorem ChainFamily.not_has_drop (h : ChainFamily s lists) (hl : lists q = some l) (he : e ∈ l) :
    ¬Lists.Has (Function.update lists q none) e := by
  rintro ⟨q', l', hl', he'⟩
  obtain ⟨hq, hl'⟩ := Lists.eq_of_update_none hl'
  exact hq (h.disjoint q' q l' l e hl' hl he' he)

variable [DecidableEq E]

/-- A store into the link behind the first part of a list gives the list another rest. -/
theorem ChainFamily.splice (h : ChainFamily s lists) (hl : lists q = some (k ++ m))
    (hv : Chain s.next v r none) (hdisj : k.Disjoint r)
    (hfree : ∀ e ∈ r, ¬lists.OnOther q e) :
    ChainFamily (s.store (lastLink q k) v) (Function.update lists q (some (k ++ r))) := by
  have hnodup : k.Nodup := (List.nodup_append.mp (h.nodup hl)).1
  obtain ⟨b, hpart, -⟩ := chain_append.mp (h.leads q _ hl)
  apply h.replace
  · exact chain_append.mpr ⟨v, Links.Leads.store_last hpart hnodup v, hv.store_last hdisj q v⟩
  · intro q' l' hq hl'
    refine (h.leads q' l' hl').store_last_of_ne hq (fun e he he' => ?_) v
    exact hq (h.disjoint q' q l' _ e hl' hl he' (List.mem_append_left m he))
  · intro e he
    rcases List.mem_append.mp he with he | he
    · exact h.not_onOther hl (List.mem_append_left m he)
    · exact hfree e he

/-- A list is cut behind its first part, up to a rest of what followed. -/
theorem ChainFamily.cut (h : ChainFamily s lists) (hl : lists q = some (k ++ (m ++ r)))
    (hv : Chain s.next v r none) :
    ChainFamily (s.store (lastLink q k) v) (Function.update lists q (some (k ++ r))) := by
  refine h.splice hl hv (fun e he₁ he₃ => ?_) fun e he => ?_
  · exact h.disjoint_parts hl he₁ (List.mem_append_right m he₃)
  · exact h.not_onOther hl (List.mem_append_right k (List.mem_append_right m he))

/-- The fields of an element that is on no list may be stored to. -/
theorem ChainFamily.store_free (h : ChainFamily s lists) (he : ¬lists.Has e) (v : Option E) :
    ChainFamily (s.store (.next e) v) lists where
  leads q l hl := (h.leads q l hl).store_next (fun hmem => he ⟨q, l, hl, hmem⟩) v
  disjoint := h.disjoint

/-- An element that is on no list is put behind the first part of a list. -/
theorem ChainFamily.insert (h : ChainFamily s lists) (hl : lists q = some (k ++ r))
    (he : ¬lists.Has e) (hv : Chain s.next v r none) :
    ChainFamily ((s.store (.next e) v).store (lastLink q k) (some e))
      (Function.update lists q (some (k ++ e :: r))) := by
  have hmem : e ∉ k ++ r := fun hmem => he ⟨q, _, hl, hmem⟩
  refine (h.store_free he v).splice hl ?_ (fun x hxk hxr => ?_) fun x hx => ?_
  · refine ⟨rfl, ?_⟩
    have hnext : (s.store (.next e) v).next e = v := Function.update_self ..
    rw [hnext]
    exact hv.update fun hmemr => hmem (List.mem_append_right k hmemr)
  · rcases List.mem_cons.mp hxr with rfl | hxr
    · exact hmem (List.mem_append_left r hxk)
    · exact h.disjoint_parts hl hxk hxr
  · rcases List.mem_cons.mp hx with rfl | hx
    · exact fun hother => he hother.has
    · exact h.not_onOther hl (List.mem_append_right k hx)

/-- A head is made empty. -/
theorem ChainFamily.init (h : ChainFamily s lists) (q : Q) :
    ChainFamily (s.store (.head q) none) (Function.update lists q (some [])) := by
  apply h.replace
  · exact Function.update_self ..
  · exact fun q' l' hq hl' => (h.leads q' l' hl').store_head_of_ne hq none
  · intro e he
    cases he

/-- The list of the second head goes behind that of the first, and the second is made empty. -/
theorem ChainFamily.concat (h : ChainFamily s lists) (h₁ : lists q₁ = some l₁)
    (h₂ : lists q₂ = some l₂) (hq : q₁ ≠ q₂) :
    ChainFamily ((s.store (lastLink q₁ l₁) (s.first q₂)).store (.head q₂) none)
      (Function.update (Function.update lists q₁ (some (l₁ ++ l₂))) q₂ (some [])) := by
  have h₁' : Function.update lists q₂ none q₁ = some (l₁ ++ []) := by
    rw [Function.update_of_ne hq, h₁, List.append_nil]
  have hsplice := (h.drop q₂).splice h₁' (h.leads q₂ l₂ h₂)
    (fun e he he' => hq (h.disjoint q₁ q₂ l₁ l₂ e h₁ h₂ he he'))
    fun e he hother => h.not_has_drop h₂ he hother.has
  have hinit := hsplice.init q₂
  rw [Function.update_comm hq.symm, Function.update_idem] at hinit
  exact hinit

/-- Two heads exchange their lists. -/
theorem ChainFamily.swap (h : ChainFamily s lists) (h₁ : lists q₁ = some l₁)
    (h₂ : lists q₂ = some l₂) :
    ChainFamily ((s.store (.head q₁) (s.first q₂)).store (.head q₂) (s.first q₁))
      (Function.update (Function.update lists q₁ (some l₂)) q₂ (some l₁)) := by
  have hfirst : ChainFamily (s.store (.head q₁) (s.first q₂))
      (Function.update (Function.update lists q₂ none) q₁ (some l₂)) := by
    apply (h.drop q₂).replace
    · have hstore : (s.store (.head q₁) (s.first q₂)).first q₁ = s.first q₂ :=
        Function.update_self ..
      rw [Links.Leads, hstore]
      exact h.leads q₂ l₂ h₂
    · exact fun q' l' hq hl' => ((h.drop q₂).leads q' l' hl').store_head_of_ne hq _
    · exact fun e he hother => h.not_has_drop h₂ he hother.has
  have hboth : ChainFamily ((s.store (.head q₁) (s.first q₂)).store (.head q₂) (s.first q₁))
      (Function.update (Function.update (Function.update lists q₂ none) q₁ (some l₂)) q₂
        (some l₁)) := by
    apply hfirst.replace
    · have hstore : ((s.store (.head q₁) (s.first q₂)).store (.head q₂) (s.first q₁)).first q₂ =
          s.first q₁ := Function.update_self ..
      rw [Links.Leads, hstore]
      exact h.leads q₁ l₁ h₁
    · exact fun q' l' hq hl' => (hfirst.leads q' l' hl').store_head_of_ne hq _
    · rintro e he ⟨q', l', hq', hl', he'⟩
      by_cases hq₁ : q' = q₁
      · subst hq₁
        rw [Function.update_self] at hl'
        obtain rfl := Option.some.inj hl'
        exact hq' (h.disjoint q' q₂ l₁ l₂ e h₁ h₂ he he')
      · rw [Function.update_of_ne hq₁, Function.update_of_ne hq'] at hl'
        exact hq₁ (h.disjoint q' q₁ l' l₁ e hl' h₁ he' he)
  by_cases hq : q₁ = q₂
  · subst hq
    simpa only [Function.update_idem] using hboth
  · rw [Function.update_comm (Ne.symm hq), Function.update_idem] at hboth
    exact hboth

end Stores

end MacKernel
