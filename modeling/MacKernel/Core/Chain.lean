import Mathlib.Data.List.Nodup
import Mathlib.Logic.Function.Basic

/-!
# Singly linked chains and the link behind their last element

A chain leads from a pointer through the elements of a list to a pointer. Several
heads share one `next` field, and a link is either a head or the `next` field of an
element, so that a store through the last link of a chain is one operation.
-/

namespace MacKernel

section Chain

variable {P : Type*}

/-- Following `next` from `a` leads through the elements of a list to `b`. -/
def Chain (next : P → Option P) : Option P → List P → Option P → Prop
  | a, [], b => a = b
  | a, p :: l, b => a = some p ∧ Chain next (next p) l b

variable {next : P → Option P} {a b c : Option P} {l l' : List P} {p : P}

@[simp] theorem chain_nil : Chain next a [] b ↔ a = b := Iff.rfl

@[simp] theorem chain_cons : Chain next a (p :: l) b ↔ a = some p ∧ Chain next (next p) l b :=
  Iff.rfl

/-- A chain splits at each of its places. -/
theorem chain_append :
    Chain next a (l ++ l') c ↔ ∃ b, Chain next a l b ∧ Chain next b l' c := by
  induction l generalizing a with
  | nil => simp
  | cons p l ih => simp [ih, and_assoc]

/-- A chain ends with its last element. -/
theorem chain_snoc : Chain next a (l ++ [p]) b ↔ Chain next a l (some p) ∧ next p = b := by
  simp [chain_append]

/-- The list of a chain that ends is determined by its start. -/
theorem Chain.unique (h : Chain next a l none) (h' : Chain next a l' none) : l = l' := by
  induction l generalizing a l' with
  | nil =>
    obtain rfl := h
    cases l' with
    | nil => rfl
    | cons q l' => simp at h'
  | cons p l ih =>
    obtain ⟨rfl, h⟩ := h
    cases l' with
    | nil => simp at h'
    | cons q l' =>
      obtain ⟨hq, h'⟩ := h'
      obtain rfl := Option.some.inj hq
      rw [ih h h']

/-- A chain that ends visits nothing twice. -/
theorem Chain.nodup (h : Chain next a l none) : l.Nodup := by
  induction l generalizing a with
  | nil => exact List.nodup_nil
  | cons p l ih =>
    refine List.nodup_cons.mpr ⟨fun hp => ?_, ih h.2⟩
    -- the chain behind a second visit is a proper part of itself
    obtain ⟨l₁, l₂, rfl⟩ := List.append_of_mem hp
    obtain ⟨b, -, rfl, hl₂⟩ := chain_append.mp h.2
    have hlen := congrArg List.length (Chain.unique h.2 hl₂)
    simp only [List.length_append, List.length_cons] at hlen
    omega

variable [DecidableEq P] {v : Option P}

/-- A store into an element outside a chain leaves the chain. -/
theorem Chain.update (h : Chain next a l b) (hp : p ∉ l) :
    Chain (Function.update next p v) a l b := by
  induction l generalizing a with
  | nil => exact h
  | cons q l ih =>
    obtain ⟨hq, hl⟩ := not_or.mp (mt List.mem_cons.mpr hp)
    refine ⟨h.1, ?_⟩
    rw [Function.update_of_ne (Ne.symm hq)]
    exact ih h.2 hl

/-- A store into the last element gives a chain another end. -/
theorem Chain.retarget (h : Chain next a (l ++ [p]) b) (hp : p ∉ l) :
    Chain (Function.update next p v) a (l ++ [p]) v :=
  chain_snoc.mpr ⟨(chain_snoc.mp h).1.update hp, Function.update_self ..⟩

end Chain

section Links

variable {Q P : Type*}

/-- A place that holds a pointer: the head of a chain, or the `next` field of an element. -/
inductive Link (Q P : Type*) where
  | head (q : Q)
  | next (p : P)
  deriving DecidableEq

/-- The heads of several chains over one `next` field. -/
structure Links (Q P : Type*) where
  first : Q → Option P
  next : P → Option P

/-- The link behind the last element of a chain. -/
def lastLink (q : Q) (l : List P) : Link Q P :=
  match l.getLast? with
  | none => .head q
  | some p => .next p

@[simp] theorem lastLink_nil (q : Q) : lastLink q ([] : List P) = .head q := rfl

@[simp] theorem lastLink_snoc (q : Q) (l : List P) (p : P) : lastLink q (l ++ [p]) = .next p := by
  simp [lastLink]

/-- The last link of a longer list is that of its end. -/
theorem lastLink_append (q q' : Q) (l : List P) {l' : List P} (h : l' ≠ []) :
    lastLink q (l ++ l') = lastLink q' l' := by
  obtain ⟨l', p, rfl⟩ := (List.eq_nil_or_concat' l').resolve_left h
  rw [← List.append_assoc, lastLink_snoc, lastLink_snoc]

/-- The last link of one list is not the head of another. -/
theorem lastLink_ne_head {q q' : Q} (h : q ≠ q') (l : List P) : lastLink q l ≠ .head q' := by
  unfold lastLink
  split
  · exact fun he => h (Link.head.inj he)
  · simp

variable [DecidableEq Q] [DecidableEq P]

/-- Store a pointer into a link. -/
def Links.store (s : Links Q P) (k : Link Q P) (v : Option P) : Links Q P :=
  match k with
  | .head q => { s with first := Function.update s.first q v }
  | .next p => { s with next := Function.update s.next p v }

/-- Stores into different links commute. -/
theorem Links.store_comm (s : Links Q P) {k k' : Link Q P} (h : k ≠ k') (v v' : Option P) :
    (s.store k v).store k' v' = (s.store k' v').store k v := by
  cases k with
  | head q =>
    cases k' with
    | head q' =>
      have hq : q ≠ q' := fun hq => h (congrArg Link.head hq)
      simp only [Links.store, Function.update_comm hq]
    | next p' => rfl
  | next p =>
    cases k' with
    | head q' => rfl
    | next p' =>
      have hp : p ≠ p' := fun hp => h (congrArg Link.next hp)
      simp only [Links.store, Function.update_comm hp]

/-- The chain of a head leads through the elements of a list to `b`. -/
def Links.Leads (s : Links Q P) (q : Q) (l : List P) (b : Option P) : Prop :=
  Chain s.next (s.first q) l b

variable {s : Links Q P} {q q' : Q} {l l' : List P} {p : P} {a b v : Option P}

/-- A store through the last link gives a chain another end. -/
theorem Links.Leads.store_last (h : s.Leads q l b) (hn : l.Nodup) (v : Option P) :
    (s.store (lastLink q l) v).Leads q l v := by
  rcases List.eq_nil_or_concat' l with rfl | ⟨l, p, rfl⟩
  · simp [Links.Leads, Links.store]
  · have hp : p ∉ l := fun hp => (List.nodup_append.mp hn).2.2 p hp p (by simp) rfl
    rw [lastLink_snoc]
    exact Chain.retarget h hp

/-- A store through the last link of one chain leaves what is disjoint from it. -/
theorem Chain.store_last (h : Chain s.next a l' b) (hd : l.Disjoint l') (q : Q) (v : Option P) :
    Chain (s.store (lastLink q l) v).next a l' b := by
  rcases List.eq_nil_or_concat' l with rfl | ⟨l, p, rfl⟩
  · exact h
  · rw [lastLink_snoc]
    exact Chain.update h fun hp => hd (by simp) hp

/-- A store at the end of a list leaves another list. -/
theorem Links.Leads.store_last_of_ne (h : s.Leads q' l' b) (hq : q' ≠ q) (hd : l.Disjoint l')
    (v : Option P) : (s.store (lastLink q l) v).Leads q' l' b := by
  have hfirst : (s.store (lastLink q l) v).first q' = s.first q' := by
    rcases List.eq_nil_or_concat' l with rfl | ⟨l, p, rfl⟩
    · exact Function.update_of_ne hq _ _
    · rw [lastLink_snoc]
      rfl
  rw [Links.Leads, hfirst]
  exact Chain.store_last h hd q v

/-- A store into an element outside a chain leaves the chain. -/
theorem Links.Leads.store_next (h : s.Leads q l b) (hp : p ∉ l) (v : Option P) :
    (s.store (.next p) v).Leads q l b := Chain.update h hp

/-- A store into another head leaves a chain. -/
theorem Links.Leads.store_head_of_ne (h : s.Leads q' l b) (hq : q' ≠ q) (v : Option P) :
    (s.store (.head q) v).Leads q' l b := by
  have hfirst : (s.store (.head q) v).first q' = s.first q' := Function.update_of_ne hq _ _
  rw [Links.Leads, hfirst]
  exact h

end Links

end MacKernel
