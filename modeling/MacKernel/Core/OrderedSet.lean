import MacKernel.Core.Comparison

/-!
# Ordered sets as ascending lists

A set of elements that is ordered by a comparison is an ascending list. The operations
compare an element with the members, and each of them is known once a member is found
such that the members before it are below the element and those behind are above.
-/

namespace MacKernel

variable {α : Type}

/-- A sign is positive on the first list and negative on the second one. -/
def Closest (k : α → Int) (l₁ l₂ : List α) : Prop := (∀ b ∈ l₁, 0 < k b) ∧ ∀ b ∈ l₂, k b < 0

section Operations

variable (cmp : α → α → Int) (a : α) (l : List α)

/-- The member that is equal to an element. -/
def equalTo : Option α := l.find? fun b => cmp a b = 0

/-- The members below an element. -/
def below : List α := l.filter fun b => 0 < cmp a b

/-- The members above an element. -/
def above : List α := l.filter fun b => cmp a b < 0

/-- Add an element, unless an equal one is a member. -/
def insertNew : List α :=
  if (equalTo cmp a l).isSome then l else below cmp a l ++ a :: above cmp a l

/-- Remove the member that is equal to an element. -/
def removeEqual : List α := l.filter fun b => cmp a b ≠ 0

end Operations

variable {cmp : α → α → Int} {a b : α} {l₁ l₂ : List α}

section Sizes

/-- What is below and what is above are parts of the list. -/
theorem length_below_add_above (cmp : α → α → Int) (a : α) (l : List α) :
    (below cmp a l).length + (above cmp a l).length ≤ l.length := by
  induction l with
  | nil => exact Nat.le_refl 0
  | cons b l ih =>
    simp only [below, above, List.filter_cons, decide_eq_true_eq] at ih ⊢
    split <;> split <;> simp only [List.length_cons] <;> omega

/-- An insertion adds at most one element. -/
theorem length_insertNew_le (cmp : α → α → Int) (a : α) (l : List α) :
    (insertNew cmp a l).length ≤ l.length + 1 := by
  have hlength := length_below_add_above cmp a l
  unfold insertNew
  split
  · exact Nat.le_succ _
  · simp only [List.length_append, List.length_cons]
    omega

end Sizes

section Closest

/-- A filter that decides alike for all elements keeps all or none. -/
theorem filter_sign {k : α → Int} {p : Int → Bool} {v : Bool} {l : List α}
    (h : ∀ b ∈ l, p (k b) = v) : l.filter (fun b => p (k b)) = if v then l else [] := by
  rw [List.filter_congr h]
  cases v <;> simp

/-- What a test of the sign leaves of the members. -/
theorem Closest.filter_eq {k : α → Int} (h : Closest k l₁ l₂) (p : Int → Bool) {v₁ v₂ : Bool}
    (hpos : ∀ n, 0 < n → p n = v₁) (hneg : ∀ n, n < 0 → p n = v₂) :
    (l₁ ++ b :: l₂).filter (fun c => p (k c)) =
      (if v₁ then l₁ else []) ++ (if p (k b) then [b] else []) ++ if v₂ then l₂ else [] := by
  rw [List.filter_append, List.filter_cons, filter_sign fun c hc => hpos _ (h.1 c hc),
    filter_sign fun c hc => hneg _ (h.2 c hc)]
  cases p (k b) <;> simp

variable (h : Closest (cmp a) l₁ l₂)

include h

/-- The equal element is the closest one or there is none. -/
theorem Closest.equalTo_eq :
    equalTo cmp a (l₁ ++ b :: l₂) = if cmp a b = 0 then some b else none := by
  have hfilter := h.filter_eq (b := b) (· = 0) (fun n hn => decide_eq_false hn.ne')
    (fun n hn => decide_eq_false hn.ne)
  rw [equalTo, ← List.head?_filter, hfilter]
  by_cases hb : cmp a b = 0
  · simp [hb]
  · simp [hb]

/-- What is below ends with the closest element or right before it. -/
theorem Closest.below_eq : below cmp a (l₁ ++ b :: l₂) = if 0 < cmp a b then l₁ ++ [b] else l₁ := by
  have hfilter := h.filter_eq (b := b) (0 < ·) (fun n hn => decide_eq_true hn)
    (fun n hn => decide_eq_false hn.not_gt)
  rw [below, hfilter]
  by_cases hb : 0 < cmp a b
  · simp [hb]
  · simp [hb]

/-- What is above starts with the closest element or right behind it. -/
theorem Closest.above_eq : above cmp a (l₁ ++ b :: l₂) = if cmp a b < 0 then b :: l₂ else l₂ := by
  have hfilter := h.filter_eq (b := b) (· < 0) (fun n hn => decide_eq_false hn.not_gt)
    (fun n hn => decide_eq_true hn)
  rw [above, hfilter]
  by_cases hb : cmp a b < 0
  · simp [hb]
  · simp [hb]

/-- A removal takes the closest element if it is equal. -/
theorem Closest.removeEqual_eq :
    removeEqual cmp a (l₁ ++ b :: l₂) = if cmp a b = 0 then l₁ ++ l₂ else l₁ ++ b :: l₂ := by
  have hfilter := h.filter_eq (b := b) (· ≠ 0) (fun n hn => decide_eq_true hn.ne')
    (fun n hn => decide_eq_true hn.ne)
  rw [removeEqual, hfilter]
  by_cases hb : cmp a b = 0
  · simp [hb]
  · simp [hb]

/-- An element that is there is not inserted. -/
theorem Closest.insertNew_of_eq (hb : cmp a b = 0) :
    insertNew cmp a (l₁ ++ b :: l₂) = l₁ ++ b :: l₂ := by
  rw [insertNew, h.equalTo_eq, if_pos hb]
  rfl

/-- A smaller element is inserted before the closest one. -/
theorem Closest.insertNew_of_lt (hb : cmp a b < 0) :
    insertNew cmp a (l₁ ++ b :: l₂) = l₁ ++ a :: b :: l₂ := by
  rw [insertNew, h.equalTo_eq, if_neg hb.ne, h.below_eq, if_neg hb.not_gt, h.above_eq, if_pos hb]
  rfl

/-- A greater element is inserted behind the closest one. -/
theorem Closest.insertNew_of_gt (hb : 0 < cmp a b) :
    insertNew cmp a (l₁ ++ b :: l₂) = l₁ ++ b :: a :: l₂ := by
  rw [insertNew, h.equalTo_eq, if_neg hb.ne', h.below_eq, if_pos hb, h.above_eq,
    if_neg hb.not_gt, List.append_assoc]
  rfl

end Closest

section Order

/-- A removal keeps the order. -/
theorem Ascending.removeEqual {l : List α} (h : Ascending cmp l) (a : α) :
    Ascending cmp (MacKernel.removeEqual cmp a l) :=
  h.sublist List.filter_sublist

variable (hcmp : Comparison cmp)

include hcmp

/-- A member divides the others. -/
theorem Ascending.closest (h : Ascending cmp (l₁ ++ a :: l₂)) : Closest (cmp a) l₁ l₂ := by
  obtain ⟨-, hbelow, habove⟩ := ascending_middle.mp h
  exact ⟨fun b hb => (hcmp.swap b a).mp (hbelow b hb), habove⟩

/-- The list with a new element at its place is ascending. -/
theorem Ascending.insertNew {l : List α} (h : Ascending cmp l) (a : α) :
    Ascending cmp (MacKernel.insertNew cmp a l) := by
  unfold MacKernel.insertNew
  by_cases heq : (equalTo cmp a l).isSome = true
  · rw [if_pos heq]
    exact h
  · rw [if_neg heq]
    apply ascending_middle.mpr
    refine ⟨List.pairwise_append.mpr ⟨h.sublist List.filter_sublist,
      h.sublist List.filter_sublist, ?_⟩, ?_, ?_⟩
    · intro b hb c hc
      have hb' : 0 < cmp a b := of_decide_eq_true (List.mem_filter.mp hb).2
      have hc' : cmp a c < 0 := of_decide_eq_true (List.mem_filter.mp hc).2
      exact hcmp.lt_of_lt_of_le ((hcmp.swap b a).mpr hb') hc'.le
    · intro b hb
      exact (hcmp.swap b a).mpr (of_decide_eq_true (List.mem_filter.mp hb).2)
    · intro b hb
      exact of_decide_eq_true (List.mem_filter.mp hb).2

end Order

end MacKernel
