import Mathlib.Order.Bounds.Basic

/-!
# Least and greatest members of a list

Running extremes: what one more member does to the least and the greatest member,
and that both depend on the members only and not on their order.
-/

namespace MacKernel

section Extremes

variable {α : Type*} [LinearOrder α] {l l' : List α} {lo hi lo' hi' : α}

/-- The least and the greatest member of a list. -/
structure Extremes (l : List α) (lo hi : α) : Prop where
  least : IsLeast {v | v ∈ l} lo
  greatest : IsGreatest {v | v ∈ l} hi

theorem extremes_singleton (v : α) : Extremes [v] v v := by
  have hset : {w | w ∈ [v]} = {v} := by
    ext w
    exact List.mem_singleton
  exact ⟨hset ▸ isLeast_singleton, hset ▸ isGreatest_singleton⟩

theorem Extremes.le (h : Extremes l lo hi) : lo ≤ hi := h.least.2 h.greatest.1

theorem Extremes.snoc (h : Extremes l lo hi) (v : α) :
    Extremes (l ++ [v]) (min v lo) (max v hi) := by
  have hset : {w | w ∈ l ++ [v]} = insert v {w | w ∈ l} := by
    ext w
    exact List.mem_append.trans (or_comm.trans (or_congr_left List.mem_singleton))
  exact ⟨hset ▸ h.least.insert v, hset ▸ h.greatest.insert v⟩

theorem Extremes.unique (h : Extremes l lo hi) (h' : Extremes l' lo' hi')
    (hmem : ∀ v, v ∈ l ↔ v ∈ l') : lo = lo' ∧ hi = hi' := by
  have hset : {v | v ∈ l} = {v | v ∈ l'} := by
    ext v
    exact hmem v
  exact ⟨h.least.unique (hset ▸ h'.least), h.greatest.unique (hset ▸ h'.greatest)⟩

end Extremes

end MacKernel
