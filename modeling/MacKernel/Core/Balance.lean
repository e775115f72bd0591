import Mathlib.Algebra.Ring.Nat
import Mathlib.Data.List.Chain
import Mathlib.Data.Nat.Log
import MacKernel.Core.Tree

/-!
# Red-black balance

The balance condition of red-black trees over any labels, of which some are red, and
the same condition for one-hole contexts: which trees may fill the hole. Splitting a
balanced tree at a hole and filling the hole of a balanced context are inverse to each
other, so a repair that walks up a path only ever looks at the tree in the hole and at
the frames next to it. Read along the paths of the tree, the condition is the usual one,
and it bounds the height by the logarithm of the size.
-/

namespace MacKernel

variable {α : Type}

/-- The number of labels on the longest path. -/
def Tree.height : Tree α → Nat
  | .nil => 0
  | .node l _ r => max l.height r.height + 1

/-- The labels on the ways from the root to the empty trees. -/
def Tree.paths : Tree α → List (List α)
  | .nil => [[]]
  | .node l a r => (l.paths ++ r.paths).map (a :: ·)

section Balanced

/-- Balanced trees of a black height; their root may be red only if the flag is set. -/
inductive Balanced (red : α → Prop) : Bool → Nat → Tree α → Prop where
  | nil {k : Bool} : Balanced red k 0 .nil
  | red {n : Nat} {l r : Tree α} {a : α} (ha : red a) (hl : Balanced red false n l)
      (hr : Balanced red false n r) : Balanced red true n (.node l a r)
  | black {k : Bool} {n : Nat} {l r : Tree α} {a : α} (ha : ¬red a) (hl : Balanced red true n l)
      (hr : Balanced red true n r) : Balanced red k (n + 1) (.node l a r)

variable {red : α → Prop} {k : Bool} {n : Nat} {t near far : Tree α} {a : α} {d : Side}
  {ctx : List (Frame α)}

/-- A black root is as good as one that may be red. -/
theorem Balanced.relax (h : Balanced red false n t) : Balanced red k n t := by
  cases h with
  | nil => exact .nil
  | black ha hl hr => exact .black ha hl hr

theorem balanced_nil : Balanced red k n .nil ↔ n = 0 := by
  constructor
  · rintro ⟨⟩
    rfl
  · rintro rfl
    exact .nil

/-- A node with a red label has two children with black roots. -/
theorem balanced_join_red (ha : red a) : Balanced red k n (.join d near a far) ↔
    k = true ∧ Balanced red false n near ∧ Balanced red false n far := by
  constructor
  · intro h
    cases d <;> cases h with
    | red _ hl hr => first | exact ⟨rfl, hl, hr⟩ | exact ⟨rfl, hr, hl⟩
    | black hb _ _ => exact absurd ha hb
  · rintro ⟨rfl, hn, hf⟩
    cases d
    · exact .red ha hn hf
    · exact .red ha hf hn

/-- A node with a black label has one more black node on its paths than its children. -/
theorem balanced_join_black (ha : ¬red a) : Balanced red k n (.join d near a far) ↔
    ∃ m, n = m + 1 ∧ Balanced red true m near ∧ Balanced red true m far := by
  constructor
  · intro h
    cases d <;> cases h with
    | red hb _ _ => exact absurd hb ha
    | black _ hl hr => first | exact ⟨_, rfl, hl, hr⟩ | exact ⟨_, rfl, hr, hl⟩
  · rintro ⟨m, rfl, hn, hf⟩
    cases d
    · exact .black ha hn hf
    · exact .black ha hf hn

/-- A tree whose root may be red has a black root, or children with black roots. -/
theorem Balanced.black_or_red (d : Side) (h : Balanced red k n t) :
    Balanced red false n t ∨ ∃ near a far, t = .join d near a far ∧ red a ∧
      Balanced red false n near ∧ Balanced red false n far := by
  cases h with
  | nil => exact .inl .nil
  | black ha hl hr => exact .inl (.black ha hl hr)
  | red ha hl hr =>
    cases d
    · exact .inr ⟨_, _, _, rfl, ha, hl, hr⟩
    · exact .inr ⟨_, _, _, rfl, ha, hr, hl⟩

/-- A tree with a black node on its paths is not empty. -/
theorem Balanced.exists_join (d : Side) (h : Balanced red k (n + 1) t) :
    ∃ near a far, t = .join d near a far := by
  cases h with
  | red | black =>
    cases d
    · exact ⟨_, _, _, rfl⟩
    · exact ⟨_, _, _, rfl⟩

end Balanced

section Context

/-- Contexts that make a balanced tree with a black root of every balanced tree of the black
height whose root may be red only if the flag is set. -/
inductive BalancedCtx (red : α → Prop) : Bool → Nat → List (Frame α) → Prop where
  | nil {n : Nat} : BalancedCtx red false n []
  | red {n : Nat} {f : Frame α} {ctx : List (Frame α)} (hf : red f.label)
      (hsib : Balanced red false n f.sibling) (hctx : BalancedCtx red true n ctx) :
      BalancedCtx red false n (f :: ctx)
  | black {k : Bool} {n : Nat} {f : Frame α} {ctx : List (Frame α)} (hf : ¬red f.label)
      (hsib : Balanced red true n f.sibling) (hctx : BalancedCtx red k (n + 1) ctx) :
      BalancedCtx red true n (f :: ctx)

variable {red : α → Prop} {k : Bool} {n : Nat} {t : Tree α} {ctx : List (Frame α)}

/-- Fill the hole of a balanced context. -/
theorem BalancedCtx.plug (hctx : BalancedCtx red k n ctx) (ht : Balanced red k n t) :
    ∃ m, Balanced red false m (Tree.plug ctx t) := by
  induction hctx generalizing t with
  | nil => exact ⟨_, ht⟩
  | red hf hsib _ ih => exact ih ((balanced_join_red hf).mpr ⟨rfl, ht, hsib⟩)
  | black hf hsib _ ih => exact ih ((balanced_join_black hf).mpr ⟨_, rfl, ht, hsib⟩)

/-- Split a balanced tree at a hole. -/
theorem Balanced.unplug {m : Nat} (h : Balanced red false m (Tree.plug ctx t)) :
    ∃ k n, BalancedCtx red k n ctx ∧ Balanced red k n t := by
  induction ctx generalizing t with
  | nil => exact ⟨_, _, .nil, h⟩
  | cons f ctx ih =>
    obtain ⟨k, n, hctx, ht⟩ := ih h
    by_cases hf : red f.label
    · obtain ⟨rfl, ht, hsib⟩ := (balanced_join_red hf).mp ht
      exact ⟨_, _, .red hf hsib hctx, ht⟩
    · obtain ⟨m, rfl, ht, hsib⟩ := (balanced_join_black hf).mp ht
      exact ⟨_, _, .black hf hsib hctx, ht⟩

end Context

section Paths

variable {red : α → Prop} {k : Bool} {n : Nat} {t : Tree α}

/-- All paths have the same number of black labels. -/
theorem Balanced.count_black [DecidablePred red] (h : Balanced red k n t) {p : List α}
    (hp : p ∈ t.paths) : p.countP (fun a => ¬red a) = n := by
  induction h generalizing p with
  | nil =>
    rw [List.mem_singleton.mp hp]
    rfl
  | red ha _ _ ihl ihr =>
    obtain ⟨q, hq, rfl⟩ := List.mem_map.mp hp
    rw [List.countP_cons_of_neg (by simpa using ha)]
    exact (List.mem_append.mp hq).elim ihl ihr
  | black ha _ _ ihl ihr =>
    obtain ⟨q, hq, rfl⟩ := List.mem_map.mp hp
    rw [List.countP_cons_of_pos (by simpa using ha)]
    exact congrArg (· + 1) ((List.mem_append.mp hq).elim ihl ihr)

/-- A path starts with a black label unless the root may be red, and no two red labels
follow each other on it. -/
theorem Balanced.path_colors (h : Balanced red k n t) {p : List α} (hp : p ∈ t.paths) :
    (k = false → ∀ a ∈ p.head?, ¬red a) ∧ p.IsChain fun a b => red a → ¬red b := by
  induction h generalizing p with
  | nil =>
    rw [List.mem_singleton.mp hp]
    exact ⟨nofun, .nil⟩
  | red ha _ _ ihl ihr =>
    obtain ⟨q, hq, rfl⟩ := List.mem_map.mp hp
    obtain ⟨hhead, hchain⟩ := (List.mem_append.mp hq).elim ihl ihr
    exact ⟨nofun, List.isChain_cons.mpr ⟨fun b hb _ => hhead rfl b hb, hchain⟩⟩
  | black ha _ _ ihl ihr =>
    obtain ⟨q, hq, rfl⟩ := List.mem_map.mp hp
    obtain ⟨-, hchain⟩ := (List.mem_append.mp hq).elim ihl ihr
    refine ⟨fun _ b hb => ?_, List.isChain_cons.mpr ⟨fun b _ hred => absurd hred ha, hchain⟩⟩
    rwa [← Option.mem_some_iff.mp hb]

/-- At most every second label of a path is red. -/
theorem Balanced.height_le (h : Balanced red k n t) : t.height ≤ 2 * n + k.toNat := by
  induction h with
  | nil => simp [Tree.height]
  | red _ _ _ ihl ihr =>
    simp only [Tree.height, Bool.toNat_false, Bool.toNat_true] at *
    omega
  | black _ _ _ ihl ihr =>
    simp only [Tree.height, Bool.toNat_true] at *
    omega

/-- A tree is full down to its black height. -/
theorem Balanced.two_pow_le (h : Balanced red k n t) : 2 ^ n ≤ t.toList.length + 1 := by
  induction h with
  | nil => simp
  | red _ _ _ ihl _ =>
    simp only [Tree.toList_node, List.length_append, List.length_cons]
    omega
  | black _ _ _ ihl ihr =>
    simp only [Tree.toList_node, List.length_append, List.length_cons, Nat.pow_succ]
    omega

/-- The height of a balanced tree with a black root is logarithmic in its size. -/
theorem Balanced.height_le_log (h : Balanced red false n t) :
    t.height ≤ 2 * Nat.log 2 (t.toList.length + 1) := by
  have hn : n ≤ Nat.log 2 (t.toList.length + 1) :=
    Nat.le_log_of_pow_le (by decide) h.two_pow_le
  have hheight := h.height_le
  simp only [Bool.toNat_false] at hheight
  omega

end Paths

section Deficient

/-- Trees that lack one black node on every path to have black height `n + 1`: either a black
root over one black node too few, or a red root that only has to be blackened. -/
inductive Deficient (red : α → Prop) (n : Nat) : Tree α → Prop where
  | black {t : Tree α} (h : Balanced red false n t) : Deficient red n t
  | red {l r : Tree α} {a : α} (ha : red a) (hl : Balanced red true n l)
      (hr : Balanced red true n r) : Deficient red n (.node l a r)

theorem Balanced.deficient {red : α → Prop} {k : Bool} {n : Nat} {t : Tree α}
    (h : Balanced red k n t) : Deficient red n t := by
  cases h with
  | nil => exact .black .nil
  | black ha hl hr => exact .black (.black ha hl hr)
  | red ha hl hr => exact .red ha hl.relax hr.relax

theorem deficient_join_red {red : α → Prop} {n : Nat} {near far : Tree α} {a : α} {d : Side}
    (ha : red a) (hn : Balanced red true n near) (hf : Balanced red true n far) :
    Deficient red n (.join d near a far) := by
  cases d
  · exact .red ha hn hf
  · exact .red ha hf hn

end Deficient

end MacKernel
