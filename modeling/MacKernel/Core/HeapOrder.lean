import MacKernel.Core.Tree

/-!
# Heap order in left-child, right-sibling trees

A binary tree read as a forest: the left child of a node begins the list of its
children and the right child is its next sibling. Heap order then compares a node
with everything in its left subtree.
-/

namespace MacKernel.Tree

variable {α : Type} {above above' : α → α → Prop}

/-- Every node is above all its descendants. -/
def HeapOrdered (above : α → α → Prop) : Tree α → Prop
  | nil => True
  | node children a siblings =>
      (∀ b ∈ children.toList, above a b) ∧ HeapOrdered above children ∧
        HeapOrdered above siblings

/-- Heap order only depends on the order between the labels of the tree. -/
theorem HeapOrdered.imp {t : Tree α}
    (h : ∀ a ∈ t.toList, ∀ b ∈ t.toList, above a b → above' a b)
    (ht : t.HeapOrdered above) : t.HeapOrdered above' := by
  induction t with
  | nil => trivial
  | node ch a sib ihc ihs =>
    obtain ⟨ha, hc, hs⟩ := ht
    refine ⟨fun b hb => h a (by simp) b (by simp [hb]) (ha b hb),
      ihc (fun x hx y hy => h x (by simp [hx]) y (by simp [hy])) hc,
      ihs (fun x hx y hy => h x (by simp [hx]) y (by simp [hy])) hs⟩

/-- The tree in the hole of a heap-ordered tree is heap-ordered. -/
theorem HeapOrdered.of_plug {ctx : List (Frame α)} {t : Tree α}
    (h : (plug ctx t).HeapOrdered above) : t.HeapOrdered above := by
  induction ctx generalizing t with
  | nil => exact h
  | cons f ctx ih =>
    obtain ⟨d, a, sib⟩ := f
    cases d
    · exact (ih h).2.1
    · exact (ih h).2.2

/-- A heap-ordered tree with some of the labels may replace the tree in the hole. -/
theorem HeapOrdered.plug_of_subset {ctx : List (Frame α)} {t t' : Tree α}
    (h : (plug ctx t).HeapOrdered above) (ht' : t'.HeapOrdered above)
    (hsub : t'.toList ⊆ t.toList) : (plug ctx t').HeapOrdered above := by
  induction ctx generalizing t t' with
  | nil => exact ht'
  | cons f ctx ih =>
    obtain ⟨d, a, sib⟩ := f
    have hj : (join d t a sib).HeapOrdered above := of_plug h
    refine ih h ?_ ?_
    · cases d
      · exact ⟨fun b hb => hj.1 b (hsub hb), ht', hj.2.2⟩
      · exact ⟨hj.1, hj.2.1, ht'⟩
    · cases d
      · exact fun b hb => by
          simp only [join, toList_node, List.mem_append] at hb ⊢
          exact hb.imp_left (fun hb => hsub hb)
      · exact fun b hb => by
          simp only [join, toList_node, List.mem_append, List.mem_cons] at hb ⊢
          exact hb.imp_right (fun hb => hb.imp_right (fun hb => hsub hb))

end MacKernel.Tree
