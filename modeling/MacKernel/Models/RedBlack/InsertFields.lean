import MacKernel.Models.RedBlack.Augment
import MacKernel.Models.RedBlack.Insert

/-!
# The augmented field through an insertion

`RB_INSERT` refreshes the parent of the new element, and its repair refreshes the nodes of
its rotations and the node above them. All other ancestors keep the field they had. The
condition that this is enough is read off the path to the new element.
-/

namespace MacKernel.RedBlack

variable {A : Type} {w : Nat} {s s' : RbHead A w} {t t' near far sib uncle : Tree (Cell w)}
  {z : List (Frame (Cell w))} {c p g : Cell w} {d e : Side} {elm : BitVec w}
  {f : BitVec w → Option A → Option A → A} {pl pl' : Place A w}

section Condition

variable (f)

/-- Every node that the repair leaves alone has the right field already: the field at the root
of the tree `t` and that of the parent were computed for the value `u` of `t`, and the fields
above the parent for the value `x` of the parent. -/
def InsertKept : Option A → Option A → Tree (Cell w) → List (Frame (Cell w)) → Prop
  | u, _, t, [] => u = t.value (atCell f)
  | u, _, t, [_] => u = t.value (atCell f)
  | u, x, t, p :: g :: z =>
    if p.label.Red then
      if rootBlack g.sibling then
        if p.side = g.side then
          -- One rotation: it refreshes neither the tree nor what is above `z.head?`.
          u = t.value (atCell f) ∧
            KeepsAbove (atCell f) (aboveValue (atCell f) (g.value (atCell f) x) z)
              ((Tree.rotate g.side.opp (.join g.side (.join p.side t p.label p.sibling)
                g.label g.sibling)).value (atCell f)) z
        else
          -- Two rotations: the first refreshes the root of the tree.
          KeepsAbove (atCell f) (aboveValue (atCell f) (g.value (atCell f) x) z)
            ((Tree.rotate g.side.opp (.join g.side
              (Tree.rotate g.side (.join p.side t p.label p.sibling))
              g.label g.sibling)).value (atCell f)) z
      else
        -- No rotation here: the repair goes on at the grandparent.
        u = t.value (atCell f) ∧
          InsertKept (g.value (atCell f) x) (aboveValue (atCell f) (g.value (atCell f) x) z)
            (.join g.side (.join p.side t { p.label with color := .black } p.sibling)
              { g.label with color := .red } (blackRoot g.sibling)) z
    else u = t.value (atCell f) ∧
      KeepsAbove (atCell f) x (t.value (atCell f)) (p :: g :: z)

end Condition

/-- The fields during the repair: right below the root of the tree, and around it computed for
the values that the condition is about. -/
def InsertFields (f : BitVec w → Option A → Option A → A) (pl : Place A w) : Prop :=
  ∃ x, StoresBelow (atCell f) pl.head.fieldOf pl.tree ∧
    Renewed (atCell f) pl.head.fieldOf x (pl.tree.stored pl.head.fieldOf) pl.path ∧
    InsertKept f (pl.tree.stored pl.head.fieldOf) x pl.tree pl.path

section Moves

/-- The tree with a right field at its root. -/
theorem stores_of_stored (hb : StoresBelow (atCell f) s.fieldOf t)
    (hu : t.stored s.fieldOf = t.value (atCell f)) : Stores (atCell f) s.fieldOf t :=
  stores_iff.mpr ⟨hu, hb⟩

/-- After the last rotation of the repair all fields are right. -/
theorem InsertFields.turned {fr : Frame (Cell w)} {q : Option A}
    (hjoin : Stores (atCell f) s.fieldOf (.join fr.side t fr.label fr.sibling))
    (hz : Renewed (atCell f) s.fieldOf q
      ((Tree.join fr.side t fr.label fr.sibling).value (atCell f)) z)
    (hk : KeepsAbove (atCell f) q ((Tree.join fr.side t fr.label fr.sibling).value (atCell f)) z)
    (hblack : ¬fr.label.Red) : InsertFields f ⟨s, fr :: z, t⟩ := by
  obtain ⟨hlabel, ht, hsib⟩ := stores_join.mp hjoin
  obtain ⟨hu, hbelow⟩ := stores_iff.mp ht
  have hctx := hz.keep Keeps.refl hk
  rw [Tree.value_join] at hlabel hctx
  refine ⟨aboveValue (atCell f) (t.value (atCell f)) (fr :: z), hbelow, ?_, ?_⟩
  · rw [hu]
    exact ⟨hlabel, hsib, hctx⟩
  · rw [hu]
    cases z with
    | nil => rfl
    | cons g z =>
      rw [InsertKept, if_neg hblack]
      exact ⟨rfl, KeepsAbove.refl⟩

/-- Every move of the repair keeps the fields as the condition wants them. -/
theorem InsertFields.move (h : InsertFields f pl) (hm : InsertMove (recompute f) pl pl') :
    InsertFields f pl' := by
  obtain ⟨x, hbelow, hz, hkept⟩ := h
  cases hm with
  | @lift s s' z t sib uncle d e p g hp huncle haug =>
    obtain ⟨hpf, hsib, hgf, huncleS, hctx⟩ := hz
    simp only [InsertKept, if_pos hp, huncle, Bool.false_eq_true, if_false] at hkept
    obtain ⟨hu, hkept⟩ := hkept
    have ht := stores_of_stored hbelow hu
    have hfield := fieldOf_of_aug haug
    have hg : (Tree.join d (.join e t { p with color := .black } sib) { g with color := .red }
        (blackRoot uncle)).stored s'.fieldOf = Frame.value (atCell f) ⟨d, g, uncle⟩ x := by
      rw [Tree.stored_join, hfield]
      exact hgf
    rw [hu] at hpf
    refine ⟨_, ?_, ?_, hg ▸ hkept⟩
    · rw [hfield]
      refine storesBelow_join.mpr ⟨stores_join.mpr ⟨?_, ht, hsib⟩, stores_blackRoot.mpr huncleS⟩
      rw [Tree.value_join]
      exact hpf
    · rw [hg, hfield]
      exact hctx.renewed
  | @outer s s₁ s' z t sib uncle d p g hp huncle haug h e =>
    obtain ⟨-, hsib, -, huncleS, hctx⟩ := hz
    simp only [InsertKept, if_pos hp, huncle, if_true] at hkept
    obtain ⟨hu, hkept⟩ := hkept
    have ht := stores_of_stored hbelow hu
    rw [← fieldOf_of_aug haug] at ht hsib huncleS hctx
    obtain ⟨htree, hz'⟩ := h.rotate_stores huncleS hsib ht hctx.renewed.beyond e
    rw [Tree.join_opp d _ _ t] at htree hz'
    refine .turned htree hz' ?_ not_red_black
    rw [← Tree.join_opp d uncle, ← Tree.join_opp d sib p t, Tree.rotate_join] at hkept
    convert hkept using 1
    cases d <;> rfl
  | @inner s s₀ s₁ s' z near far sib uncle d c p g hp huncle h₀ e₀ haug h e =>
    obtain ⟨-, hsib, -, huncleS, hctx⟩ := hz
    simp only [InsertKept, if_pos hp, huncle, if_true, if_neg (Side.opp_ne d)] at hkept
    obtain ⟨hnear, hfar⟩ := storesBelow_join.mp hbelow
    obtain ⟨hfirst, hz₀⟩ := h₀.rotate_stores hsib hnear hfar ⟨huncleS, hctx⟩ e₀
    obtain ⟨-, hlow, hfar⟩ := stores_join.mp hfirst
    obtain ⟨-, huncleS, hctx⟩ := hz₀
    rw [← fieldOf_of_aug haug] at hlow hfar huncleS hctx
    obtain ⟨htree, hz'⟩ := h.rotate_stores huncleS hfar hlow hctx.renewed.beyond e
    rw [Tree.join_opp d _ _ (.join d sib p near)] at htree hz'
    refine .turned htree hz' ?_ not_red_black
    rw [Tree.join_opp d _ p, Tree.rotate_join, ← Tree.join_opp d uncle,
      ← Tree.join_opp d far c, Tree.rotate_join] at hkept
    convert hkept using 1
    cases d <;> rfl

/-- The whole repair keeps the fields as the condition wants them. -/
theorem InsertFields.moves (hm : Relation.ReflTransGen (InsertMove (recompute f)) pl pl')
    (h : InsertFields f pl) : InsertFields f pl' := by
  induction hm with
  | refl => exact h
  | tail _ hm ih => exact ih.move hm

/-- Where the repair stops, the condition makes all fields right. -/
theorem InsertFields.done (h : InsertFields f pl) (hstop : ∀ fr ∈ pl.path.head?, ¬fr.label.Red) :
    Stores (atCell f) pl.head.fieldOf (Tree.plug pl.path pl.tree) := by
  obtain ⟨s, z, t⟩ := pl
  obtain ⟨x, hbelow, hz, hkept⟩ := h
  obtain ⟨hu, hk⟩ : t.stored s.fieldOf = t.value (atCell f) ∧
      KeepsAbove (atCell f) x (t.value (atCell f)) z := by
    obtain - | ⟨p, - | ⟨g, z⟩⟩ := z
    · exact ⟨hkept, trivial⟩
    · exact ⟨hkept, trivial⟩
    · have hp : ¬p.label.Red := hstop p rfl
      simp only [InsertKept, if_neg hp] at hkept
      exact hkept
  refine stores_plug.mpr ⟨stores_of_stored hbelow hu, hz.keep ?_ hk⟩
  rw [hu]
  exact Keeps.refl

end Moves

section Insert

/-- The condition for an insertion at the hole of a context. -/
def InsertKeeps (f : BitVec w → Option A → Option A → A) (elm : BitVec w)
    (z : List (Frame (Cell w))) : Prop :=
  InsertKept f (some (f elm none none)) (aboveValue (atCell f) none z)
    (.node .nil ⟨elm, .red⟩ .nil) z

/-- `RB_INSERT` of an element whose field is that of a leaf leaves right fields, under the
condition. -/
theorem InsertTrace.stores (h : InsertTrace (recompute f) s z elm s' t')
    (hs : Stores (atCell f) s.fieldOf (Tree.plug z .nil)) (helm : s.aug elm = f elm none none)
    (hk : InsertKeeps f elm z) : Stores (atCell f) s'.fieldOf t' := by
  obtain ⟨s₀, s₁, z₁, t₁, haug, hrep, hmoves, hstop, haug', rfl⟩ := h
  have hfield := fieldOf_of_aug haug
  obtain ⟨-, hctx⟩ := stores_plug.mp hs
  have hleaf : Stores (atCell f) s.fieldOf (.node .nil ⟨elm, .red⟩ .nil) :=
    ⟨helm, trivial, trivial⟩
  obtain ⟨ht, hz⟩ := hrep.augmentAbove_stores (hfield ▸ hleaf) (hfield ▸ hctx.renewed.beyond)
  obtain ⟨hu, hbelow⟩ := stores_iff.mp ht
  have hstart : InsertFields f ⟨rbAugmentAbove (recompute f) s₀ (above z), z,
      .node .nil ⟨elm, .red⟩ .nil⟩ := by
    refine ⟨aboveValue (atCell f) none z, hbelow, ?_, ?_⟩
    · rw [hu]
      exact hz
    · rw [hu]
      exact hk
  rw [stores_blackRoot, fieldOf_of_aug haug']
  exact (hstart.moves hmoves).done hstop

end Insert

end MacKernel.RedBlack
