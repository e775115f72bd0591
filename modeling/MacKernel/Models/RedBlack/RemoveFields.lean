import MacKernel.Models.RedBlack.Augment
import MacKernel.Models.RedBlack.Remove

/-!
# The augmented field through a removal

Where `RB_REMOVE` takes out a node with an empty child it refreshes the parent of that
node only; where it takes out a successor it refreshes all nodes up to the root. The
repair refreshes the nodes of its rotations and the node above them. The condition that
this is enough is read off the path to the place of the removed node.
-/

namespace MacKernel.RedBlack

variable {A : Type} {w : Nat} {s s' : RbHead A w} {t t' u sib : Tree (Cell w)}
  {z : List (Frame (Cell w))} {c p : Cell w} {d : Side} {q : Option A}
  {f : BitVec w → Option A → Option A → A} {pl pl' : Place A w}

section Condition

/-- Both children of a node are black or null. -/
def childrenBlack (d : Side) (t : Tree (Cell w)) : Bool :=
  match t.view d with
  | none => true
  | some (x, _, y) => rootBlack x && rootBlack y

/-- The tree that one or two rotations put into the place of the node `p`, whose child on the
other side is `sib`. -/
def lastTree (d : Side) (u : Tree (Cell w)) (p : Cell w) (sib : Tree (Cell w)) :
    Tree (Cell w) :=
  match sib.view d with
  | none => .join d u p sib
  | some (_, _, y) =>
    Tree.rotate d (.join d u p (if rootBlack y then Tree.rotate d.opp sib else sib))

variable (f : BitVec w → Option A → Option A → A)

/-- Every node that the repair leaves alone has the right field already: the field of the
parent of the tree `t` was computed for the value `u` of `t`, and the fields above the parent
for the value `x` of the parent. -/
def RemoveKept : Option A → Option A → Tree (Cell w) → List (Frame (Cell w)) → Prop
  | _, _, _, [] => True
  | u, x, t, p :: z =>
    if rootBlack t then
      match p.sibling.view p.side with
      | none => True
      | some (inner, b, outer) =>
        if rootBlack p.sibling then
          if childrenBlack p.side p.sibling then
            -- No rotation here: the repair goes on at the parent.
            Keeps (atCell f) u (t.value (atCell f)) (p :: z) ∧
              RemoveKept x (aboveValue (atCell f) x z)
                (.join p.side t p.label (.join p.side inner { b with color := .red } outer)) z
          else KeepsAbove (atCell f) (aboveValue (atCell f) x z)
            ((lastTree p.side t p.label p.sibling).value (atCell f)) z
        else
          -- The first rotation makes `b` the parent of `p`; what follows refreshes `b` at most.
          KeepsAbove (atCell f) (aboveValue (atCell f) x z)
            ((Tree.rotate p.side (.join p.side t p.label p.sibling)).value (atCell f)) z ∧
          (childrenBlack p.side inner = false →
            Keeps (atCell f)
              ((Tree.rotate p.side (.join p.side t p.label p.sibling)).value (atCell f))
              ((Tree.join p.side (lastTree p.side t p.label inner) b outer).value (atCell f)) z)
    else Keeps (atCell f) u (t.value (atCell f)) (p :: z) ∧
      KeepsAbove (atCell f) x (t.value (atCell f)) (p :: z)

end Condition

/-- The fields during the repair: right in the tree, and around it computed for the values that
the condition is about. -/
def RemoveFields (f : BitVec w → Option A → Option A → A) (pl : Place A w) : Prop :=
  ∃ u x, Stores (atCell f) pl.head.fieldOf pl.tree ∧
    Renewed (atCell f) pl.head.fieldOf x u pl.path ∧ RemoveKept f u x pl.tree pl.path

section Moves

/-- The rotations at the end of the repair leave right fields in their tree and refresh the
node above. -/
theorem LastTurn.stores (h : LastTurn (recompute f) d z u p s sib s' t')
    (hu : Stores (atCell f) s.fieldOf u) (hsib : Stores (atCell f) s.fieldOf sib)
    (hz : StoresCtx (atCell f) s.fieldOf q z) :
    Stores (atCell f) s'.fieldOf t' ∧
      Renewed (atCell f) s'.fieldOf (aboveValue (atCell f) q z) (t'.value (atCell f)) z := by
  cases h with
  | outer hy haug h e =>
    obtain ⟨-, hx, hy⟩ := stores_join.mp hsib
    rw [← fieldOf_of_aug haug] at hu hx hy hz
    exact h.rotate_stores hu hx (stores_blackRoot.mpr hy) hz.renewed.beyond e
  | inner hy ha haug₁ h₁ e₁ haug₃ h₃ e₃ =>
    obtain ⟨-, hx, hy⟩ := stores_join.mp hsib
    obtain ⟨-, hx₁, hx₂⟩ := stores_join.mp hx
    rw [← fieldOf_of_aug haug₁] at hu hx₁ hx₂ hy hz
    obtain ⟨hfirst, hz₂⟩ := h₁.rotate_stores hy hx₂ hx₁ ⟨hu, hz⟩ e₁
    obtain ⟨-, hlow, hx₁⟩ := stores_join.mp hfirst
    obtain ⟨-, hu, hz⟩ := hz₂
    rw [← fieldOf_of_aug haug₃] at hu hlow hx₁ hz
    exact h₃.rotate_stores hu hx₁ (stores_join_color.mp hlow) hz.renewed.beyond e₃

/-- The tree that the rotations at the end leave has the value that the condition is about. -/
theorem LastTurn.value (h : LastTurn (recompute f) d z u p s sib s' t') :
    t'.value (atCell f) = (lastTree d u p sib).value (atCell f) := by
  cases h with
  | outer hy haug h e =>
    simp only [lastTree, Tree.view_join, hy, Bool.false_eq_true, if_false, Tree.rotate_join]
    cases d <;> simp [Tree.join, Tree.value, atCell]
  | @inner _ s₁ s₂ s₃ x₁ x₂ y a b hy ha haug₁ h₁ e₁ haug₃ h₃ e₃ =>
    simp only [lastTree, Tree.view_join, hy, if_true]
    rw [← Tree.join_opp d y b, ← Tree.join_opp d x₂ a x₁, Tree.rotate_join,
      Tree.join_opp d _ a x₁, Tree.rotate_join]
    cases d <;> rfl

/-- The rotations at the end happen unless both children of the sibling are black. -/
theorem LastTurn.childrenBlack (h : LastTurn (recompute f) d z u p s sib s' t') :
    childrenBlack d sib = false := by
  cases h with
  | outer hy haug h e => simp [RedBlack.childrenBlack, hy]
  | inner hy ha haug₁ h₁ e₁ haug₃ h₃ e₃ => simp [RedBlack.childrenBlack, ha]

/-- A tree with right fields everywhere meets the condition at its root. -/
theorem RemoveFields.root (h : Stores (atCell f) s.fieldOf t) : RemoveFields f ⟨s, [], t⟩ :=
  ⟨none, none, h, trivial, trivial⟩

/-- A tree with right fields everywhere meets the condition at a red node. -/
theorem RemoveFields.red (h : Stores (atCell f) s.fieldOf (Tree.plug z t))
    (hred : rootBlack t = false) : RemoveFields f ⟨s, z, t⟩ := by
  obtain ⟨ht, hz⟩ := stores_plug.mp h
  refine ⟨t.value (atCell f), aboveValue (atCell f) (t.value (atCell f)) z, ht, hz.renewed, ?_⟩
  cases z with
  | nil => trivial
  | cons p z =>
    simp only [RemoveKept, hred, Bool.false_eq_true, if_false]
    exact ⟨Keeps.refl, KeepsAbove.refl⟩

/-- The colour of the node that the last rotations turn does not matter for the value. -/
theorem value_lastTree_color {color : Color} :
    (lastTree d u { p with color := color } sib).value (atCell f) =
      (lastTree d u p sib).value (atCell f) := by
  have hrotate : ∀ r : Tree (Cell w),
      (Tree.rotate d (.join d u { p with color := color } r)).value (atCell f) =
        (Tree.rotate d (.join d u p r)).value (atCell f) := by
    intro r
    simp only [Tree.rotate, Tree.view_join]
    split <;> cases d <;> rfl
  unfold lastTree
  split
  · cases d <;> rfl
  · exact hrotate _

/-- The rotation of a red sibling above the node `p`, under the condition. -/
theorem Rep.redSibling_stores {x y : Tree (Cell w)} {b : Cell w} {a : BitVec w} {s₁ : RbHead A w}
    (h : Rep s₁ (Tree.plug z (.join d u { p with color := .red }
      (.join d x { b with color := .black } y)))) (haug : s₁.aug = s.aug)
    (e : rbRotate (recompute f) d s₁ p.addr = .ok (s', a))
    (hu : Stores (atCell f) s.fieldOf u)
    (hsib : Stores (atCell f) s.fieldOf (.join d x b y))
    (hz : StoresCtx (atCell f) s.fieldOf q z)
    (hk : KeepsAbove (atCell f) (aboveValue (atCell f) q z)
      ((Tree.rotate d (.join d u p (.join d x b y))).value (atCell f)) z) :
    Stores (atCell f) s'.fieldOf (Tree.plug (⟨d, { b with color := .black }, y⟩ :: z)
      (.join d u { p with color := .red } x)) := by
  obtain ⟨-, hx, hy⟩ := stores_join.mp hsib
  rw [← fieldOf_of_aug haug] at hu hx hy hz
  obtain ⟨htree, hz'⟩ := h.rotate_stores hu hx hy hz.renewed.beyond e
  rw [Tree.plug_cons]
  refine hz'.stores_plug htree ?_
  rw [Tree.rotate_join] at hk
  convert hk using 1
  cases d <;> rfl

/-- Every move of the repair keeps the fields as the condition wants them. -/
theorem RemoveFields.move (h : RemoveFields f pl) (hm : RemoveMove (recompute f) pl pl') :
    RemoveFields f pl' := by
  obtain ⟨u, q, ht, hz, hkept⟩ := h
  cases hm with
  | @lift s s' z t x y d p b hu hb hx hy haug =>
    obtain ⟨hp, hsib, hctx⟩ := hz
    have hblack : childrenBlack d (.join d x b y) = true := by simp [childrenBlack, hx, hy]
    simp only [RemoveKept, hu, Tree.view_join, rootBlack_of_not_red hb, hblack, if_true] at hkept
    obtain ⟨hkeep, hkept⟩ := hkept
    refine ⟨q, aboveValue (atCell f) q z, ?_, ?_, hkept⟩
    · rw [fieldOf_of_aug haug]
      refine stores_join.mpr ⟨?_, ht, stores_join_color.mp hsib⟩
      have hvalue := hp.trans hkeep
      rw [← Tree.value_join] at hvalue
      rw [hvalue]
      cases d <;> rfl
    · rw [fieldOf_of_aug haug]
      exact hctx.renewed
  | @last s s' z t x y t' d p b hu hb hlast =>
    obtain ⟨-, hsib, hctx⟩ := hz
    simp only [RemoveKept, hu, Tree.view_join, rootBlack_of_not_red hb, hlast.childrenBlack,
      if_true, Bool.false_eq_true, if_false] at hkept
    obtain ⟨htree, hz'⟩ := hlast.stores ht hsib hctx
    rw [← hlast.value] at hkept
    exact .root (hz'.stores_plug htree hkept)
  | @redLift s s₁ s₂ s' z t x₁ x₂ y d p b c hu hb haug₁ h₁ e₁ hx₁ hx₂ haug =>
    obtain ⟨-, hsib, hctx⟩ := hz
    have hred : rootBlack (.join d (.join d x₁ c x₂) b y) = false := by simp [hb]
    simp only [RemoveKept, hu, Tree.view_join, hred, if_true, Bool.false_eq_true,
      if_false] at hkept
    have hall := h₁.redSibling_stores haug₁ e₁ ht hsib hctx hkept.1
    refine .red ?_ (by simp)
    rw [fieldOf_of_aug haug]
    obtain ⟨htree, hz'⟩ := stores_plug.mp hall
    obtain ⟨hp, ht, hx⟩ := stores_join.mp htree
    have hvalue : (Tree.join d t { p with color := .red }
        (.join d x₁ { c with color := .red } x₂)).value (atCell f) =
        (Tree.join d t { p with color := .red } (.join d x₁ c x₂)).value (atCell f) := by
      cases d <;> rfl
    refine stores_plug.mpr ⟨stores_join.mpr ⟨hp.trans hvalue.symm, ht,
      stores_join_color.mp hx⟩, ?_⟩
    rw [hvalue]
    exact hz'
  | @redLast s s₁ s₂ s' z t x₁ x₂ y t' d p b c hu hb haug₁ h₁ e₁ hlast =>
    obtain ⟨-, hsib, hctx⟩ := hz
    have hred : rootBlack (.join d (.join d x₁ c x₂) b y) = false := by simp [hb]
    simp only [RemoveKept, hu, Tree.view_join, hred, if_true, Bool.false_eq_true,
      if_false] at hkept
    obtain ⟨hfirst, hsecond⟩ := hkept
    have hall := h₁.redSibling_stores haug₁ e₁ ht hsib hctx hfirst
    obtain ⟨htree, hz'⟩ := stores_plug.mp hall
    obtain ⟨-, ht, hx⟩ := stores_join.mp htree
    obtain ⟨htree', hz''⟩ := hlast.stores ht hx hz'
    refine .root (hz''.stores_plug htree' ?_)
    have hkeep := hsecond hlast.childrenBlack
    have hvalue := hlast.value
    rw [value_lastTree_color] at hvalue
    rw [Tree.rotate_join, Tree.value_join, Tree.value_join (t := lastTree _ _ _ _),
      ← hvalue] at hkeep
    convert hkeep using 1
    cases d <;> rfl

/-- The whole repair keeps the fields as the condition wants them. -/
theorem RemoveFields.moves (hm : Relation.ReflTransGen (RemoveMove (recompute f)) pl pl')
    (h : RemoveFields f pl) : RemoveFields f pl' := by
  induction hm with
  | refl => exact h
  | tail _ hm ih => exact ih.move hm

/-- Where the repair stops, the condition makes all fields right. -/
theorem RemoveFields.done (h : RemoveFields f pl)
    (hstop : pl.path = [] ∨ rootBlack pl.tree = false) :
    Stores (atCell f) pl.head.fieldOf (Tree.plug pl.path (blackRoot pl.tree)) := by
  obtain ⟨s, z, t⟩ := pl
  obtain ⟨u, x, ht, hz, hkept⟩ := h
  rw [stores_plug, stores_blackRoot, value_blackRoot]
  cases z with
  | nil => exact ⟨ht, trivial⟩
  | cons p z =>
    have hred : rootBlack t = false := hstop.resolve_left (List.cons_ne_nil p z)
    simp only [RemoveKept, hred, Bool.false_eq_true, if_false] at hkept
    exact ⟨ht, hz.keep hkept.1 hkept.2⟩

end Moves

section Remove

variable (f : BitVec w → Option A → Option A → A)

/-- The condition for the end of `RB_REMOVE` at the place of a removed node of this colour,
where the fields above the parent were computed for the value `x` of the parent. -/
def RestoreKept (color : Color) (x : Option A) (u : Tree (Cell w)) (z : List (Frame (Cell w))) :
    Prop :=
  match color with
  | .red => KeepsAbove (atCell f) x (u.value (atCell f)) z
  | .black => RemoveKept f (u.value (atCell f)) x u z

/-- The condition for the removal of a node with the colour and the address of `c`. -/
def RemoveKeeps (z : List (Frame (Cell w))) (l : Tree (Cell w)) (c : Cell w)
    (r : Tree (Cell w)) : Prop :=
  match l, r with
  | .nil, r => RestoreKept f c.color
      (aboveValue (atCell f) ((Tree.node .nil c r).value (atCell f)) z) r z
  | l, .nil => RestoreKept f c.color
      (aboveValue (atCell f) ((Tree.node l c .nil).value (atCell f)) z) l z
  | l, r =>
    match r.leftmost [] with
    | none => True
    | some (inner, m, u) => RestoreKept f m.color
        (aboveValue (atCell f) (u.value (atCell f)) (inner ++ ⟨.right, ⟨m.addr, c.color⟩, l⟩ :: z))
        u (inner ++ ⟨.right, ⟨m.addr, c.color⟩, l⟩ :: z)

variable {f}

theorem RestoreTrace.stores {color : Color}
    (h : RestoreTrace (recompute f) s z u color s' t') (hu : Stores (atCell f) s.fieldOf u)
    (hz : Renewed (atCell f) s.fieldOf q (u.value (atCell f)) z)
    (hk : RestoreKept f color q u z) : Stores (atCell f) s'.fieldOf t' := by
  rcases h with ⟨rfl, rfl, rfl⟩ | ⟨rfl, s₁, z₁, u₁, hmoves, hstop, haug, rfl⟩
  · exact hz.stores_plug hu hk
  · rw [fieldOf_of_aug haug]
    have hstart : RemoveFields f ⟨s, z, u⟩ := ⟨_, q, hu, hz, hk⟩
    exact (hstart.moves hmoves).done hstop

/-- The fields that the removal of a node with two children does not refresh before its walk to
the root are right. -/
theorem Rep.siblings_stores {l : Tree (Cell w)} {m : Cell w} {inner : List (Frame (Cell w))}
    {s₂ : RbHead A w}
    (h : Rep s (Tree.plug z (.node l c (Tree.plug inner (.join .left .nil m u)))))
    (hs : Stores (atCell f) s.fieldOf
      (Tree.plug z (.node l c (Tree.plug inner (.join .left .nil m u)))))
    (haug : ∀ v, v ≠ 0 → (∀ fr ∈ inner ++ ⟨.right, c, l⟩ :: z, v ≠ fr.label.addr) →
      s₂.aug v = s.aug v) :
    Stores (atCell f) s₂.fieldOf u ∧
      StoresSiblings (atCell f) s₂.fieldOf (inner ++ ⟨.right, ⟨m.addr, c.color⟩, l⟩ :: z) := by
  have hplug : Tree.plug z (.node l c (Tree.plug inner (.join .left .nil m u))) =
      Tree.plug (inner ++ ⟨.right, c, l⟩ :: z) (.join .left .nil m u) := by
    rw [Tree.plug_append]
    rfl
  rw [hplug] at h hs
  obtain ⟨hjoin, hctx⟩ := stores_plug.mp hs
  obtain ⟨-, -, hu⟩ := stores_join.mp hjoin
  have hn := (List.nodup_append.mp h.addrs_nodup).2.1
  have hsib : StoresSiblings (atCell f) s₂.fieldOf (inner ++ ⟨.right, c, l⟩ :: z) := by
    refine hctx.siblings.congr fun fr hfr b hb => haug b.addr ?_ fun fr' hfr' => ?_
    · exact (h.valid_label (Tree.mem_labels_of_mem_sibling hfr hb)).ne_zero
    · exact Tree.sibling_ne_label hn hfr hfr' hb
  refine ⟨hu.congr fun b hb => haug b.addr ?_ fun fr hfr => ?_, fun fr hfr => ?_⟩
  · exact (h.valid_tree (c := b) (by simp [Tree.join, hb])).ne_zero
  · exact h.addr_ne (c := b) (by simp [Tree.join, hb]) (Tree.label_mem_labels hfr)
  · rcases List.mem_append.mp hfr with hfr | hfr
    · exact hsib fr (List.mem_append_left _ hfr)
    · rcases List.mem_cons.mp hfr with rfl | hfr
      · exact hsib ⟨.right, c, l⟩ (by simp)
      · exact hsib fr (by simp [hfr])

/-- The condition at a node with an empty child. -/
theorem RemoveKeeps.single {l r : Tree (Cell w)} (h : RemoveKeeps f z l c r)
    (he : Tree.node l c r = .join d .nil c u) :
    RestoreKept f c.color
      (aboveValue (atCell f) ((Tree.join d .nil c u).value (atCell f)) z) u z := by
  cases d with
  | left =>
    obtain ⟨rfl, -, rfl⟩ := Tree.node.inj he
    exact h
  | right =>
    obtain ⟨rfl, -, rfl⟩ := Tree.node.inj he
    cases l <;> exact h

/-- The condition at a node with two children. -/
theorem RemoveKeeps.double {l : Tree (Cell w)} {m : Cell w} {inner : List (Frame (Cell w))}
    (h : RemoveKeeps f z l c (Tree.plug inner (.join .left .nil m u))) (hl : l ≠ .nil)
    (hside : ∀ fr ∈ inner, fr.side = .left) :
    RestoreKept f m.color
      (aboveValue (atCell f) (u.value (atCell f)) (inner ++ ⟨.right, ⟨m.addr, c.color⟩, l⟩ :: z))
      u (inner ++ ⟨.right, ⟨m.addr, c.color⟩, l⟩ :: z) := by
  have hleft : (Tree.plug inner (.join .left .nil m u)).leftmost [] = some (inner, m, u) := by
    have hplug := @Tree.leftmost_plug _ inner [] m u hside
    rwa [List.append_nil] at hplug
  have hr : Tree.plug inner (.join .left .nil m u) ≠ .nil :=
    Tree.plug_ne_nil (Tree.join_ne_nil _ _ _ _)
  obtain - | ⟨l₁, b, l₂⟩ := l
  · exact absurd rfl hl
  generalize Tree.plug inner (.join .left .nil m u) = r at h hleft hr
  obtain - | ⟨r₁, b', r₂⟩ := r
  · exact absurd rfl hr
  · simp only [RemoveKeeps, hleft] at h
    exact h

/-- `RB_REMOVE` leaves right fields, under the condition. -/
theorem RemoveTrace.stores {l r : Tree (Cell w)}
    (h : RemoveTrace (recompute f) s z c (.node l c r) s' t')
    (hrep : Rep s (Tree.plug z (.node l c r)))
    (hs : Stores (atCell f) s.fieldOf (Tree.plug z (.node l c r)))
    (hk : RemoveKeeps f z l c r) : Stores (atCell f) s'.fieldOf t' := by
  generalize ht : Tree.node l c r = t at h
  cases h with
  | single haug h hrest =>
    have hfield := fieldOf_of_aug haug
    rw [ht] at hs
    obtain ⟨hjoin, hctx⟩ := stores_plug.mp hs
    obtain ⟨-, -, hu⟩ := stores_join.mp hjoin
    obtain ⟨hu, hz⟩ := h.augmentAbove_stores (hfield ▸ hu) (hfield ▸ hctx.renewed.beyond)
    exact hrest.stores hu hz (hk.single ht)
  | double hl hside haug h e hrest =>
    obtain ⟨rfl, -, rfl⟩ := Tree.node.inj ht
    obtain ⟨hu, hsib⟩ := hrep.siblings_stores hs haug
    have hall := h.augmentUp_stores (by simp) hu hsib e
    obtain ⟨hu, hctx⟩ := stores_plug.mp hall
    exact hrest.stores hu hctx.renewed (hk.double hl hside)

end Remove

end MacKernel.RedBlack
