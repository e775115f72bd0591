import Mathlib.Data.List.Basic
import Mathlib.Data.List.Nodup
import Mathlib.Data.List.Perm.Basic

/-!
# Binary trees, contexts and linked representations

Labelled binary trees with one-hole contexts, and the predicate that a tree is
laid out in memory with a parent link in every node. The link predicate of a
node is a parameter, so the same splitting and frame rules serve any intrusive
node format. Operations that exist in two mirror images are stated once for a
side.
-/

namespace MacKernel

/-- One of the two children of a node. -/
inductive Side where
  | left
  | right
  deriving DecidableEq, Repr

/-- The other side. -/
def Side.opp : Side → Side
  | .left => .right
  | .right => .left

@[simp] theorem Side.opp_opp (d : Side) : d.opp.opp = d := by cases d <;> rfl

@[simp] theorem Side.opp_ne (d : Side) : d.opp ≠ d := by cases d <;> decide

/-- Binary trees with labels at their nodes. -/
inductive Tree (α : Type) where
  | nil
  | node (left : Tree α) (label : α) (right : Tree α)
  deriving DecidableEq, Repr

/-- One step of a path from a hole to the root: the hole is the child on `side`
of a node with this label and this other child. -/
structure Frame (α : Type) where
  side : Side
  label : α
  sibling : Tree α

namespace Tree

variable {α : Type}

/-- The labels in order. -/
def toList : Tree α → List α
  | nil => []
  | node l a r => l.toList ++ a :: r.toList

/-- A node given by its child on one side and its child on the other. -/
def join (d : Side) (near : Tree α) (a : α) (far : Tree α) : Tree α :=
  match d with
  | .left => node near a far
  | .right => node far a near

/-- Put a tree into the hole of a context, innermost frame first. -/
def plug : List (Frame α) → Tree α → Tree α
  | [], t => t
  | f :: ctx, t => plug ctx (join f.side t f.label f.sibling)

/-- The labels that a context puts before its hole. -/
def before : List (Frame α) → List α
  | [] => []
  | ⟨.left, _, _⟩ :: ctx => before ctx
  | ⟨.right, a, sib⟩ :: ctx => before ctx ++ sib.toList ++ [a]

/-- The labels that a context puts after its hole. -/
def after : List (Frame α) → List α
  | [] => []
  | ⟨.left, a, sib⟩ :: ctx => a :: sib.toList ++ after ctx
  | ⟨.right, _, _⟩ :: ctx => after ctx

/-- The labels of a context, innermost frame first. -/
def labels : List (Frame α) → List α
  | [] => []
  | f :: ctx => f.label :: f.sibling.toList ++ labels ctx

@[simp] theorem toList_nil : (nil : Tree α).toList = [] := rfl

@[simp] theorem toList_node (l : Tree α) (a : α) (r : Tree α) :
    (node l a r).toList = l.toList ++ a :: r.toList := rfl

@[simp] theorem plug_nil (t : Tree α) : plug [] t = t := rfl

@[simp] theorem plug_cons (f : Frame α) (ctx : List (Frame α)) (t : Tree α) :
    plug (f :: ctx) t = plug ctx (join f.side t f.label f.sibling) := rfl

/-- A node is not the empty tree. -/
theorem node_ne_nil (l : Tree α) (a : α) (r : Tree α) : node l a r ≠ nil := by
  simp

/-- A joined tree is not empty. -/
theorem join_ne_nil (d : Side) (near : Tree α) (a : α) (far : Tree α) :
    join d near a far ≠ nil := by
  cases d <;> exact node_ne_nil _ _ _

/-- Joining on the other side exchanges near and far. -/
theorem join_opp (d : Side) (near : Tree α) (a : α) (far : Tree α) :
    join d.opp near a far = join d far a near := by
  cases d <;> rfl

/-- A hole is filled frame by frame. -/
theorem plug_append (inner outer : List (Frame α)) (t : Tree α) :
    plug (inner ++ outer) t = plug outer (plug inner t) := by
  induction inner generalizing t with
  | nil => rfl
  | cons f inner ih => exact ih _

/-- What is around a hole keeps a tree from being empty. -/
theorem plug_ne_nil {ctx : List (Frame α)} {t : Tree α} (h : t ≠ nil) : plug ctx t ≠ nil := by
  induction ctx generalizing t with
  | nil => exact h
  | cons f ctx ih => exact ih (join_ne_nil _ _ _ _)

/-- The labels around a hole are those of its frames. -/
theorem labels_append (inner outer : List (Frame α)) :
    labels (inner ++ outer) = labels inner ++ labels outer := by
  induction inner with
  | nil => rfl
  | cons f inner ih => simp [labels, ih]

/-- A tree in a context is listed between what comes before and after the hole. -/
theorem toList_plug (ctx : List (Frame α)) (t : Tree α) :
    (plug ctx t).toList = before ctx ++ t.toList ++ after ctx := by
  induction ctx generalizing t with
  | nil => simp [before, after]
  | cons f ctx ih =>
    obtain ⟨d, a, sib⟩ := f
    cases d <;> simp [ih, join, before, after]

/-- A path that stays on the left leaves nothing before its hole. -/
theorem before_eq_nil {ctx : List (Frame α)} (h : ∀ f ∈ ctx, f.side = .left) :
    before ctx = [] := by
  induction ctx with
  | nil => rfl
  | cons f ctx ih =>
    obtain ⟨d, a, sib⟩ := f
    obtain rfl : d = .left := h ⟨d, a, sib⟩ List.mem_cons_self
    exact ih fun g hg => h g (List.mem_cons_of_mem _ hg)

/-- A path that stays on the right leaves nothing after its hole. -/
theorem after_eq_nil {ctx : List (Frame α)} (h : ∀ f ∈ ctx, f.side = .right) :
    after ctx = [] := by
  induction ctx with
  | nil => rfl
  | cons f ctx ih =>
    obtain ⟨d, a, sib⟩ := f
    obtain rfl : d = .right := h ⟨d, a, sib⟩ List.mem_cons_self
    exact ih fun g hg => h g (List.mem_cons_of_mem _ hg)

/-- The labels of a path that stays on the left come after its hole. -/
theorem labels_perm_after {ctx : List (Frame α)} (h : ∀ f ∈ ctx, f.side = .left) :
    (labels ctx).Perm (after ctx) := by
  induction ctx with
  | nil => exact .refl _
  | cons f ctx ih =>
    obtain ⟨d, a, sib⟩ := f
    obtain rfl : d = .left := h ⟨d, a, sib⟩ List.mem_cons_self
    exact (ih fun g hg => h g (List.mem_cons_of_mem _ hg)).append_left (a :: sib.toList)

/-- The labels of a path that stays on the right come before its hole. -/
theorem labels_perm_before {ctx : List (Frame α)} (h : ∀ f ∈ ctx, f.side = .right) :
    (labels ctx).Perm (before ctx) := by
  induction ctx with
  | nil => exact .refl _
  | cons f ctx ih =>
    obtain ⟨d, a, sib⟩ := f
    obtain rfl : d = .right := h ⟨d, a, sib⟩ List.mem_cons_self
    have hctx := ih fun g hg => h g (List.mem_cons_of_mem _ hg)
    have hswap : (sib.toList ++ labels ctx).Perm (before ctx ++ sib.toList) :=
      List.perm_append_comm.trans (hctx.append_right _)
    exact (hswap.cons a).trans (List.perm_append_singleton a _).symm

/-- The labels of a joined tree, in whatever order its parts stand. -/
theorem toList_join_perm (d : Side) (near : Tree α) (a : α) (far : Tree α) :
    (join d near a far).toList.Perm (near.toList ++ a :: far.toList) := by
  cases d with
  | left => exact .refl _
  | right =>
    refine List.perm_append_comm.trans ?_
    rw [List.cons_append]
    exact (@List.perm_middle α a near.toList far.toList).symm

/-- The labels of a tree in a context are those of the tree and of the context. -/
theorem toList_plug_perm (ctx : List (Frame α)) (t : Tree α) :
    (plug ctx t).toList.Perm (t.toList ++ labels ctx) := by
  induction ctx generalizing t with
  | nil => simp [labels]
  | cons f ctx ih =>
    rw [plug_cons, labels, ← List.append_assoc]
    exact (ih _).trans ((toList_join_perm _ _ _ _).append_right _)

/-- The labels of a filled hole are those inside and those around. -/
theorem mem_plug {ctx : List (Frame α)} {t : Tree α} {a : α} :
    a ∈ (plug ctx t).toList ↔ a ∈ t.toList ∨ a ∈ labels ctx := by
  rw [(toList_plug_perm ctx t).mem_iff, List.mem_append]

/-- A path is no longer than the tree has labels. -/
theorem length_ctx_le (ctx : List (Frame α)) (t : Tree α) :
    t.toList.length + ctx.length ≤ (plug ctx t).toList.length := by
  induction ctx generalizing t with
  | nil => simp
  | cons f ctx ih =>
    have := ih (join f.side t f.label f.sibling)
    rw [(toList_join_perm _ _ _ _).length_eq, List.length_append, List.length_cons] at this
    rw [plug_cons, List.length_cons]
    omega

/-- A tree in a context has no label twice exactly when neither part has and the
parts share none. -/
theorem nodup_plug {ctx : List (Frame α)} {t : Tree α} :
    (plug ctx t).toList.Nodup ↔ t.toList.Nodup ∧ (labels ctx).Nodup ∧
      ∀ a ∈ t.toList, ∀ b ∈ labels ctx, a ≠ b := by
  rw [(toList_plug_perm ctx t).nodup_iff, List.nodup_append]

/-- Every label of a tree is at the focus of some context. -/
theorem exists_plug {t : Tree α} {a : α} (h : a ∈ t.toList) :
    ∃ ctx l r, t = plug ctx (node l a r) := by
  induction t with
  | nil => cases h
  | node l b r ihl ihr =>
    rw [toList_node, List.mem_append, List.mem_cons] at h
    rcases h with h | rfl | h
    · obtain ⟨ctx, x, y, rfl⟩ := ihl h
      exact ⟨ctx ++ [⟨.left, b, r⟩], x, y, by rw [plug_append]; rfl⟩
    · exact ⟨[], l, r, rfl⟩
    · obtain ⟨ctx, x, y, rfl⟩ := ihr h
      exact ⟨ctx ++ [⟨.right, b, l⟩], x, y, by rw [plug_append]; rfl⟩

/-- The labels in order towards a side. -/
def toward (d : Side) (t : Tree α) : List α :=
  match d with
  | .left => t.toList.reverse
  | .right => t.toList

/-- The labels of a context that come after its hole in order towards a side. -/
def beyond (d : Side) : List (Frame α) → List α
  | [] => []
  | f :: ctx => if f.side = d then beyond d ctx
      else f.label :: toward d f.sibling ++ beyond d ctx

/-- Toward a side, the far part comes first. -/
theorem toward_join (d : Side) (near : Tree α) (a : α) (far : Tree α) :
    toward d (join d near a far) = toward d far ++ a :: toward d near := by
  cases d <;> simp [toward, join]

/-- A tree in a context is listed between what comes before and after the hole, towards
either side. -/
theorem toward_plug (d : Side) (ctx : List (Frame α)) (t : Tree α) :
    toward d (plug ctx t) = (beyond d.opp ctx).reverse ++ toward d t ++ beyond d ctx := by
  induction ctx generalizing t with
  | nil => simp [beyond]
  | cons f ctx ih =>
    obtain ⟨e, a, sib⟩ := f
    rw [plug_cons, ih]
    cases d <;> cases e <;> simp [join, beyond, toward, Side.opp]

/-- A path that stays on one side leaves nothing beyond its hole on that side. -/
theorem beyond_eq_nil {d : Side} {ctx : List (Frame α)} (h : ∀ f ∈ ctx, f.side = d) :
    beyond d ctx = [] := by
  induction ctx with
  | nil => rfl
  | cons f ctx ih =>
    rw [beyond, if_pos (h f List.mem_cons_self)]
    exact ih fun g hg => h g (List.mem_cons_of_mem _ hg)

/-- Below a frame of the other side, its label and sibling are beyond the hole. -/
theorem beyond_cons_of_ne {d : Side} {f : Frame α} {ctx : List (Frame α)} (h : f.side ≠ d) :
    beyond d (f :: ctx) = f.label :: (toward d f.sibling ++ beyond d ctx) :=
  if_neg h

end Tree

section Linked

variable {α P : Type} (addr : α → P) (null : P)

/-- The pointer to a tree: the address of its root, or null. -/
def Tree.root : Tree α → P
  | .nil => null
  | .node _ a _ => addr a

/-- The pointer to the node around a hole, or null at the top. -/
def parentOf : List (Frame α) → P
  | [] => null
  | f :: _ => addr f.label

variable (links : α → P → P → P → Prop)

/-- Every node of the tree is linked to its parent, its left and its right child. -/
def Linked (parent : P) : Tree α → Prop
  | .nil => True
  | .node l a r => links a parent (l.root addr null) (r.root addr null) ∧
      Linked (addr a) l ∧ Linked (addr a) r

/-- Every node of a context is linked, with `hole` as the pointer at the hole. -/
def LinkedCtx (hole : P) : List (Frame α) → Prop
  | [] => True
  | ⟨.left, a, sib⟩ :: ctx =>
      links a (parentOf addr null ctx) hole (sib.root addr null) ∧
        Linked addr null links (addr a) sib ∧ LinkedCtx (addr a) ctx
  | ⟨.right, a, sib⟩ :: ctx =>
      links a (parentOf addr null ctx) (sib.root addr null) hole ∧
        Linked addr null links (addr a) sib ∧ LinkedCtx (addr a) ctx

variable {addr null links}

@[simp] theorem Tree.root_nil : (Tree.nil : Tree α).root addr null = null := rfl

@[simp] theorem Tree.root_node (l : Tree α) (a : α) (r : Tree α) :
    (Tree.node l a r).root addr null = addr a := rfl

@[simp] theorem Tree.root_join (d : Side) (near : Tree α) (a : α) (far : Tree α) :
    (Tree.join d near a far).root addr null = addr a := by
  cases d <;> rfl

/-- The pointer to a tree in a context depends on the tree in the hole only through its
own pointer. -/
theorem Tree.root_plug_congr {ctx : List (Frame α)} {t t' : Tree α}
    (h : t.root addr null = t'.root addr null) :
    (plug ctx t).root addr null = (plug ctx t').root addr null := by
  induction ctx generalizing t t' with
  | nil => exact h
  | cons f ctx ih => exact ih (by rw [root_join, root_join])

/-- A tree in a context is linked exactly when both parts are, agreeing on the
pointers between them. -/
theorem linked_plug (ctx : List (Frame α)) (t : Tree α) :
    Linked addr null links null (Tree.plug ctx t) ↔
      LinkedCtx addr null links (t.root addr null) ctx ∧
        Linked addr null links (parentOf addr null ctx) t := by
  induction ctx generalizing t with
  | nil => simp [LinkedCtx, parentOf]
  | cons f ctx ih =>
    obtain ⟨d, a, sib⟩ := f
    rw [Tree.plug_cons, ih]
    cases d <;> simp only [Tree.join, Tree.root_node, LinkedCtx, Linked, parentOf] <;> tauto

/-- Links that persist on the labels of a tree keep it linked. -/
theorem Linked.imp {links' : α → P → P → P → Prop} {parent : P} {t : Tree α}
    (h : ∀ a ∈ t.toList, ∀ p l r, links a p l r → links' a p l r)
    (ht : Linked addr null links parent t) : Linked addr null links' parent t := by
  induction t generalizing parent with
  | nil => trivial
  | node l a r ihl ihr =>
    obtain ⟨ha, hl, hr⟩ := ht
    exact ⟨h a (by simp) _ _ _ ha, ihl (fun b hb => h b (by simp [hb])) hl,
      ihr (fun b hb => h b (by simp [hb])) hr⟩

/-- Links that persist on the labels of a context keep it linked. -/
theorem LinkedCtx.imp {links' : α → P → P → P → Prop} {hole : P} {ctx : List (Frame α)}
    (h : ∀ a ∈ Tree.labels ctx, ∀ p l r, links a p l r → links' a p l r)
    (hc : LinkedCtx addr null links hole ctx) : LinkedCtx addr null links' hole ctx := by
  induction ctx generalizing hole with
  | nil => trivial
  | cons f ctx ih =>
    obtain ⟨d, a, sib⟩ := f
    cases d <;> obtain ⟨ha, hs, hc⟩ := hc <;> simp only [Tree.labels] at h
    all_goals exact ⟨h a (by simp) _ _ _ ha, hs.imp (fun b hb => h b (by simp [hb])),
      ih (fun b hb => h b (by simp [hb])) hc⟩

/-- The links of a node read from one of its sides. -/
def onSide (links : α → P → P → P → Prop) (d : Side) (a : α) (parent near far : P) : Prop :=
  match d with
  | .left => links a parent near far
  | .right => links a parent far near

/-- The frames around a hole are linked if the innermost is and the others are. -/
theorem linkedCtx_cons {f : Frame α} {ctx : List (Frame α)} {hole : P} :
    LinkedCtx addr null links hole (f :: ctx) ↔
      onSide links f.side f.label (parentOf addr null ctx) hole (f.sibling.root addr null) ∧
        Linked addr null links (addr f.label) f.sibling ∧
        LinkedCtx addr null links (addr f.label) ctx := by
  obtain ⟨d, a, sib⟩ := f
  cases d <;> exact Iff.rfl

/-- Another tree is linked into a hole by changing the one node around it. -/
theorem Linked.plug_replace {links' : α → P → P → P → Prop} {f : Frame α}
    {ctx : List (Frame α)} {t t' : Tree α}
    (h : Linked addr null links null (Tree.plug (f :: ctx) t))
    (hf : ∀ parent far, onSide links f.side f.label parent (t.root addr null) far →
      onSide links' f.side f.label parent (t'.root addr null) far)
    (hrest : ∀ a ∈ f.sibling.toList ++ Tree.labels ctx, ∀ p l r,
      links a p l r → links' a p l r)
    (ht' : Linked addr null links' (addr f.label) t') :
    Linked addr null links' null (Tree.plug (f :: ctx) t') := by
  obtain ⟨hctx, -⟩ := (linked_plug _ _).mp h
  obtain ⟨hl, hsib, hctx⟩ := linkedCtx_cons.mp hctx
  refine (linked_plug _ _).mpr ⟨linkedCtx_cons.mpr ⟨hf _ _ hl, ?_, ?_⟩, ht'⟩
  · exact hsib.imp fun a ha => hrest a (List.mem_append_left _ ha)
  · exact hctx.imp fun a ha => hrest a (List.mem_append_right _ ha)

end Linked

end MacKernel
