import MacKernel.Core.Tree

/-!
# Trees that store a value of every subtree

A field of each node is computed from the node and the fields of its children. A tree
stores its values when every field is what recomputing the subtree gives. The fields
around a hole may have been computed for another value in the hole than the tree that
is there now; it is said here when that makes no difference.
-/

namespace MacKernel

variable {α A : Type}

section Shape

/-- The parts of a node read from one of its sides. -/
def Tree.view (d : Side) : Tree α → Option (Tree α × α × Tree α)
  | .nil => none
  | .node l a r =>
    match d with
    | .left => some (l, a, r)
    | .right => some (r, a, l)

@[simp] theorem Tree.view_join (d : Side) (near : Tree α) (a : α) (far : Tree α) :
    (join d near a far).view d = some (near, a, far) := by
  cases d <;> rfl

/-- The child of the root on the side opposite to `d` takes the place of the root. -/
def Tree.rotate (d : Side) (t : Tree α) : Tree α :=
  match t.view d with
  | none => t
  | some (ta, x, u) =>
    match u.view d with
    | none => t
    | some (tb, y, tc) => join d (join d ta x tb) y tc

@[simp] theorem Tree.rotate_join (d : Side) (ta tb tc : Tree α) (x y : α) :
    rotate d (join d ta x (join d tb y tc)) = join d (join d ta x tb) y tc := by
  simp [rotate]

/-- The leftmost node of a tree with its other child, in its context. -/
def Tree.leftmost : Tree α → List (Frame α) → Option (List (Frame α) × α × Tree α)
  | .nil, _ => none
  | .node l a r, ctx =>
    match l with
    | .nil => some (ctx, a, r)
    | .node _ _ _ => l.leftmost (⟨.left, a, r⟩ :: ctx)

/-- A path that stays on the left leads to the leftmost node. -/
theorem Tree.leftmost_plug {inner ctx : List (Frame α)} {a : α} {r : Tree α}
    (h : ∀ fr ∈ inner, fr.side = .left) :
    (plug inner (node nil a r)).leftmost ctx = some (inner ++ ctx, a, r) := by
  suffices hplug : ∀ t : Tree α, t ≠ nil →
      (plug inner t).leftmost ctx = t.leftmost (inner ++ ctx) from
    hplug _ (node_ne_nil _ _ _)
  induction inner with
  | nil => exact fun t _ => rfl
  | cons fr inner ih =>
    intro t ht
    obtain ⟨d, b, sib⟩ := fr
    obtain rfl : d = .left := h _ List.mem_cons_self
    have hin : ∀ fr ∈ inner, fr.side = .left := fun fr hfr => h fr (List.mem_cons_of_mem _ hfr)
    rw [plug_cons, ih hin _ (join_ne_nil _ _ _ _)]
    cases t with
    | nil => exact absurd rfl ht
    | node l c r => rfl

/-- What is in a sibling is around the hole. -/
theorem Tree.mem_labels_of_mem_sibling {ctx : List (Frame α)} {fr : Frame α} {a : α}
    (hfr : fr ∈ ctx) (ha : a ∈ fr.sibling.toList) : a ∈ labels ctx := by
  induction ctx with
  | nil => exact absurd hfr List.not_mem_nil
  | cons g ctx ih =>
    rw [labels]
    rcases List.mem_cons.mp hfr with rfl | hfr
    · simp [ha]
    · simp [ih hfr]

/-- The label of a frame is around the hole. -/
theorem Tree.label_mem_labels {ctx : List (Frame α)} {fr : Frame α} (hfr : fr ∈ ctx) :
    fr.label ∈ labels ctx := by
  induction ctx with
  | nil => exact absurd hfr List.not_mem_nil
  | cons g ctx ih =>
    rw [labels]
    rcases List.mem_cons.mp hfr with rfl | hfr
    · simp
    · simp [ih hfr]

/-- Along a context without repetitions no label of a node is one of a sibling. -/
theorem Tree.sibling_ne_label {β : Type} {key : α → β} {ctx : List (Frame α)}
    (h : ((labels ctx).map key).Nodup) {fr fr' : Frame α} {a : α} (hfr : fr ∈ ctx)
    (hfr' : fr' ∈ ctx) (ha : a ∈ fr.sibling.toList) : key a ≠ key fr'.label := by
  induction ctx with
  | nil => exact absurd hfr List.not_mem_nil
  | cons g ctx ih =>
    rw [labels, List.cons_append, List.map_cons, List.nodup_cons, List.map_append,
      List.nodup_append] at h
    obtain ⟨hg, -, hctx, hsib⟩ := h
    rcases List.mem_cons.mp hfr with rfl | hmem <;> rcases List.mem_cons.mp hfr' with rfl | hmem'
    · exact fun he => hg (he ▸ List.mem_append_left _ (List.mem_map_of_mem ha))
    · exact hsib _ (List.mem_map_of_mem ha) _ (List.mem_map_of_mem (label_mem_labels hmem'))
    · exact fun he => hg (he ▸ List.mem_append_right _
        (List.mem_map_of_mem (mem_labels_of_mem_sibling hmem ha)))
    · exact ih hctx hmem hmem'

end Shape

section Value

variable (f : α → Option A → Option A → A)

/-- The value of a tree, recomputed from its nodes. -/
def Tree.value : Tree α → Option A
  | .nil => none
  | .node l a r => some (f a l.value r.value)

/-- The value of the node around a hole from the value in the hole. -/
def Frame.value (fr : Frame α) (v : Option A) : Option A :=
  match fr.side with
  | .left => some (f fr.label v (fr.sibling.value f))
  | .right => some (f fr.label (fr.sibling.value f) v)

/-- The value of the node around the hole of a context, if there is one. -/
def aboveValue (v : Option A) : List (Frame α) → Option A
  | [] => none
  | fr :: _ => fr.value f v

/-- The node around a hole has the same value for both values in the hole. -/
def Keeps (v v' : Option A) : List (Frame α) → Prop
  | [] => True
  | fr :: _ => fr.value f v = fr.value f v'

/-- The node two above a hole has the same value if the node between has the value `x` and if
that is recomputed for `v` in the hole. -/
def KeepsAbove (x v : Option A) : List (Frame α) → Prop
  | [] => True
  | fr :: ctx => Keeps f x (fr.value f v) ctx

variable (field : α → A)

/-- Every node stores the value of its subtree. -/
def Stores : Tree α → Prop
  | .nil => True
  | .node l a r => field a = f a (l.value f) (r.value f) ∧ Stores l ∧ Stores r

/-- Every node of a context stores the value of its subtree with `v` in the hole. -/
def StoresCtx (v : Option A) : List (Frame α) → Prop
  | [] => True
  | fr :: ctx => some (field fr.label) = fr.value f v ∧ Stores f field fr.sibling ∧
      StoresCtx (fr.value f v) ctx

/-- The siblings along a context store their values, and the nodes from the second on store
theirs with `x` as the value of the first; nothing is said about the first. -/
def StoresBeyond (x : Option A) : List (Frame α) → Prop
  | [] => True
  | fr :: ctx => Stores f field fr.sibling ∧ StoresCtx f field x ctx

/-- The node around a hole stores its value with `u` in the hole, and the nodes further up
store theirs with `x` as its value. -/
def Renewed (x u : Option A) : List (Frame α) → Prop
  | [] => True
  | fr :: ctx => some (field fr.label) = fr.value f u ∧ Stores f field fr.sibling ∧
      StoresCtx f field x ctx

/-- The field at the root of a tree. -/
def Tree.stored : Tree α → Option A
  | .nil => none
  | .node _ a _ => some (field a)

/-- Every node below the root stores the value of its subtree. -/
def StoresBelow : Tree α → Prop
  | .nil => True
  | .node l _ r => Stores f field l ∧ Stores f field r

variable {f field} {field' : α → A} {d : Side} {t near far : Tree α} {a : α}
  {ctx : List (Frame α)} {u v v' x : Option A}

@[simp] theorem Tree.value_nil : (nil : Tree α).value f = none := rfl

/-- The value of a joined tree is that of its frame and its near part. -/
theorem Tree.value_join : (join d t a far).value f = Frame.value f ⟨d, a, far⟩ (t.value f) := by
  cases d <;> rfl

/-- The fields of a joined tree are right if its own is and both parts are. -/
theorem stores_join : Stores f field (.join d near a far) ↔
    some (field a) = (Tree.join d near a far).value f ∧ Stores f field near ∧
      Stores f field far := by
  cases d
  · exact and_congr_left fun _ => Option.some_inj.symm
  · exact and_congr Option.some_inj.symm and_comm

/-- The fields of a tree are right if its own is and those below are. -/
theorem stores_iff : Stores f field t ↔ t.stored field = t.value f ∧ StoresBelow f field t := by
  cases t
  · exact iff_of_true trivial ⟨rfl, trivial⟩
  · exact and_congr_left fun _ => Option.some_inj.symm

@[simp] theorem Tree.stored_join : (join d near a far).stored field = some (field a) := by
  cases d <;> rfl

/-- Below a joined tree there are its two parts. -/
theorem storesBelow_join : StoresBelow f field (.join d near a far) ↔
    Stores f field near ∧ Stores f field far := by
  cases d
  · exact Iff.rfl
  · exact and_comm

/-- A tree in a context stores its values exactly when both parts do. -/
theorem stores_plug :
    Stores f field (.plug ctx t) ↔ Stores f field t ∧ StoresCtx f field (t.value f) ctx := by
  induction ctx generalizing t with
  | nil => exact (and_iff_left trivial).symm
  | cons fr ctx ih =>
    rw [Tree.plug_cons, ih, stores_join, StoresCtx, Tree.value_join]
    tauto

/-- Fields that agree on the labels of a tree store the same values. -/
theorem Stores.congr (h : Stores f field t) (hf : ∀ a ∈ t.toList, field' a = field a) :
    Stores f field' t := by
  induction t with
  | nil => trivial
  | node l a r ihl ihr =>
    obtain ⟨ha, hl, hr⟩ := h
    exact ⟨(hf a (by simp)).trans ha, ihl hl fun b hb => hf b (by simp [hb]),
      ihr hr fun b hb => hf b (by simp [hb])⟩

/-- Right fields around a hole depend on the labels around it only. -/
theorem StoresCtx.congr (h : StoresCtx f field v ctx)
    (hf : ∀ a ∈ Tree.labels ctx, field' a = field a) : StoresCtx f field' v ctx := by
  induction ctx generalizing v with
  | nil => trivial
  | cons fr ctx ih =>
    obtain ⟨ha, hs, hctx⟩ := h
    simp only [Tree.labels] at hf
    exact ⟨(congrArg some (hf fr.label (by simp))).trans ha,
      hs.congr fun b hb => hf b (by simp [hb]), ih hctx fun b hb => hf b (by simp [hb])⟩

/-- Right fields further up depend on the labels around the hole only. -/
theorem StoresBeyond.congr (h : StoresBeyond f field x ctx)
    (hf : ∀ a ∈ Tree.labels ctx, field' a = field a) : StoresBeyond f field' x ctx := by
  cases ctx with
  | nil => trivial
  | cons fr ctx =>
    obtain ⟨hs, hctx⟩ := h
    simp only [Tree.labels] at hf
    exact ⟨hs.congr fun b hb => hf b (by simp [hb]), hctx.congr fun b hb => hf b (by simp [hb])⟩

/-- Right fields need no renewal. -/
theorem StoresCtx.renewed (h : StoresCtx f field v ctx) :
    Renewed f field (aboveValue f v ctx) v ctx := by
  cases ctx with
  | nil => trivial
  | cons fr ctx => exact h

/-- Renewed fields are right further up. -/
theorem Renewed.beyond (h : Renewed f field x u ctx) : StoresBeyond f field x ctx := by
  cases ctx with
  | nil => trivial
  | cons fr ctx => exact h.2

/-- A context that stores its values for one value in the hole stores them for another one
if the node around the hole keeps its value. -/
theorem StoresCtx.keep (h : StoresCtx f field v ctx) (hk : Keeps f v v' ctx) :
    StoresCtx f field v' ctx := by
  cases ctx with
  | nil => trivial
  | cons fr ctx =>
    have hv : fr.value f v = fr.value f v' := hk
    rwa [StoresCtx, ← hv]

/-- A renewed context stores its values for the value in the hole if the node around the hole
was renewed for it and the next one keeps its value. -/
theorem Renewed.keep (h : Renewed f field x u ctx) (hk : Keeps f u v ctx)
    (ha : KeepsAbove f x v ctx) : StoresCtx f field v ctx := by
  cases ctx with
  | nil => trivial
  | cons fr ctx =>
    obtain ⟨hl, hs, hctx⟩ := h
    exact ⟨hl.trans hk, hs, hctx.keep ha⟩

@[simp] theorem Keeps.refl : Keeps f v v ctx := by
  cases ctx <;> trivial

@[simp] theorem KeepsAbove.refl : KeepsAbove f (aboveValue f v ctx) v ctx := by
  cases ctx with
  | nil => trivial
  | cons fr ctx => exact Keeps.refl

/-- A tree in a context that was renewed for it stores its values if the node two above keeps
its value. -/
theorem Renewed.stores_plug (h : Renewed f field x (t.value f) ctx) (ht : Stores f field t)
    (ha : KeepsAbove f x (t.value f) ctx) : Stores f field (.plug ctx t) :=
  MacKernel.stores_plug.mpr ⟨ht, h.keep Keeps.refl ha⟩

/-- Only the siblings along a context are known to store their values. -/
def StoresSiblings (f : α → Option A → Option A → A) (field : α → A)
    (ctx : List (Frame α)) : Prop :=
  ∀ fr ∈ ctx, Stores f field fr.sibling

/-- Right fields around a hole are right in the siblings. -/
theorem StoresCtx.siblings (h : StoresCtx f field v ctx) : StoresSiblings f field ctx := by
  induction ctx generalizing v with
  | nil => exact fun fr hfr => absurd hfr List.not_mem_nil
  | cons fr ctx ih =>
    obtain ⟨-, hs, hctx⟩ := h
    exact List.forall_mem_cons.mpr ⟨hs, ih hctx⟩

/-- Right fields in the siblings depend on the siblings only. -/
theorem StoresSiblings.congr (h : StoresSiblings f field ctx)
    (hf : ∀ fr ∈ ctx, ∀ a ∈ fr.sibling.toList, field' a = field a) :
    StoresSiblings f field' ctx := fun fr hfr =>
  (h fr hfr).congr (hf fr hfr)

end Value

end MacKernel
