import MacKernel.Models.RedBlack.InsertFields
import MacKernel.Models.RedBlack.RemoveFields
import MacKernel.Models.RedBlack.System

/-!
# The augmented field over runs

The callers of a tree with a field that `RB_AUGMENT` recomputes from a node and its
children. They give an element the field of a leaf before they insert it. The calls do not
refresh all ancestors of the nodes that they change, so the fields stay right along the
runs in which every ancestor that a call leaves alone keeps its value.
-/

namespace MacKernel.RedBlack

variable {A : Type} {w : Nat} {s s' : System A w} {t t' u l r : Tree (Cell w)}
  {z ctx : List (Frame (Cell w))} {c : Cell w} {elm : BitVec w} {cmp : BitVec w → BitVec w → Int}
  {f : BitVec w → Option A → Option A → A} {n : Nat}

section Unique

private theorem valid_of_addrs (h : ∀ a ∈ addrs t, a ≠ 0 ∧ a &&& rbColorMask = 0) :
    ∀ c ∈ t.toList, Valid c.addr := fun c hc =>
  ⟨(h c.addr (List.mem_map_of_mem hc)).1, (h c.addr (List.mem_map_of_mem hc)).2⟩

/-- Equal words of even parents have the same colour. -/
theorem packWord_color_inj {p p' a : BitVec w} {color color' : Color} (ha : a ≠ 0)
    (hp : p &&& rbColorMask = 0) (hp' : p' &&& rbColorMask = 0)
    (h : packWord p color = packWord p' color') : color = color' := by
  have hbits : (color.bits : BitVec w) = color'.bits := by
    rw [← packWord_color (c := color) hp, h, packWord_color hp']
  have hzero := bits_eq_zero (c := color) ha
  rw [hbits, bits_eq_zero ha] at hzero
  cases color with
  | black => exact (hzero.mpr rfl).symm
  | red =>
    cases color' with
    | black => exact absurd (hzero.mp rfl) (by decide)
    | red => rfl

/-- Memory below a pointer holds one tree only. -/
theorem Placed.unique {field : BitVec w → RbEntry w} {p p' : BitVec w}
    (h : Placed field p t) (h' : Placed field p' t') (htop : top t = top t')
    (hp : p &&& rbColorMask = 0) (hp' : p' &&& rbColorMask = 0)
    (hv : ∀ c ∈ t.toList, Valid c.addr) (hv' : ∀ c ∈ t'.toList, Valid c.addr) : t = t' := by
  induction t generalizing t' p p' with
  | nil =>
    obtain - | ⟨l', c', r'⟩ := t'
    · rfl
    · exact absurd htop.symm (hv' c' (by simp)).ne_zero
  | node l c r ihl ihr =>
    obtain - | ⟨l', c', r'⟩ := t'
    · exact absurd htop (hv c (by simp)).ne_zero
    obtain ⟨hc, hl, hr⟩ := h
    obtain ⟨hc', hl', hr'⟩ := h'
    have haddr : c.addr = c'.addr := htop
    have hvc := hv c (by simp)
    rw [Links, ← haddr, hc, RbEntry.mk.injEq] at hc'
    obtain ⟨htl, htr, hword⟩ := hc'
    have hcolor := packWord_color_inj hvc.ne_zero hp hp' hword
    obtain ⟨a, color⟩ := c
    obtain ⟨a', color'⟩ := c'
    obtain rfl : a = a' := haddr
    obtain rfl : color = color' := hcolor
    rw [ihl hl hl' htl hvc.even hvc.even (fun b hb => hv b (by simp [hb]))
        fun b hb => hv' b (by simp [hb]),
      ihr hr hr' htr hvc.even hvc.even (fun b hb => hv b (by simp [hb]))
        fun b hb => hv' b (by simp [hb])]

/-- The head holds one tree only. -/
theorem Rep.unique {s : RbHead A w} (h : Rep s t) (h' : Rep s t') : t = t' :=
  Placed.unique h.placed h'.placed (h.root.symm.trans h'.root) BitVec.zero_and BitVec.zero_and
    h.valid h'.valid

end Unique

section Descend

/-- The place of an element in a tree: an equal element or the hole where it belongs. -/
def descend (cmp : BitVec w → BitVec w → Int) (elm : BitVec w) :
    Tree (Cell w) → List (Frame (Cell w)) → List (Frame (Cell w)) × Tree (Cell w)
  | .nil, z => (z, .nil)
  | .node l c r, z =>
    if cmp elm c.addr < 0 then descend cmp elm l (⟨.left, c, r⟩ :: z)
    else if cmp elm c.addr > 0 then descend cmp elm r (⟨.right, c, l⟩ :: z)
    else (z, .node l c r)

/-- The path to an element leads to the hole where it belongs. -/
theorem Fits.descend (hfit : Fits cmp elm z) :
    descend cmp elm (Tree.plug z t) ctx = descend cmp elm t (z ++ ctx) := by
  induction z generalizing t with
  | nil => rfl
  | cons fr z ih =>
    obtain ⟨d, b, sib⟩ := fr
    cases d with
    | left =>
      have hlt := hfit.after b (by simp [Tree.after])
      rw [Tree.plug_cons, ih ⟨hfit.before, fun a ha => hfit.after a (by simp [Tree.after, ha])⟩]
      simp only [Tree.join, RedBlack.descend, if_pos hlt, List.cons_append]
    | right =>
      have hgt := hfit.before b (by simp [Tree.before])
      rw [Tree.plug_cons, ih ⟨fun a ha => hfit.before a (by simp [Tree.before, ha]), hfit.after⟩]
      simp only [Tree.join, RedBlack.descend, if_neg (not_lt.mpr hgt.le), if_pos hgt,
        List.cons_append]

/-- An element of the tree belongs where it is. -/
theorem fits_of_ascending (hcmp : Comparison cmp)
    (hs : Ascending cmp (addrs (Tree.plug z (.node l c r)))) : Fits cmp c.addr z := by
  rw [addrs_plug, addrs_node, ← List.append_assoc, List.append_assoc, List.cons_append,
    ascending_middle] at hs
  obtain ⟨-, hbefore, hafter⟩ := hs
  refine ⟨fun b hb => (hcmp.swap _ _).mp (hbefore _ ?_), fun b hb => hafter _ ?_⟩
  · exact List.mem_append_left _ (List.mem_map_of_mem hb)
  · exact List.mem_append_right _ (List.mem_map_of_mem hb)

end Descend

section Calls

/-- The calls on a tree, and a write to the augmented field of an element. -/
inductive FieldCall (A : Type) (w : Nat) where
  | call (call : Call w)
  | init (elm : BitVec w) (a : A)

variable (f : BitVec w → Option A → Option A → A) (cmp : BitVec w → BitVec w → Int)

/-- What the callers promise about the field: a new element has that of a leaf. -/
def System.Initialised (s : System A w) : Call w → Prop
  | .insert elm => (∀ b ∈ s.members, cmp elm b ≠ 0) → s.head.aug elm = f elm none none
  | .remove _ => True
  | .write _ _ => True

/-- A promised call, or a write to the field of an element outside of the tree. -/
def FieldStep (s : System A w) (call : FieldCall A w) (s' : System A w) : Prop :=
  match call with
  | .call call => s.Initialised f cmp call ∧ Step (recompute f) cmp s call s'
  | .init elm a => elm ∉ s.members ∧
      s' = { s with head := { s.head with aug := Function.update s.head.aug elm a } }

/-- The field of every node of the tree is the value recomputed from its subtree. -/
def System.FieldsRight (s : System A w) : Prop :=
  ∃ t, Rep s.head t ∧ Stores (atCell f) s.head.fieldOf t

/-- Every ancestor that a call leaves alone has the same value before and after it. -/
def CallKeeps (t : Tree (Cell w)) : Call w → Prop
  | .insert elm =>
    match descend cmp elm t [] with
    | (z, .nil) => InsertKeeps f elm z
    | (_, .node _ _ _) => True
  | .remove elm =>
    match descend cmp elm t [] with
    | (_, .nil) => True
    | (z, .node l c r) => RemoveKeeps f z l c r
  | .write _ _ => True

/-- A step whose call meets the condition in the state before. -/
def KeptStep (s : System A w) (call : FieldCall A w) (s' : System A w) : Prop :=
  FieldStep f cmp s call s' ∧
    match call with
    | .call call => ∃ t, Rep s.head t ∧ CallKeeps f cmp t call
    | .init _ _ => True

end Calls

section Run

/-- The tree of the members, with right fields. -/
structure System.Upkept (f : BitVec w → Option A → Option A → A) (cmp : BitVec w → BitVec w → Int)
    (s : System A w) (t : Tree (Cell w)) (n : Nat) : Prop where
  holds : s.Holds cmp t n
  stores : Stores (atCell f) s.head.fieldOf t

theorem emptyTree_upkept (f : BitVec w → Option A → Option A → A)
    (cmp : BitVec w → BitVec w → Int) (head : RbHead A w) :
    (emptyTree head).Upkept f cmp .nil 0 :=
  ⟨emptyTree_holds cmp head, trivial⟩

/-- A write to the field of an element outside of the tree. -/
theorem System.Upkept.init (h : s.Upkept f cmp t n) (hmem : elm ∉ s.members) (a : A) :
    System.Upkept f cmp { s with head := { s.head with aug := Function.update s.head.aug elm a } }
      t n := by
  refine ⟨⟨h.holds.rep.congr rfl rfl, h.holds.ascending, h.holds.balanced, h.holds.mem⟩,
    h.stores.congr fun b hb => Function.update_of_ne (fun he => hmem ?_) _ _⟩
  exact (h.holds.mem elm).mp (he ▸ List.mem_map_of_mem hb)

variable (hcmp : Comparison cmp)

include hcmp

/-- An insertion that meets the condition keeps the fields right. -/
theorem System.Upkept.insert (h : s.Upkept f cmp t n) (hv : Valid elm)
    (hinit : s.Initialised f cmp (.insert elm)) (hk : CallKeeps f cmp t (.insert elm))
    (e : s.perform (recompute f) cmp (.insert elm) = .ok s') :
    ∃ t' n', s'.Upkept f cmp t' n' := by
  by_cases hex : ∃ b ∈ s.members, cmp elm b = 0
  · obtain ⟨b, hb, heq⟩ := hex
    rw [System.perform, h.holds.insert_equal _ hcmp hv hb heq, ok_bind,
      if_pos ⟨b, hb, heq⟩] at e
    obtain rfl := Except.ok.inj e
    exact ⟨t, n, h⟩
  · have hne : ∀ b ∈ s.members, cmp elm b ≠ 0 := fun b hb heq => hex ⟨b, hb, heq⟩
    obtain ⟨head, t', n', e', h', z, rfl, hfit, htrace⟩ :=
      h.holds.insert_new (recompute f) hcmp hv hne
    rw [System.perform, e', ok_bind, if_neg hex] at e
    obtain rfl := Except.ok.inj e
    simp only [CallKeeps, hfit.descend, List.append_nil, descend] at hk
    exact ⟨t', n', h', htrace.stores h.stores (hinit hne) hk⟩

/-- A removal that meets the condition keeps the fields right. -/
theorem System.Upkept.remove (h : s.Upkept f cmp t n) (hmem : elm ∈ s.members)
    (hk : CallKeeps f cmp t (.remove elm))
    (e : s.perform (recompute f) cmp (.remove elm) = .ok s') :
    ∃ t' n', s'.Upkept f cmp t' n' := by
  obtain ⟨head, t', n', e', h', -, z, l, c, r, rfl, rfl, htrace⟩ :=
    h.holds.remove (recompute f) hmem
  rw [System.perform, e', ok_bind] at e
  obtain rfl := Except.ok.inj e
  have hfit := fits_of_ascending hcmp h.holds.ascending
  have hself : ¬cmp c.addr c.addr < 0 ∧ ¬cmp c.addr c.addr > 0 := by
    rw [hcmp.self]
    exact ⟨lt_irrefl 0, lt_irrefl 0⟩
  simp only [CallKeeps, hfit.descend, List.append_nil, descend, if_neg hself.1,
    if_neg hself.2] at hk
  exact ⟨t', n', h', htrace.stores h.holds.rep h.stores hk⟩

/-- A step that meets the condition keeps the fields right. -/
theorem System.Upkept.step {call : FieldCall A w} (h : s.Upkept f cmp t n)
    (hstep : KeptStep f cmp s call s') : ∃ t' n', s'.Upkept f cmp t' n' := by
  obtain ⟨hstep, hk⟩ := hstep
  cases call with
  | init elm a =>
    obtain ⟨hmem, rfl⟩ := hstep
    exact ⟨t, n, h.init hmem a⟩
  | call call =>
    obtain ⟨hinit, hp, e⟩ := hstep
    obtain ⟨t', hrep, hk⟩ := hk
    obtain rfl := h.holds.rep.unique hrep
    cases call with
    | insert elm => exact h.insert hcmp hp hinit hk e
    | remove elm => exact h.remove hcmp hp hk e
    | write elm entry =>
      obtain rfl := Except.ok.inj e
      exact ⟨t, n, h.holds.write hp entry, h.stores⟩

/-- In every run from an empty tree whose calls all meet the condition, every field of the tree
is the value recomputed from its subtree. -/
theorem fieldsRight_of_run {head : RbHead A w} {calls : List (FieldCall A w)}
    (hrun : Run (KeptStep f cmp) (emptyTree head) calls s) : s.FieldsRight f := by
  have hinv : ∃ t n, s.Upkept f cmp t n := by
    refine hrun.invariant (fun s => ∃ t n, s.Upkept f cmp t n) ?_
      ⟨_, _, emptyTree_upkept f cmp head⟩
    rintro s s' call ⟨t, n, h⟩ hstep
    exact h.step hcmp hstep
  obtain ⟨t, n, h⟩ := hinv
  exact ⟨t, h.holds.rep, h.stores⟩

end Run

section Sizes

/-- The number of nodes of a subtree. -/
def subtreeSize (_ : BitVec w) (left right : Option Nat) : Nat :=
  left.getD 0 + right.getD 0 + 1

/-- An empty tree in clear memory, where every element has the field of a leaf. -/
def leafTree (w : Nat) : System Nat w := emptyTree ⟨0, fun _ => default, fun _ => 1⟩

theorem fieldsRight_of_run_three : ∃ s, Run (KeptStep subtreeSize cmpAddr) (leafTree 4)
    [.call (.insert 2), .call (.insert 4), .call (.insert 6), .call (.remove 4)] s ∧
    s.FieldsRight subtreeSize := by
  have hrun₁ : Run (KeptStep subtreeSize cmpAddr) (leafTree 4) [.call (.insert 2)] _ :=
    .snoc .nil ⟨⟨fun _ => rfl, ⟨by decide, by decide⟩, rfl⟩, .nil,
      ⟨rfl, trivial, .nil, by simp⟩, rfl⟩
  have hrun₂ : Run (KeptStep subtreeSize cmpAddr) (leafTree 4)
      [.call (.insert 2), .call (.insert 4)] _ :=
    .snoc hrun₁ ⟨⟨fun _ => rfl, ⟨by decide, by decide⟩, rfl⟩, .node .nil ⟨2, .black⟩ .nil,
      ⟨rfl, ⟨rfl, trivial, trivial⟩, by decide, valid_of_addrs (by decide)⟩, rfl⟩
  have hrun₃ : Run (KeptStep subtreeSize cmpAddr) (leafTree 4)
      [.call (.insert 2), .call (.insert 4), .call (.insert 6)] _ :=
    .snoc hrun₂ ⟨⟨fun _ => rfl, ⟨by decide, by decide⟩, rfl⟩,
      .node .nil ⟨2, .black⟩ (.node .nil ⟨4, .red⟩ .nil),
      ⟨rfl, ⟨rfl, trivial, rfl, trivial, trivial⟩, by decide, valid_of_addrs (by decide)⟩,
      rfl, trivial⟩
  have hrun₄ : Run (KeptStep subtreeSize cmpAddr) (leafTree 4)
      [.call (.insert 2), .call (.insert 4), .call (.insert 6), .call (.remove 4)] _ :=
    .snoc hrun₃ ⟨⟨trivial, show (4 : BitVec 4) ∈ _ from by decide, rfl⟩,
      .node (.node .nil ⟨2, .red⟩ .nil) ⟨4, .black⟩ (.node .nil ⟨6, .red⟩ .nil),
      ⟨rfl, ⟨rfl, ⟨rfl, trivial, trivial⟩, rfl, trivial, trivial⟩, by decide,
        valid_of_addrs (by decide)⟩, trivial⟩
  exact ⟨_, hrun₄, fieldsRight_of_run comparison_cmpAddr hrun₄⟩

/-- The fourth element is linked below `6`, which is refreshed; the root keeps the size `3`. -/
theorem not_fieldsRight_four : ∃ s, Run (FieldStep subtreeSize cmpAddr) (leafTree 4)
    [.call (.insert 4), .call (.insert 2), .call (.insert 6), .call (.insert 8)] s ∧
    ¬s.FieldsRight subtreeSize := by
  have hrun : Run (FieldStep subtreeSize cmpAddr) (leafTree 4)
      [.call (.insert 4), .call (.insert 2), .call (.insert 6), .call (.insert 8)] _ :=
    .snoc (.snoc (.snoc (.snoc .nil ⟨fun _ => rfl, ⟨by decide, by decide⟩, rfl⟩)
      ⟨fun _ => rfl, ⟨by decide, by decide⟩, rfl⟩) ⟨fun _ => rfl, ⟨by decide, by decide⟩, rfl⟩)
      ⟨fun _ => rfl, ⟨by decide, by decide⟩, rfl⟩
  refine ⟨_, hrun, ?_⟩
  rintro ⟨t, hrep, hst⟩
  have ht : t = .node (.node .nil ⟨2, .black⟩ .nil) ⟨4, .black⟩
      (.node .nil ⟨6, .black⟩ (.node .nil ⟨8, .red⟩ .nil)) :=
    hrep.unique ⟨rfl, ⟨rfl, ⟨rfl, trivial, trivial⟩, rfl, trivial, rfl, trivial, trivial⟩,
      by decide, valid_of_addrs (by decide)⟩
  subst ht
  have hroot : (3 : Nat) = 4 := hst.1
  exact absurd hroot (by decide)

end Sizes

end MacKernel.RedBlack
