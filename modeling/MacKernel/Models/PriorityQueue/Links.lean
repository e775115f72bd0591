import MacKernel.Core.Tree
import MacKernel.Models.PriorityQueue.Native

/-!
# Sibling lists in memory

A forest is a binary tree in which the left child of an entry is the first of its
children and the right child its next sibling. The `prev` pointer is then the
parent in that binary tree: the parent entry for a first child and the left
sibling for any other. The two surgeries of the source, linking one tree below
another and unhooking an entry from its level, are described here by their effect
on the fields of memory.
-/

namespace MacKernel.PriorityQueue

variable {w : Nat} {f f' : BitVec w → Fields w}

/-- The pointer to the first tree of a forest. -/
abbrev top (t : Tree (BitVec w)) : BitVec w := t.root id 0

@[simp] theorem top_node (ch : Tree (BitVec w)) (a : BitVec w) (sib : Tree (BitVec w)) :
    top (.node ch a sib) = a := rfl

/-- The three pointers of an entry. -/
def Links (f : BitVec w → Fields w) (a prev child next : BitVec w) : Prop :=
  (f a).prev = prev ∧ (f a).child = child ∧ (f a).next = next

/-- The forest is linked in memory, and its first entry points back to `prev`. -/
abbrev Chain (f : BitVec w → Fields w) (prev : BitVec w) (t : Tree (BitVec w)) : Prop :=
  Linked id 0 (Links f) prev t

/-- The first entry of a forest is one of its entries, unless the forest is empty. -/
theorem top_mem_or {t : Tree (BitVec w)} : t = .nil ∨ top t ∈ t.toList := by
  cases t with
  | nil => exact .inl rfl
  | node ch a sib => exact .inr (by simp)

/-- A pointer that is no entry of a forest and not null does not point to it. -/
theorem top_ne {t : Tree (BitVec w)} {a : BitVec w} (ha : a ∉ t.toList) (h0 : a ≠ 0) :
    top t ≠ a := by
  rcases top_mem_or (t := t) with rfl | h
  · exact h0.symm
  · exact ne_of_mem_of_not_mem h ha

/-- An address that is no entry of a forest is not the one its pointer leads to. -/
theorem ne_top {t : Tree (BitVec w)} {a : BitVec w} (ha : a ∉ t.toList) :
    top t ≠ 0 → a ≠ top t := by
  rcases top_mem_or (t := t) with rfl | h
  · exact fun h0 => absurd rfl h0
  · exact fun _ => (ne_of_mem_of_not_mem h ha).symm

/-- Only the empty heap has a null top. -/
theorem top_eq_zero {t : Tree (BitVec w)} (h0 : 0 ∉ t.toList) : top t = 0 ↔ t = .nil := by
  constructor
  · intro h
    rcases top_mem_or (t := t) with ht | ht
    · exact ht
    · exact absurd (h ▸ ht) h0
  · rintro rfl
    rfl

/-- A forest stays linked when none of its entries changes. -/
theorem Chain.congr {prev : BitVec w} {t : Tree (BitVec w)} (h : Chain f prev t)
    (hf : ∀ a ∈ t.toList, f' a = f a) : Chain f' prev t :=
  Linked.imp (fun a ha _ _ _ hl => by rwa [Links, hf a ha]) h

/-- Writing a key changes no link. -/
theorem Chain.rekey {prev a : BitVec w} {t : Tree (BitVec w)} {k : UInt8}
    (h : Chain f prev t) : Chain (Function.update f a { f a with key := k }) prev t := by
  refine Linked.imp (fun b _ _ _ _ hl => ?_) h
  by_cases hb : b = a
  · subst hb
    rwa [Links, Function.update_self]
  · rwa [Links, Function.update_of_ne hb]

/-- A forest is handed to a new predecessor by changing one `prev` pointer. -/
theorem Chain.reparent {prev prev' : BitVec w} {t : Tree (BitVec w)} (h : Chain f prev t)
    (hn : t.toList.Nodup) (hf : ∀ a ∈ t.toList, a ≠ top t → f' a = f a)
    (htop : t ≠ .nil → f' (top t) = { f (top t) with prev := prev' }) : Chain f' prev' t := by
  cases t with
  | nil => trivial
  | node ch a sib =>
    obtain ⟨⟨-, hc, hs⟩, hch, hsib⟩ := h
    have ha : f' a = { f a with prev := prev' } := htop nofun
    rw [Tree.toList_node, List.nodup_append, List.nodup_cons] at hn
    obtain ⟨-, ⟨hsa, -⟩, hca⟩ := hn
    refine ⟨?_, Chain.congr hch fun b hb => hf b (by simp [hb]) ?_,
      Chain.congr hsib fun b hb => hf b (by simp [hb]) ?_⟩
    · rw [Links, ha]
      exact ⟨rfl, hc, hs⟩
    · exact hca b hb a (by simp)
    · rintro rfl
      exact hsa hb

/-- No entry of a linked forest is its own next sibling. -/
theorem Chain.next_ne {t : Tree (BitVec w)} {a : BitVec w} (h : Chain f 0 t)
    (hn : t.toList.Nodup) (ha : a ∈ t.toList) (h0 : a ≠ 0) : (f a).next ≠ a := by
  obtain ⟨ctx, ch, sib, rfl⟩ := Tree.exists_plug ha
  obtain ⟨⟨-, -, hnext⟩, -⟩ := ((linked_plug _ _).mp h).2
  obtain ⟨hn, -⟩ := Tree.nodup_plug.mp hn
  rw [Tree.toList_node, List.nodup_append, List.nodup_cons] at hn
  rw [hnext]
  exact top_ne hn.2.1.1 h0

/-- A store that keeps the key keeps all keys. -/
theorem update_key {a b : BitVec w} {e : Fields w} (h : e.key = (f a).key) :
    (Function.update f a e b).key = (f b).key := by
  by_cases hb : b = a
  · subst hb
    rw [Function.update_self, h]
  · rw [Function.update_of_ne hb]

section Merge

/-- Put `x` in front of the children of `p`, and take `p` out of any level. -/
def linkUnder (f : BitVec w → Fields w) (p x : BitVec w) : BitVec w → Fields w :=
  let c := (f p).child
  let f₁ := Function.update f x { f x with next := c, prev := p }
  let f₂ := if c ≠ 0 then Function.update f₁ c { f₁ c with prev := x } else f₁
  Function.update f₂ p { f₂ p with child := x, next := 0, prev := 0 }

/-- An entry that is put under a root becomes its first child. -/
theorem linkUnder_parent {p x : BitVec w} (hpx : x ≠ p) (hcp : (f p).child ≠ p) :
    linkUnder f p x p = { f p with child := x, next := 0, prev := 0 } := by
  unfold linkUnder
  split_ifs <;> simp [Function.update_of_ne, hpx.symm, hcp.symm]

/-- An entry that is put under a root stands before the children that were there. -/
theorem linkUnder_child {p x : BitVec w} (hpx : x ≠ p) (hcx : (f p).child ≠ x) :
    linkUnder f p x x = { f x with next := (f p).child, prev := p } := by
  unfold linkUnder
  split_ifs <;> simp [Function.update_of_ne, hpx, hcx.symm]

/-- The child that was first looks back to the entry that is put before it. -/
theorem linkUnder_first {p x : BitVec w} (hcp : (f p).child ≠ p) (hcx : (f p).child ≠ x)
    (hc : (f p).child ≠ 0) :
    linkUnder f p x (f p).child = { f (f p).child with prev := x } := by
  unfold linkUnder
  rw [if_pos hc]
  simp [Function.update_of_ne, hcp, hcx]

/-- Linking changes only the two roots and the old first child. -/
theorem linkUnder_of_ne {p x a : BitVec w} (hap : a ≠ p) (hax : a ≠ x)
    (hac : (f p).child ≠ 0 → a ≠ (f p).child) : linkUnder f p x a = f a := by
  unfold linkUnder
  split_ifs with hc
  · simp [Function.update_of_ne, hap, hax, hac hc]
  · simp [Function.update_of_ne, hap, hax]

/-- Linking keeps the keys. -/
theorem linkUnder_key (p x a : BitVec w) : (linkUnder f p x a).key = (f a).key := by
  unfold linkUnder
  rw [update_key]
  · split_ifs
    · rw [update_key, update_key]
      · rfl
      · rfl
    · rw [update_key]
      rfl
  · rfl

/-- Linking one tree below another makes one tree of both. -/
theorem linkUnder_chain {p x : BitVec w} {chp chx : Tree (BitVec w)}
    (hn : (Tree.node (.node chx x chp) p .nil).toList.Nodup)
    (h0 : 0 ∉ (Tree.node (.node chx x chp) p .nil).toList)
    (hxc : (f x).child = top chx) (hx : Chain f x chx)
    (hpc : (f p).child = top chp) (hp : Chain f p chp) :
    Chain (linkUnder f p x) 0 (.node (.node chx x chp) p .nil) := by
  simp only [Tree.toList_node, Tree.toList_nil, List.mem_append, List.mem_cons,
    List.not_mem_nil, or_false, not_or] at h0
  obtain ⟨⟨h0x, hx0, h0p⟩, hp0⟩ := h0
  simp only [Tree.toList_node, Tree.toList_nil, List.nodup_append, List.nodup_cons,
    List.mem_append, List.mem_cons, List.not_mem_nil, or_false, forall_eq] at hn
  obtain ⟨⟨-, ⟨hxp, hnp⟩, hdisj⟩, -, hne⟩ := hn
  have hpx : x ≠ p := hne x (.inr (.inl rfl))
  have hpp : p ∉ chp.toList := fun h => hne p (.inr (.inr h)) rfl
  have hcp : (f p).child ≠ p := hpc ▸ top_ne hpp (Ne.symm hp0)
  have hcx : (f p).child ≠ x := hpc ▸ top_ne hxp (Ne.symm hx0)
  refine ⟨?_, ⟨?_, ?_, ?_⟩, trivial⟩
  · rw [Links, linkUnder_parent hpx hcp]
    exact ⟨rfl, rfl, rfl⟩
  · rw [Links, linkUnder_child hpx hcx]
    exact ⟨rfl, hxc, hpc⟩
  · refine hx.congr fun a ha => linkUnder_of_ne (hne a (.inl ha)) (hdisj a ha x (.inl rfl)) ?_
    rw [hpc]
    exact ne_top fun hmem => hdisj a ha a (.inr hmem) rfl
  · refine hp.reparent hnp (fun a ha hat => linkUnder_of_ne ?_ ?_ fun _ => hpc ▸ hat)
      fun hnil => ?_
    · exact fun h => hpp (h ▸ ha)
    · exact fun h => hxp (h ▸ ha)
    · have htop := (top_mem_or (t := chp)).resolve_left hnil
      have hc : (f p).child ≠ 0 := hpc ▸ fun h => h0p (h ▸ htop)
      rw [← hpc]
      exact linkUnder_first hcp hcx hc

end Merge

section Unhook

/-- Point the first child, or the next sibling, of an entry elsewhere. -/
def Fields.setLink (d : Side) (e : Fields w) (a : BitVec w) : Fields w :=
  match d with
  | .left => { e with child := a }
  | .right => { e with next := a }

/-- Close the gap before `next`: the link of `p` on side `d` skips to it. -/
def relink (f : BitVec w → Fields w) (d : Side) (p next : BitVec w) : BitVec w → Fields w :=
  let f₁ := Function.update f p ((f p).setLink d next)
  if next ≠ 0 then Function.update f₁ next { f₁ next with prev := p } else f₁

/-- The entry before a removed one leads past it. -/
theorem relink_self {d : Side} {p next : BitVec w} (h : next ≠ p) :
    relink f d p next p = (f p).setLink d next := by
  unfold relink
  split_ifs <;> simp [Function.update_of_ne, h.symm]

/-- The entry behind a removed one looks back past it. -/
theorem relink_next {d : Side} {p next : BitVec w} (h : next ≠ p) (h0 : next ≠ 0) :
    relink f d p next next = { f next with prev := p } := by
  unfold relink
  rw [if_pos h0]
  simp [Function.update_of_ne, h]

/-- Closing a gap changes only its two ends. -/
theorem relink_of_ne {d : Side} {p next a : BitVec w} (hp : a ≠ p)
    (hn : next ≠ 0 → a ≠ next) : relink f d p next a = f a := by
  unfold relink
  split_ifs with h0
  · simp [Function.update_of_ne, hp, hn h0]
  · simp [Function.update_of_ne, hp]

/-- Relinking keeps the keys. -/
theorem relink_key (d : Side) (p next a : BitVec w) :
    (relink f d p next a).key = (f a).key := by
  have hset : ((f p).setLink d next).key = (f p).key := by cases d <;> rfl
  unfold relink
  split_ifs
  · rw [update_key, update_key hset]
    rfl
  · exact update_key hset

/-- Closing the gap takes an entry and its children out of the forest. -/
theorem relink_chain {fr : Frame (BitVec w)} {ctx : List (Frame (BitVec w))}
    {ch sib : Tree (BitVec w)} {elt : BitVec w}
    (hn : (Tree.plug (fr :: ctx) (.node ch elt sib)).toList.Nodup)
    (h0 : 0 ∉ (Tree.plug (fr :: ctx) (.node ch elt sib)).toList)
    (h : Chain f 0 (Tree.plug (fr :: ctx) (.node ch elt sib))) :
    Chain (relink f fr.side fr.label (top sib)) 0 (Tree.plug (fr :: ctx) sib) := by
  have hsib : Chain f elt sib := ((linked_plug _ _).mp h).2.2.2
  obtain ⟨hnt, hnc, hne⟩ := Tree.nodup_plug.mp hn
  rw [Tree.mem_plug, not_or] at h0
  obtain ⟨h0t, h0c⟩ := h0
  rw [Tree.toList_node, List.nodup_append, List.nodup_cons] at hnt
  rw [Tree.labels, List.cons_append, List.nodup_cons] at hnc
  have hps : fr.label ∉ sib.toList := fun hmem =>
    hne fr.label (by simp [hmem]) fr.label (by simp [Tree.labels]) rfl
  have h0p : fr.label ≠ 0 := fun h => h0c (by simp [Tree.labels, h])
  have htp : top sib ≠ fr.label := top_ne hps h0p
  refine Linked.plug_replace h ?_ ?_ ?_
  · intro parent far hl
    cases hd : fr.side <;> rw [hd] at hl <;>
      simp only [onSide, Links] at hl ⊢ <;> rw [relink_self htp] <;>
      simp only [Fields.setLink] <;> tauto
  · intro a ha p l r hl
    have hlab : a ∈ Tree.labels (fr :: ctx) := List.mem_cons_of_mem _ ha
    rw [Links, relink_of_ne]
    · exact hl
    · exact fun h => hnc.1 (h ▸ ha)
    · exact ne_top fun hmem => hne a (by simp [hmem]) a hlab rfl
  · refine hsib.reparent hnt.2.1.2 (fun a ha hat => relink_of_ne ?_ fun _ => hat) fun hnil => ?_
    · exact fun h => hps (h ▸ ha)
    · have htop := (top_mem_or (t := sib)).resolve_left hnil
      exact relink_next htp fun h => h0t (by simp [← h, htop])

end Unhook

end MacKernel.PriorityQueue
