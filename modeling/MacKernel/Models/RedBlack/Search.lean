import MacKernel.Core.Comparison
import MacKernel.Models.RedBlack.Focus

/-!
# Searching

The loops of `RB_INSERT`, `RB_FIND` and `RB_NFIND` descend along the same path. Around
the hole they have reached, everything before it is smaller and everything after it is
greater than the element they search for, so they end at an equal element or at the
place where it belongs.
-/

namespace MacKernel.RedBlack

variable {A : Type} {w : Nat} {s : RbHead A w} {t u l r : Tree (Cell w)}
  {z : List (Frame (Cell w))} {c : Cell w} {elm : BitVec w} {cmp : BitVec w → BitVec w → Int}

/-- An element belongs at the hole of the context. -/
structure Fits (cmp : BitVec w → BitVec w → Int) (elm : BitVec w)
    (z : List (Frame (Cell w))) : Prop where
  before : ∀ b ∈ Tree.before z, 0 < cmp elm b.addr
  after : ∀ b ∈ Tree.after z, cmp elm b.addr < 0

section Path

/-- The order of the nodes around a node. -/
theorem ascending_plug_node (h : Ascending cmp (addrs (Tree.plug z (.node l c r)))) :
    (∀ b ∈ l.toList, cmp b.addr c.addr < 0) ∧ ∀ b ∈ r.toList, cmp c.addr b.addr < 0 := by
  rw [addrs_plug, addrs_node, ← List.append_assoc, List.append_assoc, List.cons_append,
    ascending_middle] at h
  obtain ⟨-, hl, hr⟩ := h
  exact ⟨fun b hb => hl _ (List.mem_append_right _ (List.mem_map_of_mem hb)),
    fun b hb => hr _ (List.mem_append_left _ (List.mem_map_of_mem hb))⟩

variable (hcmp : Comparison cmp)

include hcmp

/-- An element that is smaller than a node belongs to its left. -/
theorem Fits.left (hfit : Fits cmp elm z)
    (hs : Ascending cmp (addrs (Tree.plug z (.node l c r)))) (hlt : cmp elm c.addr < 0) :
    Fits cmp elm (⟨.left, c, r⟩ :: z) := by
  obtain ⟨-, hr⟩ := ascending_plug_node hs
  refine ⟨hfit.before, fun b hb => ?_⟩
  simp only [Tree.after, List.cons_append, List.mem_cons, List.mem_append] at hb
  rcases hb with rfl | hb | hb
  · exact hlt
  · exact hcmp.lt_of_lt_of_le hlt (hr b hb).le
  · exact hfit.after b hb

/-- An element that is greater than a node belongs to its right. -/
theorem Fits.right (hfit : Fits cmp elm z)
    (hs : Ascending cmp (addrs (Tree.plug z (.node l c r)))) (hgt : 0 < cmp elm c.addr) :
    Fits cmp elm (⟨.right, c, l⟩ :: z) := by
  obtain ⟨hl, -⟩ := ascending_plug_node hs
  refine ⟨fun b hb => ?_, hfit.after⟩
  simp only [Tree.before, List.mem_append, List.mem_singleton] at hb
  rcases hb with (hb | hb) | rfl
  · exact hfit.before b hb
  · rw [← hcmp.swap] at hgt ⊢
    exact hcmp.lt_of_lt_of_le (hl b hb) hgt.le
  · exact hgt

end Path

section Loops

variable (hcmp : Comparison cmp)

/-- The search of `RB_INSERT` has reached the hole of a context. -/
def InsertPath (cmp : BitVec w → BitVec w → Int) (elm : BitVec w) (parent : BitVec w) (comp : Int)
    (z : List (Frame (Cell w))) : Prop :=
  Fits cmp elm z ∧ parent = above z ∧
    ∀ f ∈ z.head?, (if comp < 0 then Side.left else Side.right) = f.side

include hcmp

/-- The search of `RB_INSERT` ends at an equal element or at the place for a new one. -/
theorem Rep.insertSearch (h : Rep s t) (hs : Ascending cmp (addrs t)) (elm : BitVec w) :
    ∃ res, loop (rbInsertBody cmp s elm) (walkFuel w) (0, 0, s.root) = .ok res ∧
      match res with
      | .inl v => ∃ c ∈ t.toList, v = c.addr ∧ cmp elm c.addr = 0
      | .inr (parent, comp) => ∃ z, t = Tree.plug z .nil ∧ InsertPath cmp elm parent comp z := by
  refine loop_spec (fun bound p => ∃ z u, t = Tree.plug z u ∧ p.2.2 = top u ∧
      InsertPath cmp elm p.1 p.2.1 z ∧ u.toList.length = bound) _ ?_
    ⟨[], t, rfl, h.root, ⟨⟨nofun, nofun⟩, rfl, nofun⟩, rfl⟩
    (by have := Rep.length_lt (z := []) h; omega)
  rintro bound ⟨parent, comp, tmp⟩ ⟨z, u, rfl, rfl, ⟨hfit, rfl, hside⟩, rfl⟩
  obtain - | ⟨l, c, r⟩ := u
  · exact .inr ⟨_, rfl, z, rfl, hfit, rfl, hside⟩
  have h0 : c.addr ≠ 0 := Rep.ne_zero (d := .left) h
  have e₁ : rbChild s .left c.addr = .ok (top l) := Rep.child_near h
  have e₂ : rbChild s .right c.addr = .ok (top r) := Rep.child_near (d := .right) h
  simp only [rbInsertBody, top_node, if_pos h0, e₁, e₂, ok_bind]
  rcases lt_trichotomy (cmp elm c.addr) 0 with hlt | heq | hgt
  · rw [if_pos hlt]
    refine .inl ⟨_, l.toList.length, by simp, rfl, ⟨.left, c, r⟩ :: z, l, rfl, rfl,
      ⟨hfit.left hcmp hs hlt, rfl, fun f hf => ?_⟩, rfl⟩
    obtain rfl := Option.mem_some_iff.mp hf
    exact if_pos hlt
  · rw [if_neg (by omega), if_neg (by omega)]
    exact .inr ⟨_, rfl, c, Tree.mem_plug.mpr (.inl (by simp)), rfl, heq⟩
  · rw [if_neg (by omega), if_pos hgt]
    refine .inl ⟨_, r.toList.length, by simp; omega, rfl, ⟨.right, c, l⟩ :: z, r, rfl, rfl,
      ⟨hfit.right hcmp hs hgt, rfl, fun f hf => ?_⟩, rfl⟩
    obtain rfl := Option.mem_some_iff.mp hf
    exact if_neg (by simp only; omega)

/-- The loop of `RB_FIND` and `RB_NFIND` ends at an equal element, or at the hole where one
belongs with the next element in hand. -/
theorem Rep.search (h : Rep s t) (hs : Ascending cmp (addrs t)) (elm : BitVec w) :
    ∃ p : BitVec w × BitVec w, loop (rbSearchBody cmp s elm) (walkFuel w) (0, s.root) = .ok p ∧
      ((∃ c ∈ t.toList, p.2 = c.addr ∧ cmp elm c.addr = 0) ∨
        ∃ z, t = Tree.plug z .nil ∧ Fits cmp elm z ∧ p.2 = 0 ∧
          p.1 = ((Tree.after z).map Cell.addr).headD 0) := by
  refine loop_spec (fun bound (p : BitVec w × BitVec w) => ∃ z u, t = Tree.plug z u ∧
      p.2 = top u ∧ Fits cmp elm z ∧ p.1 = ((Tree.after z).map Cell.addr).headD 0 ∧
      u.toList.length = bound) _ ?_ ⟨[], t, rfl, h.root, ⟨nofun, nofun⟩, rfl, rfl⟩
    (by have := Rep.length_lt (z := []) h; omega)
  rintro bound ⟨res, tmp⟩ ⟨z, u, rfl, rfl, hfit, rfl, rfl⟩
  obtain - | ⟨l, c, r⟩ := u
  · exact .inr ⟨_, rfl, .inr ⟨z, rfl, hfit, rfl, rfl⟩⟩
  have h0 : c.addr ≠ 0 := Rep.ne_zero (d := .left) h
  have e₁ : rbChild s .left c.addr = .ok (top l) := Rep.child_near h
  have e₂ : rbChild s .right c.addr = .ok (top r) := Rep.child_near (d := .right) h
  simp only [rbSearchBody, top_node, if_pos h0, e₁, e₂, ok_bind]
  rcases lt_trichotomy (cmp elm c.addr) 0 with hlt | heq | hgt
  · rw [if_pos hlt]
    exact .inl ⟨_, l.toList.length, by simp, rfl, ⟨.left, c, r⟩ :: z, l, rfl, rfl,
      hfit.left hcmp hs hlt, rfl, rfl⟩
  · rw [if_neg (by omega), if_neg (by omega)]
    exact .inr ⟨_, rfl, .inl ⟨c, Tree.mem_plug.mpr (.inl (by simp)), rfl, heq⟩⟩
  · rw [if_neg (by omega), if_pos hgt]
    exact .inl ⟨_, r.toList.length, by simp; omega, rfl, ⟨.right, c, l⟩ :: z, r, rfl, rfl,
      hfit.right hcmp hs hgt, rfl, rfl⟩

end Loops

end MacKernel.RedBlack
