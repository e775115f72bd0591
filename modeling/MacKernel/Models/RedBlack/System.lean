import Mathlib.Data.Finset.Basic
import Mathlib.Data.Finset.Card
import MacKernel.Models.RedBlack.Insert
import MacKernel.Models.RedBlack.Remove

/-!
# A tree and its callers

The callers of one tree. They insert elements at even addresses, remove elements that
are in the tree, and use the memory of other elements as they like. The set of elements
is a history variable: what was inserted and not removed since, where an element equal
to a present one is not inserted. In every state a caller can reach the tree is a
red-black tree of exactly these elements, and every further call returns: no loop runs
on and no null pointer, such as a missing sibling, is followed.
-/

namespace MacKernel.RedBlack

variable {A : Type} {w : Nat}

/-- A tree with the elements that are in it. -/
structure System (A : Type) (w : Nat) where
  head : RbHead A w
  members : Finset (BitVec w)

/-- The calls on a tree, and a write to the entry of an element. -/
inductive Call (w : Nat) where
  | insert (elm : BitVec w)
  | remove (elm : BitVec w)
  | write (elm : BitVec w) (entry : RbEntry w)

/-- What the callers promise. -/
def System.Promised (s : System A w) : Call w → Prop
  | .insert elm => Valid elm
  | .remove elm => elm ∈ s.members
  | .write elm _ => elm ∉ s.members

section Calls

variable (augment : Augment A w) (cmp : BitVec w → BitVec w → Int)

/-- Run one call. -/
def System.perform (s : System A w) : Call w → Except Fault (System A w)
  | .insert elm => do
    let (head, _) ← rbInsert augment cmp s.head elm
    return ⟨head, if ∃ b ∈ s.members, cmp elm b = 0 then s.members else insert elm s.members⟩
  | .remove elm => do
    let (head, _) ← rbRemove augment s.head elm
    return ⟨head, s.members.erase elm⟩
  | .write elm entry => return { s with head := s.head.put elm entry }

/-- A promised call takes the tree to its next state. -/
def Step (s : System A w) (call : Call w) (s' : System A w) : Prop :=
  s.Promised call ∧ s.perform augment cmp call = .ok s'

end Calls

/-- An empty tree in any memory. -/
def emptyTree (head : RbHead A w) : System A w := ⟨rbInit head, ∅⟩

section Invariant

variable {cmp : BitVec w → BitVec w → Int} {s s' : System A w} {t : Tree (Cell w)} {n : Nat}
  {call : Call w} (augment : Augment A w)

/-- The head holds a balanced tree of the members in ascending order. -/
structure System.Holds (cmp : BitVec w → BitVec w → Int) (s : System A w) (t : Tree (Cell w))
    (n : Nat) : Prop where
  rep : Rep s.head t
  ascending : Ascending cmp (addrs t)
  balanced : Balanced Cell.Red false n t
  mem : ∀ a, a ∈ addrs t ↔ a ∈ s.members

theorem emptyTree_holds (cmp : BitVec w → BitVec w → Int) (head : RbHead A w) :
    (emptyTree head).Holds cmp .nil 0 :=
  ⟨⟨rfl, trivial, .nil, nofun⟩, .nil, .nil, fun _ => iff_of_false nofun nofun⟩

theorem System.Holds.exists_cell (h : s.Holds cmp t n) {elm : BitVec w} (hmem : elm ∈ s.members) :
    ∃ c ∈ t.toList, c.addr = elm :=
  List.mem_map.mp ((h.mem elm).mpr hmem)

/-- `RB_REMOVE` of a member. -/
theorem System.Holds.remove (h : s.Holds cmp t n) {elm : BitVec w} (hmem : elm ∈ s.members) :
    ∃ head t' n', rbRemove augment s.head elm = .ok (head, elm) ∧
      System.Holds cmp ⟨head, s.members.erase elm⟩ t' n' ∧ addrs t' = (addrs t).erase elm ∧
      ∃ z l c r, t = Tree.plug z (.node l c r) ∧ c.addr = elm ∧
        RemoveTrace augment s.head z c (.node l c r) head t' := by
  obtain ⟨c, hc, rfl⟩ := h.exists_cell hmem
  obtain ⟨head, n', t', e, hbal, hrep, hL, z, l, r, hplug, htrace⟩ :=
    h.rep.remove augment h.balanced hc
  refine ⟨head, t', n', e, ⟨hrep, ?_, hbal, fun a => ?_⟩, hL, z, l, c, r, hplug, rfl, htrace⟩
  · rw [hL]
    exact h.ascending.sublist List.erase_sublist
  · rw [hL, h.rep.nodup.mem_erase_iff, h.mem, Finset.mem_erase]

/-- A write to memory outside of the tree. -/
theorem System.Holds.write (h : s.Holds cmp t n) {elm : BitVec w} (hmem : elm ∉ s.members)
    (entry : RbEntry w) : System.Holds cmp { s with head := s.head.put elm entry } t n := by
  refine ⟨⟨h.rep.root, h.rep.placed.congr fun c hc => ?_, h.rep.nodup, h.rep.valid⟩, h.ascending,
    h.balanced, h.mem⟩
  refine Function.update_of_ne (fun he => hmem ?_) _ _
  exact (h.mem elm).mp (he ▸ List.mem_map_of_mem hc)

variable (hcmp : Comparison cmp)

include hcmp

/-- `RB_INSERT` of an element equal to a member. -/
theorem System.Holds.insert_equal (h : s.Holds cmp t n) {elm b : BitVec w} (hv : Valid elm)
    (hb : b ∈ s.members) (heq : cmp elm b = 0) :
    rbInsert augment cmp s.head elm = .ok (s.head, b) := by
  have hb' := (h.mem b).mpr hb
  rcases h.rep.insert augment hcmp h.balanced h.ascending hv with
    ⟨v, hv', hzero, e⟩ | ⟨hne, -⟩
  · have hvb := hcmp.zero_trans (hcmp.zero_symm hzero) heq
    rwa [h.ascending.eq_of_equal hcmp hv' hb' hvb] at e
  · exact absurd heq (hne b hb')

/-- `RB_INSERT` of an element that is equal to no member. -/
theorem System.Holds.insert_new (h : s.Holds cmp t n) {elm : BitVec w} (hv : Valid elm)
    (hne : ∀ b ∈ s.members, cmp elm b ≠ 0) :
    ∃ head t' n', rbInsert augment cmp s.head elm = .ok (head, 0) ∧
      System.Holds cmp ⟨head, insert elm s.members⟩ t' n' ∧
      ∃ z, t = Tree.plug z .nil ∧ Fits cmp elm z ∧ InsertTrace augment s.head z elm head t' := by
  rcases h.rep.insert augment hcmp h.balanced h.ascending hv with
    ⟨v, hv', hzero, -⟩ | ⟨-, head, n', t', e, hrep, hbal, hasc, hperm, htrace⟩
  · exact absurd hzero (hne v ((h.mem v).mp hv'))
  · refine ⟨head, t', n', e, ⟨hrep, hasc, hbal, fun a => ?_⟩, htrace⟩
    rw [hperm.mem_iff, List.mem_cons, h.mem, Finset.mem_insert]

/-- Every promised call returns and keeps the tree. -/
theorem System.Holds.perform (h : s.Holds cmp t n) (hp : s.Promised call) :
    ∃ s', s.perform augment cmp call = .ok s' ∧ ∃ t' n', s'.Holds cmp t' n' := by
  cases call with
  | insert elm =>
    by_cases hex : ∃ b ∈ s.members, cmp elm b = 0
    · obtain ⟨b, hb, heq⟩ := hex
      have e := h.insert_equal augment hcmp hp hb heq
      refine ⟨s, ?_, t, n, h⟩
      rw [System.perform, e, ok_bind, if_pos ⟨b, hb, heq⟩]
      rfl
    · obtain ⟨head, t', n', e, h', -⟩ := h.insert_new augment hcmp hp
        fun b hb heq => hex ⟨b, hb, heq⟩
      refine ⟨_, ?_, t', n', h'⟩
      rw [System.perform, e, ok_bind, if_neg hex]
      rfl
  | remove elm =>
    obtain ⟨head, t', n', e, h', -⟩ := h.remove augment hp
    refine ⟨_, ?_, t', n', h'⟩
    rw [System.perform, e, ok_bind]
    rfl
  | write elm entry => exact ⟨_, rfl, t, n, h.write hp entry⟩

/-- Along every run from an empty tree the head holds a balanced tree of the members. -/
theorem holds_of_run {head : RbHead A w} {calls : List (Call w)}
    (hrun : Run (Step augment cmp) (emptyTree head) calls s) : ∃ t n, s.Holds cmp t n := by
  refine hrun.invariant (fun s => ∃ t n, s.Holds cmp t n) ?_ ⟨_, _, emptyTree_holds cmp head⟩
  rintro s s' call ⟨t, n, h⟩ ⟨hp, e⟩
  obtain ⟨s'', e', h'⟩ := h.perform augment hcmp hp
  obtain rfl := Except.ok.inj (e.symm.trans e')
  exact h'

end Invariant

section Contract

variable {cmp : BitVec w → BitVec w → Int} {s : System A w} {t : Tree (Cell w)} {n : Nat}

/-- The contract of a red-black tree, read off the tree `t` that the head holds. -/
structure System.Contract (cmp : BitVec w → BitVec w → Int) (s : System A w)
    (t : Tree (Cell w)) : Prop where
  /-- The links, parents and colours in memory are those of the tree. -/
  rep : Rep s.head t
  /-- Every parent pointer, with the colour masked, leads to the parent. -/
  parent : ∀ z l c r, t = Tree.plug z (.node l c r) →
    rbGetparent s.head c.addr = .ok (above z)
  /-- The tree is a search tree. -/
  search : Ascending cmp (addrs t)
  /-- The elements are those that were inserted and not removed. -/
  mem : ∀ a, a ∈ addrs t ↔ a ∈ s.members
  /-- The root is black. -/
  root_black : ∀ p ∈ t.paths, ∀ c ∈ p.head?, ¬c.Red
  /-- No red node has a red child. -/
  no_red_red : ∀ p ∈ t.paths, p.IsChain fun c child => c.Red → ¬child.Red
  /-- All paths from the root to a null pointer have the same number of black nodes. -/
  black_height : ∃ n, ∀ p ∈ t.paths, p.countP (fun c => ¬c.Red) = n
  height : t.height ≤ 2 * Nat.log 2 (s.members.card + 1)

/-- The tree has as many nodes as there are members. -/
theorem System.Holds.length_eq (h : s.Holds cmp t n) : t.toList.length = s.members.card := by
  have hfin : (addrs t).toFinset = s.members := by
    ext a
    rw [List.mem_toFinset, h.mem]
  rw [← hfin, List.toFinset_card_of_nodup h.rep.nodup, List.length_map]

theorem System.Holds.contract (h : s.Holds cmp t n) : s.Contract cmp t where
  rep := h.rep
  parent := by
    rintro z l c r rfl
    exact Rep.getparent (d := .left) h.rep
  search := h.ascending
  mem := h.mem
  root_black p hp := (h.balanced.path_colors hp).1 rfl
  no_red_red p hp := (h.balanced.path_colors hp).2
  black_height := ⟨n, fun p hp => h.balanced.count_black hp⟩
  height := by
    rw [← h.length_eq]
    exact h.balanced.height_le_log

/-- The parent and the colour share a word and are set independently, whatever the entry
holds. -/
theorem setparent_setcolor_independent (head : RbHead A w) {elm parent : BitVec w}
    (h0 : elm ≠ 0) (hparent : parent &&& rbColorMask = 0) (color : Color) :
    (∃ head', rbSetparent head elm parent = .ok (head', parent) ∧
      rbGetcolor head' elm = rbGetcolor head elm) ∧
    ∃ head', rbSetcolor head elm color = .ok head' ∧
      rbGetparent head' elm = rbGetparent head elm := by
  obtain ⟨p, c, hp, hword⟩ := exists_packWord (head.field elm).parent
  refine ⟨⟨_, rbSetparent_ok h0 hp hword hparent, ?_⟩, _, rbSetcolor_ok h0 hp hword color, ?_⟩
  · rw [rbGetcolor_ok h0 hp hword]
    exact rbGetcolor_ok h0 hparent (by simp)
  · rw [rbGetparent_ok h0 hp hword]
    exact rbGetparent_ok (c := color) h0 hp (by simp)

/-- In every state of every run from an empty tree the tree is a red-black tree of exactly
the members, an element equal to a member is refused without any change, and every further
call returns. -/
theorem contract_of_calls (augment : Augment A w) (hcmp : Comparison cmp) {head : RbHead A w}
    {calls : List (Call w)} (hrun : Run (Step augment cmp) (emptyTree head) calls s) :
    (∃ t, s.Contract cmp t) ∧
    (∀ elm b, Valid elm → b ∈ s.members → cmp elm b = 0 →
      rbInsert augment cmp s.head elm = .ok (s.head, b)) ∧
    (∀ elm, Valid elm → (∀ b ∈ s.members, cmp elm b ≠ 0) →
      ∃ head', rbInsert augment cmp s.head elm = .ok (head', 0)) ∧
    (∀ elm ∈ s.members, ∃ head', rbRemove augment s.head elm = .ok (head', elm)) ∧
    ∀ (head : RbHead A w) elm parent color, elm ≠ 0 → parent &&& rbColorMask = 0 →
      (∃ head', rbSetparent head elm parent = .ok (head', parent) ∧
        rbGetcolor head' elm = rbGetcolor head elm) ∧
      ∃ head', rbSetcolor head elm color = .ok head' ∧
        rbGetparent head' elm = rbGetparent head elm := by
  obtain ⟨t, n, h⟩ := holds_of_run augment hcmp hrun
  refine ⟨⟨t, h.contract⟩, fun elm b hv hb heq => h.insert_equal augment hcmp hv hb heq,
    fun elm hv hne => ?_, fun elm hmem => ?_,
    fun head elm parent color h0 hp => setparent_setcolor_independent head h0 hp color⟩
  · obtain ⟨head', -, -, e, -⟩ := h.insert_new augment hcmp hv hne
    exact ⟨head', e⟩
  · obtain ⟨head', -, -, e, -⟩ := h.remove augment hmem
    exact ⟨head', e⟩

/-- The order of the addresses themselves. -/
def cmpAddr (a b : BitVec w) : Int := a.toNat - b.toNat

theorem comparison_cmpAddr : Comparison (cmpAddr : BitVec w → BitVec w → Int) :=
  ⟨fun a b => by unfold cmpAddr; omega, fun hab hbc => by unfold cmpAddr at *; omega⟩

/-- An empty tree in clear memory, without an augmented field. -/
def clearTree (w : Nat) : System Unit w := emptyTree ⟨0, fun _ => default, fun _ => ()⟩

theorem contract_of_calls_three : ∃ s, Run (Step (fun _ _ => ()) cmpAddr) (clearTree 4)
    [.insert 4, .insert 2, .insert 6, .insert 4, .remove 4] s ∧ ∃ t, s.Contract cmpAddr t := by
  have hrun : Run (Step (fun _ _ => ()) cmpAddr) (clearTree 4)
      [.insert 4, .insert 2, .insert 6, .insert 4, .remove 4] _ :=
    .snoc (.snoc (.snoc (.snoc (.snoc .nil ⟨⟨by decide, by decide⟩, rfl⟩)
      ⟨⟨by decide, by decide⟩, rfl⟩) ⟨⟨by decide, by decide⟩, rfl⟩)
      ⟨⟨by decide, by decide⟩, rfl⟩) ⟨show (4 : BitVec 4) ∈ _ from by decide, rfl⟩
  exact ⟨_, hrun, (contract_of_calls _ comparison_cmpAddr hrun).1⟩

end Contract

end MacKernel.RedBlack
