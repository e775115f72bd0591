import MacKernel.Core.OrderedSet
import MacKernel.Models.SplayTree.Parts

/-!
# Splaying

A splay follows a sign that falls along the order of the elements: that of the comparison
with a key, or one that is the same everywhere. The side trees hold elements on either
side of the place where the sign changes, and the loop ends with the root next to it.
-/

namespace MacKernel.SplayTree

open MacKernel.Tree

variable {E : Type} {k : E → Int} {members : List E} {d : Side} {a b e : E}
variable {near far : Tree E} {ctx : Side → List (Frame E)}

/-- The sign leads to the side. -/
def Toward (d : Side) (n : Int) : Prop :=
  match d with
  | .left => n < 0
  | .right => n > 0

/-- The sign falls along the list, and is zero at most once. -/
def Falling (k : E → Int) (members : List E) : Prop :=
  members.Pairwise fun a b => (k a ≤ 0 → k b < 0) ∧ (0 ≤ k b → 0 < k a)

/-- The side trees hold elements on either side of the place that is sought. -/
def Apart (k : E → Int) (ctx : Side → List (Frame E)) : Prop :=
  ∀ d, ∀ e ∈ labels (ctx d), Toward d (k e)

section Signs

/-- The far child of a node that is beyond the place is beyond it too. -/
theorem Falling.toward_far (h : Falling k (join d near a far).toList) (ha : Toward d (k a)) :
    ∀ e ∈ far.toList, Toward d (k e) := by
  intro e he
  cases d with
  | left =>
    have hpair := (List.pairwise_append.mp h).2.1
    exact ((List.pairwise_cons.mp hpair).1 e he).1 (le_of_lt ha)
  | right =>
    have hpair := (List.pairwise_append.mp h).2.2
    exact (hpair e he a List.mem_cons_self).2 (le_of_lt ha)

theorem Apart.push (h : Apart k ctx) (ha : Toward d (k a))
    (hfar : ∀ e ∈ far.toList, Toward d (k e)) :
    Apart k (Function.update ctx d (⟨d, a, far⟩ :: ctx d)) := by
  intro d' e he
  by_cases hd : d' = d
  · subst hd
    rw [Function.update_self, labels, List.cons_append, List.mem_cons, List.mem_append] at he
    rcases he with rfl | he | he
    · exact ha
    · exact hfar e he
    · exact h d' e he
  · rw [Function.update_of_ne hd] at he
    exact h d' e he

end Signs

section Passes

variable {start : SplayHead E} {l : SplayLoop E}

theorem Parts.falling {t : Tree E} (h : Parts start members l ctx t) (hk : Falling k members) :
    Falling k t.toList := by
  rw [← h.order] at hk
  exact (List.pairwise_append.mp (List.pairwise_append.mp hk).1).2.1

variable [DecidableEq E]

/-- What a pass that goes to one side does: it moves nodes to the side tree, or it ends with a
root that has no child on that side. -/
theorem Parts.descend (h : Parts start members l ctx (join d near a far)) (hm : members.Nodup)
    (hk : Falling k members) (hctx : Apart k ctx) (ha : Toward d (k a)) {further : E → Bool}
    (hfurther : ∀ e, further e = true ↔ Toward d (k e)) :
    (∃ l' ctx' t', splayDescend d further l = .ok (.inl l') ∧ Parts start members l' ctx' t' ∧
      Apart k ctx' ∧ t' ≠ .nil ∧ t'.toList.length < (join d near a far).toList.length) ∨
    ∃ l' a' far', splayDescend d further l = .ok (.inr l') ∧
      Parts start members l' ctx (join d .nil a' far') ∧ Toward d (k a') := by
  have hfall := h.falling hk
  have hfar := hfall.toward_far ha
  have hchild : l.head.child d (.elm a) = top near := (laid_join.mp h.laid).1
  by_cases hnear : near = .nil
  · subst hnear
    refine .inr ⟨l, a, far, ?_, h, ha⟩
    simp only [splayDescend, h.root_eq, deref_some, ok_bind, hchild]
    rfl
  · obtain ⟨near, b, far', rfl⟩ := exists_join d hnear
    rw [top_join] at hchild
    by_cases hb : further b = true
    · have hb' := (hfurther b).mp hb
      obtain ⟨s, hrot, hparts⟩ := h.rotate hm
      have hchild' : s.child d (.elm b) = top near := (laid_join.mp hparts.laid).1
      have hroot : s.root = some b := hparts.root_eq
      by_cases hn : near = .nil
      · subst hn
        refine .inr ⟨_, b, _, ?_, hparts, hb'⟩
        simp only [splayDescend, h.root_eq, deref_some, ok_bind, hchild, hb, if_true, hrot, hroot,
          hchild']
        rfl
      · have hsome : ¬(top near).isNone = true := by
          rw [Option.isNone_iff_eq_none, top_eq_none]
          exact hn
        obtain ⟨l', hlink, hparts'⟩ := hparts.link hm
        refine .inl ⟨l', _, near, ?_, hparts', hctx.push hb' ?_, hn, ?_⟩
        · simp only [splayDescend, h.root_eq, deref_some, ok_bind, hchild, hb, if_true, hrot, hroot,
            hchild', if_neg hsome, hlink]
          rfl
        · exact (hparts.falling hk).toward_far hb'
        · rw [(rotate_perm _ _ _ _ _ _).length_eq]
          simp only [List.length_append, List.length_cons]
          omega
    · obtain ⟨l', hlink, hparts⟩ := h.link hm
      refine .inl ⟨l', _, _, ?_, hparts, hctx.push ha hfar, hnear, ?_⟩
      · simp only [splayDescend, h.root_eq, deref_some, ok_bind, hchild, if_neg hb, hlink]
        rfl
      · rw [(toList_join_perm d (join d near b far') a far).length_eq]
        simp only [List.length_append, List.length_cons]
        omega

/-- The loop that both splays run. -/
def signPass (k : E → Int) (l : SplayLoop E) : Except Fault (SplayLoop E ⊕ SplayLoop E) := do
  let root ← deref l.head.root
  if k root < 0 then splayDescend .left (fun tmp => k tmp < 0) l
  else if k root > 0 then splayDescend .right (fun tmp => k tmp > 0) l
  else return .inr l

private theorem splayPass_eq (cmp : E → E → Int) (elm : E) :
    splayPass cmp elm = signPass (cmp elm) := rfl

/-- The root has the sign zero, or no child where the sign leads. -/
def Stopped (k : E → Int) (left : Tree E) (a : E) (right : Tree E) : Prop :=
  k a = 0 ∨ (k a < 0 ∧ left = .nil) ∨ 0 < k a ∧ right = .nil

theorem Parts.pass {t : Tree E} (h : Parts start members l ctx t) (hm : members.Nodup)
    (hk : Falling k members) (hctx : Apart k ctx) (ht : t ≠ .nil) :
    (∃ l' ctx' t', signPass k l = .ok (.inl l') ∧ Parts start members l' ctx' t' ∧
      Apart k ctx' ∧ t' ≠ .nil ∧ t'.toList.length < t.toList.length) ∨
    ∃ l' left a right, signPass k l = .ok (.inr l') ∧
      Parts start members l' ctx (.node left a right) ∧ Stopped k left a right := by
  obtain ⟨left, a, right, rfl⟩ := exists_join .left ht
  unfold signPass
  rw [h.root_eq, deref_some, ok_bind]
  rcases lt_trichotomy (k a) 0 with hneg | hzero | hpos
  · rw [if_pos hneg]
    have hfurther : ∀ e, decide (k e < 0) = true ↔ Toward .left (k e) :=
      fun e => decide_eq_true_iff
    rcases h.descend hm hk hctx hneg hfurther with hmove | ⟨l', b, far, hs, hp, hb⟩
    · exact .inl hmove
    · exact .inr ⟨l', .nil, b, far, hs, hp, .inr (.inl ⟨hb, rfl⟩)⟩
  · rw [if_neg (by omega), if_neg (by omega)]
    exact .inr ⟨l, left, a, right, rfl, h, .inl hzero⟩
  · rw [if_neg (by omega), if_pos hpos]
    have hparts : Parts start members l ctx (join .right right a left) := h
    have hfurther : ∀ e, decide (k e > 0) = true ↔ Toward .right (k e) :=
      fun e => decide_eq_true_iff
    rcases hparts.descend hm hk hctx hpos hfurther with hmove | ⟨l', b, far, hs, hp, hb⟩
    · exact .inl hmove
    · exact .inr ⟨l', far, b, .nil, hs, hp, .inr (.inr ⟨hb, rfl⟩)⟩

end Passes

section Results

/-- The head holds the tree. -/
structure Represents (s : SplayHead E) (t : Tree E) : Prop where
  root : s.root = top t
  laid : Laid s.child t

/-- Where the loop stops, the side trees and the children of the root are apart. -/
theorem Stopped.closest {left right : Tree E} (h : Stopped k left a right)
    (hk : Falling k (node left a right).toList) : Closest k left.toList right.toList := by
  obtain ⟨-, hpair, hcross⟩ := List.pairwise_append.mp hk
  have hright := (List.pairwise_cons.mp hpair).1
  constructor
  · intro e he
    rcases h with hzero | ⟨-, rfl⟩ | ⟨hpos, -⟩
    · exact (hcross e he a List.mem_cons_self).2 hzero.ge
    · cases he
    · exact (hcross e he a List.mem_cons_self).2 hpos.le
  · intro e he
    rcases h with hzero | ⟨hneg, -⟩ | ⟨-, rfl⟩
    · exact (hright e he).1 hzero.le
    · exact (hright e he).1 hneg.le
    · cases he

variable [DecidableEq E]

/-- The loop ends, and the parts are put together with the closest element at the root. -/
theorem loop_assemble {s : SplayHead E} {t : Tree E} (h : Represents s t) (ht : t ≠ .nil)
    (hm : t.toList.Nodup) (hk : Falling k t.toList) {fuel : Nat} (hfuel : t.toList.length < fuel) :
    ∃ l s' left a right, loop (signPass k) fuel (splayStart s) = .ok l ∧
      splayAssemble l = .ok s' ∧ Represents s' (.node left a right) ∧
      (node left a right).toList = t.toList ∧ Closest k left.toList right.toList ∧
      ∀ e ∉ t.toList, ∀ d, s'.child d (.elm e) = s.child d (.elm e) := by
  let inv : Nat → SplayLoop E → Prop := fun n l => ∃ ctx u, Parts s t.toList l ctx u ∧
    Apart k ctx ∧ u ≠ .nil ∧ u.toList.length = n
  let post : SplayLoop E → Prop := fun l => ∃ ctx left a right,
    Parts s t.toList l ctx (.node left a right) ∧ Apart k ctx ∧ Stopped k left a right
  have hpass : ∀ bound l, inv bound l →
      (∃ l' bound', bound' < bound ∧ signPass k l = .ok (.inl l') ∧ inv bound' l') ∨
        ∃ l', signPass k l = .ok (.inr l') ∧ post l' := by
    rintro bound l ⟨ctx, u, hparts, hctx, hu, rfl⟩
    rcases hparts.pass hm hk hctx hu with
      ⟨l', ctx', u', hs, hp, hctx', hu', hlt⟩ | ⟨l', left, a, right, hs, hp, hstop⟩
    · exact .inl ⟨l', _, hlt, hs, ctx', u', hp, hctx', hu', rfl⟩
    · exact .inr ⟨l', hs, ctx, left, a, right, hp, hctx, hstop⟩
  have hstart : inv t.toList.length (splayStart s) :=
    ⟨_, t, parts_start h.root h.laid, fun _ e he => absurd he (List.not_mem_nil), ht, rfl⟩
  obtain ⟨l, hloop, ctx, left, a, right, hparts, hctx, hstop⟩ :=
    loop_spec inv post hpass hstart hfuel
  obtain ⟨s', hs', hroot, hlaid, hleft, hright, hframe⟩ := hparts.assemble hm
  refine ⟨l, s', _, a, _, hloop, hs', ⟨hroot, hlaid⟩, ?_, ?_, hframe⟩
  · rw [toList_node, hleft, hright, ← hparts.order, toList_node]
    simp
  · have hclosest := hstop.closest (hparts.falling hk)
    rw [hleft, hright]
    constructor
    · intro e he
      rcases List.mem_append.mp he with he | he
      · rw [← (labels_perm_before (hparts.spine .right).side).mem_iff] at he
        exact hctx .right e he
      · exact hclosest.1 e he
    · intro e he
      rcases List.mem_append.mp he with he | he
      · exact hclosest.2 e he
      · rw [← (labels_perm_after (hparts.spine .left).side).mem_iff] at he
        exact hctx .left e he

/-- `SPLAY` on a tree that is not empty returns, keeps the elements in order, and leaves the
element closest to the key at the root. -/
theorem Represents.splay {cmp : E → E → Int} (hcmp : Comparison cmp) {s : SplayHead E} {t : Tree E}
    (h : Represents s t) (ht : t ≠ .nil) (hasc : Ascending cmp t.toList) (key : E) {fuel : Nat}
    (hfuel : t.toList.length < fuel) :
    ∃ s' left a right, SplayTree.splay cmp fuel s key = .ok s' ∧
      Represents s' (.node left a right) ∧ (node left a right).toList = t.toList ∧
      Closest (cmp key) left.toList right.toList ∧
      ∀ e ∉ t.toList, ∀ d, s'.child d (.elm e) = s.child d (.elm e) := by
  have hk : Falling (cmp key) t.toList := by
    refine hasc.imp fun hab => ⟨fun ha => hcmp.lt_of_le_of_lt ha hab, fun hb => ?_⟩
    by_contra ha
    exact absurd (hcmp.lt_of_le_of_lt (not_lt.mp ha) hab) (not_lt.mpr hb)
  obtain ⟨l, s', left, a, right, hloop, hs', hrep, hlist, hclosest, hframe⟩ :=
    loop_assemble h ht (hasc.nodup hcmp) hk hfuel
  refine ⟨s', left, a, right, ?_, hrep, hlist, hclosest, hframe⟩
  rw [SplayTree.splay, splayPass_eq, hloop]
  exact hs'

private theorem minmaxPass_eq {comp : Int} (hcomp : comp ≠ 0) :
    (minmaxPass comp : SplayLoop E → _) = signPass fun _ => comp := by
  funext l
  cases hroot : l.head.root with
  | none =>
    simp only [minmaxPass, signPass, splayDescend, hroot]
    split
    · rfl
    · rw [if_pos (by omega)]
      rfl
  | some a =>
    simp only [minmaxPass, signPass, hroot, deref_some, ok_bind]
    split
    · rfl
    · rw [if_pos (by omega)]
      exact (if_pos (by omega)).symm

/-- `SPLAY_MINMAX` on a tree that is not empty returns, keeps the elements in order, and leaves
an element at the root that has none on the side of the sign. -/
theorem Represents.splayMinmax {s : SplayHead E} {t : Tree E} (h : Represents s t) (ht : t ≠ .nil)
    (hm : t.toList.Nodup) {comp : Int} (hcomp : comp ≠ 0) {fuel : Nat}
    (hfuel : t.toList.length < fuel) :
    ∃ s' left a right, SplayTree.splayMinmax fuel s comp = .ok s' ∧
      Represents s' (.node left a right) ∧ (node left a right).toList = t.toList ∧
      (comp < 0 → left.toList = []) ∧ (0 < comp → right.toList = []) := by
  have hsign : (comp ≤ 0 → comp < 0) ∧ (0 ≤ comp → 0 < comp) := by omega
  have hk : Falling (fun _ => comp) t.toList := List.pairwise_of_forall fun _ _ => hsign
  obtain ⟨l, s', left, a, right, hloop, hs', hrep, hlist, hclosest, -⟩ :=
    loop_assemble h ht hm hk hfuel
  refine ⟨s', left, a, right, ?_, hrep, hlist, ?_, ?_⟩
  · rw [SplayTree.splayMinmax, minmaxPass_eq hcomp, hloop]
    exact hs'
  · intro hneg
    apply List.eq_nil_iff_forall_not_mem.mpr
    exact fun e he => absurd (hclosest.1 e he) (not_lt.mpr hneg.le)
  · intro hpos
    apply List.eq_nil_iff_forall_not_mem.mpr
    exact fun e he => absurd (hclosest.2 e he) (not_lt.mpr hpos.le)

end Results

end MacKernel.SplayTree
