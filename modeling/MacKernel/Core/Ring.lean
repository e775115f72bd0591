import MacKernel.Core.Chain
import MacKernel.Core.Run
import Mathlib.Data.List.Induction
import Mathlib.Data.List.Nodup
import Mathlib.Logic.Function.Basic

/-!
# Rings of doubly linked nodes

Nodes with a `next` and a `prev` field. A path leads from a node through a list to a
node and is linked in both directions; a ring is a path from a node to itself. Rings
are turned so that the node of interest comes first, and nodes are inserted and
removed behind it.
-/

namespace MacKernel

/-- The two link fields of all nodes. -/
structure Entries (N : Type*) where
  next : N → Option N
  prev : N → Option N

namespace Entries

variable {N : Type*} {m m' : Entries N} {a b x y z : N} {l l' : List N}

/-- Two nodes are neighbours, in both directions. -/
def Linked (m : Entries N) (a b : N) : Prop := m.next a = some b ∧ m.prev b = some a

/-- Neighbours lead from `a` through the nodes of a list to `b`. -/
def Path (m : Entries N) : N → List N → N → Prop
  | a, [], b => m.Linked a b
  | a, x :: l, b => m.Linked a x ∧ m.Path x l b

section Paths

/-- A path splits at each of its nodes. -/
theorem path_append : m.Path a (l ++ x :: l') b ↔ m.Path a l x ∧ m.Path x l' b := by
  induction l generalizing a with
  | nil => rfl
  | cons y l ih =>
    simp only [List.cons_append, Path, ih, and_assoc]

/-- A path depends on the links along it only. -/
theorem Path.frame (h : m.Path a l b) (hnext : ∀ x ∈ a :: l, m'.next x = m.next x)
    (hprev : ∀ x ∈ l ++ [b], m'.prev x = m.prev x) : m'.Path a l b := by
  induction l generalizing a with
  | nil =>
    refine ⟨?_, ?_⟩
    · rw [hnext a List.mem_cons_self]
      exact h.1
    · rw [hprev b (by simp)]
      exact h.2
  | cons x l ih =>
    refine ⟨⟨?_, ?_⟩, ih h.2 ?_ ?_⟩
    · rw [hnext a List.mem_cons_self]
      exact h.1.1
    · rw [hprev x (by simp)]
      exact h.1.2
    · intro y hy
      exact hnext y (List.mem_cons_of_mem a hy)
    · intro y hy
      exact hprev y (List.mem_cons_of_mem x hy)

/-- The first node of a path, or its end. -/
theorem Path.next_eq (h : m.Path a l b) : m.next a = some (l.head?.getD b) := by
  cases l with
  | nil => exact h.1
  | cons x l => exact h.1.1

/-- The last node of a path, or its start, is a neighbour of its end. -/
theorem Path.linked_last (h : m.Path a l b) : m.Linked (l.getLast?.getD a) b := by
  rcases List.eq_nil_or_concat' l with rfl | ⟨l, z, rfl⟩
  · exact h
  · rw [List.getLast?_concat]
    exact (path_append.mp h).2

/-- The end of a path names the last node before it. -/
theorem Path.prev_eq (h : m.Path a l b) : m.prev b = some (l.getLast?.getD a) := h.linked_last.2

/-- The `next` fields of a path alone. -/
theorem Path.chain (h : m.Path a l b) : Chain m.next (m.next a) l (some b) := by
  induction l generalizing a with
  | nil => exact h.1
  | cons x l ih => exact ⟨h.1.1, ih h.2⟩

end Paths

section Walks

/-- Follow a field from a pointer until it leads to the node `stop`. -/
def walk [DecidableEq N] (link : N → Option N) (stop : N) :
    Nat → Option N → Except Fault (List N)
  | 0, _ => .error .diverged
  | _ + 1, none => .error .nullDeref
  | fuel + 1, some a =>
    if a = stop then .ok []
    else do
      let rest ← walk link stop fuel (link a)
      return a :: rest

variable [DecidableEq N]

/-- A walk takes one node more if it starts one earlier. -/
theorem walk_cons {link : N → Option N} {stop : N} {fuel : Nat} (hne : a ≠ stop)
    (h : walk link stop fuel (link a) = .ok l) :
    walk link stop (fuel + 1) (some a) = .ok (a :: l) := by
  rw [walk, if_neg hne, h]
  rfl

/-- The nodes of a path, from its start on. -/
theorem Path.walk_next (h : m.Path a l b) (hb : b ∉ l) {fuel : Nat} (hfuel : l.length < fuel) :
    walk m.next b fuel (m.next a) = .ok l := by
  induction l generalizing a fuel with
  | nil =>
    obtain ⟨fuel, rfl⟩ := Nat.exists_eq_succ_of_ne_zero (by omega : fuel ≠ 0)
    rw [h.1]
    exact if_pos rfl
  | cons x l ih =>
    obtain ⟨hbx, hbl⟩ := not_or.mp (mt List.mem_cons.mpr hb)
    obtain ⟨fuel, rfl⟩ := Nat.exists_eq_succ_of_ne_zero (by omega : fuel ≠ 0)
    rw [h.1.1]
    exact walk_cons (Ne.symm hbx) (ih h.2 hbl (Nat.lt_of_succ_lt_succ hfuel))

/-- The nodes of a path, from its end on. -/
theorem Path.walk_prev (h : m.Path a l b) (ha : a ∉ l) {fuel : Nat} (hfuel : l.length < fuel) :
    walk m.prev a fuel (m.prev b) = .ok l.reverse := by
  induction l using List.reverseRecOn generalizing b fuel with
  | nil =>
    obtain ⟨fuel, rfl⟩ := Nat.exists_eq_succ_of_ne_zero (by omega : fuel ≠ 0)
    rw [h.2]
    exact if_pos rfl
  | append_singleton l x ih =>
    obtain ⟨hl, hx⟩ := path_append.mp h
    rw [List.mem_append, List.mem_singleton, not_or] at ha
    rw [List.length_append] at hfuel
    obtain ⟨fuel, rfl⟩ := Nat.exists_eq_succ_of_ne_zero (by omega : fuel ≠ 0)
    rw [hx.2, List.reverse_concat]
    exact walk_cons (Ne.symm ha.2) (ih hl ha.1 (Nat.lt_of_succ_lt_succ hfuel))

end Walks

/-- A path through different nodes back to its start. -/
structure Ring (m : Entries N) (a : N) (l : List N) : Prop where
  path : m.Path a l a
  nodup : (a :: l).Nodup

section Rings

/-- Rings have no first node. -/
theorem Ring.rotate (h : m.Ring a (l ++ b :: l')) : m.Ring b (l' ++ a :: l) where
  path := by
    obtain ⟨h₁, h₂⟩ := path_append.mp h.path
    exact path_append.mpr ⟨h₂, h₁⟩
  nodup := by
    have hperm : (b :: (l' ++ a :: l)).Perm (a :: (l ++ b :: l')) :=
      @List.perm_append_comm _ (b :: l') (a :: l)
    exact hperm.nodup_iff.mpr h.nodup

/-- A ring depends on its own links only. -/
theorem Ring.frame (h : m.Ring a l) (hnext : ∀ x ∈ a :: l, m'.next x = m.next x)
    (hprev : ∀ x ∈ a :: l, m'.prev x = m.prev x) : m'.Ring a l where
  path := by
    refine h.path.frame hnext fun x hx => hprev x ?_
    rw [List.mem_append, List.mem_singleton] at hx
    exact List.mem_cons.mpr hx.symm
  nodup := h.nodup

/-- The head is not among the nodes of its ring. -/
theorem Ring.not_mem (h : m.Ring a l) : a ∉ l := (List.nodup_cons.mp h.nodup).1

/-- An empty ring is a head that names itself. -/
theorem ring_nil : m.Ring a [] ↔ m.next a = some a ∧ m.prev a = some a :=
  ⟨fun h => h.path, fun h => ⟨h, List.nodup_singleton a⟩⟩

/-- The fields of the nodes in `p` are the same. -/
def AgreeOn (p : N → Prop) (m m' : Entries N) : Prop :=
  ∀ x, p x → m'.next x = m.next x ∧ m'.prev x = m.prev x

variable {p : N → Prop}

/-- Every memory agrees with itself. -/
theorem AgreeOn.refl (p : N → Prop) (m : Entries N) : AgreeOn p m m := fun _ _ => ⟨rfl, rfl⟩

/-- A ring is left by whatever leaves its nodes. -/
theorem Ring.agree (h : m.Ring a l) (hp : AgreeOn p m m') (hl : ∀ x ∈ a :: l, p x) :
    m'.Ring a l :=
  h.frame (fun x hx => (hp x (hl x hx)).1) fun x hx => (hp x (hl x hx)).2

end Rings

section Stores

variable [DecidableEq N]

/-- Store into a `next` field. -/
def setNext (m : Entries N) (a : N) (v : Option N) : Entries N :=
  { m with next := Function.update m.next a v }

/-- Store into a `prev` field. -/
def setPrev (m : Entries N) (a : N) (v : Option N) : Entries N :=
  { m with prev := Function.update m.prev a v }

/-- Make two nodes neighbours. -/
def link (m : Entries N) (a b : N) : Entries N := (m.setNext a (some b)).setPrev b (some a)

@[simp] theorem setNext_prev (v : Option N) : (m.setNext a v).prev = m.prev := rfl

@[simp] theorem setPrev_next (v : Option N) : (m.setPrev a v).next = m.next := rfl

/-- The link that was stored is read back. -/
@[simp] theorem setNext_next_self (v : Option N) : (m.setNext a v).next a = v :=
  Function.update_self ..

/-- The link that was stored is read back. -/
@[simp] theorem setPrev_prev_self (v : Option N) : (m.setPrev a v).prev a = v :=
  Function.update_self ..

/-- Other nodes keep their next link. -/
theorem setNext_next_of_ne (h : x ≠ a) (v : Option N) : (m.setNext a v).next x = m.next x :=
  Function.update_of_ne h ..

/-- Other nodes keep their previous link. -/
theorem setPrev_prev_of_ne (h : x ≠ a) (v : Option N) : (m.setPrev a v).prev x = m.prev x :=
  Function.update_of_ne h ..

/-- Stores into links of different directions commute. -/
theorem setNext_setPrev (m : Entries N) (a b : N) (v w : Option N) :
    (m.setPrev b w).setNext a v = (m.setNext a v).setPrev b w := rfl

/-- Stores into different nodes commute. -/
theorem setNext_comm (m : Entries N) (h : a ≠ b) (v w : Option N) :
    (m.setNext a v).setNext b w = (m.setNext b w).setNext a v := by
  simp only [setNext, Function.update_comm h]

/-- Stores into different nodes commute. -/
theorem setPrev_comm (m : Entries N) (h : a ≠ b) (v w : Option N) :
    (m.setPrev a v).setPrev b w = (m.setPrev b w).setPrev a v := by
  simp only [setPrev, Function.update_comm h]

/-- Two nodes that were linked are linked. -/
theorem link_linked (m : Entries N) (a b : N) : (m.link a b).Linked a b :=
  ⟨setNext_next_self _, setPrev_prev_self _⟩

/-- Other nodes keep their next link. -/
theorem link_next_of_ne (h : x ≠ a) : (m.link a b).next x = m.next x :=
  setNext_next_of_ne h _

/-- Other nodes keep their previous link. -/
theorem link_prev_of_ne (h : x ≠ b) : (m.link a b).prev x = m.prev x :=
  setPrev_prev_of_ne h _

/-- Two other nodes stay linked. -/
theorem Linked.link (h : m.Linked x y) (hx : x ≠ a) (hy : y ≠ b) : (m.link a b).Linked x y :=
  ⟨(link_next_of_ne hx).trans h.1, (link_prev_of_ne hy).trans h.2⟩

/-- A new neighbour elsewhere leaves a path. -/
theorem Path.link (h : m.Path x l y) (ha : a ∉ x :: l) (hb : b ∉ l ++ [y]) :
    (m.link a b).Path x l y := by
  apply h.frame
  · intro z hz
    exact link_next_of_ne fun he => ha (he ▸ hz)
  · intro z hz
    exact link_prev_of_ne fun he => hb (he ▸ hz)

variable {p : N → Prop}

/-- A store elsewhere keeps the agreement. -/
theorem AgreeOn.setNext (h : AgreeOn p m m') (ha : ¬p a) (v : Option N) :
    AgreeOn p m (m'.setNext a v) := by
  intro x hx
  refine ⟨?_, (h x hx).2⟩
  have hne : x ≠ a := fun he => ha (he ▸ hx)
  rw [setNext_next_of_ne hne]
  exact (h x hx).1

/-- A store elsewhere keeps the agreement. -/
theorem AgreeOn.setPrev (h : AgreeOn p m m') (ha : ¬p a) (v : Option N) :
    AgreeOn p m (m'.setPrev a v) := by
  intro x hx
  refine ⟨(h x hx).1, ?_⟩
  have hne : x ≠ a := fun he => ha (he ▸ hx)
  rw [setPrev_prev_of_ne hne]
  exact (h x hx).2

/-- Linking two nodes elsewhere keeps the agreement. -/
theorem AgreeOn.link (h : AgreeOn p m m') (ha : ¬p a) (hb : ¬p b) : AgreeOn p m (m'.link a b) :=
  (h.setNext ha _).setPrev hb _

end Stores

section Surgery

variable [DecidableEq N]

/-- Let a path end at another node. -/
theorem Path.redirect (h : m.Path a l b) (hnodup : (a :: l).Nodup) (hx : x ∉ l) :
    (m.link (l.getLast?.getD a) x).Path a l x := by
  rcases List.eq_nil_or_concat' l with rfl | ⟨l, z, rfl⟩
  · exact link_linked m a x
  · rw [List.getLast?_concat]
    have hz : z ∉ a :: l := by
      intro hmem
      rw [← List.cons_append] at hnodup
      exact (List.nodup_append.mp hnodup).2.2 z hmem z (List.mem_singleton_self z) rfl
    exact path_append.mpr ⟨(path_append.mp h).1.link hz hx, link_linked _ z x⟩

/-- Insert a node behind the first one. -/
theorem Ring.insert (h : m.Ring a l) (hx : x ∉ a :: l) :
    ((m.link a x).link x (l.head?.getD a)).Ring a (x :: l) := by
  obtain ⟨hxa, hxl⟩ := not_or.mp (mt List.mem_cons.mpr hx)
  constructor
  · cases l with
    | nil =>
      have hlinked : (m.link a x).Linked a x := link_linked m a x
      exact ⟨hlinked.link (Ne.symm hxa) hxa, link_linked _ x a⟩
    | cons y l =>
      obtain ⟨hxy, hxl⟩ := not_or.mp (mt List.mem_cons.mpr hxl)
      obtain ⟨hal, hyl⟩ := List.nodup_cons.mp h.nodup
      have hay : y ∉ l ++ [a] := by
        rw [List.mem_append, List.mem_singleton, not_or]
        exact ⟨(List.nodup_cons.mp hyl).1, fun he => hal (he ▸ List.mem_cons_self)⟩
      have hlinked : (m.link a x).Linked a x := link_linked m a x
      refine ⟨hlinked.link (Ne.symm hxa) hxy, link_linked _ x y, ?_⟩
      have hrest : (m.link a x).Path y l a := by
        apply h.path.2.link hal
        rw [List.mem_append, List.mem_singleton, not_or]
        exact ⟨hxl, hxa⟩
      exact hrest.link (fun hmem => hx (List.mem_cons_of_mem a hmem)) hay
  · refine List.nodup_cons.mpr ⟨?_, List.nodup_cons.mpr ⟨hxl, (List.nodup_cons.mp h.nodup).2⟩⟩
    rw [List.mem_cons, not_or]
    exact ⟨Ne.symm hxa, h.not_mem⟩

/-- Remove the node behind the first one. -/
theorem Ring.remove (h : m.Ring a (x :: l)) : (m.link a (l.head?.getD a)).Ring a l := by
  have hnodup : (a :: l).Nodup := h.nodup.sublist (by simp)
  refine ⟨?_, hnodup⟩
  cases l with
  | nil => exact link_linked m a a
  | cons y l =>
    obtain ⟨hal, hyl⟩ := List.nodup_cons.mp hnodup
    refine ⟨link_linked m a y, h.path.2.2.link hal ?_⟩
    rw [List.mem_append, List.mem_singleton, not_or]
    exact ⟨(List.nodup_cons.mp hyl).1, fun he => hal (he ▸ List.mem_cons_self)⟩

/-- Insert a node behind another one. -/
theorem Ring.insert_after (h : m.Ring a (l ++ b :: l')) (hx : x ∉ a :: (l ++ b :: l')) :
    ((m.link b x).link x (l'.head?.getD a)).Ring a (l ++ b :: x :: l') := by
  have hrot := h.rotate
  have hxrot : x ∉ b :: (l' ++ a :: l) := by
    simp only [List.mem_cons, List.mem_append, not_or] at hx ⊢
    exact ⟨hx.2.2.1, hx.2.2.2, hx.1, hx.2.1⟩
  have hins := hrot.insert hxrot
  have hhead : (l' ++ a :: l).head?.getD b = l'.head?.getD a := by
    cases l' <;> rfl
  rw [hhead] at hins
  exact Ring.rotate (l := x :: l') hins

/-- Insert a node before another one. -/
theorem Ring.insert_before (h : m.Ring a (l ++ b :: l')) (hx : x ∉ a :: (l ++ b :: l')) :
    ((m.link (l.getLast?.getD a) x).link x b).Ring a (l ++ x :: b :: l') := by
  rcases List.eq_nil_or_concat' l with rfl | ⟨l, z, rfl⟩
  · exact h.insert hx
  · rw [List.append_assoc] at h hx
    have hins := h.insert_after hx
    rw [List.getLast?_concat, List.append_assoc]
    exact hins

/-- Insert a node before the first one. -/
theorem Ring.insert_last (h : m.Ring a l) (hx : x ∉ a :: l) :
    ((m.link (l.getLast?.getD a) x).link x a).Ring a (l ++ [x]) := by
  rcases List.eq_nil_or_concat' l with rfl | ⟨l, z, rfl⟩
  · exact h.insert hx
  · have hins := h.insert_after hx
    rw [List.getLast?_concat, List.append_assoc]
    exact hins

/-- Remove a node. -/
theorem Ring.remove_mem (h : m.Ring a (l ++ x :: l')) :
    (m.link (l.getLast?.getD a) (l'.head?.getD a)).Ring a (l ++ l') := by
  rcases List.eq_nil_or_concat' l with rfl | ⟨l, z, rfl⟩
  · exact h.remove
  · rw [List.append_assoc] at h
    have hrot : m.Ring z (x :: (l' ++ a :: l)) := h.rotate
    have hrem := hrot.remove
    have hhead : (l' ++ a :: l).head?.getD z = l'.head?.getD a := by
      cases l' <;> rfl
    rw [hhead] at hrem
    rw [List.getLast?_concat, List.append_assoc]
    exact hrem.rotate

/-- Give a ring another first node. -/
theorem Ring.rebase (h : m.Ring a (x :: l)) (hb : b ∉ a :: x :: l) :
    ((m.link b x).link (l.getLast?.getD x) b).Ring b (x :: l) := by
  obtain ⟨-, hbl⟩ := not_or.mp (mt List.mem_cons.mpr hb)
  obtain ⟨hbx, hbl'⟩ := not_or.mp (mt List.mem_cons.mpr hbl)
  have hnodup := (List.nodup_cons.mp h.nodup).2
  refine ⟨?_, List.nodup_cons.mpr ⟨hbl, hnodup⟩⟩
  have hfirst : (m.link b x).Linked b x := link_linked m b x
  rcases List.eq_nil_or_concat' l with rfl | ⟨l, z, rfl⟩
  · exact ⟨hfirst.link hbx (Ne.symm hbx), link_linked _ x b⟩
  · rw [List.getLast?_concat]
    have hz : z ∉ x :: l := by
      intro hmem
      rw [← List.cons_append] at hnodup
      exact (List.nodup_append.mp hnodup).2.2 z hmem z (by simp) rfl
    have hx : x ∉ l ++ [z] := (List.nodup_cons.mp hnodup).1
    have hbz : b ≠ z := by
      rintro rfl
      exact hbl' (by simp)
    refine ⟨hfirst.link hbz (Ne.symm hbx), path_append.mpr ⟨?_, link_linked _ z b⟩⟩
    have hmid : (m.link b x).Path x l z :=
      (path_append.mp h.path.2).1.link
        (fun hmem => hbl (by simpa using Or.imp_right Or.inl (List.mem_cons.mp hmem))) hx
    exact hmid.link hz hbl'

end Surgery

section Ends

/-- The first node of a ring, or its head, is one of its nodes. -/
theorem head_getD_mem (a : N) (l : List N) : l.head?.getD a ∈ a :: l := by
  cases l with
  | nil => exact List.mem_singleton_self a
  | cons x l => simp

/-- The last node of a ring, or its head, is one of its nodes. -/
theorem getLast_getD_mem (a : N) (l : List N) : l.getLast?.getD a ∈ a :: l := by
  rcases List.eq_nil_or_concat' l with rfl | ⟨l, z, rfl⟩
  · exact List.mem_singleton_self a
  · simp

end Ends

end Entries

end MacKernel
