import MacKernel.Core.Account
import MacKernel.Core.Run
import MacKernel.Models.SmartPtr.Native

/-!
# Reference accounting of smart pointers

In every run the log balances: what each policy retained and what was transferred in
is what it released, what was transferred out, and one reference for each smart pointer
that holds the object. No release comes before the reference that it gives up.
-/

namespace MacKernel.SmartPtr

variable {X R P O K : Type}

section Accounts

/-- The reference that an event takes or gives up. -/
def Event.entry : Event P O → Entry (P × O)
  | .retain p o | .transferIn p o => .gain (p, o)
  | .release p o | .transferOut p o => .loss (p, o)

/-- The reference that a pointer is, under a policy. -/
def reference (p : P) (v : Option O) : Option (P × O) := v.map (p, ·)

variable (ty : Types X P O K)

/-- The reference in each place. -/
def World.refs (w : World X R P O) (x : X) : Option (P × O) :=
  reference (ty.policy x) (w.pointer x).join

variable [DecidableEq P] [DecidableEq O]

/-- The smart pointers own their references and some more. -/
def World.Owned [Fintype X] (w : World X R P O) (extra : P × O → Nat) : Prop :=
  Backed (held (w.refs ty) + extra) (w.log.map Event.entry)

variable {ty} {w : World X R P O} {extra : P × O → Nat}

omit [DecidableEq P] [DecidableEq O] in
/-- A smart pointer that is stored to owns what it points at. -/
theorem World.refs_put [DecidableEq X] (w : World X R P O) (x : X) (v : Option (Option O)) :
    (w.put x v).refs ty = Function.update (w.refs ty) x (reference (ty.policy x) v.join) := by
  funext z
  by_cases hz : z = x
  · subst hz
    simp [World.refs, World.put]
  · simp [World.refs, World.put, hz]

omit [DecidableEq P] [DecidableEq O] in
/-- A smart pointer owns what it points at, under its policy. -/
theorem World.refs_of_eq {x : X} {v : Option O} (h : w.pointer x = some v) :
    w.refs ty x = reference (ty.policy x) v := by
  simp [World.refs, h]

omit [DecidableEq P] [DecidableEq O] in
/-- A smart pointer that is not there owns nothing. -/
theorem World.refs_of_free {x : X} (h : w.pointer x = none) : w.refs ty x = none := by
  simp [World.refs, reference, h]

omit [DecidableEq P] [DecidableEq O] in
/-- An event is an entry for the object, if there is one. -/
theorem World.entries_record {e : P → O → Event P O} {p : P} {f : P × O → Entry (P × O)}
    (he : ∀ o, (e p o).entry = f (p, o)) (v : Option O) :
    (w.record e p v).log.map Event.entry =
      w.log.map Event.entry ++ (reference p v).toList.map f := by
  cases v with
  | none => simp [World.record, reference]
  | some o => simp [World.record, reference, he]

variable [Fintype X]

/-- A reference is taken for a pointer. -/
theorem World.Owned.gain {e : P → O → Event P O} {p : P} (h : w.Owned ty extra)
    (he : ∀ o, (e p o).entry = .gain (p, o)) (v : Option O) :
    (w.record e p v).Owned ty (extra + single (reference p v)) := by
  have hgain := Backed.gain h (reference p v)
  rw [add_assoc, ← World.entries_record he] at hgain
  exact hgain

/-- A reference is given up for a pointer. -/
theorem World.Owned.loss {e : P → O → Event P O} {p : P} {v : Option O}
    (h : w.Owned ty (extra + single (reference p v)))
    (he : ∀ o, (e p o).entry = .loss (p, o)) : (w.record e p v).Owned ty extra := by
  rw [World.Owned, ← add_assoc] at h
  have hloss := h.loss
  rw [← World.entries_record he] at hloss
  exact hloss

/-- Nothing is taken for a null pointer. -/
theorem World.Owned.null (h : w.Owned ty extra) (p : P) :
    w.Owned ty (extra + single (reference p (none : Option O))) := by
  simpa [reference] using h

/-- A raw pointer owns nothing. -/
theorem World.Owned.putRaw [DecidableEq R] (h : w.Owned ty extra) (r : R) (v : Option O) :
    (w.putRaw r v).Owned ty extra :=
  h

/-- A raw pointer that is passed owns nothing, set to null or not. -/
theorem World.Owned.pass [DecidableEq R] (h : w.Owned ty extra) (form : Form) (r : R) :
    (w.pass form r).Owned ty extra := by
  cases form with
  | lvalue => exact h
  | rvalue => exact h.putRaw r none

/-- A retain gains a reference. -/
theorem World.Owned.retain (h : w.Owned ty extra) (p : P) (v : Option O) :
    (w.record .retain p v).Owned ty (extra + single (reference p v)) :=
  h.gain (fun _ => rfl) v

/-- A reference that is taken over is gained. -/
theorem World.Owned.transferIn (h : w.Owned ty extra) (p : P) (v : Option O) :
    (w.record .transferIn p v).Owned ty (extra + single (reference p v)) :=
  h.gain (fun _ => rfl) v

/-- A release gives a reference up. -/
theorem World.Owned.release {p : P} {v : Option O}
    (h : w.Owned ty (extra + single (reference p v))) : (w.record .release p v).Owned ty extra :=
  h.loss fun _ => rfl

/-- A reference that is handed over is given up. -/
theorem World.Owned.transferOut {p : P} {v : Option O}
    (h : w.Owned ty (extra + single (reference p v))) :
    (w.record .transferOut p v).Owned ty extra :=
  h.loss fun _ => rfl

variable [DecidableEq X]

/-- A place gets a reference and gives the one it had. -/
theorem World.Owned.put {x : X} {v : Option (Option O)} {old : Option (P × O)}
    (h : w.Owned ty (extra + single (reference (ty.policy x) v.join)))
    (hold : w.refs ty x = old) : (w.put x v).Owned ty (extra + single old) := by
  subst hold
  have hupdate := held_update (w.refs ty) x (reference (ty.policy x) v.join)
  have hown : held ((w.put x v).refs ty) + (extra + single (w.refs ty x)) =
      held (w.refs ty) + (extra + single (reference (ty.policy x) v.join)) := by
    rw [World.refs_put, add_left_comm, hupdate, add_left_comm]
  unfold World.Owned
  rw [hown]
  exact h

/-- A free place gets a reference. -/
theorem World.Owned.put_free {x : X} {v : Option O}
    (h : w.Owned ty (extra + single (reference (ty.policy x) v))) (hx : w.pointer x = none) :
    (w.put x (some v)).Owned ty extra := by
  have hput := World.Owned.put (v := some v) h (World.refs_of_free hx)
  rwa [add_single_none] at hput

/-- A place gives the reference it had and is left without one. -/
theorem World.Owned.clear {x : X} {u : Option (Option O)} {v : Option O} (h : w.Owned ty extra)
    (hu : u.join = none) (hx : w.pointer x = some v) :
    (w.put x u).Owned ty (extra + single (reference (ty.policy x) v)) := by
  refine World.Owned.put ?_ (World.refs_of_eq hx)
  rw [hu]
  simpa [reference] using h

/-- A reference moves to a free place. -/
theorem World.Owned.handOver {x y : X} {v : Option O} (h : w.Owned ty extra)
    (hy : w.pointer y = none) (hx : w.pointer x = some v) (hp : ty.policy y = ty.policy x) :
    ((w.put x (some none)).put y (some v)).Owned ty extra := by
  have hne : y ≠ x := by
    rintro rfl
    rw [hy] at hx
    cases hx
  refine World.Owned.put_free ?_ ((Function.update_of_ne hne _ _).trans hy)
  rw [hp]
  exact h.clear rfl hx

/-- A smart pointer made from a raw pointer. -/
theorem World.Owned.construct {x : X} (h : w.Owned ty extra) (hx : w.pointer x = none)
    (v : Option O) : (w.construct ty x v).Owned ty extra :=
  (h.retain _ v).put_free hx

/-- The temporary takes over the old reference and gives it up. -/
theorem World.Owned.swapTemporary {x : X} {temporary : Option O}
    (h : w.Owned ty (extra + single (reference (ty.policy x) temporary)))
    (hx : w.pointer x ≠ none) :
    ∃ w', w.swapTemporary ty x temporary = some w' ∧ w'.Owned ty extra ∧
      w'.pointer = Function.update w.pointer x (some temporary) := by
  obtain ⟨old, hx⟩ := Option.ne_none_iff_exists'.mp hx
  refine ⟨(w.put x (some temporary)).record .release (ty.policy x) old, ?_, ?_, rfl⟩
  · rw [World.swapTemporary, hx]
    rfl
  · have hput := World.Owned.put (v := some temporary) h (World.refs_of_eq hx)
    exact hput.release

end Accounts

section Steps

variable [DecidableEq P] [DecidableEq O] [DecidableEq X] [Fintype X] {ty : Types X P O K}
  {w : World X R P O}

/-- `dyn_cast` returns the pointer it got, or null. -/
def Types.CastsOrNull (ty : Types X P O K) : Prop :=
  ∀ p k v, ty.dynCast p k v = none ∨ ty.dynCast p k v = v

/-- Smart pointers of one policy exchange their references. -/
theorem World.Owned.exchange {x y : X} {a b : Option O} {extra : P × O → Nat}
    (h : w.Owned ty extra) (hx : w.pointer x = some a) (hy : w.pointer y = some b)
    (hp : ty.policy x = ty.policy y) :
    ((w.put x (some b)).put y (some a)).Owned ty extra := by
  have hrefs : ((w.put x (some b)).put y (some a)).refs ty = w.refs ty ∘ Equiv.swap x y := by
    rw [← update_update_swap, World.refs_put, World.refs_put, World.refs_of_eq hx,
      World.refs_of_eq hy, hp]
    rfl
  have hheld : held (w.refs ty ∘ Equiv.swap x y) = held (w.refs ty) :=
    funext fun r => tally_comp _ _ _
  unfold World.Owned
  rw [hrefs, hheld]
  exact h

/-- `swap` exchanges what two smart pointers own. -/
theorem World.Owned.swap {x y : X} (h : w.Owned ty nothing) (hx : w.pointer x ≠ none)
    (hy : w.pointer y ≠ none) : ∃ w', w.swap ty x y = some w' ∧ w'.Owned ty nothing := by
  obtain ⟨a, hx⟩ := Option.ne_none_iff_exists'.mp hx
  obtain ⟨b, hy⟩ := Option.ne_none_iff_exists'.mp hy
  by_cases hp : ty.policy x = ty.policy y
  · refine ⟨(w.put x (some b)).put y (some a), ?_, h.exchange hx hy hp⟩
    simp [World.swap, hx, hy, hp]
  · have hne : y ≠ x := fun hyx => hp (hyx ▸ rfl)
    let w₁ := (w.record .retain (ty.policy x) b).record .retain (ty.policy y) a
    let w₂ := w₁.put x (some b)
    let w₃ := w₂.put y (some a)
    refine ⟨(w₃.record .release (ty.policy x) a).record .release (ty.policy y) b, ?_, ?_⟩
    · simp only [World.swap, hx, hy, Option.bind_eq_bind, Option.bind_some, if_neg hp]
      rfl
    · have h₁ : w₁.Owned ty (nothing + single (reference (ty.policy x) b) +
          single (reference (ty.policy y) a)) :=
        (h.retain _ b).retain _ a
      rw [add_right_comm] at h₁
      have h₂ : w₂.Owned ty (nothing + single (reference (ty.policy y) a) +
          single (reference (ty.policy x) a)) := h₁.put (World.refs_of_eq hx)
      rw [add_right_comm] at h₂
      have hy₂ : w₂.pointer y = some b := (Function.update_of_ne hne _ _).trans hy
      have h₃ : w₃.Owned ty (nothing + single (reference (ty.policy x) a) +
          single (reference (ty.policy y) b)) := h₂.put (World.refs_of_eq hy₂)
      rw [add_right_comm] at h₃
      exact h₃.release.release

/-- The casts make a smart pointer that holds a reference of its own. -/
theorem World.Owned.pointerCast {result x : X} (hty : ty.CastsOrNull) (h : w.Owned ty nothing)
    (c : Cast K) (form : Form) (hresult : w.pointer result = none) (hx : w.pointer x ≠ none)
    (hp : ty.policy result = ty.policy x) :
    ∃ w', w.pointerCast ty c form result x = some w' ∧ w'.Owned ty nothing := by
  have hne : result ≠ x := fun hrx => hx (hrx ▸ hresult)
  obtain ⟨v, hx⟩ := Option.ne_none_iff_exists'.mp hx
  have hmoved := h.handOver hresult hx hp
  cases form with
  | lvalue =>
    refine ⟨w.construct ty result (c.apply ty (ty.policy x) v), ?_, h.construct hresult _⟩
    simp [World.pointerCast, hx]
  | rvalue =>
    cases c with
    | const =>
      refine ⟨_, ?_, hmoved⟩
      simp [World.pointerCast, hx]
    | static =>
      refine ⟨_, ?_, hmoved⟩
      simp [World.pointerCast, hx]
    | dynamic k =>
      by_cases hnull : ty.dynCast (ty.policy x) k v = none
      · -- the cast fails, and the source gives up its reference
        have hlive : w.pointer x ≠ none := hx ▸ Option.some_ne_none v
        obtain ⟨w', hreset, hw', hpointer⟩ := (h.null (ty.policy x)).swapTemporary hlive
        refine ⟨w'.put result (some none), ?_, (hw'.null _).put_free ?_⟩
        · simp only [World.pointerCast, hx, Option.bind_eq_bind, Option.bind_some, hnull, ne_eq,
            not_true_eq_false, if_false, hreset]
          rfl
        · rw [hpointer]
          exact (Function.update_of_ne hne _ _).trans hresult
      · have hcast : ty.dynCast (ty.policy x) k v = v := (hty _ k v).resolve_left hnull
        refine ⟨_, ?_, hmoved⟩
        simp only [World.pointerCast, hx, Option.bind_eq_bind, Option.bind_some, if_pos hnull]
        rw [hcast]
        rfl

variable [DecidableEq R]

/-- Every operation on smart pointers that are ready for it keeps their references. -/
theorem World.Owned.step (hty : ty.CastsOrNull) (h : w.Owned ty nothing) (op : Op X R O K)
    (hready : w.Ready ty op) : ∃ w', w.step ty op = some w' ∧ w'.Owned ty nothing := by
  cases op with
  | setRaw r v => exact ⟨_, rfl, h.putRaw r v⟩
  | default x => exact ⟨_, rfl, (h.null _).put_free hready⟩
  | fromRaw x p form => exact ⟨_, rfl, (h.construct hready _).pass form p⟩
  | fromRawNoRetain x p form =>
    exact ⟨_, rfl, ((h.transferIn _ _).put_free hready).pass form p⟩
  | copy x rhs =>
    obtain ⟨v, hrhs⟩ := Option.ne_none_iff_exists'.mp hready.2.1
    exact ⟨_, by rw [World.step, hrhs]; rfl, h.construct hready.1 v⟩
  | move x rhs =>
    obtain ⟨hx, hlive, hp⟩ := hready
    obtain ⟨v, hrhs⟩ := Option.ne_none_iff_exists'.mp hlive
    have hne : x ≠ rhs := fun hxr => hlive (hxr ▸ hx)
    refine ⟨(w.put rhs (some none)).put x (some v), ?_, h.handOver hx hrhs hp⟩
    simp [World.step, hrhs, World.put, Function.update_comm hne]
  | fromOther x rhs =>
    obtain ⟨v, hrhs⟩ := Option.ne_none_iff_exists'.mp hready.2
    exact ⟨_, by rw [World.step, hrhs]; rfl, h.construct hready.1 v⟩
  | assignRaw x rhs form =>
    obtain ⟨w', hw', hown, -⟩ := (h.retain _ (w.raw rhs)).swapTemporary hready
    exact ⟨w'.pass form rhs, by rw [World.step, hw']; rfl, hown.pass form rhs⟩
  | assignNull x =>
    obtain ⟨w', hw', hown, -⟩ := (h.null _).swapTemporary hready
    exact ⟨w', hw', hown⟩
  | assign x rhs =>
    obtain ⟨v, hrhs⟩ := Option.ne_none_iff_exists'.mp hready.2.1
    obtain ⟨w', hw', hown, -⟩ := (h.retain _ v).swapTemporary hready.1
    exact ⟨w', by rw [World.step, hrhs]; exact hw', hown⟩
  | assignCompatible x rhs =>
    obtain ⟨v, hrhs⟩ := Option.ne_none_iff_exists'.mp hready.2.1
    obtain ⟨w', hw', hown, -⟩ := (h.retain _ v).swapTemporary hready.1
    exact ⟨w', by rw [World.step, hrhs]; exact hw', hown⟩
  | moveAssign x rhs =>
    obtain ⟨hx, hlive, hp⟩ := hready
    obtain ⟨v, hrhs⟩ := Option.ne_none_iff_exists'.mp hlive
    have hclear := h.clear (u := some none) rfl hrhs
    rw [← hp] at hclear
    have hx' : (w.put rhs (some none)).pointer x ≠ none := by
      by_cases hxr : x = rhs
      · subst hxr
        simp [World.put]
      · simpa [World.put, hxr] using hx
    obtain ⟨w', hw', hown, -⟩ := hclear.swapTemporary hx'
    exact ⟨w', by rw [World.step, hrhs]; exact hw', hown⟩
  | destroy x =>
    obtain ⟨v, hx⟩ := Option.ne_none_iff_exists'.mp hready
    have hclear : (w.put x none).Owned ty (nothing + single (reference (ty.policy x) v)) :=
      h.clear rfl hx
    exact ⟨_, by rw [World.step, hx]; rfl, hclear.release⟩
  | alloc x v => exact ⟨_, rfl, (h.transferIn _ v).put_free hready⟩
  | reset x =>
    obtain ⟨w', hw', hown, -⟩ := (h.null _).swapTemporary hready
    exact ⟨w', hw', hown⟩
  | getForOutParam x =>
    obtain ⟨w', hw', hown, -⟩ := (h.null _).swapTemporary hready
    exact ⟨w', hw', hown⟩
  | attach x p form =>
    obtain ⟨w', hw', hown, -⟩ := (h.transferIn _ (w.raw p)).swapTemporary hready
    exact ⟨w'.pass form p, by rw [World.step, hw']; rfl, hown.pass form p⟩
  | detach x ret =>
    obtain ⟨v, hx⟩ := Option.ne_none_iff_exists'.mp hready
    have hclear : (w.put x (some none)).Owned ty (nothing + single (reference (ty.policy x) v)) :=
      h.clear rfl hx
    have hput : ((w.record .transferOut (ty.policy x) v).put x (some none)).Owned ty nothing :=
      hclear.transferOut
    refine ⟨_, ?_, hput.putRaw ret v⟩
    rw [World.step, hx]
    rfl
  | swap x p => exact h.swap hready.1 hready.2
  | pointerCast c form result x =>
    exact h.pointerCast hty c form hready.1 hready.2.1 hready.2.2

end Steps

section Runs

variable [DecidableEq P] [DecidableEq O] [DecidableEq X] [DecidableEq R] (ty : Types X P O K)

/-- An operation on smart pointers that are ready for it. -/
def ReadyStep (w : World X R P O) (op : Op X R O K) (w' : World X R P O) : Prop :=
  w.Ready ty op ∧ w.step ty op = some w'

/-- No smart pointers yet. -/
def World.start (raw : R → Option O) : World X R P O where
  pointer _ := none
  raw := raw
  log := []

/-- How many smart pointers of a policy hold an object. -/
def World.holders [Fintype X] (w : World X R P O) (p : P) (o : O) : Nat :=
  tally (fun x => (ty.policy x, w.pointer x)) (p, some (some o))

/-- What the log of a state says. -/
structure World.Accounted [Fintype X] (w : World X R P O) : Prop where
  /-- Retains and references transferred in, against releases, references transferred out and
  the smart pointers that hold the object. -/
  balance : ∀ p o, w.log.count (.retain p o) + w.log.count (.transferIn p o) =
    w.log.count (.release p o) + w.log.count (.transferOut p o) + w.holders ty p o
  /-- At each release, more references had been taken than given up. -/
  owned : ∀ before after p o, w.log = before ++ .release p o :: after →
    before.count (.release p o) + before.count (.transferOut p o) <
      before.count (.retain p o) + before.count (.transferIn p o)
  /-- Every operation on smart pointers that are ready for it returns. -/
  progress : ∀ op : Op X R O K, w.Ready ty op → ∃ w', w.step ty op = some w'

/-- The entries of one kind are the events of two kinds. -/
theorem count_entries {x : Entry (P × O)} {e e' : Event P O} (hne : e ≠ e')
    (hx : ∀ a : Event P O, a.entry = x ↔ a = e ∨ a = e') (l : List (Event P O)) :
    (l.map Event.entry).count x = l.count e + l.count e' := by
  induction l with
  | nil => rfl
  | cons a l ih =>
    rw [List.map_cons, List.count_cons, List.count_cons, List.count_cons, ih]
    have ha := hx a
    by_cases he : a = e
    · subst he
      simp [ha, hne, Nat.add_right_comm]
    · by_cases he' : a = e'
      · subst he'
        simp [ha, he, Nat.add_assoc]
      · simp [ha, he, he']

/-- What an object gained: its retains and what was taken over. -/
theorem gains_entries (l : List (Event P O)) (p : P) (o : O) :
    gains (l.map Event.entry) (p, o) = l.count (.retain p o) + l.count (.transferIn p o) := by
  apply count_entries
  · simp
  · intro a
    cases a <;> simp [Event.entry]

/-- What an object lost: its releases and what was handed over. -/
theorem losses_entries (l : List (Event P O)) (p : P) (o : O) :
    losses (l.map Event.entry) (p, o) = l.count (.release p o) + l.count (.transferOut p o) := by
  apply count_entries
  · simp
  · intro a
    cases a <;> simp [Event.entry]

variable {ty} [Fintype X] {w : World X R P O}

omit [DecidableEq X] [DecidableEq R] in
/-- The references held are those of the smart pointers at the object. -/
theorem World.held_refs (w : World X R P O) (p : P) (o : O) :
    held (w.refs ty) (p, o) = w.holders ty p o := by
  refine congrArg Finset.card (Finset.filter_congr fun x _ => ?_)
  simp [World.refs, reference, Option.join_eq_some_iff, and_comm]

/-- Where nothing is left over the books balance. -/
theorem World.Owned.accounted (hty : ty.CastsOrNull) (h : w.Owned ty nothing) : w.Accounted ty where
  balance p o := by
    have hbalance := Backed.balance h (p, o)
    rw [add_nothing, gains_entries, losses_entries, World.held_refs] at hbalance
    exact hbalance
  owned before after p o hlog := by
    have hprefix : (before ++ [Event.release p o]).map Event.entry <+: w.log.map Event.entry := by
      refine List.IsPrefix.map _ ⟨after, ?_⟩
      rw [hlog, List.append_assoc]
      rfl
    have hcovered := Backed.covered h _ hprefix (p, o)
    rw [gains_entries, losses_entries] at hcovered
    simp at hcovered
    omega
  progress op hready := by
    obtain ⟨w', hw', -⟩ := h.step hty op hready
    exact ⟨w', hw'⟩

omit [DecidableEq X] [DecidableEq R] in
/-- At first no smart pointer owns anything. -/
theorem World.owned_start (raw : R → Option O) :
    (World.start raw : World X R P O).Owned ty nothing := by
  have hheld : held ((World.start raw : World X R P O).refs ty) = nothing := by
    funext r
    apply tally_eq_zero_iff.mpr
    intro x
    simp [World.refs_of_free (rfl : (World.start raw : World X R P O).pointer x = none)]
  unfold World.Owned
  rw [hheld]
  exact backed_nil

/-- In every run, under each policy the retains of an object minus its releases are the smart
pointers that hold it, less the references transferred in, plus those transferred out, and no
release gives up a reference that the smart pointers do not own. -/
theorem accounted_of_run {raw : R → Option O} {ops : List (Op X R O K)} (hty : ty.CastsOrNull)
    (h : Run (ReadyStep ty) (World.start raw) ops w) : w.Accounted ty := by
  refine (h.invariant (World.Owned ty · nothing) (fun {u v op} hu hstep => ?_)
    (World.owned_start raw)).accounted hty
  obtain ⟨w', hw', hown⟩ := hu.step hty op hstep.1
  exact Option.some.inj (hstep.2.symm.trans hw') ▸ hown

/-- Two smart pointers of one policy and one of another. -/
def threePtrs : Types (Fin 3) Bool Unit Bool where
  policy x := x = 2
  dynCast _ k v := if k then v else none

/-- The three types of the run cast to themselves or to null. -/
theorem threePtrs_castsOrNull : threePtrs.CastsOrNull := by
  intro p k v
  cases k with
  | false => exact .inl rfl
  | true => exact .inr rfl

/-- A reference that is transferred in changes its policy, and is moved by a self-assignment and
transferred out. -/
theorem accounted_of_transfers : ∃ w : World (Fin 3) Unit Bool Unit,
    Run (ReadyStep threePtrs) (World.start fun _ => some ())
      [.fromRawNoRetain 0 () .rvalue, .default 2, .swap 0 2, .assign 2 2, .detach 2 ()] w ∧
    w.Accounted threePtrs ∧ w.log = [.transferIn false (), .retain true (), .release false (),
      .retain true (), .release true (), .transferOut true ()] := by
  have hrun : Run (ReadyStep threePtrs) (World.start fun _ : Unit => some ())
      [.fromRawNoRetain 0 () .rvalue, .default 2, .swap 0 2, .assign 2 2, .detach 2 ()] _ :=
    .snoc (.snoc (.snoc (.snoc (.snoc .nil ⟨rfl, rfl⟩) ⟨rfl, rfl⟩)
      ⟨by exact ⟨Option.some_ne_none _, Option.some_ne_none _⟩, rfl⟩)
      ⟨by exact ⟨Option.some_ne_none _, Option.some_ne_none _, rfl⟩, rfl⟩)
      ⟨by exact Option.some_ne_none _, rfl⟩
  exact ⟨_, hrun, accounted_of_run threePtrs_castsOrNull hrun, rfl⟩

end Runs

end MacKernel.SmartPtr
