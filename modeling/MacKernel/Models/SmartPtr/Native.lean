import Mathlib.Logic.Function.Basic

/-!
# Smart pointers of `os/smart_ptr.h`

A `smart_ptr` has one field, a raw pointer, and a policy in its type that retains and
releases objects. Its functions are written over places for the smart pointers and for the
raw pointers of their user, with a log of what the policies were asked to do. The log also
has the references that change hands without a policy being asked.
-/

namespace MacKernel.SmartPtr

/-- What happened to a reference to an object, under a policy. -/
inductive Event (P O : Type) where
  /-- `Policy::retain`. -/
  | retain (p : P) (o : O)
  /-- `Policy::release`. -/
  | release (p : P) (o : O)
  /-- The user handed a reference over, by `attach` or by construction with `no_retain`. -/
  | transferIn (p : P) (o : O)
  /-- The user took a reference back, by `detach`. -/
  | transferOut (p : P) (o : O)
  deriving DecidableEq

/-- The forms of a function for `&` and for `&&`. -/
inductive Form where
  | lvalue
  | rvalue
  deriving DecidableEq

/-- The pointer casts; `K` are the classes a dynamic cast may ask for. -/
inductive Cast (K : Type) where
  | const
  | static
  | dynamic (k : K)

/-- What can be done with smart pointers. -/
inductive Op (X R O K : Type) where
  /-- The user stores a pointer in a raw pointer. -/
  | setRaw (r : R) (v : Option O)
  /-- `smart_ptr()` and `smart_ptr(os::nullptr_t)`. -/
  | default (x : X)
  /-- `smart_ptr(T *&p)` and `smart_ptr(T *&&p)`. -/
  | fromRaw (x : X) (p : R) (form : Form)
  /-- `smart_ptr(T *&p, no_retain_t)` and `smart_ptr(T *&&p, no_retain_t)`. -/
  | fromRawNoRetain (x : X) (p : R) (form : Form)
  /-- `smart_ptr(smart_ptr const &rhs)`, also from a compatible pointer type. -/
  | copy (x rhs : X)
  /-- `smart_ptr(smart_ptr &&rhs)`, also from a compatible pointer type. -/
  | move (x rhs : X)
  /-- From a smart pointer of another policy, by the pointer that its `get` returns. -/
  | fromOther (x rhs : X)
  /-- `operator=(T *&rhs)` and `operator=(T *&&rhs)`. -/
  | assignRaw (x : X) (rhs : R) (form : Form)
  /-- `operator=(os::nullptr_t)`. -/
  | assignNull (x : X)
  /-- `operator=(smart_ptr &rhs)`. -/
  | assign (x rhs : X)
  /-- `operator=(smart_ptr<U, Policy> const &rhs)`. -/
  | assignCompatible (x rhs : X)
  /-- `operator=(smart_ptr &&rhs)`, also from a compatible pointer type. -/
  | moveAssign (x rhs : X)
  /-- `~smart_ptr`. -/
  | destroy (x : X)
  /-- `alloc`, with what the policy allocates. -/
  | alloc (x : X) (v : Option O)
  | reset (x : X)
  /-- `get_for_out_param`, up to the address that it returns. -/
  | getForOutParam (x : X)
  /-- `attach(T *&p)` and `attach(T *&&p)`. -/
  | attach (x : X) (p : R) (form : Form)
  /-- `detach`, with the raw pointer that gets the result. -/
  | detach (x : X) (ret : R)
  /-- `swap(smart_ptr &p)` and `swap(smart_ptr<T, OtherPolicy> &p)`. -/
  | swap (x p : X)
  /-- `const_pointer_cast`, `static_pointer_cast` and `dynamic_pointer_cast` of `x`. -/
  | pointerCast (c : Cast K) (form : Form) (result x : X)

variable {X R P O K : Type} [DecidableEq X] [DecidableEq R]

/-- Smart pointers, raw pointers and the log. -/
structure World (X R P O : Type) where
  /-- `pointer` of the smart pointer in a place; a place without one is free. -/
  pointer : X → Option (Option O)
  raw : R → Option O
  log : List (Event P O)

/-- Make, change or destroy the smart pointer in a place. -/
def World.put (w : World X R P O) (x : X) (v : Option (Option O)) : World X R P O :=
  { w with pointer := Function.update w.pointer x v }

/-- Store into a raw pointer. -/
def World.putRaw (w : World X R P O) (r : R) (v : Option O) : World X R P O :=
  { w with raw := Function.update w.raw r v }

/-- Log an event for a pointer, unless it is null. -/
def World.record (w : World X R P O) (e : P → O → Event P O) (p : P) (v : Option O) :
    World X R P O :=
  { w with log := w.log ++ v.toList.map (e p) }

/-- A raw pointer that was passed by `&&` is set to null. -/
def World.pass (w : World X R P O) (form : Form) (r : R) : World X R P O :=
  match form with
  | .lvalue => w
  | .rvalue => w.putRaw r none

/-- Which policy the type of each smart pointer names, and `dyn_cast` of the policies. -/
structure Types (X P O K : Type) where
  policy : X → P
  dynCast : P → K → Option O → Option O

variable (ty : Types X P O K)

/-- A smart pointer made from a raw pointer takes a reference. -/
def World.construct (w : World X R P O) (x : X) (v : Option O) : World X R P O :=
  (w.record .retain (ty.policy x) v).put x (some v)

/-- A temporary smart pointer is swapped with one in a place, and destroyed. -/
def World.swapTemporary (w : World X R P O) (x : X) (temporary : Option O) :
    Option (World X R P O) := do
  let old ← w.pointer x
  return (w.put x (some temporary)).record .release (ty.policy x) old

/-- `swap`: the form for two policies takes a reference for each pointer before the exchange
and releases one after it. -/
def World.swap [DecidableEq P] (w : World X R P O) (x p : X) : Option (World X R P O) := do
  let a ← w.pointer x
  let b ← w.pointer p
  if ty.policy x = ty.policy p then
    return (w.put x (some b)).put p (some a)
  else
    let w := w.record .retain (ty.policy x) b
    let w := w.record .retain (ty.policy p) a
    let w := (w.put x (some b)).put p (some a)
    let w := w.record .release (ty.policy x) a
    return w.record .release (ty.policy p) b

/-- The casts of the pointers themselves. -/
def Cast.apply (c : Cast K) (p : P) (v : Option O) : Option O :=
  match c with
  | .const | .static => v
  | .dynamic k => ty.dynCast p k v

/-- The casts `const &` make a smart pointer from the cast pointer. The casts `&&` hand the
reference on, and the dynamic one gives it up if the cast fails. -/
def World.pointerCast (w : World X R P O) (c : Cast K) (form : Form) (result x : X) :
    Option (World X R P O) := do
  let v ← w.pointer x
  match form, c with
  | .lvalue, c => return w.construct ty result (c.apply ty (ty.policy x) v)
  | .rvalue, .const | .rvalue, .static => return (w.put x (some none)).put result (some v)
  | .rvalue, .dynamic k =>
    let newPointer := ty.dynCast (ty.policy x) k v
    let w ← if newPointer ≠ none then some (w.put x (some none)) else w.swapTemporary ty x none
    return w.put result (some newPointer)

/-- One operation. -/
def World.step [DecidableEq P] (w : World X R P O) :
    Op X R O K → Option (World X R P O)
  | .setRaw r v => some (w.putRaw r v)
  | .default x => some (w.put x (some none))
  | .fromRaw x p form => some ((w.construct ty x (w.raw p)).pass form p)
  | .fromRawNoRetain x p form =>
    some (((w.record .transferIn (ty.policy x) (w.raw p)).put x (some (w.raw p))).pass form p)
  | .copy x rhs => do
    let v ← w.pointer rhs
    return w.construct ty x v
  | .move x rhs => do
    let v ← w.pointer rhs
    return (w.put x (some v)).put rhs (some none)
  | .fromOther x rhs => do
    let v ← w.pointer rhs
    return w.construct ty x v
  | .assignRaw x rhs form => do
    let temporary := w.raw rhs
    let w ← (w.record .retain (ty.policy x) temporary).swapTemporary ty x temporary
    return w.pass form rhs
  | .assignNull x => w.swapTemporary ty x none
  | .assign x rhs | .assignCompatible x rhs => do
    let temporary ← w.pointer rhs
    (w.record .retain (ty.policy x) temporary).swapTemporary ty x temporary
  | .moveAssign x rhs => do
    let temporary ← w.pointer rhs
    (w.put rhs (some none)).swapTemporary ty x temporary
  | .destroy x => do
    let v ← w.pointer x
    return (w.record .release (ty.policy x) v).put x none
  | .alloc x v => some ((w.record .transferIn (ty.policy x) v).put x (some v))
  | .reset x | .getForOutParam x => w.swapTemporary ty x none
  | .attach x p form => do
    let temporary := w.raw p
    let w ← (w.record .transferIn (ty.policy x) temporary).swapTemporary ty x temporary
    return w.pass form p
  | .detach x ret => do
    let v ← w.pointer x
    return ((w.record .transferOut (ty.policy x) v).put x (some none)).putRaw ret v
  | .swap x p => w.swap ty x p
  | .pointerCast c form result x => w.pointerCast ty c form result x

/-- Smart pointers are made in free places and from ones that are there, of the same policy
where their types say so. -/
def World.Ready (w : World X R P O) : Op X R O K → Prop
  | .setRaw _ _ => True
  | .default x | .fromRaw x _ _ | .fromRawNoRetain x _ _ | .alloc x _ => w.pointer x = none
  | .copy x rhs | .move x rhs =>
    w.pointer x = none ∧ w.pointer rhs ≠ none ∧ ty.policy x = ty.policy rhs
  | .fromOther x rhs => w.pointer x = none ∧ w.pointer rhs ≠ none
  | .assignRaw x _ _ | .assignNull x | .destroy x | .reset x | .getForOutParam x
  | .attach x _ _ | .detach x _ => w.pointer x ≠ none
  | .assign x rhs | .assignCompatible x rhs | .moveAssign x rhs =>
    w.pointer x ≠ none ∧ w.pointer rhs ≠ none ∧ ty.policy x = ty.policy rhs
  | .swap x p => w.pointer x ≠ none ∧ w.pointer p ≠ none
  | .pointerCast _ _ result x =>
    w.pointer result = none ∧ w.pointer x ≠ none ∧ ty.policy result = ty.policy x

end MacKernel.SmartPtr
