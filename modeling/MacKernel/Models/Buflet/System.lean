import MacKernel.Models.Buflet.Native

/-!
# Threads that use buflets

Threads construct, copy and destroy kernel buflets. A macro stores into a buflet and
adds to or subtracts from the use count of a buffer control in separate steps, so
other threads run in between.
-/

namespace MacKernel.Buflet

section Native

/-- `SKMEM_BUFCTL_SHAREOK`: supports sharing. -/
def skmemBufctlShareok : BitVec 32 := 0x1

/-- The part of `struct skmem_bufctl` that counts uses. -/
structure SkmemBufctl where
  flags : BitVec 32
  usecnt : UInt32

/-- `skmem_bufctl_use`. -/
def skmemBufctlUse (bc : SkmemBufctl) : Except Fault SkmemBufctl := do
  let new := bc.usecnt + 1
  kassert (new ≠ 0)
  kassert (new = 1 ∨ bc.flags &&& skmemBufctlShareok ≠ 0)
  return { bc with usecnt := new }

/-- `skmem_bufctl_unuse`, which returns the new count. -/
def skmemBufctlUnuse (bc : SkmemBufctl) : Except Fault (SkmemBufctl × UInt32) := do
  let new := bc.usecnt - 1
  kassert (bc.usecnt ≠ 0)
  kassert (bc.usecnt = 1 ∨ bc.flags &&& skmemBufctlShareok ≠ 0)
  return ({ bc with usecnt := new }, new)

theorem toNat_add_one_of_ne_zero {n : UInt32} (h : n + 1 ≠ 0) :
    (n + 1).toNat = n.toNat + 1 := by
  have hlt := n.toNat_lt
  have hne : (n + 1).toNat ≠ 0 := fun hz => h (UInt32.toNat_inj.mp hz)
  rw [UInt32.toNat_add] at hne ⊢
  simp only [UInt32.toNat_one] at hne ⊢
  omega

theorem toNat_sub_one_add_one {n : UInt32} (h : n ≠ 0) : (n - 1).toNat + 1 = n.toNat := by
  have hpos : 0 < n.toNat := Nat.pos_of_ne_zero fun hz => h (UInt32.toNat_inj.mp hz)
  rw [UInt32.toNat_sub_of_le n 1 (UInt32.le_iff_toNat_le.mpr hpos)]
  exact Nat.succ_pred_eq_of_pos hpos

end Native

section System

variable {T B : Type} [DecidableEq T] [DecidableEq B]

/-- Where a thread is in the macros. -/
inductive Pc (B : Type) where
  | idle
  /-- `KBUF_CTOR` has stored, and counts the use of its buffer control next. -/
  | ctor (kbuf : B) (bc : BitVec 64)
  /-- `_KBUF_COPY` has copied, and counts the use of the copied buffer control next. -/
  | copy (skb dkb : B)
  /-- `KBUF_DTOR` has found a buffer control, and drops its use next. -/
  | unuse (kbuf : B)
  /-- `KBUF_DTOR` has the use count to report, and stores next. -/
  | clear (kbuf : B) (usecnt : UInt32)
  deriving DecidableEq

/-- Kernel buflets, buffer controls by their addresses, and threads. -/
structure System (T B : Type) where
  bufs : B → KernBuflet
  ctls : BitVec 64 → SkmemBufctl
  threads : T → Pc B

/-- A thread starts a macro or goes on with the one it is in. -/
inductive Action (B : Type) where
  | ctor (kbuf : B) (baddr : BitVec 64) (bidx : BitVec 32) (bc : BitVec 64)
      (bufletSize : BitVec 16)
  | copy (skb dkb : B)
  | dtor (kbuf : B)
  | resume

/-- Store into a buflet. -/
def System.store (s : System T B) (b : B) (k : KernBuflet) : System T B :=
  { s with bufs := Function.update s.bufs b k }

/-- Move a thread. -/
def System.goto (s : System T B) (i : T) (pc : Pc B) : System T B :=
  { s with threads := Function.update s.threads i pc }

/-- Count one more use of a buffer control, unless it is `NULL`. -/
def System.use (s : System T B) (bc : BitVec 64) : Except Fault (System T B) :=
  if bc = 0 then .ok s
  else do
    let c ← skmemBufctlUse (s.ctls bc)
    return { s with ctls := Function.update s.ctls bc c }

/-- Count one use less of a buffer control. -/
def System.unuse (s : System T B) (bc : BitVec 64) : Except Fault (System T B × UInt32) :=
  if bc = 0 then .error .nullDeref
  else do
    let (c, usecnt) ← skmemBufctlUnuse (s.ctls bc)
    return ({ s with ctls := Function.update s.ctls bc c }, usecnt)

/-- Go on with the macro that a thread is in. -/
def System.resume (s : System T B) (i : T) : Except Fault (System T B) :=
  match s.threads i with
  | .idle => .ok s
  | .ctor _ bc => do
    let s ← s.use bc
    return s.goto i .idle
  | .copy _ dkb => do
    let s ← s.use (s.bufs dkb).ctl
    return s.goto i .idle
  | .unuse kbuf => do
    let (s, usecnt) ← s.unuse (s.bufs kbuf).ctl
    return s.goto i (.clear kbuf usecnt)
  | .clear kbuf _ => .ok ((s.store kbuf (kbufDtorStore (s.bufs kbuf))).goto i .idle)

/-- One step of a thread. -/
def System.step (s : System T B) (i : T) : Action B → Except Fault (System T B)
  | .ctor kbuf baddr bidx bc bufletSize =>
    .ok ((s.store kbuf (kbufCtorStore baddr bidx bc bufletSize (s.bufs kbuf))).goto i
      (.ctor kbuf bc))
  | .copy skb dkb => do
    kassert (bufNbftAddr.get (s.bufs skb).com = 0)
    kassert (bufNbftIdx.get (s.bufs skb).com = objIdxNone)
    kassert (bufFlag.get (s.bufs dkb).com &&& bufletFlagExternal = 0)
    let k := kbufCopyStore (s.bufs skb) (s.bufs dkb)
    kassert (k.ctl = (s.bufs skb).ctl)
    return (s.store dkb k).goto i (.copy skb dkb)
  | .dtor kbuf =>
    if (s.bufs kbuf).ctl = 0 then .ok (s.store kbuf (kbufDtorStore (s.bufs kbuf)))
    else .ok (s.goto i (.unuse kbuf))
  | .resume => s.resume i

/-- A thread is in one macro at a time, and a buflet constructed into or copied onto holds
no buffer control. -/
def System.Ready (s : System T B) (i : T) : Action B → Prop
  | .ctor kbuf _ _ _ _ => s.threads i = .idle ∧ (s.bufs kbuf).ctl = 0
  | .copy _ dkb => s.threads i = .idle ∧ (s.bufs dkb).ctl = 0
  | .dtor _ => s.threads i = .idle
  | .resume => s.threads i ≠ .idle

instance (s : System T B) (i : T) (a : Action B) : Decidable (s.Ready i a) :=
  match a with
  | .ctor _ _ _ _ _ | .copy _ _ => inferInstanceAs (Decidable (_ ∧ _))
  | .dtor _ => inferInstanceAs (Decidable (_ = _))
  | .resume => inferInstanceAs (Decidable (_ ≠ _))

/-- Executions of the macros by any threads in any order. -/
def Step (s : System T B) (a : T × Action B) (t : System T B) : Prop :=
  s.Ready a.1 a.2 ∧ s.step a.1 a.2 = .ok t

/-- The buflet that a macro in progress writes. -/
def Pc.target : Pc B → Option B
  | .idle => none
  | .ctor kbuf _ | .copy _ kbuf | .unuse kbuf | .clear kbuf _ => some kbuf

/-- The buflet that a macro in progress only reads. -/
def Pc.source : Pc B → Option B
  | .copy skb _ => some skb
  | _ => none

/-- The buflet that a starting macro writes. -/
def Action.target : Action B → Option B
  | .ctor kbuf _ _ _ _ | .copy _ kbuf | .dtor kbuf => some kbuf
  | .resume => none

/-- The buflet that a starting macro only reads. -/
def Action.source : Action B → Option B
  | .copy skb _ => some skb
  | _ => none

/-- A macro starts when no macro in progress writes a buflet of it, or reads the one that
it writes. -/
def System.Exclusive (s : System T B) (a : Action B) : Prop :=
  ∀ j b, (a.target = some b → (s.threads j).target ≠ some b ∧ (s.threads j).source ≠ some b) ∧
    (a.source = some b → (s.threads j).target ≠ some b)

/-- Executions in which no two macros in progress meet at a buflet that one of them writes. -/
def ExclusiveStep (s : System T B) (a : T × Action B) (t : System T B) : Prop :=
  s.Exclusive a.2 ∧ Step s a t

end System

end MacKernel.Buflet
