import MacKernel.Models.ChannelRing.Native

/-!
# Producers, the consumer and their interleavings

Any number of producers share one ring with a consumer. A lease remembers what
its producer was granted and how far its publisher has come. The counter of
reported leases is a history variable: the code does not keep it, and no step
reads it.
-/

namespace MacKernel.ChannelRing

/-- A reservation together with the progress of its publisher. -/
structure Lease extends Reservation where
  /-- The store before the lock has been made. -/
  marked : Bool
  /-- The locked section has been run. -/
  advanced : Bool
  deriving DecidableEq, Repr

/-- Slot `slot` of a ring of `size` slots was granted to this lease. -/
def Lease.Holds (size : Nat) (l : Lease) (slot : Nat) : Prop :=
  cyclicDist size l.start.toNat slot < l.n.toNat

instance (size : Nat) (l : Lease) (slot : Nat) : Decidable (l.Holds size slot) :=
  inferInstanceAs (Decidable (_ < _))

/-- The ring, every lease granted so far in reservation order, and the number of
the lease following the last one that a scan has passed. -/
structure System where
  kr : Kring
  leases : List Lease
  reported : Nat

/-- The number of slots of the ring. -/
def System.size (s : System) : Nat := s.kr.numSlots.toNat

/-- A producer reserves slots under the lock. -/
def System.reserve (s : System) (n : UInt32) : System :=
  { s with
    kr := (krReserveSlotsLocked s.kr n).1
    leases := s.leases ++ [⟨(krReserveSlotsLocked s.kr n).2, false, false⟩] }

/-- The publisher of lease `i` stores its end before taking the lock. -/
def System.mark (s : System) (i : Nat) : Option System := do
  let l ← s.leases[i]?
  if l.marked then none
  else some { s with
    kr := krPublishMark s.kr l.stop l.ticket
    leases := s.leases.set i { l with marked := true } }

/-- The publisher of lease `i` runs its locked section. -/
def System.advance (s : System) (i : Nat) : Option System := do
  let l ← s.leases[i]?
  if l.marked = false ∨ l.advanced then none
  else
    match krPublishAdvance s.kr l.start l.stop l.ticket with
    | .error _ => none
    | .ok r => some {
        kr := r.kr
        leases := s.leases.set i { l with advanced := true }
        reported := if l.start = s.kr.ktail
          then i + cyclicDist s.size l.ticket.toNat r.ticket.toNat else s.reported }

/-- The consumer moves `khead` forward to a slot no further than `ktail`. -/
def System.consume (s : System) (pos : UInt32) : Option System :=
  if pos.toNat < s.size ∧ cyclicDist s.size s.kr.khead.toNat pos.toNat ≤
      cyclicDist s.size s.kr.khead.toNat s.kr.ktail.toNat then
    some { s with kr := { s.kr with khead := pos } }
  else none

/-- The atomic steps of the protocol, with publishing split at its lock. -/
inductive Action where
  | reserve (n : UInt32)
  | mark (i : Nat)
  | advance (i : Nat)
  | consume (pos : UInt32)
  deriving DecidableEq, Repr

/-- One atomic step by one party. -/
def System.act (s : System) : Action → Option System
  | .reserve n => some (s.reserve n)
  | .mark i => s.mark i
  | .advance i => s.advance i
  | .consume pos => s.consume pos

/-- The calls of the protocol when `kr_publish_slots` is one step. -/
inductive Call where
  | reserve (n : UInt32)
  | publish (i : Nat)
  | consume (pos : UInt32)
  deriving DecidableEq, Repr

/-- One call by one party: a publisher marks and advances without interruption. -/
def System.call (s : System) : Call → Option System
  | .reserve n => some (s.reserve n)
  | .publish i => do (← s.mark i).advance i
  | .consume pos => s.consume pos

/-- A consistent ring with no lease outstanding: every slot before `ktail` was
published earlier, and the lease array holds anything. -/
structure System.Fresh (s : System) : Prop where
  two_le : 2 ≤ s.size
  lim : s.kr.lim.toNat + 1 = s.size
  khead : s.kr.khead.toNat < s.size
  ktail : s.kr.ktail.toNat < s.size
  klease : s.kr.klease = s.kr.ktail
  leaseIdx : s.kr.leaseIdx.toNat < s.size
  leases : s.leases = []
  reported : s.reported = 0

/-- A reservation of `n` slots will be granted at least one. -/
def System.Granted (s : System) (n : UInt32) : Prop :=
  0 < n ∧ 0 < krAvailableSlots s.kr

instance (s : System) (n : UInt32) : Decidable (s.Granted n) :=
  inferInstanceAs (Decidable (_ ∧ _))

/-- The locked section of lease `i` does not find `ktail` at its start after a
scan has already passed the lease. -/
def System.Timely (s : System) (i : Nat) : Prop :=
  ∀ l, s.leases[i]? = some l → i < s.reported → l.start ≠ s.kr.ktail

/-- The atomic steps after which the protocol stays orderly. -/
def System.Orderly (s : System) : Action → Prop
  | .reserve n => s.Granted n
  | .advance i => s.Timely i
  | .mark _ | .consume _ => True

/-- The calls in which every reservation is granted at least one slot. -/
def System.Grants (s : System) : Call → Prop
  | .reserve n => s.Granted n
  | .publish _ | .consume _ => True

/-- An atomic step that is orderly. -/
def OrderlyStep (s : System) (a : Action) (t : System) : Prop :=
  s.Orderly a ∧ s.act a = some t

/-- A call that is granted a slot when it reserves. -/
def GrantedCall (s : System) (c : Call) (t : System) : Prop :=
  s.Grants c ∧ s.call c = some t

/-- Run a list of atomic steps. -/
def System.acts (s : System) (as : List Action) : Option System := as.foldlM System.act s

/-- Run a list of calls. -/
def System.calls (s : System) (cs : List Call) : Option System := cs.foldlM System.call s

end MacKernel.ChannelRing
