import MacKernel.Core.Run
import Mathlib.Data.BitVec

/-!
# 64-bit division for 32-bit systems

The division routines that a kernel extension links when the compiler has no 64-bit
division to call. All arithmetic is on 64-bit words in two's complement; a shift by a
count that the language does not define is a fault, and so is the exception that a
zero divisor forces.
-/

namespace MacKernel.Arith64

/-- `arith64_hi`. -/
def arith64Hi (n : BitVec 64) : BitVec 32 := (n >>> 32).setWidth 32

/-- `arith64_lo`. -/
def arith64Lo (n : BitVec 64) : BitVec 32 := n.setWidth 32

/-- `arith64_neg`: the mask is the integer 0 or -1, extended to 64 bits. -/
def arith64Neg (a b : BitVec 64) : BitVec 64 :=
  (a ^^^ BitVec.ofInt 64 ((if 0 ≤ b.toInt then 1 else 0) - 1)) + (if b.toInt < 0 then 1 else 0)

/-- `arith64_abs`. -/
def arith64Abs (a : BitVec 64) : BitVec 64 := arith64Neg a a

/-- One line of `__clzdi2`: `b = !(a & mask) << k; n += b; a <<= b`, on `n` and `a`. -/
def clzStep (mask : BitVec 64) (k : Nat) (s : Nat × BitVec 64) : Nat × BitVec 64 :=
  let b := (if s.2 &&& mask = 0 then 1 else 0) <<< k
  (s.1 + b, s.2 <<< b)

/-- `__clzdi2`. -/
def clzdi2 (a : BitVec 64) : Nat :=
  let s := clzStep 0xffffffff00000000 5 (0, a)
  let s := clzStep 0xffff000000000000 4 s
  let s := clzStep 0xff00000000000000 3 s
  let s := clzStep 0xf000000000000000 2 s
  let s := clzStep 0xc000000000000000 1 s
  s.1 + if s.2 &&& 0x8000000000000000 = 0 then 1 else 0

/-- `a << n` of a 64-bit operand. -/
def shiftLeft (a : BitVec 64) (n : Int) : Except Fault (BitVec 64) :=
  if 0 ≤ n ∧ n < 64 then .ok (a <<< n.toNat) else .error .assertFailed

/-- `a >> n` of an unsigned 64-bit operand. -/
def shiftRight (a : BitVec 64) (n : Int) : Except Fault (BitVec 64) :=
  if 0 ≤ n ∧ n < 64 then .ok (a >>> n.toNat) else .error .assertFailed

/-- `char bits`: the number of bits to iterate, cut to a signed character. -/
def divBits (a b : BitVec 64) : Int := ((clzdi2 b : Int) - clzdi2 a + 1).bmod 256

/-- The variables of the long division. -/
structure DivState where
  bits : Int
  rem : BitVec 64
  a : BitVec 64
  wrap : BitVec 64
  deriving DecidableEq, Repr

/-- One pass of `while (bits-- > 0)`. -/
def divBody (b : BitVec 64) (s : DivState) : Except Fault (DivState ⊕ DivState) :=
  if s.bits > 0 then
    -- shift numerator MSB to remainder LSB, shift out the numerator, shift in wrap
    let rem := (s.rem <<< 1) ||| (s.a >>> 63)
    let a := (s.a <<< 1) ||| (s.wrap &&& 1)
    let wrap := (b - rem - 1).sshiftRight 63
    return .inl ⟨s.bits - 1, rem - (b &&& wrap), a, wrap⟩
  else return .inr { s with bits := s.bits - 1 }

/-- What goes through the pointer to the remainder, when it is not null. -/
def store (c : Bool) (rem : BitVec 64) : Option (BitVec 64) := if c then some rem else none

/-- The long division at the end of `__divmoddi4`. -/
def longDivide (a b : BitVec 64) (c : Bool) : Except Fault (BitVec 64 × Option (BitVec 64)) := do
  let bits := divBits a b
  let rem ← shiftRight a bits
  let a ← shiftLeft a (64 - bits)
  let s ← loop (divBody b) (2 ^ 8) ⟨bits, rem, a, 0⟩
  return ((s.a <<< 1) ||| (s.wrap &&& 1), store c s.rem)

/-- `__divmoddi4`: the quotient, and the remainder if there is a place for it. -/
def divmoddi4 (a b : BitVec 64) (c : Bool) : Except Fault (BitVec 64 × Option (BitVec 64)) :=
  if b > a then return (0, store c a)
  else if arith64Hi b = 0 then
    if b = 0 then throw .assertFailed
    else if b = 1 then return (a, store c 0)
    else if arith64Hi a = 0 then
      return ((arith64Lo a / arith64Lo b).setWidth 64,
        store c ((arith64Lo a % arith64Lo b).setWidth 64))
    else longDivide a b c
  else longDivide a b c

/-- `__udivdi3`. -/
def udivdi3 (a b : BitVec 64) : Except Fault (BitVec 64) := do
  return (← divmoddi4 a b false).1

/-- `__umoddi3`. -/
def umoddi3 (a b : BitVec 64) : Except Fault (BitVec 64) := do
  deref (← divmoddi4 a b true).2

/-- `__divdi3`. -/
def divdi3 (a b : BitVec 64) : Except Fault (BitVec 64) := do
  let q := (← divmoddi4 (arith64Abs a) (arith64Abs b) false).1
  return arith64Neg q (a ^^^ b)

/-- `__moddi3`. -/
def moddi3 (a b : BitVec 64) : Except Fault (BitVec 64) := do
  let r ← deref (← divmoddi4 (arith64Abs a) (arith64Abs b) true).2
  return arith64Neg r a

end MacKernel.Arith64
