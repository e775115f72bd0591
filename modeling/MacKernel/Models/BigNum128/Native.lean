import MacKernel.Core.Run
import Mathlib.Data.BitVec

/-!
# The class `U128`

A number of 128 bits in two halves, with its operators. An operator that changes its object
returns the object's new contents.
-/

namespace MacKernel.BigNum128

/-- `U128`. -/
structure U128 where
  hi : BitVec 64
  lo : BitVec 64
  deriving DecidableEq, Repr

/-- `MSB64`. -/
def msb64 : BitVec 64 := 0x8000000000000000

namespace U128

/-- `this == A`. -/
def eq (this A : U128) : Bool := A.hi = this.hi ∧ A.lo = this.lo

/-- `this > A`. -/
def gt (this A : U128) : Bool := A.hi > this.hi ∨ A.hi = this.hi ∧ A.lo > this.lo

/-- `this < A`. -/
def lt (this A : U128) : Bool := ¬ (A.hi > this.hi ∨ A.hi = this.hi ∧ A.lo > this.lo)

/-- `this++`: the new contents, and the value of the expression. -/
def postIncrement (this : U128) : U128 × U128 :=
  let lo := this.lo + 1#64
  let this : U128 := if lo = 0#64 then ⟨this.hi + 1#64, lo⟩ else ⟨this.hi, lo⟩
  (this, this)

/-- `this--`: the new contents, and the value of the expression. -/
def postDecrement (this : U128) : U128 × U128 :=
  let lo := this.lo - 1#64
  let this : U128 := if 0#64 = this.lo then ⟨this.hi - 1#64, lo⟩ else ⟨this.hi, lo⟩
  (this, this)

/-- `this = A`. -/
def assign (_this A : U128) : U128 := ⟨A.hi, A.lo⟩

/-- `this + A`. -/
def add (this A : U128) : U128 :=
  let result : U128 := ⟨A.hi + this.hi, A.lo + this.lo⟩
  if result.lo < A.lo ∨ result.lo < this.lo then { result with hi := result.hi + 1#64 }
  else result

/-- `this += A`. -/
def addAssign (this A : U128) : U128 :=
  let result : U128 := ⟨A.hi + this.hi, A.lo + this.lo⟩
  let result := if result.lo < A.lo ∨ result.lo < this.lo then
      { result with hi := result.hi + 1#64 }
    else result
  this.assign result

/-- `A - B`. -/
def sub (A B : U128) : U128 :=
  let C : U128 := ⟨A.hi - B.hi, A.lo - B.lo⟩
  if C.lo > A.lo then { C with hi := C.hi - 1#64 } else C

/-- One pass of the loop of `operator<<`. -/
def shiftLeftOne (res : U128) : U128 :=
  ⟨res.hi <<< 1 ||| (if res.lo &&& msb64 ≠ 0#64 then 1#64 else 0#64), res.lo <<< 1⟩

/-- One pass of the loop of `operator>>`. -/
def shiftRightOne (res : U128) : U128 :=
  ⟨res.hi >>> 1, res.lo >>> 1 ||| (if res.hi &&& 0x1#64 ≠ 0#64 then msb64 else 0#64)⟩

/-- `while (n--)` around a pass that changes `res`. The decrement of the least `int` is not
defined. -/
def shiftBody (pass : U128 → U128) (s : BitVec 32 × U128) :
    Except Fault ((BitVec 32 × U128) ⊕ U128) :=
  if s.1 = 0#32 then return .inr s.2
  else if s.1 = BitVec.intMin 32 then throw .assertFailed
  else return .inl (s.1 - 1#32, pass s.2)

/-- `A << n`. -/
def shiftLeft (A : U128) (n : BitVec 32) : Except Fault U128 :=
  loop (shiftBody shiftLeftOne) (n.toNat + 1) (n, A)

/-- `A >> n`. -/
def shiftRight (A : U128) (n : BitVec 32) : Except Fault U128 :=
  loop (shiftBody shiftRightOne) (n.toNat + 1) (n, A)

end U128

end MacKernel.BigNum128
