import MacKernel.Core.Bytes
import MacKernel.Core.Limbs
import MacKernel.Core.Run
import MacKernel.Models.Buflet.Native

/-!
# Number vectors of `corecrypto`

The inline functions and macros of `ccn.h` over a memory of 64-bit units. What they
call is compiled elsewhere and is a parameter; pointers are indices of units.
-/

namespace MacKernel.Ccn

/-- `cc_unit`, with `CCN_UNIT_SIZE` 8. -/
abbrev CcUnit := BitVec 64

/-- A memory of units. -/
abbrev Units := Nat → CcUnit

/-- The functions of the library that the inline functions call. -/
structure Library where
  /-- `ccn_add`. -/
  add : Units → Nat → Nat → Nat → Nat → Units × CcUnit
  /-- `ccn_add1`. -/
  add1 : Units → Nat → Nat → Nat → CcUnit → Units × CcUnit
  /-- `ccn_sub`. -/
  sub : Units → Nat → Nat → Nat → Nat → Units × CcUnit
  /-- `ccn_sub1`. -/
  sub1 : Units → Nat → Nat → Nat → CcUnit → Units × CcUnit
  /-- `ccn_cmp`. -/
  cmp : Units → Nat → Nat → Nat → Int
  /-- `ccn_set`. -/
  set : Units → Nat → Nat → Nat → Units
  /-- `cc_clear`, whose length is in bytes. -/
  clear : Units → Nat → Nat → Units

section Vectors

variable (lib : Library) (m : Units)

/-- `ccn_sizeof_n`. -/
def ccnSizeofN (n : Nat) : Nat := 8 * n

/-- `ccn_bit`. -/
def ccnBit (ccn k : Nat) : CcUnit := (1 : CcUnit) &&& (m (ccn + k >>> 6) >>> (k &&& 63))

/-- `ccn_set_bit`. -/
def ccnSetBit (ccn k : Nat) (v : Bool) : Units :=
  if v then Function.update m (ccn + k >>> 6) (m (ccn + k >>> 6) ||| (1 : CcUnit) <<< (k &&& 63))
  else Function.update m (ccn + k >>> 6) (m (ccn + k >>> 6) &&& ~~~((1 : CcUnit) <<< (k &&& 63)))

/-- `ccn_cmpn`. -/
def ccnCmpn (ns s nt t : Nat) : Int :=
  if ns > nt then 1
  else if ns < nt then -1
  else lib.cmp m ns s t

/-- `ccn_subn`. -/
def ccnSubn (n r s nt t : Nat) : Except Fault (Units × CcUnit) := do
  kassert (nt ≤ n)
  let (m, borrow) := lib.sub m nt r s t
  return lib.sub1 m (n - nt) (r + nt) (s + nt) borrow

/-- `ccn_addn`. -/
def ccnAddn (n r s nt t : Nat) : Except Fault (Units × CcUnit) := do
  kassert (nt ≤ n)
  let (m, carry) := lib.add m nt r s t
  return lib.add1 m (n - nt) (r + nt) (s + nt) carry

/-- `ccn_zero`; `ccn_clear` is the same. -/
def ccnZero (n r : Nat) : Units := lib.clear m (ccnSizeofN n) r

/-- `ccn_seti`, for a vector that is not empty. -/
def ccnSeti (n r : Nat) (v : CcUnit) : Units :=
  ccnZero lib (Function.update m r v) (n - 1) (r + 1)

/-- `ccn_setn`, for a source that is not longer. -/
def ccnSetn (n r sSize s : Nat) : Units :=
  ccnZero lib (lib.set m sSize r s) (n - sSize) (r + sSize)

/-- `ccn_xor`, from the last unit down. -/
def ccnXor (m : Units) : Nat → Nat → Nat → Nat → Units
  | 0, _, _, _ => m
  | n + 1, r, s, t => ccnXor (Function.update m (r + n) (m (s + n) ^^^ m (t + n))) n r s t

end Vectors

section Swapping

/-- `CC_SWAP_HOST_BIG_64`, which is `CC_UNIT_TO_BIG`. -/
def ccSwapHostBig64 (x : CcUnit) : CcUnit :=
  (x &&& 0xff00000000000000) >>> 56 ||| (x &&& 0x00ff000000000000) >>> 40 |||
  (x &&& 0x0000ff0000000000) >>> 24 ||| (x &&& 0x000000ff00000000) >>> 8 |||
  (x &&& 0x00000000ff000000) <<< 8 ||| (x &&& 0x0000000000ff0000) <<< 24 |||
  (x &&& 0x000000000000ff00) <<< 40 ||| (x &&& 0x00000000000000ff) <<< 56

/-- The pointers of `ccn_swap`, with the memory. -/
structure SwapState where
  r : Nat
  e : Nat
  mem : Units

/-- The loop of `ccn_swap`. -/
def swapBody (s : SwapState) : Except Fault (SwapState ⊕ SwapState) :=
  if s.r < s.e then
    let t := ccSwapHostBig64 (s.mem s.r)
    let mem := Function.update s.mem s.r (ccSwapHostBig64 (s.mem s.e))
    return .inl ⟨s.r + 1, s.e - 1, Function.update mem s.e t⟩
  else return .inr s

/-- `ccn_swap`. -/
def ccnSwap (fuel : Nat) (m : Units) (n r : Nat) : Except Fault Units := do
  let s ← loop swapBody fuel ⟨r, r + n - 1, m⟩
  if n &&& 1 = 1 then
    return Function.update s.mem s.r (ccSwapHostBig64 (s.mem s.r))
  else return s.mem

end Swapping

end MacKernel.Ccn
