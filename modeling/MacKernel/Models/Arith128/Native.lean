import Mathlib.Data.BitVec

/-!
# 128-bit products

`multi_overflow` is the upper half of the product of two 64-bit numbers. The compilers for
64-bit systems have a 128-bit type; on the others the product is put together from the four
products of 32-bit halves.
-/

namespace MacKernel.Arith128

/-- `multi_overflow` where there is a `__uint128_t`. -/
def multiOverflowLp64 (a b : BitVec 64) : BitVec 64 :=
  let prod : BitVec 128 := a.setWidth 128 * b.setWidth 128
  (prod >>> 64).setWidth 64

/-- `uint128_data_t`. -/
structure Uint128Data where
  high : BitVec 64
  low : BitVec 64
  deriving DecidableEq, Repr

/-- `add128_128`: the contents of `acc` afterwards. -/
def add128_128 (acc add : Uint128Data) : Uint128Data :=
  let high := acc.high + add.high
  let low := acc.low + add.low
  -- the sum has wrapped if it is below a summand
  if low < add.low then ⟨high + 1#64, low⟩ else ⟨high, low⟩

/-- `(uint32_t)(x >> 32)`. -/
def upperHalf (x : BitVec 64) : BitVec 32 := (x >>> 32).setWidth 32

/-- `(uint32_t)x`. -/
def lowerHalf (x : BitVec 64) : BitVec 32 := x.setWidth 32

/-- `(uint64_t)a * (uint64_t)b`. -/
def product (a b : BitVec 32) : BitVec 64 := a.setWidth 64 * b.setWidth 64

/-- `prod` with the first and the last of the four products. -/
def outerProducts (x y : BitVec 64) : Uint128Data :=
  ⟨product (upperHalf x) (upperHalf y), product (lowerHalf x) (lowerHalf y)⟩

/-- `add` with one of the two products in the middle, 32 bits up. -/
def middleProduct (a b : BitVec 32) : Uint128Data :=
  ⟨product a b >>> 32, product a b <<< 32⟩

/-- `prod` after the first `add128_128`. -/
def firstSum (x y : BitVec 64) : Uint128Data :=
  add128_128 (outerProducts x y) (middleProduct (upperHalf x) (lowerHalf y))

/-- `mul64x64`: what is left in `prod`. -/
def mul64x64 (x y : BitVec 64) : Uint128Data :=
  add128_128 (firstSum x y) (middleProduct (lowerHalf x) (upperHalf y))

/-- `multi_overflow` where there is no `__uint128_t`. -/
def multiOverflow (a b : BitVec 64) : BitVec 64 := (mul64x64 a b).high

end MacKernel.Arith128
