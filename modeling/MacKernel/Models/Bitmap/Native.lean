import MacKernel.Core.Scan
import Mathlib.Data.BitVec

/-!
# Bitmaps of `kern/bits.h`

A bitmap is an array of 64-bit words. `uint` is a 32-bit number and wraps, a
conversion to `int` reduces modulo 2^32 into the signed range, and every access
to a word is checked against the length of the array.
-/

namespace MacKernel.Bitmap

/-- `BIT`. -/
def bit (b : Nat) : BitVec 64 := 1#64 <<< b

/-- `mask`. -/
def mask (width : Nat) : BitVec 64 := if width ≥ 64 then -1 else bit width - 1

/-- `extract`. -/
def extract (x : BitVec 64) (shift width : Nat) : BitVec 64 := (x >>> shift) &&& mask width

/-- `bits`. -/
def bits (x : BitVec 64) (hi lo : Nat) : BitVec 64 := extract x lo (hi - lo + 1)

/-- `bit_set`. -/
def bitSet (x : BitVec 64) (b : Nat) : BitVec 64 := x ||| bit b

/-- `bit_clear`. -/
def bitClear (x : BitVec 64) (b : Nat) : BitVec 64 := x &&& ~~~bit b

/-- `bit_test`. -/
def bitTest (x : BitVec 64) (b : Nat) : Bool := x &&& bit b != 0

/-- `bit_clear_if_set`: the parameter at the end, and the return value. -/
def bitClearIfSet (bitmap : BitVec 64) (b : Nat) : BitVec 64 × Bool :=
  let bitIsSet := bitTest bitmap b
  (bitClear bitmap b, bitIsSet)

/-- `bit_set_if_clear`: the parameter at the end, and the return value. -/
def bitSetIfClear (bitmap : BitVec 64) (b : Nat) : BitVec 64 × Bool :=
  let bitIsSet := bitTest bitmap b
  (bitSet bitmap b, !bitIsSet)

/-- Conversion to `int`. -/
def int (x : Int) : Int := x.bmod (2 ^ 32)

/-- `bit_first`: the most significant '1' bit, or -1 if all zeros. -/
def bitFirst (bitmap : BitVec 64) : Int :=
  if bitmap = 0 then -1 else 63 - bitmap.clz.toNat

/-- `__bit_next`. -/
def bitNext (bitmap : BitVec 64) (previousBit : Nat) : Int :=
  let mask := if previousBit ≠ 0 then mask previousBit else ~~~0
  bitFirst (bitmap &&& mask)

/-- `__builtin_ffsll`. -/
def ffsll (x : BitVec 64) : Int := if x = 0 then 0 else x.ctz.toNat + 1

/-- `lsb_first`: the least significant '1' bit, or -1 if all zeros. -/
def lsbFirst (bitmap : BitVec 64) : Int := ffsll bitmap - 1

/-- `lsb_next`; `previous_bit` may be -1. -/
def lsbNext (bitmap : BitVec 64) (previousBit : Int) : Int :=
  let mask := mask (previousBit + 1).toNat
  lsbFirst (bitmap &&& ~~~mask)

/-- `BITMAP_LEN`. -/
def bitmapLen (n : BitVec 32) : BitVec 32 := (n + 63) >>> 6

/-- `BITMAP_SIZE`. -/
def bitmapSize (n : BitVec 32) : Nat := (bitmapLen n <<< 3).toNat

/-- `bitmap_bit`. -/
def bitmapBit (n : BitVec 32) : Nat := (bits (n.setWidth 64) 5 0).toNat

/-- `bitmap_index`. -/
def bitmapIndex (n : BitVec 32) : Nat := (bits (n.setWidth 64) 63 6).toNat

/-- The words of a bitmap. -/
abbrev Map := List (BitVec 64)

/-- Read a word. -/
def Map.read (map : Map) (i : Nat) : Except Fault (BitVec 64) :=
  match map[i]? with
  | some word => .ok word
  | none => .error .unmapped

/-- Write a word. -/
def Map.write (map : Map) (i : Nat) (word : BitVec 64) : Except Fault Map :=
  if i < map.length then .ok (map.set i word) else .error .unmapped

/-- `memset` of whole words. -/
def Map.memset (map : Map) (c : BitVec 8) (size : Nat) : Except Fault Map :=
  if size ≤ 8 * map.length then
    .ok (List.replicate (size / 8) (c.replicate 8) ++ map.drop (size / 8))
  else .error .unmapped

/-- `bitmap_zero`. -/
def bitmapZero (map : Map) (nbits : BitVec 32) : Except Fault Map :=
  map.memset 0 (bitmapSize nbits)

/-- `bitmap_full`. -/
def bitmapFull (map : Map) (nbits : BitVec 32) : Except Fault Map :=
  map.memset (~~~0) (bitmapSize nbits)

/-- `bitmap_set`. -/
def bitmapSet (map : Map) (n : BitVec 32) : Except Fault Map := do
  let word ← map.read (bitmapIndex n)
  map.write (bitmapIndex n) (bitSet word (bitmapBit n))

/-- `bitmap_clear`. -/
def bitmapClear (map : Map) (n : BitVec 32) : Except Fault Map := do
  let word ← map.read (bitmapIndex n)
  map.write (bitmapIndex n) (bitClear word (bitmapBit n))

/-- `atomic_bitmap_set`; `__c11_atomic_fetch_or` returns the word before the call. -/
def atomicBitmapSet (map : Map) (n : BitVec 32) : Except Fault (Map × Bool) := do
  let prev ← map.read (bitmapIndex n)
  let map ← map.write (bitmapIndex n) (prev ||| bit (bitmapBit n))
  return (map, bitTest prev (bitmapBit n))

/-- `atomic_bitmap_clear`; `__c11_atomic_fetch_and` returns the word before the call. -/
def atomicBitmapClear (map : Map) (n : BitVec 32) : Except Fault (Map × Bool) := do
  let prev ← map.read (bitmapIndex n)
  let map ← map.write (bitmapIndex n) (prev &&& ~~~bit (bitmapBit n))
  return (map, bitTest prev (bitmapBit n))

/-- `bitmap_test`. -/
def bitmapTest (map : Map) (n : BitVec 32) : Except Fault Bool := do
  let word ← map.read (bitmapIndex n)
  return bitTest word (bitmapBit n)

/-- `bitmap_first`. -/
def bitmapFirst (map : Map) (nbits : BitVec 32) : Except Fault Int := do
  let found ← scanDown (fun i => do
    let word ← map.read i
    if word = 0 then return none
    else return some (int ((i <<< 6 : Nat) + bitFirst word))) (bitmapIndex (nbits - 1) + 1)
  return found.getD (-1)

/-- `bitmap_and_not_mask_first`. -/
def bitmapAndNotMaskFirst (map mask : Map) (nbits : BitVec 32) : Except Fault Int := do
  let found ← scanDown (fun i => do
    let word ← map.read i
    let maskWord ← mask.read i
    if word &&& ~~~maskWord = 0 then return none
    else return some (int ((i <<< 6 : Nat) + bitFirst (word &&& ~~~maskWord))))
    (bitmapIndex (nbits - 1) + 1)
  return found.getD (-1)

/-- `bitmap_lsb_first`. -/
def bitmapLsbFirst (map : Map) (nbits : BitVec 32) : Except Fault Int := do
  let found ← scanUp (fun i => do
    let word ← map.read i
    if word = 0 then return none
    else return some (int ((i <<< 6 : Nat) + lsbFirst word))) 0 (bitmapIndex (nbits - 1) + 1)
  return found.getD (-1)

/-- `bitmap_next`. -/
def bitmapNext (map : Map) (prev : BitVec 32) : Except Fault Int := do
  if prev = 0 then return -1
  let i := bitmapIndex (prev - 1)
  let word ← map.read i
  let res := bitNext word (bits (prev.setWidth 64) 5 0).toNat
  if res ≥ 0 then return int (res + (i <<< 6 : Nat))
  let found ← scanDown (fun i => do
    let word ← map.read i
    if word = 0 then return none
    else return some (int ((i <<< 6 : Nat) + bitFirst word))) i
  return found.getD (-1)

/-- `bitmap_lsb_next`. -/
def bitmapLsbNext (map : Map) (nbits prev : BitVec 32) : Except Fault Int := do
  if prev + 1 ≥ nbits then return -1
  let i := bitmapIndex (prev + 1)
  let b : BitVec 32 := (bits ((prev + 1).setWidth 64) 5 0 - 1).setWidth 32
  let word ← map.read i
  let res := lsbNext word b.toInt
  if res ≥ 0 then return int (res + (i <<< 6 : Nat))
  let found ← scanUp (fun i => do
    let word ← map.read i
    if word = 0 then return none
    else return some (int ((i <<< 6 : Nat) + lsbFirst word))) (i + 1)
    (bitmapIndex (nbits - 1) - i)
  return found.getD (-1)

/-- The operations that change or test a bitmap. -/
inductive Op where
  | zero
  | full
  | set (n : BitVec 32)
  | clear (n : BitVec 32)
  | test (n : BitVec 32)
  | atomicSet (n : BitVec 32)
  | atomicClear (n : BitVec 32)

/-- One operation, with what it returns. -/
def step (nbits : BitVec 32) (map : Map) : Op → Except Fault (Map × Option Bool)
  | .zero => return (← bitmapZero map nbits, none)
  | .full => return (← bitmapFull map nbits, none)
  | .set n => return (← bitmapSet map n, none)
  | .clear n => return (← bitmapClear map n, none)
  | .test n => return (map, some (← bitmapTest map n))
  | .atomicSet n => do
    let (map, prev) ← atomicBitmapSet map n
    return (map, some prev)
  | .atomicClear n => do
    let (map, prev) ← atomicBitmapClear map n
    return (map, some prev)

/-- A bitmap of `BITMAP_SIZE(nbits)` bytes that are all zero. -/
def zeroed (nbits : BitVec 32) : Map := List.replicate (bitmapLen nbits).toNat 0

end MacKernel.Bitmap
