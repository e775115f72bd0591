import MacKernel.Models.StateReport.Native

/-!
# Simple array reports of `IOKit/IOReportMacros.h`

A simple array report keeps four values in each of its elements. The buffer stores the number
of its elements; the number of values that it was made for is not kept. Sums wrap around.
-/

namespace MacKernel.SimpleArray

open StateReport (ChannelType index)

/-- `kIOReportFormatSimpleArray`. -/
def kIOReportFormatSimpleArray : UInt8 := 4

/-- `kIOReportInvalidIntValue`. -/
def kIOReportInvalidIntValue : Int64 := Int64.minValue

/-- `IOReportElement`, with its `simple_values`. -/
@[ext] structure Element where
  providerId : UInt64
  channelId : UInt64
  channelType : ChannelType
  timestamp : UInt64
  simpleValues : Fin 4 → Int64

/-- A buffer that has room for `n` elements. -/
@[ext] structure Buffer (n : Nat) where
  elem : Fin n → Element

/-- `__nElems`. -/
def nElems (nValues : Nat) : Nat := nValues / 4 + if nValues % 4 ≠ 0 then 1 else 0

/-- `SIMPLEARRAY_BUFSIZE`: an element has 64 bytes. -/
def simplearrayBufsize (nValues : Nat) : Nat :=
  (nValues / 4 + if nValues % 4 ≠ 0 then 1 else 0) * 64

/-- `SIMPLEARRAY_INIT`. `IOREPORT_ABORT` is a fault. -/
def simplearrayInit (nValues bufSize : Nat) (providerID channelID : UInt64) (cats : UInt16) :
    Except Fault (Buffer (nElems nValues)) :=
  if bufSize ≥ simplearrayBufsize nValues then
    .ok {
      elem no := {
        providerId := providerID
        channelId := channelID
        channelType := ⟨kIOReportFormatSimpleArray, 0, cats, .ofNat (nElems nValues), .ofNat no⟩
        timestamp := 0
        simpleValues _ := kIOReportInvalidIntValue } }
  else .error .assertFailed

variable {n : Nat}

/-- `__elem->channel_type.nelements` of the first element. -/
def Buffer.nelements (buf : Buffer n) : Except Fault UInt16 := do
  let i ← index n 0
  return (buf.elem i).channelType.nelements

/-- `__SA_FINDREP`: the place of a value, if its element is in bounds. -/
def saFindrep (buf : Buffer n) (idx : UInt32) : Except Fault (Option (Fin n × Fin 4)) := do
  let elemIdx := idx / 4
  let valueIdx := idx % 4
  let nelements ← buf.nelements
  if elemIdx < nelements.toUInt32 then
    let e ← index n elemIdx.toNat
    let v ← index 4 valueIdx.toNat
    return some (e, v)
  else return none

/-- Store into a value. -/
def Buffer.modify (buf : Buffer n) (e : Fin n) (v : Fin 4) (f : Int64 → Int64) : Buffer n :=
  let values := (buf.elem e).simpleValues
  ⟨Function.update buf.elem e
    { buf.elem e with simpleValues := Function.update values v (f (values v)) }⟩

/-- `SIMPLEARRAY_SETVALUE`. -/
def simplearraySetvalue (buf : Buffer n) (idx : UInt32) (newValue : UInt64) :
    Except Fault (Buffer n) := do
  match ← saFindrep buf idx with
  | some (e, v) => return buf.modify e v fun _ => newValue.toInt64
  | none => return buf

/-- `SIMPLEARRAY_INCREMENTVALUE`. -/
def simplearrayIncrementvalue (buf : Buffer n) (idx : UInt32) (value : Int64) :
    Except Fault (Buffer n) := do
  match ← saFindrep buf idx with
  | some (e, v) => return buf.modify e v fun old => old + value
  | none => return buf

/-- `__SA_MAXINDEX`, as it is compared with an index. -/
def saMaxindex (buf : Buffer n) : Except Fault UInt32 := do
  let nelements ← buf.nelements
  return nelements.toUInt32 * 4 - 1

/-- `SIMPLEARRAY_GETVALUE`. -/
def simplearrayGetvalue (buf : Buffer n) (idx : UInt32) : Except Fault Int64 := do
  let maxindex ← saMaxindex buf
  if idx > maxindex ∨ idx < 0 then return kIOReportInvalidIntValue
  else
    let e ← index n (idx / 4).toNat
    let v ← index 4 (idx % 4).toNat
    return (buf.elem e).simpleValues v

/-- The macros that change values. -/
inductive Call where
  | setvalue (idx : UInt32) (newValue : UInt64)
  | incrementvalue (idx : UInt32) (value : Int64)

/-- Call a macro. -/
def Call.step (buf : Buffer n) : Call → Except Fault (Buffer n)
  | .setvalue idx newValue => simplearraySetvalue buf idx newValue
  | .incrementvalue idx value => simplearrayIncrementvalue buf idx value

/-- A sequence of calls. -/
def Buffer.callAll (buf : Buffer n) (calls : List Call) : Except Fault (Buffer n) :=
  calls.foldlM Call.step buf

end MacKernel.SimpleArray
