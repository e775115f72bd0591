import MacKernel.Core.Run
import Mathlib.Logic.Function.Basic

/-!
# State reports of `IOKit/IOReportMacros.h`

A state report buffer is an `IOStateReportInfo` followed by one element for each
state. The macros index the elements with values read from the buffer, so every
access is checked against the number of elements that the buffer has. Times and
counters are the unsigned 64-bit numbers of the source.
-/

namespace MacKernel.StateReport

/-- `kIOReportInvalidValue`. -/
def kIOReportInvalidValue : UInt64 := 0x8000000000000000

/-- `kIOReportFormatState`. -/
def kIOReportFormatState : UInt8 := 2

/-- `IOReportChannelType`. -/
structure ChannelType where
  reportFormat : UInt8
  reserved : UInt8
  categories : UInt16
  nelements : UInt16
  elementIdx : Int16

/-- `IOStateReportValues`. -/
structure Values where
  /-- 0..N-1 or 8-char code. -/
  stateId : UInt64
  /-- Number of transitions into this state. -/
  intransitions : UInt64
  /-- Ticks spent in state. -/
  upticks : UInt64
  /-- Ticks at last in-transition. -/
  lastIntransition : UInt64

/-- `IOReportElement`, with the values of a state. -/
structure Element where
  providerId : UInt64
  channelId : UInt64
  channelType : ChannelType
  timestamp : UInt64
  values : Values

/-- `IOStateReportInfo`, in a buffer that has room for `n` elements. -/
structure Info (n : Nat) where
  currState : UInt16
  updateTs : UInt64
  elem : Fin n → Element

/-- `STATEREPORT_BUFSIZE`: the header has 16 bytes and each element has 64. -/
def statereportBufsize (nstates : Nat) : Nat := 16 + nstates * 64

/-- `STATEREPORT_INIT`. `IOREPORT_ABORT` is a fault. -/
def statereportInit (nstates bufSize : Nat) (providerID channelID : UInt64) (cats : UInt16) :
    Except Fault (Info nstates) :=
  if bufSize ≥ statereportBufsize nstates then
    .ok {
      currState := 0
      updateTs := 0
      elem no := {
        providerId := providerID
        channelId := channelID
        channelType := ⟨kIOReportFormatState, 0, cats, .ofNat nstates, .ofNat no⟩
        timestamp := 0
        values := ⟨.ofNat no, 0, 0, 0⟩ } }
  else .error .assertFailed

variable {n : Nat}

/-- The place of an element. -/
def index (n i : Nat) : Except Fault (Fin n) :=
  if h : i < n then .ok ⟨i, h⟩ else .error .unmapped

/-- Store into an element. -/
def Info.modify (info : Info n) (i : Fin n) (f : Element → Element) : Info n :=
  { info with elem := Function.update info.elem i (f (info.elem i)) }

/-- `elem[0].channel_type.nelements`. -/
def Info.nelements (info : Info n) : Except Fault UInt16 := do
  let i ← index n 0
  return (info.elem i).channelType.nelements

/-- Add to `upticks`. -/
def Element.addUpticks (e : Element) (ticks : UInt64) : Element :=
  { e with values := { e.values with upticks := e.values.upticks + ticks } }

/-- Count a transition into a state. -/
def Element.enter (e : Element) (changeTime : UInt64) : Element :=
  { e with
    timestamp := changeTime
    values := { e.values with intransitions := e.values.intransitions + 1 } }

/-- `STATEREPORT_SETSTATE`. -/
def statereportSetstate (newStateIdx : UInt32) (changeTime : UInt64) (info : Info n) :
    Except Fault (Info n) := do
  let nelements ← info.nelements
  if newStateIdx.toNat < nelements.toNat then
    let curr ← index n info.currState.toNat
    let info := if info.updateTs ≠ 0 then
        info.modify curr (·.addUpticks (changeTime - info.updateTs))
      else info
    let new ← index n newStateIdx.toNat
    let info := info.modify new (·.enter changeTime)
    return { info with currState := newStateIdx.toUInt16, updateTs := changeTime }
  else return info

/-- `STATEREPORT_UPDATEPREP`, with `size2cpy`; `ptr2cpy` is the address of the elements. -/
def statereportUpdateprep (currentTime : UInt64) (info : Info n) :
    Except Fault (Info n × Nat) := do
  let nelements ← info.nelements
  let size2cpy := nelements.toNat * 64
  if info.updateTs ≠ 0 then
    let curr ← index n info.currState.toNat
    let info := info.modify curr fun e =>
      { e.addUpticks (currentTime - info.updateTs) with timestamp := currentTime }
    return ({ info with updateTs := currentTime }, size2cpy)
  else return (info, size2cpy)

/-- `STATEREPORT_GETTRANSITIONS`. -/
def statereportGettransitions (stateIdx : UInt32) (info : Info n) : Except Fault UInt64 := do
  let nelements ← info.nelements
  if stateIdx.toNat < nelements.toNat then
    let i ← index n stateIdx.toNat
    return (info.elem i).values.intransitions
  else return kIOReportInvalidValue

/-- `STATEREPORT_GETTICKS`. -/
def statereportGetticks (stateIdx : UInt32) (info : Info n) : Except Fault UInt64 := do
  let nelements ← info.nelements
  if stateIdx.toNat < nelements.toNat then
    let i ← index n stateIdx.toNat
    return (info.elem i).values.upticks
  else return kIOReportInvalidValue

/-- The macros that are used on an initialised buffer. -/
inductive Op where
  | setstate (newStateIdx : UInt32) (changeTime : UInt64)
  | updateprep (currentTime : UInt64)
  | gettransitions (stateIdx : UInt32)
  | getticks (stateIdx : UInt32)

/-- One macro. -/
def Info.step (info : Info n) : Op → Except Fault (Info n)
  | .setstate newStateIdx changeTime => statereportSetstate newStateIdx changeTime info
  | .updateprep currentTime => do
    let (info, _) ← statereportUpdateprep currentTime info
    return info
  | .gettransitions stateIdx => do
    let _ ← statereportGettransitions stateIdx info
    return info
  | .getticks stateIdx => do
    let _ ← statereportGetticks stateIdx info
    return info

/-- A run of macros. -/
def Info.exec (info : Info n) : List Op → Except Fault (Info n)
  | [] => .ok info
  | op :: ops => do
    let info ← info.step op
    info.exec ops

end MacKernel.StateReport
