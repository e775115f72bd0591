import MacKernel.Models.StateReport.Native
import Mathlib.Algebra.Ring.Nat

/-!
# Histogram reports of `IOKit/IOReportMacros.h`

A histogram report buffer is an `IOHistReportInfo`: the width of the buckets and one
element for each bucket. The bound of a bucket is the product of an `int` and an
`unsigned`, so it is an unsigned 32-bit number; it is compared with a signed 64-bit
value. Sums wrap around like the counters.
-/

namespace MacKernel.Histogram

open StateReport (ChannelType index)

/-- `kIOReportFormatHistogram`. -/
def kIOReportFormatHistogram : UInt8 := 3

/-- `IOHistogramReportValues`. -/
@[ext] structure Values where
  bucketHits : UInt64
  bucketMin : Int64
  bucketMax : Int64
  bucketSum : Int64

/-- `IOReportElement`, with the values of a bucket. -/
structure Element where
  providerId : UInt64
  channelId : UInt64
  channelType : ChannelType
  timestamp : UInt64
  values : Values

/-- `IOHistReportInfo`, in a buffer that has room for `n` elements. -/
@[ext] structure Info (n : Nat) where
  bucketWidth : Int32
  elem : Fin n → Element

/-- `HISTREPORT_BUFSIZE`: the header has 4 bytes and each element has 64. -/
def histreportBufsize (nbuckets : Nat) : Nat := 4 + nbuckets * 64

/-- `HISTREPORT_INIT`. `IOREPORT_ABORT` is a fault. -/
def histreportInit (nbuckets : Nat) (bktSize : UInt32) (bufSize : Nat)
    (providerID channelID : UInt64) (cats : UInt16) : Except Fault (Info nbuckets) :=
  if bufSize ≥ histreportBufsize nbuckets then
    .ok {
      bucketWidth := bktSize.toInt32
      elem no := {
        providerId := providerID
        channelId := channelID
        channelType := ⟨kIOReportFormatHistogram, 0, cats, .ofNat nbuckets, .ofNat no⟩
        timestamp := 0
        values := ⟨0, 0, 0, 0⟩ } }
  else .error .assertFailed

/-- `__info->bucketWidth * (__no+1)`, as it is compared with a value. -/
def bucketBound (bucketWidth : Int32) (no : UInt32) : Int64 :=
  (bucketWidth.toUInt32 * (no + 1)).toUInt64.toInt64

/-- What a value does to the bucket that it falls into. -/
def Values.record (rep : Values) (value : Int64) : Values :=
  let rep :=
    if rep.bucketHits = 0 then { rep with bucketMin := value, bucketMax := value }
    else if value < rep.bucketMin then { rep with bucketMin := value }
    else if value > rep.bucketMax then { rep with bucketMax := value }
    else rep
  { rep with bucketSum := rep.bucketSum + value, bucketHits := rep.bucketHits + 1 }

variable {n : Nat}

/-- Record a value in a bucket. -/
def Info.record (info : Info n) (k : Fin n) (value : Int64) : Info n :=
  let e := info.elem k
  { info with elem := Function.update info.elem k { e with values := e.values.record value } }

/-- `elem[0].channel_type.nelements`. -/
def Info.nelements (info : Info n) : Except Fault UInt16 := do
  let i ← index n 0
  return (info.elem i).channelType.nelements

/-- `HISTREPORT_TALLYVALUE`. The number of elements has 16 bits, so `__no` gets no further. -/
def histreportTallyvalue (value : Int64) (info : Info n) : Except Fault (Info n) :=
  loop (fun no : UInt32 => do
    let nelements ← info.nelements
    if no < nelements.toUInt32 then
      if value ≤ bucketBound info.bucketWidth no then
        let k ← index n no.toNat
        return .inr (info.record k value)
      else return .inl (no + 1)
    else return .inr info) (2 ^ 16) 0

/-- A sequence of values. -/
def Info.tallyAll (info : Info n) : List Int64 → Except Fault (Info n)
  | [] => .ok info
  | value :: values => do
    let info ← histreportTallyvalue value info
    info.tallyAll values

end MacKernel.Histogram
