import MacKernel.Core.Copy

/-!
# Copies of Skywalk

`sk_copy64_4x` and its siblings copy a length that is a multiple of their unit, word by word
in an unrolled loop up to a threshold and with `memcpy` above it. The threshold is a constant,
or a variable in development kernels. Loads and stores take the bytes of a word in one order.
-/

namespace MacKernel.UnrolledCopy

/-- The variables of the loop. -/
structure CopyState where
  l : BitVec 64
  src : BitVec 64
  dst : BitVec 64
  mem : Memory 64

/-- `*dst++ = *src++`, so many times, for words of `word` bytes. -/
def copyWords (word : Nat) : Nat → CopyState → Except Fault CopyState
  | 0, s => .ok s
  | count + 1, s => do
    let mem ← s.mem.copyBytes word s.src s.dst
    copyWords word count
      { s with
        src := s.src + BitVec.ofNat 64 word
        dst := s.dst + BitVec.ofNat 64 word
        mem := mem }

/-- One pass of `while ((ssize_t)(l -= unit) >= 0)`. -/
def copyBody (unit word count : Nat) (s : CopyState) :
    Except Fault (CopyState ⊕ Memory 64) := do
  let l := s.l - BitVec.ofNat 64 unit
  if 0 ≤ l.toInt then return .inl (← copyWords word count { s with l := l })
  else return .inr s.mem

/-- `memcpy`. -/
def memcpy (dst src n : BitVec 64) (m : Memory 64) : Except Fault (Memory 64) :=
  m.copyBytes n.toNat src dst

/-- The copy with `count` words of `word` bytes in each pass. -/
def skCopy64 (unit word count : Nat) (skCopyThres src dst l : BitVec 64) (m : Memory 64) :
    Except Fault (Memory 64) :=
  if l ≤ skCopyThres then loop (copyBody unit word count) (l.toNat + 1) ⟨l, src, dst, m⟩
  else memcpy dst src l m

/-- `sk_copy64_4x`. -/
def skCopy64_4x (skCopyThres src dst l : BitVec 64) (m : Memory 64) : Except Fault (Memory 64) :=
  skCopy64 4 4 1 skCopyThres src dst l m

/-- `sk_copy64_8x`. -/
def skCopy64_8x (skCopyThres src dst l : BitVec 64) (m : Memory 64) : Except Fault (Memory 64) :=
  skCopy64 8 8 1 skCopyThres src dst l m

/-- `sk_copy64_32x`. -/
def skCopy64_32x (skCopyThres src dst l : BitVec 64) (m : Memory 64) : Except Fault (Memory 64) :=
  skCopy64 32 8 4 skCopyThres src dst l m

/-- `sk_copy64_64x`. -/
def skCopy64_64x (skCopyThres src dst l : BitVec 64) (m : Memory 64) : Except Fault (Memory 64) :=
  skCopy64 64 8 8 skCopyThres src dst l m

end MacKernel.UnrolledCopy
