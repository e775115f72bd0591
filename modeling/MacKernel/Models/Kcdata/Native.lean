import MacKernel.Core.Memory

/-!
# Kcdata items and their safe iterators

`kcdata_iter_t` and the walk over a buffer of items, for any pointer width: the
sums in the validity test are taken in `uintptr_t`, so they wrap at that width.
The header is read from memory at every use, as the source does.
-/

namespace MacKernel.Kcdata

/-- `sizeof(struct kcdata_item)`: type, size and flags before the data. -/
def kcdataItemSize : Nat := 16

/-- `KCDATA_TYPE_ARRAY`. -/
def kcdataTypeArray : UInt32 := 0x11

/-- `KCDATA_TYPE_ARRAY_PAD0`, first of the sixteen padded array types. -/
def kcdataTypeArrayPad0 : UInt32 := 0x20

/-- `KCDATA_TYPE_BUFFER_END`. -/
def kcdataTypeBufferEnd : UInt32 := 0xF19158ED

/-- `KCDATA_TYPE_CONTAINER_BEGIN`. -/
def kcdataTypeContainerBegin : UInt32 := 0x13

/-- `STACKSHOT_KCTYPE_THREAD_SNAPSHOT`. -/
def stackshotKctypeThreadSnapshot : UInt32 := 0x906

/-- `STACKSHOT_KCTYPE_SHAREDCACHE_LOADINFO`. -/
def stackshotKctypeSharedcacheLoadinfo : UInt32 := 0x908

/-- `sizeof(struct thread_snapshot_v2)`. -/
def threadSnapshotV2Size : UInt32 := 0x68

/-- `sizeof(struct dyld_uuid_info_64)`. -/
def dyldUuidInfo64Size : UInt32 := 24

/-- `KCDATA_FLAGS_STRUCT_PADDING_MASK`. -/
def kcdataFlagsStructPaddingMask : UInt64 := 0xf

/-- `KCDATA_FLAGS_STRUCT_HAS_PADDING`. -/
def kcdataFlagsStructHasPadding : UInt64 := 0x80

/-- `kcdata_iter_t`. -/
structure KcdataIter (w : Nat) where
  item : BitVec w
  stop : BitVec w
  deriving DecidableEq, Repr

variable {w : Nat}

/-- `iter.item->type`. -/
def KcdataIter.rawType (m : Memory w) (iter : KcdataIter w) : Except Fault UInt32 :=
  m.readU32 iter.item

/-- `iter.item->size`. -/
def KcdataIter.size (m : Memory w) (iter : KcdataIter w) : Except Fault UInt32 :=
  m.readU32 (iter.item + 4)

/-- `iter.item->flags`. -/
def KcdataIter.flags (m : Memory w) (iter : KcdataIter w) : Except Fault UInt64 :=
  m.readU64 (iter.item + 8)

/-- `kcdata_iter`. -/
def kcdataIter (buffer size : BitVec w) : KcdataIter w := ⟨buffer, buffer + size⟩

/-- `kcdata_invalid_iter`. -/
def kcdataInvalidIter : KcdataIter w := ⟨0, 0⟩

/-- `kcdata_iter_valid`: the header is in bounds, and then the payload is. -/
def kcdataIterValid (m : Memory w) (iter : KcdataIter w) : Except Fault Bool :=
  if iter.item + BitVec.ofNat w kcdataItemSize ≤ iter.stop then do
    let size ← iter.size m
    return iter.item + BitVec.ofNat w kcdataItemSize + BitVec.ofNat w size.toNat ≤ iter.stop
  else return false

/-- `kcdata_iter_next`. -/
def kcdataIterNext (m : Memory w) (iter : KcdataIter w) : Except Fault (KcdataIter w) := do
  let size ← iter.size m
  return { iter with
    item := iter.item + BitVec.ofNat w kcdataItemSize + BitVec.ofNat w size.toNat }

/-- `kcdata_iter_type`: the padded array types are read as arrays. -/
def kcdataIterType (m : Memory w) (iter : KcdataIter w) : Except Fault UInt32 := do
  let type ← iter.rawType m
  if type &&& ~~~0xf = kcdataTypeArrayPad0 then return kcdataTypeArray else return type

/-- `kcdata_calc_padding`. -/
def kcdataCalcPadding (size : UInt32) : UInt32 := (-size) &&& 0xf

/-- `kcdata_flags_get_padding`. -/
def kcdataFlagsGetPadding (flags : UInt64) : UInt32 :=
  (flags &&& kcdataFlagsStructPaddingMask).toUInt32

/-- `kcdata_iter_is_legacy_item`. -/
def kcdataIterIsLegacyItem (m : Memory w) (iter : KcdataIter w) (legacySize : UInt32) :
    Except Fault Bool := do
  if (← iter.size m) = legacySize + kcdataCalcPadding legacySize then
    let flags ← iter.flags m
    return flags &&& (kcdataFlagsStructPaddingMask ||| kcdataFlagsStructHasPadding) = 0
  else return false

/-- The default case of `kcdata_iter_size`. -/
def kcdataIterPaddedSize (m : Memory w) (iter : KcdataIter w) : Except Fault UInt32 := do
  let size ← iter.size m
  let padding := kcdataFlagsGetPadding (← iter.flags m)
  return if size < padding then 0 else size - padding

/-- The two cases of `kcdata_iter_size` with a size that predates recorded padding. -/
def kcdataIterLegacySize (m : Memory w) (iter : KcdataIter w) (legacySize : UInt32) :
    Except Fault UInt32 := do
  if ← kcdataIterIsLegacyItem m iter legacySize then return legacySize
  else kcdataIterPaddedSize m iter

/-- `kcdata_iter_size`. -/
def kcdataIterSize (m : Memory w) (iter : KcdataIter w) : Except Fault UInt32 := do
  let type ← kcdataIterType m iter
  if type = kcdataTypeArray ∨ type = kcdataTypeContainerBegin then iter.size m
  else if type = stackshotKctypeThreadSnapshot then
    kcdataIterLegacySize m iter threadSnapshotV2Size
  else if type = stackshotKctypeSharedcacheLoadinfo then
    kcdataIterLegacySize m iter dyldUuidInfo64Size
  else kcdataIterPaddedSize m iter

/-- `kcdata_iter_array_elem_type`. -/
def kcdataIterArrayElemType (m : Memory w) (iter : KcdataIter w) : Except Fault UInt32 := do
  return ((← iter.flags m) >>> 32).toUInt32

/-- `kcdata_iter_array_elem_count`. -/
def kcdataIterArrayElemCount (m : Memory w) (iter : KcdataIter w) : Except Fault UInt32 := do
  return (← iter.flags m).toUInt32

/-- `kcdata_iter_array_size_switch`: the element sizes that arrays of `KCDATA_TYPE_ARRAY`
can have. -/
def kcdataIterArraySizeSwitch (m : Memory w) (iter : KcdataIter w) : Except Fault UInt32 := do
  match ← kcdataIterArrayElemType m iter with
  -- KCDATA_TYPE_LIBRARY_LOADINFO and its 64-bit variant
  | 0x30 => return 20
  | 0x31 => return 24
  -- STACKSHOT_KCTYPE_KERN_STACKFRAME and STACKSHOT_KCTYPE_USER_STACKFRAME
  | 0x90A | 0x90C => return 8
  | 0x90B | 0x90D => return 16
  -- STACKSHOT_KCTYPE_DONATING_PIDS
  | 0x907 => return 4
  -- STACKSHOT_KCTYPE_THREAD_DELTA_SNAPSHOT
  | 0x941 => return 48
  -- TASK_CRASHINFO_CRASHED_THREADID
  | 0x81A => return 8
  | _ => return 0

/-- `kcdata_iter_array_valid`. -/
def kcdataIterArrayValid (m : Memory w) (iter : KcdataIter w) : Except Fault Bool := do
  if ¬(← kcdataIterValid m iter) then return false
  else if (← kcdataIterType m iter) ≠ kcdataTypeArray then return false
  else
    let count ← kcdataIterArrayElemCount m iter
    let size ← iter.size m
    let type ← iter.rawType m
    if count = 0 then return size = 0
    else if type = kcdataTypeArray then
      let elemSize ← kcdataIterArraySizeSwitch m iter
      if elemSize = 0 then return false
      else return count ≤ size / elemSize ∧ size % count < 16
    else return type &&& 0xf ≤ size ∧ count ≤ size - (type &&& 0xf) ∧
      (size - (type &&& 0xf)) % count = 0

/-- `kcdata_iter_array_elem_size`. -/
def kcdataIterArrayElemSize (m : Memory w) (iter : KcdataIter w) : Except Fault UInt32 := do
  let type ← iter.rawType m
  if type = kcdataTypeArray then kcdataIterArraySizeSwitch m iter
  else
    let count ← kcdataIterArrayElemCount m iter
    if count = 0 then return 0
    else return ((← iter.size m) - (type &&& 0xf)) / count

/-- The condition of `KCDATA_ITER_FOREACH`. -/
def foreachCond (m : Memory w) (iter : KcdataIter w) : Except Fault Bool := do
  if ← kcdataIterValid m iter then
    let type ← iter.rawType m
    return type ≠ kcdataTypeBufferEnd
  else return false

/-- One pass of `KCDATA_ITER_FOREACH` with a body that records its iterator. -/
def foreachBody (m : Memory w) (s : List (KcdataIter w) × KcdataIter w) :
    Except Fault ((List (KcdataIter w) × KcdataIter w) ⊕ (List (KcdataIter w) × KcdataIter w)) := do
  if ← foreachCond m s.2 then
    let next ← kcdataIterNext m s.2
    return .inl (s.1 ++ [s.2], next)
  else return .inr s

/-- `KCDATA_ITER_FOREACH`: the iterators its body sees and the one it ends with. -/
def kcdataIterForeach (m : Memory w) (iter : KcdataIter w) :
    Except Fault (List (KcdataIter w) × KcdataIter w) :=
  loop (foreachBody m) (2 ^ w) ([], iter)

/-- One pass of the search: return at a match, else move on. -/
def findTypeBody (m : Memory w) (type : UInt32) (iter : KcdataIter w) :
    Except Fault (KcdataIter w ⊕ KcdataIter w) := do
  if ← foreachCond m iter then
    if (← kcdataIterType m iter) = type then return .inr iter
    else return .inl (← kcdataIterNext m iter)
  else return .inr kcdataInvalidIter

/-- `kcdata_iter_find_type`. -/
def kcdataIterFindType (m : Memory w) (iter : KcdataIter w) (type : UInt32) :
    Except Fault (KcdataIter w) :=
  loop (findTypeBody m type) (2 ^ w) iter

end MacKernel.Kcdata
