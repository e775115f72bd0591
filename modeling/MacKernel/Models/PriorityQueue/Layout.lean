import Mathlib.Data.BitVec
import Mathlib.Logic.Function.Basic

/-!
# Entry layouts of the priority queue

`struct priority_queue_entry` has two definitions. On LP64 the key and the child
pointer are bit-fields of one word, the key a signed one; on 32-bit platforms
they are separate fields. A layout gives what the source reads from an entry and
how it writes each field; it is lawful when every write changes its own field
only, for pointers that survive the packing.
-/

namespace MacKernel.PriorityQueue

/-- The fields of an entry as the source reads them. -/
@[ext] structure Fields (w : Nat) where
  /-- `elt->next`. -/
  next : BitVec w
  /-- `elt->prev`. -/
  prev : BitVec w
  /-- `pqueue_entry_unpack_child(elt)`. -/
  child : BitVec w
  /-- `(priority_queue_key_t)(elt->key)`. -/
  key : UInt8

/-- One definition of `struct priority_queue_entry`. -/
class EntryLayout (E : Type) (w : outParam Nat) where
  fields : E → Fields w
  /-- The value of `(int)elt->key` for the stored key bits. -/
  keyInt : UInt8 → Int
  setNext : E → BitVec w → E
  setPrev : E → BitVec w → E
  /-- `pqueue_entry_pack_child`. -/
  packChild : E → BitVec w → E
  setKey : E → UInt8 → E
  /-- Pointers that are unpacked as they were packed. -/
  Packable : BitVec w → Prop

/-- Every write of a field is read back and changes no other field. -/
class LawfulLayout (E : Type) (w : outParam Nat) [EntryLayout E w] : Prop where
  fields_setNext : ∀ (e : E) (p : BitVec w),
    EntryLayout.fields (EntryLayout.setNext e p) = { EntryLayout.fields e with next := p }
  fields_setPrev : ∀ (e : E) (p : BitVec w),
    EntryLayout.fields (EntryLayout.setPrev e p) = { EntryLayout.fields e with prev := p }
  fields_packChild : ∀ (e : E) (p : BitVec w), EntryLayout.Packable E p →
    EntryLayout.fields (EntryLayout.packChild e p) = { EntryLayout.fields e with child := p }
  fields_setKey : ∀ (e : E) (k : UInt8),
    EntryLayout.fields (EntryLayout.setKey e k) = { EntryLayout.fields e with key := k }
  packable_zero : EntryLayout.Packable E (0 : BitVec w)

/-- The LP64 entry: `key` and `child` share the word, the key in its low byte. -/
structure EntryLP64 where
  next : BitVec 64
  prev : BitVec 64
  /-- `long key : 8` and `long child : 56`. -/
  word : BitVec 64
  deriving DecidableEq, Repr, Inhabited

/-- The 32-bit entry, with a byte of its own for the key. -/
structure EntryILP32 where
  next : BitVec 32
  prev : BitVec 32
  child : BitVec 32
  key : UInt8
  deriving DecidableEq, Repr, Inhabited

/-- The child bit-field is a signed 56-bit number that unpacking sign-extends, and
the key bit-field is a signed 8-bit number. -/
instance : EntryLayout EntryLP64 64 where
  fields e := ⟨e.next, e.prev, (e.word.extractLsb' 8 56).signExtend 64,
    ⟨e.word.extractLsb' 0 8⟩⟩
  keyInt k := k.toBitVec.toInt
  setNext e p := { e with next := p }
  setPrev e p := { e with prev := p }
  packChild e p := { e with word := p.setWidth 56 ++ e.word.extractLsb' 0 8 }
  setKey e k := { e with word := e.word.extractLsb' 8 56 ++ k.toBitVec }
  Packable p := (p.setWidth 56).signExtend 64 = p

/-- The 32-bit key is an unsigned byte and the child a whole pointer. -/
instance : EntryLayout EntryILP32 32 where
  fields e := ⟨e.next, e.prev, e.child, e.key⟩
  keyInt k := k.toNat
  setNext e p := { e with next := p }
  setPrev e p := { e with prev := p }
  packChild e p := { e with child := p }
  setKey e k := { e with key := k }
  Packable _ := True

private theorem extractLsb'_append_low (a : BitVec 56) (b : BitVec 8) :
    (a ++ b).extractLsb' 0 8 = b := by
  apply BitVec.eq_of_getLsbD_eq
  intro i hi
  rw [BitVec.getLsbD_extractLsb', BitVec.getLsbD_append]
  simp [hi]

private theorem extractLsb'_append_high (a : BitVec 56) (b : BitVec 8) :
    (a ++ b).extractLsb' 8 56 = a := by
  apply BitVec.eq_of_getLsbD_eq
  intro i hi
  rw [BitVec.getLsbD_extractLsb', BitVec.getLsbD_append]
  simp [hi]

instance : LawfulLayout EntryLP64 64 where
  fields_setNext _ _ := rfl
  fields_setPrev _ _ := rfl
  fields_packChild e p hp := by
    simp only [EntryLayout.fields, EntryLayout.packChild]
    rw [extractLsb'_append_low, extractLsb'_append_high, hp]
  fields_setKey e k := by
    simp only [EntryLayout.fields, EntryLayout.setKey]
    rw [extractLsb'_append_low, extractLsb'_append_high]
  packable_zero := show ((0 : BitVec 64).setWidth 56).signExtend 64 = 0 by decide

instance : LawfulLayout EntryILP32 32 where
  fields_setNext _ _ := rfl
  fields_setPrev _ _ := rfl
  fields_packChild _ _ _ := rfl
  fields_setKey _ _ := rfl
  packable_zero := trivial

end MacKernel.PriorityQueue
