import MacKernel.Core.Run
import Mathlib.Data.BitVec
import Mathlib.Data.Fintype.Card
import Mathlib.Data.List.Basic

/-!
# Byte memories

A memory maps addresses of a fixed pointer width to bytes; reading an unmapped
byte is a fault. A buffer memory maps the bytes of one list and nothing else, so
a computation that does not fault on it reads inside the buffer only.
-/

namespace MacKernel

/-- No list of different addresses is longer than the address space. -/
theorem length_le_of_nodup {w : Nat} {l : List (BitVec w)} (h : l.Nodup) : l.length ≤ 2 ^ w := by
  have hmap : (l.map BitVec.toFin).Nodup := h.map fun a b hab => BitVec.toFin_inj.mp hab
  have hcard := hmap.length_le_card
  rwa [List.length_map, Fintype.card_fin] at hcard

/-- Byte-addressed memory with `w`-bit addresses. -/
def Memory (w : Nat) : Type := BitVec w → Option UInt8

namespace Memory

variable {w : Nat}

/-- The memory in which exactly the bytes of one buffer are mapped. -/
def ofBuffer (base : BitVec w) (bytes : List UInt8) : Memory w :=
  fun a => bytes[(a - base).toNat]?

/-- The memory in which every address is mapped. -/
def flat (byte : BitVec w → UInt8) : Memory w := fun a => some (byte a)

/-- Read one byte. -/
def readByte (m : Memory w) (a : BitVec w) : Except Fault Nat :=
  match m a with
  | some b => .ok b.toNat
  | none => .error .unmapped

/-- Read `n` bytes as a little-endian number. -/
def readLE (m : Memory w) : Nat → BitVec w → Except Fault Nat
  | 0, _ => return 0
  | n + 1, a => do
    let low ← m.readByte a
    let high ← m.readLE n (a + 1)
    return low + 256 * high

/-- Read a 32-bit unsigned integer. -/
def readU32 (m : Memory w) (a : BitVec w) : Except Fault UInt32 := do
  return UInt32.ofNat (← m.readLE 4 a)

/-- Read a 64-bit unsigned integer. -/
def readU64 (m : Memory w) (a : BitVec w) : Except Fault UInt64 := do
  return UInt64.ofNat (← m.readLE 8 a)

/-- A read succeeds when all its bytes are mapped. -/
theorem readLE_ok {m : Memory w} {n : Nat} {a : BitVec w}
    (h : ∀ i < n, (m (a + BitVec.ofNat w i)).isSome) : ∃ v, m.readLE n a = .ok v := by
  induction n generalizing a with
  | zero => exact ⟨0, rfl⟩
  | succ n ih =>
    have h0 : (m a).isSome := by simpa using h 0 (by omega)
    obtain ⟨b, hb⟩ := Option.isSome_iff_exists.mp h0
    obtain ⟨v, hv⟩ := ih (a := a + 1) (by
      intro i hi
      have := h (i + 1) (by omega)
      rwa [BitVec.ofNat_add, BitVec.add_comm (BitVec.ofNat w i), ← BitVec.add_assoc] at this)
    refine ⟨b.toNat + 256 * v, ?_⟩
    simp only [readLE, readByte, hb, hv]
    rfl

/-- A read of four mapped bytes succeeds. -/
theorem readU32_ok {m : Memory w} {a : BitVec w}
    (h : ∀ i < 4, (m (a + BitVec.ofNat w i)).isSome) : ∃ v, m.readU32 a = .ok v := by
  obtain ⟨v, hv⟩ := readLE_ok h
  refine ⟨UInt32.ofNat v, ?_⟩
  simp only [readU32, hv]
  rfl

section Holds

/-- The bytes stand in memory from an address on. -/
def Holds (m : Memory w) (a : BitVec w) (bytes : List UInt8) : Prop :=
  ∀ i (hi : i < bytes.length), m (a + BitVec.ofNat w i) = some bytes[i]

/-- The `n` low bytes of a number, least significant byte first. -/
def leBytes : Nat → Nat → List UInt8
  | 0, _ => []
  | n + 1, v => UInt8.ofNat v :: leBytes n (v / 256)

@[simp] theorem length_leBytes (n v : Nat) : (leBytes n v).length = n := by
  induction n generalizing v with
  | zero => rfl
  | succ n ih => simp only [leBytes, List.length_cons, ih]

/-- What a memory holds, it holds the front of. -/
theorem Holds.left {m : Memory w} {a : BitVec w} {bytes rest : List UInt8}
    (h : m.Holds a (bytes ++ rest)) : m.Holds a bytes := by
  intro i hi
  rw [h i (by simp only [List.length_append]; omega), List.getElem_append_left hi]

/-- What a memory holds, it holds the rest of further on. -/
theorem Holds.right {m : Memory w} {a : BitVec w} {bytes rest : List UInt8}
    (h : m.Holds a (bytes ++ rest)) : m.Holds (a + BitVec.ofNat w bytes.length) rest := by
  intro i hi
  have hb := h (bytes.length + i) (by simp only [List.length_append]; omega)
  rw [List.getElem_append_right (by omega)] at hb
  simp only [Nat.add_sub_cancel_left] at hb
  rw [BitVec.add_assoc, ← BitVec.ofNat_add, hb]

/-- A number is read back from its bytes. -/
theorem Holds.readLE {m : Memory w} {a : BitVec w} {n v : Nat} (h : m.Holds a (leBytes n v)) :
    m.readLE n a = .ok (v % 256 ^ n) := by
  induction n generalizing a v with
  | zero => simp only [Memory.readLE, Nat.pow_zero, Nat.mod_one]; rfl
  | succ n ih =>
    have hbyte : m a = some (UInt8.ofNat v) := by
      have h0 := h 0 (by simp [leBytes])
      rwa [BitVec.add_zero] at h0
    have hrest : m.Holds (a + 1) (leBytes n (v / 256)) := by
      have happend : m.Holds a ([UInt8.ofNat v] ++ leBytes n (v / 256)) := h
      exact happend.right
    have hval : (UInt8.ofNat v).toNat + 256 * (v / 256 % 256 ^ n) = v % 256 ^ (n + 1) := by
      have hpow : 256 ^ (n + 1) = 256 * 256 ^ n := Nat.pow_succ'
      rw [UInt8.toNat_ofNat', hpow]
      exact Nat.mod_mul.symm
    simp only [Memory.readLE, readByte, hbyte, ih hrest, ok_bind]
    exact congrArg Except.ok hval

/-- A 32-bit word that was stored is read back. -/
theorem Holds.readU32 {m : Memory w} {a : BitVec w} {v : UInt32}
    (h : m.Holds a (leBytes 4 v.toNat)) : m.readU32 a = .ok v := by
  have hv : v.toNat % 256 ^ 4 = v.toNat := Nat.mod_eq_of_lt v.toNat_lt
  simp only [Memory.readU32, h.readLE, ok_bind, hv, UInt32.ofNat_toNat]
  rfl

/-- A 64-bit word that was stored is read back. -/
theorem Holds.readU64 {m : Memory w} {a : BitVec w} {v : UInt64}
    (h : m.Holds a (leBytes 8 v.toNat)) : m.readU64 a = .ok v := by
  have hv : v.toNat % 256 ^ 8 = v.toNat := Nat.mod_eq_of_lt v.toNat_lt
  simp only [Memory.readU64, h.readLE, ok_bind, hv, UInt64.ofNat_toNat]
  rfl

end Holds

section Agreement

variable {m : Memory w} {byte : BitVec w → UInt8} {a : BitVec w} {n : Nat}

/-- The `n` addresses from `a` on are mapped and hold the given bytes; nothing is said of
the others. -/
def Agrees (m : Memory w) (byte : BitVec w → UInt8) (a : BitVec w) (n : Nat) : Prop :=
  ∀ i < n, m (a + BitVec.ofNat w i) = some (byte (a + BitVec.ofNat w i))

/-- A memory that is mapped everywhere agrees with its bytes. -/
theorem agrees_flat (byte : BitVec w → UInt8) (a : BitVec w) (n : Nat) :
    (flat byte).Agrees byte a n := fun _ _ => rfl

/-- What agrees on a range agrees on a part of it. -/
theorem Agrees.drop {k l : Nat} (h : m.Agrees byte a n) (hk : k + l ≤ n) :
    m.Agrees byte (a + BitVec.ofNat w k) l := by
  intro i hi
  rw [BitVec.add_assoc, ← BitVec.ofNat_add]
  exact h (k + i) (by omega)

/-- A byte is read as it is. -/
theorem Agrees.readByte (h : m.Agrees byte a (n + 1)) : m.readByte a = .ok (byte a).toNat := by
  have h0 : m a = some (byte a) := by simpa using h 0 (Nat.succ_pos n)
  rw [Memory.readByte, h0]

/-- A read is decided by the bytes it covers. -/
theorem Agrees.readLE (h : m.Agrees byte a n) : m.readLE n a = (flat byte).readLE n a := by
  induction n generalizing a with
  | zero => rfl
  | succ n ih =>
    have hrest : m.Agrees byte (a + 1) n := h.drop (k := 1) (Nat.add_comm 1 n).le
    simp only [Memory.readLE, h.readByte, (agrees_flat byte a (n + 1)).readByte, ih hrest]

/-- A 32-bit word is read as if everything was mapped. -/
theorem Agrees.readU32 (h : m.Agrees byte a 4) : m.readU32 a = (flat byte).readU32 a := by
  rw [Memory.readU32, Memory.readU32, h.readLE]

/-- A 64-bit word is read as if everything was mapped. -/
theorem Agrees.readU64 (h : m.Agrees byte a 8) : m.readU64 a = (flat byte).readU64 a := by
  rw [Memory.readU64, Memory.readU64, h.readLE]

end Agreement

section Strings

variable {m : Memory w} {byte : BitVec w → UInt8} {s : BitVec w} {n : Nat}

/-- `strnlen`: the bytes before the first NUL, and at most `maxlen` of them. -/
def strnlen (m : Memory w) (s : BitVec w) : Nat → Except Fault Nat
  | 0 => return 0
  | maxlen + 1 => do
    if (← m.readByte s) = 0 then return 0
    else return (← m.strnlen (s + 1) maxlen) + 1

/-- The length is decided by the bytes in front of the limit. -/
theorem Agrees.strnlen (h : m.Agrees byte s n) : m.strnlen s n = (flat byte).strnlen s n := by
  induction n generalizing s with
  | zero => rfl
  | succ n ih =>
    have hrest : m.Agrees byte (s + 1) n := h.drop (k := 1) (Nat.add_comm 1 n).le
    simp only [Memory.strnlen, h.readByte, (agrees_flat byte s (n + 1)).readByte, ih hrest]

/-- The length ends at the limit or at the first NUL in front of it. -/
theorem strnlen_flat (byte : BitVec w → UInt8) (s : BitVec w) (n : Nat) :
    ∃ k, (flat byte).strnlen s n = .ok k ∧ k ≤ n ∧
      (∀ i < k, byte (s + BitVec.ofNat w i) ≠ 0) ∧
      (k < n → byte (s + BitVec.ofNat w k) = 0) := by
  induction n generalizing s with
  | zero =>
    refine ⟨0, rfl, le_rfl, fun i hi => ?_, fun h => ?_⟩
    · exact absurd hi (Nat.not_lt_zero i)
    · exact absurd h (lt_irrefl 0)
  | succ n ih =>
    rw [strnlen, (agrees_flat byte s (n + 1)).readByte]
    by_cases hzero : byte s = 0
    · refine ⟨0, ?_, Nat.zero_le _, fun i hi => absurd hi (Nat.not_lt_zero i), fun _ => ?_⟩
      · simp [hzero]
        rfl
      · simpa using hzero
    · obtain ⟨k, hk, hle, hbefore, hat⟩ := ih (s + 1)
      have hshift : ∀ i, s + 1 + BitVec.ofNat w i = s + BitVec.ofNat w (i + 1) := by
        intro i
        rw [BitVec.ofNat_add, BitVec.add_comm (BitVec.ofNat w i), ← BitVec.add_assoc]
        rfl
      have hne : (byte s).toNat ≠ 0 := fun h => hzero (UInt8.toNat.inj h)
      refine ⟨k + 1, ?_, Nat.succ_le_succ hle, ?_, ?_⟩
      · simp only [ok_bind, if_neg hne, hk]
        rfl
      · intro i hi
        cases i with
        | zero => simpa using hzero
        | succ i =>
          rw [← hshift]
          exact hbefore i (Nat.lt_of_succ_lt_succ hi)
      · intro hlt
        rw [← hshift]
        exact hat (Nat.lt_of_succ_lt_succ hlt)

/-- The length is below the limit exactly when there is a NUL in front of the limit. -/
theorem strnlen_lt_iff (byte : BitVec w → UInt8) (s : BitVec w) (n : Nat) :
    ∃ k, (flat byte).strnlen s n = .ok k ∧ (k < n ↔ ∃ i < n, byte (s + BitVec.ofNat w i) = 0) := by
  obtain ⟨k, hk, -, hbefore, hat⟩ := strnlen_flat byte s n
  refine ⟨k, hk, fun hlt => ⟨k, hlt, hat hlt⟩, ?_⟩
  rintro ⟨i, hi, hzero⟩
  by_contra hnot
  exact hbefore i (by omega) hzero

end Strings

/-- Every address of the buffer is mapped in its memory. -/
theorem ofBuffer_isSome {base a : BitVec w} {bytes : List UInt8} (hlo : base.toNat ≤ a.toNat)
    (hhi : a.toNat < base.toNat + bytes.length) : (ofBuffer base bytes a).isSome := by
  have hsub : (a - base).toNat = a.toNat - base.toNat := BitVec.toNat_sub_of_le hlo
  rw [ofBuffer, hsub, List.getElem?_eq_getElem (by omega)]
  rfl

/-- Only the addresses of the buffer are mapped in its memory. -/
theorem mem_of_ofBuffer_isSome {base a : BitVec w} {bytes : List UInt8}
    (hend : base.toNat + bytes.length ≤ 2 ^ w) (h : (ofBuffer base bytes a).isSome) :
    base.toNat ≤ a.toNat ∧ a.toNat < base.toNat + bytes.length := by
  have hlt : (a - base).toNat < bytes.length := by
    by_contra hge
    rw [ofBuffer, List.getElem?_eq_none (Nat.le_of_not_lt hge)] at h
    cases h
  have ha := a.isLt
  rcases Nat.lt_or_ge a.toNat base.toNat with hlow | hge
  · rw [BitVec.toNat_sub, Nat.mod_eq_of_lt (by omega)] at hlt
    omega
  · rw [BitVec.toNat_sub_of_le hge] at hlt
    omega

/-- A read that succeeds finds its first byte mapped. -/
theorem isSome_of_readU32 {m : Memory w} {a : BitVec w} {v : UInt32} (h : m.readU32 a = .ok v) :
    (m a).isSome := by
  obtain ⟨n, hn, -⟩ := bind_eq_ok.mp h
  obtain ⟨low, hlow, -⟩ := bind_eq_ok.mp hn
  cases hm : m a with
  | some b => rfl
  | none =>
    rw [readByte, hm] at hlow
    cases hlow

end Memory

end MacKernel
