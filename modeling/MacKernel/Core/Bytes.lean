import MacKernel.Core.Fields
import MacKernel.Core.Memory

/-!
# Bytes of object images

The bytes of an image one by one, stores of byte strings into it, and reads of byte
strings from memory. A store reaches exactly the bytes it is given, so images are
compared byte by byte and fields elsewhere keep their values.
-/

namespace MacKernel

section Images

variable {n len : Nat}

/-- Byte `i` of an image. -/
def byteAt (x : BitVec n) (i : Nat) : UInt8 := ⟨x.extractLsb' (8 * i) 8⟩

/-- Store one byte; a byte outside the image is not stored. -/
def setByte (i : Nat) (b : UInt8) (x : BitVec n) : BitVec n :=
  if h : 8 * i + 8 ≤ n then (⟨8 * i, h⟩ : Field n 8).set b.toBitVec x else x

/-- Store a string of bytes from byte `i` on. -/
def putBytes (i : Nat) : List UInt8 → BitVec n → BitVec n
  | [], x => x
  | b :: bytes, x => putBytes (i + 1) bytes (setByte i b x)

theorem getLsbD_byteAt (x : BitVec n) (i j : Nat) :
    (byteAt x i).toBitVec.getLsbD j = (decide (j < 8) && x.getLsbD (8 * i + j)) := by
  rw [byteAt, BitVec.getLsbD_extractLsb']

theorem getLsbD_setByte {i : Nat} (h : 8 * i + 8 ≤ n) (b : UInt8) (x : BitVec n) (j : Nat) :
    (setByte i b x).getLsbD j =
      if 8 * i ≤ j ∧ j < 8 * i + 8 then b.toBitVec.getLsbD (j - 8 * i) else x.getLsbD j := by
  rw [setByte, dif_pos h, Field.getLsbD_set]

theorem byteAt_setByte {i : Nat} (h : 8 * i + 8 ≤ n) (b : UInt8) (x : BitVec n) (j : Nat) :
    byteAt (setByte i b x) j = if j = i then b else byteAt x j := by
  apply UInt8.toBitVec_inj.mp
  apply BitVec.eq_of_getLsbD_eq
  intro k hk
  rw [getLsbD_byteAt, getLsbD_setByte h, decide_eq_true hk, Bool.true_and]
  by_cases hj : j = i
  · subst hj
    rw [if_pos ⟨Nat.le_add_right _ _, by omega⟩, if_pos rfl, Nat.add_sub_cancel_left]
  · rw [if_neg (by omega), if_neg hj, getLsbD_byteAt, decide_eq_true hk, Bool.true_and]

/-- A string of bytes is stored at its place, and nothing else is changed. -/
theorem byteAt_putBytes {i : Nat} {bytes : List UInt8} (h : 8 * (i + bytes.length) ≤ n)
    (x : BitVec n) (j : Nat) :
    byteAt (putBytes i bytes x) j =
      if i ≤ j then (bytes[j - i]?).getD (byteAt x j) else byteAt x j := by
  induction bytes generalizing i x with
  | nil => simp [putBytes]
  | cons b bytes ih =>
    rw [List.length_cons] at h
    rw [putBytes, ih (by omega), byteAt_setByte (by omega)]
    rcases Nat.lt_trichotomy j i with hlt | rfl | hgt
    · rw [if_neg (by omega), if_neg (by omega), if_neg (by omega)]
    · rw [if_neg (by omega), if_pos rfl, if_pos le_rfl, Nat.sub_self]
      rfl
    · obtain ⟨k, rfl⟩ : ∃ k, j = i + k + 1 := ⟨j - i - 1, by omega⟩
      have hsub : i + k + 1 - i = k + 1 := by omega
      have hsub' : i + k + 1 - (i + 1) = k := by omega
      rw [if_pos (by omega), if_neg (by omega), if_pos (by omega), hsub, hsub',
        List.getElem?_cons_succ]

/-- A string is stored in two parts, one behind the other. -/
theorem putBytes_append (i : Nat) (front back : List UInt8) (x : BitVec n) :
    putBytes i (front ++ back) x = putBytes (i + front.length) back (putBytes i front x) := by
  induction front generalizing i x with
  | nil => rfl
  | cons b front ih =>
    rw [List.cons_append, putBytes, putBytes, ih, List.length_cons, Nat.add_assoc, Nat.add_comm 1]

/-- A store of bytes does not change the fields outside them. -/
theorem Field.get_putBytes {i : Nat} {bytes : List UInt8} {f : Field n len}
    (h : f.off + len ≤ 8 * i ∨ 8 * (i + bytes.length) ≤ f.off)
    (hfits : 8 * (i + bytes.length) ≤ n) (x : BitVec n) :
    f.get (putBytes i bytes x) = f.get x := by
  induction bytes generalizing i x with
  | nil => rfl
  | cons b bytes ih =>
    rw [List.length_cons] at h hfits
    rw [putBytes, ih (by omega) (by omega), setByte, dif_pos (by omega)]
    exact Field.get_set_of_disjoint (by unfold Field.Disjoint; dsimp only; omega) _ _

/-- A store to a field does not change the bytes outside it. -/
theorem byteAt_set {f : Field n len} {i : Nat} (h : 8 * i + 8 ≤ f.off ∨ f.off + len ≤ 8 * i)
    (v : BitVec len) (x : BitVec n) : byteAt (f.set v x) i = byteAt x i := by
  apply UInt8.toBitVec_inj.mp
  apply BitVec.eq_of_getLsbD_eq
  intro j hj
  rw [getLsbD_byteAt, getLsbD_byteAt, Field.getLsbD_set, if_neg (by omega)]

/-- Images of whole bytes are equal when their bytes are. -/
theorem eq_iff_byteAt (hn : 8 ∣ n) (x y : BitVec n) :
    x = y ↔ ∀ i < n / 8, byteAt x i = byteAt y i := by
  refine ⟨fun h i _ => by rw [h], fun h => BitVec.eq_of_getLsbD_eq fun j hj => ?_⟩
  have hbit := congrArg (fun b : UInt8 => b.toBitVec.getLsbD (j % 8)) (h (j / 8) (by omega))
  have hmod : j % 8 < 8 := Nat.mod_lt _ (by decide)
  simpa only [getLsbD_byteAt, hmod, decide_true, Bool.true_and, Nat.div_add_mod] using hbit

/-- The bytes of an image, in order of their addresses. -/
def bytesOf (x : BitVec n) : List UInt8 := (List.range (n / 8)).map (byteAt x)

@[simp] theorem length_bytesOf (x : BitVec n) : (bytesOf x).length = n / 8 := by
  rw [bytesOf, List.length_map, List.length_range]

theorem bytesOf_inj (hn : 8 ∣ n) {x y : BitVec n} : bytesOf x = bytesOf y ↔ x = y := by
  rw [eq_iff_byteAt hn, bytesOf, bytesOf, List.map_inj_left]
  simp only [List.mem_range]

/-- A field of whole bytes is the same in two images when these bytes are. -/
theorem Field.get_eq_iff_byteAt (f : Field n len) (hoff : 8 ∣ f.off) (hlen : 8 ∣ len)
    {x y : BitVec n} : f.get x = f.get y ↔
      ∀ i, f.off ≤ 8 * i → 8 * i < f.off + len → byteAt x i = byteAt y i := by
  constructor
  · intro h i hlo hhi
    apply UInt8.toBitVec_inj.mp
    apply BitVec.eq_of_getLsbD_eq
    intro j hj
    rw [getLsbD_byteAt, getLsbD_byteAt, getLsbD_eq_of_get_eq h (by omega) (by omega)]
  · intro h
    apply BitVec.eq_of_getLsbD_eq
    intro j hj
    have hbit := congrArg (fun b : UInt8 => b.toBitVec.getLsbD ((f.off + j) % 8))
      (h ((f.off + j) / 8) (by omega) (by omega))
    have hmod : (f.off + j) % 8 < 8 := Nat.mod_lt _ (by decide)
    simp only [getLsbD_byteAt, hmod, decide_true, Bool.true_and, Nat.div_add_mod] at hbit
    rw [getLsbD_get, getLsbD_get, hbit]

/-- `memcmp` of two strings of one length: the difference of the first bytes that differ. -/
def memcmp : List UInt8 → List UInt8 → Int
  | a :: as, b :: bs => if a = b then memcmp as bs else (a.toNat : Int) - b.toNat
  | _, _ => 0

theorem memcmp_eq_zero {as bs : List UInt8} (h : as.length = bs.length) :
    memcmp as bs = 0 ↔ as = bs := by
  induction as generalizing bs with
  | nil =>
    obtain rfl := List.length_eq_zero_iff.mp h.symm
    simp [memcmp]
  | cons a as ih =>
    cases bs with
    | nil => cases h
    | cons b bs =>
      rw [memcmp]
      split
      · next hab => rw [ih (Nat.succ.inj h), hab, List.cons_inj_right]
      · next hab =>
        have hne : a.toNat ≠ b.toNat := fun h => hab (UInt8.toNat.inj h)
        refine iff_of_false (by omega) fun h => hab (List.cons.inj h).1

end Images

namespace Memory

variable {w : Nat}

/-- Read a string of bytes. -/
def readBytes (m : Memory w) : Nat → BitVec w → Except Fault (List UInt8)
  | 0, _ => return []
  | n + 1, a =>
    match m a with
    | some b => do return b :: (← m.readBytes n (a + 1))
    | none => .error .unmapped

theorem holds_cons {m : Memory w} {a : BitVec w} {b : UInt8} {bytes : List UInt8} :
    m.Holds a (b :: bytes) ↔ m a = some b ∧ m.Holds (a + 1) bytes := by
  have hshift : ∀ i, a + 1 + BitVec.ofNat w i = a + BitVec.ofNat w (i + 1) := by
    intro i
    rw [BitVec.ofNat_add, BitVec.add_comm (BitVec.ofNat w i), ← BitVec.add_assoc]
    rfl
  constructor
  · intro h
    have hfirst := h 0 (Nat.zero_lt_succ _)
    rw [BitVec.add_zero] at hfirst
    refine ⟨hfirst, fun i hi => ?_⟩
    rw [hshift]
    exact h (i + 1) (Nat.succ_lt_succ hi)
  · rintro ⟨hb, h⟩ i hi
    cases i with
    | zero =>
      rw [BitVec.add_zero]
      exact hb
    | succ i =>
      rw [← hshift]
      exact h i (Nat.lt_of_succ_lt_succ hi)

/-- A read of bytes returns what the memory holds there. -/
theorem readBytes_eq_ok {m : Memory w} {n : Nat} {a : BitVec w} {bytes : List UInt8} :
    m.readBytes n a = .ok bytes ↔ bytes.length = n ∧ m.Holds a bytes := by
  induction n generalizing a bytes with
  | zero =>
    constructor
    · intro h
      cases h
      exact ⟨rfl, fun i hi => absurd hi (Nat.not_lt_zero i)⟩
    · rintro ⟨hlen, -⟩
      rw [List.length_eq_zero_iff.mp hlen]
      rfl
  | succ n ih =>
    cases hm : m a with
    | none =>
      rw [readBytes, hm]
      constructor
      · intro h
        cases h
      · rintro ⟨hlen, hholds⟩
        cases bytes with
        | nil => cases hlen
        | cons b bytes => cases (holds_cons.mp hholds).1.symm.trans hm
    | some b =>
      rw [readBytes, hm]
      constructor
      · intro h
        obtain ⟨rest, hrest, h⟩ := bind_eq_ok.mp h
        obtain rfl := Except.ok.inj h
        obtain ⟨hlen, hholds⟩ := ih.mp hrest
        exact ⟨by rw [List.length_cons, hlen], holds_cons.mpr ⟨hm, hholds⟩⟩
      · rintro ⟨hlen, hholds⟩
        cases bytes with
        | nil => cases hlen
        | cons b' rest =>
          obtain ⟨hb, hrest⟩ := holds_cons.mp hholds
          obtain rfl := Option.some.inj (hm.symm.trans hb)
          simp only [ih.mpr ⟨Nat.succ.inj hlen, hrest⟩, ok_bind]
          rfl

/-- Bytes held behind one another are held together. -/
theorem Holds.append {m : Memory w} {a : BitVec w} {front back : List UInt8}
    (hfront : m.Holds a front) (hback : m.Holds (a + BitVec.ofNat w front.length) back) :
    m.Holds a (front ++ back) := by
  intro i hi
  by_cases hlt : i < front.length
  · rw [List.getElem_append_left hlt]
    exact hfront i hlt
  · obtain ⟨k, rfl⟩ : ∃ k, i = front.length + k := ⟨i - front.length, by omega⟩
    rw [List.length_append] at hi
    rw [List.getElem_append_right (by omega), BitVec.ofNat_add, ← BitVec.add_assoc,
      hback k (by omega)]
    simp only [Nat.add_sub_cancel_left]

end Memory

end MacKernel
