import MacKernel.Models.Kcdata.Native
import Mathlib.Data.List.Chain

/-!
# Walking a kcdata buffer

Wherever the validity test only accepts items that lie in the buffer, the walk
ends, and the loop and the search both follow one path of consecutive items. On
LP64 the test has that property for every buffer far enough below the top of the
address space; on 32-bit pointers it has it exactly when no accepted sum wraps.
-/

namespace MacKernel.Kcdata

variable {w : Nat} {m : Memory w} {iter next last : KcdataIter w} {lo hi : Nat}

theorem toNat_add_ofNat (a : BitVec w) (n : Nat) :
    (a + BitVec.ofNat w n).toNat = (a.toNat + n) % 2 ^ w := by
  rw [BitVec.toNat_add, BitVec.toNat_ofNat, Nat.add_mod_mod]

/-- The address after an item, as the code computes it. -/
private theorem toNat_item_end (iter : KcdataIter w) (size : UInt32) :
    (iter.item + BitVec.ofNat w kcdataItemSize + BitVec.ofNat w size.toNat).toNat =
      (iter.item.toNat + 16 + size.toNat) % 2 ^ w := by
  rw [toNat_add_ofNat, toNat_add_ofNat, Nat.mod_add_mod]
  rfl

/-- The header and the payload of the item lie between `lo` and `hi`, in exact arithmetic. -/
def Inside (m : Memory w) (lo hi : Nat) (iter : KcdataIter w) : Prop :=
  ∃ size, iter.size m = .ok size ∧ lo ≤ iter.item.toNat ∧
    iter.item.toNat + 16 + size.toNat ≤ hi

/-- `next` stands directly behind the item of `iter`. -/
def Follows (m : Memory w) (iter next : KcdataIter w) : Prop :=
  ∃ size, iter.size m = .ok size ∧ next.stop = iter.stop ∧
    next.item.toNat = iter.item.toNat + 16 + size.toNat

/-- The item of `iter` ends no later than the item of `next` begins. -/
def Before (m : Memory w) (iter next : KcdataIter w) : Prop :=
  ∃ size, iter.size m = .ok size ∧ iter.item.toNat + 16 + size.toNat ≤ next.item.toNat

/-- Between `lo` and `hi` the test rejects without a fault, or accepts an item that
can be read and lies in the range. -/
def Sound (m : Memory w) (lo hi : Nat) : Prop :=
  ∀ iter : KcdataIter w, iter.stop.toNat = hi → lo ≤ iter.item.toNat → iter.item.toNat ≤ hi →
    kcdataIterValid m iter = .ok false ∨
      (kcdataIterValid m iter = .ok true ∧ Inside m lo hi iter ∧
        ∃ type, iter.rawType m = .ok type)

/-- The items visited from one iterator up to another, each passing the loop test. -/
inductive Path (m : Memory w) : KcdataIter w → List (KcdataIter w) → KcdataIter w → Prop where
  | nil (iter : KcdataIter w) : Path m iter [] iter
  | cons {iter next last : KcdataIter w} {items : List (KcdataIter w)}
      (test : foreachCond m iter = .ok true) (step : kcdataIterNext m iter = .ok next)
      (rest : Path m next items last) : Path m iter (iter :: items) last

private theorem kcdataIterNext_ok {size : UInt32} (hs : iter.size m = .ok size) :
    kcdataIterNext m iter = .ok { iter with
      item := iter.item + BitVec.ofNat w kcdataItemSize + BitVec.ofNat w size.toNat } := by
  simp only [kcdataIterNext, hs, ok_bind]
  rfl

/-- Moving on from an item in range stands behind it. -/
theorem Inside.follows (hin : Inside m lo hi iter) (hhi : hi < 2 ^ w) :
    ∃ next, kcdataIterNext m iter = .ok next ∧ Follows m iter next := by
  obtain ⟨size, hs, -, hle⟩ := hin
  refine ⟨_, kcdataIterNext_ok hs, size, hs, rfl, ?_⟩
  exact (toNat_item_end iter size).trans (Nat.mod_eq_of_lt (by omega))

/-- An iterator that passes the loop test was accepted and is not the end marker. -/
theorem foreachCond_true (h : foreachCond m iter = .ok true) :
    kcdataIterValid m iter = .ok true ∧
      ∃ type, iter.rawType m = .ok type ∧ type ≠ kcdataTypeBufferEnd := by
  obtain ⟨valid, hv, h⟩ := bind_eq_ok.mp h
  cases valid with
  | false => cases h
  | true =>
    obtain ⟨type, ht, h⟩ := bind_eq_ok.mp h
    exact ⟨hv, type, ht, of_decide_eq_true (Except.ok.inj h)⟩

private theorem foreachCond_true_type (h : foreachCond m iter = .ok true) :
    ∃ type, kcdataIterType m iter = .ok type := by
  obtain ⟨-, type, ht, -⟩ := foreachCond_true h
  simp only [kcdataIterType, ht, ok_bind]
  split <;> exact ⟨_, rfl⟩

/-- The loop test on a sound range: it ends the walk, or the item is in range. -/
theorem Sound.foreachCond_cases (hs : Sound m lo hi) (hstop : iter.stop.toNat = hi)
    (hlo : lo ≤ iter.item.toNat) (hhi : iter.item.toNat ≤ hi) :
    foreachCond m iter = .ok false ∨ (foreachCond m iter = .ok true ∧ Inside m lo hi iter) := by
  rcases hs iter hstop hlo hhi with hv | ⟨hv, hin, type, ht⟩
  · left
    simp only [foreachCond, hv, ok_bind]
    rfl
  · have hc : foreachCond m iter = .ok (decide (type ≠ kcdataTypeBufferEnd)) := by
      simp only [foreachCond, hv, ht, ok_bind, ite_true]
      rfl
    by_cases he : type = kcdataTypeBufferEnd
    · exact Or.inl (by simpa [he] using hc)
    · exact Or.inr ⟨by simpa [he] using hc, hin⟩

/-- On a sound range every walk ends, after at most one item per sixteen bytes. -/
theorem Sound.exists_path (hs : Sound m lo hi) (hw : hi < 2 ^ w) (hstop : iter.stop.toNat = hi)
    (hlo : lo ≤ iter.item.toNat) (hhi : iter.item.toNat ≤ hi) :
    ∃ items last, Path m iter items last ∧ foreachCond m last = .ok false ∧
      items.length ≤ hi - iter.item.toNat := by
  induction hd : hi - iter.item.toNat using Nat.strong_induction_on generalizing iter with
  | _ d ih =>
    rcases hs.foreachCond_cases hstop hlo hhi with hc | ⟨hc, hin⟩
    · exact ⟨[], iter, .nil iter, hc, Nat.zero_le _⟩
    · obtain ⟨next, hn, hf⟩ := hin.follows hw
      obtain ⟨size, hsize, -, hle⟩ := hin
      obtain ⟨size', hsize', hstop', hnext⟩ := hf
      obtain rfl : size' = size := Except.ok.inj (hsize'.symm.trans hsize)
      obtain ⟨items, last, hp, hend, hlen⟩ := ih (hi - next.item.toNat) (by omega)
        (by rw [hstop']; exact hstop) (by omega) (by omega) rfl
      exact ⟨iter :: items, last, .cons hc hn hp, hend, by simp only [List.length_cons]; omega⟩

/-- The loop visits the path and stops at its end. -/
theorem Path.foreach {items : List (KcdataIter w)} (hp : Path m iter items last)
    (hend : foreachCond m last = .ok false) {fuel : Nat} (hfuel : items.length < fuel) :
    loop (foreachBody m) fuel ([], iter) = .ok (items, last) := by
  have hvisits := loop_visits (foreachBody m)
    (fun seen left s => ∃ iter, s = (seen, iter) ∧ Path m iter left last)
    (fun r => r = (items, last)) ?_ ?_ ⟨iter, rfl, hp⟩ hfuel
  · obtain ⟨_, hloop, rfl⟩ := hvisits
    exact hloop
  · rintro s ⟨iter, rfl, hleft⟩
    cases hleft
    refine ⟨(items, last), ?_, rfl⟩
    simp only [foreachBody, hend, ok_bind]
    rfl
  · rintro seen x left s ⟨iter, rfl, hleft⟩
    cases hleft with
    | cons test step rest =>
      refine ⟨(seen ++ [x], _), ?_, _, rfl, rest⟩
      simp only [foreachBody, test, step, ok_bind, ite_true]
      rfl

/-- The search along a path returns its first item of the wanted type, or the
invalid iterator when it has none. -/
theorem Path.findType {items : List (KcdataIter w)} (hp : Path m iter items last)
    (hend : foreachCond m last = .ok false) (type : UInt32) {fuel : Nat}
    (hfuel : items.length < fuel) :
    (∃ pre found post, items = pre ++ found :: post ∧ kcdataIterType m found = .ok type ∧
      (∀ a ∈ pre, ∃ t, kcdataIterType m a = .ok t ∧ t ≠ type) ∧
      loop (findTypeBody m type) fuel iter = .ok found) ∨
    ((∀ a ∈ items, ∃ t, kcdataIterType m a = .ok t ∧ t ≠ type) ∧
      loop (findTypeBody m type) fuel iter = .ok kcdataInvalidIter) := by
  induction hp generalizing fuel with
  | nil iter =>
    obtain ⟨k, rfl⟩ := Nat.exists_eq_add_of_lt hfuel
    refine Or.inr ⟨nofun, loop_done _ ?_⟩
    simp only [findTypeBody, hend, ok_bind]
    rfl
  | @cons iter next last items test step _ ih =>
    obtain ⟨k, rfl⟩ : ∃ k, fuel = k + 1 := ⟨fuel - 1, by simp at hfuel; omega⟩
    obtain ⟨t, ht⟩ := foreachCond_true_type test
    by_cases he : t = type
    · subst he
      refine Or.inl ⟨[], iter, items, rfl, ht, nofun, loop_done _ ?_⟩
      simp only [findTypeBody, test, ht, ok_bind, ite_true]
      rfl
    · have hbody : findTypeBody m type iter = .ok (.inl next) := by
        simp only [findTypeBody, test, ht, step, ok_bind, ite_true, if_neg he]
        rfl
      rw [loop_again k hbody]
      have hhead : ∃ t, kcdataIterType m iter = .ok t ∧ t ≠ type := ⟨t, ht, he⟩
      rcases ih hend (by simp at hfuel; omega) with
        ⟨pre, found, post, rfl, hf, hpre, hl⟩ | ⟨hall, hl⟩
      · exact Or.inl ⟨iter :: pre, found, post, rfl, hf, by simpa using ⟨hhead, hpre⟩, hl⟩
      · exact Or.inr ⟨by simpa using ⟨hhead, hall⟩, hl⟩

/-- What a walk over the range from `lo` to `hi` is: the visited items follow one
another from the start without a gap, lie in the range one before the other, and
the walk ends at the first end marker or invalid item. -/
structure Walked (m : Memory w) (lo hi : Nat) (start : KcdataIter w)
    (items : List (KcdataIter w)) (last : KcdataIter w) : Prop where
  first : (items ++ [last]).head? = some start
  consecutive : (items ++ [last]).IsChain (Follows m)
  inside : ∀ a ∈ items, Inside m lo hi a
  disjoint : items.Pairwise (Before m)
  accepted : ∀ a ∈ items, kcdataIterValid m a = .ok true ∧
    ∃ type, a.rawType m = .ok type ∧ type ≠ kcdataTypeBufferEnd
  ended : kcdataIterValid m last = .ok false ∨
    (kcdataIterValid m last = .ok true ∧ last.rawType m = .ok kcdataTypeBufferEnd)

/-- An iterator that fails the loop test was rejected or is the end marker. -/
theorem foreachCond_false (h : foreachCond m iter = .ok false) :
    kcdataIterValid m iter = .ok false ∨
      (kcdataIterValid m iter = .ok true ∧ iter.rawType m = .ok kcdataTypeBufferEnd) := by
  obtain ⟨valid, hv, h⟩ := bind_eq_ok.mp h
  cases valid with
  | false => exact Or.inl hv
  | true =>
    obtain ⟨type, ht, h⟩ := bind_eq_ok.mp h
    have he : type = kcdataTypeBufferEnd := not_not.mp (of_decide_eq_false (Except.ok.inj h))
    exact Or.inr ⟨hv, he ▸ ht⟩

/-- On a sound range a path to an iterator that ends the walk is a walk, and all
its items begin no earlier than the path does. -/
theorem Path.walked (hs : Sound m lo hi) (hw : hi < 2 ^ w) {items : List (KcdataIter w)}
    (hp : Path m iter items last) (hend : foreachCond m last = .ok false)
    (hstop : iter.stop.toNat = hi) (hlo : lo ≤ iter.item.toNat) (hhi : iter.item.toNat ≤ hi) :
    Walked m lo hi iter items last ∧ ∀ a ∈ items, iter.item.toNat ≤ a.item.toNat := by
  induction hp with
  | nil iter =>
    exact ⟨⟨rfl, .singleton iter, nofun, .nil, nofun, foreachCond_false hend⟩, nofun⟩
  | @cons iter next last items test step _ ih =>
    rcases hs.foreachCond_cases hstop hlo hhi with hc | ⟨-, hin⟩
    · cases test.symm.trans hc
    · obtain ⟨next', hn, hf⟩ := hin.follows hw
      obtain rfl : next' = next := Except.ok.inj (hn.symm.trans step)
      have hfollows := hf
      obtain ⟨size, hsize, -, hle⟩ := hin
      obtain ⟨size', hsize', hstop', hnext⟩ := hf
      obtain rfl : size' = size := Except.ok.inj (hsize'.symm.trans hsize)
      obtain ⟨hwalk, hmin⟩ := ih hend (by rw [hstop']; exact hstop) (by omega) (by omega)
      refine ⟨⟨rfl, ?_, ?_, ?_, ?_, hwalk.ended⟩, ?_⟩
      · refine List.isChain_cons.mpr ⟨?_, hwalk.consecutive⟩
        intro b hb
        change (items ++ [last]).head? = some b at hb
        rw [hwalk.first] at hb
        cases hb
        exact hfollows
      · exact List.forall_mem_cons.mpr ⟨⟨size', hsize, hlo, hle⟩, hwalk.inside⟩
      · refine List.pairwise_cons.mpr ⟨?_, hwalk.disjoint⟩
        intro b hb
        exact ⟨size', hsize, hnext ▸ hmin b hb⟩
      · exact List.forall_mem_cons.mpr ⟨foreachCond_true test, hwalk.accepted⟩
      · refine List.forall_mem_cons.mpr ⟨le_rfl, ?_⟩
        intro b hb
        have := hmin b hb
        omega

/-- On a sound range the loop ends with a walk, and the search returns its first
item of the wanted type or, when there is none, the invalid iterator. -/
theorem Sound.walk (hs : Sound m lo hi) (hw : hi < 2 ^ w) (hstop : iter.stop.toNat = hi)
    (hlo : lo ≤ iter.item.toNat) (hhi : iter.item.toNat ≤ hi) :
    ∃ items last, kcdataIterForeach m iter = .ok (items, last) ∧
      Walked m lo hi iter items last ∧ ∀ type,
        (∃ pre found post, items = pre ++ found :: post ∧
          kcdataIterType m found = .ok type ∧
          (∀ a ∈ pre, ∃ t, kcdataIterType m a = .ok t ∧ t ≠ type) ∧
          kcdataIterFindType m iter type = .ok found) ∨
        ((∀ a ∈ items, ∃ t, kcdataIterType m a = .ok t ∧ t ≠ type) ∧
          kcdataIterFindType m iter type = .ok kcdataInvalidIter) := by
  obtain ⟨items, last, hp, hend, hlen⟩ := hs.exists_path hw hstop hlo hhi
  have hfuel : items.length < 2 ^ w := by omega
  exact ⟨items, last, hp.foreach hend hfuel, (hp.walked hs hw hend hstop hlo hhi).1,
    fun type => hp.findType hend type hfuel⟩

/-- The validity test, once the header is known to be readable. -/
theorem kcdataIterValid_eq {size : UInt32} (hs : iter.size m = .ok size) :
    kcdataIterValid m iter = .ok (decide
      ((iter.item.toNat + 16) % 2 ^ w ≤ iter.stop.toNat ∧
        (iter.item.toNat + 16 + size.toNat) % 2 ^ w ≤ iter.stop.toNat)) := by
  simp only [kcdataIterValid, BitVec.le_def, toNat_add_ofNat, Nat.mod_add_mod, kcdataItemSize]
  split
  · next h =>
    simp only [hs, ok_bind, h, true_and]
    rfl
  · next h =>
    simp only [h, false_and, decide_false]
    rfl

/-- No buffer whose end is `2 ^ 32 + 16` below the top of the LP64 address space can
make the test accept an item outside it, or read outside it. -/
theorem sound_ofBuffer (base : BitVec 64) (bytes : List UInt8)
    (hend : base.toNat + bytes.length + (2 ^ 32 + 16) ≤ 2 ^ 64) :
    Sound (Memory.ofBuffer base bytes) base.toNat (base.toNat + bytes.length) := by
  intro iter hstop hlo hhi
  rcases Nat.lt_or_ge (base.toNat + bytes.length) (iter.item.toNat + 16) with hout | hfit
  · left
    rw [kcdataIterValid, if_neg]
    · rfl
    · rw [BitVec.le_def, toNat_add_ofNat, hstop, Nat.mod_eq_of_lt] <;>
        simp only [kcdataItemSize] <;> omega
  · have hmapped : ∀ k n, k + n ≤ 16 → ∀ i < n, (Memory.ofBuffer base bytes
        (iter.item + BitVec.ofNat 64 k + BitVec.ofNat 64 i)).isSome := by
      intro k n hk i hi
      have haddr : (iter.item + BitVec.ofNat 64 k + BitVec.ofNat 64 i).toNat =
          iter.item.toNat + k + i := by
        rw [toNat_add_ofNat, toNat_add_ofNat, Nat.mod_add_mod, Nat.mod_eq_of_lt (by omega)]
      exact Memory.ofBuffer_isSome (by omega) (by omega)
    obtain ⟨size, hsize⟩ := Memory.readU32_ok (hmapped 4 4 (by omega))
    obtain ⟨type, htype⟩ : ∃ v, iter.rawType (Memory.ofBuffer base bytes) = .ok v := by
      refine Memory.readU32_ok ?_
      simpa using hmapped 0 4 (by omega)
    have hlt := size.toNat_lt
    rw [kcdataIterValid_eq hsize, hstop, Nat.mod_eq_of_lt (by omega), Nat.mod_eq_of_lt (by omega)]
    by_cases hpay : iter.item.toNat + 16 + size.toNat ≤ base.toNat + bytes.length
    · right
      exact ⟨by simp [hfit, hpay], ⟨size, hsize, hlo, hpay⟩, type, htype⟩
    · left
      simp [hpay]

/-- The LP64 walk over any buffer, in a memory where only the buffer is mapped. -/
theorem kcdata_walk_lp64 (base : BitVec 64) (bytes : List UInt8)
    (hend : base.toNat + bytes.length + (2 ^ 32 + 16) ≤ 2 ^ 64) :
    ∃ items last,
      kcdataIterForeach (Memory.ofBuffer base bytes)
        (kcdataIter base (BitVec.ofNat 64 bytes.length)) = .ok (items, last) ∧
      Walked (Memory.ofBuffer base bytes) base.toNat (base.toNat + bytes.length)
        (kcdataIter base (BitVec.ofNat 64 bytes.length)) items last ∧
      (∀ type,
        (∃ pre found post, items = pre ++ found :: post ∧
          kcdataIterType (Memory.ofBuffer base bytes) found = .ok type ∧
          (∀ a ∈ pre, ∃ t, kcdataIterType (Memory.ofBuffer base bytes) a = .ok t ∧ t ≠ type) ∧
          kcdataIterFindType (Memory.ofBuffer base bytes)
            (kcdataIter base (BitVec.ofNat 64 bytes.length)) type = .ok found) ∨
        ((∀ a ∈ items, ∃ t, kcdataIterType (Memory.ofBuffer base bytes) a = .ok t ∧ t ≠ type) ∧
          kcdataIterFindType (Memory.ofBuffer base bytes)
            (kcdataIter base (BitVec.ofNat 64 bytes.length)) type = .ok kcdataInvalidIter)) ∧
      ∀ m : Memory 64, kcdataIterValid m kcdataInvalidIter = .ok false := by
  have hstop : (kcdataIter base (BitVec.ofNat 64 bytes.length)).stop.toNat =
      base.toNat + bytes.length := by
    rw [kcdataIter, toNat_add_ofNat, Nat.mod_eq_of_lt (by omega)]
  obtain ⟨items, last, hfor, hwalk, hfind⟩ :=
    (sound_ofBuffer base bytes hend).walk (by omega) hstop le_rfl (Nat.le_add_right _ _)
  exact ⟨items, last, hfor, hwalk, hfind, fun _ => rfl⟩

/-- A string of 4 bytes and one of 8 bytes, with their headers. -/
def twoItems : List UInt8 :=
  [1, 0, 0, 0, 4, 0, 0, 0, 0, 0, 0, 0, 0, 0, 0, 0, 0x6f, 0x6e, 0x65, 0,
    2, 0, 0, 0, 8, 0, 0, 0, 0, 0, 0, 0, 0, 0, 0, 0, 0x66, 0x6f, 0x75, 0x72, 0, 0, 0, 0]

/-- The two items are walked over, and the second one is found by its type. -/
theorem kcdata_walk_lp64_twoItems :
    ∃ items last, items = [⟨0x1000, 0x102c⟩, ⟨0x1014, 0x102c⟩] ∧
      kcdataIterForeach (Memory.ofBuffer 0x1000#64 twoItems) (kcdataIter 0x1000#64 44) =
        .ok (items, last) ∧
      Walked (Memory.ofBuffer 0x1000#64 twoItems) 0x1000 0x102c (kcdataIter 0x1000#64 44)
        items last ∧
      ∃ found ∈ items, kcdataIterType (Memory.ofBuffer 0x1000#64 twoItems) found = .ok 2 ∧
        kcdataIterFindType (Memory.ofBuffer 0x1000#64 twoItems) (kcdataIter 0x1000#64 44) 2 =
          .ok found := by
  obtain ⟨items, last, hfor, hwalk, hfind, -⟩ := kcdata_walk_lp64 0x1000#64 twoItems (by decide)
  have hrun : kcdataIterForeach (Memory.ofBuffer 0x1000#64 twoItems) (kcdataIter 0x1000#64 44) =
      .ok ([⟨0x1000, 0x102c⟩, ⟨0x1014, 0x102c⟩], ⟨0x102c, 0x102c⟩) := rfl
  obtain ⟨rfl, rfl⟩ := Prod.mk.inj (Except.ok.inj (hrun.symm.trans hfor))
  refine ⟨_, _, rfl, hfor, hwalk, ?_⟩
  rcases hfind 2 with ⟨pre, found, post, hitems, htype, -, hfound⟩ | ⟨hother, -⟩
  · exact ⟨found, hitems ▸ List.mem_append_right pre List.mem_cons_self, htype, hfound⟩
  · obtain ⟨t, ht, hne⟩ := hother ⟨0x1014, 0x102c⟩ (by simp)
    have htwo : kcdataIterType (Memory.ofBuffer 0x1000#64 twoItems) ⟨0x1014, 0x102c⟩ = .ok 2 := rfl
    exact absurd (Except.ok.inj (ht.symm.trans htwo)) hne

/-- Every accepted iterator over the buffer has its item in it and moves forward,
and the loop ends. -/
def Confined (m : Memory w) (base len : BitVec w) : Prop :=
  (∀ iter : KcdataIter w, iter.stop.toNat = base.toNat + len.toNat →
    base.toNat ≤ iter.item.toNat → iter.item.toNat ≤ base.toNat + len.toNat →
    kcdataIterValid m iter = .ok true →
      Inside m base.toNat (base.toNat + len.toNat) iter ∧
      ∃ next, kcdataIterNext m iter = .ok next ∧ iter.item.toNat < next.item.toNat) ∧
  ∃ r, kcdataIterForeach m (kcdataIter base len) = .ok r

/-- At no address from the start to the end of the buffer do header and size field
add up to a value that leaves the address space and yet is at most the end. -/
def NoAcceptedWrap (m : Memory w) (base len : BitVec w) : Prop :=
  ∀ (item : BitVec w) (size : UInt32), base.toNat ≤ item.toNat →
    item.toNat ≤ base.toNat + len.toNat → m.readU32 (item + 4) = .ok size →
    item.toNat + 16 + size.toNat < 2 ^ w ∨
      base.toNat + len.toNat < (item.toNat + 16) % 2 ^ w ∨
      base.toNat + len.toNat < (item.toNat + 16 + size.toNat) % 2 ^ w

theorem readU32_flat (byte : BitVec w → UInt8) (a : BitVec w) :
    ∃ v, (Memory.flat byte).readU32 a = .ok v :=
  Memory.readU32_ok fun _ _ => rfl

/-- Without an accepted wrap a fully mapped memory is sound on the buffer. -/
theorem NoAcceptedWrap.sound {byte : BitVec w → UInt8} {base len : BitVec w}
    (hno : NoAcceptedWrap (.flat byte) base len) :
    Sound (.flat byte) base.toNat (base.toNat + len.toNat) := by
  intro iter hstop hlo hhi
  obtain ⟨size, hsize⟩ := readU32_flat byte (iter.item + 4)
  rw [kcdataIterValid_eq hsize, hstop]
  have hwrap := hno iter.item size hlo hhi hsize
  by_cases hacc : (iter.item.toNat + 16) % 2 ^ w ≤ base.toNat + len.toNat ∧
      (iter.item.toNat + 16 + size.toNat) % 2 ^ w ≤ base.toNat + len.toNat
  · right
    have hlt : iter.item.toNat + 16 + size.toNat < 2 ^ w := by omega
    rw [Nat.mod_eq_of_lt hlt] at hacc
    exact ⟨by simp [hacc, Nat.mod_eq_of_lt hlt], ⟨size, hsize, hlo, hacc.2⟩,
      readU32_flat byte iter.item⟩
  · left
    simp [hacc]

/-- With 32-bit pointers the walk is confined to a buffer that does not wrap the
address space exactly when no accepted sum wraps. -/
theorem confined_iff_noAcceptedWrap (byte : BitVec 32 → UInt8) (base len : BitVec 32)
    (hb : base.toNat + len.toNat < 2 ^ 32) :
    Confined (.flat byte) base len ↔ NoAcceptedWrap (.flat byte) base len := by
  have hstop : (kcdataIter base len).stop.toNat = base.toNat + len.toNat := by
    rw [kcdataIter, BitVec.toNat_add, Nat.mod_eq_of_lt hb]
  constructor
  · intro hc item size hlo hhi hsize
    by_contra hno
    simp only [not_or, not_lt] at hno
    obtain ⟨hwrap, h1, h2⟩ := hno
    have hfield : KcdataIter.size (.flat byte) ⟨item, (kcdataIter base len).stop⟩ = .ok size :=
      hsize
    have hv : kcdataIterValid (.flat byte) ⟨item, (kcdataIter base len).stop⟩ = .ok true := by
      rw [kcdataIterValid_eq hfield, hstop]
      exact congrArg Except.ok (decide_eq_true ⟨h1, h2⟩)
    obtain ⟨⟨size', hsize', -, hle⟩, -⟩ :=
      hc.1 ⟨item, (kcdataIter base len).stop⟩ hstop hlo hhi hv
    obtain rfl : size' = size := Except.ok.inj (hsize'.symm.trans hfield)
    change item.toNat + 16 + size'.toNat ≤ _ at hle
    omega
  · intro hno
    have hs := hno.sound
    constructor
    · intro iter hiter hlo hhi hv
      rcases hs iter hiter hlo hhi with hv' | ⟨-, hin, -⟩
      · cases hv.symm.trans hv'
      · obtain ⟨next, hn, size, -, -, hnext⟩ := hin.follows hb
        exact ⟨hin, next, hn, by omega⟩
    · obtain ⟨items, last, hfor, -⟩ := hs.walk hb hstop le_rfl (Nat.le_add_right _ _)
      exact ⟨_, hfor⟩

/-- The two items in a memory of zeroes. -/
def twoItemsByte (a : BitVec 32) : UInt8 := twoItems.getD (a.toNat - 0x1000) 0

theorem confined_twoItems : Confined (.flat twoItemsByte) 0x1000#32 44#32 := by
  refine (confined_iff_noAcceptedWrap _ _ _ (by decide)).mpr ?_
  intro item size hlo hhi hsize
  -- also the sizes that are read at the other addresses are too small to wrap
  have hsmall : ∀ k < 45, 0x1000 + k + 16 + (((Memory.flat twoItemsByte).readU32
      (BitVec.ofNat 32 (0x1000 + k) + 4)).toOption.getD 0).toNat < 2 ^ 32 := by
    decide +kernel
  have hstart : (0x1000#32).toNat = 0x1000 := rfl
  have hlen : (44#32).toNat = 44 := rfl
  obtain ⟨k, hk⟩ := Nat.exists_eq_add_of_le hlo
  have hitem : item = BitVec.ofNat 32 (0x1000 + k) := by
    rw [← hstart, ← hk, BitVec.ofNat_toNat, BitVec.setWidth_eq]
  have hsum := hsmall k (by omega)
  rw [← hitem, hsize] at hsum
  left
  rw [hk, hstart]
  exact hsum

/-- A memory whose header at `0x1000` has the size field `0xFFFFFFF0`. -/
def wrappingByte (a : BitVec 32) : UInt8 :=
  if a = 0x1004#32 then 0xF0 else if 0x1005#32 ≤ a ∧ a ≤ 0x1007#32 then 0xFF else 0

/-- The test accepts the wrapped header, and moving on stays where it is. -/
theorem wrapping_not_confined :
    kcdataIterNext (.flat wrappingByte) (kcdataIter 0x1000#32 16#32) =
        .ok (kcdataIter 0x1000#32 16#32) ∧
      ¬ Confined (.flat wrappingByte) 0x1000#32 16#32 := by
  refine ⟨rfl, ?_⟩
  intro hc
  obtain ⟨next, hn, hlt⟩ := (hc.1 (kcdataIter 0x1000#32 16#32) rfl (by decide) (by decide) rfl).2
  cases hn
  exact absurd hlt (by decide)

end MacKernel.Kcdata
