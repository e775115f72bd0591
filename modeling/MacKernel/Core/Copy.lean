import MacKernel.Core.Bytes

/-!
# Copies between buffers

A copy loads some bytes and stores them elsewhere. The state of a copy in pieces is how far it
has come: the bytes up to there are the source's and all other memory is as it was. Two buffers
that do not overlap leave each other's bytes alone, and each of them has at most half of the
addresses.
-/

namespace MacKernel.Memory

variable {w : Nat}

/-- The memory with another byte at an address. -/
def set (m : Memory w) (a : BitVec w) (b : UInt8) : Memory w :=
  fun c => if c = a then some b else m c

/-- Store one byte. -/
def writeByte (m : Memory w) (a : BitVec w) (b : UInt8) : Except Fault (Memory w) :=
  if (m a).isSome then .ok (m.set a b) else .error .unmapped

/-- Store a string of bytes. -/
def writeBytes (m : Memory w) (a : BitVec w) : List UInt8 → Except Fault (Memory w)
  | [] => .ok m
  | b :: bytes => do
    let m ← m.writeByte a b
    m.writeBytes (a + 1) bytes

/-- Load `n` bytes and store them elsewhere. -/
def copyBytes (n : Nat) (src dst : BitVec w) (m : Memory w) : Except Fault (Memory w) := do
  let bytes ← m.readBytes n src
  m.writeBytes dst bytes

/-- The `n` bytes from an address on are mapped. -/
def Mapped (m : Memory w) (a : BitVec w) (n : Nat) : Prop :=
  ∀ i < n, (m (a + BitVec.ofNat w i)).isSome

/-- Two buffers of `n` bytes have no byte in common. -/
def Separate (src dst : BitVec w) (n : Nat) : Prop :=
  ∀ i < n, ∀ j < n, src + BitVec.ofNat w i ≠ dst + BitVec.ofNat w j

/-- The first `n` bytes have been copied, and nothing else has changed. -/
structure Moved (m m' : Memory w) (src dst : BitVec w) (n : Nat) : Prop where
  copied : ∀ i < n, m' (dst + BitVec.ofNat w i) = m (src + BitVec.ofNat w i)
  frame : ∀ a, (∀ i < n, a ≠ dst + BitVec.ofNat w i) → m' a = m a

/-- Two steps from an address are one. -/
theorem add_ofNat_add (a : BitVec w) (i j : Nat) :
    a + BitVec.ofNat w i + BitVec.ofNat w j = a + BitVec.ofNat w (i + j) := by
  rw [BitVec.ofNat_add, BitVec.add_assoc]

/-- Different steps lead to different addresses. -/
theorem add_ofNat_inj {a : BitVec w} {i j : Nat} (hi : i < 2 ^ w) (hj : j < 2 ^ w)
    (h : a + BitVec.ofNat w i = a + BitVec.ofNat w j) : i = j := by
  have heq := congrArg BitVec.toNat (add_left_cancel h)
  rwa [BitVec.toNat_ofNat, BitVec.toNat_ofNat, Nat.mod_eq_of_lt hi, Nat.mod_eq_of_lt hj] at heq

/-- A step from the next address is one step more. -/
theorem succ_add_ofNat (a : BitVec w) (i : Nat) :
    a + 1 + BitVec.ofNat w i = a + BitVec.ofNat w (i + 1) := by
  rw [Nat.add_comm i 1]
  exact add_ofNat_add a 1 i

/-! ## Loads and stores -/

/-- The rest of a mapped range is mapped. -/
theorem Mapped.tail {m : Memory w} {a : BitVec w} {n : Nat} (h : m.Mapped a (n + 1)) :
    m.Mapped (a + 1) n := by
  intro i hi
  rw [succ_add_ofNat]
  exact h (i + 1) (Nat.succ_lt_succ hi)

/-- The first byte of a mapped range is mapped. -/
theorem Mapped.head {m : Memory w} {a : BitVec w} {n : Nat} (h : m.Mapped a (n + 1)) :
    (m a).isSome := by
  have h0 := h 0 (Nat.succ_pos n)
  rwa [BitVec.add_zero] at h0

/-- Mapped bytes are read. -/
theorem readBytes_of_mapped {m : Memory w} {a : BitVec w} {n : Nat} (h : m.Mapped a n) :
    ∃ bytes, m.readBytes n a = .ok bytes := by
  induction n generalizing a with
  | zero => exact ⟨[], rfl⟩
  | succ n ih =>
    obtain ⟨b, hb⟩ := Option.isSome_iff_exists.mp h.head
    obtain ⟨bytes, hbytes⟩ := ih h.tail
    refine ⟨b :: bytes, ?_⟩
    rw [readBytes, hb]
    simp only [hbytes, ok_bind]
    rfl

/-- Bytes are written to a mapped range and nowhere else. -/
theorem writeBytes_spec {m : Memory w} {a : BitVec w} {bytes : List UInt8}
    (hlen : bytes.length ≤ 2 ^ w) (h : m.Mapped a bytes.length) :
    ∃ m', m.writeBytes a bytes = .ok m' ∧ m'.Holds a bytes
      ∧ ∀ c, (∀ i < bytes.length, c ≠ a + BitVec.ofNat w i) → m' c = m c := by
  induction bytes generalizing m a with
  | nil => exact ⟨m, rfl, fun i hi => absurd hi (Nat.not_lt_zero i), fun c _ => rfl⟩
  | cons b bytes ih =>
    rw [List.length_cons] at hlen h
    have hmapped : (m.set a b).Mapped (a + 1) bytes.length := by
      intro i hi
      unfold set
      split
      · rfl
      · exact h.tail i hi
    obtain ⟨m', hwrite, hholds, hframe⟩ := ih (by omega) hmapped
    refine ⟨m', ?_, ?_, ?_⟩
    · rw [writeBytes, writeByte, if_pos h.head, ok_bind, hwrite]
    · -- the later bytes do not come back to this one
      have hback : ∀ i < bytes.length, a ≠ a + 1 + BitVec.ofNat w i := by
        intro i hi heq
        rw [succ_add_ofNat] at heq
        have hzero : a + BitVec.ofNat w 0 = a + BitVec.ofNat w (i + 1) := by
          rw [BitVec.add_zero]
          exact heq
        exact absurd (add_ofNat_inj (by omega) (by omega) hzero) (Nat.succ_ne_zero i).symm
      refine holds_cons.mpr ⟨?_, hholds⟩
      rw [hframe a hback]
      exact if_pos rfl
    · intro c hc
      have hne : c ≠ a := by
        have h0 := hc 0 (Nat.succ_pos _)
        rwa [BitVec.add_zero] at h0
      rw [hframe c]
      · exact if_neg hne
      · intro i hi
        rw [succ_add_ofNat]
        exact hc (i + 1) (Nat.succ_lt_succ hi)

/-! ## Separate buffers -/

/-- Two separate buffers have at most half of the addresses each. -/
theorem Separate.two_mul_le {src dst : BitVec w} {n : Nat} (h : Separate src dst n)
    (hn : n < 2 ^ w) : 2 * n ≤ 2 ^ w := by
  have hinj : ∀ a : BitVec w, ((List.range n).map fun i => a + BitVec.ofNat w i).Nodup := by
    intro a
    refine List.nodup_range.map_on fun i hi j hj heq => ?_
    rw [List.mem_range] at hi hj
    exact add_ofNat_inj (by omega) (by omega) heq
  have hdisjoint : List.Disjoint ((List.range n).map fun i => src + BitVec.ofNat w i)
      ((List.range n).map fun i => dst + BitVec.ofNat w i) := by
    intro a hsrc hdst
    obtain ⟨i, hi, rfl⟩ := List.mem_map.mp hsrc
    obtain ⟨j, hj, heq⟩ := List.mem_map.mp hdst
    exact h i (List.mem_range.mp hi) j (List.mem_range.mp hj) heq.symm
  have hle := length_le_of_nodup ((hinj src).append (hinj dst) hdisjoint)
  rw [List.length_append, List.length_map, List.length_map, List.length_range] at hle
  omega

/-! ## Copies -/

section Pieces

variable {m m' : Memory w} {src dst : BitVec w} {k n len : Nat}

/-- Nothing was moved yet. -/
theorem Moved.nil (m : Memory w) (src dst : BitVec w) : Moved m m src dst 0 where
  copied i hi := absurd hi (Nat.not_lt_zero i)
  frame _ _ := rfl

/-- A move leaves a source apart from its destination. -/
theorem Moved.source (h : Moved m m' src dst k) (hsep : Separate src dst len) (hk : k ≤ len)
    {i : Nat} (hi : i < len) : m' (src + BitVec.ofNat w i) = m (src + BitVec.ofNat w i) :=
  h.frame _ fun j hj => hsep i hi j (Nat.lt_of_lt_of_le hj hk)

/-- What was mapped stays mapped. -/
theorem Moved.mapped (h : Moved m m' src dst k) (hk : k ≤ len) (hsrc : m.Mapped src len)
    {a : BitVec w} (ha : (m a).isSome) : (m' a).isSome := by
  by_cases hin : ∃ i < k, a = dst + BitVec.ofNat w i
  · obtain ⟨i, hi, rfl⟩ := hin
    rw [h.copied i hi]
    exact hsrc i (Nat.lt_of_lt_of_le hi hk)
  · rw [h.frame a fun i hi heq => hin ⟨i, hi, heq⟩]
    exact ha

/-- The next `n` bytes of a copy. -/
theorem Moved.copyBytes (h : Moved m m' src dst k) (hlen : len < 2 ^ w)
    (hsep : Separate src dst len) (hsrc : m.Mapped src len) (hdst : m.Mapped dst len)
    (hk : k + n ≤ len) :
    ∃ m'', m'.copyBytes n (src + BitVec.ofNat w k) (dst + BitVec.ofNat w k) = .ok m''
      ∧ Moved m m'' src dst (k + n) := by
  have hload : m'.Mapped (src + BitVec.ofNat w k) n := by
    intro i hi
    rw [add_ofNat_add, h.source hsep (by omega) (by omega)]
    exact hsrc (k + i) (by omega)
  have hstore : m'.Mapped (dst + BitVec.ofNat w k) n := by
    intro i hi
    rw [add_ofNat_add]
    exact h.mapped (by omega) hsrc (hdst (k + i) (by omega))
  obtain ⟨bytes, hread⟩ := readBytes_of_mapped hload
  obtain ⟨rfl, hbytes⟩ := readBytes_eq_ok.mp hread
  obtain ⟨m'', hwrite, hholds, hframe⟩ := writeBytes_spec (by omega) hstore
  refine ⟨m'', by rw [Memory.copyBytes, hread, ok_bind, hwrite], ?_, ?_⟩
  · intro i hi
    by_cases hik : i < k
    · -- already there, and not stored to again
      rw [hframe, h.copied i hik]
      intro j hj heq
      rw [add_ofNat_add] at heq
      have hij := add_ofNat_inj (by omega) (by omega) heq
      omega
    · obtain ⟨j, rfl⟩ : ∃ j, i = k + j := ⟨i - k, by omega⟩
      have hj : j < bytes.length := by omega
      have hnew := hholds j hj
      have hold := hbytes j hj
      rw [add_ofNat_add] at hnew hold
      rw [hnew, ← hold, h.source hsep (by omega) (by omega)]
  · intro a ha
    rw [hframe a]
    · exact h.frame a fun i hi => ha i (by omega)
    · intro i hi
      rw [add_ofNat_add]
      exact ha (k + i) (by omega)

/-- What a copy leaves is determined. -/
theorem Moved.unique {m₁ m₂ : Memory w} (h₁ : Moved m m₁ src dst n) (h₂ : Moved m m₂ src dst n) :
    m₁ = m₂ := by
  funext a
  by_cases hin : ∃ i < n, a = dst + BitVec.ofNat w i
  · obtain ⟨i, hi, rfl⟩ := hin
    rw [h₁.copied i hi, h₂.copied i hi]
  · have hout : ∀ i < n, a ≠ dst + BitVec.ofNat w i := fun i hi heq => hin ⟨i, hi, heq⟩
    rw [h₁.frame a hout, h₂.frame a hout]

end Pieces

end MacKernel.Memory
