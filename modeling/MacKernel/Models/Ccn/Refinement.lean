import MacKernel.Models.Ccn.Numbers

/-!
# Runs on number vectors

Vectors that are apart in one memory, as a map of natural numbers. Destinations may be
sources as well.
-/

namespace MacKernel.Ccn

section System

/-- Where some vectors are. -/
structure Vectors (V : Type) where
  base : V → Nat
  size : V → Nat
  apart : ∀ u v, u ≠ v → base u + size u ≤ base v ∨ base v + size v ≤ base u

/-- A call on vectors: the destination first. -/
inductive Call (V : Type) where
  | zero (r : V)
  | seti (r : V) (v : CcUnit)
  | setn (r s : V)
  | setBit (r : V) (k : Nat) (v : Bool)
  | bit (s : V) (k : Nat)
  | xor (r s t : V)
  | addn (r s t : V)
  | subn (r s t : V)
  | cmpn (s t : V)

variable {V : Type}

/-- One call, with the value that it returns. -/
def step (lib : Library) (vs : Vectors V) (m : Units) : Call V → Except Fault (Units × Int)
  | .zero r => return (ccnZero lib m (vs.size r) (vs.base r), 0)
  | .seti r v => return (ccnSeti lib m (vs.size r) (vs.base r) v, 0)
  | .setn r s => return (ccnSetn lib m (vs.size r) (vs.base r) (vs.size s) (vs.base s), 0)
  | .setBit r k v => return (ccnSetBit m (vs.base r) k v, 0)
  | .bit s k => return (m, (ccnBit m (vs.base s) k).toNat)
  | .xor r s t => return (ccnXor m (vs.size r) (vs.base r) (vs.base s) (vs.base t), 0)
  | .addn r s t => do
    let (m, carry) ← ccnAddn lib m (vs.size r) (vs.base r) (vs.base s) (vs.size t) (vs.base t)
    return (m, carry.toNat)
  | .subn r s t => do
    let (m, borrow) ← ccnSubn lib m (vs.size r) (vs.base r) (vs.base s) (vs.size t) (vs.base t)
    return (m, borrow.toNat)
  | .cmpn s t => return (m, ccnCmpn lib m (vs.size s) (vs.base s) (vs.size t) (vs.base t))

/-- The numbers that the vectors hold. -/
def values (vs : Vectors V) (m : Units) (v : V) : Nat := limbs m (vs.base v) (vs.size v)

variable [DecidableEq V]

/-- The numbers as a specification of the calls. Vectors of different lengths are compared by
their lengths, whatever numbers they hold. -/
def numberSpec (vs : Vectors V) : Spec (V → Nat) (Call V) Int where
  pre _
    | .zero _ | .cmpn _ _ => True
    | .seti r _ => 0 < vs.size r
    | .setn r s => vs.size s ≤ vs.size r
    | .setBit r k _ => k < 64 * vs.size r
    | .bit s k => k < 64 * vs.size s
    | .xor r s t => vs.size s = vs.size r ∧ vs.size t = vs.size r
    | .addn r s t | .subn r s t => vs.size s = vs.size r ∧ vs.size t ≤ vs.size r
  apply f
    | .zero r => Function.update f r 0
    | .seti r v => Function.update f r v.toNat
    | .setn r s => Function.update f r (f s)
    | .setBit r k v =>
      Function.update f r (if v then f r ||| 2 ^ k else (f r ||| 2 ^ k) ^^^ 2 ^ k)
    | .xor r s t => Function.update f r (f s ^^^ f t)
    | .addn r s t => Function.update f r ((f s + f t) % 2 ^ (64 * vs.size r))
    | .subn r s t =>
      Function.update f r ((f s + 2 ^ (64 * vs.size r) - f t) % 2 ^ (64 * vs.size r))
    | .bit _ _ | .cmpn _ _ => f
  result f
    | .bit s k => ((f s).testBit k).toNat
    | .addn r s t => ((f s + f t) / 2 ^ (64 * vs.size r) : Nat)
    | .subn _ s t => borrow (f s) (f t)
    | .cmpn s t =>
      if vs.size t < vs.size s then 1 else if vs.size s < vs.size t then -1
      else if f s < f t then -1 else if f t < f s then 1 else 0
    | _ => 0

instance (vs : Vectors V) (f : V → Nat) (call : Call V) : Decidable ((numberSpec vs).pre f call) :=
  match call with
  | .zero _ | .cmpn _ _ => inferInstanceAs (Decidable True)
  | .seti _ _ | .setn _ _ | .setBit _ _ _ | .bit _ _ => Nat.decLe _ _
  | .xor _ _ _ | .addn _ _ _ | .subn _ _ _ => inferInstanceAs (Decidable (_ ∧ _))

end System

section Steps

variable {V : Type} [DecidableEq V] {lib : Library} {vs : Vectors V} {m m' : Units} {r s : V}

/-- Nothing was written outside the vectors. -/
def FramedBy (vs : Vectors V) (m m' : Units) : Prop :=
  ∀ a, (∀ v, a < vs.base v ∨ vs.base v + vs.size v ≤ a) → m' a = m a

theorem Vectors.compatible (vs : Vectors V) (r s : V) :
    Compatible (vs.base r) (vs.size r) (vs.base s) (vs.size s) := by
  by_cases h : s = r
  · exact .inl (congrArg vs.base h)
  · have hapart := vs.apart s r h
    unfold Compatible
    omega

private theorem Vectors.compatible_of_eq (vs : Vectors V) (r : V) {n : Nat} (h : vs.size s = n) :
    Compatible (vs.base r) (vs.size r) (vs.base s) n :=
  h ▸ vs.compatible r s

/-- A write to one vector. -/
theorem values_eq_update {x : Nat} (hsame : SameOutside m m' (vs.base r) (vs.size r))
    (hx : limbs m' (vs.base r) (vs.size r) = x) :
    values vs m' = Function.update (values vs m) r x ∧ FramedBy vs m m' := by
  refine ⟨?_, fun a ha => hsame a (ha r)⟩
  funext v
  rw [Function.update_apply]
  split
  · next h => rw [h, values, hx]
  · next h => exact hsame.limbs_eq (vs.apart v r h)

/-- The comparison of two vectors is that of their lengths, and for equal lengths that of their
numbers. -/
theorem ccnCmpn_spec {lib : Library} (hlib : lib.Lawful) (m : Units) (s t : V) :
    ccnCmpn lib m (vs.size s) (vs.base s) (vs.size t) (vs.base t) =
      (numberSpec vs).result (values vs m) (.cmpn s t) := by
  unfold ccnCmpn
  change _ = if _ then _ else _
  split
  · rfl
  · next hle =>
    split
    · rfl
    · next hge =>
      have heq : vs.size t = vs.size s := by omega
      rw [hlib.cmp, values, values, heq]

/-- Two vectors, the longer of which uses a unit behind the shorter, are compared as numbers. -/
theorem ccnCmpn_eq_compare {lib : Library} (hlib : lib.Lawful) (m : Units) {s t : V}
    (hs : vs.size t < vs.size s → 2 ^ (64 * vs.size t) ≤ values vs m s)
    (ht : vs.size s < vs.size t → 2 ^ (64 * vs.size s) ≤ values vs m t) :
    ccnCmpn lib m (vs.size s) (vs.base s) (vs.size t) (vs.base t) =
      if values vs m s < values vs m t then -1 else if values vs m t < values vs m s then 1
      else 0 := by
  have hslt : values vs m s < 2 ^ (64 * vs.size s) := limbs_lt _ _ _
  have htlt : values vs m t < 2 ^ (64 * vs.size t) := limbs_lt _ _ _
  rw [ccnCmpn_spec hlib]
  change (if _ then _ else _) = _
  split
  · next h =>
    have hlt := htlt.trans_le (hs h)
    rw [if_neg (Nat.lt_asymm hlt), if_pos hlt]
  · next hle =>
    split
    · next h =>
      rw [if_pos (hslt.trans_le (ht h))]
    · rfl

/-- A call does with the vectors what it does with the numbers. -/
theorem step_spec (hlib : lib.Lawful) {call : Call V}
    (hpre : (numberSpec vs).pre (values vs m) call) :
    ∃ m', step lib vs m call = .ok (m', (numberSpec vs).result (values vs m) call) ∧
      values vs m' = (numberSpec vs).apply (values vs m) call ∧ FramedBy vs m m' := by
  cases call with
  | zero r =>
    obtain ⟨hsame, hzero⟩ := ccnZero_spec hlib m (vs.size r) (vs.base r)
    exact ⟨_, rfl, values_eq_update hsame hzero⟩
  | seti r v =>
    obtain ⟨hsame, hval⟩ := ccnSeti_spec hlib m hpre (vs.base r) v
    exact ⟨_, rfl, values_eq_update hsame hval⟩
  | setn r s =>
    obtain ⟨hsame, hval⟩ := ccnSetn_spec hlib m hpre (vs.compatible r s)
    exact ⟨_, rfl, values_eq_update hsame hval⟩
  | setBit r k v =>
    obtain ⟨hsame, hval⟩ := ccnSetBit_spec (r := vs.base r) m hpre v
    exact ⟨_, rfl, values_eq_update hsame hval⟩
  | bit s k =>
    have hbit := ccnBit_spec (r := vs.base s) m hpre
    refine ⟨m, ?_, rfl, fun _ _ => rfl⟩
    rw [step, hbit]
    rfl
  | xor r s t =>
    obtain ⟨hs, ht⟩ := hpre
    obtain ⟨hsame, hword⟩ :=
      ccnXor_spec m (vs.compatible_of_eq r hs) (vs.compatible_of_eq r ht)
    refine ⟨_, rfl, values_eq_update hsame ?_⟩
    rw [limbs_xor (by decide) hword, values, values, hs, ht]
  | addn r s t =>
    obtain ⟨hs, ht⟩ := hpre
    obtain ⟨m', c, hrun, hsame, hsum⟩ :=
      ccnAddn_spec hlib ht (vs.compatible_of_eq r hs) (vs.compatible r t)
    have hlt := limbs_lt m' (vs.base r) (vs.size r)
    have hval : values vs m s + values vs m t =
        limbs m' (vs.base r) (vs.size r) + 2 ^ (64 * vs.size r) * c.toNat := by
      rw [values, values, hs, hsum]
    have hcarry : (values vs m s + values vs m t) / 2 ^ (64 * vs.size r) = c.toNat := by
      rw [hval, Nat.add_mul_div_left _ _ (Nat.two_pow_pos _), Nat.div_eq_of_lt hlt, Nat.zero_add]
    refine ⟨m', ?_, values_eq_update hsame ?_⟩
    · rw [step, hrun, ok_bind]
      exact congrArg (fun x : Nat => Except.ok (m', (x : Int))) hcarry.symm
    · rw [hval, Nat.add_mul_mod_self_left, Nat.mod_eq_of_lt hlt]
  | subn r s t =>
    obtain ⟨hs, ht⟩ := hpre
    obtain ⟨m', c, hrun, hsame, hborrow, hdiff⟩ :=
      ccnSubn_spec hlib ht (vs.compatible_of_eq r hs) (vs.compatible r t)
    have hlt := limbs_lt m' (vs.base r) (vs.size r)
    have hvs : values vs m s = limbs m (vs.base s) (vs.size r) := by rw [values, hs]
    refine ⟨m', ?_, values_eq_update hsame ?_⟩
    · rw [step, hrun, ok_bind]
      refine congrArg (fun x : Nat => Except.ok (m', (x : Int))) ?_
      rw [hborrow, hvs]
      rfl
    · rw [hvs, values]
      exact eq_sub_mod hlt hdiff
  | cmpn s t =>
    exact ⟨m, congrArg (fun x => Except.ok (m, x)) (ccnCmpn_spec hlib m s t), rfl,
      fun _ _ => rfl⟩

/-- Over every run on vectors that are apart, the vectors hold the numbers that the run prescribes
and the calls return what they return for numbers; nothing else in the memory changes. -/
theorem ccn_refines_numbers_of_exec (hlib : lib.Lawful) (m : Units) (calls : List (Call V))
    (hcalls : (numberSpec vs).Admissible (values vs m) calls) :
    ∃ m', execAll (step lib vs) m calls =
        .ok (m', (numberSpec vs).results (values vs m) calls) ∧
      values vs m' = (numberSpec vs).applyAll (values vs m) calls ∧ FramedBy vs m m' := by
  refine execAll_refines (numberSpec vs) (fun m' f => values vs m' = f ∧ FramedBy vs m m')
    ?_ ⟨rfl, fun _ _ => rfl⟩ hcalls
  rintro m₁ f call ⟨rfl, hframe⟩ hpre
  obtain ⟨m₂, hrun, hval, hframe'⟩ := step_spec hlib hpre
  exact ⟨m₂, hrun, hval, fun a ha => (hframe' a ha).trans (hframe a ha)⟩

end Steps

section Reference

/-- Write a number to a vector. -/
def storeNumber (m : Units) (p n x : Nat) : Units := fun a =>
  if p ≤ a ∧ a < p + n then BitVec.ofNat 64 (x / 2 ^ (64 * (a - p))) else m a

/-- The functions that are called, by way of numbers. -/
def referenceLibrary : Library where
  add m n r s t :=
    let x := limbs m s n + limbs m t n
    (storeNumber m r n x, BitVec.ofNat 64 (x / 2 ^ (64 * n)))
  add1 m n r s v :=
    let x := limbs m s n + v.toNat
    (storeNumber m r n x, BitVec.ofNat 64 (x / 2 ^ (64 * n)))
  sub m n r s t :=
    (storeNumber m r n (limbs m s n + 2 ^ (64 * n) - limbs m t n),
      BitVec.ofNat 64 (borrow (limbs m s n) (limbs m t n)))
  sub1 m n r s v :=
    (storeNumber m r n (limbs m s n + 2 ^ (64 * n) - v.toNat),
      BitVec.ofNat 64 (borrow (limbs m s n) v.toNat))
  cmp m n s t :=
    if limbs m s n < limbs m t n then -1 else if limbs m t n < limbs m s n then 1 else 0
  set m n r s := storeNumber m r n (limbs m s n)
  clear m len r := storeNumber m r (len / 8) 0

theorem storeNumber_spec (m : Units) (p n x : Nat) :
    SameOutside m (storeNumber m p n x) p n ∧
      limbs (storeNumber m p n x) p n = x % 2 ^ (64 * n) := by
  constructor
  · intro a ha
    exact if_neg (by omega)
  · apply Nat.eq_of_testBit_eq
    intro k
    rw [testBit_limbs (by decide), Nat.testBit_mod_two_pow]
    by_cases hk : k < 64 * n
    · have hin : p ≤ p + k / 64 ∧ p + k / 64 < p + n := by omega
      have hplace : 64 * (k / 64) + k % 64 = k := Nat.div_add_mod k 64
      rw [storeNumber, if_pos hin, BitVec.getLsbD_ofNat, Nat.add_sub_cancel_left,
        Nat.testBit_div_two_pow, Nat.add_comm, hplace, decide_eq_true (Nat.mod_lt k (by decide)),
        Bool.true_and]
    · rw [decide_eq_false hk, Bool.false_and, Bool.false_and]

/-- A sum of two numbers is stored with its carry. -/
private theorem storeNumber_sum (m : Units) (p n : Nat) {x : Nat} (hx : x < 2 * 2 ^ (64 * n)) :
    limbs (storeNumber m p n x) p n +
      2 ^ (64 * n) * (BitVec.ofNat 64 (x / 2 ^ (64 * n))).toNat = x := by
  have hdiv : x / 2 ^ (64 * n) < 2 := Nat.div_lt_of_lt_mul (by rwa [Nat.mul_comm])
  have hcarry : x / 2 ^ (64 * n) % 2 ^ 64 = x / 2 ^ (64 * n) := Nat.mod_eq_of_lt (by omega)
  rw [(storeNumber_spec m p n x).2, BitVec.toNat_ofNat, hcarry, Nat.mod_add_div]

/-- A difference of two numbers is stored, and its borrow is one bit. -/
private theorem storeNumber_difference (m : Units) (p n : Nat) {a b : Nat}
    (ha : a < 2 ^ (64 * n)) (hb : b ≤ 2 ^ (64 * n)) :
    (BitVec.ofNat 64 (borrow a b)).toNat = borrow a b ∧
      limbs (storeNumber m p n (a + 2 ^ (64 * n) - b)) p n + b =
        a + 2 ^ (64 * n) * borrow a b := by
  have hle := borrow_le_one a b
  refine ⟨by rw [BitVec.toNat_ofNat, Nat.mod_eq_of_lt (by omega)], ?_⟩
  rw [(storeNumber_spec m p n _).2]
  unfold borrow
  split
  · rw [Nat.mod_eq_of_lt (by omega)]
    omega
  · have hsub : a + 2 ^ (64 * n) - b = (a - b) + 2 ^ (64 * n) := by omega
    rw [hsub, Nat.add_mod_right, Nat.mod_eq_of_lt (by omega)]
    omega

/-- The reference functions do what the header says of the library. -/
theorem referenceLibrary_lawful : referenceLibrary.Lawful := by
  constructor
  case add =>
    intro m n r s t _ _
    have hs := limbs_lt m s n
    have ht := limbs_lt m t n
    exact ⟨(storeNumber_spec m r n _).1, storeNumber_sum m r n (by omega)⟩
  case add1 =>
    intro m n r s v _ hv
    have hs := limbs_lt m s n
    have hpos := Nat.two_pow_pos (64 * n)
    exact ⟨(storeNumber_spec m r n _).1, storeNumber_sum m r n (by omega)⟩
  case sub =>
    intro m n r s t _ _
    exact ⟨(storeNumber_spec m r n _).1,
      storeNumber_difference m r n (limbs_lt m s n) (limbs_lt m t n).le⟩
  case sub1 =>
    intro m n r s v _ hv
    exact ⟨(storeNumber_spec m r n _).1,
      storeNumber_difference m r n (limbs_lt m s n) (hv.trans (Nat.two_pow_pos _))⟩
  case cmp => exact fun _ _ _ _ => rfl
  case set =>
    intro m n r s _
    obtain ⟨hsame, hval⟩ := storeNumber_spec m r n (limbs m s n)
    exact ⟨hsame, hval.trans (Nat.mod_eq_of_lt (limbs_lt m s n))⟩
  case clear =>
    intro m n r
    have hlen : 8 * n / 8 = n := Nat.mul_div_cancel_left n (by decide)
    have hclear : referenceLibrary.clear m (8 * n) r = storeNumber m r n 0 :=
      congrArg (fun k => storeNumber m r k 0) hlen
    obtain ⟨hsame, hval⟩ := storeNumber_spec m r n 0
    rw [hclear]
    exact ⟨hsame, hval.trans (Nat.zero_mod _)⟩

/-- A vector of two units and one of one unit. -/
def twoVectors : Vectors Bool where
  base b := if b then 0 else 5
  size b := if b then 2 else 1
  apart := by decide

/-- A long vector with a small number, which is compared by its length, and a carry that crosses
units. -/
def carryRun : List (Call Bool) :=
  [.seti false 1, .setBit false 3 true, .seti true 5, .cmpn true false, .cmpn false true,
    .seti true (BitVec.allOnes 64), .addn true true false, .bit true 64, .subn true true false]

theorem ccn_refines_numbers_carry : ∃ m',
    execAll (step referenceLibrary twoVectors) (fun _ => 0) carryRun =
      .ok (m', [0, 0, 0, 1, -1, 0, 0, 1, 0]) ∧
    values twoVectors m' true = 2 ^ 64 - 1 ∧ values twoVectors m' false = 9 := by
  have hstart : values twoVectors (fun _ => 0) = fun _ => 0 :=
    funext fun _ => limbs_eq_zero fun _ _ => rfl
  have hcalls : (numberSpec twoVectors).Admissible (fun _ => 0) carryRun :=
    ⟨by decide, by decide, by decide, trivial, trivial, by decide, by decide, by decide,
      by decide, trivial⟩
  have hresults : (numberSpec twoVectors).results (fun _ => 0) carryRun =
      [0, 0, 0, 1, -1, 0, 0, 1, 0] := by
    decide +kernel
  obtain ⟨m', hrun, hval, -⟩ := @ccn_refines_numbers_of_exec Bool _ referenceLibrary
    twoVectors referenceLibrary_lawful (fun _ => 0) carryRun (hstart ▸ hcalls)
  rw [hstart] at hrun hval
  rw [hresults] at hrun
  exact ⟨m', hrun, (congrFun hval true).trans (by decide +kernel),
    (congrFun hval false).trans (by decide +kernel)⟩

end Reference

end MacKernel.Ccn
