import Mathlib.Data.List.Induction
import MacKernel.Models.Overflow.Native

/-!
# Operations of two steps

The first step may wrap, and the second then works on a wrong number of the right residue.
What is stored in the end has the residue of the exact value, and it is the exact value unless
a step reported an overflow. For operands that are not negative a sum after a wrapped step
cannot come back into range. A counter is a run of such steps.
-/

namespace MacKernel.Overflow

variable {t : IntegerType}

/-- What an operation does for its exact value: the value is stored modulo the size of the
destination's type, and stored exactly if no overflow is reported. -/
structure Computes (t : IntegerType) (r : Checked) (exact : Int) : Prop where
  stored_fits : t.Fits r.stored
  stored_mod : r.stored % t.size = exact % t.size
  stored_exact : r.overflow = false → r.stored = exact

/-- The return value says exactly whether the value does not fit. -/
def Reports (t : IntegerType) (r : Checked) (exact : Int) : Prop :=
  r.overflow = true ↔ ¬ t.Fits exact

/-- Without an overflow the value fits. -/
theorem checked_overflow_eq_false {v : Int} (h : (checked t v).overflow = false) : t.Fits v := by
  simpa [checked] using h

/-- A checked operation stores the value or its residue. -/
theorem checked_computes (t : IntegerType) (v : Int) : Computes t (checked t v) v where
  stored_fits := t.wrap_fits v
  stored_mod := t.wrap_modEq v
  stored_exact h := IntegerType.wrap_of_fits (checked_overflow_eq_false h)

/-- A checked operation reports exactly the overflows. -/
theorem checked_reports (t : IntegerType) (v : Int) : Reports t (checked t v) v :=
  decide_eq_true_iff

/-- A further step that goes by the residue of the result so far. -/
theorem Computes.andThen {r : Checked} {v : Int} (h : Computes t r v) (f : Int → Int)
    (hf : ∀ {u v}, Int.ModEq t.size u v → Int.ModEq t.size (f u) (f v)) :
    Computes t (r.andThen fun tmp => checked t (f tmp)) (f v) where
  stored_fits := t.wrap_fits _
  stored_mod := (t.wrap_modEq _).trans (hf h.stored_mod)
  stored_exact hnone := by
    obtain ⟨hfirst, hsecond⟩ := Bool.or_eq_false_iff.1 hnone
    calc (r.andThen fun tmp => checked t (f tmp)).stored
        = f r.stored := (checked_computes t _).stored_exact hsecond
      _ = f v := by rw [h.stored_exact hfirst]

/-- A second step that does not get below a first result which is not negative. -/
theorem andThen_reports {v : Int} {f : Int → Int} (hv : 0 ≤ v) (hle : v ≤ f v) :
    Reports t ((checked t v).andThen fun tmp => checked t (f tmp)) (f v) := by
  by_cases hfits : t.Fits v
  · have hexact : (checked t v).stored = v := IntegerType.wrap_of_fits hfits
    have hfirst : (checked t v).overflow = false := decide_eq_false (not_not.2 hfits)
    unfold Reports Checked.andThen
    rw [hexact, hfirst, Bool.false_or]
    exact checked_reports t (f v)
  · have hfirst : (checked t v).overflow = true := decide_eq_true hfits
    have hbig : ¬ t.Fits (f v) := fun h => hfits (h.of_le hv hle)
    unfold Reports Checked.andThen
    rw [hfirst, Bool.true_or]
    exact iff_of_true rfl hbig

/-- `os_add3_overflow` computes the sum of three operands. -/
theorem osAdd3Overflow_computes (t : IntegerType) (a b c : Int) :
    Computes t (osAdd3Overflow t a b c) (a + b + c) := by
  have h := (checked_computes t (a + b)).andThen (fun u => c + u) fun h => h.add_left c
  rwa [Int.add_comm c] at h

/-- `os_mul3_overflow` computes the product of three operands. -/
theorem osMul3Overflow_computes (t : IntegerType) (a b c : Int) :
    Computes t (osMul3Overflow t a b c) (a * b * c) := by
  have h := (checked_computes t (a * b)).andThen (fun u => c * u) fun h => h.mul_left c
  rwa [Int.mul_comm c] at h

/-- `os_add_and_mul_overflow` computes what its name says. -/
theorem osAddAndMulOverflow_computes (t : IntegerType) (a b x : Int) :
    Computes t (osAddAndMulOverflow t a b x) ((a + b) * x) := by
  have h := (checked_computes t (a + b)).andThen (fun u => x * u) fun h => h.mul_left x
  rwa [Int.mul_comm x] at h

/-- `os_mul_and_add_overflow` computes what its name says. -/
theorem osMulAndAddOverflow_computes (t : IntegerType) (a x b : Int) :
    Computes t (osMulAndAddOverflow t a x b) (a * x + b) := by
  have h := (checked_computes t (a * x)).andThen (fun u => b + u) fun h => h.add_left b
  rwa [Int.add_comm b] at h

/-- Of operands that are not negative no partial sum overflows alone. -/
theorem osAdd3Overflow_reports {a b c : Int} (ha : 0 ≤ a) (hb : 0 ≤ b) (hc : 0 ≤ c) :
    Reports t (osAdd3Overflow t a b c) (a + b + c) := by
  have h := andThen_reports (t := t) (f := fun u => c + u) (Int.add_nonneg ha hb)
    (Int.le_add_of_nonneg_left hc)
  rwa [Int.add_comm c] at h

/-- Of operands that are not negative no product overflows alone. -/
theorem osMulAndAddOverflow_reports {a x b : Int} (ha : 0 ≤ a) (hx : 0 ≤ x) (hb : 0 ≤ b) :
    Reports t (osMulAndAddOverflow t a x b) (a * x + b) := by
  have h := andThen_reports (t := t) (f := fun u => b + u) (Int.mul_nonneg ha hx)
    (Int.le_add_of_nonneg_left hb)
  rwa [Int.add_comm b] at h

/-- The four operations of two steps, for every type of the destination. -/
theorem compound_overflow (t : IntegerType) (a b c x : Int) :
    Computes t (osAdd3Overflow t a b c) (a + b + c)
      ∧ Computes t (osMul3Overflow t a b c) (a * b * c)
      ∧ Computes t (osAddAndMulOverflow t a b x) ((a + b) * x)
      ∧ Computes t (osMulAndAddOverflow t a x b) (a * x + b)
      ∧ (0 ≤ a → 0 ≤ b → 0 ≤ c → Reports t (osAdd3Overflow t a b c) (a + b + c))
      ∧ (0 ≤ a → 0 ≤ x → 0 ≤ b → Reports t (osMulAndAddOverflow t a x b) (a * x + b)) :=
  ⟨osAdd3Overflow_computes t a b c, osMul3Overflow_computes t a b c,
    osAddAndMulOverflow_computes t a b x, osMulAndAddOverflow_computes t a x b,
    osAdd3Overflow_reports, osMulAndAddOverflow_reports⟩

/-- A sum and a product that leave an `int8_t`, one of them with a first step that wraps. -/
theorem compound_overflow_int8 :
    Reports ⟨true, 8, by decide⟩ (osAdd3Overflow ⟨true, 8, by decide⟩ 100 100 3) (100 + 100 + 3)
      ∧ Reports ⟨true, 8, by decide⟩ (osMulAndAddOverflow ⟨true, 8, by decide⟩ 100 1 100)
          (100 * 1 + 100) := by
  obtain ⟨-, -, -, -, hadd, hmul⟩ := compound_overflow ⟨true, 8, by decide⟩ 100 100 3 1
  exact ⟨hadd (by decide) (by decide) (by decide), hmul (by decide) (by decide) (by decide)⟩

section Counting

/-- The operations that change an object in place. -/
inductive Count where
  /-- `os_inc_overflow`. -/
  | inc
  /-- `os_dec_overflow`. -/
  | dec
  deriving DecidableEq, Repr

namespace Count

def amount : Count → Int
  | inc => 1
  | dec => -1

/-- What the operation does to the object. -/
def step (t : IntegerType) (res : Int) : Count → Checked
  | inc => osIncOverflow t res
  | dec => osDecOverflow t res

end Count

/-- A number is converted to the type of a counter, which then goes up and down; whether any step
reported an overflow. -/
def counted (t : IntegerType) (a : Int) (counts : List Count) : Checked :=
  counts.foldl (fun r c => r.andThen fun res => c.step t res) (osConvertOverflow t a)

/-- Every step of a count is a checked addition. -/
theorem Count.step_eq (t : IntegerType) (res : Int) (c : Count) :
    c.step t res = checked t (res + c.amount) := by
  cases c with
  | inc => rfl
  | dec => exact congrArg (checked t) (Int.sub_eq_add_neg ..)

/-- A counter holds the number that it was counted to, modulo the size of its type, and exactly
if no step reported an overflow. -/
theorem counted_computes (t : IntegerType) (a : Int) (counts : List Count) :
    Computes t (counted t a counts) (a + (counts.map Count.amount).sum) := by
  induction counts using List.reverseRecOn with
  | nil => exact checked_computes t (a + 0)
  | append_singleton counts c ih =>
    have hstep : counted t a (counts ++ [c]) =
        (counted t a counts).andThen fun res => checked t (res + c.amount) := by
      unfold counted
      rw [List.foldl_append]
      simp only [List.foldl_cons, List.foldl_nil, Count.step_eq]
    rw [hstep, List.map_append, List.sum_append, List.map_singleton, List.sum_singleton,
      ← add_assoc]
    exact ih.andThen (fun u => u + c.amount) fun h => h.add_right c.amount

/-- Counting an `int8_t` past its greatest value and back stores the number, although a step
reported an overflow. -/
example : counted ⟨true, 8, by decide⟩ 127 [.inc, .dec] = ⟨true, 127⟩ := by decide

end Counting

end MacKernel.Overflow
