import MacKernel.Core.IntegerType

/-!
# Arithmetic that checks for overflow

The operations of one step are the compiler's: they compute in unbounded integers, store the
result in the type of the destination, modulo its size, and say whether it did not fit. The
operations of two steps keep the first result in a variable of the destination's type.
-/

namespace MacKernel.Overflow

/-- What an operation returns and what it stores in `*res`. -/
structure Checked where
  overflow : Bool
  stored : Int
  deriving DecidableEq, Repr

/-- An exact result on its way into a destination of type `t`. -/
def checked (t : IntegerType) (v : Int) : Checked := ⟨¬ t.Fits v, t.wrap v⟩

/-- `os_add_overflow`. -/
def osAddOverflow (t : IntegerType) (a b : Int) : Checked := checked t (a + b)

/-- `os_sub_overflow`. -/
def osSubOverflow (t : IntegerType) (a b : Int) : Checked := checked t (a - b)

/-- `os_mul_overflow`. -/
def osMulOverflow (t : IntegerType) (a b : Int) : Checked := checked t (a * b)

/-- The first step leaves its result in `_tmp` for the second; `_s | _t` is returned. -/
def Checked.andThen (first : Checked) (second : Int → Checked) : Checked :=
  ⟨first.overflow || (second first.stored).overflow, (second first.stored).stored⟩

/-- `os_add3_overflow`. -/
def osAdd3Overflow (t : IntegerType) (a b c : Int) : Checked :=
  (osAddOverflow t a b).andThen fun tmp => osAddOverflow t c tmp

/-- `os_mul3_overflow`. -/
def osMul3Overflow (t : IntegerType) (a b c : Int) : Checked :=
  (osMulOverflow t a b).andThen fun tmp => osMulOverflow t c tmp

/-- `os_add_and_mul_overflow`. -/
def osAddAndMulOverflow (t : IntegerType) (a b x : Int) : Checked :=
  (osAddOverflow t a b).andThen fun tmp => osMulOverflow t x tmp

/-- `os_mul_and_add_overflow`. -/
def osMulAndAddOverflow (t : IntegerType) (a x b : Int) : Checked :=
  (osMulOverflow t a x).andThen fun tmp => osAddOverflow t b tmp

/-- `os_convert_overflow`. -/
def osConvertOverflow (t : IntegerType) (a : Int) : Checked := osAddOverflow t a 0

/-- `os_inc_overflow`. -/
def osIncOverflow (t : IntegerType) (res : Int) : Checked := osAddOverflow t res 1

/-- `os_dec_overflow`. -/
def osDecOverflow (t : IntegerType) (res : Int) : Checked := osSubOverflow t res 1

end MacKernel.Overflow
