import Fgcom.Lib.DecimalText
import Mathlib.Data.Rat.Floor

/-! # The numbers the client computes with

The client keeps frequencies, positions and sound levels in `float` and `double`. `CFloat R` lists
the operations it applies to them, so that the program can be written once:

* over an **arbitrary** `CFloat R`, where nothing is known of the arithmetic but that values which
  compare equal are the same value (the two zeros counted as one; a not-a-number may compare unequal
  to itself);
* over the **exact** instance on `ℚ`, where storing a `double` in a `float` loses nothing. -/

namespace Fgcom

/-- The floating-point operations the client uses. -/
class CFloat (R : Type) where
  /-- A literal of the source. -/
  lit : ℚ → R
  add : R → R → R
  sub : R → R → R
  mul : R → R → R
  div : R → R → R
  /-- Rounding of a `double` stored in a `float`. -/
  toFloat : R → R
  /-- `ceilf`. -/
  ceilf : R → R
  /-- The cast `(int)`, towards zero. -/
  toInt : R → ℤ
  le : R → R → Bool
  eq : R → R → Bool
  /-- `atof` of the C library. -/
  atof : List Char → R
  /-- Values that compare equal are interchangeable. -/
  eq_sound : ∀ {a b : R}, eq a b = true → a = b

/-- The cast of an exact value to an integer: the fraction is cut off. -/
def truncate (q : ℚ) : ℤ := if 0 ≤ q then ⌊q⌋ else ⌈q⌉

/-- **Exact arithmetic.** -/
instance exactFloat : CFloat ℚ where
  lit q := q
  add a b := a + b
  sub a b := a - b
  mul a b := a * b
  div a b := a / b
  toFloat q := q
  ceilf q := ⌈q⌉
  toInt := truncate
  le a b := decide (a ≤ b)
  eq a b := decide (a = b)
  atof := DecimalText.atof
  eq_sound h := of_decide_eq_true h

section Exact

variable (a b q : ℚ)

@[simp] theorem lit_exact : CFloat.lit q = q := rfl
@[simp] theorem add_exact : CFloat.add a b = a + b := rfl
@[simp] theorem sub_exact : CFloat.sub a b = a - b := rfl
@[simp] theorem mul_exact : CFloat.mul a b = a * b := rfl
@[simp] theorem div_exact : CFloat.div a b = a / b := rfl
@[simp] theorem toFloat_exact : CFloat.toFloat q = q := rfl
@[simp] theorem ceilf_exact : CFloat.ceilf q = (⌈q⌉ : ℚ) := rfl
@[simp] theorem toInt_exact : CFloat.toInt q = truncate q := rfl
@[simp] theorem le_exact : CFloat.le a b = decide (a ≤ b) := rfl
@[simp] theorem eq_exact : CFloat.eq a b = decide (a = b) := rfl
@[simp] theorem atof_exact (s : List Char) : CFloat.atof (R := ℚ) s = DecimalText.atof s := rfl

end Exact

/-- `atoi`: `strtol` in base 10, which saturates at the 64-bit range, cut down to a 32-bit `int`. -/
def atoi (s : List Char) : ℤ :=
  let (neg, t) := DecimalText.readSign (s.dropWhile DecimalText.isSpace)
  let n : ℤ := Nat.ofDigitChars 10 (t.takeWhile Char.isDigit) 0
  (max (-2 ^ 63) (min (2 ^ 63 - 1) (if neg then -n else n))).bmod (2 ^ 32)

/-- Half a unit added to a whole number is cut off again. -/
@[simp] theorem truncate_add_half (k : ℕ) : truncate ((k : ℚ) + 1 / 2) = k := by
  have h0 : (0 : ℚ) ≤ (k : ℚ) + 1 / 2 := by positivity
  rw [truncate, if_pos h0, Int.floor_eq_iff]
  constructor
  · push_cast; linarith
  · push_cast; linarith

end Fgcom
