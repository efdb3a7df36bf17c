import Mathlib.Data.Int.Log
import Mathlib.Data.Rat.Floor
import Mathlib.Tactic.NormNum

/-!
# Double Precision

Floats of double precision as rationals, with the two operations of a program that divides a
float and rounds the quotient to an integer. Every result is the exact one, rounded to nearest
and to even on ties.

## Main results

- `ofRat_natCast`: a whole number of at most 53 bits is a float.
- `round_div_mul`: a multiple of the divisor is divided without an error.
-/

namespace Rf215Sdr.Lib

/-- A float: a finite value, an infinity, or not a number. -/
inductive PyFloat where
  | finite (value : ℚ)
  | inf (negative : Bool)
  | nan
  deriving DecidableEq

/-- The nearest integer, the even one on a tie. -/
def roundHalfEven (q : ℚ) : ℤ :=
  let n := ⌊q⌋
  -- `rest` is at least 0 and less than 1
  let rest := q - n
  if rest < 1 / 2 then n
  else if 1 / 2 < rest then n + 1
  else if n % 2 = 0 then n else n + 1

/-- The exponent of the last place of a value with 53 significant bits, or of a subnormal. -/
def lastPlace (q : ℚ) : ℤ :=
  max (Int.log 2 |q| - 52) (-1074)

/-- The float nearest to a rational. -/
def PyFloat.ofRat (q : ℚ) : PyFloat :=
  if q = 0 then .finite 0
  else
    let r := (roundHalfEven (q / 2 ^ lastPlace q) : ℚ) * 2 ^ lastPlace q
    -- an overflow goes to infinity
    if 2 ^ 1024 ≤ |r| then .inf (decide (q < 0)) else .finite r

/-- Division by a positive constant. -/
def PyFloat.div (f : PyFloat) (d : ℚ) : PyFloat :=
  match f with
  | .finite value => .ofRat (value / d)
  | .inf negative => .inf negative
  | .nan => .nan

/-- `int(round(f))`: `none` when it raises. -/
def PyFloat.round (f : PyFloat) : Option ℤ :=
  match f with
  | .finite value => some (roundHalfEven value)
  | _ => none

/-! ## Whole numbers -/

theorem roundHalfEven_intCast (n : ℤ) : roundHalfEven n = n := by
  unfold roundHalfEven
  simp only [Int.floor_intCast, sub_self]
  rw [if_pos (by norm_num)]

/-- **A whole number of at most 53 bits is a float.** -/
theorem ofRat_natCast {n : ℕ} (hn : n < 2 ^ 53) : PyFloat.ofRat n = .finite n := by
  rcases Nat.eq_zero_or_pos n with rfl | hpos
  · rfl
  have hne : (n : ℚ) ≠ 0 := Nat.cast_ne_zero.mpr hpos.ne'
  have hlog : Nat.log 2 n ≤ 52 := Nat.lt_succ_iff.mp (Nat.log_lt_of_lt_pow hpos.ne' hn)
  have hplace : lastPlace n = -((52 - Nat.log 2 n : ℕ) : ℤ) := by
    unfold lastPlace
    rw [abs_of_nonneg (Nat.cast_nonneg n), Int.log_natCast]
    omega
  -- counted in its last place the value is whole, so nothing is rounded
  have hscaled : (n : ℚ) / 2 ^ lastPlace n = ((n * 2 ^ (52 - Nat.log 2 n) : ℕ) : ℤ) := by
    rw [hplace, zpow_neg, zpow_natCast, div_inv_eq_mul]
    push_cast
    rfl
  have hexact : (roundHalfEven ((n : ℚ) / 2 ^ lastPlace n) : ℚ) * 2 ^ lastPlace n = n := by
    rw [hscaled, roundHalfEven_intCast, ← hscaled]
    exact div_mul_cancel₀ _ (zpow_ne_zero _ two_ne_zero)
  have hsmall : ¬ (2 : ℚ) ^ 1024 ≤ |(n : ℚ)| := by
    rw [abs_of_nonneg (Nat.cast_nonneg n), not_le]
    calc (n : ℚ) < 2 ^ 53 := by exact_mod_cast hn
      _ ≤ 2 ^ 1024 := pow_le_pow_right₀ one_le_two (by decide)
  unfold PyFloat.ofRat
  rw [if_neg hne]
  dsimp only
  rw [hexact, if_neg hsmall]

/-- **A multiple of the divisor is divided without an error.** -/
theorem round_div_mul {d n : ℕ} (hd : 0 < d) (hn : n < 2 ^ 53) :
    ((PyFloat.finite (d * n)).div d).round = some (n : ℤ) := by
  have hne : (d : ℚ) ≠ 0 := Nat.cast_ne_zero.mpr hd.ne'
  have hquot : (PyFloat.finite (d * n)).div d = .finite n := by
    unfold PyFloat.div
    dsimp only
    rw [mul_div_cancel_left₀ _ hne, ofRat_natCast hn]
  rw [hquot]
  exact congrArg some (roundHalfEven_intCast n)

end Rf215Sdr.Lib
