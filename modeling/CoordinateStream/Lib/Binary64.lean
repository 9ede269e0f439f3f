import CoordinateStream.Lib.Decimal
import Mathlib.Data.Int.Log

namespace CoordinateStream

/-- A floating-point value: a finite one by its sign bit and exact magnitude, so that the
two zeros differ. Magnitudes are any nonnegative rationals, the binary64 ones among them. -/
inductive Double
  | finite (neg : Bool) (mag : ℚ≥0)
  | inf (neg : Bool)
  | nan (neg : Bool)
  deriving DecidableEq

namespace Double

/-- `0.0`. -/
def zero : Double := .finite false 0

def IsFinite : Double → Prop
  | .finite _ _ => True
  | _ => False

instance (x : Double) : Decidable x.IsFinite := by
  cases x <;> unfold IsFinite <;> infer_instance

/-- A finite value of magnitude at most `b`. -/
def Within (b : ℚ≥0) : Double → Prop
  | .finite _ m => m ≤ b
  | _ => False

instance (b : ℚ≥0) (x : Double) : Decidable (x.Within b) := by
  cases x <;> unfold Within <;> infer_instance

theorem Within.isFinite {b : ℚ≥0} {x : Double} (h : x.Within b) : x.IsFinite := by
  cases x with
  | finite neg m => trivial
  | inf neg => exact h
  | nan neg => exact h

/-- The `%.8f` family: `p` decimals, round half to even, the sign bit printed as `-`. -/
def format (p : ℕ) : Double → Text
  | .finite neg m =>
    (if neg then ['-'] else []) ++ Decimal.fixed p (Decimal.roundHalfEven (m * 10 ^ p))
  | .inf neg => (if neg then ['-'] else []) ++ "inf".toList
  | .nan neg => (if neg then ['-'] else []) ++ "nan".toList

end Double

/-- A conversion of exact magnitudes to floating point, `none` being a range error, that is
off by at most one part in `2 ^ 53` on zero and from `2 ^ (-1022)` up to `2 ^ 1023`. -/
def RoundsWithin (round : ℚ≥0 → Option ℚ≥0) : Prop :=
  ∀ x : ℚ≥0, x = 0 ∨ 1 / 2 ^ 1022 ≤ x ∧ x ≤ 2 ^ 1023 →
    ∃ v, round x = some v ∧ |(v : ℚ) - x| ≤ x / 2 ^ 53

namespace Binary64

/-- The exponent of the last mantissa bit of the binary64 numbers around `x`. -/
def ulpExponent (x : ℚ≥0) : ℤ := max (Int.log 2 x) (-1022) - 52

/-- Round to nearest, ties to even; a range error where the rounded result overflows, or is
subnormal and not exact. -/
def round (x : ℚ≥0) : Option ℚ≥0 :=
  let u : ℚ≥0 := 2 ^ ulpExponent x
  let v := Decimal.roundHalfEven (x / u) * u
  if 2 ^ 1024 ≤ v ∨ v < 1 / 2 ^ 1022 ∧ v ≠ x then none else some v

theorem roundHalfEven_zero : Decimal.roundHalfEven 0 = 0 :=
  Decimal.roundHalfEven_eq_of_near (by norm_num)

theorem log_of_normal {x : ℚ≥0} (h : 1 / 2 ^ 1022 ≤ x) : 0 < x ∧ -1022 ≤ Int.log 2 x := by
  have hx : 0 < x := lt_of_lt_of_le (one_div_pos.mpr (pow_pos two_pos 1022)) h
  refine ⟨hx, ?_⟩
  rw [← Int.zpow_le_iff_le_log (by decide) hx]
  simpa using h

theorem round_error {x : ℚ≥0} (h : 1 / 2 ^ 1022 ≤ x) :
    |((Decimal.roundHalfEven (x / 2 ^ ulpExponent x) * 2 ^ ulpExponent x : ℚ≥0) : ℚ) - x| ≤
      x / 2 ^ 53 := by
  obtain ⟨hx, hlog⟩ := log_of_normal h
  have hu : ulpExponent x = Int.log 2 x - 52 := by rw [ulpExponent, max_eq_left hlog]
  have hpos : (0 : ℚ) < 2 ^ ulpExponent x := zpow_pos two_pos _
  -- the last mantissa bit is worth at most `x / 2 ^ 52`
  have hulp : (2 : ℚ) ^ ulpExponent x ≤ x / 2 ^ 52 := by
    have hle := Int.zpow_log_le_self (b := 2) (by decide) hx
    rw [hu, zpow_sub₀ (by norm_num)]
    have hle' : (2 : ℚ) ^ Int.log 2 x ≤ x := by exact_mod_cast hle
    exact div_le_div_of_nonneg_right hle' (by norm_num)
  have herr := Decimal.roundHalfEven_error (x / 2 ^ ulpExponent x)
  have hscale :
      ((Decimal.roundHalfEven (x / 2 ^ ulpExponent x) * 2 ^ ulpExponent x : ℚ≥0) : ℚ) - x =
      (Decimal.roundHalfEven (x / 2 ^ ulpExponent x) - ((x / 2 ^ ulpExponent x : ℚ≥0) : ℚ)) *
        2 ^ ulpExponent x := by
    push_cast
    rw [sub_mul, div_mul_cancel₀ _ hpos.ne']
  rw [hscale, abs_mul, abs_of_pos hpos]
  calc _ ≤ 1 / 2 * (x / 2 ^ 52 : ℚ) := mul_le_mul herr hulp hpos.le (by norm_num)
    _ = x / 2 ^ 53 := by ring

/-- What is normal is not rounded down to a subnormal number. -/
theorem round_normal {x : ℚ≥0} (h : 1 / 2 ^ 1022 ≤ x) :
    1 / 2 ^ 1022 ≤ (Decimal.roundHalfEven (x / 2 ^ ulpExponent x) : ℚ≥0) * 2 ^ ulpExponent x := by
  obtain ⟨hx, hlog⟩ := log_of_normal h
  have hbinade : ((2 ^ 52 : ℕ) : ℚ≥0) * 2 ^ ulpExponent x = 2 ^ Int.log 2 x := by
    rw [ulpExponent, max_eq_left hlog, zpow_sub₀ two_ne_zero]
    push_cast
    exact mul_div_cancel₀ _ (by norm_num)
  have hdiv : ((2 ^ 52 : ℕ) : ℚ≥0) ≤ x / 2 ^ ulpExponent x := by
    rw [le_div_iff₀ (zpow_pos two_pos _), hbinade]
    exact_mod_cast Int.zpow_log_le_self (b := 2) (by decide) hx
  have hround : ((2 ^ 52 : ℕ) : ℚ≥0) ≤ Decimal.roundHalfEven (x / 2 ^ ulpExponent x) := by
    exact_mod_cast Decimal.le_roundHalfEven hdiv
  calc (1 / 2 ^ 1022 : ℚ≥0) = 2 ^ (-1022 : ℤ) := by rw [zpow_neg, one_div]; rfl
    _ ≤ 2 ^ Int.log 2 x := zpow_le_zpow_right₀ one_le_two hlog
    _ = (2 ^ 52 : ℕ) * 2 ^ ulpExponent x := hbinade.symm
    _ ≤ _ := mul_le_mul_of_nonneg_right hround (zpow_pos two_pos _).le

theorem lt_two_mul_of_error {v x b : ℚ} (hb : 0 < b) (hx : x ≤ b)
    (herr : |v - x| ≤ x / 2 ^ 53) : v < 2 * b := by
  have hle := (abs_le.mp herr).2
  linarith

theorem roundsWithin : RoundsWithin round := by
  rintro x (rfl | ⟨hlo, hhi⟩)
  · refine ⟨0, ?_, by norm_num⟩
    simp [round, roundHalfEven_zero]
  · have herr := round_error hlo
    refine ⟨_, ?_, herr⟩
    unfold round
    rw [if_neg]
    rintro (hbig | ⟨hsmall, -⟩)
    · have hbig' : (2 : ℚ) ^ 1024 ≤
          ((Decimal.roundHalfEven (x / 2 ^ ulpExponent x) * 2 ^ ulpExponent x : ℚ≥0) : ℚ) := by
        exact_mod_cast hbig
      have hhi' : (x : ℚ) ≤ 2 ^ 1023 := by exact_mod_cast hhi
      have hlt := lt_two_mul_of_error (pow_pos two_pos 1023) hhi' herr
      rw [← pow_succ'] at hlt
      exact absurd hbig' (not_le.mpr hlt)
    · exact absurd (round_normal hlo) (not_le.mpr hsmall)

end Binary64

end CoordinateStream
