import CoordinateStream.Lib.Binary64
import Mathlib.Data.Real.Basic

namespace CoordinateStream

/-! Addition and multiplication of floating-point values: the exact result, rounded. -/

namespace Binary64

/-- The numeral `2` is written with one proof in all definitions. -/
scoped instance atLeastTwo_two : Nat.AtLeastTwo 2 := ⟨le_refl 2⟩

/-- Round to nearest, ties to even, with no bound on the exponent above. -/
def nearest (x : ℚ≥0) : ℚ≥0 :=
  Decimal.roundHalfEven (x / 2 ^ ulpExponent x) * 2 ^ ulpExponent x

theorem zpow_add_natCast (e : ℤ) (k : ℕ) :
    (2 : ℚ≥0) ^ (e + k) = (2 ^ k : ℕ) * 2 ^ e := by
  rw [zpow_add₀ two_ne_zero, zpow_natCast, mul_comm]
  push_cast
  rfl

theorem lt_zpow_ulpExponent (x : ℚ≥0) : x < 2 ^ (ulpExponent x + 53) := by
  have hlog := Int.lt_zpow_succ_log_self (R := ℚ≥0) (b := 2) (by decide) x
  apply lt_of_lt_of_le hlog
  apply zpow_le_zpow_right₀ one_le_two
  rw [ulpExponent]
  omega

/-- Above the subnormal numbers a mantissa has all its bits. -/
theorem zpow_ulpExponent_le {x : ℚ≥0} (hpos : 0 < x) (h : -1074 < ulpExponent x) :
    2 ^ (ulpExponent x + 52) ≤ x := by
  rw [ulpExponent] at h ⊢
  have hlog : max (Int.log 2 x) (-1022) - 52 + 52 = Int.log 2 x := by omega
  rw [hlog]
  exact_mod_cast Int.zpow_log_le_self (b := 2) (by decide) hpos

theorem ulpExponent_mono {x y : ℚ≥0} (hx : 0 < x) (h : x ≤ y) : ulpExponent x ≤ ulpExponent y := by
  have hlog := Int.log_mono_right (b := 2) hx h
  rw [ulpExponent, ulpExponent]
  omega

theorem nearest_zero : nearest 0 = 0 := by
  rw [nearest, zero_div, roundHalfEven_zero, Nat.cast_zero, zero_mul]

/-- Rounding stays within the binade of a number. -/
theorem nearest_le_zpow (x : ℚ≥0) : nearest x ≤ 2 ^ (ulpExponent x + 53) := by
  have hdiv : x / 2 ^ ulpExponent x ≤ ((2 ^ 53 : ℕ) : ℚ≥0) := by
    apply (div_le_iff₀ (zpow_pos two_pos _)).mpr
    rw [← zpow_add_natCast]
    exact (lt_zpow_ulpExponent x).le
  have hround := Decimal.roundHalfEven_le hdiv
  calc nearest x ≤ (2 ^ 53 : ℕ) * 2 ^ ulpExponent x :=
        mul_le_mul_of_nonneg_right (by exact_mod_cast hround) (zpow_pos two_pos _).le
    _ = 2 ^ (ulpExponent x + 53) := (zpow_add_natCast _ _).symm

theorem zpow_le_nearest {x : ℚ≥0} (hpos : 0 < x) (h : -1074 < ulpExponent x) :
    2 ^ (ulpExponent x + 52) ≤ nearest x := by
  have hdiv : ((2 ^ 52 : ℕ) : ℚ≥0) ≤ x / 2 ^ ulpExponent x := by
    apply (le_div_iff₀ (zpow_pos two_pos _)).mpr
    rw [← zpow_add_natCast]
    exact zpow_ulpExponent_le hpos h
  have hround := Decimal.le_roundHalfEven hdiv
  calc (2 : ℚ≥0) ^ (ulpExponent x + 52) = (2 ^ 52 : ℕ) * 2 ^ ulpExponent x := zpow_add_natCast _ _
    _ ≤ nearest x :=
        mul_le_mul_of_nonneg_right (by exact_mod_cast hround) (zpow_pos two_pos _).le

theorem nearest_mono {x y : ℚ≥0} (h : x ≤ y) : nearest x ≤ nearest y := by
  rcases eq_or_ne x 0 with rfl | hx
  · rw [nearest_zero]
    exact zero_le
  have hpos := pos_iff_ne_zero.mpr hx
  rcases (ulpExponent_mono hpos h).eq_or_lt with heq | hlt
  · rw [nearest, nearest, heq]
    apply mul_le_mul_of_nonneg_right _ (zpow_pos two_pos _).le
    have hdiv : x / 2 ^ ulpExponent y ≤ y / 2 ^ ulpExponent y :=
      div_le_div_of_nonneg_right h (zpow_pos two_pos _).le
    exact_mod_cast Decimal.roundHalfEven_mono hdiv
  · -- a power of two stands between the two numbers, and between their roundings
    have hlow : -1074 ≤ ulpExponent x := by
      rw [ulpExponent]
      omega
    calc nearest x ≤ 2 ^ (ulpExponent x + 53) := nearest_le_zpow x
      _ ≤ 2 ^ (ulpExponent y + 52) := zpow_le_zpow_right₀ one_le_two (by omega)
      _ ≤ nearest y := zpow_le_nearest (hpos.trans_le h) (by omega)

/-- The numbers of 53 mantissa bits, with no bound on the exponent above. -/
def Representable (x : ℚ≥0) : Prop := ∃ (m : ℕ) (e : ℤ), m < 2 ^ 53 ∧ -1074 ≤ e ∧ x = m * 2 ^ e

theorem representable_nearest (x : ℚ≥0) : Representable (nearest x) := by
  have hlow : -1074 ≤ ulpExponent x := by
    rw [ulpExponent]
    omega
  have hle := nearest_le_zpow x
  rw [nearest, show (53 : ℤ) = (53 : ℕ) from rfl, zpow_add_natCast] at hle
  have hm : Decimal.roundHalfEven (x / 2 ^ ulpExponent x) ≤ 2 ^ 53 := by
    exact_mod_cast le_of_mul_le_mul_right hle (zpow_pos two_pos _)
  rcases hm.eq_or_lt with heq | hlt
  · -- the mantissa overflows into the next binade
    refine ⟨2 ^ 52, ulpExponent x + 1, by decide, by omega, ?_⟩
    rw [nearest, heq, zpow_add_one₀ two_ne_zero]
    push_cast
    ring
  · exact ⟨_, _, hlt, hlow, rfl⟩

/-- A number of 53 mantissa bits is its own rounding. -/
theorem nearest_of_representable {x : ℚ≥0} (h : Representable x) : nearest x = x := by
  obtain ⟨m, e, hm, he, rfl⟩ := h
  rcases Nat.eq_zero_or_pos m with rfl | hpos
  · rw [Nat.cast_zero, zero_mul, nearest_zero]
  have hu : ulpExponent (m * 2 ^ e) ≤ e := by
    have hlt : (m * 2 ^ e : ℚ≥0) < (2 : ℕ) ^ (e + 53) := by
      rw [Nat.cast_two, show (53 : ℤ) = (53 : ℕ) from rfl, zpow_add_natCast]
      apply mul_lt_mul_of_pos_right _ (zpow_pos two_pos _)
      exact_mod_cast hm
    have hlog := (Int.lt_zpow_iff_log_lt (b := 2) (by decide)
      (mul_pos (Nat.cast_pos.mpr hpos) (zpow_pos two_pos e))).mp hlt
    rw [ulpExponent]
    omega
  -- the number is a multiple of the unit its rounding counts in
  obtain ⟨k, hk⟩ := Int.le.dest hu
  have hmul : (m * 2 ^ e : ℚ≥0) = (m * 2 ^ k : ℕ) * 2 ^ ulpExponent (m * 2 ^ e) := by
    calc (m * 2 ^ e : ℚ≥0) = m * 2 ^ (ulpExponent (m * 2 ^ e) + k) := by rw [hk]
      _ = _ := by
        rw [zpow_add_natCast]
        push_cast
        ring
  rw [nearest]
  generalize ulpExponent (m * 2 ^ e) = u at hmul ⊢
  rw [hmul, mul_div_cancel_right₀ _ (zpow_pos two_pos u).ne', Decimal.roundHalfEven_natCast]

/-- Half a unit of the last bit, which is the same one for all subnormal numbers. -/
def roundoff (x : ℚ≥0) : ℚ := x / 2 ^ 53 + 1 / 2 ^ 1075

theorem roundoff_nonneg (x : ℚ≥0) : 0 ≤ roundoff x :=
  add_nonneg (div_nonneg x.cast_nonneg (by positivity)) (by positivity)

theorem roundoff_mono {x y : ℚ≥0} (h : x ≤ y) : roundoff x ≤ roundoff y := by
  have h' : (x : ℚ) ≤ y := by exact_mod_cast h
  exact add_le_add_left (div_le_div_of_nonneg_right h' (by positivity)) _

theorem nearest_error (x : ℚ≥0) : |(nearest x : ℚ) - x| ≤ roundoff x := by
  -- a normal number errs relative to its size, a subnormal one by half the least unit
  rcases le_or_gt (1 / 2 ^ 1022) x with hx | hx
  · have herr := round_error hx
    have hpos : (0 : ℚ) ≤ 1 / 2 ^ 1075 := by positivity
    exact herr.trans (le_add_of_nonneg_right hpos)
  · rcases eq_or_ne x 0 with rfl | hne
    · rw [nearest_zero, sub_self, abs_zero]
      exact roundoff_nonneg 0
    have hpos := pos_iff_ne_zero.mpr hne
    have hlog : Int.log 2 x < -1022 := by
      apply (Int.lt_zpow_iff_log_lt (by decide) hpos).mp
      simpa using hx
    have hu : ulpExponent x = -1074 := by
      rw [ulpExponent]
      omega
    have herr := Decimal.roundHalfEven_error (x / 2 ^ ulpExponent x)
    have hunit : (0 : ℚ) < 2 ^ ulpExponent x := zpow_pos two_pos _
    have hscale : (nearest x : ℚ) - x =
        (Decimal.roundHalfEven (x / 2 ^ ulpExponent x) - ((x / 2 ^ ulpExponent x : ℚ≥0) : ℚ)) *
          2 ^ ulpExponent x := by
      rw [nearest]
      push_cast
      rw [sub_mul, div_mul_cancel₀ _ hunit.ne']
    rw [hscale, abs_mul, abs_of_pos hunit]
    calc _ ≤ 1 / 2 * (2 : ℚ) ^ ulpExponent x := mul_le_mul_of_nonneg_right herr hunit.le
      _ = 1 / 2 ^ 1075 := by
        rw [hu, zpow_neg, show (1074 : ℤ) = (1074 : ℕ) from rfl, zpow_natCast, pow_succ 2 1074,
          one_div_mul_eq_div, one_div, mul_inv, div_eq_mul_inv]
      _ ≤ roundoff x := le_add_of_nonneg_left (by positivity)

end Binary64

namespace Double

open scoped Binary64

def mag : Double → ℚ≥0
  | .finite _ m => m
  | _ => 0

/-- A magnitude under a sign bit. -/
def signed (neg : Bool) (x : ℚ) : ℚ := if neg then -x else x

/-- The exact value of a finite double. -/
def toRat : Double → ℚ
  | .finite neg m => signed neg m
  | _ => 0

/-- An exact magnitude in binary64. -/
def rounded (neg : Bool) (x : ℚ≥0) : Double :=
  if 2 ^ 1024 ≤ Binary64.nearest x then .inf neg else .finite neg (Binary64.nearest x)

/-- An invalid operation makes the NaN of x86-64, whose sign bit is set. -/
def add : Double → Double → Double
  | .nan s, _ => .nan s
  | _, .nan s => .nan s
  | .inf s, .inf t => if s = t then .inf s else .nan true
  | .inf s, .finite _ _ => .inf s
  | .finite _ _, .inf t => .inf t
  | .finite s a, .finite t b =>
    if s = t then rounded s (a + b)
    else if a = b then .finite false 0
    else if b < a then rounded s (a - b)
    else rounded t (b - a)

def mul : Double → Double → Double
  | .nan s, _ => .nan s
  | _, .nan s => .nan s
  | .inf s, .inf t => .inf (s != t)
  | .inf s, .finite t b => if b = 0 then .nan true else .inf (s != t)
  | .finite s a, .inf t => if a = 0 then .nan true else .inf (s != t)
  | .finite s a, .finite t b => rounded (s != t) (a * b)

instance : Add Double := ⟨add⟩

instance : Mul Double := ⟨mul⟩

/-- A decimal constant of the source, `n / 10 ^ p`. -/
def ofDecimal (n p : ℕ) : Double := rounded false (n / 10 ^ p)

/-- What binary64 holds: the magnitudes of its finite numbers. -/
def IsBinary64 : Double → Prop
  | .finite _ m => Binary64.Representable m ∧ m < 2 ^ 1024
  | _ => True

theorem abs_signed (neg : Bool) (x : ℚ) : |signed neg x| = |x| := by
  unfold signed
  split_ifs
  · exact abs_neg x
  · rfl

theorem signed_sub (neg : Bool) (x y : ℚ) : signed neg x - signed neg y = signed neg (x - y) := by
  unfold signed
  split_ifs
  · ring
  · rfl

theorem abs_toRat (x : Double) : |x.toRat| = x.mag := by
  cases x with
  | finite neg m => rw [toRat, abs_signed, mag, abs_of_nonneg m.cast_nonneg]
  | inf | nan => simp [toRat, mag]

theorem Within.mag_le {b : ℚ≥0} {x : Double} (h : x.Within b) : x.mag ≤ b := by
  cases x with
  | finite neg m => exact h
  | inf neg => exact h.elim
  | nan neg => exact h.elim

theorem Within.mono {a b : ℚ≥0} {x : Double} (h : x.Within a) (hab : a ≤ b) : x.Within b := by
  cases x with
  | finite neg m => exact le_trans h hab
  | inf neg => exact h
  | nan neg => exact h

theorem IsFinite.within_mag {x : Double} (h : x.IsFinite) : x.Within x.mag := by
  cases x with
  | finite neg m => exact le_refl m
  | inf neg => exact h
  | nan neg => exact h

theorem rounded_within (neg : Bool) {x b : ℚ≥0} (h : x ≤ b)
    (hb : Binary64.nearest b < 2 ^ 1024) : (rounded neg x).Within (Binary64.nearest b) := by
  have hle := Binary64.nearest_mono h
  rw [rounded, if_neg (not_le.mpr (hle.trans_lt hb))]
  exact hle

theorem rounded_error (neg : Bool) {x : ℚ≥0} (h : Binary64.nearest x < 2 ^ 1024) :
    |(rounded neg x).toRat - signed neg x| ≤ Binary64.roundoff x := by
  rw [rounded, if_neg (not_le.mpr h), toRat, signed_sub, abs_signed]
  exact Binary64.nearest_error x

theorem rounded_isBinary64 (neg : Bool) (x : ℚ≥0) : (rounded neg x).IsBinary64 := by
  unfold rounded
  split_ifs with h
  · trivial
  · exact ⟨Binary64.representable_nearest x, not_le.mp h⟩

theorem rounded_zero (neg : Bool) : rounded neg 0 = .finite neg 0 := by
  rw [rounded, Binary64.nearest_zero, if_neg (by norm_num)]

theorem add_finite (s t : Bool) (a b : ℚ≥0) : Double.finite s a + .finite t b =
    if s = t then rounded s (a + b)
    else if a = b then .finite false 0
    else if b < a then rounded s (a - b)
    else rounded t (b - a) := rfl

theorem signed_add_not (s : Bool) (a b : ℚ) : signed s a + signed (!s) b = signed s (a - b) := by
  cases s
  · simp [signed, sub_eq_add_neg]
  · simp [signed]
    ring

/-- A sum of finite values is the rounding of an exact magnitude that is at most the sum of
theirs. -/
theorem exists_add_eq_rounded {x y : Double} (hx : x.IsFinite) (hy : y.IsFinite) :
    ∃ (neg : Bool) (m : ℚ≥0), x + y = rounded neg m ∧ signed neg m = x.toRat + y.toRat ∧
      m ≤ x.mag + y.mag := by
  cases x with
  | inf neg | nan neg => exact hx.elim
  | finite s a => cases y with
    | inf neg | nan neg => exact hy.elim
    | finite t b =>
      simp only [toRat, mag, add_finite]
      split_ifs with hst hab hlt
      · subst hst
        refine ⟨s, a + b, rfl, ?_, le_refl _⟩
        cases s
        · simp [signed]
        · simp [signed]
          ring
      · rw [hab, Bool.eq_not_of_ne (Ne.symm hst), signed_add_not, sub_self]
        exact ⟨false, 0, (rounded_zero false).symm, by simp [signed], zero_le⟩
      · rw [Bool.eq_not_of_ne (Ne.symm hst), signed_add_not]
        refine ⟨s, a - b, rfl, ?_, tsub_le_self.trans (le_add_of_nonneg_right zero_le)⟩
        rw [NNRat.coe_sub hlt.le]
      · rw [Bool.eq_not_of_ne hst, add_comm (signed (!t) a), signed_add_not]
        refine ⟨t, b - a, rfl, ?_, tsub_le_self.trans (le_add_of_nonneg_left zero_le)⟩
        rw [NNRat.coe_sub (not_lt.mp hlt)]

theorem exists_mul_eq_rounded {x y : Double} (hx : x.IsFinite) (hy : y.IsFinite) :
    ∃ neg : Bool, x * y = rounded neg (x.mag * y.mag) ∧
      signed neg (x.mag * y.mag) = x.toRat * y.toRat := by
  cases x with
  | inf neg | nan neg => exact hx.elim
  | finite s a => cases y with
    | inf neg | nan neg => exact hy.elim
    | finite t b =>
      refine ⟨s != t, rfl, ?_⟩
      cases s <;> cases t <;> simp [toRat, mag, signed]

section bounds

variable {x y : Double} {a b : ℚ≥0} (hx : x.Within a) (hy : y.Within b)

include hx hy

theorem add_within (hab : Binary64.nearest (a + b) < 2 ^ 1024) :
    (x + y).Within (Binary64.nearest (a + b)) := by
  obtain ⟨neg, m, heq, -, hm⟩ := exists_add_eq_rounded hx.isFinite hy.isFinite
  rw [heq]
  exact rounded_within neg (hm.trans (add_le_add hx.mag_le hy.mag_le)) hab

theorem mul_within (hab : Binary64.nearest (a * b) < 2 ^ 1024) :
    (x * y).Within (Binary64.nearest (a * b)) := by
  obtain ⟨neg, heq, -⟩ := exists_mul_eq_rounded hx.isFinite hy.isFinite
  rw [heq]
  exact rounded_within neg (mul_le_mul' hx.mag_le hy.mag_le) hab

theorem add_error (hab : Binary64.nearest (a + b) < 2 ^ 1024) :
    |(x + y).toRat - (x.toRat + y.toRat)| ≤ Binary64.roundoff (a + b) := by
  obtain ⟨neg, m, heq, hval, hm⟩ := exists_add_eq_rounded hx.isFinite hy.isFinite
  have hle := hm.trans (add_le_add hx.mag_le hy.mag_le)
  have herr := rounded_error neg ((Binary64.nearest_mono hle).trans_lt hab)
  rw [heq, ← hval]
  exact herr.trans (Binary64.roundoff_mono hle)

theorem mul_error (hab : Binary64.nearest (a * b) < 2 ^ 1024) :
    |(x * y).toRat - x.toRat * y.toRat| ≤ Binary64.roundoff (a * b) := by
  obtain ⟨neg, heq, hval⟩ := exists_mul_eq_rounded hx.isFinite hy.isFinite
  have hle := mul_le_mul' hx.mag_le hy.mag_le
  have herr := rounded_error neg ((Binary64.nearest_mono hle).trans_lt hab)
  rw [heq, ← hval]
  exact herr.trans (Binary64.roundoff_mono hle)

end bounds

/-- `x` stands for the real number `r`: it is off by `ε` at most, and of magnitude at most
`b`. -/
structure Approximates (x : Double) (r : ℝ) (b : ℚ≥0) (ε : ℝ) : Prop where
  within : x.Within b
  near : |(x.toRat : ℝ) - r| ≤ ε

theorem approximates_self {x : Double} {b : ℚ≥0} (h : x.Within b) :
    x.Approximates x.toRat b 0 := ⟨h, by rw [sub_self, abs_zero]⟩

namespace Approximates

variable {x y : Double} {r s : ℝ} {a b c : ℚ≥0} {ε δ : ℝ}

protected theorem add (hx : x.Approximates r a ε) (hy : y.Approximates s b δ)
    (hrep : Binary64.Representable c) (habc : a + b ≤ c) (hc : c < 2 ^ 1024) :
    (x + y).Approximates (r + s) c (ε + δ + Binary64.roundoff c) := by
  have hround := (Binary64.nearest_mono habc).trans_eq (Binary64.nearest_of_representable hrep)
  have herr : |((x + y).toRat : ℝ) - (x.toRat + y.toRat : ℚ)| ≤ Binary64.roundoff c := by
    have h := (add_error hx.within hy.within (hround.trans_lt hc)).trans
      (Binary64.roundoff_mono habc)
    exact_mod_cast (Rat.cast_le (K := ℝ)).mpr h
  refine ⟨(add_within hx.within hy.within (hround.trans_lt hc)).mono hround, ?_⟩
  have hsplit : ((x + y).toRat : ℝ) - (r + s) =
      ((x + y).toRat - (x.toRat + y.toRat : ℚ)) + ((x.toRat - r) + (y.toRat - s)) := by
    push_cast
    ring
  rw [hsplit]
  have htri := abs_add_le ((x.toRat : ℝ) - r) (y.toRat - s)
  have htri' := abs_add_le (((x + y).toRat : ℝ) - (x.toRat + y.toRat : ℚ))
    ((x.toRat - r) + (y.toRat - s))
  linarith [hx.near, hy.near]

protected theorem mul (hx : x.Approximates r a ε) (hy : y.Approximates s b δ) (hs : |s| ≤ b)
    (hrep : Binary64.Representable c) (habc : a * b ≤ c) (hc : c < 2 ^ 1024) :
    (x * y).Approximates (r * s) c (a * δ + b * ε + Binary64.roundoff c) := by
  have hround := (Binary64.nearest_mono habc).trans_eq (Binary64.nearest_of_representable hrep)
  have herr : |((x * y).toRat : ℝ) - (x.toRat * y.toRat : ℚ)| ≤ Binary64.roundoff c := by
    have h := (mul_error hx.within hy.within (hround.trans_lt hc)).trans
      (Binary64.roundoff_mono habc)
    exact_mod_cast (Rat.cast_le (K := ℝ)).mpr h
  refine ⟨(mul_within hx.within hy.within (hround.trans_lt hc)).mono hround, ?_⟩
  have hsplit : ((x * y).toRat : ℝ) - r * s =
      ((x * y).toRat - (x.toRat * y.toRat : ℚ)) +
        (x.toRat * (y.toRat - s) + s * (x.toRat - r)) := by
    push_cast
    ring
  have hxa : |(x.toRat : ℝ)| ≤ a := by
    have hle : (x.mag : ℚ) ≤ a := by exact_mod_cast hx.within.mag_le
    rw [← abs_toRat] at hle
    exact_mod_cast hle
  have hfirst : |(x.toRat : ℝ) * (y.toRat - s)| ≤ a * δ := by
    rw [abs_mul]
    exact mul_le_mul hxa hy.near (abs_nonneg _) a.cast_nonneg
  have hsecond : |s * ((x.toRat : ℝ) - r)| ≤ b * ε := by
    rw [abs_mul]
    exact mul_le_mul hs hx.near (abs_nonneg _) b.cast_nonneg
  rw [hsplit]
  have htri := abs_add_le ((x.toRat : ℝ) * (y.toRat - s)) (s * (x.toRat - r))
  have htri' := abs_add_le (((x * y).toRat : ℝ) - (x.toRat * y.toRat : ℚ))
    (x.toRat * (y.toRat - s) + s * (x.toRat - r))
  linarith

end Approximates

end Double

end CoordinateStream
