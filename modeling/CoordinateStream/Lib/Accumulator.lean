import CoordinateStream.Lib.DoubleArith
import Mathlib.Order.Fin.Basic
import Mathlib.Order.OrderIsoNat
import Mathlib.Order.Hom.Basic
import Mathlib.Algebra.Order.Ring.Pow

namespace CoordinateStream

/-! A floating-point variable that only ever has one constant added to it. -/

namespace Binary64

/-- The magnitude after `n` additions of `step` to zero, each of them rounded. -/
def accumulate (step : ℚ≥0) : ℕ → ℚ≥0
  | 0 => 0
  | n + 1 => nearest (accumulate step n + step)

theorem accumulate_succ (step : ℚ≥0) (n : ℕ) :
    accumulate step (n + 1) = nearest (accumulate step n + step) := rfl

theorem representable_zero : Representable 0 := ⟨0, 0, by decide, by decide, by simp⟩

/-- The first mantissa that needs another bit is representable all the same. -/
theorem representable_of_le {m : ℕ} {e : ℤ} (hm : m ≤ 2 ^ 53) (he : -1074 ≤ e) :
    Representable (m * 2 ^ e) := by
  rcases hm.eq_or_lt with rfl | hlt
  · refine ⟨2 ^ 52, e + 1, by decide, by omega, ?_⟩
    rw [zpow_add_one₀ two_ne_zero]
    push_cast
    ring
  · exact ⟨m, e, hlt, he, rfl⟩

theorem representable_zpow {e : ℤ} (he : -1074 ≤ e) : Representable (2 ^ e) := by
  have h := representable_of_le (m := 1) (by decide) he
  rwa [Nat.cast_one, one_mul] at h

variable {step : ℚ≥0}

theorem representable_accumulate (n : ℕ) : Representable (accumulate step n) := by
  cases n with
  | zero => exact representable_zero
  | succ n => exact representable_nearest _

theorem accumulate_le_succ (n : ℕ) : accumulate step n ≤ accumulate step (n + 1) := by
  calc accumulate step n = nearest (accumulate step n) :=
        (nearest_of_representable (representable_accumulate n)).symm
    _ ≤ accumulate step (n + 1) := nearest_mono (le_add_of_nonneg_right zero_le)

theorem accumulate_mono : Monotone (accumulate step) := monotone_nat_of_le_succ accumulate_le_succ

theorem ulpExponent_eq {x : ℚ≥0} {k : ℤ} (hk : -1022 ≤ k) (hlo : 2 ^ k ≤ x)
    (hhi : x < 2 ^ (k + 1)) : ulpExponent x = k - 52 := by
  have hpos : 0 < x := (zpow_pos two_pos k).trans_le hlo
  have hle := (Int.zpow_le_iff_le_log (b := 2) (by decide) hpos).mp (by exact_mod_cast hlo)
  have hlt := (Int.lt_zpow_iff_log_lt (b := 2) (by decide) hpos).mp (by exact_mod_cast hhi)
  rw [ulpExponent]
  omega

theorem exists_natCast_mul {x : ℚ≥0} (h : Representable x) : ∃ q : ℕ, x = q * 2 ^ (-1074 : ℤ) := by
  obtain ⟨m, e, -, he, rfl⟩ := h
  obtain ⟨k, rfl⟩ := Int.le.dest he
  refine ⟨m * 2 ^ k, ?_⟩
  rw [zpow_add_natCast]
  push_cast
  ring

theorem zpow_le_of_representable {x : ℚ≥0} (h : Representable x) (hpos : 0 < x) :
    2 ^ (-1074 : ℤ) ≤ x := by
  obtain ⟨q, rfl⟩ := exists_natCast_mul h
  have hq : 1 ≤ q := Nat.one_le_iff_ne_zero.mpr (by rintro rfl; simp at hpos)
  exact le_mul_of_one_le_left zero_le (by exact_mod_cast hq)

/-- A step of less than half the last bit is lost. -/
theorem nearest_zpow_add {k : ℤ} (hk : -1076 ≤ k) (hstep : step < 2 ^ (k + 1)) :
    nearest (2 ^ (k + 54) + step) = 2 ^ (k + 54) := by
  have hu : ulpExponent (2 ^ (k + 54) + step) = k + 2 := by
    rw [ulpExponent_eq (k := k + 54) (by omega) (le_add_of_nonneg_right zero_le)]
    · ring
    · rw [zpow_add_one₀ two_ne_zero, mul_two]
      apply add_lt_add_right
      exact hstep.trans (zpow_lt_zpow_right₀ one_lt_two (by omega))
  have hunit : (0 : ℚ≥0) < 2 ^ (k + 2) := zpow_pos two_pos _
  have hdiv : ((2 : ℚ≥0) ^ (k + 54) + step) / 2 ^ (k + 2) =
      (2 ^ 52 : ℕ) + step / 2 ^ (k + 2) := by
    rw [add_div, show k + 54 = k + 2 + (52 : ℕ) by push_cast; ring, zpow_add_natCast,
      mul_div_cancel_right₀ _ hunit.ne']
  have hhalf : step / 2 ^ (k + 2) < 1 / 2 := by
    rw [div_lt_iff₀ hunit, show k + 2 = k + 1 + 1 by ring, zpow_add_one₀ two_ne_zero, one_div,
      lt_inv_mul_iff₀ two_pos, mul_comm 2 step]
    exact mul_lt_mul_of_pos_right hstep two_pos
  have hround : Decimal.roundHalfEven ((2 ^ 52 : ℕ) + step / 2 ^ (k + 2)) = 2 ^ 52 := by
    apply Decimal.roundHalfEven_eq_of_near
    rw [NNRat.cast_add, NNRat.cast_natCast, add_sub_cancel_left,
      abs_of_nonneg (NNRat.cast_nonneg _)]
    exact_mod_cast hhalf
  rw [nearest, hu, hdiv, hround, show k + 54 = k + 2 + (52 : ℕ) by push_cast; ring,
    zpow_add_natCast]

theorem accumulate_le {k : ℤ} (hk : -1076 ≤ k) (hstep : step < 2 ^ (k + 1)) (n : ℕ) :
    accumulate step n ≤ 2 ^ (k + 54) := by
  induction n with
  | zero => exact zero_le
  | succ n ih =>
    calc accumulate step (n + 1) ≤ nearest (2 ^ (k + 54) + step) :=
          nearest_mono (add_le_add_left ih step)
      _ = 2 ^ (k + 54) := nearest_zpow_add hk hstep

/-- The variable never gets beyond `2 ^ 54` steps. -/
theorem accumulate_le_mul (hrep : Representable step) (hpos : 0 < step) (n : ℕ) :
    accumulate step n ≤ 2 ^ 54 * step := by
  have hlow : -1074 ≤ Int.log 2 step :=
    (Int.zpow_le_iff_le_log (b := 2) (by decide) hpos).mp
      (by exact_mod_cast zpow_le_of_representable hrep hpos)
  have hlog : (2 : ℚ≥0) ^ Int.log 2 step ≤ step := by
    exact_mod_cast Int.zpow_log_le_self (b := 2) (by decide) hpos
  have hsucc : step < (2 : ℚ≥0) ^ (Int.log 2 step + 1) := by
    exact_mod_cast Int.lt_zpow_succ_log_self (b := 2) (by decide) step
  calc accumulate step n ≤ 2 ^ (Int.log 2 step + (54 : ℕ)) := accumulate_le (by omega) hsucc n
    _ = (2 ^ 54 : ℕ) * 2 ^ Int.log 2 step := zpow_add_natCast _ _
    _ ≤ 2 ^ 54 * step := by
      push_cast
      exact mul_le_mul_of_nonneg_left hlog zero_le

/-- A step of at least the last bit counts. -/
theorem lt_nearest_add_of_le {q : ℕ} {u : ℤ} (hq : q < 2 ^ 53) (hu : -1074 ≤ u)
    (hstep : 2 ^ u ≤ step) : (q : ℚ≥0) * 2 ^ u < nearest (q * 2 ^ u + step) := by
  calc (q : ℚ≥0) * 2 ^ u < (q + 1 : ℕ) * 2 ^ u := by
        apply mul_lt_mul_of_pos_right _ (zpow_pos two_pos u)
        exact_mod_cast Nat.lt_succ_self q
    _ = nearest ((q + 1 : ℕ) * 2 ^ u) :=
        (nearest_of_representable (representable_of_le hq hu)).symm
    _ ≤ nearest (q * 2 ^ u + step) := by
        apply nearest_mono
        rw [Nat.cast_add_one, add_mul, one_mul]
        exact add_le_add_right hstep _

/-- A step of more than half the last bit counts. -/
theorem lt_nearest_add_of_half {q : ℕ} {u : ℤ} (hq : q < 2 ^ 53) (hu : -1074 < u)
    (hnormal : 2 ^ (u + 52) ≤ (q : ℚ≥0) * 2 ^ u) (hhalf : 2 ^ u < 2 * step)
    (hstep : step < 2 ^ u) : (q : ℚ≥0) * 2 ^ u < nearest (q * 2 ^ u + step) := by
  have hunit : (0 : ℚ≥0) < 2 ^ u := zpow_pos two_pos u
  rcases le_or_gt (2 ^ (u + 53)) ((q : ℚ≥0) * 2 ^ u + step) with hbinade | hbinade
  · -- the sum needs another bit
    calc (q : ℚ≥0) * 2 ^ u < 2 ^ (u + (53 : ℕ)) := by
          rw [zpow_add_natCast]
          exact mul_lt_mul_of_pos_right (by exact_mod_cast hq) hunit
      _ = nearest (2 ^ (u + 53)) :=
          (nearest_of_representable (representable_zpow (by omega))).symm
      _ ≤ nearest (q * 2 ^ u + step) := nearest_mono hbinade
  · have hexp : ulpExponent (q * 2 ^ u + step) = u := by
      rw [ulpExponent_eq (k := u + 52) (by omega) (hnormal.trans (le_add_of_nonneg_right zero_le))]
      · ring
      · rwa [show u + 52 + 1 = u + 53 by ring]
    have hdiv : ((q : ℚ≥0) * 2 ^ u + step) / 2 ^ u = q + step / 2 ^ u := by
      rw [add_div, mul_div_cancel_right₀ _ hunit.ne']
    have hround : Decimal.roundHalfEven (q + step / 2 ^ u) = q + 1 := by
      have hlo : (1 / 2 : ℚ) < (step / 2 ^ u : ℚ≥0) := by
        have h : (1 / 2 : ℚ≥0) < step / 2 ^ u := by
          rwa [lt_div_iff₀ hunit, one_div, inv_mul_lt_iff₀ two_pos]
        exact_mod_cast h
      have hhi : ((step / 2 ^ u : ℚ≥0) : ℚ) < 1 := by
        exact_mod_cast (div_lt_one hunit).mpr hstep
      apply Decimal.roundHalfEven_eq_of_near
      rw [abs_lt]
      push_cast at hlo hhi ⊢
      constructor <;> linarith
    rw [nearest, hexp, hdiv, hround]
    apply mul_lt_mul_of_pos_right _ hunit
    exact_mod_cast Nat.lt_succ_self q

/-- As long as it is below `2 ^ 53` steps, every addition counts. -/
theorem lt_accumulate_succ (hrep : Representable step) (hpos : 0 < step) {n : ℕ}
    (hn : accumulate step n < 2 ^ 53 * step) :
    accumulate step n < accumulate step (n + 1) := by
  rcases eq_or_ne (accumulate step n) 0 with hz | hne
  · rw [accumulate, hz, zero_add, nearest_of_representable hrep]
    exact hpos
  -- the value is a whole number of units
  have hself : nearest (accumulate step n) = accumulate step n :=
    nearest_of_representable (representable_accumulate n)
  have hlt := lt_zpow_ulpExponent (accumulate step n)
  have hnormal := zpow_ulpExponent_le (pos_iff_ne_zero.mpr hne)
  have hlow : -1074 ≤ ulpExponent (accumulate step n) := by
    rw [ulpExponent]
    omega
  rw [accumulate_succ]
  rw [nearest] at hself
  generalize ulpExponent (accumulate step n) = u at hself hlt hnormal hlow
  generalize Decimal.roundHalfEven (accumulate step n / 2 ^ u) = q at hself
  rw [← hself] at hlt hnormal hn ⊢
  have hunit : (0 : ℚ≥0) < 2 ^ u := zpow_pos two_pos u
  have hq : q < 2 ^ 53 := by
    rw [show (53 : ℤ) = (53 : ℕ) from rfl, zpow_add_natCast] at hlt
    exact_mod_cast lt_of_mul_lt_mul_right hlt hunit.le
  rcases le_or_gt (2 ^ u) step with hstep | hstep
  · exact lt_nearest_add_of_le hq hlow hstep
  · have hu : -1074 < u := (zpow_lt_zpow_iff_right₀ (one_lt_two (α := ℚ≥0))).mp
      ((zpow_le_of_representable hrep hpos).trans_lt hstep)
    refine lt_nearest_add_of_half hq hu (hnormal hu) ?_ hstep
    have hle := (hnormal hu).trans_lt hn
    rw [show (52 : ℤ) = (52 : ℕ) from rfl, zpow_add_natCast] at hle
    refine lt_of_mul_lt_mul_left (a := (2 ^ 52 : ℚ≥0)) ?_ zero_le
    rw [← mul_assoc, ← pow_succ]
    exact_mod_cast hle

/-- Every step is lost in the end. -/
theorem exists_accumulate_eq (step : ℚ≥0) :
    ∃ N, ∀ n, N ≤ n → accumulate step n = accumulate step N := by
  obtain ⟨k, hk, hstep⟩ : ∃ k : ℤ, -1076 ≤ k ∧ step < 2 ^ (k + 1) := by
    refine ⟨max (Int.log 2 step) (-1076), le_max_right _ _, ?_⟩
    have hlt := Int.lt_zpow_succ_log_self (b := 2) (by decide) step
    rw [Nat.cast_two] at hlt
    exact hlt.trans_le (zpow_le_zpow_right₀ one_le_two (by omega))
  have hrepresentable : ∀ n, Representable (accumulate step n) := representable_accumulate
  choose q hq using fun n => exists_natCast_mul (hrepresentable n)
  have hunit : (0 : ℚ≥0) < 2 ^ (-1074 : ℤ) := zpow_pos two_pos _
  have hmono : Monotone q := by
    intro m n hmn
    have hle : accumulate step m ≤ accumulate step n := accumulate_mono hmn
    rw [hq m, hq n] at hle
    exact_mod_cast le_of_mul_le_mul_right hle hunit
  obtain ⟨B, hB⟩ := Int.le.dest (show -1074 ≤ k + 54 by omega)
  have hbound : ∀ n, q n < 2 ^ B + 1 := by
    intro n
    have hle := accumulate_le hk hstep n
    rw [hq n, ← hB, zpow_add_natCast] at hle
    exact Nat.lt_succ_of_le (by exact_mod_cast le_of_mul_le_mul_right hle hunit)
  -- a bounded sequence of natural numbers that never falls comes to rest
  obtain ⟨N, hN⟩ := WellFoundedGT.monotone_chain_condition
    (α := Fin (2 ^ B + 1)) ⟨fun n => ⟨q n, hbound n⟩, fun _ _ h => hmono h⟩
  refine ⟨N, fun n hn => ?_⟩
  have heq : q N = q n := congrArg Fin.val (hN n hn)
  rw [hq n, hq N, heq]

/-! The distance from the exact multiple, for a step that is no subnormal number. -/

section drift

/-- How far `n` additions may be off, in relation to their exact sum. -/
def drift (n : ℕ) : ℚ := (1 + 1 / 2 ^ 53) ^ n - 1

variable (hstep : 1 / 2 ^ 1022 ≤ step)

include hstep

theorem nearest_add_error (t : ℚ≥0) :
    |(nearest (t + step) : ℚ) - (t + step)| ≤ (t + step) / 2 ^ 53 := by
  have h := round_error (x := t + step) (hstep.trans (le_add_of_nonneg_left zero_le))
  push_cast at h
  exact_mod_cast h

theorem accumulate_le_mul_pow (n : ℕ) :
    (accumulate step n : ℚ) ≤ n * step * (1 + 1 / 2 ^ 53) ^ n := by
  induction n with
  | zero => simp [accumulate]
  | succ n ih =>
    have herr := (abs_le.mp (nearest_add_error hstep (accumulate step n))).2
    have hone : (1 : ℚ) ≤ (1 + 1 / 2 ^ 53) ^ n := one_le_pow₀ (by norm_num)
    have hpos : (0 : ℚ) ≤ step := step.cast_nonneg
    have hgrow : (step : ℚ) ≤ step * (1 + 1 / 2 ^ 53) ^ n := le_mul_of_one_le_right hpos hone
    calc (accumulate step (n + 1) : ℚ)
        ≤ (accumulate step n + step) * (1 + 1 / 2 ^ 53) := by
          rw [accumulate]
          linarith
      _ ≤ (n * step * (1 + 1 / 2 ^ 53) ^ n + step * (1 + 1 / 2 ^ 53) ^ n) * (1 + 1 / 2 ^ 53) :=
          mul_le_mul_of_nonneg_right (add_le_add ih hgrow) (by norm_num)
      _ = (n + 1 : ℕ) * step * (1 + 1 / 2 ^ 53) ^ (n + 1) := by
          push_cast
          ring

theorem mul_pow_le_accumulate (n : ℕ) :
    n * step * (1 - 1 / 2 ^ 53) ^ n ≤ (accumulate step n : ℚ) := by
  induction n with
  | zero => simp [accumulate]
  | succ n ih =>
    have herr := (abs_le.mp (nearest_add_error hstep (accumulate step n))).1
    have hone : (1 - 1 / 2 ^ 53 : ℚ) ^ n ≤ 1 := pow_le_one₀ (by norm_num) (by norm_num)
    have hpos : (0 : ℚ) ≤ step := step.cast_nonneg
    have hshrink : (step : ℚ) * (1 - 1 / 2 ^ 53) ^ n ≤ step := mul_le_of_le_one_right hpos hone
    calc ((n + 1 : ℕ) * step * (1 - 1 / 2 ^ 53) ^ (n + 1) : ℚ)
        = (n * step * (1 - 1 / 2 ^ 53) ^ n + step * (1 - 1 / 2 ^ 53) ^ n) * (1 - 1 / 2 ^ 53) := by
          push_cast
          ring
      _ ≤ (accumulate step n + step) * (1 - 1 / 2 ^ 53) :=
          mul_le_mul_of_nonneg_right (add_le_add ih hshrink) (by norm_num)
      _ ≤ (accumulate step (n + 1) : ℚ) := by
          rw [accumulate]
          linarith

/-- The rounding errors of `n` additions grow like the square of `n`. -/
theorem abs_accumulate_sub_le (n : ℕ) :
    |(accumulate step n : ℚ) - n * step| ≤ n * step * drift n := by
  have hup := accumulate_le_mul_pow hstep n
  have hlo := mul_pow_le_accumulate hstep n
  have hpos : (0 : ℚ) ≤ n * step := mul_nonneg n.cast_nonneg step.cast_nonneg
  -- the two bounds are no further apart below than above
  have hsum : (2 : ℚ) ≤ (1 + 1 / 2 ^ 53) ^ n + (1 - 1 / 2 ^ 53) ^ n := by
    have h1 := one_add_mul_le_pow (a := (1 / 2 ^ 53 : ℚ)) (by norm_num) n
    have h2 := one_add_mul_le_pow (a := (-(1 / 2 ^ 53) : ℚ)) (by norm_num) n
    rw [← sub_eq_add_neg] at h2
    linarith
  have hmul := mul_le_mul_of_nonneg_left hsum hpos
  rw [drift, abs_le]
  constructor <;> linarith

end drift

end Binary64

namespace Double

open scoped Binary64
open Binary64 (Representable accumulate accumulate_succ accumulate_le_succ nearest)

theorem rounded_eq_finite (neg : Bool) {x : ℚ≥0} (h : nearest x < 2 ^ 1024) :
    rounded neg x = .finite neg (nearest x) := if_neg (not_le.mpr h)

variable {neg : Bool} {step : ℚ≥0}

/-- One addition more: a zero takes the sign of the step unless both are zero. -/
theorem accumulate_add (hrep : Representable step) {n : ℕ}
    (hround : rounded neg (accumulate step n + step) =
      .finite neg (nearest (accumulate step n + step))) :
    Double.finite (neg && decide (0 < accumulate step n)) (accumulate step n) +
      .finite neg step =
      .finite (neg && decide (0 < accumulate step (n + 1))) (accumulate step (n + 1)) := by
  have hself := Binary64.nearest_of_representable hrep
  rw [accumulate_succ, add_finite]
  rcases eq_or_ne (accumulate step n) 0 with hz | hne
  · rw [hz, zero_add, hself] at hround ⊢
    cases neg with
    | false => simpa using hround
    | true =>
      rcases eq_or_ne step 0 with rfl | hpos
      · simp
      · simpa [hpos, hpos.symm, pos_iff_ne_zero] using hround
  · have hpos := pos_iff_ne_zero.mpr hne
    have hnext : 0 < nearest (accumulate step n + step) := hpos.trans_le (accumulate_le_succ n)
    simp only [hpos, hnext, decide_true, Bool.and_true, if_true]
    exact hround

/-- A variable that starts at zero and has one constant added to it over and over. -/
theorem iterate_add_eq (hrep : Representable step) (n : ℕ)
    (hlt : accumulate step n < 2 ^ 1024) :
    (fun t : Double => t + .finite neg step)^[n] .zero =
      .finite (neg && decide (0 < accumulate step n)) (accumulate step n) := by
  induction n with
  | zero => simp [accumulate, zero]
  | succ n ih =>
    rw [Function.iterate_succ_apply', ih ((accumulate_le_succ n).trans_lt hlt),
      accumulate_add hrep (rounded_eq_finite neg hlt)]

end Double

end CoordinateStream
