import CoordinateStream.Lib.Accumulator
import Mathlib.Analysis.SpecialFunctions.Trigonometric.Bounds

namespace CoordinateStream

open scoped Binary64

/-- `std::sin` and `std::cos`. -/
structure CMath where
  sin : Double → Double
  cos : Double → Double

namespace CMath

/-- What the functions promise of every finite argument: a result from -1 to 1. -/
structure Bounded (m : CMath) : Prop where
  sin : ∀ x : Double, x.IsFinite → (m.sin x).Within 1
  cos : ∀ x : Double, x.IsFinite → (m.cos x).Within 1

/-- Both functions are off by `ε` at most. -/
structure Accurate (m : CMath) (ε : ℝ) : Prop where
  sin : ∀ x : Double, x.IsFinite → |((m.sin x).toRat : ℝ) - Real.sin x.toRat| ≤ ε
  cos : ∀ x : Double, x.IsFinite → |((m.cos x).toRat : ℝ) - Real.cos x.toRat| ≤ ε

/-- Results from -1 to 1 are never more than 2 off. -/
theorem Bounded.accurate {m : CMath} (hm : m.Bounded) : m.Accurate 2 := by
  have habs {x : Double} (hx : x.Within 1) : |(x.toRat : ℝ)| ≤ 1 := by
    have hle : (x.mag : ℚ) ≤ (1 : ℚ≥0) := by exact_mod_cast hx.mag_le
    rw [← Double.abs_toRat] at hle
    exact_mod_cast hle
  constructor
  · intro x hx
    have htri := abs_sub ((m.sin x).toRat : ℝ) (Real.sin x.toRat)
    linarith [habs (hm.sin x hx), Real.abs_sin_le_one x.toRat]
  · intro x hx
    have htri := abs_sub ((m.cos x).toRat : ℝ) (Real.cos x.toRat)
    linarith [habs (hm.cos x hx), Real.abs_cos_le_one x.toRat]

end CMath

structure Point where
  x : Double
  y : Double

structure CoordinateGenerator where
  center : Point
  amplitude : Double
  frequency : Double
  t : Double

namespace CoordinateGenerator

def construct (centerLon centerLat amplitude frequency : Double) : CoordinateGenerator :=
  ⟨⟨centerLon, centerLat⟩, amplitude, frequency, .zero⟩

/-- The generator of a `CoordinateProducer`, which leaves the last two arguments out. -/
def ofCenter (centerLon centerLat : Double) : CoordinateGenerator :=
  construct centerLon centerLat (.ofDecimal 5 2) (.ofDecimal 1 2)

def getNextCoordinate (m : CMath) (g : CoordinateGenerator) :
    (Double × Double) × CoordinateGenerator :=
  let x := g.amplitude * m.sin g.t
  let y := g.amplitude * m.sin g.t * m.cos g.t
  let lon := g.center.x + x
  let lat := g.center.y + y
  ((lon, lat), { g with t := g.t + g.frequency })

def reset (g : CoordinateGenerator) : CoordinateGenerator := { g with t := .zero }

inductive Call
  | getNextCoordinate
  | reset

/-- The coordinates a sequence of calls returns, and the generator it leaves. -/
def run (m : CMath) : CoordinateGenerator → List Call → List (Double × Double) × CoordinateGenerator
  | g, [] => ([], g)
  | g, .getNextCoordinate :: calls =>
    let (c, g') := g.getNextCoordinate m
    let (cs, h) := run m g' calls
    (c :: cs, h)
  | g, .reset :: calls => run m g.reset calls

/-- `t_` after `n` calls since the start or the last `reset`. -/
def phase (g : CoordinateGenerator) (n : ℕ) : Double := (fun t => t + g.frequency)^[n] .zero

/-- What the next call returns then. -/
def position (m : CMath) (g : CoordinateGenerator) (n : ℕ) : Double × Double :=
  ({ g with t := g.phase n }.getNextCoordinate m).1

theorem phase_succ (g : CoordinateGenerator) (n : ℕ) : g.phase (n + 1) = g.phase n + g.frequency :=
  Function.iterate_succ_apply' _ _ _

/-- For each coordinate that calls return, the calls since the last `reset` before it. -/
def ages : ℕ → List Call → List ℕ
  | _, [] => []
  | n, .getNextCoordinate :: calls => n :: ages (n + 1) calls
  | _, .reset :: calls => ages 0 calls

/-- The generator has no memory but the number of calls since the last `reset`. -/
theorem run_eq_positions (m : CMath) (g : CoordinateGenerator) (n : ℕ) (calls : List Call) :
    (run m { g with t := g.phase n } calls).1 = (ages n calls).map (g.position m) ∧
      ∃ k, (run m { g with t := g.phase n } calls).2 = { g with t := g.phase k } := by
  induction calls generalizing n with
  | nil => exact ⟨rfl, n, rfl⟩
  | cons call calls ih => cases call with
    | getNextCoordinate =>
      obtain ⟨hout, hgen⟩ := ih (n + 1)
      rw [phase_succ] at hout hgen
      exact ⟨congrArg (g.position m n :: ·) hout, hgen⟩
    | reset => exact ih 0

/-- Parameters whose figure lies on the globe, and whose phase cannot overflow. -/
structure Fits (g : CoordinateGenerator) : Prop where
  started : g.t = .zero
  lon : g.center.x.IsFinite
  lat : g.center.y.IsFinite
  amplitude : g.amplitude.IsFinite
  amplitude_binary : g.amplitude.IsBinary64
  lon_le : g.center.x.mag + g.amplitude.mag ≤ 180
  lat_le : g.center.y.mag + g.amplitude.mag ≤ 90
  frequency : g.frequency.Within (2 ^ 969)
  frequency_binary : g.frequency.IsBinary64

open Binary64 (Representable accumulate accumulate_le roundoff)

section phase

variable {g : CoordinateGenerator}

theorem accumulate_le_of_within {step : ℚ≥0} (h : step ≤ 2 ^ 969) (n : ℕ) :
    accumulate step n ≤ 2 ^ 1023 :=
  accumulate_le (k := (969 : ℕ)) (by decide) (h.trans_lt (by
    rw [← zpow_natCast]
    exact zpow_lt_zpow_right₀ one_lt_two (Int.lt_succ _))) n

/-- The phase has the magnitude of the accumulated frequency, and its sign but for zero. -/
theorem exists_phase_eq (hg : g.Fits) : ∃ neg : Bool,
    g.frequency = .finite neg g.frequency.mag ∧ Representable g.frequency.mag ∧
      ∀ n, g.phase n = .finite (neg && decide (0 < accumulate g.frequency.mag n))
        (accumulate g.frequency.mag n) := by
  have hwithin := hg.frequency
  have hbinary := hg.frequency_binary
  unfold phase
  generalize g.frequency = f at hwithin hbinary ⊢
  cases f with
  | inf | nan => exact hwithin.elim
  | finite neg step =>
    refine ⟨neg, rfl, hbinary.1, fun n => Double.iterate_add_eq hbinary.1 n ?_⟩
    exact (accumulate_le_of_within hwithin n).trans_lt (pow_lt_pow_right₀ one_lt_two (by decide))

theorem phase_within (hg : g.Fits) (n : ℕ) : (g.phase n).Within (2 ^ 1023) := by
  obtain ⟨neg, -, -, hphase⟩ := exists_phase_eq hg
  rw [hphase n]
  exact accumulate_le_of_within hg.frequency.mag_le n

theorem mag_phase (hg : g.Fits) (n : ℕ) : (g.phase n).mag = accumulate g.frequency.mag n := by
  obtain ⟨neg, -, -, hphase⟩ := exists_phase_eq hg
  rw [hphase n]
  rfl

theorem toRat_phase (hg : g.Fits) : ∃ neg : Bool,
    g.frequency.toRat = Double.signed neg g.frequency.mag ∧
      ∀ n, (g.phase n).toRat = Double.signed neg (accumulate g.frequency.mag n) := by
  obtain ⟨neg, hfreq, -, hphase⟩ := exists_phase_eq hg
  refine ⟨neg, by rw [hfreq]; rfl, fun n => ?_⟩
  rw [hphase n, Double.toRat]
  rcases eq_or_ne (accumulate g.frequency.mag n) 0 with hz | hne
  · rw [hz, NNRat.cast_zero]
    simp [Double.signed]
  · rw [decide_eq_true (pos_iff_ne_zero.mpr hne), Bool.and_true]

end phase

/-- A point of the ideal figure, the lemniscate the generator is to run through. -/
noncomputable def figureEight (g : CoordinateGenerator) (τ : ℝ) : ℝ × ℝ :=
  (g.center.x.toRat + g.amplitude.toRat * Real.sin τ,
    g.center.y.toRat + g.amplitude.toRat * Real.sin τ * Real.cos τ)

section position

variable {m : CMath} {g : CoordinateGenerator} {ε : ℝ}

theorem representable_natCast {n : ℕ} (h : n ≤ 2 ^ 53) : Representable n := by
  have hrep := Binary64.representable_of_le (e := 0) h (by decide)
  rwa [zpow_zero, mul_one] at hrep

theorem Fits.amplitude_representable (hg : g.Fits) : Representable g.amplitude.mag := by
  have hfinite := hg.amplitude
  have hbinary := hg.amplitude_binary
  generalize g.amplitude = a at hfinite hbinary ⊢
  cases a with
  | finite neg a => exact hbinary.1
  | inf | nan => exact hfinite.elim

/-- One call: the coordinates lie on the globe and near the figure at the phase stored. -/
theorem approximates_next (hm : m.Bounded) (hacc : m.Accurate ε) (hg : g.Fits) {t : Double}
    (ht : t.IsFinite) :
    ({ g with t := t }.getNextCoordinate m).1.1.Approximates (g.figureEight t.toRat).1 180
        (g.amplitude.mag * ε + roundoff g.amplitude.mag + roundoff 180) ∧
      ({ g with t := t }.getNextCoordinate m).1.2.Approximates (g.figureEight t.toRat).2 90
        (2 * (g.amplitude.mag * ε + roundoff g.amplitude.mag) + roundoff 90) := by
  have hrep := hg.amplitude_representable
  have ha : g.amplitude.mag ≤ 90 := (le_add_of_nonneg_left zero_le).trans hg.lat_le
  have hbig : (180 : ℚ≥0) < 2 ^ 1024 := lt_of_lt_of_le (by norm_num)
    (pow_le_pow_right₀ one_le_two (by decide : 8 ≤ 1024))
  have hbig' : (90 : ℚ≥0) < 2 ^ 1024 := lt_trans (by norm_num) hbig
  have hsin : (m.sin t).Approximates (Real.sin t.toRat) 1 ε := ⟨hm.sin t ht, hacc.sin t ht⟩
  have hcos : (m.cos t).Approximates (Real.cos t.toRat) 1 ε := ⟨hm.cos t ht, hacc.cos t ht⟩
  -- operation by operation, as the source writes them
  have hx := (Double.approximates_self hg.amplitude.within_mag).mul hsin
    (by simpa using Real.abs_sin_le_one _) hrep (mul_one _).le (ha.trans_lt hbig')
  have hy := hx.mul hcos (by simpa using Real.abs_cos_le_one _) hrep (mul_one _).le
    (ha.trans_lt hbig')
  have hlon := (Double.approximates_self hg.lon.within_mag).add hx
    (by exact_mod_cast representable_natCast (n := 180) (by decide)) hg.lon_le hbig
  have hlat := (Double.approximates_self hg.lat.within_mag).add hy
    (by exact_mod_cast representable_natCast (n := 90) (by decide)) hg.lat_le hbig'
  constructor
  · refine ⟨hlon.within, hlon.near.trans_eq ?_⟩
    push_cast
    ring
  · refine ⟨hlat.within, hlat.near.trans_eq ?_⟩
    push_cast
    ring

theorem position_inRange (hm : m.Bounded) (hg : g.Fits) (n : ℕ) :
    (g.position m n).1.Within 180 ∧ (g.position m n).2.Within 90 := by
  obtain ⟨hlon, hlat⟩ := approximates_next hm hm.accurate hg (phase_within hg n).isFinite
  exact ⟨hlon.within, hlat.within⟩

theorem run_of_fits (hg : g.Fits) (calls : List Call) :
    (run m g calls).1 = (ages 0 calls).map (g.position m) ∧
      ∃ k, (run m g calls).2 = { g with t := g.phase k } := by
  have hstart : ({ g with t := g.phase 0 } : CoordinateGenerator) = g := by
    rw [phase, Function.iterate_zero_apply, ← hg.started]
  have hrun := run_eq_positions m g 0 calls
  rwa [hstart] at hrun

/-- Whatever calls are made, the phase stays finite and the coordinates stay on the globe. -/
theorem coordinates_inRange (hm : m.Bounded) (hg : g.Fits) (calls : List Call) :
    (run m g calls).2.t.Within (2 ^ 1023) ∧
      ∀ c ∈ (run m g calls).1, c.1.Within 180 ∧ c.2.Within 90 := by
  obtain ⟨hout, k, hgen⟩ := run_of_fits (m := m) hg calls
  rw [hout, hgen]
  refine ⟨phase_within hg k, fun c hc => ?_⟩
  obtain ⟨n, -, rfl⟩ := List.mem_map.mp hc
  exact position_inRange hm hg n

/-- The distance from the exact phase. -/
theorem abs_phase_sub_le (hg : g.Fits) (hfreq : 1 / 2 ^ 1022 ≤ g.frequency.mag) (n : ℕ) :
    |((g.phase n).toRat : ℝ) - n * g.frequency.toRat| ≤
      n * g.frequency.mag * Binary64.drift n := by
  obtain ⟨neg, hf, hphase⟩ := toRat_phase hg
  have hdrift := Binary64.abs_accumulate_sub_le hfreq n
  have hscale : (g.phase n).toRat - n * g.frequency.toRat =
      Double.signed neg (accumulate g.frequency.mag n - n * g.frequency.mag) := by
    rw [hphase n, hf]
    cases neg
    · rfl
    · simp only [Double.signed, if_true]
      ring
  rw [← Double.abs_signed neg, ← hscale] at hdrift
  exact_mod_cast (Rat.cast_le (K := ℝ)).mpr hdrift

/-- Points of the figure are as near to each other as their phases. -/
theorem figureEight_near (g : CoordinateGenerator) (σ τ : ℝ) :
    |(g.figureEight σ).1 - (g.figureEight τ).1| ≤ g.amplitude.mag * |σ - τ| ∧
      |(g.figureEight σ).2 - (g.figureEight τ).2| ≤ g.amplitude.mag * |σ - τ| := by
  have habs : |(g.amplitude.toRat : ℝ)| = g.amplitude.mag := by
    exact_mod_cast congrArg ((↑) : ℚ → ℝ) (Double.abs_toRat g.amplitude)
  constructor
  · have hsplit : (g.figureEight σ).1 - (g.figureEight τ).1 =
        g.amplitude.toRat * (Real.sin σ - Real.sin τ) := by
      simp only [figureEight]
      ring
    rw [hsplit, abs_mul, habs]
    exact mul_le_mul_of_nonneg_left (Real.abs_sin_sub_sin_le σ τ) (NNRat.cast_nonneg _)
  · have hsplit : (g.figureEight σ).2 - (g.figureEight τ).2 =
        g.amplitude.toRat * ((Real.sin (2 * σ) - Real.sin (2 * τ)) / 2) := by
      simp only [figureEight, Real.sin_two_mul]
      ring
    have hsin := Real.abs_sin_sub_sin_le (2 * σ) (2 * τ)
    rw [← mul_sub, abs_mul, abs_two] at hsin
    rw [hsplit, abs_mul, habs, abs_div, abs_two]
    apply mul_le_mul_of_nonneg_left _ (NNRat.cast_nonneg _)
    linarith

/-- How far the coordinate returned after `n` calls may be from the figure: the errors of
`std::sin` and `std::cos`, the drift of the phase, and the last three roundings. -/
noncomputable def positionError (g : CoordinateGenerator) (ε : ℝ) (n : ℕ) : ℝ :=
  g.amplitude.mag * (2 * ε + n * g.frequency.mag * Binary64.drift n) +
    (3 : ℕ) * roundoff (180 : ℕ)

/-- `c` is near the figure where an exact phase would be after `n` calls. -/
def Near (g : CoordinateGenerator) (ε : ℝ) (n : ℕ) (c : Double × Double) : Prop :=
  |(c.1.toRat : ℝ) - (g.figureEight (n * g.frequency.toRat)).1| ≤ g.positionError ε n ∧
    |(c.2.toRat : ℝ) - (g.figureEight (n * g.frequency.toRat)).2| ≤ g.positionError ε n

theorem position_near (hm : m.Bounded) (hacc : m.Accurate ε) (hg : g.Fits)
    (hfreq : 1 / 2 ^ 1022 ≤ g.frequency.mag) (n : ℕ) : g.Near ε n (g.position m n) := by
  obtain ⟨hlon, hlat⟩ := approximates_next hm hacc hg (phase_within hg n).isFinite
  have ha : g.amplitude.mag ≤ 90 := (le_add_of_nonneg_left zero_le).trans hg.lat_le
  have hround : (roundoff g.amplitude.mag : ℝ) ≤ roundoff 180 := by
    exact_mod_cast Binary64.roundoff_mono (ha.trans (by norm_num))
  have hround' : (roundoff 90 : ℝ) ≤ roundoff 180 := by
    exact_mod_cast Binary64.roundoff_mono (by norm_num)
  have hround0 : (0 : ℝ) ≤ roundoff 180 := by exact_mod_cast Binary64.roundoff_nonneg 180
  have hε : 0 ≤ ε := (abs_nonneg _).trans (hacc.sin .zero trivial)
  have haε : 0 ≤ (g.amplitude.mag : ℝ) * ε := mul_nonneg (NNRat.cast_nonneg _) hε
  have hdrift := mul_le_mul_of_nonneg_left (abs_phase_sub_le hg hfreq n)
    (NNRat.cast_nonneg (α := ℝ) g.amplitude.mag)
  obtain ⟨hfar, hfar'⟩ := figureEight_near g (g.phase n).toRat (n * g.frequency.toRat)
  have htri := abs_sub_le ((g.position m n).1.toRat : ℝ) (g.figureEight (g.phase n).toRat).1
    (g.figureEight (n * g.frequency.toRat)).1
  have htri' := abs_sub_le ((g.position m n).2.toRat : ℝ) (g.figureEight (g.phase n).toRat).2
    (g.figureEight (n * g.frequency.toRat)).2
  have hlonNear : |((g.position m n).1.toRat : ℝ) - (g.figureEight (g.phase n).toRat).1| ≤ _ :=
    hlon.near
  have hlatNear : |((g.position m n).2.toRat : ℝ) - (g.figureEight (g.phase n).toRat).2| ≤ _ :=
    hlat.near
  rw [Near, positionError, mul_add, Nat.cast_ofNat, Nat.cast_ofNat]
  constructor <;> linarith

/-- Each coordinate returned is near the figure at its own number of steps. -/
theorem coordinates_near (hm : m.Bounded) (hacc : m.Accurate ε) (hg : g.Fits)
    (hfreq : 1 / 2 ^ 1022 ≤ g.frequency.mag) (calls : List Call) :
    List.Forall₂ (g.Near ε) (ages 0 calls) (run m g calls).1 := by
  rw [(run_of_fits hg calls).1, List.forall₂_map_right_iff]
  exact List.forall₂_same.mpr fun n _ => position_near hm hacc hg hfreq n

/-- The phase moves on with every call while it is below `2 ^ 53` steps, it does not get beyond
`2 ^ 54` steps, and in the end it stands still, and the coordinates with it. -/
theorem phase_lifetime (hg : g.Fits) (hfreq : 0 < g.frequency.mag) :
    (∀ n, (g.phase n).mag < 2 ^ 53 * g.frequency.mag →
        (g.phase n).mag < (g.phase (n + 1)).mag) ∧
      (∀ n, (g.phase n).Within (2 ^ 54 * g.frequency.mag)) ∧
      ∃ N, ∀ n, N ≤ n → g.phase n = g.phase N ∧ g.position m n = g.position m N := by
  obtain ⟨neg, -, hrep, hphase⟩ := exists_phase_eq hg
  refine ⟨fun n hn => ?_, fun n => ?_, ?_⟩
  · rw [mag_phase hg] at hn ⊢
    rw [mag_phase hg]
    exact Binary64.lt_accumulate_succ hrep hfreq hn
  · have hle := Binary64.accumulate_le_mul hrep hfreq n
    rw [← mag_phase hg] at hle
    exact (phase_within hg n).isFinite.within_mag.mono hle
  · obtain ⟨N, hN⟩ := Binary64.exists_accumulate_eq g.frequency.mag
    refine ⟨N, fun n hn => ?_⟩
    have heq : g.phase n = g.phase N := by rw [hphase n, hphase N, hN n hn]
    exact ⟨heq, by rw [position, position, heq]⟩

end position

/-- The generator of `main`. -/
def figure : CoordinateGenerator := ofCenter (.ofDecimal 10702243 5) (.ofDecimal 2076300 5)

theorem figure_fits : figure.Fits where
  started := rfl
  lon := by decide +kernel
  lat := by decide +kernel
  amplitude := by decide +kernel
  amplitude_binary := Double.rounded_isBinary64 _ _
  lon_le := by decide +kernel
  lat_le := by decide +kernel
  frequency := by decide +kernel
  frequency_binary := Double.rounded_isBinary64 _ _

end CoordinateGenerator

/-- The first 53 binary digits behind the point. -/
noncomputable def Double.truncate (r : ℝ) : Double :=
  open Classical in .finite (decide (r < 0)) (⌊|r| * 2 ^ 53⌋₊ / 2 ^ 53)

theorem Double.truncate_within {r : ℝ} (h : |r| ≤ 1) : (truncate r).Within 1 := by
  have hfloor : ⌊|r| * 2 ^ 53⌋₊ ≤ 2 ^ 53 := by
    apply Nat.floor_le_of_le
    rw [Nat.cast_pow, Nat.cast_ofNat]
    exact mul_le_of_le_one_left (pow_nonneg zero_le_two 53) h
  change (⌊|r| * 2 ^ 53⌋₊ / 2 ^ 53 : ℚ≥0) ≤ 1
  rw [div_le_one (pow_pos two_pos 53)]
  exact_mod_cast hfloor

theorem Double.truncate_error (r : ℝ) : |((truncate r).toRat : ℝ) - r| ≤ 1 / 2 ^ 53 := by
  have hpos : (0 : ℝ) < 2 ^ 53 := by positivity
  have hlo := Nat.floor_le (mul_nonneg (abs_nonneg r) hpos.le)
  have hhi := Nat.lt_floor_add_one (|r| * 2 ^ 53)
  have hval : ((truncate r).toRat : ℝ) =
      if r < 0 then -((⌊|r| * 2 ^ 53⌋₊ : ℝ) / 2 ^ 53) else (⌊|r| * 2 ^ 53⌋₊ : ℝ) / 2 ^ 53 := by
    simp only [truncate, toRat, signed, decide_eq_true_eq]
    split_ifs <;> push_cast <;> rfl
  rw [hval, abs_le]
  generalize (⌊|r| * 2 ^ 53⌋₊ : ℝ) = q at hlo hhi
  have hq : q / 2 ^ 53 ≤ |r| := (div_le_iff₀ hpos).mpr hlo
  have hq' : |r| < q / 2 ^ 53 + 1 / 2 ^ 53 := by
    rw [← add_div]
    exact (lt_div_iff₀ hpos).mpr hhi
  split_ifs with hneg
  · rw [abs_of_neg hneg] at hq hq'
    constructor <;> linarith
  · rw [abs_of_nonneg (not_lt.mp hneg)] at hq hq'
    constructor <;> linarith

/-- Sine and cosine to 53 binary digits. -/
noncomputable def CMath.truncated : CMath where
  sin x := .truncate (Real.sin x.toRat)
  cos x := .truncate (Real.cos x.toRat)

theorem CMath.truncated_bounded : truncated.Bounded :=
  ⟨fun _ _ => Double.truncate_within (Real.abs_sin_le_one _),
    fun _ _ => Double.truncate_within (Real.abs_cos_le_one _)⟩

theorem CMath.truncated_accurate : truncated.Accurate (1 / 2 ^ 53) :=
  ⟨fun _ _ => Double.truncate_error _, fun _ _ => Double.truncate_error _⟩

namespace CoordinateGenerator

theorem coordinates_inRange_figure :
    (run .truncated figure [.getNextCoordinate, .reset, .getNextCoordinate]).2.t.Within
        (2 ^ 1023) ∧
      ∀ c ∈ (run .truncated figure [.getNextCoordinate, .reset, .getNextCoordinate]).1,
        c.1.Within 180 ∧ c.2.Within 90 :=
  coordinates_inRange CMath.truncated_bounded figure_fits _

theorem coordinates_near_figure :
    List.Forall₂ (figure.Near (1 / 2 ^ 53)) [0, 1, 0]
      (run .truncated figure
        [.getNextCoordinate, .getNextCoordinate, .reset, .getNextCoordinate]).1 :=
  coordinates_near CMath.truncated_bounded CMath.truncated_accurate figure_fits
    (by decide +kernel) [.getNextCoordinate, .getNextCoordinate, .reset, .getNextCoordinate]

theorem phase_lifetime_figure :
    (∀ n, (figure.phase n).mag < 2 ^ 53 * figure.frequency.mag →
        (figure.phase n).mag < (figure.phase (n + 1)).mag) ∧
      (∀ n, (figure.phase n).Within (2 ^ 54 * figure.frequency.mag)) ∧
      ∃ N, ∀ n, N ≤ n → figure.phase n = figure.phase N ∧
        figure.position .truncated n = figure.position .truncated N :=
  phase_lifetime figure_fits (by decide +kernel)

end CoordinateGenerator

end CoordinateStream
