import Mathlib.Data.NNRat.Floor
import Mathlib.Tactic.Linarith
import Mathlib.Tactic.Positivity
import Mathlib.Tactic.FieldSimp
import Mathlib.Tactic.NormNum

namespace CoordinateStream

/-! Decimal text of a fixed number of decimals: how it is printed and what reading it
back gives. A text is a list of characters, one for each byte. -/

abbrev Text := List Char

namespace Decimal

/-- The numeral `10` is written with one proof in all definitions. -/
instance atLeastTwo_ten : Nat.AtLeastTwo 10 := ⟨by decide⟩

/-- The nearest natural number, a tie going to the even one. -/
def roundHalfEven (x : ℚ≥0) : ℕ :=
  let q := x.num / x.den
  let r := x.num % x.den
  if 2 * r < x.den ∨ 2 * r = x.den ∧ q % 2 = 0 then q else q + 1

theorem roundHalfEven_error (x : ℚ≥0) : |(roundHalfEven x : ℚ) - x| ≤ 1 / 2 := by
  have hd : (0 : ℚ) < x.den := by exact_mod_cast x.den_pos
  have hx : (x : ℚ) - (x.num / x.den : ℕ) = (x.num % x.den : ℕ) / x.den := by
    have hsplit : (x.num : ℚ) = x.den * (x.num / x.den : ℕ) + (x.num % x.den : ℕ) := by
      exact_mod_cast (Nat.div_add_mod x.num x.den).symm
    have hval : (x : ℚ) = x.num / x.den := NNRat.cast_def x
    rw [eq_div_iff hd.ne', sub_mul, hval, div_mul_cancel₀ _ hd.ne', hsplit]
    ring
  have hlt : ((x.num % x.den : ℕ) : ℚ) / x.den < 1 := by
    rw [div_lt_one hd]
    exact_mod_cast Nat.mod_lt _ x.den_pos
  have hnn : (0 : ℚ) ≤ (x.num % x.den : ℕ) / x.den := by positivity
  unfold roundHalfEven
  dsimp only
  split_ifs with h
  · have hhalf : ((x.num % x.den : ℕ) : ℚ) / x.den ≤ 1 / 2 := by
      rw [div_le_div_iff₀ hd (by norm_num)]
      exact_mod_cast (by omega : x.num % x.den * 2 ≤ 1 * x.den)
    rw [abs_le]
    constructor <;> linarith
  · have hhalf : (1 : ℚ) / 2 ≤ ((x.num % x.den : ℕ) : ℚ) / x.den := by
      rw [div_le_div_iff₀ (by norm_num) hd]
      exact_mod_cast (by omega : 1 * x.den ≤ x.num % x.den * 2)
    push_cast
    rw [abs_le]
    constructor <;> linarith

theorem roundHalfEven_eq_of_near {x : ℚ≥0} {n : ℕ} (h : |(x : ℚ) - n| < 1 / 2) :
    roundHalfEven x = n := by
  have hr := abs_le.mp (roundHalfEven_error x)
  have hn := abs_lt.mp h
  have hlo : (n : ℚ) < roundHalfEven x + 1 := by linarith
  have hhi : (roundHalfEven x : ℚ) < n + 1 := by linarith
  have hlo' : n < roundHalfEven x + 1 := by exact_mod_cast hlo
  have hhi' : roundHalfEven x < n + 1 := by exact_mod_cast hhi
  omega

theorem roundHalfEven_le {x : ℚ≥0} {n : ℕ} (h : x ≤ n) : roundHalfEven x ≤ n := by
  have hr := abs_le.mp (roundHalfEven_error x)
  have hx : (x : ℚ) ≤ n := by exact_mod_cast h
  have hlt : (roundHalfEven x : ℚ) < n + 1 := by linarith
  have hlt' : roundHalfEven x < n + 1 := by exact_mod_cast hlt
  omega

theorem roundHalfEven_natCast (n : ℕ) : roundHalfEven n = n :=
  roundHalfEven_eq_of_near (by simp)

theorem roundHalfEven_mono {x y : ℚ≥0} (h : x ≤ y) : roundHalfEven x ≤ roundHalfEven y := by
  by_contra hlt
  have hx := (abs_le.mp (roundHalfEven_error x)).2
  have hy := (abs_le.mp (roundHalfEven_error y)).1
  have hxy : (x : ℚ) ≤ y := by exact_mod_cast h
  have hstep : (roundHalfEven y : ℚ) + 1 ≤ roundHalfEven x := by
    exact_mod_cast (by omega : roundHalfEven y + 1 ≤ roundHalfEven x)
  -- both errors are extreme, so the two numbers are one
  have heq : (x : ℚ) = y := by linarith
  have heq' : x = y := by exact_mod_cast heq
  rw [heq'] at hlt
  exact hlt (le_refl _)

theorem le_roundHalfEven {x : ℚ≥0} {n : ℕ} (h : n ≤ x) : n ≤ roundHalfEven x := by
  have hmono := roundHalfEven_mono h
  rwa [roundHalfEven_natCast] at hmono

/-- A value within one part in `2 ^ 53` of a `p`-decimal number rounds back to it. -/
theorem roundHalfEven_of_relative {p n : ℕ} {v : ℚ≥0} (hn : n < 2 ^ 52)
    (h : |(v : ℚ) - n / 10 ^ p| ≤ n / 10 ^ p / 2 ^ 53) :
    roundHalfEven (v * 10 ^ p) = n := by
  apply roundHalfEven_eq_of_near
  have hp : (0 : ℚ) < 10 ^ p := by positivity
  have hscale : ((v * 10 ^ p : ℚ≥0) : ℚ) - n = (v - n / 10 ^ p) * 10 ^ p := by
    push_cast
    field_simp
  have hn' : (n : ℚ) < 2 ^ 52 := by exact_mod_cast hn
  calc |((v * 10 ^ p : ℚ≥0) : ℚ) - n|
      = |(v : ℚ) - n / 10 ^ p| * 10 ^ p := by rw [hscale, abs_mul, abs_of_pos hp]
    _ ≤ n / 10 ^ p / 2 ^ 53 * 10 ^ p := mul_le_mul_of_nonneg_right h hp.le
    _ = n / 2 ^ 53 := by field_simp
    _ < 1 / 2 := by
        rw [div_lt_div_iff₀ (by positivity) (by norm_num)]
        linarith

/-- `n / 10 ^ p` with `p` decimals. -/
def fixed (p n : ℕ) : Text :=
  Nat.toDigits 10 (n / 10 ^ p) ++ '.' :: (Nat.toDigits 10 (n % 10 ^ p)).leftpad p '0'

theorem isDigit_of_mem_toDigits {n : ℕ} {c : Char} (h : c ∈ Nat.toDigits 10 n) :
    c.isDigit = true := Nat.isDigit_of_mem_toDigits (by decide) (by decide) h

theorem isDigit_of_mem_leftpad {p n : ℕ} {c : Char}
    (h : c ∈ (Nat.toDigits 10 n).leftpad p '0') : c.isDigit = true := by
  rcases List.mem_append.mp h with h | h
  · rw [List.eq_of_mem_replicate h]
    rfl
  · exact isDigit_of_mem_toDigits h

theorem length_leftpad_toDigits {p n : ℕ} (hp : 0 < p) (h : n < 10 ^ p) :
    ((Nat.toDigits 10 n).leftpad p '0').length = p := by
  have := (Nat.length_toDigits_le_iff (b := 10) (by decide) hp).mpr h
  simp only [List.leftpad, List.length_append, List.length_replicate]
  omega

/-- The digits of `fixed p n`, read as one number, give `n` again. -/
theorem ofDigitChars_fixed {p : ℕ} (hp : 0 < p) (n : ℕ) :
    Nat.ofDigitChars 10 (Nat.toDigits 10 (n / 10 ^ p) ++
      (Nat.toDigits 10 (n % 10 ^ p)).leftpad p '0') 0 = n := by
  rw [Nat.ofDigitChars_append, Nat.ofDigitChars_ten_toDigits,
    Nat.ofDigitChars_eq_ofDigitChars_zero,
    length_leftpad_toDigits hp (Nat.mod_lt _ (by positivity)), List.leftpad,
    Nat.ofDigitChars_append, Nat.ofDigitChars_replicate_zero, Nat.mul_zero,
    Nat.ofDigitChars_ten_toDigits]
  exact Nat.div_add_mod n (10 ^ p)

/-- The fraction of a number, which may be left out with its point. -/
def fraction : Option Text → Text
  | none => []
  | some b => '.' :: b

/-- The exact value of digits and a fraction. -/
def value (a : Text) (f : Option Text) : ℚ≥0 :=
  (Nat.ofDigitChars 10 (a ++ f.getD []) 0 : ℚ≥0) / 10 ^ (f.getD []).length

theorem value_fixed {p : ℕ} (hp : 0 < p) (n : ℕ) :
    value (Nat.toDigits 10 (n / 10 ^ p)) (some ((Nat.toDigits 10 (n % 10 ^ p)).leftpad p '0')) =
      n / 10 ^ p := by
  rw [value, Option.getD_some, ofDigitChars_fixed hp,
    length_leftpad_toDigits hp (Nat.mod_lt _ (by positivity))]

theorem value_toDigits (n : ℕ) : value (Nat.toDigits 10 n) none = n := by
  simp [value, Nat.ofDigitChars_ten_toDigits]

theorem length_fixed_le {p n k : ℕ} (hp : 0 < p) (hk : 0 < k) (h : n < 10 ^ (p + k)) :
    (fixed p n).length ≤ k + 1 + p := by
  have hint : (Nat.toDigits 10 (n / 10 ^ p)).length ≤ k := by
    apply (Nat.length_toDigits_le_iff (by decide) hk).mpr
    exact Nat.div_lt_of_lt_mul (by rwa [← Nat.pow_add])
  have hfrac := length_leftpad_toDigits hp (Nat.mod_lt n (by positivity : 0 < 10 ^ p))
  simp only [fixed, List.length_append, List.length_cons, hfrac]
  omega

theorem lt_of_length_fixed_le {p n k : ℕ} (hp : 0 < p) (hk : 0 < k)
    (h : (fixed p n).length ≤ k + 1 + p) : n < 10 ^ (p + k) := by
  have hfrac := length_leftpad_toDigits hp (Nat.mod_lt n (by positivity : 0 < 10 ^ p))
  simp only [fixed, List.length_append, List.length_cons, hfrac] at h
  have hint : n / 10 ^ p < 10 ^ k :=
    (Nat.length_toDigits_le_iff (b := 10) (by decide) hk).mp (by omega)
  rw [Nat.pow_add, Nat.mul_comm]
  exact Nat.lt_mul_of_div_lt hint (by positivity)

/-- Digits are written without leading zeros. -/
theorem head?_toDigits_ne_zero {n : ℕ} (h : 0 < n) : (Nat.toDigits 10 n).head? ≠ some '0' := by
  induction n using Nat.strongRecOn with
  | _ n ih =>
    by_cases hlt : n < 10
    · rw [Nat.toDigits_of_lt_base hlt, List.head?_cons, Ne, Option.some.injEq]
      intro hzero
      have hchar := Nat.toNat_digitChar_of_lt_ten hlt
      rw [hzero] at hchar
      have hval : '0'.toNat = 48 := rfl
      omega
    · have hq : 0 < n / 10 := by omega
      rw [Nat.toDigits_of_base_le (by decide) (by omega), List.head?_append]
      have hne : (Nat.toDigits 10 (n / 10)).head? = some ((Nat.toDigits 10 (n / 10)).head
          Nat.toDigits_ne_nil) := List.head?_eq_some_head _
      have hih := ih (n / 10) (by omega) hq
      rw [hne] at hih ⊢
      exact hih

/-- A proper prefix of the digits of a number is the numeral of a smaller one. -/
theorem ofDigitChars_take_lt {n k : ℕ} (h0 : 0 < k) (hk : k < (Nat.toDigits 10 n).length) :
    Nat.ofDigitChars 10 ((Nat.toDigits 10 n).take k) 0 < n := by
  have hsplit : Nat.ofDigitChars 10 ((Nat.toDigits 10 n).take k ++ (Nat.toDigits 10 n).drop k) 0 =
      n := by rw [List.take_append_drop, Nat.ofDigitChars_ten_toDigits]
  rw [Nat.ofDigitChars_append, Nat.ofDigitChars_eq_ofDigitChars_zero, List.length_drop] at hsplit
  have hpos : 0 < n := by
    rcases Nat.eq_zero_or_pos n with rfl | hpos
    · have hone : (Nat.toDigits 10 0).length = 1 := rfl
      omega
    · exact hpos
  have hten : 10 ≤ 10 ^ ((Nat.toDigits 10 n).length - k) := by
    calc 10 = 10 ^ 1 := rfl
      _ ≤ _ := Nat.pow_le_pow_right (by decide) (by omega)
  have hmul := Nat.mul_le_mul_right
    (Nat.ofDigitChars 10 ((Nat.toDigits 10 n).take k) 0) hten
  omega

/-- A signed decimal integer. -/
def integer (i : ℤ) : Text :=
  if i < 0 then '-' :: Nat.toDigits 10 i.natAbs else Nat.toDigits 10 i.natAbs

theorem length_integer_le {i : ℤ} {k : ℕ} (hk : 0 < k) (h : i.natAbs < 10 ^ k) :
    (integer i).length ≤ k + 1 := by
  have := (Nat.length_toDigits_le_iff (b := 10) (by decide) hk).mpr h
  unfold integer
  split_ifs
  · simp only [List.length_cons]
    omega
  · omega

end Decimal

end CoordinateStream
