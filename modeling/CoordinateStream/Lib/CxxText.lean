import CoordinateStream.Lib.Binary64
import Mathlib.Data.List.TakeWhile

namespace CoordinateStream

/-! The text functions of the C++ standard library, in the "C" locale. -/

namespace Cxx

/-- What `std::stod` and `std::stoll` throw. -/
inductive StdError
  | invalidArgument
  | outOfRange
  deriving DecidableEq, Repr

/-- `snprintf` into a buffer of `size` bytes keeps what fits before the terminator. -/
def snprintf (size : ℕ) (text : Text) : Text := text.take (size - 1)

theorem snprintf_of_length_lt {size : ℕ} {text : Text} (h : text.length < size) :
    snprintf size text = text := List.take_of_length_le (by omega)

/-- A `std::istringstream`: what is left to read, and `good()`. -/
structure IStream where
  rest : Text
  good : Bool
  deriving DecidableEq

/-- `std::getline`: `none` sets the fail bit. The delimiter is consumed; without one the
end of the input is reached and the stream is no longer good. -/
def getline (delim : Char) (s : IStream) : Option (Text × IStream) :=
  if s.good = false ∨ s.rest = [] then none
  else some (s.rest.takeWhile (· ≠ delim),
    ⟨(s.rest.dropWhile (· ≠ delim)).tail, decide (delim ∈ s.rest)⟩)

theorem forall_ne_of_not_mem {d : Char} {a : Text} (h : d ∉ a) :
    ∀ c ∈ a, decide (c ≠ d) = true := by
  intro c hc
  rw [decide_eq_true_eq]
  rintro rfl
  exact h hc

theorem getline_delim {delim : Char} {a b : Text} (h : delim ∉ a) :
    getline delim ⟨a ++ delim :: b, true⟩ = some (a, ⟨b, true⟩) := by
  have ha := forall_ne_of_not_mem h
  rw [getline, if_neg (by simp)]
  simp only [List.takeWhile_append_of_pos ha, List.dropWhile_append_of_pos ha]
  simp

theorem getline_last {delim : Char} {a : Text} (h : delim ∉ a) (hne : a ≠ []) :
    getline delim ⟨a, true⟩ = some (a, ⟨[], false⟩) := by
  have ha := forall_ne_of_not_mem h
  rw [getline, if_neg (by simp [hne])]
  simp only [List.takeWhile_eq_self_iff.mpr ha, List.dropWhile_eq_nil_iff.mpr ha]
  simp [h]

def isSpace (c : Char) : Bool :=
  c ∈ [' ', '\t', '\n', '\x0b', '\x0c', '\r']

/-- The C string that starts at the first byte: it ends before a null byte. -/
def cString (s : Text) : Text := s.takeWhile (· ≠ '\x00')

def sign : Text → Bool × Text
  | '-' :: t => (true, t)
  | '+' :: t => (false, t)
  | t => (false, t)

def hexDigitValue (c : Char) : ℕ :=
  if c.isDigit then c.toNat - '0'.toNat else c.toLower.toNat - 'a'.toNat + 10

def isHexDigit (c : Char) : Bool :=
  c.isDigit || ('a' ≤ c.toLower && c.toLower ≤ 'f')

/-- The exponent after its mark, zero where there is none. -/
def scanExponent (mark : Char) : Text → ℤ
  | [] => 0
  | c :: t =>
    if c.toLower = mark then
      let (neg, u) := sign t
      let e : ℤ := Nat.ofDigitChars 10 (u.takeWhile Char.isDigit) 0
      if neg then -e else e
    else 0

/-- Digits with at most one point and an exponent: the exact value of what `strtod` reads. -/
def scanNumber (isDigit : Char → Bool) (value : Text → ℕ) (base expBase : ℕ) (mark : Char)
    (t : Text) : Option ℚ≥0 :=
  let int := t.takeWhile isDigit
  let (frac, rest) := match t.dropWhile isDigit with
    | '.' :: u => (u.takeWhile isDigit, u.dropWhile isDigit)
    | u => ([], u)
  if int = [] ∧ frac = [] then none
  else some ((value (int ++ frac) : ℚ≥0) / (base : ℚ≥0) ^ frac.length *
    (expBase : ℚ≥0) ^ scanExponent mark rest)

def scanDecimal : Text → Option ℚ≥0 :=
  scanNumber Char.isDigit (fun t => Nat.ofDigitChars 10 t 0) 10 10 'e'

def scanHex : Text → Option ℚ≥0 :=
  scanNumber isHexDigit (fun t => t.foldl (fun n c => 16 * n + hexDigitValue c) 0) 16 2 'p'

inductive Strtod
  | noConversion
  | number (neg : Bool) (value : ℚ≥0)
  | infinity (neg : Bool)
  | nan (neg : Bool)

/-- `strtod`: blanks, a sign, then the longest prefix that is an infinity, a NaN, or a
hexadecimal or decimal number. `0x` without digits behind it reads as its zero. -/
def strtod (s : Text) : Strtod :=
  let (neg, t) := sign (s.dropWhile isSpace)
  let lower := t.map Char.toLower
  if "inf".toList.isPrefixOf lower then .infinity neg
  else if "nan".toList.isPrefixOf lower then .nan neg
  else
    let hex := if "0x".toList.isPrefixOf lower then scanHex (t.drop 2) else none
    match hex.orElse fun _ => scanDecimal t with
    | some v => .number neg v
    | none => .noConversion

/-- `std::stod`, for a given conversion of exact values. -/
def stod (round : ℚ≥0 → Option ℚ≥0) (s : Text) : Except StdError Double :=
  match strtod (cString s) with
  | .noConversion => .error .invalidArgument
  | .number neg v => match round v with
    | some m => .ok (.finite neg m)
    | none => .error .outOfRange
  | .infinity neg => .ok (.inf neg)
  | .nan neg => .ok (.nan neg)

/-- `std::stoll`, base ten. -/
def stoll (s : Text) : Except StdError Int64 :=
  let (neg, t) := sign ((cString s).dropWhile isSpace)
  let digits := t.takeWhile Char.isDigit
  if digits = [] then .error .invalidArgument
  else
    let n : ℤ := Nat.ofDigitChars 10 digits 0
    let i := if neg then -n else n
    if i < -2 ^ 63 ∨ 2 ^ 63 ≤ i then .error .outOfRange else .ok (Int64.ofInt i)

/-! ### Reading back what was printed -/

theorem cString_of_not_mem {s : Text} (h : '\x00' ∉ s) : cString s = s :=
  List.takeWhile_eq_self_iff.mpr (forall_ne_of_not_mem h)

theorem ne_of_isDigit {c d : Char} (hd : d.isDigit = false) (h : c.isDigit = true) : c ≠ d := by
  rintro rfl
  rw [h] at hd
  cases hd

theorem isSpace_of_isDigit {c : Char} (h : c.isDigit = true) : isSpace c = false := by
  simp only [isSpace, List.mem_cons, List.not_mem_nil, or_false, decide_eq_false_iff_not, not_or]
  refine ⟨?_, ?_, ?_, ?_, ?_, ?_⟩ <;> exact ne_of_isDigit (by decide) h

theorem toLower_of_isDigit {c : Char} (h : c.isDigit = true) : c.toLower = c := by
  simp only [Char.isDigit, Bool.and_eq_true, decide_eq_true_eq] at h
  unfold Char.toLower
  rw [dif_neg]
  rintro ⟨h', -⟩
  exact absurd (UInt32.le_trans h' h.2) (by decide)

theorem sign_of_isDigit {c : Char} (t : Text) (h : c.isDigit = true) :
    sign (c :: t) = (false, c :: t) := by
  have hm := ne_of_isDigit (d := '-') (by decide) h
  have hp := ne_of_isDigit (d := '+') (by decide) h
  unfold sign
  split <;> simp_all

/-- The sign of a number as it may be spelled. -/
inductive Sign
  | none
  | plus
  | minus
  deriving DecidableEq, Repr

namespace Sign

def text : Sign → Text
  | none => []
  | plus => ['+']
  | minus => ['-']

def neg : Sign → Bool
  | minus => true
  | _ => false

/-- The sign as the printers write it. -/
def ofNeg (neg : Bool) : Sign := if neg then minus else none

@[simp] theorem neg_ofNeg (b : Bool) : (ofNeg b).neg = b := by cases b <;> rfl

theorem text_ofNeg (b : Bool) : (ofNeg b).text = if b then ['-'] else [] := by cases b <;> rfl

end Sign

/-- A sign before a text that starts with a digit. -/
theorem sign_text_digit (s : Sign) {c : Char} {t : Text} (h : c.isDigit = true) :
    sign ((s.text ++ c :: t).dropWhile isSpace) = (s.neg, c :: t) := by
  cases s with
  | plus | minus => rfl
  | none =>
    simp only [Sign.text, List.nil_append]
    rw [List.dropWhile_cons_of_neg (by rw [isSpace_of_isDigit h]; decide), sign_of_isDigit t h]
    rfl

/-- The decimal scanner reads digits and a fraction to their end. -/
theorem scanDecimal_fraction {a : Text} {f : Option Text} (ha : ∀ c ∈ a, c.isDigit = true)
    (hf : ∀ c ∈ f.getD [], c.isDigit = true) (hne : a ≠ []) :
    scanDecimal (a ++ Decimal.fraction f) = some (Decimal.value a f) := by
  cases f with
  | none =>
    simp only [scanDecimal, scanNumber, Decimal.fraction, List.append_nil,
      List.takeWhile_eq_self_iff.mpr ha, List.dropWhile_eq_nil_iff.mpr ha, hne, false_and,
      ↓reduceIte, scanExponent, zpow_zero, mul_one, Nat.cast_ofNat, Decimal.value, Option.getD_none]
  | some b =>
    have htake : (a ++ '.' :: b).takeWhile Char.isDigit = a := by
      rw [List.takeWhile_append_of_pos ha, List.takeWhile_cons_of_neg (by decide), List.append_nil]
    have hdrop : (a ++ '.' :: b).dropWhile Char.isDigit = '.' :: b := by
      rw [List.dropWhile_append_of_pos ha, List.dropWhile_cons_of_neg (by decide)]
    simp only [Option.getD_some] at hf
    simp only [scanDecimal, scanNumber, Decimal.fraction, htake, hdrop,
      List.takeWhile_eq_self_iff.mpr hf, List.dropWhile_eq_nil_iff.mpr hf, hne, false_and,
      ↓reduceIte, scanExponent, zpow_zero, mul_one, Nat.cast_ofNat, Decimal.value,
      Option.getD_some]

/-- A signed decimal number is read to its end. -/
theorem strtod_decimal (s : Sign) {a : Text} {f : Option Text} (ha : ∀ c ∈ a, c.isDigit = true)
    (hf : ∀ c ∈ f.getD [], c.isDigit = true) (hne : a ≠ []) :
    strtod (s.text ++ (a ++ Decimal.fraction f)) = .number s.neg (Decimal.value a f) := by
  have hscan := scanDecimal_fraction ha hf hne
  obtain ⟨c, a', rfl⟩ := List.exists_cons_of_ne_nil hne
  have hc := ha c (by simp)
  simp only [List.cons_append] at hscan ⊢
  unfold strtod
  rw [sign_text_digit s hc]
  -- neither an infinity nor a NaN, and the second character is no `x`
  have hhead {d : Char} (w : Text) (hd : d.isDigit = false) :
      (d :: w).isPrefixOf ((c :: (a' ++ Decimal.fraction f)).map Char.toLower) = false := by
    rw [List.map_cons, List.isPrefixOf_cons_cons, toLower_of_isDigit hc,
      beq_false_of_ne (ne_of_isDigit hd hc).symm, Bool.false_and]
  have hi : "inf".toList.isPrefixOf
      ((c :: (a' ++ Decimal.fraction f)).map Char.toLower) = false :=
    hhead _ (by decide)
  have hn : "nan".toList.isPrefixOf
      ((c :: (a' ++ Decimal.fraction f)).map Char.toLower) = false :=
    hhead _ (by decide)
  have hx : "0x".toList.isPrefixOf
      ((c :: (a' ++ Decimal.fraction f)).map Char.toLower) = false := by
    apply Bool.eq_false_iff.mpr
    intro h
    have hpre := List.isPrefixOf_iff_prefix.mp h
    cases a' with
    | nil => cases f <;> exact absurd hpre (by simp [Decimal.fraction, List.cons_prefix_cons])
    | cons d a'' =>
      have hd := ha d (by simp)
      have heq := (List.cons_prefix_cons.mp (List.cons_prefix_cons.mp hpre).2).1
      rw [toLower_of_isDigit hd] at heq
      exact ne_of_isDigit (by decide) hd heq.symm
  simp only [hi, hn, hx, hscan, Bool.false_eq_true, ↓reduceIte, Option.orElse_none]

/-- No character but signs, digits and a point stands in a signed decimal number. -/
theorem not_mem_decimal (s : Sign) {a : Text} {f : Option Text} (ha : ∀ c ∈ a, c.isDigit = true)
    (hf : ∀ c ∈ f.getD [], c.isDigit = true) {c : Char} (hs : c ≠ '-' ∧ c ≠ '+' ∧ c ≠ '.')
    (hd : c.isDigit = false) : c ∉ s.text ++ (a ++ Decimal.fraction f) := by
  obtain ⟨hm, hp, hpoint⟩ := hs
  rw [List.mem_append, List.mem_append]
  rintro (h | h | h)
  · cases s with
    | none => cases h
    | plus => exact hp (List.mem_singleton.mp h)
    | minus => exact hm (List.mem_singleton.mp h)
  · exact ne_of_isDigit hd (ha c h) rfl
  · cases f with
    | none => cases h
    | some b =>
      rcases List.mem_cons.mp h with rfl | h
      · exact hpoint rfl
      · exact ne_of_isDigit hd (hf c h) rfl

/-- `stod` of a signed decimal number converts its exact value. -/
theorem stod_decimal (round : ℚ≥0 → Option ℚ≥0) (s : Sign) {a : Text} {f : Option Text}
    (ha : ∀ c ∈ a, c.isDigit = true) (hf : ∀ c ∈ f.getD [], c.isDigit = true) (hne : a ≠ []) :
    stod round (s.text ++ (a ++ Decimal.fraction f)) = match round (Decimal.value a f) with
      | some v => .ok (.finite s.neg v)
      | none => .error .outOfRange := by
  have hz := not_mem_decimal s ha hf (c := '\x00') (by decide) (by decide)
  simp only [stod, cString_of_not_mem hz, strtod_decimal s ha hf hne]

/-- A finite value is printed as a signed decimal number. -/
theorem format_eq (p : ℕ) (neg : Bool) (m : ℚ≥0) : Double.format p (.finite neg m) =
    (Sign.ofNeg neg).text ++ (Nat.toDigits 10 (Decimal.roundHalfEven (m * 10 ^ p) / 10 ^ p) ++
      Decimal.fraction (some ((Nat.toDigits 10
        (Decimal.roundHalfEven (m * 10 ^ p) % 10 ^ p)).leftpad p '0'))) := by
  rw [Sign.text_ofNeg]
  rfl

theorem not_mem_format {p : ℕ} {neg : Bool} {m : ℚ≥0} {c : Char}
    (hs : c ≠ '-' ∧ c ≠ '+' ∧ c ≠ '.') (hd : c.isDigit = false) :
    c ∉ Double.format p (.finite neg m) := by
  rw [format_eq]
  apply not_mem_decimal _ _ _ hs hd
  · exact fun c hc => Decimal.isDigit_of_mem_toDigits hc
  · exact fun c hc => Decimal.isDigit_of_mem_leftpad hc

/-- `stod` of a printed number converts exactly the decimal that was printed. -/
theorem stod_format {round : ℚ≥0 → Option ℚ≥0} {p : ℕ} (hp : 0 < p) {neg : Bool} {m v : ℚ≥0}
    (hv : round ((Decimal.roundHalfEven (m * 10 ^ p) : ℚ≥0) / 10 ^ p) = some v) :
    stod round (Double.format p (.finite neg m)) = .ok (.finite neg v) := by
  rw [format_eq, stod_decimal, Decimal.value_fixed hp, Sign.neg_ofNeg, hv]
  · exact fun c hc => Decimal.isDigit_of_mem_toDigits hc
  · exact fun c hc => Decimal.isDigit_of_mem_leftpad hc
  · exact Nat.toDigits_ne_nil

/-- A number of few decimals is zero or far from the ends of the normal range. -/
theorem normal_of_le {p n : ℕ} (hp : p ≤ 15) (hn : (n : ℚ≥0) ≤ 2 ^ 1023) :
    (n : ℚ≥0) / 10 ^ p = 0 ∨
      1 / 2 ^ 1022 ≤ (n : ℚ≥0) / 10 ^ p ∧ (n : ℚ≥0) / 10 ^ p ≤ 2 ^ 1023 := by
  rcases Nat.eq_zero_or_pos n with h0 | hpos
  · left
    simp [h0]
  · right
    have hnum : (1 : ℚ≥0) ≤ n := by exact_mod_cast hpos
    constructor
    · have hden : (10 : ℚ≥0) ^ p ≤ 2 ^ 1022 :=
        calc (10 : ℚ≥0) ^ p ≤ 10 ^ 15 := pow_le_pow_right₀ (by norm_num) hp
          _ ≤ 2 ^ 50 := by norm_num
          _ ≤ 2 ^ 1022 := pow_le_pow_right₀ (by norm_num) (by norm_num)
      exact div_le_div₀ zero_le hnum (by positivity) hden
    · exact (div_le_self zero_le (one_le_pow₀ (by norm_num))).trans hn

/-- Printing a number, reading it back and printing it again gives the same text, as long as
it has fewer than 52 bits of decimals before and after the point. -/
theorem format_stod_format {round : ℚ≥0 → Option ℚ≥0} (hround : RoundsWithin round) {p : ℕ}
    (hp : 0 < p) (hp' : p ≤ 15) {neg : Bool} {m : ℚ≥0}
    (hm : Decimal.roundHalfEven (m * 10 ^ p) < 2 ^ 52) :
    ∃ v, stod round (Double.format p (.finite neg m)) = .ok (.finite neg v) ∧
      Double.format p (.finite neg v) = Double.format p (.finite neg m) := by
  set n := Decimal.roundHalfEven (m * 10 ^ p) with hn
  have htop : (n : ℚ≥0) ≤ 2 ^ 1023 :=
    calc (n : ℚ≥0) ≤ 2 ^ 52 := by exact_mod_cast hm.le
      _ ≤ 2 ^ 1023 := pow_le_pow_right₀ (by norm_num) (by norm_num)
  obtain ⟨v, hv, herr⟩ := hround _ (normal_of_le hp' htop)
  refine ⟨v, stod_format hp hv, ?_⟩
  have hback : Decimal.roundHalfEven (v * 10 ^ p) = n := by
    apply Decimal.roundHalfEven_of_relative hm
    push_cast at herr
    exact herr
  rw [Double.format, Double.format, hback, ← hn]

theorem integer_ne_nil {i : ℤ} : Decimal.integer i ≠ [] := by
  unfold Decimal.integer
  split_ifs
  · simp
  · exact Nat.toDigits_ne_nil

/-- An integer is printed as its sign and its digits. -/
theorem integer_eq (i : ℤ) : Decimal.integer i =
    (Sign.ofNeg (decide (i < 0))).text ++ Nat.toDigits 10 i.natAbs := by
  rw [Sign.text_ofNeg]
  by_cases h : i < 0 <;> simp [Decimal.integer, h]

theorem not_mem_digits (s : Sign) {a : Text} (ha : ∀ c ∈ a, c.isDigit = true) {c : Char}
    (hs : c ≠ '-' ∧ c ≠ '+' ∧ c ≠ '.') (hd : c.isDigit = false) : c ∉ s.text ++ a := by
  have h := not_mem_decimal s (f := none) ha (by simp) hs hd
  rwa [Decimal.fraction, List.append_nil] at h

theorem not_mem_integer {i : ℤ} {c : Char} (hs : c ≠ '-' ∧ c ≠ '+' ∧ c ≠ '.')
    (hd : c.isDigit = false) : c ∉ Decimal.integer i := by
  rw [integer_eq]
  exact not_mem_digits _ (fun c hc => Decimal.isDigit_of_mem_toDigits hc) hs hd

/-- A signed number, as `std::stoll` reads it. -/
def signed (neg : Bool) (n : ℕ) : ℤ := if neg then -n else n

theorem stoll_digits (s : Sign) {a : Text} (ha : ∀ c ∈ a, c.isDigit = true) (hne : a ≠ []) :
    stoll (s.text ++ a) =
      if signed s.neg (Nat.ofDigitChars 10 a 0) < -2 ^ 63 ∨
          2 ^ 63 ≤ signed s.neg (Nat.ofDigitChars 10 a 0) then .error .outOfRange
      else .ok (Int64.ofInt (signed s.neg (Nat.ofDigitChars 10 a 0))) := by
  have hz := not_mem_digits s ha (c := '\x00') (by decide) (by decide)
  obtain ⟨c, t, rfl⟩ := List.exists_cons_of_ne_nil hne
  unfold stoll
  rw [cString_of_not_mem hz, sign_text_digit s (ha c (by simp))]
  simp only [List.takeWhile_eq_self_iff.mpr ha, List.cons_ne_nil, ↓reduceIte]
  rfl

theorem signed_natAbs (i : ℤ) : signed (decide (i < 0)) i.natAbs = i := by
  unfold signed
  split_ifs with h
  · rw [decide_eq_true_eq] at h
    omega
  · rw [decide_eq_true_eq] at h
    omega

/-- A proper prefix of a printed number reads as another one, or not at all. -/
theorem stoll_take_integer (i : Int64) {k : ℕ} (h0 : 0 < k)
    (hk : k < (Decimal.integer i.toInt).length) :
    stoll ((Decimal.integer i.toInt).take k) ≠ .ok i := by
  have hlo := i.le_toInt
  have hhi := i.toInt_lt
  set s := Sign.ofNeg (decide (i.toInt < 0)) with hs
  have hsign : s.text.length ≤ 1 := by cases s <;> decide
  rw [integer_eq, ← hs, List.length_append] at hk
  rw [integer_eq, ← hs, List.take_append, List.take_of_length_le (by omega)]
  by_cases hcut : k = s.text.length
  · -- the sign alone
    have hminus : s = .minus := by
      cases hc : s with
      | none => rw [hc, Sign.text, List.length_nil] at hcut; omega
      | plus => cases hd : decide (i.toInt < 0) <;> simp [hs, hd, Sign.ofNeg] at hc
      | minus => rfl
    rw [hcut, hminus, Nat.sub_self, List.take_zero, List.append_nil]
    intro h
    cases h
  · have hpos : 0 < k - s.text.length := by omega
    have hlt := Decimal.ofDigitChars_take_lt hpos (n := i.toInt.natAbs) (by omega)
    have hne : (Nat.toDigits 10 i.toInt.natAbs).take (k - s.text.length) ≠ [] := by
      rw [Ne, List.take_eq_nil_iff, not_or]
      exact ⟨hpos.ne', Nat.toDigits_ne_nil⟩
    rw [stoll_digits s
      (fun c hc => Decimal.isDigit_of_mem_toDigits (List.mem_of_mem_take hc)) hne]
    set v := Nat.ofDigitChars 10 ((Nat.toDigits 10 i.toInt.natAbs).take (k - s.text.length)) 0
    intro h
    split_ifs at h with hrange
    have heq := congrArg Int64.toInt (Except.ok.inj h)
    rw [Int64.toInt_ofInt_of_le (by omega) (by omega)] at heq
    have habs : (signed s.neg v).natAbs = v := by
      unfold signed
      split_ifs <;> omega
    rw [heq] at habs
    omega

theorem stoll_integer (i : Int64) : stoll (Decimal.integer i.toInt) = .ok i := by
  have hlo := i.le_toInt
  have hhi := i.toInt_lt
  rw [integer_eq, stoll_digits _ (fun c hc => Decimal.isDigit_of_mem_toDigits hc)
    Nat.toDigits_ne_nil, Nat.ofDigitChars_ten_toDigits, Sign.neg_ofNeg, signed_natAbs,
    if_neg (by omega), Int64.ofInt_toInt]

end Cxx

end CoordinateStream
