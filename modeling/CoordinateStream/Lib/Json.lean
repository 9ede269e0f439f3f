import CoordinateStream.Lib.Decimal

namespace CoordinateStream

/-! A strict reader of JSON texts. Numbers are read to their exact values; a string is kept as
it is spelled between its quotes. -/

inductive Json
  | null
  | bool (b : Bool)
  | number (neg : Bool) (mag : ℚ≥0)
  | string (raw : Text)
  | array (elements : List Json)
  | object (members : List (Text × Json))

namespace Json

def isWs (c : Char) : Bool := c ∈ [' ', '\t', '\n', '\r']

def skipWs (t : Text) : Text := t.dropWhile isWs

def isHexDigit (c : Char) : Bool :=
  c.isDigit || ('a' ≤ c.toLower && c.toLower ≤ 'f')

/-- The rest of a string after its opening quote, with what follows the closing one. -/
def readString : Text → Option (Text × Text)
  | [] => none
  | '"' :: t => some ([], t)
  | '\\' :: 'u' :: a :: b :: c :: d :: t =>
    if [a, b, c, d].all isHexDigit then
      (readString t).map fun p => ('\\' :: 'u' :: a :: b :: c :: d :: p.1, p.2)
    else none
  | '\\' :: e :: t =>
    if e ∈ ['"', '\\', '/', 'b', 'f', 'n', 'r', 't'] then
      (readString t).map fun p => ('\\' :: e :: p.1, p.2)
    else none
  | c :: t =>
    if c.toNat < 0x20 ∨ c = '\\' then none
    else (readString t).map fun p => (c :: p.1, p.2)

/-- The digits behind a point, which must be there. -/
def readFraction : Text → Option (Text × Text)
  | '.' :: t =>
    if t.takeWhile Char.isDigit = [] then none
    else some (t.takeWhile Char.isDigit, t.dropWhile Char.isDigit)
  | t => some ([], t)

def readSign : Text → Bool × Text
  | '-' :: t => (true, t)
  | '+' :: t => (false, t)
  | t => (false, t)

def readExponent : Text → Option (ℤ × Text)
  | [] => some (0, [])
  | c :: t =>
    if c = 'e' ∨ c = 'E' then
      let (neg, u) := readSign t
      let e : ℤ := Nat.ofDigitChars 10 (u.takeWhile Char.isDigit) 0
      if u.takeWhile Char.isDigit = [] then none
      else some (if neg then -e else e, u.dropWhile Char.isDigit)
    else some (0, c :: t)

/-- A minus sign, which alone may precede a number. -/
def readMinus : Text → Bool × Text
  | '-' :: t => (true, t)
  | t => (false, t)

def readNumber (text : Text) : Option (Json × Text) :=
  let (neg, t) := readMinus text
  let int := t.takeWhile Char.isDigit
  -- no leading zeros
  if int = [] ∨ 1 < int.length ∧ int.head? = some '0' then none
  else (readFraction (t.dropWhile Char.isDigit)).bind fun (frac, u) =>
    (readExponent u).map fun (e, rest) =>
      (number neg ((Nat.ofDigitChars 10 (int ++ frac) 0 : ℚ≥0) / 10 ^ frac.length * 10 ^ e), rest)

def readLiteral (word : Text) (v : Json) (t : Text) : Option (Json × Text) :=
  if word.isPrefixOf t then some (v, t.drop word.length) else none

def readScalar (t : Text) : Option (Json × Text) :=
  (readLiteral "true".toList (bool true) t).orElse fun _ =>
    (readLiteral "false".toList (bool false) t).orElse fun _ =>
      (readLiteral "null".toList null t).orElse fun _ => readNumber t

/-- The elements of an array up to its closing bracket, read by `value`. -/
def readElements (value : Text → Option (Json × Text)) : ℕ → Text → Option (List Json × Text)
  | 0, _ => none
  | n + 1, t => (value t).bind fun (v, u) => match skipWs u with
    | ',' :: u => (readElements value n u).map fun (vs, rest) => (v :: vs, rest)
    | ']' :: u => some ([v], u)
    | _ => none

/-- The name of a member and its colon. -/
def readName (t : Text) : Option (Text × Text) :=
  match skipWs t with
  | '"' :: t => (readString t).bind fun (name, u) => match skipWs u with
    | ':' :: u => some (name, u)
    | _ => none
  | _ => none

/-- The members of an object up to its closing brace. -/
def readMembers (value : Text → Option (Json × Text)) :
    ℕ → Text → Option (List (Text × Json) × Text)
  | 0, _ => none
  | n + 1, t => (readName t).bind fun (name, u) => (value u).bind fun (v, u) => match skipWs u with
    | ',' :: u => (readMembers value n u).map fun (ms, rest) => ((name, v) :: ms, rest)
    | '}' :: u => some ([(name, v)], u)
    | _ => none

def readArray (value : Text → Option (Json × Text)) (n : ℕ) (t : Text) : Option (Json × Text) :=
  match skipWs t with
  | ']' :: u => some (array [], u)
  | _ => (readElements value n t).map fun (vs, rest) => (array vs, rest)

def readObject (value : Text → Option (Json × Text)) (n : ℕ) (t : Text) : Option (Json × Text) :=
  match skipWs t with
  | '}' :: u => some (object [], u)
  | _ => (readMembers value n t).map fun (ms, rest) => (object ms, rest)

/-- A value, with what follows it. The fuel bounds the nesting, and the members and elements
on each level. -/
def readValue : ℕ → Text → Option (Json × Text)
  | 0, _ => none
  | n + 1, t => match skipWs t with
    | '\x7b' :: u => readObject (readValue n) n u
    | '[' :: u => readArray (readValue n) n u
    | '"' :: u => (readString u).map fun (s, rest) => (string s, rest)
    | u => readScalar u

/-- The text is one value with nothing but blanks around it. -/
def Reads (t : Text) (v : Json) : Prop :=
  ∃ n rest, readValue n t = some (v, rest) ∧ skipWs rest = []

def WellFormed (t : Text) : Prop := ∃ v, Reads t v

/-! ### More fuel reads the same -/

section fuel

variable {value value' : Text → Option (Json × Text)}

theorem readElements_mono (h : ∀ t p, value t = some p → value' t = some p) {n : ℕ} {t : Text}
    {p : List Json × Text} (hn : readElements value n t = some p) {m : ℕ} (hm : n ≤ m) :
    readElements value' m t = some p := by
  induction n generalizing m t p with
  | zero => cases hn
  | succ n ih =>
    obtain ⟨m, rfl⟩ : ∃ k, m = k + 1 := ⟨m - 1, by omega⟩
    obtain ⟨⟨v, u⟩, hv, hrest⟩ := Option.bind_eq_some_iff.mp hn
    refine Option.bind_eq_some_iff.mpr ⟨(v, u), h t _ hv, ?_⟩
    dsimp only at hrest ⊢
    split at hrest
    · obtain ⟨q, hq, rfl⟩ := Option.map_eq_some_iff.mp hrest
      exact Option.map_eq_some_iff.mpr ⟨q, ih hq (by omega), rfl⟩
    · exact hrest
    · cases hrest

theorem readMembers_mono (h : ∀ t p, value t = some p → value' t = some p) {n : ℕ} {t : Text}
    {p : List (Text × Json) × Text} (hn : readMembers value n t = some p) {m : ℕ} (hm : n ≤ m) :
    readMembers value' m t = some p := by
  induction n generalizing m t p with
  | zero => cases hn
  | succ n ih =>
    obtain ⟨m, rfl⟩ : ∃ k, m = k + 1 := ⟨m - 1, by omega⟩
    obtain ⟨⟨name, u⟩, hname, hmember⟩ := Option.bind_eq_some_iff.mp hn
    obtain ⟨⟨v, w⟩, hv, hrest⟩ := Option.bind_eq_some_iff.mp hmember
    refine Option.bind_eq_some_iff.mpr ⟨(name, u), hname, ?_⟩
    refine Option.bind_eq_some_iff.mpr ⟨(v, w), h u _ hv, ?_⟩
    dsimp only at hrest ⊢
    split at hrest
    · obtain ⟨q, hq, rfl⟩ := Option.map_eq_some_iff.mp hrest
      exact Option.map_eq_some_iff.mpr ⟨q, ih hq (by omega), rfl⟩
    · exact hrest
    · cases hrest

theorem readValue_mono {n : ℕ} {t : Text} {p : Json × Text} (hn : readValue n t = some p)
    {m : ℕ} (hm : n ≤ m) : readValue m t = some p := by
  induction n generalizing m t p with
  | zero => cases hn
  | succ n ih =>
    obtain ⟨m, rfl⟩ : ∃ k, m = k + 1 := ⟨m - 1, by omega⟩
    have hvalue : ∀ t p, readValue n t = some p → readValue m t = some p :=
      fun t p hp => ih hp (by omega)
    rw [readValue] at hn ⊢
    split at hn
    · unfold readObject at hn ⊢
      split at hn
      · exact hn
      · obtain ⟨q, hq, rfl⟩ := Option.map_eq_some_iff.mp hn
        exact Option.map_eq_some_iff.mpr ⟨q, readMembers_mono hvalue hq (by omega), rfl⟩
    · unfold readArray at hn ⊢
      split at hn
      · exact hn
      · obtain ⟨q, hq, rfl⟩ := Option.map_eq_some_iff.mp hn
        exact Option.map_eq_some_iff.mpr ⟨q, readElements_mono hvalue hq (by omega), rfl⟩
    · exact hn
    · exact hn

end fuel

/-- A text reads as one value at most. -/
theorem Reads.unique {t : Text} {v w : Json} (hv : Reads t v) (hw : Reads t w) : v = w := by
  obtain ⟨n, r, hn, -⟩ := hv
  obtain ⟨m, s, hm, -⟩ := hw
  have h := readValue_mono hn (Nat.le_max_left n m)
  rw [readValue_mono hm (Nat.le_max_right n m)] at h
  exact (congrArg Prod.fst (Option.some.inj h)).symm

/-- What a reader that is given more fuel than `k` refuses is not well formed. -/
theorem not_wellFormed_of_refused {t : Text} {k : ℕ} (h : ∀ n, readValue (n + k) t = none) :
    ¬WellFormed t := by
  rintro ⟨v, n, r, hn, -⟩
  have hnone := h n
  rw [readValue_mono hn (Nat.le_add_right n k)] at hnone
  cases hnone

/-! ### What follows a value is part of the text -/

theorem skipWs_subset (t : Text) : skipWs t ⊆ t := (List.dropWhile_sublist _).subset

theorem mem_of_skipWs_cons {t u : Text} {c : Char} (h : skipWs t = c :: u) : c ∈ t ∧ u ⊆ t := by
  have hsub := skipWs_subset t
  rw [h] at hsub
  exact ⟨hsub List.mem_cons_self, fun d hd => hsub (List.mem_cons_of_mem _ hd)⟩

theorem readString_subset {t : Text} {p : Text × Text} (h : readString t = some p) :
    p.2 ⊆ t := by
  induction t using readString.induct generalizing p with
  | case1 => cases h
  | case2 t =>
    rw [readString, Option.some.injEq] at h
    subst h
    exact List.subset_cons_self _ _
  | case3 a b c d t hall ih =>
    rw [readString, if_pos hall] at h
    obtain ⟨q, hq, rfl⟩ := Option.map_eq_some_iff.mp h
    intro x hx
    simp only [List.mem_cons]
    simp [ih hq hx]
  | case4 a b c d t hall =>
    rw [readString, if_neg hall] at h
    cases h
  | case5 e t hu he ih =>
    rw [readString, if_pos he] at h
    · obtain ⟨q, hq, rfl⟩ := Option.map_eq_some_iff.mp h
      intro x hx
      simp [ih hq hx]
    · exact hu
  | case6 e t hu he =>
    rw [readString, if_neg he] at h
    · cases h
    · exact hu
  | case7 c t hq hu he hctrl =>
    rw [readString, if_pos hctrl] at h
    · cases h
    · exact hq
    · exact hu
    · exact he
  | case8 c t hq hu he hctrl ih =>
    rw [readString, if_neg hctrl] at h
    · obtain ⟨q, hq, rfl⟩ := Option.map_eq_some_iff.mp h
      exact fun x hx => List.mem_cons_of_mem _ (ih hq hx)
    · exact hq
    · exact hu
    · exact he

theorem readFraction_subset {t : Text} {p : Text × Text} (h : readFraction t = some p) :
    p.2 ⊆ t := by
  unfold readFraction at h
  split at h
  · split_ifs at h
    rw [← Option.some.inj h]
    exact fun c hc => List.mem_cons_of_mem _ ((List.dropWhile_sublist _).subset hc)
  · rw [← Option.some.inj h]
    exact List.Subset.refl _

theorem readSign_subset (t : Text) : (readSign t).2 ⊆ t := by
  unfold readSign
  split
  · exact List.subset_cons_self _ _
  · exact List.subset_cons_self _ _
  · exact List.Subset.refl _

theorem readExponent_subset {t : Text} {p : ℤ × Text} (h : readExponent t = some p) :
    p.2 ⊆ t := by
  cases t with
  | nil =>
    rw [← Option.some.inj h]
    exact List.Subset.refl _
  | cons c t =>
    rw [readExponent] at h
    dsimp only at h
    split_ifs at h
    · rw [← Option.some.inj h]
      exact fun d hd => List.mem_cons_of_mem _
        (readSign_subset t ((List.dropWhile_sublist _).subset hd))
    · rw [← Option.some.inj h]
      exact fun d hd => List.mem_cons_of_mem _
        (readSign_subset t ((List.dropWhile_sublist _).subset hd))
    · rw [← Option.some.inj h]
      exact List.Subset.refl _

theorem readMinus_subset (t : Text) : (readMinus t).2 ⊆ t := by
  unfold readMinus
  split
  · exact List.subset_cons_self _ _
  · exact List.Subset.refl _

theorem readNumber_subset {t : Text} {p : Json × Text} (h : readNumber t = some p) :
    p.2 ⊆ t := by
  unfold readNumber at h
  dsimp only at h
  split_ifs at h
  obtain ⟨q, hq, hrest⟩ := Option.bind_eq_some_iff.mp h
  obtain ⟨w, hw, rfl⟩ := Option.map_eq_some_iff.mp hrest
  intro c hc
  have hfraction := readFraction_subset hq (readExponent_subset hw hc)
  exact readMinus_subset t ((List.dropWhile_sublist _).subset hfraction)

theorem readLiteral_subset {word t : Text} {v : Json} {p : Json × Text}
    (h : readLiteral word v t = some p) : p.2 ⊆ t := by
  unfold readLiteral at h
  split_ifs at h
  rw [← Option.some.inj h]
  exact (List.drop_sublist _ _).subset

theorem eq_some_of_orElse {α : Type*} {a : Option α} {b : Unit → Option α} {x : α}
    (h : a.orElse b = some x) : a = some x ∨ b () = some x := by
  cases a with
  | none => exact .inr h
  | some y => exact .inl h

theorem readScalar_subset {t : Text} {p : Json × Text} (h : readScalar t = some p) :
    p.2 ⊆ t := by
  rcases eq_some_of_orElse h with h | h
  · exact readLiteral_subset h
  rcases eq_some_of_orElse h with h | h
  · exact readLiteral_subset h
  rcases eq_some_of_orElse h with h | h
  · exact readLiteral_subset h
  · exact readNumber_subset h

theorem readName_subset {t : Text} {p : Text × Text} (h : readName t = some p) : p.2 ⊆ t := by
  unfold readName at h
  split at h
  · next u hu =>
    obtain ⟨q, hq, hcolon⟩ := Option.bind_eq_some_iff.mp h
    dsimp only at hcolon
    split at hcolon
    · next w hw =>
      rw [← Option.some.inj hcolon]
      exact fun c hc => (mem_of_skipWs_cons hu).2
        (readString_subset hq ((mem_of_skipWs_cons hw).2 hc))
    · cases hcolon
  · cases h

section remainder

variable {value : Text → Option (Json × Text)}

theorem readElements_subset (hv : ∀ t p, value t = some p → p.2 ⊆ t) {n : ℕ} {t : Text}
    {p : List Json × Text} (h : readElements value n t = some p) : p.2 ⊆ t := by
  induction n generalizing t p with
  | zero => cases h
  | succ n ih =>
    obtain ⟨⟨v, u⟩, hu, hrest⟩ := Option.bind_eq_some_iff.mp h
    have hut := hv t _ hu
    dsimp only at hrest hut
    split at hrest
    · next w hw =>
      obtain ⟨q, hq, rfl⟩ := Option.map_eq_some_iff.mp hrest
      exact fun c hc => hut ((mem_of_skipWs_cons hw).2 (ih hq hc))
    · next w hw =>
      rw [← Option.some.inj hrest]
      exact fun c hc => hut ((mem_of_skipWs_cons hw).2 hc)
    · cases hrest

/-- Members end with a closing brace of the text. -/
theorem readMembers_subset (hv : ∀ t p, value t = some p → p.2 ⊆ t) {n : ℕ} {t : Text}
    {p : List (Text × Json) × Text} (h : readMembers value n t = some p) :
    '\x7d' ∈ t ∧ p.2 ⊆ t := by
  induction n generalizing t p with
  | zero => cases h
  | succ n ih =>
    obtain ⟨⟨name, u⟩, hu, hmember⟩ := Option.bind_eq_some_iff.mp h
    obtain ⟨⟨v, w⟩, hw, hrest⟩ := Option.bind_eq_some_iff.mp hmember
    have hut := readName_subset hu
    have hwu := hv u _ hw
    dsimp only at hrest hut hwu
    split at hrest
    · next x hx =>
      obtain ⟨q, hq, rfl⟩ := Option.map_eq_some_iff.mp hrest
      obtain ⟨hmem, hsub⟩ := ih hq
      have hxt : x ⊆ t := fun c hc => hut (hwu ((mem_of_skipWs_cons hx).2 hc))
      exact ⟨hxt hmem, fun c hc => hxt (hsub hc)⟩
    · next x hx =>
      rw [← Option.some.inj hrest]
      obtain ⟨hmem, hsub⟩ := mem_of_skipWs_cons hx
      exact ⟨hut (hwu hmem), fun c hc => hut (hwu (hsub hc))⟩
    · cases hrest

theorem readArray_subset (hv : ∀ t p, value t = some p → p.2 ⊆ t) {n : ℕ} {t : Text}
    {p : Json × Text} (h : readArray value n t = some p) : p.2 ⊆ t := by
  unfold readArray at h
  split at h
  · next u hu =>
    rw [← Option.some.inj h]
    exact (mem_of_skipWs_cons hu).2
  · obtain ⟨q, hq, rfl⟩ := Option.map_eq_some_iff.mp h
    exact readElements_subset hv hq

theorem readObject_subset (hv : ∀ t p, value t = some p → p.2 ⊆ t) {n : ℕ} {t : Text}
    {p : Json × Text} (h : readObject value n t = some p) : '\x7d' ∈ t ∧ p.2 ⊆ t := by
  unfold readObject at h
  split at h
  · next u hu =>
    rw [← Option.some.inj h]
    exact mem_of_skipWs_cons hu
  · obtain ⟨q, hq, rfl⟩ := Option.map_eq_some_iff.mp h
    exact readMembers_subset hv hq

end remainder

theorem readValue_subset {n : ℕ} {t : Text} {p : Json × Text} (h : readValue n t = some p) :
    p.2 ⊆ t := by
  induction n generalizing t p with
  | zero => cases h
  | succ n ih =>
    rw [readValue] at h
    split at h
    · next u hu =>
      exact fun c hc => (mem_of_skipWs_cons hu).2 ((readObject_subset (fun _ _ => ih) h).2 hc)
    · next u hu =>
      exact fun c hc => (mem_of_skipWs_cons hu).2 (readArray_subset (fun _ _ => ih) h hc)
    · next u hu =>
      obtain ⟨q, hq, rfl⟩ := Option.map_eq_some_iff.mp h
      exact fun c hc => (mem_of_skipWs_cons hu).2 (readString_subset hq hc)
    · exact fun c hc => skipWs_subset t (readScalar_subset h hc)

/-- An object that is never closed is not well formed. -/
theorem not_wellFormed_of_open {t : Text} (h : '\x7d' ∉ t) : ¬WellFormed ('\x7b' :: t) := by
  rintro ⟨v, n, r, hn, -⟩
  cases n with
  | zero => cases hn
  | succ n =>
    have hobject : readObject (readValue n) n t = some (v, r) := hn
    exact h (readObject_subset (fun _ _ => readValue_subset) hobject).1

/-! ### Numerals -/

/-- A character that ends a value inside an array or an object. -/
def IsDelimiter (c : Char) : Prop := c = ',' ∨ c = ']' ∨ c = '\x7d'

theorem IsDelimiter.isDigit {c : Char} (h : IsDelimiter c) : c.isDigit = false := by
  rcases h with rfl | rfl | rfl <;> decide

theorem readExponent_delimiter {c : Char} (h : IsDelimiter c) (rest : Text) :
    readExponent (c :: rest) = some (0, c :: rest) := by
  rw [readExponent, if_neg]
  rcases h with rfl | rfl | rfl <;> decide

theorem readFraction_delimiter {f : Option Text} (hf : ∀ b ∈ f, b ≠ [] ∧ ∀ d ∈ b, d.isDigit = true)
    {c : Char} (h : IsDelimiter c) (rest : Text) :
    readFraction (Decimal.fraction f ++ c :: rest) = some (f.getD [], c :: rest) := by
  have hc := h.isDigit
  cases f with
  | none =>
    rcases h with rfl | rfl | rfl <;> rfl
  | some b =>
    obtain ⟨hne, hb⟩ := hf b rfl
    have htake : (b ++ c :: rest).takeWhile Char.isDigit = b := by
      rw [List.takeWhile_append_of_pos hb, List.takeWhile_cons_of_neg (by rw [hc]; decide),
        List.append_nil]
    have hdrop : (b ++ c :: rest).dropWhile Char.isDigit = c :: rest := by
      rw [List.dropWhile_append_of_pos hb, List.dropWhile_cons_of_neg (by rw [hc]; decide)]
    simp only [Decimal.fraction, List.cons_append, readFraction, htake, hdrop, hne, ↓reduceIte,
      Option.getD_some]

theorem readMinus_digit {neg : Bool} {c : Char} {t : Text} (h : c.isDigit = true) :
    readMinus ((if neg then ['-'] else []) ++ c :: t) = (neg, c :: t) := by
  cases neg with
  | true => rfl
  | false =>
    simp only [Bool.false_eq_true, ↓reduceIte, List.nil_append, readMinus]
    split
    · next heq =>
      cases heq
      cases h
    · rfl

/-- Digits without a leading zero, and a fraction, are read up to the end of the value. -/
theorem readNumber_numeral (neg : Bool) {a : Text} {f : Option Text}
    (ha : ∀ c ∈ a, c.isDigit = true) (hne : a ≠ [])
    (hzero : ¬(1 < a.length ∧ a.head? = some '0'))
    (hf : ∀ b ∈ f, b ≠ [] ∧ ∀ d ∈ b, d.isDigit = true) {c : Char} (hc : IsDelimiter c)
    (rest : Text) :
    readNumber ((if neg then ['-'] else []) ++ (a ++ (Decimal.fraction f ++ c :: rest))) =
      some (number neg (Decimal.value a f), c :: rest) := by
  obtain ⟨e, u, heu, he⟩ : ∃ e u, Decimal.fraction f ++ c :: rest = e :: u ∧
      e.isDigit = false := by
    cases f with
    | none => exact ⟨c, rest, rfl, hc.isDigit⟩
    | some b => exact ⟨'.', _, rfl, rfl⟩
  have htake : (a ++ (Decimal.fraction f ++ c :: rest)).takeWhile Char.isDigit = a := by
    rw [heu, List.takeWhile_append_of_pos ha, List.takeWhile_cons_of_neg (by rw [he]; decide),
      List.append_nil]
  have hdrop : (a ++ (Decimal.fraction f ++ c :: rest)).dropWhile Char.isDigit =
      Decimal.fraction f ++ c :: rest := by
    rw [heu, List.dropWhile_append_of_pos ha, List.dropWhile_cons_of_neg (by rw [he]; decide)]
  have hminus : readMinus ((if neg then ['-'] else []) ++
      (a ++ (Decimal.fraction f ++ c :: rest))) =
      (neg, a ++ (Decimal.fraction f ++ c :: rest)) := by
    obtain ⟨d, a', rfl⟩ := List.exists_cons_of_ne_nil hne
    exact readMinus_digit (ha d (by simp))
  simp only [readNumber, hminus, htake, hdrop, hne, hzero, or_self, ↓reduceIte,
    readFraction_delimiter hf hc, Option.bind_some, readExponent_delimiter hc, Option.map_some,
    zpow_zero, mul_one, Decimal.value]

/-- Printed digits have no leading zero. -/
theorem toDigits_no_zero (n : ℕ) :
    ¬(1 < (Nat.toDigits 10 n).length ∧ (Nat.toDigits 10 n).head? = some '0') := by
  rintro ⟨hlen, hhead⟩
  rcases Nat.eq_zero_or_pos n with rfl | hpos
  · exact absurd hlen (by decide)
  · exact Decimal.head?_toDigits_ne_zero hpos hhead

theorem readNumber_fixed (neg : Bool) {p n : ℕ} (hp : 0 < p) {c : Char} (hc : IsDelimiter c)
    (rest : Text) :
    readNumber ((if neg then ['-'] else []) ++ (Decimal.fixed p n ++ c :: rest)) =
      some (number neg (n / 10 ^ p), c :: rest) := by
  have hlen := Decimal.length_leftpad_toDigits hp (Nat.mod_lt n (by positivity : 0 < 10 ^ p))
  have h := readNumber_numeral neg
    (f := some ((Nat.toDigits 10 (n % 10 ^ p)).leftpad p '0'))
    (fun c hc => Decimal.isDigit_of_mem_toDigits hc) Nat.toDigits_ne_nil
    (toDigits_no_zero (n / 10 ^ p)) ?_ hc rest
  · rw [Decimal.value_fixed hp] at h
    rw [← h]
    simp [Decimal.fixed, Decimal.fraction]
  · intro b hb
    rw [Option.mem_some_iff] at hb
    subst hb
    refine ⟨fun hnil => ?_, fun d hd => Decimal.isDigit_of_mem_leftpad hd⟩
    rw [hnil] at hlen
    simp only [List.length_nil] at hlen
    omega

theorem readNumber_digits (neg : Bool) (n : ℕ) {c : Char} (hc : IsDelimiter c) (rest : Text) :
    readNumber ((if neg then ['-'] else []) ++ (Nat.toDigits 10 n ++ c :: rest)) =
      some (number neg n, c :: rest) := by
  have h := readNumber_numeral neg (f := none)
    (fun c hc => Decimal.isDigit_of_mem_toDigits hc) Nat.toDigits_ne_nil
    (toDigits_no_zero n) nofun hc rest
  rwa [Decimal.value_toDigits] at h

/-- A text that starts as a numeral does is read as one. -/
theorem readValue_numeral {c : Char} (hc : c = '-' ∨ c.isDigit = true) (n : ℕ) (t : Text) :
    readValue (n + 1) (c :: t) = readNumber (c :: t) := by
  have hne {d : Char} (hm : d ≠ '-') (hd : d.isDigit = false) : c ≠ d := by
    rintro rfl
    rcases hc with h | h
    · exact hm h
    · rw [h] at hd
      cases hd
  have hws : isWs c = false := by
    simp only [isWs, List.mem_cons, List.not_mem_nil, or_false, decide_eq_false_iff_not, not_or]
    refine ⟨?_, ?_, ?_, ?_⟩ <;> exact hne (by decide) (by decide)
  have hskip : skipWs (c :: t) = c :: t := List.dropWhile_cons_of_neg (by rw [hws]; decide)
  have hliteral {d : Char} {w : Text} {v : Json} (hm : d ≠ '-') (hd : d.isDigit = false) :
      readLiteral (d :: w) v (c :: t) = none := by
    rw [readLiteral, if_neg]
    rw [List.isPrefixOf_cons_cons, beq_false_of_ne (hne hm hd).symm, Bool.false_and]
    decide
  have hscalar : readScalar (c :: t) = readNumber (c :: t) := by
    have ht : readLiteral "true".toList (bool true) (c :: t) = none :=
      hliteral (by decide) (by decide)
    have hf : readLiteral "false".toList (bool false) (c :: t) = none :=
      hliteral (by decide) (by decide)
    have hn : readLiteral "null".toList null (c :: t) = none :=
      hliteral (by decide) (by decide)
    rw [readScalar, ht, hf, hn]
    rfl
  rw [readValue, hskip]
  split
  · next heq => exact absurd (List.cons.inj heq).1 (hne (by decide) (by decide))
  · next heq => exact absurd (List.cons.inj heq).1 (hne (by decide) (by decide))
  · next heq => exact absurd (List.cons.inj heq).1 (hne (by decide) (by decide))
  · exact hscalar

theorem readValue_fixed (neg : Bool) {p m : ℕ} (hp : 0 < p) {c : Char} (hc : IsDelimiter c)
    (n : ℕ) (rest : Text) :
    readValue (n + 1) ((if neg then ['-'] else []) ++ (Decimal.fixed p m ++ c :: rest)) =
      some (number neg (m / 10 ^ p), c :: rest) := by
  have h := readNumber_fixed neg (n := m) hp hc rest
  cases neg with
  | true => exact (readValue_numeral (.inl rfl) n _).trans h
  | false =>
    obtain ⟨d, u, hdu⟩ := List.exists_cons_of_ne_nil
      (Nat.toDigits_ne_nil (b := 10) (n := m / 10 ^ p))
    have hd : d.isDigit = true := Decimal.isDigit_of_mem_toDigits (hdu ▸ List.mem_cons_self)
    simp only [Bool.false_eq_true, ↓reduceIte, List.nil_append, Decimal.fixed, hdu,
      List.cons_append] at h ⊢
    exact (readValue_numeral (.inr hd) n _).trans h

theorem readValue_digits (neg : Bool) {m : ℕ} {c : Char} (hc : IsDelimiter c) (n : ℕ)
    (rest : Text) :
    readValue (n + 1) ((if neg then ['-'] else []) ++ (Nat.toDigits 10 m ++ c :: rest)) =
      some (number neg m, c :: rest) := by
  have h := readNumber_digits neg m hc rest
  cases neg with
  | true => exact (readValue_numeral (.inl rfl) n _).trans h
  | false =>
    obtain ⟨d, u, hdu⟩ := List.exists_cons_of_ne_nil (Nat.toDigits_ne_nil (b := 10) (n := m))
    have hd : d.isDigit = true := Decimal.isDigit_of_mem_toDigits (hdu ▸ List.mem_cons_self)
    simp only [Bool.false_eq_true, ↓reduceIte, List.nil_append, hdu, List.cons_append] at h ⊢
    exact (readValue_numeral (.inr hd) n _).trans h

/-! ### Objects and arrays as they are printed -/

/-- A name that is spelled as it is. -/
def Plain (name : Text) : Prop := ∀ c ∈ name, c ≠ '"' ∧ c ≠ '\\' ∧ 0x20 ≤ c.toNat

instance (name : Text) : Decidable (Plain name) := List.decidableBAll _ name

theorem readString_plain {name : Text} (h : Plain name) (rest : Text) :
    readString (name ++ '"' :: rest) = some (name, rest) := by
  induction name with
  | nil => rfl
  | cons c name ih =>
    obtain ⟨hq, hb, hctrl⟩ := h c List.mem_cons_self
    rw [List.cons_append, readString, if_neg, ih fun d hd => h d (List.mem_cons_of_mem _ hd)]
    · rfl
    · rintro (h | h)
      · omega
      · exact hb h
    · exact hq
    · rintro _ _ _ _ _ rfl
      exact absurd rfl hb
    · rintro _ _ rfl
      exact absurd rfl hb

/-- A quoted name, its colon and what follows. -/
def member (name rest : Text) : Text := '"' :: (name ++ '"' :: ':' :: rest)

theorem readName_member {name : Text} (h : Plain name) (rest : Text) :
    readName (member name rest) = some (name, rest) := by
  have hread : readName (member name rest) = (readString (name ++ '"' :: ':' :: rest)).bind
      fun (name, u) => match skipWs u with
        | ':' :: u => some (name, u)
        | _ => none := rfl
  rw [hread, readString_plain h]
  rfl

variable {value : Text → Option (Json × Text)} {n : ℕ} {name rest more : Text} {v : Json}

theorem readMembers_comma (h : Plain name) (hv : value rest = some (v, ',' :: more)) :
    readMembers value (n + 1) (member name rest) =
      (readMembers value n more).map fun p => ((name, v) :: p.1, p.2) := by
  rw [readMembers, readName_member h, Option.bind_some]
  dsimp only
  rw [hv]
  rfl

theorem readMembers_close (h : Plain name) (hv : value rest = some (v, '\x7d' :: more)) :
    readMembers value (n + 1) (member name rest) = some ([(name, v)], more) := by
  rw [readMembers, readName_member h, Option.bind_some]
  dsimp only
  rw [hv]
  rfl

theorem readMembers_refused (h : Plain name) (hv : value rest = none) :
    readMembers value (n + 1) (member name rest) = none := by
  rw [readMembers, readName_member h, Option.bind_some]
  dsimp only
  rw [hv]
  rfl

theorem readElements_comma {t : Text} (hv : value t = some (v, ',' :: more)) :
    readElements value (n + 1) t = (readElements value n more).map fun p => (v :: p.1, p.2) := by
  rw [readElements, hv]
  rfl

theorem readElements_close {t : Text} (hv : value t = some (v, ']' :: more)) :
    readElements value (n + 1) t = some ([v], more) := by
  rw [readElements, hv]
  rfl

theorem readElements_refused {t : Text} (hv : value t = none) :
    readElements value (n + 1) t = none := by
  rw [readElements, hv]
  rfl

/-- An object with a first member. -/
theorem readValue_object (name rest : Text) :
    readValue (n + 1) ('\x7b' :: member name rest) =
      (readMembers (readValue n) n (member name rest)).map fun p => (object p.1, p.2) := rfl

/-- An array with a first element. -/
theorem readValue_array {c : Char} (hws : isWs c = false) (hc : c ≠ ']') (t : Text) :
    readValue (n + 1) ('[' :: c :: t) =
      (readElements (readValue n) n (c :: t)).map fun p => (array p.1, p.2) := by
  have hskip : skipWs (c :: t) = c :: t := List.dropWhile_cons_of_neg (by rw [hws]; decide)
  have hread : readValue (n + 1) ('[' :: c :: t) = readArray (readValue n) n (c :: t) := rfl
  rw [hread, readArray, hskip]
  split
  · next heq => exact absurd (List.cons.inj heq).1 hc
  · rfl

end Json

end CoordinateStream
