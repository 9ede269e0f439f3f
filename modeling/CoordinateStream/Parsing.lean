import CoordinateStream.SampleIdentity

namespace CoordinateStream

/-! The text of a sample by its fields: what the three `getline` calls of `on_data_available`
make of it, and what is converted. -/

namespace MessengerSubscriberApp

variable {round : ℚ≥0 → Option ℚ≥0}

/-- A text that the three `getline` calls split: two commas, and something after the second
one. -/
structure Fields where
  lonStr : Text
  latStr : Text
  /-- All that follows the second comma; the last `getline` takes its first line. -/
  rest : Text
  lon_clean : ',' ∉ lonStr
  lat_clean : ',' ∉ latStr
  rest_ne : rest ≠ []

namespace Fields

def text (f : Fields) : Text := f.lonStr ++ ',' :: (f.latStr ++ ',' :: f.rest)

def timeStr (f : Fields) : Text := f.rest.takeWhile (· ≠ '\n')

/-- The three conversions, in their order. -/
def convert (round : ℚ≥0 → Option ℚ≥0) (f : Fields) : Except Cxx.StdError Coordinates := do
  let lon ← Cxx.stod round f.lonStr
  let lat ← Cxx.stod round f.latStr
  let timestamp ← Cxx.stoll f.timeStr
  return ⟨lon, lat, timestamp⟩

theorem convert_eq_ok {f : Fields} {c : Coordinates} : f.convert round = .ok c ↔
    Cxx.stod round f.lonStr = .ok c.longitude ∧ Cxx.stod round f.latStr = .ok c.latitude ∧
      Cxx.stoll f.timeStr = .ok c.timestamp := by
  obtain ⟨lon, lat, t⟩ := c
  unfold convert
  cases Cxx.stod round f.lonStr <;> cases Cxx.stod round f.latStr <;>
    cases Cxx.stoll f.timeStr <;>
    simp [bind, Except.bind, pure, Except.pure]

end Fields

/-- Cutting at the first delimiter. -/
theorem append_cons_inj {d : Char} {a b u v : Text} (ha : d ∉ a) (hb : d ∉ b)
    (h : a ++ d :: u = b ++ d :: v) : a = b ∧ u = v := by
  have htake := congrArg (List.takeWhile (· ≠ d)) h
  rw [List.takeWhile_append_of_pos (Cxx.forall_ne_of_not_mem ha),
    List.takeWhile_append_of_pos (Cxx.forall_ne_of_not_mem hb),
    List.takeWhile_cons_of_neg (by simp), List.takeWhile_cons_of_neg (by simp),
    List.append_nil, List.append_nil] at htake
  subst htake
  exact ⟨rfl, (List.cons.inj (List.append_cancel_left h)).2⟩

theorem parse_text (f : Fields) : parse round f.text = (f.convert round).map some := by
  have hlast : Cxx.getline '\n' ⟨f.rest, true⟩ = some (f.timeStr,
      ⟨(f.rest.dropWhile (· ≠ '\n')).tail, decide ('\n' ∈ f.rest)⟩) := by
    rw [Cxx.getline, if_neg (by simp [f.rest_ne])]
    rfl
  unfold parse
  rw [Fields.text, Cxx.getline_delim f.lon_clean]
  dsimp only
  rw [Cxx.getline_delim f.lat_clean]
  dsimp only
  rw [hlast]
  dsimp only
  unfold Fields.convert
  cases Cxx.stod round f.lonStr <;> cases Cxx.stod round f.latStr <;>
    cases Cxx.stoll f.timeStr <;> rfl

/-- A text without the delimiter ends the reading. -/
theorem getline_of_not_mem {d : Char} {a : Text} (h : d ∉ a) :
    Cxx.getline d ⟨a, true⟩ = none ∨ Cxx.getline d ⟨a, true⟩ = some (a, ⟨[], false⟩) := by
  by_cases hne : a = []
  · left
    rw [Cxx.getline, if_pos (.inr hne)]
  · exact .inr (Cxx.getline_last h hne)

/-- A text that does not split is unparsed. -/
theorem parse_of_not_fields {text : Text} (h : ∀ f : Fields, f.text ≠ text) :
    parse round text = .ok none := by
  by_cases h₁ : ',' ∈ text
  · obtain ⟨lon, u, rfl, hlon⟩ := List.eq_append_cons_of_mem h₁
    unfold parse
    rw [Cxx.getline_delim hlon]
    dsimp only
    by_cases h₂ : ',' ∈ u
    · obtain ⟨lat, rest, rfl, hlat⟩ := List.eq_append_cons_of_mem h₂
      rw [Cxx.getline_delim hlat]
      have hrest : rest = [] := by
        by_contra hne
        exact h ⟨lon, lat, rest, hlon, hlat, hne⟩ rfl
      rw [hrest]
      rfl
    · rcases getline_of_not_mem h₂ with hn | hs
      · rw [hn]
      · rw [hs]
        rfl
  · unfold parse
    rcases getline_of_not_mem h₁ with hn | hs
    · rw [hn]
    · rw [hs]
      rfl

theorem fields_or (text : Text) :
    (∃ f : Fields, f.text = text) ∨ ∀ f : Fields, f.text ≠ text := by
  by_cases h : ∃ f : Fields, f.text = text
  · exact .inl h
  · exact .inr fun f hf => h ⟨f, hf⟩

/-- The text splits, and `std::stod` or `std::stoll` refuses one of its fields. -/
def Refused (round : ℚ≥0 → Option ℚ≥0) (text : Text) : Prop :=
  ∃ f : Fields, f.text = text ∧ ¬((∃ x, Cxx.stod round f.lonStr = .ok x) ∧
    (∃ y, Cxx.stod round f.latStr = .ok y) ∧ ∃ t, Cxx.stoll f.timeStr = .ok t)

theorem parse_error_iff {text : Text} : (∃ e, parse round text = .error e) ↔
    Refused round text := by
  constructor
  · rintro ⟨e, he⟩
    rcases fields_or text with ⟨f, rfl⟩ | hnone
    · refine ⟨f, rfl, ?_⟩
      rintro ⟨⟨x, hx⟩, ⟨y, hy⟩, t, ht⟩
      have hok : f.convert round = .ok ⟨x, y, t⟩ := Fields.convert_eq_ok.mpr ⟨hx, hy, ht⟩
      rw [parse_text, hok] at he
      cases he
    · rw [parse_of_not_fields hnone] at he
      cases he
  · rintro ⟨f, rfl, hf⟩
    rw [parse_text]
    cases hc : f.convert round with
    | error e => exact ⟨e, rfl⟩
    | ok c =>
      obtain ⟨hx, hy, ht⟩ := Fields.convert_eq_ok.mp hc
      exact (hf ⟨⟨_, hx⟩, ⟨_, hy⟩, _, ht⟩).elim

end MessengerSubscriberApp

end CoordinateStream
