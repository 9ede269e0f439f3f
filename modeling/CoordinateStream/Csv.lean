import CoordinateStream.MessengerPublisherApp
import CoordinateStream.Parsing

namespace CoordinateStream

/-! The text of a sample, from `to_csv` through the parser of the subscriber and into the
message for its clients. -/

namespace CoordinateData

/-- What `to_csv` prints before its buffer cuts it. -/
def csvText (d : CoordinateData) : Text :=
  d.longitude.format 8 ++ ',' :: (d.latitude.format 8 ++
    ',' :: Decimal.integer d.timestamp.toInt)

theorem toCsv_eq_take (d : CoordinateData) : d.toCsv = d.csvText.take 127 := rfl

/-- The length of the coordinates with their separators. -/
def coordLength (d : CoordinateData) : ℕ :=
  (d.longitude.format 8).length + (d.latitude.format 8).length + 2

theorem length_csvText (d : CoordinateData) :
    d.csvText.length = d.coordLength + (Decimal.integer d.timestamp.toInt).length := by
  simp only [csvText, coordLength, List.length_append, List.length_cons]
  omega

/-- Coordinates on the globe. -/
def InRange (d : CoordinateData) : Prop :=
  d.longitude.Within 180 ∧ d.latitude.Within 90

instance (d : CoordinateData) : Decidable d.InRange := inferInstanceAs (Decidable (_ ∧ _))

end CoordinateData

section format

open Decimal in
/-- A coordinate on the globe prints as few digits and as few bits. -/
theorem roundHalfEven_le_of_within {m b : ℚ≥0} (h : m ≤ b) (hb : b ≤ 180) :
    roundHalfEven (m * 10 ^ 8) ≤ 180 * 10 ^ 8 := by
  apply roundHalfEven_le
  have hle : m * 10 ^ 8 ≤ 180 * 10 ^ 8 := mul_le_mul_left (h.trans hb) _
  exact_mod_cast hle

theorem length_format_le {neg : Bool} {m b : ℚ≥0} (h : m ≤ b) (hb : b ≤ 180) :
    (Double.format 8 (.finite neg m)).length ≤ 13 := by
  have hn := roundHalfEven_le_of_within h hb
  have hlen : (Decimal.fixed 8 (Decimal.roundHalfEven (m * 10 ^ 8))).length ≤ 3 + 1 + 8 :=
    Decimal.length_fixed_le (by decide) (by decide) (by omega)
  unfold Double.format
  rw [List.length_append]
  cases neg <;>
    simp only [Bool.false_eq_true, ↓reduceIte, List.length_nil, List.length_singleton] <;> omega

theorem length_format_within {x : Double} {b : ℚ≥0} (h : x.Within b) (hb : b ≤ 180) :
    (x.format 8).length ≤ 13 := by
  match x with
  | .finite neg m => exact length_format_le h hb

theorem length_timestamp_le (t : Int64) : (Decimal.integer t.toInt).length ≤ 20 := by
  have hlo := t.le_toInt
  have hhi := t.toInt_lt
  exact Decimal.length_integer_le (k := 19) (by decide) (by omega)

theorem not_mem_format_finite {x : Double} (h : x.IsFinite) : ',' ∉ x.format 8 := by
  match x with
  | .finite neg m => exact Cxx.not_mem_format (by decide) (by decide)

/-- No part of a printed timestamp ends a line. -/
theorem takeWhile_integer {i : ℤ} {text : Text} (h : text <+: Decimal.integer i) :
    text.takeWhile (· ≠ '\n') = text := by
  apply List.takeWhile_eq_self_iff.mpr
  intro c hc
  apply decide_eq_true
  rintro rfl
  exact Cxx.not_mem_integer (by decide) (by decide) (h.subset hc)

end format

open MessengerSubscriberApp

variable {round : ℚ≥0 → Option ℚ≥0}

/-- The split of a text of finite coordinates. -/
def CoordinateData.fields (d : CoordinateData) (hlon : d.longitude.IsFinite)
    (hlat : d.latitude.IsFinite) {rest : Text} (hne : rest ≠ []) : Fields :=
  ⟨d.longitude.format 8, d.latitude.format 8, rest, not_mem_format_finite hlon,
    not_mem_format_finite hlat, hne⟩

/-! ### Coordinates on the globe -/

/-- Reading a printed coordinate back gives one that prints the same. -/
theorem stod_format_within (hround : RoundsWithin round) {x : Double} {b : ℚ≥0}
    (h : x.Within b) (hb : b ≤ 180) :
    ∃ y, Cxx.stod round (x.format 8) = .ok y ∧ y.format 8 = x.format 8 := by
  match x with
  | .finite neg m =>
    have hn := roundHalfEven_le_of_within h hb
    obtain ⟨v, hv, hf⟩ : ∃ v, Cxx.stod round (Double.format 8 (.finite neg m)) =
        .ok (.finite neg v) ∧ Double.format 8 (.finite neg v) = Double.format 8 (.finite neg m) :=
      Cxx.format_stod_format hround (by decide) (by decide) (by omega)
    exact ⟨_, hv, hf⟩

theorem CoordinateData.InRange.length_csvText {d : CoordinateData} (h : d.InRange) :
    d.csvText.length < 128 := by
  have hlon := length_format_within h.1 (by norm_num)
  have hlat := length_format_within h.2 (by norm_num)
  have htime := length_timestamp_le d.timestamp
  rw [CoordinateData.length_csvText, CoordinateData.coordLength]
  omega

/-- The buffer holds the whole text of coordinates on the globe. -/
theorem CoordinateData.InRange.toCsv_eq {d : CoordinateData} (h : d.InRange) :
    d.toCsv = d.csvText := Cxx.snprintf_of_length_lt h.length_csvText

/-- The three fields of a sample's text, each read back whole. -/
theorem parse_csvText {d : CoordinateData} (hlon : d.longitude.IsFinite)
    (hlat : d.latitude.IsFinite) {lon lat : Double}
    (hx : Cxx.stod round (d.longitude.format 8) = .ok lon)
    (hy : Cxx.stod round (d.latitude.format 8) = .ok lat) :
    parse round d.csvText = .ok (some ⟨lon, lat, d.timestamp⟩) := by
  have hconvert : (d.fields hlon hlat (Cxx.integer_ne_nil (i := d.timestamp.toInt))).convert round =
      .ok ⟨lon, lat, d.timestamp⟩ := by
    refine Fields.convert_eq_ok.mpr ⟨hx, hy, ?_⟩
    rw [Fields.timeStr, CoordinateData.fields, takeWhile_integer List.prefix_rfl]
    exact Cxx.stoll_integer _
  have hparse : parse round d.csvText = _ :=
    parse_text (d.fields hlon hlat (Cxx.integer_ne_nil (i := d.timestamp.toInt)))
  rw [hconvert] at hparse
  exact hparse

/-- The subscriber reads the text of an update back as data that prints as the update does. -/
theorem parse_toCsv (hround : RoundsWithin round) {d : CoordinateData} (h : d.InRange) :
    ∃ lon lat, parse round d.toCsv = .ok (some ⟨lon, lat, d.timestamp⟩) ∧
      lon.format 8 = d.longitude.format 8 ∧ lat.format 8 = d.latitude.format 8 := by
  obtain ⟨lon, hlon, hlon'⟩ := stod_format_within hround h.1 le_rfl
  obtain ⟨lat, hlat, hlat'⟩ := stod_format_within hround h.2 (by norm_num)
  refine ⟨lon, lat, ?_, hlon', hlat'⟩
  rw [h.toCsv_eq]
  exact parse_csvText h.1.isFinite h.2.isFinite hlon hlat

theorem coordinates_sample (hround : RoundsWithin round) {d : CoordinateData} (h : d.InRange) :
    ∃ lon lat, coordinates round (MessengerPublisherApp.sample d) =
        some ⟨lon, lat, d.timestamp⟩ ∧
      lon.format 8 = d.longitude.format 8 ∧ lat.format 8 = d.latitude.format 8 := by
  obtain ⟨lon, lat, hparse, hlon, hlat⟩ := parse_toCsv hround h
  refine ⟨lon, lat, ?_, hlon, hlat⟩
  rw [coordinates, MessengerPublisherApp.sample_mText, hparse]

/-- What both JSON texts start with: the coordinates and the time. -/
def jsonHead (lon lat : Double) (timestamp : Int64) : Text :=
  "\x7b\"coords\":[".toList ++ lon.format 8 ++ ",".toList ++ lat.format 8 ++
    "],\"time\":".toList ++ Decimal.integer timestamp.toInt

theorem length_jsonHead (lon lat : Double) (timestamp : Int64) :
    (jsonHead lon lat timestamp).length = 21 + (lon.format 8).length + (lat.format 8).length +
      (Decimal.integer timestamp.toInt).length := by
  have h₁ : "\x7b\"coords\":[".toList.length = 11 := rfl
  have h₂ : ",".toList.length = 1 := rfl
  have h₃ : "],\"time\":".toList.length = 9 := rfl
  unfold jsonHead
  simp only [List.length_append, h₁, h₂, h₃]
  omega

theorem Forward.toJson_eq (f : MessengerSubscriberApp.Forward) : f.toJson =
    jsonHead f.coords.longitude f.coords.latitude f.coords.timestamp ++
      ",\"sample_id\":".toList ++ Nat.toDigits 10 f.sampleId.toNat ++ "\x7d".toList := rfl

namespace CoordinateData

/-- What `to_json` prints before its buffer cuts it. -/
def jsonText (d : CoordinateData) : Text :=
  jsonHead d.longitude d.latitude d.timestamp ++ ",\"seq\":".toList ++
    Nat.toDigits 10 d.sequence.toNat ++ "\x7d".toList

theorem toJson_eq_take (d : CoordinateData) : d.toJson = d.jsonText.take 255 := rfl

theorem length_jsonText_le (d : CoordinateData) : d.jsonText.length ≤
    59 + (d.longitude.format 8).length + (d.latitude.format 8).length := by
  have hlen := length_jsonHead d.longitude d.latitude d.timestamp
  have htime := length_timestamp_le d.timestamp
  have hseq : (Nat.toDigits 10 d.sequence.toNat).length ≤ 10 := by
    have hlt := d.sequence.toNat_lt
    exact (Nat.length_toDigits_le_iff (by decide) (by decide)).mpr (by omega)
  have h₁ : ",\"seq\":".toList.length = 7 := rfl
  have h₂ : "\x7d".toList.length = 1 := rfl
  simp only [jsonText, List.length_append, h₁, h₂]
  omega

end CoordinateData

/-- The way of an update through the subscriber: its text is whole and is parsed, time and
coordinates come out as they went in, and the JSON of the subscriber repeats that of `to_json`
up to the time. -/
structure RoundTrip (round : ℚ≥0 → Option ℚ≥0) (d : CoordinateData) : Prop where
  untruncated : d.toCsv = d.csvText ∧ d.csvText.length < 128
  parsed : ∃ lon lat, parse round d.toCsv = .ok (some ⟨lon, lat, d.timestamp⟩) ∧
    lon.format 8 = d.longitude.format 8 ∧ lat.format 8 = d.latitude.format 8
  forwarded : ∀ (s : MessengerSubscriberApp) (x : TakenSample), x.counts = true →
    x.sample.mText = d.toCsv → s.wsServer = true →
    (s.processSample round x).callback = .stopTest ∧
    ∃ e, (s.processSample round x).broadcasts = s.broadcasts ++ [e] ∧
      e.item.toJson = jsonHead d.longitude d.latitude d.timestamp ++
        ",\"sample_id\":".toList ++ Nat.toDigits 10 (s.samplesReceived + 1).toNat ++
        "\x7d".toList
  json : d.toJson = jsonHead d.longitude d.latitude d.timestamp ++ ",\"seq\":".toList ++
    Nat.toDigits 10 d.sequence.toNat ++ "\x7d".toList

theorem roundTrip_of_inRange (hround : RoundsWithin round) {d : CoordinateData}
    (h : d.InRange) : RoundTrip round d := by
  obtain ⟨lon, lat, hparse, hlon, hlat⟩ := parse_toCsv hround h
  refine ⟨⟨h.toCsv_eq, h.length_csvText⟩, ⟨lon, lat, hparse, hlon, hlat⟩, ?_, ?_⟩
  · intro s x hx htext hws
    have hok : parse round x.sample.mText = .ok (some ⟨lon, lat, d.timestamp⟩) := htext ▸ hparse
    have hcoord : coordinates round x.sample = some ⟨lon, lat, d.timestamp⟩ := by
      simp only [coordinates, hok]
    refine ⟨by simp only [processSample, hx, ↓reduceIte, hok], ?_⟩
    refine ⟨⟨s.counted.length + 1, ⟨lon, lat, d.timestamp⟩, s.samplesReceived + 1⟩, ?_, ?_⟩
    · rw [processSample_broadcasts, if_pos ⟨hx, hws⟩, hcoord]
      rfl
    · rw [Forward.toJson_eq]
      unfold jsonHead
      rw [hlon, hlat]
  · have hlen := d.length_jsonText_le
    have hlon := length_format_within h.1 le_rfl
    have hlat := length_format_within h.2 (by norm_num)
    rw [d.toJson_eq_take, List.take_of_length_le (by omega), CoordinateData.jsonText]

/-- A carry in the longitude, a negative zero and the smallest timestamp. -/
theorem roundTrip_demo : RoundTrip Binary64.round
    ⟨.finite false (9999999996 / 1000000000), .finite true 0, Int64.minValue, 7⟩ :=
  roundTrip_of_inRange Binary64.roundsWithin (by decide +kernel)

/-! ### Coordinates of any size -/

/-- `y` is what `std::stod` makes of `x` rounded to 8 decimals. -/
def Rounded (round : ℚ≥0 → Option ℚ≥0) : Double → Double → Prop
  | .finite neg m, .finite neg' v =>
    neg' = neg ∧ round ((Decimal.roundHalfEven (m * 10 ^ 8) : ℚ≥0) / 10 ^ 8) = some v
  | _, _ => False

/-- What fits the buffer is in the range of `std::stod`. -/
theorem stod_format_finite (hround : RoundsWithin round) {x : Double} (h : x.IsFinite)
    (hlen : (x.format 8).length ≤ 127) :
    ∃ y, Cxx.stod round (x.format 8) = .ok y ∧ Rounded round x y := by
  match x with
  | .finite neg m =>
    have hfixed : (Decimal.fixed 8 (Decimal.roundHalfEven (m * 10 ^ 8))).length ≤ 118 + 1 + 8 := by
      rw [Double.format, List.length_append] at hlen
      omega
    have hlt := Decimal.lt_of_length_fixed_le (by decide) (by decide) hfixed
    have hnat : Decimal.roundHalfEven (m * 10 ^ 8) ≤ 2 ^ 1023 := hlt.le.trans (by decide +kernel)
    have hle : ((Decimal.roundHalfEven (m * 10 ^ 8) : ℕ) : ℚ≥0) ≤ 2 ^ 1023 := by
      exact_mod_cast hnat
    obtain ⟨v, hv, -⟩ := hround _ (Cxx.normal_of_le (p := 8) (by decide) hle)
    exact ⟨.finite neg v, Cxx.stod_format (by decide) hv, rfl, hv⟩

/-- The parser reads the text of an update as its timestamp and its rounded coordinates, or
does not take it for coordinates at all. -/
def NotMisled (round : ℚ≥0 → Option ℚ≥0) (d : CoordinateData) : Prop :=
  parse round d.toCsv = .ok none ∨ ∃ c, parse round d.toCsv = .ok (some c) ∧
    c.timestamp = d.timestamp ∧ Rounded round d.longitude c.longitude ∧
    Rounded round d.latitude c.latitude

/-- The buffer ends inside the timestamp. -/
def CoordinateData.CutInTimestamp (d : CoordinateData) : Prop :=
  d.coordLength < 127 ∧ 127 < d.csvText.length

/-- A beginning of the text that splits holds both coordinates whole. -/
theorem fields_of_prefix {d : CoordinateData} (hlon : d.longitude.IsFinite)
    (hlat : d.latitude.IsFinite) {f : Fields} (h : f.text <+: d.csvText) :
    f.lonStr = d.longitude.format 8 ∧ f.latStr = d.latitude.format 8 ∧
      f.rest <+: Decimal.integer d.timestamp.toInt := by
  obtain ⟨w, hw⟩ := h
  simp only [Fields.text, CoordinateData.csvText, List.append_assoc, List.cons_append] at hw
  obtain ⟨hx, hrest⟩ := append_cons_inj f.lon_clean (not_mem_format_finite hlon) hw
  obtain ⟨hy, hz⟩ := append_cons_inj f.lat_clean (not_mem_format_finite hlat) hrest
  exact ⟨hx, hy, w, hz⟩

/-- Cut before its timestamp, the text is unparsed. -/
theorem parse_cut_coordinates {d : CoordinateData} (hlon : d.longitude.IsFinite)
    (hlat : d.latitude.IsFinite) (hcut : 127 ≤ d.coordLength) :
    parse round d.toCsv = .ok none := by
  apply parse_of_not_fields
  intro f hf
  have hprefix : f.text <+: d.csvText := by
    rw [hf, d.toCsv_eq_take]
    exact List.take_prefix _ _
  obtain ⟨hx, hy, -⟩ := fields_of_prefix hlon hlat hprefix
  have hlen := congrArg List.length hf
  have hpos := List.length_pos_iff.mpr f.rest_ne
  rw [d.toCsv_eq_take, List.length_take] at hlen
  simp only [Fields.text, List.length_append, List.length_cons, hx, hy] at hlen
  unfold CoordinateData.coordLength at hcut
  omega

/-- Cut inside its timestamp, the text splits into both coordinates and what is left of the
timestamp. -/
theorem toCsv_cut_timestamp {d : CoordinateData} (hcut : d.CutInTimestamp) :
    d.toCsv = d.longitude.format 8 ++ ',' :: (d.latitude.format 8 ++
      ',' :: (Decimal.integer d.timestamp.toInt).take (127 - d.coordLength)) := by
  have hlt := hcut.1
  have hsplit : d.csvText = (d.longitude.format 8 ++ ',' :: (d.latitude.format 8 ++ [','])) ++
      Decimal.integer d.timestamp.toInt := by simp [CoordinateData.csvText]
  have hlen : (d.longitude.format 8 ++ ',' :: (d.latitude.format 8 ++ [','])).length =
      d.coordLength := by
    simp only [CoordinateData.coordLength, List.length_append, List.length_cons, List.length_nil]
    omega
  rw [d.toCsv_eq_take, hsplit, List.take_append, List.take_of_length_le (by omega), hlen]
  simp

theorem misled_of_cut {d : CoordinateData} (hlon : d.longitude.IsFinite)
    (hlat : d.latitude.IsFinite) (hcut : d.CutInTimestamp) : ¬NotMisled round d := by
  have hlength := d.length_csvText
  obtain ⟨hlt, hgt⟩ := hcut
  set rest := (Decimal.integer d.timestamp.toInt).take (127 - d.coordLength) with hrest
  have hne : rest ≠ [] := by
    rw [hrest, Ne, List.take_eq_nil_iff, not_or]
    exact ⟨by omega, Cxx.integer_ne_nil⟩
  have hparse : parse round (d.fields hlon hlat hne).text = _ :=
    parse_text (d.fields hlon hlat hne)
  have htext : (d.fields hlon hlat hne).text = d.toCsv := (toCsv_cut_timestamp ⟨hlt, hgt⟩).symm
  have hother : Cxx.stoll (d.fields hlon hlat hne).timeStr ≠ .ok d.timestamp := by
    rw [Fields.timeStr, CoordinateData.fields, takeWhile_integer (List.take_prefix _ _)]
    exact Cxx.stoll_take_integer d.timestamp (by omega) (by omega)
  rw [htext] at hparse
  rintro (hnone | ⟨c, hc, htime, -⟩)
  · rw [hparse] at hnone
    cases hconvert : (d.fields hlon hlat hne).convert round <;> rw [hconvert] at hnone <;>
      cases hnone
  · rw [hparse] at hc
    cases hconvert : (d.fields hlon hlat hne).convert round with
    | error e =>
      rw [hconvert] at hc
      cases hc
    | ok c' =>
      rw [hconvert] at hc
      cases hc
      have htaken := (Fields.convert_eq_ok.mp hconvert).2.2
      rw [htime] at htaken
      exact hother htaken

/-- For finite coordinates of any size, `to_csv` misleads the parser exactly when its buffer
ends inside the timestamp. -/
theorem notMisled_iff (hround : RoundsWithin round) {d : CoordinateData}
    (hlon : d.longitude.IsFinite) (hlat : d.latitude.IsFinite) :
    NotMisled round d ↔ ¬d.CutInTimestamp := by
  constructor
  · exact fun h hcut => misled_of_cut hlon hlat hcut h
  · intro hcut
    by_cases hcoord : 127 ≤ d.coordLength
    · exact .inl (parse_cut_coordinates hlon hlat hcoord)
    · have hshort : d.csvText.length ≤ 127 := by
        by_contra hlong
        exact hcut ⟨by omega, by omega⟩
      have hwhole : d.toCsv = d.csvText :=
        Cxx.snprintf_of_length_lt (show d.csvText.length < 128 by omega)
      have hlength : (d.longitude.format 8).length + (d.latitude.format 8).length + 2 < 127 := by
        unfold CoordinateData.coordLength at hcoord
        omega
      obtain ⟨lon, hx, hlon'⟩ := stod_format_finite hround hlon (by omega)
      obtain ⟨lat, hy, hlat'⟩ := stod_format_finite hround hlat (by omega)
      refine .inr ⟨⟨lon, lat, d.timestamp⟩, ?_, rfl, hlon', hlat'⟩
      rw [hwhole]
      exact parse_csvText hlon hlat hx hy

theorem notMisled_demo : NotMisled Binary64.round ⟨.finite true (2 ^ 60), .zero, 5, 1⟩ ↔
    ¬CoordinateData.CutInTimestamp ⟨.finite true (2 ^ 60), .zero, 5, 1⟩ :=
  notMisled_iff Binary64.roundsWithin trivial trivial

/-- A finite longitude of 105 digits leaves one digit of the timestamp, which is parsed. -/
theorem misled_by_cut :
    coordinates Binary64.round (MessengerPublisherApp.sample
      ⟨.finite false (2 ^ 346), .zero, 1700000000000, 1⟩) =
        some ⟨.finite false (2 ^ 346), .zero, 1⟩ ∧
    ¬NotMisled Binary64.round ⟨.finite false (2 ^ 346), .zero, 1700000000000, 1⟩ :=
  ⟨by decide +kernel, misled_of_cut trivial trivial ⟨by decide +kernel, by decide +kernel⟩⟩

end CoordinateStream
