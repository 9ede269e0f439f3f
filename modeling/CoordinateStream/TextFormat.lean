import CoordinateStream.Drain
import CoordinateStream.JsonText

namespace CoordinateStream

/-! The text format `lon,lat,timestamp`, and on which texts `on_data_available` accepts it and
nothing else. -/

/-- A signed finite decimal number, spelled with an optional sign and fraction. -/
structure DecimalNumber where
  sign : Cxx.Sign
  int : Text
  frac : Option Text
  int_digits : ∀ c ∈ int, c.isDigit = true
  int_ne : int ≠ []
  frac_digits : ∀ c ∈ frac.getD [], c.isDigit = true
  frac_ne : frac ≠ some []

namespace DecimalNumber

def text (x : DecimalNumber) : Text := x.sign.text ++ (x.int ++ Decimal.fraction x.frac)

/-- The magnitude of the number. -/
def value (x : DecimalNumber) : ℚ≥0 := Decimal.value x.int x.frac

/-- The number rounded to 8 decimals. -/
def json (x : DecimalNumber) : Json :=
  .number x.sign.neg ((Decimal.roundHalfEven (x.value * 10 ^ 8) : ℚ≥0) / 10 ^ 8)

/-- The floating-point value nearest to the number has the same first 8 decimals. -/
def Converts (round : ℚ≥0 → Option ℚ≥0) (x : DecimalNumber) : Prop :=
  ∃ v, round x.value = some v ∧
    Decimal.roundHalfEven (v * 10 ^ 8) = Decimal.roundHalfEven (x.value * 10 ^ 8)

variable {round : ℚ≥0 → Option ℚ≥0}

theorem not_mem_text (x : DecimalNumber) {c : Char} (hs : c ≠ '-' ∧ c ≠ '+' ∧ c ≠ '.')
    (hd : c.isDigit = false) : c ∉ x.text :=
  Cxx.not_mem_decimal x.sign x.int_digits x.frac_digits hs hd

theorem stod_text (x : DecimalNumber) : Cxx.stod round x.text = match round x.value with
    | some v => .ok (.finite x.sign.neg v)
    | none => .error .outOfRange :=
  Cxx.stod_decimal round x.sign x.int_digits x.frac_digits x.int_ne

/-- A value prints as the number rounded to 8 decimals only if their decimals agree. -/
theorem json_finite_iff (x : DecimalNumber) (v : ℚ≥0) :
    (Double.finite x.sign.neg v).json = some x.json ↔
      Decimal.roundHalfEven (v * 10 ^ 8) = Decimal.roundHalfEven (x.value * 10 ^ 8) := by
  have hscale : (10 : ℚ≥0) ^ 8 ≠ 0 := by norm_num
  rw [Double.json, json, Option.some.injEq, Json.number.injEq, div_left_inj' hscale, Nat.cast_inj]
  exact and_iff_right rfl

/-- At most 8 decimals of fewer than 52 bits are not lost. -/
theorem converts_of_value (hround : RoundsWithin round) {x : DecimalNumber} {n : ℕ}
    (hx : x.value = n / 10 ^ 8) (hn : n < 2 ^ 52) : x.Converts round := by
  have htop : (n : ℚ≥0) ≤ 2 ^ 1023 :=
    calc (n : ℚ≥0) ≤ 2 ^ 52 := by exact_mod_cast hn.le
      _ ≤ 2 ^ 1023 := pow_le_pow_right₀ (by norm_num) (by norm_num)
  obtain ⟨v, hv, herr⟩ := hround _ (Cxx.normal_of_le (p := 8) (by decide) htop)
  have hback : Decimal.roundHalfEven (v * 10 ^ 8) = n := by
    apply Decimal.roundHalfEven_of_relative hn
    push_cast at herr
    exact herr
  refine ⟨v, by rw [hx, hv], ?_⟩
  rw [hback, hx, div_mul_cancel₀ _ (by norm_num)]
  exact (Decimal.roundHalfEven_eq_of_near (by norm_num)).symm

end DecimalNumber

/-- A signed decimal number in the range of `int64_t`. -/
structure IntegerNumber where
  sign : Cxx.Sign
  digits : Text
  digits_digits : ∀ c ∈ digits, c.isDigit = true
  digits_ne : digits ≠ []
  fits : -2 ^ 63 ≤ Cxx.signed sign.neg (Nat.ofDigitChars 10 digits 0) ∧
    Cxx.signed sign.neg (Nat.ofDigitChars 10 digits 0) < 2 ^ 63

namespace IntegerNumber

def text (t : IntegerNumber) : Text := t.sign.text ++ t.digits

def value (t : IntegerNumber) : Int64 :=
  Int64.ofInt (Cxx.signed t.sign.neg (Nat.ofDigitChars 10 t.digits 0))

theorem not_mem_text (t : IntegerNumber) {c : Char} (hs : c ≠ '-' ∧ c ≠ '+' ∧ c ≠ '.')
    (hd : c.isDigit = false) : c ∉ t.text :=
  Cxx.not_mem_digits t.sign t.digits_digits hs hd

theorem stoll_text (t : IntegerNumber) : Cxx.stoll t.text = .ok t.value := by
  obtain ⟨hlo, hhi⟩ := t.fits
  rw [text, Cxx.stoll_digits t.sign t.digits_digits t.digits_ne, if_neg (by omega), value]

theorem text_ne (t : IntegerNumber) : t.text ≠ [] := by simp [text, t.digits_ne]

end IntegerNumber

namespace MessengerSubscriberApp

/-- Two coordinates and a timestamp between two commas. -/
structure FormatText where
  lon : DecimalNumber
  lat : DecimalNumber
  time : IntegerNumber

variable {round : ℚ≥0 → Option ℚ≥0}

namespace FormatText

def text (f : FormatText) : Text := f.lon.text ++ ',' :: (f.lat.text ++ ',' :: f.time.text)

/-- The split of a text in the format. -/
def fields (f : FormatText) : Fields :=
  ⟨f.lon.text, f.lat.text, f.time.text, f.lon.not_mem_text (by decide) (by decide),
    f.lat.not_mem_text (by decide) (by decide), f.time.text_ne⟩

/-- What is to be forwarded for the text, as sample number `id`. -/
def json (f : FormatText) (id : UInt16) : Json :=
  coordinateJson f.lon.json f.lat.json f.time.value "sample_id".toList id.toNat

/-- Both coordinates keep their first 8 decimals. -/
def Converts (round : ℚ≥0 → Option ℚ≥0) (f : FormatText) : Prop :=
  f.lon.Converts round ∧ f.lat.Converts round

theorem not_mem_text (f : FormatText) {c : Char} (hs : c ≠ '-' ∧ c ≠ '+' ∧ c ≠ '.')
    (hc : c ≠ ',') (hd : c.isDigit = false) : c ∉ f.text := by
  simp only [text, List.mem_append, List.mem_cons, not_or]
  exact ⟨f.lon.not_mem_text hs hd, hc, f.lat.not_mem_text hs hd, hc, f.time.not_mem_text hs hd⟩

/-- A text in the format is parsed unless a coordinate is out of range. -/
theorem coordinates_text (f : FormatText) {m : Message} (hm : m.mText = f.text) :
    coordinates round m = (round f.lon.value).bind fun v => (round f.lat.value).map fun w =>
      ⟨.finite f.lon.sign.neg v, .finite f.lat.sign.neg w, f.time.value⟩ := by
  have htime : f.fields.timeStr = f.time.text := List.takeWhile_eq_self_iff.mpr
    (Cxx.forall_ne_of_not_mem (f.time.not_mem_text (by decide) (by decide)))
  have hparse : parse round f.text = (f.fields.convert round).map some := parse_text f.fields
  rw [coordinates, hm, hparse, Fields.convert, htime, fields, f.lon.stod_text, f.lat.stod_text,
    f.time.stoll_text]
  cases round f.lon.value with
  | none => rfl
  | some v => cases round f.lat.value <;> rfl

/-- What is made of the coordinates of the text reads as the text exactly when both keep
their first 8 decimals. -/
theorem reads_toJson_iff (f : FormatText) (v w : ℚ≥0) (id : UInt16) :
    (∀ j, Json.Reads (Forward.toJson
      ⟨⟨.finite f.lon.sign.neg v, .finite f.lat.sign.neg w, f.time.value⟩, id⟩) j ↔
        j = f.json id) ↔
      Decimal.roundHalfEven (v * 10 ^ 8) = Decimal.roundHalfEven (f.lon.value * 10 ^ 8) ∧
      Decimal.roundHalfEven (w * 10 ^ 8) = Decimal.roundHalfEven (f.lat.value * 10 ^ 8) := by
  rw [← f.lon.json_finite_iff, ← f.lat.json_finite_iff, Forward.toJson_eq_text]
  dsimp only
  obtain ⟨x, hx⟩ : ∃ x, (Double.finite f.lon.sign.neg v).json = some x := ⟨_, rfl⟩
  obtain ⟨y, hy⟩ : ∃ y, (Double.finite f.lat.sign.neg w).json = some y := ⟨_, rfl⟩
  have hreads := reads_coordinateText hx hy f.time.value
    (show Json.Plain "sample_id".toList by decide) id.toNat
  rw [hx, hy, Option.some.injEq, Option.some.injEq]
  constructor
  · intro h
    have heq := (h _).mp hreads
    simp only [json, coordinateJson, Json.object.injEq, List.cons.injEq, Prod.mk.injEq,
      Json.array.injEq, true_and, and_true] at heq
    exact heq
  · rintro ⟨rfl, rfl⟩ j
    refine ⟨fun hj => hj.unique hreads, ?_⟩
    rintro rfl
    exact hreads

end FormatText

/-- One message is passed on, which reads as the text under the number of its sample. -/
def FormatText.Forwards (f : FormatText) (s t : MessengerSubscriberApp) : Prop :=
  ∃ e, t.broadcasts = s.broadcasts ++ [e] ∧
    ∀ j, Json.Reads e.item.toJson j ↔ j = f.json (s.samplesReceived + 1)

/-- The sample is reported as unparsed and nothing else comes of it. -/
def LeavesUnparsed (s t : MessengerSubscriberApp) : Prop :=
  t.outputs = s.outputs ++ [.unparsed (s.samplesReceived + 1)]

theorem LeavesUnparsed.broadcasts_eq {s t : MessengerSubscriberApp} (h : LeavesUnparsed s t) :
    t.broadcasts = s.broadcasts := by
  rw [broadcasts, h, List.filterMap_append]
  exact List.append_nil _

section processSample

variable {s : MessengerSubscriberApp} {d : TakenSample}

/-- A text in the format is forwarded as itself exactly when its coordinates keep their
first 8 decimals. -/
theorem forwards_iff (hd : d.counts = true) (hws : s.wsServer = true) {f : FormatText}
    (hf : d.sample.mText = f.text) :
    f.Forwards s (s.processSample round d) ↔ f.Converts round := by
  unfold FormatText.Forwards FormatText.Converts DecimalNumber.Converts
  simp only [processSample_broadcasts, hd, hws, and_self, ↓reduceIte, f.coordinates_text hf,
    List.append_cancel_left_eq]
  cases hv : round f.lon.value with
  | none => simp
  | some v =>
    cases hw : round f.lat.value with
    | none => simp
    | some w =>
      have hread := f.reads_toJson_iff v w (s.samplesReceived + 1)
      simp only [Option.bind_some, Option.map_some, Option.toList_some, List.cons.injEq, and_true,
        Option.some.injEq, exists_eq_left', hread]

/-- Exactly the texts that do not split are left unparsed. -/
theorem leavesUnparsed_iff (hd : d.counts = true) :
    LeavesUnparsed s (s.processSample round d) ↔ ∀ g : Fields, g.text ≠ d.sample.mText := by
  unfold LeavesUnparsed processSample
  rw [if_pos hd]
  constructor
  · rintro h g hg
    rw [← hg, parse_text] at h
    cases hc : g.convert round with
    | error e => simp [hc, Except.map] at h
    | ok c =>
      -- a parsed sample puts out no report
      simp only [hc, Except.map, List.append_cancel_left_eq] at h
      have hmem : Output.unparsed (s.samplesReceived + 1) ∈ s.parsedOutputs c := by simp [h]
      unfold parsedOutputs at hmem
      split at hmem <;> split at hmem <;> simp at hmem
  · intro h
    rw [parse_of_not_fields h]

end processSample

/-- The text is accepted exactly if it is in the format: then it is forwarded as it reads,
else it is left unparsed. -/
structure Exact (round : ℚ≥0 → Option ℚ≥0) (text : Text) : Prop where
  accepted : ∀ f : FormatText, f.text = text → ∀ (s : MessengerSubscriberApp) (d : TakenSample),
    s.wsServer = true → d.counts = true → d.sample.mText = text →
      f.Forwards s (s.processSample round d)
  rejected : (∀ f : FormatText, f.text ≠ text) →
    ∀ (s : MessengerSubscriberApp) (d : TakenSample), s.wsServer = true → d.counts = true →
      d.sample.mText = text → LeavesUnparsed s (s.processSample round d)

/-- The format is accepted exactly on its texts whose coordinates keep their first 8
decimals, and on the other texts that do not split. -/
theorem exact_iff (text : Text) : Exact round text ↔
    (∀ f : FormatText, f.text = text → f.Converts round) ∧
      ((∀ f : FormatText, f.text ≠ text) → ∀ g : Fields, g.text ≠ text) := by
  constructor
  · rintro ⟨haccepted, hrejected⟩
    constructor
    · intro f hf
      exact (forwards_iff (s := init true) (d := textSample text) rfl rfl hf.symm).mp
        (haccepted f hf _ _ rfl rfl rfl)
    · intro hnone
      exact (leavesUnparsed_iff (s := init true) (d := textSample text) rfl).mp
        (hrejected hnone _ _ rfl rfl rfl)
  · rintro ⟨hconverts, hsplits⟩
    constructor
    · intro f hf s d hws hd htext
      exact (forwards_iff hd hws (htext.trans hf.symm)).mpr (hconverts f hf)
    · intro hnone s d _ hd htext
      rw [leavesUnparsed_iff hd, htext]
      exact hsplits hnone

/-- A longitude that is no number is forwarded, in a message that is no JSON. -/
theorem forwards_nan : (∀ f : FormatText, f.text ≠ "nan,1,2".toList) ∧
    (∃ e, ((init true).processSample Binary64.round (textSample "nan,1,2".toList)).broadcasts =
      [e] ∧ ¬Json.WellFormed e.item.toJson) ∧
    ¬Exact Binary64.round "nan,1,2".toList := by
  have hnone : ∀ f : FormatText, f.text ≠ "nan,1,2".toList := by
    intro f hf
    exact f.not_mem_text (c := 'n') (by decide) (by decide) (by decide) (by rw [hf]; decide)
  have hcoords : coordinates Binary64.round (textSample "nan,1,2".toList).sample =
      some ⟨.nan false, .finite false 1, 2⟩ := by decide +kernel
  refine ⟨hnone, ⟨⟨1, ⟨.nan false, .finite false 1, 2⟩, 1⟩, ?_, ?_⟩, fun h => ?_⟩
  · rw [processSample_broadcasts, hcoords]
    rfl
  · rw [Forward.toJson_eq_text]
    exact not_wellFormed_coordinateText (.inl rfl) _ _ _
  · have hleft := (h.rejected hnone (init true) (textSample "nan,1,2".toList) rfl rfl
      rfl).broadcasts_eq
    rw [processSample_broadcasts, hcoords] at hleft
    cases hleft

end MessengerSubscriberApp

/-! ### The texts of the publisher -/

/-- The spelling that a finite value prints. -/
def DecimalNumber.printed (neg : Bool) (m : ℚ≥0) : DecimalNumber where
  sign := .ofNeg neg
  int := Nat.toDigits 10 (Decimal.roundHalfEven (m * 10 ^ 8) / 10 ^ 8)
  frac := some ((Nat.toDigits 10 (Decimal.roundHalfEven (m * 10 ^ 8) % 10 ^ 8)).leftpad 8 '0')
  int_digits _ hc := Decimal.isDigit_of_mem_toDigits hc
  int_ne := Nat.toDigits_ne_nil
  frac_digits _ hc := Decimal.isDigit_of_mem_leftpad hc
  frac_ne := by simp [List.leftpad]

theorem DecimalNumber.text_printed (neg : Bool) (m : ℚ≥0) :
    (printed neg m).text = Double.format 8 (.finite neg m) := (Cxx.format_eq 8 neg m).symm

theorem exists_printed {round : ℚ≥0 → Option ℚ≥0} (hround : RoundsWithin round) {x : Double}
    {b : ℚ≥0} (h : x.Within b) (hb : b ≤ 180) :
    ∃ p : DecimalNumber, p.text = x.format 8 ∧ p.Converts round := by
  match x with
  | .finite neg m =>
    have hn := roundHalfEven_le_of_within h hb
    refine ⟨.printed neg m, DecimalNumber.text_printed neg m, ?_⟩
    exact DecimalNumber.converts_of_value hround
      (Decimal.value_fixed (p := 8) (by decide) _) (by omega)

/-- What `to_csv` prints of coordinates on the globe is in the format and keeps its decimals,
so the subscriber forwards it as it reads. -/
theorem forwards_toCsv {round : ℚ≥0 → Option ℚ≥0} (hround : RoundsWithin round)
    {d : CoordinateData} (h : d.InRange) : ∃ f : MessengerSubscriberApp.FormatText,
      f.text = d.toCsv ∧ ∀ (s : MessengerSubscriberApp) (x : TakenSample), s.wsServer = true →
        x.counts = true → x.sample.mText = d.toCsv → f.Forwards s (s.processSample round x) := by
  obtain ⟨lon, hlon, hlon'⟩ := exists_printed hround h.1 le_rfl
  obtain ⟨lat, hlat, hlat'⟩ := exists_printed hround h.2 (by norm_num)
  have hlo := d.timestamp.le_toInt
  have hhi := d.timestamp.toInt_lt
  have hvalue : Cxx.signed (Cxx.Sign.ofNeg (decide (d.timestamp.toInt < 0))).neg
      (Nat.ofDigitChars 10 (Nat.toDigits 10 d.timestamp.toInt.natAbs) 0) = d.timestamp.toInt := by
    rw [Cxx.Sign.neg_ofNeg, Nat.ofDigitChars_ten_toDigits, Cxx.signed_natAbs]
  let time : IntegerNumber :=
    ⟨.ofNeg (decide (d.timestamp.toInt < 0)), Nat.toDigits 10 d.timestamp.toInt.natAbs,
      fun _ hc => Decimal.isDigit_of_mem_toDigits hc, Nat.toDigits_ne_nil, by rw [hvalue]; omega⟩
  have htime : time.text = Decimal.integer d.timestamp.toInt := (Cxx.integer_eq _).symm
  have htext : MessengerSubscriberApp.FormatText.text ⟨lon, lat, time⟩ = d.toCsv := by
    rw [h.toCsv_eq, MessengerSubscriberApp.FormatText.text, hlon, hlat, htime]
    rfl
  refine ⟨⟨lon, lat, time⟩, htext, fun s x hws hx hxt => ?_⟩
  exact (MessengerSubscriberApp.forwards_iff hx hws (hxt.trans htext.symm)).mpr ⟨hlon', hlat'⟩

end CoordinateStream
