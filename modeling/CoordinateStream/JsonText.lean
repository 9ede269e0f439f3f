import CoordinateStream.Clients
import CoordinateStream.Csv
import CoordinateStream.Lib.Json

namespace CoordinateStream

/-! What a strict reader makes of the JSON texts of the program. -/

/-- The number a finite value prints. -/
def Double.json : Double → Option Json
  | .finite neg m =>
    some (.number neg ((Decimal.roundHalfEven (m * 10 ^ 8) : ℚ≥0) / 10 ^ 8))
  | _ => none

theorem Double.isFinite_iff {x : Double} : x.IsFinite ↔ ∃ v, x.json = some v := by
  cases x with
  | finite neg m => exact iff_of_true trivial ⟨_, rfl⟩
  | inf neg => exact iff_of_false id (by simp [json])
  | nan neg => exact iff_of_false id (by simp [json])

/-- Coordinates, a time, and a number under the given name. -/
def coordinateJson (lon lat : Json) (timestamp : Int64) (name : Text) (id : ℕ) : Json :=
  .object [("coords".toList, .array [lon, lat]),
    ("time".toList, .number (decide (timestamp.toInt < 0)) timestamp.toInt.natAbs),
    (name, .number false id)]

/-- The text of both encoders, member by member. -/
def coordinateText (lon lat : Double) (timestamp : Int64) (name : Text) (id : ℕ) : Text :=
  '\x7b' :: Json.member "coords".toList ('[' :: (lon.format 8 ++ ',' :: (lat.format 8 ++
    ']' :: ',' :: Json.member "time".toList (Decimal.integer timestamp.toInt ++
      ',' :: Json.member name (Nat.toDigits 10 id ++ ['\x7d'])))))

theorem jsonHead_append (lon lat : Double) (timestamp : Int64) (rest : Text) :
    jsonHead lon lat timestamp ++ rest = '\x7b' :: Json.member "coords".toList ('[' ::
      (lon.format 8 ++ ',' :: (lat.format 8 ++ ']' :: ',' :: Json.member "time".toList
        (Decimal.integer timestamp.toInt ++ rest)))) := by
  have hopen : "\x7b\"coords\":[".toList =
      '\x7b' :: '"' :: ("coords".toList ++ ['"', ':', '[']) := rfl
  have hcomma : ",".toList = [','] := rfl
  have htime : "],\"time\":".toList = ']' :: ',' :: '"' :: ("time".toList ++ ['"', ':']) := rfl
  unfold jsonHead Json.member
  rw [hopen, hcomma, htime]
  simp only [List.append_assoc, List.cons_append, List.nil_append]

theorem CoordinateData.jsonText_eq (d : CoordinateData) : d.jsonText =
    coordinateText d.longitude d.latitude d.timestamp "seq".toList d.sequence.toNat := by
  have hseq : ",\"seq\":".toList = ',' :: '"' :: ("seq".toList ++ ['"', ':']) := rfl
  have hclose : "\x7d".toList = ['\x7d'] := rfl
  rw [CoordinateData.jsonText, List.append_assoc, List.append_assoc, jsonHead_append,
    coordinateText, hseq, hclose]
  simp only [Json.member, List.append_assoc, List.cons_append, List.nil_append]

theorem Forward.toJson_eq_text (f : MessengerSubscriberApp.Forward) : f.toJson =
    coordinateText f.coords.longitude f.coords.latitude f.coords.timestamp "sample_id".toList
      f.sampleId.toNat := by
  have hid : ",\"sample_id\":".toList = ',' :: '"' :: ("sample_id".toList ++ ['"', ':']) := rfl
  have hclose : "\x7d".toList = ['\x7d'] := rfl
  rw [Forward.toJson_eq, List.append_assoc, List.append_assoc, jsonHead_append, coordinateText,
    hid, hclose]
  simp only [Json.member, List.append_assoc, List.cons_append, List.nil_append]

section read

open Json

variable {x y : Double} {v w : Json} {c : Char} {name : Text}

theorem readValue_format (hx : x.json = some v) (hc : IsDelimiter c) (n : ℕ) (rest : Text) :
    readValue (n + 1) (x.format 8 ++ c :: rest) = some (v, c :: rest) := by
  match x with
  | .finite neg m =>
    rw [← Option.some.inj hx, Double.format, List.append_assoc, readValue_fixed neg (by decide) hc]

/-- Neither spelling of a value that is not finite starts a JSON value. -/
theorem readValue_format_refused (hx : x.json = none) (n : ℕ) (rest : Text) :
    readValue (n + 1) (x.format 8 ++ rest) = none := by
  cases x with
  | finite neg m => cases hx
  | inf neg => cases neg <;> rfl
  | nan neg => cases neg <;> rfl

theorem readValue_integer (i : ℤ) (hc : IsDelimiter c) (n : ℕ) (rest : Text) :
    readValue (n + 1) (Decimal.integer i ++ c :: rest) =
      some (number (decide (i < 0)) i.natAbs, c :: rest) := by
  rw [Cxx.integer_eq, Cxx.Sign.text_ofNeg, List.append_assoc, readValue_digits _ hc]

/-- A printed value starts neither with a blank nor with a bracket. -/
theorem exists_format_cons (x : Double) :
    ∃ d u, x.format 8 = d :: u ∧ isWs d = false ∧ d ≠ ']' := by
  match x with
  | .inf true | .inf false | .nan true | .nan false => exact ⟨_, _, rfl, rfl, by decide⟩
  | .finite true m => exact ⟨_, _, rfl, rfl, by decide⟩
  | .finite false m =>
    obtain ⟨d, u, hdu⟩ := List.exists_cons_of_ne_nil (Nat.toDigits_ne_nil (b := 10)
      (n := Decimal.roundHalfEven (m * 10 ^ 8) / 10 ^ 8))
    have hd : d.isDigit = true := Decimal.isDigit_of_mem_toDigits (hdu ▸ List.mem_cons_self)
    refine ⟨d, _, by rw [Double.format, Decimal.fixed, hdu]; rfl, ?_, Cxx.ne_of_isDigit rfl hd⟩
    simp only [isWs, List.mem_cons, List.not_mem_nil, or_false, decide_eq_false_iff_not, not_or]
    refine ⟨?_, ?_, ?_, ?_⟩ <;> exact Cxx.ne_of_isDigit (by decide) hd

theorem readValue_coords (n : ℕ) (rest : Text) : readValue (n + 1) ('[' :: (x.format 8 ++ rest)) =
    (readElements (readValue n) n (x.format 8 ++ rest)).map fun p => (array p.1, p.2) := by
  obtain ⟨d, u, hdu, hws, hd⟩ := exists_format_cons x
  rw [hdu]
  exact readValue_array hws hd _

/-- Finite coordinates are read back rounded to 8 decimals, with their time and number. -/
theorem reads_coordinateText (hx : x.json = some v) (hy : y.json = some w) (timestamp : Int64)
    (hname : Plain name) (id : ℕ) : Reads (coordinateText x y timestamp name id)
      (coordinateJson v w timestamp name id) := by
  have hcoords (rest : Text) :
      readValue 3 ('[' :: (x.format 8 ++ ',' :: (y.format 8 ++ ']' :: rest))) =
        some (array [v, w], rest) := by
    rw [readValue_coords, readElements_comma (readValue_format hx (.inl rfl) _ _),
      readElements_close (readValue_format hy (.inr (.inl rfl)) _ _)]
    rfl
  have hid : readValue 3 (Nat.toDigits 10 id ++ ['\x7d']) = some (number false id, ['\x7d']) :=
    readValue_digits false (.inr (.inr rfl)) _ _
  refine ⟨4, [], ?_, rfl⟩
  rw [coordinateText, readValue_object, readMembers_comma (by decide) (hcoords _),
    readMembers_comma (by decide) (readValue_integer _ (.inl rfl) _ _),
    readMembers_close hname hid]
  rfl

/-- A coordinate that is not finite leaves no JSON. -/
theorem not_wellFormed_coordinateText (hxy : x.json = none ∨ y.json = none) (timestamp : Int64)
    (name : Text) (id : ℕ) : ¬WellFormed (coordinateText x y timestamp name id) := by
  apply not_wellFormed_of_refused (k := 4)
  intro n
  have hcoords (rest : Text) :
      readValue (n + 3) ('[' :: (x.format 8 ++ ',' :: (y.format 8 ++ ']' :: rest))) = none := by
    rw [readValue_coords]
    cases hx : x.json with
    | none => rw [readElements_refused (readValue_format_refused hx _ _), Option.map_none]
    | some v =>
      have hy : y.json = none := hxy.resolve_left (by simp [hx])
      rw [readElements_comma (readValue_format hx (.inl rfl) _ _),
        readElements_refused (readValue_format_refused hy _ _), Option.map_none, Option.map_none]
  rw [coordinateText, readValue_object, readMembers_refused (by decide) (hcoords _),
    Option.map_none]

end read

namespace CoordinateData

/-- The object that `to_json` stands for. -/
def json (d : CoordinateData) : Option Json :=
  d.longitude.json.bind fun lon => d.latitude.json.map fun lat =>
    coordinateJson lon lat d.timestamp "seq".toList d.sequence.toNat

theorem json_eq_some {d : CoordinateData} {v : Json} : d.json = some v ↔
    ∃ lon lat, d.longitude.json = some lon ∧ d.latitude.json = some lat ∧
      v = coordinateJson lon lat d.timestamp "seq".toList d.sequence.toNat := by
  simp only [json, Option.bind_eq_some_iff, Option.map_eq_some_iff]
  constructor
  · rintro ⟨lon, hlon, lat, hlat, rfl⟩
    exact ⟨lon, lat, hlon, hlat, rfl⟩
  · rintro ⟨lon, lat, hlon, hlat, rfl⟩
    exact ⟨lon, hlon, lat, hlat, rfl⟩

/-- The text is well formed and reads as that object, and as nothing else. -/
def ReadsBack (d : CoordinateData) : Prop :=
  ∃ v, d.json = some v ∧ ∀ w, Json.Reads d.toJson w ↔ w = v

theorem not_mem_format (x : Double) : '\x7d' ∉ x.format 8 := by
  match x with
  | .finite neg m => exact Cxx.not_mem_format (by decide) (by decide)
  | .inf true | .inf false | .nan true | .nan false => decide

/-- The only closing brace is the last character. -/
theorem jsonText_eq_concat (d : CoordinateData) :
    ∃ body, d.jsonText = '\x7b' :: (body ++ ['\x7d']) ∧ '\x7d' ∉ body := by
  have htime : '\x7d' ∉ Decimal.integer d.timestamp.toInt :=
    Cxx.not_mem_integer (by decide) (by decide)
  have hseq : '\x7d' ∉ Nat.toDigits 10 d.sequence.toNat := fun h =>
    absurd (Decimal.isDigit_of_mem_toDigits h) (by decide)
  have hcoords : '\x7d' ∉ "coords".toList := by decide
  have hname : '\x7d' ∉ "seq".toList := by decide
  have htimeName : '\x7d' ∉ "time".toList := by decide
  refine ⟨Json.member "coords".toList ('[' :: (d.longitude.format 8 ++ ',' ::
    (d.latitude.format 8 ++ ']' :: ',' :: Json.member "time".toList
      (Decimal.integer d.timestamp.toInt ++ ',' :: Json.member "seq".toList
        (Nat.toDigits 10 d.sequence.toNat))))), ?_, ?_⟩
  · rw [d.jsonText_eq, coordinateText]
    simp only [Json.member, List.append_assoc, List.cons_append]
  · simp only [Json.member, List.mem_cons, List.mem_append, not_or]
    simp only [hcoords, htimeName, hname, htime, hseq, not_mem_format, not_false_eq_true,
      Char.reduceEq, and_self]

/-- A text that its buffer cuts is never closed. -/
theorem not_wellFormed_of_cut {d : CoordinateData} (h : 255 < d.jsonText.length) :
    ¬Json.WellFormed d.toJson := by
  obtain ⟨body, hbody, hclose⟩ := d.jsonText_eq_concat
  rw [hbody, List.length_cons, List.length_append, List.length_singleton] at h
  have hcut : d.toJson = '\x7b' :: body.take 254 := by
    rw [d.toJson_eq_take, hbody, List.take_succ_cons, List.take_append_of_le_length (by omega)]
  rw [hcut]
  exact Json.not_wellFormed_of_open fun hmem => hclose (List.mem_of_mem_take hmem)

theorem toJson_of_length_le {d : CoordinateData} (h : d.jsonText.length ≤ 255) :
    d.toJson = d.jsonText := by rw [d.toJson_eq_take, List.take_of_length_le h]

theorem readsBack_of_finite {d : CoordinateData} (hlon : d.longitude.IsFinite)
    (hlat : d.latitude.IsFinite) (h : d.jsonText.length ≤ 255) : ReadsBack d := by
  obtain ⟨lon, hx⟩ := Double.isFinite_iff.mp hlon
  obtain ⟨lat, hy⟩ := Double.isFinite_iff.mp hlat
  have hreads := reads_coordinateText hx hy d.timestamp (show Json.Plain "seq".toList by decide)
    d.sequence.toNat
  rw [← d.jsonText_eq, ← toJson_of_length_le h] at hreads
  refine ⟨_, json_eq_some.mpr ⟨lon, lat, hx, hy, rfl⟩, fun w => ⟨fun hw => hw.unique hreads, ?_⟩⟩
  rintro rfl
  exact hreads

theorem length_format_of_within {x : Double} (h : x.Within (10 ^ 80)) :
    (x.format 8).length ≤ 91 := by
  match x with
  | .finite neg m =>
    have hscaled : m * 10 ^ 8 ≤ ((10 ^ 88 : ℕ) : ℚ≥0) := by
      calc m * 10 ^ 8 ≤ 10 ^ 80 * 10 ^ 8 := mul_le_mul_left h _
        _ = ((10 ^ 88 : ℕ) : ℚ≥0) := by
            rw [← pow_add]
            norm_num
    have hn := Decimal.roundHalfEven_le hscaled
    have hlt : Decimal.roundHalfEven (m * 10 ^ 8) < 10 ^ (8 + 81) :=
      hn.trans_lt (by decide +kernel)
    have hlen := Decimal.length_fixed_le (by decide) (by decide) hlt
    unfold Double.format
    rw [List.length_append]
    cases neg <;>
      simp only [Bool.false_eq_true, ↓reduceIte, List.length_nil, List.length_singleton] <;> omega

/-- `to_json` is correct or detectably broken, and correct for finite coordinates whose text
fits the buffer. -/
structure JsonSafe (d : CoordinateData) : Prop where
  sound : ReadsBack d ∨ ¬Json.WellFormed d.toJson
  whole : d.longitude.IsFinite → d.latitude.IsFinite → d.jsonText.length ≤ 255 → ReadsBack d
  moderate : d.longitude.Within (10 ^ 80) → d.latitude.Within (10 ^ 80) → ReadsBack d

theorem jsonSafe (d : CoordinateData) : JsonSafe d := by
  refine ⟨?_, readsBack_of_finite, fun hlon hlat => ?_⟩
  · by_cases hlen : d.jsonText.length ≤ 255
    · rw [toJson_of_length_le hlen]
      cases hx : d.longitude.json with
      | none =>
        rw [d.jsonText_eq]
        exact .inr (not_wellFormed_coordinateText (.inl hx) _ _ _)
      | some lon =>
        cases hy : d.latitude.json with
        | none =>
          rw [d.jsonText_eq]
          exact .inr (not_wellFormed_coordinateText (.inr hy) _ _ _)
        | some lat =>
          exact .inl (readsBack_of_finite (Double.isFinite_iff.mpr ⟨lon, hx⟩)
            (Double.isFinite_iff.mpr ⟨lat, hy⟩) hlen)
    · exact .inr (not_wellFormed_of_cut (by omega))
  · have hlon' := length_format_of_within hlon
    have hlat' := length_format_of_within hlat
    have hlen := d.length_jsonText_le
    exact readsBack_of_finite hlon.isFinite hlat.isFinite (by omega)

end CoordinateData

namespace PublisherProcess

/-- The JSON of an update is safe, and what a client receives in any run is such JSON: where
it is well formed, it reads as the update it was made from. -/
theorem toJson_safe : (∀ d : CoordinateData, d.JsonSafe) ∧
    ∀ s, machine.Reachable s → ∀ conn, ∀ text ∈ s.server.cast.received conn,
      ∃ d ∈ s.shared.updates, text = d.toJson ∧ ∀ v, Json.Reads text v → d.json = some v := by
  refine ⟨CoordinateData.jsonSafe, fun s hs conn text htext => ?_⟩
  rw [(streams_of_reachable hs conn).received_eq] at htext
  obtain ⟨e, he, rfl⟩ := List.mem_map.mp htext
  have hcast := (WebSocketServer.streamOf_sublist conn false _).subset he
  have hemitted := emitted_of_sampler (inv_of_reachable hs).server.sampler
  have hget := (hemitted.fromUpdate e hcast).2
  refine ⟨e.item, List.mem_of_getElem? hget, rfl, fun v hv => ?_⟩
  rcases (CoordinateData.jsonSafe e.item).sound with ⟨w, hw, hiff⟩ | hbroken
  · rw [hw, (hiff v).mp hv]
  · exact absurd ⟨v, hv⟩ hbroken

theorem toJson_safe_demo : CoordinateData.JsonSafe ⟨.nan false, .zero, 5, 1⟩ ∧
    ∃ s, machine.run init (openEvents ++ castEvents (· = 2)) = some s ∧
      (s.server.cast.received 1).length = 1 ∧ ∀ text ∈ s.server.cast.received 1,
        ∃ d ∈ s.shared.updates, text = d.toJson ∧ ∀ v, Json.Reads text v → d.json = some v := by
  obtain ⟨s, hs, hlen⟩ : ∃ s, machine.run init (openEvents ++ castEvents (· = 2)) = some s ∧
      (s.server.cast.received 1).length = 1 := ⟨_, rfl, rfl⟩
  exact ⟨toJson_safe.1 _, s, hs, hlen, toJson_safe.2 s (Machine.reachable_of_run hs) 1⟩

end PublisherProcess

end CoordinateStream
