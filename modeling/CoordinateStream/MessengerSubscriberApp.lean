import CoordinateStream.SharedCoordinateState
import CoordinateStream.Lib.Machine

namespace CoordinateStream

inductive InstanceState
  | alive
  | notAliveDisposed
  | notAliveNoWriters
  deriving DecidableEq, Repr

structure SampleInfo where
  instanceState : InstanceState
  validData : Bool
  deriving DecidableEq, Repr

/-- What a `take_next_sample` that returns OK hands over. -/
structure TakenSample where
  sample : Message
  info : SampleInfo
  deriving DecidableEq

namespace MessengerSubscriberApp

/-- What the text of a sample says. -/
structure Coordinates where
  longitude : Double
  latitude : Double
  timestamp : Int64
  deriving DecidableEq

/-- What `on_data_available` writes to its JSON stream. -/
structure Forward where
  coords : Coordinates
  sampleId : UInt16
  deriving DecidableEq

def Forward.toJson (f : Forward) : Text :=
  "\x7b\"coords\":[".toList ++ f.coords.longitude.format 8 ++ ",".toList ++
    f.coords.latitude.format 8 ++ "],\"time\":".toList ++
    Decimal.integer f.coords.timestamp.toInt ++ ",\"sample_id\":".toList ++
    Nat.toDigits 10 f.sampleId.toNat ++ "\x7d".toList

/-- The three `getline` calls, then the three conversions; `none` is the unparsed case. -/
def parse (round : ℚ≥0 → Option ℚ≥0) (text : Text) :
    Except Cxx.StdError (Option Coordinates) :=
  match Cxx.getline ',' ⟨text, true⟩ with
  | none => .ok none
  | some (lonStr, iss) => match Cxx.getline ',' iss with
    | none => .ok none
    | some (latStr, iss) => match Cxx.getline '\n' iss with
      | none => .ok none
      | some (timeStr, _) => do
        let lon ← Cxx.stod round lonStr
        let lat ← Cxx.stod round latStr
        let timestamp ← Cxx.stoll timeStr
        return some ⟨lon, lat, timestamp⟩

/-- Where `on_data_available` stands, whose calls DDS serialises. An exception that leaves it
ends the process. -/
inductive CallbackPc
  | idle
  | stopTest
  | take
  | process (d : TakenSample)
  | escaped
  deriving DecidableEq

inductive RunPc
  | notStarted
  | waitTest
  | waitBlock
  | waitBlocked
  | finished
  deriving DecidableEq, Repr

inductive Event
  | dataAvailable
  | stopTest
  /-- `take_next_sample`, with what it hands over where it returns OK. -/
  | take (r : Option TakenSample)
  | process
  /-- The next statement of `run`. -/
  | run
  | stopStore
  | stopNotify
  deriving DecidableEq

/-- What processing a sample puts out. A message passed to `broadcast` comes with the number
of samples counted up to and including its own. -/
inductive Output
  | logged (samplesReceived : UInt16) (coords : Coordinates)
  | broadcast (e : Sampler.Entry Forward)
  | unparsed (samplesReceived : UInt16)
  deriving DecidableEq

def Output.message : Output → Option (Sampler.Entry Forward)
  | .broadcast e => some e
  | _ => none

end MessengerSubscriberApp

/-- The samples that `on_data_available` does not pass over. -/
def TakenSample.counts (d : TakenSample) : Bool :=
  d.info.instanceState = .alive && d.info.validData

open MessengerSubscriberApp in
structure MessengerSubscriberApp where
  /-- `ws_server_` is set. -/
  wsServer : Bool
  callback : CallbackPc
  samplesReceived : UInt16
  stop : Bool
  runPc : RunPc
  stopNotifying : ℕ
  stopsReturned : ℕ
  /-- The samples taken, but for one still in hand, and what came of them. -/
  processed : List TakenSample
  outputs : List Output
  deriving DecidableEq

namespace MessengerSubscriberApp

def init (ws : Bool) : MessengerSubscriberApp :=
  ⟨ws, .idle, 0, false, .notStarted, 0, 0, [], []⟩

/-- The processed samples that were counted. -/
def counted (s : MessengerSubscriberApp) : List TakenSample :=
  s.processed.filter TakenSample.counts

/-- The messages passed to `broadcast`. -/
def broadcasts (s : MessengerSubscriberApp) : List (Sampler.Entry Forward) :=
  s.outputs.filterMap Output.message

/-- All samples taken so far. -/
def taken (s : MessengerSubscriberApp) : List TakenSample :=
  s.processed ++ match s.callback with
    | .process d => [d]
    | _ => []

/-- What a parsed sample puts out: the log line of every hundredth one, and the message for
the clients. -/
def parsedOutputs (s : MessengerSubscriberApp) (c : Coordinates) : List Output :=
  (if (s.samplesReceived + 1) % 100 = 0 then [.logged (s.samplesReceived + 1) c] else []) ++
    if s.wsServer then [.broadcast ⟨s.counted.length + 1, c, s.samplesReceived + 1⟩] else []

/-- The body of the loop of `on_data_available`. -/
def processSample (round : ℚ≥0 → Option ℚ≥0) (d : TakenSample) (s : MessengerSubscriberApp) :
    MessengerSubscriberApp :=
  if d.counts then
    match parse round d.sample.mText with
    | .ok (some c) => { s with
        callback := .stopTest
        samplesReceived := s.samplesReceived + 1
        processed := s.processed ++ [d]
        outputs := s.outputs ++ s.parsedOutputs c }
    | .ok none => { s with
        callback := .stopTest
        samplesReceived := s.samplesReceived + 1
        processed := s.processed ++ [d]
        outputs := s.outputs ++ [.unparsed (s.samplesReceived + 1)] }
    | .error _ => { s with
        callback := .escaped
        samplesReceived := s.samplesReceived + 1
        processed := s.processed ++ [d] }
  else { s with callback := .stopTest, processed := s.processed ++ [d] }

def runStep (s : MessengerSubscriberApp) : Option MessengerSubscriberApp :=
  match s.runPc with
  | .notStarted => some { s with runPc := .waitTest }
  | .waitTest => some { s with runPc := if s.stop then .finished else .waitBlock }
  | .waitBlock => some { s with runPc := .waitBlocked }
  | .waitBlocked => none
  | .finished => none

def step (round : ℚ≥0 → Option ℚ≥0) (s : MessengerSubscriberApp) :
    Event → Option MessengerSubscriberApp
  | .dataAvailable => if s.callback = .idle then some { s with callback := .stopTest } else none
  | .stopTest =>
    if s.callback = .stopTest then
      some { s with callback := if s.stop then .idle else .take }
    else none
  | .take r =>
    if s.callback = .take then
      some { s with callback := match r with
        | some d => .process d
        | none => .idle }
    else none
  | .process => match s.callback with
    | .process d => some (s.processSample round d)
    | _ => none
  | .run => s.runStep
  | .stopStore => some { s with stop := true, stopNotifying := s.stopNotifying + 1 }
  | .stopNotify =>
    if 0 < s.stopNotifying then
      some { s with
        runPc := if s.runPc = .waitBlocked then .waitTest else s.runPc
        stopNotifying := s.stopNotifying - 1
        stopsReturned := s.stopsReturned + 1 }
    else none

def machine (round : ℚ≥0 → Option ℚ≥0) (ws : Bool) : Machine MessengerSubscriberApp Event :=
  ⟨init ws, step round⟩

/-- A statement of `run` only moves its thread on. -/
theorem runStep_frame {s t : MessengerSubscriberApp} (h : s.runStep = some t) :
    ∃ pc, t = { s with runPc := pc } := by
  unfold runStep at h
  cases hpc : s.runPc with
  | notStarted | waitTest | waitBlock =>
    simp only [hpc, Option.some.injEq] at h
    exact ⟨_, h.symm⟩
  | waitBlocked | finished => simp [hpc] at h

/-- A step processes the sample in hand, or leaves alone what processing writes. -/
theorem step_cases {round : ℚ≥0 → Option ℚ≥0} {s t : MessengerSubscriberApp} {e : Event}
    (h : s.step round e = some t) :
    (∃ d, s.callback = .process d ∧ t = s.processSample round d) ∨
    (t.wsServer = s.wsServer ∧ t.samplesReceived = s.samplesReceived ∧
      t.processed = s.processed ∧ t.outputs = s.outputs) := by
  cases e with
  | dataAvailable | stopTest | take | stopNotify =>
    simp only [step, Option.ite_none_right_eq_some, Option.some.injEq] at h
    obtain ⟨-, rfl⟩ := h
    exact .inr ⟨rfl, rfl, rfl, rfl⟩
  | process =>
    simp only [step] at h
    split at h
    · next d hd => exact .inl ⟨d, hd, (Option.some.inj h).symm⟩
    · cases h
  | run =>
    obtain ⟨pc, rfl⟩ := runStep_frame h
    exact .inr ⟨rfl, rfl, rfl, rfl⟩
  | stopStore =>
    rw [← Option.some.inj h]
    exact .inr ⟨rfl, rfl, rfl, rfl⟩

theorem processSample_taken (round : ℚ≥0 → Option ℚ≥0) (s : MessengerSubscriberApp)
    (d : TakenSample) : (s.processSample round d).taken = s.processed ++ [d] := by
  unfold processSample
  split
  · split <;> simp [taken]
  · simp [taken]

/-- The sample an event hands over. -/
def Event.handed : Event → List TakenSample
  | .take (some d) => [d]
  | _ => []

theorem step_taken {round : ℚ≥0 → Option ℚ≥0} {s t : MessengerSubscriberApp} {e : Event}
    (h : s.step round e = some t) : t.taken = s.taken ++ e.handed := by
  cases e with
  | dataAvailable | stopTest =>
    simp only [step, Option.ite_none_right_eq_some, Option.some.injEq] at h
    obtain ⟨hc, rfl⟩ := h
    cases hs : s.stop <;> simp [taken, Event.handed, hc]
  | take r =>
    simp only [step, Option.ite_none_right_eq_some, Option.some.injEq] at h
    obtain ⟨hc, rfl⟩ := h
    cases r <;> simp [taken, Event.handed, hc]
  | process =>
    simp only [step] at h
    split at h
    · next d hd =>
      rw [← Option.some.inj h, processSample_taken]
      simp [taken, Event.handed, hd]
    · cases h
  | run =>
    obtain ⟨pc, rfl⟩ := runStep_frame h
    exact (List.append_nil _).symm
  | stopStore =>
    rw [← Option.some.inj h]
    exact (List.append_nil _).symm
  | stopNotify =>
    simp only [step, Option.ite_none_right_eq_some, Option.some.injEq] at h
    obtain ⟨-, rfl⟩ := h
    exact (List.append_nil _).symm

end MessengerSubscriberApp

end CoordinateStream
