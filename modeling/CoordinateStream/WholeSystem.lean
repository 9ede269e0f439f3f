import CoordinateStream.CoordinateGenerator
import CoordinateStream.EndToEnd
import CoordinateStream.JsonText

namespace CoordinateStream

/-! The whole stream, fed by the generator. -/

def CoordinateData.coordinates (d : CoordinateData) : Double × Double := (d.longitude, d.latitude)

namespace CoordinateProducer

/-- The coordinates the timer handler has taken from the generator and not yet stored. -/
def inHand (p : CoordinateProducer) : List (Double × Double) :=
  match p.pc with
  | .generated lon lat _ | .sequenced lon lat _ _ => [(lon, lat)]
  | _ => []

/-- The event takes coordinates from the generator. -/
def Event.taken : Event → List (Double × Double)
  | .fire lon lat _ => [(lon, lat)]
  | _ => []

/-- Coordinates go from the generator through the hand of the handler into the cell. -/
theorem step_inHand {p q : CoordinateProducer} {e : Event} {u : Option CoordinateData}
    (h : p.step e = some (q, u)) :
    u.toList.map CoordinateData.coordinates ++ q.inHand = p.inHand ++ e.taken := by
  cases e with
  | fire lon lat t =>
    simp only [step, Option.ite_none_right_eq_some, Option.some.injEq, Prod.mk.injEq] at h
    obtain ⟨⟨hpc, -⟩, rfl, rfl⟩ := h
    simp [inHand, Event.taken, hpc]
  | start | leaveLoop =>
    simp only [step, Option.ite_none_right_eq_some, Option.some.injEq, Prod.mk.injEq] at h
    obtain ⟨hpc, rfl, rfl⟩ := h
    cases p.running <;> simp [inHand, Event.taken, hpc]
  -- between the draw and the call of `update` the pair only changes its place in the handler
  | fetchAdd | update | arm =>
    simp only [step] at h
    split at h
    · next hpc =>
      simp only [Option.some.injEq, Prod.mk.injEq] at h
      obtain ⟨rfl, rfl⟩ := h
      simp [inHand, Event.taken, hpc, CoordinateData.coordinates]
    · cases h
  | scheduleTest =>
    simp only [step] at h
    split at h
    · next hpc =>
      simp only [Option.some.injEq, Prod.mk.injEq] at h
      obtain ⟨rfl, rfl⟩ := h
      cases p.running <;> simp [inHand, Event.taken, hpc]
    · next hpc =>
      simp only [Option.some.injEq, Prod.mk.injEq] at h
      obtain ⟨rfl, rfl⟩ := h
      cases p.running <;> simp [inHand, Event.taken, hpc]
    · cases h
  | abort | stopCancel | stopContext =>
    simp only [step, Option.ite_none_right_eq_some, Option.some.injEq, Prod.mk.injEq] at h
    obtain ⟨-, rfl, rfl⟩ := h
    simp [inHand, Event.taken]
  | stopStore =>
    simp only [step, Option.some.injEq, Prod.mk.injEq] at h
    obtain ⟨rfl, rfl⟩ := h
    simp [inHand, Event.taken]

end CoordinateProducer

namespace MessengerSubscriberApp

variable {round : ℚ≥0 → Option ℚ≥0}

/-- No exception has left the callback, and no sample was reported as unparsed. -/
structure Untroubled (s : MessengerSubscriberApp) : Prop where
  notEscaped : s.callback ≠ .escaped
  parsed : ∀ n, Output.unparsed n ∉ s.outputs

theorem init_untroubled (ws : Bool) : (init ws).Untroubled :=
  ⟨by simp [init], fun _ hn => absurd hn List.not_mem_nil⟩

theorem not_mem_parsedOutputs (s : MessengerSubscriberApp) (c : Coordinates) (n : UInt16) :
    Output.unparsed n ∉ s.parsedOutputs c := by
  unfold parsedOutputs
  split <;> split <;> simp

theorem processSample_untroubled {s : MessengerSubscriberApp} (h : s.Untroubled) {d : TakenSample}
    (hd : d.counts = true → (coordinates round d.sample).isSome) :
    (s.processSample round d).Untroubled := by
  unfold processSample
  split_ifs with hc
  · have hparse := hd hc
    rw [coordinates] at hparse
    split at hparse
    · next c hok =>
      rw [hok]
      refine ⟨by simp, fun n hn => ?_⟩
      rcases List.mem_append.mp hn with hn | hn
      · exact h.parsed n hn
      · exact not_mem_parsedOutputs s c n hn
    · cases hparse
  · exact ⟨by simp, h.parsed⟩

theorem step_untroubled {s t : MessengerSubscriberApp} {e : Event} (h : s.Untroubled)
    (hd : ∀ d, s.callback = .process d → d.counts = true → (coordinates round d.sample).isSome)
    (hs : s.step round e = some t) : t.Untroubled := by
  cases e with
  | dataAvailable =>
    simp only [step, Option.ite_none_right_eq_some, Option.some.injEq] at hs
    rw [← hs.2]
    exact ⟨by simp, h.parsed⟩
  | stopTest | take =>
    simp only [step, Option.ite_none_right_eq_some, Option.some.injEq] at hs
    rw [← hs.2]
    refine ⟨?_, h.parsed⟩
    dsimp only
    split <;> simp
  | process =>
    simp only [step] at hs
    split at hs
    · next d hpc =>
      rw [← Option.some.inj hs]
      exact processSample_untroubled h (hd d hpc)
    · cases hs
  | run =>
    obtain ⟨pc, rfl⟩ := runStep_frame hs
    exact ⟨h.notEscaped, h.parsed⟩
  | stopStore =>
    rw [← Option.some.inj hs]
    exact ⟨h.notEscaped, h.parsed⟩
  | stopNotify =>
    simp only [step, Option.ite_none_right_eq_some, Option.some.injEq] at hs
    rw [← hs.2]
    exact ⟨h.notEscaped, h.parsed⟩

end MessengerSubscriberApp

namespace EndToEnd

open MessengerSubscriberApp (coordinates forward)

variable {round : ℚ≥0 → Option ℚ≥0}

/-- The publisher process runs as it does without a subscriber. -/
def processRefinement (round : ℚ≥0 → Option ℚ≥0) :
    Machine.Refinement (machine round) PublisherProcess.machine where
  abs s := s.process
  label _ e := match e with
    | .process a => some a
    | _ => none
  init := rfl
  stutter {s t e} _ hs hl := by
    cases e with
    | process a => cases hl
    | deliver i =>
      simp only [machine, step, Option.ite_none_right_eq_some, Option.map_eq_some_iff] at hs
      obtain ⟨-, e, -, rfl⟩ := hs
      rfl
    | subscriber a =>
      obtain ⟨r, -, rfl⟩ := Option.map_eq_some_iff.mp hs
      rfl
  step {s t e b} _ hs hl := by
    cases e with
    | process a =>
      obtain ⟨p, hp, rfl⟩ := Option.map_eq_some_iff.mp hs
      rw [← Option.some.inj hl]
      exact hp
    | deliver i => cases hl
    | subscriber a => cases hl

theorem process_reachable {s : EndToEnd} (h : (machine round).Reachable s) :
    PublisherProcess.machine.Reachable s.process :=
  (processRefinement round).reachableBy (fun _ _ => trivial) h

/-- A sample taken with valid data is one the publisher has written. -/
theorem Inv.exists_written {s : EndToEnd} (h : Inv round s) {d : TakenSample}
    (hd : d ∈ s.reader.subscriber.taken) (hcounts : d.counts = true) :
    ∃ e ∈ s.process.publisher.written, d.sample = sampleOf e := by
  have hvalid : d.sample ∈ s.reader.validTaken :=
    List.mem_map_of_mem (List.mem_filter.mpr ⟨hd, (Bool.and_eq_true_iff.mp hcounts).2⟩)
  obtain ⟨e, he, heq⟩ := List.mem_map.mp (h.received.subset (List.mem_append_left _ hvalid))
  exact ⟨e, List.mem_of_mem_take he, heq.symm⟩

/-- Such a sample parses, and prints as the update it was made from. -/
theorem Inv.coordinates_taken (hround : RoundsWithin round) {s : EndToEnd} (h : Inv round s)
    (hrange : ∀ d ∈ s.process.shared.updates, d.InRange) {d : TakenSample}
    (hd : d ∈ s.reader.subscriber.taken) (hcounts : d.counts = true) :
    ∃ e, Sampler.Names s.process.shared.updates e ∧ ∃ lon lat,
      coordinates round d.sample = some ⟨lon, lat, e.item.timestamp⟩ ∧
        lon.format 8 = e.item.longitude.format 8 ∧ lat.format 8 = e.item.latitude.format 8 := by
  obtain ⟨e, he, heq⟩ := h.exists_written hd hcounts
  have hnames := h.process.publisher.sampler.names e he
  rw [heq]
  exact ⟨e, hnames, coordinates_sample hround (hrange _ (List.mem_of_getElem? hnames.2))⟩

theorem step_untroubled (hround : RoundsWithin round) {s t : EndToEnd} {e : Event}
    (hinv : Inv round s) (hrange : ∀ d ∈ s.process.shared.updates, d.InRange)
    (h : s.reader.subscriber.Untroubled) (hs : s.step round e = some t) :
    t.reader.subscriber.Untroubled := by
  cases e with
  | process e =>
    obtain ⟨p, -, rfl⟩ := Option.map_eq_some_iff.mp hs
    exact h
  | deliver i =>
    simp only [step, Option.ite_none_right_eq_some, Option.map_eq_some_iff] at hs
    obtain ⟨-, e, -, rfl⟩ := hs
    exact h
  | subscriber e =>
    obtain ⟨r, hr, rfl⟩ := Option.map_eq_some_iff.mp hs
    refine MessengerSubscriberApp.step_untroubled h ?_ (DataReader.step_eq_some hr).2
    intro d hpc hcounts
    have hd : d ∈ s.reader.subscriber.taken := by
      rw [MessengerSubscriberApp.taken, hpc]
      exact List.mem_append_right _ (List.mem_singleton.mpr rfl)
    obtain ⟨e, -, lon, lat, hc, -⟩ := hinv.coordinates_taken hround hrange hd hcounts
    rw [hc]
    rfl

/-- A message of the subscriber carries an update. -/
theorem exists_carries (hround : RoundsWithin round) {s : EndToEnd} (h : Inv round s)
    (hrange : ∀ d ∈ s.process.shared.updates, d.InRange) {text : Text} (ht : text ∈ s.messages) :
    ∃ e, Sampler.Names s.process.shared.updates e ∧ Carries text e.item := by
  rw [messages, h.subscriber.broadcasts_eq, if_pos rfl, List.map_map] at ht
  obtain ⟨a, ha, rfl⟩ := List.mem_map.mp ht
  obtain ⟨i, d, hget, hc, -⟩ := MessengerSubscriberApp.mem_arrivals.mp ha
  obtain ⟨hproc, hcounts⟩ := List.mem_filter.mp (List.mem_of_getElem? hget)
  obtain ⟨e, hnames, lon, lat, hc', hlon, hlat⟩ :=
    h.coordinates_taken hround hrange (List.mem_append_left _ hproc) hcounts
  rw [hc, Option.some.injEq] at hc'
  refine ⟨e, hnames, UInt16.ofNat a.number, ?_⟩
  rw [Function.comp_apply, forward, hc']
  exact toJson_congr _ hlon hlat rfl

end EndToEnd

/-- The publisher process, the subscriber and DDS between them, and the generator that the
producer owns. -/
structure GeneratedSystem where
  system : EndToEnd
  generator : CoordinateGenerator

namespace GeneratedSystem

inductive Event
  /-- The timer handler takes the next coordinates and reads the clock. -/
  | tick (timestamp : Int64)
  | system (e : EndToEnd.Event)

/-- The coordinates an event of the system takes from outside. -/
def taken : EndToEnd.Event → List (Double × Double)
  | .process (.producer a) => a.taken
  | _ => []

section machine

variable (m : CMath) (round : ℚ≥0 → Option ℚ≥0)

/-- The event of the system that an event stands for. -/
def label (s : GeneratedSystem) : Event → EndToEnd.Event
  | .tick timestamp =>
    let c := (s.generator.getNextCoordinate m).1
    .process (.producer (.fire c.1 c.2 timestamp))
  | .system e => e

def step (s : GeneratedSystem) : Event → Option GeneratedSystem
  | .tick timestamp => (s.system.step round (s.label m (.tick timestamp))).map
    (⟨·, (s.generator.getNextCoordinate m).2⟩)
  | .system e =>
    -- there is no other source of coordinates
    if taken e = [] then (s.system.step round e).map (⟨·, s.generator⟩) else none

def machine (g : CoordinateGenerator) : Machine GeneratedSystem Event :=
  ⟨⟨.init, g⟩, step m round⟩

end machine

variable {m : CMath} {round : ℚ≥0 → Option ℚ≥0} {g : CoordinateGenerator}

theorem step_system {s t : GeneratedSystem} {e : Event} (h : s.step m round e = some t) :
    s.system.step round (s.label m e) = some t.system := by
  cases e with
  | tick timestamp =>
    obtain ⟨u, hu, rfl⟩ := Option.map_eq_some_iff.mp h
    exact hu
  | system e =>
    simp only [step, Option.ite_none_right_eq_some, Option.map_eq_some_iff] at h
    obtain ⟨-, u, hu, rfl⟩ := h
    exact hu

/-- The system under the generator is one whose environment makes up the coordinates. -/
def refinement (m : CMath) (round : ℚ≥0 → Option ℚ≥0) (g : CoordinateGenerator) :
    Machine.Refinement (machine m round g) (EndToEnd.machine round) where
  abs := system
  label s e := some (s.label m e)
  init := rfl
  stutter _ _ hl := by cases hl
  step _ hs hl := by
    rw [← Option.some.inj hl]
    exact step_system hs

theorem system_reachable {s : GeneratedSystem} (h : (machine m round g).Reachable s) :
    (EndToEnd.machine round).Reachable s.system :=
  (refinement m round g).reachableBy (fun _ _ => trivial) h

/-- The coordinates that are in the cell's log or on their way there. -/
def track (s : EndToEnd) : List (Double × Double) :=
  s.process.shared.updates.map CoordinateData.coordinates ++ s.process.producer.inHand

theorem track_step {s t : EndToEnd} {e : EndToEnd.Event} (h : s.step round e = some t) :
    track t = track s ++ taken e := by
  cases e with
  | process e =>
    obtain ⟨p, hp, rfl⟩ := Option.map_eq_some_iff.mp h
    rcases PublisherProcess.step_cases hp with
      ⟨a, q, u, rfl, hq, rfl⟩ | ⟨a, q, rfl, -, rfl⟩ | ⟨a, w, rfl, -, rfl⟩
    · rw [track, track, PublisherProcess.storeUpdate_updates, List.map_append, List.append_assoc,
        CoordinateProducer.step_inHand hq, ← List.append_assoc]
      rfl
    · exact (List.append_nil _).symm
    · exact (List.append_nil _).symm
  | deliver i =>
    simp only [EndToEnd.step, Option.ite_none_right_eq_some, Option.map_eq_some_iff] at h
    obtain ⟨-, e, -, rfl⟩ := h
    exact (List.append_nil _).symm
  | subscriber e =>
    obtain ⟨r, -, rfl⟩ := Option.map_eq_some_iff.mp h
    exact (List.append_nil _).symm

/-- The generator has been called once for each of the coordinates, and never reset. -/
structure Follows (m : CMath) (g : CoordinateGenerator) (s : GeneratedSystem) : Prop where
  generator : s.generator = { g with t := g.phase (track s.system).length }
  track_eq : track s.system = (List.range (track s.system).length).map (g.position m)

theorem step_follows {s t : GeneratedSystem} {e : Event} (h : Follows m g s)
    (hs : s.step m round e = some t) : Follows m g t := by
  have htrack := track_step (step_system hs)
  obtain ⟨hgen, heq⟩ := h
  cases e with
  | tick timestamp =>
    obtain ⟨u, hu, rfl⟩ := Option.map_eq_some_iff.mp hs
    have htaken : taken (s.label m (.tick timestamp)) = [g.position m (track s.system).length] := by
      rw [CoordinateGenerator.position, ← hgen]
      rfl
    rw [htaken] at htrack
    have hlen : (track u).length = (track s.system).length + 1 := by
      rw [htrack, List.length_append, List.length_singleton]
    refine ⟨?_, ?_⟩
    · show (s.generator.getNextCoordinate m).2 = _
      rw [hlen, hgen, CoordinateGenerator.phase_succ]
      rfl
    · show track u = _
      rw [hlen, List.range_succ, List.map_append, ← heq]
      exact htrack
  | system e =>
    simp only [step, Option.ite_none_right_eq_some, Option.map_eq_some_iff] at hs
    obtain ⟨hnone, u, hu, rfl⟩ := hs
    have hsame : track u = track s.system := by
      rw [htrack, label, hnone, List.append_nil]
    exact ⟨hsame ▸ hgen, hsame ▸ heq⟩

theorem follows_of_reachable (hg : g.t = .zero) {s : GeneratedSystem}
    (h : (machine m round g).Reachable s) : Follows m g s :=
  h.invariant (I := Follows m g) ⟨by cases g; cases hg; rfl, rfl⟩ fun _ hi _ hs =>
    step_follows hi hs

/-- The `n`th update, counted from zero, has the `n`th coordinates of the generator. -/
theorem Follows.position {s : GeneratedSystem} (h : Follows m g s) {n : ℕ} {d : CoordinateData}
    (hd : s.system.process.shared.updates[n]? = some d) : d.coordinates = g.position m n := by
  have hlen := (List.getElem?_eq_some_iff.mp hd).1
  have hget : (track s.system)[n]? = some d.coordinates := by
    rw [track, List.getElem?_append_left (by simpa using hlen), List.getElem?_map, hd]
    rfl
  have hn := (List.getElem?_eq_some_iff.mp hget).1
  rw [h.track_eq, List.getElem?_map, List.getElem?_range hn] at hget
  exact (Option.some.inj hget).symm

theorem Follows.inRange (hm : m.Bounded) (hg : g.Fits) {s : GeneratedSystem}
    (h : Follows m g s) : ∀ d ∈ s.system.process.shared.updates, d.InRange := by
  intro d hd
  obtain ⟨n, hn⟩ := List.mem_iff_getElem?.mp hd
  have hpos := CoordinateGenerator.position_inRange hm hg n
  rw [← h.position hn] at hpos
  exact hpos

theorem untroubled_of_reachable (hround : RoundsWithin round) (hm : m.Bounded) (hg : g.Fits)
    {s : GeneratedSystem} (h : (machine m round g).Reachable s) :
    s.system.reader.subscriber.Untroubled :=
  h.invariant (I := fun s => s.system.reader.subscriber.Untroubled)
    (MessengerSubscriberApp.init_untroubled true) fun hr hi _ hs =>
    EndToEnd.step_untroubled hround (EndToEnd.inv_of_reachable (system_reachable hr))
      ((follows_of_reachable hg.started hr).inRange hm hg) hi (step_system hs)

/-- Neither a broadcast text nor a sample is damaged on its way out. -/
structure Intact (s : EndToEnd) : Prop where
  clients : ∀ conn, ∀ text ∈ s.process.server.cast.received conn,
    ∃ d ∈ s.process.shared.updates, text = d.toJson ∧ d.ReadsBack
  samples : ∀ e ∈ s.process.publisher.written, (EndToEnd.sampleOf e).mText = e.item.csvText
  subscriber : s.reader.subscriber.Untroubled

/-- An update of a consumer comes from the log. -/
theorem exists_received {s : EndToEnd} (h : (EndToEnd.machine round).Reachable s)
    {conn : ConnectionHdl} {text : Text} (ht : text ∈ s.process.server.cast.received conn) :
    ∃ e, Sampler.Names s.process.shared.updates e ∧ text = e.item.toJson := by
  have hproc := EndToEnd.process_reachable h
  rw [(PublisherProcess.streams_of_reachable hproc conn).received_eq] at ht
  obtain ⟨e, he, rfl⟩ := List.mem_map.mp ht
  have hcast := (WebSocketServer.streamOf_sublist conn false _).subset he
  exact ⟨e, (PublisherProcess.inv_of_reachable hproc).server.sampler.names e hcast, rfl⟩

/-- As long as the figure lies on the globe, every broadcast text is well-formed JSON of an
update, every sample has its whole text, and the subscriber parses every one of them. -/
theorem intact_of_reachable (hround : RoundsWithin round) (hm : m.Bounded) (hg : g.Fits)
    {s : GeneratedSystem} (h : (machine m round g).Reachable s) : Intact s.system := by
  have hsys := system_reachable h
  have hrange := (follows_of_reachable hg.started h).inRange hm hg
  refine ⟨fun conn text ht => ?_, fun e he => ?_, untroubled_of_reachable hround hm hg h⟩
  · obtain ⟨e, hnames, rfl⟩ := exists_received hsys ht
    have hmem := List.mem_of_getElem? hnames.2
    refine ⟨e.item, hmem, rfl, ?_⟩
    exact (CoordinateData.jsonSafe e.item).moderate
      ((hrange _ hmem).1.mono (by norm_num)) ((hrange _ hmem).2.mono (by norm_num))
  · have hnames := (EndToEnd.inv_of_reachable hsys).process.publisher.sampler.names e he
    exact (hrange _ (List.mem_of_getElem? hnames.2)).toCsv_eq

/-- The updates run along the figure, and so do the texts broadcast and the messages made of
them. -/
structure OnTrack (m : CMath) (g : CoordinateGenerator) (ε : ℝ) (s : EndToEnd) : Prop where
  updates : ∀ (n : ℕ) (d : CoordinateData), s.process.shared.updates[n]? = some d →
    d.coordinates = g.position m n ∧ g.Near ε n d.coordinates
  clients : ∀ conn, ∀ text ∈ s.process.server.cast.received conn,
    ∃ (n : ℕ) (d : CoordinateData), s.process.shared.updates[n]? = some d ∧ text = d.toJson
  messages : ∀ text ∈ s.messages,
    ∃ (n : ℕ) (d : CoordinateData), s.process.shared.updates[n]? = some d ∧ EndToEnd.Carries text d

theorem onTrack_of_reachable {ε : ℝ} (hround : RoundsWithin round) (hm : m.Bounded)
    (hacc : m.Accurate ε) (hg : g.Fits) (hfreq : 1 / 2 ^ 1022 ≤ g.frequency.mag)
    {s : GeneratedSystem} (h : (machine m round g).Reachable s) : OnTrack m g ε s.system := by
  have hsys := system_reachable h
  have hfollows := follows_of_reachable hg.started h
  refine ⟨fun n d hd => ?_, fun conn text ht => ?_, fun text ht => ?_⟩
  · rw [hfollows.position hd]
    exact ⟨rfl, CoordinateGenerator.position_near hm hacc hg hfreq n⟩
  · obtain ⟨e, hnames, rfl⟩ := exists_received hsys ht
    exact ⟨_, _, hnames.2, rfl⟩
  · obtain ⟨e, hnames, hcarries⟩ := EndToEnd.exists_carries hround
      (EndToEnd.inv_of_reachable hsys) (hfollows.inRange hm hg) ht
    exact ⟨_, _, hnames.2, hcarries⟩

/-- Sine and cosine at the phase of the first coordinates. -/
def atZero : CMath := ⟨fun _ => .zero, fun _ => .finite false 1⟩

theorem atZero_bounded : atZero.Bounded := ⟨fun _ _ => zero_le, fun _ _ => le_refl _⟩

/-- The rest of the timer handler, a broadcast, and a turn of the publisher. -/
def turnEvents : List PublisherProcess.Event :=
  [.fetchAdd, .update, .scheduleTest, .arm].map .producer ++
    [.server .tick, .server (.emit fun _ => false)] ++ PublisherProcess.publishEvents true

/-- The first update is broadcast and written. -/
def demoEvents : List Event :=
  PublisherProcess.startEvents.map (.system <| .process ·) ++ [.tick 5] ++
    turnEvents.map (.system <| .process ·)

def demoSample : Message := MessengerPublisherApp.sample
  ⟨CoordinateGenerator.figure.center.x, CoordinateGenerator.figure.center.y, 5, 1⟩

/-- The sample is delivered and taken. -/
def deliveryEvents : List Event :=
  .system (.deliver 0) :: ([.dataAvailable, .stopTest, .take (some ⟨demoSample, ⟨.alive, true⟩⟩),
    .process] : List MessengerSubscriberApp.Event).map fun e => .system (.subscriber e)

theorem demo_run : ((machine atZero Binary64.round .figure).run ⟨.init, .figure⟩
    (demoEvents ++ deliveryEvents)).map (fun s =>
      ((s.system.process.server.cast.received 1).length, s.system.messages.length)) =
    some (1, 1) := by decide +kernel

theorem intact_demo : ∃ s, (machine atZero Binary64.round .figure).run ⟨.init, .figure⟩
      (demoEvents ++ deliveryEvents) = some s ∧
    (s.system.process.server.cast.received 1).length = 1 ∧ s.system.messages.length = 1 ∧
      Intact s.system := by
  obtain ⟨s, hs, heq⟩ := Option.map_eq_some_iff.mp demo_run
  rw [Prod.mk.injEq] at heq
  exact ⟨s, hs, heq.1, heq.2, intact_of_reachable Binary64.roundsWithin atZero_bounded
    CoordinateGenerator.figure_fits (Machine.reachable_of_run hs)⟩

theorem onTrack_demo : ∃ s, (machine .truncated Binary64.round .figure).run ⟨.init, .figure⟩
      demoEvents = some s ∧
    (s.system.process.server.cast.received 1).length = 1 ∧
      OnTrack .truncated .figure (1 / 2 ^ 53) s.system := by
  obtain ⟨s, hs, hlen⟩ : ∃ s, (machine .truncated Binary64.round .figure).run ⟨.init, .figure⟩
      demoEvents = some s ∧ (s.system.process.server.cast.received 1).length = 1 :=
    ⟨_, rfl, rfl⟩
  exact ⟨s, hs, hlen, onTrack_of_reachable Binary64.roundsWithin CMath.truncated_bounded
    CMath.truncated_accurate CoordinateGenerator.figure_fits (by decide +kernel)
    (Machine.reachable_of_run hs)⟩

end GeneratedSystem

end CoordinateStream
