import CoordinateStream.Csv
import CoordinateStream.DataReader
import CoordinateStream.Emission

namespace CoordinateStream

/-! From the updates of the producer to the messages of the subscriber. -/

theorem PublisherProcess.step_written {s t : PublisherProcess} {e : Event}
    (h : machine.step s e = some t) : s.publisher.written <+: t.publisher.written := by
  rcases step_cases h with ⟨a, p, u, -, -, rfl⟩ | ⟨a, p, -, hp, rfl⟩ | ⟨a, w, -, -, rfl⟩
  · exact List.prefix_rfl
  · rcases MessengerPublisherApp.step_written hp with ⟨d, -, -, hw⟩ | ⟨-, hw⟩
    · rw [hw]
      exact List.prefix_append _ _
    · rw [hw]
  · exact List.prefix_rfl

/-- The publisher process, DDS between it and one reader, and the subscriber. -/
structure EndToEnd where
  process : PublisherProcess
  /-- The OK-written samples before this position were delivered or are skipped for good. -/
  served : ℕ
  reader : DataReader

namespace EndToEnd

open MessengerSubscriberApp (coordinates arrivals forward)

inductive Event
  | process (e : PublisherProcess.Event)
  /-- DDS delivers the OK-written sample at a position. -/
  | deliver (i : ℕ)
  | subscriber (e : MessengerSubscriberApp.Event)

def init : EndToEnd := ⟨.init, 0, .init true⟩

/-- The DDS sample of an entry the publisher has written. -/
def sampleOf (e : Sampler.Entry CoordinateData) : Message :=
  MessengerPublisherApp.sample e.item

/-- Delivery is in write order and at most once; samples may be skipped. -/
def step (round : ℚ≥0 → Option ℚ≥0) (s : EndToEnd) : Event → Option EndToEnd
  | .process e => (s.process.step e).map fun p => { s with process := p }
  | .deliver i =>
    if s.served ≤ i then
      (s.process.publisher.written[i]?).map fun e =>
        { s with served := i + 1, reader := s.reader.deliver (sampleOf e) }
    else none
  | .subscriber e => (s.reader.step round e).map fun r => { s with reader := r }

def machine (round : ℚ≥0 → Option ℚ≥0) : Machine EndToEnd Event := ⟨init, step round⟩

variable {round : ℚ≥0 → Option ℚ≥0}

structure Inv (round : ℚ≥0 → Option ℚ≥0) (s : EndToEnd) : Prop where
  process : s.process.Inv
  subscriber : s.reader.subscriber.Inv round true
  received : s.reader.received.Sublist ((s.process.publisher.written.take s.served).map sampleOf)

theorem init_inv : Inv round init :=
  ⟨⟨CoordinateProducer.init_inv, MessengerPublisherApp.init_inv, WebSocketServer.init_inv⟩,
    MessengerSubscriberApp.init_inv true, List.Sublist.refl _⟩

theorem step_inv {s t : EndToEnd} {e : Event} (h : Inv round s) (hs : s.step round e = some t) :
    Inv round t := by
  obtain ⟨hproc, hsub, hrec⟩ := h
  cases e with
  | process e =>
    obtain ⟨p, hp, rfl⟩ := Option.map_eq_some_iff.mp hs
    refine ⟨PublisherProcess.step_inv hproc hp, hsub, hrec.trans ?_⟩
    exact (((PublisherProcess.step_written hp).take _).map _).sublist
  | deliver i =>
    simp only [step, Option.ite_none_right_eq_some, Option.map_eq_some_iff] at hs
    obtain ⟨hi, e, he, rfl⟩ := hs
    refine ⟨hproc, hsub, ?_⟩
    have htake : s.process.publisher.written.take (i + 1) =
        s.process.publisher.written.take i ++ [e] := by
      rw [List.take_add_one, he, Option.toList_some]
    rw [DataReader.deliver_received, htake, List.map_append]
    exact (hrec.trans ((List.take_sublist_take_left hi).map _)).append (List.Sublist.refl _)
  | subscriber e =>
    obtain ⟨r, hr, rfl⟩ := Option.map_eq_some_iff.mp hs
    refine ⟨hproc, MessengerSubscriberApp.step_inv hsub (DataReader.step_eq_some hr).2, ?_⟩
    rw [DataReader.step_received hr]
    exact hrec

theorem inv_of_reachable {s : EndToEnd} (h : (machine round).Reachable s) : Inv round s :=
  h.invariant (I := Inv round) init_inv fun _ hi _ hs => step_inv hi hs

/-- The samples counted by the subscriber are, in order, some of those written. -/
theorem Inv.counted {s : EndToEnd} (h : Inv round s) :
    ∃ es : List (Sampler.Entry CoordinateData), es.Sublist s.process.publisher.written ∧
      s.reader.subscriber.counted.map (·.sample) = es.map sampleOf := by
  have hvalid : (s.reader.subscriber.counted.map (·.sample)).Sublist s.reader.validTaken := by
    apply List.Sublist.map
    rw [MessengerSubscriberApp.counted, MessengerSubscriberApp.taken, List.filter_append]
    refine List.Sublist.trans ?_ (List.sublist_append_left _ _)
    apply List.monotone_filter_right
    intro d hd
    exact (Bool.and_eq_true_iff.mp hd).2
  have hall := (hvalid.trans (List.sublist_append_left _ _)).trans h.received
  obtain ⟨es, hes, heq⟩ := List.sublist_map_iff.mp hall
  exact ⟨es, hes.trans (List.take_sublist _ _), heq⟩

/-- A text carries an update when it is the message of exactly its data, under some
`sample_id`. The coordinates stand in it with eight decimals. -/
def Carries (text : Text) (d : CoordinateData) : Prop :=
  ∃ sampleId, text = MessengerSubscriberApp.Forward.toJson
    ⟨⟨d.longitude, d.latitude, d.timestamp⟩, sampleId⟩

/-- The messages carry, one by one, updates of successively later `update` calls. -/
structure Sound (updates : List CoordinateData) (messages : List Text)
    (es : List (Sampler.Entry CoordinateData)) : Prop where
  fromUpdate : ∀ e ∈ es, Sampler.Names updates e
  later : es.Pairwise fun d e => d.number < e.number
  carries : List.Forall₂ (fun m e => Carries m e.item) messages es

/-- The messages the subscriber passes to `broadcast`. -/
def messages (s : EndToEnd) : List Text :=
  s.reader.subscriber.broadcasts.map (·.item.toJson)

/-- Coordinates that print alike make the same message. -/
theorem toJson_congr {c c' : MessengerSubscriberApp.Coordinates} (sampleId : UInt16)
    (hlon : c.longitude.format 8 = c'.longitude.format 8)
    (hlat : c.latitude.format 8 = c'.latitude.format 8) (ht : c.timestamp = c'.timestamp) :
    MessengerSubscriberApp.Forward.toJson ⟨c, sampleId⟩ =
      MessengerSubscriberApp.Forward.toJson ⟨c', sampleId⟩ := by
  unfold MessengerSubscriberApp.Forward.toJson
  rw [hlon, hlat, ht]

/-- Whatever the interleaving, the messages of the subscriber come from a subsequence of the
`update` calls, with their timestamps and their coordinates rounded to eight decimals. -/
theorem sound_of_reachable (hround : RoundsWithin round) {s : EndToEnd}
    (h : (machine round).Reachable s) (hrange : ∀ d ∈ s.process.shared.updates, d.InRange) :
    ∃ es, Sound s.process.shared.updates s.messages es := by
  have hinv := inv_of_reachable h
  have hsampler := hinv.process.publisher.sampler
  obtain ⟨es, hes, heq⟩ := hinv.counted
  have hnames : ∀ e ∈ es, Sampler.Names s.process.shared.updates e := fun e he =>
    hsampler.names e (hes.subset he)
  have hin : ∀ e ∈ es, e.item.InRange := fun e he =>
    hrange _ (List.mem_of_getElem? (hnames e he).2)
  have hparse : ∀ d ∈ s.reader.subscriber.counted, (coordinates round d.sample).isSome := by
    intro d hd
    have hmem : d.sample ∈ es.map sampleOf := heq ▸ List.mem_map_of_mem hd
    obtain ⟨e, he, hsample⟩ := List.mem_map.mp hmem
    obtain ⟨lon, lat, hc, -⟩ := coordinates_sample hround (hin e he)
    rw [← hsample, sampleOf, hc]
    rfl
  -- arrivals, counted samples and entries run in step
  have hsamples : List.Forall₂ (fun a m => coordinates round m = some a.item)
      (arrivals round s.reader.subscriber.counted)
      (s.reader.subscriber.counted.map (·.sample)) :=
    List.forall₂_map_right_iff.mpr (MessengerSubscriberApp.arrivals_forall₂ hparse)
  rw [heq] at hsamples
  have hentries : List.Forall₂ (fun e a => coordinates round (sampleOf e) = some a.item) es
      (arrivals round s.reader.subscriber.counted) := (List.forall₂_map_right_iff.mp hsamples).flip
  have hboth := (List.forall₂_and_left _ _).mpr ⟨hin, hentries⟩
  refine ⟨es, hnames, hsampler.ordered.sublist hes, ?_⟩
  rw [messages, hinv.subscriber.broadcasts_eq, if_pos rfl, List.map_map,
    List.forall₂_map_left_iff]
  refine (hboth.imp fun e a hea => ?_).flip
  obtain ⟨hr, ha⟩ := hea
  obtain ⟨lon, lat, hc, hlon, hlat⟩ := coordinates_sample hround hr
  rw [sampleOf, hc] at ha
  have hitem : a.item = ⟨lon, lat, e.item.timestamp⟩ := (Option.some.inj ha).symm
  refine ⟨UInt16.ofNat a.number, ?_⟩
  rw [Function.comp_apply, forward, hitem]
  exact toJson_congr _ hlon hlat rfl

/-- An update of the `n`th period of 20 ms. -/
def demoUpdate (n : ℕ) : CoordinateData :=
  ⟨.finite false (107 + n / 4), .finite true (20 + 3 / 4), 1700000000000 + 20 * Int64.ofNat n,
    UInt32.ofNat n⟩

/-- An update is made and the publisher writes it, or fails to. -/
def updateEvents (n : ℕ) (ok : Bool) : List Event :=
  (PublisherProcess.tickEvents (demoUpdate n).longitude (demoUpdate n).latitude
    (demoUpdate n).timestamp ++ PublisherProcess.publishEvents ok).map .process

/-- The subscriber takes the sample of an update and passes it on. -/
def takeEvents (n : ℕ) : List Event :=
  [.stopTest, .take (some ⟨MessengerPublisherApp.sample (demoUpdate n), ⟨.alive, true⟩⟩),
    .process].map .subscriber

/-- Of four updates the first is not written and the third, which was, not delivered. -/
def demoEvents : List Event :=
  PublisherProcess.startEvents.map .process ++ updateEvents 1 false ++ updateEvents 2 true ++
    updateEvents 3 true ++ [.deliver 0] ++ updateEvents 4 true ++ [.deliver 2] ++
    .subscriber .dataAvailable :: takeEvents 2 ++ takeEvents 4

def demoMessages : List Text := [
  "\x7b\"coords\":[107.50000000,-20.75000000],\"time\":1700000000040,\"sample_id\":1\x7d".toList,
  "\x7b\"coords\":[108.00000000,-20.75000000],\"time\":1700000000080,\"sample_id\":2\x7d".toList]

theorem demo_run : ((machine Binary64.round).run init demoEvents).map (fun s =>
    (s.messages, decide (∀ d ∈ s.process.shared.updates, d.InRange))) =
    some (demoMessages, true) := by decide +kernel

theorem sound_demo : ∃ s, (machine Binary64.round).run init demoEvents = some s ∧
    s.messages = demoMessages ∧
    ∃ es, Sound s.process.shared.updates s.messages es := by
  obtain ⟨s, hs, heq⟩ := Option.map_eq_some_iff.mp demo_run
  rw [Prod.mk.injEq, decide_eq_true_eq] at heq
  exact ⟨s, hs, heq.1, sound_of_reachable Binary64.roundsWithin (Machine.reachable_of_run hs)
    heq.2⟩

end EndToEnd

end CoordinateStream
