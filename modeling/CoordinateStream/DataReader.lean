import CoordinateStream.SampleIdentity

namespace CoordinateStream

open MessengerSubscriberApp

/-- The subscriber behind the queue of its reader, which holds what DDS delivered and was
not taken yet. -/
structure DataReader where
  queue : List Message
  subscriber : MessengerSubscriberApp
  deriving DecidableEq

namespace DataReader

def init (ws : Bool) : DataReader := ⟨[], .init ws⟩

/-- The queue after an event. A sample with valid data is the first of the queue; one
without only reports a change of state. -/
def queueAfter (queue : List Message) : MessengerSubscriberApp.Event → Option (List Message)
  | .take (some d) =>
    if d.info.validData = false then some queue
    else if queue.head? = some d.sample then some queue.tail
    else none
  | _ => some queue

def step (round : ℚ≥0 → Option ℚ≥0) (s : DataReader) (e : MessengerSubscriberApp.Event) :
    Option DataReader :=
  (queueAfter s.queue e).bind fun q => (s.subscriber.step round e).map (⟨q, ·⟩)

def deliver (s : DataReader) (m : Message) : DataReader := { s with queue := s.queue ++ [m] }

/-- The samples taken with valid data. -/
def validTaken (s : DataReader) : List Message :=
  (s.subscriber.taken.filter (·.info.validData)).map (·.sample)

/-- All samples delivered so far. -/
def received (s : DataReader) : List Message := s.validTaken ++ s.queue

@[simp] theorem deliver_received (s : DataReader) (m : Message) :
    (s.deliver m).received = s.received ++ [m] := (List.append_assoc _ _ _).symm

theorem step_eq_some {round : ℚ≥0 → Option ℚ≥0} {s t : DataReader}
    {e : MessengerSubscriberApp.Event} (h : s.step round e = some t) :
    queueAfter s.queue e = some t.queue ∧ s.subscriber.step round e = some t.subscriber := by
  obtain ⟨q, hq, hmap⟩ := Option.bind_eq_some_iff.mp h
  obtain ⟨a, ha, rfl⟩ := Option.map_eq_some_iff.mp hmap
  exact ⟨hq, ha⟩

/-- Taking moves samples from the queue to the subscriber, each once and in order. -/
theorem step_received {round : ℚ≥0 → Option ℚ≥0} {s t : DataReader}
    {e : MessengerSubscriberApp.Event} (h : s.step round e = some t) :
    t.received = s.received := by
  obtain ⟨hq, hs⟩ := step_eq_some h
  have htaken := step_taken hs
  rw [received, received, validTaken, validTaken, htaken, List.filter_append, List.map_append,
    List.append_assoc]
  congr 1
  unfold queueAfter at hq
  split at hq
  · next d =>
    split_ifs at hq with hv hhead
    · rw [Option.some.inj hq]
      simp [Event.handed, hv]
    · obtain ⟨rest, hrest⟩ := List.head?_eq_some_iff.mp hhead
      rw [← Option.some.inj hq, hrest]
      simp [Event.handed, hv]
  · next hne =>
    have hnone : e.handed = [] := by
      unfold Event.handed
      split
      · next d => exact (hne d rfl).elim
      · rfl
    rw [Option.some.inj hq, hnone]
    rfl

end DataReader

/-- Where all samples parse, the arrivals are the samples one by one. -/
theorem MessengerSubscriberApp.arrivals_forall₂ {round : ℚ≥0 → Option ℚ≥0} {l : List TakenSample}
    (h : ∀ d ∈ l, (coordinates round d.sample).isSome) :
    List.Forall₂ (fun e d => coordinates round d.sample = some e.item) (arrivals round l) l := by
  induction l using List.reverseRecOn with
  | nil => exact .nil
  | append_singleton l d ih =>
    obtain ⟨c, hc⟩ := Option.isSome_iff_exists.mp (h d (by simp))
    rw [arrivals_concat, hc]
    exact List.rel_append (ih fun x hx => h x (by simp [hx])) (.cons hc .nil)

/-! ### A writer that leaves -/

/-- A reader, its only writer, and the samples between them. -/
structure Reception where
  reader : DataReader
  /-- What `SampleInfo` says of the instance in a `take` now. -/
  instanceState : InstanceState
  /-- Samples written with OK and not delivered yet, and all of them. -/
  transit : List Message
  written : List Message
  deriving DecidableEq

namespace Reception

inductive Event
  /-- A `write` that returns OK. -/
  | write (m : Message)
  | deliver
  /-- The publisher deletes its writer. -/
  | leave (st : InstanceState)
  | subscriber (e : MessengerSubscriberApp.Event)

def init (ws : Bool) : Reception := ⟨.init ws, .alive, [], []⟩

/-- Texts are well formed, delivery is in order, and a `take` sees the instance as it is. -/
def step (round : ℚ≥0 → Option ℚ≥0) (s : Reception) : Event → Option Reception
  | .write m =>
    if s.instanceState = .alive ∧ (coordinates round m).isSome then
      some { s with transit := s.transit ++ [m], written := s.written ++ [m] }
    else none
  | .deliver => match s.transit with
    | m :: rest => some { s with reader := s.reader.deliver m, transit := rest }
    | [] => none
  | .leave st =>
    if s.instanceState = .alive ∧ st ≠ .alive then some { s with instanceState := st } else none
  | .subscriber e =>
    if ∀ d ∈ e.handed, d.info.instanceState = s.instanceState then
      (s.reader.step round e).map fun r => { s with reader := r }
    else none

def machine (round : ℚ≥0 → Option ℚ≥0) (ws : Bool) : Machine Reception Event :=
  ⟨init ws, step round⟩

/-- The valid samples taken while the writer was there. -/
def aliveTaken (s : Reception) : List Message :=
  (s.reader.subscriber.taken.filter TakenSample.counts).map (·.sample)

/-- The valid samples taken after the writer had left. -/
def lateTaken (s : Reception) : List Message :=
  (s.reader.subscriber.taken.filter fun d =>
    d.info.instanceState ≠ .alive && d.info.validData).map (·.sample)

structure Inv (round : ℚ≥0 → Option ℚ≥0) (ws : Bool) (s : Reception) : Prop where
  subscriber : s.reader.subscriber.Inv round ws
  conserved : s.reader.received ++ s.transit = s.written
  wellFormed : ∀ m ∈ s.written, (coordinates round m).isSome
  taken_eq : s.reader.validTaken = s.aliveTaken ++ s.lateTaken
  not_late : s.instanceState = .alive → s.lateTaken = []

variable {round : ℚ≥0 → Option ℚ≥0} {ws : Bool}

theorem init_inv : Inv round ws (init ws) :=
  ⟨MessengerSubscriberApp.init_inv ws, rfl, fun _ hm => absurd hm List.not_mem_nil, rfl,
    fun _ => rfl⟩

/-- What one more sample adds to the three lists of taken samples. -/
theorem takes_inv {s t : Reception} {e : MessengerSubscriberApp.Event} (h : Inv round ws s)
    (hst : t.instanceState = s.instanceState)
    (hseen : ∀ d ∈ e.handed, d.info.instanceState = s.instanceState)
    (htaken : t.reader.subscriber.taken = s.reader.subscriber.taken ++ e.handed) :
    t.reader.validTaken = t.aliveTaken ++ t.lateTaken ∧
      (t.instanceState = .alive → t.lateTaken = []) := by
  have hs := h.taken_eq
  have hl := h.not_late
  simp only [DataReader.validTaken, aliveTaken, lateTaken, htaken, List.filter_append,
    List.map_append, hst] at hs hl ⊢
  by_cases halive : s.instanceState = .alive
  · have hcounts : e.handed.filter TakenSample.counts = e.handed.filter (·.info.validData) :=
      List.filter_congr fun d hd => by simp [TakenSample.counts, hseen d hd, halive]
    have hnone : e.handed.filter (fun d => d.info.instanceState ≠ .alive && d.info.validData) =
        [] := List.filter_eq_nil_iff.mpr fun d hd => by simp [hseen d hd, halive]
    rw [hl halive, List.append_nil] at hs
    rw [hl halive, hcounts, hnone, hs]
    simp
  · have hcounts : e.handed.filter TakenSample.counts = [] :=
      List.filter_eq_nil_iff.mpr fun d hd => by simp [TakenSample.counts, hseen d hd, halive]
    have hvalid : e.handed.filter (fun d => d.info.instanceState ≠ .alive && d.info.validData) =
        e.handed.filter (·.info.validData) :=
      List.filter_congr fun d hd => by simp [hseen d hd, halive]
    rw [hcounts, hvalid, hs]
    simp [halive]

theorem step_inv {s t : Reception} {e : Event} (h : Inv round ws s)
    (hs : s.step round e = some t) : Inv round ws t := by
  cases e with
  | write m =>
    simp only [step, Option.ite_none_right_eq_some, Option.some.injEq] at hs
    obtain ⟨⟨-, hm⟩, rfl⟩ := hs
    refine ⟨h.subscriber, ?_, ?_, h.taken_eq, h.not_late⟩
    · rw [← List.append_assoc, h.conserved]
    · intro m' hm'
      rcases List.mem_append.mp hm' with hm' | hm'
      · exact h.wellFormed m' hm'
      · rw [List.mem_singleton.mp hm']
        exact hm
  | deliver =>
    simp only [step] at hs
    split at hs
    · next m rest htransit =>
      rw [← Option.some.inj hs]
      refine ⟨h.subscriber, ?_, h.wellFormed, h.taken_eq, h.not_late⟩
      rw [DataReader.deliver_received, List.append_assoc, List.singleton_append, ← htransit]
      exact h.conserved
    · cases hs
  | leave st =>
    simp only [step, Option.ite_none_right_eq_some, Option.some.injEq] at hs
    obtain ⟨⟨-, hst⟩, rfl⟩ := hs
    exact ⟨h.subscriber, h.conserved, h.wellFormed, h.taken_eq, fun ha => absurd ha hst⟩
  | subscriber e =>
    simp only [step, Option.ite_none_right_eq_some, Option.map_eq_some_iff] at hs
    obtain ⟨hseen, r, hr, rfl⟩ := hs
    have hsub := (DataReader.step_eq_some hr).2
    have htakes := takes_inv (t := { s with reader := r }) h rfl hseen (step_taken hsub)
    refine ⟨MessengerSubscriberApp.step_inv h.subscriber hsub, ?_, h.wellFormed, htakes.1,
      htakes.2⟩
    rw [DataReader.step_received hr]
    exact h.conserved

theorem inv_of_reachable {s : Reception} (h : (machine round ws).Reachable s) :
    Inv round ws s :=
  h.invariant (I := Inv round ws) init_inv fun _ hi _ hs => step_inv hi hs

/-- Each sample of a list was passed on once, in order. -/
def Forwarded (round : ℚ≥0 → Option ℚ≥0) (s : Reception) (l : List TakenSample) : Prop :=
  List.Forall₂ (fun e d => coordinates round d.sample = some e.item.coords)
    s.reader.subscriber.broadcasts l

/-- No valid sample is lost: all that were taken and processed are counted and passed on. -/
def NoneLost (round : ℚ≥0 → Option ℚ≥0) (s : Reception) : Prop :=
  s.reader.subscriber.samplesReceived = UInt16.ofNat
      (s.reader.subscriber.processed.filter (·.info.validData)).length ∧
    s.Forwarded round (s.reader.subscriber.processed.filter (·.info.validData))

/-- What becomes of the valid samples: those taken while the writer was there are counted and,
with a server set, passed on; those taken later are not. -/
structure Kept (round : ℚ≥0 → Option ℚ≥0) (s : Reception) : Prop where
  count : s.reader.subscriber.samplesReceived = UInt16.ofNat s.reader.subscriber.counted.length
  forwarded : s.reader.subscriber.wsServer = true →
    s.Forwarded round s.reader.subscriber.counted
  accounted : s.aliveTaken ++ s.lateTaken ++ s.reader.queue ++ s.transit = s.written
  not_late : s.instanceState = .alive → s.lateTaken = []

/-- Every sample taken with valid data before the writer left is kept. -/
theorem kept_of_reachable {s : Reception} (h : (machine round ws).Reachable s) :
    Kept round s := by
  obtain ⟨hsub, hcons, hwf, htaken, hlate⟩ := inv_of_reachable h
  refine ⟨hsub.count, ?_, ?_, hlate⟩
  · intro hws
    have hparse : ∀ d ∈ s.reader.subscriber.counted, (coordinates round d.sample).isSome := by
      intro d hd
      obtain ⟨hproc, hcounts⟩ := List.mem_filter.mp hd
      apply hwf
      rw [← hcons]
      apply List.mem_append_left
      apply List.mem_append_left
      refine List.mem_map_of_mem (List.mem_filter.mpr ⟨List.mem_append_left _ hproc, ?_⟩)
      exact (Bool.and_eq_true_iff.mp hcounts).2
    rw [Forwarded, hsub.broadcasts_eq, ← hsub.wsServer_eq, if_pos hws, List.forall₂_map_left_iff]
    exact arrivals_forall₂ hparse
  · rw [← htaken]
    exact hcons

def takeEvents (d : TakenSample) : List Event :=
  [.stopTest, .take (some d), .process].map .subscriber

/-- One sample is taken before the writer leaves, one that was delivered as well after it. -/
def demoEvents : List Event :=
  [.write demoSample.sample, .write demoSample.sample, .deliver, .deliver,
    .subscriber .dataAvailable] ++ takeEvents demoSample ++ [.leave .notAliveNoWriters] ++
    takeEvents { demoSample with info := ⟨.notAliveNoWriters, true⟩ }

theorem demo_run : ((machine Binary64.round true).run (init true) demoEvents).map (fun s =>
    (s.reader.subscriber.stop, s.reader.subscriber.samplesReceived,
      (s.reader.subscriber.processed.filter (·.info.validData)).length)) =
    some (false, 1, 2) := by decide +kernel

theorem kept_demo : ∃ s, (machine Binary64.round true).run (init true) demoEvents = some s ∧
    s.reader.subscriber.samplesReceived = 1 ∧ Kept Binary64.round s := by
  obtain ⟨s, hs, heq⟩ := Option.map_eq_some_iff.mp demo_run
  simp only [Prod.mk.injEq] at heq
  obtain ⟨-, hcount, -⟩ := heq
  exact ⟨s, hs, hcount, kept_of_reachable (Machine.reachable_of_run hs)⟩

/-- A valid sample is lost when the writer leaves before the subscriber takes it. -/
theorem lost_after_leave : ∃ s, (machine Binary64.round true).Reachable s ∧
    s.reader.subscriber.stop = false ∧ ¬NoneLost Binary64.round s := by
  obtain ⟨s, hs, heq⟩ := Option.map_eq_some_iff.mp demo_run
  simp only [Prod.mk.injEq] at heq
  obtain ⟨hstop, hcount, hvalid⟩ := heq
  refine ⟨s, Machine.reachable_of_run hs, hstop, fun hnone => ?_⟩
  have hall := hnone.1
  rw [hcount, hvalid] at hall
  exact absurd hall (by decide)

end Reception

end CoordinateStream
