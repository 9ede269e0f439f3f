import CoordinateStream.Delivery
import CoordinateStream.WholeSystem

namespace CoordinateStream

/-! What becomes of an update in the end: on a well served execution its data, or that of a
later update, comes out at the clients of the subscriber. -/

theorem Sampler.exists_of_le_lastNumber {α : Type*} {taken : List (Entry α)} {k : ℕ} (hpos : 0 < k)
    (h : k ≤ lastNumber taken) :
    ∃ (i : ℕ) (e : Entry α), taken[i]? = some e ∧ k ≤ e.number := by
  rw [lastNumber] at h
  cases hl : taken.getLast? with
  | none =>
    rw [hl, Option.map_none, Option.getD_none] at h
    omega
  | some e =>
    rw [hl, Option.map_some, Option.getD_some] at h
    rw [List.getLast?_eq_getElem?] at hl
    exact ⟨_, e, hl, h⟩

namespace DataReader

/-- The samples delivered so far, those taken first. -/
def arrived (s : DataReader) : List Message := s.subscriber.taken.map (·.sample) ++ s.queue

@[simp] theorem deliver_arrived (s : DataReader) (m : Message) :
    (s.deliver m).arrived = s.arrived ++ [m] := (List.append_assoc _ _ _).symm

/-- A `take` hands over the first sample queued as long as there is one, alive and with its
data. -/
def Orderly (s : DataReader) : MessengerSubscriberApp.Event → Prop
  | .take r => r = s.queue.head?.map (⟨·, ⟨.alive, true⟩⟩)
  | _ => True

theorem step_orderly {round : ℚ≥0 → Option ℚ≥0} {s t : DataReader}
    {e : MessengerSubscriberApp.Event} (h : s.step round e = some t) (he : s.Orderly e) :
    t.arrived = s.arrived ∧ ∀ d ∈ t.subscriber.taken, d ∈ s.subscriber.taken ∨ d.counts = true := by
  obtain ⟨hq, hs⟩ := step_eq_some h
  have htaken := MessengerSubscriberApp.step_taken hs
  by_cases htake : ∃ d, e = .take (some d)
  · obtain ⟨d, rfl⟩ := htake
    obtain ⟨m, hm, rfl⟩ := Option.map_eq_some_iff.mp (Eq.symm he)
    obtain ⟨rest, hrest⟩ := List.head?_eq_some_iff.mp hm
    have hqueue : t.queue = rest := by
      simpa [queueAfter, hrest] using hq.symm
    constructor
    · simp [arrived, htaken, hqueue, hrest, MessengerSubscriberApp.Event.handed]
    · intro d hd
      rw [htaken] at hd
      refine (List.mem_append.mp hd).imp_right fun hd => ?_
      rw [List.mem_singleton.mp hd]
      rfl
  -- every other event leaves the queue and the samples taken alone
  · have hnone : e.handed = [] := by
      unfold MessengerSubscriberApp.Event.handed
      split
      · next d => exact absurd ⟨d, rfl⟩ htake
      · rfl
    have hqueue : t.queue = s.queue := by
      unfold queueAfter at hq
      split at hq
      · next d => exact absurd ⟨d, rfl⟩ htake
      · exact (Option.some.inj hq).symm
    rw [hnone, List.append_nil] at htaken
    constructor
    · rw [arrived, htaken, hqueue, arrived]
    · rw [htaken]
      exact fun d hd => .inl hd

end DataReader

namespace EndToEnd

open MessengerSubscriberApp (coordinates arrivals forward)

variable {round : ℚ≥0 → Option ℚ≥0}

/-- DDS leaves out no sample on the way to an orderly reader. -/
def Orderly (s : EndToEnd) : Event → Prop
  | .process _ => True
  | .deliver i => i = s.served
  | .subscriber e => s.reader.Orderly e

/-- The samples so far went their way in an orderly manner. -/
structure Gapless (s : EndToEnd) : Prop where
  served : s.served ≤ s.process.publisher.written.length
  arrived : s.reader.arrived = (s.process.publisher.written.take s.served).map sampleOf
  counts : ∀ d ∈ s.reader.subscriber.taken, d.counts = true

theorem init_gapless : Gapless init := ⟨le_refl _, rfl, fun _ hd => absurd hd List.not_mem_nil⟩

theorem step_gapless {s t : EndToEnd} {e : Event} (h : s.Gapless) (he : s.Orderly e)
    (ht : s.step round e = some t) : t.Gapless := by
  obtain ⟨hserved, harrived, hcounts⟩ := h
  cases e with
  | process e =>
    obtain ⟨p, hp, rfl⟩ := Option.map_eq_some_iff.mp ht
    obtain ⟨more, hmore⟩ := PublisherProcess.step_written hp
    refine ⟨?_, ?_, hcounts⟩
    · exact hserved.trans (hmore ▸ List.length_append ▸ Nat.le_add_right _ _)
    · rw [← hmore, List.take_append_of_le_length hserved]
      exact harrived
  | deliver i =>
    simp only [step, Option.ite_none_right_eq_some, Option.map_eq_some_iff] at ht
    obtain ⟨-, e, hget, rfl⟩ := ht
    obtain rfl : i = s.served := he
    refine ⟨(List.getElem?_eq_some_iff.mp hget).1, ?_, hcounts⟩
    rw [DataReader.deliver_arrived, harrived, List.take_add_one, hget, List.map_append]
    rfl
  | subscriber e =>
    obtain ⟨r, hr, rfl⟩ := Option.map_eq_some_iff.mp ht
    obtain ⟨hsame, htaken⟩ := DataReader.step_orderly hr he
    exact ⟨hserved, hsame.trans harrived, fun d hd => (htaken d hd).elim (hcounts d) id⟩

theorem Gapless.length_arrived {s : EndToEnd} (h : s.Gapless) :
    s.reader.subscriber.taken.length + s.reader.queue.length = s.served := by
  have hlen := congrArg List.length h.arrived
  simp only [DataReader.arrived, List.length_append, List.length_map, List.length_take] at hlen
  have := h.served
  omega

theorem step_written_getElem? {s t : EndToEnd} {e : Event} {i : ℕ}
    {d : Sampler.Entry CoordinateData} (h : s.process.publisher.written[i]? = some d)
    (ht : s.step round e = some t) : t.process.publisher.written[i]? = some d := by
  cases e with
  | process e =>
    obtain ⟨p, hp, rfl⟩ := Option.map_eq_some_iff.mp ht
    obtain ⟨more, hmore⟩ := PublisherProcess.step_written hp
    rw [← hmore, List.getElem?_append_left (List.getElem?_eq_some_iff.mp h).1]
    exact h
  | deliver j =>
    simp only [step, Option.ite_none_right_eq_some, Option.map_eq_some_iff] at ht
    obtain ⟨-, m, -, rfl⟩ := ht
    exact h
  | subscriber e =>
    obtain ⟨r, -, rfl⟩ := Option.map_eq_some_iff.mp ht
    exact h

def isDelivery : Event → Bool
  | .deliver _ => true
  | _ => false

/-- What is written is delivered. -/
theorem delivering (i : ℕ) : (machine round).Progress (fun _ _ => True)
    (fun s => i < s.process.publisher.written.length) (fun _ e => isDelivery e = true)
    (fun s => i + 1 - s.served) fun s => i < s.served where
  step := by
    intro s t e hs hnot _ ht
    cases e with
    | process e =>
      obtain ⟨p, hp, rfl⟩ := Option.map_eq_some_iff.mp ht
      have hle := (PublisherProcess.step_written hp).length_le
      exact .inr ⟨hs.trans_le hle, le_refl _, by simp [isDelivery]⟩
    | deliver j =>
      simp only [machine, step, Option.ite_none_right_eq_some, Option.map_eq_some_iff] at ht
      obtain ⟨hj, e, -, rfl⟩ := ht
      have hlt : i + 1 - (j + 1) < i + 1 - s.served := by omega
      exact .inr ⟨hs, hlt.le, fun _ => hlt⟩
    | subscriber e =>
      obtain ⟨r, -, rfl⟩ := Option.map_eq_some_iff.mp ht
      exact .inr ⟨hs, le_refl _, by simp [isDelivery]⟩
  enabled := by
    intro s hs hnot
    have hget := List.getElem?_eq_getElem (hs.trans_le' (not_lt.mp hnot))
    obtain ⟨t, ht⟩ : ∃ t, step round s (.deliver s.served) = some t := by
      rw [step, if_pos (le_refl _), hget]
      exact ⟨_, rfl⟩
    exact ⟨.deliver s.served, t, rfl, ht⟩

/-- The statements of `on_data_available`, which is called where a sample waits. -/
def CallsBack (s : EndToEnd) : Event → Prop
  | .subscriber .dataAvailable => s.reader.queue ≠ []
  | .subscriber .stopTest | .subscriber (.take _) | .subscriber .process => True
  | _ => False

/-- The steps of the callback until it has processed a sample that waits. -/
def toProcessed : MessengerSubscriberApp.CallbackPc → ℕ
  | .process _ | .escaped => 0
  | .take => 1
  | .stopTest => 2
  | .idle => 3

/-- The sample at a position was delivered, and nothing stands in the way of the callback. -/
structure Queued (round : ℚ≥0 → Option ℚ≥0) (i : ℕ) (s : EndToEnd) : Prop where
  inv : Inv round s
  gapless : s.Gapless
  untroubled : s.reader.subscriber.Untroubled
  served : i < s.served

/-- A sample waits as long as the callback has not taken the one at this position. -/
theorem Queued.waits {i : ℕ} {s : EndToEnd} (h : s.Queued round i)
    (hle : s.reader.subscriber.taken.length ≤ i) : s.reader.queue ≠ [] := by
  have hlen := h.gapless.length_arrived
  have hserved := h.served
  intro hnil
  rw [hnil, List.length_nil] at hlen
  omega

/-- What the callback has left to do for the sample at a position. -/
def callbackLeft (i : ℕ) (s : EndToEnd) : ℕ :=
  4 * (i + 1 - s.reader.subscriber.processed.length) + toProcessed s.reader.subscriber.callback

theorem step_callbackLeft {i : ℕ} {s : EndToEnd} (hs : s.Queued round i)
    (hi : s.reader.subscriber.processed.length ≤ i) (hstop : s.reader.subscriber.stop = false)
    {e : MessengerSubscriberApp.Event} (he : s.reader.Orderly e) {r : DataReader}
    (hr : s.reader.step round e = some r) (hescaped : r.subscriber.callback ≠ .escaped) :
    callbackLeft i { s with reader := r } ≤ s.callbackLeft i ∧
      (s.CallsBack (.subscriber e) →
        callbackLeft i { s with reader := r } < s.callbackLeft i) := by
  obtain ⟨-, hsub⟩ := DataReader.step_eq_some hr
  have hfall (hlt : callbackLeft i { s with reader := r } < s.callbackLeft i) :
      callbackLeft i { s with reader := r } ≤ s.callbackLeft i ∧
        (s.CallsBack (.subscriber e) →
          callbackLeft i { s with reader := r } < s.callbackLeft i) := ⟨hlt.le, fun _ => hlt⟩
  cases e with
  | dataAvailable =>
    simp only [MessengerSubscriberApp.step, Option.ite_none_right_eq_some,
      Option.some.injEq] at hsub
    apply hfall
    simp [callbackLeft, ← hsub.2, hsub.1, toProcessed]
  | stopTest =>
    simp only [MessengerSubscriberApp.step, Option.ite_none_right_eq_some,
      Option.some.injEq] at hsub
    apply hfall
    simp [callbackLeft, ← hsub.2, hsub.1, hstop, toProcessed]
  | take d =>
    simp only [MessengerSubscriberApp.step, Option.ite_none_right_eq_some,
      Option.some.injEq] at hsub
    -- the sample still waits, so an orderly `take` does not come back empty
    have htaken : s.reader.subscriber.taken.length ≤ i := by
      simpa [MessengerSubscriberApp.taken, hsub.1] using hi
    obtain ⟨m, rest, hqueue⟩ := List.exists_cons_of_ne_nil (hs.waits htaken)
    have hd : d = some ⟨m, ⟨.alive, true⟩⟩ := by
      rw [show d = _ from he, hqueue]
      rfl
    apply hfall
    simp [callbackLeft, ← hsub.2, hsub.1, hd, toProcessed]
  | process =>
    simp only [MessengerSubscriberApp.step] at hsub
    split at hsub
    · next d hpc =>
      rw [Option.some.injEq] at hsub
      have hcallback : r.subscriber.callback = .stopTest := by
        have hcases : (s.reader.subscriber.processSample round d).callback = .stopTest ∨
            (s.reader.subscriber.processSample round d).callback = .escaped := by
          unfold MessengerSubscriberApp.processSample
          split
          · split <;> simp
          · simp
        rw [hsub] at hcases
        exact hcases.resolve_right hescaped
      apply hfall
      simp only [callbackLeft, hcallback, hpc, toProcessed]
      rw [← hsub, MessengerSubscriberApp.processSample_processed, List.length_append,
        List.length_singleton]
      omega
    · cases hsub
  | run =>
    obtain ⟨pc, hpc⟩ := MessengerSubscriberApp.runStep_frame hsub
    refine ⟨?_, False.elim⟩
    simp [callbackLeft, hpc]
  | stopStore =>
    refine ⟨?_, False.elim⟩
    simp [callbackLeft, ← Option.some.inj hsub]
  | stopNotify =>
    simp only [MessengerSubscriberApp.step, Option.ite_none_right_eq_some,
      Option.some.injEq] at hsub
    refine ⟨?_, False.elim⟩
    simp [callbackLeft, ← hsub.2]

/-- What is delivered is processed, unless the subscriber is stopped. -/
theorem processing (hround : RoundsWithin round) (i : ℕ) : (machine round).Progress
    (fun s e => s.Orderly e ∧ ∀ d ∈ s.process.shared.updates, d.InRange) (Queued round i)
    CallsBack (callbackLeft i) fun s =>
      i < s.reader.subscriber.processed.length ∨ s.reader.subscriber.stop = true where
  step := by
    rintro s t e hs hnot ⟨he, hrange⟩ ht
    obtain ⟨hi, hstop⟩ := not_or.mp hnot
    have hqueued (hserved : s.served ≤ t.served) : t.Queued round i :=
      ⟨step_inv hs.inv ht, step_gapless hs.gapless he ht,
        step_untroubled hround hs.inv hrange hs.untroubled ht, hs.served.trans_le hserved⟩
    cases e with
    | process e =>
      obtain ⟨p, -, rfl⟩ := Option.map_eq_some_iff.mp ht
      exact .inr ⟨hqueued (le_refl _), le_refl _, False.elim⟩
    | deliver j =>
      have ht' := ht
      simp only [machine, step, Option.ite_none_right_eq_some, Option.map_eq_some_iff] at ht'
      obtain ⟨hj, m, -, rfl⟩ := ht'
      exact .inr ⟨hqueued (Nat.le_succ_of_le hj), le_refl _, False.elim⟩
    | subscriber e =>
      obtain ⟨r, hr, rfl⟩ := Option.map_eq_some_iff.mp ht
      have hnext := hqueued (le_refl _)
      exact .inr ⟨hnext, step_callbackLeft hs (not_lt.mp hi) (Bool.not_eq_true _ ▸ hstop) he hr
        hnext.untroubled.notEscaped⟩
  enabled := by
    intro s hs hnot
    obtain ⟨hi, -⟩ := not_or.mp hnot
    have hwaits : s.reader.subscriber.callback = .idle ∨ s.reader.subscriber.callback = .take →
        s.reader.queue ≠ [] := by
      intro hpc
      apply hs.waits
      rcases hpc with hpc | hpc <;>
        simpa [MessengerSubscriberApp.taken, hpc] using hi
    have hsome {e : MessengerSubscriberApp.Event} (hcalls : s.CallsBack (.subscriber e))
        (hstep : (s.reader.step round e).isSome) :
        ∃ a t, s.CallsBack a ∧ (machine round).step s a = some t := by
      obtain ⟨r, hr⟩ := Option.isSome_iff_exists.mp hstep
      refine ⟨_, { s with reader := r }, hcalls, ?_⟩
      simp [machine, step, hr]
    cases hpc : s.reader.subscriber.callback with
    | idle =>
      refine hsome (e := .dataAvailable) (hwaits (.inl hpc)) ?_
      simp [DataReader.step, DataReader.queueAfter, MessengerSubscriberApp.step, hpc]
    | stopTest =>
      refine hsome (e := .stopTest) trivial ?_
      simp [DataReader.step, DataReader.queueAfter, MessengerSubscriberApp.step, hpc]
    | take =>
      obtain ⟨m, rest, hqueue⟩ := List.exists_cons_of_ne_nil (hwaits (.inr hpc))
      refine hsome (e := .take (some ⟨m, ⟨.alive, true⟩⟩)) trivial ?_
      simp [DataReader.step, DataReader.queueAfter, MessengerSubscriberApp.step, hpc, hqueue]
    | process d =>
      refine hsome (e := .process) trivial ?_
      simp [DataReader.step, DataReader.queueAfter, MessengerSubscriberApp.step, hpc]
    | escaped => exact absurd hpc hs.untroubled.notEscaped

/-- A message that went to the clients of the subscriber carries the update `k` or a later
one. -/
def Forwarded (k : ℕ) (s : EndToEnd) : Prop :=
  ∃ text ∈ s.messages, ∃ e, Sampler.Names s.process.shared.updates e ∧ k ≤ e.number ∧
    Carries text e.item

/-- A processed sample has gone to the clients with the data of the update it was made from. -/
theorem forwarded_of_processed (hround : RoundsWithin round) {s : EndToEnd} (h : Inv round s)
    (hgapless : s.Gapless) (hrange : ∀ d ∈ s.process.shared.updates, d.InRange) {i k : ℕ}
    (hi : i < s.reader.subscriber.processed.length) {e : Sampler.Entry CoordinateData}
    (he : s.process.publisher.written[i]? = some e) (hk : k ≤ e.number) : s.Forwarded k := by
  have hcounts := hgapless.counts
  have hlen := hgapless.length_arrived
  obtain ⟨d, hd⟩ : ∃ d, s.reader.subscriber.processed[i]? = some d :=
    ⟨_, List.getElem?_eq_getElem hi⟩
  have htaken : s.reader.subscriber.taken[i]? = some d := by
    rw [MessengerSubscriberApp.taken, List.getElem?_append_left hi, hd]
  have hi' : i < s.reader.subscriber.taken.length := (List.getElem?_eq_some_iff.mp htaken).1
  -- the samples come in the order in which they were written
  have hsample : d.sample = sampleOf e := by
    have harrived : s.reader.arrived[i]? = some d.sample := by
      rw [DataReader.arrived, List.getElem?_append_left (by rwa [List.length_map]),
        List.getElem?_map, htaken]
      rfl
    rw [hgapless.arrived, List.getElem?_map, List.getElem?_take_of_lt (by omega), he] at harrived
    exact (Option.some.inj harrived).symm
  have hcounted : s.reader.subscriber.counted = s.reader.subscriber.processed :=
    List.filter_eq_self.mpr fun c hc => hcounts c (List.mem_append_left _ hc)
  have hnames := h.process.publisher.sampler.names e (List.mem_of_getElem? he)
  obtain ⟨lon, lat, hc, hlon, hlat⟩ :=
    coordinates_sample hround (hrange _ (List.mem_of_getElem? hnames.2))
  have harrival : (⟨i + 1, ⟨lon, lat, e.item.timestamp⟩⟩ : Sampler.Entry _) ∈
      arrivals round s.reader.subscriber.counted := by
    rw [hcounted]
    exact MessengerSubscriberApp.mem_arrivals.mpr ⟨i, d, hd, by rw [hsample]; exact hc, rfl⟩
  refine ⟨(forward ⟨i + 1, ⟨lon, lat, e.item.timestamp⟩⟩).item.toJson, ?_, e, hnames, hk,
    UInt16.ofNat (i + 1), toJson_congr _ hlon hlat rfl⟩
  rw [messages, h.subscriber.broadcasts_eq, if_pos rfl, List.map_map]
  exact List.mem_map_of_mem harrival

/-! ### The three stages together -/

def isTurn : Event → Bool
  | .process e => PublisherProcess.isTurn e
  | _ => false

/-- A `write` of the publisher that returns OK. -/
def WritesOk (s : EndToEnd) : Event → Prop
  | .process e => s.process.WritesOk e
  | _ => False

/-- DDS reports a further reader. -/
def MatchesReader : Event → Prop
  | .process e => PublisherProcess.MatchesReader e
  | _ => False

/-- An execution on which all three parties are served: the thread of the publisher goes on,
DDS accepts and delivers what is written in an orderly manner, and calls the subscriber back. -/
structure Serviced (x : (machine round).Execution) : Prop where
  start : x.state 0 = init
  orderly : x.From 0 Orderly
  inRange : ∀ n, ∀ d ∈ (x.state n).process.shared.updates, d.InRange
  publisher : x.Fair isTurn
  accepted : x.Compassionate WritesOk
  delivered : x.Fair isDelivery
  calledBack : x.Just CallsBack

variable {x : (machine round).Execution}

theorem Serviced.reachable (h : Serviced x) (n : ℕ) : (machine round).Reachable (x.state n) :=
  x.reachable (h.start ▸ .init) (Nat.zero_le n)

theorem Serviced.gapless (h : Serviced x) (n : ℕ) : (x.state n).Gapless := by
  refine x.always (P := Gapless) (n := 0) (h.start ▸ init_gapless) ?_ (Nat.zero_le n)
  exact fun m a hm hg he => step_gapless hg (h.orderly m a hm he) (x.step m a he)

theorem Serviced.untroubled (hround : RoundsWithin round) (h : Serviced x) (n : ℕ) :
    (x.state n).reader.subscriber.Untroubled := by
  refine x.always (P := fun s => s.reader.subscriber.Untroubled) (n := 0) ?_ ?_ (Nat.zero_le n)
  · rw [h.start]
    exact MessengerSubscriberApp.init_untroubled true
  · intro m a _ hu he
    exact step_untroubled hround (inv_of_reachable (h.reachable m)) (h.inRange m) hu
      (x.step m a he)

/-- The publisher of a serviced execution is served as it is without a subscriber. -/
theorem Serviced.written (h : Serviced x) {n k : ℕ}
    (henv : x.From n fun _ e => ¬MatchesReader e) (hwoken : (x.state n).process.publisher.Woken)
    (hmade : k ≤ (x.state n).process.shared.updates.length) :
    ∃ m, n ≤ m ∧ (¬(x.state m).process.Publishes ∨
      k ≤ Sampler.lastNumber (x.state m).process.publisher.written) := by
  -- a step of the process alone is one of the whole, so fairness carries over
  have hlift {s : EndToEnd} {b : PublisherProcess.Event} {t : PublisherProcess}
      (ht : PublisherProcess.machine.step s.process b = some t) :
      (machine round).step s (.process b) = some { s with process := t } := by
    show (s.process.step b).map _ = _
    rw [show s.process.step b = some t from ht, Option.map_some]
  have hfair : ((processRefinement round).execution x (h.reachable 0)).Fair
      PublisherProcess.isTurn := by
    show Machine.Execution.Just _ fun _ e => PublisherProcess.isTurn e = true
    apply Machine.Refinement.execution_just h.publisher.just
    · intro s b t hb ht
      exact ⟨.process b, _, hb, hlift ht⟩
    · intro s a ha
      cases a with
      | process b => exact ⟨b, rfl, ha⟩
      | _ => cases ha
  have hok : ((processRefinement round).execution x (h.reachable 0)).Compassionate
      PublisherProcess.WritesOk := by
    apply Machine.Refinement.execution_compassionate h.accepted
    · intro s b t hb ht
      exact ⟨.process b, _, hb, hlift ht⟩
    · intro s a ha
      cases a with
      | process b => exact ⟨b, rfl, ha⟩
      | _ => cases ha
  refine PublisherProcess.update_written hfair hok (n := n) (process_reachable (h.reachable n)) ?_
    hwoken hmade
  intro m b hm hb
  obtain ⟨a, ha, hl⟩ := Option.bind_eq_some_iff.mp hb
  cases a with
  | process c =>
    rw [← Option.some.inj hl]
    exact henv m _ hm ha
  | _ => cases hl

/-- On a serviced execution every update comes out at the clients of the subscriber, or a later
one in its place, unless a party is stopped, the readers go away or the sequence wraps first. -/
theorem forwarded_in_the_end (hround : RoundsWithin round) (h : Serviced x) {n k : ℕ}
    (henv : x.From n fun _ e => ¬MatchesReader e) (hwoken : (x.state n).process.publisher.Woken)
    (hpos : 0 < k) (hmade : k ≤ (x.state n).process.shared.updates.length) :
    ∃ m, n ≤ m ∧ (¬(x.state m).process.Publishes ∨ (x.state m).reader.subscriber.stop = true ∨
      (x.state m).Forwarded k) := by
  obtain ⟨m₁, hm₁, hpub | hlast⟩ := h.written henv hwoken hmade
  · exact ⟨m₁, hm₁, .inl hpub⟩
  · obtain ⟨i, e, he, hk⟩ := Sampler.exists_of_le_lastNumber hpos hlast
    have hwritten := (List.getElem?_eq_some_iff.mp he).1
    obtain ⟨m₂, hm₂, hserved⟩ := (delivering i).exists_done h.delivered.just
      (fun _ _ _ _ => trivial) hwritten
    obtain ⟨m₃, hm₃, hdone⟩ := (processing hround i).exists_done h.calledBack
      (fun m a _ ha => ⟨h.orderly m a (Nat.zero_le m) ha, h.inRange m⟩)
      ⟨inv_of_reachable (h.reachable m₂), h.gapless m₂, h.untroubled hround m₂, hserved⟩
    refine ⟨m₃, by omega, .inr ?_⟩
    rcases hdone with hprocessed | hstop
    · -- what was written at a position stays there
      have he' : (x.state m₃).process.publisher.written[i]? = some e := by
        refine x.always (P := fun s => s.process.publisher.written[i]? = some e) he ?_
          (hm₂.trans hm₃)
        intro m a _ hget ha
        exact step_written_getElem? hget (x.step m a ha)
      exact .inr (forwarded_of_processed hround (inv_of_reachable (h.reachable m₃)) (h.gapless m₃)
        (h.inRange m₃) hprocessed he' hk)
    · exact .inl hstop

/-! ### An update that comes out -/

instance (s : DataReader) (e : MessengerSubscriberApp.Event) : Decidable (s.Orderly e) := by
  unfold DataReader.Orderly
  split <;> infer_instance

instance (s : EndToEnd) (e : Event) : Decidable (s.Orderly e) := by
  unfold Orderly
  split <;> infer_instance

/-- The updates made by some time are among those made later. -/
theorem updates_prefix (x : (machine round).Execution) {n m : ℕ} (hle : n ≤ m) :
    (x.state n).process.shared.updates <+: (x.state m).process.shared.updates := by
  refine x.always (P := fun s => (x.state n).process.shared.updates <+: s.process.shared.updates)
    List.prefix_rfl ?_ hle
  intro l a _ hprefix ha
  have ht := x.step l a ha
  cases a with
  | process e =>
    obtain ⟨p, hp, heq⟩ := Option.map_eq_some_iff.mp ht
    rw [← heq]
    exact hprefix.trans (PublisherProcess.step_updates hp)
  | deliver i =>
    simp only [machine, step, Option.ite_none_right_eq_some, Option.map_eq_some_iff] at ht
    obtain ⟨-, e, -, heq⟩ := ht
    rw [← heq]
    exact hprefix
  | subscriber e =>
    obtain ⟨r, -, heq⟩ := Option.map_eq_some_iff.mp ht
    rw [← heq]
    exact hprefix

def madeEvents : List Event :=
  (PublisherProcess.startEvents ++ PublisherProcess.tickEvents (demoUpdate 1).longitude
    (demoUpdate 1).latitude (demoUpdate 1).timestamp).map .process

open MessengerPublisherApp.Event in
/-- An update is written, and the publisher stops. -/
def writtenEvents : List PublisherProcess.Event :=
  PublisherProcess.publishEvents true ++
    (stopStore :: stopNotify :: List.replicate 6 (thread true)).map .publisher

/-- The update goes its way. -/
def forwardEvents : List Event :=
  writtenEvents.map .process ++ .deliver 0 ::
    .subscriber .dataAvailable :: takeEvents 1 ++ [.stopTest, .take none].map .subscriber

/-- Nothing of what is served can happen any more. -/
def AtRest (s : EndToEnd) : Prop :=
  s.process.publisher.pc = .finished ∧ s.process.publisher.matchNotifying = 0 ∧
    s.process.publisher.written.length = s.served ∧ s.reader.subscriber.callback = .idle ∧
    s.reader.queue = []

instance (s : EndToEnd) : Decidable s.AtRest := by
  unfold AtRest
  infer_instance

theorem AtRest.turn {s u : EndToEnd} (h : s.AtRest) {e : Event} (he : isTurn e = true) :
    s.step round e ≠ some u := by
  obtain ⟨hpc, hidle, -⟩ := h
  cases e with
  | process e =>
    cases e with
    | publisher e =>
      cases e <;> simp [isTurn, PublisherProcess.isTurn, MessengerPublisherApp.Event.isTurn, step,
        PublisherProcess.step, MessengerPublisherApp.step, MessengerPublisherApp.threadStep, hpc,
        hidle] at he ⊢
    | _ => cases he
  | _ => cases he

theorem AtRest.delivery {s u : EndToEnd} (h : s.AtRest) {e : Event} (he : isDelivery e = true) :
    s.step round e ≠ some u := by
  obtain ⟨-, -, hserved, -⟩ := h
  cases e with
  | deliver i =>
    simp only [step]
    split_ifs with hi
    · rw [List.getElem?_eq_none (hserved.trans_le hi)]
      simp
    · simp
  | _ => cases he

theorem AtRest.callback {s u : EndToEnd} (h : s.AtRest) {e : Event} (he : s.CallsBack e) :
    s.step round e ≠ some u := by
  obtain ⟨-, -, -, hidle, hqueue⟩ := h
  cases e with
  | subscriber e =>
    cases e with
    | dataAvailable => exact absurd hqueue he
    | stopTest | process =>
      simp [step, DataReader.step, DataReader.queueAfter, MessengerSubscriberApp.step, hidle]
    | take r =>
      simp [step, DataReader.step, MessengerSubscriberApp.step, hidle]
    | _ => exact he.elim
  | _ => exact he.elim

theorem forward_run : ((machine Binary64.round).run init madeEvents).map (fun s =>
      (s.process.shared.updates.length, s.process.publisher.pc)) = some (1, .publish) ∧
    ((machine Binary64.round).run init (madeEvents ++ forwardEvents)).map (fun s =>
      decide ((∀ d ∈ s.process.shared.updates, d.InRange) ∧ s.AtRest)) = some true ∧
    (machine Binary64.round).Meets Orderly init (madeEvents ++ forwardEvents) := by decide +kernel

theorem forwarded_in_the_end_demo : ∃ x : (machine Binary64.round).Execution, ∃ n, Serviced x ∧
    (x.state n).process.shared.updates.length = 1 ∧
    ∃ m, n ≤ m ∧ (¬(x.state m).process.Publishes ∨ (x.state m).reader.subscriber.stop = true ∨
      (x.state m).Forwarded 1) := by
  obtain ⟨hmade, hend, horderly⟩ := forward_run
  obtain ⟨s, hs, hmade⟩ := Option.map_eq_some_iff.mp hmade
  obtain ⟨t, ht, hend⟩ := Option.map_eq_some_iff.mp hend
  obtain ⟨hlen, hpc⟩ := Prod.mk.inj hmade
  obtain ⟨hrange, hrest⟩ := of_decide_eq_true hend
  have hstate := Machine.Execution.ofRun_state ht hs
  have hserviced : Serviced (Machine.Execution.ofRun ht) := by
    constructor
    · rfl
    · exact Machine.Execution.ofRun_meets ht horderly
    · intro n d hd
      apply hrange
      have hprefix := updates_prefix (Machine.Execution.ofRun ht)
        (Nat.le_max_left n (madeEvents ++ forwardEvents).length)
      rw [Machine.Execution.ofRun_state_of_le ht (Nat.le_max_right _ _)] at hprefix
      exact hprefix.subset hd
    · exact Machine.Execution.ofRun_fair ht fun a u ha => hrest.turn ha
    · apply Machine.Execution.ofRun_compassionate
      intro a u ha
      cases a with
      | process e =>
        obtain ⟨rfl, d, hd⟩ := ha
        rw [hrest.1] at hd
        cases hd
      | _ => exact ha.elim
    · exact Machine.Execution.ofRun_fair ht fun a u ha => hrest.delivery ha
    · exact Machine.Execution.ofRun_just ht fun a u ha => hrest.callback ha
  refine ⟨_, madeEvents.length, hserviced, ?_,
    forwarded_in_the_end Binary64.roundsWithin hserviced ?_ ?_ Nat.one_pos ?_⟩
  · rw [hstate]
    exact hlen
  · apply Machine.Execution.ofRun_from
    simp [forwardEvents, writtenEvents, takeEvents, PublisherProcess.publishEvents,
      MatchesReader, PublisherProcess.MatchesReader, MessengerPublisherApp.Event.IsMatch]
  · rw [hstate]
    intro hblocked
    rw [hpc] at hblocked
    cases hblocked
  · rw [hstate]
    exact hlen.ge

end EndToEnd

end CoordinateStream
