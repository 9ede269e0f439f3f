import CoordinateStream.Delivery
import CoordinateStream.Uptime

namespace CoordinateStream

/-! How old the coordinates are that the clients hold, where no thread is late for its
deadline by more than a bound. -/

namespace CoordinateProducer

/-- The thread of `run` has a further update to make when the deadline is due. -/
def Producing (p : CoordinateProducer) : Prop :=
  match p.pc with
  | .notStarted | .finished => False
  | .eventLoop => p.timer = .armed ∧ p.contextStopped = false
  | _ => True

instance (p : CoordinateProducer) : Decidable p.Producing := by
  unfold Producing
  split <;> infer_instance

theorem Producing.started {p : CoordinateProducer} (h : p.Producing) : p.pc ≠ .notStarted := by
  intro hpc
  simp [Producing, hpc] at h

theorem producing_of_owed {p : CoordinateProducer} (h : p.owed = 1) : p.Producing := by
  unfold Producing
  cases hpc : p.pc <;> simp [owed, hpc] at h ⊢

/-- A producer that is not producing any more never does so again. -/
theorem step_producing {p q : CoordinateProducer} {e : Event} {u : Option CoordinateData}
    (h : p.step e = some (q, u)) (hq : q.Producing) : p.Producing ∨ e = .start := by
  cases e with
  | start => exact .inr rfl
  | fire lon lat t =>
    simp only [step, Option.ite_none_right_eq_some] at h
    obtain ⟨⟨hpc, htimer, hcontext⟩, -⟩ := h
    exact .inl (by simp [Producing, hpc, htimer, hcontext])
  | fetchAdd | update | arm | scheduleTest =>
    simp only [step] at h
    split at h <;> try cases h
    all_goals
      next hpc => exact .inl (by simp [Producing, hpc])
  | abort =>
    simp only [step, Option.ite_none_right_eq_some, Option.some.injEq, Prod.mk.injEq] at h
    obtain ⟨⟨hpc, -⟩, rfl, -⟩ := h
    simp [Producing, hpc] at hq
  | leaveLoop =>
    simp only [step, Option.ite_none_right_eq_some, Option.some.injEq, Prod.mk.injEq] at h
    obtain ⟨-, rfl, -⟩ := h
    simp [Producing] at hq
  | stopStore =>
    simp only [step, Option.some.injEq, Prod.mk.injEq] at h
    obtain ⟨rfl, -⟩ := h
    exact .inl hq
  | stopCancel expired =>
    simp only [step, Option.ite_none_right_eq_some, Option.some.injEq, Prod.mk.injEq] at h
    obtain ⟨-, rfl, -⟩ := h
    left
    unfold Producing at hq ⊢
    dsimp only at hq
    cases hpc : p.pc with
    | eventLoop =>
      rw [hpc] at hq
      obtain ⟨htimer, hcontext⟩ := hq
      refine ⟨?_, hcontext⟩
      by_contra hne
      rw [if_neg fun hc => hne hc.1] at htimer
      exact hne htimer
    | notStarted | finished => simp [hpc] at hq
    | _ => trivial
  | stopContext =>
    simp only [step, Option.ite_none_right_eq_some, Option.some.injEq, Prod.mk.injEq] at h
    obtain ⟨-, rfl, -⟩ := h
    left
    unfold Producing at hq ⊢
    dsimp only at hq
    cases hpc : p.pc with
    | eventLoop | notStarted | finished => simp [hpc] at hq
    | _ => trivial

end CoordinateProducer

namespace WebSocketServer

/-- The handler of the timer is called again and again: the timer is scheduled, and no call of
`stop` has got hold of the server. -/
def Casting (s : WebSocketServer) : Prop :=
  s.Scheduled ∧ s.running = true ∧ s.stopRequested = false

instance (s : WebSocketServer) : Decidable s.Casting := by
  unfold Casting Scheduled
  infer_instance

/-- Only `schedule_broadcast` in `run` schedules the timer. -/
theorem step_scheduled {shared : SharedCoordinateState} {s t : WebSocketServer} {e : Event}
    (h : s.step shared e = some t) (ht : t.Scheduled) :
    s.Scheduled ∨ s.runPc = .schedule ∧ ∃ ok, e = .run ok := by
  by_cases hrun : ∃ ok, e = .run ok
  · obtain ⟨ok, rfl⟩ := hrun
    rcases (runStep_scheduled h).1 ht with hpc | hs
    · exact .inr ⟨hpc, ok, rfl⟩
    · exact .inl hs
  · have hpc := step_runPc h fun ok he => hrun ⟨ok, he⟩
    exact .inl (by rwa [Scheduled, ← hpc])

theorem step_unscheduled {shared : SharedCoordinateState} {s t : WebSocketServer} {e : Event}
    (h : s.step shared e = some t) (ht : t.Unscheduled) : s.Unscheduled := by
  by_cases hrun : ∃ ok, e = .run ok
  · obtain ⟨ok, rfl⟩ := hrun
    exact (runStep_scheduled h).2.1 ht
  · have hpc := step_runPc h fun ok he => hrun ⟨ok, he⟩
    rwa [Unscheduled, ← hpc]

/-- A server that was stopped does not run again. -/
theorem step_casting {shared : SharedCoordinateState} {s t : WebSocketServer} {e : Event}
    (h : s.step shared e = some t) (ht : t.Casting) :
    s.Casting ∨ s.runPc = .schedule ∧ ∃ ok, e = .run ok := by
  obtain ⟨hscheduled, hrunning, hunstopped⟩ := ht
  rcases step_scheduled h hscheduled with hs | hfirst
  · left
    cases e with
    | run ok =>
      have hsame : t.running = s.running := by
        rcases hs with hpc | hpc
        · simp only [step, runStep, hpc, Option.some.injEq] at h
          rw [← h]
        · simp only [step, runStep, hpc, Option.ite_none_right_eq_some, Option.some.injEq] at h
          rw [← h.2]
      exact ⟨hs, hsame ▸ hrunning, (runStep_frame h).stopRequested ▸ hunstopped⟩
    | stop i throws =>
      refine ⟨hs, (stopStep_timer h).2 hrunning, ?_⟩
      rcases stopStep_cases h with ⟨-, pc, -, -, hreq, -⟩ | ⟨-, rfl⟩ | ⟨-, rfl⟩
      · rw [← hreq, hunstopped]
      · exact hunstopped
      · cases hunstopped
    | onOpen | onClose | tick | emit =>
      obtain ⟨-, hreq, -, hrun⟩ := handler_frame h (by simp) (by simp)
      exact ⟨hs, hrun ▸ hrunning, hreq ▸ hunstopped⟩
  · exact .inr hfirst

/-- A client is opened in the event loop. -/
theorem step_unscheduled_connections {shared : SharedCoordinateState} {s t : WebSocketServer}
    {e : Event} (hs : s.Unscheduled → ∀ h, h ∉ s.cast.connections)
    (hst : s.step shared e = some t) (ht : t.Unscheduled) (h : ConnectionHdl) :
    h ∉ t.cast.connections := by
  have hnone := hs (step_unscheduled hst ht) h
  rcases step_cast hst with hc | ⟨k, rfl, -⟩ | ⟨k, -, hc⟩ | ⟨fails, -, hc⟩
  · rwa [hc]
  · simp only [step, takesHandler, Option.ite_none_right_eq_some, Option.some.injEq,
      Bool.and_eq_true, decide_eq_true_eq] at hst
    obtain ⟨⟨⟨hpc, -⟩, -⟩, rfl⟩ := hst
    exact absurd hpc ht.2.1
  · rw [hc]
    exact fun hm => hnone (Connections.mem_erase.mp hm).2
  · rwa [hc, Broadcaster.broadcastLatest_connections]

/-- A later broadcast has come to the client, so the last one has. -/
theorem Broadcaster.Span.last {b c : Broadcaster} {h : ConnectionHdl} (hspan : Span b c h)
    (hlt : Sampler.lastNumber b.broadcasts < Sampler.lastNumber c.broadcasts) :
    ∃ e ∈ c.broadcasts, e.number = Sampler.lastNumber c.broadcasts ∧
      (c.received h).getLast? = some e.item.toJson := by
  obtain ⟨span, hcasts, hreceived⟩ := hspan
  cases hlast : span.getLast? with
  | none =>
    rw [hcasts, List.getLast?_eq_none_iff.mp hlast, List.append_nil] at hlt
    exact absurd hlt (lt_irrefl _)
  | some e =>
    have hmem : e ∈ c.broadcasts := hcasts ▸ List.mem_append_right _ (List.mem_of_getLast? hlast)
    exact ⟨e, hmem, by simp [Sampler.lastNumber, hcasts, hlast], by simp [hreceived, hlast]⟩

end WebSocketServer

namespace PublisherProcess

theorem scheduled_of_client {s : PublisherProcess} (hs : machine.Reachable s) {h : ConnectionHdl}
    (hm : h ∈ s.server.cast.connections) : ¬s.server.Unscheduled := by
  have hinv : s.server.Unscheduled → ∀ h, h ∉ s.server.cast.connections := by
    apply hs.invariant
      (I := fun s => s.server.Unscheduled → ∀ h, h ∉ s.server.cast.connections)
    · exact fun _ => Connections.not_mem_empty
    · intro s t e _ hi _ hst
      rcases step_cases hst with ⟨a, p, u, -, -, rfl⟩ | ⟨a, p, -, -, rfl⟩ | ⟨a, w, -, hw, rfl⟩
      · exact hi
      · exact hi
      · exact WebSocketServer.step_unscheduled_connections hi hw
  exact fun hu => hinv hu h hm

theorem lastNumber_le {s : PublisherProcess} (h : machine.Reachable s) :
    Sampler.lastNumber s.server.cast.broadcasts ≤ s.shared.updates.length := by
  obtain ⟨-, -, hserver⟩ := inv_of_reachable h
  unfold Sampler.lastNumber
  cases hl : s.server.cast.broadcasts.getLast? with
  | none => exact Nat.zero_le _
  | some e => exact (hserver.sampler.names e (List.mem_of_getLast? hl)).number_le

/-- The rest of a handler leaves no update that is not broadcast. -/
theorem lastNumber_broadcastLatest {s : PublisherProcess} (h : machine.Reachable s)
    (hnarrow : s.shared.updates.length < 2 ^ 32) (fails : ConnectionHdl → Bool) :
    Sampler.lastNumber (s.server.cast.broadcastLatest s.shared fails).broadcasts =
      s.shared.updates.length := by
  obtain ⟨-, -, hserver⟩ := inv_of_reachable h
  rw [WebSocketServer.Broadcaster.broadcastLatest_broadcasts]
  split_ifs with hfresh
  · simp [Sampler.lastNumber]
  · apply le_antisymm (lastNumber_le h)
    by_contra hlt
    exact hfresh (latest_above h (le_refl _) hnarrow hserver.sampler (not_le.mp hlt))

end PublisherProcess

namespace TimedProcess

variable {publishPeriod broadcastPeriod : ℤ}

/-- What a step does to the deadline of the broadcast: nothing, it sets the first one, or it
moves it on at the end of a handler. A handler that has not broadcast had no reason to. -/
theorem step_pacer {s t : TimedProcess} {e : Event} (hpaced : s.ServerPaced broadcastPeriod)
    (hs : s.step publishPeriod broadcastPeriod e = some t) :
    (t.server = s.server ∧
      t.process.server.cast.broadcasts = s.process.server.cast.broadcasts ∧
      (t.process.server.Scheduled → s.process.server.Scheduled) ∧
      (t.process.server.Casting → s.process.server.Casting)) ∨
    (s.process.server.runPc = .schedule ∧ t.server = .start broadcastPeriod s.clock ∧
      t.clock = s.clock) ∨
    (s.server.deadline ≤ s.clock ∧ t.server = s.server.advance broadcastPeriod s.clock false ∧
      t.clock = s.clock ∧ t.process.shared = s.process.shared ∧
      (t.process.server.Casting → s.process.server.Casting) ∧
      (s.process.server.cast.wants s.process.shared = false ∨
        ∃ fails, t.process.server.cast =
          s.process.server.cast.broadcastLatest s.process.shared fails)) := by
  cases e with
  | elapse d =>
    rw [← Option.some.inj hs]
    exact .inl ⟨rfl, rfl, id, id⟩
  | advance =>
    simp only [step] at hs
    split at hs
    · rw [← Option.some.inj hs]
      exact .inl ⟨rfl, rfl, id, id⟩
    · cases hs
  | process e =>
    simp only [step, Option.ite_none_right_eq_some, Option.map_eq_some_iff] at hs
    obtain ⟨hintime, p, hp, rfl⟩ := hs
    rcases PublisherProcess.step_cases hp with
      ⟨a, q, u, rfl, -, rfl⟩ | ⟨a, q, rfl, -, rfl⟩ | ⟨a, w, rfl, hw, rfl⟩
    · exact .inl ⟨rfl, rfl, id, id⟩
    · exact .inl ⟨rfl, rfl, id, id⟩
    · have hscheduled := WebSocketServer.step_scheduled hw
      have hcasting := WebSocketServer.step_casting hw
      have hbroadcasts := WebSocketServer.step_broadcasts hw
      cases a with
      | onOpen | onClose | stop =>
        exact .inl ⟨rfl, (hbroadcasts.resolve_left (by simp)).2,
          fun ht => (hscheduled ht).resolve_right (by simp),
          fun ht => (hcasting ht).resolve_right (by simp)⟩
      | run ok =>
        by_cases hpc : s.process.server.runPc = .schedule
        · exact .inr (.inl ⟨hpc, if_pos hpc, rfl⟩)
        · exact .inl ⟨if_neg hpc, (hbroadcasts.resolve_left (by simp)).2,
            fun ht => (hscheduled ht).resolve_right (by simp [hpc]),
            fun ht => (hcasting ht).resolve_right (by simp [hpc])⟩
      | tick =>
        by_cases hdone :
            (s.process.server.running && !s.process.server.cast.wants s.process.shared) = true
        · refine .inr (.inr ⟨hintime, if_pos hdone, rfl, rfl,
            fun ht => (hcasting ht).resolve_right (by simp), .inl ?_⟩)
          simp only [Bool.and_eq_true, Bool.not_eq_true'] at hdone
          exact hdone.2
        · exact .inl ⟨if_neg hdone, (hbroadcasts.resolve_left (by simp)).2,
            fun ht => (hscheduled ht).resolve_right (by simp),
            fun ht => (hcasting ht).resolve_right (by simp)⟩
      | emit fails =>
        have hcasting' := fun ht => (hcasting ht).resolve_right (by simp)
        simp only [WebSocketServer.step, Option.ite_none_right_eq_some, Option.some.injEq] at hw
        obtain ⟨htick, rfl⟩ := hw
        exact .inr (.inr ⟨hpaced.inTick htick, rfl, rfl, rfl, hcasting', .inr ⟨fails, rfl⟩⟩)

/-- The event leaves a client alone. -/
def Event.Spares (h : ConnectionHdl) : Event → Prop
  | .process e => e.Spares h
  | _ => True

/-- The deadline of the broadcast is set a period ahead at most, and the handler is late for it
by the delay at most. -/
structure ServerTimed (period delay : ℤ) (s : TimedProcess) : Prop where
  ahead : s.process.server.Scheduled → s.server.deadline ≤ s.clock + period
  due : s.process.server.Casting → s.clock ≤ s.server.deadline + delay

end TimedProcess

/-- The process under the clock, with the times its updates were made at. -/
structure StampedProcess extends UptimeProcess where
  /-- The clock at `start` and at each `update`: the stamp of an update stands at its number. -/
  stamps : List ℤ

namespace StampedProcess

def stampsAfter (s : StampedProcess) : TimedProcess.Event → List ℤ
  | .process (.producer .start) | .process (.producer .update) => s.stamps ++ [s.timed.clock]
  | _ => s.stamps

section step

variable (producePeriod publishPeriod broadcastPeriod : ℤ)

def step (s : StampedProcess) (e : TimedProcess.Event) : Option StampedProcess :=
  (s.toUptimeProcess.step producePeriod publishPeriod broadcastPeriod e).map
    fun u => ⟨u, s.stampsAfter e⟩

def machine (boot : ℤ) : Machine StampedProcess TimedProcess.Event :=
  ⟨⟨⟨.init boot, 0⟩, []⟩, step producePeriod publishPeriod broadcastPeriod⟩

end step

/-- No thread is late: the timer handler of the producer has ended `produceDelay` behind its
deadline at most, and the handler of the broadcast `broadcastDelay` behind its own. -/
def Punctual (produceDelay broadcastDelay : ℤ) (s : StampedProcess) : TimedProcess.Event → Prop
  | .elapse d =>
    (s.timed.process.producer.Producing → s.timed.clock + d ≤ s.nextDeadline + produceDelay) ∧
      (s.timed.process.server.Casting →
        s.timed.clock + d ≤ s.timed.server.deadline + broadcastDelay)
  | _ => True

instance (produceDelay broadcastDelay : ℤ) (s : StampedProcess) (e : TimedProcess.Event) :
    Decidable (s.Punctual produceDelay broadcastDelay e) := by
  unfold Punctual
  split <;> infer_instance

variable {producePeriod publishPeriod broadcastPeriod boot produceDelay broadcastDelay : ℤ}

theorem step_eq_some {s t : StampedProcess} {e : TimedProcess.Event}
    (h : s.step producePeriod publishPeriod broadcastPeriod e = some t) :
    s.toUptimeProcess.step producePeriod publishPeriod broadcastPeriod e =
      some t.toUptimeProcess ∧ t.stamps = s.stampsAfter e := by
  obtain ⟨u, hu, rfl⟩ := Option.map_eq_some_iff.mp h
  exact ⟨hu, rfl⟩

def uptimeRefinement (producePeriod publishPeriod broadcastPeriod boot : ℤ) :
    Machine.Refinement (machine producePeriod publishPeriod broadcastPeriod boot)
      (UptimeProcess.machine producePeriod publishPeriod broadcastPeriod boot) where
  abs s := s.toUptimeProcess
  label _ e := some e
  init := rfl
  stutter _ _ hl := by cases hl
  step _ hs hl := by
    rw [← Option.some.inj hl]
    exact (step_eq_some hs).1

theorem uptime_reachable {s : StampedProcess}
    (h : (machine producePeriod publishPeriod broadcastPeriod boot).Reachable s) :
    (UptimeProcess.machine producePeriod publishPeriod broadcastPeriod boot).Reachable
      s.toUptimeProcess :=
  (uptimeRefinement producePeriod publishPeriod broadcastPeriod boot).reachableBy
    (fun _ _ => trivial) h

/-! ### The times of the updates -/

/-- The updates follow each other, and the present the last of them, by the period and the
delay at most. -/
structure Stamped (period delay : ℤ) (s : StampedProcess) : Prop where
  length : s.stamps.length = s.timed.process.shared.updates.length +
    if s.timed.process.producer.pc = .notStarted then 0 else 1
  gaps : s.stamps.IsChain fun a b => b ≤ a + (period + delay)
  past : ∀ a ∈ s.stamps.getLast?, a ≤ s.timed.clock
  last : ∀ a ∈ s.stamps.getLast?,
    s.nextDeadline ≤ a + s.timed.process.producer.behind * period
  due : s.timed.process.producer.Producing → s.timed.clock ≤ s.nextDeadline + delay

theorem producer_stamped {s t : StampedProcess} (hproduce : 0 ≤ producePeriod)
    (hdelay : 0 ≤ produceDelay) (h : s.Stamped producePeriod produceDelay)
    (hpaced : s.ProducerPaced producePeriod boot) {a : CoordinateProducer.Event}
    {q : CoordinateProducer} {u : Option CoordinateData}
    (hq : s.timed.process.producer.step a = some (q, u))
    (hproducer : t.timed.process.producer = q)
    (hupdates : t.timed.process.shared.updates = s.timed.process.shared.updates ++ u.toList)
    (hclock : t.timed.clock = s.timed.clock)
    (hnext : t.nextDeadline = s.nextDeadlineAfter producePeriod (.process (.producer a)))
    (hstamps : t.stamps = s.stampsAfter (.process (.producer a))) :
    t.Stamped producePeriod produceDelay := by
  obtain ⟨hlength, hgaps, hpast, hlast, hdue⟩ := h
  -- but for `start`, what produces afterwards has produced before
  have hkept (ha : a ≠ .start) (hle : s.nextDeadline ≤ t.nextDeadline)
      (hp : t.timed.process.producer.Producing) :
      t.timed.clock ≤ t.nextDeadline + produceDelay := by
    rw [hproducer] at hp
    have hs := hdue ((CoordinateProducer.step_producing hq hp).resolve_right ha)
    omega
  rcases CoordinateProducer.step_deadline hq with
    ⟨rfl, hpc, hqpc, rfl, hbehind, -⟩ | ⟨lon, lat, ts, rfl, hpc, hqpc, rfl, hbehind⟩ |
    ⟨rfl, howed, hbehind, hpc, hqpc, hu, -⟩ | ⟨rfl, hpc, hqpc, rfl, hbehind, -⟩ |
    ⟨hfire, hstart, htest, rfl, hbehind, howed, hpc, -⟩
  -- the first stamp, and the first deadline a period behind it
  · obtain ⟨hrunning, hempty⟩ := hpaced.notStarted hpc
    have hnone : s.stamps = [] := by simpa [hempty, hpc] using hlength
    have hset : t.nextDeadline = s.timed.clock + producePeriod := by
      simpa [UptimeProcess.nextDeadlineAfter, hrunning] using hnext
    have hone : t.stamps = [s.timed.clock] := by rw [hstamps, stampsAfter, hnone]; rfl
    refine ⟨?_, ?_, ?_, ?_, fun _ => ?_⟩
    · simp [hone, hupdates, hempty, hproducer, hqpc]
    · rw [hone]
      exact .singleton _
    · simp [hone, hclock]
    · simp [hone, hproducer, hbehind, hset]
    · omega
  · have hsame : t.nextDeadline = s.nextDeadline := hnext
    have hone : s.timed.process.producer.behind = 1 := by simp [CoordinateProducer.behind, hpc]
    have heq : t.stamps = s.stamps := hstamps
    refine ⟨?_, heq ▸ hgaps, ?_, ?_, hkept (by simp) hsame.ge⟩
    · simpa [heq, hupdates, hproducer, hqpc, hpc] using hlength
    · rwa [heq, hclock]
    · rwa [heq, hsame, hproducer, hbehind, ← hone]
  -- the update is made: its deadline has passed, by the delay at most
  · have hsame : t.nextDeadline = s.nextDeadline := hnext
    have heq : t.stamps = s.stamps ++ [s.timed.clock] := hstamps
    have hreached := hpaced.due howed
    have hintime := hdue (CoordinateProducer.producing_of_owed howed)
    have hafter : t.timed.process.producer.behind = 0 := by
      simp [CoordinateProducer.behind, hproducer, hqpc]
    obtain ⟨d, rfl⟩ := Option.isSome_iff_exists.mp hu
    refine ⟨?_, ?_, ?_, ?_, hkept (by simp) hsame.ge⟩
    · simp [heq, hlength, hupdates, hproducer, hqpc, hpc]
    · rw [heq]
      refine hgaps.append (.singleton _) fun a ha b hb => ?_
      have hle := hlast a ha
      rw [hbehind, Nat.cast_one, one_mul] at hle
      rw [← Option.some.inj hb]
      omega
    · simp [heq, hclock]
    · simpa [heq, hsame, hafter] using hreached
  -- the handler ends with `next_deadline_ += period_`
  · have hset : t.nextDeadline = s.nextDeadline + producePeriod := by
      simpa [UptimeProcess.nextDeadlineAfter, hpc] using hnext
    have hzero : s.timed.process.producer.behind = 0 := by simp [CoordinateProducer.behind, hpc]
    have heq : t.stamps = s.stamps := hstamps
    refine ⟨?_, heq ▸ hgaps, ?_, ?_, hkept (by simp) (by omega)⟩
    · simpa [heq, hupdates, hproducer, hqpc, hpc] using hlength
    · rwa [heq, hclock]
    · intro a ha
      have hle := hlast a (heq ▸ ha)
      rw [hzero, Nat.cast_zero, zero_mul] at hle
      rw [hproducer, hbehind, hset, Nat.cast_one, one_mul]
      omega
  · have hsame : t.nextDeadline = s.nextDeadline := by
      rw [hnext]
      cases a with
      | start => exact absurd rfl hstart
      | scheduleTest => exact if_neg (htest rfl)
      | _ => rfl
    have heq : t.stamps = s.stamps := by
      rw [hstamps]
      cases a with
      | start => exact absurd rfl hstart
      | update =>
        -- an `update` has data, so this is none
        simp only [CoordinateProducer.step] at hq
        split at hq <;> cases hq
      | _ => rfl
    refine ⟨?_, heq ▸ hgaps, ?_, ?_, hkept hstart hsame.ge⟩
    · simpa [heq, hupdates, hproducer, hpc] using hlength
    · rwa [heq, hclock]
    · rwa [heq, hsame, hproducer, hbehind]

theorem step_stamped {s t : StampedProcess} {e : TimedProcess.Event}
    (hproduce : 0 ≤ producePeriod) (hdelay : 0 ≤ produceDelay)
    (h : s.Stamped producePeriod produceDelay) (hpaced : s.ProducerPaced producePeriod boot)
    (he : s.Punctual produceDelay broadcastDelay e)
    (hs : s.step producePeriod publishPeriod broadcastPeriod e = some t) :
    t.Stamped producePeriod produceDelay := by
  obtain ⟨huptime, hstamps⟩ := step_eq_some hs
  obtain ⟨-, htimed, hnext⟩ := UptimeProcess.step_eq_some huptime
  have hother (hproducer : t.timed.process.producer = s.timed.process.producer)
      (hshared : t.timed.process.shared = s.timed.process.shared)
      (hclock : s.timed.clock ≤ t.timed.clock) (hkept : t.nextDeadline = s.nextDeadline)
      (hsame : t.stamps = s.stamps) (hdue : s.timed.process.producer.Producing →
        t.timed.clock ≤ s.nextDeadline + produceDelay) : t.Stamped producePeriod produceDelay := by
    obtain ⟨hlength, hgaps, hpast, hlast, -⟩ := h
    refine ⟨?_, hsame ▸ hgaps, ?_, ?_, ?_⟩
    · rw [hsame, hshared, hproducer, hlength]
    · rw [hsame]
      exact fun a ha => (hpast a ha).trans hclock
    · rwa [hsame, hkept, hproducer]
    · rwa [hproducer, hkept]
  rcases TimedProcess.step_process htimed with ⟨a, rfl, hp, hclock⟩ | ⟨hne, hp, hclock⟩
  · rcases PublisherProcess.step_cases hp with
      ⟨b, q, u, rfl, hq, ht⟩ | ⟨b, q, rfl, -, ht⟩ | ⟨b, w, rfl, -, ht⟩
    · apply producer_stamped hproduce hdelay h hpaced hq _ _ hclock hnext hstamps
      · rw [ht]
      · rw [ht, PublisherProcess.storeUpdate_updates]
    · exact hother (by rw [ht]) (by rw [ht]) hclock.ge hnext hstamps (hclock ▸ h.due)
    · exact hother (by rw [ht]) (by rw [ht]) hclock.ge hnext hstamps (hclock ▸ h.due)
  · cases e with
    | process a => exact absurd rfl (hne a)
    | elapse d =>
      refine hother (by rw [hp]) (by rw [hp]) hclock hnext hstamps fun hproducing => ?_
      rw [← Option.some.inj htimed]
      exact he.1 hproducing
    | advance =>
      refine hother (by rw [hp]) (by rw [hp]) hclock hnext hstamps fun hproducing => ?_
      simp only [TimedProcess.step] at htimed
      split at htimed
      · rw [← Option.some.inj htimed]
        exact h.due hproducing
      · cases htimed

theorem step_serverTimed {s t : StampedProcess} {e : TimedProcess.Event}
    (hbroadcast : 0 < broadcastPeriod) (hdelay : 0 ≤ broadcastDelay)
    (h : s.timed.ServerTimed broadcastPeriod broadcastDelay)
    (hpaced : s.timed.ServerPaced broadcastPeriod)
    (he : s.Punctual produceDelay broadcastDelay e)
    (hs : s.timed.step publishPeriod broadcastPeriod e = some t.timed) :
    t.timed.ServerTimed broadcastPeriod broadcastDelay := by
  obtain ⟨hahead, hdue⟩ := h
  rcases TimedProcess.step_pacer hpaced hs with
    ⟨hserver, -, hscheduled, hcasting⟩ | ⟨-, hserver, hclock⟩ |
    ⟨hreached, hserver, hclock, -, hcasting, -⟩
  · have hlater : s.timed.clock ≤ t.timed.clock := by
      rcases TimedProcess.step_process hs with ⟨a, -, -, hclock⟩ | ⟨-, -, hclock⟩
      · exact hclock.ge
      · exact hclock
    refine ⟨fun ht => ?_, fun ht => ?_⟩
    · have hle := hahead (hscheduled ht)
      rw [hserver]
      omega
    · rw [hserver]
      have hle := hdue (hcasting ht)
      rcases TimedProcess.step_process hs with ⟨a, -, -, hclock⟩ | ⟨hne, -, -⟩
      · omega
      · cases e with
        | process a => exact absurd rfl (hne a)
        | elapse d =>
          rw [← Option.some.inj hs]
          exact he.2 (hcasting ht)
        | advance =>
          simp only [TimedProcess.step] at hs
          split at hs
          · rw [← Option.some.inj hs]
            exact hle
          · cases hs
  · have hset : t.timed.server.deadline = s.timed.clock + broadcastPeriod := by rw [hserver]; rfl
    exact ⟨fun _ => by omega, fun _ => by omega⟩
  -- the deadline moves on by a period at least, and not beyond a period from now
  · have hset : t.timed.server.deadline =
        (Pacer.turn broadcastPeriod s.timed.server.deadline s.timed.clock false).deadline := by
      rw [hserver, Pacer.advance_deadline]
    have hupper : (Pacer.turn broadcastPeriod s.timed.server.deadline s.timed.clock false).deadline ≤
        s.timed.clock + broadcastPeriod := Pacer.turn_upper hreached false
    have hgrowth := Pacer.turn_growth hbroadcast s.timed.server.deadline s.timed.clock false
    refine ⟨fun _ => by omega, fun ht => ?_⟩
    have hle := hdue (hcasting ht)
    omega

/-- What holds of every state that a punctual run reaches. -/
structure OnTime (producePeriod broadcastPeriod produceDelay broadcastDelay : ℤ)
    (s : StampedProcess) : Prop where
  stamped : s.Stamped producePeriod produceDelay
  server : s.timed.ServerTimed broadcastPeriod broadcastDelay

theorem onTime_of_reachable (hproduce : 0 ≤ producePeriod) (hbroadcast : 0 < broadcastPeriod)
    (hproduceDelay : 0 ≤ produceDelay) (hbroadcastDelay : 0 ≤ broadcastDelay) {s : StampedProcess}
    (h : (machine producePeriod publishPeriod broadcastPeriod boot).ReachableBy
      (Punctual produceDelay broadcastDelay) s) :
    s.OnTime producePeriod broadcastPeriod produceDelay broadcastDelay := by
  apply h.invariant
  · refine ⟨⟨rfl, .nil, by simp [machine], by simp [machine], fun hp => absurd rfl hp.started⟩,
      fun hs => ?_, fun hs => ?_⟩
    · rcases hs with hs | hs <;> cases hs
    · rcases hs.1 with hs | hs <;> cases hs
  · intro s t e hr hi he hs
    have huptime := uptime_reachable hr.reachable
    have hpaced := (TimedProcess.paced_of_reachable (UptimeProcess.timed_reachable huptime)).2
    exact ⟨step_stamped hproduce hproduceDelay hi.stamped
        (UptimeProcess.producerPaced_of_reachable huptime) he hs,
      step_serverTimed hbroadcast hbroadcastDelay hi.server hpaced he
        (UptimeProcess.step_eq_some (step_eq_some hs).1).2.1⟩

/-! ### What a client holds -/

/-- The deadline of the broadcast lies no more than a period behind any update after `n` that
no broadcast has come to yet. -/
def Waiting (period : ℤ) (n : ℕ) (s : StampedProcess) : Prop :=
  ∀ k a, n < k → s.stamps[k]? = some a →
    Sampler.lastNumber s.timed.process.server.cast.broadcasts < k →
    s.timed.server.deadline ≤ a + period

theorem stampsAfter_eq (s : StampedProcess) (e : TimedProcess.Event) :
    s.stampsAfter e = s.stamps ∨ s.stampsAfter e = s.stamps ++ [s.timed.clock] := by
  unfold stampsAfter
  split
  · exact .inr rfl
  · exact .inr rfl
  · exact .inl rfl

theorem stampsAfter_getElem? {s : StampedProcess} {e : TimedProcess.Event} {k : ℕ} {a : ℤ}
    (h : (s.stampsAfter e)[k]? = some a) : s.stamps[k]? = some a ∨ a = s.timed.clock := by
  rcases s.stampsAfter_eq e with heq | heq
  · exact .inl (heq ▸ h)
  · rw [heq, List.getElem?_append] at h
    split_ifs at h
    · exact .inl h
    · exact .inr (List.mem_singleton.mp (List.mem_of_getElem? h))

theorem Stamped.number_le {s : StampedProcess} {period delay : ℤ} (h : s.Stamped period delay)
    {k : ℕ} {a : ℤ} (ha : s.stamps[k]? = some a) :
    k ≤ s.timed.process.shared.updates.length := by
  have hk := (List.getElem?_eq_some_iff.mp ha).1
  have hlength := h.length
  split_ifs at hlength <;> omega

theorem step_waiting {s t : StampedProcess} {e : TimedProcess.Event} {n : ℕ} {h : ConnectionHdl}
    (hwaiting : s.timed.process.server.Casting → s.Waiting broadcastPeriod n)
    (hreach : PublisherProcess.machine.Reachable s.timed.process)
    (hpaced : s.timed.ServerPaced broadcastPeriod)
    (hs : s.OnTime producePeriod broadcastPeriod produceDelay broadcastDelay)
    (ht : t.OnTime producePeriod broadcastPeriod produceDelay broadcastDelay)
    (hclient : h ∈ s.timed.process.server.cast.connections)
    (hnarrow : t.timed.process.shared.updates.length < 2 ^ 32)
    (hst : s.timed.step publishPeriod broadcastPeriod e = some t.timed)
    (hstamps : t.stamps = s.stampsAfter e) (hcasting : t.timed.process.server.Casting) :
    t.Waiting broadcastPeriod n := by
  intro k a hk ha hbehind
  rcases TimedProcess.step_pacer hpaced hst with
    ⟨hserver, hbroadcasts, hscheduled, hback⟩ | ⟨hpc, -, -⟩ |
    ⟨-, -, -, hshared, -, hcast⟩
  · rw [hserver]
    rw [hbroadcasts] at hbehind
    rcases stampsAfter_getElem? (hstamps ▸ ha) with hold | rfl
    · exact hwaiting (hback hcasting) k a hk hold hbehind
    · exact hs.server.ahead (hscheduled hcasting.1)
  · exact absurd (by simp [WebSocketServer.Unscheduled, hpc])
      (PublisherProcess.scheduled_of_client hreach hclient)
  -- the handler has come to its end, and nothing is left to broadcast
  · have hmade := ht.stamped.number_le ha
    rw [hshared] at hmade hnarrow
    rcases hcast with hidle | ⟨fails, hcast⟩
    · have hdata := PublisherProcess.hasData_of_made hreach (by omega) hnarrow
      have hne : s.timed.process.server.cast.connections.toList ≠ [] :=
        List.ne_nil_of_mem hclient
      simp [WebSocketServer.Broadcaster.wants, hdata, hne] at hidle
    · rw [hcast, PublisherProcess.lastNumber_broadcastLatest hreach hnarrow] at hbehind
      omega

/-- What a punctual run keeps from `s` on that leaves the client `h` alone. -/
structure Watched (producePeriod publishPeriod broadcastPeriod boot produceDelay
    broadcastDelay : ℤ) (h : ConnectionHdl) (s t : StampedProcess) : Prop where
  reachable : (machine producePeriod publishPeriod broadcastPeriod boot).ReachableBy
    (Punctual produceDelay broadcastDelay) t
  client : h ∈ t.timed.process.server.cast.connections
  span : s.timed.process.server.cast.Span t.timed.process.server.cast h
  stamps : s.stamps <+: t.stamps
  updates : s.timed.process.shared.updates <+: t.timed.process.shared.updates
  waiting : t.timed.process.shared.updates.length < 2 ^ 32 → t.timed.process.server.Casting →
    t.Waiting broadcastPeriod s.timed.process.shared.updates.length

theorem Watched.refl {s : StampedProcess} {h : ConnectionHdl}
    (hs : (machine producePeriod publishPeriod broadcastPeriod boot).ReachableBy
      (Punctual produceDelay broadcastDelay) s)
    (hstamped : s.Stamped producePeriod produceDelay)
    (hm : h ∈ s.timed.process.server.cast.connections) :
    Watched producePeriod publishPeriod broadcastPeriod boot produceDelay broadcastDelay h s s :=
  ⟨hs, hm, .refl _ h, List.prefix_rfl, List.prefix_rfl, fun _ _ _ _ hk ha _ =>
    absurd (hstamped.number_le ha) (not_le.mpr hk)⟩

theorem step_client {s t : StampedProcess} {e : TimedProcess.Event} {h : ConnectionHdl}
    (hm : h ∈ s.timed.process.server.cast.connections) (he : e.Spares h)
    (hst : s.timed.step publishPeriod broadcastPeriod e = some t.timed) :
    h ∈ t.timed.process.server.cast.connections ∧
      s.timed.process.server.cast.Span t.timed.process.server.cast h ∧
      s.timed.process.shared.updates <+: t.timed.process.shared.updates := by
  rcases TimedProcess.step_process hst with ⟨a, rfl, hp, -⟩ | ⟨-, hp, -⟩
  · obtain ⟨hmem, hspan⟩ := PublisherProcess.step_span hm he hp
    exact ⟨hmem, hspan, PublisherProcess.step_updates hp⟩
  · rw [hp]
    exact ⟨hm, .refl _ h, List.prefix_rfl⟩

theorem step_watched (hproduce : 0 ≤ producePeriod) (hbroadcast : 0 < broadcastPeriod)
    (hproduceDelay : 0 ≤ produceDelay) (hbroadcastDelay : 0 ≤ broadcastDelay)
    {s t u : StampedProcess} {e : TimedProcess.Event} {h : ConnectionHdl}
    (ht : Watched producePeriod publishPeriod broadcastPeriod boot produceDelay broadcastDelay
      h s t)
    (he : t.Punctual produceDelay broadcastDelay e ∧ e.Spares h)
    (htu : (machine producePeriod publishPeriod broadcastPeriod boot).step t e = some u) :
    Watched producePeriod publishPeriod broadcastPeriod boot produceDelay broadcastDelay
      h s u := by
  have hu := ht.reachable.step he.1 htu
  have htime := onTime_of_reachable hproduce hbroadcast hproduceDelay hbroadcastDelay ht.reachable
  have htime' := onTime_of_reachable hproduce hbroadcast hproduceDelay hbroadcastDelay hu
  have huptime := uptime_reachable ht.reachable.reachable
  have hpaced := (TimedProcess.paced_of_reachable (UptimeProcess.timed_reachable huptime)).2
  obtain ⟨hstep, hstamps⟩ := step_eq_some htu
  have htimed := (UptimeProcess.step_eq_some hstep).2.1
  obtain ⟨hclient, hspan, hupdates⟩ := step_client ht.client he.2 htimed
  refine ⟨hu, hclient, ht.span.trans hspan, ?_, ht.updates.trans hupdates, ?_⟩
  · rw [hstamps]
    rcases t.stampsAfter_eq e with heq | heq
    · exact heq ▸ ht.stamps
    · exact heq ▸ ht.stamps.trans (List.prefix_append _ _)
  · intro hnarrow hcasting
    exact step_waiting (ht.waiting (hupdates.length_le.trans_lt hnarrow))
      (UptimeProcess.process_reachable huptime) hpaced htime htime' ht.client hnarrow htimed
      hstamps hcasting

/-- The last broadcast text that has come to the client is that of an update no older than
`age`. -/
def Recent (s : StampedProcess) (h : ConnectionHdl) (age : ℤ) : Prop :=
  ∃ e a, (s.timed.process.server.cast.received h).getLast? = some e.item.toJson ∧
    Sampler.Names s.timed.process.shared.updates e ∧ s.stamps[e.number]? = some a ∧
    s.timed.clock ≤ a + age

/-- The update after the last one broadcast has not waited for long, so this one is not old. -/
theorem age_le_of_waiting {s : StampedProcess} (hproduce : 0 ≤ producePeriod)
    (hbroadcast : 0 < broadcastPeriod) (hbroadcastDelay : 0 ≤ broadcastDelay)
    (hs : s.OnTime producePeriod broadcastPeriod produceDelay broadcastDelay)
    (hproducing : s.timed.process.producer.Producing)
    (hcasting : s.timed.process.server.Casting) {n k : ℕ}
    (hwaiting : s.Waiting broadcastPeriod n) (hk : n ≤ k)
    (hbehind : Sampler.lastNumber s.timed.process.server.cast.broadcasts ≤ k) {a : ℤ}
    (ha : s.stamps[k]? = some a) :
    s.timed.clock ≤ a + (producePeriod + produceDelay + (broadcastPeriod + broadcastDelay)) := by
  refine Sampler.age_le hs.stamped.gaps (fun b hb => ?_) (by omega) ha fun b hb => ?_
  · have hlast := hs.stamped.last b hb
    have hdue := hs.stamped.due hproducing
    have hbehind : (s.timed.process.producer.behind : ℤ) * producePeriod ≤ producePeriod := by
      unfold CoordinateProducer.behind
      split_ifs <;> simp [hproduce]
    omega
  · have hdeadline := hwaiting (k + 1) b (by omega) hb (by omega)
    have hdue := hs.server.due hcasting
    omega

/-- Under threads that are late by the two delays at most, a client that stays connected and
whose sends do not fail holds, once it has been there for as long, as its last broadcast text a
coordinate that was made two periods and two delays ago at most. -/
theorem recent_of_punctual (hproduce : 0 ≤ producePeriod) (hbroadcast : 0 < broadcastPeriod)
    (hproduceDelay : 0 ≤ produceDelay) (hbroadcastDelay : 0 ≤ broadcastDelay)
    {s t : StampedProcess} {es : List TimedProcess.Event} {h : ConnectionHdl}
    (hs : (machine producePeriod publishPeriod broadcastPeriod boot).ReachableBy
      (Punctual produceDelay broadcastDelay) s)
    (hes : (machine producePeriod publishPeriod broadcastPeriod boot).Meets
      (Punctual produceDelay broadcastDelay) s es)
    (hst : (machine producePeriod publishPeriod broadcastPeriod boot).run s es = some t)
    (hclient : h ∈ s.timed.process.server.cast.connections) (hspares : ∀ e ∈ es, e.Spares h)
    (hstarted : s.timed.process.producer.pc ≠ .notStarted)
    (hproducing : t.timed.process.producer.Producing)
    (hcasting : t.timed.process.server.Casting)
    (hnarrow : t.timed.process.shared.updates.length < 2 ^ 32)
    (hlong : s.timed.clock + (producePeriod + produceDelay + (broadcastPeriod + broadcastDelay)) <
      t.timed.clock) :
    t.Recent h (producePeriod + produceDelay + (broadcastPeriod + broadcastDelay)) := by
  have hfirst := onTime_of_reachable hproduce hbroadcast hproduceDelay hbroadcastDelay hs
  have hwatched : Watched producePeriod publishPeriod broadcastPeriod boot produceDelay
      broadcastDelay h s t :=
    Machine.run_invariant_meets
      (fun hi hc hu => step_watched hproduce hbroadcast hproduceDelay hbroadcastDelay hi hc hu)
      (hes.and_forall hspares) (.refl hs hfirst.stamped hclient) hst
  have htime := onTime_of_reachable hproduce hbroadcast hproduceDelay hbroadcastDelay
    hwatched.reachable
  have hreach := UptimeProcess.process_reachable (uptime_reachable hwatched.reachable.reachable)
  have hage {k : ℕ} {a : ℤ} := age_le_of_waiting (k := k) (a := a) hproduce hbroadcast
    hbroadcastDelay htime hproducing hcasting (hwatched.waiting hnarrow hcasting)
  have hlength := hfirst.stamped.length
  rw [if_neg hstarted] at hlength
  -- the last stamp of `s` is too old by now, so a later update was broadcast
  have hlater : s.timed.process.shared.updates.length <
      Sampler.lastNumber t.timed.process.server.cast.broadcasts := by
    by_contra hle
    have hlast := List.getLast?_eq_getElem? (l := s.stamps)
    rw [hlength, Nat.add_sub_cancel] at hlast
    obtain ⟨a, ha⟩ : ∃ a, s.stamps[s.timed.process.shared.updates.length]? = some a :=
      ⟨_, List.getElem?_eq_getElem (by omega)⟩
    have hpast := hfirst.stamped.past a (hlast.trans ha)
    obtain ⟨rest, hrest⟩ := hwatched.stamps
    have hkept : t.stamps[s.timed.process.shared.updates.length]? = some a := by
      rw [← hrest, List.getElem?_append_left (by omega), ha]
    have hold := hage (le_refl _) (not_lt.mp hle) hkept
    omega
  have hreach' := UptimeProcess.process_reachable (uptime_reachable hs.reachable)
  obtain ⟨e, he, hnumber, hreceived⟩ :=
    hwatched.span.last ((PublisherProcess.lastNumber_le hreach').trans_lt hlater)
  have hnames := (PublisherProcess.inv_of_reachable hreach).server.sampler.names e he
  have hlength' := htime.stamped.length
  rw [if_neg hproducing.started] at hlength'
  have hle := hnames.number_le
  obtain ⟨a, ha⟩ : ∃ a, t.stamps[e.number]? = some a :=
    ⟨_, List.getElem?_eq_getElem (by omega)⟩
  exact ⟨e, a, hreceived, hnames, ha, hage (by omega) hnumber.ge ha⟩

open PublisherProcess (startEvents tickEvents castEvents)

/-- One update in time and broadcast just before the next one, which is late; then a handler of
the broadcast that is late, too. -/
def demoEvents : List TimedProcess.Event :=
  List.flatten [[.elapse 20], (tickEvents .zero .zero 25).map .process, [.elapse 30],
    (castEvents fun _ => false).map .process, (tickEvents .zero .zero 55).map .process,
    [.elapse 10], (tickEvents .zero .zero 65).map .process, [.elapse 20],
    (tickEvents .zero .zero 85).map .process, [.elapse 20],
    (tickEvents .zero .zero 105).map .process, [.elapse 5]]

/-- The age is reached. -/
theorem recent_demo : ∃ s t,
    (machine 20 20 50 7).run (machine 20 20 50 7).init (startEvents.map .process) = some s ∧
    (machine 20 20 50 7).run s demoEvents = some t ∧
    t.timed.process.server.cast.broadcasts.map (·.number) = [1] ∧
    t.stamps = [7, 27, 57, 67, 87, 107] ∧ t.timed.clock = 27 + (20 + 10 + (50 + 5)) ∧
    t.Recent 1 (20 + 10 + (50 + 5)) := by
  obtain ⟨s, hs, hpunctual, hclient, hstarted, hclock, t, ht, hpunctual', hproducing, hcasting,
      hupdates, hclock', hcasts, hstamps⟩ : ∃ s,
      (machine 20 20 50 7).run (machine 20 20 50 7).init (startEvents.map .process) = some s ∧
      (machine 20 20 50 7).Meets (Punctual 10 5) (machine 20 20 50 7).init
        (startEvents.map .process) ∧
      1 ∈ s.timed.process.server.cast.connections ∧
      s.timed.process.producer.pc ≠ .notStarted ∧ s.timed.clock = 7 ∧ ∃ t,
      (machine 20 20 50 7).run s demoEvents = some t ∧
      (machine 20 20 50 7).Meets (Punctual 10 5) s demoEvents ∧
      t.timed.process.producer.Producing ∧ t.timed.process.server.Casting ∧
      t.timed.process.shared.updates.length = 5 ∧ t.timed.clock = 112 ∧
      t.timed.process.server.cast.broadcasts.map (·.number) = [1] ∧
      t.stamps = [7, 27, 57, 67, 87, 107] := by
    refine ⟨_, rfl, ?_, ?_, ?_, rfl, _, rfl, ?_, ?_, ?_, rfl, rfl, rfl, rfl⟩
    all_goals decide +kernel
  have hspares : ∀ e ∈ demoEvents, e.Spares 1 := by
    simp [demoEvents, tickEvents, castEvents, TimedProcess.Event.Spares,
      PublisherProcess.Event.Spares, WebSocketServer.Event.Spares]
  refine ⟨s, t, hs, ht, hcasts, hstamps, hclock', ?_⟩
  exact recent_of_punctual (by decide) (by decide) (by decide) (by decide)
    (Machine.ReachableBy.init.run hpunctual hs) hpunctual' ht hclient hspares hstarted hproducing
    hcasting (by rw [hupdates]; decide) (by rw [hclock, hclock']; decide)

end StampedProcess

end CoordinateStream
