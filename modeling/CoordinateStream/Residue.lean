import CoordinateStream.Freshness
import CoordinateStream.SampleIdentity

namespace CoordinateStream

/-! What the three loops still do once they are told to stop. -/

namespace CoordinateProducer

/-- A stopped context takes up no handler, and the one in progress spends what it owes. -/
theorem step_stopped {p q : CoordinateProducer} {e : Event} {u : Option CoordinateData}
    (hstop : p.contextStopped = true) (h : p.step e = some (q, u)) :
    q.contextStopped = true ∧ q.handlers = p.handlers ∧
      u.toList.length + q.owed ≤ p.owed := by
  cases e with
  | fetchAdd | update | arm =>
    simp only [step] at h
    split at h
    · next hpc =>
      simp only [Option.some.injEq, Prod.mk.injEq] at h
      obtain ⟨rfl, rfl⟩ := h
      exact ⟨hstop, rfl, by simp [owed, hpc]⟩
    · cases h
  | scheduleTest =>
    simp only [step] at h
    split at h
    iterate 2
      · next hpc =>
        simp only [Option.some.injEq, Prod.mk.injEq] at h
        obtain ⟨rfl, rfl⟩ := h
        exact ⟨hstop, rfl, by cases p.running <;> simp [owed, hpc]⟩
    · cases h
  | start =>
    simp only [step, Option.ite_none_right_eq_some, Option.some.injEq, Prod.mk.injEq] at h
    obtain ⟨hpc, rfl, rfl⟩ := h
    exact ⟨hstop, rfl, by cases p.running <;> simp [owed, hpc]⟩
  | fire lon lat t | abort =>
    simp [step, hstop] at h
  | leaveLoop =>
    simp only [step, Option.ite_none_right_eq_some, Option.some.injEq, Prod.mk.injEq] at h
    obtain ⟨⟨hpc, -⟩, rfl, rfl⟩ := h
    exact ⟨hstop, rfl, by simp [owed, hpc]⟩
  | stopStore =>
    simp only [step, Option.some.injEq, Prod.mk.injEq] at h
    obtain ⟨rfl, rfl⟩ := h
    exact ⟨hstop, rfl, by simp [owed]⟩
  | stopCancel =>
    simp only [step, Option.ite_none_right_eq_some, Option.some.injEq, Prod.mk.injEq] at h
    obtain ⟨-, rfl, rfl⟩ := h
    exact ⟨hstop, rfl, by simp [owed]⟩
  | stopContext =>
    simp only [step, Option.ite_none_right_eq_some, Option.some.injEq, Prod.mk.injEq] at h
    obtain ⟨-, rfl, rfl⟩ := h
    exact ⟨rfl, rfl, by simp [owed]⟩

theorem owed_le_one (p : CoordinateProducer) : p.owed ≤ 1 := by
  unfold owed
  split <;> decide

/-- A returned `stop` has stopped the context. -/
theorem step_returned {p q : CoordinateProducer} {e : Event} {u : Option CoordinateData}
    (hp : 0 < p.stopsReturned → p.contextStopped = true) (h : p.step e = some (q, u)) :
    0 < q.stopsReturned → q.contextStopped = true := by
  intro hq
  rcases step_stops h with ⟨-, hstopped, hret⟩ | ⟨-, hstopped, -⟩
  · rw [hstopped]
    exact hp (hret ▸ hq)
  · exact hstopped

theorem drawn_of_not_inHandler {p : CoordinateProducer} (h : ¬p.InHandler) : p.drawn = 0 := by
  unfold InHandler at h
  unfold drawn
  cases hpc : p.pc <;> simp [hpc] at h ⊢

end CoordinateProducer

namespace MessengerPublisherApp

/-- The writes that the iteration in progress may still make after a stop. -/
def committed (p : MessengerPublisherApp) : ℕ :=
  match p.pc with
  | .read | .write _ => 1
  | _ => 0

theorem committed_le_one (p : MessengerPublisherApp) : p.committed ≤ 1 := by
  unfold committed
  split <;> decide

theorem committed_notifyOne (p : MessengerPublisherApp) : p.notifyOne.committed = p.committed := by
  unfold committed notifyOne
  cases p.pc <;> rfl

theorem step_stopped {shared : SharedCoordinateState} {p q : MessengerPublisherApp} {e : Event}
    (hstop : p.stop = true) (h : p.step shared e = some q) :
    q.stop = true ∧ q.writes + q.committed ≤ p.writes + p.committed := by
  cases e with
  | thread ok =>
    simp only [step, threadStep] at h
    cases hpc : p.pc with
    | waitBlocked | periodBlocked | finished => simp [hpc] at h
    | write d =>
      simp only [hpc, Option.some.injEq] at h
      rw [← h]
      exact ⟨hstop, by simp [writeSample, committed, hpc]⟩
    | read =>
      simp only [hpc, Option.some.injEq] at h
      rw [← h]
      refine ⟨hstop, ?_⟩
      split_ifs <;> simp [committed, hpc]
    | notStarted | loop | waitTest | waitBlock | waited | returned | periodTest | periodBlock =>
      simp only [hpc, hstop, or_true, ↓reduceIte, Option.some.injEq] at h
      rw [← h]
      exact ⟨rfl, by simp [committed, hpc]⟩
    | publish =>
      simp only [hpc, Option.some.injEq] at h
      rw [← h]
      exact ⟨hstop, by cases shared.hasData <;> simp [committed, hpc]⟩
  | timeout =>
    simp only [step, Option.ite_none_right_eq_some, Option.some.injEq] at h
    obtain ⟨hpc, rfl⟩ := h
    exact ⟨hstop, by simp [committed, hpc]⟩
  | matched info =>
    simp only [step, Option.ite_none_left_eq_some, Option.some.injEq] at h
    obtain ⟨-, rfl⟩ := h
    unfold onPublicationMatched
    split_ifs <;> exact ⟨hstop, le_rfl⟩
  | stopStore =>
    simp only [step, Option.some.injEq] at h
    subst h
    exact ⟨rfl, le_rfl⟩
  | matchedNotify | stopNotify =>
    simp only [step, Option.ite_none_right_eq_some, Option.some.injEq] at h
    obtain ⟨-, rfl⟩ := h
    have hc := committed_notifyOne p
    exact ⟨hstop, (Nat.add_left_cancel_iff.mpr hc).le⟩

end MessengerPublisherApp

namespace MessengerSubscriberApp

variable {round : ℚ≥0 → Option ℚ≥0} {ws : Bool}

/-- The takes that the callback in progress may still make after a stop. -/
def toTake (s : MessengerSubscriberApp) : ℕ := if s.callback = .take then 1 else 0

/-- The messages it may still pass on. -/
def toForward (s : MessengerSubscriberApp) : ℕ :=
  match s.callback with
  | .take | .process _ => 1
  | _ => 0

theorem toTake_le_one (s : MessengerSubscriberApp) : s.toTake ≤ 1 := by
  unfold toTake
  split <;> decide

theorem toForward_le_one (s : MessengerSubscriberApp) : s.toForward ≤ 1 := by
  unfold toForward
  split <;> decide

theorem processSample_callback (round : ℚ≥0 → Option ℚ≥0) (s : MessengerSubscriberApp)
    (d : TakenSample) :
    (s.processSample round d).toTake = 0 ∧ (s.processSample round d).toForward = 0 := by
  unfold processSample
  split
  · split <;> exact ⟨rfl, rfl⟩
  · exact ⟨rfl, rfl⟩

theorem length_broadcasts_processSample (round : ℚ≥0 → Option ℚ≥0) (s : MessengerSubscriberApp)
    (d : TakenSample) : (s.processSample round d).broadcasts.length ≤ s.broadcasts.length + 1 := by
  rw [processSample_broadcasts, List.length_append]
  split
  · cases coordinates round d.sample <;> simp
  · simp

theorem step_stopped {s t : MessengerSubscriberApp} {e : Event} (hstop : s.stop = true)
    (h : s.step round e = some t) :
    t.stop = true ∧ t.taken.length + t.toTake ≤ s.taken.length + s.toTake ∧
      t.broadcasts.length + t.toForward ≤ s.broadcasts.length + s.toForward := by
  have htaken := congrArg List.length (step_taken h)
  rw [List.length_append] at htaken
  cases e with
  | dataAvailable | stopTest =>
    simp only [step, hstop, ↓reduceIte, Option.ite_none_right_eq_some, Option.some.injEq] at h
    obtain ⟨hc, rfl⟩ := h
    exact ⟨rfl, by rw [htaken]; simp [Event.handed, toTake], by simp [broadcasts, toForward]⟩
  | take r =>
    simp only [step, Option.ite_none_right_eq_some, Option.some.injEq] at h
    obtain ⟨hc, rfl⟩ := h
    refine ⟨hstop, ?_, ?_⟩
    · rw [htaken]
      cases r <;> simp [Event.handed, toTake, hc]
    · cases r <;> simp [broadcasts, toForward, hc]
  | process =>
    simp only [step] at h
    split at h
    · next d hd =>
      have hlen := length_broadcasts_processSample round s d
      obtain ⟨h1, h2⟩ := processSample_callback round s d
      rw [← Option.some.inj h] at htaken ⊢
      refine ⟨by rw [processSample_stop, hstop], ?_, ?_⟩
      · rw [htaken, h1]
        simp [Event.handed]
      · rw [h2]
        simpa [toForward, hd] using hlen
    · cases h
  | run =>
    obtain ⟨pc, rfl⟩ := runStep_frame h
    exact ⟨hstop, le_rfl, le_rfl⟩
  | stopStore =>
    simp only [step, Option.some.injEq] at h
    subst h
    exact ⟨rfl, le_rfl, le_rfl⟩
  | stopNotify =>
    simp only [step, Option.ite_none_right_eq_some, Option.some.injEq] at h
    obtain ⟨-, rfl⟩ := h
    exact ⟨hstop, le_rfl, le_rfl⟩

theorem run_stopped {s t : MessengerSubscriberApp} {es : List Event} (hstop : s.stop = true)
    (h : (machine round ws).run s es = some t) :
    t.taken.length ≤ s.taken.length + 1 ∧ t.broadcasts.length ≤ s.broadcasts.length + 1 := by
  constructor
  · have hbudget := Machine.run_budget (·.taken.length) toTake (I := fun s => s.stop = true)
      (fun hs hst => ⟨(step_stopped hs hst).1, (step_stopped hs hst).2.1⟩) hstop h
    have hone := toTake_le_one s
    omega
  · have hbudget := Machine.run_budget (·.broadcasts.length) toForward
      (I := fun s => s.stop = true)
      (fun hs hst => ⟨(step_stopped hs hst).1, (step_stopped hs hst).2.2⟩) hstop h
    have hone := toForward_le_one s
    omega

end MessengerSubscriberApp

namespace PublisherProcess

theorem contextStopped_of_returned {s : PublisherProcess} (h : machine.Reachable s) :
    0 < s.producer.stopsReturned → s.producer.contextStopped = true := by
  refine h.invariant (I := fun s => 0 < s.producer.stopsReturned →
    s.producer.contextStopped = true) (fun hpos => absurd hpos (by decide)) fun _ hi _ hs => ?_
  rcases step_cases hs with ⟨a, p, u, -, hp, rfl⟩ | ⟨a, p, -, -, rfl⟩ | ⟨a, w, -, -, rfl⟩
  · exact CoordinateProducer.step_returned hi hp
  · exact hi
  · exact hi

/-- After a stop of the producer's context the handler in progress finishes and no other one
is taken up. -/
theorem run_producer_stopped {s t : PublisherProcess} {es : List Event}
    (hstop : s.producer.contextStopped = true) (h : machine.run s es = some t) :
    t.shared.updates.length ≤ s.shared.updates.length + s.producer.owed ∧
      t.producer.handlers = s.producer.handlers := by
  have hstep : ∀ {u v : PublisherProcess} {e : Event},
      (u.producer.contextStopped = true ∧ u.producer.handlers = s.producer.handlers) →
      machine.step u e = some v →
      (v.producer.contextStopped = true ∧ v.producer.handlers = s.producer.handlers) ∧
        v.shared.updates.length + v.producer.owed ≤ u.shared.updates.length + u.producer.owed := by
    intro u v e hu huv
    rcases step_cases huv with ⟨a, p, d, -, hp, rfl⟩ | ⟨a, p, -, -, rfl⟩ | ⟨a, w, -, -, rfl⟩
    · obtain ⟨hc, hh, howed⟩ := CoordinateProducer.step_stopped hu.1 hp
      refine ⟨⟨hc, hh.trans hu.2⟩, ?_⟩
      rw [storeUpdate_updates, List.length_append]
      dsimp only
      omega
    · exact ⟨hu, Nat.le_refl _⟩
    · exact ⟨hu, Nat.le_refl _⟩
  constructor
  · exact Machine.run_budget (·.shared.updates.length) (·.producer.owed) hstep ⟨hstop, rfl⟩ h
  · exact (Machine.run_invariant (fun hu huv => (hstep hu huv).1) ⟨hstop, rfl⟩ h).2

theorem run_publisher_stopped {s t : PublisherProcess} {es : List Event}
    (hstop : s.publisher.stop = true) (h : machine.run s es = some t) :
    t.publisher.writes ≤ s.publisher.writes + s.publisher.committed := by
  refine Machine.run_budget (·.publisher.writes) (·.publisher.committed)
    (I := fun u => u.publisher.stop = true) ?_ hstop h
  intro u v e hu huv
  rcases step_cases huv with ⟨a, p, d, -, -, rfl⟩ | ⟨a, p, -, hp, rfl⟩ | ⟨a, w, -, -, rfl⟩
  · exact ⟨hu, Nat.le_refl _⟩
  · exact MessengerPublisherApp.step_stopped hu hp
  · exact ⟨hu, Nat.le_refl _⟩

/-- Outside its handler the producer's counter is the sequence of the latest update and the
number of updates, as far as it reaches. -/
theorem sequence_of_not_inHandler {s : PublisherProcess} (h : machine.Reachable s)
    (hidle : ¬s.producer.InHandler) :
    s.producer.sequence = s.shared.latest.sequence ∧
      s.producer.sequence.toNat = s.shared.updates.length % 2 ^ 32 := by
  have hprod := (inv_of_reachable h).producer
  have hcount := hprod.count
  rw [CoordinateProducer.drawn_of_not_inHandler hidle, Nat.add_zero] at hcount
  exact ⟨UInt32.toNat_inj.mp (hcount.trans hprod.numbered.latest.symm), hcount⟩

end PublisherProcess

/-- After a stop each of the three loops has at most one effect left, and a producer outside
its handler has drawn exactly the numbers of its updates. -/
theorem bounded_residue (round : ℚ≥0 → Option ℚ≥0) (ws : Bool) :
    (∀ s, PublisherProcess.machine.Reachable s → 0 < s.producer.stopsReturned →
      ∀ es t, PublisherProcess.machine.run s es = some t →
        t.shared.updates.length ≤ s.shared.updates.length + 1 ∧
        t.producer.handlers = s.producer.handlers) ∧
    (∀ s : PublisherProcess, s.publisher.stop = true →
      ∀ es t, PublisherProcess.machine.run s es = some t →
        t.publisher.writes ≤ s.publisher.writes + 1) ∧
    (∀ s : MessengerSubscriberApp, s.stop = true →
      ∀ es t, (MessengerSubscriberApp.machine round ws).run s es = some t →
        t.taken.length ≤ s.taken.length + 1 ∧ t.broadcasts.length ≤ s.broadcasts.length + 1) ∧
    (∀ s, PublisherProcess.machine.Reachable s → ¬s.producer.InHandler →
      s.producer.sequence = s.shared.latest.sequence ∧
        s.producer.sequence.toNat = s.shared.updates.length % 2 ^ 32) := by
  refine ⟨fun s hr hret es t h => ?_, fun s hstop es t h => ?_,
    fun s hstop es t h => MessengerSubscriberApp.run_stopped hstop h,
    fun s hr hidle => PublisherProcess.sequence_of_not_inHandler hr hidle⟩
  · obtain ⟨hlen, hh⟩ :=
      PublisherProcess.run_producer_stopped (PublisherProcess.contextStopped_of_returned hr hret) h
    exact ⟨hlen.trans (Nat.add_le_add_left s.producer.owed_le_one _), hh⟩
  · have hlen := PublisherProcess.run_publisher_stopped hstop h
    exact hlen.trans (Nat.add_le_add_left s.publisher.committed_le_one _)

/-- Each loop is stopped right before the effect it has left, and then has it. -/
theorem bounded_residue_demo :
    (∃ s t, PublisherProcess.machine.run s
        [.producer .fetchAdd, .producer .update] = some t ∧ t.shared.updates.length = 1 ∧
      t.shared.updates.length ≤ s.shared.updates.length + 1 ∧
      t.producer.handlers = s.producer.handlers) ∧
    (∃ s t, PublisherProcess.machine.run s (List.replicate 2 (.publisher (.thread true))) =
      some t ∧ t.publisher.writes = 1 ∧ t.publisher.writes ≤ s.publisher.writes + 1) ∧
    (∃ s t, (MessengerSubscriberApp.machine Binary64.round true).run s
        [.take (some MessengerSubscriberApp.demoSample), .process] = some t ∧
      t.broadcasts.length = 1 ∧ t.taken.length ≤ s.taken.length + 1 ∧
      t.broadcasts.length ≤ s.broadcasts.length + 1) ∧
    (∃ s, PublisherProcess.machine.run .init PublisherProcess.demoEvents = some s ∧
      s.producer.sequence = s.shared.latest.sequence ∧
      s.producer.sequence.toNat = s.shared.updates.length % 2 ^ 32) := by
  obtain ⟨hproducer, hpublisher, hsubscriber, hidle⟩ := bounded_residue Binary64.round true
  refine ⟨?_, ?_, ?_, ?_⟩
  · obtain ⟨s, hs, hret⟩ : ∃ s, PublisherProcess.machine.run .init
        ([.start, .scheduleTest, .arm, .fire .zero .zero 5, .stopStore, .stopCancel true,
          .stopContext].map .producer) = some s ∧ s.producer.stopsReturned = 1 ∧
        ∃ t, PublisherProcess.machine.run s [.producer .fetchAdd, .producer .update] = some t ∧
          t.shared.updates.length = 1 := ⟨_, rfl, rfl, _, rfl, rfl⟩
    obtain ⟨hret, t, ht, hlen⟩ := hret
    exact ⟨s, t, ht, hlen, hproducer s (Machine.reachable_of_run hs) (by omega) _ t ht⟩
  · obtain ⟨s, hstop, t, ht, hlen⟩ : ∃ s : PublisherProcess, s.publisher.stop = true ∧
        ∃ t, PublisherProcess.machine.run s (List.replicate 2 (.publisher (.thread true))) =
          some t ∧ t.publisher.writes = 1 :=
      ⟨{ PublisherProcess.init with
          shared := SharedCoordinateState.init.update .zero .zero 5 1
          publisher := { MessengerPublisherApp.init with pc := .read, stop := true } },
        rfl, _, rfl, rfl⟩
    exact ⟨s, t, ht, hlen, hpublisher s hstop _ t ht⟩
  · obtain ⟨t, ht, hlen⟩ := Option.map_eq_some_iff.mp (show
      ((MessengerSubscriberApp.machine Binary64.round true).run
        { MessengerSubscriberApp.init true with callback := .take, stop := true }
        [.take (some MessengerSubscriberApp.demoSample), .process]).map
        (·.broadcasts.length) = some 1 by decide +kernel)
    exact ⟨_, t, ht, hlen, hsubscriber _ rfl _ t ht⟩
  · obtain ⟨s, hs, hpc⟩ : ∃ s, PublisherProcess.machine.run .init PublisherProcess.demoEvents =
        some s ∧ s.producer.pc = .eventLoop := ⟨_, rfl, rfl⟩
    exact ⟨s, hs, hidle s (Machine.reachable_of_run hs) (by
      rw [CoordinateProducer.InHandler, hpc]
      exact id)⟩

end CoordinateStream
