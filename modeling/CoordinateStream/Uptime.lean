import CoordinateStream.Pacing
import CoordinateStream.WireOrder

namespace CoordinateStream

/-! What the deadlines say of the numbers of updates and of writes since the start. -/

namespace CoordinateProducer

/-- The deadline is not moved on yet for the update just made. -/
def behind (p : CoordinateProducer) : ℕ := if p.pc = .updated then 0 else 1

/-- What a step does to all that the deadline depends on. -/
theorem step_deadline {p q : CoordinateProducer} {e : Event} {u : Option CoordinateData}
    (h : p.step e = some (q, u)) :
    (e = .start ∧ p.pc = .notStarted ∧ q.pc ≠ .notStarted ∧ u = none ∧ q.behind = 1 ∧
      q.owed = 0) ∨
    (∃ lon lat t, e = .fire lon lat t ∧ p.pc = .eventLoop ∧ q.pc ≠ .notStarted ∧ u = none ∧
      q.behind = 1) ∨
    (e = .update ∧ p.owed = 1 ∧ p.behind = 1 ∧ p.pc ≠ .notStarted ∧ q.pc = .updated ∧
      u.isSome ∧ q.owed = 0) ∨
    (e = .scheduleTest ∧ p.pc = .updated ∧ q.pc ≠ .notStarted ∧ u = none ∧ q.behind = 1 ∧
      q.owed = 0) ∨
    ((∀ lon lat t, e ≠ .fire lon lat t) ∧ e ≠ .start ∧ (e = .scheduleTest → p.pc ≠ .updated) ∧
      u = none ∧ q.behind = p.behind ∧ q.owed = p.owed ∧
      (q.pc = .notStarted ↔ p.pc = .notStarted) ∧ (p.running = false → q.running = false)) := by
  cases e with
  | start =>
    simp only [step, Option.ite_none_right_eq_some, Option.some.injEq, Prod.mk.injEq] at h
    obtain ⟨hpc, rfl, rfl⟩ := h
    refine .inl ⟨rfl, hpc, ?_, rfl, ?_, ?_⟩ <;> cases p.running <;> simp [behind, owed]
  | fire lon lat t =>
    simp only [step, Option.ite_none_right_eq_some, Option.some.injEq, Prod.mk.injEq] at h
    obtain ⟨⟨hpc, -⟩, rfl, rfl⟩ := h
    exact .inr (.inl ⟨lon, lat, t, rfl, hpc, by simp, rfl, by simp [behind]⟩)
  | update =>
    simp only [step] at h
    split at h
    · next hpc =>
      simp only [Option.some.injEq, Prod.mk.injEq] at h
      obtain ⟨rfl, rfl⟩ := h
      exact .inr (.inr (.inl ⟨rfl, by simp [owed, hpc], by simp [behind, hpc], by simp [hpc], rfl,
        rfl, by simp [owed]⟩))
    · cases h
  | scheduleTest =>
    simp only [step] at h
    split at h
    · next hpc =>
      simp only [Option.some.injEq, Prod.mk.injEq] at h
      obtain ⟨rfl, rfl⟩ := h
      refine .inr (.inr (.inr (.inr ⟨by simp, by simp, by simp [hpc], rfl, ?_, ?_, ?_, id⟩))) <;>
        cases p.running <;> simp [behind, owed, hpc]
    · next hpc =>
      simp only [Option.some.injEq, Prod.mk.injEq] at h
      obtain ⟨rfl, rfl⟩ := h
      refine .inr (.inr (.inr (.inl ⟨rfl, hpc, ?_, rfl, ?_, ?_⟩))) <;>
        cases p.running <;> simp [behind, owed]
    · cases h
  | fetchAdd | arm =>
    simp only [step] at h
    split at h
    · next hpc =>
      simp only [Option.some.injEq, Prod.mk.injEq] at h
      obtain ⟨rfl, rfl⟩ := h
      exact .inr (.inr (.inr (.inr ⟨by simp, by simp, by simp, rfl, by simp [behind, hpc],
        by simp [owed, hpc], by simp [hpc], id⟩)))
    · cases h
  | leaveLoop =>
    simp only [step, Option.ite_none_right_eq_some, Option.some.injEq, Prod.mk.injEq] at h
    obtain ⟨⟨hpc, -⟩, rfl, rfl⟩ := h
    exact .inr (.inr (.inr (.inr ⟨by simp, by simp, by simp, rfl, by simp [behind, hpc],
      by simp [owed, hpc], by simp [hpc], id⟩)))
  | abort | stopCancel | stopContext =>
    simp only [step, Option.ite_none_right_eq_some, Option.some.injEq, Prod.mk.injEq] at h
    obtain ⟨-, rfl, rfl⟩ := h
    exact .inr (.inr (.inr (.inr ⟨by simp, by simp, by simp, rfl, rfl, rfl, Iff.rfl, id⟩)))
  | stopStore =>
    simp only [step, Option.some.injEq, Prod.mk.injEq] at h
    obtain ⟨rfl, rfl⟩ := h
    exact .inr (.inr (.inr (.inr ⟨by simp, by simp, by simp, rfl, rfl, rfl, Iff.rfl,
      fun _ => rfl⟩)))

end CoordinateProducer

namespace MessengerPublisherApp

/-- The thread has made the write of its turn, if any, and not waited for the deadline yet. Of
a stopped publisher the last turn stays so. -/
def turnWritten (p : MessengerPublisherApp) : ℕ :=
  match p.pc with
  | .returned _ | .periodTest | .periodBlock | .periodBlocked | .finished => 1
  | .loop => if p.stop then 1 else 0
  | _ => 0

theorem turnWritten_le (p : MessengerPublisherApp) : p.turnWritten ≤ 1 := by
  unfold turnWritten
  cases p.pc with
  | loop => cases p.stop <;> decide
  | _ => simp

theorem notifyOne_turnWritten (p : MessengerPublisherApp) :
    p.notifyOne.turnWritten = p.turnWritten := by
  cases hpc : p.pc <;> simp [turnWritten, notifyOne, hpc]

/-- A write is charged to the turn it is made in. -/
theorem threadStep_writes {shared : SharedCoordinateState} {ok : Bool}
    {p q : MessengerPublisherApp} (h : p.threadStep shared ok = some q) :
    q.writes + p.turnWritten ≤ p.writes + q.turnWritten ∧ q.pc ≠ .notStarted := by
  unfold threadStep at h
  cases hpc : p.pc with
  | waitBlocked | periodBlocked | finished => simp [hpc] at h
  | write e =>
    simp only [hpc, Option.some.injEq] at h
    subst h
    simp [turnWritten, hpc, writeSample]
  | loop | periodTest =>
    simp only [hpc, Option.some.injEq] at h
    subst h
    cases hstop : p.stop <;> simp [turnWritten, hpc, hstop]
  | notStarted | waitBlock | returned | periodBlock =>
    simp only [hpc, Option.some.injEq] at h
    subst h
    simp [turnWritten, hpc]
  | publish | waitTest | waited | read =>
    simp only [hpc, Option.some.injEq] at h
    subst h
    simp only [turnWritten, hpc]
    split_ifs <;> simp

/-- What a step does to the writes and to the turn they are charged to. -/
theorem step_writes {shared : SharedCoordinateState} {p q : MessengerPublisherApp} {e : Event}
    (h : p.step shared e = some q) :
    (∃ ok, e = .thread ok ∧ q.writes + p.turnWritten ≤ p.writes + q.turnWritten ∧
      q.pc ≠ .notStarted) ∨
    (e = .timeout ∧ p.pc = .periodBlocked ∧ q.writes = p.writes ∧ q.pc ≠ .notStarted) ∨
    ((∀ ok, e ≠ .thread ok) ∧ e ≠ .timeout ∧ q.writes = p.writes ∧
      p.turnWritten ≤ q.turnWritten ∧ (q.pc = .notStarted ↔ p.pc = .notStarted)) := by
  cases e with
  | thread ok => exact .inl ⟨ok, rfl, threadStep_writes h⟩
  | timeout =>
    simp only [step, Option.ite_none_right_eq_some, Option.some.injEq] at h
    obtain ⟨hpc, rfl⟩ := h
    exact .inr (.inl ⟨rfl, hpc, rfl, by simp⟩)
  | matched info =>
    simp only [step, Option.ite_none_left_eq_some, Option.some.injEq] at h
    obtain ⟨-, rfl⟩ := h
    refine .inr (.inr ⟨by simp, by simp, ?_⟩)
    unfold onPublicationMatched
    split_ifs <;> exact ⟨rfl, le_refl _, Iff.rfl⟩
  | stopStore =>
    simp only [step, Option.some.injEq] at h
    subst h
    refine .inr (.inr ⟨by simp, by simp, rfl, ?_, Iff.rfl⟩)
    cases hpc : p.pc <;> simp [turnWritten, hpc]
    split_ifs <;> omega
  | matchedNotify | stopNotify =>
    simp only [step, Option.ite_none_right_eq_some, Option.some.injEq] at h
    obtain ⟨-, rfl⟩ := h
    refine .inr (.inr ⟨by simp, by simp, rfl, (notifyOne_turnWritten p).ge, ?_⟩)
    cases hpc : p.pc <;> simp [notifyOne, hpc]

end MessengerPublisherApp

namespace WebSocketServer

/-- The timer of the broadcast is scheduled, and the thread of `run` has not left the loop. -/
def Scheduled (s : WebSocketServer) : Prop := s.runPc = .enterLoop ∨ s.runPc = .eventLoop

/-- The thread of `run` has not come to the timer of the broadcast. -/
def Unscheduled (s : WebSocketServer) : Prop :=
  s.runPc ≠ .enterLoop ∧ s.runPc ≠ .eventLoop ∧ s.runPc ≠ .finished

theorem runStep_scheduled {s t : WebSocketServer} {ok : Bool} (h : s.runStep ok = some t) :
    (t.Scheduled → s.runPc = .schedule ∨ s.Scheduled) ∧ (t.Unscheduled → s.Unscheduled) ∧
      (s.runPc = .schedule → s.Unscheduled) := by
  unfold runStep at h
  cases hpc : s.runPc with
  | finished => simp [hpc] at h
  | eventLoop | listen =>
    simp only [hpc] at h
    split_ifs at h <;> cases h <;> simp [Scheduled, Unscheduled, hpc]
  | initAsio | startAccept =>
    simp only [hpc, Option.some.injEq] at h
    subst h
    cases ok <;> simp [Scheduled, Unscheduled, hpc]
  | notStarted | setHandlers | schedule | enterLoop =>
    simp only [hpc, Option.some.injEq] at h
    subst h
    simp [Scheduled, Unscheduled, hpc]

/-- Only a step of `run` moves its thread. -/
theorem step_runPc {shared : SharedCoordinateState} {s t : WebSocketServer} {e : Event}
    (h : s.step shared e = some t) (he : ∀ ok, e ≠ .run ok) : t.runPc = s.runPc := by
  cases e with
  | run ok => exact absurd rfl (he ok)
  | stop i throws => exact (stopStep_frame h).runPc
  | onOpen | onClose | tick | emit =>
    simp only [step, Option.ite_none_right_eq_some, Option.some.injEq] at h
    rw [← h.2]

theorem Broadcaster.broadcastLatest_length (b : Broadcaster) (shared : SharedCoordinateState)
    (fails : ConnectionHdl → Bool) :
    (b.broadcastLatest shared fails).broadcasts.length ≤ b.broadcasts.length + 1 := by
  rw [broadcastLatest_broadcasts]
  split_ifs <;> simp

/-- Only the end of a tick broadcasts, and no more than once. -/
theorem step_broadcasts {shared : SharedCoordinateState} {s t : WebSocketServer} {e : Event}
    (h : s.step shared e = some t) :
    (∃ fails, e = .emit fails ∧ t.cast.broadcasts.length ≤ s.cast.broadcasts.length + 1) ∨
      ((∀ fails, e ≠ .emit fails) ∧ t.cast.broadcasts = s.cast.broadcasts) := by
  rcases step_cast h with hc | ⟨k, rfl, hc⟩ | ⟨k, rfl, hc⟩ | ⟨fails, rfl, hc⟩
  · by_cases he : ∃ fails, e = .emit fails
    · obtain ⟨fails, rfl⟩ := he
      exact .inl ⟨fails, rfl, by rw [hc]; omega⟩
    · exact .inr ⟨fun fails hf => he ⟨fails, hf⟩, by rw [hc]⟩
  · exact .inr ⟨by simp, by rw [hc, Broadcaster.onOpen_broadcasts]⟩
  · exact .inr ⟨by simp, by rw [hc, Broadcaster.onClose_broadcasts]⟩
  · exact .inl ⟨fails, rfl, hc ▸ s.cast.broadcastLatest_length shared fails⟩

end WebSocketServer

namespace TimedProcess

variable {publishPeriod broadcastPeriod boot : ℤ}

/-- Without the clock the process runs as ever. -/
def processRefinement (publishPeriod broadcastPeriod boot : ℤ) :
    Machine.Refinement (machine publishPeriod broadcastPeriod boot) PublisherProcess.machine where
  abs s := s.process
  label _ e := match e with
    | .process a => some a
    | _ => none
  init := rfl
  stutter {s t e} _ hs hl := by
    cases e with
    | process a => cases hl
    | elapse d =>
      rw [← Option.some.inj hs]
    | advance =>
      simp only [machine, step] at hs
      split at hs
      · rw [← Option.some.inj hs]
      · cases hs
  step {s t e b} _ hs hl := by
    cases e with
    | process a =>
      simp only [machine, step, Option.ite_none_right_eq_some, Option.map_eq_some_iff] at hs
      obtain ⟨-, p, hp, rfl⟩ := hs
      rw [← Option.some.inj hl]
      exact hp
    | elapse d => cases hl
    | advance => cases hl

/-- The process of a timed state makes the step that is named, or none. -/
theorem step_process {s t : TimedProcess} {e : Event}
    (hs : s.step publishPeriod broadcastPeriod e = some t) :
    (∃ a, e = .process a ∧ s.process.step a = some t.process ∧ t.clock = s.clock) ∨
      ((∀ a, e ≠ .process a) ∧ t.process = s.process ∧ s.clock ≤ t.clock) := by
  cases e with
  | process a =>
    simp only [step, Option.ite_none_right_eq_some, Option.map_eq_some_iff] at hs
    obtain ⟨-, p, hp, rfl⟩ := hs
    exact .inl ⟨a, rfl, hp, rfl⟩
  | elapse d =>
    rw [← Option.some.inj hs]
    exact .inr ⟨by simp, rfl, by simp⟩
  | advance =>
    simp only [step] at hs
    split at hs
    · rw [← Option.some.inj hs]
      exact .inr ⟨by simp, rfl, le_refl _⟩
    · cases hs

/-- The write of the turn in progress, which its wait has not charged to a turn yet. -/
def inTurn (s : TimedProcess) : ℕ :=
  if s.waited = some false then 1 else s.process.publisher.turnWritten

structure PublisherRate (period boot : ℤ) (s : TimedProcess) : Prop where
  booted : boot ≤ s.clock
  notStarted : s.process.publisher.pc = .notStarted → s.process.publisher.writes = 0
  first : s.process.publisher.pc ≠ .notStarted → boot + period ≤ s.publisher.first
  past : ∀ t ∈ s.publisher.turns, t.now ≤ s.clock
  writes : s.process.publisher.writes ≤ Pacer.uncut s.publisher.turns + s.inTurn

theorem uncut_advance {p : Pacer ℤ} {period now : ℤ} {cut : Bool} :
    Pacer.uncut (p.advance period now cut).turns =
      Pacer.uncut p.turns + if cut then 0 else 1 := by
  cases cut <;> simp [Pacer.uncut, Pacer.advance]

theorem past_advance {p : Pacer ℤ} {period now : ℤ} {cut : Bool}
    (h : ∀ t ∈ p.turns, t.now ≤ now) : ∀ t ∈ (p.advance period now cut).turns, t.now ≤ now := by
  intro t ht
  rcases List.mem_append.mp ht with ht | ht
  · exact h t ht
  · rw [List.mem_singleton.mp ht, Pacer.turn_now]

theorem advance_publisherRate {s : TimedProcess} (h : s.PublisherRate publishPeriod boot)
    {cut : Bool} (hw : s.waited = some cut) : PublisherRate publishPeriod boot { s with
      publisher := s.publisher.advance publishPeriod s.clock cut
      waited := none } := by
  refine ⟨h.booted, h.notStarted, h.first, past_advance h.past, ?_⟩
  have hwrites := h.writes
  have hle := s.process.publisher.turnWritten_le
  dsimp only
  rw [uncut_advance]
  cases cut <;> simp only [inTurn, hw] at hwrites ⊢ <;> simp at hwrites ⊢ <;> omega

theorem process_publisherRate {s : TimedProcess} (h : s.PublisherRate publishPeriod boot)
    {e : PublisherProcess.Event} {p : PublisherProcess} {server : Pacer ℤ} (he : s.InTime e)
    (hp : s.process.step e = some p) : PublisherRate publishPeriod boot { s with
      process := p
      publisher := s.publisherAfter publishPeriod e
      waited := s.waitedAfter e
      server := server } := by
  rcases PublisherProcess.step_cases hp with
    ⟨a, q, u, rfl, -, rfl⟩ | ⟨a, q, rfl, hq, rfl⟩ | ⟨a, w, rfl, -, rfl⟩
  · exact ⟨h.booted, h.notStarted, h.first, h.past, h.writes⟩
  · rcases MessengerPublisherApp.step_writes hq with ⟨ok, rfl, hwrites, hpc⟩ |
      ⟨rfl, hblocked, hwrites, hpc⟩ | ⟨hthread, htimeout, hwrites, hle, hpc⟩
    · have hwaited : s.waited = none := he
      have hcharged := h.writes
      have hin : s.inTurn = s.process.publisher.turnWritten := by simp [inTurn, hwaited]
      have hafter (pacer : Pacer ℤ) : inTurn { s with
          process := { s.process with publisher := q }
          publisher := pacer
          waited := s.waitedAfter (.publisher (.thread ok))
          server := server } = q.turnWritten := by
        simp only [inTurn, waitedAfter]
        split_ifs <;> simp_all
      -- the first statement of `run` sets the deadline, the others leave it alone
      by_cases hstart : s.process.publisher.pc = .notStarted
      · have hzero := h.notStarted hstart
        have hnew : s.publisherAfter publishPeriod (.publisher (.thread ok)) =
            .start publishPeriod s.clock := if_pos hstart
        have hunwritten : s.process.publisher.turnWritten = 0 := by
          simp [MessengerPublisherApp.turnWritten, hstart]
        rw [hnew]
        refine ⟨h.booted, fun hn => absurd hn hpc, fun _ => ?_, by simp [Pacer.start], ?_⟩
        · exact Int.add_le_add_right h.booted _
        · rw [hafter]
          simp only [Pacer.uncut, Pacer.start, List.countP_nil]
          omega
      · have hkept : s.publisherAfter publishPeriod (.publisher (.thread ok)) = s.publisher :=
          if_neg hstart
        rw [hkept]
        refine ⟨h.booted, fun hn => absurd hn hpc, fun _ => h.first hstart, h.past, ?_⟩
        rw [hafter]
        dsimp only
        omega
    -- the timeout ends the turn, whose write is charged when the deadline moves on
    · have hstarted : s.process.publisher.pc ≠ .notStarted := by simp [hblocked]
      refine ⟨h.booted, fun hn => absurd hn hpc, fun _ => h.first hstarted, h.past, ?_⟩
      have hcharged := h.writes
      have hin : s.inTurn ≤ 1 := by
        have := s.process.publisher.turnWritten_le
        unfold inTurn
        split_ifs <;> omega
      simp only [inTurn, waitedAfter, publisherAfter, if_true, hwrites]
      omega
    · have hkept : s.publisherAfter publishPeriod (.publisher a) = s.publisher ∧
          s.waitedAfter (.publisher a) = s.waited := by
        cases a with
        | thread ok => exact absurd rfl (hthread ok)
        | timeout => exact absurd rfl htimeout
        | _ => exact ⟨rfl, rfl⟩
      rw [hkept.1, hkept.2]
      refine ⟨h.booted, fun hn => ?_, fun hn => h.first (mt hpc.mpr hn), h.past, ?_⟩
      · exact hwrites.trans (h.notStarted (hpc.mp hn))
      · have hcharged := h.writes
        simp only [inTurn, hwrites] at hcharged ⊢
        split_ifs at hcharged ⊢ <;> omega
  · exact ⟨h.booted, h.notStarted, h.first, h.past, h.writes⟩

theorem step_publisherRate {s t : TimedProcess} {e : Event}
    (h : s.PublisherRate publishPeriod boot)
    (hs : (machine publishPeriod broadcastPeriod boot).step s e = some t) :
    t.PublisherRate publishPeriod boot := by
  cases e with
  | elapse d =>
    rw [← Option.some.inj hs]
    have hlater : s.clock ≤ s.clock + d := by simp
    exact ⟨h.booted.trans hlater, h.notStarted, h.first,
      fun t ht => (h.past t ht).trans hlater, h.writes⟩
  | advance =>
    simp only [machine, step] at hs
    split at hs
    · next cut hw =>
      rw [← Option.some.inj hs]
      exact advance_publisherRate h hw
    · cases hs
  | process e =>
    simp only [machine, step, Option.ite_none_right_eq_some, Option.map_eq_some_iff] at hs
    obtain ⟨he, p, hp, rfl⟩ := hs
    exact process_publisherRate h he hp

structure ServerRate (period boot : ℤ) (s : TimedProcess) : Prop where
  booted : boot ≤ s.clock
  unscheduled : s.process.server.Unscheduled → s.process.server.cast.broadcasts = []
  first : s.process.server.Scheduled ∨ s.server.turns ≠ [] → boot + period ≤ s.server.first
  past : ∀ t ∈ s.server.turns, t.now ≤ s.clock
  broadcasts : s.process.server.cast.broadcasts.length ≤ Pacer.uncut s.server.turns

/-- The end of a timer handler, whose broadcast is charged to the turn it ends. -/
theorem advance_serverRate {s : TimedProcess} (h : s.ServerRate broadcastPeriod boot)
    {w : WebSocketServer} {publisher : Pacer ℤ} {waited : Option Bool}
    (hloop : s.process.server.runPc = .eventLoop) (hpc : w.runPc = .eventLoop)
    (hle : w.cast.broadcasts.length ≤ s.process.server.cast.broadcasts.length + 1) :
    ServerRate broadcastPeriod boot { s with
      process := { s.process with server := w }
      publisher := publisher
      waited := waited
      server := s.server.advance broadcastPeriod s.clock false } := by
  refine ⟨h.booted, fun hu => absurd hpc hu.2.1, fun _ => h.first (.inl (.inr hloop)),
    past_advance h.past, ?_⟩
  have hcharged := h.broadcasts
  dsimp only
  rw [uncut_advance, if_neg Bool.false_ne_true]
  omega

theorem process_serverRate {s : TimedProcess} (hpaced : s.ServerPaced broadcastPeriod)
    (h : s.ServerRate broadcastPeriod boot) {e : PublisherProcess.Event} {p : PublisherProcess}
    {publisher : Pacer ℤ} {waited : Option Bool} (he : s.InTime e)
    (hp : s.process.step e = some p) : ServerRate broadcastPeriod boot { s with
      process := p
      publisher := publisher
      waited := waited
      server := s.serverAfter broadcastPeriod e } := by
  rcases PublisherProcess.step_cases hp with
    ⟨a, q, u, rfl, -, rfl⟩ | ⟨a, q, rfl, -, rfl⟩ | ⟨a, w, rfl, hw, rfl⟩
  · exact ⟨h.booted, h.unscheduled, h.first, h.past, h.broadcasts⟩
  · exact ⟨h.booted, h.unscheduled, h.first, h.past, h.broadcasts⟩
  · have hkept (hpc : w.runPc = s.process.server.runPc)
        (hb : w.cast.broadcasts = s.process.server.cast.broadcasts) :
        ServerRate broadcastPeriod boot { s with
          process := { s.process with server := w }
          publisher := publisher
          waited := waited } := by
      refine ⟨h.booted, fun hu => ?_, fun hf => h.first ?_, h.past, ?_⟩
      · exact hb.trans (h.unscheduled (by simpa [WebSocketServer.Unscheduled, hpc] using hu))
      · simpa [WebSocketServer.Scheduled, hpc] using hf
      · exact hb ▸ h.broadcasts
    cases a with
    | run ok =>
      have hb : w.cast.broadcasts = s.process.server.cast.broadcasts := by
        rw [(WebSocketServer.runStep_frame hw).cast]
      obtain ⟨hafter, hbefore, hearly⟩ := WebSocketServer.runStep_scheduled hw
      simp only [serverAfter]
      split_ifs with hpc
      · have hnone := hb.trans (h.unscheduled (hearly hpc))
        refine ⟨h.booted, fun _ => hnone, fun _ => ?_, by simp [Pacer.start], ?_⟩
        · exact Int.add_le_add_right h.booted _
        · rw [hnone]
          exact Nat.zero_le _
      · refine ⟨h.booted, fun hu => hb.trans (h.unscheduled (hbefore hu)), fun hf => h.first ?_,
          h.past, hb ▸ h.broadcasts⟩
        exact hf.imp_left fun hs => (hafter hs).resolve_left hpc
    | onOpen | onClose | stop =>
      rcases WebSocketServer.step_broadcasts hw with ⟨fails, he, -⟩ | ⟨-, hb⟩
      · cases he
      · exact hkept (WebSocketServer.step_runPc hw (by simp)) hb
    | tick =>
      have hpc := WebSocketServer.step_runPc hw (by simp)
      have hb : w.cast.broadcasts = s.process.server.cast.broadcasts := by
        rcases WebSocketServer.step_broadcasts hw with ⟨fails, he, -⟩ | ⟨-, hb⟩
        · cases he
        · exact hb
      have hloop : s.process.server.runPc = .eventLoop := by
        simp only [WebSocketServer.step, WebSocketServer.takesHandler,
          Option.ite_none_right_eq_some, Bool.and_eq_true, decide_eq_true_eq] at hw
        exact hw.1.1.1.1
      simp only [serverAfter]
      -- a tick whose conditions fail ends its handler at once
      split_ifs
      · exact advance_serverRate h hloop (hpc.trans hloop) (by rw [hb]; omega)
      · exact hkept hpc hb
    | emit fails =>
      have hpc := WebSocketServer.step_runPc hw (by simp)
      have hloop : s.process.server.runPc = .eventLoop := by
        simp only [WebSocketServer.step, Option.ite_none_right_eq_some] at hw
        exact hpaced.tickInLoop hw.1
      have hle : w.cast.broadcasts.length ≤ s.process.server.cast.broadcasts.length + 1 := by
        rcases WebSocketServer.step_broadcasts hw with ⟨-, -, hle⟩ | ⟨hne, -⟩
        · exact hle
        · exact absurd rfl (hne fails)
      exact advance_serverRate h hloop (hpc.trans hloop) hle

theorem step_serverRate {s t : TimedProcess} {e : Event} (hpaced : s.ServerPaced broadcastPeriod)
    (h : s.ServerRate broadcastPeriod boot)
    (hs : (machine publishPeriod broadcastPeriod boot).step s e = some t) :
    t.ServerRate broadcastPeriod boot := by
  cases e with
  | elapse d =>
    rw [← Option.some.inj hs]
    have hlater : s.clock ≤ s.clock + d := by simp
    exact ⟨h.booted.trans hlater, h.unscheduled, h.first,
      fun t ht => (h.past t ht).trans hlater, h.broadcasts⟩
  | advance =>
    simp only [machine, step] at hs
    split at hs
    · rw [← Option.some.inj hs]
      exact ⟨h.booted, h.unscheduled, h.first, h.past, h.broadcasts⟩
    · cases hs
  | process e =>
    simp only [machine, step, Option.ite_none_right_eq_some, Option.map_eq_some_iff] at hs
    obtain ⟨he, p, hp, rfl⟩ := hs
    exact process_serverRate hpaced h he hp

theorem rate_of_reachable {s : TimedProcess}
    (h : (machine publishPeriod broadcastPeriod boot).Reachable s) :
    s.PublisherRate publishPeriod boot ∧ s.ServerRate broadcastPeriod boot := by
  have hpaced : (init boot).ServerPaced broadcastPeriod :=
    ⟨trivial, by simp [WebSocketServer.TickInLoop, init, PublisherProcess.init,
      WebSocketServer.init], by simp [init, PublisherProcess.init, WebSocketServer.init],
      by simp [init]⟩
  have hall : s.PublisherRate publishPeriod boot ∧ s.ServerRate broadcastPeriod boot ∧
      s.ServerPaced broadcastPeriod := by
    apply h.invariant
      (I := fun s => s.PublisherRate publishPeriod boot ∧ s.ServerRate broadcastPeriod boot ∧
        s.ServerPaced broadcastPeriod)
    · have hunwritten : (init boot).process.publisher.turnWritten = 0 := rfl
      refine ⟨⟨le_refl _, fun _ => rfl, fun hn => absurd rfl hn, by simp [machine, init], ?_⟩,
        ⟨le_refl _, fun _ => rfl, ?_, by simp [machine, init], le_refl _⟩, hpaced⟩
      · exact Nat.zero_le _
      · rintro ((hpc | hpc) | hne)
        · cases hpc
        · cases hpc
        · exact absurd rfl hne
    · intro s t e _ hi _ hs
      exact ⟨step_publisherRate hi.1 hs, step_serverRate hi.2.2 hi.2.1 hs,
        step_serverPaced hi.2.2 hs⟩
  exact ⟨hall.1, hall.2.1⟩

/-- A period has passed for each write but the first. -/
theorem PublisherRate.writes_mul_le {s : TimedProcess} (h : s.PublisherRate publishPeriod boot)
    (hpaced : s.PublisherPaced publishPeriod) (hp : 0 < publishPeriod) :
    boot + s.process.publisher.writes * publishPeriod ≤ s.clock + publishPeriod := by
  have hbooted := h.booted
  by_cases hpc : s.process.publisher.pc = .notStarted
  · rw [h.notStarted hpc, Nat.cast_zero, zero_mul]
    omega
  · have hturns : boot + (Pacer.uncut s.publisher.turns : ℤ) * publishPeriod ≤ s.clock := by
      rcases Nat.eq_zero_or_pos (Pacer.uncut s.publisher.turns) with hzero | hpos
      · simpa [hzero] using hbooted
      · have hspent := hpaced.paced.uncut_mul_le hp h.past hpos
        have hfirst := h.first hpc
        omega
    have hcharged : (s.process.publisher.writes : ℤ) ≤ Pacer.uncut s.publisher.turns + 1 := by
      have hwrites := h.writes
      have hle := s.process.publisher.turnWritten_le
      unfold inTurn at hwrites
      split_ifs at hwrites <;> omega
    have hscaled := Int.mul_le_mul_of_nonneg_right hcharged hp.le
    rw [add_mul, one_mul] at hscaled
    omega

/-- A period has passed for each broadcast. -/
theorem ServerRate.broadcasts_mul_le {s : TimedProcess} (h : s.ServerRate broadcastPeriod boot)
    (hpaced : s.ServerPaced broadcastPeriod) (hp : 0 < broadcastPeriod) :
    boot + s.process.server.cast.broadcasts.length * broadcastPeriod ≤ s.clock := by
  have hcharged := h.broadcasts
  rcases Nat.eq_zero_or_pos (Pacer.uncut s.server.turns) with hzero | hpos
  · have hnone : s.process.server.cast.broadcasts.length = 0 := by omega
    rw [hnone, Nat.cast_zero, zero_mul, add_zero]
    exact h.booted
  · have hspent := hpaced.paced.uncut_mul_le hp h.past hpos
    have hne : s.server.turns ≠ [] := by
      rintro hnil
      simp [hnil, Pacer.uncut] at hpos
    have hfirst := h.first (.inr hne)
    have hscaled := Int.mul_le_mul_of_nonneg_right (Int.ofNat_le.mpr hcharged) hp.le
    omega

end TimedProcess

/-- The publisher process under the clock, the deadline of the producer included. -/
structure UptimeProcess where
  timed : TimedProcess
  nextDeadline : ℤ

namespace UptimeProcess

/-- The timer of the producer runs out no earlier than its deadline. -/
def InTime (s : UptimeProcess) : TimedProcess.Event → Prop
  | .process (.producer (.fire _ _ _)) => s.nextDeadline ≤ s.timed.clock
  | .process (.producer (.stopCancel true)) => s.nextDeadline ≤ s.timed.clock
  | _ => True

instance (s : UptimeProcess) (e : TimedProcess.Event) : Decidable (s.InTime e) := by
  unfold InTime
  split <;> infer_instance

section step

variable (producePeriod publishPeriod broadcastPeriod : ℤ)

/-- `start` sets the deadline. The timer handler moves it on by a period at its end, however
late it is. -/
def nextDeadlineAfter (s : UptimeProcess) : TimedProcess.Event → ℤ
  | .process (.producer .start) =>
    if s.timed.process.producer.running then s.nextDeadline else s.timed.clock + producePeriod
  | .process (.producer .scheduleTest) =>
    if s.timed.process.producer.pc = .updated then s.nextDeadline + producePeriod
    else s.nextDeadline
  | _ => s.nextDeadline

def step (s : UptimeProcess) (e : TimedProcess.Event) : Option UptimeProcess :=
  if s.InTime e then
    (s.timed.step publishPeriod broadcastPeriod e).map
      (⟨·, s.nextDeadlineAfter producePeriod e⟩)
  else none

def machine (boot : ℤ) : Machine UptimeProcess TimedProcess.Event :=
  ⟨⟨.init boot, 0⟩, step producePeriod publishPeriod broadcastPeriod⟩

end step

variable {producePeriod publishPeriod broadcastPeriod boot : ℤ}

theorem step_eq_some {s t : UptimeProcess} {e : TimedProcess.Event}
    (h : s.step producePeriod publishPeriod broadcastPeriod e = some t) :
    s.InTime e ∧ s.timed.step publishPeriod broadcastPeriod e = some t.timed ∧
      t.nextDeadline = s.nextDeadlineAfter producePeriod e := by
  simp only [step, Option.ite_none_right_eq_some, Option.map_eq_some_iff] at h
  obtain ⟨he, u, hu, rfl⟩ := h
  exact ⟨he, hu, rfl⟩

def timedRefinement (producePeriod publishPeriod broadcastPeriod boot : ℤ) :
    Machine.Refinement (machine producePeriod publishPeriod broadcastPeriod boot)
      (TimedProcess.machine publishPeriod broadcastPeriod boot) where
  abs s := s.timed
  label _ e := some e
  init := rfl
  stutter _ _ hl := by cases hl
  step _ hs hl := by
    rw [← Option.some.inj hl]
    exact (step_eq_some hs).2.1

theorem timed_reachable {s : UptimeProcess}
    (h : (machine producePeriod publishPeriod broadcastPeriod boot).Reachable s) :
    (TimedProcess.machine publishPeriod broadcastPeriod boot).Reachable s.timed :=
  (timedRefinement producePeriod publishPeriod broadcastPeriod boot).reachableBy
    (fun _ _ => trivial) h

theorem process_reachable {s : UptimeProcess}
    (h : (machine producePeriod publishPeriod broadcastPeriod boot).Reachable s) :
    PublisherProcess.machine.Reachable s.timed.process :=
  (TimedProcess.processRefinement publishPeriod broadcastPeriod boot).reachableBy
    (fun _ _ => trivial) (timed_reachable h)

/-- The updates made since the start, each of which has waited for its own deadline. -/
structure ProducerPaced (period boot : ℤ) (s : UptimeProcess) : Prop where
  spent : boot + s.timed.process.shared.updates.length * period ≤ s.timed.clock
  notStarted : s.timed.process.producer.pc = .notStarted →
    s.timed.process.producer.running = false ∧ s.timed.process.shared.updates = []
  deadline : s.timed.process.producer.pc ≠ .notStarted →
    boot + (s.timed.process.shared.updates.length + s.timed.process.producer.behind) * period ≤
      s.nextDeadline
  due : s.timed.process.producer.owed = 1 → s.nextDeadline ≤ s.timed.clock

theorem producer_paced {s t : UptimeProcess} (h : s.ProducerPaced producePeriod boot)
    {a : CoordinateProducer.Event} {q : CoordinateProducer} {u : Option CoordinateData}
    (hintime : s.InTime (.process (.producer a)))
    (hq : s.timed.process.producer.step a = some (q, u))
    (hproducer : t.timed.process.producer = q)
    (hupdates : t.timed.process.shared.updates = s.timed.process.shared.updates ++ u.toList)
    (hclock : t.timed.clock = s.timed.clock)
    (hnext : t.nextDeadline = s.nextDeadlineAfter producePeriod (.process (.producer a))) :
    t.ProducerPaced producePeriod boot := by
  obtain ⟨hspent, hnot, hdeadline, hdue⟩ := h
  rcases CoordinateProducer.step_deadline hq with
    ⟨rfl, hpc, hqpc, rfl, hbehind, howed⟩ | ⟨lon, lat, ts, rfl, hpc, hqpc, rfl, hbehind⟩ |
    ⟨rfl, howed, hbehind, hpc, hqpc, hu, howed'⟩ | ⟨rfl, hpc, hqpc, rfl, hbehind, howed⟩ |
    ⟨hfire, hstart, htest, rfl, hbehind, howed, hpc, hrun⟩
  -- `start` sets the first deadline, one period behind a clock that is past the boot
  · obtain ⟨hrunning, hempty⟩ := hnot hpc
    have hnone : t.timed.process.shared.updates = [] := by rw [hupdates, hempty]; rfl
    have hboot : boot ≤ s.timed.clock := by simpa [hempty] using hspent
    have hset : t.nextDeadline = s.timed.clock + producePeriod := by
      simpa [nextDeadlineAfter, hrunning] using hnext
    refine ⟨?_, fun hp => absurd (hproducer ▸ hp) hqpc, fun _ => ?_, fun ho => ?_⟩
    · simpa [hnone, hclock] using hboot
    · simpa [hnone, hproducer, hbehind, hset] using hboot
    · rw [hproducer, howed] at ho
      omega
  -- the timer fires: the deadline is due, and the update in hand is charged to it
  · have hsame : t.timed.process.shared.updates = s.timed.process.shared.updates := by
      simpa using hupdates
    have hkept : t.nextDeadline = s.nextDeadline := hnext
    have hone : s.timed.process.producer.behind = 1 := by simp [CoordinateProducer.behind, hpc]
    refine ⟨?_, fun hp => absurd (hproducer ▸ hp) hqpc, fun _ => ?_, fun _ => ?_⟩
    · rwa [hsame, hclock]
    · rw [hsame, hproducer, hbehind, hkept, ← hone]
      exact hdeadline (by simp [hpc])
    · rw [hkept, hclock]
      exact hintime
  -- the update is made, and the deadline it was charged to has passed
  · obtain ⟨d, rfl⟩ := Option.isSome_iff_exists.mp hu
    have hlength : t.timed.process.shared.updates.length =
        s.timed.process.shared.updates.length + 1 := by simp [hupdates]
    have hkept : t.nextDeadline = s.nextDeadline := hnext
    have hafter : t.timed.process.producer.behind = 0 := by
      simp [CoordinateProducer.behind, hproducer, hqpc]
    have hreached := hdeadline hpc
    rw [hbehind] at hreached
    push_cast at hreached
    refine ⟨?_, fun hp => ?_, fun _ => ?_, fun ho => ?_⟩
    · rw [hlength, hclock]
      push_cast
      exact hreached.trans (hdue howed)
    · rw [hproducer, hqpc] at hp
      cases hp
    · rw [hlength, hafter, hkept]
      push_cast
      rwa [add_zero]
    · rw [hproducer, howed'] at ho
      omega
  -- the handler ends with `next_deadline_ += period_`
  · have hsame : t.timed.process.shared.updates = s.timed.process.shared.updates := by
      simpa using hupdates
    have hset : t.nextDeadline = s.nextDeadline + producePeriod := by
      simpa [nextDeadlineAfter, hpc] using hnext
    have hzero : s.timed.process.producer.behind = 0 := by simp [CoordinateProducer.behind, hpc]
    have hreached := hdeadline (by simp [hpc])
    rw [hzero] at hreached
    push_cast at hreached
    refine ⟨?_, fun hp => absurd (hproducer ▸ hp) hqpc, fun _ => ?_, fun ho => ?_⟩
    · rwa [hsame, hclock]
    · rw [hsame, hproducer, hbehind, hset]
      push_cast
      linarith
    · rw [hproducer, howed] at ho
      omega
  · have hsame : t.timed.process.shared.updates = s.timed.process.shared.updates := by
      simpa using hupdates
    have hkept : t.nextDeadline = s.nextDeadline := by
      rw [hnext]
      cases a with
      | start => exact absurd rfl hstart
      | scheduleTest => exact if_neg (htest rfl)
      | _ => rfl
    refine ⟨?_, fun hp => ?_, fun hp => ?_, fun ho => ?_⟩
    · rwa [hsame, hclock]
    · rw [hproducer] at hp ⊢
      rw [hsame]
      obtain ⟨hrunning, hempty⟩ := hnot (hpc.mp hp)
      exact ⟨hrun hrunning, hempty⟩
    · rw [hproducer] at hp ⊢
      rw [hsame, hbehind, hkept]
      exact hdeadline (mt hpc.mpr hp)
    · rw [hproducer, howed] at ho
      rw [hkept, hclock]
      exact hdue ho

theorem step_producerPaced {s t : UptimeProcess} {e : TimedProcess.Event}
    (h : s.ProducerPaced producePeriod boot)
    (hs : s.step producePeriod publishPeriod broadcastPeriod e = some t) :
    t.ProducerPaced producePeriod boot := by
  obtain ⟨hintime, htimed, hnext⟩ := step_eq_some hs
  have hother (hproducer : t.timed.process.producer = s.timed.process.producer)
      (hshared : t.timed.process.shared = s.timed.process.shared)
      (hclock : s.timed.clock ≤ t.timed.clock)
      (hkept : t.nextDeadline = s.nextDeadline) : t.ProducerPaced producePeriod boot := by
    obtain ⟨hspent, hnot, hdeadline, hdue⟩ := h
    refine ⟨?_, ?_, ?_, ?_⟩
    · rw [hshared]
      exact hspent.trans hclock
    · rw [hproducer, hshared]
      exact hnot
    · rw [hproducer, hshared, hkept]
      exact hdeadline
    · rw [hproducer, hkept]
      exact fun ho => (hdue ho).trans hclock
  rcases TimedProcess.step_process htimed with ⟨a, rfl, hp, hclock⟩ | ⟨hne, hp, hclock⟩
  · rcases PublisherProcess.step_cases hp with
      ⟨b, q, u, rfl, hq, ht⟩ | ⟨b, q, rfl, -, ht⟩ | ⟨b, w, rfl, -, ht⟩
    · apply producer_paced h hintime hq _ _ hclock hnext
      · rw [ht]
      · rw [ht, PublisherProcess.storeUpdate_updates]
    · exact hother (by rw [ht]) (by rw [ht]) hclock.ge hnext
    · exact hother (by rw [ht]) (by rw [ht]) hclock.ge hnext
  · refine hother (by rw [hp]) (by rw [hp]) hclock ?_
    cases e with
    | process a => exact absurd rfl (hne a)
    | _ => exact hnext

theorem producerPaced_of_reachable {s : UptimeProcess}
    (h : (machine producePeriod publishPeriod broadcastPeriod boot).Reachable s) :
    s.ProducerPaced producePeriod boot := by
  apply h.invariant
  · refine ⟨by simp [machine, TimedProcess.init, PublisherProcess.init, SharedCoordinateState.init],
      fun _ => ⟨rfl, rfl⟩, fun hn => absurd rfl hn, fun ho => ?_⟩
    exact absurd ho Nat.zero_ne_one
  · intro s t e _ hi _ hs
    exact step_producerPaced hi hs

/-- A run makes no more updates, writes and broadcasts than its periods allow, however its
threads are delayed. So the sequences order all that is emitted, on the wire too, and no
consumer goes stale, until `2 ^ 31` periods of the producer have passed. -/
theorem uptime_of_reachable (hproduce : 0 < producePeriod) (hpublish : 0 < publishPeriod)
    (hbroadcast : 0 < broadcastPeriod) {s : UptimeProcess}
    (h : (machine producePeriod publishPeriod broadcastPeriod boot).Reachable s) :
    boot + s.timed.process.shared.updates.length * producePeriod ≤ s.timed.clock ∧
      boot + s.timed.process.publisher.writes * publishPeriod ≤
        s.timed.clock + publishPeriod ∧
      boot + s.timed.process.server.cast.broadcasts.length * broadcastPeriod ≤ s.timed.clock ∧
      (s.timed.clock < boot + 2 ^ 31 * producePeriod →
        PublisherProcess.WireOrdered s.timed.process ∧
          PublisherProcess.Fresh s.timed.process) := by
  have htimed := timed_reachable h
  have hprocess := process_reachable h
  have hspent := (producerPaced_of_reachable h).spent
  obtain ⟨hpub, hserver⟩ := TimedProcess.paced_of_reachable htimed
  obtain ⟨hwrites, hbroadcasts⟩ := TimedProcess.rate_of_reachable htimed
  refine ⟨hspent, hwrites.writes_mul_le hpub hpublish,
    hbroadcasts.broadcasts_mul_le hserver hbroadcast, fun hclock => ?_⟩
  have hfew : s.timed.process.shared.updates.length < 2 ^ 31 := by
    by_contra hge
    have hmany : (2 ^ 31 : ℤ) ≤ s.timed.process.shared.updates.length := by
      exact_mod_cast not_lt.mp hge
    have hscaled := Int.mul_le_mul_of_nonneg_right hmany hproduce.le
    omega
  have hinv := PublisherProcess.inv_of_reachable hprocess
  constructor
  · apply (PublisherProcess.wireOrdered_iff hinv).mpr
    intro e he
    have hnames := hinv.publisher.sampler.names e he
    have hnumber := hnames.number_le
    have hseq := hinv.producer.numbered _ _ hnames.2
    change e.item.sequence.toNat = _ at hseq
    rw [Nat.sub_add_cancel hnames.1, Nat.mod_eq_of_lt (by omega)] at hseq
    omega
  · exact PublisherProcess.fresh_of_lt hprocess (by omega)

open PublisherProcess (startEvents tickEvents publishEvents)

/-- An update, its write in the first turn of the publisher, a second update and a broadcast. -/
def demoEvents : List TimedProcess.Event :=
  List.flatten [startEvents.map .process, [.elapse 20], (tickEvents .zero .zero 5).map .process,
    (publishEvents true).dropLast.map .process, [.advance, .elapse 30],
    (tickEvents .zero .zero 25).map .process,
    [.process (.server .tick), .process (.server (.emit fun _ => false))]]

theorem uptime_demo : ∃ s, (machine 20 20 50 7).run (machine 20 20 50 7).init demoEvents = some s ∧
    s.timed.clock = 57 ∧ s.timed.process.shared.updates.length = 2 ∧
    s.timed.process.publisher.writes = 1 ∧
    s.timed.process.server.cast.broadcasts.length = 1 ∧
    7 + s.timed.process.shared.updates.length * 20 ≤ s.timed.clock ∧
    7 + s.timed.process.publisher.writes * 20 ≤ s.timed.clock + 20 ∧
    7 + s.timed.process.server.cast.broadcasts.length * 50 ≤ s.timed.clock ∧
    PublisherProcess.WireOrdered s.timed.process ∧ PublisherProcess.Fresh s.timed.process := by
  obtain ⟨s, hs, hclock, hu, hw, hb⟩ : ∃ s,
      (machine 20 20 50 7).run (machine 20 20 50 7).init demoEvents = some s ∧
      s.timed.clock = 57 ∧ s.timed.process.shared.updates.length = 2 ∧
      s.timed.process.publisher.writes = 1 ∧
      s.timed.process.server.cast.broadcasts.length = 1 := ⟨_, rfl, rfl, rfl, rfl, rfl⟩
  obtain ⟨hupdates, hwrites, hbroadcasts, hsafe⟩ := uptime_of_reachable (by decide) (by decide)
    (by decide) (Machine.reachable_of_run hs)
  obtain ⟨hordered, hfresh⟩ := hsafe (by rw [hclock]; decide)
  exact ⟨s, hs, hclock, hu, hw, hb, hupdates, hwrites, hbroadcasts, hordered, hfresh⟩

end UptimeProcess

end CoordinateStream
