import CoordinateStream.Emission
import CoordinateStream.StopProtocol
import CoordinateStream.Lib.Pacer

namespace CoordinateStream

/-! The deadlines of the publisher and of the server against the steady clock. -/

namespace WebSocketServer

/-- A timer handler that goes on to read the cell runs on the event loop. -/
def TickInLoop (s : WebSocketServer) : Prop := s.inTick = true → s.runPc = .eventLoop

theorem step_tickInLoop {shared : SharedCoordinateState} {s t : WebSocketServer} {e : Event}
    (h : s.TickInLoop) (hs : s.step shared e = some t) : t.TickInLoop := by
  cases e with
  | run ok =>
    have hframe := runStep_frame hs
    intro ht
    have htick : s.inTick = true := hframe.inTick ▸ ht
    exact absurd (htick.symm.trans (hframe.between (h htick))) (by decide)
  | stop i throws =>
    have hframe := stopStep_frame hs
    intro ht
    rw [hframe.runPc]
    exact h (hframe.inTick ▸ ht)
  | onOpen | onClose =>
    simp only [step, Option.ite_none_right_eq_some, Option.some.injEq] at hs
    rw [← hs.2]
    exact h
  | tick =>
    simp only [step, takesHandler, Option.ite_none_right_eq_some, Option.some.injEq,
      Bool.and_eq_true, decide_eq_true_eq] at hs
    rw [← hs.2]
    exact fun _ => hs.1.1.1.1
  | emit fails =>
    simp only [step, Option.ite_none_right_eq_some, Option.some.injEq] at hs
    rw [← hs.2]
    exact fun ht => absurd ht Bool.false_ne_true

/-- Only a tick starts a handler that goes on to read the cell. -/
theorem step_inTick {shared : SharedCoordinateState} {s t : WebSocketServer} {e : Event}
    (hs : s.step shared e = some t) (he : e ≠ .tick) (ht : t.inTick = true) :
    s.inTick = true := by
  cases e with
  | run ok => exact (runStep_frame hs).inTick ▸ ht
  | stop i throws => exact (stopStep_frame hs).inTick ▸ ht
  | onOpen | onClose =>
    simp only [step, Option.ite_none_right_eq_some, Option.some.injEq] at hs
    obtain ⟨-, rfl⟩ := hs
    exact ht
  | tick => exact absurd rfl he
  | emit fails =>
    simp only [step, Option.ite_none_right_eq_some, Option.some.injEq] at hs
    exact hs.1

end WebSocketServer

theorem MessengerPublisherApp.step_stop {shared : SharedCoordinateState}
    {p q : MessengerPublisherApp} {e : Event} (h : p.step shared e = some q)
    (hstop : p.stop = true) : q.stop = true := by
  rcases step_stops h with ⟨-, hq, -, -⟩ | ⟨-, hq, -, -⟩ | ⟨-, -, hq, -, -⟩
  · rw [hq, hstop]
  · exact hq
  · rw [hq, hstop]

theorem PublisherProcess.step_stop {s t : PublisherProcess} {e : Event}
    (h : machine.step s e = some t) (hstop : s.publisher.stop = true) :
    t.publisher.stop = true := by
  rcases step_cases h with ⟨a, p, u, -, -, rfl⟩ | ⟨a, p, -, hp, rfl⟩ | ⟨a, w, -, -, rfl⟩
  · exact hstop
  · exact MessengerPublisherApp.step_stop hp hstop
  · exact hstop

/-- The publisher process under the steady clock. -/
structure TimedProcess where
  process : PublisherProcess
  clock : ℤ
  publisher : Pacer ℤ
  /-- The wait of `MessengerPublisherApp::run` has returned and its deadline is still to be
  moved on; whether the wait found the stop flag set. -/
  waited : Option Bool
  server : Pacer ℤ

namespace TimedProcess

inductive Event
  | elapse (d : ℕ)
  /-- The publisher moves its deadline on, reads the clock and tests for drift. -/
  | advance
  | process (e : PublisherProcess.Event)

/-- The process at its start, where the clock reads `boot`. -/
def init (boot : ℤ) : TimedProcess := ⟨.init, boot, ⟨0, []⟩, none, ⟨0, []⟩⟩

/-- A wait times out no earlier than its deadline, and the thread of the publisher goes on
once its deadline is moved on. -/
def InTime (s : TimedProcess) : PublisherProcess.Event → Prop
  | .publisher (.thread _) => s.waited = none
  | .publisher .timeout => s.publisher.deadline ≤ s.clock
  | .server .tick => s.server.deadline ≤ s.clock
  | _ => True

instance (s : TimedProcess) (e : PublisherProcess.Event) : Decidable (s.InTime e) := by
  unfold InTime
  split <;> infer_instance

/-- The first deadline is set at the start of `run`. -/
def publisherAfter (publishPeriod : ℤ) (s : TimedProcess) : PublisherProcess.Event → Pacer ℤ
  | .publisher (.thread _) =>
    if s.process.publisher.pc = .notStarted then .start publishPeriod s.clock else s.publisher
  | _ => s.publisher

def waitedAfter (s : TimedProcess) : PublisherProcess.Event → Option Bool
  | .publisher (.thread _) =>
    if s.process.publisher.pc = .periodTest ∧ s.process.publisher.stop = true then some true
    else none
  | .publisher .timeout => some false
  | _ => s.waited

/-- The timer handler of a running server moves the deadline on at its end. -/
def serverAfter (broadcastPeriod : ℤ) (s : TimedProcess) : PublisherProcess.Event → Pacer ℤ
  | .server (.run _) =>
    if s.process.server.runPc = .schedule then .start broadcastPeriod s.clock else s.server
  | .server .tick =>
    if s.process.server.running && !s.process.server.cast.wants s.process.shared then
      s.server.advance broadcastPeriod s.clock false
    else s.server
  | .server (.emit _) => s.server.advance broadcastPeriod s.clock false
  | _ => s.server

section step

variable (publishPeriod broadcastPeriod : ℤ)

def step (s : TimedProcess) : Event → Option TimedProcess
  | .elapse d => some { s with clock := s.clock + d }
  | .advance => match s.waited with
    | some cut => some { s with
        publisher := s.publisher.advance publishPeriod s.clock cut
        waited := none }
    | none => none
  | .process e =>
    if s.InTime e then
      (s.process.step e).map fun p => { s with
        process := p
        publisher := s.publisherAfter publishPeriod e
        waited := s.waitedAfter e
        server := s.serverAfter broadcastPeriod e }
    else none

def machine (boot : ℤ) : Machine TimedProcess Event :=
  ⟨init boot, step publishPeriod broadcastPeriod⟩

end step

variable {publishPeriod broadcastPeriod boot : ℤ}

structure PublisherPaced (period : ℤ) (s : TimedProcess) : Prop where
  paced : Pacer.Paced period s.publisher.first s.publisher.turns
  waited : s.waited = some false → s.publisher.deadline ≤ s.clock
  waited_cut : s.waited = some true → s.process.publisher.stop = true
  cut : ∀ t ∈ s.publisher.turns, t.cut = true → s.process.publisher.stop = true

structure ServerPaced (period : ℤ) (s : TimedProcess) : Prop where
  paced : Pacer.Paced period s.server.first s.server.turns
  tickInLoop : s.process.server.TickInLoop
  inTick : s.process.server.inTick = true → s.server.deadline ≤ s.clock
  uncut : ∀ t ∈ s.server.turns, t.cut = false

theorem advance_publisherPaced {s : TimedProcess} (h : s.PublisherPaced publishPeriod) {cut : Bool}
    (hw : s.waited = some cut) : PublisherPaced publishPeriod { s with
      publisher := s.publisher.advance publishPeriod s.clock cut
      waited := none } := by
  refine ⟨h.paced.concat fun hc => h.waited (by rw [hw, hc]), nofun, nofun, ?_⟩
  intro t ht hcut
  rcases List.mem_append.mp ht with ht | ht
  · exact h.cut t ht hcut
  · rw [List.mem_singleton.mp ht, Pacer.turn_cut] at hcut
    exact h.waited_cut (by rw [hw, hcut])

theorem process_publisherPaced {s : TimedProcess} (h : s.PublisherPaced publishPeriod)
    {e : PublisherProcess.Event} {p : PublisherProcess} {server : Pacer ℤ} (he : s.InTime e)
    (hp : s.process.step e = some p) : PublisherPaced publishPeriod { s with
      process := p
      publisher := s.publisherAfter publishPeriod e
      waited := s.waitedAfter e
      server := server } := by
  have hstop := PublisherProcess.step_stop hp
  have hcut : ∀ t ∈ s.publisher.turns, t.cut = true → p.publisher.stop = true :=
    fun t ht hc => hstop (h.cut t ht hc)
  have hother (hq : s.publisherAfter publishPeriod e = s.publisher)
      (hw : s.waitedAfter e = s.waited) : PublisherPaced publishPeriod { s with
        process := p
        publisher := s.publisherAfter publishPeriod e
        waited := s.waitedAfter e
        server := server } := by
    rw [hq, hw]
    exact ⟨h.paced, h.waited, fun ht => hstop (h.waited_cut ht), hcut⟩
  cases e with
  | producer a => exact hother rfl rfl
  | server a => exact hother rfl rfl
  | publisher a =>
    cases a with
    | thread ok =>
      refine ⟨?_, ?_, ?_, ?_⟩
      · simp only [publisherAfter]
        split_ifs
        · trivial
        · exact h.paced
      · simp only [waitedAfter]
        split_ifs <;> exact nofun
      · simp only [waitedAfter]
        split_ifs with hcond
        · exact fun _ => hstop hcond.2
        · exact nofun
      · simp only [publisherAfter]
        split_ifs
        · exact fun t ht => absurd ht List.not_mem_nil
        · exact hcut
    | timeout => exact ⟨h.paced, fun _ => he, nofun, hcut⟩
    | matched | matchedNotify | stopStore | stopNotify => exact hother rfl rfl

theorem step_publisherPaced {s t : TimedProcess} {e : Event}
    (h : s.PublisherPaced publishPeriod)
    (hs : (machine publishPeriod broadcastPeriod boot).step s e = some t) :
    t.PublisherPaced publishPeriod := by
  cases e with
  | elapse d =>
    rw [← Option.some.inj hs]
    exact ⟨h.paced, fun hw => (h.waited hw).trans (by simp), h.waited_cut, h.cut⟩
  | advance =>
    simp only [machine, step] at hs
    split at hs
    · next cut hw =>
      rw [← Option.some.inj hs]
      exact advance_publisherPaced h hw
    · cases hs
  | process e =>
    simp only [machine, step, Option.ite_none_right_eq_some, Option.map_eq_some_iff] at hs
    obtain ⟨he, p, hp, rfl⟩ := hs
    exact process_publisherPaced h he hp

/-- The end of a timer handler, which was not called before the deadline. -/
theorem advance_serverPaced {s : TimedProcess} (h : s.ServerPaced broadcastPeriod)
    (hd : s.server.deadline ≤ s.clock) :
    Pacer.Paced broadcastPeriod s.server.first
        (s.server.advance broadcastPeriod s.clock false).turns ∧
      ∀ t ∈ (s.server.advance broadcastPeriod s.clock false).turns, t.cut = false := by
  refine ⟨h.paced.concat fun _ => hd, fun t ht => ?_⟩
  rcases List.mem_append.mp ht with ht | ht
  · exact h.uncut t ht
  · rw [List.mem_singleton.mp ht, Pacer.turn_cut]

theorem process_serverPaced {s : TimedProcess} (h : s.ServerPaced broadcastPeriod)
    {e : PublisherProcess.Event} {p : PublisherProcess} {publisher : Pacer ℤ}
    {waited : Option Bool} (he : s.InTime e) (hp : s.process.step e = some p) :
    ServerPaced broadcastPeriod { s with
      process := p
      publisher := publisher
      waited := waited
      server := s.serverAfter broadcastPeriod e } := by
  rcases PublisherProcess.step_cases hp with
    ⟨a, q, u, rfl, -, rfl⟩ | ⟨a, q, rfl, -, rfl⟩ | ⟨a, w, rfl, hw, rfl⟩
  · exact ⟨h.paced, h.tickInLoop, h.inTick, h.uncut⟩
  · exact ⟨h.paced, h.tickInLoop, h.inTick, h.uncut⟩
  · have hloop := WebSocketServer.step_tickInLoop h.tickInLoop hw
    have hinTick := WebSocketServer.step_inTick hw
    cases a with
    | onOpen | onClose | stop =>
      exact ⟨h.paced, hloop, fun ht => h.inTick (hinTick nofun ht), h.uncut⟩
    | run ok =>
      simp only [serverAfter]
      split_ifs with hpc
      · refine ⟨trivial, hloop, fun ht => ?_, fun t ht => absurd ht List.not_mem_nil⟩
        exact absurd (hpc.symm.trans (h.tickInLoop (hinTick nofun ht))) (by decide)
      · exact ⟨h.paced, hloop, fun ht => h.inTick (hinTick nofun ht), h.uncut⟩
    | tick =>
      simp only [serverAfter]
      split_ifs with hdone
      · obtain ⟨hpaced, huncut⟩ := advance_serverPaced h he
        refine ⟨hpaced, hloop, fun ht => ?_, huncut⟩
        simp only [WebSocketServer.step, Option.ite_none_right_eq_some, Option.some.injEq] at hw
        rw [← hw.2] at ht
        simp only [Bool.and_eq_true, Bool.not_eq_true'] at hdone ht
        exact absurd (hdone.2.symm.trans ht.2) (by decide)
      · exact ⟨h.paced, hloop, fun _ => he, h.uncut⟩
    | emit fails =>
      simp only [WebSocketServer.step, Option.ite_none_right_eq_some, Option.some.injEq] at hw
      obtain ⟨hpaced, huncut⟩ := advance_serverPaced h (h.inTick hw.1)
      refine ⟨hpaced, hloop, fun ht => ?_, huncut⟩
      rw [← hw.2] at ht
      cases ht

theorem step_serverPaced {s t : TimedProcess} {e : Event} (h : s.ServerPaced broadcastPeriod)
    (hs : (machine publishPeriod broadcastPeriod boot).step s e = some t) :
    t.ServerPaced broadcastPeriod := by
  cases e with
  | elapse d =>
    rw [← Option.some.inj hs]
    exact ⟨h.paced, h.tickInLoop, fun ht => (h.inTick ht).trans (by simp), h.uncut⟩
  | advance =>
    simp only [machine, step] at hs
    split at hs
    · rw [← Option.some.inj hs]
      exact ⟨h.paced, h.tickInLoop, h.inTick, h.uncut⟩
    · cases hs
  | process e =>
    simp only [machine, step, Option.ite_none_right_eq_some, Option.map_eq_some_iff] at hs
    obtain ⟨he, p, hp, rfl⟩ := hs
    exact process_serverPaced h he hp

theorem paced_of_reachable {s : TimedProcess}
    (h : (machine publishPeriod broadcastPeriod boot).Reachable s) :
    s.PublisherPaced publishPeriod ∧ s.ServerPaced broadcastPeriod :=
  h.invariant
    (I := fun s => s.PublisherPaced publishPeriod ∧ s.ServerPaced broadcastPeriod)
    ⟨⟨trivial, nofun, nofun, fun _ ht => absurd ht List.not_mem_nil⟩,
      ⟨trivial, nofun, nofun, fun _ ht => absurd ht List.not_mem_nil⟩⟩
    fun _ hi _ hs => ⟨step_publisherPaced hi.1 hs, step_serverPaced hi.2 hs⟩

/-- Both loops keep their pace in every run, however long their turns and their waits last,
and a turn is cut short by a stop of the publisher only. -/
theorem bounded_of_reachable (hpublish : 0 < publishPeriod) (hbroadcast : 0 < broadcastPeriod)
    {s : TimedProcess} (h : (machine publishPeriod broadcastPeriod boot).Reachable s) :
    Pacer.Bounded publishPeriod s.publisher.turns ∧
      Pacer.Bounded broadcastPeriod s.server.turns ∧
      (∀ t ∈ s.publisher.turns, t.cut = true → s.process.publisher.stop = true) ∧
      ∀ t ∈ s.server.turns, t.cut = false := by
  obtain ⟨hpub, hserver⟩ := paced_of_reachable h
  exact ⟨hpub.paced.bounded hpublish, hserver.paced.bounded hbroadcast, hpub.cut, hserver.uncut⟩

open PublisherProcess (startEvents)

/-- A turn of the publisher that has no data to write and times out. -/
def idleEvents : List Event :=
  (List.replicate 4 (.process (.publisher (.thread true)))) ++
    [.elapse 20, .process (.publisher .timeout), .advance, .process (.publisher (.thread true))]

/-- Two turns of the publisher, and two of the server, the second one after a stall. -/
def demoEvents : List Event :=
  List.flatten [startEvents.map .process, idleEvents, idleEvents,
    [.elapse 10, .process (.server .tick), .elapse 500, .process (.server .tick)]]

theorem bounded_demo : ∃ s, (machine 20 50 7).run (init 7) demoEvents = some s ∧
    s.publisher.turns.map Turn.deadline = [47, 67] ∧
    s.server.turns.map Turn.reset = [false, true] ∧
    Pacer.Bounded 20 s.publisher.turns ∧ Pacer.Bounded 50 s.server.turns ∧
    (∀ t ∈ s.publisher.turns, t.cut = true → s.process.publisher.stop = true) ∧
    ∀ t ∈ s.server.turns, t.cut = false := by
  obtain ⟨s, hs, hp, hq⟩ : ∃ s, (machine 20 50 7).run (init 7) demoEvents = some s ∧
      s.publisher.turns.map Turn.deadline = [47, 67] ∧
      s.server.turns.map Turn.reset = [false, true] := ⟨_, rfl, rfl, rfl⟩
  exact ⟨s, hs, hp, hq, bounded_of_reachable (by decide) (by decide)
    (Machine.reachable_of_run hs)⟩

/-- A stop in the first wait of the publisher. -/
def stopEvents : List Event :=
  List.flatten [startEvents.map .process,
    List.replicate 4 (.process (.publisher (.thread true))),
    [.process (.publisher .stopStore), .process (.publisher .stopNotify),
      .process (.publisher (.thread true)), .advance]]

/-- A wait that a stop cuts short leaves a deadline of more than a period ahead. -/
theorem deadline_ahead_after_stop : ∃ s t, (machine 20 50 7).Reachable s ∧
    s.publisher.turns = [t] ∧ t.now + 20 < t.deadline := by
  obtain ⟨s, hs, ht⟩ : ∃ s, (machine 20 50 7).run (init 7) stopEvents = some s ∧
      s.publisher.turns = [⟨7, 47, false, true⟩] := ⟨_, rfl, rfl⟩
  exact ⟨s, _, Machine.reachable_of_run hs, ht, by decide⟩

end TimedProcess

end CoordinateStream
