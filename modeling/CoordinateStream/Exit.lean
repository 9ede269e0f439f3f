import CoordinateStream.MainProcess
import CoordinateStream.Residue
import CoordinateStream.Lib.Ranking

namespace CoordinateStream

/-! Once the handler of the signals has done its work, the threads of the publisher come to
their ends, and `main` with them. -/

namespace CoordinateProducer

/-- The steps that the thread of a stopped producer has still to make, at most. -/
def stepsLeft (p : CoordinateProducer) : ℕ :=
  match p.pc with
  | .finished => 0
  | .eventLoop => 1
  | .arming _ => 2
  | .starting | .updated => 3
  | .notStarted | .sequenced _ _ _ _ => 4
  | .generated _ _ _ => 5

/-- The statements of `stop`, which the thread of the producer does not make. -/
def Event.isStop : Event → Bool
  | .stopStore | .stopCancel _ | .stopContext => true
  | _ => false

theorem step_isStop {p q : CoordinateProducer} {e : Event} {u : Option CoordinateData}
    (he : e.isStop = true) (h : p.step e = some (q, u)) :
    q.pc = p.pc ∧ (p.contextStopped = true → q.contextStopped = true) := by
  cases e with
  | stopStore =>
    simp only [step, Option.some.injEq, Prod.mk.injEq] at h
    rw [← h.1]
    exact ⟨rfl, id⟩
  | stopCancel | stopContext =>
    simp only [step, Option.ite_none_right_eq_some, Option.some.injEq, Prod.mk.injEq] at h
    rw [← h.2.1]
    exact ⟨rfl, by simp⟩
  | _ => cases he

/-- Behind a stopped context no handler is taken up any more. -/
theorem step_stepsLeft {p q : CoordinateProducer} {e : Event} {u : Option CoordinateData}
    (hp : p.contextStopped = true) (he : e.isStop = false) (h : p.step e = some (q, u)) :
    q.contextStopped = true ∧ q.stepsLeft < p.stepsLeft := by
  cases e with
  | start =>
    simp only [step, Option.ite_none_right_eq_some, Option.some.injEq, Prod.mk.injEq] at h
    obtain ⟨hpc, rfl, -⟩ := h
    cases hrunning : p.running <;> simp [stepsLeft, hpc, hp]
  | scheduleTest =>
    simp only [step] at h
    split at h <;> simp only [Option.some.injEq, Prod.mk.injEq, reduceCtorEq] at h
    all_goals
      next hpc =>
      rw [← h.1]
      cases hrunning : p.running <;> simp [stepsLeft, hpc, hp]
  | arm | fetchAdd | update =>
    simp only [step] at h
    split at h <;> simp only [Option.some.injEq, Prod.mk.injEq, reduceCtorEq] at h
    next hpc =>
    rw [← h.1]
    simp [stepsLeft, hpc, hp]
  | fire | abort => simp [step, hp] at h
  | leaveLoop =>
    simp only [step, Option.ite_none_right_eq_some, Option.some.injEq, Prod.mk.injEq] at h
    obtain ⟨⟨hpc, -⟩, rfl, -⟩ := h
    simp [stepsLeft, hpc, hp]
  | stopStore | stopCancel | stopContext => cases he

theorem exists_step {p : CoordinateProducer} (hp : p.contextStopped = true)
    (hpc : p.pc ≠ .finished) : ∃ e, e.isStop = false ∧ (p.step e).isSome := by
  cases h : p.pc with
  | notStarted => exact ⟨.start, rfl, by simp [step, h]⟩
  | starting | updated => exact ⟨.scheduleTest, rfl, by simp [step, h]⟩
  | arming inHandler => exact ⟨.arm, rfl, by simp [step, h]⟩
  | eventLoop => exact ⟨.leaveLoop, rfl, by simp [step, h, hp]⟩
  | generated lon lat t => exact ⟨.fetchAdd, rfl, by simp [step, h]⟩
  | sequenced lon lat t n => exact ⟨.update, rfl, by simp [step, h]⟩
  | finished => exact absurd h hpc

end CoordinateProducer

namespace MessengerPublisherApp

/-- The thread has seen its stop flag or is going to: it neither sleeps in the untimed wait nor
is about to. -/
structure Awake (p : MessengerPublisherApp) : Prop where
  stop : p.stop = true
  deciding : p.pc ≠ .waitBlock
  asleep : p.pc ≠ .waitBlocked

/-- The steps that the thread of a stopped publisher has still to make, at most. -/
def stepsLeft (p : MessengerPublisherApp) : ℕ :=
  match p.pc with
  | .finished => 0
  | .loop => 1
  | .notStarted | .periodTest | .periodBlocked => 2
  | .returned _ | .periodBlock => 3
  | .write _ => 4
  | .read => 5
  | .waited => 6
  | .waitTest => 7
  | .publish => 8
  | .waitBlock | .waitBlocked => 9

/-- The statements of the thread of `run`, as opposed to the callbacks and to `stop`. -/
def Event.isRun : Event → Bool
  | .thread _ | .timeout => true
  | _ => false

theorem threadStep_awake {shared : SharedCoordinateState} {ok : Bool}
    {p q : MessengerPublisherApp} (hp : p.Awake) (h : p.threadStep shared ok = some q) :
    q.Awake ∧ q.stepsLeft < p.stepsLeft := by
  obtain ⟨hstop, hdeciding, hasleep⟩ := hp
  unfold threadStep at h
  cases hpc : p.pc with
  | waitBlock => exact absurd hpc hdeciding
  | waitBlocked => exact absurd hpc hasleep
  | periodBlocked | finished => simp [hpc] at h
  | publish | read =>
    simp only [hpc, Option.some.injEq] at h
    subst h
    split_ifs <;> exact ⟨⟨hstop, by simp, by simp⟩, by simp [stepsLeft, hpc]⟩
  | notStarted | loop | waitTest | waited | write | returned | periodTest | periodBlock =>
    simp only [hpc, Option.some.injEq] at h
    subst h
    exact ⟨⟨by simpa [writeSample] using hstop, by simp [hstop], by simp [hstop]⟩,
      by simp [stepsLeft, hpc, hstop]⟩

/-- A stop that was seen is not forgotten, and the thread of `run` comes nearer to its end. -/
theorem step_awake {shared : SharedCoordinateState} {p q : MessengerPublisherApp} {e : Event}
    (hp : p.Awake) (h : p.step shared e = some q) :
    q.Awake ∧ q.stepsLeft ≤ p.stepsLeft ∧ (e.isRun = true → q.stepsLeft < p.stepsLeft) := by
  have hkeep {q : MessengerPublisherApp} (hstop : q.stop = true) (hpc : q.pc = p.pc) :
      q.Awake ∧ q.stepsLeft = p.stepsLeft := by
    refine ⟨⟨hstop, hpc ▸ hp.deciding, hpc ▸ hp.asleep⟩, ?_⟩
    rw [stepsLeft, hpc, stepsLeft]
  -- a notification ends the timed wait only, for the untimed one is not entered any more
  have hnotify : p.notifyOne.Awake ∧ p.notifyOne.stepsLeft = p.stepsLeft := by
    obtain ⟨hstop, hdeciding, hasleep⟩ := hp
    have hpc : p.notifyOne.pc = p.pc ∨
        p.pc = .periodBlocked ∧ p.notifyOne.pc = .periodTest := by
      cases h : p.pc with
      | waitBlocked => exact absurd h hasleep
      | _ => simp [notifyOne, h]
    rcases hpc with hsame | ⟨hblocked, htest⟩
    · exact hkeep (q := p.notifyOne) hstop hsame
    · exact ⟨⟨hstop, by simp [htest], by simp [htest]⟩, by simp [stepsLeft, htest, hblocked]⟩
  cases e with
  | thread ok =>
    obtain ⟨hq, hlt⟩ := threadStep_awake hp h
    exact ⟨hq, hlt.le, fun _ => hlt⟩
  | timeout =>
    simp only [step, Option.ite_none_right_eq_some, Option.some.injEq] at h
    obtain ⟨hpc, rfl⟩ := h
    have hlt : stepsLeft { p with pc := .loop } < p.stepsLeft := by simp [stepsLeft, hpc]
    exact ⟨⟨hp.stop, by simp, by simp⟩, hlt.le, fun _ => hlt⟩
  | matched info =>
    simp only [step, Option.ite_none_left_eq_some, Option.some.injEq] at h
    obtain ⟨-, rfl⟩ := h
    have hsame : (p.onPublicationMatched info).stop = p.stop ∧
        (p.onPublicationMatched info).pc = p.pc := by
      unfold onPublicationMatched
      split_ifs <;> exact ⟨rfl, rfl⟩
    obtain ⟨hq, heq⟩ := hkeep (hsame.1.trans hp.stop) hsame.2
    exact ⟨hq, heq.le, by simp [Event.isRun]⟩
  | stopStore =>
    simp only [step, Option.some.injEq] at h
    obtain ⟨hq, heq⟩ := hkeep (q := q) (by rw [← h]) (by rw [← h])
    exact ⟨hq, heq.le, by simp [Event.isRun]⟩
  | matchedNotify | stopNotify =>
    simp only [step, Option.ite_none_right_eq_some, Option.some.injEq] at h
    obtain ⟨-, rfl⟩ := h
    obtain ⟨⟨hstop, hdeciding, hasleep⟩, heq⟩ := hnotify
    exact ⟨⟨hstop, hdeciding, hasleep⟩, heq.le, by simp [Event.isRun]⟩

theorem exists_step {p : MessengerPublisherApp} (hp : p.Awake) (hpc : p.pc ≠ .finished)
    (shared : SharedCoordinateState) : ∃ e, e.isRun = true ∧ (p.step shared e).isSome := by
  cases h : p.pc with
  | waitBlock => exact absurd h hp.deciding
  | waitBlocked => exact absurd h hp.asleep
  | finished => exact absurd h hpc
  | periodBlocked => exact ⟨.timeout, rfl, by simp [step, h]⟩
  | _ => exact ⟨.thread true, rfl, by simp [step, threadStep, h]⟩

end MessengerPublisherApp

namespace WebSocketServer

/-- The steps that the thread of a stopped server has still to make, at most. -/
def stepsLeft (s : WebSocketServer) : ℕ :=
  (if s.inTick then 1 else 0) + match s.runPc with
    | .finished => 0
    | .eventLoop => 1
    | .enterLoop => 2
    | .schedule => 3
    | .startAccept => 4
    | .listen => 5
    | .setHandlers => 6
    | .initAsio => 7
    | .notStarted => 8

/-- The statements of `stop`, which the thread of the server does not make. -/
def Event.isStop : Event → Bool
  | .stop _ _ => true
  | _ => false

theorem runStep_stepsLeft {s t : WebSocketServer} {ok : Bool} (h : s.runStep ok = some t) :
    t.stepsLeft < s.stepsLeft := by
  have hframe := runStep_frame h
  unfold runStep at h
  unfold stepsLeft
  rw [hframe.inTick]
  apply Nat.add_lt_add_left
  cases hpc : s.runPc with
  | finished => exact absurd hpc hframe.unfinished
  | eventLoop =>
    simp only [hpc, Option.ite_none_right_eq_some, Option.some.injEq] at h
    rw [← h.2]
    simp
  | listen =>
    simp only [hpc] at h
    split_ifs at h <;> cases h <;> simp
  | initAsio | startAccept =>
    simp only [hpc, Option.some.injEq] at h
    subst h
    cases ok <;> simp
  | notStarted | setHandlers | schedule | enterLoop =>
    simp only [hpc, Option.some.injEq] at h
    subst h
    simp

/-- Behind a stopped endpoint no handler is taken up any more. -/
theorem step_stepsLeft {shared : SharedCoordinateState} {s t : WebSocketServer} {e : Event}
    (hs : s.stopRequested = true) (he : e.isStop = false) (h : s.step shared e = some t) :
    t.stopRequested = true ∧ t.stepsLeft < s.stepsLeft := by
  have htakes : s.takesHandler = false := by simp [takesHandler, hs]
  cases e with
  | run ok => exact ⟨(runStep_frame h).stopRequested.trans hs, runStep_stepsLeft h⟩
  | stop i throws => cases he
  | onOpen | onClose | tick => simp [step, htakes] at h
  | emit fails =>
    simp only [step, Option.ite_none_right_eq_some, Option.some.injEq] at h
    obtain ⟨htick, rfl⟩ := h
    exact ⟨hs, by simp [stepsLeft, htick]⟩

theorem stopStep_stopRequested {s t : WebSocketServer} {i : ℕ} {throws : Bool}
    (hs : s.stopRequested = true) (h : s.stopStep i throws = some t) :
    t.stopRequested = true := by
  unfold stopStep at h
  cases hc : s.calls i with
  | close it =>
    cases it with
    | none | some =>
      simp only [hc, Option.some.injEq] at h
      rw [← h]
      exact hs
  | stopListening =>
    simp only [hc] at h
    split_ifs at h <;> cases h <;> exact hs
  | notCalled | clear =>
    simp only [hc, Option.some.injEq] at h
    rw [← h]
    exact hs
  | serverStop =>
    simp only [hc, Option.some.injEq] at h
    rw [← h]
  | returned => simp [hc] at h

theorem exists_step {s : WebSocketServer} (hs : s.stopRequested = true)
    (hpc : s.runPc ≠ .finished) (shared : SharedCoordinateState) :
    ∃ e, e.isStop = false ∧ (s.step shared e).isSome := by
  cases htick : s.inTick with
  | true => exact ⟨.emit fun _ => false, rfl, by simp [step, htick]⟩
  | false =>
    refine ⟨.run true, rfl, ?_⟩
    cases h : s.runPc with
    | finished => exact absurd h hpc
    | _ => simp [step, runStep, h, hs, htick]

end WebSocketServer

namespace PublisherProcess

/-- Each of the three components is stopped for good. -/
structure Stopped (s : PublisherProcess) : Prop where
  producer : s.producer.contextStopped = true
  publisher : s.publisher.Awake
  server : s.server.stopRequested = true

def stepsLeft (s : PublisherProcess) : ℕ :=
  s.producer.stepsLeft + s.publisher.stepsLeft + s.server.stepsLeft

/-- The statements of the three threads. -/
def Event.isThread : Event → Bool
  | .producer e => !e.isStop
  | .publisher e => e.isRun
  | .server e => !e.isStop

theorem step_stopped {s t : PublisherProcess} {e : Event} (h : s.Stopped)
    (ht : machine.step s e = some t) :
    t.Stopped ∧ t.stepsLeft ≤ s.stepsLeft ∧ (e.isThread = true → t.stepsLeft < s.stepsLeft) := by
  obtain ⟨hproducer, hpublisher, hserver⟩ := h
  unfold stepsLeft
  rcases step_cases ht with ⟨a, p, u, rfl, hp, rfl⟩ | ⟨a, p, rfl, hp, rfl⟩ | ⟨a, w, rfl, hw, rfl⟩
  -- further calls of `stop` cost no step of a thread
  · cases ha : a.isStop with
    | true =>
      obtain ⟨hpc, hkept⟩ := CoordinateProducer.step_isStop ha hp
      have heq : p.stepsLeft = s.producer.stepsLeft := by
        rw [CoordinateProducer.stepsLeft, hpc, CoordinateProducer.stepsLeft]
      refine ⟨⟨hkept hproducer, hpublisher, hserver⟩, ?_, ?_⟩
      · dsimp only
        omega
      · simp [Event.isThread, ha]
    | false =>
      obtain ⟨hkept, hlt⟩ := CoordinateProducer.step_stepsLeft hproducer ha hp
      refine ⟨⟨hkept, hpublisher, hserver⟩, ?_, fun _ => ?_⟩ <;> dsimp only <;> omega
  · obtain ⟨hawake, hle, hlt⟩ := MessengerPublisherApp.step_awake hpublisher hp
    refine ⟨⟨hproducer, hawake, hserver⟩, ?_, fun ha => ?_⟩
    · dsimp only
      omega
    · have := hlt ha
      dsimp only
      omega
  · cases ha : a.isStop with
    | true =>
      cases a with
      | stop i throws =>
        have hframe := WebSocketServer.stopStep_frame hw
        have heq : w.stepsLeft = s.server.stepsLeft := by
          rw [WebSocketServer.stepsLeft, hframe.runPc, hframe.inTick, WebSocketServer.stepsLeft]
        refine ⟨⟨hproducer, hpublisher, WebSocketServer.stopStep_stopRequested hserver hw⟩, ?_, ?_⟩
        · dsimp only
          omega
        · simp [Event.isThread, ha]
      | _ => cases ha
    | false =>
      obtain ⟨hkept, hlt⟩ := WebSocketServer.step_stepsLeft hserver ha hw
      refine ⟨⟨hproducer, hpublisher, hkept⟩, ?_, fun _ => ?_⟩ <;> dsimp only <;> omega

theorem stop_of_returned {s : PublisherProcess} (h : machine.Reachable s) :
    0 < s.publisher.stopsReturned → s.publisher.stop = true := by
  apply h.invariant (I := fun s => 0 < s.publisher.stopsReturned → s.publisher.stop = true)
  · exact fun hpos => absurd hpos (by decide)
  · intro s t e hr hs _ ht
    rcases step_cases ht with ⟨a, p, u, -, -, rfl⟩ | ⟨a, p, -, hp, rfl⟩ | ⟨a, w, -, -, rfl⟩
    · exact hs
    · rcases MessengerPublisherApp.step_stops hp with
        ⟨-, hstop, -, hret⟩ | ⟨-, hstop, -, -⟩ | ⟨-, hpos, hstop, -, -⟩
      · intro hq
        exact hstop.trans (hs (hret ▸ hq))
      · exact fun _ => hstop
      · exact fun _ => hstop.trans (stored_of_reachable hr hpos)
    · exact hs

theorem Stopped.stepsLeft_le {s : PublisherProcess} (h : s.Stopped) : s.stepsLeft ≤ 22 := by
  have hproducer : s.producer.stepsLeft ≤ 5 := by
    unfold CoordinateProducer.stepsLeft
    split <;> decide
  have hpublisher : s.publisher.stepsLeft ≤ 8 := by
    have hdeciding := h.publisher.deciding
    have hasleep := h.publisher.asleep
    unfold MessengerPublisherApp.stepsLeft
    split <;> first | decide | contradiction
  have hserver : s.server.stepsLeft ≤ 9 := by
    unfold WebSocketServer.stepsLeft
    split_ifs <;> cases s.server.runPc <;> decide
  unfold stepsLeft
  omega

end PublisherProcess

namespace Messengermain

variable {round : ℚ≥0 → Option ℚ≥0}

/-- The statements of `main` and of the threads it joins, as opposed to the callbacks of DDS, the
signals and their handlers. -/
def isThread : Event → Bool
  | .main _ | .producer _ | .server _ => true
  | e => isAppRun e

/-- The steps that `main` and its threads have still to make, at most. -/
def stepsLeft (s : Messengermain) : ℕ := s.rest.length + s.process.stepsLeft

/-- A statement of `main` that waits for a thread. -/
def Statement.isJoin : Statement → Bool
  | .join _ => true
  | _ => false

/-- Behind the setup of the signals `main` only joins. -/
theorem body_joins : ∀ l ∈ (body .publisher).tails, .installSignals ∉ l →
    l.length ≤ 3 ∧ ∀ st ∈ l, st.isJoin = true := by decide

/-- `main` has set everything going and the three components are stopped for good. -/
structure Stopping (s : Messengermain) : Prop where
  publishing : s.Publishing
  threw : s.threw = false
  installed : s.installed = true
  started : ∀ c, s.started c = true
  stopped : s.process.Stopped

theorem Stopping.joins {s : Messengermain} (h : s.Stopping) :
    s.rest.length ≤ 3 ∧ ∀ st ∈ s.rest, st.isJoin = true := by
  apply body_joins
  · rw [List.mem_tails, ← h.publishing.mode]
    exact h.publishing.wired.suffix
  · exact h.publishing.wired.installed h.installed

/-- A statement of `main` that joins leaves all else alone. -/
theorem Stopping.mainStep_eq {s t : Messengermain} (h : s.Stopping) {ok : Bool}
    (ht : s.mainStep ok = some t) : ∃ st l, s.rest = st :: l ∧ t = { s with rest := l } := by
  unfold mainStep at ht
  split at ht
  · cases ht
  · next st l hrest =>
    have hjoin := h.joins.2 st (hrest ▸ List.mem_cons_self)
    cases st with
    | join c =>
      rw [if_neg (by simp [h.threw]), if_neg (by simp)] at ht
      simp only [execute, Option.ite_none_right_eq_some, Option.some.injEq] at ht
      exact ⟨_, l, hrest, ht.2.symm⟩
    | _ => cases hjoin

/-- What is not a statement of `main` leaves the place it has reached alone. -/
theorem step_frame {s t : Messengermain} {e : Event} (h : s.Publishing)
    (ht : step round s e = some t) (hne : ∀ ok, e ≠ .main ok) :
    t.rest = s.rest ∧ t.threw = s.threw ∧ t.installed = s.installed ∧ t.started = s.started := by
  unfold step at ht
  split at ht
  · cases ht
  cases e with
  | main ok => exact absurd rfl (hne ok)
  | producer e =>
    obtain ⟨hst, ht⟩ := Option.ite_none_right_eq_some.mp ht
    obtain ⟨p, shared, q, u, -, -, -, rfl⟩ := producerStep_eq h hst ht
    exact ⟨rfl, rfl, rfl, rfl⟩
  | publisher e =>
    obtain ⟨a, shared, b, -, -, -, rfl⟩ := publisherStep_eq h ht
    exact ⟨rfl, rfl, rfl, rfl⟩
  | subscriber e fails =>
    simp only [subscriberStep_eq_none h] at ht
    cases ht
  | server e =>
    obtain ⟨hst, ht⟩ := Option.ite_none_right_eq_some.mp ht
    obtain ⟨w, shared, w', -, -, -, rfl⟩ := serverStep_eq h hst ht
    exact ⟨rfl, rfl, rfl, rfl⟩
  | signal i =>
    simp only [Option.ite_none_right_eq_some, Option.some.injEq] at ht
    obtain ⟨-, rfl⟩ := ht
    exact ⟨rfl, rfl, rfl, rfl⟩
  | handler i outcome =>
    cases handlerStep_eq h ht with
    | producer | app | server =>
      next eq =>
      subst eq
      exact ⟨rfl, rfl, rfl, rfl⟩

/-- A statement of a thread is one of the process too, unless it is one of `main`. -/
theorem processLabel_isThread {s t : Messengermain} {e : Event} (h : s.Publishing)
    (ht : step round s e = some t) (he : isThread e = true) (hne : ∀ ok, e ≠ .main ok) :
    ∃ b, s.processLabel e = some b ∧ b.isThread = true := by
  unfold step at ht
  split at ht
  · cases ht
  next hguard =>
  simp only [Bool.or_eq_true, not_or, Bool.not_eq_true] at hguard
  obtain ⟨⟨-, hstop⟩, -⟩ := hguard
  cases e with
  | main ok => exact absurd rfl (hne ok)
  | producer e =>
    refine ⟨_, rfl, ?_⟩
    cases e <;> first | rfl | cases hstop
  | publisher e =>
    refine ⟨_, rfl, ?_⟩
    cases e <;> first | rfl | cases he
  | subscriber e fails =>
    simp only [subscriberStep_eq_none h] at ht
    cases ht
  | server e =>
    refine ⟨_, rfl, ?_⟩
    cases e <;> first | rfl | cases hstop
  | signal i => cases he
  | handler i outcome => cases he

theorem step_stopping {s t : Messengermain} {e : Event} (h : s.Stopping)
    (ht : step round s e = some t) :
    t.Stopping ∧ t.stepsLeft ≤ s.stepsLeft ∧ (isThread e = true → t.stepsLeft < s.stepsLeft) := by
  obtain ⟨hpublishing, hsilent, hprocess⟩ := step_process h.publishing ht
  unfold stepsLeft
  -- a statement of `main` is a join that came back, all else is a step of the process
  by_cases hmain : ∃ ok, e = .main ok
  · obtain ⟨ok, rfl⟩ := hmain
    have hstep : s.mainStep ok = some t := by
      unfold step at ht
      split at ht
      · cases ht
      · exact ht
    obtain ⟨st, l, hrest, rfl⟩ := h.mainStep_eq hstep
    have hlt : l.length < s.rest.length := by simp [hrest]
    refine ⟨⟨hpublishing, h.threw, h.installed, h.started, h.stopped⟩, ?_, fun _ => ?_⟩
    · exact Nat.add_le_add_right hlt.le _
    · exact Nat.add_lt_add_right hlt _
  · have hne : ∀ ok, e ≠ .main ok := fun ok he => hmain ⟨ok, he⟩
    obtain ⟨hrest, hthrew, hinstalled, hstarted⟩ := step_frame h.publishing ht hne
    have hstopping (hstopped : t.process.Stopped) : t.Stopping :=
      ⟨hpublishing, hthrew.trans h.threw, hinstalled.trans h.installed,
        fun c => hstarted ▸ h.started c, hstopped⟩
    rw [hrest]
    cases hl : s.processLabel e with
    | none =>
      have hsame := hsilent hl
      rw [hsame]
      refine ⟨hstopping (hsame ▸ h.stopped), le_refl _, fun he => ?_⟩
      obtain ⟨b, hb, -⟩ := processLabel_isThread h.publishing ht he hne
      rw [hl] at hb
      cases hb
    | some b =>
      obtain ⟨hstopped, hle, hlt⟩ := PublisherProcess.step_stopped h.stopped (hprocess b hl)
      refine ⟨hstopping hstopped, Nat.add_le_add_left hle _, fun he => ?_⟩
      obtain ⟨b', hb', hthread⟩ := processLabel_isThread h.publishing ht he hne
      rw [hl] at hb'
      cases hb'
      exact Nat.add_lt_add_left (hlt hthread) _

theorem Stopping.filled {s : Messengermain} (h : s.Stopping) :
    s.coordProducer = some s.process.producer ∧ s.sharedState = some s.process.shared ∧
      s.app = some (.publisher s.process.publisher) ∧ s.wsServer = some s.process.server := by
  have hmode := h.publishing.mode
  have hwired := h.publishing.wired
  have hstarted : Statement.start .producer ∉ s.rest :=
    (hwired.started .producer (h.started .producer)).2
  have hready : ∀ st' ∈ needs s.mode (.start .producer), s.Done st' :=
    hwired.ready (by rw [hmode]; decide) (.inl hstarted)
  have hinstalled : ∀ st' ∈ needs s.mode .installSignals, s.Done st' :=
    hwired.ready (by rw [hmode]; decide) (.inl (hwired.installed h.installed))
  rw [hmode] at hready hinstalled
  obtain ⟨p, hp⟩ := Option.isSome_iff_exists.mp (hinstalled .makeProducer (by decide))
  obtain ⟨a, ha⟩ := Option.isSome_iff_exists.mp (hinstalled .makeApp (by decide))
  obtain ⟨w, hw⟩ := Option.isSome_iff_exists.mp (hinstalled .makeServer (by decide))
  obtain ⟨shared, hs⟩ := Option.isSome_iff_exists.mp (hready .makeSharedState (by decide))
  obtain ⟨b, rfl⟩ := h.publishing.app ha
  simp [process, hp, ha, hw, hs, MessengerApplication.publisherOf]

/-- Until `main` has returned, it or a thread it joins can make a step. -/
theorem Stopping.exists_step {s : Messengermain} (h : s.Stopping) (hrest : s.rest ≠ []) :
    ∃ e, isThread e = true ∧ (step round s e).isSome := by
  obtain ⟨hp, hs, ha, hw⟩ := h.filled
  obtain ⟨hproducer, hpublisher, hserver⟩ := h.stopped
  have hfailed := h.publishing.failed
  obtain ⟨st, l, hcons⟩ := List.exists_cons_of_ne_nil hrest
  have hjoin := h.joins.2 st (hcons ▸ List.mem_cons_self)
  cases st with
  | join c =>
    cases hret : s.hasReturned c with
    | true =>
      have hret' : hasReturned { s with rest := l } c = true := by
        cases c <;> exact hret
      have hmain : s.mainStep true = some { s with rest := l } := by
        simp only [mainStep, hcons]
        rw [if_neg (by simp [h.threw]), if_neg (by simp)]
        exact if_pos hret'
      exact ⟨.main true, rfl, by simp [step, isStop, isAppRun, hfailed, hmain]⟩
    | false =>
      -- the thread that `main` waits for is not at its end, so it has a step to make
      cases c with
      | producer =>
        have hpc : s.process.producer.pc ≠ .finished := by simpa [hasReturned, hp] using hret
        obtain ⟨e, he, hstep⟩ := CoordinateProducer.exists_step hproducer hpc
        obtain ⟨⟨q, u⟩, hq⟩ := Option.isSome_iff_exists.mp hstep
        refine ⟨.producer e, rfl, ?_⟩
        have hstop : isStop (.producer e) = false := by cases e <;> first | rfl | cases he
        cases u <;> simp [step, hstop, isAppRun, hfailed, h.started, producerStep, deref, hp, hs, hq]
      | app =>
        have hpc : s.process.publisher.pc ≠ .finished := by simpa [hasReturned, ha] using hret
        obtain ⟨e, he, hstep⟩ :=
          MessengerPublisherApp.exists_step hpublisher hpc s.process.shared
        refine ⟨.publisher e, ?_, ?_⟩
        · cases e <;> first | rfl | cases he
        · have hstop : isStop (.publisher e) = false := by cases e <;> first | rfl | cases he
          simpa [step, hstop, hfailed, h.started, publisherStep, deref, ha, hs] using hstep
      | server =>
        have hpc : s.process.server.runPc ≠ .finished := by simpa [hasReturned, hw] using hret
        obtain ⟨e, he, hstep⟩ := WebSocketServer.exists_step hserver hpc s.process.shared
        refine ⟨.server e, rfl, ?_⟩
        have hstop : isStop (.server e) = false := by cases e <;> first | rfl | cases he
        simpa [step, hstop, isAppRun, hfailed, h.started, serverStep, deref, hw, hs] using hstep
  | _ => cases hjoin

/-- Stopped components wind `main` down. -/
theorem winding (round : ℚ≥0 → Option ℚ≥0) : (machine round .publisher).Winding Stopping
    isThread stepsLeft (·.rest = []) where
  keeps hs ht := (step_stopping hs ht).1
  falls hs ht ha := (step_stopping hs ht).2.2 ha
  stays hs ht := (step_stopping hs ht).2.1
  enabled hs hrest := by
    obtain ⟨e, he, hstep⟩ := hs.exists_step hrest
    obtain ⟨t, ht⟩ := Option.isSome_iff_exists.mp hstep
    exact ⟨e, t, he, ht⟩

theorem Stopping.stepsLeft_le {s : Messengermain} (h : s.Stopping) : s.stepsLeft ≤ 25 := by
  have hmain := h.joins.1
  have hprocess := h.stopped.stepsLeft_le
  unfold stepsLeft
  omega

/-! ### What the setup of the signals is behind -/

theorem execute_started {s t : Messengermain} {st : Statement} (ht : s.execute st = some t) :
    t.threw = s.threw ∧ ∀ c, s.started c = true ∨ st = .start c → t.started c = true := by
  cases st with
  | setServerState =>
    cases hw : s.wsServer <;> simp only [execute, deref, hw] at ht <;> cases ht
    all_goals exact ⟨rfl, by simp⟩
  | start c =>
    cases ht
    refine ⟨rfl, fun d hd => ?_⟩
    by_cases heq : d = c
    · simp [heq]
    · have hold : s.started d = true := hd.resolve_right (by simpa using Ne.symm heq)
      simpa [Function.update_of_ne heq] using hold
  | join c =>
    simp only [execute, Option.ite_none_right_eq_some, Option.some.injEq] at ht
    rw [← ht.2]
    exact ⟨rfl, by simp⟩
  | _ =>
    cases ht
    exact ⟨rfl, by simp [setAppServer]⟩

/-- `main` has started the threads it is past, and where it threw it installs no signals. -/
structure Launched (s : Messengermain) : Prop where
  threw : s.threw = true → .installSignals ∈ s.rest
  started : ∀ c, .start c ∉ s.rest → s.started c = true

theorem body_launch : ∀ l ∈ (body .publisher).tails,
    (.makeApp ∈ l → .installSignals ∈ l) ∧
      (.installSignals ∉ l → ∀ c ∈ [Component.producer, .app, .server], .start c ∉ l) := by decide

theorem step_launched {s t : Messengermain} {e : Event} (h : s.Publishing) (hl : s.Launched)
    (ht : step round s e = some t) : t.Launched := by
  by_cases hmain : ∃ ok, e = .main ok
  · obtain ⟨ok, rfl⟩ := hmain
    have hstep : s.mainStep ok = some t := by
      unfold step at ht
      split at ht
      · cases ht
      · exact ht
    unfold mainStep at hstep
    split at hstep
    · cases hstep
    · next st l hrest =>
      split_ifs at hstep with hthrew hmake
      -- `make_app` threw, before the signals were installed
      · cases hstep
        refine ⟨fun _ => ?_, hl.started⟩
        apply (body_launch s.rest _).1
        · rw [hrest, hmake.1]
          exact List.mem_cons_self
        · rw [List.mem_tails, ← h.mode]
          exact h.wired.suffix
      · have hrest' := (execute_spec h.wired hrest hstep).rest
        obtain ⟨hkept, hstarted⟩ := execute_started hstep
        refine ⟨fun ht => absurd (hkept.symm.trans ht) hthrew, fun c hc => hstarted c ?_⟩
        rw [hrest'] at hc
        by_cases heq : st = .start c
        · exact .inr heq
        · refine .inl (hl.started c ?_)
          rw [hrest]
          exact List.not_mem_cons_of_ne_of_not_mem (Ne.symm heq) hc
  · obtain ⟨hrest, hthrew, -, hstarted⟩ := step_frame h ht fun ok he => hmain ⟨ok, he⟩
    constructor
    · rw [hthrew, hrest]
      exact hl.threw
    · rw [hstarted, hrest]
      exact hl.started

theorem launched_of_reachable {s : Messengermain}
    (h : (machine round .publisher).Reachable s) : s.Launched := by
  apply h.invariant
  · refine ⟨fun ht => absurd ht Bool.false_ne_true, fun c hc => absurd ?_ hc⟩
    show .start c ∈ body .publisher
    cases c <;> decide
  · intro s t e hr hs _ ht
    exact step_launched (publishing_of_reachable hr) hs ht

/-- Where an invocation of the handler has finished, everything was started before it, and
everything is stopped that its calls of `stop` got to. -/
theorem stopping_of_finished {s : Messengermain} (h : (machine round .publisher).Reachable s)
    {i : ℕ} (hi : s.invocations i = .finished)
    (hdeciding : s.process.publisher.pc ≠ .waitBlock)
    (hasleep : s.process.publisher.pc ≠ .waitBlocked)
    (hserver : s.process.server.stopRequested = true) : s.Stopping := by
  have hpub := publishing_of_reachable h
  have hlaunched := launched_of_reachable h
  have hprocess := process_reachable h
  have hrank : (s.invocations i).rank = 7 := by
    rw [hi]
    rfl
  have hinstalled := hpub.progress.delivered i (by rw [hi]; decide)
  have hnot := hpub.wired.installed hinstalled
  have hlaunch := body_launch s.rest (by
    rw [List.mem_tails, ← hpub.mode]
    exact hpub.wired.suffix)
  obtain ⟨p, hp, hpret⟩ := hpub.progress.producer hpub.mode i (by omega)
  obtain ⟨a, ha, haret⟩ := hpub.progress.app i (by omega)
  obtain ⟨b, rfl⟩ := hpub.app ha
  have hproducer : s.process.producer = p := by simp only [process, hp, Option.getD_some]
  have hpublisher : s.process.publisher = b := by
    simp only [process, ha, MessengerApplication.publisherOf]
  refine ⟨hpub, ?_, hinstalled, fun c => ?_, ?_, ?_, hserver⟩
  · by_contra hthrew
    exact hnot (hlaunched.threw (Bool.eq_true_of_not_eq_false hthrew))
  · apply hlaunched.started
    apply hlaunch.2 hnot
    cases c <;> decide
  · apply PublisherProcess.contextStopped_of_returned hprocess
    rwa [hproducer]
  · refine ⟨PublisherProcess.stop_of_returned hprocess ?_, hdeciding, hasleep⟩
    rwa [hpublisher]

/-- Once an invocation of the handler has finished, the stop of the publisher was not lost and
that of the server went all the way, `main` and its threads make 25 more steps at most and
`main` returns: in every run with as many of them, and in every fair execution. -/
theorem exits_of_finished {s : Messengermain} (h : (machine round .publisher).Reachable s)
    {i : ℕ} (hi : s.invocations i = .finished)
    (hdeciding : s.process.publisher.pc ≠ .waitBlock)
    (hasleep : s.process.publisher.pc ≠ .waitBlocked)
    (hserver : s.process.server.stopRequested = true) :
    (∀ es t, (machine round .publisher).run s es = some t → es.countP isThread ≤ 25 ∧
      t.failed = false ∧ (25 ≤ es.countP isThread → t.rest = [])) ∧
    ∀ x : (machine round .publisher).Execution, ∀ n, x.state n = s →
      x.Fair isThread → ∃ m, n ≤ m ∧ (x.state m).rest = [] := by
  have hstopping := stopping_of_finished h hi hdeciding hasleep hserver
  have hle := hstopping.stepsLeft_le
  constructor
  · intro es t ht
    have hcount := (winding round).countP_add_le hstopping ht
    refine ⟨by omega, ((winding round).run_keeps hstopping ht).publishing.failed, fun h25 => ?_⟩
    apply (winding round).done_of_le_countP hstopping ht
    omega
  · intro x n hn hfair
    exact (winding round).exists_done hfair (hn ▸ hstopping)

/-- The signal comes before the publisher has made its first step. -/
def handledEvents : List Event := publisherEvents.take 32

theorem exits_demo : ∃ s,
    (machine some .publisher).run (init .publisher) handledEvents = some s ∧
    s.invocations 0 = .finished ∧ s.rest.length = 3 ∧
    (∀ es t, (machine some .publisher).run s es = some t → es.countP isThread ≤ 25 ∧
      t.failed = false ∧ (25 ≤ es.countP isThread → t.rest = [])) ∧
    ∀ x : (machine some .publisher).Execution, ∀ n, x.state n = s →
      x.Fair isThread → ∃ m, n ≤ m ∧ (x.state m).rest = [] := by
  obtain ⟨s, hs, hi, hrest, hpc, hserver⟩ : ∃ s,
      (machine some .publisher).run (init .publisher) handledEvents = some s ∧
      s.invocations 0 = .finished ∧ s.rest.length = 3 ∧
      s.process.publisher.pc = .notStarted ∧ s.process.server.stopRequested = true :=
    ⟨_, rfl, rfl, rfl, rfl, rfl⟩
  exact ⟨s, hs, hi, hrest, exits_of_finished (Machine.reachable_of_run hs) hi
    (by rw [hpc]; decide) (by rw [hpc]; decide) hserver⟩

end Messengermain

end CoordinateStream
