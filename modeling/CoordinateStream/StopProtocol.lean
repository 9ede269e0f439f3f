import CoordinateStream.Lib.StopFlag
import CoordinateStream.PublisherProcess
import CoordinateStream.MessengerSubscriberApp

namespace CoordinateStream

/-! The untimed waits of the two applications, seen as waits for a stop flag. -/

namespace MessengerPublisherApp

def waiter : Pc → StopFlag.Waiter
  | .waitBlock => .deciding
  | .waitBlocked => .blocked
  | _ => .running

def stopView (p : MessengerPublisherApp) : StopFlag.State :=
  ⟨waiter p.pc, p.stop, p.stopNotifying + p.matchNotifying, p.stopsReturned⟩

def stopLabel (p : MessengerPublisherApp) : Event → Option StopFlag.Event
  | .thread _ => match p.pc with
    | .waitTest => if 0 < p.matched ∨ p.stop then none else some .decide
    | .waitBlock => some .block
    | _ => none
  | .timeout => none
  | .matched info => if info.currentCountChange = 1 then some .announce else none
  | .matchedNotify => some (.notify false)
  | .stopStore => some .store
  | .stopNotify => some (.notify true)

/-- The thread of `run` changes nothing that the other parties of the wait change. -/
structure ThreadFrame (p q : MessengerPublisherApp) : Prop where
  matched : q.matched = p.matched := by rfl
  stop : q.stop = p.stop := by rfl
  stopNotifying : q.stopNotifying = p.stopNotifying := by rfl
  matchNotifying : q.matchNotifying = p.matchNotifying := by rfl
  stopsReturned : q.stopsReturned = p.stopsReturned := by rfl

theorem threadStep_frame {shared : SharedCoordinateState} {ok : Bool}
    {p q : MessengerPublisherApp} (h : p.threadStep shared ok = some q) : ThreadFrame p q := by
  unfold threadStep at h
  cases hpc : p.pc <;> simp only [hpc, Option.some.injEq, reduceCtorEq] at h <;> subst h <;>
    exact { }

/-- The flag and the calls of `stop` change in the two statements of `stop` only. -/
theorem step_stops {shared : SharedCoordinateState} {p q : MessengerPublisherApp} {e : Event}
    (h : p.step shared e = some q) :
    (e ≠ .stopNotify ∧ q.stop = p.stop ∧ q.stopNotifying = p.stopNotifying ∧
      q.stopsReturned = p.stopsReturned) ∨
    (e = .stopStore ∧ q.stop = true ∧ q.stopNotifying = p.stopNotifying + 1 ∧
      q.stopsReturned = p.stopsReturned) ∨
    (e = .stopNotify ∧ 0 < p.stopNotifying ∧ q.stop = p.stop ∧
      q.stopNotifying = p.stopNotifying - 1 ∧ q.stopsReturned = p.stopsReturned + 1) := by
  cases e with
  | thread ok =>
    have hframe := threadStep_frame h
    exact .inl ⟨by simp, hframe.stop, hframe.stopNotifying, hframe.stopsReturned⟩
  | matched info =>
    simp only [step, Option.ite_none_left_eq_some, Option.some.injEq] at h
    rw [← h.2]
    unfold onPublicationMatched
    split_ifs <;> exact .inl ⟨by simp, rfl, rfl, rfl⟩
  | timeout | matchedNotify =>
    simp only [step, Option.ite_none_right_eq_some, Option.some.injEq] at h
    rw [← h.2]
    exact .inl ⟨by simp, rfl, rfl, rfl⟩
  | stopStore =>
    simp only [step, Option.some.injEq] at h
    rw [← h]
    exact .inr (.inl ⟨rfl, rfl, rfl, rfl⟩)
  | stopNotify =>
    simp only [step, Option.ite_none_right_eq_some, Option.some.injEq] at h
    rw [← h.2]
    exact .inr (.inr ⟨rfl, h.1, rfl, rfl, rfl⟩)

theorem ThreadFrame.stopView {p q : MessengerPublisherApp} (h : ThreadFrame p q) :
    q.stopView = { p.stopView with waiter := waiter q.pc } := by
  simp only [MessengerPublisherApp.stopView, h.stop, h.stopNotifying, h.matchNotifying,
    h.stopsReturned]

theorem waiter_notifyOne (p : MessengerPublisherApp) : waiter p.notifyOne.pc =
    if waiter p.pc = .blocked then .running else waiter p.pc := by
  unfold notifyOne
  cases hpc : p.pc <;> simp [waiter]

/-- Where the thread stands after a step of it that the wait does not see. -/
theorem threadStep_waiter {shared : SharedCoordinateState} {ok : Bool}
    {p q : MessengerPublisherApp} (h : p.threadStep shared ok = some q)
    (hl : p.stopLabel (.thread ok) = none) : waiter q.pc = waiter p.pc := by
  unfold threadStep at h
  cases hpc : p.pc with
  | waitTest =>
    have hready : 0 < p.matched ∨ p.stop = true := by
      by_contra hn
      simp [stopLabel, hpc, hn] at hl
    simp only [hpc, hready, ↓reduceIte, Option.some.injEq] at h
    rw [← h]
    rfl
  | waitBlock => simp [stopLabel, hpc] at hl
  | waitBlocked | periodBlocked | finished => simp [hpc] at h
  | notStarted | periodBlock | write | returned =>
    simp only [hpc, Option.some.injEq] at h
    rw [← h]
    rfl
  | loop | publish | waited | read | periodTest =>
    simp only [hpc, Option.some.injEq] at h
    rw [← h]
    dsimp only
    split_ifs <;> rfl

theorem step_stopView_of_none {shared : SharedCoordinateState} {p q : MessengerPublisherApp}
    {e : Event} (h : p.step shared e = some q) (hl : p.stopLabel e = none) :
    q.stopView = p.stopView := by
  cases e with
  | thread ok => rw [(threadStep_frame h).stopView, threadStep_waiter h hl]; rfl
  | timeout =>
    simp only [step, Option.ite_none_right_eq_some, Option.some.injEq] at h
    obtain ⟨hpc, rfl⟩ := h
    simp [stopView, hpc, waiter]
  | matched info =>
    simp only [step, Option.ite_none_left_eq_some, Option.some.injEq] at h
    obtain ⟨-, rfl⟩ := h
    have hne : info.currentCountChange ≠ 1 := fun h1 => by simp [stopLabel, h1] at hl
    unfold onPublicationMatched
    rw [if_neg hne]
    split_ifs <;> rfl
  | matchedNotify | stopStore | stopNotify => cases hl

theorem step_stopView {shared : SharedCoordinateState} {p q : MessengerPublisherApp}
    {e : Event} {b : StopFlag.Event} (hstored : 0 < p.stopNotifying → p.stop = true)
    (h : p.step shared e = some q) (hl : p.stopLabel e = some b) :
    StopFlag.step p.stopView b = some q.stopView := by
  cases e with
  | thread ok =>
    have hframe := threadStep_frame h
    simp only [stopLabel] at hl
    split at hl
    · next hpc =>
      simp only [Option.ite_none_left_eq_some, Option.some.injEq, not_or,
        Bool.not_eq_true] at hl
      obtain ⟨⟨hm, hs⟩, rfl⟩ := hl
      simp only [step, threadStep, hpc, hm, hs, Bool.false_eq_true, or_self, ↓reduceIte,
        Option.some.injEq] at h
      rw [hframe.stopView, ← h]
      simp [StopFlag.step, stopView, waiter, hpc, hs]
    · next hpc =>
      cases hl
      simp only [step, threadStep, hpc, Option.some.injEq] at h
      rw [hframe.stopView, ← h]
      simp [StopFlag.step, stopView, waiter, hpc]
    · cases hl
  | timeout => cases hl
  | matched info =>
    simp only [stopLabel, Option.ite_none_right_eq_some, Option.some.injEq] at hl
    obtain ⟨h1, rfl⟩ := hl
    simp only [step, Option.ite_none_left_eq_some, Option.some.injEq] at h
    obtain ⟨-, rfl⟩ := h
    simp [StopFlag.step, stopView, onPublicationMatched, h1, Nat.add_assoc]
  | matchedNotify =>
    cases hl
    simp only [step, Option.ite_none_right_eq_some, Option.some.injEq] at h
    obtain ⟨hpos, rfl⟩ := h
    have hw := waiter_notifyOne p
    simp only [StopFlag.step, stopView, hw, Bool.false_eq_true, IsEmpty.forall_iff, and_true,
      ↓reduceIte, show 0 < p.stopNotifying + p.matchNotifying by omega]
    simp only [notifyOne, Option.some.injEq, StopFlag.State.mk.injEq, true_and, and_true]
    exact ⟨rfl, by omega⟩
  | stopStore =>
    cases hl
    simp only [step, Option.some.injEq] at h
    subst h
    simp only [StopFlag.step, stopView, Option.some.injEq, StopFlag.State.mk.injEq, true_and,
      and_true]
    omega
  | stopNotify =>
    cases hl
    simp only [step, Option.ite_none_right_eq_some, Option.some.injEq] at h
    obtain ⟨hpos, rfl⟩ := h
    have hw := waiter_notifyOne p
    simp only [StopFlag.step, stopView, hw, hstored hpos, implies_true, and_true, ↓reduceIte,
      show 0 < p.stopNotifying + p.matchNotifying by omega]
    simp only [notifyOne, hstored hpos, Option.some.injEq, StopFlag.State.mk.injEq, true_and,
      and_true]
    omega

theorem step_stored {shared : SharedCoordinateState} {p q : MessengerPublisherApp} {e : Event}
    (hp : 0 < p.stopNotifying → p.stop = true) (h : p.step shared e = some q) :
    0 < q.stopNotifying → q.stop = true := by
  intro hq
  rcases step_stops h with ⟨-, hstop, hnot, -⟩ | ⟨-, hstop, -⟩ | ⟨-, hpos, hstop, -⟩
  · rw [hstop]
    exact hp (hnot ▸ hq)
  · exact hstop
  · rw [hstop]
    exact hp hpos

/-- A `stop` returned, and the thread sleeps in `cv_.wait` with no notification to come. -/
def LostStop (p : MessengerPublisherApp) : Prop :=
  0 < p.stopsReturned ∧ p.stopNotifying = 0 ∧ p.matchNotifying = 0 ∧ p.pc = .waitBlocked

/-- Once `stop_` is set, the last notification to come is not issued between the thread's
test of its predicate and its block. -/
def Timely (p : MessengerPublisherApp) (e : Event) : Prop :=
  e = .stopNotify ∨ e = .matchedNotify → p.stop = true →
    p.stopNotifying + p.matchNotifying = 1 → p.pc ≠ .waitBlock

instance (p : MessengerPublisherApp) (e : Event) : Decidable (p.Timely e) := by
  unfold Timely
  infer_instance

theorem LostStop.stopView {p : MessengerPublisherApp} (h : p.LostStop) :
    StopFlag.Lost p.stopView := by
  obtain ⟨hret, hs, hm, hpc⟩ := h
  refine ⟨hret, ?_, ?_⟩
  · simp [MessengerPublisherApp.stopView, hs, hm]
  · simp [MessengerPublisherApp.stopView, hpc, waiter]

theorem Timely.stopView {p : MessengerPublisherApp} {e : Event} {b : StopFlag.Event}
    (h : p.Timely e) (hl : p.stopLabel e = some b) : StopFlag.Timely p.stopView b := by
  rintro c rfl hflag hone hdeciding
  have hpc : p.pc = .waitBlock := by
    cases hpc : p.pc <;> simp [MessengerPublisherApp.stopView, waiter, hpc] at hdeciding
    rfl
  have hnotify : e = .stopNotify ∨ e = .matchedNotify := by
    cases e with
    | thread ok => simp [stopLabel, hpc] at hl
    | timeout | stopStore => cases hl
    | matched info => simp [stopLabel] at hl
    | matchedNotify => exact .inr rfl
    | stopNotify => exact .inl rfl
  exact h hnotify hflag hone hpc

end MessengerPublisherApp

namespace PublisherProcess

theorem stored_of_reachable {s : PublisherProcess} (h : machine.Reachable s) :
    0 < s.publisher.stopNotifying → s.publisher.stop = true := by
  refine h.invariant (I := fun s => 0 < s.publisher.stopNotifying → s.publisher.stop = true)
    (fun hpos => absurd hpos (by decide)) fun _ hi _ hs => ?_
  rcases step_cases hs with ⟨a, p, u, -, -, rfl⟩ | ⟨a, p, -, hp, rfl⟩ | ⟨a, w, -, -, rfl⟩
  · exact hi
  · exact MessengerPublisherApp.step_stored hi hp
  · exact hi

def stopLabel (s : PublisherProcess) : Event → Option StopFlag.Event
  | .publisher e => s.publisher.stopLabel e
  | _ => none

/-- The publisher waits for its stop flag, whatever the rest of the process does. -/
def stopFlag : Machine.Refinement machine StopFlag.machine where
  abs s := s.publisher.stopView
  label := stopLabel
  init := rfl
  stutter := by
    intro s t e _ hs hl
    rcases step_cases hs with ⟨a, p, u, -, -, rfl⟩ | ⟨a, p, rfl, hp, rfl⟩ | ⟨a, w, -, -, rfl⟩
    · rfl
    · exact MessengerPublisherApp.step_stopView_of_none hp hl
    · rfl
  step := by
    intro s t e b hr hs hl
    rcases step_cases hs with ⟨a, p, u, rfl, -, rfl⟩ | ⟨a, p, rfl, hp, rfl⟩ | ⟨a, w, rfl, -, rfl⟩
    · cases hl
    · exact MessengerPublisherApp.step_stopView (stored_of_reachable hr) hp hl
    · cases hl

/-- The steps of the publisher are timely. -/
def TimelyStep (s : PublisherProcess) (e : Event) : Prop :=
  ∀ a, e = .publisher a → s.publisher.Timely a

instance (s : PublisherProcess) (e : Event) : Decidable (s.TimelyStep e) :=
  match e with
  | .publisher a => decidable_of_iff (s.publisher.Timely a) (by simp [TimelyStep])
  | .producer _ | .server _ => isTrue (by simp [TimelyStep])

theorem not_lostStop {s : PublisherProcess} (h : machine.ReachableBy TimelyStep s) :
    ¬s.publisher.LostStop := by
  intro hlost
  refine StopFlag.not_lost (stopFlag.reachableBy ?_ h) hlost.stopView
  intro s e b hc hl
  cases e with
  | publisher a => exact (hc a rfl).stopView hl
  | producer | server => cases hl

/-- An untimely notification of a stop, or after one, loses it: the next step of the thread
itself blocks it for good. -/
theorem lostStop_of_untimely {s : PublisherProcess} {e : MessengerPublisherApp.Event}
    (hpc : s.publisher.pc = .waitBlock)
    (hone : s.publisher.stopNotifying + s.publisher.matchNotifying = 1)
    (he : e = .stopNotify ∧ 0 < s.publisher.stopNotifying ∨
      e = .matchedNotify ∧ 0 < s.publisher.matchNotifying ∧ 0 < s.publisher.stopsReturned) :
    ∃ t, machine.run s [.publisher e, .publisher (.thread true)] = some t ∧
      t.publisher.LostStop := by
  obtain ⟨producer, shared, ⟨pc, m, n, c, st, mn, sn, sr, wr, w⟩, server⟩ := s
  dsimp only at hpc hone he
  subst hpc
  rcases he with ⟨rfl, hpos⟩ | ⟨rfl, hpos, hret⟩
  · refine ⟨⟨producer, shared, ⟨.waitBlocked, m, n, c, st, mn, sn - 1, sr + 1, wr, w⟩, server⟩,
      ?_, Nat.succ_pos _, ?_, ?_, rfl⟩
    · simp [Machine.run, machine, step, MessengerPublisherApp.step, hpos,
        MessengerPublisherApp.notifyOne, MessengerPublisherApp.threadStep]
    · dsimp only
      omega
    · dsimp only
      omega
  · refine ⟨⟨producer, shared, ⟨.waitBlocked, m, n, c, st, mn - 1, sn, sr, wr, w⟩, server⟩,
      ?_, hret, ?_, ?_, rfl⟩
    · simp [Machine.run, machine, step, MessengerPublisherApp.step, hpos,
        MessengerPublisherApp.notifyOne, MessengerPublisherApp.threadStep]
    · dsimp only
      omega
    · dsimp only
      omega

end PublisherProcess

namespace MessengerSubscriberApp

variable {round : ℚ≥0 → Option ℚ≥0} {ws : Bool}

def waiter : RunPc → StopFlag.Waiter
  | .waitBlock => .deciding
  | .waitBlocked => .blocked
  | _ => .running

def stopView (s : MessengerSubscriberApp) : StopFlag.State :=
  ⟨waiter s.runPc, s.stop, s.stopNotifying, s.stopsReturned⟩

def stopLabel (s : MessengerSubscriberApp) : Event → Option StopFlag.Event
  | .run => match s.runPc with
    | .waitTest => if s.stop then none else some .decide
    | .waitBlock => some .block
    | _ => none
  | .stopStore => some .store
  | .stopNotify => some (.notify true)
  | _ => none

@[simp] theorem processSample_stopView (round : ℚ≥0 → Option ℚ≥0) (s : MessengerSubscriberApp)
    (d : TakenSample) : (s.processSample round d).stopView = s.stopView := by
  unfold processSample
  split
  · split <;> rfl
  · rfl

theorem step_stopView_of_none {s t : MessengerSubscriberApp} {e : Event}
    (h : s.step round e = some t) (hl : s.stopLabel e = none) : t.stopView = s.stopView := by
  cases e with
  | dataAvailable | stopTest | take =>
    simp only [step, Option.ite_none_right_eq_some, Option.some.injEq] at h
    obtain ⟨-, rfl⟩ := h
    rfl
  | process =>
    simp only [step] at h
    split at h
    · rw [← Option.some.inj h, processSample_stopView]
    · cases h
  | run =>
    simp only [step, runStep] at h
    simp only [stopLabel] at hl
    cases hpc : s.runPc with
    | waitTest =>
      have hs : s.stop = true := by
        by_contra hn
        simp [hpc, hn] at hl
      simp only [hpc, hs, ↓reduceIte, Option.some.injEq] at h
      rw [← h]
      simp [stopView, waiter, hpc, hs]
    | waitBlock => simp [hpc] at hl
    | notStarted =>
      simp only [hpc, Option.some.injEq] at h
      rw [← h]
      simp [stopView, waiter, hpc]
    | waitBlocked | finished => simp [hpc] at h
  | stopStore | stopNotify => cases hl

theorem step_stopView {s t : MessengerSubscriberApp} {e : Event} {b : StopFlag.Event}
    (hstored : 0 < s.stopNotifying → s.stop = true) (h : s.step round e = some t)
    (hl : s.stopLabel e = some b) : StopFlag.step s.stopView b = some t.stopView := by
  cases e with
  | dataAvailable | stopTest | take | process => cases hl
  | run =>
    simp only [stopLabel] at hl
    simp only [step, runStep] at h
    split at hl
    · next hpc =>
      simp only [Option.ite_none_left_eq_some, Option.some.injEq, Bool.not_eq_true] at hl
      obtain ⟨hs, rfl⟩ := hl
      simp only [hpc, hs, Bool.false_eq_true, ↓reduceIte, Option.some.injEq] at h
      rw [← h]
      simp [StopFlag.step, stopView, waiter, hpc, hs]
    · next hpc =>
      cases hl
      simp only [hpc, Option.some.injEq] at h
      rw [← h]
      simp [StopFlag.step, stopView, waiter, hpc]
    · cases hl
  | stopStore =>
    cases hl
    simp only [step, Option.some.injEq] at h
    subst h
    rfl
  | stopNotify =>
    cases hl
    simp only [step, Option.ite_none_right_eq_some, Option.some.injEq] at h
    obtain ⟨hpos, rfl⟩ := h
    cases hpc : s.runPc <;> simp [StopFlag.step, stopView, waiter, hpc, hpos, hstored hpos]

/-- The flag and the calls of `stop` change in the two statements of `stop` only. -/
theorem step_stops {s t : MessengerSubscriberApp} {e : Event} (h : s.step round e = some t) :
    (e ≠ .stopNotify ∧ t.stop = s.stop ∧ t.stopNotifying = s.stopNotifying ∧
      t.stopsReturned = s.stopsReturned) ∨
    (e = .stopStore ∧ t.stop = true ∧ t.stopNotifying = s.stopNotifying + 1 ∧
      t.stopsReturned = s.stopsReturned) ∨
    (e = .stopNotify ∧ 0 < s.stopNotifying ∧ t.stop = s.stop ∧
      t.stopNotifying = s.stopNotifying - 1 ∧ t.stopsReturned = s.stopsReturned + 1) := by
  cases e with
  | dataAvailable | stopTest | take =>
    simp only [step, Option.ite_none_right_eq_some, Option.some.injEq] at h
    rw [← h.2]
    exact .inl ⟨by simp, rfl, rfl, rfl⟩
  | process =>
    simp only [step] at h
    split at h
    · next d _ =>
      have hview := processSample_stopView round s d
      simp only [stopView, StopFlag.State.mk.injEq] at hview
      rw [← Option.some.inj h]
      exact .inl ⟨by simp, hview.2⟩
    · cases h
  | run =>
    obtain ⟨pc, rfl⟩ := runStep_frame h
    exact .inl ⟨by simp, rfl, rfl, rfl⟩
  | stopStore =>
    simp only [step, Option.some.injEq] at h
    rw [← h]
    exact .inr (.inl ⟨rfl, rfl, rfl, rfl⟩)
  | stopNotify =>
    simp only [step, Option.ite_none_right_eq_some, Option.some.injEq] at h
    rw [← h.2]
    exact .inr (.inr ⟨rfl, h.1, rfl, rfl, rfl⟩)

theorem step_stored {s t : MessengerSubscriberApp} {e : Event}
    (hp : 0 < s.stopNotifying → s.stop = true) (h : s.step round e = some t) :
    0 < t.stopNotifying → t.stop = true := by
  intro ht
  rcases step_stops h with ⟨-, hstop, hnot, -⟩ | ⟨-, hstop, -⟩ | ⟨-, hpos, hstop, -⟩
  · rw [hstop]
    exact hp (hnot ▸ ht)
  · exact hstop
  · rw [hstop]
    exact hp hpos

theorem stored_of_reachable {s : MessengerSubscriberApp} (h : (machine round ws).Reachable s) :
    0 < s.stopNotifying → s.stop = true :=
  h.invariant (I := fun s => 0 < s.stopNotifying → s.stop = true)
    (fun hpos => absurd hpos (Nat.lt_irrefl 0)) fun _ hi _ hs => step_stored hi hs

def stopFlag (round : ℚ≥0 → Option ℚ≥0) (ws : Bool) :
    Machine.Refinement (machine round ws) StopFlag.machine where
  abs := stopView
  label := stopLabel
  init := rfl
  stutter _ hs hl := step_stopView_of_none hs hl
  step hr hs hl := step_stopView (stored_of_reachable hr) hs hl

/-- A `stop` returned, and the thread sleeps in `terminate_cv_.wait` with no notification to
come. -/
def LostStop (s : MessengerSubscriberApp) : Prop :=
  0 < s.stopsReturned ∧ s.stopNotifying = 0 ∧ s.runPc = .waitBlocked

/-- The last notification to come is not issued between the thread's test and its block. -/
def Timely (s : MessengerSubscriberApp) (e : Event) : Prop :=
  e = .stopNotify → s.stopNotifying = 1 → s.runPc ≠ .waitBlock

instance (s : MessengerSubscriberApp) (e : Event) : Decidable (s.Timely e) := by
  unfold Timely
  infer_instance

theorem not_lostStop {s : MessengerSubscriberApp} (h : (machine round ws).ReachableBy Timely s) :
    ¬s.LostStop := by
  rintro ⟨hret, hnone, hpc⟩
  refine StopFlag.not_lost ((stopFlag round ws).reachableBy ?_ h)
    ⟨hret, hnone, by simp [stopFlag, stopView, hpc, waiter]⟩
  rintro s e b hc hl c rfl - hone hdeciding
  have hpc : s.runPc = .waitBlock := by
    cases hpc : s.runPc <;> simp [stopFlag, stopView, waiter, hpc] at hdeciding
    rfl
  cases e with
  | dataAvailable | stopTest | take | process | stopStore => cases hl
  | run => simp [stopFlag, stopLabel, hpc] at hl
  | stopNotify => exact hc rfl hone hpc

theorem lostStop_of_untimely {s : MessengerSubscriberApp} (hpc : s.runPc = .waitBlock)
    (hone : s.stopNotifying = 1) :
    ∃ t, (machine round ws).run s [.stopNotify, .run] = some t ∧ t.LostStop := by
  refine ⟨{ s with
    runPc := .waitBlocked, stopNotifying := 0, stopsReturned := s.stopsReturned + 1 }, ?_,
    Nat.succ_pos _, rfl, rfl⟩
  simp [Machine.run, machine, step, runStep, hpc, hone]

end MessengerSubscriberApp

/-- In runs whose last outstanding notifications are timely no stop is lost, by either
application; an untimely one loses it at the next step of the waiting thread. -/
theorem no_lost_stop (round : ℚ≥0 → Option ℚ≥0) (ws : Bool) :
    (∀ s, PublisherProcess.machine.ReachableBy PublisherProcess.TimelyStep s →
      ¬s.publisher.LostStop) ∧
    (∀ s, (MessengerSubscriberApp.machine round ws).ReachableBy MessengerSubscriberApp.Timely s →
      ¬s.LostStop) ∧
    (∀ s : PublisherProcess, ∀ e, s.publisher.pc = .waitBlock →
      s.publisher.stopNotifying + s.publisher.matchNotifying = 1 →
      (e = .stopNotify ∧ 0 < s.publisher.stopNotifying ∨
        e = .matchedNotify ∧ 0 < s.publisher.matchNotifying ∧ 0 < s.publisher.stopsReturned) →
      ∃ t, PublisherProcess.machine.run s [.publisher e, .publisher (.thread true)] = some t ∧
        t.publisher.LostStop) ∧
    (∀ s : MessengerSubscriberApp, s.runPc = .waitBlock → s.stopNotifying = 1 →
      ∃ t, (MessengerSubscriberApp.machine round ws).run s [.stopNotify, .run] = some t ∧
        t.LostStop) :=
  ⟨fun _ h => PublisherProcess.not_lostStop h, fun _ h => MessengerSubscriberApp.not_lostStop h,
    fun _ _ hpc hone he => PublisherProcess.lostStop_of_untimely hpc hone he,
    fun _ hpc hone => MessengerSubscriberApp.lostStop_of_untimely hpc hone⟩

open PublisherProcess in
/-- The producer makes an update, the publisher finds no reader and decides to wait. -/
def waitEvents : List PublisherProcess.Event :=
  [.start, .scheduleTest, .arm, .fire .zero .zero 5, .fetchAdd, .update].map .producer ++
    (List.replicate 4 (.thread true)).map .publisher

/-- A `stop` that wakes the publisher, which then leaves its loop. -/
def wakeEvents : List PublisherProcess.Event :=
  (.stopStore :: .stopNotify :: List.replicate 5 (.thread true)).map .publisher

/-- A stop that finds the thread asleep wakes it, one issued as the thread decides to wait is
lost. -/
theorem no_lost_stop_demo :
    (∃ b s,
      PublisherProcess.machine.run .init (waitEvents ++ [.publisher (.thread true)]) = some b ∧
      b.publisher.pc = .waitBlocked ∧ PublisherProcess.machine.run b wakeEvents = some s ∧
      s.publisher.pc = .finished ∧ s.publisher.stopsReturned = 1 ∧ ¬s.publisher.LostStop) ∧
    (∃ b s, (MessengerSubscriberApp.machine Binary64.round true).run (.init true)
        [.run, .run, .run] = some b ∧ b.runPc = .waitBlocked ∧
      (MessengerSubscriberApp.machine Binary64.round true).run b
        [.stopStore, .stopNotify, .run] = some s ∧
      s.runPc = .finished ∧ s.stopsReturned = 1 ∧ ¬s.LostStop) ∧
    (∃ s t, PublisherProcess.machine.run .init (waitEvents ++ [.publisher .stopStore]) = some s ∧
      PublisherProcess.machine.run s [.publisher .stopNotify, .publisher (.thread true)] = some t ∧
      t.publisher.LostStop) ∧
    (∃ s t, (MessengerSubscriberApp.machine Binary64.round true).run (.init true)
        [.run, .run, .stopStore] = some s ∧
      (MessengerSubscriberApp.machine Binary64.round true).run s [.stopNotify, .run] = some t ∧
      t.LostStop) := by
  obtain ⟨hp, hs, hp', hs'⟩ := no_lost_stop Binary64.round true
  refine ⟨?_, ?_, ?_, ?_⟩
  · obtain ⟨b, s, hb, hblocked, hrun, hend, hret⟩ : ∃ b s,
        PublisherProcess.machine.run .init (waitEvents ++ [.publisher (.thread true)]) = some b ∧
        b.publisher.pc = .waitBlocked ∧ PublisherProcess.machine.run b wakeEvents = some s ∧
        s.publisher.pc = .finished ∧ s.publisher.stopsReturned = 1 :=
      ⟨_, _, rfl, rfl, rfl, rfl, rfl⟩
    have htimely : PublisherProcess.machine.Meets PublisherProcess.TimelyStep .init
        (waitEvents ++ [.publisher (.thread true)] ++ wakeEvents) := by decide +kernel
    exact ⟨b, s, hb, hblocked, hrun, hend, hret,
      hp s (.run .init htimely (PublisherProcess.machine.run_trans hb hrun))⟩
  · obtain ⟨b, s, hb, hblocked, hrun, hend, hret⟩ : ∃ b s,
        (MessengerSubscriberApp.machine Binary64.round true).run (.init true)
          [.run, .run, .run] = some b ∧ b.runPc = .waitBlocked ∧
        (MessengerSubscriberApp.machine Binary64.round true).run b
          [.stopStore, .stopNotify, .run] = some s ∧ s.runPc = .finished ∧
        s.stopsReturned = 1 := ⟨_, _, rfl, rfl, rfl, rfl, rfl⟩
    have htimely : (MessengerSubscriberApp.machine Binary64.round true).Meets
        MessengerSubscriberApp.Timely (.init true)
        ([.run, .run, .run] ++ [.stopStore, .stopNotify, .run]) := by decide +kernel
    exact ⟨b, s, hb, hblocked, hrun, hend, hret,
      hs s (.run .init htimely (Machine.run_trans _ hb hrun))⟩
  · obtain ⟨s, hrun, hpc, hone, hnone⟩ : ∃ s,
        PublisherProcess.machine.run .init (waitEvents ++ [.publisher .stopStore]) = some s ∧
        s.publisher.pc = .waitBlock ∧ s.publisher.stopNotifying = 1 ∧
        s.publisher.matchNotifying = 0 := ⟨_, rfl, rfl, rfl, rfl⟩
    obtain ⟨t, ht, hlost⟩ := hp' s .stopNotify hpc (by omega) (.inl ⟨rfl, by omega⟩)
    exact ⟨s, t, hrun, ht, hlost⟩
  · obtain ⟨s, hrun, hpc, hone⟩ : ∃ s, (MessengerSubscriberApp.machine Binary64.round true).run
        (.init true) [.run, .run, .stopStore] = some s ∧ s.runPc = .waitBlock ∧
        s.stopNotifying = 1 := ⟨_, rfl, rfl, rfl⟩
    obtain ⟨t, ht, hlost⟩ := hs' s hpc hone
    exact ⟨s, t, hrun, ht, hlost⟩

/-- Both applications reach a state in which a stop is lost. -/
theorem stop_lost :
    (∃ s, PublisherProcess.machine.Reachable s ∧ s.publisher.LostStop) ∧
    (∃ s, (MessengerSubscriberApp.machine Binary64.round true).Reachable s ∧ s.LostStop) := by
  constructor
  · obtain ⟨s, hs, hlost⟩ : ∃ s, PublisherProcess.machine.run .init (waitEvents ++
        [.stopStore, .stopNotify, .thread true].map .publisher) = some s ∧
        s.publisher.LostStop := ⟨_, rfl, by decide, rfl, rfl, rfl⟩
    exact ⟨s, Machine.reachable_of_run hs, hlost⟩
  · obtain ⟨s, hs, hlost⟩ : ∃ s, (MessengerSubscriberApp.machine Binary64.round true).run
        (.init true) [.run, .run, .stopStore, .stopNotify, .run] = some s ∧ s.LostStop :=
      ⟨_, rfl, by decide, rfl, rfl⟩
    exact ⟨s, Machine.reachable_of_run hs, hlost⟩

end CoordinateStream
