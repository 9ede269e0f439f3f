import CoordinateStream.Emission
import CoordinateStream.StopProtocol

namespace CoordinateStream

/-! The match gate of the publisher against what DDS reports of its readers. -/

namespace MessengerPublisherApp

/-- About to block after a false test of the gate, the thread holds the mutex under which the
count is stored, so that the test is still false. -/
def TestStands (p : MessengerPublisherApp) : Prop := p.pc = .waitBlock → p.matched ≤ 0

/-- The gate by a count of readers: once the callbacks have notified, the thread is not
blocked while there is one, and it passes only while there is one, or after a stop. -/
structure GateBy (readers : ℤ) (p : MessengerPublisherApp) : Prop where
  matched_eq : p.matched = readers
  unblocked : 0 < readers → p.matchNotifying = 0 → p.pc ≠ .waitBlocked
  passed : p.pc = .waited → 0 < readers ∨ p.stop = true

/-- What a statement of `run` does at the gate. -/
structure ThreadGate (p q : MessengerPublisherApp) : Prop where
  tested : q.pc = .waitBlock → q.matched ≤ 0 := by nofun
  blocked : q.pc = .waitBlocked → p.pc = .waitBlock := by nofun
  passed : q.pc = .waited → 0 < q.matched ∨ q.stop = true := by nofun

theorem threadStep_gate {shared : SharedCoordinateState} {ok : Bool}
    {p q : MessengerPublisherApp} (h : p.threadStep shared ok = some q) : ThreadGate p q := by
  unfold threadStep at h
  cases hpc : p.pc with
  | waitTest =>
    simp only [hpc, Option.some.injEq] at h
    subst h
    by_cases hpass : 0 < p.matched ∨ p.stop = true
    · rw [if_pos hpass]
      exact { passed := fun _ => hpass }
    · rw [if_neg hpass]
      exact { tested := fun _ => not_lt.mp fun hm => hpass (.inl hm) }
  | waitBlock =>
    simp only [hpc, Option.some.injEq] at h
    subst h
    exact { blocked := fun _ => hpc }
  | waitBlocked | periodBlocked | finished => simp [hpc] at h
  | notStarted | periodBlock | write | returned =>
    simp only [hpc, Option.some.injEq] at h
    subst h
    exact { }
  | loop | publish | waited | read | periodTest =>
    simp only [hpc, Option.some.injEq] at h
    subst h
    constructor <;> (dsimp only; split_ifs <;> exact nofun)

/-- A notification lets a blocked thread test again, and moves it nowhere else at the gate. -/
theorem notifyOne_gate (p : MessengerPublisherApp) : p.notifyOne.pc ≠ .waitBlocked ∧
    (p.notifyOne.pc = .waitBlock → p.pc = .waitBlock) ∧
    (p.notifyOne.pc = .waited → p.pc = .waited) := by
  unfold notifyOne
  cases p.pc <;> simp

theorem step_testStands {shared : SharedCoordinateState} {p q : MessengerPublisherApp} {e : Event}
    (h : p.TestStands) (hs : p.step shared e = some q) : q.TestStands := by
  cases e with
  | thread ok => exact (threadStep_gate hs).tested
  | timeout =>
    simp only [step, Option.ite_none_right_eq_some, Option.some.injEq] at hs
    obtain ⟨-, rfl⟩ := hs
    exact fun hpc => by cases hpc
  | matched info =>
    simp only [step, Option.ite_none_left_eq_some, Option.some.injEq] at hs
    obtain ⟨hfree, rfl⟩ := hs
    unfold onPublicationMatched
    split_ifs with h1 h2
    · exact fun hpc => absurd ⟨.inl h1, by rw [hpc]; rfl⟩ hfree
    · exact fun hpc => absurd ⟨.inr h2, by rw [hpc]; rfl⟩ hfree
    · exact h
  | matchedNotify | stopNotify =>
    simp only [step, Option.ite_none_right_eq_some, Option.some.injEq] at hs
    obtain ⟨-, rfl⟩ := hs
    exact fun hpc => h ((notifyOne_gate p).2.1 hpc)
  | stopStore =>
    simp only [step, Option.some.injEq] at hs
    subst hs
    exact h

/-- Every event but a report keeps the gate. -/
theorem step_gateBy {shared : SharedCoordinateState} {p q : MessengerPublisherApp} {e : Event}
    {readers : ℤ} (ht : p.TestStands) (h : p.GateBy readers) (hs : p.step shared e = some q)
    (he : ∀ info, e ≠ .matched info) : q.GateBy readers := by
  cases e with
  | thread ok =>
    have hg := threadStep_gate hs
    have hmatched := (threadStep_frame hs).matched
    refine ⟨hmatched.trans h.matched_eq, ?_, ?_⟩
    · intro hpos _ hblocked
      have hclosed := ht (hg.blocked hblocked)
      rw [h.matched_eq] at hclosed
      omega
    · rw [← h.matched_eq, ← hmatched]
      exact hg.passed
  | timeout =>
    simp only [step, Option.ite_none_right_eq_some, Option.some.injEq] at hs
    obtain ⟨-, rfl⟩ := hs
    refine ⟨h.matched_eq, fun _ _ hpc => ?_, fun hpc => ?_⟩
    · cases hpc
    · cases hpc
  | matched info => exact absurd rfl (he info)
  | matchedNotify | stopNotify =>
    simp only [step, Option.ite_none_right_eq_some, Option.some.injEq] at hs
    obtain ⟨-, rfl⟩ := hs
    obtain ⟨hblocked, -, hpassed⟩ := notifyOne_gate p
    exact ⟨h.matched_eq, fun _ _ => hblocked, fun hpc => h.passed (hpassed hpc)⟩
  | stopStore =>
    simp only [step, Option.some.injEq] at hs
    subst hs
    exact ⟨h.matched_eq, h.unblocked, fun _ => .inr rfl⟩

/-- A report keeps the gate exactly when the count changes by at most one. -/
theorem matched_gateBy_iff {shared : SharedCoordinateState} {p q : MessengerPublisherApp}
    {info : PublicationMatchedStatus} {readers : ℤ} (h : p.GateBy readers)
    (hcount : info.currentCount = readers + info.currentCountChange)
    (hs : p.step shared (.matched info) = some q) :
    q.GateBy info.currentCount ↔
      info.currentCountChange = -1 ∨ info.currentCountChange = 0 ∨ info.currentCountChange = 1 := by
  simp only [step, Option.ite_none_left_eq_some, Option.some.injEq] at hs
  obtain ⟨hfree, rfl⟩ := hs
  -- the thread that passed holds the mutex until it has written or returned
  have hmutex (hchange : info.currentCountChange = 1 ∨ info.currentCountChange = -1) :
      p.pc ≠ .waited := fun hpc => hfree ⟨hchange, by rw [hpc]; rfl⟩
  unfold onPublicationMatched
  split_ifs with h1 h2
  · refine iff_of_true ⟨rfl, fun _ hn => ?_, fun hpc => absurd hpc (hmutex (.inl h1))⟩
      (.inr (.inr h1))
    exact absurd hn (Nat.succ_ne_zero _)
  · refine iff_of_true ⟨rfl, fun hpos hn => ?_, fun hpc => absurd hpc (hmutex (.inr h2))⟩
      (.inl h2)
    exact h.unblocked (by omega) hn
  · constructor
    · intro hg
      have heq := hg.matched_eq
      rw [h.matched_eq] at heq
      exact .inr (.inl (by omega))
    · intro hchange
      have hzero : info.currentCount = readers := by omega
      rw [hzero]
      exact h

end MessengerPublisherApp

/-- The publisher process with the count of the last report, zero before the first. -/
structure MatchGate where
  process : PublisherProcess
  reported : ℤ

namespace MatchGate

def init : MatchGate := ⟨.init, 0⟩

/-- The count after an event. DDS reports the true count, and its change since the last
report. -/
def reportedAfter (reported : ℤ) : PublisherProcess.Event → Option ℤ
  | .publisher (.matched info) =>
    if info.currentCount = reported + info.currentCountChange ∧ 0 ≤ info.currentCount then
      some info.currentCount
    else none
  | _ => some reported

def step (s : MatchGate) (e : PublisherProcess.Event) : Option MatchGate :=
  (reportedAfter s.reported e).bind fun r => (s.process.step e).map (⟨·, r⟩)

def machine : Machine MatchGate PublisherProcess.Event := ⟨init, step⟩

theorem step_eq_some {s t : MatchGate} {e : PublisherProcess.Event}
    (h : machine.step s e = some t) :
    reportedAfter s.reported e = some t.reported ∧
      PublisherProcess.machine.step s.process e = some t.process := by
  obtain ⟨r, hr, hmap⟩ := Option.bind_eq_some_iff.mp h
  obtain ⟨p, hp, rfl⟩ := Option.map_eq_some_iff.mp hmap
  exact ⟨hr, hp⟩

/-- The gate follows the readers. -/
def Follows (s : MatchGate) : Prop := s.process.publisher.GateBy s.reported

/-- The event is no report, or the count changed by at most one since the last one. -/
def ReportsSingly (_ : MatchGate) (e : PublisherProcess.Event) : Prop :=
  ∀ info, e = .publisher (.matched info) →
    info.currentCountChange = -1 ∨ info.currentCountChange = 0 ∨ info.currentCountChange = 1

theorem step_testStands {s t : MatchGate} {e : PublisherProcess.Event}
    (h : s.process.publisher.TestStands) (hs : machine.step s e = some t) :
    t.process.publisher.TestStands := by
  rcases PublisherProcess.step_cases (step_eq_some hs).2 with
    ⟨a, p, u, -, -, heq⟩ | ⟨a, p, -, hp, heq⟩ | ⟨a, w, -, -, heq⟩
  · rw [heq]
    exact h
  · rw [heq]
    exact MessengerPublisherApp.step_testStands h hp
  · rw [heq]
    exact h

theorem step_follows_iff {s t : MatchGate} {e : PublisherProcess.Event}
    (ht : s.process.publisher.TestStands) (h : s.Follows) (hs : machine.step s e = some t) :
    t.Follows ↔ s.ReportsSingly e := by
  obtain ⟨hr, hp⟩ := step_eq_some hs
  unfold Follows at h ⊢
  rcases PublisherProcess.step_cases hp with
    ⟨a, p, u, rfl, -, heq⟩ | ⟨a, p, rfl, ha, heq⟩ | ⟨a, w, rfl, -, heq⟩
  · rw [heq, ← Option.some.inj hr]
    exact iff_of_true h nofun
  · rw [heq]
    by_cases hmatched : ∃ info, a = .matched info
    · obtain ⟨info, rfl⟩ := hmatched
      simp only [reportedAfter, Option.ite_none_right_eq_some, Option.some.injEq] at hr
      obtain ⟨⟨hcount, -⟩, hreported⟩ := hr
      rw [← hreported, MessengerPublisherApp.matched_gateBy_iff h hcount ha]
      exact ⟨fun hchange _ he => by cases he; exact hchange, fun hsingly => hsingly info rfl⟩
    · have hne : ∀ info, a ≠ .matched info := fun info hinfo => hmatched ⟨info, hinfo⟩
      have hsame : reportedAfter s.reported (.publisher a) = some s.reported := by
        unfold reportedAfter
        split
        · next info heq => cases heq; exact absurd rfl (hne info)
        · rfl
      rw [← Option.some.inj (hsame.symm.trans hr)]
      apply iff_of_true (MessengerPublisherApp.step_gateBy ht h ha hne)
      intro info he
      exact absurd (by cases he; rfl) (hne info)
  · rw [heq, ← Option.some.inj hr]
    exact iff_of_true h nofun

/-- In every run the gate follows the readers in all states passed exactly as long as every
report is of a change by at most one. -/
theorem along_follows_iff {es : List PublisherProcess.Event} {s : MatchGate}
    (h : machine.run init es = some s) :
    machine.Along Follows init es ↔ machine.Meets ReportsSingly init es :=
  Machine.along_iff_meets (I := fun u => u.process.publisher.TestStands)
    (fun hu _ hs => step_testStands hu hs) (fun hu hf hs => step_follows_iff hu hf hs)
    nofun ⟨rfl, fun _ _ => nofun, nofun⟩ h

open PublisherProcess (startEvents tickEvents publishEvents)

theorem follows_demo : ∃ s, machine.run init
      (startEvents ++ tickEvents .zero .zero 5 ++ publishEvents true) = some s ∧
    s.reported = 1 ∧ s.process.publisher.written.length = 1 ∧
    (machine.Along Follows init
        (startEvents ++ tickEvents .zero .zero 5 ++ publishEvents true) ↔
      machine.Meets ReportsSingly init
        (startEvents ++ tickEvents .zero .zero 5 ++ publishEvents true)) := by
  obtain ⟨s, hs, hr, hw⟩ : ∃ s, machine.run init
      (startEvents ++ tickEvents .zero .zero 5 ++ publishEvents true) = some s ∧
      s.reported = 1 ∧ s.process.publisher.written.length = 1 := ⟨_, rfl, rfl, rfl⟩
  exact ⟨s, hs, hr, hw, along_follows_iff hs⟩

/-- The publisher blocks at the gate, and one report tells of two readers. -/
def coalescedEvents : List PublisherProcess.Event :=
  [.start, .scheduleTest, .arm].map .producer ++ tickEvents .zero .zero 5 ++
    (List.replicate 5 (MessengerPublisherApp.Event.thread true)).map .publisher ++
    [.publisher (.matched ⟨2, 2⟩)]

/-- With two readers reported and no notification to come, the publisher stays blocked. -/
theorem blocked_by_coalesced : ∃ s, machine.run init coalescedEvents = some s ∧
    s.reported = 2 ∧ s.process.publisher.matched = 0 ∧
    s.process.publisher.matchNotifying = 0 ∧ s.process.publisher.pc = .waitBlocked ∧
    ¬s.Follows := by
  obtain ⟨s, hs, hr, hm, hn, hpc⟩ : ∃ s, machine.run init coalescedEvents = some s ∧
      s.reported = 2 ∧ s.process.publisher.matched = 0 ∧
      s.process.publisher.matchNotifying = 0 ∧ s.process.publisher.pc = .waitBlocked :=
    ⟨_, rfl, rfl, rfl, rfl, rfl⟩
  exact ⟨s, hs, hr, hm, hn, hpc, fun hf => hf.unblocked (by rw [hr]; decide) hn hpc⟩

end MatchGate

end CoordinateStream
