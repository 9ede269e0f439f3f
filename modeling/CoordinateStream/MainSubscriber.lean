import CoordinateStream.Shutdown

namespace CoordinateStream

/-! The one component that `main` of a subscriber runs, and what becomes of it. -/

namespace MessengerSubscriberApp

variable {round : ℚ≥0 → Option ℚ≥0} {s t : MessengerSubscriberApp} {e : Event}

theorem processSample_runPc (d : TakenSample) : (s.processSample round d).runPc = s.runPc := by
  unfold processSample
  split
  · split <;> rfl
  · rfl

/-- The wait of `run` ends only when the flag is set. -/
theorem step_finished (hs : s.runPc = .finished → s.stop = true) (h : s.step round e = some t)
    (ht : t.runPc = .finished) : t.stop = true := by
  cases e with
  | dataAvailable | stopTest | take =>
    simp only [step, Option.ite_none_right_eq_some, Option.some.injEq] at h
    rw [← h.2] at ht ⊢
    exact hs ht
  | process =>
    simp only [step] at h
    split at h
    · rw [← Option.some.inj h] at ht ⊢
      rw [processSample_runPc] at ht
      rw [processSample_stop]
      exact hs ht
    · cases h
  | run =>
    simp only [step, runStep] at h
    cases hpc : s.runPc with
    | waitTest =>
      simp only [hpc, Option.some.injEq] at h
      rw [← h] at ht ⊢
      dsimp only at ht ⊢
      split_ifs at ht with hstop
      exact hstop
    | notStarted | waitBlock =>
      simp only [hpc, Option.some.injEq] at h
      rw [← h] at ht
      cases ht
    | waitBlocked | finished => simp [hpc] at h
  | stopStore => rw [← Option.some.inj h]
  | stopNotify =>
    simp only [step, Option.ite_none_right_eq_some, Option.some.injEq] at h
    rw [← h.2] at ht ⊢
    dsimp only at ht ⊢
    split_ifs at ht
    exact hs ht

theorem step_keeps_finished (hs : s.runPc = .finished) (h : s.step round e = some t) :
    t.runPc = .finished := by
  cases e with
  | dataAvailable | stopTest | take =>
    simp only [step, Option.ite_none_right_eq_some, Option.some.injEq] at h
    rw [← h.2]
    exact hs
  | process =>
    simp only [step] at h
    split at h
    · rw [← Option.some.inj h, processSample_runPc]
      exact hs
    · cases h
  | run => simp [step, runStep, hs] at h
  | stopStore =>
    rw [← Option.some.inj h]
    exact hs
  | stopNotify =>
    simp only [step, Option.ite_none_right_eq_some, Option.some.injEq] at h
    rw [← h.2]
    simp [hs]

end MessengerSubscriberApp

/-- The subscriber behind the pointer, as it is constructed where there is none yet. -/
def MessengerApplication.subscriberOf : Option MessengerApplication → MessengerSubscriberApp
  | some (.subscriber a) => a
  | _ => .init false

namespace Messengermain

variable {round : ℚ≥0 → Option ℚ≥0}

def receiver (s : Messengermain) : MessengerSubscriberApp :=
  MessengerApplication.subscriberOf s.app

/-- What a step of `main` or of its threads is for the subscriber. -/
def receiverLabel (s : Messengermain) : Event → Option MessengerSubscriberApp.Event
  | .subscriber e _ => some e
  | .handler i _ => match s.invocations i with
    | .appStore => some .stopStore
    | .appNotify => some .stopNotify
    | _ => none
  | _ => none

/-- `main` of a subscriber as far as it has got: its `ws_server_` stays empty, the flag is set
by the handler only, and what is past has happened. -/
structure Receiving (round : ℚ≥0 → Option ℚ≥0) (s : Messengermain) : Prop where
  wired : s.Wired
  progress : s.Progress
  mode : s.mode = .subscriber
  inv : s.receiver.Inv round false
  stopped : s.receiver.stop = true → ∃ i, 5 ≤ (s.invocations i).rank
  waited : s.receiver.runPc = .finished → s.receiver.stop = true
  joined : .join .app ∉ s.rest → s.receiver.runPc = .finished
  failed : s.failed = true → 0 < s.receiver.stopsReturned

theorem Receiving.app {s : Messengermain} (h : s.Receiving round) {a : MessengerApplication}
    (ha : s.app = some a) : ∃ b, a = .subscriber b ∧ s.receiver = b := by
  have hmode := (h.wired.app a ha).1
  rw [h.mode] at hmode
  cases a with
  | publisher p => cases hmode
  | subscriber b =>
    refine ⟨b, rfl, ?_⟩
    rw [receiver, ha, MessengerApplication.subscriberOf]

theorem init_receiving : (init .subscriber).Receiving round where
  wired := init_wired _
  progress := init_progress _
  mode := rfl
  inv := MessengerSubscriberApp.init_inv false
  stopped h := nomatch h
  waited h := nomatch h
  joined h := absurd (by decide) h
  failed h := nomatch h

/-- A statement of `main` constructs the subscriber as it starts, or leaves it alone. -/
theorem execute_receiver {s t : Messengermain} (h : s.Receiving round) {st : Statement}
    {l : List Statement} (hrest : s.rest = st :: l)
    (ht : { s with rest := l }.execute st = some t) :
    t.receiver = s.receiver ∧ (st = .join .app → s.receiver.runPc = .finished) := by
  cases st with
  | makeApp =>
    have happ : s.app = none := by
      by_contra hne
      obtain ⟨a, ha⟩ := Option.ne_none_iff_exists'.mp hne
      exact (h.wired.app a ha).2 (hrest ▸ List.mem_cons_self)
    cases ht
    refine ⟨?_, fun heq => by cases heq⟩
    simp only [receiver, happ, h.mode]
    rfl
  | setAppServer =>
    cases ht
    refine ⟨?_, fun heq => by cases heq⟩
    have hserver : s.wsServer = none := (h.wired.subscriber h.mode).2
    cases ha : s.app with
    | none => simp [receiver, setAppServer, ha]
    | some a =>
      obtain ⟨b, rfl, hb⟩ := h.app ha
      have hws : b.wsServer = false := hb ▸ h.inv.wsServer_eq
      -- what is copied is an empty pointer, as the member was before
      simp only [receiver, setAppServer, ha, hserver, Option.isSome_none,
        MessengerApplication.subscriberOf]
      rw [← hws]
  | setServerState =>
    refine ⟨?_, fun heq => by cases heq⟩
    cases hw : s.wsServer <;> simp only [execute, deref, hw] at ht <;> cases ht <;> rfl
  | makeSharedState | makeProducer | makeServer | setAppState | start | setHandler
  | installSignals =>
    cases ht
    exact ⟨rfl, fun heq => by cases heq⟩
  | join c =>
    simp only [execute, Option.ite_none_right_eq_some, Option.some.injEq] at ht
    obtain ⟨hret, rfl⟩ := ht
    refine ⟨rfl, ?_⟩
    rintro ⟨⟩
    obtain ⟨a, ha, hpc⟩ := (Option.any_eq_true _ _).mp hret
    obtain ⟨b, rfl, hb⟩ := h.app ha
    rw [hb]
    exact of_decide_eq_true hpc

/-- What a step can do to the subscriber: `main` leaves it alone, its own thread and its
callbacks move it, and so do the two statements of `app->stop()`, after which the handler
meets the empty pointer. -/
inductive Moves (round : ℚ≥0 → Option ℚ≥0) (s t : Messengermain) : Event → Prop
  | main (ok : Bool) (same : t.receiver = s.receiver) (invocations : t.invocations = s.invocations)
    (failed : t.failed = s.failed)
    (joined : .join .app ∉ t.rest → .join .app ∉ s.rest ∨ s.receiver.runPc = .finished) :
    Moves round s t (.main ok)
  | subscriber (a : MessengerSubscriberApp.Event) (fails : ConnectionHdl → Bool)
    (b : MessengerSubscriberApp) (ne : a ≠ .stopStore)
    (step : s.receiver.step round a = some b) (eq : t = { s with app := some (.subscriber b) }) :
    Moves round s t (.subscriber a fails)
  | signal (i : ℕ) (new : s.invocations i = .notDelivered) (eq : t = s.setInvocation i .appStore) :
    Moves round s t (.signal i)
  | stop (i : ℕ) (outcome : Bool) (a : MessengerSubscriberApp.Event) (b : MessengerSubscriberApp)
    (pc : HandlerPc) (label : s.receiverLabel (.handler i outcome) = some a)
    (step : s.receiver.step round a = some b) (le : 5 ≤ pc.rank)
    (eq : t = { s.setInvocation i pc with app := some (.subscriber b) }) :
    Moves round s t (.handler i outcome)
  | fail (i : ℕ) (outcome : Bool) (last : s.invocations i = .serverStop)
    (eq : t = { s with failed := true }) : Moves round s t (.handler i outcome)

theorem mainStep_moves {s t : Messengermain} (h : s.Receiving round) {ok : Bool}
    (ht : s.mainStep ok = some t) : Moves round s t (.main ok) := by
  unfold mainStep at ht
  split at ht
  · cases ht
  · next st l hrest =>
    split_ifs at ht
    · cases ht
      exact .main ok rfl rfl rfl .inl
    · obtain ⟨hsame, hjoin⟩ := execute_receiver h hrest ht
      have hspec := execute_spec h.wired hrest ht
      refine .main ok hsame hspec.invocations hspec.failed fun hnot => ?_
      by_cases hst : st = .join .app
      · exact .inr (hjoin hst)
      · refine .inl ?_
        rw [hspec.rest] at hnot
        rw [hrest]
        exact List.not_mem_cons_of_ne_of_not_mem (fun heq => hst heq.symm) hnot

theorem subscriberStep_moves {s t : Messengermain} (h : s.Receiving round)
    {a : MessengerSubscriberApp.Event} {fails : ConnectionHdl → Bool}
    (hstop : isStop (.subscriber a fails) = false)
    (ht : s.subscriberStep round a fails = some t) : Moves round s t (.subscriber a fails) := by
  unfold subscriberStep at ht
  split at ht
  · next c hc =>
    obtain ⟨c', heq, hrec⟩ := h.app hc
    cases heq
    obtain ⟨b, hb, hu⟩ := Option.bind_eq_some_iff.mp ht
    rw [← hrec] at hb
    -- without a server nothing is passed on, so the empty pointer is not used here
    have hinv := MessengerSubscriberApp.step_inv h.inv hb
    have hcast : b.broadcasts = [] := hinv.broadcasts_eq
    simp only [hcast, List.drop_nil, Option.some.injEq] at hu
    refine .subscriber a fails b ?_ hb hu.symm
    rintro rfl
    cases hstop
  · cases ht

theorem handlerStep_moves {s t : Messengermain} (h : s.Receiving round) {i : ℕ} {outcome : Bool}
    (ht : s.handlerStep round i outcome = some t) : Moves round s t (.handler i outcome) := by
  have hrank := h.progress.subscriber h.mode i
  have happ (hi : s.invocations i ≠ .notDelivered) :
      s.app = some (.subscriber s.receiver) := by
    have hready := h.progress.ready h.wired hi
    rw [h.mode] at hready
    obtain ⟨a, ha⟩ := Option.isSome_iff_exists.mp (hready .makeApp (by decide))
    obtain ⟨b, rfl, hb⟩ := h.app ha
    rw [ha, hb]
  unfold handlerStep at ht
  cases hpc : s.invocations i with
  | notDelivered | finished => simp [hpc] at ht
  | producerStore | producerCancel | producerContext =>
    rw [hpc] at hrank
    exact absurd hrank (by decide)
  | appStore =>
    simp only [hpc, deref_some (happ (by rw [hpc]; decide))] at ht
    obtain ⟨c, hc, rfl⟩ := Option.map_eq_some_iff.mp ht
    simp only [stopApp, Bool.false_eq_true, if_false] at hc
    obtain ⟨b, hb, rfl⟩ := Option.map_eq_some_iff.mp hc
    exact .stop i outcome .stopStore b .appNotify (by rw [receiverLabel, hpc]) hb (by decide) rfl
  | appNotify =>
    simp only [hpc, deref_some (happ (by rw [hpc]; decide))] at ht
    obtain ⟨c, hc, rfl⟩ := Option.map_eq_some_iff.mp ht
    simp only [stopApp, if_true] at hc
    obtain ⟨b, hb, rfl⟩ := Option.map_eq_some_iff.mp hc
    exact .stop i outcome .stopNotify b .serverStop (by rw [receiverLabel, hpc]) hb (by decide) rfl
  | serverStop =>
    simp only [hpc, deref_none (h.wired.subscriber h.mode).2] at ht
    exact .fail i outcome hpc (Option.some.inj ht).symm

theorem step_moves {s t : Messengermain} {e : Event} (h : s.Receiving round)
    (ht : step round s e = some t) : Moves round s t e := by
  unfold step at ht
  split at ht
  · cases ht
  next hnot =>
  have hstarted {c : Component} (hc : .start c ∉ body .subscriber) : s.started c ≠ true := by
    intro hst
    apply hc
    rw [← h.mode]
    exact (h.wired.started c hst).1
  cases e with
  | main ok => exact mainStep_moves h ht
  | subscriber a fails =>
    refine subscriberStep_moves h ?_ ht
    simp only [Bool.or_eq_true, not_or, Bool.not_eq_true] at hnot
    exact hnot.1.2
  | producer e =>
    exact absurd (Option.ite_none_right_eq_some.mp ht).1 (hstarted (by decide))
  | server e =>
    exact absurd (Option.ite_none_right_eq_some.mp ht).1 (hstarted (by decide))
  | publisher e =>
    simp only [publisherStep] at ht
    split at ht
    · next a ha =>
      obtain ⟨b, hb, -⟩ := h.app ha
      cases hb
    · cases ht
  | signal i =>
    simp only [Option.ite_none_right_eq_some, Option.some.injEq, Bool.and_eq_true,
      decide_eq_true_eq] at ht
    obtain ⟨⟨-, hi⟩, rfl⟩ := ht
    refine .signal i hi ?_
    rw [h.mode]
    rfl
  | handler i outcome => exact handlerStep_moves h ht

theorem receiver_of_unlabelled {s t : Messengermain} {e : Event} (h : Moves round s t e)
    (hl : s.receiverLabel e = none) : t.receiver = s.receiver := by
  cases h with
  | main ok same => exact same
  | subscriber => cases hl
  | signal i new eq =>
    rw [eq]
    rfl
  | stop i outcome a b pc label =>
    rw [label] at hl
    cases hl
  | fail i outcome last eq =>
    rw [eq]
    rfl

theorem receiver_of_labelled {s t : Messengermain} {e : Event} {a : MessengerSubscriberApp.Event}
    (h : Moves round s t e) (hl : s.receiverLabel e = some a) :
    s.receiver.step round a = some t.receiver := by
  cases h with
  | main => cases hl
  | subscriber a fails b ne step eq =>
    cases hl
    rw [step, eq]
    rfl
  | signal => cases hl
  | stop i outcome a b pc label step le eq =>
    rw [label] at hl
    cases hl
    rw [step, eq]
    rfl
  | fail i outcome last eq =>
    rw [receiverLabel, last] at hl
    cases hl

theorem step_receiving {s t : Messengermain} {e : Event} (h : s.Receiving round)
    (ht : step round s e = some t) : t.Receiving round := by
  obtain ⟨hmode, hwired, hprogress, -, -⟩ := step_spec h.wired h.progress ht
  replace hmode := hmode.trans h.mode
  cases step_moves h ht with
  | main ok same invocations failed joined =>
    constructor
    · exact hwired
    · exact hprogress
    · exact hmode
    · rw [same]
      exact h.inv
    · rw [same, invocations]
      exact h.stopped
    · rw [same]
      exact h.waited
    · intro hnot
      rw [same]
      exact (joined hnot).elim h.joined id
    · rw [same, failed]
      exact h.failed
  | subscriber a fails b ne step eq =>
    subst eq
    have hstops := MessengerSubscriberApp.step_stopsReturned step
    refine ⟨hwired, hprogress, hmode, MessengerSubscriberApp.step_inv h.inv step, fun hstop => ?_,
      MessengerSubscriberApp.step_finished h.waited step, fun hnot => ?_, fun hf => ?_⟩
    · -- the flag was set before, for this is no `stop`
      have hold : b.stop = s.receiver.stop := by
        rcases MessengerSubscriberApp.step_stops step with ⟨-, hs, -⟩ | ⟨he, -⟩ | ⟨-, -, hs, -⟩
        · exact hs
        · exact absurd he ne
        · exact hs
      exact h.stopped (hold ▸ hstop)
    · exact MessengerSubscriberApp.step_keeps_finished (h.joined hnot) step
    · exact (h.failed hf).trans_le hstops
  | signal i new eq =>
    subst eq
    refine ⟨hwired, hprogress, hmode, h.inv, fun hstop => ?_, h.waited, h.joined, h.failed⟩
    obtain ⟨j, hj⟩ := h.stopped hstop
    have hne : j ≠ i := by
      rintro rfl
      rw [new] at hj
      exact absurd hj (by decide)
    refine ⟨j, ?_⟩
    show 5 ≤ (Function.update s.invocations i HandlerPc.appStore j).rank
    rw [Function.update_of_ne hne]
    exact hj
  | stop i outcome a b pc label step le eq =>
    subst eq
    have hstops := MessengerSubscriberApp.step_stopsReturned step
    refine ⟨hwired, hprogress, hmode, MessengerSubscriberApp.step_inv h.inv step,
      fun _ => ⟨i, ?_⟩, MessengerSubscriberApp.step_finished h.waited step, fun hnot => ?_,
      fun hf => ?_⟩
    · show 5 ≤ (Function.update s.invocations i pc i).rank
      rw [Function.update_self]
      exact le
    · exact MessengerSubscriberApp.step_keeps_finished (h.joined hnot) step
    · exact (h.failed hf).trans_le hstops
  | fail i outcome last eq =>
    subst eq
    refine ⟨hwired, hprogress, hmode, h.inv, h.stopped, h.waited, h.joined, fun _ => ?_⟩
    obtain ⟨a, ha, hpos⟩ := h.progress.app i (by rw [last]; decide)
    obtain ⟨b, rfl, hb⟩ := h.app ha
    show 0 < s.receiver.stopsReturned
    rw [hb]
    exact hpos

theorem receiving_of_reachable {s : Messengermain}
    (h : (machine round .subscriber).Reachable s) : s.Receiving round := by
  apply h.invariant init_receiving
  intro s t e _ hs _ ht
  exact step_receiving hs ht

/-- `main` of a subscriber runs the subscriber without a server. -/
def receiverRefinement (round : ℚ≥0 → Option ℚ≥0) :
    Machine.Refinement (machine round .subscriber) (MessengerSubscriberApp.machine round false) where
  abs := receiver
  label := receiverLabel
  init := rfl
  stutter hr hs hl := receiver_of_unlabelled (step_moves (receiving_of_reachable hr) hs) hl
  step hr hs hl := receiver_of_labelled (step_moves (receiving_of_reachable hr) hs) hl

/-- What `main` of a subscriber comes to: samples are counted, but nothing is passed on to any
client; no invocation of the handler finishes; the empty pointer is met only after the
application was stopped, and the end of `main` is reached only behind a handler. -/
structure Unforwarded (s : Messengermain) : Prop where
  silent : s.receiver.broadcasts = []
  count : s.receiver.samplesReceived = UInt16.ofNat s.receiver.counted.length
  unfinished : ∀ i, s.invocations i ≠ .finished
  failed : s.failed = true → 0 < s.receiver.stopsReturned
  ended : s.rest = [] → s.receiver.runPc = .finished ∧
    ∃ i, s.invocations i = .appNotify ∨ s.invocations i = .serverStop

/-- Whatever samples come, and wherever signals fall between the statements, `main` makes the
run of a subscriber without a server that the events name. -/
theorem main_runs_subscriber {es : List Event} {s : Messengermain}
    (h : (machine round .subscriber).run (init .subscriber) es = some s) :
    s.Unforwarded ∧ (MessengerSubscriberApp.machine round false).run (.init false)
      ((receiverRefinement round).labels (init .subscriber) es) = some s.receiver := by
  have hreceiving := receiving_of_reachable (Machine.reachable_of_run h)
  have hunfinished (i : ℕ) : s.invocations i ≠ .finished := by
    intro hi
    have hmode := (hreceiving.progress.server i hi).1
    rw [hreceiving.mode] at hmode
    cases hmode
  refine ⟨⟨hreceiving.inv.broadcasts_eq, hreceiving.inv.count, hunfinished, hreceiving.failed,
    fun hrest => ?_⟩, (receiverRefinement round).run_labels .init h⟩
  have hfinished : s.receiver.runPc = .finished := by
    apply hreceiving.joined
    rw [hrest]
    exact List.not_mem_nil
  obtain ⟨i, hi⟩ := hreceiving.stopped (hreceiving.waited hfinished)
  refine ⟨hfinished, i, ?_⟩
  have hne := hunfinished i
  cases hpc : s.invocations i with
  | appNotify => exact .inl rfl
  | serverStop => exact .inr rfl
  | finished => exact absurd hpc hne
  | notDelivered | producerStore | producerCancel | producerContext | appStore =>
    rw [hpc] at hi
    exact absurd hi (by decide)

/-- A subscriber that takes a sample, is interrupted and ends before its handler goes on. -/
def subscriberEvents : List Event := List.flatten [
  List.replicate 5 (.main true),
  [.subscriber .dataAvailable (fun _ => false), .subscriber .stopTest (fun _ => false),
    .subscriber (.take (some MessengerSubscriberApp.demoSample)) (fun _ => false),
    .subscriber .process (fun _ => false), .signal 0],
  List.replicate 2 (.handler 0 false),
  List.replicate 2 (.subscriber .run (fun _ => false)),
  [.main true]]

theorem main_runs_subscriber_demo : ∃ s,
    (machine Binary64.round .subscriber).run (init .subscriber) subscriberEvents = some s ∧
    s.rest = [] ∧ s.receiver.counted = [MessengerSubscriberApp.demoSample] ∧ s.Unforwarded ∧
    (MessengerSubscriberApp.machine Binary64.round false).run (.init false)
      ((receiverRefinement Binary64.round).labels (init .subscriber) subscriberEvents) =
        some s.receiver := by
  have hrun : ((machine Binary64.round .subscriber).run (init .subscriber) subscriberEvents).map
      (fun s => decide (s.rest = [] ∧
        s.receiver.counted = [MessengerSubscriberApp.demoSample])) = some true := by
    decide +kernel
  obtain ⟨s, hs, hend⟩ := Option.map_eq_some_iff.mp hrun
  obtain ⟨hrest, hcounted⟩ := of_decide_eq_true hend
  exact ⟨s, hs, hrest, hcounted, main_runs_subscriber hs⟩

end Messengermain

end CoordinateStream
