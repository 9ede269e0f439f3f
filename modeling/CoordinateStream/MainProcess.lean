import CoordinateStream.Emission
import CoordinateStream.Shutdown

namespace CoordinateStream

/-! The process of components that `main` of a publisher constructs, starts and stops. -/

/-- The publisher behind the pointer, as it is constructed where there is none yet. -/
def MessengerApplication.publisherOf : Option MessengerApplication → MessengerPublisherApp
  | some (.publisher a) => a
  | _ => .init

namespace Messengermain

variable {round : ℚ≥0 → Option ℚ≥0}

def process (s : Messengermain) : PublisherProcess :=
  ⟨s.coordProducer.getD .init, s.sharedState.getD .init, MessengerApplication.publisherOf s.app,
    s.wsServer.getD .init⟩

/-- The statement of a `stop` that an invocation of the handler is about to make. -/
def handlerLabel (i : ℕ) (outcome : Bool) : HandlerPc → Option PublisherProcess.Event
  | .producerStore => some (.producer .stopStore)
  | .producerCancel => some (.producer (.stopCancel outcome))
  | .producerContext => some (.producer .stopContext)
  | .appStore => some (.publisher .stopStore)
  | .appNotify => some (.publisher .stopNotify)
  | .serverStop => some (.server (.stop i outcome))
  | .notDelivered | .finished => none

/-- What a step of `main` or of its threads is for the components. -/
def processLabel (s : Messengermain) : Event → Option PublisherProcess.Event
  | .producer e => some (.producer e)
  | .publisher e => some (.publisher e)
  | .server e => some (.server e)
  | .handler i outcome => handlerLabel i outcome (s.invocations i)
  | .main _ | .subscriber _ _ | .signal _ => none

/-- `main` of a publisher as far as it has got, with no pointer filled too early. -/
structure Publishing (s : Messengermain) : Prop where
  wired : s.Wired
  progress : s.Progress
  mode : s.mode = .publisher
  failed : s.failed = false
  empty : .makeSharedState ∈ s.rest → s.sharedState = none

theorem Publishing.app {s : Messengermain} (h : s.Publishing) {a : MessengerApplication}
    (ha : s.app = some a) : ∃ p, a = .publisher p := by
  have hmode := (h.wired.app a ha).1
  rw [h.mode] at hmode
  cases a with
  | publisher p => exact ⟨p, rfl⟩
  | subscriber p => cases hmode

/-- A statement of `main` constructs what the process starts with, or moves no component. -/
theorem execute_process {s t : Messengermain} (h : s.Publishing) {st : Statement}
    {l : List Statement} (hrest : s.rest = st :: l)
    (ht : { s with rest := l }.execute st = some t) :
    t.process = s.process ∧ (.makeSharedState ∈ l → t.sharedState = none) := by
  have hmem : st ∈ s.rest := hrest ▸ List.mem_cons_self
  have hlater : .makeSharedState ∈ l → s.sharedState = none := fun hl =>
    h.empty (hrest ▸ List.mem_cons_of_mem _ hl)
  have hnone {α : Type} {p : Option α} {st' : Statement} (hp : p.isSome → st' ∉ s.rest)
      (hst : st' ∈ s.rest) : p = none := by
    by_contra hne
    exact hp (Option.isSome_iff_ne_none.mpr hne) hst
  cases st with
  | makeSharedState =>
    cases ht
    have hnodup : Statement.makeSharedState ∉ l := by
      have hsuffix : Statement.makeSharedState :: l <:+ body s.mode := hrest ▸ h.wired.suffix
      have hsub := (body_ordered s.mode).1.sublist hsuffix.sublist
      exact (List.nodup_cons.mp hsub).1
    refine ⟨?_, fun hl => absurd hl hnodup⟩
    simp only [process, h.empty hmem]
    rfl
  | makeProducer =>
    cases ht
    refine ⟨?_, hlater⟩
    simp only [process, hnone (fun hp => (h.wired.producer hp).2) hmem]
    rfl
  | makeApp =>
    cases ht
    refine ⟨?_, hlater⟩
    have happ : s.app = none := hnone (fun hp => by
      obtain ⟨a, ha⟩ := Option.isSome_iff_exists.mp hp
      exact (h.wired.app a ha).2) hmem
    simp only [process, happ, h.mode]
    rfl
  | makeServer =>
    cases ht
    refine ⟨?_, hlater⟩
    simp only [process, hnone (fun hp => (h.wired.server hp).2) hmem]
    rfl
  | setServerState =>
    cases hw : s.wsServer <;> simp only [execute, deref, hw] at ht <;> cases ht
    all_goals
      refine ⟨?_, hlater⟩
      simp only [process, hw]
  | setAppServer =>
    cases ht
    refine ⟨?_, hlater⟩
    cases ha : s.app with
    | none => simp [process, setAppServer, ha]
    | some a =>
      obtain ⟨p, rfl⟩ := h.app ha
      simp [process, setAppServer, ha]
  | start | setAppState | setHandler | installSignals =>
    cases ht
    exact ⟨rfl, hlater⟩
  | join c =>
    simp only [execute, Option.ite_none_right_eq_some, Option.some.injEq] at ht
    rw [← ht.2]
    exact ⟨rfl, hlater⟩

theorem mainStep_process {s t : Messengermain} (h : s.Publishing) {ok : Bool}
    (ht : s.mainStep ok = some t) :
    t.process = s.process ∧ (.makeSharedState ∈ t.rest → t.sharedState = none) := by
  unfold mainStep at ht
  split at ht
  · cases ht
  · next st l hrest =>
    split_ifs at ht
    · cases ht
      exact ⟨rfl, h.empty⟩
    · obtain ⟨hproc, hempty⟩ := execute_process h hrest ht
      refine ⟨hproc, fun hl => hempty ?_⟩
      rwa [(execute_spec h.wired hrest ht).rest] at hl

/-! ### The steps behind filled pointers -/

theorem producerStep_eq {s t : Messengermain} (h : s.Publishing) (hst : s.started .producer = true)
    {e : CoordinateProducer.Event} (ht : s.producerStep e = some t) :
    ∃ p shared q u, s.coordProducer = some p ∧ s.sharedState = some shared ∧
      p.step e = some (q, u) ∧ t = { s with
        coordProducer := some q
        sharedState := some (PublisherProcess.storeUpdate shared u) } := by
  obtain ⟨hmem, hnot⟩ := h.wired.started .producer hst
  have hready := h.wired.ready hmem (.inl hnot)
  obtain ⟨shared, hs⟩ := Option.isSome_iff_exists.mp
    (hready .makeSharedState (by rw [h.mode]; decide))
  obtain ⟨p, hp⟩ := Option.isSome_iff_exists.mp (hready .makeProducer (by rw [h.mode]; decide))
  rw [producerStep, deref_some hp] at ht
  obtain ⟨⟨q, u⟩, hq, hu⟩ := Option.bind_eq_some_iff.mp ht
  refine ⟨p, shared, q, u, hp, hs, hq, ?_⟩
  cases u with
  | none =>
    cases hu
    simp only [PublisherProcess.storeUpdate, ← hs]
  | some d =>
    dsimp only at hu
    rw [deref_some hs] at hu
    exact (Option.some.inj hu).symm

theorem publisherStep_eq {s t : Messengermain} (h : s.Publishing)
    {e : MessengerPublisherApp.Event} (ht : s.publisherStep e = some t) :
    ∃ a shared b, s.app = some (.publisher a) ∧ s.sharedState = some shared ∧
      a.step shared e = some b ∧ t = { s with app := some (.publisher b) } := by
  unfold publisherStep at ht
  split at ht
  · next a ha =>
    have hready := h.wired.ready (by rw [h.mode]; decide) (.inl (h.wired.app _ ha).2)
    obtain ⟨shared, hs⟩ := Option.isSome_iff_exists.mp
      (hready .makeSharedState (by rw [h.mode]; decide))
    rw [deref_some hs] at ht
    obtain ⟨b, hb, rfl⟩ := Option.map_eq_some_iff.mp ht
    exact ⟨a, shared, b, ha, hs, hb, rfl⟩
  · cases ht

theorem subscriberStep_eq_none {s : Messengermain} (h : s.Publishing)
    (e : MessengerSubscriberApp.Event) (fails : ConnectionHdl → Bool) :
    s.subscriberStep round e fails = none := by
  unfold subscriberStep
  split
  · next a ha =>
    obtain ⟨p, hp⟩ := h.app ha
    cases hp
  · rfl

theorem serverStep_eq {s t : Messengermain} (h : s.Publishing) (hst : s.started .server = true)
    {e : WebSocketServer.Event} (ht : s.serverStep e = some t) :
    ∃ w shared w', s.wsServer = some w ∧ s.sharedState = some shared ∧
      w.step shared e = some w' ∧ t = { s with wsServer := some w' } := by
  obtain ⟨hmem, hnot⟩ := h.wired.started .server hst
  have hready := h.wired.ready hmem (.inl hnot)
  obtain ⟨shared, hs⟩ := Option.isSome_iff_exists.mp
    (hready .makeSharedState (by rw [h.mode]; decide))
  obtain ⟨w, hw⟩ := Option.isSome_iff_exists.mp (hready .makeServer (by rw [h.mode]; decide))
  rw [serverStep, deref_some hw, deref_some hs] at ht
  obtain ⟨w', hstep, rfl⟩ := Option.map_eq_some_iff.mp ht
  exact ⟨w, shared, w', hw, hs, hstep, rfl⟩

/-- A statement of the handler is one of the `stop` of one component. -/
inductive Stops (s t : Messengermain) (i : ℕ) (outcome : Bool) : Prop
  | producer (e : CoordinateProducer.Event) (p q : CoordinateProducer) (pc : HandlerPc)
    (label : handlerLabel i outcome (s.invocations i) = some (.producer e))
    (filled : s.coordProducer = some p) (step : p.step e = some (q, none))
    (eq : t = { s.setInvocation i pc with coordProducer := some q })
  | app (e : MessengerPublisherApp.Event) (a b : MessengerPublisherApp) (pc : HandlerPc)
    (label : handlerLabel i outcome (s.invocations i) = some (.publisher e))
    (filled : s.app = some (.publisher a)) (step : ∀ shared, a.step shared e = some b)
    (eq : t = { s.setInvocation i pc with app := some (.publisher b) })
  | server (w w' : WebSocketServer) (pc : HandlerPc)
    (label : handlerLabel i outcome (s.invocations i) = some (.server (.stop i outcome)))
    (filled : s.wsServer = some w) (step : w.stopStep i outcome = some w')
    (eq : t = { s.setInvocation i pc with wsServer := some w' })

theorem handlerStep_eq {s t : Messengermain} (h : s.Publishing) {i : ℕ} {outcome : Bool}
    (ht : s.handlerStep round i outcome = some t) : Stops s t i outcome := by
  have hdelivered : s.invocations i ≠ .notDelivered := by
    intro hd
    simp [handlerStep, hd] at ht
  have hready := h.progress.ready h.wired hdelivered
  rw [h.mode] at hready
  obtain ⟨p, hp⟩ := Option.isSome_iff_exists.mp (hready .makeProducer (by decide))
  obtain ⟨a, ha⟩ := Option.isSome_iff_exists.mp (hready .makeApp (by decide))
  obtain ⟨w, hw⟩ := Option.isSome_iff_exists.mp (hready .makeServer (by decide))
  obtain ⟨b, rfl⟩ := h.app ha
  -- no statement of `stop` calls `update`
  have hsilent {e : CoordinateProducer.Event} {q : CoordinateProducer} {u : Option CoordinateData}
      (he : e = .stopStore ∨ e = .stopCancel outcome ∨ e = .stopContext)
      (hq : p.step e = some (q, u)) :
      p.step e = some (q, none) := by
    rcases he with rfl | rfl | rfl <;> simp [CoordinateProducer.step] at hq ⊢
    · exact hq.1
    · exact ⟨hq.1, hq.2.1⟩
    · exact ⟨hq.1, hq.2.1⟩
  unfold handlerStep at ht
  cases hpc : s.invocations i with
  | notDelivered => exact absurd hpc hdelivered
  | finished => simp [hpc] at ht
  | producerStore =>
    simp only [hpc, deref_some hp] at ht
    obtain ⟨⟨q, u⟩, hq, rfl⟩ := Option.map_eq_some_iff.mp ht
    exact .producer .stopStore p q .producerCancel (by rw [hpc]; rfl) hp
      (hsilent (.inl rfl) hq) rfl
  | producerCancel =>
    simp only [hpc, deref_some hp] at ht
    obtain ⟨⟨q, u⟩, hq, rfl⟩ := Option.map_eq_some_iff.mp ht
    exact .producer (.stopCancel outcome) p q .producerContext (by rw [hpc]; rfl) hp
      (hsilent (.inr (.inl rfl)) hq) rfl
  | producerContext =>
    simp only [hpc, deref_some hp] at ht
    obtain ⟨⟨q, u⟩, hq, rfl⟩ := Option.map_eq_some_iff.mp ht
    exact .producer .stopContext p q .appStore (by rw [hpc]; rfl) hp
      (hsilent (.inr (.inr rfl)) hq) rfl
  | appStore =>
    simp only [hpc, deref_some ha] at ht
    obtain ⟨c, hc, rfl⟩ := Option.map_eq_some_iff.mp ht
    simp only [stopApp, Bool.false_eq_true, if_false] at hc
    obtain ⟨d, hd, rfl⟩ := Option.map_eq_some_iff.mp hc
    exact .app .stopStore b d .appNotify (by rw [hpc]; rfl) ha (fun _ => hd) rfl
  | appNotify =>
    simp only [hpc, deref_some ha] at ht
    obtain ⟨c, hc, rfl⟩ := Option.map_eq_some_iff.mp ht
    simp only [stopApp, if_true] at hc
    obtain ⟨d, hd, rfl⟩ := Option.map_eq_some_iff.mp hc
    exact .app .stopNotify b d .serverStop (by rw [hpc]; rfl) ha (fun _ => hd) rfl
  | serverStop =>
    simp only [hpc, deref_some hw] at ht
    obtain ⟨w', hstep, rfl⟩ := Option.map_eq_some_iff.mp ht
    exact .server w w' _ (by rw [hpc]; rfl) hw hstep rfl

/-! ### The process -/

theorem setApp_process {s : Messengermain} {a b : MessengerPublisherApp}
    {e : MessengerPublisherApp.Event} (ha : s.app = some (.publisher a))
    (hb : a.step s.process.shared e = some b) {t : Messengermain}
    (happ : t.app = some (.publisher b))
    (hproducer : t.coordProducer = s.coordProducer) (hshared : t.sharedState = s.sharedState)
    (hserver : t.wsServer = s.wsServer) :
    PublisherProcess.machine.step s.process (.publisher e) = some t.process := by
  have hpub : s.process.publisher = a := by
    simp only [process, ha, MessengerApplication.publisherOf]
  show (s.process.publisher.step s.process.shared e).map _ = _
  rw [hpub, hb, Option.map_some]
  simp only [process, happ, hproducer, hshared, hserver, MessengerApplication.publisherOf]

/-- A step of `main`, its threads and its handlers is one of the components, or none. -/
theorem step_process {s t : Messengermain} {e : Event} (h : s.Publishing)
    (ht : step round s e = some t) :
    t.Publishing ∧ (s.processLabel e = none → t.process = s.process) ∧
      ∀ b, s.processLabel e = some b →
        PublisherProcess.machine.step s.process b = some t.process := by
  obtain ⟨hmode, hwired, hprogress, hfailed, -⟩ := step_spec h.wired h.progress ht
  have hpublishing (hempty : .makeSharedState ∈ t.rest → t.sharedState = none) : t.Publishing := by
    refine ⟨hwired, hprogress, hmode.trans h.mode, ?_, hempty⟩
    rw [← Bool.not_eq_true, hfailed]
    rintro ⟨i, outcome, -, -, hsub⟩
    exact absurd (h.mode.symm.trans hsub) (by decide)
  unfold step at ht
  split at ht
  · cases ht
  cases e with
  | main ok =>
    obtain ⟨hproc, hempty⟩ := mainStep_process h ht
    exact ⟨hpublishing hempty, fun _ => hproc, fun b hb => absurd hb (by simp [processLabel])⟩
  | producer e =>
    obtain ⟨hst, ht⟩ := Option.ite_none_right_eq_some.mp ht
    obtain ⟨p, shared, q, u, hp, hs, hq, rfl⟩ := producerStep_eq h hst ht
    refine ⟨hpublishing fun hmem => ?_, fun hl => absurd hl (by simp [processLabel]),
      fun b hb => ?_⟩
    · rw [h.empty hmem] at hs
      cases hs
    · rw [← Option.some.inj hb]
      show (s.process.producer.step e).map _ = _
      simp only [process, hp, hs, Option.getD_some, hq, Option.map_some]
  | publisher e =>
    obtain ⟨a, shared, b, ha, hs, hb, rfl⟩ := publisherStep_eq h ht
    refine ⟨hpublishing h.empty, fun hl => absurd hl (by simp [processLabel]), fun c hc => ?_⟩
    rw [← Option.some.inj hc]
    exact setApp_process ha (by simpa only [process, hs, Option.getD_some] using hb) rfl rfl rfl rfl
  | subscriber e fails =>
    simp only [subscriberStep_eq_none h] at ht
    cases ht
  | server e =>
    obtain ⟨hst, ht⟩ := Option.ite_none_right_eq_some.mp ht
    obtain ⟨w, shared, w', hw, hs, hstep, rfl⟩ := serverStep_eq h hst ht
    refine ⟨hpublishing h.empty, fun hl => absurd hl (by simp [processLabel]), fun b hb => ?_⟩
    rw [← Option.some.inj hb]
    show (s.process.server.step s.process.shared e).map _ = _
    simp only [process, hw, hs, Option.getD_some, hstep, Option.map_some]
  | signal i =>
    simp only [Option.ite_none_right_eq_some, Option.some.injEq] at ht
    obtain ⟨-, rfl⟩ := ht
    exact ⟨hpublishing h.empty, fun _ => rfl, fun b hb => absurd hb (by simp [processLabel])⟩
  | handler i outcome =>
    cases handlerStep_eq h ht with
    | producer e p q pc label filled step eq =>
      subst eq
      refine ⟨hpublishing h.empty, fun hl => ?_, ?_⟩
      · rw [processLabel, label] at hl
        cases hl
      · intro b hb
        rw [processLabel, label] at hb
        rw [← Option.some.inj hb]
        show (s.process.producer.step e).map _ = _
        simp only [process, filled, Option.getD_some, step, Option.map_some]
        rfl
    | app e a b pc label filled step eq =>
      subst eq
      refine ⟨hpublishing h.empty, fun hl => ?_, ?_⟩
      · rw [processLabel, label] at hl
        cases hl
      · intro c hc
        rw [processLabel, label] at hc
        rw [← Option.some.inj hc]
        exact setApp_process filled (step _) rfl rfl rfl rfl
    | server w w' pc label filled step eq =>
      subst eq
      refine ⟨hpublishing h.empty, fun hl => ?_, ?_⟩
      · rw [processLabel, label] at hl
        cases hl
      · intro b hb
        rw [processLabel, label] at hb
        rw [← Option.some.inj hb]
        show (s.process.server.stopStep i outcome).map _ = _
        simp only [process, filled, Option.getD_some, step, Option.map_some]
        rfl

theorem init_publishing : (init .publisher).Publishing :=
  ⟨init_wired _, init_progress _, rfl, rfl, fun _ => rfl⟩

theorem publishing_of_reachable {s : Messengermain}
    (h : (machine round .publisher).Reachable s) : s.Publishing := by
  apply h.invariant init_publishing
  intro s t e _ hs _ ht
  exact (step_process hs ht).1

/-- `main` of a publisher runs the publisher process. -/
def processRefinement (round : ℚ≥0 → Option ℚ≥0) :
    Machine.Refinement (machine round .publisher) PublisherProcess.machine where
  abs := process
  label := processLabel
  init := rfl
  stutter hr hs hl := (step_process (publishing_of_reachable hr) hs).2.1 hl
  step hr hs hl := (step_process (publishing_of_reachable hr) hs).2.2 _ hl

theorem process_reachable {s : Messengermain} (h : (machine round .publisher).Reachable s) :
    PublisherProcess.machine.Reachable s.process :=
  (processRefinement round).reachableBy (fun _ _ => trivial) h

/-- Wherever signals come and handlers run between the statements of `main` and of its threads,
no empty pointer is used, and the components make the run of the process that the events name. -/
theorem main_runs_process {es : List Event} {s : Messengermain}
    (h : (machine round .publisher).run (init .publisher) es = some s) :
    s.failed = false ∧ s.process.Inv ∧
      PublisherProcess.machine.run .init ((processRefinement round).labels (init .publisher) es) =
        some s.process := by
  have hreach : (machine round .publisher).Reachable s := Machine.reachable_of_run h
  refine ⟨(publishing_of_reachable hreach).failed,
    PublisherProcess.inv_of_reachable (process_reachable hreach), ?_⟩
  exact (processRefinement round).run_labels .init h

theorem main_runs_process_demo :
    ∃ s, (machine some .publisher).run (init .publisher) publisherEvents = some s ∧
      s.rest = [] ∧ s.process.publisher.stopsReturned = 1 ∧ s.failed = false ∧ s.process.Inv ∧
      PublisherProcess.machine.run .init
        ((processRefinement some).labels (init .publisher) publisherEvents) = some s.process := by
  obtain ⟨s, hs, hrest, hret⟩ : ∃ s,
      (machine some .publisher).run (init .publisher) publisherEvents = some s ∧
      s.rest = [] ∧ s.process.publisher.stopsReturned = 1 := ⟨_, rfl, rfl, rfl⟩
  exact ⟨s, hs, hrest, hret, main_runs_process hs⟩

end Messengermain

end CoordinateStream
