import CoordinateStream.Construction

namespace CoordinateStream

/-! The handler of the signals against what `main` has constructed and its `return` destroys. -/

namespace Messengermain

/-! ### The handler -/

/-- How far an invocation of the handler has come. -/
def HandlerPc.rank : HandlerPc → ℕ
  | .notDelivered => 0
  | .producerStore => 1
  | .producerCancel => 2
  | .producerContext => 3
  | .appStore => 4
  | .appNotify => 5
  | .serverStop => 6
  | .finished => 7

/-- An invocation has called `stop` on the components it is past. -/
structure Progress (s : Messengermain) : Prop where
  delivered : ∀ i, s.invocations i ≠ .notDelivered → s.installed = true
  producer : s.mode = .publisher → ∀ i, 4 ≤ (s.invocations i).rank → s.StopCalled .producer
  app : ∀ i, 6 ≤ (s.invocations i).rank → s.StopCalled .app
  server : ∀ i, s.invocations i = .finished → s.mode = .publisher ∧ s.StopCalled .server
  subscriber : s.mode = .subscriber → ∀ i, (s.invocations i).rank = 0 ∨
    4 ≤ (s.invocations i).rank

theorem init_progress (m : Mode) : (init m).Progress where
  delivered _ h := absurd rfl h
  producer _ _ h := absurd h (by decide : ¬4 ≤ 0)
  app _ h := absurd h (by decide : ¬6 ≤ 0)
  server _ h := nomatch h
  subscriber _ _ := .inl rfl

theorem Progress.kept {s t : Messengermain} (h : s.Progress) (hk : Keeps s t)
    (hinv : t.invocations = s.invocations) : t.Progress := by
  constructor
  · intro i hi
    rw [hinv] at hi
    exact hk.installed (h.delivered i hi)
  · intro hm i hi
    rw [hk.mode] at hm
    rw [hinv] at hi
    exact hk.stops _ (h.producer hm i hi)
  · intro i hi
    rw [hinv] at hi
    exact hk.stops _ (h.app i hi)
  · intro i hi
    rw [hinv] at hi
    exact ⟨hk.mode.trans (h.server i hi).1, hk.stops _ (h.server i hi).2⟩
  · intro hm i
    rw [hk.mode] at hm
    rw [hinv]
    exact h.subscriber hm i

/-- One invocation comes to `pc`. -/
theorem Progress.advance {s t : Messengermain} (h : s.Progress) (hk : Keeps s t) {i : ℕ}
    {pc : HandlerPc} (hinstalled : s.installed = true)
    (hinv : t.invocations = Function.update s.invocations i pc)
    (hprod : s.mode = .publisher → 4 ≤ pc.rank → t.StopCalled .producer)
    (happ : 6 ≤ pc.rank → t.StopCalled .app)
    (hserver : pc = .finished → s.mode = .publisher ∧ t.StopCalled .server)
    (hsub : s.mode = .subscriber → pc.rank = 0 ∨ 4 ≤ pc.rank) : t.Progress := by
  have hself : t.invocations i = pc := by rw [hinv, Function.update_self]
  have hother : ∀ j, j ≠ i → t.invocations j = s.invocations j := fun j hj => by
    rw [hinv, Function.update_of_ne hj]
  constructor
  · exact fun _ _ => hk.installed hinstalled
  · intro hm j hj
    rw [hk.mode] at hm
    by_cases heq : j = i
    · rw [heq, hself] at hj
      exact hprod hm hj
    · rw [hother j heq] at hj
      exact hk.stops _ (h.producer hm j hj)
  · intro j hj
    by_cases heq : j = i
    · rw [heq, hself] at hj
      exact happ hj
    · rw [hother j heq] at hj
      exact hk.stops _ (h.app j hj)
  · intro j hj
    rw [hk.mode]
    by_cases heq : j = i
    · rw [heq, hself] at hj
      exact hserver hj
    · rw [hother j heq] at hj
      exact ⟨(h.server j hj).1, hk.stops _ (h.server j hj).2⟩
  · intro hm j
    rw [hk.mode] at hm
    by_cases heq : j = i
    · rw [heq, hself]
      exact hsub hm
    · rw [hother j heq]
      exact h.subscriber hm j

theorem stopApp_spec {round : ℚ≥0 → Option ℚ≥0} {notify : Bool} {a b : MessengerApplication}
    (h : stopApp round notify a = some b) : b.mode = a.mode ∧ b.hasServer = a.hasServer ∧
      a.stopsReturned ≤ b.stopsReturned ∧ (notify = true → 0 < b.stopsReturned) := by
  cases a with
  | publisher p =>
    obtain ⟨q, hq, rfl⟩ := Option.map_eq_some_iff.mp h
    refine ⟨rfl, rfl, MessengerPublisherApp.step_stopsReturned hq, fun hn => ?_⟩
    rw [hn, if_pos rfl] at hq
    simp only [MessengerPublisherApp.step, Option.ite_none_right_eq_some,
      Option.some.injEq] at hq
    rw [← hq.2]
    exact Nat.succ_pos _
  | subscriber p =>
    obtain ⟨q, hq, rfl⟩ := Option.map_eq_some_iff.mp h
    refine ⟨rfl, (MessengerSubscriberApp.step_wsServer hq).1,
      MessengerSubscriberApp.step_stopsReturned hq, fun hn => ?_⟩
    rw [hn, if_pos rfl] at hq
    simp only [MessengerSubscriberApp.step, Option.ite_none_right_eq_some,
      Option.some.injEq] at hq
    rw [← hq.2]
    exact Nat.succ_pos _

/-- A handler step on the producer, the application or the server behind a filled pointer. -/
theorem stopProducer_spec {s : Messengermain} {p q : CoordinateProducer}
    (hp : s.coordProducer = some p) (hle : p.stopsReturned ≤ q.stopsReturned) (i : ℕ)
    (pc : HandlerPc) :
    SameWiring s { s.setInvocation i pc with coordProducer := some q } ∧
      Keeps s { s.setInvocation i pc with coordProducer := some q } := by
  refine ⟨{ producer := by rw [hp]; rfl }, { stops := fun c hc => ?_ }⟩
  cases c with
  | producer =>
    obtain ⟨p', hp', hpos⟩ := hc
    rw [hp] at hp'
    cases hp'
    exact ⟨q, rfl, hpos.trans_le hle⟩
  | app => exact hc
  | server => exact hc

theorem stopApp_keeps {s : Messengermain} {a b : MessengerApplication} (ha : s.app = some a)
    (hm : b.mode = a.mode) (hh : b.hasServer = a.hasServer)
    (hle : a.stopsReturned ≤ b.stopsReturned) (i : ℕ) (pc : HandlerPc) :
    SameWiring s { s.setInvocation i pc with app := some b } ∧
      Keeps s { s.setInvocation i pc with app := some b } :=
  ⟨{ app := by rw [ha, Option.map_some, Option.map_some, hm]
     hasServer := by rw [ha, Option.map_some, Option.map_some, hh] },
    { stops := stopCalled_app ha rfl hle rfl id }⟩

theorem stopServer_keeps {s : Messengermain} {w w' : WebSocketServer} (hw : s.wsServer = some w)
    (hle : ∀ j, w.calls j = .returned → w'.calls j = .returned) (i : ℕ) (pc : HandlerPc) :
    SameWiring s { s.setInvocation i pc with wsServer := some w' } ∧
      Keeps s { s.setInvocation i pc with wsServer := some w' } := by
  refine ⟨{ server := by rw [hw]; rfl }, { stops := fun c hc => ?_ }⟩
  cases c with
  | producer => exact hc
  | app => exact hc
  | server =>
    obtain ⟨v, hv, j, hj⟩ := hc
    rw [hw] at hv
    cases hv
    exact ⟨w', rfl, j, hle j hj⟩

theorem step_stopContext {p q : CoordinateProducer} {u : Option CoordinateData}
    (h : p.step .stopContext = some (q, u)) : 0 < q.stopsReturned := by
  rcases CoordinateProducer.step_stops h with ⟨hne, -⟩ | ⟨-, -, hret⟩
  · exact absurd rfl hne
  · omega

/-- What an invocation that was delivered relies on was constructed. -/
theorem Progress.ready {s : Messengermain} (hp : s.Progress) (h : s.Wired) {i : ℕ}
    (hi : s.invocations i ≠ .notDelivered) : ∀ st ∈ needs s.mode .installSignals, s.Done st :=
  h.ready (by cases s.mode <;> decide) (.inl (h.installed (hp.delivered i hi)))

/-- A step of a handler that does not meet an empty pointer. -/
structure Handled (s t : Messengermain) : Prop where
  wiring : SameWiring s t
  failed : t.failed = s.failed := by rfl
  progress : t.Progress

/-- The three statements of `coord_producer->stop()`. -/
theorem producerStage {s t : Messengermain} (h : s.Wired) (hp : s.Progress) {i : ℕ}
    {e : CoordinateProducer.Event} {pc : HandlerPc} (hlo : (s.invocations i).rank ≠ 0)
    (hhi : (s.invocations i).rank < 4) (hstop : 4 ≤ pc.rank → e = .stopContext)
    (hpc : pc.rank < 6)
    (ht : (deref s.coordProducer s fun p => (p.step e).map fun q =>
      { s.setInvocation i pc with coordProducer := some q.1 }) = some t) : Handled s t := by
  have hi : s.invocations i ≠ .notDelivered := fun hd => hlo (by rw [hd]; rfl)
  have hm : s.mode = .publisher := by
    cases hm : s.mode with
    | publisher => rfl
    | subscriber =>
      have hsub := hp.subscriber hm i
      omega
  have hfilled : s.coordProducer.isSome :=
    hp.ready h hi .makeProducer (by rw [hm]; decide)
  obtain ⟨p, hprod⟩ := Option.isSome_iff_exists.mp hfilled
  rw [deref_some hprod] at ht
  obtain ⟨⟨q, u⟩, hq, rfl⟩ := Option.map_eq_some_iff.mp ht
  obtain ⟨hsame, hkeep⟩ :=
    stopProducer_spec hprod (CoordinateProducer.step_stopsReturned hq) i pc
  refine ⟨hsame, rfl, hp.advance hkeep (hp.delivered i hi) rfl (fun _ h4 => ?_)
    (fun h6 => absurd hpc (not_lt.mpr h6)) ?_ fun hs => ?_⟩
  · rw [hstop h4] at hq
    exact ⟨q, rfl, step_stopContext hq⟩
  · rintro rfl
    exact absurd hpc (by decide)
  · exact absurd (hm.symm.trans hs) (by decide)

/-- The two statements of `app->stop()`. -/
theorem appStage {round : ℚ≥0 → Option ℚ≥0} {s t : Messengermain} (h : s.Wired)
    (hp : s.Progress) {i : ℕ} {notify : Bool} {pc : HandlerPc} (hlo : 4 ≤ (s.invocations i).rank)
    (hstop : 6 ≤ pc.rank → notify = true) (hpc : 4 ≤ pc.rank) (hfin : pc ≠ .finished)
    (ht : (deref s.app s fun a => (stopApp round notify a).map fun b =>
      { s.setInvocation i pc with app := some b }) = some t) : Handled s t := by
  have hi : s.invocations i ≠ .notDelivered := fun hd => by
    rw [hd] at hlo
    exact absurd hlo (by decide)
  have hfilled : s.app.isSome := hp.ready h hi .makeApp (by cases s.mode <;> decide)
  obtain ⟨a, happ⟩ := Option.isSome_iff_exists.mp hfilled
  rw [deref_some happ] at ht
  obtain ⟨b, hb, rfl⟩ := Option.map_eq_some_iff.mp ht
  obtain ⟨hmode, hhas, hle, hpos⟩ := stopApp_spec hb
  obtain ⟨hsame, hkeep⟩ := stopApp_keeps happ hmode hhas hle i pc
  exact ⟨hsame, rfl, hp.advance hkeep (hp.delivered i hi) rfl
    (fun hm _ => hkeep.stops _ (hp.producer hm i hlo))
    (fun h6 => ⟨b, rfl, hpos (hstop h6)⟩) (fun hf => absurd hf hfin) fun _ => .inr hpc⟩

/-- A statement of `ws_server->stop()` in the publisher. -/
theorem serverStage {s t : Messengermain} (h : s.Wired) (hp : s.Progress) {i : ℕ} {outcome : Bool}
    (hm : s.mode = .publisher) (hpc : s.invocations i = .serverStop)
    (ht : (deref s.wsServer s fun w => (w.stopStep i outcome).map fun w' =>
      { s.setInvocation i (if w'.calls i = .returned then .finished else .serverStop) with
        wsServer := some w' }) = some t) : Handled s t := by
  have hi : s.invocations i ≠ .notDelivered := by
    rw [hpc]
    decide
  have hrank : (s.invocations i).rank = 6 := by rw [hpc]; rfl
  have hfilled : s.wsServer.isSome := hp.ready h hi .makeServer (by rw [hm]; decide)
  obtain ⟨w, hw⟩ := Option.isSome_iff_exists.mp hfilled
  rw [deref_some hw] at ht
  obtain ⟨w', hstep, rfl⟩ := Option.map_eq_some_iff.mp ht
  have hle : ∀ j, w.calls j = .returned → w'.calls j = .returned := fun j hj =>
    WebSocketServer.step_returned (show w.step .init (.stop i outcome) = some w' from hstep) hj
  obtain ⟨hsame, hkeep⟩ := stopServer_keeps hw hle i
    (if w'.calls i = .returned then .finished else .serverStop)
  refine ⟨hsame, rfl, hp.advance hkeep (hp.delivered i hi) rfl
    (fun _ _ => hkeep.stops _ (hp.producer hm i (by omega)))
    (fun _ => hkeep.stops _ (hp.app i (by omega))) (fun hf => ?_)
    (fun hs => absurd (hm.symm.trans hs) (by decide))⟩
  have hret : w'.calls i = .returned := by
    by_contra hne
    rw [if_neg hne] at hf
    cases hf
  exact ⟨hm, w', rfl, i, hret⟩

/-- The handler meets an empty pointer exactly at the `ws_server->stop()` of a subscriber. -/
theorem handlerStep_spec {round : ℚ≥0 → Option ℚ≥0} {s t : Messengermain} {i : ℕ} {outcome : Bool}
    (h : s.Wired) (hp : s.Progress) (ht : s.handlerStep round i outcome = some t) :
    (s.invocations i = .serverStop ∧ s.mode = .subscriber ∧ t = { s with failed := true }) ∨
    ((s.invocations i = .serverStop → s.mode = .publisher) ∧ Handled s t) := by
  unfold handlerStep at ht
  cases hpc : s.invocations i with
  | notDelivered | finished => simp [hpc] at ht
  | producerStore | producerCancel =>
    simp only [hpc] at ht
    exact .inr ⟨nofun, producerStage h hp (by rw [hpc]; decide) (by rw [hpc]; decide)
      (fun h4 => absurd h4 (by decide)) (by decide) ht⟩
  | producerContext =>
    simp only [hpc] at ht
    exact .inr ⟨nofun, producerStage h hp (by rw [hpc]; decide) (by rw [hpc]; decide)
      (fun _ => rfl) (by decide) ht⟩
  | appStore | appNotify =>
    simp only [hpc] at ht
    exact .inr ⟨nofun, appStage h hp (by rw [hpc]; decide) (by decide) (by decide) (by decide) ht⟩
  | serverStop =>
    simp only [hpc] at ht
    by_cases hm : s.mode = .publisher
    · exact .inr ⟨fun _ => hm, serverStage h hp hm hpc ht⟩
    · have hsub : s.mode = .subscriber := by
        cases hmode : s.mode with
        | publisher => exact absurd hmode hm
        | subscriber => rfl
      rw [deref_none (h.subscriber hsub).2] at ht
      exact .inl ⟨rfl, hsub, (Option.some.inj ht).symm⟩

/-- An invocation of the handler is in progress. -/
def Busy (s : Messengermain) (i : ℕ) : Prop :=
  s.invocations i ≠ .notDelivered ∧ s.invocations i ≠ .finished

theorem deref_cases {α : Type} {p : Option α} {s t : Messengermain}
    {use : α → Option Messengermain} (h : deref p s use = some t) :
    (∃ a, p = some a ∧ use a = some t) ∨ t = { s with failed := true } := by
  cases p with
  | none => exact .inr (Option.some.inj h).symm
  | some a => exact .inl ⟨a, rfl, h⟩

/-- A step of the handler moves one invocation that is in progress. -/
theorem handlerStep_busy {round : ℚ≥0 → Option ℚ≥0} {s t : Messengermain} {i : ℕ}
    {outcome : Bool} (ht : s.handlerStep round i outcome = some t) :
    s.Busy i ∧ ∀ j, j ≠ i → t.invocations j = s.invocations j := by
  unfold handlerStep at ht
  cases hpc : s.invocations i with
  | notDelivered | finished => simp [hpc] at ht
  | producerStore | producerCancel | producerContext | appStore | appNotify | serverStop =>
    refine ⟨by simp [Busy, hpc], fun j hj => ?_⟩
    simp only [hpc] at ht
    rcases deref_cases ht with ⟨a, -, ha⟩ | rfl
    · obtain ⟨b, -, rfl⟩ := Option.map_eq_some_iff.mp ha
      exact Function.update_of_ne hj _ _
    · rfl

/-! ### Steps of `main` -/

/-- The handler is at a `ws_server->stop()` that finds no server. -/
def MeetsNoServer (s : Messengermain) (e : Event) : Prop :=
  ∃ i outcome, e = .handler i outcome ∧ s.invocations i = .serverStop ∧ s.mode = .subscriber

theorem Progress.failed {s : Messengermain} (h : s.Progress) :
    Progress { s with failed := true } :=
  h.kept { stops := fun c hc => by cases c <;> exact hc } rfl

theorem Wired.failed {s : Messengermain} (h : s.Wired) : Wired { s with failed := true } :=
  SameWiring.wired (s := s) { } h

/-- A signal takes one invocation to the first statement of the handler. -/
theorem signal_progress {s : Messengermain} (hp : s.Progress) (hi : s.installed = true) (i : ℕ) :
    (s.setInvocation i (firstStop s.mode)).Progress := by
  refine hp.advance { stops := fun c hc => by cases c <;> exact hc } hi rfl (fun hm h4 => ?_)
    (fun h6 => ?_) (fun hf => ?_) fun hm => ?_
  · rw [hm] at h4
    exact absurd h4 (by decide)
  · cases hm : s.mode <;> rw [hm] at h6 <;> exact absurd h6 (by decide)
  · cases hm : s.mode <;> rw [hm] at hf <;> cases hf
  · rw [hm]
    exact .inr (by decide)

theorem step_failed {round : ℚ≥0 → Option ℚ≥0} {s t : Messengermain} {e : Event}
    (h : step round s e = some t) : s.failed = false := by
  by_contra hne
  rw [Bool.not_eq_false] at hne
  simp [step, hne] at h

/-- What a step keeps, where it fails, and how an invocation of the handler begins. -/
structure Stepped (s : Messengermain) (e : Event) (t : Messengermain) : Prop where
  mode : t.mode = s.mode
  wired : t.Wired
  progress : t.Progress
  failed : t.failed = true ↔ s.MeetsNoServer e
  busy : ∀ i, t.Busy i → s.Busy i ∨ e = .signal i

/-- A step that is none of a handler and leaves the invocations alone. -/
theorem Stepped.of_keeps {s t : Messengermain} {e : Event} (hp : s.Progress)
    (hs : s.failed = false) (he : ∀ i outcome, e ≠ .handler i outcome) (hwired : t.Wired)
    (hkeep : Keeps s t) (hfailed : t.failed = s.failed)
    (hinv : t.invocations = s.invocations) : s.Stepped e t where
  mode := hkeep.mode
  wired := hwired
  progress := hp.kept hkeep hinv
  failed := by
    rw [hfailed, hs]
    exact iff_of_false (by decide) fun ⟨i, outcome, h, _⟩ => he i outcome h
  busy i hi := by
    rw [Busy, hinv] at hi
    exact .inl hi

/-- Every step keeps the wiring and the progress of the handlers, and only the handler of a
subscriber meets an empty pointer. -/
theorem step_spec {round : ℚ≥0 → Option ℚ≥0} {s t : Messengermain} {e : Event} (h : s.Wired)
    (hp : s.Progress) (ht : step round s e = some t) : s.Stepped e t := by
  have hs : s.failed = false := step_failed ht
  have hthread (hne : ∀ i outcome, e ≠ .handler i outcome) (hstep : ThreadStep s t) :
      s.Stepped e t :=
    .of_keeps hp hs hne (hstep.wiring.wired h) hstep.keeps hstep.failed hstep.invocations
  unfold step at ht
  split at ht
  · cases ht
  cases e with
  | main ok =>
    obtain ⟨hw, hkeep, hfailed, hinv⟩ := mainStep_spec h ht
    exact .of_keeps hp hs nofun hw hkeep hfailed hinv
  | producer e =>
    obtain ⟨hst, ht⟩ := Option.ite_none_right_eq_some.mp ht
    exact hthread nofun (producerStep_spec h hst ht)
  | publisher e => exact hthread nofun (publisherStep_spec h ht)
  | subscriber e fails => exact hthread nofun (subscriberStep_spec h ht)
  | server e =>
    obtain ⟨hst, ht⟩ := Option.ite_none_right_eq_some.mp ht
    exact hthread nofun (serverStep_spec h hst ht)
  | signal i =>
    simp only [Option.ite_none_right_eq_some, Option.some.injEq, Bool.and_eq_true] at ht
    obtain ⟨⟨hi, -⟩, rfl⟩ := ht
    refine ⟨rfl, SameWiring.wired (s := s) { } h, signal_progress hp hi i, ?_, fun j hj => ?_⟩
    · exact iff_of_false (fun hf => absurd (hs.symm.trans hf) (by decide))
        fun ⟨_, _, he, _⟩ => by cases he
    · by_cases hji : j = i
      · exact .inr (by rw [hji])
      · rw [Busy, show (s.setInvocation i (firstStop s.mode)).invocations j = s.invocations j from
          Function.update_of_ne hji _ _] at hj
        exact .inl hj
  | handler i outcome =>
    obtain ⟨hself, hothers⟩ := handlerStep_busy ht
    have hbusy : ∀ j, t.Busy j → s.Busy j ∨ Event.handler i outcome = .signal j := by
      intro j hj
      by_cases hji : j = i
      · exact .inl (by rwa [hji])
      · rw [Busy, hothers j hji] at hj
        exact .inl hj
    rcases handlerStep_spec h hp ht with ⟨hpc, hm, rfl⟩ | ⟨hpc, hh⟩
    · exact ⟨rfl, h.failed, hp.failed,
        iff_of_true rfl ⟨i, outcome, rfl, hpc, hm⟩, hbusy⟩
    · refine ⟨hh.wiring.mode, hh.wiring.wired h, hh.progress, ?_, hbusy⟩
      rw [hh.failed, hs]
      refine iff_of_false (by decide) ?_
      rintro ⟨j, _, he, hj, hm⟩
      cases he
      exact absurd ((hpc hj).symm.trans hm) (by decide)

/-- No use of a pointer failed, and where an invocation of the handler has finished, `stop`
was called on every component whose thread `main` joins. -/
def Safe (s : Messengermain) : Prop :=
  s.failed = false ∧ ∀ i, s.invocations i = .finished →
    ∀ c, .join c ∈ body s.mode → s.StopCalled c

theorem Progress.safe_iff {s : Messengermain} (h : s.Progress) : s.Safe ↔ s.failed = false := by
  constructor
  · exact And.left
  · intro hs
    refine ⟨hs, fun i hi c _ => ?_⟩
    obtain ⟨hm, hserver⟩ := h.server i hi
    have hrank : (s.invocations i).rank = 7 := by
      rw [hi]
      rfl
    cases c with
    | producer => exact h.producer hm i (by omega)
    | app => exact h.app i (by omega)
    | server => exact hserver

/-- A publisher that runs, is interrupted once and comes to its `return`. -/
def publisherEvents : List Event := List.flatten [
  List.replicate 11 (.main true),
  [.producer .start, .producer .scheduleTest, .producer .arm],
  List.replicate 7 (.server (.run true)),
  [.signal 0],
  List.replicate 10 (.handler 0 false),
  [.producer .leaveLoop],
  List.replicate 2 (.publisher (.thread true)),
  [.server (.run true)],
  List.replicate 3 (.main true)]

end Messengermain

/-! ### Runs of the process -/

namespace MessengerProcess

open Messengermain (publisherEvents)

def Event.IsHandler (e : Event) : Prop := ∃ i outcome, e = .within (.handler i outcome)

/-- Whatever steps the handlers make from here on their own, no use of a pointer fails, and a
handler that finishes has called `stop` on every component whose thread `main` joins. -/
def SafeOnward (round : ℚ≥0 → Option ℚ≥0) (s : MessengerProcess) : Prop :=
  ∀ es t, (∀ e ∈ es, e.IsHandler) → (machine round s.main.mode).run s es = some t → t.main.Safe

/-- Signals are delivered to a publisher only, before its `main` returns, and `main` returns
when no handler is in progress. -/
def InLifetime (s : MessengerProcess) : Event → Prop
  | .within (.signal _) => s.main.mode = .publisher ∧ s.returned = false
  | .leave => ∀ i, ¬s.main.Busy i
  | _ => True

/-- No use of a pointer failed, and a handler is in progress in a publisher before the return
only. -/
structure Calm (s : MessengerProcess) : Prop where
  wired : s.main.Wired
  progress : s.main.Progress
  failed : s.main.failed = false
  busy : ∀ i, s.main.Busy i → s.main.mode = .publisher ∧ s.returned = false

theorem step_within {round : ℚ≥0 → Option ℚ≥0} {s : MessengerProcess} {e : Messengermain.Event}
    (hr : s.returned = false) : step round s (.within e) =
      (s.main.step round e).map fun m => { s with main := m } := by
  rw [step, if_neg (by simp [hr])]

theorem init_calm (mode : Messengermain.Mode) : (init mode).Calm where
  wired := Messengermain.init_wired mode
  progress := Messengermain.init_progress mode
  failed := rfl
  busy _ h := absurd rfl h.1

/-- A step of `main` that is no signal outside its lifetime. -/
theorem Calm.within {round : ℚ≥0 → Option ℚ≥0} {s : MessengerProcess} {m : Messengermain}
    {e : Messengermain.Event} (h : s.Calm) (hc : s.InLifetime (.within e))
    (ht : s.main.step round e = some m) : Calm { s with main := m } := by
  have hstep := Messengermain.step_spec h.wired h.progress ht
  refine ⟨hstep.wired, hstep.progress, ?_, fun i hi => ?_⟩
  · rw [← Bool.not_eq_true, hstep.failed]
    rintro ⟨i, outcome, -, hpc, hm⟩
    have hpub := (h.busy i ⟨by simp [hpc], by simp [hpc]⟩).1
    exact absurd (hpub.symm.trans hm) (by decide)
  · rw [hstep.mode]
    rcases hstep.busy i hi with hi | rfl
    · exact h.busy i hi
    · exact hc

/-- The step of a handler once `main` has returned uses a pointer that was destroyed. -/
theorem late_handler {round : ℚ≥0 → Option ℚ≥0} {s : Messengermain} {i : ℕ}
    (hs : s.failed = false) (hi : s.Busy i) (outcome : Bool) :
    s.destroyed.step round (.handler i outcome) = some { s.destroyed with failed := true } := by
  unfold Messengermain.step Messengermain.handlerStep
  rw [if_neg (by simp [Messengermain.destroyed, hs, Messengermain.isStop, Messengermain.isAppRun])]
  cases hpc : s.invocations i with
  | notDelivered => exact absurd hpc hi.1
  | finished => exact absurd hpc hi.2
  | producerStore | producerCancel | producerContext | appStore | appNotify | serverStop =>
    simp only [Messengermain.destroyed, hpc, Messengermain.deref]

theorem Calm.step {round : ℚ≥0 → Option ℚ≥0} {s t : MessengerProcess} {e : Event} (h : s.Calm)
    (hc : s.InLifetime e) (ht : step round s e = some t) : t.Calm := by
  cases e with
  | leave =>
    obtain ⟨-, ht⟩ := Option.ite_none_right_eq_some.mp ht
    rw [← Option.some.inj ht]
    exact ⟨h.wired, h.progress, h.failed, fun i hi => absurd hi (hc i)⟩
  | within e =>
    cases hr : s.returned with
    | false =>
      rw [step_within hr] at ht
      obtain ⟨m, hm, rfl⟩ := Option.map_eq_some_iff.mp ht
      exact h.within hc hm
    | true =>
      rw [MessengerProcess.step, if_pos hr] at ht
      cases e with
      | signal i => exact absurd (hr.symm.trans hc.2) (by decide)
      | handler i outcome =>
        obtain ⟨m, hm, -⟩ := Option.map_eq_some_iff.mp ht
        have hbusy := (Messengermain.handlerStep_busy (s := s.main.destroyed) (t := m) (by
          simpa [Messengermain.step, Messengermain.isStop, Messengermain.isAppRun,
            Messengermain.destroyed, h.failed] using hm)).1
        exact absurd (hr.symm.trans (h.busy i hbusy).2) (by decide)
      | main | producer | publisher | subscriber | server => simp [lateStep] at ht

theorem Calm.safeOnward {round : ℚ≥0 → Option ℚ≥0} {s : MessengerProcess} (h : s.Calm) :
    s.SafeOnward round := by
  intro es t hes ht
  have hcalm := Machine.run_invariant_of (M := machine round s.main.mode) (I := Calm)
    (C := Event.IsHandler)
    (fun hu he hv => hu.step (by obtain ⟨i, outcome, rfl⟩ := he; trivial) hv) hes h ht
  exact hcalm.progress.safe_iff.mpr hcalm.failed

/-- A handler in progress once `main` has returned goes wrong at its next statement. -/
theorem not_safeOnward_of_returned {round : ℚ≥0 → Option ℚ≥0} {s : MessengerProcess} {i : ℕ}
    (hr : s.returned = true) (hs : s.main.failed = false) (hi : s.main.Busy i) :
    ¬s.SafeOnward round := by
  intro h
  have hrun : (machine round s.main.mode).run s [.within (.handler i false)] =
      some { s with main := { s.main.destroyed with failed := true } } := by
    simp [Machine.run, machine, step, hr, lateStep, late_handler hs hi]
  have hsafe := h _ _ (by simp [Event.IsHandler]) hrun
  cases hsafe.1

/-- Before the return the process makes the steps of `main`. -/
theorem run_within {round : ℚ≥0 → Option ℚ≥0} {mode : Messengermain.Mode} {s : MessengerProcess}
    (hr : s.returned = false) {es : List Messengermain.Event} {m : Messengermain}
    (h : (Messengermain.machine round mode).run s.main es = some m) :
    (machine round mode).run s (es.map .within) = some { s with main := m } := by
  induction es generalizing s with
  | nil =>
    rw [← Option.some.inj h]
    rfl
  | cons e es ih =>
    obtain ⟨u, hu, hrest⟩ := (Machine.run_cons_eq_some _).mp h
    have hstep : step round s (.within e) = some { s with main := u } := by
      rw [step_within hr, show s.main.step round e = some u from hu, Option.map_some]
    exact (Machine.run_cons_eq_some _).mpr ⟨_, hstep, ih hr hrest⟩

/-- The handler of a subscriber goes wrong at its third statement. -/
theorem not_safeOnward_of_subscriber {round : ℚ≥0 → Option ℚ≥0} {s : MessengerProcess} {i : ℕ}
    (h : s.main.Wired) (hm : s.main.mode = .subscriber) (hr : s.returned = false)
    (hs : s.main.failed = false) (hinstalled : s.main.installed = true)
    (hi : s.main.invocations i = .appStore) : ¬s.SafeOnward round := by
  obtain ⟨a, ha⟩ : ∃ a, s.main.app = some (.subscriber a) := by
    have hfilled : s.main.app.isSome :=
      h.ready (by rw [hm]; decide) (.inl (h.installed hinstalled)) .makeApp (by rw [hm]; decide)
    obtain ⟨app, happ⟩ := Option.isSome_iff_exists.mp hfilled
    cases app with
    | publisher => cases (h.app _ happ).1.trans hm
    | subscriber a => exact ⟨a, happ⟩
  obtain ⟨m, hrun, hfailed⟩ : ∃ m, (Messengermain.machine round s.main.mode).run s.main
      (List.replicate 3 (.handler i false)) = some m ∧ m.failed = true := by
    refine ⟨{ s.main with
      invocations := Function.update s.main.invocations i .serverStop
      app := some (.subscriber { a with
        stop := true
        runPc := if a.runPc = .waitBlocked then .waitTest else a.runPc
        stopsReturned := a.stopsReturned + 1 })
      failed := true }, ?_, rfl⟩
    simp [Machine.run, Messengermain.machine, Messengermain.step, Messengermain.isStop,
      Messengermain.isAppRun, Messengermain.handlerStep, Messengermain.deref,
      Messengermain.stopApp, Messengermain.setInvocation, MessengerSubscriberApp.step,
      List.replicate, hi, ha, hs, (h.subscriber hm).2]
  intro hsafe
  have hall := hsafe _ _ (by simp [Event.IsHandler]) (run_within hr hrun)
  exact absurd (hfailed.symm.trans hall.1) (by decide)

/-- A signal begins an invocation of the handler, before the return and behind it. -/
theorem signal_eq {round : ℚ≥0 → Option ℚ≥0} {s t : MessengerProcess} {i : ℕ}
    (ht : step round s (.within (.signal i)) = some t) : s.main.installed = true ∧
      t = { s with
        main := s.main.setInvocation i (Messengermain.firstStop s.main.mode) } := by
  have hmain : ∃ m, s.main.step round (.signal i) = some m ∧ { s with main := m } = t := by
    cases hr : s.returned <;> simpa [step, lateStep, hr] using ht
  obtain ⟨m, hm, rfl⟩ := hmain
  unfold Messengermain.step at hm
  split at hm
  · cases hm
  simp only [Option.ite_none_right_eq_some, Option.some.injEq, Bool.and_eq_true] at hm
  exact ⟨hm.1.1, by rw [hm.2]⟩

/-- A step from a calm state leaves the handlers safe exactly when it stays in the lifetime. -/
theorem step_safeOnward_iff {round : ℚ≥0 → Option ℚ≥0} {s t : MessengerProcess} {e : Event}
    (h : s.Calm) (ht : step round s e = some t) : t.SafeOnward round ↔ s.InLifetime e := by
  refine ⟨fun hsafe => ?_, fun hc => (h.step hc ht).safeOnward⟩
  cases e with
  | leave =>
    intro i hi
    obtain ⟨-, ht⟩ := Option.ite_none_right_eq_some.mp ht
    rw [← Option.some.inj ht] at hsafe
    exact not_safeOnward_of_returned (s := ⟨s.main, true⟩) rfl h.failed hi hsafe
  | within e =>
    cases e with
    | signal i =>
      obtain ⟨hinstalled, rfl⟩ := signal_eq ht
      cases hr : s.returned with
      | true =>
        refine absurd hsafe (not_safeOnward_of_returned (i := i) hr h.failed ?_)
        cases hm : s.main.mode <;>
          simp [Messengermain.Busy, Messengermain.setInvocation, Messengermain.firstStop]
      | false =>
        cases hm : s.main.mode with
        | publisher => exact ⟨hm, hr⟩
        | subscriber =>
          refine absurd hsafe (not_safeOnward_of_subscriber (i := i)
            (Messengermain.SameWiring.wired (s := s.main) { } h.wired) hm hr h.failed
            hinstalled ?_)
          simp [Messengermain.setInvocation, Messengermain.firstStop, hm]
    | main | producer | publisher | subscriber | server | handler => trivial

/-- In every run the handlers stay safe, in each state passed, exactly when every signal is
delivered to a publisher and handled before its `main` returns. -/
theorem shutdown_safe_iff (round : ℚ≥0 → Option ℚ≥0) (mode : Messengermain.Mode)
    {es : List Event} {s : MessengerProcess}
    (h : (machine round mode).run (init mode) es = some s) :
    (machine round mode).Along (SafeOnward round) (init mode) es ↔
      (machine round mode).Meets InLifetime (init mode) es :=
  Machine.along_iff_meets (I := Calm) (fun hu hc hv => hu.step hc hv)
    (fun hu _ hv => step_safeOnward_iff hu hv) (init_calm mode) (init_calm mode).safeOnward h

/-- Before its `main` returns a publisher may be signalled at any time. -/
theorem meets_publisher {round : ℚ≥0 → Option ℚ≥0} {mode : Messengermain.Mode}
    {s : MessengerProcess} (h : s.Calm) (hm : s.main.mode = .publisher) (hr : s.returned = false)
    (es : List Messengermain.Event) :
    (machine round mode).Meets InLifetime s (es.map .within) := by
  induction es generalizing s with
  | nil => trivial
  | cons e es ih =>
    have hc : s.InLifetime (.within e) := by
      cases e with
      | signal i => exact ⟨hm, hr⟩
      | main | producer | publisher | subscriber | server | handler => trivial
    refine ⟨hc, fun t ht => ?_⟩
    obtain ⟨m, hstep, rfl⟩ := Option.map_eq_some_iff.mp ((step_within hr).symm.trans ht)
    exact ih (h.step hc ht)
      ((Messengermain.step_spec h.wired h.progress hstep).mode.trans hm) hr

theorem run_publisherEvents : ∃ s,
    (machine some .publisher).run (init .publisher) (publisherEvents.map .within) = some s ∧
    s.main.atReturn = true ∧ s.returned = false ∧ s.main.invocations 0 = .finished ∧
    ∀ i, s.main.invocations (i + 1) = .notDelivered := by
  obtain ⟨m, hm, hret, hinv⟩ : ∃ m, (Messengermain.machine some .publisher).run
      (.init .publisher) publisherEvents = some m ∧ m.atReturn = true ∧
      m.invocations 0 = .finished ∧ ∀ i, m.invocations (i + 1) = .notDelivered :=
    ⟨_, rfl, rfl, rfl, fun _ => rfl⟩
  exact ⟨_, run_within rfl hm, hret, rfl, hinv⟩

theorem shutdown_safe_demo : ∃ s,
    (machine some .publisher).run (init .publisher) (publisherEvents.map .within ++ [.leave]) =
      some s ∧
    s.returned = true ∧ s.main.invocations 0 = .finished ∧
    (machine some .publisher).Along (SafeOnward some) (init .publisher)
      (publisherEvents.map .within ++ [.leave]) := by
  obtain ⟨s, hs, hret, hr, hfirst, hrest⟩ := run_publisherEvents
  have hleave : (machine some .publisher).run s [.leave] =
      some { s with returned := true } := by
    simp [Machine.run, machine, step, hret, hr]
  have hrun := (machine some .publisher).run_trans hs hleave
  refine ⟨_, hrun, rfl, hfirst, (shutdown_safe_iff some .publisher hrun).mpr ?_⟩
  refine Machine.meets_append.mpr
    ⟨meets_publisher (init_calm .publisher) rfl rfl publisherEvents, fun t ht => ?_⟩
  rw [hs] at ht
  cases ht
  refine ⟨fun i hi => ?_, fun _ _ => trivial⟩
  cases i with
  | zero => exact hi.2 hfirst
  | succ i => exact hi.1 (hrest i)

/-- A subscriber is interrupted while it runs: the handler stops the application and then
calls `stop` on the server that was never constructed. A publisher is interrupted once more when
its `main` has returned. -/
theorem shutdown_fails :
    (∃ s, (machine some .subscriber).Reachable s ∧ s.returned = false ∧ ¬s.main.Safe) ∧
      ∃ s, (machine some .publisher).Reachable s ∧ s.returned = true ∧ ¬s.main.Safe := by
  refine ⟨?_, ?_⟩
  · obtain ⟨m, hm, hfailed⟩ : ∃ m, (Messengermain.machine some .subscriber).run
        (.init .subscriber) (List.replicate 5 (.main true) ++
          [.subscriber .run (fun _ => false), .signal 0] ++
          List.replicate 3 (.handler 0 false)) = some m ∧ m.failed = true := ⟨_, rfl, rfl⟩
    have hrun : (machine some .subscriber).run (init .subscriber) _ = some _ :=
      run_within rfl hm
    exact ⟨_, Machine.reachable_of_run hrun, rfl,
      fun hsafe => by cases hfailed.symm.trans hsafe.1⟩
  · obtain ⟨s, hs, hr, hfailed⟩ : ∃ s, (machine some .publisher).run (init .publisher)
        (publisherEvents.map .within ++
          [.leave, .within (.signal 1), .within (.handler 1 false)]) = some s ∧
        s.returned = true ∧ s.main.failed = true := ⟨_, rfl, rfl, rfl⟩
    exact ⟨s, Machine.reachable_of_run hs, hr, fun hsafe => by cases hfailed.symm.trans hsafe.1⟩

end MessengerProcess

end CoordinateStream
