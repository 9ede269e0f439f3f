import CoordinateStream.Messengermain
import CoordinateStream.StopProtocol
import CoordinateStream.SampleIdentity
import CoordinateStream.ServerLifecycle
import Mathlib.Data.List.Infix

namespace CoordinateStream

/-! Which pointers of `main` are filled when its statements and its threads use them. -/

/-! ### Calls of `stop` are never forgotten -/

theorem CoordinateProducer.step_stopsReturned {p q : CoordinateProducer} {e : Event}
    {u : Option CoordinateData} (h : p.step e = some (q, u)) :
    p.stopsReturned ≤ q.stopsReturned := by
  rcases step_stops h with ⟨-, -, hret⟩ | ⟨-, -, hret⟩ <;> omega

theorem MessengerPublisherApp.step_stopsReturned {shared : SharedCoordinateState}
    {p q : MessengerPublisherApp} {e : Event} (h : p.step shared e = some q) :
    p.stopsReturned ≤ q.stopsReturned := by
  rcases step_stops h with ⟨-, -, -, hret⟩ | ⟨-, -, -, hret⟩ | ⟨-, -, -, -, hret⟩ <;> omega

theorem MessengerSubscriberApp.step_stopsReturned {round : ℚ≥0 → Option ℚ≥0}
    {s t : MessengerSubscriberApp} {e : Event} (h : s.step round e = some t) :
    s.stopsReturned ≤ t.stopsReturned := by
  rcases step_stops h with ⟨-, -, -, hret⟩ | ⟨-, -, -, hret⟩ | ⟨-, -, -, -, hret⟩ <;> omega

theorem WebSocketServer.step_returned {shared : SharedCoordinateState} {s t : WebSocketServer}
    {e : Event} (h : s.step shared e = some t) {j : ℕ} (hj : s.calls j = .returned) :
    t.calls j = .returned := by
  cases e with
  | run ok => rw [(runStep_frame h).calls, hj]
  | stop i throws =>
    have hne : j ≠ i := by
      rintro rfl
      simp [step, stopStep, hj] at h
    rcases stopStep_cases h with ⟨-, pc, -, hcalls, -⟩ | ⟨-, rfl⟩ | ⟨-, rfl⟩
    · rw [hcalls, Function.update_of_ne hne, hj]
    · rw [setCall_of_ne s _ hne, hj]
    · exact (setCall_of_ne s _ hne).trans hj
  | onOpen | onClose | tick | emit => rw [(handler_frame h (by simp) (by simp)).1, hj]

namespace MessengerApplication

def mode : MessengerApplication → Messengermain.Mode
  | .publisher _ => .publisher
  | .subscriber _ => .subscriber

/-- `ws_server_` of a subscriber is set. -/
def hasServer : MessengerApplication → Bool
  | .publisher _ => false
  | .subscriber a => a.wsServer

def stopsReturned : MessengerApplication → ℕ
  | .publisher a => a.stopsReturned
  | .subscriber a => a.stopsReturned

end MessengerApplication

namespace Messengermain

theorem deref_some {α : Type} {p : Option α} {a : α} (h : p = some a) {s : Messengermain}
    {use : α → Option Messengermain} : deref p s use = use a := by
  rw [h]
  rfl

theorem deref_none {α : Type} {p : Option α} (h : p = none) {s : Messengermain}
    {use : α → Option Messengermain} : deref p s use = some { s with failed := true } := by
  rw [h]
  rfl

/-- A call of `stop` of the component has returned. -/
def StopCalled (s : Messengermain) : Component → Prop
  | .producer => ∃ p, s.coordProducer = some p ∧ 0 < p.stopsReturned
  | .app => ∃ a, s.app = some a ∧ 0 < a.stopsReturned
  | .server => ∃ w, s.wsServer = some w ∧ ∃ i, w.calls i = .returned

/-- The pointer that a statement of `main` fills. -/
def Done (s : Messengermain) : Statement → Prop
  | .makeSharedState => s.sharedState.isSome
  | .makeProducer => s.coordProducer.isSome
  | .makeApp => s.app.isSome
  | .makeServer => s.wsServer.isSome
  | _ => True

/-! ### What `main` has constructed -/

/-- The constructions that a statement, or what it sets going, relies on. -/
def needs : Mode → Statement → List Statement
  | .publisher, .makeApp => [.makeSharedState]
  | _, .setServerState => [.makeServer]
  | _, .start .producer => [.makeSharedState, .makeProducer]
  | _, .start .server => [.makeSharedState, .makeServer]
  | .publisher, .installSignals => [.makeProducer, .makeApp, .makeServer]
  | .subscriber, .installSignals => [.makeApp]
  | _, _ => []

/-- Each branch of `main` constructs before it uses, and nothing twice. -/
theorem body_ordered (m : Mode) : (body m).Nodup ∧ ∀ l ∈ (body m).tails, ∀ st ∈ body m,
    st ∉ l ∨ l.head? = some st → ∀ st' ∈ needs m st, st' ∈ body m ∧ st' ∉ l := by
  cases m <;> decide

/-- The pointers and flags agree with the place `main` has reached. -/
structure Wired (s : Messengermain) : Prop where
  suffix : s.rest <:+ body s.mode
  done : ∀ st ∈ body s.mode, st ∉ s.rest → s.Done st
  app : ∀ a, s.app = some a → a.mode = s.mode ∧ Statement.makeApp ∉ s.rest
  hasServer : ∀ a, s.app = some a → a.hasServer = true → s.wsServer.isSome
  producer : s.coordProducer.isSome →
    Statement.makeProducer ∈ body s.mode ∧ Statement.makeProducer ∉ s.rest
  server : s.wsServer.isSome →
    Statement.makeServer ∈ body s.mode ∧ Statement.makeServer ∉ s.rest
  started : ∀ c, s.started c = true → .start c ∈ body s.mode ∧ Statement.start c ∉ s.rest
  installed : s.installed = true → Statement.installSignals ∉ s.rest

theorem init_wired (m : Mode) : (init m).Wired where
  suffix := List.suffix_rfl
  done _ hst hnot := absurd hst hnot
  app _ h := nomatch h
  hasServer _ h := nomatch h
  producer h := nomatch h
  server h := nomatch h
  started _ h := nomatch h
  installed h := nomatch h

/-- What a statement needs was constructed, once it is next or behind. -/
theorem Wired.ready {s : Messengermain} (h : s.Wired) {st : Statement} (hst : st ∈ body s.mode)
    (hnot : st ∉ s.rest ∨ s.rest.head? = some st) : ∀ st' ∈ needs s.mode st, s.Done st' := by
  intro st' hst'
  obtain ⟨hmem, hnot'⟩ := (body_ordered s.mode).2 s.rest ((List.mem_tails _ _).mpr h.suffix) st hst
    hnot st' hst'
  exact h.done st' hmem hnot'

/-- Two states that agree on what `main` has reached and filled. -/
structure SameWiring (s t : Messengermain) : Prop where
  mode : t.mode = s.mode := by rfl
  rest : t.rest = s.rest := by rfl
  started : t.started = s.started := by rfl
  installed : t.installed = s.installed := by rfl
  shared : t.sharedState.isSome = s.sharedState.isSome := by rfl
  producer : t.coordProducer.isSome = s.coordProducer.isSome := by rfl
  server : t.wsServer.isSome = s.wsServer.isSome := by rfl
  app : t.app.map MessengerApplication.mode = s.app.map MessengerApplication.mode := by rfl
  hasServer : t.app.map MessengerApplication.hasServer =
    s.app.map MessengerApplication.hasServer := by rfl

theorem SameWiring.done {s t : Messengermain} (h : SameWiring s t) (st : Statement) :
    t.Done st ↔ s.Done st := by
  cases st with
  | makeSharedState => simp only [Done, h.shared]
  | makeProducer => simp only [Done, h.producer]
  | makeServer => simp only [Done, h.server]
  | makeApp =>
    have happ := congrArg Option.isSome h.app
    simp only [Option.isSome_map] at happ
    simp only [Done, happ]
  | setAppState | setServerState | setAppServer | start | setHandler | installSignals | join =>
    exact Iff.rfl

theorem SameWiring.wired {s t : Messengermain} (h : SameWiring s t) (hs : s.Wired) : t.Wired := by
  have happ : ∀ b, t.app = some b → ∃ a, s.app = some a ∧ a.mode = b.mode ∧
      a.hasServer = b.hasServer := by
    intro b hb
    have hmode := h.app
    have hhas := h.hasServer
    rw [hb] at hmode hhas
    obtain ⟨a, ha, hm⟩ := Option.map_eq_some_iff.mp hmode.symm
    rw [ha] at hhas
    exact ⟨a, ha, hm, (Option.some.inj hhas).symm⟩
  constructor
  · rw [h.rest, h.mode]
    exact hs.suffix
  · intro st hst hnot
    rw [h.mode] at hst
    rw [h.rest] at hnot
    exact (h.done st).mpr (hs.done st hst hnot)
  · intro b hb
    obtain ⟨a, ha, hm, -⟩ := happ b hb
    rw [h.mode, h.rest, ← hm]
    exact hs.app a ha
  · intro b hb hhas
    obtain ⟨a, ha, -, hh⟩ := happ b hb
    rw [h.server]
    exact hs.hasServer a ha (hh.trans hhas)
  · rw [h.producer, h.mode, h.rest]
    exact hs.producer
  · rw [h.server, h.mode, h.rest]
    exact hs.server
  · rw [h.started, h.mode, h.rest]
    exact hs.started
  · rw [h.installed, h.rest]
    exact hs.installed

/-- A subscriber never has a server, nor the threads of a publisher. -/
theorem Wired.subscriber {s : Messengermain} (h : s.Wired) (hm : s.mode = .subscriber) :
    s.coordProducer = none ∧ s.wsServer = none := by
  constructor
  · by_contra hne
    have hmem := (h.producer (Option.isSome_iff_ne_none.mpr hne)).1
    rw [hm] at hmem
    exact absurd hmem (by decide)
  · by_contra hne
    have hmem := (h.server (Option.isSome_iff_ne_none.mpr hne)).1
    rw [hm] at hmem
    exact absurd hmem (by decide)

/-- After the statement `st` what was filled stays filled, and what is new is what `st` says. -/
structure Executes (s t : Messengermain) (st : Statement) : Prop where
  mode : t.mode = s.mode := by rfl
  filled : t.Done st := by trivial
  done : ∀ st', s.Done st' → t.Done st' := by exact fun st' hd => by cases st' <;> trivial
  app : ∀ a, t.app = some a → a.mode = s.mode ∧ (s.app.isSome ∨ st = .makeApp)
  hasServer : ∀ a, t.app = some a → a.hasServer = true → t.wsServer.isSome
  producer : t.coordProducer.isSome → s.coordProducer.isSome ∨ st = .makeProducer := by
    exact fun h => .inl h
  server : t.wsServer.isSome → s.wsServer.isSome ∨ st = .makeServer := by
    exact fun h => .inl h
  started : ∀ c, t.started c = true → s.started c = true ∨ st = .start c := by
    exact fun _ h => .inl h
  installed : t.installed = true → s.installed = true ∨ st = .installSignals := by
    exact fun h => .inl h

theorem Wired.executed {s t : Messengermain} {st : Statement} {l : List Statement} (h : s.Wired)
    (hs : s.rest = st :: l) (ht : t.rest = l) (he : Executes s t st) : t.Wired := by
  have hsuffix : st :: l <:+ body s.mode := hs ▸ h.suffix
  have hmem : st ∈ body s.mode := hsuffix.subset List.mem_cons_self
  have hnew : st ∉ l := (List.nodup_cons.mp ((body_ordered s.mode).1.sublist hsuffix.sublist)).1
  have hold : ∀ {st'}, st' ∉ s.rest → st' ∉ l := fun hnot hl =>
    hnot (hs ▸ List.mem_cons_of_mem _ hl)
  constructor
  · rw [ht, he.mode]
    exact (List.suffix_cons st l).trans hsuffix
  · intro st' hst' hnot
    rw [he.mode] at hst'
    rw [ht] at hnot
    by_cases heq : st' = st
    · exact heq ▸ he.filled
    · refine he.done st' (h.done st' hst' ?_)
      rw [hs]
      exact List.not_mem_cons_of_ne_of_not_mem heq hnot
  · intro a ha
    obtain ⟨hm, hor⟩ := he.app a ha
    rw [he.mode, ht]
    refine ⟨hm, ?_⟩
    rcases hor with hsome | rfl
    · obtain ⟨b, hb⟩ := Option.isSome_iff_exists.mp hsome
      exact hold (h.app b hb).2
    · exact hnew
  · exact he.hasServer
  · intro hsome
    rw [he.mode, ht]
    rcases he.producer hsome with hs' | rfl
    · exact ⟨(h.producer hs').1, hold (h.producer hs').2⟩
    · exact ⟨hmem, hnew⟩
  · intro hsome
    rw [he.mode, ht]
    rcases he.server hsome with hs' | rfl
    · exact ⟨(h.server hs').1, hold (h.server hs').2⟩
    · exact ⟨hmem, hnew⟩
  · intro c hc
    rw [he.mode, ht]
    rcases he.started c hc with hs' | rfl
    · exact ⟨(h.started c hs').1, hold (h.started c hs').2⟩
    · exact ⟨hmem, hnew⟩
  · intro hi
    rw [ht]
    rcases he.installed hi with hs' | rfl
    · exact hold (h.installed hs')
    · exact hnew

/-- What a step leaves true of the calls of `stop`. -/
structure Keeps (s t : Messengermain) : Prop where
  mode : t.mode = s.mode := by rfl
  installed : s.installed = true → t.installed = true := by exact fun h => h
  stops : ∀ c, s.StopCalled c → t.StopCalled c

theorem setAppServer_app {s : Messengermain} {a : MessengerApplication}
    (h : s.setAppServer.app = some a) : ∃ b, s.app = some b ∧ a.mode = b.mode ∧
      a.stopsReturned = b.stopsReturned ∧ (a.hasServer = true → s.wsServer.isSome) := by
  unfold setAppServer at h
  dsimp only at h
  split at h
  · next b hb =>
    cases h
    exact ⟨_, hb, rfl, rfl, id⟩
  · next happ =>
    cases a with
    | publisher p => exact ⟨_, h, rfl, rfl, nofun⟩
    | subscriber b => exact absurd h (happ b)

theorem setAppServer_isSome (s : Messengermain) :
    s.setAppServer.app.isSome = s.app.isSome := by
  unfold setAppServer
  dsimp only
  split
  · next hb => rw [hb]; rfl
  · rfl

theorem setAppServer_stopCalled {s : Messengermain} {c : Component} (h : s.StopCalled c) :
    s.setAppServer.StopCalled c := by
  cases c with
  | producer => exact h
  | server => exact h
  | app =>
    obtain ⟨a, ha, hpos⟩ := h
    have hsome : s.setAppServer.app.isSome := by
      rw [setAppServer_isSome, ha]
      rfl
    obtain ⟨b, hb⟩ := Option.isSome_iff_exists.mp hsome
    obtain ⟨a', ha', -, hret, -⟩ := setAppServer_app hb
    rw [ha] at ha'
    cases ha'
    exact ⟨b, hb, hret ▸ hpos⟩

/-- A statement that fills no pointer and starts nothing. -/
theorem executes_pop {s : Messengermain} (h : s.Wired) {st : Statement} (l : List Statement)
    (hst : s.Done st) : Executes s { s with rest := l } st where
  filled := hst
  done st' hd := by cases st' <;> exact hd
  app a ha := ⟨(h.app a ha).1, .inl (Option.isSome_iff_exists.mpr ⟨a, ha⟩)⟩
  hasServer := h.hasServer

/-- What a statement of `main` does to the rest of the process. -/
structure Executed (s t : Messengermain) (st : Statement) (l : List Statement) : Prop where
  rest : t.rest = l := by rfl
  executes : Executes s t st
  keeps : Keeps s t
  failed : t.failed = s.failed := by rfl
  invocations : t.invocations = s.invocations := by rfl

theorem execute_spec {s t : Messengermain} {st : Statement} {l : List Statement} (h : s.Wired)
    (hrest : s.rest = st :: l) (ht : { s with rest := l }.execute st = some t) :
    Executed s t st l := by
  have hmem : st ∈ body s.mode := (hrest ▸ h.suffix).subset List.mem_cons_self
  have hin : st ∈ s.rest := hrest ▸ List.mem_cons_self
  have happ : ∀ a, s.app = some a → a.mode = s.mode ∧ (s.app.isSome ∨ st = .makeApp) := fun a ha =>
    ⟨(h.app a ha).1, .inl (Option.isSome_iff_exists.mpr ⟨a, ha⟩)⟩
  have hpop : Keeps s { s with rest := l } :=
    { stops := fun c hc => by cases c <;> exact hc }
  cases st with
  | makeSharedState =>
    cases ht
    exact { executes := { app := happ, hasServer := h.hasServer }
            keeps := { stops := hpop.stops } }
  | makeProducer =>
    cases ht
    refine { executes := { app := happ, hasServer := h.hasServer, producer := ?_ }
             keeps := { stops := fun c hc => ?_ } }
    · exact fun _ => .inr rfl
    · cases c with
      | producer =>
        obtain ⟨p, hp, -⟩ := hc
        exact absurd hin (h.producer (hp ▸ rfl)).2
      | app => exact hc
      | server => exact hc
  | makeApp =>
    cases ht
    refine { executes := { app := fun a ha => ?_, hasServer := fun a ha hhas => ?_ }
             keeps := { stops := fun c hc => ?_ } }
    · cases ha
      refine ⟨?_, .inr rfl⟩
      cases hm : s.mode <;> rfl
    · cases ha
      cases hm : s.mode <;> simp [hm, MessengerApplication.makeApp, MessengerApplication.hasServer,
        MessengerSubscriberApp.init] at hhas
    · cases c with
      | producer => exact hc
      | app =>
        obtain ⟨a, ha, -⟩ := hc
        exact absurd hin (h.app a ha).2
      | server => exact hc
  | makeServer =>
    cases ht
    refine { executes := { app := happ, hasServer := ?_, server := ?_ }
             keeps := { stops := fun c hc => ?_ } }
    · exact fun _ _ _ => rfl
    · exact fun _ => .inr rfl
    · cases c with
      | producer => exact hc
      | app => exact hc
      | server =>
        obtain ⟨w, hw, -⟩ := hc
        exact absurd hin (h.server (hw ▸ rfl)).2
  | setServerState =>
    have hready : s.wsServer.isSome :=
      h.ready hmem (.inr (by rw [hrest]; rfl)) .makeServer (by cases s.mode <;> decide)
    obtain ⟨w, hw⟩ := Option.isSome_iff_exists.mp hready
    rw [execute, deref_some hw] at ht
    cases ht
    exact { executes := executes_pop h l trivial, keeps := hpop }
  | setAppServer =>
    cases ht
    refine { executes := { done := ?_, app := ?_, hasServer := ?_ }
             keeps := { stops := fun c hc => setAppServer_stopCalled (hpop.stops c hc) } }
    · intro st' hd
      cases st' with
      | makeApp => exact (setAppServer_isSome { s with rest := l }).trans hd
      | _ => exact hd
    · intro a ha
      obtain ⟨b, hb, hm, -⟩ := setAppServer_app ha
      exact ⟨hm.trans (h.app b hb).1, .inl (Option.isSome_iff_exists.mpr ⟨b, hb⟩)⟩
    · intro a ha hhas
      obtain ⟨b, hb, -, -, himp⟩ := setAppServer_app ha
      exact himp hhas
  | start c =>
    cases ht
    refine { executes := { app := happ, hasServer := h.hasServer, started := fun d hd => ?_ }
             keeps := { stops := hpop.stops } }
    have hupdate : Function.update s.started c true d = true := hd
    by_cases heq : d = c
    · exact .inr (heq ▸ rfl)
    · left
      rwa [Function.update_of_ne heq] at hupdate
  | installSignals =>
    cases ht
    exact { executes := { app := happ, hasServer := h.hasServer, installed := fun _ => .inr rfl }
            keeps := { installed := fun _ => rfl, stops := hpop.stops } }
  | setAppState | setHandler =>
    cases ht
    exact { executes := executes_pop h l trivial, keeps := hpop }
  | join c =>
    simp only [execute, Option.ite_none_right_eq_some, Option.some.injEq] at ht
    obtain ⟨-, rfl⟩ := ht
    exact { executes := executes_pop h l trivial, keeps := hpop }

/-- A statement of `main` meets filled pointers, and leaves the wiring and the stops intact. -/
theorem mainStep_spec {s t : Messengermain} {ok : Bool} (h : s.Wired)
    (ht : s.mainStep ok = some t) :
    t.Wired ∧ Keeps s t ∧ t.failed = s.failed ∧ t.invocations = s.invocations := by
  unfold mainStep at ht
  split at ht
  · cases ht
  · next st l hrest =>
    split_ifs at ht
    · cases ht
      exact ⟨SameWiring.wired (s := s) { } h, { stops := fun c hc => by cases c <;> exact hc },
        rfl, rfl⟩
    · have hex := execute_spec h hrest ht
      exact ⟨h.executed hrest hex.rest hex.executes, hex.keeps, hex.failed, hex.invocations⟩

/-! ### The threads -/

/-- What a thread step does: components move on, behind pointers that stay filled. -/
structure ThreadStep (s t : Messengermain) : Prop where
  wiring : SameWiring s t := by exact { }
  keeps : Keeps s t
  failed : t.failed = s.failed := by rfl
  invocations : t.invocations = s.invocations := by rfl

theorem producerStep_spec {s t : Messengermain} {e : CoordinateProducer.Event} (h : s.Wired)
    (hst : s.started .producer = true) (ht : s.producerStep e = some t) : ThreadStep s t := by
  obtain ⟨hmem, hnot⟩ := h.started .producer hst
  have hready := h.ready hmem (.inl hnot)
  have hshared : s.sharedState.isSome := hready .makeSharedState (by cases s.mode <;> decide)
  have hprod : s.coordProducer.isSome := hready .makeProducer (by cases s.mode <;> decide)
  obtain ⟨shared, hs⟩ := Option.isSome_iff_exists.mp hshared
  obtain ⟨p, hp⟩ := Option.isSome_iff_exists.mp hprod
  rw [producerStep, deref_some hp] at ht
  obtain ⟨⟨q, u⟩, hq, hu⟩ := Option.bind_eq_some_iff.mp ht
  have hret := CoordinateProducer.step_stopsReturned hq
  have hcalled : ∀ {t' : Messengermain}, t'.coordProducer = some q → t'.app = s.app →
      t'.wsServer = s.wsServer → ∀ c, s.StopCalled c → t'.StopCalled c := by
    intro t' hq' ha hw c hc
    cases c with
    | producer =>
      obtain ⟨p', hp', hpos⟩ := hc
      rw [hp] at hp'
      cases hp'
      exact ⟨q, hq', hpos.trans_le hret⟩
    | app => rwa [StopCalled, ha]
    | server => rwa [StopCalled, hw]
  cases u with
  | none =>
    cases hu
    exact { wiring := { producer := by rw [hp]; rfl }
            keeps := { stops := hcalled rfl rfl rfl } }
  | some d =>
    dsimp only at hu
    rw [deref_some hs] at hu
    cases hu
    exact { wiring := { shared := by rw [hs]; rfl, producer := by rw [hp]; rfl }
            keeps := { stops := hcalled rfl rfl rfl } }

/-- Another state of the application, with its stops, behind the same pointer. -/
theorem stopCalled_app {s t : Messengermain} {a b : MessengerApplication} (ha : s.app = some a)
    (hb : t.app = some b) (hret : a.stopsReturned ≤ b.stopsReturned)
    (hp : t.coordProducer = s.coordProducer)
    (hcalls : s.StopCalled .server → t.StopCalled .server) :
    ∀ c, s.StopCalled c → t.StopCalled c := by
  intro c hc
  cases c with
  | producer => rwa [StopCalled, hp]
  | app =>
    obtain ⟨a', ha', hpos⟩ := hc
    rw [ha] at ha'
    cases ha'
    exact ⟨b, hb, hpos.trans_le hret⟩
  | server => exact hcalls hc

theorem publisherStep_spec {s t : Messengermain} {e : MessengerPublisherApp.Event} (h : s.Wired)
    (ht : s.publisherStep e = some t) : ThreadStep s t := by
  unfold publisherStep at ht
  split at ht
  · next a ha =>
    obtain ⟨hm, hnot⟩ := h.app _ ha
    have hmode : s.mode = .publisher := hm.symm
    have hready : s.sharedState.isSome := by
      refine h.ready ?_ (.inl hnot) .makeSharedState ?_
      · rw [hmode]
        decide
      · rw [hmode]
        decide
    obtain ⟨shared, hs⟩ := Option.isSome_iff_exists.mp hready
    rw [deref_some hs] at ht
    obtain ⟨b, hb, rfl⟩ := Option.map_eq_some_iff.mp ht
    have hret := MessengerPublisherApp.step_stopsReturned hb
    exact { wiring := { app := by rw [ha]; rfl, hasServer := by rw [ha]; rfl }
            keeps := { stops := stopCalled_app ha rfl hret rfl id } }
  · cases ht

end Messengermain

theorem MessengerSubscriberApp.step_wsServer {round : ℚ≥0 → Option ℚ≥0}
    {s t : MessengerSubscriberApp} {e : Event} (h : s.step round e = some t) :
    t.wsServer = s.wsServer ∧ (s.wsServer = false → t.broadcasts = s.broadcasts) := by
  rcases step_cases h with ⟨d, -, rfl⟩ | ⟨hws, -, -, hout⟩
  · refine ⟨processSample_wsServer s d, fun hws => ?_⟩
    rw [processSample_broadcasts, hws]
    simp
  · exact ⟨hws, fun _ => by rw [broadcasts, hout, broadcasts]⟩

namespace Messengermain

theorem subscriberStep_spec {round : ℚ≥0 → Option ℚ≥0} {s t : Messengermain}
    {e : MessengerSubscriberApp.Event} {fails : ConnectionHdl → Bool} (h : s.Wired)
    (ht : s.subscriberStep round e fails = some t) : ThreadStep s t := by
  unfold subscriberStep at ht
  split at ht
  · next a ha =>
    obtain ⟨b, hb, ht⟩ := Option.bind_eq_some_iff.mp ht
    obtain ⟨hws, hquiet⟩ := MessengerSubscriberApp.step_wsServer hb
    have hret := MessengerSubscriberApp.step_stopsReturned hb
    have hflag : some b.wsServer = s.app.map MessengerApplication.hasServer := by
      rw [ha, hws]
      rfl
    split at ht
    · cases ht
      exact { wiring := { app := by rw [ha]; rfl, hasServer := hflag }
              keeps := { stops := stopCalled_app ha rfl hret rfl id } }
    · next hne =>
      -- only a subscriber whose `ws_server_` is set passes something on
      have hset : a.wsServer = true := by
        by_contra hunset
        rw [hquiet (Bool.eq_false_iff.mpr hunset), List.drop_length] at hne
        exact hne rfl
      obtain ⟨w, hw⟩ := Option.isSome_iff_exists.mp (h.hasServer _ ha hset)
      rw [deref_some hw] at ht
      cases ht
      refine { wiring := { server := by rw [hw]; rfl, app := by rw [ha]; rfl, hasServer := hflag }
               keeps := { stops := stopCalled_app ha rfl hret rfl fun hc => ?_ } }
      obtain ⟨w', hw', hcalls⟩ := hc
      rw [hw] at hw'
      cases hw'
      exact ⟨_, rfl, hcalls⟩
  · cases ht

theorem serverStep_spec {s t : Messengermain} {e : WebSocketServer.Event} (h : s.Wired)
    (hst : s.started .server = true) (ht : s.serverStep e = some t) : ThreadStep s t := by
  obtain ⟨hmem, hnot⟩ := h.started .server hst
  have hready := h.ready hmem (.inl hnot)
  have hshared : s.sharedState.isSome := hready .makeSharedState (by cases s.mode <;> decide)
  have hserver : s.wsServer.isSome := hready .makeServer (by cases s.mode <;> decide)
  obtain ⟨shared, hs⟩ := Option.isSome_iff_exists.mp hshared
  obtain ⟨w, hw⟩ := Option.isSome_iff_exists.mp hserver
  rw [serverStep, deref_some hw, deref_some hs] at ht
  obtain ⟨w', hstep, rfl⟩ := Option.map_eq_some_iff.mp ht
  refine { wiring := { server := by rw [hw]; rfl }, keeps := { stops := fun c hc => ?_ } }
  cases c with
  | producer => exact hc
  | app => exact hc
  | server =>
    obtain ⟨v, hv, i, hi⟩ := hc
    rw [hw] at hv
    cases hv
    exact ⟨w', rfl, i, WebSocketServer.step_returned hstep hi⟩

end Messengermain

end CoordinateStream
