import CoordinateStream.PublisherProcess
import CoordinateStream.MessengerSubscriberApp

namespace CoordinateStream

/-- The application behind the pointer that `make_app` returns. -/
inductive MessengerApplication
  | publisher (a : MessengerPublisherApp)
  | subscriber (a : MessengerSubscriberApp)

/-- The argument of the program. -/
inductive Messengermain.Mode
  | publisher
  | subscriber
  deriving DecidableEq, Repr

def MessengerApplication.makeApp : Messengermain.Mode → MessengerApplication
  | .publisher => .publisher .init
  | .subscriber => .subscriber (.init false)

namespace Messengermain

/-- The components that run in a thread of their own. -/
inductive Component
  | producer
  | app
  | server
  deriving DecidableEq, Repr

/-- The statements of `main` that construct, connect, start and join components, and those
that set up the signals. -/
inductive Statement
  | makeSharedState
  | makeProducer
  | makeApp
  | setAppState
  | makeServer
  | setServerState
  | setAppServer
  | start (c : Component)
  | setHandler
  | installSignals
  | join (c : Component)
  deriving DecidableEq, Repr

open Statement in
/-- The two branches of `main`. The subscriber's has its `ws_server` commented out. -/
def body : Mode → List Statement
  | .publisher =>
    [makeSharedState, makeProducer, makeApp, setAppState, makeServer, setServerState,
      start .producer, start .app, start .server, setHandler, installSignals,
      join .producer, join .app, join .server]
  | .subscriber => [makeApp, setAppServer, start .app, setHandler, installSignals, join .app]

/-- Where an invocation of `stop_handler` stands: which statement of which `stop` is next. -/
inductive HandlerPc
  | notDelivered
  | producerStore
  | producerCancel
  | producerContext
  | appStore
  | appNotify
  | serverStop
  | finished
  deriving DecidableEq, Repr

/-- The first statement of the handler that `main` sets. -/
def firstStop : Mode → HandlerPc
  | .publisher => .producerStore
  | .subscriber => .appStore

inductive Event
  /-- The next statement of `main`; `make_app` throws where `ok` is false. -/
  | main (ok : Bool)
  | producer (e : CoordinateProducer.Event)
  | publisher (e : MessengerPublisherApp.Event)
  | subscriber (e : MessengerSubscriberApp.Event) (fails : ConnectionHdl → Bool)
  | server (e : WebSocketServer.Event)
  /-- A signal is delivered to the `i`th invocation of the handler. -/
  | signal (i : ℕ)
  /-- The next statement of the handler. Where the call can go two ways, `outcome` is that a
  `close` throws, or that the wait on the producer's timer has expired. -/
  | handler (i : ℕ) (outcome : Bool)

end Messengermain

open Messengermain in
/-- `main` up to its `return`, with its component pointers, empty until the component is
constructed. -/
structure Messengermain where
  mode : Mode
  rest : List Statement
  /-- An exception took `main` to its `catch`. -/
  threw : Bool
  sharedState : Option SharedCoordinateState
  coordProducer : Option CoordinateProducer
  app : Option MessengerApplication
  wsServer : Option WebSocketServer
  started : Component → Bool
  installed : Bool
  invocations : ℕ → HandlerPc
  /-- An empty pointer was dereferenced, which ends the process. -/
  failed : Bool

namespace Messengermain

def init (mode : Mode) : Messengermain :=
  ⟨mode, body mode, false, none, none, none, none, fun _ => false, false,
    fun _ => .notDelivered, false⟩

/-- A use of the component behind a pointer. -/
def deref {α : Type} (p : Option α) (s : Messengermain) (use : α → Option Messengermain) :
    Option Messengermain :=
  match p with
  | some a => use a
  | none => some { s with failed := true }

/-- The `run` of a component has returned. -/
def hasReturned (s : Messengermain) : Component → Bool
  | .producer => s.coordProducer.any (·.pc = .finished)
  | .app => s.app.any fun
    | .publisher a => a.pc = .finished
    | .subscriber a => a.runPc = .finished
  | .server => s.wsServer.any (·.runPc = .finished)

/-- `sub_app->set_websocket_server(ws_server)`: the pointer is copied, empty or not. -/
def setAppServer (s : Messengermain) : Messengermain :=
  { s with app := match s.app with
    | some (.subscriber a) => some (.subscriber { a with wsServer := s.wsServer.isSome })
    | app => app }

def execute (s : Messengermain) : Statement → Option Messengermain
  | .makeSharedState => some { s with sharedState := some .init }
  | .makeProducer => some { s with coordProducer := some .init }
  | .makeApp => some { s with app := some (.makeApp s.mode) }
  | .setAppState => some s
  | .makeServer => some { s with wsServer := some .init }
  | .setServerState => deref s.wsServer s fun _ => some s
  | .setAppServer => some s.setAppServer
  | .start c => some { s with started := Function.update s.started c true }
  | .setHandler => some s
  | .installSignals => some { s with installed := true }
  | .join c => if s.hasReturned c then some s else none

/-- The next statement of `main`; what `make_app` throws is caught outside of both branches. -/
def mainStep (s : Messengermain) (ok : Bool) : Option Messengermain :=
  match s.rest with
  | [] => none
  | st :: rest =>
    if s.threw then none
    else if st = .makeApp ∧ ok = false then some { s with threw := true }
    else { s with rest := rest }.execute st

/-- The thread of the producer, which uses the shared state it was constructed with. -/
def producerStep (s : Messengermain) (e : CoordinateProducer.Event) : Option Messengermain :=
  deref s.coordProducer s fun p => (p.step e).bind fun (q, u) => match u with
    | none => some { s with coordProducer := some q }
    | some d => deref s.sharedState s fun shared => some { s with
        coordProducer := some q
        sharedState := some (PublisherProcess.storeUpdate shared (some d)) }

/-- The thread of a publisher and its DDS callbacks. -/
def publisherStep (s : Messengermain) (e : MessengerPublisherApp.Event) : Option Messengermain :=
  match s.app with
  | some (.publisher a) => deref s.sharedState s fun shared =>
      (a.step shared e).map fun b => { s with app := some (.publisher b) }
  | _ => none

/-- `WebSocketServer::broadcast` as the subscriber calls it. -/
def passOn (messages : List (Sampler.Entry MessengerSubscriberApp.Forward))
    (fails : ConnectionHdl → Bool) (w : WebSocketServer) : WebSocketServer :=
  { w with cast := { w.cast with
    received := messages.foldl (fun r m =>
      { w.cast with received := r }.broadcast m.item.toJson fails) w.cast.received } }

/-- The thread of a subscriber and its DDS callbacks. What `on_data_available` passes on goes
through `ws_server_`, a copy of the pointer of `main`. -/
def subscriberStep (round : ℚ≥0 → Option ℚ≥0) (s : Messengermain)
    (e : MessengerSubscriberApp.Event) (fails : ConnectionHdl → Bool) : Option Messengermain :=
  match s.app with
  | some (.subscriber a) => (a.step round e).bind fun b =>
      match b.broadcasts.drop a.broadcasts.length with
      | [] => some { s with app := some (.subscriber b) }
      | messages => deref s.wsServer s fun w => some { s with
          app := some (.subscriber b), wsServer := some (passOn messages fails w) }
  | _ => none

/-- The thread of the server, which reads the shared state it was given. -/
def serverStep (s : Messengermain) (e : WebSocketServer.Event) : Option Messengermain :=
  deref s.wsServer s fun w => deref s.sharedState s fun shared =>
    (w.step shared e).map fun w' => { s with wsServer := some w' }

/-- `app->stop()`, one of its two statements. It uses no shared state. -/
def stopApp (round : ℚ≥0 → Option ℚ≥0) (notify : Bool) :
    MessengerApplication → Option MessengerApplication
  | .publisher a => (a.step .init (if notify then .stopNotify else .stopStore)).map .publisher
  | .subscriber a => (a.step round (if notify then .stopNotify else .stopStore)).map .subscriber

def setInvocation (s : Messengermain) (i : ℕ) (pc : HandlerPc) : Messengermain :=
  { s with invocations := Function.update s.invocations i pc }

/-- The next statement of an invocation of `stop_handler`. -/
def handlerStep (round : ℚ≥0 → Option ℚ≥0) (s : Messengermain) (i : ℕ) (outcome : Bool) :
    Option Messengermain :=
  match s.invocations i with
  | .notDelivered => none
  | .producerStore => deref s.coordProducer s fun p => (p.step .stopStore).map fun q =>
      { s.setInvocation i .producerCancel with coordProducer := some q.1 }
  | .producerCancel => deref s.coordProducer s fun p => (p.step (.stopCancel outcome)).map fun q =>
      { s.setInvocation i .producerContext with coordProducer := some q.1 }
  | .producerContext => deref s.coordProducer s fun p => (p.step .stopContext).map fun q =>
      { s.setInvocation i .appStore with coordProducer := some q.1 }
  | .appStore => deref s.app s fun a => (stopApp round false a).map fun b =>
      { s.setInvocation i .appNotify with app := some b }
  | .appNotify => deref s.app s fun a => (stopApp round true a).map fun b =>
      { s.setInvocation i .serverStop with app := some b }
  | .serverStop => deref s.wsServer s fun w => (w.stopStep i outcome).map fun w' =>
      { s.setInvocation i (if w'.calls i = .returned then .finished else .serverStop) with
        wsServer := some w' }
  | .finished => none

/-- The statements of `stop` are those of the handler; no thread makes them. -/
def isStop : Event → Bool
  | .producer .stopStore | .producer (.stopCancel _) | .producer .stopContext => true
  | .publisher .stopStore | .publisher .stopNotify => true
  | .subscriber .stopStore _ | .subscriber .stopNotify _ => true
  | .server (.stop _ _) => true
  | _ => false

/-- The statements of `run` of the DDS application, as opposed to its callbacks. -/
def isAppRun : Event → Bool
  | .publisher (.thread _) | .publisher .timeout | .subscriber .run _ => true
  | _ => false

def step (round : ℚ≥0 → Option ℚ≥0) (s : Messengermain) (e : Event) : Option Messengermain :=
  if s.failed || isStop e || (isAppRun e && !s.started .app) then none else
  match e with
  | .main ok => s.mainStep ok
  | .producer e => if s.started .producer then s.producerStep e else none
  | .publisher e => s.publisherStep e
  | .subscriber e fails => s.subscriberStep round e fails
  | .server e => if s.started .server then s.serverStep e else none
  | .signal i =>
    if s.installed && s.invocations i = .notDelivered then
      some (s.setInvocation i (firstStop s.mode))
    else none
  | .handler i outcome => s.handlerStep round i outcome

def machine (round : ℚ≥0 → Option ℚ≥0) (mode : Mode) : Machine Messengermain Event :=
  ⟨init mode, step round⟩

/-- `main` comes to its `return`, through one of its branches or its `catch`. -/
def atReturn (s : Messengermain) : Bool := !s.failed && (s.rest = [] || s.threw)

/-- The pointers as `return` leaves them to the handler, which captured them by reference. -/
def destroyed (s : Messengermain) : Messengermain :=
  { s with sharedState := none, coordProducer := none, app := none, wsServer := none }

end Messengermain

/-- The process: `main`, and the signals that arrive once it has returned. -/
structure MessengerProcess where
  main : Messengermain
  /-- `return` has destroyed the pointers; the handlers stay installed. -/
  returned : Bool

namespace MessengerProcess

inductive Event
  /-- A step of `main`, its threads or its handlers. -/
  | within (e : Messengermain.Event)
  /-- The `return` of `main`. -/
  | leave

def init (mode : Messengermain.Mode) : MessengerProcess := ⟨.init mode, false⟩

/-- Once `main` has returned no thread of it is left, and only the handlers take steps. -/
def lateStep (round : ℚ≥0 → Option ℚ≥0) (s : MessengerProcess) :
    Messengermain.Event → Option MessengerProcess
  | .signal i => (s.main.step round (.signal i)).map fun m => { s with main := m }
  | .handler i outcome =>
    (s.main.destroyed.step round (.handler i outcome)).map fun m => { s with main := m }
  | _ => none

def step (round : ℚ≥0 → Option ℚ≥0) (s : MessengerProcess) : Event → Option MessengerProcess
  | .within e =>
    if s.returned then s.lateStep round e
    else (s.main.step round e).map fun m => { s with main := m }
  | .leave =>
    if s.main.atReturn && !s.returned then some { s with returned := true } else none

def machine (round : ℚ≥0 → Option ℚ≥0) (mode : Messengermain.Mode) :
    Machine MessengerProcess Event := ⟨init mode, step round⟩

end MessengerProcess

end CoordinateStream
