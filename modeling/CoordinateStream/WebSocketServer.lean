import CoordinateStream.SharedCoordinateState
import CoordinateStream.Lib.Machine
import Mathlib.Data.List.Sort
import Mathlib.Logic.Function.Basic

namespace CoordinateStream

/-- A `connection_hdl`, by the order of its owner. -/
abbrev ConnectionHdl := ℕ

/-- `std::set<connection_hdl>`: the handles in iteration order, each once. -/
structure Connections where
  toList : List ConnectionHdl
  sorted : toList.Pairwise (· < ·)
  deriving DecidableEq

namespace Connections

def empty : Connections := ⟨[], .nil⟩

instance : Membership ConnectionHdl Connections := ⟨fun c h => h ∈ c.toList⟩

instance (c : Connections) (h : ConnectionHdl) : Decidable (h ∈ c) :=
  inferInstanceAs (Decidable (h ∈ c.toList))

theorem nodup (c : Connections) : c.toList.Nodup := c.sorted.imp ne_of_lt

theorem sorted_orderedInsert (c : Connections) {h : ConnectionHdl} (hm : h ∉ c.toList) :
    (c.toList.orderedInsert (· ≤ ·) h).Pairwise (· < ·) := by
  have hle := (c.sorted.imp le_of_lt).orderedInsert h
  have hne : (c.toList.orderedInsert (· ≤ ·) h).Nodup :=
    (List.perm_orderedInsert _ _ _).nodup_iff.mpr (List.nodup_cons.mpr ⟨hm, c.nodup⟩)
  exact (hle.and hne).imp fun hlt => lt_of_le_of_ne hlt.1 hlt.2

def insert (c : Connections) (h : ConnectionHdl) : Connections :=
  if hm : h ∈ c.toList then c
  else ⟨c.toList.orderedInsert (· ≤ ·) h, c.sorted_orderedInsert hm⟩

def erase (c : Connections) (h : ConnectionHdl) : Connections :=
  ⟨c.toList.erase h, c.sorted.sublist List.erase_sublist⟩

/-- `begin()`, where `none` is `end()`. -/
def first (c : Connections) : Option ConnectionHdl := c.toList.head?

/-- The handle behind `h` in the order of the set. -/
def next (c : Connections) (h : ConnectionHdl) : Option ConnectionHdl := c.toList.find? (h < ·)

@[simp] theorem not_mem_empty (h : ConnectionHdl) : h ∉ empty := List.not_mem_nil

@[simp] theorem mem_insert {c : Connections} {h k : ConnectionHdl} :
    k ∈ c.insert h ↔ k = h ∨ k ∈ c := by
  unfold insert
  split_ifs with hm
  · constructor
    · exact Or.inr
    · intro hk
      rcases hk with rfl | hk
      · exact hm
      · exact hk
  · exact List.mem_orderedInsert _

@[simp] theorem mem_erase {c : Connections} {h k : ConnectionHdl} :
    k ∈ c.erase h ↔ k ≠ h ∧ k ∈ c := List.Nodup.mem_erase_iff c.nodup

/-- An iterator that is left alone comes to each handle in turn. -/
theorem next_eq {c : Connections} {before rest : List ConnectionHdl} {h : ConnectionHdl}
    (hc : c.toList = before ++ h :: rest) : c.next h = rest.head? := by
  have hsorted := c.sorted
  rw [hc, List.pairwise_append, List.pairwise_cons] at hsorted
  obtain ⟨-, ⟨hrest, -⟩, hbefore⟩ := hsorted
  have hnone : before.find? (h < ·) = none := by
    simpa using fun k hk => (hbefore k hk h List.mem_cons_self).le
  rw [next, hc, List.find?_append, hnone, Option.none_or,
    List.find?_cons_of_neg (by simp)]
  cases rest with
  | nil => rfl
  | cons k rest => simp [hrest k List.mem_cons_self]

end Connections

namespace WebSocketServer

/-- The steps of `run`, each state naming the statement that comes next. -/
inductive RunPc
  | notStarted
  | initAsio
  | setHandlers
  | listen
  | startAccept
  | schedule
  | enterLoop
  | eventLoop
  | finished
  deriving DecidableEq, Repr

/-- The steps of one call of `stop`, with the iterator of its loop over the connections. -/
inductive StopPc
  | notCalled
  | clear
  | close (it : Option ConnectionHdl)
  | stopListening
  | serverStop
  | returned
  deriving DecidableEq, Repr

/-- What happened on the event loop. A broadcast records which sends threw. -/
inductive LoopEvent
  | opened (h : ConnectionHdl)
  | closed (h : ConnectionHdl)
  | broadcast (e : Sampler.Entry CoordinateData) (fails : ConnectionHdl → Bool)

/-- The entry an event broadcasts. -/
def LoopEvent.entry : LoopEvent → Option (Sampler.Entry CoordinateData)
  | .broadcast e _ => some e
  | _ => none

inductive Event
  /-- The next statement of `run`; it throws where `ok` is false. -/
  | run (ok : Bool)
  /-- The next statement of the `i`th call of `stop`; a `close` may throw. -/
  | stop (i : ℕ) (throws : Bool)
  | onOpen (h : ConnectionHdl)
  | onClose (h : ConnectionHdl)
  /-- The timer handler up to its three conditions. -/
  | tick
  /-- The rest of the handler whose conditions held; `fails` are the sends that throw. -/
  | emit (fails : ConnectionHdl → Bool)

/-- What the handlers of the event loop read and write. -/
structure Broadcaster where
  connections : Connections
  lastBroadcastSequence : UInt32
  broadcastsSent : UInt32
  /-- The broadcast texts enqueued for a client, without the answers of `on_message`, and what
  happened on the loop. -/
  received : ConnectionHdl → List Text
  history : List LoopEvent

namespace Broadcaster

def init : Broadcaster := ⟨.empty, 0, 0, fun _ => [], []⟩

/-- The broadcasts made so far. -/
def broadcasts (b : Broadcaster) : List (Sampler.Entry CoordinateData) :=
  b.history.filterMap LoopEvent.entry

def onOpen (b : Broadcaster) (h : ConnectionHdl) : Broadcaster :=
  { b with connections := b.connections.insert h, history := b.history ++ [.opened h] }

def onClose (b : Broadcaster) (h : ConnectionHdl) : Broadcaster :=
  { b with connections := b.connections.erase h, history := b.history ++ [.closed h] }

/-- `m_server.send`: the message is enqueued, or the call throws and is caught. -/
def send (message : Text) (fails : ConnectionHdl → Bool)
    (received : ConnectionHdl → List Text) (h : ConnectionHdl) : ConnectionHdl → List Text :=
  if fails h then received else Function.update received h (received h ++ [message])

/-- `broadcast`: one `send` for each connection. -/
def broadcast (b : Broadcaster) (message : Text) (fails : ConnectionHdl → Bool) :
    ConnectionHdl → List Text :=
  b.connections.toList.foldl (send message fails) b.received

/-- The conditions under which a tick of a running server goes on to read the cell. -/
def wants (b : Broadcaster) (shared : SharedCoordinateState) : Bool :=
  shared.hasData && b.connections.toList ≠ []

/-- The rest of the broadcast logic, from the read of the cell. -/
def broadcastLatest (b : Broadcaster) (shared : SharedCoordinateState)
    (fails : ConnectionHdl → Bool) : Broadcaster :=
  if b.lastBroadcastSequence < shared.getLatest.sequence then
    { b with
      received := b.broadcast shared.getLatest.toJson fails
      lastBroadcastSequence := shared.getLatest.sequence
      broadcastsSent := b.broadcastsSent + 1
      history := b.history ++ [.broadcast shared.read fails] }
  else b

end Broadcaster

end WebSocketServer

open WebSocketServer in
structure WebSocketServer where
  running : Bool
  runPc : RunPc
  listening : Bool
  /-- `m_server.stop` was called: the event loop takes up no further handler. -/
  stopRequested : Bool
  calls : ℕ → StopPc
  timerArmed : Bool
  /-- A timer handler is between its conditions and its read of the cell. -/
  inTick : Bool
  cast : Broadcaster

namespace WebSocketServer

def init : WebSocketServer :=
  ⟨false, .notStarted, false, false, fun _ => .notCalled, false, false, .init⟩

/-- The statements of `run`. Those inside its `try` end it when they throw; the event loop
returns once it was stopped and no handler is in progress, or on an error. -/
def runStep (ok : Bool) (s : WebSocketServer) : Option WebSocketServer :=
  match s.runPc with
  | .notStarted => some { s with running := true, runPc := .initAsio }
  | .initAsio => some { s with runPc := if ok then .setHandlers else .finished }
  | .setHandlers => some { s with runPc := .listen }
  | .listen =>
    if ok then some { s with listening := true, runPc := .startAccept }
    else some { s with runPc := .finished }
  | .startAccept => some { s with runPc := if ok then .schedule else .finished }
  | .schedule => some { s with timerArmed := true, runPc := .enterLoop }
  | .enterLoop => some { s with runPc := .eventLoop }
  | .eventLoop =>
    if s.inTick = false ∧ (s.stopRequested = true ∨ ok = false) then
      some { s with runPc := .finished }
    else none
  | .finished => none

def setCall (s : WebSocketServer) (i : ℕ) (pc : StopPc) : WebSocketServer :=
  { s with calls := Function.update s.calls i pc }

/-- The statements of a call of `stop`. Its loop runs over the set as the event loop changes it
meanwhile; behind a handle that was erased it goes on with the next one. An exception skips the
rest of the `try` block, and `stop_listening` throws when the endpoint does not listen. -/
def stopStep (i : ℕ) (throws : Bool) (s : WebSocketServer) : Option WebSocketServer :=
  match s.calls i with
  | .notCalled => some (s.setCall i (if s.running then .clear else .returned))
  | .clear => some { s.setCall i (.close s.cast.connections.first) with running := false }
  | .close none => some (s.setCall i .stopListening)
  | .close (some conn) =>
    some (s.setCall i (if throws then .returned else .close (s.cast.connections.next conn)))
  | .stopListening =>
    if s.listening then some { s.setCall i .serverStop with listening := false }
    else some (s.setCall i .returned)
  | .serverStop => some { s.setCall i .returned with stopRequested := true }
  | .returned => none

/-- The event loop takes up a handler. -/
def takesHandler (s : WebSocketServer) : Bool :=
  s.runPc = .eventLoop && !s.stopRequested && !s.inTick

def step (shared : SharedCoordinateState) (s : WebSocketServer) : Event → Option WebSocketServer
  | .run ok => s.runStep ok
  | .stop i throws => s.stopStep i throws
  | .onOpen h => if s.takesHandler then some { s with cast := s.cast.onOpen h } else none
  | .onClose h => if s.takesHandler then some { s with cast := s.cast.onClose h } else none
  | .tick =>
    if s.takesHandler ∧ s.timerArmed then
      -- a stopped server does not arm the timer again
      some { s with
        timerArmed := s.running && !s.cast.wants shared
        inTick := s.running && s.cast.wants shared }
    else none
  | .emit fails =>
    if s.inTick then
      some { s with
        timerArmed := true
        inTick := false
        cast := s.cast.broadcastLatest shared fails }
    else none

/-- The handler of the timer with nothing in between. A stopped server leaves it at once. -/
def broadcastTick (s : WebSocketServer) (shared : SharedCoordinateState)
    (fails : ConnectionHdl → Bool) : Broadcaster :=
  if s.running && s.cast.wants shared then s.cast.broadcastLatest shared fails else s.cast

/-- The server runs, and its event loop can call the handler of the timer. -/
structure CanTick (s : WebSocketServer) : Prop where
  running : s.running = true
  takes : s.takesHandler = true
  armed : s.timerArmed = true

/-- The thread of `run` neither calls `stop` nor runs a handler, leaves the event loop between
two of them only, and has no step left once it returned. -/
structure RunFrame (s t : WebSocketServer) : Prop where
  calls : t.calls = s.calls
  stopRequested : t.stopRequested = s.stopRequested
  cast : t.cast = s.cast
  inTick : t.inTick = s.inTick
  between : s.runPc = .eventLoop → s.inTick = false
  unfinished : s.runPc ≠ .finished

theorem runStep_frame {s t : WebSocketServer} {ok : Bool} (h : s.runStep ok = some t) :
    RunFrame s t := by
  unfold runStep at h
  cases hpc : s.runPc with
  | listen =>
    simp only [hpc] at h
    split_ifs at h
    · rw [← Option.some.inj h]
      exact ⟨rfl, rfl, rfl, rfl, by simp [hpc], by simp [hpc]⟩
    · rw [← Option.some.inj h]
      exact ⟨rfl, rfl, rfl, rfl, by simp [hpc], by simp [hpc]⟩
  | eventLoop =>
    simp only [hpc, Option.ite_none_right_eq_some] at h
    rw [← Option.some.inj h.2]
    exact ⟨rfl, rfl, rfl, rfl, fun _ => h.1.1, by simp [hpc]⟩
  | finished => simp [hpc] at h
  | notStarted | initAsio | setHandlers | startAccept | schedule | enterLoop =>
    simp only [hpc, Option.some.injEq] at h
    rw [← h]
    exact ⟨rfl, rfl, rfl, rfl, by simp [hpc], by simp [hpc]⟩

/-- A call of `stop` leaves the handlers and the thread of `run` alone. -/
structure StopFrame (s t : WebSocketServer) : Prop where
  cast : t.cast = s.cast
  inTick : t.inTick = s.inTick
  runPc : t.runPc = s.runPc

theorem stopStep_frame {s t : WebSocketServer} {i : ℕ} {throws : Bool}
    (h : s.stopStep i throws = some t) : StopFrame s t := by
  unfold stopStep at h
  cases hc : s.calls i with
  | close it =>
    cases it with
    | none | some =>
      simp only [hc, Option.some.injEq] at h
      rw [← h]
      exact ⟨rfl, rfl, rfl⟩
  | stopListening =>
    simp only [hc] at h
    split_ifs at h
    · rw [← Option.some.inj h]
      exact ⟨rfl, rfl, rfl⟩
    · rw [← Option.some.inj h]
      exact ⟨rfl, rfl, rfl⟩
  | notCalled | clear | serverStop =>
    simp only [hc, Option.some.injEq] at h
    rw [← h]
    exact ⟨rfl, rfl, rfl⟩
  | returned => simp [hc] at h

end WebSocketServer

end CoordinateStream
