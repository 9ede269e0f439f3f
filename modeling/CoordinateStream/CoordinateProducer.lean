import CoordinateStream.SharedCoordinateState
import CoordinateStream.Lib.Machine

namespace CoordinateStream

namespace CoordinateProducer

/-- Where the thread that executes `run` stands: in `start`, in the event loop between two
handlers, or inside the handler of the timer. -/
inductive Pc
  | notStarted
  | starting
  | arming (inHandler : Bool)
  | eventLoop
  | generated (lon lat : Double) (timestamp : Int64)
  | sequenced (lon lat : Double) (timestamp : Int64) (seq : UInt32)
  | updated
  | finished
  deriving DecidableEq

/-- The wait on the timer: none, outstanding, or cancelled and queued with an error code. -/
inductive Timer
  | idle
  | armed
  | cancelled
  deriving DecidableEq

inductive Event
  | start
  | scheduleTest
  | arm
  | fire (lon lat : Double) (timestamp : Int64)
  | abort
  | fetchAdd
  | update
  | leaveLoop
  | stopStore
  /-- A wait that has `expired` has its handler queued, and `cancel` does not get hold of it. -/
  | stopCancel (expired : Bool)
  | stopContext

end CoordinateProducer

open CoordinateProducer in
structure CoordinateProducer where
  pc : Pc
  running : Bool
  sequence : UInt32
  timer : Timer
  /-- `io_context_` was stopped, which it stays: no further handler is taken up. -/
  contextStopped : Bool
  /-- Calls of `stop` after its first and after its second statement. -/
  stopsStored : ℕ
  stopsCancelled : ℕ
  stopsReturned : ℕ
  /-- Handlers taken up by the event loop. -/
  handlers : ℕ
  deriving DecidableEq

namespace CoordinateProducer

def init : CoordinateProducer := ⟨.notStarted, false, 0, .idle, false, 0, 0, 0, 0⟩

/-- One step, with the data of the `update` call it makes. Coordinates and timestamps are
the environment's: nothing depends on what the generator and the clock return. -/
def step (p : CoordinateProducer) : Event → Option (CoordinateProducer × Option CoordinateData)
  | .start =>
    -- `start`: `running_.exchange(true)`, then `schedule_next` unless it was set
    if p.pc = .notStarted then
      some ({ p with running := true, pc := if p.running then .eventLoop else .starting }, none)
    else none
  | .scheduleTest => match p.pc with
    | .starting => some ({ p with pc := if p.running then .arming false else .eventLoop }, none)
    | .updated => some ({ p with pc := if p.running then .arming true else .eventLoop }, none)
    | _ => none
  | .arm => match p.pc with
    | .arming _ => some ({ p with timer := .armed, pc := .eventLoop }, none)
    | _ => none
  | .fire lon lat timestamp =>
    if p.pc = .eventLoop ∧ p.timer = .armed ∧ p.contextStopped = false then
      some ({ p with
        timer := .idle, handlers := p.handlers + 1, pc := .generated lon lat timestamp }, none)
    else none
  | .abort =>
    -- the handler returns at once on `operation_aborted`
    if p.pc = .eventLoop ∧ p.timer = .cancelled ∧ p.contextStopped = false then
      some ({ p with timer := .idle, handlers := p.handlers + 1 }, none)
    else none
  | .fetchAdd => match p.pc with
    | .generated lon lat timestamp => some ({ p with
        sequence := p.sequence + 1
        pc := .sequenced lon lat timestamp (p.sequence + 1) }, none)
    | _ => none
  | .update => match p.pc with
    | .sequenced lon lat timestamp seq =>
      some ({ p with pc := .updated }, some ⟨lon, lat, timestamp, seq⟩)
    | _ => none
  | .leaveLoop =>
    -- `io_context::run` returns when the context is stopped or has no work left
    if p.pc = .eventLoop ∧ (p.contextStopped = true ∨ p.timer = .idle) then
      some ({ p with pc := .finished }, none)
    else none
  | .stopStore => some ({ p with running := false, stopsStored := p.stopsStored + 1 }, none)
  | .stopCancel expired =>
    if 0 < p.stopsStored then
      some ({ p with
        timer := if p.timer = .armed ∧ expired = false then .cancelled else p.timer
        stopsStored := p.stopsStored - 1
        stopsCancelled := p.stopsCancelled + 1 }, none)
    else none
  | .stopContext =>
    if 0 < p.stopsCancelled then
      some ({ p with
        contextStopped := true
        stopsCancelled := p.stopsCancelled - 1
        stopsReturned := p.stopsReturned + 1 }, none)
    else none

/-- A handler of the timer is executing. -/
def InHandler (p : CoordinateProducer) : Prop :=
  match p.pc with
  | .generated _ _ _ | .sequenced _ _ _ _ | .updated | .arming true => True
  | _ => False

/-- The `update` calls the handler in progress has still to make. -/
def owed (p : CoordinateProducer) : ℕ :=
  match p.pc with
  | .generated _ _ _ | .sequenced _ _ _ _ => 1
  | _ => 0

/-- The `fetch_add` calls whose update is still to come. -/
def drawn (p : CoordinateProducer) : ℕ :=
  match p.pc with
  | .sequenced _ _ _ _ => 1
  | _ => 0

/-- The context is stopped, and a call of `stop` returns, in the last statement of it only. -/
theorem step_stops {p q : CoordinateProducer} {e : Event} {u : Option CoordinateData}
    (h : p.step e = some (q, u)) :
    (e ≠ .stopContext ∧ q.contextStopped = p.contextStopped ∧
      q.stopsReturned = p.stopsReturned) ∨
    (e = .stopContext ∧ q.contextStopped = true ∧ q.stopsReturned = p.stopsReturned + 1) := by
  cases e with
  | fetchAdd | update | arm | scheduleTest =>
    simp only [step] at h
    split at h <;> simp only [Option.some.injEq, Prod.mk.injEq, reduceCtorEq] at h
    all_goals
      rw [← h.1]
      exact .inl ⟨by simp, rfl, rfl⟩
  | start | fire | abort | leaveLoop | stopCancel =>
    simp only [step, Option.ite_none_right_eq_some, Option.some.injEq, Prod.mk.injEq] at h
    rw [← h.2.1]
    exact .inl ⟨by simp, rfl, rfl⟩
  | stopStore =>
    simp only [step, Option.some.injEq, Prod.mk.injEq] at h
    rw [← h.1]
    exact .inl ⟨by simp, rfl, rfl⟩
  | stopContext =>
    simp only [step, Option.ite_none_right_eq_some, Option.some.injEq, Prod.mk.injEq] at h
    rw [← h.2.1]
    exact .inr ⟨rfl, rfl, rfl⟩

end CoordinateProducer

end CoordinateStream
