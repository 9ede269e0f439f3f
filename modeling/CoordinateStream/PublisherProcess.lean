import CoordinateStream.CoordinateProducer
import CoordinateStream.MessengerPublisherApp
import CoordinateStream.WebSocketServer

namespace CoordinateStream

/-- The publisher process: the producer and its two consumers around the shared cell. -/
structure PublisherProcess where
  producer : CoordinateProducer
  shared : SharedCoordinateState
  publisher : MessengerPublisherApp
  server : WebSocketServer

namespace PublisherProcess

inductive Event
  | producer (e : CoordinateProducer.Event)
  | publisher (e : MessengerPublisherApp.Event)
  | server (e : WebSocketServer.Event)

def init : PublisherProcess := ⟨.init, .init, .init, .init⟩

/-- The cell after a step of the producer, which may have called `update`. -/
def storeUpdate (shared : SharedCoordinateState) : Option CoordinateData → SharedCoordinateState
  | some d => shared.update d.longitude d.latitude d.timestamp d.sequence
  | none => shared

def step (s : PublisherProcess) : Event → Option PublisherProcess
  | .producer e => (s.producer.step e).map fun (p, u) =>
    { s with producer := p, shared := storeUpdate s.shared u }
  | .publisher e => (s.publisher.step s.shared e).map fun p => { s with publisher := p }
  | .server e => (s.server.step s.shared e).map fun w => { s with server := w }

def machine : Machine PublisherProcess Event := ⟨init, step⟩

/-- What a step can do: one component moves, and only the producer writes the cell. -/
theorem step_cases {s t : PublisherProcess} {e : Event} (h : machine.step s e = some t) :
    (∃ a p u, e = .producer a ∧ s.producer.step a = some (p, u) ∧
      t = { s with producer := p, shared := storeUpdate s.shared u }) ∨
    (∃ a p, e = .publisher a ∧ s.publisher.step s.shared a = some p ∧
      t = { s with publisher := p }) ∨
    (∃ a w, e = .server a ∧ s.server.step s.shared a = some w ∧ t = { s with server := w }) := by
  cases e with
  | producer a =>
    obtain ⟨⟨p, u⟩, hp, rfl⟩ := Option.map_eq_some_iff.mp h
    exact .inl ⟨a, p, u, rfl, hp, rfl⟩
  | publisher a =>
    obtain ⟨p, hp, rfl⟩ := Option.map_eq_some_iff.mp h
    exact .inr (.inl ⟨a, p, rfl, hp, rfl⟩)
  | server a =>
    obtain ⟨w, hw, rfl⟩ := Option.map_eq_some_iff.mp h
    exact .inr (.inr ⟨a, w, rfl, hw, rfl⟩)

@[simp] theorem storeUpdate_updates (shared : SharedCoordinateState) (u : Option CoordinateData) :
    (storeUpdate shared u).updates = shared.updates ++ u.toList := by
  cases u <;> simp [storeUpdate]

end PublisherProcess

end CoordinateStream
