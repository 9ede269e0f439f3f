import CoordinateStream.SharedCoordinateState
import CoordinateStream.Lib.Monitor

namespace CoordinateStream

namespace SharedCoordinateState

/-- A `CoordinateData` that `std::make_shared` has made, and that nobody changes. -/
structure Allocated where
  address : ℕ
  data : CoordinateData
  deriving DecidableEq

/-- The two words of a `std::shared_ptr<const CoordinateData>`: the pointer, and the control
block, which keeps one object alive. -/
structure SharedPtr where
  stored : Option Allocated
  control : Option Allocated
  deriving DecidableEq

/-- What the pointer leads to, unless its words belong to different objects. -/
def SharedPtr.deref (p : SharedPtr) : Option CoordinateData :=
  if p.stored = p.control then p.stored.map Allocated.data else none

inductive Call
  | update (newData : Allocated)
  | getLatest
  | hasData
  deriving DecidableEq

inductive Result
  | updated
  | latest (data : Option CoordinateData)
  | hasData (value : Bool)
  deriving DecidableEq

/-- The locals of a call: the pointer it copies, and the value it computes. -/
structure Locals where
  call : Call
  copy : SharedPtr
  value : Bool

/-- The member functions, statement by statement. `std::make_shared` comes before the lock,
and the copy and the assignment of a shared pointer take its words one at a time. -/
def monitor : Monitor Call SharedPtr Locals Result where
  init := ⟨some ⟨0, .placeholder⟩, some ⟨0, .placeholder⟩⟩
  locals c := ⟨c, ⟨none, none⟩, false⟩
  body
    | .update newData => [
      fun (latest, l) => ({ latest with stored := some newData }, l),
      fun (latest, l) => ({ latest with control := some newData }, l)]
    | .getLatest => [
      fun (latest, l) => (latest, { l with copy := { l.copy with stored := latest.stored } }),
      fun (latest, l) => (latest, { l with copy := { l.copy with control := latest.control } })]
    | .hasData => [
      fun (latest, l) => (latest, { l with value := latest.stored.isSome }),
      fun (latest, l) => (latest, { l with
        value := l.value && latest.stored.any fun d => 0 < d.data.sequence })]
  result l := match l.call with
    | .update _ => .updated
    | .getLatest => .latest l.copy.deref
    | .hasData => .hasData l.value

/-- The cell as its consumers take it: every call at once. -/
def atomic : AtomicObject Call SharedCoordinateState Result where
  init := .init
  method
    | .update newData, s => (s.update newData.data.longitude newData.data.latitude
        newData.data.timestamp newData.data.sequence, .updated)
    | .getLatest, s => (s, .latest (some s.getLatest))
    | .hasData, s => (s, .hasData s.hasData)

/-- Both words are those of an object that holds the latest data. -/
def Holds (latest : SharedPtr) (s : SharedCoordinateState) : Prop :=
  ∃ d : Allocated, latest = ⟨some d, some d⟩ ∧ d.data = s.latest

theorem monitor_implements : monitor.Implements atomic Holds where
  init := ⟨_, rfl, rfl⟩
  method c f g h := by
    obtain ⟨d, rfl, hd⟩ := h
    cases c with
    | update newData => exact ⟨⟨newData, rfl, rfl⟩, rfl⟩
    | getLatest =>
      refine ⟨⟨d, rfl, hd⟩, ?_⟩
      show Result.latest (SharedPtr.deref ⟨some d, some d⟩) = .latest (some g.latest)
      rw [SharedPtr.deref, if_pos rfl, Option.map_some, hd]
    | hasData =>
      refine ⟨⟨d, rfl, hd⟩, ?_⟩
      show Result.hasData (true && decide (0 < d.data.sequence)) = .hasData g.hasData
      rw [Bool.true_and, hd, hasData]

variable {ι : Type*} [DecidableEq ι]

/-- No call has returned a pointer whose words belong to different objects. -/
def Untorn (history : List (CallAction ι Call Result)) : Prop :=
  ∀ i, CallAction.returned i (.latest none) ∉ history

/-- No call has such a result, returned or not. -/
structure Whole (t : AtomicObject.State ι Call SharedCoordinateState Result) : Prop where
  done : ∀ i, t.phases i ≠ .done (.latest none)
  returned : Untorn t.history

theorem method_ne_torn (c : Call) (s : SharedCoordinateState) :
    (atomic.method c s).2 ≠ .latest none := by
  cases c <;> simp [atomic]

omit [DecidableEq ι] in
theorem Untorn.concat {history : List (CallAction ι Call Result)} (h : Untorn history)
    {a : CallAction ι Call Result} (ha : ∀ i, a ≠ .returned i (.latest none)) :
    Untorn (history ++ [a]) := by
  intro i hi
  rcases List.mem_append.mp hi with hi | hi
  · exact h i hi
  · exact ha i (List.mem_singleton.mp hi).symm

theorem step_whole {t u : AtomicObject.State ι Call SharedCoordinateState Result}
    {e : AtomicObject.Event ι Call} (h : Whole t) (hs : atomic.step t e = some u) : Whole u := by
  have hupdate {i : ι} {q : AtomicObject.Phase Call Result} (hq : q ≠ .done (.latest none)) (j : ι) :
      Function.update t.phases i q j ≠ .done (.latest none) := by
    rcases eq_or_ne j i with rfl | hne
    · rwa [Function.update_self]
    · rw [Function.update_of_ne hne]
      exact h.done j
  cases e with
  | call i c =>
    simp only [AtomicObject.step] at hs
    split at hs
    · rw [← Option.some.inj hs]
      exact ⟨hupdate (by simp), h.returned.concat (by simp)⟩
    · cases hs
  | effect i =>
    simp only [AtomicObject.step] at hs
    split at hs
    · next c hi =>
      rw [← Option.some.inj hs]
      exact ⟨hupdate (by simpa using method_ne_torn c t.fields), h.returned⟩
    · cases hs
  | ret i =>
    simp only [AtomicObject.step] at hs
    split at hs
    · next r hi =>
      have hr := h.done i
      rw [hi] at hr
      rw [← Option.some.inj hs]
      refine ⟨hupdate (by simp), h.returned.concat fun j hj => ?_⟩
      rw [CallAction.returned.injEq] at hj
      exact hr (congrArg _ hj.2)
    · cases hs

theorem whole_of_reachable {t : AtomicObject.State ι Call SharedCoordinateState Result}
    (h : (atomic.machine ι).Reachable t) : Whole t :=
  h.invariant (I := Whole) ⟨fun _ => by simp [AtomicObject.machine], fun _ => List.not_mem_nil⟩
    fun _ hi _ hs => step_whole hi hs

/-- However the statements of any number of threads interleave, the calls return what they
would if each took effect at once between its call and its return; no pointer is torn; and the
thread inside can always go on. -/
theorem cell_linearizable {s : Monitor.State ι Call SharedPtr Locals Result}
    (h : (monitor.machine ι).Reachable s) :
    (∃ t, (atomic.machine ι).Reachable t ∧ t.history = s.history) ∧ Untorn s.history ∧
      ∀ i, s.mutex = some i →
        ∃ s', monitor.step s (.statement i) = some s' ∨ monitor.step s (.unlock i) = some s' := by
  obtain ⟨t, ht, hsim⟩ := Monitor.linearizable monitor_implements h
  refine ⟨⟨t, ht, hsim.history⟩, ?_, fun i hi => hsim.holder_can_step hi⟩
  rw [← hsim.history]
  exact (whole_of_reachable ht).returned

def demoData : CoordinateData := ⟨.finite false 1, .zero, 5, 1⟩

/-- A read that is called first and locks last. -/
def demoEvents : List (Monitor.Event ℕ Call) :=
  [.call 1 .getLatest, .call 0 (.update ⟨1, demoData⟩), .lock 0, .statement 0, .statement 0,
    .unlock 0, .lock 1, .statement 1, .ret 0, .statement 1, .unlock 1, .ret 1]

theorem cell_linearizable_demo : ∃ s,
    (monitor.machine ℕ).run (monitor.machine ℕ).init demoEvents = some s ∧
    s.history = [.called 1 .getLatest, .called 0 (.update ⟨1, demoData⟩), .returned 0 .updated,
      .returned 1 (.latest (some demoData))] ∧
    (∃ t, (atomic.machine ℕ).Reachable t ∧ t.history = s.history) ∧ Untorn s.history ∧
      ∀ i, s.mutex = some i →
        ∃ s', monitor.step s (.statement i) = some s' ∨ monitor.step s (.unlock i) = some s' := by
  obtain ⟨s, hs, hhistory⟩ : ∃ s,
      (monitor.machine ℕ).run (monitor.machine ℕ).init demoEvents = some s ∧
      s.history = [.called 1 .getLatest, .called 0 (.update ⟨1, demoData⟩), .returned 0 .updated,
        .returned 1 (.latest (some demoData))] := ⟨_, rfl, rfl⟩
  exact ⟨s, hs, hhistory, cell_linearizable (Machine.reachable_of_run hs)⟩

end SharedCoordinateState

end CoordinateStream
