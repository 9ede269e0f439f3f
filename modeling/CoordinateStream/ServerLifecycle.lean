import CoordinateStream.PublisherProcess

namespace CoordinateStream

/-! Calls of `WebSocketServer::stop` against the progress of `run`. -/

namespace WebSocketServer

/-- A call of `stop` completed, nothing asked the endpoint to stop, and `run` is on its way
into the event loop or inside it. -/
def Unstopped (s : WebSocketServer) : Prop :=
  (∃ i, s.calls i = .returned) ∧ s.stopRequested = false ∧ s.runPc ≠ .finished

/-- The next statement of the call ends it before `m_server.stop`: the test of `m_running`
fails, a `close` throws, or the endpoint does not listen. -/
def EndsEarly (s : WebSocketServer) (i : ℕ) (throws : Bool) : Prop :=
  match s.calls i with
  | .notCalled => s.running = false
  | .close (some _) => throws = true
  | .stopListening => s.listening = false
  | _ => False

/-- No call of `stop` ends early, unless the endpoint was asked to stop before or `run` has
returned. -/
def InTime (s : WebSocketServer) (e : Event) : Prop :=
  ∀ i throws, e = .stop i throws → s.EndsEarly i throws →
    s.stopRequested = true ∨ s.runPc = .finished

@[simp] theorem setCall_self (s : WebSocketServer) (i : ℕ) (pc : StopPc) :
    (s.setCall i pc).calls i = pc := Function.update_self _ _ _

theorem setCall_of_ne (s : WebSocketServer) {i j : ℕ} (pc : StopPc) (h : j ≠ i) :
    (s.setCall i pc).calls j = s.calls j := Function.update_of_ne h _ _

/-- What a statement of `stop` does: it goes on, it ends the call early, or it is the call of
`m_server.stop`. -/
theorem stopStep_cases {s t : WebSocketServer} {i : ℕ} {throws : Bool}
    (h : s.stopStep i throws = some t) :
    (¬s.EndsEarly i throws ∧ ∃ pc, pc ≠ .returned ∧ t.calls = Function.update s.calls i pc ∧
      t.stopRequested = s.stopRequested ∧ t.runPc = s.runPc) ∨
    (s.EndsEarly i throws ∧ t = s.setCall i .returned) ∨
    (¬s.EndsEarly i throws ∧ t = { s.setCall i .returned with stopRequested := true }) := by
  unfold stopStep at h
  unfold EndsEarly
  cases hc : s.calls i with
  | notCalled =>
    simp only [hc, Option.some.injEq] at h
    subst h
    by_cases hr : s.running = true
    · rw [if_pos hr]
      exact .inl ⟨by simp [hr], .clear, nofun, rfl, rfl, rfl⟩
    · rw [if_neg hr]
      exact .inr (.inl ⟨by simpa using hr, rfl⟩)
  | clear =>
    simp only [hc, Option.some.injEq] at h
    subst h
    exact .inl ⟨id, .close s.cast.connections.first, nofun, rfl, rfl, rfl⟩
  | close it =>
    cases it with
    | none =>
      simp only [hc, Option.some.injEq] at h
      subst h
      exact .inl ⟨id, .stopListening, nofun, rfl, rfl, rfl⟩
    | some conn =>
      simp only [hc, Option.some.injEq] at h
      subst h
      by_cases ht : throws = true
      · rw [if_pos ht]
        exact .inr (.inl ⟨ht, rfl⟩)
      · rw [if_neg ht]
        exact .inl ⟨ht, .close (s.cast.connections.next conn), nofun, rfl, rfl, rfl⟩
  | stopListening =>
    simp only [hc] at h
    by_cases hl : s.listening = true
    · rw [if_pos hl, Option.some.injEq] at h
      subst h
      exact .inl ⟨by simp [hl], .serverStop, nofun, rfl, rfl, rfl⟩
    · rw [if_neg hl, Option.some.injEq] at h
      subst h
      exact .inr (.inl ⟨by simpa using hl, rfl⟩)
  | serverStop =>
    simp only [hc, Option.some.injEq] at h
    subst h
    exact .inr (.inr ⟨id, rfl⟩)
  | returned => simp [hc] at h

/-- The handlers of the event loop leave the lifecycle alone. -/
theorem handler_frame {shared : SharedCoordinateState} {s t : WebSocketServer} {e : Event}
    (h : s.step shared e = some t) (hrun : ∀ ok, e ≠ .run ok)
    (hstop : ∀ i throws, e ≠ .stop i throws) :
    t.calls = s.calls ∧ t.stopRequested = s.stopRequested ∧ t.runPc = s.runPc ∧
      t.running = s.running := by
  cases e with
  | run ok => exact absurd rfl (hrun ok)
  | stop i throws => exact absurd rfl (hstop i throws)
  | onOpen | onClose | tick | emit =>
    simp only [step, Option.ite_none_right_eq_some, Option.some.injEq] at h
    rw [← h.2]
    exact ⟨rfl, rfl, rfl, rfl⟩

/-- A step leaves the server stoppable exactly when it is in time. -/
theorem step_unstopped_iff {shared : SharedCoordinateState} {s t : WebSocketServer} {e : Event}
    (hs : ¬s.Unstopped) (h : s.step shared e = some t) : ¬t.Unstopped ↔ s.InTime e := by
  by_cases hstop : ∃ i throws, e = .stop i throws
  · obtain ⟨i, throws, rfl⟩ := hstop
    rcases stopStep_cases h with ⟨hnot, pc, hpc, hcalls, hreq, hrun⟩ | ⟨hearly, rfl⟩ | ⟨hnot, rfl⟩
    · constructor
      · intro _ j b heq hearly
        cases heq
        exact absurd hearly hnot
      · rintro - ⟨⟨j, hj⟩, hreq', hrun'⟩
        refine hs ⟨⟨j, ?_⟩, hreq ▸ hreq', hrun ▸ hrun'⟩
        have hne : j ≠ i := by
          rintro rfl
          rw [hcalls, Function.update_self] at hj
          exact hpc hj
        rwa [hcalls, Function.update_of_ne hne] at hj
    · constructor
      · intro hnot j b heq _
        cases heq
        by_contra hor
        rw [not_or, Bool.not_eq_true] at hor
        exact hnot ⟨⟨i, setCall_self s i .returned⟩, hor.1, hor.2⟩
      · rintro htime ⟨-, hreq, hrun⟩
        rcases htime i throws rfl hearly with hreq' | hrun'
        · exact absurd (hreq.symm.trans hreq') (by decide)
        · exact hrun hrun'
    · constructor
      · intro _ j b heq hearly
        cases heq
        exact absurd hearly hnot
      · rintro - ⟨-, hreq, -⟩
        cases hreq
  · have htime : s.InTime e := fun i throws heq => absurd ⟨i, throws, heq⟩ hstop
    refine iff_of_true ?_ htime
    rintro ⟨⟨j, hj⟩, hreq, hrun⟩
    cases e with
    | run ok =>
      have hframe := runStep_frame h
      exact hs ⟨⟨j, hframe.calls ▸ hj⟩, hframe.stopRequested ▸ hreq, hframe.unfinished⟩
    | stop i throws => exact hstop ⟨i, throws, rfl⟩
    | onOpen | onClose | tick | emit =>
      obtain ⟨hcalls, hreq', hpc, -⟩ := handler_frame h nofun nofun
      exact hs ⟨⟨j, hcalls ▸ hj⟩, hreq' ▸ hreq, hpc ▸ hrun⟩

/-! ### A server that cannot be stopped any more -/

/-- `run` is under way with `m_running` cleared, no call of `stop` is in progress, and none
has reached the endpoint. -/
structure Stuck (s : WebSocketServer) : Prop where
  running : s.running = false
  started : s.runPc ≠ .notStarted
  idle : ∀ i, s.calls i = .notCalled ∨ s.calls i = .returned
  unstopped : s.stopRequested = false

/-- In a stuck server a call of `stop` is one test and nothing else. -/
theorem Stuck.stopStep {s t : WebSocketServer} {i : ℕ} {throws : Bool} (hs : s.Stuck)
    (h : s.stopStep i throws = some t) : t = s.setCall i .returned := by
  unfold WebSocketServer.stopStep at h
  rcases hs.idle i with hc | hc
  · simp only [hc, hs.running, Bool.false_eq_true, ↓reduceIte, Option.some.injEq] at h
    exact h.symm
  · simp [hc] at h

theorem runStep_started {s t : WebSocketServer} {ok : Bool} (h : s.runStep ok = some t)
    (hs : s.runPc ≠ .notStarted) : t.running = s.running ∧ t.runPc ≠ .notStarted := by
  unfold runStep at h
  cases hpc : s.runPc with
  | notStarted => exact absurd hpc hs
  | listen =>
    simp only [hpc] at h
    split_ifs at h
    · rw [← Option.some.inj h]
      exact ⟨rfl, nofun⟩
    · rw [← Option.some.inj h]
      exact ⟨rfl, nofun⟩
  | eventLoop =>
    simp only [hpc, Option.ite_none_right_eq_some] at h
    rw [← Option.some.inj h.2]
    exact ⟨rfl, nofun⟩
  | finished => simp [hpc] at h
  | initAsio | startAccept =>
    simp only [hpc, Option.some.injEq] at h
    rw [← h]
    refine ⟨rfl, ?_⟩
    dsimp only
    split_ifs <;> exact nofun
  | setHandlers | schedule | enterLoop =>
    simp only [hpc, Option.some.injEq] at h
    rw [← h]
    exact ⟨rfl, nofun⟩

theorem Stuck.step {shared : SharedCoordinateState} {s t : WebSocketServer} {e : Event}
    (hs : s.Stuck) (h : s.step shared e = some t) : t.Stuck := by
  cases e with
  | run ok =>
    have hframe := runStep_frame h
    obtain ⟨hrunning, hpc⟩ := runStep_started h hs.started
    exact ⟨hrunning.trans hs.running, hpc, hframe.calls ▸ hs.idle,
      hframe.stopRequested.trans hs.unstopped⟩
  | stop i throws =>
    rw [hs.stopStep h]
    refine ⟨hs.running, hs.started, fun j => ?_, hs.unstopped⟩
    by_cases hj : j = i
    · rw [hj, setCall_self]
      exact .inr rfl
    · rw [setCall_of_ne s _ hj]
      exact hs.idle j
  | onOpen | onClose | tick | emit =>
    obtain ⟨hcalls, hreq, hpc, hrunning⟩ := handler_frame h nofun nofun
    exact ⟨hrunning.trans hs.running, hpc ▸ hs.started, hcalls ▸ hs.idle,
      hreq.trans hs.unstopped⟩

end WebSocketServer

namespace PublisherProcess

/-- The steps of the server are in time. -/
def StopsInTime (s : PublisherProcess) (e : Event) : Prop :=
  ∀ a, e = .server a → s.server.InTime a

theorem step_unstopped_iff {s t : PublisherProcess} {e : Event} (hs : ¬s.server.Unstopped)
    (h : machine.step s e = some t) : ¬t.server.Unstopped ↔ s.StopsInTime e := by
  rcases step_cases h with ⟨a, p, u, rfl, -, rfl⟩ | ⟨a, p, rfl, -, rfl⟩ | ⟨a, w, rfl, hw, rfl⟩
  · exact iff_of_true hs (fun _ ha => nomatch ha)
  · exact iff_of_true hs (fun _ ha => nomatch ha)
  · rw [WebSocketServer.step_unstopped_iff hs hw]
    constructor
    · intro htime b hb
      cases hb
      exact htime
    · exact fun htime => htime a rfl

/-- A run never passes a completed `stop` without a stop request while `run` goes on exactly
when all its steps are in time. -/
theorem stoppable_iff_inTime {es : List Event} {s : PublisherProcess}
    (h : machine.run init es = some s) :
    machine.Along (fun u => ¬u.server.Unstopped) init es ↔
      machine.Meets StopsInTime init es :=
  Machine.along_iff_meets (I := fun _ => True) (fun _ _ _ => trivial)
    (fun _ hs hst => step_unstopped_iff hs hst) trivial
    (fun hu => absurd hu.1 (by simp [init, WebSocketServer.init])) h

/-- The whole of `run` up to its event loop. -/
def serverEvents : List Event := (List.replicate 7 (.run true)).map .server

/-- The whole of a call of `stop` without connections. -/
def stopEvents : List Event := (List.replicate 5 (.stop 0 false)).map .server

theorem stoppable_demo : ∃ s, machine.run init (serverEvents ++ stopEvents) = some s ∧
    s.server.calls 0 = .returned ∧ s.server.stopRequested = true ∧
    (machine.Along (fun u => ¬u.server.Unstopped) init (serverEvents ++ stopEvents) ↔
      machine.Meets StopsInTime init (serverEvents ++ stopEvents)) := by
  obtain ⟨s, hs, hc, hr⟩ : ∃ s, machine.run init (serverEvents ++ stopEvents) = some s ∧
      s.server.calls 0 = .returned ∧ s.server.stopRequested = true := ⟨_, rfl, rfl, rfl⟩
  exact ⟨s, hs, hc, hr, stoppable_iff_inTime hs⟩

theorem run_stuck {s t : PublisherProcess} {es : List Event} (hs : s.server.Stuck)
    (h : machine.run s es = some t) : t.server.Stuck := by
  refine Machine.run_invariant (I := fun u => u.server.Stuck) ?_ hs h
  intro u v e hu huv
  rcases step_cases huv with ⟨a, p, d, -, -, rfl⟩ | ⟨a, p, -, -, rfl⟩ | ⟨a, w, -, hw, rfl⟩
  · exact hu
  · exact hu
  · exact hu.step hw

/-- A `stop` between the first statement of `run` and `listen` returns, the event loop is
entered after it, and no later call of `stop` ever reaches the endpoint. -/
theorem unstoppable_after_early_stop : ∃ s, machine.Reachable s ∧ s.server.Unstopped ∧
    s.server.runPc = .eventLoop ∧
    ∀ es t, machine.run s es = some t → t.server.stopRequested = false := by
  obtain ⟨s, hs, hun, hpc, hstuck⟩ : ∃ s, machine.run init
      ([.server (.run true)] ++ (List.replicate 4 (.server (.stop 0 false))) ++
        List.replicate 6 (.server (.run true))) = some s ∧ s.server.Unstopped ∧
      s.server.runPc = .eventLoop ∧ s.server.Stuck := by
    refine ⟨_, rfl, ⟨⟨0, rfl⟩, rfl, nofun⟩, rfl, rfl, nofun, fun i => ?_, rfl⟩
    cases i with
    | zero => exact .inr rfl
    | succ n => exact .inl rfl
  exact ⟨s, Machine.reachable_of_run hs, hun, hpc, fun es t h => (run_stuck hstuck h).unstopped⟩

end PublisherProcess

end CoordinateStream
