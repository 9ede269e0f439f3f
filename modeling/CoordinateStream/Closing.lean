import CoordinateStream.Emission
import CoordinateStream.ServerLifecycle

namespace CoordinateStream

/-! A whole call of `WebSocketServer::stop` against closes that throw. -/

namespace WebSocketServer

/-- The loop over the connections: the closes it attempts, and whether none of them threw.
The first that throws leaves the loop, and the `try` block around it. -/
def closeAll (fails : ConnectionHdl → Bool) : List ConnectionHdl → List ConnectionHdl × Bool
  | [] => ([], true)
  | conn :: rest =>
    if fails conn then ([conn], false)
    else (conn :: (closeAll fails rest).1, (closeAll fails rest).2)

/-- A call of `stop` with nothing in between, and the closes it attempts. -/
def stopCall (fails : ConnectionHdl → Bool) (s : WebSocketServer) :
    WebSocketServer × List ConnectionHdl :=
  if s.running then
    let (attempted, closed) := closeAll fails s.cast.connections.toList
    -- `stop_listening` throws as well where the endpoint does not listen
    if closed && s.listening then
      ({ s with running := false, listening := false, stopRequested := true }, attempted)
    else ({ s with running := false }, attempted)
  else (s, [])

/-- Every connection was tried, the endpoint no longer listens and the event loop was told
to stop. -/
structure StopComplete (s t : WebSocketServer) (attempted : List ConnectionHdl) : Prop where
  attempted_eq : attempted = s.cast.connections.toList
  listening : t.listening = false
  stopRequested : t.stopRequested = true

theorem closeAll_of_forall {fails : ConnectionHdl → Bool} {l : List ConnectionHdl}
    (h : ∀ conn ∈ l, fails conn = false) : closeAll fails l = (l, true) := by
  induction l with
  | nil => rfl
  | cons conn rest ih =>
    have hrest := ih fun k hk => h k (List.mem_cons_of_mem _ hk)
    rw [closeAll, if_neg (by simp [h conn List.mem_cons_self]), hrest]

theorem closeAll_of_exists {fails : ConnectionHdl → Bool} {l : List ConnectionHdl}
    (h : ∃ conn ∈ l, fails conn = true) : (closeAll fails l).2 = false := by
  induction l with
  | nil => simp at h
  | cons conn rest ih =>
    by_cases hc : fails conn = true
    · rw [closeAll, if_pos hc]
    · rw [closeAll, if_neg hc]
      obtain ⟨k, hk, hfails⟩ := h
      rcases List.mem_cons.mp hk with rfl | hk
      · exact (hc hfails).elim
      · exact ih ⟨k, hk, hfails⟩

/-- A call of `stop` on a running server that listens is complete exactly when no close of
one of its connections throws. -/
theorem stopCall_complete_iff {s : WebSocketServer} (hr : s.running = true)
    (hl : s.listening = true) (fails : ConnectionHdl → Bool) :
    StopComplete s (s.stopCall fails).1 (s.stopCall fails).2 ↔
      ∀ conn ∈ s.cast.connections, fails conn = false := by
  unfold stopCall
  rw [if_pos hr]
  constructor
  · intro h conn hconn
    by_contra hf
    have hclosed := closeAll_of_exists ⟨conn, hconn, Bool.not_eq_false _ ▸ hf⟩
    have hlistening := h.listening
    simp only [hclosed, Bool.false_and, Bool.false_eq_true, ↓reduceIte, hl] at hlistening
    cases hlistening
  · intro h
    rw [closeAll_of_forall h]
    simp only [hl, Bool.and_self, ↓reduceIte]
    exact ⟨rfl, rfl, rfl⟩

theorem stopComplete_demo : ∃ s : WebSocketServer, s.running = true ∧
    s.listening = true ∧ s.cast.connections.toList = [1, 2] ∧
    (StopComplete s (s.stopCall (· = 2)).1 (s.stopCall (· = 2)).2 ↔
      ∀ conn ∈ s.cast.connections, decide (conn = 2) = false) :=
  ⟨{ init with
      running := true
      listening := true
      cast := (Broadcaster.init.onOpen 1).onOpen 2 }, rfl, rfl, rfl,
    stopCall_complete_iff rfl rfl _⟩

/-! ### The call as the events of one thread -/

/-- The events of the loop over the connections. -/
def closeEvents (i : ℕ) (fails : ConnectionHdl → Bool) (attempted : List ConnectionHdl) :
    List Event := attempted.map fun conn => .stop i (fails conn)

theorem setCall_setCall (s : WebSocketServer) (i : ℕ) (pc pc' : StopPc) :
    (s.setCall i pc).setCall i pc' = s.setCall i pc' := by
  simp [setCall]

theorem setCall_cast (s : WebSocketServer) (i : ℕ) (pc : StopPc) :
    (s.setCall i pc).cast = s.cast := rfl

end WebSocketServer

namespace PublisherProcess

open WebSocketServer (closeAll closeEvents setCall setCall_self setCall_setCall setCall_cast)

/-- Each close that is attempted is one event; the call is over where one of them throws. -/
theorem run_closeAll (s : PublisherProcess) (i : ℕ) (fails : ConnectionHdl → Bool)
    {before l : List ConnectionHdl} (hl : s.server.cast.connections.toList = before ++ l) :
    machine.run { s with server := s.server.setCall i (.close l.head?) }
        ((closeEvents i fails (closeAll fails l).1).map .server) =
      some { s with
        server := s.server.setCall i (if (closeAll fails l).2 then .close none else .returned) } := by
  induction l generalizing before with
  | nil => rfl
  | cons conn rest ih =>
    have hnext := Connections.next_eq hl
    have hstep : machine.step { s with server := s.server.setCall i (.close (some conn)) }
        (.server (.stop i (fails conn))) = some { s with
          server := s.server.setCall i (if fails conn then .returned else .close rest.head?) } := by
      simp only [machine, step, WebSocketServer.step, WebSocketServer.stopStep, setCall_self,
        setCall_setCall, setCall_cast, hnext, Option.map_some]
    by_cases hc : fails conn = true
    · rw [closeAll, if_pos hc]
      rw [if_pos hc] at hstep
      exact machine.run_cons_eq_some.mpr ⟨_, hstep, rfl⟩
    · rw [closeAll, if_neg hc]
      rw [if_neg hc] at hstep
      have hsplit : s.server.cast.connections.toList = (before ++ [conn]) ++ rest := by
        rw [hl, List.append_assoc]
        rfl
      exact machine.run_cons_eq_some.mpr ⟨_, hstep, ih hsplit⟩

/-- The thread of a call of `stop`, left alone, does what `stopCall` says. -/
theorem run_stopCall {s : PublisherProcess} {i : ℕ} (hi : s.server.calls i = .notCalled)
    (hr : s.server.running = true) (fails : ConnectionHdl → Bool) :
    ∃ tail : List WebSocketServer.Event,
      machine.run s ((List.replicate 2 (WebSocketServer.Event.stop i false) ++
        closeEvents i fails (s.server.stopCall fails).2 ++ tail).map .server) =
      some { s with server := (s.server.stopCall fails).1.setCall i .returned } := by
  have hattempted : (s.server.stopCall fails).2 =
      (closeAll fails s.server.cast.connections.toList).1 := by
    simp only [WebSocketServer.stopCall, if_pos hr]
    split_ifs <;> rfl
  have hfirst : machine.run s [.server (.stop i false), .server (.stop i false)] =
      some { s with
        server := { s.server with running := false }.setCall i
          (.close s.server.cast.connections.first) } := by
    simp [Machine.run, machine, step, WebSocketServer.step, WebSocketServer.stopStep, hi, hr,
      setCall]
  have hclose := run_closeAll { s with server := { s.server with running := false } } i fails
    (List.nil_append s.server.cast.connections.toList).symm
  have hrun := machine.run_trans hfirst hclose
  simp only [hattempted, List.map_append]
  cases hc : (closeAll fails s.server.cast.connections.toList).2 with
  | false =>
    refine ⟨[], ?_⟩
    simp only [List.map_nil, List.append_nil]
    apply hrun.trans
    simp [WebSocketServer.stopCall, hr, hc]
  | true =>
    cases hl : s.server.listening with
    | false =>
      refine ⟨[.stop i false, .stop i false], machine.run_trans hrun ?_⟩
      simp [Machine.run, machine, step, WebSocketServer.step, WebSocketServer.stopStep, hc, hl,
        setCall, WebSocketServer.stopCall, hr]
    | true =>
      refine ⟨[.stop i false, .stop i false, .stop i false], machine.run_trans hrun ?_⟩
      simp [Machine.run, machine, step, WebSocketServer.step, WebSocketServer.stopStep, hc, hl,
        setCall, WebSocketServer.stopCall, hr]

/-- The first of two clients is gone: its close throws, the other client is not closed, the
server still listens, and no later call of `stop` ever reaches the endpoint. -/
theorem incomplete_after_close : ∃ s : PublisherProcess, machine.Reachable s ∧
    s.server.running = true ∧ s.server.listening = true ∧
    s.server.cast.connections.toList = [1, 2] ∧
    ¬WebSocketServer.StopComplete s.server (s.server.stopCall (· = 1)).1
      (s.server.stopCall (· = 1)).2 ∧
    (s.server.stopCall (· = 1)).2 = [1] ∧ (s.server.stopCall (· = 1)).1.Stuck := by
  obtain ⟨s, hs, hr, hl, hc, hpc, hcalls, hreq⟩ : ∃ s, machine.run init
      (startEvents ++ [.server (.onOpen 2)]) = some s ∧ s.server.running = true ∧
      s.server.listening = true ∧ s.server.cast.connections.toList = [1, 2] ∧
      s.server.runPc = .eventLoop ∧ s.server.calls = (fun _ => .notCalled) ∧
      s.server.stopRequested = false := ⟨_, rfl, rfl, rfl, rfl, rfl, rfl, rfl⟩
  have hcall : s.server.stopCall (· = 1) = ({ s.server with running := false }, [1]) := by
    simp [WebSocketServer.stopCall, hr, hc, closeAll]
  refine ⟨s, Machine.reachable_of_run hs, hr, hl, hc, ?_, by rw [hcall], ?_⟩
  · intro hcomplete
    have hattempted := hcomplete.attempted_eq
    rw [hcall, hc] at hattempted
    cases hattempted
  · rw [hcall]
    exact ⟨rfl, by rw [hpc]; exact nofun, fun i => .inl (by rw [hcalls]), hreq⟩

end PublisherProcess

end CoordinateStream
