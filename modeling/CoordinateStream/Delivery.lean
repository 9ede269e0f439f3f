import CoordinateStream.Clients
import CoordinateStream.Freshness
import CoordinateStream.MatchGate
import CoordinateStream.ServerLifecycle
import CoordinateStream.Lib.Ranking

namespace CoordinateStream

/-! What arrives in the end: on fair executions the consumers get on with the updates. -/

/-! ### The clients of the server -/

namespace WebSocketServer

/-- `run` waits in the event loop and no call of `stop` has got hold of it. -/
structure Live (s : WebSocketServer) : Prop where
  loop : s.runPc = .eventLoop
  running : s.running = true
  unstopped : s.stopRequested = false

/-- A running server that is past the first `schedule` has a tick to come. -/
def Armed (s : WebSocketServer) : Prop :=
  s.runPc = .enterLoop ∨ s.runPc = .eventLoop → s.running = true →
    s.timerArmed = true ∨ s.inTick = true

theorem stopStep_timer {s t : WebSocketServer} {i : ℕ} {throws : Bool}
    (h : s.stopStep i throws = some t) :
    t.timerArmed = s.timerArmed ∧ (t.running = true → s.running = true) := by
  unfold stopStep at h
  cases hc : s.calls i with
  | close it =>
    cases it with
    | none | some =>
      simp only [hc, Option.some.injEq] at h
      rw [← h]
      exact ⟨rfl, id⟩
  | stopListening =>
    simp only [hc] at h
    split_ifs at h <;> cases h <;> exact ⟨rfl, id⟩
  | notCalled | serverStop =>
    simp only [hc, Option.some.injEq] at h
    rw [← h]
    exact ⟨rfl, id⟩
  | clear =>
    simp only [hc, Option.some.injEq] at h
    rw [← h]
    exact ⟨rfl, by simp⟩
  | returned => simp [hc] at h

theorem runStep_armed {s t : WebSocketServer} {ok : Bool} (hs : s.Armed)
    (h : s.runStep ok = some t) : t.Armed := by
  unfold runStep at h
  cases hpc : s.runPc with
  | schedule =>
    simp only [hpc, Option.some.injEq] at h
    rw [← h]
    exact fun _ _ => .inl rfl
  | enterLoop =>
    simp only [hpc, Option.some.injEq] at h
    rw [← h]
    exact fun _ hr => hs (.inl hpc) hr
  | eventLoop =>
    simp only [hpc, Option.ite_none_right_eq_some, Option.some.injEq] at h
    rw [← h.2]
    simp [Armed]
  | listen =>
    simp only [hpc] at h
    split_ifs at h <;> cases h <;> simp [Armed]
  | notStarted | setHandlers =>
    simp only [hpc, Option.some.injEq] at h
    subst h
    simp [Armed]
  | initAsio | startAccept =>
    simp only [hpc, Option.some.injEq] at h
    subst h
    cases ok <;> simp [Armed]
  | finished => simp [hpc] at h

theorem step_armed {shared : SharedCoordinateState} {s t : WebSocketServer} {e : Event}
    (hs : s.Armed) (h : s.step shared e = some t) : t.Armed := by
  cases e with
  | run ok => exact runStep_armed hs h
  | stop i throws =>
    obtain ⟨htimer, hrunning⟩ := stopStep_timer h
    have hframe := stopStep_frame h
    intro hpc hr
    rw [htimer, hframe.inTick]
    exact hs (hframe.runPc ▸ hpc) (hrunning hr)
  | onOpen k | onClose k =>
    simp only [step, Option.ite_none_right_eq_some, Option.some.injEq] at h
    rw [← h.2]
    exact hs
  | tick =>
    simp only [step, Option.ite_none_right_eq_some, Option.some.injEq] at h
    rw [← h.2]
    intro _ hr
    have hr' : s.running = true := hr
    cases hw : s.cast.wants shared <;> simp [hr']
  | emit fails =>
    simp only [step, Option.ite_none_right_eq_some, Option.some.injEq] at h
    rw [← h.2]
    exact fun _ _ => .inl rfl

theorem tick_eq {shared : SharedCoordinateState} {s t : WebSocketServer}
    (h : s.step shared .tick = some t) :
    s.inTick = false ∧ t.cast = s.cast ∧ t.inTick = (s.running && s.cast.wants shared) := by
  simp only [step, takesHandler, Option.ite_none_right_eq_some, Option.some.injEq,
    Bool.and_eq_true, Bool.not_eq_true'] at h
  obtain ⟨⟨⟨-, hidle⟩, -⟩, rfl⟩ := h
  exact ⟨hidle, rfl, rfl⟩

/-- The statements of the handler of the timer. -/
def Event.isTick : Event → Bool
  | .tick | .emit _ => true
  | _ => false

/-- A live server has a statement of the handler to execute, now or when the timer is due. -/
theorem Live.exists_tick {s : WebSocketServer} (h : s.Live) (harmed : s.Armed)
    (shared : SharedCoordinateState) : ∃ e, e.isTick = true ∧ (s.step shared e).isSome := by
  obtain ⟨hloop, hrunning, hunstopped⟩ := h
  cases htick : s.inTick with
  | true => exact ⟨.emit fun _ => false, rfl, by simp [step, htick]⟩
  | false =>
    have htimer := (harmed (.inr hloop) hrunning).resolve_right (by simp [htick])
    exact ⟨.tick, rfl, by simp [step, takesHandler, hloop, hunstopped, htick, htimer]⟩

end WebSocketServer

namespace PublisherProcess

/-- The server is live, serves this client, and the sequence has not wrapped. -/
structure Serves (s : PublisherProcess) (h : ConnectionHdl) : Prop where
  live : s.server.Live
  registered : h ∈ s.server.cast.connections
  narrow : s.shared.updates.length < 2 ^ 32

/-- The update `k` or a later one was broadcast, and it has arrived at the client unless the
send to this client threw. -/
def Served (s : PublisherProcess) (h : ConnectionHdl) (k : ℕ) : Prop :=
  ∃ e fails, WebSocketServer.LoopEvent.broadcast e fails ∈ s.server.cast.history ∧
    k ≤ e.number ∧ (fails h = false → e.item.toJson ∈ s.server.cast.received h)

/-- The server has the update `k` or a later one still to broadcast. -/
structure Owes (k : ℕ) (s : PublisherProcess) : Prop where
  reachable : machine.Reachable s
  behind : Sampler.lastNumber s.server.cast.broadcasts < k
  made : k ≤ s.shared.updates.length

def isTick : Event → Bool
  | .server e => e.isTick
  | _ => false

/-- The steps of the handler until it has broadcast. -/
def ticksLeft (s : PublisherProcess) : ℕ := if s.server.inTick then 1 else 2

theorem armed_of_reachable {s : PublisherProcess} (h : machine.Reachable s) : s.server.Armed := by
  apply h.invariant (I := fun s => s.server.Armed)
  · intro hpc
    simp [machine, init, WebSocketServer.init] at hpc
  · intro s t e _ hs _ ht
    rcases step_cases ht with ⟨a, p, u, -, -, rfl⟩ | ⟨a, p, -, -, rfl⟩ | ⟨a, w, -, hw, rfl⟩
    · exact hs
    · exact hs
    · exact WebSocketServer.step_armed hs hw

theorem step_updates {s t : PublisherProcess} {e : Event} (h : machine.step s e = some t) :
    s.shared.updates <+: t.shared.updates := by
  rcases step_cases h with ⟨a, p, u, -, -, rfl⟩ | ⟨a, p, -, -, rfl⟩ | ⟨a, w, -, -, rfl⟩
  · rw [storeUpdate_updates]
    exact List.prefix_append _ _
  · exact List.prefix_rfl
  · exact List.prefix_rfl

/-- The latest update is above the cursor of a consumer that has not come to `k`. -/
theorem latest_above {s : PublisherProcess} (h : machine.Reachable s) {k : ℕ}
    (hmade : k ≤ s.shared.updates.length) (hnarrow : s.shared.updates.length < 2 ^ 32)
    {taken : List (Sampler.Entry CoordinateData)} {cursor : UInt32}
    (hs : Sampler.Inv sequenceKey 0 s.shared.updates taken cursor.toNat)
    (hbehind : Sampler.lastNumber taken < k) : cursor < s.shared.latest.sequence := by
  obtain ⟨hprod, -, -⟩ := inv_of_reachable h
  rw [UInt32.lt_iff_toNat_lt, hprod.numbered.latest, hprod.numbered.cursor hs,
    Nat.mod_eq_of_lt hnarrow, Nat.mod_eq_of_lt (by omega)]
  omega

theorem hasData_of_made {s : PublisherProcess} (h : machine.Reachable s)
    (hpos : 0 < s.shared.updates.length) (hnarrow : s.shared.updates.length < 2 ^ 32) :
    s.shared.hasData = true := by
  obtain ⟨hprod, -, -⟩ := inv_of_reachable h
  have hlatest := hprod.numbered.latest
  rw [Nat.mod_eq_of_lt hnarrow] at hlatest
  simp only [SharedCoordinateState.hasData, decide_eq_true_eq, UInt32.lt_iff_toNat_lt, hlatest]
  exact hpos

/-- A handler that is past its conditions broadcasts the latest update to the client. -/
theorem emit_served {s : PublisherProcess} {h : ConnectionHdl} {k : ℕ} (hs : s.Owes k)
    (hserves : s.Serves h) {w : WebSocketServer} {fails : ConnectionHdl → Bool}
    (hw : s.server.step s.shared (.emit fails) = some w) :
    Served { s with server := w } h k := by
  obtain ⟨-, -, hserver⟩ := inv_of_reachable hs.reachable
  have hfresh := latest_above hs.reachable hs.made hserves.narrow hserver.sampler hs.behind
  simp only [WebSocketServer.step, Option.ite_none_right_eq_some, Option.some.injEq] at hw
  obtain ⟨-, rfl⟩ := hw
  refine ⟨s.shared.read, fails, ?_, hs.made, fun hf => ?_⟩
  · simp [WebSocketServer.Broadcaster.broadcastLatest, SharedCoordinateState.getLatest, hfresh]
  · have hreceived := s.server.cast.broadcast_apply s.shared.getLatest.toJson fails h
    rw [if_pos ⟨hserves.registered, hf⟩] at hreceived
    have hcast : (s.server.cast.broadcastLatest s.shared fails).received h =
        s.server.cast.broadcast s.shared.getLatest.toJson fails h := by
      rw [WebSocketServer.Broadcaster.broadcastLatest, SharedCoordinateState.getLatest,
        if_pos hfresh]
    show s.shared.latest.toJson ∈ (s.server.cast.broadcastLatest s.shared fails).received h
    rw [hcast, hreceived]
    exact List.mem_append_right _ List.mem_cons_self

theorem serving_step {s : PublisherProcess} {h : ConnectionHdl} {k : ℕ} (hs : s.Owes k)
    (hserves : s.Serves h) {w : WebSocketServer} {a : WebSocketServer.Event}
    (ht : machine.step s (.server a) = some { s with server := w })
    (hw : s.server.step s.shared a = some w) :
    Served { s with server := w } h k ∨ Owes k { s with server := w } ∧
      ticksLeft { s with server := w } ≤ s.ticksLeft ∧
      (a.isTick = true → ticksLeft { s with server := w } < s.ticksLeft) := by
  have hkeep (hcast : w.cast.broadcasts = s.server.cast.broadcasts) :
      Owes k { s with server := w } :=
    ⟨hs.reachable.step ht, by simpa [hcast] using hs.behind, hs.made⟩
  have hsame (hcast : w.cast.broadcasts = s.server.cast.broadcasts)
      (htick : w.inTick = s.server.inTick) (ha : a.isTick = false) :
      Owes k { s with server := w } ∧ ticksLeft { s with server := w } ≤ s.ticksLeft ∧
        (a.isTick = true → ticksLeft { s with server := w } < s.ticksLeft) := by
    refine ⟨hkeep hcast, ?_, ?_⟩
    · simp [ticksLeft, htick]
    · simp [ha]
  cases a with
  | emit fails => exact .inl (emit_served hs hserves hw)
  | tick =>
    -- there is data and a client, so the handler goes on to its broadcast
    have hdata := hasData_of_made hs.reachable (by have := hs.behind; have := hs.made; omega)
      hserves.narrow
    have hne : s.server.cast.connections.toList ≠ [] := List.ne_nil_of_mem hserves.registered
    have hwants : s.server.cast.wants s.shared = true := by
      simp [WebSocketServer.Broadcaster.wants, hdata, hne]
    obtain ⟨hidle, hcast, htick⟩ := WebSocketServer.tick_eq hw
    rw [hserves.live.running, hwants, Bool.and_self] at htick
    have hlt : ticksLeft { s with server := w } < s.ticksLeft := by
      simp [ticksLeft, hidle, htick]
    exact .inr ⟨hkeep (by rw [hcast]), hlt.le, fun _ => hlt⟩
  | run ok =>
    have hframe := WebSocketServer.runStep_frame hw
    exact .inr (hsame (by rw [hframe.cast]) hframe.inTick rfl)
  | stop i throws =>
    have hframe := WebSocketServer.stopStep_frame hw
    exact .inr (hsame (by rw [hframe.cast]) hframe.inTick rfl)
  | onOpen c | onClose c =>
    simp only [WebSocketServer.step, Option.ite_none_right_eq_some, Option.some.injEq] at hw
    obtain ⟨-, rfl⟩ := hw
    exact .inr (hsame (by simp) rfl rfl)

/-- A live server gets on with what it owes to a client. -/
theorem serving (h : ConnectionHdl) (k : ℕ) : machine.Progress (fun _ _ => True) (Owes k)
    (fun _ e => isTick e = true) ticksLeft fun s => ¬s.Serves h ∨ s.Served h k where
  step := by
    intro s t a hs hnot _ ht
    obtain ⟨hserves, -⟩ := not_or.mp hnot
    have hserves := not_not.mp hserves
    have hmade := hs.made.trans (step_updates ht).length_le
    have hreach := hs.reachable.step ht
    rcases step_cases ht with ⟨a, p, u, rfl, -, rfl⟩ | ⟨a, p, rfl, -, rfl⟩ | ⟨a, w, rfl, hw, rfl⟩
    · exact .inr ⟨⟨hreach, hs.behind, hmade⟩, le_refl _, by simp [isTick]⟩
    · exact .inr ⟨⟨hreach, hs.behind, hmade⟩, le_refl _, by simp [isTick]⟩
    · rcases serving_step hs hserves ht hw with hserved | hkept
      · exact .inl (.inr hserved)
      · exact .inr hkept
  enabled := by
    intro s hs hnot
    obtain ⟨hserves, -⟩ := not_or.mp hnot
    have hlive := (not_not.mp hserves).live
    obtain ⟨a, ha, hstep⟩ :=
      hlive.exists_tick (armed_of_reachable hs.reachable) s.shared
    obtain ⟨w, hw⟩ := Option.isSome_iff_exists.mp hstep
    exact ⟨.server a, { s with server := w }, ha, by simp [machine, step, hw]⟩

/-- On a fair execution every client is served what was made, or a later update, unless the
server or the client goes away first or the sequence wraps. -/
theorem client_served {x : machine.Execution} (hfair : x.Fair isTick) {n k : ℕ}
    (hr : machine.Reachable (x.state n))
    (hbehind : Sampler.lastNumber (x.state n).server.cast.broadcasts < k)
    (hmade : k ≤ (x.state n).shared.updates.length) (h : ConnectionHdl) :
    ∃ m, n ≤ m ∧ (¬(x.state m).Serves h ∨ (x.state m).Served h k) :=
  (serving h k).exists_done hfair.just (fun _ _ _ _ => trivial) ⟨hr, hbehind, hmade⟩

/-- An update is broadcast to the only client, and the event loop ends with an error. -/
def servedEvents : List Event :=
  [.tick, .emit fun _ => false, .run false].map .server

theorem client_served_demo : ∃ x : machine.Execution, ∃ n, x.Fair isTick ∧
    (x.state n).Serves 1 ∧ Sampler.lastNumber (x.state n).server.cast.broadcasts = 0 ∧
    ∃ m, n ≤ m ∧ (¬(x.state m).Serves 1 ∨ (x.state m).Served 1 1) := by
  obtain ⟨s, t, hs, ht, hlive, hmem, hlast, hlen, hidle, hend⟩ : ∃ s t,
      machine.run init (startEvents ++ tickEvents .zero .zero 5) = some s ∧
      machine.run init (startEvents ++ tickEvents .zero .zero 5 ++ servedEvents) = some t ∧
      s.server.Live ∧ 1 ∈ s.server.cast.connections ∧
      Sampler.lastNumber s.server.cast.broadcasts = 0 ∧ s.shared.updates.length = 1 ∧
      t.server.inTick = false ∧ t.server.runPc = .finished :=
    ⟨_, _, rfl, rfl, ⟨rfl, rfl, rfl⟩, by decide, rfl, rfl, rfl, rfl⟩
  have hstate := Machine.Execution.ofRun_state ht hs
  have hfair : (Machine.Execution.ofRun ht).Fair isTick := by
    apply Machine.Execution.ofRun_fair
    intro a u ha
    cases a with
    | server a =>
      cases a <;> simp [isTick, WebSocketServer.Event.isTick, machine, step,
        WebSocketServer.step, WebSocketServer.takesHandler, hidle, hend] at ha ⊢
    | _ => cases ha
  refine ⟨_, (startEvents ++ tickEvents .zero .zero 5).length, hfair, ?_, ?_,
    client_served (k := 1) hfair ?_ ?_ ?_ 1⟩
  all_goals rw [hstate]
  · exact ⟨hlive, hmem, by rw [hlen]; decide⟩
  · exact hlast
  · exact Machine.reachable_of_run hs
  · rw [hlast]
    decide
  · exact hlen.ge

end PublisherProcess

/-! ### The writes of the publisher -/

namespace MessengerPublisherApp

/-- Where the thread sleeps in the untimed wait, a callback has still to notify it. -/
def Woken (p : MessengerPublisherApp) : Prop := p.pc = .waitBlocked → 0 < p.matchNotifying

/-- The statements of `run`, the end of its timed wait, and the notifications it waits for. -/
def Event.isTurn : Event → Bool
  | .thread _ | .timeout | .matchedNotify => true
  | _ => false

/-- Whether an event reports a further reader. -/
def Event.IsMatch (e : Event) : Prop := ∃ info, e = .matched info ∧ info.currentCountChange = 1

/-- The steps from a place of `run` to the next read of the cell. -/
def Pc.toRead : Pc → ℕ
  | .waitBlocked | .finished => 0
  | .read => 1
  | .waited => 2
  | .waitTest | .waitBlock => 3
  | .publish => 4
  | .loop => 5
  | .notStarted | .periodBlocked => 6
  | .periodBlock => 7
  | .periodTest => 8
  | .returned _ => 9
  | .write _ => 10

/-- A notification may send the thread back to the test of a wait, so that each one still to
come weighs more than that. -/
def turnsLeft (p : MessengerPublisherApp) : ℕ := p.pc.toRead + 4 * p.matchNotifying

/-- With an open gate and fresh data each statement of `run` leads on to the next read, which
takes the latest update in hand. -/
theorem threadStep_turn {shared : SharedCoordinateState} {ok : Bool} {p q : MessengerPublisherApp}
    (hstop : p.stop = false) (hmatched : 0 < p.matched) (hstands : p.TestStands)
    (hdata : shared.hasData = true) (hfresh : p.lastPublishedSequence < shared.latest.sequence)
    (h : p.threadStep shared ok = some q) :
    q.pc = .write shared.read ∨ q.Woken ∧ q.turnsLeft < p.turnsLeft := by
  have hframe := (threadStep_frame h).matchNotifying
  have hturn (hblocked : q.pc ≠ .waitBlocked) (hlt : q.pc.toRead < p.pc.toRead) :
      q.Woken ∧ q.turnsLeft < p.turnsLeft := by
    refine ⟨fun hpc => absurd hpc hblocked, ?_⟩
    rw [turnsLeft, turnsLeft, hframe]
    omega
  unfold threadStep at h
  cases hpc : p.pc with
  | read =>
    have hle : ¬shared.getLatest.sequence ≤ p.lastPublishedSequence := UInt32.not_le.mpr hfresh
    simp only [hpc, hle, ↓reduceIte, Option.some.injEq] at h
    exact .inl (by rw [← h])
  | waitBlock =>
    have := hstands hpc
    omega
  | waitBlocked | periodBlocked | finished => simp [hpc] at h
  | notStarted | loop | publish | waitTest | waited | write | returned | periodTest
  | periodBlock =>
    simp only [hpc, Option.some.injEq] at h
    refine .inr (hturn ?_ ?_)
    · simp [← h, hstop, hmatched, hdata]
    · simp [← h, hpc, hstop, hmatched, hdata, Pc.toRead]

theorem notifyOne_toRead (p : MessengerPublisherApp) :
    p.notifyOne.pc ≠ .waitBlocked ∧ p.notifyOne.pc.toRead ≤ p.pc.toRead + 3 := by
  unfold notifyOne
  cases p.pc <;> simp [Pc.toRead]

/-- The gate is open for good: no further reader is reported, and the thread gets nearer to
its next read. -/
theorem step_turn {shared : SharedCoordinateState} {p q : MessengerPublisherApp} {e : Event}
    (hstop : q.stop = false) (hmatched : 0 < p.matched) (hstands : p.TestStands)
    (hstored : 0 < p.stopNotifying → p.stop = true) (hwoken : p.Woken)
    (hdata : shared.hasData = true) (hfresh : p.lastPublishedSequence < shared.latest.sequence)
    (henv : ¬e.IsMatch) (h : p.step shared e = some q) :
    q.pc = .write shared.read ∨ q.Woken ∧ q.turnsLeft ≤ p.turnsLeft ∧
      (e.isTurn = true → q.turnsLeft < p.turnsLeft) := by
  cases e with
  | thread ok =>
    have hstop' : p.stop = false := (threadStep_frame h).stop ▸ hstop
    rcases threadStep_turn hstop' hmatched hstands hdata hfresh h with hread | ⟨hw, hlt⟩
    · exact .inl hread
    · exact .inr ⟨hw, hlt.le, fun _ => hlt⟩
  | timeout =>
    simp only [step, Option.ite_none_right_eq_some, Option.some.injEq] at h
    obtain ⟨hpc, rfl⟩ := h
    have hlt : turnsLeft { p with pc := .loop } < p.turnsLeft := by
      simp [turnsLeft, hpc, Pc.toRead]
    exact .inr ⟨by simp [Woken], hlt.le, fun _ => hlt⟩
  | matched info =>
    simp only [step, Option.ite_none_left_eq_some, Option.some.injEq] at h
    obtain ⟨-, rfl⟩ := h
    -- any other report neither wakes the thread nor announces a notification
    have hone : info.currentCountChange ≠ 1 := fun heq => henv ⟨info, rfl, heq⟩
    have hsame : (p.onPublicationMatched info).pc = p.pc ∧
        (p.onPublicationMatched info).matchNotifying = p.matchNotifying := by
      unfold onPublicationMatched
      rw [if_neg hone]
      split_ifs <;> exact ⟨rfl, rfl⟩
    refine .inr ⟨?_, ?_, by simp [Event.isTurn]⟩
    · rw [Woken, hsame.1, hsame.2]
      exact hwoken
    · rw [turnsLeft, hsame.1, hsame.2, turnsLeft]
  | matchedNotify =>
    simp only [step, Option.ite_none_right_eq_some, Option.some.injEq] at h
    obtain ⟨hpos, rfl⟩ := h
    obtain ⟨hblocked, hle⟩ := notifyOne_toRead p
    have hlt : turnsLeft { p.notifyOne with matchNotifying := p.matchNotifying - 1 } <
        p.turnsLeft := by
      simp only [turnsLeft]
      omega
    exact .inr ⟨fun hpc => absurd hpc hblocked, hlt.le, fun _ => hlt⟩
  | stopStore =>
    simp only [step, Option.some.injEq] at h
    rw [← h] at hstop
    cases hstop
  | stopNotify =>
    simp only [step, Option.ite_none_right_eq_some, Option.some.injEq] at h
    obtain ⟨hpos, rfl⟩ := h
    exact absurd (hstored hpos) (by simpa [notifyOne] using hstop)

theorem exists_turn {p : MessengerPublisherApp} (hmatched : 0 < p.matched)
    (hstands : p.TestStands) (hwoken : p.Woken) (hpc : p.pc ≠ .finished)
    (shared : SharedCoordinateState) : ∃ e, e.isTurn = true ∧ (p.step shared e).isSome := by
  cases h : p.pc with
  | waitBlock =>
    have := hstands h
    omega
  | waitBlocked =>
    have hpos := hwoken h
    exact ⟨.matchedNotify, rfl, by simp [step, hpos]⟩
  | periodBlocked => exact ⟨.timeout, rfl, by simp [step, h]⟩
  | finished => exact absurd h hpc
  | _ => exact ⟨.thread true, rfl, by simp [step, threadStep, h]⟩

/-- The thread returns from `run` after a stop only. -/
theorem step_finished {shared : SharedCoordinateState} {p q : MessengerPublisherApp} {e : Event}
    (hp : p.pc = .finished → p.stop = true) (h : p.step shared e = some q) :
    q.pc = .finished → q.stop = true := by
  cases e with
  | thread ok =>
    have hframe := (threadStep_frame h).stop
    simp only [step, threadStep] at h
    cases hpc : p.pc with
    | loop =>
      simp only [hpc, Option.some.injEq] at h
      rw [hframe, ← h]
      intro hq
      by_contra hstop
      simp [hstop] at hq
    | waitBlocked | periodBlocked | finished => simp [hpc] at h
    | _ =>
      simp only [hpc, Option.some.injEq] at h
      rw [← h]
      dsimp only
      intro hq
      first | cases hq | split_ifs at hq
  | timeout =>
    simp only [step, Option.ite_none_right_eq_some, Option.some.injEq] at h
    rw [← h.2]
    intro hq
    cases hq
  | matched info =>
    simp only [step, Option.ite_none_left_eq_some, Option.some.injEq] at h
    obtain ⟨-, rfl⟩ := h
    unfold onPublicationMatched
    split_ifs <;> exact hp
  | matchedNotify | stopNotify =>
    simp only [step, Option.ite_none_right_eq_some, Option.some.injEq] at h
    obtain ⟨-, rfl⟩ := h
    have hsame : p.notifyOne.pc = .finished → p.pc = .finished := by
      unfold notifyOne
      cases p.pc <;> simp
    exact fun hq => hp (hsame hq)
  | stopStore =>
    simp only [step, Option.some.injEq] at h
    rw [← h]
    exact fun _ => rfl

end MessengerPublisherApp

namespace PublisherProcess

/-- A reader is matched, no stop was requested, and the sequence has not wrapped. -/
structure Publishes (s : PublisherProcess) : Prop where
  matched : 0 < s.publisher.matched
  unstopped : s.publisher.stop = false
  narrow : s.shared.updates.length < 2 ^ 32

/-- The publisher has the update `k` or a later one still to write, and can get to it. -/
structure Seeks (k : ℕ) (s : PublisherProcess) : Prop where
  reachable : machine.Reachable s
  woken : s.publisher.Woken
  pos : 0 < k
  behind : Sampler.lastNumber s.publisher.written < k
  made : k ≤ s.shared.updates.length

/-- The sample in hand carries the update `k` or a later one. -/
def Attempts (k : ℕ) (s : PublisherProcess) : Prop :=
  ∃ e, s.publisher.pc = .write e ∧ k ≤ e.number

def isTurn : Event → Bool
  | .publisher e => e.isTurn
  | _ => false

/-- DDS reports a further reader. -/
def MatchesReader : Event → Prop
  | .publisher e => e.IsMatch
  | _ => False

/-- A `write` that returns OK. -/
def WritesOk (s : PublisherProcess) (e : Event) : Prop :=
  e = .publisher (.thread true) ∧ ∃ d, s.publisher.pc = .write d

theorem gate_of_reachable {s : PublisherProcess} (h : machine.Reachable s) :
    s.publisher.TestStands ∧ (s.publisher.pc = .finished → s.publisher.stop = true) := by
  apply h.invariant (I := fun s => s.publisher.TestStands ∧
    (s.publisher.pc = .finished → s.publisher.stop = true))
  · constructor
    · intro hpc
      cases hpc
    · intro hpc
      cases hpc
  · intro s t e _ hs _ ht
    rcases step_cases ht with ⟨a, p, u, -, -, rfl⟩ | ⟨a, p, -, hp, rfl⟩ | ⟨a, w, -, -, rfl⟩
    · exact hs
    · exact ⟨MessengerPublisherApp.step_testStands hs.1 hp,
        MessengerPublisherApp.step_finished hs.2 hp⟩
    · exact hs

theorem seeking_step {k : ℕ} {s t : PublisherProcess} {e : Event} (hs : s.Seeks k)
    (hpub : s.Publishes) (hpub' : t.Publishes) (henv : ¬MatchesReader e)
    (ht : machine.step s e = some t) :
    t.Attempts k ∨ t.publisher.Woken ∧ t.publisher.turnsLeft ≤ s.publisher.turnsLeft ∧
      (isTurn e = true → t.publisher.turnsLeft < s.publisher.turnsLeft) := by
  obtain ⟨hstands, -⟩ := gate_of_reachable hs.reachable
  obtain ⟨-, hinv, -⟩ := inv_of_reachable hs.reachable
  have hstored := stored_of_reachable hs.reachable
  have hdata := hasData_of_made hs.reachable (hs.pos.trans_le hs.made) hpub.narrow
  have hfresh := latest_above hs.reachable hs.made hpub.narrow hinv.sampler hs.behind
  rcases step_cases ht with ⟨a, p, u, rfl, -, rfl⟩ | ⟨a, p, rfl, hp, rfl⟩ | ⟨a, w, rfl, -, rfl⟩
  · exact .inr ⟨hs.woken, le_refl _, by simp [isTurn]⟩
  · rcases MessengerPublisherApp.step_turn hpub'.unstopped hpub.matched hstands hstored hs.woken
      hdata hfresh henv hp with hread | hturn
    · exact .inl ⟨_, hread, hs.made⟩
    · exact .inr hturn
  · exact .inr ⟨hs.woken, le_refl _, by simp [isTurn]⟩

/-- Only the write of a sample that carries it brings the publisher to an update. -/
theorem step_behind {k : ℕ} {s t : PublisherProcess} {e : Event}
    (hs : Sampler.lastNumber s.publisher.written < k) (hnot : ¬s.Attempts k)
    (ht : machine.step s e = some t) : Sampler.lastNumber t.publisher.written < k := by
  rcases step_cases ht with ⟨a, p, u, -, -, rfl⟩ | ⟨a, p, -, hp, rfl⟩ | ⟨a, w, -, -, rfl⟩
  · exact hs
  · rcases MessengerPublisherApp.step_written hp with ⟨d, hpc, -, hw⟩ | ⟨-, hw⟩
    · have hlt : d.number < k := not_le.mp fun hle => hnot ⟨d, hpc, hle⟩
      simpa [hw, Sampler.lastNumber] using hlt
    · rw [hw]
      exact hs
  · exact hs

/-- A publisher with an open gate gets to the write of what it has not written. -/
theorem publishing (k : ℕ) : machine.Progress (fun _ e => ¬MatchesReader e) (Seeks k)
    (fun _ e => isTurn e = true) (·.publisher.turnsLeft) fun s => ¬s.Publishes ∨ s.Attempts k where
  step := by
    intro s t a hs hnot henv ht
    obtain ⟨hpub, hattempts⟩ := not_or.mp hnot
    by_cases hpub' : t.Publishes
    · rcases seeking_step hs (not_not.mp hpub) hpub' henv ht with hread | ⟨hwoken, hle, hlt⟩
      · exact .inl (.inr hread)
      · exact .inr ⟨⟨hs.reachable.step ht, hwoken, hs.pos, step_behind hs.behind hattempts ht,
          hs.made.trans (step_updates ht).length_le⟩, hle, hlt⟩
    · exact .inl (.inl hpub')
  enabled := by
    intro s hs hnot
    have hpub := not_not.mp (not_or.mp hnot).1
    obtain ⟨hstands, hfinished⟩ := gate_of_reachable hs.reachable
    have hpc : s.publisher.pc ≠ .finished := by
      intro hpc
      rw [hpub.unstopped] at hfinished
      exact absurd (hfinished hpc) (by decide)
    obtain ⟨a, ha, hstep⟩ :=
      MessengerPublisherApp.exists_turn hpub.matched hstands hs.woken hpc s.shared
    obtain ⟨p, hp⟩ := Option.isSome_iff_exists.mp hstep
    exact ⟨.publisher a, { s with publisher := p }, ha, by simp [machine, step, hp]⟩

/-- What is in hand is read from the cell, which holds the update `k` by now. -/
theorem step_ahead {k : ℕ} {s t : PublisherProcess} {e : Event}
    (hs : ∀ d, s.publisher.pc = .write d → k ≤ d.number) (hmade : k ≤ s.shared.updates.length)
    (ht : machine.step s e = some t) : ∀ d, t.publisher.pc = .write d → k ≤ d.number := by
  rcases step_cases ht with ⟨a, p, u, -, -, rfl⟩ | ⟨a, p, -, hp, rfl⟩ | ⟨a, w, -, -, rfl⟩
  · exact hs
  · intro d hd
    rcases MessengerPublisherApp.step_cases hp with
      ⟨hpc, -⟩ | ⟨-, -, rfl⟩ | ⟨c, ok, -, -, rfl⟩ | ⟨-, rfl⟩
    · rcases hpc with hsame | ⟨-, hquiet⟩
      · exact hs d (hsame ▸ hd)
      · rw [show p.pc = .write d from hd] at hquiet
        cases hquiet
    · cases hd
      exact hmade
    · cases hd
    · cases hd
  · exact hs

theorem step_write_ok {s : PublisherProcess} {d : Sampler.Entry CoordinateData}
    (hpc : s.publisher.pc = .write d) : machine.step s (.publisher (.thread true)) =
      some { s with publisher := { s.publisher.writeSample d true with pc := .returned true } } := by
  simp [machine, step, MessengerPublisherApp.step, MessengerPublisherApp.threadStep, hpc]

/-- On a fair execution on which DDS does not refuse every sample, an update that was made is
written, or a later one in its place, unless a stop is requested, the readers go away or the
sequence wraps first. -/
theorem update_written {x : machine.Execution} (hfair : x.Fair isTurn)
    (hok : x.Compassionate WritesOk) {n k : ℕ} (hr : machine.Reachable (x.state n))
    (henv : x.From n fun _ e => ¬MatchesReader e) (hwoken : (x.state n).publisher.Woken)
    (hmade : k ≤ (x.state n).shared.updates.length) :
    ∃ m, n ≤ m ∧ (¬(x.state m).Publishes ∨
      k ≤ Sampler.lastNumber (x.state m).publisher.written) := by
  by_contra hnone
  have hnot : ∀ m, n ≤ m → (x.state m).Publishes ∧
      Sampler.lastNumber (x.state m).publisher.written < k := by
    intro m hm
    constructor
    · by_contra hpub
      exact hnone ⟨m, hm, .inl hpub⟩
    · by_contra hle
      exact hnone ⟨m, hm, .inr (not_lt.mp hle)⟩
  -- where it never came true, the publisher would seek the update for ever
  have hseeks : ∀ m, n ≤ m → (x.state m).Seeks k := by
    intro m hm
    have hpos : 0 < k := (Nat.zero_le _).trans_lt (hnot n (le_refl _)).2
    refine x.always (P := Seeks k) ⟨hr, hwoken, hpos, (hnot n (le_refl _)).2, hmade⟩ ?_ hm
    intro l a hl hs he
    have ht := x.step l a he
    have hwoken' : (x.state (l + 1)).publisher.Woken := by
      rcases seeking_step hs (hnot l hl).1 (hnot (l + 1) (by omega)).1 (henv l a hl he) ht with
        ⟨d, hd, -⟩ | ⟨hw, -⟩
      · intro hpc
        rw [hd] at hpc
        cases hpc
      · exact hw
    exact ⟨hs.reachable.step ht, hwoken', hpos, (hnot (l + 1) (by omega)).2,
      hs.made.trans (step_updates ht).length_le⟩
  have hattempts : ∀ m, n ≤ m → ∃ l, m ≤ l ∧ (x.state l).Attempts k := by
    intro m hm
    obtain ⟨l, hl, hdone⟩ := (publishing k).exists_done hfair.just (henv.later hm) (hseeks m hm)
    exact ⟨l, hl, hdone.resolve_left (not_not.mpr (hnot l (hm.trans hl)).1)⟩
  obtain ⟨l, hl, d, hd, hk⟩ := hattempts n (le_refl _)
  -- from the first attempt on only such samples are in hand
  have hahead : ∀ m, l ≤ m → ∀ e, (x.state m).publisher.pc = .write e → k ≤ e.number := by
    intro m hm
    refine x.always (P := fun s => ∀ e, s.publisher.pc = .write e → k ≤ e.number) ?_ ?_ hm
    · intro e he
      rw [hd] at he
      cases he
      exact hk
    · intro i a hi hs he
      exact step_ahead hs (hseeks i (by omega)).made (x.step i a he)
  -- and one of the attempts, which never cease, is accepted
  obtain ⟨m, a, hm, he, rfl, e, hpc⟩ := hok l <| by
    intro m hm
    obtain ⟨i, hi, c, hc, -⟩ := hattempts m (by omega)
    exact ⟨i, _, _, hi, ⟨rfl, c, hc⟩, step_write_ok hc⟩
  have hlast : Sampler.lastNumber (x.state (m + 1)).publisher.written = e.number := by
    rw [← Option.some.inj ((step_write_ok hpc).symm.trans (x.step m _ he))]
    simp [MessengerPublisherApp.writeSample, Sampler.lastNumber]
  have hlt := (hnot (m + 1) (by omega)).2
  rw [hlast] at hlt
  exact absurd (hahead m hm e hpc) (not_le.mpr hlt)

end PublisherProcess

end CoordinateStream
