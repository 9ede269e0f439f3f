import CoordinateStream.Emission

namespace CoordinateStream

/-! The streams of the WebSocket clients. -/

namespace WebSocketServer

/-- Whether a client is registered after an event of the loop. -/
def registerStep (h : ConnectionHdl) (r : Bool) : LoopEvent → Bool
  | .opened k => r || k = h
  | .closed k => r && k ≠ h
  | .broadcast _ _ => r

/-- What an event sends to a client: a broadcast, while it is registered and unless the send
to this very client fails. -/
def sentTo (h : ConnectionHdl) (r : Bool) : LoopEvent → List (Sampler.Entry CoordinateData)
  | .broadcast e fails => if r && !fails h then [e] else []
  | _ => []

def registered (h : ConnectionHdl) (r : Bool) (events : List LoopEvent) : Bool :=
  events.foldl (registerStep h) r

/-- The broadcasts that reach a client, which is registered at the start where `r` says so. -/
def streamOf (h : ConnectionHdl) : Bool → List LoopEvent → List (Sampler.Entry CoordinateData)
  | _, [] => []
  | r, e :: events => sentTo h r e ++ streamOf h (registerStep h r e) events

theorem streamOf_append (h : ConnectionHdl) (r : Bool) (xs ys : List LoopEvent) :
    streamOf h r (xs ++ ys) = streamOf h r xs ++ streamOf h (registered h r xs) ys := by
  induction xs generalizing r with
  | nil => rfl
  | cons x xs ih =>
    simp only [List.cons_append, streamOf, ih, List.append_assoc, registered, List.foldl_cons]

theorem streamOf_concat (h : ConnectionHdl) (r : Bool) (xs : List LoopEvent) (e : LoopEvent) :
    streamOf h r (xs ++ [e]) = streamOf h r xs ++ sentTo h (registered h r xs) e := by
  rw [streamOf_append, streamOf, streamOf, List.append_nil]

theorem registered_concat (h : ConnectionHdl) (r : Bool) (xs : List LoopEvent) (e : LoopEvent) :
    registered h r (xs ++ [e]) = registerStep h (registered h r xs) e := by
  rw [registered, List.foldl_append]
  rfl

theorem streamOf_sublist (h : ConnectionHdl) (r : Bool) (events : List LoopEvent) :
    (streamOf h r events).Sublist (events.filterMap LoopEvent.entry) := by
  induction events generalizing r with
  | nil => exact List.Sublist.refl _
  | cons e events ih =>
    cases e with
    | opened k => exact ih _
    | closed k => exact ih _
    | broadcast e fails =>
      have htail := ih (registerStep h r (.broadcast e fails))
      simp only [streamOf, sentTo, List.filterMap_cons, LoopEvent.entry]
      split
      · exact htail.cons_cons e
      · exact htail.cons e

namespace Broadcaster

/-- What one client gets of a broadcast does not depend on the sends to others. -/
theorem foldl_send (message : Text) (fails : ConnectionHdl → Bool) (h : ConnectionHdl)
    {l : List ConnectionHdl} (hl : l.Nodup) (received : ConnectionHdl → List Text) :
    l.foldl (send message fails) received h =
      if h ∈ l ∧ fails h = false then received h ++ [message] else received h := by
  induction l generalizing received with
  | nil => simp
  | cons k l ih =>
    obtain ⟨hk, hl'⟩ := List.nodup_cons.mp hl
    rw [List.foldl_cons, ih hl']
    by_cases heq : h = k
    · subst heq
      cases hf : fails h <;> simp [send, hk, hf]
    · have hsame : send message fails received k h = received h := by
        unfold send
        split
        · rfl
        · exact Function.update_of_ne heq _ _
      simp [hsame, heq]

theorem broadcast_apply (b : Broadcaster) (message : Text) (fails : ConnectionHdl → Bool)
    (h : ConnectionHdl) : b.broadcast message fails h =
      if h ∈ b.connections ∧ fails h = false then b.received h ++ [message] else b.received h :=
  foldl_send message fails h b.connections.nodup b.received

/-- A client is registered as its history says, and has received exactly its stream. -/
structure Streams (b : Broadcaster) (h : ConnectionHdl) : Prop where
  registered_iff : h ∈ b.connections ↔ registered h false b.history = true
  received_eq : b.received h = (streamOf h false b.history).map (·.item.toJson)

theorem init_streams (h : ConnectionHdl) : Streams init h :=
  ⟨by simp [init, registered], rfl⟩

theorem onOpen_streams {b : Broadcaster} {h : ConnectionHdl} (hb : Streams b h)
    (k : ConnectionHdl) : Streams (b.onOpen k) h := by
  refine ⟨?_, ?_⟩
  · simp only [onOpen, registered_concat, registerStep, Connections.mem_insert,
      hb.registered_iff, Bool.or_eq_true, decide_eq_true_eq]
    rw [or_comm, eq_comm (a := h)]
  · simp only [onOpen, streamOf_concat, sentTo, List.append_nil]
    exact hb.received_eq

theorem onClose_streams {b : Broadcaster} {h : ConnectionHdl} (hb : Streams b h)
    (k : ConnectionHdl) : Streams (b.onClose k) h := by
  refine ⟨?_, ?_⟩
  · simp only [onClose, registered_concat, registerStep, Connections.mem_erase,
      hb.registered_iff, Bool.and_eq_true, decide_eq_true_eq, ne_eq]
    rw [and_comm, eq_comm (a := h)]
  · simp only [onClose, streamOf_concat, sentTo, List.append_nil]
    exact hb.received_eq

theorem broadcastLatest_streams {b : Broadcaster} {h : ConnectionHdl} (hb : Streams b h)
    (shared : SharedCoordinateState) (fails : ConnectionHdl → Bool) :
    Streams (b.broadcastLatest shared fails) h := by
  unfold broadcastLatest
  split_ifs with hfresh
  · refine ⟨?_, ?_⟩
    · rw [registered_concat]
      exact hb.registered_iff
    · dsimp only
      rw [broadcast_apply, streamOf_concat, sentTo, hb.received_eq]
      by_cases hm : h ∈ b.connections
      · have hreg := hb.registered_iff.mp hm
        cases hf : fails h <;> simp [hm, hreg]
        rfl
      · have hreg : registered h false b.history = false :=
          Bool.eq_false_iff.mpr fun hr => hm (hb.registered_iff.mpr hr)
        simp [hm, hreg]
  · exact hb

end Broadcaster

theorem step_streams {shared : SharedCoordinateState} {s t : WebSocketServer} {e : Event}
    {h : ConnectionHdl} (hs : s.cast.Streams h) (hst : s.step shared e = some t) :
    t.cast.Streams h := by
  rcases step_cast hst with hc | ⟨k, -, hc⟩ | ⟨k, -, hc⟩ | ⟨fails, -, hc⟩
  · rw [hc]
    exact hs
  · rw [hc]
    exact Broadcaster.onOpen_streams hs k
  · rw [hc]
    exact Broadcaster.onClose_streams hs k
  · rw [hc]
    exact Broadcaster.broadcastLatest_streams hs shared fails

/-! ### The span of two clients -/

namespace Broadcaster

/-- Both lists grew by the same broadcasts: those made, and those a client received. -/
def Span (b c : Broadcaster) (h : ConnectionHdl) : Prop :=
  ∃ span, c.broadcasts = b.broadcasts ++ span ∧
    c.received h = b.received h ++ span.map (·.item.toJson)

theorem Span.refl (b : Broadcaster) (h : ConnectionHdl) : Span b b h := ⟨[], by simp, by simp⟩

theorem Span.trans {b c d : Broadcaster} {h : ConnectionHdl} (hbc : Span b c h)
    (hcd : Span c d h) : Span b d h := by
  obtain ⟨xs, hx, hx'⟩ := hbc
  obtain ⟨ys, hy, hy'⟩ := hcd
  exact ⟨xs ++ ys, by rw [hy, hx, List.append_assoc], by
    rw [hy', hx', List.map_append, List.append_assoc]⟩

/-- A registered client receives a broadcast unless its own send fails. -/
theorem broadcastLatest_span {b : Broadcaster} {h : ConnectionHdl} (hm : h ∈ b.connections)
    (shared : SharedCoordinateState) {fails : ConnectionHdl → Bool} (hf : fails h = false) :
    Span b (b.broadcastLatest shared fails) h := by
  have hcasts := b.broadcastLatest_broadcasts shared fails
  unfold broadcastLatest at hcasts ⊢
  split_ifs with hfresh
  · refine ⟨[shared.read], ?_, ?_⟩
    · rw [if_pos hfresh] at hcasts
      rw [hcasts]
      exact if_pos hfresh
    · dsimp only
      rw [broadcast_apply, if_pos ⟨hm, hf⟩]
      rfl
  · exact Span.refl b h

@[simp] theorem broadcastLatest_connections (b : Broadcaster) (shared : SharedCoordinateState)
    (fails : ConnectionHdl → Bool) :
    (b.broadcastLatest shared fails).connections = b.connections := by
  unfold broadcastLatest
  split_ifs <;> rfl

end Broadcaster

/-- The event neither closes the client nor fails to send to it. -/
def Event.Spares (h : ConnectionHdl) (e : Event) : Prop :=
  e ≠ .onClose h ∧ ∀ fails, e = .emit fails → fails h = false

theorem step_span {shared : SharedCoordinateState} {s t : WebSocketServer} {e : Event}
    {h : ConnectionHdl} (hm : h ∈ s.cast.connections) (he : e.Spares h)
    (hst : s.step shared e = some t) : h ∈ t.cast.connections ∧ s.cast.Span t.cast h := by
  rcases step_cast hst with hc | ⟨k, -, hc⟩ | ⟨k, rfl, hc⟩ | ⟨fails, rfl, hc⟩
  · rw [hc]
    exact ⟨hm, Broadcaster.Span.refl _ h⟩
  · rw [hc]
    refine ⟨Connections.mem_insert.mpr (.inr hm), [], ?_, ?_⟩
    · rw [Broadcaster.onOpen_broadcasts, List.append_nil]
    · exact (List.append_nil _).symm
  · rw [hc]
    have hne : h ≠ k := fun heq => he.1 (heq ▸ rfl)
    refine ⟨Connections.mem_erase.mpr ⟨hne, hm⟩, [], ?_, ?_⟩
    · rw [Broadcaster.onClose_broadcasts, List.append_nil]
    · exact (List.append_nil _).symm
  · rw [hc]
    refine ⟨?_, Broadcaster.broadcastLatest_span hm shared (he.2 fails rfl)⟩
    rw [Broadcaster.broadcastLatest_connections]
    exact hm

/-! ### Two runs -/

/-- Equal but for what other clients received, and for which of their sends failed. -/
structure Broadcaster.AgreeFor (h : ConnectionHdl) (b c : Broadcaster) : Prop where
  connections : c.connections = b.connections
  cursor : c.lastBroadcastSequence = b.lastBroadcastSequence
  sent : c.broadcastsSent = b.broadcastsSent
  received : c.received h = b.received h

def AgreeFor (h : ConnectionHdl) (s t : WebSocketServer) : Prop :=
  ∃ c, t = { s with cast := c } ∧ s.cast.AgreeFor h c

/-- The same event, but for the failures of sends to other clients. -/
def Event.AlikeFor (h : ConnectionHdl) (e e' : Event) : Prop :=
  e = e' ∨ ∃ f g, e = .emit f ∧ e' = .emit g ∧ f h = g h

theorem Broadcaster.AgreeFor.broadcastLatest {h : ConnectionHdl} {b c : Broadcaster}
    (hbc : b.AgreeFor h c) (shared : SharedCoordinateState) {f g : ConnectionHdl → Bool}
    (hfg : f h = g h) :
    (b.broadcastLatest shared f).AgreeFor h (c.broadcastLatest shared g) := by
  unfold Broadcaster.broadcastLatest
  rw [hbc.cursor]
  split_ifs
  · refine ⟨hbc.connections, rfl, ?_, ?_⟩
    · dsimp only
      rw [hbc.sent]
    · dsimp only
      rw [broadcast_apply, broadcast_apply, hbc.connections, hbc.received, hfg]
  · exact hbc

/-- A step that does not touch the shared part runs the same over another one. -/
theorem runStep_cast (s : WebSocketServer) (c : Broadcaster) (ok : Bool) :
    runStep ok { s with cast := c } = (runStep ok s).map fun t => { t with cast := c } := by
  unfold runStep
  dsimp only
  cases s.runPc with
  | listen | eventLoop =>
    dsimp only
    split_ifs <;> rfl
  | notStarted | initAsio | setHandlers | startAccept | schedule | enterLoop | finished => rfl

theorem stopStep_cast (s : WebSocketServer) {c : Broadcaster}
    (hc : c.connections = s.cast.connections) (i : ℕ) (throws : Bool) :
    stopStep i throws { s with cast := c } =
      (stopStep i throws s).map fun t => { t with cast := c } := by
  unfold stopStep
  dsimp only
  cases s.calls i with
  | close it =>
    cases it with
    | none => rfl
    | some conn =>
      dsimp only
      rw [hc]
      rfl
  | clear =>
    dsimp only
    rw [hc]
    rfl
  | stopListening =>
    dsimp only
    split_ifs <;> rfl
  | notCalled | serverStop | returned => rfl

theorem step_agree {shared : SharedCoordinateState} {h : ConnectionHdl}
    {s t s' : WebSocketServer} {e e' : Event} (hst : AgreeFor h s t) (he : e.AlikeFor h e')
    (hs : s.step shared e = some s') :
    ∃ t', t.step shared e' = some t' ∧ AgreeFor h s' t' := by
  obtain ⟨c, rfl, hc⟩ := hst
  rcases he with rfl | ⟨f, g, rfl, rfl, hfg⟩
  · have hcast := step_cast hs
    cases e with
    | run ok =>
      have hkeep : s'.cast = s.cast := by simpa using hcast
      refine ⟨{ s' with cast := c }, ?_, c, rfl, ?_⟩
      · rw [step, runStep_cast, show runStep ok s = some s' from hs]
        rfl
      · rw [hkeep]
        exact hc
    | stop i throws =>
      have hkeep : s'.cast = s.cast := by simpa using hcast
      refine ⟨{ s' with cast := c }, ?_, c, rfl, ?_⟩
      · rw [step, stopStep_cast s hc.connections, show stopStep i throws s = some s' from hs]
        rfl
      · rw [hkeep]
        exact hc
    | onOpen k =>
      simp only [step, Option.ite_none_right_eq_some, Option.some.injEq] at hs
      obtain ⟨hh, rfl⟩ := hs
      refine ⟨{ s with cast := c.onOpen k }, if_pos hh, c.onOpen k, rfl, ?_, hc.cursor, hc.sent,
        hc.received⟩
      rw [Broadcaster.onOpen, Broadcaster.onOpen, hc.connections]
    | onClose k =>
      simp only [step, Option.ite_none_right_eq_some, Option.some.injEq] at hs
      obtain ⟨hh, rfl⟩ := hs
      refine ⟨{ s with cast := c.onClose k }, if_pos hh, c.onClose k, rfl, ?_, hc.cursor, hc.sent,
        hc.received⟩
      rw [Broadcaster.onClose, Broadcaster.onClose, hc.connections]
    | tick =>
      have hwants : c.wants shared = s.cast.wants shared := by
        rw [Broadcaster.wants, Broadcaster.wants, hc.connections]
      simp only [step, Option.ite_none_right_eq_some, Option.some.injEq] at hs
      obtain ⟨hh, rfl⟩ := hs
      refine ⟨_, if_pos hh, c, ?_, hc⟩
      rw [hwants]
    | emit fails =>
      simp only [step, Option.ite_none_right_eq_some, Option.some.injEq] at hs
      obtain ⟨hh, rfl⟩ := hs
      exact ⟨_, if_pos hh, _, rfl, hc.broadcastLatest shared rfl⟩
  · simp only [step, Option.ite_none_right_eq_some, Option.some.injEq] at hs
    obtain ⟨hh, rfl⟩ := hs
    exact ⟨_, if_pos hh, _, rfl, hc.broadcastLatest shared hfg⟩

end WebSocketServer

namespace PublisherProcess

open WebSocketServer (streamOf)

theorem streams_of_reachable {s : PublisherProcess} (hs : machine.Reachable s)
    (h : ConnectionHdl) : s.server.cast.Streams h := by
  refine hs.invariant (I := fun s => s.server.cast.Streams h)
    (WebSocketServer.Broadcaster.init_streams h) fun _ hi _ hst => ?_
  rcases step_cases hst with ⟨a, p, u, -, -, rfl⟩ | ⟨a, p, -, -, rfl⟩ | ⟨a, w, -, hw, rfl⟩
  · exact hi
  · exact hi
  · exact WebSocketServer.step_streams hi hw

/-- The sequences a client receives strictly increase, for it gets some of the broadcasts. -/
theorem streamOf_increasing {s : PublisherProcess} (hs : machine.Reachable s)
    (h : ConnectionHdl) : (streamOf h false s.server.cast.history).Pairwise
      fun d e => d.item.sequence < e.item.sequence :=
  (emitted_of_sampler (inv_of_reachable hs).server.sampler).increasing.sublist
    (WebSocketServer.streamOf_sublist h false _)

/-- The event leaves a client alone. -/
def Event.Spares (h : ConnectionHdl) (e : Event) : Prop :=
  ∀ a, e = .server a → WebSocketServer.Event.Spares h a

theorem step_span {s t : PublisherProcess} {e : Event} {h : ConnectionHdl}
    (hm : h ∈ s.server.cast.connections) (he : e.Spares h) (hst : machine.step s e = some t) :
    h ∈ t.server.cast.connections ∧ s.server.cast.Span t.server.cast h := by
  rcases step_cases hst with ⟨a, p, d, -, -, rfl⟩ | ⟨a, p, -, -, rfl⟩ | ⟨a, w, rfl, hw, rfl⟩
  · exact ⟨hm, .refl _ h⟩
  · exact ⟨hm, .refl _ h⟩
  · exact WebSocketServer.step_span hm (he a rfl) hw

theorem run_span {s t : PublisherProcess} {es : List Event} {h : ConnectionHdl}
    (hm : h ∈ s.server.cast.connections) (hes : ∀ e ∈ es, e.Spares h)
    (hst : machine.run s es = some t) : s.server.cast.Span t.server.cast h := by
  have hspan : h ∈ t.server.cast.connections ∧ s.server.cast.Span t.server.cast h := by
    refine Machine.run_invariant_of (I := fun u => h ∈ u.server.cast.connections ∧
      s.server.cast.Span u.server.cast h) ?_ hes ⟨hm, .refl _ h⟩ hst
    intro u v e hu he huv
    obtain ⟨hmem, hstep⟩ := step_span hu.1 he huv
    exact ⟨hmem, hu.2.trans hstep⟩
  exact hspan.2

/-- The same event, but for the failures of sends to other clients. -/
def Event.AlikeFor (h : ConnectionHdl) (e e' : Event) : Prop :=
  e = e' ∨ ∃ f g, e = .server (.emit f) ∧ e' = .server (.emit g) ∧ f h = g h

def AgreeFor (h : ConnectionHdl) (s t : PublisherProcess) : Prop :=
  ∃ w, t = { s with server := w } ∧ s.server.AgreeFor h w

theorem step_agree {h : ConnectionHdl} {s t s' : PublisherProcess} {e e' : Event}
    (hst : AgreeFor h s t) (he : e.AlikeFor h e') (hs : machine.step s e = some s') :
    ∃ t', machine.step t e' = some t' ∧ AgreeFor h s' t' := by
  obtain ⟨w, rfl, hw⟩ := hst
  rcases step_cases hs with ⟨a, p, u, rfl, hp, rfl⟩ | ⟨a, p, rfl, hp, rfl⟩ | ⟨a, v, rfl, hv, rfl⟩
  · rcases he with rfl | ⟨f, g, he, -⟩
    · exact ⟨_, by simp only [machine, step, hp, Option.map_some], w, rfl, hw⟩
    · cases he
  · rcases he with rfl | ⟨f, g, he, -⟩
    · exact ⟨_, by simp only [machine, step, hp, Option.map_some], w, rfl, hw⟩
    · cases he
  · obtain ⟨a', ha', halike⟩ : ∃ a', e' = .server a' ∧
        WebSocketServer.Event.AlikeFor h a a' := by
      rcases he with rfl | ⟨f, g, he, he', hfg⟩
      · exact ⟨a, rfl, .inl rfl⟩
      · cases he
        exact ⟨.emit g, he', .inr ⟨f, g, rfl, rfl, hfg⟩⟩
    obtain ⟨v', hv', hagree⟩ := WebSocketServer.step_agree hw halike hv
    exact ⟨_, by simp only [machine, step, ha', hv', Option.map_some], v', rfl, hagree⟩

theorem run_agree {h : ConnectionHdl} {s : PublisherProcess} {as bs : List Event}
    (hl : List.Forall₂ (Event.AlikeFor h) as bs) (hs : machine.run init as = some s) :
    ∃ t, machine.run init bs = some t ∧
      t.server.cast.received h = s.server.cast.received h := by
  have hinit : AgreeFor h init init := ⟨_, rfl, _, rfl, rfl, rfl, rfl, rfl⟩
  obtain ⟨t, ht, w, rfl, c, rfl, hc⟩ := Machine.run_lockstep step_agree hl hinit hs
  exact ⟨_, ht, hc.received⟩

/-- Every client receives, in the order of their sequences, exactly the broadcasts made while
it is registered whose send to it does not fail; clients registered over a span and without
failed sends receive the same in it; and the failures of others change nothing. -/
theorem clients_isolated :
    (∀ s, machine.Reachable s → ∀ h,
      s.server.cast.received h =
        (streamOf h false s.server.cast.history).map (·.item.toJson) ∧
      (streamOf h false s.server.cast.history).Pairwise
        fun d e => d.item.sequence < e.item.sequence) ∧
    (∀ s t es h k, machine.run s es = some t → h ∈ s.server.cast.connections →
      k ∈ s.server.cast.connections → (∀ e ∈ es, e.Spares h ∧ e.Spares k) →
      ∃ texts, t.server.cast.received h = s.server.cast.received h ++ texts ∧
        t.server.cast.received k = s.server.cast.received k ++ texts) ∧
    (∀ as bs s h, List.Forall₂ (Event.AlikeFor h) as bs → machine.run init as = some s →
      ∃ t, machine.run init bs = some t ∧
        t.server.cast.received h = s.server.cast.received h) := by
  refine ⟨fun s hs h => ?_, fun s t es h k hst hh hk hes => ?_, fun as bs s h hl hs =>
    run_agree hl hs⟩
  · exact ⟨(streams_of_reachable hs h).received_eq, streamOf_increasing hs h⟩
  · obtain ⟨xs, hx, hx'⟩ := run_span hh (fun e he => (hes e he).1) hst
    obtain ⟨ys, hy, hy'⟩ := run_span hk (fun e he => (hes e he).2) hst
    -- both spans are what the broadcasts grew by
    have heq : xs = ys := List.append_cancel_left (hx.symm.trans hy)
    exact ⟨xs.map (·.item.toJson), hx', by rw [heq, hy']⟩

/-- Two clients open and an update is made. -/
def openEvents : List Event :=
  startEvents ++ [.server (.onOpen 2)] ++ tickEvents .zero .zero 5

/-- A tick that broadcasts it. -/
def castEvents (fails : ConnectionHdl → Bool) : List Event :=
  [.server .tick, .server (.emit fails)]

theorem castEvents_spares (h : ConnectionHdl) :
    ∀ e ∈ castEvents fun _ => false, e.Spares h := by
  refine List.forall_mem_cons.mpr ⟨?_, List.forall_mem_singleton.mpr ?_⟩
  · intro a ha
    cases ha
    exact ⟨nofun, nofun⟩
  · intro a ha
    cases ha
    exact ⟨nofun, fun fails hf => by cases hf; rfl⟩

theorem clients_isolated_demo :
    (∃ s, machine.run init (openEvents ++ castEvents (· = 2)) = some s ∧
      (s.server.cast.received 1).length = 1 ∧ s.server.cast.received 2 = [] ∧
      s.server.cast.received 1 =
        (streamOf 1 false s.server.cast.history).map (·.item.toJson)) ∧
    (∃ s t, machine.run init openEvents = some s ∧
      machine.run s (castEvents fun _ => false) = some t ∧
      ∃ texts, t.server.cast.received 1 = s.server.cast.received 1 ++ texts ∧
        t.server.cast.received 2 = s.server.cast.received 2 ++ texts) ∧
    (∃ t, machine.run init (openEvents ++ castEvents fun _ => false) = some t ∧
      (t.server.cast.received 1).length = 1) := by
  obtain ⟨hstream, hspan, hrun⟩ := clients_isolated
  obtain ⟨s, hs, h1, h2⟩ : ∃ s, machine.run init (openEvents ++ castEvents (· = 2)) = some s ∧
      (s.server.cast.received 1).length = 1 ∧ s.server.cast.received 2 = [] := ⟨_, rfl, rfl, rfl⟩
  refine ⟨⟨s, hs, h1, h2, (hstream s (Machine.reachable_of_run hs) 1).1⟩, ?_, ?_⟩
  · obtain ⟨u, hu, ho1, ho2, t, ht⟩ : ∃ u, machine.run init openEvents = some u ∧
        1 ∈ u.server.cast.connections ∧ 2 ∈ u.server.cast.connections ∧
        ∃ t, machine.run u (castEvents fun _ => false) = some t :=
      ⟨_, rfl, by decide, by decide, _, rfl⟩
    exact ⟨u, t, hu, ht, hspan u t _ 1 2 ht ho1 ho2 fun e he =>
      ⟨castEvents_spares 1 e he, castEvents_spares 2 e he⟩⟩
  · have hl : List.Forall₂ (Event.AlikeFor 1) (openEvents ++ castEvents (· = 2))
        (openEvents ++ castEvents fun _ => false) := by
      refine List.rel_append (List.forall₂_same.mpr fun _ _ => .inl rfl) ?_
      exact .cons (.inl rfl) (.cons (.inr ⟨_, _, rfl, rfl, rfl⟩) .nil)
    obtain ⟨t, ht, heq⟩ := hrun _ _ s 1 hl hs
    exact ⟨t, ht, by rw [heq, h1]⟩

end PublisherProcess

end CoordinateStream
