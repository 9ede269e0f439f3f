import CoordinateStream.Emission

namespace CoordinateStream

/-! Whether a consumer that is served alone emits the latest update. -/

namespace CoordinateProducer

theorem Numbered.latest {shared : SharedCoordinateState} (h : Numbered shared.updates) :
    shared.latest.sequence.toNat = shared.updates.length % 2 ^ 32 := by
  have heq := shared.latest_eq
  by_cases hu : shared.updates = []
  · rw [heq, hu]
    rfl
  · have hpos := List.length_pos_iff.mpr hu
    have hget : shared.updates[shared.updates.length - 1]? = some shared.latest := by
      rw [List.getLastD_eq_getLast?, List.getLast?_eq_some_getLast hu, Option.getD_some] at heq
      rw [heq, ← List.getLast?_eq_getElem?, List.getLast?_eq_some_getLast hu]
    have hseq := h _ _ hget
    rwa [Nat.sub_add_cancel hpos] at hseq

/-- A cursor is the number of the entry taken last, modulo the width of the sequence. -/
theorem Numbered.cursor {log : List CoordinateData} {taken : List (Sampler.Entry CoordinateData)}
    {cursor : ℕ} (h : Numbered log) (hs : Sampler.Inv sequenceKey 0 log taken cursor) :
    cursor = Sampler.lastNumber taken % 2 ^ 32 := by
  rw [hs.cursor_eq, Sampler.lastNumber]
  cases hl : taken.getLast? with
  | none => rfl
  | some e =>
    obtain ⟨hpos, hget⟩ := hs.names e (List.mem_of_getLast? hl)
    have hseq := h _ _ hget
    rwa [Nat.sub_add_cancel hpos] at hseq

end CoordinateProducer

namespace MessengerPublisherApp

/-- A free iteration with an OK write emits exactly when the latest sequence is above the
cursor. -/
theorem publishFromSharedState_written (shared : SharedCoordinateState)
    {p : MessengerPublisherApp} (hm : 0 < p.matched) (hs : p.stop = false) :
    ∃ r q, publishFromSharedState shared true p = some (r, q) ∧
      q.written = if p.lastPublishedSequence < shared.latest.sequence then
        p.written ++ [shared.read] else p.written := by
  unfold publishFromSharedState
  by_cases hd : shared.hasData = false
  · have hz : ¬p.lastPublishedSequence < shared.latest.sequence := by
      simp only [SharedCoordinateState.hasData, decide_eq_false_iff_not] at hd
      exact fun h => hd (UInt32.lt_of_le_of_lt UInt32.zero_le h)
    exact ⟨false, p, by rw [if_pos hd], by rw [if_neg hz]⟩
  · rw [if_neg hd, if_neg (by simp [hm]), if_neg (by simp [hs])]
    by_cases hle : shared.getLatest.sequence ≤ p.lastPublishedSequence
    · have hge : ¬p.lastPublishedSequence < shared.latest.sequence := UInt32.not_lt.mpr hle
      exact ⟨false, p, by rw [if_pos hle], by rw [if_neg hge]⟩
    · have hlt : p.lastPublishedSequence < shared.latest.sequence := UInt32.not_le.mp hle
      exact ⟨true, p.writeSample shared.read true, by rw [if_neg hle], by rw [if_pos hlt]; rfl⟩

end MessengerPublisherApp

namespace WebSocketServer

theorem broadcastTick_broadcasts (shared : SharedCoordinateState) {s : WebSocketServer}
    (hr : s.running = true) (hne : s.cast.connections.toList ≠ []) (fails : ConnectionHdl → Bool) :
    (s.broadcastTick shared fails).broadcasts =
      if s.cast.lastBroadcastSequence < shared.latest.sequence then
        s.cast.broadcasts ++ [shared.read]
      else s.cast.broadcasts := by
  unfold broadcastTick Broadcaster.wants
  by_cases hd : shared.hasData = true
  · rw [if_pos (by simp [hr, hd, hne]), Broadcaster.broadcastLatest_broadcasts]
  · have hz : ¬s.cast.lastBroadcastSequence < shared.latest.sequence := by
      simp only [SharedCoordinateState.hasData, decide_eq_true_eq] at hd
      exact fun h => hd (UInt32.lt_of_le_of_lt UInt32.zero_le h)
    rw [if_neg (by simp [hd]), if_neg hz]

end WebSocketServer

namespace PublisherProcess

/-- An iteration of the publisher that nothing holds up, with an OK write, appends exactly
the latest update to what was written. -/
def PublishesLatest (s : PublisherProcess) : Prop :=
  ∃ r q, s.publisher.publishFromSharedState s.shared true = some (r, q) ∧
    q.written = s.publisher.written ++ [s.shared.read]

/-- A tick of the server appends exactly the latest update to what was broadcast. -/
def BroadcastsLatest (s : PublisherProcess) : Prop :=
  ∀ fails, (s.server.broadcastTick s.shared fails).broadcasts =
    s.server.cast.broadcasts ++ [s.shared.read]

/-- Freshness as one expects it of a state: a consumer that has not emitted the latest update
emits it when it is served, the server where its timer can fire while it runs. -/
structure Fresh (s : PublisherProcess) : Prop where
  publisher : Sampler.lastNumber s.publisher.written < s.shared.updates.length →
    0 < s.publisher.matched → s.publisher.stop = false → PublishesLatest s
  server : Sampler.lastNumber s.server.cast.broadcasts < s.shared.updates.length →
    s.server.cast.connections.toList ≠ [] → s.server.CanTick → BroadcastsLatest s

theorem publishesLatest_iff {s : PublisherProcess} (h : machine.Reachable s)
    (hm : 0 < s.publisher.matched) (hs : s.publisher.stop = false) :
    PublishesLatest s ↔
      Sampler.lastNumber s.publisher.written % 2 ^ 32 < s.shared.updates.length % 2 ^ 32 := by
  obtain ⟨hprod, hpub, -⟩ := inv_of_reachable h
  obtain ⟨r, q, hq, hw⟩ := MessengerPublisherApp.publishFromSharedState_written
    s.shared hm hs
  rw [← hprod.numbered.latest, ← hprod.numbered.cursor hpub.sampler, ← UInt32.lt_iff_toNat_lt]
  constructor
  · rintro ⟨r', q', hq', hw'⟩
    rw [hq] at hq'
    obtain ⟨rfl, rfl⟩ := Prod.mk.inj (Option.some.inj hq')
    by_contra hlt
    rw [if_neg hlt, hw'] at hw
    simp at hw
  · intro hlt
    rw [if_pos hlt] at hw
    exact ⟨r, q, hq, hw⟩

theorem broadcastsLatest_iff {s : PublisherProcess} (h : machine.Reachable s)
    (hne : s.server.cast.connections.toList ≠ []) (hr : s.server.running = true) :
    BroadcastsLatest s ↔ Sampler.lastNumber s.server.cast.broadcasts % 2 ^ 32 <
      s.shared.updates.length % 2 ^ 32 := by
  obtain ⟨hprod, -, hserver⟩ := inv_of_reachable h
  have htick := WebSocketServer.broadcastTick_broadcasts s.shared hr hne
  rw [← hprod.numbered.latest, ← hprod.numbered.cursor hserver.sampler, ← UInt32.lt_iff_toNat_lt]
  constructor
  · intro hb
    by_contra hlt
    have := (htick fun _ => false).symm.trans (hb fun _ => false)
    rw [if_neg hlt] at this
    simp at this
  · intro hlt fails
    rw [htick, if_pos hlt]

/-- The sequence has not wrapped to or below the cursor of a consumer that is behind. -/
def NotWrapped (s : PublisherProcess) (taken : List (Sampler.Entry CoordinateData)) : Prop :=
  Sampler.lastNumber taken < s.shared.updates.length →
    Sampler.lastNumber taken % 2 ^ 32 < s.shared.updates.length % 2 ^ 32

/-- The consumers that can be served are fresh exactly as long as the sequence has not
wrapped to or below their cursor. -/
theorem fresh_iff_notWrapped {s : PublisherProcess} (h : machine.Reachable s) :
    Fresh s ↔
      (0 < s.publisher.matched → s.publisher.stop = false → NotWrapped s s.publisher.written) ∧
      (s.server.cast.connections.toList ≠ [] → s.server.CanTick →
        NotWrapped s s.server.cast.broadcasts) := by
  constructor
  · intro hf
    exact ⟨fun hm hs hn => (publishesLatest_iff h hm hs).mp (hf.publisher hn hm hs),
      fun hne hc hn => (broadcastsLatest_iff h hne hc.running).mp (hf.server hn hne hc)⟩
  · rintro ⟨hp, hb⟩
    exact ⟨fun hn hm hs => (publishesLatest_iff h hm hs).mpr (hp hm hs hn),
      fun hn hne hc => (broadcastsLatest_iff h hne hc.running).mpr (hb hne hc hn)⟩

theorem fresh_demo : ∃ s, machine.run init demoEvents = some s ∧
    Sampler.lastNumber s.publisher.written = 2 ∧ s.shared.updates.length = 3 ∧
    (Fresh s ↔
      (0 < s.publisher.matched → s.publisher.stop = false → NotWrapped s s.publisher.written) ∧
      (s.server.cast.connections.toList ≠ [] → s.server.CanTick →
        NotWrapped s s.server.cast.broadcasts)) := by
  obtain ⟨s, hs, hw, hu⟩ : ∃ s, machine.run init demoEvents = some s ∧
      Sampler.lastNumber s.publisher.written = 2 ∧ s.shared.updates.length = 3 :=
    ⟨_, rfl, rfl, rfl⟩
  exact ⟨s, hs, hw, hu, fresh_iff_notWrapped (Machine.reachable_of_run hs)⟩

theorem notWrapped_of_lt {s : PublisherProcess} (h : s.shared.updates.length < 2 ^ 32)
    (taken : List (Sampler.Entry CoordinateData)) : NotWrapped s taken := by
  intro hn
  rwa [Nat.mod_eq_of_lt (hn.trans h), Nat.mod_eq_of_lt h]

/-- Below `2 ^ 32` updates every reachable state is fresh. -/
theorem fresh_of_lt {s : PublisherProcess} (h : machine.Reachable s)
    (hlt : s.shared.updates.length < 2 ^ 32) : Fresh s where
  publisher hn hm hs := (publishesLatest_iff h hm hs).mpr (notWrapped_of_lt hlt _ hn)
  server hn hne hc := (broadcastsLatest_iff h hne hc.running).mpr (notWrapped_of_lt hlt _ hn)

/-- The thread of `run`, left alone, does what `publishFromSharedState` says. -/
theorem run_publishFromSharedState {s : PublisherProcess} {ok r : Bool}
    {q : MessengerPublisherApp} (hpc : s.publisher.pc = .publish)
    (h : s.publisher.publishFromSharedState s.shared ok = some (r, q)) :
    ∃ k, machine.run s (List.replicate k (.publisher (.thread ok))) =
      some { s with publisher := { q with pc := .returned r } } := by
  obtain ⟨producer, shared, ⟨pc, m, n, c, st, mn, sn, sr, wr, w⟩, server⟩ := s
  subst hpc
  unfold MessengerPublisherApp.publishFromSharedState at h
  dsimp only at h
  split_ifs at h with hd hm hs hle <;> cases h
  · exact ⟨1, by simp [Machine.run, machine, step, MessengerPublisherApp.step,
      MessengerPublisherApp.threadStep, hd]⟩
  · exact ⟨3, by simp [Machine.run, machine, step, MessengerPublisherApp.step,
      MessengerPublisherApp.threadStep, hd, hs, List.replicate]⟩
  · have hm' : 0 < m := hm.resolve_right hs
    exact ⟨4, by simp [Machine.run, machine, step, MessengerPublisherApp.step,
      MessengerPublisherApp.threadStep, hd, hs, hm', hle, List.replicate]⟩
  · have hm' : 0 < m := hm.resolve_right hs
    exact ⟨5, by simp [Machine.run, machine, step, MessengerPublisherApp.step,
      MessengerPublisherApp.threadStep, hd, hs, hm', hle, List.replicate,
      MessengerPublisherApp.writeSample]⟩

/-- A tick that can fire, left alone, does what `broadcastTick` says. -/
theorem run_broadcastTick {s : PublisherProcess} (fails : ConnectionHdl → Bool)
    (h : s.server.CanTick) :
    ∃ es, machine.run s es = some { s with
      server := { s.server with cast := s.server.broadcastTick s.shared fails } } := by
  obtain ⟨hr, hh, ha⟩ := h
  obtain ⟨producer, shared, publisher, ⟨running, rpc, l, st, cs, ta, it, b⟩⟩ := s
  simp only [WebSocketServer.takesHandler, Bool.and_eq_true, Bool.not_eq_true'] at hh ha hr
  obtain ⟨⟨hpc, hst⟩, hit⟩ := hh
  subst ha hr hst hit
  by_cases hw : b.wants shared = true
  · refine ⟨[.server .tick, .server (.emit fails)], ?_⟩
    simp [Machine.run, machine, step, WebSocketServer.step, WebSocketServer.takesHandler,
      WebSocketServer.broadcastTick, hpc, hw]
  · refine ⟨[.server .tick], ?_⟩
    simp [Machine.run, machine, step, WebSocketServer.step, WebSocketServer.takesHandler,
      WebSocketServer.broadcastTick, hpc, hw]

/-! ### A run past the width of the sequence -/

/-- The event loop of the producer waits for its timer and no stop was called. -/
structure Ticking (s : PublisherProcess) : Prop where
  pc : s.producer.pc = .eventLoop
  timer : s.producer.timer = .armed
  running : s.producer.running = true
  context : s.producer.contextStopped = false

/-- A tick of a running producer adds one update and leaves the consumers alone. -/
theorem run_tick {s : PublisherProcess} (h : Ticking s) (lon lat : Double) (t : Int64) :
    ∃ u, machine.run s (tickEvents lon lat t) = some u ∧ Ticking u ∧
      u.publisher = s.publisher ∧ u.server = s.server ∧
      u.shared.updates.length = s.shared.updates.length + 1 := by
  obtain ⟨⟨pc, running, seq, timer, context, a, b, c, n⟩, shared, publisher, server⟩ := s
  obtain ⟨rfl, rfl, rfl, rfl⟩ := h
  exact ⟨_, rfl, ⟨rfl, rfl, rfl, rfl⟩, rfl, rfl, by simp [storeUpdate]⟩

theorem run_ticks {s : PublisherProcess} (h : Ticking s) (k : ℕ) :
    ∃ es u, machine.run s es = some u ∧ Ticking u ∧ u.publisher = s.publisher ∧
      u.server = s.server ∧ u.shared.updates.length = s.shared.updates.length + k := by
  induction k with
  | zero => exact ⟨[], s, rfl, h, rfl, rfl, rfl⟩
  | succ k ih =>
    obtain ⟨es, u, hrun, hu, hp, hw, hlen⟩ := ih
    obtain ⟨v, hv, hticking, hp', hw', hlen'⟩ := run_tick hu .zero .zero 0
    exact ⟨_, v, machine.run_trans hrun hv, hticking, hp'.trans hp, hw'.trans hw, by omega⟩

/-- After `2 ^ 32 - 1` further updates the publisher, which has written the first one, has a
reader and an update to write, and writes nothing. -/
theorem stale_after_wrap : ∃ s, machine.Reachable s ∧
    Sampler.lastNumber s.publisher.written < s.shared.updates.length ∧
    0 < s.publisher.matched ∧ s.publisher.stop = false ∧ ¬PublishesLatest s ∧ ¬Fresh s := by
  obtain ⟨s₀, hrun₀, hticking, hw, hm, hs, hlen⟩ : ∃ s, machine.run init (startEvents ++
      tickEvents .zero .zero 5 ++ publishEvents true) = some s ∧ Ticking s ∧
      Sampler.lastNumber s.publisher.written = 1 ∧ 0 < s.publisher.matched ∧
      s.publisher.stop = false ∧ s.shared.updates.length = 1 :=
    ⟨_, rfl, ⟨rfl, rfl, rfl, rfl⟩, rfl, by decide, rfl, rfl⟩
  obtain ⟨es, s, hrun, -, hp, -, hlen'⟩ := run_ticks hticking (2 ^ 32 - 1)
  have hreach : machine.Reachable s := (Machine.reachable_of_run hrun₀).run hrun
  have hlast : Sampler.lastNumber s.publisher.written = 1 := by rw [hp, hw]
  have htotal : s.shared.updates.length = 2 ^ 32 := by rw [hlen', hlen]; rfl
  have hbehind : Sampler.lastNumber s.publisher.written < s.shared.updates.length := by
    rw [hlast, htotal]
    decide
  have hm' : 0 < s.publisher.matched := by rw [hp]; exact hm
  have hs' : s.publisher.stop = false := by rw [hp]; exact hs
  have hstale : ¬PublishesLatest s := by
    rw [publishesLatest_iff hreach hm' hs', htotal, hlast]
    decide
  exact ⟨s, hreach, hbehind, hm', hs', hstale, fun hf => hstale (hf.publisher hbehind hm' hs')⟩

end PublisherProcess

end CoordinateStream
