import CoordinateStream.PublisherProcess

namespace CoordinateStream

/-! Both consumers of the cell sample the log of updates through a cursor. -/

/-- The order in which a consumer compares data. -/
def sequenceKey (d : CoordinateData) : ℕ := d.sequence.toNat

namespace CoordinateProducer

/-- The `n`th update of a log carries the sequence `n`, modulo the width of the counter. -/
def Numbered (log : List CoordinateData) : Prop :=
  ∀ i d, log[i]? = some d → sequenceKey d = (i + 1) % 2 ^ 32

structure Inv (p : CoordinateProducer) (log : List CoordinateData) : Prop where
  numbered : Numbered log
  count : p.sequence.toNat = (log.length + p.drawn) % 2 ^ 32
  inHand : ∀ lon lat t q, p.pc = .sequenced lon lat t q → q = p.sequence

theorem Numbered.concat {log : List CoordinateData} (h : Numbered log) {d : CoordinateData}
    (hd : sequenceKey d = (log.length + 1) % 2 ^ 32) : Numbered (log ++ [d]) := by
  intro i e he
  by_cases hi : i < log.length
  · rw [List.getElem?_append_left hi] at he
    exact h i e he
  · rw [List.getElem?_append_right (by omega)] at he
    have hlt := (List.getElem?_eq_some_iff.mp he).1
    simp only [List.length_singleton] at hlt
    rw [show i = log.length by omega] at he ⊢
    simp only [Nat.sub_self, List.getElem?_cons_zero, Option.some.injEq] at he
    rw [← he, hd]

theorem init_inv : Inv init [] :=
  ⟨fun i d h => by simp at h, rfl, fun _ _ _ _ h => by cases h⟩

/-- A step either makes no update and keeps what is drawn, or draws a number, or spends it. -/
theorem step_cases {p q : CoordinateProducer} {e : Event} {u : Option CoordinateData}
    (h : p.step e = some (q, u)) :
    (u = none ∧ q.sequence = p.sequence ∧ q.drawn = p.drawn ∧
      ∀ lon lat t n, q.pc = .sequenced lon lat t n → p.pc = .sequenced lon lat t n) ∨
    (∃ lon lat t, p.pc = .generated lon lat t ∧ u = none ∧
      q = { p with sequence := p.sequence + 1, pc := .sequenced lon lat t (p.sequence + 1) }) ∨
    (∃ lon lat t n, p.pc = .sequenced lon lat t n ∧ u = some ⟨lon, lat, t, n⟩ ∧
      q = { p with pc := .updated }) := by
  cases e with
  | fetchAdd =>
    simp only [step] at h
    split at h
    · next lon lat t hpc =>
      simp only [Option.some.injEq, Prod.mk.injEq] at h
      exact .inr (.inl ⟨lon, lat, t, hpc, h.2.symm, h.1.symm⟩)
    · cases h
  | update =>
    simp only [step] at h
    split at h
    · next lon lat t n hpc =>
      simp only [Option.some.injEq, Prod.mk.injEq] at h
      exact .inr (.inr ⟨lon, lat, t, n, hpc, h.2.symm, h.1.symm⟩)
    · cases h
  | scheduleTest =>
    simp only [step] at h
    split at h
    · next hpc =>
      simp only [Option.some.injEq, Prod.mk.injEq] at h
      obtain ⟨rfl, rfl⟩ := h
      refine .inl ⟨rfl, rfl, ?_, ?_⟩ <;> cases p.running <;> simp [drawn, hpc]
    · next hpc =>
      simp only [Option.some.injEq, Prod.mk.injEq] at h
      obtain ⟨rfl, rfl⟩ := h
      refine .inl ⟨rfl, rfl, ?_, ?_⟩ <;> cases p.running <;> simp [drawn, hpc]
    · cases h
  | arm =>
    simp only [step] at h
    split at h
    · next hpc =>
      simp only [Option.some.injEq, Prod.mk.injEq] at h
      obtain ⟨rfl, rfl⟩ := h
      exact .inl ⟨rfl, rfl, by simp [drawn, hpc], by simp⟩
    · cases h
  | start =>
    simp only [step, Option.ite_none_right_eq_some, Option.some.injEq, Prod.mk.injEq] at h
    obtain ⟨hpc, rfl, rfl⟩ := h
    refine .inl ⟨rfl, rfl, ?_, ?_⟩ <;> cases p.running <;> simp [drawn, hpc]
  | fire lon lat t =>
    simp only [step, Option.ite_none_right_eq_some, Option.some.injEq, Prod.mk.injEq] at h
    obtain ⟨⟨hpc, -⟩, rfl, rfl⟩ := h
    exact .inl ⟨rfl, rfl, by simp [drawn, hpc], by simp⟩
  | leaveLoop =>
    simp only [step, Option.ite_none_right_eq_some, Option.some.injEq, Prod.mk.injEq] at h
    obtain ⟨⟨hpc, -⟩, rfl, rfl⟩ := h
    exact .inl ⟨rfl, rfl, by simp [drawn, hpc], by simp⟩
  | abort | stopCancel | stopContext =>
    simp only [step, Option.ite_none_right_eq_some, Option.some.injEq, Prod.mk.injEq] at h
    obtain ⟨-, rfl, rfl⟩ := h
    exact .inl ⟨rfl, rfl, rfl, fun _ _ _ _ hq => hq⟩
  | stopStore =>
    simp only [step, Option.some.injEq, Prod.mk.injEq] at h
    obtain ⟨rfl, rfl⟩ := h
    exact .inl ⟨rfl, rfl, rfl, fun _ _ _ _ hq => hq⟩

theorem step_inv {p q : CoordinateProducer} {e : Event} {u : Option CoordinateData}
    {log : List CoordinateData} (h : Inv p log) (hs : p.step e = some (q, u)) :
    Inv q (log ++ u.toList) := by
  rcases step_cases hs with ⟨rfl, hseq, hdrawn, hpc⟩ | ⟨lon, lat, t, hpc, rfl, rfl⟩ |
      ⟨lon, lat, t, n, hpc, rfl, rfl⟩
  · simp only [Option.toList_none, List.append_nil]
    refine ⟨h.numbered, ?_, ?_⟩
    · rw [hseq, hdrawn]
      exact h.count
    · intro lon lat t n hq
      rw [hseq]
      exact h.inHand lon lat t n (hpc lon lat t n hq)
  · simp only [Option.toList_none, List.append_nil]
    have hcount := h.count
    refine ⟨h.numbered, ?_, ?_⟩
    · simp only [drawn, hpc, Nat.add_zero] at hcount ⊢
      rw [UInt32.toNat_add, hcount]
      simp
    · intro _ _ _ _ hq
      cases hq
      rfl
  · have hn := h.inHand lon lat t n hpc
    have hcount := h.count
    subst hn
    simp only [drawn, hpc] at hcount
    refine ⟨h.numbered.concat hcount, ?_, ?_⟩
    · simpa [drawn] using hcount
    · intro _ _ _ _ hq
      cases hq

end CoordinateProducer

namespace MessengerPublisherApp

/-- The thread neither holds an unwritten sample nor has an OK write to count. -/
def Pc.quiet : Pc → Bool
  | .write _ | .returned true => false
  | _ => true

/-- Nothing that counts or records a write changes. -/
structure Frame (p q : MessengerPublisherApp) : Prop where
  written : q.written = p.written := by rfl
  writes : q.writes = p.writes := by rfl
  cursor : q.lastPublishedSequence = p.lastPublishedSequence := by rfl
  samples : q.samplesSent = p.samplesSent := by rfl

theorem notifyOne_pc (p : MessengerPublisherApp) :
    p.notifyOne.pc = p.pc ∨ p.pc.quiet ∧ p.notifyOne.pc.quiet := by
  unfold notifyOne
  cases p.pc <;> simp [Pc.quiet]

theorem threadStep_cases {shared : SharedCoordinateState} {ok : Bool}
    {p q : MessengerPublisherApp} (h : p.threadStep shared ok = some q) :
    (p.pc.quiet ∧ q.pc.quiet ∧ Frame p q) ∨
    (p.pc = .read ∧ p.lastPublishedSequence < shared.latest.sequence ∧
      q = { p with pc := .write shared.read }) ∨
    (∃ e, p.pc = .write e ∧ q = { p.writeSample e ok with pc := .returned ok }) ∨
    (p.pc = .returned true ∧
      q = { p with samplesSent := p.samplesSent + 1, pc := .periodTest }) := by
  unfold threadStep at h
  cases hpc : p.pc with
  | read =>
    simp only [hpc, Option.some.injEq] at h
    subst h
    by_cases hle : shared.getLatest.sequence ≤ p.lastPublishedSequence
    · rw [if_pos hle]
      exact .inl ⟨rfl, rfl, { }⟩
    · rw [if_neg hle]
      exact .inr (.inl ⟨rfl, UInt32.not_le.mp hle, rfl⟩)
  | write e =>
    simp only [hpc, Option.some.injEq] at h
    exact .inr (.inr (.inl ⟨e, rfl, h.symm⟩))
  | returned ret =>
    simp only [hpc, Option.some.injEq] at h
    subst h
    cases ret with
    | true => exact .inr (.inr (.inr ⟨rfl, rfl⟩))
    | false => exact .inl ⟨rfl, rfl, { }⟩
  | waitBlocked | periodBlocked | finished => simp [hpc] at h
  | notStarted | waitBlock | periodBlock =>
    simp only [hpc, Option.some.injEq] at h
    subst h
    exact .inl ⟨rfl, rfl, { }⟩
  | loop | publish | waitTest | waited | periodTest =>
    simp only [hpc, Option.some.injEq] at h
    subst h
    refine .inl ⟨rfl, ?_, { }⟩
    dsimp only
    split_ifs <;> rfl

/-- A step reads fresh data, writes the sample in hand, counts an OK write, or leaves all of
that alone. -/
theorem step_cases {shared : SharedCoordinateState} {p q : MessengerPublisherApp} {e : Event}
    (h : p.step shared e = some q) :
    ((q.pc = p.pc ∨ p.pc.quiet ∧ q.pc.quiet) ∧ Frame p q) ∨
    (p.pc = .read ∧ p.lastPublishedSequence < shared.latest.sequence ∧
      q = { p with pc := .write shared.read }) ∨
    (∃ d ok, e = .thread ok ∧ p.pc = .write d ∧
      q = { p.writeSample d ok with pc := .returned ok }) ∨
    (p.pc = .returned true ∧
      q = { p with samplesSent := p.samplesSent + 1, pc := .periodTest }) := by
  cases e with
  | thread ok =>
    rcases threadStep_cases h with ⟨hp, hq, hf⟩ | hread | ⟨d, hpc, rfl⟩ | hret
    · exact .inl ⟨.inr ⟨hp, hq⟩, hf⟩
    · exact .inr (.inl hread)
    · exact .inr (.inr (.inl ⟨d, ok, rfl, hpc, rfl⟩))
    · exact .inr (.inr (.inr hret))
  | timeout =>
    simp only [step, Option.ite_none_right_eq_some, Option.some.injEq] at h
    obtain ⟨hpc, rfl⟩ := h
    exact .inl ⟨.inr ⟨by rw [hpc]; rfl, rfl⟩, { }⟩
  | matched info =>
    simp only [step, Option.ite_none_left_eq_some, Option.some.injEq] at h
    obtain ⟨-, rfl⟩ := h
    unfold onPublicationMatched
    split_ifs <;> exact .inl ⟨.inl rfl, { }⟩
  | matchedNotify =>
    simp only [step, Option.ite_none_right_eq_some, Option.some.injEq] at h
    obtain ⟨-, rfl⟩ := h
    exact .inl ⟨notifyOne_pc p, { }⟩
  | stopStore =>
    simp only [step, Option.some.injEq] at h
    subst h
    exact .inl ⟨.inl rfl, { }⟩
  | stopNotify =>
    simp only [step, Option.ite_none_right_eq_some, Option.some.injEq] at h
    obtain ⟨-, rfl⟩ := h
    exact .inl ⟨notifyOne_pc p, { }⟩

/-- A step appends the sample in hand where its write returns OK, and else appends none. -/
theorem step_written {shared : SharedCoordinateState} {p q : MessengerPublisherApp} {e : Event}
    (h : p.step shared e = some q) :
    (∃ d, p.pc = .write d ∧ e = .thread true ∧ q.written = p.written ++ [d]) ∨
    ((∀ d, p.pc = .write d → e ≠ .thread true) ∧ q.written = p.written) := by
  by_cases hok : ∃ d, p.pc = .write d ∧ e = .thread true
  · obtain ⟨d, hpc, rfl⟩ := hok
    simp only [step, threadStep, hpc, Option.some.injEq] at h
    rw [← h]
    exact .inl ⟨d, hpc, rfl, rfl⟩
  · have hne : ∀ d, p.pc = .write d → e ≠ .thread true := fun d hpc he => hok ⟨d, hpc, he⟩
    refine .inr ⟨hne, ?_⟩
    rcases step_cases h with ⟨-, hf⟩ | ⟨-, -, rfl⟩ | ⟨d, ok, he, hpc, rfl⟩ | ⟨-, rfl⟩
    · exact hf.written
    · rfl
    · have hfalse : ok = false := Bool.eq_false_iff.mpr fun ht => hne d hpc (ht ▸ he)
      rw [hfalse]
      rfl
    · rfl

/-- An OK write that `run` has not counted yet. -/
def uncounted (p : MessengerPublisherApp) : ℕ := if p.pc = .returned true then 1 else 0

structure Inv (p : MessengerPublisherApp) (log : List CoordinateData) : Prop where
  sampler : Sampler.Inv sequenceKey 0 log p.written p.lastPublishedSequence.toNat
  pending : ∀ e, p.pc = .write e →
    Sampler.Pending sequenceKey log p.written p.lastPublishedSequence.toNat e
  count : p.samplesSent.toNat + p.uncounted = p.written.length

theorem init_inv : Inv init [] := ⟨.nil, fun _ h => (nomatch h), rfl⟩

theorem Inv.append {p : MessengerPublisherApp} {log : List CoordinateData} (h : Inv p log)
    (more : List CoordinateData) : Inv p (log ++ more) :=
  ⟨h.sampler.append more, fun e he => (h.pending e he).append more, h.count⟩

theorem uncounted_of_quiet {p : MessengerPublisherApp} (h : p.pc.quiet) : p.uncounted = 0 := by
  unfold uncounted
  rw [if_neg]
  intro hpc
  rw [hpc] at h
  cases h

theorem step_inv {shared : SharedCoordinateState} {p q : MessengerPublisherApp} {e : Event}
    (h : Inv p shared.updates) (hs : p.step shared e = some q) : Inv q shared.updates := by
  rcases step_cases hs with ⟨hpc, hf⟩ | ⟨hpc, hfresh, rfl⟩ | ⟨d, ok, -, hpc, rfl⟩ | ⟨hpc, rfl⟩
  · have hcount : q.uncounted = p.uncounted := by
      rcases hpc with hpc | ⟨hp, hq⟩
      · simp only [uncounted, hpc]
      · rw [uncounted_of_quiet hp, uncounted_of_quiet hq]
    refine ⟨?_, ?_, ?_⟩
    · rw [hf.written, hf.cursor]
      exact h.sampler
    · intro e he
      rw [hf.written, hf.cursor]
      rcases hpc with hpc | ⟨-, hq⟩
      · exact h.pending e (hpc ▸ he)
      · rw [he] at hq
        cases hq
    · rw [hf.samples, hf.written, hcount]
      exact h.count
  · refine ⟨h.sampler, ?_, ?_⟩
    · intro e he
      cases he
      have hlast := SharedCoordinateState.getLast?_of_lt hfresh
      exact h.sampler.pending_last hlast (UInt32.lt_iff_toNat_lt.mp hfresh)
    · have := h.count
      simpa [uncounted, hpc] using this
  · have hcount := h.count
    have hzero : p.uncounted = 0 := by simp [uncounted, hpc]
    cases ok with
    | true =>
      refine ⟨h.sampler.take (h.pending d hpc), fun _ he => (nomatch he), ?_⟩
      simp only [writeSample, uncounted, ↓reduceIte, List.length_append, List.length_singleton]
      omega
    | false =>
      refine ⟨h.sampler, fun _ he => (nomatch he), ?_⟩
      simp only [writeSample, uncounted, Bool.false_eq_true, ↓reduceIte, Pc.returned.injEq]
      omega
  · refine ⟨h.sampler, fun _ he => (nomatch he), ?_⟩
    have hcount := h.count
    have hlen := h.sampler.length_le
    have hcursor := p.lastPublishedSequence.toNat_lt
    have hone : p.uncounted = 1 := by simp [uncounted, hpc]
    -- the count cannot wrap: it is at most the cursor
    have hadd : (p.samplesSent + 1).toNat = p.samplesSent.toNat + 1 := by
      rw [UInt32.toNat_add]
      simp only [UInt32.toNat_one]
      omega
    simp only [uncounted, reduceCtorEq, ↓reduceIte, hadd]
    omega

end MessengerPublisherApp

namespace WebSocketServer

/-- The consumer part of the server: its cursor against its broadcasts. -/
structure Inv (b : Broadcaster) (log : List CoordinateData) : Prop where
  sampler : Sampler.Inv sequenceKey 0 log b.broadcasts b.lastBroadcastSequence.toNat
  count : b.broadcastsSent.toNat = b.broadcasts.length

theorem init_inv : Inv Broadcaster.init [] := ⟨.nil, rfl⟩

theorem Inv.append {b : Broadcaster} {log : List CoordinateData} (h : Inv b log)
    (more : List CoordinateData) : Inv b (log ++ more) := ⟨h.sampler.append more, h.count⟩

namespace Broadcaster

@[simp] theorem onOpen_broadcasts (b : Broadcaster) (h : ConnectionHdl) :
    (b.onOpen h).broadcasts = b.broadcasts := by simp [broadcasts, onOpen, LoopEvent.entry]

@[simp] theorem onClose_broadcasts (b : Broadcaster) (h : ConnectionHdl) :
    (b.onClose h).broadcasts = b.broadcasts := by simp [broadcasts, onClose, LoopEvent.entry]

theorem broadcastLatest_broadcasts (b : Broadcaster) (shared : SharedCoordinateState)
    (fails : ConnectionHdl → Bool) : (b.broadcastLatest shared fails).broadcasts =
      if b.lastBroadcastSequence < shared.latest.sequence then b.broadcasts ++ [shared.read]
      else b.broadcasts := by
  unfold broadcastLatest SharedCoordinateState.getLatest
  split_ifs <;> simp [broadcasts, LoopEvent.entry]

end Broadcaster

theorem broadcastLatest_inv {shared : SharedCoordinateState} {b : Broadcaster}
    (h : Inv b shared.updates) (fails : ConnectionHdl → Bool) :
    Inv (b.broadcastLatest shared fails) shared.updates := by
  have hb := b.broadcastLatest_broadcasts shared fails
  by_cases hfresh : b.lastBroadcastSequence < shared.latest.sequence
  · rw [if_pos hfresh] at hb
    have hlast := SharedCoordinateState.getLast?_of_lt hfresh
    have hpend := h.sampler.pending_last hlast (UInt32.lt_iff_toNat_lt.mp hfresh)
    have hlen := (h.sampler.take hpend).length_le
    have hcursor := shared.latest.sequence.toNat_lt
    have hcount := h.count
    simp only [List.length_append, List.length_singleton, sequenceKey] at hlen
    have hcur :
        (b.broadcastLatest shared fails).lastBroadcastSequence = shared.latest.sequence := by
      simp [Broadcaster.broadcastLatest, SharedCoordinateState.getLatest, hfresh]
    have hsent : (b.broadcastLatest shared fails).broadcastsSent = b.broadcastsSent + 1 := by
      simp [Broadcaster.broadcastLatest, SharedCoordinateState.getLatest, hfresh]
    refine ⟨?_, ?_⟩
    · rw [hb, hcur]
      exact h.sampler.take hpend
    · rw [hb, hsent, UInt32.toNat_add, List.length_append, List.length_singleton]
      simp only [UInt32.toNat_one]
      omega
  · have hsame : b.broadcastLatest shared fails = b := by
      rw [Broadcaster.broadcastLatest, SharedCoordinateState.getLatest, if_neg hfresh]
    rw [hsame]
    exact h

/-- A step leaves what the handlers share alone, or is one of the three that change it. -/
theorem step_cast {shared : SharedCoordinateState} {s t : WebSocketServer} {e : Event}
    (h : s.step shared e = some t) :
    t.cast = s.cast ∨ (∃ k, e = .onOpen k ∧ t.cast = s.cast.onOpen k) ∨
      (∃ k, e = .onClose k ∧ t.cast = s.cast.onClose k) ∨
      ∃ fails, e = .emit fails ∧ t.cast = s.cast.broadcastLatest shared fails := by
  cases e with
  | run ok => exact .inl (runStep_frame h).cast
  | stop i throws => exact .inl (stopStep_frame h).cast
  | onOpen k =>
    simp only [step, Option.ite_none_right_eq_some, Option.some.injEq] at h
    exact .inr (.inl ⟨k, rfl, h.2 ▸ rfl⟩)
  | onClose k =>
    simp only [step, Option.ite_none_right_eq_some, Option.some.injEq] at h
    exact .inr (.inr (.inl ⟨k, rfl, h.2 ▸ rfl⟩))
  | tick =>
    simp only [step, Option.ite_none_right_eq_some, Option.some.injEq] at h
    exact .inl (h.2 ▸ rfl)
  | emit fails =>
    simp only [step, Option.ite_none_right_eq_some, Option.some.injEq] at h
    exact .inr (.inr (.inr ⟨fails, rfl, h.2 ▸ rfl⟩))

theorem step_inv {shared : SharedCoordinateState} {s t : WebSocketServer} {e : Event}
    (h : Inv s.cast shared.updates) (hs : s.step shared e = some t) :
    Inv t.cast shared.updates := by
  rcases step_cast hs with hc | ⟨k, -, hc⟩ | ⟨k, -, hc⟩ | ⟨fails, -, hc⟩
  · rw [hc]
    exact h
  · rw [hc]
    refine ⟨?_, ?_⟩
    · rw [Broadcaster.onOpen_broadcasts]
      exact h.sampler
    · rw [Broadcaster.onOpen_broadcasts]
      exact h.count
  · rw [hc]
    refine ⟨?_, ?_⟩
    · rw [Broadcaster.onClose_broadcasts]
      exact h.sampler
    · rw [Broadcaster.onClose_broadcasts]
      exact h.count
  · rw [hc]
    exact broadcastLatest_inv h fails

end WebSocketServer

namespace PublisherProcess

structure Inv (s : PublisherProcess) : Prop where
  producer : s.producer.Inv s.shared.updates
  publisher : s.publisher.Inv s.shared.updates
  server : WebSocketServer.Inv s.server.cast s.shared.updates

theorem step_inv {s t : PublisherProcess} {e : Event} (h : Inv s)
    (hs : machine.step s e = some t) : Inv t := by
  rcases step_cases hs with ⟨a, p, u, -, hp, rfl⟩ | ⟨a, p, -, hp, rfl⟩ | ⟨a, w, -, hw, rfl⟩
  · constructor
    · simpa using CoordinateProducer.step_inv h.producer hp
    · simpa using h.publisher.append u.toList
    · simpa using h.server.append u.toList
  · exact ⟨h.producer, MessengerPublisherApp.step_inv h.publisher hp, h.server⟩
  · exact ⟨h.producer, h.publisher, WebSocketServer.step_inv h.server hw⟩

/-- The log, the two cursors and the two counters agree in every reachable state. -/
theorem inv_of_reachable {s : PublisherProcess} (h : machine.Reachable s) : Inv s :=
  h.invariant
    ⟨CoordinateProducer.init_inv, MessengerPublisherApp.init_inv, WebSocketServer.init_inv⟩
    fun _ hi _ hs => step_inv hi hs

/-- A stream of entries read from the cell, as a consumer may emit it: sequences strictly
increasing and never zero, every entry the data of one `update` call, later entries from
later calls. -/
structure Emitted (updates : List CoordinateData) (stream : List (Sampler.Entry CoordinateData)) :
    Prop where
  increasing : stream.Pairwise fun d e => d.item.sequence < e.item.sequence
  nonzero : ∀ e ∈ stream, e.item.sequence ≠ 0
  fromUpdate : ∀ e ∈ stream, 0 < e.number ∧ updates[e.number - 1]? = some e.item
  later : stream.Pairwise fun d e => d.number < e.number

theorem emitted_of_sampler {log : List CoordinateData}
    {stream : List (Sampler.Entry CoordinateData)} {cursor : ℕ}
    (h : Sampler.Inv sequenceKey 0 log stream cursor) : Emitted log stream where
  increasing := h.increasing.imp fun hlt => UInt32.lt_iff_toNat_lt.mpr hlt
  nonzero e he hz := by
    have hpos := h.above e he
    rw [sequenceKey, hz] at hpos
    exact absurd hpos (by decide)
  fromUpdate := h.names
  later := h.ordered

structure Emission (s : PublisherProcess) : Prop where
  written : Emitted s.shared.updates s.publisher.written
  broadcasts : Emitted s.shared.updates s.server.cast.broadcasts
  /-- `run` has counted the OK writes, but for the moment between the return of one and its
  count. -/
  samplesSent : s.publisher.pc ≠ .returned true →
    s.publisher.samplesSent.toNat = s.publisher.written.length
  samplesSent_le : s.publisher.samplesSent ≤ s.publisher.lastPublishedSequence
  broadcastsSent : s.server.cast.broadcastsSent.toNat = s.server.cast.broadcasts.length

/-- Both consumers emit well in every interleaving, wrapped sequences included. -/
theorem emission_of_reachable {s : PublisherProcess} (h : machine.Reachable s) : Emission s := by
  obtain ⟨-, hpub, hserver⟩ := inv_of_reachable h
  refine ⟨emitted_of_sampler hpub.sampler, emitted_of_sampler hserver.sampler, ?_, ?_,
    hserver.count⟩
  · intro hpc
    have hcount := hpub.count
    rw [MessengerPublisherApp.uncounted, if_neg hpc, Nat.add_zero] at hcount
    exact hcount
  · have hcount := hpub.count
    have hlen := hpub.sampler.length_le
    exact UInt32.le_iff_toNat_le.mpr (by omega)

/-- One tick of the producer once its event loop runs. -/
def tickEvents (lon lat : Double) (timestamp : Int64) : List Event :=
  [.fire lon lat timestamp, .fetchAdd, .update, .scheduleTest, .arm].map .producer

/-- Start of all three threads, a match and a client. -/
def startEvents : List Event :=
  [.start, .scheduleTest, .arm].map .producer ++
  [.thread true, .thread true, .matched ⟨1, 1⟩, .matchedNotify].map .publisher ++
  (List.replicate 7 (.run true)).map .server ++ [.server (.onOpen 1)]

open MessengerPublisherApp.Event in
/-- The thread of `run` from a call of `publish_from_shared_state` to the next one. -/
def publishEvents (ok : Bool) : List Event :=
  (List.replicate 8 (thread ok) ++ [timeout, thread ok]).map .publisher

/-- A failed write, a later OK one and a broadcast, with three updates. -/
def demoEvents : List Event :=
  startEvents ++ tickEvents .zero .zero 5 ++ publishEvents false ++ tickEvents .zero .zero 25 ++
    publishEvents true ++ tickEvents .zero .zero 45 ++
    [.server .tick, .server (.emit fun _ => true)]

theorem emission_demo : ∃ s, machine.run init demoEvents = some s ∧
    s.publisher.written.map (·.number) = [2] ∧ s.server.cast.broadcasts.map (·.number) = [3] ∧
    Emission s := by
  obtain ⟨s, hs, hw, hb⟩ : ∃ s, machine.run init demoEvents = some s ∧
      s.publisher.written.map (·.number) = [2] ∧
      s.server.cast.broadcasts.map (·.number) = [3] := ⟨_, rfl, rfl, rfl⟩
  exact ⟨s, hs, hw, hb, emission_of_reachable (Machine.reachable_of_run hs)⟩

end PublisherProcess

end CoordinateStream
