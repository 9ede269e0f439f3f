import CoordinateStream.Parsing

namespace CoordinateStream

/-! A whole call of `on_data_available` over the queue of its reader. -/

namespace MessengerSubscriberApp

variable {round : ℚ≥0 → Option ℚ≥0}

/-- The take loop over what `take_next_sample` hands over before it has no more, with what
is left in the queue. -/
def takeLoop (round : ℚ≥0 → Option ℚ≥0) :
    List TakenSample → MessengerSubscriberApp → MessengerSubscriberApp × List TakenSample
  | [], s => ({ s with callback := .idle }, [])
  | d :: queue, s =>
    if s.stop then ({ s with callback := .idle }, d :: queue)
    else
      let t := s.processSample round d
      if t.callback = .escaped then (t, queue) else takeLoop round queue t

def onDataAvailable (round : ℚ≥0 → Option ℚ≥0) (queue : List TakenSample)
    (s : MessengerSubscriberApp) : MessengerSubscriberApp × List TakenSample :=
  takeLoop round queue { s with callback := .stopTest }

/-- What is expected to come of a counted sample: it is parsed, and forwarded where a server
is set, or it is reported as unparsed. -/
def Handled (round : ℚ≥0 → Option ℚ≥0) (ws : Bool) (d : TakenSample) (out : List Output) : Prop :=
  match coordinates round d.sample with
  | some c => (out.filterMap Output.message).map (·.item.coords) = if ws then [c] else []
  | none => ∃ n, out = [.unparsed n]

/-- The call takes the whole queue and returns, every counted sample is counted once, and
each of them is handled. -/
structure Survives (round : ℚ≥0 → Option ℚ≥0) (queue : List TakenSample)
    (s t : MessengerSubscriberApp) (left : List TakenSample) : Prop where
  drained : left = []
  returns : t.callback = .idle
  count : t.samplesReceived =
    s.samplesReceived + UInt16.ofNat (queue.filter TakenSample.counts).length
  handled : ∃ parts : List (List Output), t.outputs = s.outputs ++ parts.flatten ∧
    List.Forall₂ (Handled round s.wsServer) (queue.filter TakenSample.counts) parts

section processSample

variable {s : MessengerSubscriberApp} {d : TakenSample}

/-- A sample that counts ends the call exactly when its text is refused. -/
theorem processSample_escaped :
    (s.processSample round d).callback = .escaped ↔
      d.counts = true ∧ Refused round d.sample.mText := by
  rw [← parse_error_iff]
  unfold processSample
  by_cases hd : d.counts = true
  · rw [if_pos hd]
    cases hp : parse round d.sample.mText with
    | error e => simp [hd]
    | ok r => cases r <;> simp
  · simp [hd]

/-- Otherwise the loop goes on to its next test. -/
theorem processSample_stopTest (h : (s.processSample round d).callback ≠ .escaped) :
    (s.processSample round d).callback = .stopTest := by
  unfold processSample at h ⊢
  split_ifs with hd
  · rw [if_pos hd] at h
    cases hp : parse round d.sample.mText with
    | error e => simp [hp] at h
    | ok r => cases r <;> rfl
  · rfl

theorem parsedOutputs_handled {c : Coordinates} (hc : coordinates round d.sample = some c) :
    Handled round s.wsServer d (s.parsedOutputs c) := by
  rw [Handled, hc]
  dsimp only
  rw [parsedOutputs_broadcasts]
  cases s.wsServer <;> rfl

/-- A counted sample whose text is not refused is handled. -/
theorem processSample_handled (hd : d.counts = true) (hr : ¬Refused round d.sample.mText) :
    ∃ out, (s.processSample round d).outputs = s.outputs ++ out ∧
      Handled round s.wsServer d out := by
  rw [← parse_error_iff] at hr
  unfold processSample
  rw [if_pos hd]
  cases hp : parse round d.sample.mText with
  | error e => exact (hr ⟨e, hp⟩).elim
  | ok r =>
    cases r with
    | none => exact ⟨_, rfl, by simp only [Handled, coordinates, hp]; exact ⟨_, rfl⟩⟩
    | some c => exact ⟨_, rfl, parsedOutputs_handled (by rw [coordinates, hp])⟩

theorem processSample_outputs (hd : ¬d.counts = true) :
    (s.processSample round d).outputs = s.outputs := by
  rw [processSample, if_neg hd]

end processSample

/-- Behind each sample that is not refused the loop goes on as from there. -/
theorem takeLoop_cons {d : TakenSample} {queue : List TakenSample} {s : MessengerSubscriberApp}
    (hs : s.stop = false) (hd : ¬(d.counts = true ∧ Refused round d.sample.mText)) :
    takeLoop round (d :: queue) s = takeLoop round queue (s.processSample round d) := by
  rw [takeLoop, if_neg (by simp [hs])]
  dsimp only
  rw [if_neg (fun he => hd (processSample_escaped.mp he))]

theorem takeLoop_survives {queue : List TakenSample}
    (hq : ∀ d ∈ queue, d.counts = true → ¬Refused round d.sample.mText)
    {s : MessengerSubscriberApp} (hs : s.stop = false) :
    Survives round queue s (takeLoop round queue s).1 (takeLoop round queue s).2 := by
  induction queue generalizing s with
  | nil => exact ⟨rfl, rfl, by simp [takeLoop], [], by simp [takeLoop], .nil⟩
  | cons d queue ih =>
    have hd : ¬(d.counts = true ∧ Refused round d.sample.mText) := fun h =>
      hq d List.mem_cons_self h.1 h.2
    obtain ⟨hdrained, hreturns, hcount, parts, hout, hparts⟩ :=
      ih (fun e he => hq e (List.mem_cons_of_mem _ he))
        (s := s.processSample round d) ((processSample_stop s d).trans hs)
    rw [takeLoop_cons hs hd]
    rw [processSample_wsServer] at hparts
    by_cases hc : d.counts = true
    · obtain ⟨out, hout', hhandled⟩ := processSample_handled (s := s) hc (hq d (by simp) hc)
      refine ⟨hdrained, hreturns, ?_, out :: parts, ?_, ?_⟩
      · rw [hcount, processSample_samplesReceived, if_pos hc, List.filter_cons_of_pos hc,
          List.length_cons, UInt16.ofNat_add, UInt16.add_assoc,
          UInt16.add_comm (UInt16.ofNat _) (UInt16.ofNat 1)]
        rfl
      · rw [hout, hout', List.flatten_cons, List.append_assoc]
      · rw [List.filter_cons_of_pos hc]
        exact .cons hhandled hparts
    · refine ⟨hdrained, hreturns, ?_, parts, ?_, ?_⟩
      · rw [hcount, processSample_samplesReceived, if_neg hc, List.filter_cons_of_neg hc]
      · rw [hout, processSample_outputs hc]
      · rw [List.filter_cons_of_neg hc]
        exact hparts

/-- The exception leaves the callback at the first counted sample that is refused. -/
theorem takeLoop_escapes {queue : List TakenSample}
    (hq : ∃ d ∈ queue, d.counts = true ∧ Refused round d.sample.mText)
    {s : MessengerSubscriberApp} (hs : s.stop = false) :
    (takeLoop round queue s).1.callback = .escaped := by
  induction queue generalizing s with
  | nil => simp at hq
  | cons d queue ih =>
    by_cases hd : d.counts = true ∧ Refused round d.sample.mText
    · have hescaped := (processSample_escaped (s := s)).mpr hd
      rw [takeLoop, if_neg (by simp [hs])]
      dsimp only
      rw [if_pos hescaped]
      exact hescaped
    · rw [takeLoop_cons hs hd]
      obtain ⟨e, he, hrefused⟩ := hq
      rcases List.mem_cons.mp he with rfl | he
      · exact (hd hrefused).elim
      · exact ih ⟨e, he, hrefused⟩ ((processSample_stop s d).trans hs)

/-- A call that no stop meets survives its queue exactly when no counted sample of it has a
text that the conversions refuse. -/
theorem onDataAvailable_survives_iff {s : MessengerSubscriberApp} (hs : s.stop = false)
    (queue : List TakenSample) :
    Survives round queue s (s.onDataAvailable round queue).1 (s.onDataAvailable round queue).2 ↔
      ∀ d ∈ queue, d.counts = true → ¬Refused round d.sample.mText := by
  constructor
  · intro h d hd hc hr
    have hescaped := takeLoop_escapes ⟨d, hd, hc, hr⟩ (s := { s with callback := .stopTest }) hs
    have hidle : (takeLoop round queue { s with callback := .stopTest }).1.callback = .idle :=
      h.returns
    rw [hescaped] at hidle
    cases hidle
  · intro hq
    obtain ⟨hdrained, hreturns, hcount, hhandled⟩ :=
      takeLoop_survives hq (s := { s with callback := .stopTest }) hs
    exact ⟨hdrained, hreturns, hcount, hhandled⟩

/-- A sample whose text is the given one. -/
def textSample (text : Text) : TakenSample :=
  ⟨{ demoSample.sample with mText := text }, ⟨.alive, true⟩⟩

theorem survives_demo : (init true).stop = false ∧
    (Survives Binary64.round [textSample "no commas".toList, demoSample] (init true)
      ((init true).onDataAvailable Binary64.round [textSample "no commas".toList, demoSample]).1
      ((init true).onDataAvailable Binary64.round [textSample "no commas".toList, demoSample]).2 ↔
    ∀ d ∈ [textSample "no commas".toList, demoSample],
      d.counts = true → ¬Refused Binary64.round d.sample.mText) :=
  ⟨rfl, onDataAvailable_survives_iff rfl _⟩

/-- A longitude that is no number ends the process, and the sample behind it is never taken. -/
theorem escapes_at_text :
    ((init true).onDataAvailable Binary64.round
      [textSample "abc,1,2".toList, demoSample]).2 = [demoSample] ∧
    ¬Survives Binary64.round [textSample "abc,1,2".toList, demoSample] (init true)
      ((init true).onDataAvailable Binary64.round [textSample "abc,1,2".toList, demoSample]).1
      ((init true).onDataAvailable Binary64.round [textSample "abc,1,2".toList, demoSample]).2 := by
  have hleft : ((init true).onDataAvailable Binary64.round
      [textSample "abc,1,2".toList, demoSample]).2 = [demoSample] := by decide +kernel
  refine ⟨hleft, fun h => ?_⟩
  have hdrained := h.drained
  rw [hleft] at hdrained
  cases hdrained

/-! ### The loop as the events of the callback -/

/-- The state of the loop is that of the machine after the events of the callback, which
take what is no longer in the queue. -/
theorem run_takeLoop (round : ℚ≥0 → Option ℚ≥0) (ws : Bool) (queue : List TakenSample)
    {s : MessengerSubscriberApp} (hc : s.callback = .stopTest) :
    ∃ es, (machine round ws).run s es = some (takeLoop round queue s).1 ∧
      es.flatMap Event.handed ++ (takeLoop round queue s).2 = queue := by
  induction queue generalizing s with
  | nil =>
    cases hs : s.stop with
    | true => exact ⟨[.stopTest], by simp [Machine.run, machine, step, hc, hs, takeLoop], rfl⟩
    | false =>
      exact ⟨[.stopTest, .take none], by simp [Machine.run, machine, step, hc, hs, takeLoop], rfl⟩
  | cons d queue ih =>
    by_cases hs : s.stop = true
    · refine ⟨[.stopTest], ?_, ?_⟩
      · simp [Machine.run, machine, step, hc, hs, takeLoop]
      · simp [Event.handed, hs, takeLoop]
    · have hturn : (machine round ws).run s (turnEvents d) = some (s.processSample round d) := by
        simp [Machine.run, machine, turnEvents, step, hc, hs, processSample, counted,
          parsedOutputs]
      by_cases hescaped : (s.processSample round d).callback = .escaped
      · refine ⟨turnEvents d, ?_, ?_⟩
        · simp [takeLoop, hs, hescaped, hturn]
        · simp [takeLoop, hs, hescaped, turnEvents, Event.handed]
      · obtain ⟨es, hrun, htaken⟩ := ih (processSample_stopTest hescaped)
        refine ⟨turnEvents d ++ es, ?_, ?_⟩
        · rw [takeLoop, if_neg hs]
          dsimp only
          rw [if_neg hescaped]
          exact Machine.run_trans _ hturn hrun
        · rw [takeLoop, if_neg hs]
          dsimp only
          rw [if_neg hescaped, List.flatMap_append, List.append_assoc, htaken]
          rfl

theorem run_onDataAvailable (ws : Bool) (queue : List TakenSample) {s : MessengerSubscriberApp}
    (hc : s.callback = .idle) :
    ∃ es, (machine round ws).run s es = some (s.onDataAvailable round queue).1 ∧
      es.flatMap Event.handed ++ (s.onDataAvailable round queue).2 = queue := by
  obtain ⟨es, hrun, htaken⟩ := run_takeLoop round ws queue
    (s := { s with callback := .stopTest }) rfl
  refine ⟨.dataAvailable :: es, ?_, htaken⟩
  rw [Machine.run_cons_eq_some]
  exact ⟨_, by simp [machine, step, hc], hrun⟩

end MessengerSubscriberApp

end CoordinateStream
