import CoordinateStream.MessengerSubscriberApp

namespace CoordinateStream

/-! The messages of the subscriber are those of the counted samples that parse, each under
the number of its sample as far as the counter reaches. -/

namespace MessengerSubscriberApp

variable {round : ℚ≥0 → Option ℚ≥0}

/-- The coordinates of a sample whose text parses. -/
def coordinates (round : ℚ≥0 → Option ℚ≥0) (m : Message) : Option Coordinates :=
  match parse round m.mText with
  | .ok (some c) => some c
  | _ => none

/-- The parsable ones among the counted samples, by their numbers. -/
def arrivals (round : ℚ≥0 → Option ℚ≥0) (l : List TakenSample) :
    List (Sampler.Entry Coordinates) :=
  (l.zipIdx 1).filterMap fun d => (coordinates round d.1.sample).map (⟨d.2, ·⟩)

/-- The message of an arrival: its number passes through the counter. -/
def forward (e : Sampler.Entry Coordinates) : Sampler.Entry Forward :=
  ⟨e.number, e.item, UInt16.ofNat e.number⟩

theorem arrivals_concat (l : List TakenSample) (d : TakenSample) :
    arrivals round (l ++ [d]) =
      arrivals round l ++ ((coordinates round d.sample).map (⟨l.length + 1, ·⟩)).toList := by
  rw [arrivals, List.zipIdx_append, List.filterMap_append, ← arrivals, Nat.add_comm 1]
  cases hc : coordinates round d.sample <;> simp [hc]

theorem mem_arrivals {l : List TakenSample} {e : Sampler.Entry Coordinates} :
    e ∈ arrivals round l ↔
      ∃ i d, l[i]? = some d ∧ coordinates round d.sample = some e.item ∧ e.number = i + 1 := by
  simp only [arrivals, List.mem_filterMap, Option.map_eq_some_iff]
  constructor
  · rintro ⟨⟨d, n⟩, hmem, c, hc, rfl⟩
    obtain ⟨hle, hget⟩ := List.mk_mem_zipIdx_iff_le_and_getElem?_sub.mp hmem
    exact ⟨n - 1, d, hget, hc, by dsimp only; omega⟩
  · rintro ⟨i, d, hget, hc, hn⟩
    refine ⟨⟨d, i + 1⟩, List.mk_mem_zipIdx_iff_le_and_getElem?_sub.mpr ⟨by omega, ?_⟩, e.item, hc,
      ?_⟩
    · rwa [Nat.add_sub_cancel]
    · rw [← hn]

theorem arrivals_ordered (l : List TakenSample) :
    (arrivals round l).Pairwise fun d e => d.number < e.number := by
  induction l using List.reverseRecOn with
  | nil => exact List.Pairwise.nil
  | append_singleton l d ih =>
    rw [arrivals_concat]
    refine List.pairwise_append.mpr ⟨ih, ?_, ?_⟩
    · cases coordinates round d.sample <;> simp
    · intro a ha b hb
      obtain ⟨i, x, hget, -, hn⟩ := mem_arrivals.mp ha
      have hi := (List.getElem?_eq_some_iff.mp hget).1
      obtain ⟨c, -, rfl⟩ := Option.map_eq_some_iff.mp (Option.mem_toList.mp hb)
      dsimp only
      omega

section processSample

variable (s : MessengerSubscriberApp) (d : TakenSample)

@[simp] theorem processSample_wsServer : (s.processSample round d).wsServer = s.wsServer := by
  unfold processSample
  split
  · split <;> rfl
  · rfl

@[simp] theorem processSample_stop : (s.processSample round d).stop = s.stop := by
  unfold processSample
  split
  · split <;> rfl
  · rfl

@[simp] theorem processSample_processed :
    (s.processSample round d).processed = s.processed ++ [d] := by
  unfold processSample
  split
  · split <;> rfl
  · rfl

theorem processSample_counted : (s.processSample round d).counted =
    if d.counts then s.counted ++ [d] else s.counted := by
  rw [counted, processSample_processed, List.filter_append, ← counted]
  by_cases hd : d.counts = true <;> simp [hd]

theorem processSample_samplesReceived : (s.processSample round d).samplesReceived =
    if d.counts then s.samplesReceived + 1 else s.samplesReceived := by
  unfold processSample
  split
  · split <;> rfl
  · rfl

theorem parsedOutputs_broadcasts (c : Coordinates) :
    (s.parsedOutputs c).filterMap Output.message =
      if s.wsServer then [⟨s.counted.length + 1, c, s.samplesReceived + 1⟩] else [] := by
  unfold parsedOutputs
  split <;> split <;> rfl

/-- Processing passes on a message exactly for a counted sample that parses. -/
theorem processSample_broadcasts : (s.processSample round d).broadcasts = s.broadcasts ++
    if d.counts ∧ s.wsServer then ((coordinates round d.sample).map fun c =>
      (⟨s.counted.length + 1, c, s.samplesReceived + 1⟩ : Sampler.Entry Forward)).toList
    else [] := by
  by_cases hd : d.counts = true
  · rw [processSample, if_pos hd, coordinates]
    rcases parse round d.sample.mText with e | _ | c
    · simp [broadcasts]
    · simp [broadcasts, Output.message]
    · have := s.parsedOutputs_broadcasts c
      simp only [broadcasts, List.filterMap_append, this, hd, true_and, Option.map_some,
        Option.toList_some]
  · rw [processSample, if_neg hd, if_neg fun h => hd h.1, List.append_nil]
    rfl

end processSample

structure Inv (round : ℚ≥0 → Option ℚ≥0) (ws : Bool) (s : MessengerSubscriberApp) : Prop where
  wsServer_eq : s.wsServer = ws
  count : s.samplesReceived = UInt16.ofNat s.counted.length
  broadcasts_eq : s.broadcasts = if ws then (arrivals round s.counted).map forward else []

theorem init_inv (ws : Bool) : Inv round ws (init ws) :=
  ⟨rfl, rfl, by cases ws <;> rfl⟩

theorem processSample_inv {ws : Bool} {s : MessengerSubscriberApp} (h : Inv round ws s)
    (d : TakenSample) : Inv round ws (s.processSample round d) := by
  obtain ⟨hws, hcount, hcast⟩ := h
  have hnext : s.samplesReceived + 1 = UInt16.ofNat (s.counted.length + 1) := by
    rw [hcount, UInt16.ofNat_add]
    rfl
  refine ⟨?_, ?_, ?_⟩
  · rw [processSample_wsServer, hws]
  · rw [processSample_samplesReceived, processSample_counted]
    split
    · rw [hnext, List.length_append, List.length_singleton]
    · exact hcount
  · rw [processSample_broadcasts, processSample_counted, hcast, hws, hnext]
    by_cases hd : d.counts = true
    · cases ws with
      | false => simp
      | true =>
        rw [if_pos hd, arrivals_concat]
        cases hc : coordinates round d.sample <;> simp [hd, forward]
    · simp [hd]

theorem step_inv {ws : Bool} {s t : MessengerSubscriberApp} {e : Event} (h : Inv round ws s)
    (hs : s.step round e = some t) : Inv round ws t := by
  rcases step_cases hs with ⟨d, -, rfl⟩ | ⟨hws, hrec, hproc, hout⟩
  · exact processSample_inv h d
  · have hcounted : t.counted = s.counted := by rw [counted, hproc, counted]
    have hcast : t.broadcasts = s.broadcasts := by rw [broadcasts, hout, broadcasts]
    exact ⟨hws.trans h.wsServer_eq, by rw [hrec, hcounted]; exact h.count,
      by rw [hcast, hcounted]; exact h.broadcasts_eq⟩

/-- In every run the counter and the messages are those of the counted samples. -/
theorem inv_of_reachable {ws : Bool} {s : MessengerSubscriberApp}
    (h : (machine round ws).Reachable s) : Inv round ws s :=
  h.invariant (I := Inv round ws) (init_inv ws) fun _ hi _ hs => step_inv hi hs

/-- The identity of messages as one expects it: every `sample_id` is the number of counted
samples up to and including its own, and they strictly increase. -/
structure Identified (s : MessengerSubscriberApp) : Prop where
  exact_number : ∀ e ∈ s.broadcasts, e.item.sampleId.toNat = e.number
  increasing : s.broadcasts.Pairwise fun d e => d.item.sampleId < e.item.sampleId

/-- Messages are identified exactly as long as every counted sample that parses is among the
first `2 ^ 16 - 1` counted ones, or no server is set to pass them to. -/
theorem identified_iff {ws : Bool} {s : MessengerSubscriberApp}
    (h : (machine round ws).Reachable s) :
    Identified s ↔ (ws = true → ∀ i d, s.counted[i]? = some d →
      (coordinates round d.sample).isSome → i + 1 < 2 ^ 16) := by
  have hcast := (inv_of_reachable h).broadcasts_eq
  constructor
  · rintro hid rfl i d hget hsome
    obtain ⟨c, hc⟩ := Option.isSome_iff_exists.mp hsome
    have hmem : forward ⟨i + 1, c⟩ ∈ s.broadcasts := by
      rw [hcast, if_pos rfl]
      exact List.mem_map_of_mem (mem_arrivals.mpr ⟨i, d, hget, hc, rfl⟩)
    have heq : (UInt16.ofNat (i + 1)).toNat = i + 1 := hid.exact_number _ hmem
    rw [← heq]
    exact UInt16.toNat_lt _
  · intro hlt
    cases ws with
    | false => exact ⟨by simp [hcast], by simp [hcast]⟩
    | true =>
      rw [if_pos rfl] at hcast
      have hnum : ∀ e ∈ arrivals round s.counted,
          (forward e).item.sampleId.toNat = e.number := by
        intro e he
        obtain ⟨i, d, hget, hc, hn⟩ := mem_arrivals.mp he
        have := hlt rfl i d hget (by rw [hc]; rfl)
        exact UInt16.toNat_ofNat_of_lt' (by rw [hn]; exact this)
      refine ⟨?_, ?_⟩
      · intro e he
        rw [hcast] at he
        obtain ⟨a, ha, rfl⟩ := List.mem_map.mp he
        exact hnum a ha
      · rw [hcast, List.pairwise_map]
        apply (arrivals_ordered s.counted).imp_of_mem
        intro a b ha hb hab
        rw [UInt16.lt_iff_toNat_lt, hnum a ha, hnum b hb]
        exact hab

/-! ### A run past the width of the counter -/

/-- One turn of the loop of `on_data_available`. -/
def turnEvents (d : TakenSample) : List Event := [.stopTest, .take (some d), .process]

theorem run_turn (ws : Bool) {s : MessengerSubscriberApp} {d : TakenSample}
    (hc : s.callback = .stopTest) (hstop : s.stop = false)
    (hd : (coordinates round d.sample).isSome) :
    ∃ t, (machine round ws).run s (turnEvents d) = some t ∧ t.callback = .stopTest ∧
      t.stop = false ∧ t.processed = s.processed ++ [d] := by
  obtain ⟨c, hcoord⟩ := Option.isSome_iff_exists.mp hd
  refine ⟨processSample round d { s with callback := .process d }, ?_, ?_, ?_, ?_⟩
  · simp [Machine.run, machine, turnEvents, step, hc, hstop]
  · unfold coordinates at hcoord
    unfold processSample
    split
    · split
      · rfl
      · rfl
      · next he => rw [he] at hcoord; cases hcoord
    · rfl
  · exact (processSample_stop _ d).trans hstop
  · exact processSample_processed _ d

theorem run_turns (ws : Bool) {s : MessengerSubscriberApp} {d : TakenSample}
    (hc : s.callback = .stopTest) (hstop : s.stop = false)
    (hd : (coordinates round d.sample).isSome) (k : ℕ) :
    ∃ es t, (machine round ws).run s es = some t ∧ t.callback = .stopTest ∧ t.stop = false ∧
      t.processed = s.processed ++ List.replicate k d := by
  induction k with
  | zero => exact ⟨[], s, rfl, hc, hstop, by simp⟩
  | succ k ih =>
    obtain ⟨es, t, hrun, hc', hstop', hproc⟩ := ih
    obtain ⟨u, hu, hcu, hsu, hpu⟩ := run_turn ws hc' hstop' hd
    refine ⟨_, u, Machine.run_trans _ hrun hu, hcu, hsu, ?_⟩
    rw [hpu, hproc, List.append_assoc, List.replicate_succ']

def demoSample : TakenSample :=
  ⟨⟨"CoordinatePublisher".toList, "GPS_Coordinates".toList, 1,
    "107.02243000,20.76300000,1700000000000".toList, 1⟩, ⟨.alive, true⟩⟩

theorem demoSample_parses : (coordinates Binary64.round demoSample.sample).isSome := by
  decide +kernel

/-- A run that takes the sample `k` times. -/
theorem exists_run (ws : Bool) (k : ℕ) : ∃ es s, (machine Binary64.round ws).run (init ws) es =
    some s ∧ s.counted = List.replicate k demoSample := by
  obtain ⟨es, s, hrun, -, -, hproc⟩ := run_turns ws
    (s := { init ws with callback := .stopTest }) rfl rfl demoSample_parses k
  refine ⟨.dataAvailable :: es, s, ?_, ?_⟩
  · rw [Machine.run_cons_eq_some]
    exact ⟨_, rfl, hrun⟩
  · rw [counted, hproc]
    exact List.filter_eq_self.mpr fun d hd => List.eq_of_mem_replicate hd ▸ rfl

theorem identified_demo : ∃ es s, (machine Binary64.round true).run (init true) es = some s ∧
    s.counted = [demoSample, demoSample] ∧
    (Identified s ↔ (true = true → ∀ i d, s.counted[i]? = some d →
      (coordinates Binary64.round d.sample).isSome → i + 1 < 2 ^ 16)) := by
  obtain ⟨es, s, hrun, hcounted⟩ := exists_run true 2
  exact ⟨es, s, hrun, hcounted, identified_iff (Machine.reachable_of_run hrun)⟩

/-- The sample number `2 ^ 16`, parsable as all before it, goes out under a wrong number. -/
theorem misidentified_after_wrap : ∃ s, (machine Binary64.round true).Reachable s ∧
    s.counted = List.replicate (2 ^ 16) demoSample ∧ ¬Identified s := by
  obtain ⟨es, s, hrun, hcounted⟩ := exists_run true (2 ^ 16)
  have hreach := Machine.reachable_of_run hrun
  refine ⟨s, hreach, hcounted, fun hid => ?_⟩
  have hcast := (inv_of_reachable hreach).broadcasts_eq
  obtain ⟨c, hc⟩ := Option.isSome_iff_exists.mp demoSample_parses
  have hmem : forward ⟨2 ^ 16, c⟩ ∈ s.broadcasts := by
    rw [hcast, if_pos rfl, hcounted]
    refine List.mem_map_of_mem (mem_arrivals.mpr ⟨2 ^ 16 - 1, demoSample, ?_, hc, rfl⟩)
    rw [List.getElem?_replicate, if_pos (by decide)]
  have heq : (UInt16.ofNat (2 ^ 16)).toNat = 2 ^ 16 := hid.exact_number _ hmem
  exact absurd heq (by decide)

end MessengerSubscriberApp

end CoordinateStream
