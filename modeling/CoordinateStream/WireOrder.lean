import CoordinateStream.Freshness

namespace CoordinateStream

/-! The order that the counts of the written samples carry: the sequence is unsigned in the
cell and signed on the wire. -/

namespace MessengerPublisherApp

theorem sample_count_toInt (d : CoordinateData) : (sample d).mCount.toInt =
    if d.sequence.toNat < 2 ^ 31 then (d.sequence.toNat : ℤ)
    else (d.sequence.toNat : ℤ) - 2 ^ 32 := by
  have hcond := BitVec.toInt_eq_toNat_cond d.sequence.toBitVec
  have hhalf : 2 * d.sequence.toBitVec.toNat < 2 ^ 32 ↔ d.sequence.toNat < 2 ^ 31 := by
    rw [UInt32.toNat_toBitVec]
    omega
  simp only [hhalf] at hcond
  exact_mod_cast hcond

/-- A count is positive exactly when the sequence is one that both types share. -/
theorem sample_count_pos (d : CoordinateData) :
    0 < (sample d).mCount ↔ 0 < d.sequence.toNat ∧ d.sequence.toNat < 2 ^ 31 := by
  have hlt := d.sequence.toNat_lt
  rw [Int32.lt_iff_toInt_lt, sample_count_toInt, Int32.toInt_zero]
  split_ifs with h <;> omega

/-- No two sequences share a count. -/
theorem sample_count_toUInt32 (d : CoordinateData) : (sample d).mCount.toUInt32 = d.sequence :=
  rfl

/-- The counts of the samples that were written OK, in order. -/
def counts (p : MessengerPublisherApp) : List Int32 :=
  p.written.map fun e => (sample e.item).mCount

end MessengerPublisherApp

namespace PublisherProcess

open MessengerPublisherApp (sample)

/-- What a receiver needs to order and deduplicate samples by count. -/
structure WireOrdered (s : PublisherProcess) : Prop where
  increasing : s.publisher.counts.Pairwise (· < ·)
  positive : ∀ c ∈ s.publisher.counts, 0 < c
  determines : ∀ e ∈ s.publisher.written, ∃ d, s.shared.updates[e.number - 1]? = some d ∧
    (sample e.item).mCount.toUInt32 = d.sequence

/-- The signed and the unsigned order agree on what was written exactly as long as no
written sequence reaches the sign bit. -/
theorem wireOrdered_iff {s : PublisherProcess} (h : Inv s) :
    WireOrdered s ↔ ∀ e ∈ s.publisher.written, e.item.sequence.toNat < 2 ^ 31 := by
  have hsampler := h.publisher.sampler
  constructor
  · intro ho e he
    have hpos := ho.positive _ (List.mem_map_of_mem he)
    exact ((MessengerPublisherApp.sample_count_pos e.item).mp hpos).2
  · intro hlt
    refine ⟨?_, ?_, ?_⟩
    · rw [MessengerPublisherApp.counts, List.pairwise_map]
      apply hsampler.increasing.imp_of_mem
      intro a b ha hb hab
      rw [Int32.lt_iff_toInt_lt, MessengerPublisherApp.sample_count_toInt,
        MessengerPublisherApp.sample_count_toInt, if_pos (hlt a ha), if_pos (hlt b hb)]
      exact Int.ofNat_lt.mpr hab
    · intro c hc
      obtain ⟨e, he, rfl⟩ := List.mem_map.mp hc
      exact (MessengerPublisherApp.sample_count_pos e.item).mpr
        ⟨hsampler.above e he, hlt e he⟩
    · intro e he
      exact ⟨e.item, (hsampler.names e he).2,
        MessengerPublisherApp.sample_count_toUInt32 e.item⟩

/-- The step is no OK write, or its sample has a sequence below the sign bit. -/
def WritesBelowSign (s : PublisherProcess) (a : Event) : Prop :=
  ∀ d, s.publisher.pc = .write d → a = .publisher (.thread true) →
    d.item.sequence.toNat < 2 ^ 31

theorem step_wireOrdered {s t : PublisherProcess} {a : Event} (h : Inv s) (ho : WireOrdered s)
    (hs : machine.step s a = some t) : WireOrdered t ↔ WritesBelowSign s a := by
  have hbelow := (wireOrdered_iff h).mp ho
  rw [wireOrdered_iff (step_inv h hs)]
  have hsame (hw : t.publisher.written = s.publisher.written) (hc : WritesBelowSign s a) :
      (∀ e ∈ t.publisher.written, e.item.sequence.toNat < 2 ^ 31) ↔ WritesBelowSign s a := by
    rw [hw]
    exact iff_of_true hbelow hc
  rcases step_cases hs with ⟨b, p, u, rfl, -, rfl⟩ | ⟨b, p, rfl, hp, rfl⟩ | ⟨b, w, rfl, -, rfl⟩
  · exact hsame rfl fun _ _ he => by cases he
  · rcases MessengerPublisherApp.step_written hp with ⟨d, hpc, rfl, hw⟩ | ⟨hne, hw⟩
    · dsimp only
      rw [hw]
      constructor
      · intro hall d' hpc' _
        cases hpc.symm.trans hpc'
        exact hall d (by simp)
      · intro hc e he
        rcases List.mem_append.mp he with he | he
        · exact hbelow e he
        · rw [List.mem_singleton.mp he]
          exact hc d hpc rfl
    · exact hsame hw fun d hpc he => absurd (by cases he; rfl) (hne d hpc)
  · exact hsame rfl fun _ _ he => by cases he

/-- In every run the counts order and name the written samples in all states passed exactly
as long as every sample written OK has a sequence below the sign bit. -/
theorem along_wireOrdered_iff {es : List Event} {s : PublisherProcess}
    (h : machine.run init es = some s) :
    machine.Along WireOrdered init es ↔ machine.Meets WritesBelowSign init es := by
  have hinit : Inv init := inv_of_reachable .init
  have ho : WireOrdered init := (wireOrdered_iff hinit).mpr fun e he => by cases he
  exact Machine.along_iff_meets (fun hi _ hs => step_inv hi hs)
    (fun hi hp hs => step_wireOrdered hi hp hs) hinit ho h

theorem wireOrdered_demo : ∃ s, machine.run init demoEvents = some s ∧
    s.publisher.counts = [2] ∧
    (machine.Along WireOrdered init demoEvents ↔
      machine.Meets WritesBelowSign init demoEvents) := by
  obtain ⟨s, hs, hc⟩ : ∃ s, machine.run init demoEvents = some s ∧ s.publisher.counts = [2] :=
    ⟨_, rfl, rfl⟩
  exact ⟨s, hs, hc, along_wireOrdered_iff hs⟩

/-- After `2 ^ 31` updates the publisher writes its first sample, under a negative count. -/
theorem disordered_at_sign : ∃ s, machine.Reachable s ∧
    s.publisher.counts = [-2147483648] ∧ ¬WireOrdered s := by
  obtain ⟨s₀, hrun₀, hticking, hpub, hlen⟩ : ∃ s, machine.run init startEvents = some s ∧
      Ticking s ∧ s.publisher = { MessengerPublisherApp.init with pc := .publish, matched := 1 } ∧
      s.shared.updates.length = 0 := ⟨_, rfl, ⟨rfl, rfl, rfl, rfl⟩, rfl, rfl⟩
  obtain ⟨es, s₁, hrun₁, -, hp, -, hlen₁⟩ := run_ticks hticking (2 ^ 31)
  have hreach : machine.Reachable s₁ := (Machine.reachable_of_run hrun₀).run hrun₁
  have hseq : s₁.shared.latest.sequence.toNat = 2 ^ 31 := by
    rw [(inv_of_reachable hreach).producer.numbered.latest, hlen₁, hlen]
    decide
  have hpub₁ := hp.trans hpub
  obtain ⟨r, q, hq, hw⟩ := MessengerPublisherApp.publishFromSharedState_written s₁.shared
    (p := s₁.publisher) (by rw [hpub₁]; decide) (by rw [hpub₁]; rfl)
  obtain ⟨k, hk⟩ := run_publishFromSharedState (by rw [hpub₁]) hq
  have hfresh : s₁.publisher.lastPublishedSequence < s₁.shared.latest.sequence := by
    rw [UInt32.lt_iff_toNat_lt, hseq, hpub₁]
    decide
  rw [if_pos hfresh, hpub₁] at hw
  have hval : s₁.shared.latest.sequence = 2147483648 := by
    rw [← UInt32.toNat_inj, hseq]
    decide
  have hcounts : q.counts = [-2147483648] := by
    rw [MessengerPublisherApp.counts, hw, MessengerPublisherApp.init, List.nil_append,
      List.map_singleton, SharedCoordinateState.read_item, MessengerPublisherApp.sample_mCount,
      hval]
    decide
  refine ⟨_, hreach.run hk, hcounts, fun ho => ?_⟩
  exact absurd (ho.positive (-2147483648) (hcounts ▸ List.mem_singleton_self _)) (by decide)

end PublisherProcess

end CoordinateStream
