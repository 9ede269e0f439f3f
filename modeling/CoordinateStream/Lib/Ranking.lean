import CoordinateStream.Lib.Machine
import Mathlib.Order.Nat

namespace CoordinateStream

/-! Runs without end, and what comes about on them: where some of the events bring the machine
nearer to an end and the others do not take it away again. -/

namespace Machine

variable {σ ι : Type*} {M : Machine σ ι}

/-- A run without end, which may stand still for any time. -/
structure Execution (M : Machine σ ι) where
  state : ℕ → σ
  event : ℕ → Option ι
  step : ∀ n a, event n = some a → M.step (state n) a = some (state (n + 1))
  idle : ∀ n, event n = none → state (n + 1) = state n

namespace Execution

/-- From some time on none of the events `own` can happen, or one of them happens. -/
def Fair (x : M.Execution) (own : ι → Bool) : Prop :=
  ∀ n, (∀ m, n ≤ m → ∃ a t, own a = true ∧ M.step (x.state m) a = some t) →
    ∃ m a, n ≤ m ∧ x.event m = some a ∧ own a = true

/-- The same of steps of `good`, which may depend on the state they are taken in. -/
def Just (x : M.Execution) (good : σ → ι → Prop) : Prop :=
  ∀ n, (∀ m, n ≤ m → ∃ a t, good (x.state m) a ∧ M.step (x.state m) a = some t) →
    ∃ m a, n ≤ m ∧ x.event m = some a ∧ good (x.state m) a

theorem Fair.just {x : M.Execution} {own : ι → Bool} (h : x.Fair own) :
    x.Just fun _ a => own a = true := h

/-- A step of `good` that is possible again and again is taken at some time. -/
def Compassionate (x : M.Execution) (good : σ → ι → Prop) : Prop :=
  ∀ n, (∀ m, n ≤ m → ∃ l a t, m ≤ l ∧ good (x.state l) a ∧ M.step (x.state l) a = some t) →
    ∃ l a, n ≤ l ∧ x.event l = some a ∧ good (x.state l) a

/-- Every step from `n` on meets `env`. -/
def From (x : M.Execution) (n : ℕ) (env : σ → ι → Prop) : Prop :=
  ∀ m a, n ≤ m → x.event m = some a → env (x.state m) a

theorem From.later {x : M.Execution} {n m : ℕ} {env : σ → ι → Prop} (h : x.From n env)
    (hle : n ≤ m) : x.From m env := fun l a hl => h l a (hle.trans hl)

/-- What holds at `n` and is kept by every later step holds from `n` on. -/
theorem always {P : σ → Prop} (x : M.Execution) {n : ℕ} (hn : P (x.state n))
    (hstep : ∀ m a, n ≤ m → P (x.state m) → x.event m = some a → P (x.state (m + 1)))
    {m : ℕ} (hle : n ≤ m) : P (x.state m) := by
  induction m, hle using Nat.le_induction with
  | base => exact hn
  | succ m hm ih =>
    cases he : x.event m with
    | none =>
      rw [x.idle m he]
      exact ih
    | some a => exact hstep m a hm ih he

theorem reachable (x : M.Execution) {n m : ℕ} (h : M.Reachable (x.state n)) (hle : n ≤ m) :
    M.Reachable (x.state m) :=
  x.always h (fun l a _ hl he => hl.step (x.step l a he)) hle

/-- The state of a run of finite length before its event at `n`, or at its end. -/
def runState (M : Machine σ ι) (s : σ) (as : List ι) (t : σ) (n : ℕ) : σ :=
  (M.run s (as.take n)).getD t

theorem runState_step {s t : σ} {as : List ι} (h : M.run s as = some t) (n : ℕ) (a : ι)
    (ha : as[n]? = some a) : M.step (runState M s as t n) a = some (runState M s as t (n + 1)) := by
  obtain ⟨v, hv, -⟩ : ∃ v, M.run s (as.take (n + 1)) = some v ∧
      M.run v (as.drop (n + 1)) = some t := by
    rw [← List.take_append_drop (n + 1) as, run_append, Option.bind_eq_some_iff] at h
    exact h
  have hnext := hv
  rw [List.take_add_one, ha, Option.toList_some, run_append, Option.bind_eq_some_iff] at hnext
  obtain ⟨u, hu, hstep⟩ := hnext
  rw [runState, runState, hu, hv]
  simpa [run] using hstep

theorem runState_idle {s t : σ} {as : List ι} (n : ℕ) (hn : as[n]? = none) :
    runState M s as t (n + 1) = runState M s as t n := by
  have hlen := List.getElem?_eq_none_iff.mp hn
  rw [runState, runState, List.take_of_length_le hlen, List.take_of_length_le (by omega)]

/-- A run of finite length that stands still at its end. -/
def ofRun {s t : σ} {as : List ι} (h : M.run s as = some t) : M.Execution where
  state := runState M s as t
  event n := as[n]?
  step := runState_step h
  idle := runState_idle

theorem ofRun_state {s t : σ} {as bs : List ι} (h : M.run s (as ++ bs) = some t) {u : σ}
    (hu : M.run s as = some u) : (ofRun h).state as.length = u := by
  show (M.run s ((as ++ bs).take as.length)).getD t = u
  rw [List.take_left, hu, Option.getD_some]

theorem ofRun_state_of_le {s t : σ} {as : List ι} (h : M.run s as = some t) {n : ℕ}
    (hn : as.length ≤ n) : (ofRun h).state n = t := by
  show (M.run s (as.take n)).getD t = t
  rw [List.take_of_length_le hn, h, Option.getD_some]

theorem ofRun_from {s t : σ} {as bs : List ι} (h : M.run s (as ++ bs) = some t)
    {env : σ → ι → Prop} (henv : ∀ u, ∀ a ∈ bs, env u a) : (ofRun h).From as.length env := by
  intro m a hm ha
  have hget : (as ++ bs)[m]? = some a := ha
  rw [List.getElem?_append_right hm] at hget
  exact henv _ a (List.mem_of_getElem? hget)

/-- A run each step of which meets `C` is an execution on which every step does. -/
theorem ofRun_meets {s t : σ} {as : List ι} (h : M.run s as = some t) {C : σ → ι → Prop}
    (hC : M.Meets C s as) : (ofRun h).From 0 C := by
  intro m a _ ha
  have hget : as[m]? = some a := ha
  show C ((M.run s (as.take m)).getD t) a
  induction as generalizing s m with
  | nil => cases hget
  | cons b as ih =>
    obtain ⟨u, hu, hrest⟩ := M.run_cons_eq_some.mp h
    cases m with
    | zero =>
      obtain rfl : b = a := Option.some.inj hget
      exact hC.1
    | succ m =>
      rw [List.take_succ_cons, run, hu, Option.bind_some]
      exact ih hrest (hC.2 u hu) m (Nat.zero_le m) hget hget

/-- Where nothing of `good` can happen at its end, a run of finite length owes nothing. -/
theorem ofRun_compassionate {s t : σ} {as : List ι} (h : M.run s as = some t)
    {good : σ → ι → Prop} (hend : ∀ a u, good t a → M.step t a ≠ some u) :
    (ofRun h).Compassionate good := by
  intro n hn
  obtain ⟨l, a, u, hl, ha, hu⟩ := hn (max n as.length) (Nat.le_max_left _ _)
  rw [ofRun_state_of_le h ((Nat.le_max_right _ _).trans hl)] at ha hu
  exact absurd hu (hend a u ha)

theorem ofRun_just {s t : σ} {as : List ι} (h : M.run s as = some t) {good : σ → ι → Prop}
    (hend : ∀ a u, good t a → M.step t a ≠ some u) : (ofRun h).Just good := by
  intro n hn
  obtain ⟨a, u, ha, hu⟩ := hn (max n as.length) (Nat.le_max_left _ _)
  rw [ofRun_state_of_le h (Nat.le_max_right _ _)] at ha hu
  exact absurd hu (hend a u ha)

theorem ofRun_fair {s t : σ} {as : List ι} (h : M.run s as = some t) {own : ι → Bool}
    (hend : ∀ a u, own a = true → M.step t a ≠ some u) : (ofRun h).Fair own := by
  show (ofRun h).Just fun _ a => own a = true
  exact ofRun_just h hend

end Execution

/-- From the states of `I` and until it is done, each step of `good` brings the rank down, no
step that meets `env` raises it, and one of `good` can be taken. -/
structure Progress (M : Machine σ ι) (env : σ → ι → Prop) (I : σ → Prop) (good : σ → ι → Prop)
    (rank : σ → ℕ) (done : σ → Prop) : Prop where
  step : ∀ {s t a}, I s → ¬done s → env s a → M.step s a = some t →
    done t ∨ I t ∧ rank t ≤ rank s ∧ (good s a → rank t < rank s)
  enabled : ∀ {s}, I s → ¬done s → ∃ a t, good s a ∧ M.step s a = some t

namespace Progress

variable {env : σ → ι → Prop} {I : σ → Prop} {good : σ → ι → Prop} {rank : σ → ℕ} {done : σ → Prop}

theorem state_keeps (h : M.Progress env I good rank done) {x : M.Execution} {n : ℕ}
    (henv : x.From n env) (hn : I (x.state n)) (hnot : ∀ m, n ≤ m → ¬done (x.state m))
    {m : ℕ} (hle : n ≤ m) : I (x.state m) ∧ rank (x.state m) ≤ rank (x.state n) := by
  refine x.always (P := fun s => I s ∧ rank s ≤ rank (x.state n)) ⟨hn, le_refl _⟩ ?_ hle
  intro l a hl hI he
  obtain ⟨hI, hrank⟩ := hI
  rcases h.step hI (hnot l hl) (henv l a hl he) (x.step l a he) with hd | ⟨hI', hstay, -⟩
  · exact absurd hd (hnot _ (by omega))
  · exact ⟨hI', hstay.trans hrank⟩

/-- An execution that is just to these steps gets it done. -/
theorem exists_done (h : M.Progress env I good rank done) {x : M.Execution} (hjust : x.Just good)
    {n : ℕ} (henv : x.From n env) (hn : I (x.state n)) : ∃ m, n ≤ m ∧ done (x.state m) := by
  induction hr : rank (x.state n) using Nat.strongRecOn generalizing n with
  | ind r ih =>
    by_contra hnone
    have hnot : ∀ m, n ≤ m → ¬done (x.state m) := fun m hm hd => hnone ⟨m, hm, hd⟩
    have halive : ∀ m, n ≤ m → ∃ a t, good (x.state m) a ∧ M.step (x.state m) a = some t :=
      fun m hm => h.enabled (h.state_keeps henv hn hnot hm).1 (hnot m hm)
    obtain ⟨m, a, hm, he, ha⟩ := hjust n halive
    obtain ⟨hI, hle⟩ := h.state_keeps henv hn hnot hm
    rcases h.step hI (hnot m hm) (henv m a hm he) (x.step m a he) with hd | ⟨hI', -, hfall⟩
    · exact hnot _ (by omega) hd
    · -- the execution goes on from there with a smaller rank
      have hlt := hfall ha
      obtain ⟨m', hm', hd⟩ := ih _ (by omega) (henv.later (by omega)) hI' rfl
      exact hnot m' (by omega) hd

end Progress

/-- From the states of `I` each event of `own` brings the rank down and no event raises it,
and until the machine is done one of `own` can happen. -/
structure Winding (M : Machine σ ι) (I : σ → Prop) (own : ι → Bool) (rank : σ → ℕ)
    (done : σ → Prop) : Prop where
  keeps : ∀ {s t a}, I s → M.step s a = some t → I t
  falls : ∀ {s t a}, I s → M.step s a = some t → own a = true → rank t < rank s
  stays : ∀ {s t a}, I s → M.step s a = some t → rank t ≤ rank s
  enabled : ∀ {s}, I s → ¬done s → ∃ a t, own a = true ∧ M.step s a = some t

namespace Winding

variable {I : σ → Prop} {own : ι → Bool} {rank : σ → ℕ} {done : σ → Prop}

theorem progress (h : M.Winding I own rank done) :
    M.Progress (fun _ _ => True) I (fun _ a => own a = true) rank done where
  step hs _ _ ht := .inr ⟨h.keeps hs ht, h.stays hs ht, h.falls hs ht⟩
  enabled := h.enabled

theorem done_of_rank (h : M.Winding I own rank done) {s : σ} (hs : I s) (hr : rank s = 0) :
    done s := by
  by_contra hd
  obtain ⟨a, t, ha, ht⟩ := h.enabled hs hd
  have := h.falls hs ht ha
  omega

theorem run_keeps (h : M.Winding I own rank done) {es : List ι} {s t : σ} (hs : I s)
    (hr : M.run s es = some t) : I t := run_invariant h.keeps hs hr

/-- A run has no more events of `own` than its first rank. -/
theorem countP_add_le (h : M.Winding I own rank done) {es : List ι} {s t : σ}
    (hs : I s) (hr : M.run s es = some t) : es.countP own + rank t ≤ rank s := by
  induction es generalizing s with
  | nil =>
    rw [← Option.some.inj hr]
    simp
  | cons a es ih =>
    obtain ⟨u, hu, hrest⟩ := M.run_cons_eq_some.mp hr
    have htail := ih (h.keeps hs hu) hrest
    by_cases ha : own a = true
    · have hfall := h.falls hs hu ha
      rw [List.countP_cons_of_pos ha]
      omega
    · have hstay := h.stays hs hu
      rw [List.countP_cons_of_neg ha]
      omega

/-- A run with as many events of `own` has come to its end. -/
theorem done_of_le_countP (h : M.Winding I own rank done) {es : List ι}
    {s t : σ} (hs : I s) (hr : M.run s es = some t) (hle : rank s ≤ es.countP own) : done t := by
  apply h.done_of_rank (h.run_keeps hs hr)
  have := h.countP_add_le hs hr
  omega

/-- A fair execution comes to its end. -/
theorem exists_done (h : M.Winding I own rank done) {x : M.Execution} (hfair : x.Fair own)
    {n : ℕ} (hn : I (x.state n)) : ∃ m, n ≤ m ∧ done (x.state m) :=
  h.progress.exists_done hfair.just (fun _ _ _ _ => trivial) hn

end Winding

variable {τ κ : Type*} {N : Machine τ κ}

/-- What an execution is for the abstract machine. -/
def Refinement.execution (f : Refinement M N) (x : M.Execution) (hx : M.Reachable (x.state 0)) :
    N.Execution where
  state n := f.abs (x.state n)
  event n := (x.event n).bind (f.label (x.state n))
  step n b hb := by
    obtain ⟨a, ha, hl⟩ := Option.bind_eq_some_iff.mp hb
    exact f.step (x.reachable hx (Nat.zero_le n)) (x.step n a ha) hl
  idle n hn := by
    cases he : x.event n with
    | none => rw [x.idle n he]
    | some a =>
      rw [he] at hn
      exact f.stutter (x.reachable hx (Nat.zero_le n)) (x.step n a he) hn

section execution

variable {f : Refinement M N} {x : M.Execution} {hx : M.Reachable (x.state 0)}
  {good : σ → ι → Prop} {good' : τ → κ → Prop}

theorem Refinement.execution_event
    (hlabel : ∀ {s a}, good s a → ∃ b, f.label s a = some b ∧ good' (f.abs s) b) {m : ℕ} {a : ι}
    (he : x.event m = some a) (ha : good (x.state m) a) :
    ∃ b, (f.execution x hx).event m = some b ∧ good' ((f.execution x hx).state m) b := by
  obtain ⟨b, hl, hb⟩ := hlabel ha
  refine ⟨b, ?_, hb⟩
  show (x.event m).bind _ = some b
  rw [he]
  exact hl

/-- Where the concrete machine can do what the abstract one can, an execution that is just to
the steps of `good` is so for the abstract machine. -/
theorem Refinement.execution_just (h : x.Just good)
    (hlift : ∀ {s b t}, good' (f.abs s) b → N.step (f.abs s) b = some t →
      ∃ a u, good s a ∧ M.step s a = some u)
    (hlabel : ∀ {s a}, good s a → ∃ b, f.label s a = some b ∧ good' (f.abs s) b) :
    (f.execution x hx).Just good' := by
  intro n hn
  obtain ⟨m, a, hm, he, ha⟩ := h n fun m hm => by
    obtain ⟨b, t, hb, ht⟩ := hn m hm
    exact hlift hb ht
  obtain ⟨b, hevent, hb⟩ := execution_event hlabel he ha
  exact ⟨m, b, hm, hevent, hb⟩

theorem Refinement.execution_compassionate (h : x.Compassionate good)
    (hlift : ∀ {s b t}, good' (f.abs s) b → N.step (f.abs s) b = some t →
      ∃ a u, good s a ∧ M.step s a = some u)
    (hlabel : ∀ {s a}, good s a → ∃ b, f.label s a = some b ∧ good' (f.abs s) b) :
    (f.execution x hx).Compassionate good' := by
  intro n hn
  obtain ⟨m, a, hm, he, ha⟩ := h n fun m hm => by
    obtain ⟨l, b, t, hl, hb, ht⟩ := hn m hm
    obtain ⟨a, u, ha, hu⟩ := hlift hb ht
    exact ⟨l, a, u, hl, ha, hu⟩
  obtain ⟨b, hevent, hb⟩ := execution_event hlabel he ha
  exact ⟨m, b, hm, hevent, hb⟩

end execution

end Machine

end CoordinateStream
