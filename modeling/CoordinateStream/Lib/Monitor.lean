import CoordinateStream.Lib.Machine
import Mathlib.Logic.Function.Basic

namespace CoordinateStream

/-! An object whose methods run under one mutex, statement by statement, for any number of
threads. Whatever their interleaving, no client can tell it from an object whose methods take
effect at once. -/

/-- The methods of an object: for each call its locals, the statements it makes under the
mutex, and what it returns of the locals. -/
structure Monitor (κ φ ν ρ : Type*) where
  init : φ
  locals : κ → ν
  body : κ → List (φ × ν → φ × ν)
  result : ν → ρ

/-- An object whose methods take effect at once. -/
structure AtomicObject (κ ψ ρ : Type*) where
  init : ψ
  method : κ → ψ → ψ × ρ

/-- What a client sees of the calls. -/
inductive CallAction (ι κ ρ : Type*)
  | called (i : ι) (c : κ)
  | returned (i : ι) (r : ρ)
  deriving DecidableEq, Repr

namespace AtomicObject

variable {ι κ ψ ρ : Type*}

/-- Where a thread stands: outside, with a call still to take effect, or with its result. -/
inductive Phase (κ ρ : Type*)
  | outside
  | called (c : κ)
  | done (r : ρ)

structure State (ι κ ψ ρ : Type*) where
  fields : ψ
  phases : ι → Phase κ ρ
  history : List (CallAction ι κ ρ)

inductive Event (ι κ : Type*)
  | call (i : ι) (c : κ)
  | effect (i : ι)
  | ret (i : ι)

variable [DecidableEq ι] (A : AtomicObject κ ψ ρ)

def step (s : State ι κ ψ ρ) : Event ι κ → Option (State ι κ ψ ρ)
  | .call i c => match s.phases i with
    | .outside => some { s with
        phases := Function.update s.phases i (.called c)
        history := s.history ++ [.called i c] }
    | _ => none
  | .effect i => match s.phases i with
    | .called c => some { s with
        fields := (A.method c s.fields).1
        phases := Function.update s.phases i (.done (A.method c s.fields).2) }
    | _ => none
  | .ret i => match s.phases i with
    | .done r => some { s with
        phases := Function.update s.phases i .outside
        history := s.history ++ [.returned i r] }
    | _ => none

def machine (ι : Type*) [DecidableEq ι] : Machine (State ι κ ψ ρ) (Event ι κ) :=
  ⟨⟨A.init, fun _ => .outside, []⟩, A.step⟩

variable {s : State ι κ ψ ρ} {i : ι}

theorem step_call (h : s.phases i = .outside) (c : κ) : A.step s (.call i c) = some { s with
    phases := Function.update s.phases i (.called c)
    history := s.history ++ [.called i c] } := by
  simp only [step, h]

theorem step_effect {c : κ} (h : s.phases i = .called c) : A.step s (.effect i) = some { s with
    fields := (A.method c s.fields).1
    phases := Function.update s.phases i (.done (A.method c s.fields).2) } := by
  simp only [step, h]

theorem step_ret {r : ρ} (h : s.phases i = .done r) : A.step s (.ret i) = some { s with
    phases := Function.update s.phases i .outside
    history := s.history ++ [.returned i r] } := by
  simp only [step, h]

end AtomicObject

namespace Monitor

variable {ι κ φ ν ρ ψ : Type*}

/-- Where a thread stands: outside, about to lock the mutex, inside with the statements left
and its locals, or behind the unlock with its result. -/
inductive Phase (κ φ ν ρ : Type*)
  | outside
  | waiting (c : κ)
  | inside (rest : List (φ × ν → φ × ν)) (l : ν)
  | leaving (r : ρ)

structure State (ι κ φ ν ρ : Type*) where
  fields : φ
  mutex : Option ι
  phases : ι → Phase κ φ ν ρ
  history : List (CallAction ι κ ρ)

inductive Event (ι κ : Type*)
  | call (i : ι) (c : κ)
  | lock (i : ι)
  | statement (i : ι)
  | unlock (i : ι)
  | ret (i : ι)

/-- The statements left, one after the other. -/
def finish (rest : List (φ × ν → φ × ν)) (x : φ × ν) : φ × ν := rest.foldl (fun x st => st x) x

section machine

variable [DecidableEq ι] (M : Monitor κ φ ν ρ)

/-- A call with nothing in between. -/
def effect (c : κ) (f : φ) : φ × ν := finish (M.body c) (f, M.locals c)

def step (s : State ι κ φ ν ρ) : Event ι κ → Option (State ι κ φ ν ρ)
  | .call i c => match s.phases i with
    | .outside => some { s with
        phases := Function.update s.phases i (.waiting c)
        history := s.history ++ [.called i c] }
    | _ => none
  | .lock i => match s.mutex, s.phases i with
    | none, .waiting c => some { s with
        mutex := some i
        phases := Function.update s.phases i (.inside (M.body c) (M.locals c)) }
    | _, _ => none
  | .statement i => match s.phases i with
    | .inside (st :: rest) l => some { s with
        fields := (st (s.fields, l)).1
        phases := Function.update s.phases i (.inside rest (st (s.fields, l)).2) }
    | _ => none
  | .unlock i => match s.phases i with
    | .inside [] l => some { s with
        mutex := none
        phases := Function.update s.phases i (.leaving (M.result l)) }
    | _ => none
  | .ret i => match s.phases i with
    | .leaving r => some { s with
        phases := Function.update s.phases i .outside
        history := s.history ++ [.returned i r] }
    | _ => none

def machine (ι : Type*) [DecidableEq ι] : Machine (State ι κ φ ν ρ) (Event ι κ) :=
  ⟨⟨M.init, none, fun _ => .outside, []⟩, M.step⟩

variable {s : State ι κ φ ν ρ} {i : ι} {l : ν}

theorem step_statement {st : φ × ν → φ × ν} {rest : List (φ × ν → φ × ν)}
    (h : s.phases i = .inside (st :: rest) l) : M.step s (.statement i) = some { s with
      fields := (st (s.fields, l)).1
      phases := Function.update s.phases i (.inside rest (st (s.fields, l)).2) } := by
  simp only [step, h]

theorem step_unlock (h : s.phases i = .inside [] l) : M.step s (.unlock i) = some { s with
    mutex := none
    phases := Function.update s.phases i (.leaving (M.result l)) } := by
  simp only [step, h]

end machine

/-- Each method, run to its end, does what the method of the atomic object does. -/
structure Implements (M : Monitor κ φ ν ρ) (A : AtomicObject κ ψ ρ) (R : φ → ψ → Prop) :
    Prop where
  init : R M.init A.init
  method : ∀ c f g, R f g → R (M.effect c f).1 (A.method c g).1 ∧
    M.result (M.effect c f).2 = (A.method c g).2

/-- A call takes effect with its lock: from then on its result is settled. -/
def Agree (M : Monitor κ φ ν ρ) (fields : φ) : Phase κ φ ν ρ → AtomicObject.Phase κ ρ → Prop
  | .outside, .outside => True
  | .waiting c, .called c' => c = c'
  | .inside rest l, .done r => M.result (finish rest (fields, l)).2 = r
  | .leaving r, .done r' => r = r'
  | _, _ => False

/-- The thread is between lock and unlock. -/
def Phase.IsInside : Phase κ φ ν ρ → Prop
  | .inside _ _ => True
  | _ => False

/-- The fields as the call inside, if there is one, will leave them. -/
def Settled (R : φ → ψ → Prop) (s : State ι κ φ ν ρ) (g : ψ) : Prop :=
  match s.mutex with
  | none => R s.fields g
  | some i => ∃ rest l, s.phases i = .inside rest l ∧ R (finish rest (s.fields, l)).1 g

structure Sim (M : Monitor κ φ ν ρ) (R : φ → ψ → Prop) (s : State ι κ φ ν ρ)
    (t : AtomicObject.State ι κ ψ ρ) : Prop where
  history : t.history = s.history
  phases : ∀ i, M.Agree s.fields (s.phases i) (t.phases i)
  settled : Settled R s t.fields
  exclusive : ∀ i, (s.phases i).IsInside → s.mutex = some i

section agree

variable {M : Monitor κ φ ν ρ} {f : φ} {q : AtomicObject.Phase κ ρ}

theorem Agree.outside_eq (h : M.Agree f .outside q) : q = .outside := by
  cases q with
  | outside => rfl
  | called | done => exact h.elim

theorem Agree.called_eq {c : κ} (h : M.Agree f (.waiting c) q) : q = .called c := by
  cases q with
  | called c' => exact congrArg _ (Eq.symm h)
  | outside | done => exact h.elim

theorem Agree.done_eq {r : ρ} (h : M.Agree f (.leaving r) q) : q = .done r := by
  cases q with
  | done r' => exact congrArg _ (Eq.symm h)
  | outside | called => exact h.elim

end agree

section simulation

variable [DecidableEq ι] {M : Monitor κ φ ν ρ} {A : AtomicObject κ ψ ρ} {R : φ → ψ → Prop}
  {s s' : State ι κ φ ν ρ} {t : AtomicObject.State ι κ ψ ρ}

/-- Only the call inside depends on the fields. -/
theorem Agree.of_not_inside {f f' : φ} {p : Phase κ φ ν ρ} {q : AtomicObject.Phase κ ρ}
    (h : M.Agree f p q) (hp : ¬p.IsInside) : M.Agree f' p q := by
  cases p with
  | inside rest l => exact absurd trivial hp
  | outside | waiting | leaving => cases q <;> exact h

theorem Agree.update {f f' : φ} {i : ι} {p : Phase κ φ ν ρ} {q : AtomicObject.Phase κ ρ}
    (h : ∀ j, M.Agree f (s.phases j) (t.phases j)) (hpq : M.Agree f' p q)
    (hothers : ∀ j, j ≠ i → (s.phases j).IsInside → f' = f) (j : ι) :
    M.Agree f' (Function.update s.phases i p j) (Function.update t.phases i q j) := by
  rcases eq_or_ne j i with rfl | hne
  · rw [Function.update_self, Function.update_self]
    exact hpq
  · rw [Function.update_of_ne hne, Function.update_of_ne hne]
    by_cases hin : (s.phases j).IsInside
    · rw [hothers j hne hin]
      exact h j
    · exact (h j).of_not_inside hin

/-- A thread that moves on outside the lock leaves the rest alone. -/
theorem Sim.move (h : Sim M R s t) {i : ι} {p : Phase κ φ ν ρ} {q : AtomicObject.Phase κ ρ}
    (hi : ¬(s.phases i).IsInside) (hp : ¬p.IsInside) (hpq : M.Agree s.fields p q)
    (a : List (CallAction ι κ ρ)) :
    Sim M R { s with phases := Function.update s.phases i p, history := s.history ++ a }
      { t with phases := Function.update t.phases i q, history := t.history ++ a } := by
  refine ⟨by rw [h.history], fun j => ?_, ?_, fun j hj => ?_⟩
  · exact Agree.update h.phases hpq (fun _ _ _ => rfl) j
  · have hsettled := h.settled
    unfold Settled at hsettled ⊢
    cases hm : s.mutex with
    | none => simpa only [hm] using hsettled
    | some k =>
      rw [hm] at hsettled
      obtain ⟨rest, l, hk, hR⟩ := hsettled
      have hne : k ≠ i := by
        rintro rfl
        rw [hk] at hi
        exact hi trivial
      exact ⟨rest, l, (Function.update_of_ne hne _ _).trans hk, hR⟩
  · dsimp only at hj
    rcases eq_or_ne j i with rfl | hne
    · rw [Function.update_self] at hj
      exact absurd hj hp
    · rw [Function.update_of_ne hne] at hj
      exact h.exclusive j hj

omit [DecidableEq ι] in
/-- Two threads are never inside together. -/
theorem Sim.not_inside (h : Sim M R s t) {i j : ι} (hi : (s.phases i).IsInside) (hne : j ≠ i) :
    ¬(s.phases j).IsInside := by
  intro hj
  have hm := h.exclusive i hi
  rw [h.exclusive j hj, Option.some.injEq] at hm
  exact hne hm

theorem exclusive_update {i : ι} {p : Phase κ φ ν ρ} {m : Option ι}
    (hothers : ∀ j, j ≠ i → ¬(s.phases j).IsInside) (hm : p.IsInside → m = some i) (j : ι)
    (hj : (Function.update s.phases i p j).IsInside) : m = some j := by
  rcases eq_or_ne j i with rfl | hne
  · rw [Function.update_self] at hj
    exact hm hj
  · rw [Function.update_of_ne hne] at hj
    exact absurd hj (hothers j hne)

theorem Sim.lock (hM : M.Implements A R) (h : Sim M R s t) {i : ι} {c : κ} (hfree : s.mutex = none)
    (ht : t.phases i = .called c) :
    ∃ t', A.step t (.effect i) = some t' ∧
      Sim M R { s with
        mutex := some i
        phases := Function.update s.phases i (.inside (M.body c) (M.locals c)) } t' := by
  have hout (j : ι) : ¬(s.phases j).IsInside := by
    intro hj
    have hm := h.exclusive j hj
    rw [hfree] at hm
    cases hm
  have hR : R s.fields t.fields := by
    have hsettled := h.settled
    unfold Settled at hsettled
    rwa [hfree] at hsettled
  obtain ⟨heffect, hresult⟩ := hM.method c _ _ hR
  refine ⟨_, A.step_effect ht, h.history, fun j => ?_, ?_, ?_⟩
  · have hpq : M.Agree s.fields (.inside (M.body c) (M.locals c))
        (.done (A.method c t.fields).2) := hresult
    exact Agree.update h.phases hpq (fun j _ hj => absurd hj (hout j)) j
  · exact ⟨M.body c, M.locals c, Function.update_self .., heffect⟩
  · exact exclusive_update (fun j _ => hout j) fun _ => rfl

omit [DecidableEq ι] in
/-- The result of the call inside is settled. -/
theorem Sim.done_of_inside (h : Sim M R s t) {i : ι} {rest : List (φ × ν → φ × ν)} {l : ν}
    (hs : s.phases i = .inside rest l) :
    ∃ r, t.phases i = .done r ∧ M.result (finish rest (s.fields, l)).2 = r := by
  have hagree := h.phases i
  rw [hs] at hagree
  cases hp : t.phases i with
  | done r =>
    rw [hp] at hagree
    exact ⟨r, rfl, hagree⟩
  | outside | called =>
    rw [hp] at hagree
    exact hagree.elim

/-- The call inside may change the fields, for it is the only one that depends on them. -/
theorem Sim.agree_of_inside (h : Sim M R s t) {i : ι} {rest : List (φ × ν → φ × ν)} {l : ν}
    (hs : s.phases i = .inside rest l) {f' : φ} {p : Phase κ φ ν ρ}
    (hp : M.Agree f' p (t.phases i)) (j : ι) :
    M.Agree f' (Function.update s.phases i p j) (t.phases j) := by
  have hi : (s.phases i).IsInside := by
    rw [hs]
    trivial
  have hq : Function.update t.phases i (t.phases i) = t.phases := Function.update_eq_self i _
  rw [← hq]
  exact Agree.update h.phases hp (fun j hne hj => absurd hj (h.not_inside hi hne)) j

theorem Sim.statement (h : Sim M R s t) {i : ι} {st : φ × ν → φ × ν}
    {rest : List (φ × ν → φ × ν)} {l : ν} (hs : s.phases i = .inside (st :: rest) l) :
    Sim M R { s with
      fields := (st (s.fields, l)).1
      phases := Function.update s.phases i (.inside rest (st (s.fields, l)).2) } t := by
  have hi : (s.phases i).IsInside := by
    rw [hs]
    trivial
  have hm := h.exclusive i hi
  have hothers (j : ι) (hne : j ≠ i) := h.not_inside hi hne
  obtain ⟨r, hr, hresult⟩ := h.done_of_inside hs
  refine ⟨h.history, h.agree_of_inside hs ?_, ?_, ?_⟩
  · rw [hr]
    exact hresult
  · have hsettled := h.settled
    unfold Settled at hsettled ⊢
    rw [hm] at hsettled
    obtain ⟨rest', l', hk, hR⟩ := hsettled
    rw [hs, Phase.inside.injEq] at hk
    obtain ⟨rfl, rfl⟩ := hk
    rw [hm]
    exact ⟨rest, _, Function.update_self .., hR⟩
  · exact exclusive_update hothers fun _ => hm

theorem Sim.unlock (h : Sim M R s t) {i : ι} {l : ν} (hs : s.phases i = .inside [] l) :
    Sim M R { s with
      mutex := none
      phases := Function.update s.phases i (.leaving (M.result l)) } t := by
  have hi : (s.phases i).IsInside := by
    rw [hs]
    trivial
  have hothers (j : ι) (hne : j ≠ i) := h.not_inside hi hne
  obtain ⟨r, hr, hresult⟩ := h.done_of_inside hs
  refine ⟨h.history, h.agree_of_inside hs ?_, ?_, ?_⟩
  · rw [hr]
    exact hresult
  · have hsettled := h.settled
    unfold Settled at hsettled ⊢
    rw [h.exclusive i hi] at hsettled
    obtain ⟨rest', l', hk, hR⟩ := hsettled
    rw [hs, Phase.inside.injEq] at hk
    obtain ⟨rfl, rfl⟩ := hk
    exact hR
  · exact exclusive_update hothers fun hp => hp.elim

/-- A step of the object is one of the atomic object, or none that a client sees. -/
theorem Sim.step (hM : M.Implements A R) (h : Sim M R s t) {e : Event ι κ}
    (hs : M.step s e = some s') :
    ∃ t', (t' = t ∨ ∃ e', A.step t e' = some t') ∧ Sim M R s' t' := by
  cases e with
  | call i c =>
    simp only [Monitor.step] at hs
    split at hs
    · next hi =>
      have ht := Agree.outside_eq (hi ▸ h.phases i)
      have hmove := h.move (p := .waiting c) (q := .called c) (by rw [hi]; exact id) id rfl
        [.called i c]
      exact ⟨_, .inr ⟨_, A.step_call ht c⟩, Option.some.inj hs ▸ hmove⟩
    · cases hs
  -- taking the mutex is the point at which the atomic call takes effect
  | lock i =>
    simp only [Monitor.step] at hs
    split at hs
    · next c hfree hi =>
      have ht : t.phases i = .called c := Agree.called_eq (hi ▸ h.phases i)
      obtain ⟨t', ht', hsim⟩ := h.lock hM hfree ht
      exact ⟨t', .inr ⟨_, ht'⟩, Option.some.inj hs ▸ hsim⟩
    · cases hs
  | statement i =>
    simp only [Monitor.step] at hs
    split at hs
    · next st rest l hi => exact ⟨t, .inl rfl, Option.some.inj hs ▸ h.statement hi⟩
    · cases hs
  | unlock i =>
    simp only [Monitor.step] at hs
    split at hs
    · next l hi => exact ⟨t, .inl rfl, Option.some.inj hs ▸ h.unlock hi⟩
    · cases hs
  | ret i =>
    simp only [Monitor.step] at hs
    split at hs
    · next r hi =>
      have ht := Agree.done_eq (hi ▸ h.phases i)
      have hmove := h.move (p := .outside) (q := .outside) (by rw [hi]; exact id) id trivial
        [.returned i r]
      exact ⟨_, .inr ⟨_, A.step_ret ht⟩, Option.some.inj hs ▸ hmove⟩
    · cases hs

/-- The thread inside is never kept from going on. -/
theorem Sim.holder_can_step (h : Sim M R s t) {i : ι} (hm : s.mutex = some i) :
    ∃ s', M.step s (.statement i) = some s' ∨ M.step s (.unlock i) = some s' := by
  have hsettled := h.settled
  unfold Settled at hsettled
  rw [hm] at hsettled
  obtain ⟨rest, l, hi, -⟩ := hsettled
  cases rest with
  | nil => exact ⟨_, .inr (M.step_unlock hi)⟩
  | cons st rest => exact ⟨_, .inl (M.step_statement hi)⟩

variable (ι) in
theorem init_sim (hM : M.Implements A R) :
    Sim M R (M.machine ι).init (A.machine ι).init :=
  ⟨rfl, fun _ => trivial, hM.init, fun _ hi => hi.elim⟩

/-- Linearizability: every history is one of the atomic object. -/
theorem linearizable (hM : M.Implements A R) (hs : (M.machine ι).Reachable s) :
    ∃ t, (A.machine ι).Reachable t ∧ Sim M R s t := by
  induction hs with
  | init => exact ⟨_, .init, init_sim ι hM⟩
  | step _ _ hstep ih =>
    obtain ⟨t, ht, hsim⟩ := ih
    obtain ⟨t', rfl | ⟨e, he⟩, hsim'⟩ := hsim.step hM hstep
    · exact ⟨t', ht, hsim'⟩
    · exact ⟨t', Machine.Reachable.step ht he, hsim'⟩

end simulation

end Monitor

end CoordinateStream
