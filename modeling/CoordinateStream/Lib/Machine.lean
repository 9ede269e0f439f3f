import Mathlib.Data.List.Basic

namespace CoordinateStream

/-- A labelled machine. `step s a` is the state after the event `a`, or `none` where `a`
cannot happen in `s`; the choices of the environment are part of the event. -/
structure Machine (σ ι : Type*) where
  init : σ
  step : σ → ι → Option σ

namespace Machine

variable {σ τ ι κ : Type*} (M : Machine σ ι)

def run : σ → List ι → Option σ
  | s, [] => some s
  | s, a :: as => (M.step s a).bind fun t => run t as

@[simp] theorem run_nil (s : σ) : M.run s [] = some s := rfl

theorem run_cons_eq_some {s t : σ} {a : ι} {as : List ι} :
    M.run s (a :: as) = some t ↔ ∃ u, M.step s a = some u ∧ M.run u as = some t := by
  simp only [run, Option.bind_eq_some_iff]

theorem run_append (s : σ) (as bs : List ι) :
    M.run s (as ++ bs) = (M.run s as).bind fun t => M.run t bs := by
  induction as generalizing s with
  | nil => rfl
  | cons a as ih =>
    simp only [List.cons_append, run, Option.bind_assoc, ih]

theorem run_trans {s t u : σ} {as bs : List ι} (h : M.run s as = some t)
    (h' : M.run t bs = some u) : M.run s (as ++ bs) = some u := by
  rw [run_append, h]
  exact h'

/-- States reached by a run each step of which meets `C`. -/
inductive ReachableBy (C : σ → ι → Prop) : σ → Prop
  | init : ReachableBy C M.init
  | step {s t : σ} {a : ι} : ReachableBy C s → C s a → M.step s a = some t → ReachableBy C t

/-- States reached by any run. -/
abbrev Reachable : σ → Prop := M.ReachableBy fun _ _ => True

variable {M}

theorem ReachableBy.reachable {C : σ → ι → Prop} {s : σ} (h : M.ReachableBy C s) :
    M.Reachable s := by
  induction h with
  | init => exact .init
  | step _ _ hs ih => exact .step ih trivial hs

/-- What holds at the start and is kept by every step from a reachable state holds of
every reachable state. -/
theorem ReachableBy.invariant {C : σ → ι → Prop} {I : σ → Prop} (hinit : I M.init)
    (hstep : ∀ {s t a}, M.ReachableBy C s → I s → C s a → M.step s a = some t → I t)
    {s : σ} (h : M.ReachableBy C s) : I s := by
  induction h with
  | init => exact hinit
  | step hr hc hs ih => exact hstep hr ih hc hs

theorem Reachable.step {s t : σ} {a : ι} (h : M.Reachable s) (hs : M.step s a = some t) :
    M.Reachable t := ReachableBy.step h trivial hs

/-- A property kept by every step that meets `C` is kept by every run of such steps. -/
theorem run_invariant_of {I : σ → Prop} {C : ι → Prop}
    (hstep : ∀ {s t a}, I s → C a → M.step s a = some t → I t)
    {as : List ι} (hC : ∀ a ∈ as, C a) {s t : σ} (hs : I s) (h : M.run s as = some t) : I t := by
  induction as generalizing s with
  | nil => exact Option.some.inj h ▸ hs
  | cons a as ih =>
    obtain ⟨u, hu, hr⟩ := M.run_cons_eq_some.mp h
    have hhead := hstep hs (hC a List.mem_cons_self) hu
    exact ih (fun b hb => hC b (List.mem_cons_of_mem _ hb)) hhead hr

theorem run_invariant {I : σ → Prop} (hstep : ∀ {s t a}, I s → M.step s a = some t → I t)
    {as : List ι} {s t : σ} (hs : I s) (h : M.run s as = some t) : I t :=
  run_invariant_of (C := fun _ => True) (fun hi _ hu => hstep hi hu) (fun _ _ => trivial) hs h

theorem Reachable.run {as : List ι} {s t : σ} (hs : M.Reachable s) (h : M.run s as = some t) :
    M.Reachable t := run_invariant (fun hr hu => Reachable.step hr hu) hs h

theorem reachable_of_run {as : List ι} {s : σ} (h : M.run M.init as = some s) :
    M.Reachable s := Reachable.run .init h

/-- What is spent along a run is at most what was still allowed at its start, where every
step pays for what it spends. -/
theorem run_budget (spent allowed : σ → ℕ) {I : σ → Prop}
    (hstep : ∀ {s t a}, I s → M.step s a = some t →
      I t ∧ spent t + allowed t ≤ spent s + allowed s)
    {as : List ι} {s t : σ} (hs : I s) (h : M.run s as = some t) :
    spent t ≤ spent s + allowed s := by
  have hrun : I t ∧ spent t + allowed t ≤ spent s + allowed s :=
    run_invariant (I := fun u => I u ∧ spent u + allowed u ≤ spent s + allowed s)
      (fun hu hv => ⟨(hstep hu.1 hv).1, Nat.le_trans (hstep hu.1 hv).2 hu.2⟩)
      ⟨hs, Nat.le_refl _⟩ h
  exact Nat.le_trans (Nat.le_add_right _ _) hrun.2

/-- Two runs over events related by `L` stay related by `R` when every step does. -/
theorem run_lockstep {N : Machine τ κ} {L : ι → κ → Prop} {R : σ → τ → Prop}
    (hstep : ∀ {s t a b s'}, R s t → L a b → M.step s a = some s' →
      ∃ t', N.step t b = some t' ∧ R s' t')
    {as : List ι} {bs : List κ} (hl : List.Forall₂ L as bs) {s s' : σ} {t : τ}
    (hr : R s t) (h : M.run s as = some s') :
    ∃ t', N.run t bs = some t' ∧ R s' t' := by
  induction hl generalizing s t with
  | nil => exact ⟨t, rfl, Option.some.inj h ▸ hr⟩
  | cons hab _ ih =>
    obtain ⟨u, hu, hrest⟩ := M.run_cons_eq_some.mp h
    obtain ⟨v, hv, huv⟩ := hstep hr hab hu
    obtain ⟨t', ht', hrt⟩ := ih huv hrest
    exact ⟨t', N.run_cons_eq_some.mpr ⟨v, hv, ht'⟩, hrt⟩

/-- A run is followed by another machine that takes some of its steps and not the others. -/
theorem run_erase {N : Machine τ κ} {R : σ → τ → Prop} {g : ι → Option κ}
    (hkeep : ∀ {s t a b s'}, R s t → g a = some b → M.step s a = some s' →
      ∃ t', N.step t b = some t' ∧ R s' t')
    (hdrop : ∀ {s t a s'}, R s t → g a = none → M.step s a = some s' → R s' t)
    {as : List ι} {s s' : σ} {t : τ} (hr : R s t) (h : M.run s as = some s') :
    ∃ t', N.run t (as.filterMap g) = some t' ∧ R s' t' := by
  induction as generalizing s t with
  | nil => exact ⟨t, rfl, Option.some.inj h ▸ hr⟩
  | cons a as ih =>
    obtain ⟨u, hu, hrest⟩ := M.run_cons_eq_some.mp h
    cases hg : g a with
    | none =>
      rw [List.filterMap_cons_none hg]
      exact ih (hdrop hr hg hu) hrest
    | some b =>
      obtain ⟨v, hv, huv⟩ := hkeep hr hg hu
      obtain ⟨t', ht', hrt⟩ := ih huv hrest
      rw [List.filterMap_cons_some hg]
      exact ⟨t', N.run_cons_eq_some.mpr ⟨v, hv, ht'⟩, hrt⟩

/-- What each step appends to a list, a run appends in the order of its steps. -/
theorem run_append_filterMap {β : Type*} {f : σ → List β} {out : ι → Option β}
    (hstep : ∀ {s t a}, M.step s a = some t → f t = f s ++ (out a).toList)
    {as : List ι} {s t : σ} (h : M.run s as = some t) : f t = f s ++ as.filterMap out := by
  induction as generalizing s with
  | nil => rw [← Option.some.inj h, List.filterMap_nil, List.append_nil]
  | cons a as ih =>
    obtain ⟨u, hu, hrest⟩ := M.run_cons_eq_some.mp h
    rw [ih hrest, hstep hu, List.append_assoc]
    congr 1
    cases ho : out a with
    | none => rw [List.filterMap_cons_none ho, Option.toList_none, List.nil_append]
    | some b => rw [List.filterMap_cons_some ho, Option.toList_some, List.singleton_append]

variable (M)

/-- Every state a run passes through, its last one included, satisfies `P`. -/
def Along (P : σ → Prop) : σ → List ι → Prop
  | s, [] => P s
  | s, a :: as => P s ∧ ∀ t, M.step s a = some t → Along P t as

/-- Every step of a run meets `C`. -/
def Meets (C : σ → ι → Prop) : σ → List ι → Prop
  | _, [] => True
  | s, a :: as => C s a ∧ ∀ t, M.step s a = some t → Meets C t as

variable {M}

instance decidableMeets {C : σ → ι → Prop} [∀ s a, Decidable (C s a)] :
    ∀ (as : List ι) (s : σ), Decidable (M.Meets C s as)
  | [], _ => isTrue trivial
  | a :: as, s => match h : M.step s a with
    | none => decidable_of_iff (C s a) (by simp [Meets, h])
    | some t =>
      have := decidableMeets (C := C) as t
      decidable_of_iff (C s a ∧ M.Meets C t as) (by simp [Meets, h])

theorem Meets.and_forall {C : σ → ι → Prop} {D : ι → Prop} {as : List ι} {s : σ}
    (hC : M.Meets C s as) (hD : ∀ a ∈ as, D a) : M.Meets (fun s a => C s a ∧ D a) s as := by
  induction as generalizing s with
  | nil => trivial
  | cons a as ih =>
    obtain ⟨ha, has⟩ := List.forall_mem_cons.mp hD
    exact ⟨⟨hC.1, ha⟩, fun t ht => ih (hC.2 t ht) has⟩

theorem meets_append {C : σ → ι → Prop} {as bs : List ι} {s : σ} :
    M.Meets C s (as ++ bs) ↔ M.Meets C s as ∧ ∀ t, M.run s as = some t → M.Meets C t bs := by
  induction as generalizing s with
  | nil => simp [Meets]
  | cons a as ih =>
    simp only [List.cons_append, Meets, ih, run_cons_eq_some]
    constructor
    · rintro ⟨hc, htail⟩
      exact ⟨⟨hc, fun u hu => (htail u hu).1⟩, fun t ⟨u, hu, hr⟩ => (htail u hu).2 t hr⟩
    · rintro ⟨⟨hc, htail⟩, hrest⟩
      exact ⟨hc, fun u hu => ⟨htail u hu, fun t hr => hrest t ⟨u, hu, hr⟩⟩⟩

/-- A property kept by every step that meets `C` is kept by every run that meets it. -/
theorem run_invariant_meets {I : σ → Prop} {C : σ → ι → Prop}
    (hstep : ∀ {s t a}, I s → C s a → M.step s a = some t → I t)
    {as : List ι} {s t : σ} (hC : M.Meets C s as) (hs : I s) (h : M.run s as = some t) : I t := by
  induction as generalizing s with
  | nil => exact Option.some.inj h ▸ hs
  | cons a as ih =>
    obtain ⟨u, hu, hr⟩ := M.run_cons_eq_some.mp h
    exact ih (hC.2 u hu) (hstep hs hC.1 hu) hr

theorem ReachableBy.run {C : σ → ι → Prop} {as : List ι} {s t : σ} (hs : M.ReachableBy C s)
    (hC : M.Meets C s as) (h : M.run s as = some t) : M.ReachableBy C t :=
  run_invariant_meets (fun hr hc hu => hr.step hc hu) hC hs h

/-- Where one step keeps `P` exactly when it meets `C`, and such steps keep `I`, a run stays in
`P` exactly when all its steps meet `C`. -/
theorem along_iff_meets {I P : σ → Prop} {C : σ → ι → Prop}
    (hinv : ∀ {s t a}, I s → C s a → M.step s a = some t → I t)
    (hstep : ∀ {s t a}, I s → P s → M.step s a = some t → (P t ↔ C s a))
    {as : List ι} {s t : σ} (hI : I s) (hP : P s) (h : M.run s as = some t) :
    M.Along P s as ↔ M.Meets C s as := by
  induction as generalizing s with
  | nil => exact ⟨fun _ => trivial, fun _ => hP⟩
  | cons a as ih =>
    obtain ⟨u, hu, hrest⟩ := M.run_cons_eq_some.mp h
    have hiff := hstep hI hP hu
    simp only [Along, Meets, hu, Option.some.injEq, forall_eq', hP, true_and]
    constructor
    · intro ha
      have hPu : P u := by cases as with
        | nil => exact ha
        | cons _ _ => exact ha.1
      have hc := hiff.mp hPu
      exact ⟨hc, (ih (hinv hI hc hu) hPu hrest).mp ha⟩
    · rintro ⟨hc, hm⟩
      exact (ih (hinv hI hc hu) (hiff.mpr hc) hrest).mpr hm

/-- `M` refines `N` through `abs`: a step of `M` from a reachable state is the step
`label` names, or leaves the abstract state alone. -/
structure Refinement (M : Machine σ ι) (N : Machine τ κ) where
  abs : σ → τ
  label : σ → ι → Option κ
  init : abs M.init = N.init
  stutter : ∀ {s t a}, M.Reachable s → M.step s a = some t → label s a = none → abs t = abs s
  step : ∀ {s t a b}, M.Reachable s → M.step s a = some t → label s a = some b →
    N.step (abs s) b = some (abs t)

theorem Refinement.reachableBy {N : Machine τ κ} (f : Refinement M N) {C : σ → ι → Prop}
    {D : τ → κ → Prop} (hC : ∀ {s a b}, C s a → f.label s a = some b → D (f.abs s) b)
    {s : σ} (h : M.ReachableBy C s) : N.ReachableBy D (f.abs s) := by
  refine h.invariant (I := fun s => N.ReachableBy D (f.abs s)) ?_ ?_
  · rw [f.init]
    exact .init
  · intro s t a hr ih hc hs
    cases hl : f.label s a with
    | none =>
      rw [f.stutter hr.reachable hs hl]
      exact ih
    | some b => exact .step ih (hC hc hl) (f.step hr.reachable hs hl)

/-- What the steps of a run are for the abstract machine. -/
def Refinement.labels {N : Machine τ κ} (f : Refinement M N) : σ → List ι → List κ
  | _, [] => []
  | s, a :: as =>
    (f.label s a).toList ++ (M.step s a).elim [] fun t => f.labels t as

/-- A run of the concrete machine is the run of the abstract one that its steps name. -/
theorem Refinement.run_labels {N : Machine τ κ} (f : Refinement M N) {as : List ι} {s t : σ}
    (hr : M.Reachable s) (h : M.run s as = some t) :
    N.run (f.abs s) (f.labels s as) = some (f.abs t) := by
  induction as generalizing s with
  | nil =>
    rw [← Option.some.inj h]
    rfl
  | cons a as ih =>
    obtain ⟨u, hu, hrest⟩ := M.run_cons_eq_some.mp h
    have htail := ih (hr.step hu) hrest
    rw [labels, hu, Option.elim_some]
    cases hl : f.label s a with
    | none =>
      rw [← f.stutter hr hu hl]
      exact htail
    | some b => exact N.run_cons_eq_some.mpr ⟨_, f.step hr hu hl, htail⟩

end Machine

end CoordinateStream
