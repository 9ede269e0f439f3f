import Mathlib.Algebra.Order.Ring.Defs
import Mathlib.Data.List.Basic
import Mathlib.Tactic.Linarith
import Mathlib.Tactic.Ring

namespace CoordinateStream

/-! A loop that waits for a deadline, moves it on by a period, and gives up on a deadline
that lies more than two periods back. -/

/-- A turn of the loop: the clock as it was read behind the wait, the deadline set then,
whether that was a reset, and whether the wait was cut short. -/
structure Turn (τ : Type*) where
  now : τ
  deadline : τ
  reset : Bool
  cut : Bool
  deriving DecidableEq, Repr

/-- The deadline at the start of the loop, and the turns since. -/
structure Pacer (τ : Type*) where
  first : τ
  turns : List (Turn τ)
  deriving DecidableEq, Repr

namespace Pacer

variable {τ : Type*}

/-- The deadline the loop waits for now. -/
def deadline (p : Pacer τ) : τ := (p.turns.getLast?.map Turn.deadline).getD p.first

section order

variable [CommRing τ] [LinearOrder τ]

def start (period now : τ) : Pacer τ := ⟨now + period, []⟩

/-- The turn that follows a wait for `deadline`. -/
def turn (period deadline now : τ) (cut : Bool) : Turn τ :=
  if deadline + period < now - 2 • period then ⟨now, now + period, true, cut⟩
  else ⟨now, deadline + period, false, cut⟩

def advance (period now : τ) (cut : Bool) (p : Pacer τ) : Pacer τ :=
  { p with turns := p.turns ++ [turn period p.deadline now cut] }

theorem advance_deadline (p : Pacer τ) (period now : τ) (cut : Bool) :
    (p.advance period now cut).deadline = (turn period p.deadline now cut).deadline := by
  simp [deadline, advance]

/-- The turns follow each other from a deadline on, and no wait ends before its deadline
that was not cut short. -/
def Paced (period : τ) : τ → List (Turn τ) → Prop
  | _, [] => True
  | deadline, t :: turns =>
    ((t.cut = false → deadline ≤ t.now) ∧ t = turn period deadline t.now t.cut) ∧
      Paced period t.deadline turns

/-- The turns whose wait came to its deadline. -/
def uncut (turns : List (Turn τ)) : ℕ := turns.countP fun t => !t.cut

variable {period : τ}

@[simp] theorem turn_now (deadline now : τ) (cut : Bool) :
    (turn period deadline now cut).now = now := by
  unfold turn
  split <;> rfl

@[simp] theorem turn_cut (deadline now : τ) (cut : Bool) :
    (turn period deadline now cut).cut = cut := by
  unfold turn
  split <;> rfl

theorem Paced.concat {first : τ} {turns : List (Turn τ)} (h : Paced period first turns)
    {now : τ} {cut : Bool} (hwait : cut = false → Pacer.deadline ⟨first, turns⟩ ≤ now) :
    Paced period first (turns ++ [turn period (Pacer.deadline ⟨first, turns⟩) now cut]) := by
  induction turns generalizing first with
  | nil => exact ⟨⟨by simpa [deadline] using hwait, by simp [deadline]⟩, trivial⟩
  | cons t turns ih =>
    have hlast : Pacer.deadline ⟨first, t :: turns⟩ = Pacer.deadline ⟨t.deadline, turns⟩ := by
      rw [deadline, deadline, List.getLast?_cons, Option.map_some, Option.getD_some]
      cases turns.getLast? <;> rfl
    rw [hlast] at hwait ⊢
    exact ⟨h.1, ih h.2 hwait⟩

/-- Turns one behind the other. -/
theorem Paced.next {first : τ} {turns : List (Turn τ)} (h : Paced period first turns) {k : ℕ}
    {a b : Turn τ} (ha : turns[k]? = some a) (hb : turns[k + 1]? = some b) :
    b = turn period a.deadline b.now b.cut := by
  induction turns generalizing first k with
  | nil => simp at ha
  | cons t turns ih =>
    cases k with
    | zero =>
      rw [List.getElem?_cons_zero, Option.some.injEq] at ha
      subst ha
      cases turns with
      | nil => simp at hb
      | cons u turns =>
        rw [List.getElem?_cons_succ, List.getElem?_cons_zero, Option.some.injEq] at hb
        subst hb
        exact h.2.1.2
    | succ k => exact ih h.2 ha hb

/-- Every turn comes after a wait for some deadline. -/
theorem Paced.exists_deadline {first : τ} {turns : List (Turn τ)} (h : Paced period first turns)
    {t : Turn τ} (ht : t ∈ turns) : ∃ deadline, (t.cut = false → deadline ≤ t.now) ∧
      t = turn period deadline t.now t.cut := by
  induction turns generalizing first with
  | nil => simp at ht
  | cons u turns ih =>
    rcases List.mem_cons.mp ht with rfl | ht
    · exact ⟨first, h.1⟩
    · exact ih h.2 ht

theorem turn_of_not_reset {deadline now : τ} {cut : Bool}
    (h : (turn period deadline now cut).reset = false) :
    (turn period deadline now cut).deadline = deadline + period := by
  unfold turn at h ⊢
  split_ifs with hr
  · rw [if_pos hr] at h
    cases h
  · rfl

/-- Between two resets the deadlines keep the rate exactly. -/
theorem Paced.exact {first : τ} {turns : List (Turn τ)} (h : Paced period first turns) {i : ℕ}
    {a : Turn τ} (ha : turns[i]? = some a) (n : ℕ) {b : Turn τ} (hb : turns[i + n]? = some b)
    (hr : ∀ k t, i < k → k ≤ i + n → turns[k]? = some t → t.reset = false) :
    b.deadline = a.deadline + n * period := by
  induction n generalizing b with
  | zero =>
    rw [Nat.add_zero, ha, Option.some.injEq] at hb
    simp [hb]
  | succ n ih =>
    have hlt : i + n < turns.length := by
      have := (List.getElem?_eq_some_iff.mp hb).1
      omega
    have hc := List.getElem?_eq_getElem hlt
    have hprev := ih hc fun k t hk hle => hr k t hk (by omega)
    have hnext := h.next hc hb
    have hreset := hr (i + n + 1) b (by omega) (by omega) hb
    rw [hnext] at hreset
    have heq := turn_of_not_reset hreset
    rw [← hnext, hprev] at heq
    rw [heq]
    push_cast
    ring

variable [IsStrictOrderedRing τ]

theorem turn_lower (hp : 0 < period) (deadline now : τ) (cut : Bool) :
    now - 2 • period ≤ (turn period deadline now cut).deadline := by
  have htwo : 0 ≤ 2 • period := nsmul_nonneg hp.le 2
  unfold turn
  split_ifs with h
  · dsimp only
    linarith
  · exact not_lt.mp h

theorem turn_upper {deadline now : τ} (h : deadline ≤ now) (cut : Bool) :
    (turn period deadline now cut).deadline ≤ now + period := by
  unfold turn
  split_ifs
  · exact le_refl _
  · dsimp only
    linarith

/-- A turn moves the deadline on by a period at least, a reset included. -/
theorem turn_growth (hp : 0 < period) (deadline now : τ) (cut : Bool) :
    deadline + period ≤ (turn period deadline now cut).deadline := by
  have htwo : 0 ≤ 2 • period := nsmul_nonneg hp.le 2
  unfold turn
  split_ifs with h
  · dsimp only
    linarith
  · exact le_refl _

/-- Over a window of turns the deadline moves on by as many periods at least. -/
theorem Paced.growth {first : τ} {turns : List (Turn τ)} (h : Paced period first turns)
    (hp : 0 < period) {i : ℕ} {a : Turn τ} (ha : turns[i]? = some a) (n : ℕ) {b : Turn τ}
    (hb : turns[i + n]? = some b) : a.deadline + n * period ≤ b.deadline := by
  induction n generalizing b with
  | zero =>
    rw [Nat.add_zero, ha, Option.some.injEq] at hb
    simp [hb]
  | succ n ih =>
    have hlt : i + n < turns.length := by
      have := (List.getElem?_eq_some_iff.mp hb).1
      omega
    have hc := List.getElem?_eq_getElem hlt
    have hprev := ih hc
    have hnext := h.next hc hb
    have hgrowth := turn_growth hp turns[i + n].deadline b.now b.cut
    rw [← hnext] at hgrowth
    push_cast
    linarith

/-- The first deadline and as many periods as followed uncut waits have passed by now. -/
theorem Paced.uncut_mul_le {first : τ} {turns : List (Turn τ)} (h : Paced period first turns)
    (hp : 0 < period) {clock : τ} (hnow : ∀ t ∈ turns, t.now ≤ clock) (hpos : 0 < uncut turns) :
    first + uncut turns * period ≤ clock + period := by
  induction turns generalizing first with
  | nil => exact absurd hpos (Nat.lt_irrefl 0)
  | cons t turns ih =>
    have hgrowth : first + period ≤ t.deadline := by
      rw [h.1.2]
      exact turn_growth hp first t.now t.cut
    have hrest (hpos : 0 < uncut turns) : t.deadline + uncut turns * period ≤ clock + period :=
      ih h.2 (fun u hu => hnow u (List.mem_cons_of_mem _ hu)) hpos
    cases hcut : t.cut with
    | true =>
      have hsame : uncut (t :: turns) = uncut turns := by simp [uncut, hcut]
      rw [hsame] at hpos ⊢
      have := hrest hpos
      linarith
    | false =>
      have hsucc : uncut (t :: turns) = uncut turns + 1 := by simp [uncut, hcut]
      have hwait : first ≤ clock := (h.1.1 hcut).trans (hnow t List.mem_cons_self)
      rw [hsucc]
      push_cast
      rcases Nat.eq_zero_or_pos (uncut turns) with hzero | hpos
      · rw [hzero, Nat.cast_zero]
        linarith
      · have := hrest hpos
        linarith

/-- The pace of a loop: its deadlines stay near the clock, a window of its turns lasts at
least the periods it spans but three, and between two resets nothing drifts. -/
structure Bounded (period : τ) (turns : List (Turn τ)) : Prop where
  lower : ∀ t ∈ turns, t.now - 2 * period ≤ t.deadline
  upper : ∀ t ∈ turns, t.cut = false → t.deadline ≤ t.now + period
  window : ∀ (i j : ℕ) (a b : Turn τ), i < j → turns[i]? = some a → turns[j]? = some b →
    b.cut = false → ((j : τ) - i) * period ≤ (b.now - a.now) + 3 * period
  exact : ∀ (i j : ℕ) (a b : Turn τ), i < j → turns[i]? = some a → turns[j]? = some b →
    (∀ (k : ℕ) (t : Turn τ), i < k → k ≤ j → turns[k]? = some t → t.reset = false) →
    b.deadline = a.deadline + ((j : τ) - i) * period

theorem Paced.bounded {first : τ} {turns : List (Turn τ)} (h : Paced period first turns)
    (hp : 0 < period) : Bounded period turns := by
  have hlower : ∀ t ∈ turns, t.now - 2 * period ≤ t.deadline := by
    intro t ht
    obtain ⟨deadline, -, heq⟩ := h.exists_deadline ht
    have hge := turn_lower hp deadline t.now t.cut
    rwa [← heq, two_nsmul, ← two_mul] at hge
  have hupper : ∀ t ∈ turns, t.cut = false → t.deadline ≤ t.now + period := by
    intro t ht hcut
    obtain ⟨deadline, hwait, heq⟩ := h.exists_deadline ht
    have hle : (turn period deadline t.now t.cut).deadline ≤ t.now + period :=
      turn_upper (hwait hcut) t.cut
    rwa [← heq] at hle
  have hspan {i j : ℕ} (hij : i < j) : ((j : τ) - i) = ((j - i : ℕ) : τ) := by
    rw [Nat.cast_sub hij.le]
  refine ⟨hlower, hupper, ?_, ?_⟩
  · intro i j a b hij ha hb hcut
    rw [← Nat.add_sub_cancel' hij.le] at hb
    have hgrowth := h.growth hp ha (j - i) hb
    have hlo := hlower a (List.mem_of_getElem? ha)
    have hup := hupper b (List.mem_of_getElem? hb) hcut
    rw [hspan hij]
    linarith
  · intro i j a b hij ha hb hr
    rw [← Nat.add_sub_cancel' hij.le] at hb
    rw [hspan hij]
    exact h.exact ha (j - i) hb fun k t hk hle => hr k t hk (by omega)

end order

end Pacer

end CoordinateStream
