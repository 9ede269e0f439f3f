import CoordinateStream.Lib.Machine

namespace CoordinateStream

/-! One thread waits on a condition variable for a predicate that a stop flag makes true.
The flag is stored and the variable notified without the waiter's lock, so the two steps of
a stop, and the notifications of others, may fall anywhere between the waiter's steps. -/

namespace StopFlag

/-- `deciding`: the predicate was false and the thread still holds its lock, about to block. -/
inductive Waiter
  | running
  | deciding
  | blocked
  deriving DecidableEq, Repr

structure State where
  waiter : Waiter
  flag : Bool
  /-- Parties that are past their change of the state and have not notified yet. -/
  notifying : ℕ
  completed : ℕ
  deriving DecidableEq, Repr

inductive Event
  | decide
  | block
  /-- A party other than a stop is going to notify. -/
  | announce
  | store
  | notify (completesStop : Bool)
  deriving DecidableEq, Repr

def step (s : State) : Event → Option State
  | .decide =>
    if s.waiter = .running ∧ s.flag = false then some { s with waiter := .deciding } else none
  | .block => if s.waiter = .deciding then some { s with waiter := .blocked } else none
  | .announce => some { s with notifying := s.notifying + 1 }
  | .store => some { s with flag := true, notifying := s.notifying + 1 }
  | .notify completesStop =>
    if 0 < s.notifying ∧ (completesStop = true → s.flag = true) then
      some { s with
        waiter := if s.waiter = .blocked then .running else s.waiter
        notifying := s.notifying - 1
        completed := if completesStop then s.completed + 1 else s.completed }
    else none

def machine : Machine State Event := ⟨⟨.running, false, 0, 0⟩, step⟩

/-- A stop returned, nothing is left to notify, and the thread sleeps. -/
def Lost (s : State) : Prop := 0 < s.completed ∧ s.notifying = 0 ∧ s.waiter = .blocked

/-- Once the flag is set, the last notification to come is not issued between the waiter's
test and its block. -/
def Timely (s : State) (e : Event) : Prop :=
  ∀ b, e = .notify b → s.flag = true → s.notifying = 1 → s.waiter ≠ .deciding

structure Inv (s : State) : Prop where
  stored : 0 < s.completed → s.flag = true
  awake : s.flag = true → s.notifying = 0 → s.waiter = .running

theorem init_inv : Inv machine.init := by
  constructor <;> simp [machine]

theorem step_inv {s t : State} {e : Event} (h : Inv s) (hc : Timely s e)
    (hs : step s e = some t) : Inv t := by
  obtain ⟨hstored, hawake⟩ := h
  cases e with
  | decide =>
    simp only [step, Option.ite_none_right_eq_some, Option.some.injEq] at hs
    obtain ⟨⟨-, hf⟩, rfl⟩ := hs
    exact ⟨hstored, fun h => by simp [hf] at h⟩
  | block =>
    simp only [step, Option.ite_none_right_eq_some, Option.some.injEq] at hs
    obtain ⟨hw, rfl⟩ := hs
    refine ⟨hstored, fun hf hn => ?_⟩
    have hrunning := hawake hf hn
    rw [hw] at hrunning
    cases hrunning
  | announce =>
    simp only [step, Option.some.injEq] at hs
    subst hs
    exact ⟨hstored, fun _ hn => by simp at hn⟩
  | store =>
    simp only [step, Option.some.injEq] at hs
    subst hs
    exact ⟨fun _ => rfl, fun _ hn => by simp at hn⟩
  | notify b =>
    simp only [step, Option.ite_none_right_eq_some, Option.some.injEq] at hs
    obtain ⟨⟨hpos, hb⟩, rfl⟩ := hs
    refine ⟨fun hcompleted => ?_, fun hf hn => ?_⟩
    · cases b with
      | true => exact hb rfl
      | false => exact hstored hcompleted
    · have hone : s.notifying = 1 := by dsimp only at hn; omega
      have hnd := hc b rfl hf hone
      cases hw : s.waiter with
      | running => simp
      | deciding => exact absurd hw hnd
      | blocked => simp

/-- No stop is lost in a run whose notifications are timely. -/
theorem not_lost {s : State} (h : machine.ReachableBy Timely s) : ¬ Lost s := by
  have hinv : Inv s := h.invariant init_inv fun _ hi hc hs => step_inv hi hc hs
  rintro ⟨hcompleted, hnone, hblocked⟩
  have hrunning := hinv.awake (hinv.stored hcompleted) hnone
  rw [hblocked] at hrunning
  cases hrunning

end StopFlag

end CoordinateStream
