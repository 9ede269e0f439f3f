import Mathlib.Algebra.Order.Monoid.Defs
import Mathlib.Data.List.Chain
import Mathlib.Data.List.Induction
import Mathlib.Order.Lattice
import Mathlib.Order.Nat

namespace CoordinateStream

/-! A consumer of a growing log that only ever reads its last entry, and keeps an entry
when its key is above the key of the entry kept last (its cursor). -/

namespace Sampler

/-- An entry as it was read: its position in the log, counted from one, and the item. -/
structure Entry (α : Type*) where
  number : ℕ
  item : α
  deriving DecidableEq, Repr

/-- The number of the entry taken last, zero before the first. -/
def lastNumber {α : Type*} (taken : List (Entry α)) : ℕ :=
  (taken.getLast?.map Entry.number).getD 0

/-- `e` is the entry of `log` that its number names. -/
def Names {α : Type*} (log : List α) (e : Entry α) : Prop :=
  0 < e.number ∧ log[e.number - 1]? = some e.item

theorem Names.append {α : Type*} {log : List α} {e : Entry α} (h : Names log e) (more : List α) :
    Names (log ++ more) e := by
  obtain ⟨hpos, hget⟩ := h
  refine ⟨hpos, ?_⟩
  rw [List.getElem?_append_left (List.getElem?_eq_some_iff.mp hget).1]
  exact hget

theorem Names.number_le {α : Type*} {log : List α} {e : Entry α} (h : Names log e) :
    e.number ≤ log.length := by
  obtain ⟨hpos, hget⟩ := h
  have := (List.getElem?_eq_some_iff.mp hget).1
  omega

theorem names_last {α : Type*} {log : List α} {x : α} (h : log.getLast? = some x) :
    Names log ⟨log.length, x⟩ := by
  rw [List.getLast?_eq_getElem?] at h
  have := (List.getElem?_eq_some_iff.mp h).1
  exact ⟨by dsimp only; omega, h⟩

variable {α κ : Type*} [LinearOrder κ] (key : α → κ) (bot : κ)

structure Inv (log : List α) (taken : List (Entry α)) (cursor : κ) : Prop where
  names : ∀ e ∈ taken, Names log e
  ordered : taken.Pairwise fun d e => d.number < e.number
  increasing : taken.Pairwise fun d e => key d.item < key e.item
  above : ∀ e ∈ taken, bot < key e.item
  cursor_eq : cursor = (taken.getLast?.map fun e => key e.item).getD bot

/-- An entry that was read and found above the cursor, not yet taken. -/
structure Pending (log : List α) (taken : List (Entry α)) (cursor : κ) (e : Entry α) : Prop where
  names : Names log e
  later : ∀ d ∈ taken, d.number < e.number
  fresh : cursor < key e.item

variable {key bot} {log : List α} {taken : List (Entry α)} {cursor : κ} {e : Entry α}

theorem Inv.nil : Inv key bot log [] bot := by
  constructor <;> simp

theorem Inv.append (h : Inv key bot log taken cursor) (more : List α) :
    Inv key bot (log ++ more) taken cursor :=
  { h with names := fun e he => (h.names e he).append more }

theorem Pending.append (h : Pending key log taken cursor e) (more : List α) :
    Pending key (log ++ more) taken cursor e :=
  { h with names := h.names.append more }

/-- The keys taken so far are at most the cursor. -/
theorem Inv.le_cursor (h : Inv key bot log taken cursor) : ∀ d ∈ taken, key d.item ≤ cursor := by
  intro d hd
  have hinc := h.increasing
  have hcur := h.cursor_eq
  induction taken using List.reverseRecOn with
  | nil => cases hd
  | append_singleton init e _ =>
    simp only [List.getLast?_concat, Option.map_some, Option.getD_some] at hcur
    subst hcur
    rcases List.mem_append.mp hd with hi | he
    · exact (List.pairwise_append.mp hinc).2.2 d hi e (by simp) |>.le
    · rw [List.mem_singleton.mp he]

theorem Inv.bot_le_cursor (h : Inv key bot log taken cursor) : bot ≤ cursor := by
  rw [h.cursor_eq]
  cases hl : taken.getLast? with
  | none => exact le_refl _
  | some e => exact (h.above e (List.mem_of_getLast? hl)).le

/-- The last entry of the log, read with a key above the cursor, was not taken before. -/
theorem Inv.pending_last (h : Inv key bot log taken cursor) {x : α}
    (hx : log.getLast? = some x) (hfresh : cursor < key x) :
    Pending key log taken cursor ⟨log.length, x⟩ := by
  refine ⟨names_last hx, ?_, hfresh⟩
  intro d hd
  apply lt_of_le_of_ne (h.names d hd).number_le
  intro heq
  -- the same position holds the same item, whose key is at most the cursor
  have hget := (h.names d hd).2
  rw [heq, ← List.getLast?_eq_getElem?, hx] at hget
  have hkey := h.le_cursor d hd
  rw [← Option.some.inj hget] at hkey
  exact absurd hfresh (not_lt.mpr hkey)

/-- Taking a pending entry moves the cursor to its key. -/
theorem Inv.take (h : Inv key bot log taken cursor) (he : Pending key log taken cursor e) :
    Inv key bot log (taken ++ [e]) (key e.item) := by
  constructor
  · intro d hd
    rcases List.mem_append.mp hd with hd | hd
    · exact h.names d hd
    · rw [List.mem_singleton.mp hd]
      exact he.names
  · exact List.pairwise_append.mpr ⟨h.ordered, List.pairwise_singleton _ _,
      fun d hd e' he' => List.mem_singleton.mp he' ▸ he.later d hd⟩
  · exact List.pairwise_append.mpr ⟨h.increasing, List.pairwise_singleton _ _,
      fun d hd e' he' => List.mem_singleton.mp he' ▸ (h.le_cursor d hd).trans_lt he.fresh⟩
  · intro d hd
    rcases List.mem_append.mp hd with hd | hd
    · exact h.above d hd
    · rw [List.mem_singleton.mp hd]
      exact h.bot_le_cursor.trans_lt he.fresh
  · simp

/-- The items taken are a subsequence of the log. -/
theorem Inv.sublist (h : Inv key bot log taken cursor) : (taken.map Entry.item).Sublist log := by
  have hnames := h.names
  have hord := h.ordered
  clear h
  suffices ∀ n, (∀ d ∈ taken, n < d.number) → (taken.map Entry.item).Sublist (log.drop n) by
    simpa using this 0 fun d hd => (hnames d hd).1
  induction taken with
  | nil => simp
  | cons e rest ih =>
    intro n hn
    obtain ⟨hpos, hget⟩ := hnames e (by simp)
    obtain ⟨hlt, hrest⟩ := List.pairwise_cons.mp hord
    have htail := ih (fun d hd => hnames d (by simp [hd])) hrest e.number hlt
    have hcons : log.drop (e.number - 1) = e.item :: log.drop e.number := by
      obtain ⟨hlen, hval⟩ := List.getElem?_eq_some_iff.mp hget
      rw [List.drop_eq_getElem_cons hlen, hval, Nat.sub_add_cancel hpos]
    have hsub : (log.drop (e.number - 1)).Sublist (log.drop n) := by
      have hne := hn e (by simp)
      rw [show e.number - 1 = n + (e.number - 1 - n) by omega, ← List.drop_drop]
      exact List.drop_sublist _ _
    rw [hcons] at hsub
    exact ((htail.cons_cons e.item).trans hsub)

end Sampler

/-- Strictly increasing positive numbers: there are at most as many as the last one says. -/
theorem Sampler.Inv.length_le {α : Type*} {key : α → ℕ} {log : List α}
    {taken : List (Sampler.Entry α)} {cursor : ℕ} (h : Sampler.Inv key 0 log taken cursor) :
    taken.length ≤ cursor := by
  obtain ⟨-, -, hinc, habove, rfl⟩ := h
  induction taken using List.reverseRecOn with
  | nil => simp
  | append_singleton init e ih =>
    obtain ⟨hinit, -, hlt⟩ := List.pairwise_append.mp hinc
    have hle := ih hinit fun d hd => habove d (by simp [hd])
    simp only [List.length_append, List.length_singleton, List.getLast?_concat, Option.map_some,
      Option.getD_some]
    cases hl : init.getLast? with
    | none =>
      have := habove e (by simp)
      simp only [hl, Option.map_none, Option.getD_none] at hle
      omega
    | some d =>
      have := hlt d (List.mem_of_getLast? hl) e (by simp)
      simp only [hl, Option.map_some, Option.getD_some] at hle
      omega

/-- Entries follow each other, and the present the last of them, by a gap at most. One whose
successor has waited for `wait` at most is no older than both together. -/
theorem Sampler.age_le {τ : Type*} [AddCommMonoid τ] [PartialOrder τ] [IsOrderedAddMonoid τ]
    {stamps : List τ} {gap wait now : τ} (hgaps : stamps.IsChain fun a b => b ≤ a + gap)
    (hlast : ∀ a ∈ stamps.getLast?, now ≤ a + gap) (hwait : 0 ≤ wait) {k : ℕ} {a : τ}
    (ha : stamps[k]? = some a) (hnext : ∀ b, stamps[k + 1]? = some b → now ≤ b + wait) :
    now ≤ a + (gap + wait) := by
  rw [← add_assoc]
  obtain ⟨hk, hget⟩ := List.getElem?_eq_some_iff.mp ha
  by_cases hsucc : k + 1 < stamps.length
  · have hgap := hgaps.getElem k hsucc
    rw [hget] at hgap
    exact (hnext _ (List.getElem?_eq_getElem hsucc)).trans (add_le_add_left hgap wait)
  · have heq : k = stamps.length - 1 := by omega
    have hle := hlast a (by rw [List.getLast?_eq_getElem?, ← heq, ha]; rfl)
    exact hle.trans (le_add_of_nonneg_right hwait)

end CoordinateStream
