import Mathlib.Algebra.Group.Nat.Defs
import Mathlib.Data.List.Basic
import Mathlib.Order.Nat
import Mathlib.Tactic.Common

/-!
# Bisection

The search that halves an interval until one position is left. On a list sorted by `le` it finds
exactly the members. A search that is given the interval by its ends takes as many steps as the
width has bits, whichever end a step moves.
-/

namespace Bisect

variable {α : Type*} (le : α → α → Bool)

/-- The position at which the search of `size` entries from `base` on ends. -/
def position (l : List α) (a : α) (base size : ℕ) : ℕ :=
  if size ≤ 1 then base
  else
    let mid := base + size / 2
    match l[mid]? with
    | some x => position l a (if le x a then mid else base) (size - size / 2)
    | none => base
termination_by size

/-- Whether the entry at the last position is the one searched for. -/
def contains [DecidableEq α] (l : List α) (a : α) : Bool :=
  decide (l[position le l a 0 l.length]? = some a)

variable {le}

/-- What the search finds is in the list, sorted or not. -/
theorem mem_of_contains [DecidableEq α] {l : List α} {a : α} (h : contains le l a = true) :
    a ∈ l :=
  List.mem_of_getElem? (of_decide_eq_true h)

/-- The interval keeps an entry equal to the one searched for: the half that is dropped lies above
it, or below an equal entry that is kept. -/
theorem getElem?_position (hanti : ∀ x y, le x y = true → le y x = true → x = y) {l : List α}
    (hsorted : l.Pairwise fun x y => le x y = true) (hrefl : ∀ x, le x x = true) {a : α}
    (base size : ℕ) (hbound : base + size ≤ l.length)
    (h : ∃ i, base ≤ i ∧ i < base + size ∧ l[i]? = some a) :
    l[position le l a base size]? = some a := by
  have hle : ∀ {i j : ℕ} {x y : α}, i ≤ j → l[i]? = some x → l[j]? = some y → le x y = true := by
    intro i j x y hij hi hj
    rcases Nat.lt_or_eq_of_le hij with hlt | rfl
    · obtain ⟨hi', rfl⟩ := List.getElem?_eq_some_iff.mp hi
      obtain ⟨hj', rfl⟩ := List.getElem?_eq_some_iff.mp hj
      exact List.pairwise_iff_getElem.mp hsorted i j hi' hj' hlt
    · rw [hi, Option.some.injEq] at hj
      exact hj ▸ hrefl x
  obtain ⟨i, hlow, hhigh, hi⟩ := h
  induction size using Nat.strongRecOn generalizing base i with
  | ind size ih =>
    rw [position]
    by_cases hsize : size ≤ 1
    · rw [if_pos hsize]
      rwa [show i = base by omega] at hi
    · have hmid := List.getElem?_eq_getElem (show base + size / 2 < l.length by omega)
      rw [if_neg hsize]
      simp only [hmid]
      have hless : size - size / 2 < size := by omega
      by_cases hx : le l[base + size / 2] a = true
      · rw [if_pos hx]
        by_cases him : base + size / 2 ≤ i
        · exact ih _ hless _ (by omega) i him (by omega) hi
        · -- the entry in the middle is squeezed between two equal ones
          have hxa := hanti a _ (hle (by omega) hi hmid) hx
          exact ih _ hless _ (by omega) _ le_rfl (by omega) (hmid.trans (congrArg some hxa.symm))
      · rw [if_neg hx]
        have him : i < base + size / 2 := by
          by_contra hge
          exact hx (hle (by omega) hmid hi)
        exact ih _ hless _ (by omega) i hlow (by omega) hi

theorem contains_iff [DecidableEq α] (hanti : ∀ x y, le x y = true → le y x = true → x = y)
    (hrefl : ∀ x, le x x = true) {l : List α} (hsorted : l.Pairwise fun x y => le x y = true)
    {a : α} : contains le l a = true ↔ a ∈ l := by
  refine ⟨mem_of_contains, fun h => decide_eq_true ?_⟩
  obtain ⟨i, hi, rfl⟩ := List.mem_iff_getElem.mp h
  refine getElem?_position hanti hsorted hrefl 0 l.length (by omega) ⟨i, Nat.zero_le i, by omega, ?_⟩
  exact List.getElem?_eq_getElem hi

/-! ## Intervals -/

/-- Whether a step that has looked at the middle of an interval has moved an end there, or past it
on the lower side, and has left the ends apart. -/
structure Halves (lo hi lo' hi' : ℕ) : Prop where
  apart : lo' < hi'
  ends : (lo' = lo + (hi - lo) / 2 ∧ hi' = hi) ∨ (lo ≤ lo' ∧ hi' = lo + (hi - lo) / 2)

theorem Halves.width {lo hi lo' hi' m : ℕ} (h : Halves lo hi lo' hi')
    (hwidth : hi - lo ≤ 2 ^ (m + 1)) : hi' - lo' ≤ 2 ^ m := by
  rw [Nat.pow_succ] at hwidth
  obtain ⟨hapart, ⟨hlo, hhi⟩ | ⟨hlo, hhi⟩⟩ := h
  · omega
  · omega

end Bisect
