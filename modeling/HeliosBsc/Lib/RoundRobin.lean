import Mathlib.Data.Nat.Periodic
import Mathlib.Tactic.Common
import Mathlib.Algebra.Order.BigOperators.Group.Finset

/-!
# Taking turns

`n` members take turns of `turn` consecutive numbers each. In a full round everyone has exactly one
turn, so whoever is next has used less than a turn of the numbers before, as far back as a round
reaches. And where numbers are taken by anyone, those who have taken a whole turn of a window are as
many as the window has turns.
-/

namespace RoundRobin

/-- The member whose turn a number belongs to. -/
def slot (n turn k : ℕ) : ℕ := k / turn % n

theorem slot_lt {n : ℕ} (hn : 0 < n) (turn k : ℕ) : slot n turn k < n := Nat.mod_lt _ hn

theorem periodic_slot {turn : ℕ} (n i : ℕ) (hturn : 0 < turn) :
    Function.Periodic (fun k => slot n turn k = i) (n * turn) := by
  intro k
  change ((k + n * turn) / turn % n = i) = (k / turn % n = i)
  rw [Nat.add_mul_div_right k n hturn, Nat.add_mod_right]

theorem count_slot {n turn i : ℕ} (hturn : 0 < turn) (hi : i < n) :
    (n * turn).count (fun k => slot n turn k = i) = turn := by
  have hset : (Finset.range (n * turn)).filter (fun k => slot n turn k = i) =
      Finset.Ico (i * turn) (i * turn + turn) := by
    ext k
    rw [Finset.mem_filter, Finset.mem_range, Finset.mem_Ico]
    constructor
    · rintro ⟨hk, hslot⟩
      have hlt : k / turn < n := (Nat.div_lt_iff_lt_mul hturn).mpr hk
      rw [slot, Nat.mod_eq_of_lt hlt] at hslot
      rw [← hslot]
      exact ⟨Nat.div_mul_le_self k turn, Nat.lt_div_mul_add hturn⟩
    · rintro ⟨hlow, hhigh⟩
      have hdiv : k / turn = i := Nat.div_eq_of_lt_le hlow (by rw [Nat.succ_mul]; exact hhigh)
      have hround : i * turn + turn ≤ n * turn := by
        rw [← Nat.succ_mul]
        exact Nat.mul_le_mul_right turn hi
      rw [slot, hdiv, Nat.mod_eq_of_lt hi]
      exact ⟨hhigh.trans_le hround, rfl⟩
  rw [Nat.count_eq_card_filter_range, hset, Nat.card_Ico, Nat.add_sub_cancel_left]

/-- Everyone has one turn of every round, wherever it starts. -/
theorem card_round {n turn i : ℕ} (a : ℕ) (hturn : 0 < turn) (hi : i < n) :
    ((Finset.Ico a (a + n * turn)).filter fun k => slot n turn k = i).card = turn := by
  rw [Nat.filter_Ico_card_eq_of_periodic _ _ _ (periodic_slot n i hturn), count_slot hturn hi]

/-- Within a round before a number, its member has less than a whole turn. -/
theorem card_before {n turn m : ℕ} (low : ℕ) (hn : 0 < n) (hturn : 0 < turn)
    (hround : m < low + n * turn) :
    ((Finset.Ico low m).filter fun k => slot n turn k = slot n turn m).card < turn := by
  have hall := card_round low hturn (slot_lt hn turn m)
  rcases Nat.lt_or_ge m low with hlt | hle
  · rw [Finset.Ico_eq_empty (by omega), Finset.filter_empty, Finset.card_empty]
    exact hturn
  · refine lt_of_lt_of_eq (Finset.card_lt_card ?_) hall
    rw [Finset.ssubset_iff]
    refine ⟨m, ?_, ?_⟩
    · simp
    · intro k hk
      rw [Finset.mem_insert, Finset.mem_filter, Finset.mem_Ico] at hk
      rw [Finset.mem_filter, Finset.mem_Ico]
      rcases hk with rfl | ⟨⟨hlow, hhigh⟩, hslot⟩
      · exact ⟨⟨hle, hround⟩, rfl⟩
      · exact ⟨⟨hlow, hhigh.trans hround⟩, hslot⟩

/-- Those who have each taken a turn's worth of some numbers have taken that many together. -/
theorem card_mul_le {α : Type*} [DecidableEq α] {taken : Finset (ℕ × α)} {members : Finset α}
    {turn : ℕ} (h : ∀ a ∈ members, turn ≤ (taken.filter fun e => e.2 = a).card) :
    members.card * turn ≤ taken.card := by
  have hmaps : ∀ e ∈ taken.filter (fun e => e.2 ∈ members), e.2 ∈ members :=
    fun e he => (Finset.mem_filter.mp he).2
  calc members.card * turn
      ≤ ∑ a ∈ members, ((taken.filter fun e => e.2 ∈ members).filter fun e => e.2 = a).card := by
        refine Finset.card_nsmul_le_sum _ _ _ fun a ha => ?_
        rw [Finset.filter_filter]
        refine (h a ha).trans (Finset.card_le_card fun e he => ?_)
        obtain ⟨hmem, heq⟩ := Finset.mem_filter.mp he
        exact Finset.mem_filter.mpr ⟨hmem, heq ▸ ha, heq⟩
    _ = (taken.filter fun e => e.2 ∈ members).card :=
        (Finset.card_eq_sum_card_fiberwise hmaps).symm
    _ ≤ taken.card := Finset.card_filter_le _ _

end RoundRobin
