import Mathlib.Data.List.Chain
import Mathlib.Tactic.Common

/-!
# Votes that justify and finalize

A vote leads from a block that is justified to a higher one, which it justifies; a vote for the very
next height finalizes its source. A voter breaks a rule with two different votes for one height, or
with a vote that spans another one of its votes. A chain of votes that passes by a finalized block
breaks a rule against the two votes behind that block.
-/

namespace Justification

/-- A vote: source and target, each a height with the identity of a block. -/
structure Link (η : Type*) where
  source : ℕ × η
  target : ℕ × η

variable {η : Type*}

namespace Link

/-- Two different votes for one height. -/
def Doubles (a b : Link η) : Prop := a.target.1 = b.target.1 ∧ a ≠ b

/-- The vote `a` spans the vote `b`. -/
def Surrounds (a b : Link η) : Prop := a.source.1 < b.source.1 ∧ b.target.1 < a.target.1

/-- Two votes of which no voter may cast both. -/
def Slashable (a b : Link η) : Prop := a.Doubles b ∨ a.Surrounds b ∨ b.Surrounds a

end Link

/-- Each vote leads upwards, and starts where the one before it ends. -/
structure Chained (votes : List (Link η)) : Prop where
  linked : votes.IsChain fun a b => b.source = a.target
  upward : ∀ v ∈ votes, v.source.1 < v.target.1

theorem chained_nil : Chained ([] : List (Link η)) := ⟨.nil, by simp⟩

theorem Chained.concat {votes : List (Link η)} {v : Link η} (h : Chained votes)
    (hup : v.source.1 < v.target.1) (hlast : ∀ u ∈ votes.getLast?, v.source = u.target) :
    Chained (votes ++ [v]) where
  linked := by
    refine h.linked.append (.singleton v) ?_
    intro u hu w hw
    cases hw
    exact hlast u hu
  upward := by
    intro w hw
    rcases List.mem_append.mp hw with hw | hw
    · exact h.upward w hw
    · rw [List.mem_singleton.mp hw]
      exact hup

theorem Chained.tail {a : Link η} {votes : List (Link η)} (h : Chained (a :: votes)) :
    Chained votes :=
  ⟨h.linked.tail, fun v hv => h.upward v (List.mem_cons_of_mem a hv)⟩

theorem Chained.drop {before after : List (Link η)} (h : Chained (before ++ after)) :
    Chained after :=
  ⟨h.linked.right_of_append, fun v hv => h.upward v (List.mem_append_right before hv)⟩

theorem Chained.head_le {a : Link η} {votes : List (Link η)} (h : Chained (a :: votes)) :
    ∀ v ∈ a :: votes, a.target.1 ≤ v.target.1 := by
  induction votes generalizing a with
  | nil =>
    intro v hv
    rw [List.mem_singleton.mp hv]
  | cons b rest ih =>
    intro v hv
    rcases List.mem_cons.mp hv with rfl | hv
    · exact le_rfl
    · have hsource : b.source = a.target := (List.isChain_cons_cons.mp h.linked).1
      have hup := h.upward b (List.mem_cons_of_mem a List.mem_cons_self)
      rw [hsource] at hup
      exact hup.le.trans (ih h.tail v hv)

/-- The votes behind a finalized block: one justifies it, the other leads from it to the next
height. -/
structure Finalizes (final : ℕ × η) (reach leave : Link η) : Prop where
  reach : reach.target = final
  source : leave.source = final
  target : leave.target.1 = final.1 + 1

/-- A vote from below a finalized block to a height above it, but not for the block that finalizes
it, breaks a rule. -/
theorem Finalizes.slashable_of_crossing {final : ℕ × η} {reach leave v : Link η}
    (h : Finalizes final reach leave) (hlow : v.source.1 < final.1) (hhigh : final.1 < v.target.1)
    (hother : v.target ≠ leave.target) : v.Slashable leave := by
  rcases Nat.eq_or_lt_of_le (Nat.succ_le_of_lt hhigh) with heq | hlt
  · refine .inl ⟨?_, ?_⟩
    · rw [h.target]
      exact heq.symm
    · rintro rfl
      exact hother rfl
  · refine .inr (.inl ⟨?_, ?_⟩)
    · rw [h.source]
      exact hlow
    · rw [h.target]
      exact hlt

/-- A chain that starts below a finalized block and ends above it, on a branch with other blocks at
that height and at the next, has a vote that breaks a rule against one of the two behind the
block. -/
theorem Chained.exists_slashable {final : ℕ × η} {reach leave : Link η}
    (hfinal : Finalizes final reach leave) {a : Link η} {votes : List (Link η)}
    (h : Chained (a :: votes)) (hlow : a.source.1 < final.1)
    (hhigh : ∃ v ∈ a :: votes, final.1 < v.target.1)
    (hother : ∀ v ∈ a :: votes, v.target ≠ final ∧ v.target ≠ leave.target) :
    ∃ v ∈ a :: votes, v.Slashable reach ∨ v.Slashable leave := by
  induction votes generalizing a with
  | nil =>
    obtain ⟨v, hv, hlt⟩ := hhigh
    obtain rfl := List.mem_singleton.mp hv
    exact ⟨v, hv, .inr (hfinal.slashable_of_crossing hlow hlt (hother v hv).2)⟩
  | cons b rest ih =>
    rcases lt_trichotomy final.1 a.target.1 with hlt | heq | hgt
    · exact ⟨a, List.mem_cons_self, .inr (hfinal.slashable_of_crossing hlow hlt
        (hother a List.mem_cons_self).2)⟩
    · -- a different block is justified at the height of the finalized one
      refine ⟨a, List.mem_cons_self, .inl (.inl ⟨?_, ?_⟩)⟩
      · rw [hfinal.reach, heq]
      · rintro rfl
        exact (hother a List.mem_cons_self).1 hfinal.reach
    · have hsource : b.source = a.target := (List.isChain_cons_cons.mp h.linked).1
      have hhigh' : ∃ v ∈ b :: rest, final.1 < v.target.1 := by
        obtain ⟨v, hv, hlt⟩ := hhigh
        rcases List.mem_cons.mp hv with rfl | hv
        · exact absurd hgt hlt.not_gt
        · exact ⟨v, hv, hlt⟩
      obtain ⟨v, hv, hslash⟩ := ih h.tail (by rwa [hsource]) hhigh'
        fun v hv => hother v (List.mem_cons_of_mem a hv)
      exact ⟨v, List.mem_cons_of_mem a hv, hslash⟩

end Justification
