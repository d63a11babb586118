import Mathlib.Tactic.Common

/-!
# Loops

A loop looks at its state: it leaves with a result or goes round again. Nothing says that it ever
leaves. A measure that falls with every round shows that it does, and an invariant under which it
goes round again shows that it does not.
-/

namespace Loop

variable {σ ρ : Type*}

/-- One look at the state. -/
inductive Turn (σ ρ : Type*) where
  | leave (r : ρ)
  | next (s : σ)

/-- At most `fuel` looks; `none` when the loop is still going round. -/
def run (turn : σ → Turn σ ρ) : ℕ → σ → Option ρ
  | 0, _ => none
  | fuel + 1, s =>
    match turn s with
    | .leave r => some r
    | .next s' => run turn fuel s'

/-- The loop leaves from `s`, with result `r`. -/
def Leaves (turn : σ → Turn σ ρ) (s : σ) (r : ρ) : Prop := ∃ fuel, run turn fuel s = some r

variable {turn : σ → Turn σ ρ} {s s' : σ} {r r' : ρ}

theorem run_leave (h : turn s = .leave r) (fuel : ℕ) : run turn (fuel + 1) s = some r := by
  rw [run, h]

theorem run_next (h : turn s = .next s') (fuel : ℕ) :
    run turn (fuel + 1) s = run turn fuel s' := by
  rw [run, h]

theorem Leaves.leave (h : turn s = .leave r) : Leaves turn s r := ⟨1, run_leave h 0⟩

theorem Leaves.next (h : turn s = .next s') (hr : Leaves turn s' r) : Leaves turn s r := by
  obtain ⟨fuel, hfuel⟩ := hr
  exact ⟨fuel + 1, by rw [run_next h, hfuel]⟩

/-- What an invariant says where the loop leaves, it says of every result. -/
theorem Leaves.post {I : σ → Prop} {Q : ρ → Prop} (hnext : ∀ s s', I s → turn s = .next s' → I s')
    (hleave : ∀ s r, I s → turn s = .leave r → Q r) (h : Leaves turn s r) (hs : I s) : Q r := by
  obtain ⟨fuel, hfuel⟩ := h
  induction fuel generalizing s with
  | zero => cases hfuel
  | succ fuel ih =>
    cases hturn : turn s with
    | leave r' =>
      rw [run_leave hturn] at hfuel
      cases hfuel
      exact hleave s r hs hturn
    | next s' =>
      rw [run_next hturn] at hfuel
      exact ih (hnext s s' hs hturn) hfuel

theorem Leaves.unique (h : Leaves turn s r) (h' : Leaves turn s r') : r' = r := by
  -- the invariant is that the loop still leaves with `r`
  refine Leaves.post (I := fun s => Leaves turn s r) (Q := fun r' => r' = r) ?_ ?_ h' h
  · rintro s s' ⟨fuel, hfuel⟩ hturn
    cases fuel with
    | zero => cases hfuel
    | succ fuel => exact ⟨fuel, by rw [← hfuel, run_next hturn]⟩
  · rintro s r' ⟨fuel, hfuel⟩ hturn
    cases fuel with
    | zero => cases hfuel
    | succ fuel =>
      rw [run_leave hturn] at hfuel
      exact Option.some.inj hfuel

/-- A loop whose measure falls with every round leaves. -/
theorem exists_leaves {I : σ → Prop} {Q : ρ → Prop} (measure : σ → ℕ)
    (hnext : ∀ s s', I s → turn s = .next s' → I s' ∧ measure s' < measure s)
    (hleave : ∀ s r, I s → turn s = .leave r → Q r) (hs : I s) : ∃ r, Leaves turn s r ∧ Q r := by
  induction hm : measure s using Nat.strongRecOn generalizing s with
  | ind m ih =>
    cases hturn : turn s with
    | leave r => exact ⟨r, .leave hturn, hleave s r hs hturn⟩
    | next s' =>
      obtain ⟨hs', hlt⟩ := hnext s s' hs hturn
      obtain ⟨r, hr, hq⟩ := ih (measure s') (hm ▸ hlt) hs' rfl
      exact ⟨r, hr.next hturn, hq⟩

/-- A loop that goes round again from every state of an invariant never leaves. -/
theorem not_leaves {I : σ → Prop} (hnext : ∀ s, I s → ∃ s', turn s = .next s' ∧ I s') (hs : I s)
    (r : ρ) : ¬ Leaves turn s r := by
  intro h
  refine h.post (I := I) (Q := fun _ => False) ?_ ?_ hs
  · intro s s' hs hturn
    obtain ⟨s'', hturn', hs''⟩ := hnext s hs
    cases hturn.symm.trans hturn'
    exact hs''
  · intro s r hs hturn
    obtain ⟨s', hturn', -⟩ := hnext s hs
    cases hturn.symm.trans hturn'

end Loop
