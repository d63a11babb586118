import HeliosBsc.Lib.Result

/-!
# Programs that ask

A program asks queries and goes on with the answers; an oracle that fails ends it. Two results are
alike when they are equal unless one of them was lost, that is, ended in an error that says nothing
about the answer. A program that is run on two oracles whose answers are alike ends alike.
-/

universe u v w x

/-! ## Equal unless lost -/

section

variable {ε : Type u} {α β : Type v}

/-- Equal, unless one of the two is an error that counts as lost. -/
def Alike (lost : ε → Prop) (a b : Except ε α) : Prop :=
  a = b ∨ ∃ e, lost e ∧ (a = .error e ∨ b = .error e)

namespace Alike

variable {lost : ε → Prop} {a b : Except ε α}

theorem refl (a : Except ε α) : Alike lost a a := .inl rfl

theorem of_lost {e : ε} (h : lost e) (b : Except ε α) : Alike lost (.error e) b :=
  .inr ⟨e, h, .inl rfl⟩

theorem symm (h : Alike lost a b) : Alike lost b a := by
  rcases h with rfl | ⟨e, he, h⟩
  · exact refl _
  · exact .inr ⟨e, he, h.symm⟩

/-- Going on alike from alike results ends alike. -/
theorem bind {f g : α → Except ε β} (h : Alike lost a b)
    (hnext : ∀ r, a = .ok r → b = .ok r → Alike lost (f r) (g r)) :
    Alike lost (a >>= f) (b >>= g) := by
  rcases h with rfl | ⟨e, he, rfl | rfl⟩
  · cases a with
    | error e => exact refl _
    | ok r => exact hnext r rfl rfl
  · exact of_lost he _
  · exact (of_lost he _).symm

theorem ok_inj {r r' : α} (h : Alike lost (.ok r) (.ok r')) : r = r' := by
  rcases h with h | ⟨e, -, h | h⟩
  · exact Except.ok.inj h
  · cases h
  · cases h

end Alike

/-- Every error of the result counts as lost. -/
def FailsOnly (lost : ε → Prop) (a : Except ε α) : Prop := ∀ e, a = .error e → lost e

namespace FailsOnly

variable {lost : ε → Prop}

theorem ok (r : α) : FailsOnly lost (.ok r) := by
  intro e h
  cases h

theorem error {e : ε} (h : lost e) : FailsOnly lost (.error e : Except ε α) := by
  intro e' h'
  cases h'
  exact h

theorem bind {a : Except ε α} {f : α → Except ε β} (h : FailsOnly lost a)
    (hnext : ∀ r, FailsOnly lost (f r)) : FailsOnly lost (a >>= f) := by
  cases a with
  | error e => exact error (h e rfl)
  | ok r => exact hnext r

theorem mapError {ε' : Type x} {a : Except ε' α} {f : ε' → ε} (h : ∀ e, lost (f e)) :
    FailsOnly lost (a.mapError f) := by
  cases a with
  | error e => exact error (h e)
  | ok r => exact ok r

theorem require {p : Prop} [Decidable p] {e : ε} (h : lost e) :
    FailsOnly lost (Checked.require p e) := by
  unfold Checked.require
  split
  · exact ok ()
  · exact error h

theorem foldlM {f : β → α → Except ε β} (h : ∀ b a, FailsOnly lost (f b a)) (l : List α) (b : β) :
    FailsOnly lost (l.foldlM f b) := by
  induction l generalizing b with
  | nil => exact ok b
  | cons a rest ih =>
    rw [List.foldlM_cons]
    exact (h b a).bind ih

end FailsOnly

end

/-! ## Programs -/

/-- A program that asks queries and goes on with the answers. -/
inductive Asking (Q : Type u) (A : Q → Type v) (ρ : Type w) where
  | done (r : ρ)
  | ask (q : Q) (next : A q → Asking Q A ρ)

namespace Asking

variable {Q : Type u} {A : Q → Type v} {ρ : Type w} {ε : Type x}

/-- The result under an oracle that may fail. A failure ends the program. -/
def run (answer : (q : Q) → Except ε (A q)) : Asking Q A ρ → Except ε ρ
  | done r => .ok r
  | ask q next =>
    match answer q with
    | .error e => .error e
    | .ok a => (next a).run answer

/-- A result that the program ends with when each query gets an answer that holds. -/
inductive Yields (holds : (q : Q) → A q → Prop) : Asking Q A ρ → ρ → Prop where
  | done (r : ρ) : Yields holds (.done r) r
  | ask {q : Q} {next : A q → Asking Q A ρ} {a : A q} {r : ρ} (h : holds q a)
      (rest : Yields holds (next a) r) : Yields holds (.ask q next) r

/-- A program ends alike on oracles whose answers are alike. -/
theorem run_alike {lost : ε → Prop} {answer answer' : (q : Q) → Except ε (A q)}
    (h : ∀ q, Alike lost (answer q) (answer' q)) (p : Asking Q A ρ) :
    Alike lost (p.run answer) (p.run answer') := by
  induction p with
  | done r => exact .refl _
  | ask q next ih =>
    rw [run, run]
    rcases h q with heq | ⟨e, he, herror | herror⟩
    · rw [← heq]
      cases answer q with
      | error e => exact .refl _
      | ok a => exact ih a
    · rw [herror]
      exact .of_lost he _
    · rw [herror]
      exact (Alike.of_lost he _).symm

theorem run_failsOnly {lost : ε → Prop} {answer : (q : Q) → Except ε (A q)}
    (h : ∀ q, FailsOnly lost (answer q)) (p : Asking Q A ρ) : FailsOnly lost (p.run answer) := by
  induction p with
  | done r => exact .ok r
  | ask q next ih =>
    rw [run]
    cases hq : answer q with
    | error e => exact .error (h q e hq)
    | ok a => exact ih a

/-- A program that ends on an oracle whose answers hold ends with a result that it yields. -/
theorem yields_of_run {holds : (q : Q) → A q → Prop} {answer : (q : Q) → Except ε (A q)}
    (h : ∀ q a, answer q = .ok a → holds q a) {p : Asking Q A ρ} {r : ρ}
    (hrun : p.run answer = .ok r) : p.Yields holds r := by
  induction p with
  | done r' =>
    cases hrun
    exact .done _
  | ask q next ih =>
    rw [run] at hrun
    cases hq : answer q with
    | error e =>
      rw [hq] at hrun
      cases hrun
    | ok a =>
      rw [hq] at hrun
      exact .ask (h q a hq) (ih a hrun)

theorem Yields.unique {holds : (q : Q) → A q → Prop}
    (h : ∀ q a a', holds q a → holds q a' → a = a') {p : Asking Q A ρ} {r r' : ρ}
    (hr : p.Yields holds r) (hr' : p.Yields holds r') : r = r' := by
  induction hr with
  | done r =>
    cases hr'
    rfl
  | ask ha rest ih =>
    cases hr' with
    | ask ha' rest' =>
      cases h _ _ _ ha ha'
      exact ih rest'

end Asking
