import Mathlib.Data.List.Induction
import Mathlib.Tactic.Common

/-!
# Machines that answer

A machine takes an input, gives an answer and moves to a next state, also when the answer is a
refusal. The rules below are those of its runs: an invariant of one step is an invariant of every
run, a relation that answers and steps respect is a bisimulation, and what holds between a state
and itself and survives a step holds between any state of a run and every later one.
-/

namespace Machine

variable {σ τ α ρ : Type*}

/-- The state after a list of inputs. -/
def run (step : σ → α → ρ × σ) (s : σ) (inputs : List α) : σ :=
  inputs.foldl (fun s a => (step s a).2) s

/-- The answers to a list of inputs. -/
def answers (step : σ → α → ρ × σ) : σ → List α → List ρ
  | _, [] => []
  | s, a :: rest => (step s a).1 :: answers step (step s a).2 rest

variable {step : σ → α → ρ × σ}

@[simp] theorem run_nil (s : σ) : run step s [] = s := rfl

@[simp] theorem run_cons (s : σ) (a : α) (l : List α) :
    run step s (a :: l) = run step (step s a).2 l := rfl

theorem run_append (s : σ) (l m : List α) :
    run step s (l ++ m) = run step (run step s l) m := by
  unfold run
  rw [List.foldl_append]

theorem run_concat (s : σ) (l : List α) (a : α) :
    run step s (l ++ [a]) = (step (run step s l) a).2 := by
  rw [run_append, run_cons, run_nil]

theorem answers_concat (s : σ) (l : List α) (a : α) :
    answers step s (l ++ [a]) = answers step s l ++ [(step (run step s l) a).1] := by
  induction l generalizing s with
  | nil => rfl
  | cons b l ih => rw [List.cons_append, answers, ih, answers, run_cons, List.cons_append]

theorem run_invariant_mem {I : σ → Prop} {inputs : List α}
    (hstep : ∀ s, ∀ a ∈ inputs, I s → I (step s a).2) {s : σ} (h : I s) :
    I (run step s inputs) := by
  induction inputs generalizing s with
  | nil => exact h
  | cons a l ih =>
    exact ih (fun s b hb => hstep s b (List.mem_cons_of_mem a hb))
      (hstep s a List.mem_cons_self h)

/-- What every step preserves holds after every run. -/
theorem run_invariant {I : σ → Prop} (hstep : ∀ s a, I s → I (step s a).2) {s : σ} (h : I s)
    (inputs : List α) : I (run step s inputs) :=
  run_invariant_mem (fun s a _ => hstep s a) h

/-- Every step of a run meets a condition on its input and the state before it. -/
def Along (step : σ → α → ρ × σ) (C : σ → α → Prop) (s : σ) (inputs : List α) : Prop :=
  ∀ before a after, inputs = before ++ a :: after → C (run step s before) a

theorem along_nil {C : σ → α → Prop} {s : σ} : Along step C s [] := by
  intro before a after h
  exact absurd h.symm (by simp)

theorem along_cons {C : σ → α → Prop} {s : σ} {a : α} {l : List α} :
    Along step C s (a :: l) ↔ C s a ∧ Along step C (step s a).2 l := by
  constructor
  · intro h
    refine ⟨h [] a l rfl, fun before b after hl => ?_⟩
    exact h (a :: before) b after (by rw [hl, List.cons_append])
  · rintro ⟨ha, hl⟩ before b after h
    cases before with
    | nil =>
      cases h
      exact ha
    | cons first rest =>
      cases h
      exact hl rest b after rfl

theorem along_append {C : σ → α → Prop} {s : σ} {l m : List α} :
    Along step C s (l ++ m) ↔ Along step C s l ∧ Along step C (run step s l) m := by
  induction l generalizing s with
  | nil => simp [along_nil]
  | cons a l ih => rw [List.cons_append, along_cons, along_cons, ih, run_cons, and_assoc]

theorem along_concat {C : σ → α → Prop} {s : σ} {l : List α} {a : α} :
    Along step C s (l ++ [a]) ↔ Along step C s l ∧ C (run step s l) a := by
  rw [along_append, along_cons]
  exact ⟨fun h => ⟨h.1, h.2.1⟩, fun h => ⟨h.1, h.2, along_nil⟩⟩

theorem Along.and {C D : σ → α → Prop} {s : σ} {l : List α} (h : Along step C s l)
    (h' : Along step D s l) : Along step (fun s a => C s a ∧ D s a) s l :=
  fun before a after hl => ⟨h before a after hl, h' before a after hl⟩

/-- What every step under a condition preserves holds after every run whose steps all meet it. -/
theorem run_invariant_of {I : σ → Prop} {C : σ → α → Prop}
    (hstep : ∀ s a, I s → C s a → I (step s a).2) {s : σ} (h : I s) (inputs : List α)
    (hall : Along step C s inputs) : I (run step s inputs) := by
  induction inputs generalizing s with
  | nil => exact h
  | cons a l ih =>
    obtain ⟨ha, hl⟩ := along_cons.mp hall
    exact ih (hstep s a h ha) hl

/-- Related states of two machines give the same answers and stay related. -/
theorem run_bisim {step' : τ → α → ρ × τ} {R : σ → τ → Prop}
    (hstep : ∀ s t a, R s t → (step s a).1 = (step' t a).1 ∧ R (step s a).2 (step' t a).2)
    {s : σ} {t : τ} (h : R s t) (inputs : List α) :
    answers step s inputs = answers step' t inputs ∧
      R (run step s inputs) (run step' t inputs) := by
  induction inputs generalizing s t with
  | nil => exact ⟨rfl, h⟩
  | cons a l ih =>
    obtain ⟨hans, hnext⟩ := hstep s t a h
    obtain ⟨hrest, hend⟩ := ih hnext
    exact ⟨by rw [answers, answers, hans, hrest], hend⟩

/-- If related states stay related under inputs that the first machine answers in a given way, and
the second one answers those in the same way, then it does so along every run. -/
theorem answers_simulation {step' : τ → α → ρ × τ} {R : σ → τ → Prop} {good : ρ}
    {inputs : List α} (hstep : ∀ s t, ∀ a ∈ inputs, R s t → (step s a).1 = good →
      (step' t a).1 = good ∧ R (step s a).2 (step' t a).2)
    {s : σ} {t : τ} (h : R s t) (hall : ∀ r ∈ answers step s inputs, r = good) :
    ∀ r ∈ answers step' t inputs, r = good := by
  induction inputs generalizing s t with
  | nil =>
    intro r hr
    cases hr
  | cons a l ih =>
    rw [answers, List.forall_mem_cons] at hall
    obtain ⟨hans, hnext⟩ := hstep s t a List.mem_cons_self h hall.1
    rw [answers, List.forall_mem_cons]
    exact ⟨hans, ih (fun s t b hb => hstep s t b (List.mem_cons_of_mem a hb)) hnext hall.2⟩

/-! ## What happens on the way -/

section

variable {β : Type*} (events : σ → α → List β)

/-- The events of a run, in order. -/
def history (step : σ → α → ρ × σ) : σ → List α → List β
  | _, [] => []
  | s, a :: rest => events s a ++ history step (step s a).2 rest

theorem history_cons (s : σ) (a : α) (l : List α) :
    history events step s (a :: l) = events s a ++ history events step (step s a).2 l := rfl

theorem history_append (s : σ) (l m : List α) :
    history events step s (l ++ m) =
      history events step s l ++ history events step (run step s l) m := by
  induction l generalizing s with
  | nil => rfl
  | cons a l ih => rw [List.cons_append, history_cons, ih, history_cons, run_cons, List.append_assoc]

theorem exists_of_mem_history {s : σ} {inputs : List α} {b : β}
    (h : b ∈ history events step s inputs) :
    ∃ before a after, inputs = before ++ a :: after ∧ b ∈ events (run step s before) a := by
  induction inputs generalizing s with
  | nil => cases h
  | cons a l ih =>
    rcases List.mem_append.mp h with h | h
    · exact ⟨[], a, l, rfl, h⟩
    · obtain ⟨before, a', after, rfl, hb⟩ := ih h
      exact ⟨a :: before, a', after, rfl, hb⟩

/-- What one step on an input of the run and its events preserve holds between the run and its
history. -/
theorem run_history_invariant_mem {I : List β → σ → Prop} {inputs : List α}
    (hstep : ∀ past s, ∀ a ∈ inputs, I past s → I (past ++ events s a) (step s a).2)
    {past : List β} {s : σ} (h : I past s) :
    I (past ++ history events step s inputs) (run step s inputs) := by
  induction inputs generalizing past s with
  | nil => rwa [history, List.append_nil]
  | cons a l ih =>
    rw [history_cons, ← List.append_assoc]
    exact ih (fun past s b hb => hstep past s b (List.mem_cons_of_mem a hb))
      (hstep past s a List.mem_cons_self h)

/-- What one step and its events preserve holds between a run and its history. -/
theorem run_history_invariant {I : List β → σ → Prop}
    (hstep : ∀ past s a, I past s → I (past ++ events s a) (step s a).2) {past : List β} {s : σ}
    (h : I past s) (inputs : List α) :
    I (past ++ history events step s inputs) (run step s inputs) :=
  run_history_invariant_mem events (fun past s a _ => hstep past s a) h

end

/-! ## Machines that may refuse -/

section

variable {ε : Type*} {step : σ → α → Except ε ρ × σ}

/-- The inputs that were not refused. -/
def accepted (step : σ → α → Except ε ρ × σ) : σ → List α → List α
  | _, [] => []
  | s, a :: rest =>
    match (step s a).1 with
    | .ok _ => a :: accepted step (step s a).2 rest
    | .error _ => accepted step (step s a).2 rest

theorem accepted_subset (s : σ) (inputs : List α) : accepted step s inputs ⊆ inputs := by
  induction inputs generalizing s with
  | nil => exact List.Subset.refl _
  | cons a rest ih =>
    rw [accepted]
    split
    · exact List.cons_subset_cons a (ih _)
    · exact List.subset_cons_of_subset a (ih _)

theorem accepted_eq_self {s : σ} {inputs : List α} {good : ρ}
    (hall : ∀ r ∈ answers step s inputs, r = .ok good) : accepted step s inputs = inputs := by
  induction inputs generalizing s with
  | nil => rfl
  | cons a l ih =>
    rw [answers, List.forall_mem_cons] at hall
    rw [accepted, hall.1]
    exact congrArg _ (ih hall.2)

theorem accepted_append (s : σ) (l m : List α) :
    accepted step s (l ++ m) = accepted step s l ++ accepted step (run step s l) m := by
  induction l generalizing s with
  | nil => rfl
  | cons a l ih =>
    rw [List.cons_append, accepted, accepted, run_cons]
    split
    · rw [ih, List.cons_append]
    · exact ih _

theorem accepted_prefix (s : σ) {past inputs : List α} (hpast : past <+: inputs) :
    accepted step s past <+: accepted step s inputs := by
  obtain ⟨rest, rfl⟩ := hpast
  rw [accepted_append]
  exact List.prefix_append _ _

theorem mem_accepted {s : σ} {past inputs : List α} {a : α} {r : ρ}
    (hpast : past ++ [a] <+: inputs) (h : (step (run step s past) a).1 = .ok r) :
    a ∈ accepted step s inputs := by
  obtain ⟨rest, rfl⟩ := hpast
  rw [List.append_assoc, accepted_append, List.singleton_append, accepted, h]
  exact List.mem_append_right _ List.mem_cons_self

/-- An invariant between a state and the inputs accepted on the way to it, over the accepted inputs
of one run. -/
theorem run_accepted_invariant_mem {I : List α → σ → Prop} {s : σ} {inputs : List α}
    (hok : ∀ past s', ∀ a ∈ accepted step s inputs, ∀ r, I past s' → (step s' a).1 = .ok r →
      I (past ++ [a]) (step s' a).2)
    (herror : ∀ past s a e, I past s → (step s a).1 = .error e → I past (step s a).2)
    (h : I [] s) : I (accepted step s inputs) (run step s inputs) := by
  suffices hpast : ∀ past, I past s → I (past ++ accepted step s inputs) (run step s inputs) by
    simpa using hpast [] h
  clear h
  induction inputs generalizing s with
  | nil =>
    intro past h
    simpa [accepted] using h
  | cons a rest ih =>
    intro past h
    rw [accepted, run_cons]
    rw [accepted] at hok
    cases hr : (step s a).1 with
    | ok r =>
      rw [hr] at hok
      have hnext := ih (fun past s' b hb => hok past s' b (List.mem_cons_of_mem a hb)) (past ++ [a])
        (hok past s a List.mem_cons_self r h hr)
      simpa using hnext
    | error e =>
      rw [hr] at hok
      exact ih hok past (herror past s a e h hr)

/-- An invariant between a state and the inputs accepted on the way to it. -/
theorem run_accepted_invariant {I : List α → σ → Prop}
    (hok : ∀ past s a r, I past s → (step s a).1 = .ok r → I (past ++ [a]) (step s a).2)
    (herror : ∀ past s a e, I past s → (step s a).1 = .error e → I past (step s a).2)
    {s : σ} (h : I [] s) (inputs : List α) : I (accepted step s inputs) (run step s inputs) :=
  run_accepted_invariant_mem (fun past s a _ => hok past s a) herror h

/-- The state after inputs that are all accepted, nothing once one is refused. -/
def acceptAll (step : σ → α → Except ε ρ × σ) : σ → List α → Option σ
  | s, [] => some s
  | s, a :: rest =>
    match (step s a).1 with
    | .ok _ => acceptAll step (step s a).2 rest
    | .error _ => none

@[simp] theorem acceptAll_nil (s : σ) : acceptAll step s [] = some s := rfl

theorem acceptAll_append (s : σ) (l m : List α) :
    acceptAll step s (l ++ m) = (acceptAll step s l).bind fun s => acceptAll step s m := by
  induction l generalizing s with
  | nil => rfl
  | cons a l ih =>
    rw [List.cons_append, acceptAll, acceptAll]
    cases (step s a).1 with
    | ok r => exact ih _
    | error e => rfl

theorem acceptAll_cons (s : σ) (a : α) (l : List α) :
    acceptAll step s (a :: l) = (acceptAll step s [a]).bind fun s => acceptAll step s l :=
  acceptAll_append s [a] l

theorem acceptAll_of_ok {s s' : σ} {a : α} {r : ρ} (h : step s a = (.ok r, s')) :
    acceptAll step s [a] = some s' := by
  rw [acceptAll, h, acceptAll_nil]

theorem acceptAll_of_error {s s' : σ} {a : α} {e : ε} (h : step s a = (.error e, s')) :
    acceptAll step s [a] = none := by
  rw [acceptAll, h]

/-- Two machines that accept the same inputs in related states and stay related accept the same
lists of inputs. -/
theorem acceptAll_bisim {ε' ρ' : Type*} {step' : τ → α → Except ε' ρ' × τ} {R : σ → τ → Prop}
    (hstep : ∀ s t a, R s t → ((∃ r r', (step s a).1 = .ok r ∧ (step' t a).1 = .ok r' ∧
      R (step s a).2 (step' t a).2) ∨
      ∃ e e', (step s a).1 = .error e ∧ (step' t a).1 = .error e'))
    {s : σ} {t : τ} (h : R s t) (inputs : List α) :
    (∃ s' t', acceptAll step s inputs = some s' ∧ acceptAll step' t inputs = some t' ∧ R s' t') ∨
      acceptAll step s inputs = none ∧ acceptAll step' t inputs = none := by
  induction inputs generalizing s t with
  | nil => exact .inl ⟨s, t, rfl, rfl, h⟩
  | cons a rest ih =>
    rw [acceptAll, acceptAll]
    rcases hstep s t a h with ⟨r, r', hr, hr', hnext⟩ | ⟨e, e', he, he'⟩
    · rw [hr, hr']
      exact ih hnext
    · rw [he, he']
      exact .inr ⟨rfl, rfl⟩

end

/-- A relation that holds of every state with itself, and whose later side may take a step, holds
between any state of a run and every later one. -/
theorem run_later {R : σ → σ → Prop} {s : σ} (before after : List α)
    (hrefl : R (run step s before) (run step s before))
    (hstep : ∀ (mid : List α) (a : α), mid ++ [a] <+: after →
      R (run step s before) (run step s (before ++ mid)) →
      R (run step s before) (run step s (before ++ mid ++ [a]))) :
    R (run step s before) (run step s (before ++ after)) := by
  induction after using List.reverseRecOn with
  | nil => simpa using hrefl
  | append_singleton l a ih =>
    rw [← List.append_assoc]
    exact hstep l a List.prefix_rfl
      (ih fun mid b hmid h => hstep mid b (hmid.trans (List.prefix_append l [a])) h)

end Machine
