import Mathlib.Data.List.Forall2
import Mathlib.Tactic.Common

/-!
# Fallible steps in sequence

A checked program is a sequence of steps in `Except ε`: a step either refuses with an error or
hands its value on. `require` is the guard of such a program, and the lemmas below turn "the
whole sequence succeeded" into the list of facts its guards established.
-/

namespace Checked

universe u

variable {ε ε' α β : Type u}

/-- Refuse with `e` unless `p` holds. -/
def require (p : Prop) [Decidable p] (e : ε) : Except ε Unit :=
  if p then .ok () else .error e

@[simp] theorem require_eq_ok {p : Prop} [Decidable p] {e : ε} {u : Unit} :
    require p e = .ok u ↔ p := by
  unfold require
  split <;> simp [*]

theorem require_of {p : Prop} [Decidable p] (h : p) (e : ε) : require p e = .ok () :=
  require_eq_ok.mpr h

theorem require_of_not {p : Prop} [Decidable p] (h : ¬ p) (e : ε) : require p e = .error e :=
  if_neg h

@[simp] theorem ok_bind (a : α) (f : α → Except ε β) : (Except.ok a >>= f) = f a := rfl

@[simp] theorem error_bind (e : ε) (f : α → Except ε β) :
    ((Except.error e : Except ε α) >>= f) = .error e := rfl

@[simp] theorem pure_eq_ok (a : α) : (pure a : Except ε α) = .ok a := rfl

@[simp] theorem bind_eq_ok {x : Except ε α} {f : α → Except ε β} {b : β} :
    (x >>= f) = .ok b ↔ ∃ a, x = .ok a ∧ f a = .ok b := by
  cases x with
  | error e => simp
  | ok a => simp

theorem map_bind {γ : Type u} (x : Except ε α) (f : α → Except ε β) (g : β → γ) :
    (x >>= f).map g = x >>= fun a => (f a).map g := by
  cases x <;> rfl

@[simp] theorem mapError_ok (f : ε → ε') (a : α) : (Except.ok a).mapError f = .ok a := rfl

@[simp] theorem mapError_error (f : ε → ε') (e : ε) :
    (Except.error e : Except ε α).mapError f = .error (f e) := rfl

@[simp] theorem mapError_eq_ok {f : ε → ε'} {step : Except ε α} {v : α} :
    step.mapError f = .ok v ↔ step = .ok v := by
  cases step with
  | error e => rw [mapError_error]; simp
  | ok a => rw [mapError_ok]; simp

@[simp] theorem map_eq_ok {f : α → β} {step : Except ε α} {v : β} :
    f <$> step = .ok v ↔ ∃ a, step = .ok a ∧ f a = v := by
  cases step with
  | error e => simp [Functor.map, Except.map]
  | ok a => simp [Functor.map, Except.map]

/-! ## Traversals -/

theorem exists_of_forall₂_left {R : α → β → Prop} {l : List α} {m : List β}
    (h : List.Forall₂ R l m) : ∀ a ∈ l, ∃ b ∈ m, R a b := by
  induction h with
  | nil => simp
  | @cons a b l m hab _ ih =>
    refine List.forall_mem_cons.mpr ⟨⟨b, List.mem_cons_self, hab⟩, fun a' ha' => ?_⟩
    obtain ⟨b', hb', hr⟩ := ih a' ha'
    exact ⟨b', List.mem_cons_of_mem b hb', hr⟩

theorem exists_of_forall₂_right {R : α → β → Prop} {l : List α} {m : List β}
    (h : List.Forall₂ R l m) : ∀ b ∈ m, ∃ a ∈ l, R a b :=
  exists_of_forall₂_left (List.Forall₂.flip h)

/-- A traversal collects the values of its elements in order. -/
theorem forall₂_of_mapM_eq_ok {f : α → Except ε β} {l : List α} {ys : List β}
    (h : l.mapM f = .ok ys) : List.Forall₂ (fun a y => f a = .ok y) l ys := by
  induction l generalizing ys with
  | nil =>
    cases h
    exact .nil
  | cons a l ih =>
    simp only [List.mapM_cons, bind_eq_ok, pure_eq_ok, Except.ok.injEq] at h
    obtain ⟨y, hy, tail, ht, rfl⟩ := h
    exact .cons hy (ih ht)

theorem length_of_mapM_eq_ok {f : α → Except ε β} {l : List α} {ys : List β}
    (h : l.mapM f = .ok ys) : ys.length = l.length :=
  (forall₂_of_mapM_eq_ok h).length_eq.symm

theorem ok_of_mapM_eq_ok {f : α → Except ε β} {l : List α} {ys : List β}
    (h : l.mapM f = .ok ys) : ∀ a ∈ l, ∃ y, f a = .ok y := by
  intro a ha
  obtain ⟨y, -, hy⟩ := exists_of_forall₂_left (forall₂_of_mapM_eq_ok h) a ha
  exact ⟨y, hy⟩

theorem exists_of_mapM_eq_ok {f : α → Except ε β} {l : List α} {ys : List β}
    (h : l.mapM f = .ok ys) : ∀ y ∈ ys, ∃ a ∈ l, f a = .ok y :=
  exists_of_forall₂_right (forall₂_of_mapM_eq_ok h)

theorem ok_or_error (x : Except ε α) : (∃ a, x = .ok a) ∨ ∃ e, x = .error e := by
  cases x with
  | error e => exact .inr ⟨e, rfl⟩
  | ok a => exact .inl ⟨a, rfl⟩

end Checked
