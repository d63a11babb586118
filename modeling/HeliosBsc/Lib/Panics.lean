import Mathlib.Tactic.Common

/-!
# Steps that can panic

A step of a checked program returns, is refused with an error, or panics: it indexes or slices out of
range, or an unsigned operation leaves its width. The lemmas below say when a step does not panic; a
function all of whose steps are so equals `total` of a function without such steps.
-/

/-- A computation that returns, is refused, or panics (`none`). -/
abbrev Panics (ε : Type) := ExceptT ε Option

namespace Panics

variable {ε ε' α β : Type}

/-- A step that cannot panic. -/
def total (x : Except ε α) : Panics ε α := ExceptT.mk (some x)

/-- `slice[i]`. -/
def index (l : List α) (i : ℕ) : Panics ε α := ExceptT.lift l[i]?

/-- `&slice[i..j]`. -/
def slice (l : List α) (i j : ℕ) : Panics ε (List α) :=
  ExceptT.lift (if i ≤ j ∧ j ≤ l.length then some ((l.drop i).take (j - i)) else none)

/-- `a + b` in a type of `size` values. -/
def add (size a b : ℕ) : Panics ε ℕ := ExceptT.lift (if a + b < size then some (a + b) else none)

/-- `a - b` of unsigned values. -/
def sub (a b : ℕ) : Panics ε ℕ := ExceptT.lift (if b ≤ a then some (a - b) else none)

/-- A result that is matched on and turned into another. -/
def mapResult (f : Except ε α → Except ε' β) (x : Panics ε α) : Panics ε' β :=
  ExceptT.mk (x.run.map f)

@[simp] theorem run_total (x : Except ε α) : (total x).run = some x := rfl

@[simp] theorem total_bind_ok (a : α) (f : α → Panics ε β) : (total (.ok a) >>= f) = f a := rfl

theorem pure_eq (a : α) : (pure a : Panics ε α) = total (.ok a) := ExceptT.ext rfl

theorem total_bind (x : Except ε α) (f : α → Except ε β) :
    (total x >>= fun a => total (f a)) = total (x >>= f) := by
  cases x <;> rfl

theorem index_of_getElem? {l : List α} {i : ℕ} {a : α} (h : l[i]? = some a) :
    (index l i : Panics ε α) = total (.ok a) := by
  unfold index
  rw [h]
  rfl

theorem slice_of_le {l : List α} {i j : ℕ} (h : i ≤ j) (hj : j ≤ l.length) :
    (slice l i j : Panics ε (List α)) = total (.ok ((l.drop i).take (j - i))) := by
  unfold slice
  rw [if_pos ⟨h, hj⟩]
  rfl

theorem add_of_lt {size a b : ℕ} (h : a + b < size) :
    (add size a b : Panics ε ℕ) = total (.ok (a + b)) := by
  unfold add
  rw [if_pos h]
  rfl

theorem sub_of_le {a b : ℕ} (h : b ≤ a) : (sub a b : Panics ε ℕ) = total (.ok (a - b)) := by
  unfold sub
  rw [if_pos h]
  rfl

/-- A loop of safe steps is safe. -/
theorem mapM_of_total {f : α → Panics ε β} {g : α → β} {l : List α}
    (h : ∀ a ∈ l, f a = total (.ok (g a))) : l.mapM f = total (.ok (l.map g)) := by
  induction l with
  | nil => rfl
  | cons a l ih =>
    rw [List.mapM_cons, h a List.mem_cons_self, total_bind_ok,
      ih fun b hb => h b (List.mem_cons_of_mem a hb)]
    rfl

end Panics
