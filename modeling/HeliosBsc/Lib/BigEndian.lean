import Mathlib.Data.List.Basic
import Mathlib.Data.List.Induction
import Mathlib.Tactic.Ring
import Mathlib.Tactic.NormNum

/-!
# Big-endian byte strings

The number a byte string spells in base 256, most significant byte first, the `w` low bytes of
a number, and the spelling without leading zero bytes.
-/

namespace BigEndian

/-- The number spelled by `b`. -/
def value (b : List UInt8) : ℕ := b.foldl (fun n x => n * 256 + x.toNat) 0

/-- The `w` low bytes of `n` (`to_be_bytes` of a `w`-byte integer). -/
def bytes : ℕ → ℕ → List UInt8
  | 0, _ => []
  | w + 1, n => bytes w (n / 256) ++ [UInt8.ofNat n]

/-- Drop the leading zero bytes. -/
def strip (b : List UInt8) : List UInt8 := b.dropWhile (· == 0)

@[simp] theorem value_nil : value [] = 0 := rfl

theorem value_concat (b : List UInt8) (x : UInt8) :
    value (b ++ [x]) = value b * 256 + x.toNat := by
  simp [value]

theorem foldl_value (b : List UInt8) (n : ℕ) :
    b.foldl (fun n x => n * 256 + x.toNat) n = n * 256 ^ b.length + value b := by
  induction b using List.reverseRecOn with
  | nil => simp
  | append_singleton b x ih =>
    rw [List.foldl_append, ih, value_concat, List.length_append]
    simp only [List.foldl_cons, List.foldl_nil, List.length_singleton, pow_succ]
    ring

theorem value_cons (x : UInt8) (b : List UInt8) :
    value (x :: b) = x.toNat * 256 ^ b.length + value b := by
  rw [value, List.foldl_cons, foldl_value]
  simp

/-- A reader that shifts in each byte as long as the number stays below a bound reads the number. -/
theorem foldlM_eq_value {m : Type → Type} [Monad m] [LawfulMonad m] {step : ℕ → UInt8 → m ℕ}
    {bound : ℕ}
    (hstep : ∀ n x, n * 256 + x.toNat < bound → step n x = pure (n * 256 + x.toNat))
    (b : List UInt8) (n : ℕ) (h : n * 256 ^ b.length + value b < bound) :
    b.foldlM step n = pure (n * 256 ^ b.length + value b) := by
  induction b generalizing n with
  | nil => simp
  | cons x b ih =>
    rw [value_cons, List.length_cons, pow_succ] at h ⊢
    have hassoc : (n * 256 + x.toNat) * 256 ^ b.length + value b =
        n * (256 ^ b.length * 256) + (x.toNat * 256 ^ b.length + value b) := by ring
    have hpos : 0 < 256 ^ b.length := by positivity
    have hnext : n * 256 + x.toNat < bound :=
      (Nat.le_mul_of_pos_right _ hpos).trans_lt (by omega)
    rw [List.foldlM_cons, hstep n x hnext, pure_bind, ih _ (by omega), hassoc]

theorem value_lt (b : List UInt8) : value b < 256 ^ b.length := by
  induction b using List.reverseRecOn with
  | nil => simp
  | append_singleton b x ih =>
    have hx := x.toNat_lt
    rw [value_concat, List.length_append, List.length_singleton, pow_succ]
    omega

@[simp] theorem length_bytes (w n : ℕ) : (bytes w n).length = w := by
  induction w generalizing n with
  | zero => rfl
  | succ w ih => simp [bytes, ih]

theorem value_bytes (w n : ℕ) : value (bytes w n) = n % 256 ^ w := by
  induction w generalizing n with
  | zero => simp [bytes, Nat.mod_one]
  | succ w ih =>
    rw [bytes, value_concat, ih, pow_succ, Nat.mul_comm (256 ^ w), Nat.mod_mul]
    simp only [UInt8.toNat_ofNat']
    omega

theorem value_bytes_of_lt {w n : ℕ} (h : n < 256 ^ w) : value (bytes w n) = n := by
  rw [value_bytes, Nat.mod_eq_of_lt h]

@[simp] theorem value_strip (b : List UInt8) : value (strip b) = value b := by
  induction b with
  | nil => rfl
  | cons x b ih =>
    by_cases hx : x = 0
    · subst hx
      rw [value_cons, strip, List.dropWhile_cons_of_pos (by simp)]
      simpa [strip] using ih
    · rw [strip, List.dropWhile_cons_of_neg (by simpa using hx)]

theorem length_strip_le (b : List UInt8) : (strip b).length ≤ b.length :=
  (List.dropWhile_suffix _).length_le

theorem strip_head_ne_zero {b : List UInt8} {x : UInt8} {t : List UInt8}
    (h : strip b = x :: t) : x ≠ 0 := by
  induction b with
  | nil => simp [strip] at h
  | cons y b ih =>
    by_cases hy : y = 0
    · subst hy
      rw [strip, List.dropWhile_cons_of_pos (by simp)] at h
      exact ih h
    · rw [strip, List.dropWhile_cons_of_neg (by simpa using hy)] at h
      rwa [← (List.cons.inj h).1]

theorem strip_bytes_injective {w m n : ℕ} (hm : m < 256 ^ w) (hn : n < 256 ^ w)
    (h : strip (bytes w m) = strip (bytes w n)) : m = n := by
  have := congrArg value h
  simpa [value_bytes_of_lt hm, value_bytes_of_lt hn] using this

/-- The `w` low bytes of the number `b` spells are `b`, padded on the left. -/
theorem bytes_value {w : ℕ} {b : List UInt8} (h : b.length ≤ w) :
    bytes w (value b) = List.replicate (w - b.length) 0 ++ b := by
  induction w generalizing b with
  | zero =>
    obtain rfl := List.length_eq_zero_iff.mp (Nat.le_zero.mp h)
    rfl
  | succ w ih =>
    induction b using List.reverseRecOn with
    | nil =>
      have := ih (b := []) (Nat.zero_le w)
      simp only [value_nil, List.length_nil, Nat.sub_zero, List.append_nil] at this ⊢
      rw [bytes, this, List.replicate_succ']
      rfl
    | append_singleton b x _ =>
      have hx := x.toNat_lt
      rw [List.length_append, List.length_singleton] at h
      have hdiv : (value b * 256 + x.toNat) / 256 = value b := by omega
      have hmod : UInt8.ofNat (value b * 256 + x.toNat) = x := by
        apply UInt8.toNat_inj.mp
        rw [UInt8.toNat_ofNat']
        omega
      rw [value_concat, bytes, hdiv, hmod, ih (by omega), List.length_append,
        List.length_singleton, List.append_assoc, Nat.add_sub_add_right]

theorem strip_replicate_append {k : ℕ} {b : List UInt8} :
    strip (List.replicate k 0 ++ b) = strip b := by
  induction k with
  | zero => rfl
  | succ k ih =>
    rw [List.replicate_succ, List.cons_append, strip, List.dropWhile_cons_of_pos (by simp)]
    exact ih

theorem strip_of_head_ne_zero {b : List UInt8} (h : b.head? ≠ some 0) : strip b = b := by
  cases b with
  | nil => rfl
  | cons x b =>
    rw [strip, List.dropWhile_cons_of_neg]
    simpa using h

theorem strip_bytes_value {w : ℕ} {b : List UInt8} (h : b.length ≤ w) (h0 : b.head? ≠ some 0) :
    strip (bytes w (value b)) = b := by
  rw [bytes_value h, strip_replicate_append, strip_of_head_ne_zero h0]

end BigEndian
