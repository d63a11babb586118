import Mathlib.Tactic.Common
import Mathlib.Tactic.IntervalCases

/-!
# Keccak-256

The hash with the original Keccak padding (a `1` byte, zeros, a final `0x80` bit) at rate 136,
over a state of 25 lanes of 64 bits kept as a list of numbers. The second half computes the same
digest on a state of five rows, which evaluates much faster.
-/

namespace Keccak

/-- Rotation of a 64-bit lane. -/
def rotateLeft (x n : Nat) : Nat :=
  ((x <<< n) ||| (x >>> (64 - n))) &&& 0xffffffffffffffff

def roundConstants : List Nat := [
  0x0000000000000001, 0x0000000000008082, 0x800000000000808a, 0x8000000080008000,
  0x000000000000808b, 0x0000000080000001, 0x8000000080008081, 0x8000000000008009,
  0x000000000000008a, 0x0000000000000088, 0x0000000080008009, 0x000000008000000a,
  0x000000008000808b, 0x800000000000008b, 0x8000000000008089, 0x8000000000008003,
  0x8000000000008002, 0x8000000000000080, 0x000000000000800a, 0x800000008000000a,
  0x8000000080008081, 0x8000000000008080, 0x0000000080000001, 0x8000000080008008]

/-- Rotation offsets; lane `(x, y)` stands at `x + 5 * y`. -/
def rotations : List Nat :=
  [0, 1, 62, 28, 27, 36, 44, 6, 55, 20, 3, 10, 43, 25, 39, 41, 45, 15, 21, 8, 18, 2, 61, 56, 14]

def lane (s : List Nat) (i : Nat) : Nat := s.getD i 0

/-- One round of the permutation. -/
def round (s : List Nat) (constant : Nat) : List Nat :=
  -- θ
  let columns := (List.range 5).map fun x =>
    lane s x ^^^ lane s (x + 5) ^^^ lane s (x + 10) ^^^ lane s (x + 15) ^^^ lane s (x + 20)
  let mix := (List.range 5).map fun x =>
    lane columns ((x + 4) % 5) ^^^ rotateLeft (lane columns ((x + 1) % 5)) 1
  let mixed := (s.zip (List.range 25)).map fun p => p.1 ^^^ lane mix (p.2 % 5)
  -- ρ and π
  let rotated := (mixed.zip rotations).map fun p => rotateLeft p.1 p.2
  let moved := (List.range 25).map fun i => lane rotated ((i % 5 + 3 * (i / 5)) % 5 + 5 * (i % 5))
  -- χ
  let chi := (List.range 25).map fun i =>
    let row := i - i % 5
    lane moved i ^^^
      ((0xffffffffffffffff ^^^ lane moved (row + (i % 5 + 1) % 5)) &&&
        lane moved (row + (i % 5 + 2) % 5))
  -- ι
  (lane chi 0 ^^^ constant) :: chi.tail

def permute (s : List Nat) : List Nat := roundConstants.foldl round s

/-- The number a little-endian string spells. -/
def leValue : List UInt8 → Nat
  | [] => 0
  | b :: bs => b.toNat + 256 * leValue bs

def leBytes : Nat → Nat → List UInt8
  | 0, _ => []
  | w + 1, n => UInt8.ofNat (n % 256) :: leBytes w (n / 256)

/-- The first `n` lanes of a string. -/
def lanes : Nat → List UInt8 → List Nat
  | 0, _ => []
  | n + 1, bs => leValue (bs.take 8) :: lanes n (bs.drop 8)

/-- Absorb `n` blocks. -/
def absorb : Nat → List Nat → List UInt8 → List Nat
  | 0, s, _ => s
  | n + 1, s, bs =>
    let block := lanes 17 (bs.take 136) ++ List.replicate 8 0
    absorb n (permute (List.zipWith (· ^^^ ·) s block)) (bs.drop 136)

def pad (bs : List UInt8) : List UInt8 :=
  let q := 136 - bs.length % 136
  if q = 1 then bs ++ [0x81] else bs ++ 0x01 :: List.replicate (q - 2) 0 ++ [0x80]

def digest (bs : List UInt8) : List UInt8 :=
  let padded := pad bs
  let s := absorb (padded.length / 136) (List.replicate 25 0) padded
  (List.range 4).flatMap fun i => leBytes 8 (lane s i)

theorem length_leBytes (w n : Nat) : (leBytes w n).length = w := by
  induction w generalizing n with
  | zero => rfl
  | succ w ih => rw [leBytes, List.length_cons, ih]

theorem length_digest (bs : List UInt8) : (digest bs).length = 32 := by
  simp [digest, List.range_succ, length_leBytes]

/-! ## The state as five rows -/

structure Row where
  a : Nat
  b : Nat
  c : Nat
  d : Nat
  e : Nat

namespace Row

def lanes (r : Row) : List Nat := [r.a, r.b, r.c, r.d, r.e]

def xor (r s : Row) : Row :=
  ⟨r.a ^^^ s.a, r.b ^^^ s.b, r.c ^^^ s.c, r.d ^^^ s.d, r.e ^^^ s.e⟩

/-- What θ adds to every row, from the parities of the columns. -/
def mix (r : Row) : Row :=
  ⟨r.e ^^^ rotateLeft r.b 1, r.a ^^^ rotateLeft r.c 1, r.b ^^^ rotateLeft r.d 1,
    r.c ^^^ rotateLeft r.e 1, r.d ^^^ rotateLeft r.a 1⟩

def chi (r : Row) : Row :=
  ⟨r.a ^^^ ((0xffffffffffffffff ^^^ r.b) &&& r.c), r.b ^^^ ((0xffffffffffffffff ^^^ r.c) &&& r.d),
    r.c ^^^ ((0xffffffffffffffff ^^^ r.d) &&& r.e), r.d ^^^ ((0xffffffffffffffff ^^^ r.e) &&& r.a),
    r.e ^^^ ((0xffffffffffffffff ^^^ r.a) &&& r.b)⟩

end Row

structure Rows where
  r : Row
  s : Row
  t : Row
  u : Row
  v : Row

namespace Rows

def lanes (x : Rows) : List Nat :=
  x.r.lanes ++ x.s.lanes ++ x.t.lanes ++ x.u.lanes ++ x.v.lanes

def ofLanes (l : List Nat) : Rows where
  r := ⟨lane l 0, lane l 1, lane l 2, lane l 3, lane l 4⟩
  s := ⟨lane l 5, lane l 6, lane l 7, lane l 8, lane l 9⟩
  t := ⟨lane l 10, lane l 11, lane l 12, lane l 13, lane l 14⟩
  u := ⟨lane l 15, lane l 16, lane l 17, lane l 18, lane l 19⟩
  v := ⟨lane l 20, lane l 21, lane l 22, lane l 23, lane l 24⟩

def theta (x : Rows) : Rows :=
  let m := ((((x.r.xor x.s).xor x.t).xor x.u).xor x.v).mix
  ⟨x.r.xor m, x.s.xor m, x.t.xor m, x.u.xor m, x.v.xor m⟩

/-- ρ and π. -/
def move (x : Rows) : Rows where
  r := ⟨rotateLeft x.r.a 0, rotateLeft x.s.b 44, rotateLeft x.t.c 43, rotateLeft x.u.d 21,
    rotateLeft x.v.e 14⟩
  s := ⟨rotateLeft x.r.d 28, rotateLeft x.s.e 20, rotateLeft x.t.a 3, rotateLeft x.u.b 45,
    rotateLeft x.v.c 61⟩
  t := ⟨rotateLeft x.r.b 1, rotateLeft x.s.c 6, rotateLeft x.t.d 25, rotateLeft x.u.e 8,
    rotateLeft x.v.a 18⟩
  u := ⟨rotateLeft x.r.e 27, rotateLeft x.s.a 36, rotateLeft x.t.b 10, rotateLeft x.u.c 15,
    rotateLeft x.v.d 56⟩
  v := ⟨rotateLeft x.r.c 62, rotateLeft x.s.d 55, rotateLeft x.t.e 39, rotateLeft x.u.a 41,
    rotateLeft x.v.b 2⟩

def round (x : Rows) (constant : Nat) : Rows :=
  let m := x.theta.move
  ⟨{ m.r.chi with a := m.r.chi.a ^^^ constant }, m.s.chi, m.t.chi, m.u.chi, m.v.chi⟩

theorem round_lanes (x : Rows) (constant : Nat) :
    Keccak.round x.lanes constant = (x.round constant).lanes := by
  simp [Keccak.round, lane, rotations, List.range_succ, lanes, Row.lanes, round, theta, move,
    Row.xor, Row.mix, Row.chi]

theorem permute_lanes (x : Rows) : permute x.lanes = (roundConstants.foldl round x).lanes := by
  unfold permute
  generalize roundConstants = constants
  induction constants generalizing x with
  | nil => rfl
  | cons constant rest ih => rw [List.foldl_cons, List.foldl_cons, round_lanes, ih]

theorem lanes_ofLanes {l : List Nat} (h : l.length = 25) : (ofLanes l).lanes = l := by
  refine List.ext_getElem (by rw [h]; rfl) ?_
  intro i hi hl
  change i < 25 at hi
  have hlane : ∀ j, (hj : j < l.length) → lane l j = l[j] := fun j hj => by simp [lane, hj]
  rw [← hlane i hl]
  interval_cases i <;> rfl

end Rows

/-- `permute`, by rows. -/
def permuteRows (s : List Nat) : List Nat :=
  (roundConstants.foldl Rows.round (Rows.ofLanes s)).lanes

theorem permute_eq_permuteRows {s : List Nat} (h : s.length = 25) : permute s = permuteRows s := by
  rw [permuteRows, ← Rows.permute_lanes, Rows.lanes_ofLanes h]

/-- `absorb`, by rows. -/
def absorbRows : Nat → List Nat → List UInt8 → List Nat
  | 0, s, _ => s
  | n + 1, s, bs =>
    let block := lanes 17 (bs.take 136) ++ List.replicate 8 0
    absorbRows n (permuteRows (List.zipWith (· ^^^ ·) s block)) (bs.drop 136)

theorem length_lanes (n : Nat) (bs : List UInt8) : (lanes n bs).length = n := by
  induction n generalizing bs with
  | zero => rfl
  | succ n ih => rw [lanes, List.length_cons, ih]

theorem absorb_eq_absorbRows (n : Nat) {s : List Nat} (bs : List UInt8) (h : s.length = 25) :
    absorb n s bs = absorbRows n s bs := by
  induction n generalizing s bs with
  | zero => rfl
  | succ n ih =>
    have hblock : (List.zipWith (· ^^^ ·) s
        (lanes 17 (bs.take 136) ++ List.replicate 8 0)).length = 25 := by
      simp [length_lanes, h]
    rw [absorb, absorbRows, permute_eq_permuteRows hblock]
    exact ih _ rfl

/-- `digest`, by rows. -/
def digestRows (bs : List UInt8) : List UInt8 :=
  let padded := pad bs
  let s := absorbRows (padded.length / 136) (List.replicate 25 0) padded
  (List.range 4).flatMap fun i => leBytes 8 (lane s i)

theorem digest_eq_digestRows (bs : List UInt8) : digest bs = digestRows bs := by
  unfold digest digestRows
  simp only
  rw [absorb_eq_absorbRows _ _ List.length_replicate]

end Keccak
