import Mathlib.Algebra.GroupWithZero.Nat
import Mathlib.Algebra.Order.BigOperators.Group.List
import Mathlib.Algebra.Order.Group.Nat

/-!
# Path-compressed tries

A trie over an alphabet `κ`: a leaf holds the rest of its key, an extension a run of letters
shared by every key below it, a branch one subtrie for each letter. `ofPairs pairs pre` is the
trie of the keys of `pairs` with their first `pre` letters removed; `lookup_ofPairs` says that it
holds exactly those pairs when no key is a prefix of another.
-/

/-- A path-compressed trie. -/
inductive Trie (κ V : Type) where
  | empty
  | leaf (path : List κ) (value : V)
  | ext (path : List κ) (child : Trie κ V)
  | branch (children : κ → Trie κ V)

namespace Trie

variable {κ V : Type} [DecidableEq κ]

/-- Remove `p` from the front of `k`. -/
def stripPrefix : List κ → List κ → Option (List κ)
  | [], k => some k
  | _ :: _, [] => none
  | x :: p, y :: k => if x = y then stripPrefix p k else none

theorem stripPrefix_eq_some {p k r : List κ} : stripPrefix p k = some r ↔ k = p ++ r := by
  induction p generalizing k with
  | nil => simp [stripPrefix, eq_comm]
  | cons x p ih =>
    cases k with
    | nil => simp [stripPrefix]
    | cons y k =>
      by_cases h : x = y
      · subst h
        simp [stripPrefix, ih]
      · simp [stripPrefix, h, Ne.symm h]

@[simp] theorem stripPrefix_append (p r : List κ) : stripPrefix p (p ++ r) = some r :=
  stripPrefix_eq_some.mpr rfl

theorem stripPrefix_eq_none {p k : List κ} : stripPrefix p k = none ↔ ¬ p <+: k := by
  constructor
  · rintro h ⟨r, rfl⟩
    simp at h
  · intro h
    cases hs : stripPrefix p k with
    | none => rfl
    | some r => exact absurd ⟨r, (stripPrefix_eq_some.mp hs).symm⟩ h

/-- The value stored at a key. -/
def lookup : Trie κ V → List κ → Option V
  | empty, _ => none
  | leaf p v, k => if k = p then some v else none
  | ext p c, k =>
    match stripPrefix p k with
    | some r => lookup c r
    | none => none
  | branch _, [] => none
  | branch c, x :: k => lookup (c x) k

/-! ## Building -/

/-- The number of leading letters two keys share. -/
def sharedLen : List κ → List κ → ℕ
  | x :: a, y :: b => if x = y then sharedLen a b + 1 else 0
  | _, _ => 0

theorem take_eq_of_le_sharedLen {a b : List κ} {n : ℕ} (h : n ≤ sharedLen a b) :
    a.take n = b.take n := by
  induction a generalizing b n with
  | nil =>
    obtain rfl : n = 0 := by simpa [sharedLen] using h
    simp
  | cons x a ih =>
    cases b with
    | nil =>
      obtain rfl : n = 0 := by simpa [sharedLen] using h
      simp
    | cons y b =>
      by_cases hxy : x = y
      · subst hxy
        cases n with
        | zero => rfl
        | succ n =>
          simp only [sharedLen, if_true, Nat.add_le_add_iff_right] at h
          simp [ih h]
      · obtain rfl : n = 0 := by simpa [sharedLen, hxy] using h
        simp

/-- The number of leading letters `key` shares with every key of `rest`. -/
def sharedAll (key : List κ) (rest : List (List κ × V)) : ℕ :=
  rest.foldl (fun s p => min s (sharedLen key p.1)) key.length

theorem foldl_min_le_init (key : List κ) (rest : List (List κ × V)) (s : ℕ) :
    rest.foldl (fun s p => min s (sharedLen key p.1)) s ≤ s := by
  induction rest generalizing s with
  | nil => exact le_rfl
  | cons q rest ih => exact (ih _).trans (min_le_left _ _)

theorem foldl_min_le_mem {key : List κ} {rest : List (List κ × V)} {p : List κ × V}
    (hp : p ∈ rest) (s : ℕ) :
    rest.foldl (fun s p => min s (sharedLen key p.1)) s ≤ sharedLen key p.1 := by
  induction rest generalizing s with
  | nil => simp at hp
  | cons q rest ih =>
    rcases List.mem_cons.mp hp with rfl | hp
    · exact (foldl_min_le_init key rest _).trans (min_le_right _ _)
    · exact ih hp _

theorem sharedAll_le_length (key : List κ) (rest : List (List κ × V)) :
    sharedAll key rest ≤ key.length := foldl_min_le_init key rest _

theorem sharedAll_le_sharedLen {key : List κ} {rest : List (List κ × V)} {p : List κ × V}
    (hp : p ∈ rest) : sharedAll key rest ≤ sharedLen key p.1 := foldl_min_le_mem hp _

/-- The pairs whose key has the letter `x` at position `pre`. -/
def group (pre : ℕ) (x : κ) (pairs : List (List κ × V)) : List (List κ × V) :=
  pairs.filter fun p => decide (p.1[pre]? = some x)

theorem mem_group {pre : ℕ} {x : κ} {pairs : List (List κ × V)} {p : List κ × V} :
    p ∈ group pre x pairs ↔ p ∈ pairs ∧ p.1[pre]? = some x := by
  simp [group]

/-- What is left to read of the keys, the measure of a descent. -/
def remaining (pairs : List (List κ × V)) (pre : ℕ) : ℕ :=
  pairs.length + (pairs.map fun p => p.1.length - pre).sum

omit [DecidableEq κ] in
theorem remaining_lt_of_lt {pairs : List (List κ × V)} {p : List κ × V} {pre pre' : ℕ}
    (hmem : p ∈ pairs) (hlt : pre < pre') (hle : pre' ≤ p.1.length) :
    remaining pairs pre' < remaining pairs pre := by
  induction pairs with
  | nil => simp at hmem
  | cons q pairs ih =>
    have hmono : (pairs.map fun p => p.1.length - pre').sum ≤
        (pairs.map fun p => p.1.length - pre).sum :=
      List.sum_le_sum fun p _ => by omega
    simp only [remaining, List.map_cons, List.sum_cons, List.length_cons] at *
    rcases List.mem_cons.mp hmem with rfl | hmem
    · omega
    · have := ih hmem
      omega

omit [DecidableEq κ] in
theorem remaining_le_of_sublist {sub pairs : List (List κ × V)} (h : sub.Sublist pairs)
    (pre : ℕ) : remaining sub pre ≤ remaining pairs pre :=
  Nat.add_le_add h.length_le
    ((h.map fun p => p.1.length - pre).sum_le_sum fun _ _ => Nat.zero_le _)

omit [DecidableEq κ] in
/-- Descending into some of the pairs, past a letter each of them has. -/
theorem remaining_lt_of_sublist {sub pairs : List (List κ × V)} {pre : ℕ}
    (hsub : sub.Sublist pairs) (hne : pairs ≠ []) (hletter : ∀ p ∈ sub, pre < p.1.length) :
    remaining sub (pre + 1) < remaining pairs pre := by
  cases sub with
  | nil =>
    have := List.length_pos_of_ne_nil hne
    simp only [remaining, List.length_nil, List.map_nil, List.sum_nil]
    omega
  | cons q sub =>
    exact (remaining_lt_of_lt List.mem_cons_self (Nat.lt_succ_self pre)
      (hletter q List.mem_cons_self)).trans_le (remaining_le_of_sublist hsub pre)

theorem lt_length_of_mem_group {pre : ℕ} {x : κ} {pairs : List (List κ × V)} {p : List κ × V}
    (h : p ∈ group pre x pairs) : pre < p.1.length :=
  (List.getElem?_eq_some_iff.mp (mem_group.mp h).2).1

/-- The trie of the keys of `pairs`, less their first `pre` letters. -/
def ofPairs (pairs : List (List κ × V)) (pre : ℕ) : Trie κ V :=
  match _h : pairs with
  | [] => empty
  | [(key, v)] => leaf (key.drop pre) v
  | (key, v) :: q :: rest =>
    if pre < sharedAll key (q :: rest) then
      ext ((key.take (sharedAll key (q :: rest))).drop pre)
        (ofPairs ((key, v) :: q :: rest) (sharedAll key (q :: rest)))
    else
      branch fun x => ofPairs (group pre x ((key, v) :: q :: rest)) (pre + 1)
termination_by remaining pairs pre
decreasing_by
  · next hlt =>
    exact remaining_lt_of_lt (p := (key, v)) List.mem_cons_self hlt (sharedAll_le_length _ _)
  · exact remaining_lt_of_sublist List.filter_sublist (List.cons_ne_nil _ _)
      (fun _ hp => lt_length_of_mem_group hp)

/-! ## Keys none of which starts another -/

/-- Neither key is a prefix of the other. -/
def Incomparable (a b : List κ) : Prop := ¬ a <+: b ∧ ¬ b <+: a

/-- Pairs that can be stored below the first `pre` letters: the keys are long enough, agree on
those letters, and none starts another. -/
structure Good (pairs : List (List κ × V)) (pre : ℕ) : Prop where
  long : ∀ p ∈ pairs, pre ≤ p.1.length
  agree : ∀ p ∈ pairs, ∀ q ∈ pairs, p.1.take pre = q.1.take pre
  free : pairs.Pairwise fun p q => Incomparable p.1 q.1

omit [DecidableEq κ] in
/-- The pairs of a list none of whose keys starts another can be stored from the root. -/
theorem Good.root {pairs : List (List κ × V)}
    (h : pairs.Pairwise fun p q => Incomparable p.1 q.1) : Good pairs 0 where
  long := fun _ _ => Nat.zero_le _
  agree := fun _ _ _ _ => by simp
  free := h

omit [DecidableEq κ] in
theorem Good.lt_length {p q : List κ × V} {rest : List (List κ × V)} {pre : ℕ}
    (h : Good (p :: q :: rest) pre) {r : List κ × V} (hr : r ∈ p :: q :: rest) :
    pre < r.1.length := by
  -- a key that ends at `pre` starts every other one
  have key : ∀ a b : List κ × V, Incomparable a.1 b.1 → a.1.take pre = b.1.take pre →
      pre ≤ a.1.length → pre < a.1.length := by
    intro a b hab ht hle
    rcases Nat.lt_or_eq_of_le hle with hlt | heq
    · exact hlt
    · refine absurd ?_ hab.1
      rw [← List.take_of_length_le heq.ge, ht]
      exact List.take_prefix _ _
  have hle := h.long r hr
  rcases List.mem_cons.mp hr with rfl | hr'
  · exact key r q ((List.pairwise_cons.mp h.free).1 q List.mem_cons_self)
      (h.agree _ List.mem_cons_self _ (by simp)) hle
  · have hpr := (List.pairwise_cons.mp h.free).1 r hr'
    exact key r p ⟨hpr.2, hpr.1⟩ (h.agree _ hr _ List.mem_cons_self) hle

omit [DecidableEq κ] in
theorem Good.sublist {pairs sub : List (List κ × V)} {pre pre' : ℕ} (h : Good pairs pre)
    (hsub : sub.Sublist pairs) (hlong : ∀ p ∈ sub, pre' ≤ p.1.length)
    (hagree : ∀ p ∈ sub, ∀ q ∈ sub, p.1.take pre' = q.1.take pre') : Good sub pre' :=
  ⟨hlong, hagree, h.free.sublist hsub⟩

theorem Good.shared {key : List κ} {v : V} {rest : List (List κ × V)} {pre : ℕ}
    (h : Good ((key, v) :: rest) pre) : Good ((key, v) :: rest) (sharedAll key rest) := by
  have hkey : ∀ p ∈ (key, v) :: rest, key.take (sharedAll key rest) =
      p.1.take (sharedAll key rest) := by
    intro p hp
    rcases List.mem_cons.mp hp with rfl | hp
    · rfl
    · exact take_eq_of_le_sharedLen (sharedAll_le_sharedLen hp)
  refine h.sublist (List.Sublist.refl _) (fun p hp => ?_) (fun p hp q hq => ?_)
  · have := congrArg List.length (hkey p hp)
    rw [List.length_take, List.length_take, min_eq_left (sharedAll_le_length key rest)] at this
    omega
  · rw [← hkey p hp, ← hkey q hq]

theorem Good.group {pairs : List (List κ × V)} {pre : ℕ} (h : Good pairs pre) (x : κ) :
    Good (group pre x pairs) (pre + 1) := by
  refine h.sublist List.filter_sublist (fun p hp => lt_length_of_mem_group hp)
    (fun p hp q hq => ?_)
  obtain ⟨hp, hpx⟩ := mem_group.mp hp
  obtain ⟨hq, hqx⟩ := mem_group.mp hq
  rw [List.take_add_one, List.take_add_one, h.agree p hp q hq, hpx, hqx]

/-! ## The trie holds the pairs -/

/-- The value of the first pair whose key, less its first `pre` letters, is `k`. -/
def find (pairs : List (List κ × V)) (pre : ℕ) (k : List κ) : Option V :=
  (pairs.find? fun p => decide (p.1.drop pre = k)).map Prod.snd

theorem find_congr {pairs pairs' : List (List κ × V)} {pre pre' : ℕ} {k k' : List κ}
    (h : pairs.find? (fun p => decide (p.1.drop pre = k)) =
      pairs'.find? fun p => decide (p.1.drop pre' = k')) :
    find pairs pre k = find pairs' pre' k' := by
  unfold find
  rw [h]

theorem find?_congr_mem {α : Type*} {l : List α} {f g : α → Bool} (h : ∀ a ∈ l, f a = g a) :
    l.find? f = l.find? g := by
  induction l with
  | nil => rfl
  | cons a l ih =>
    rw [List.find?_cons, List.find?_cons, h a List.mem_cons_self,
      ih fun b hb => h b (List.mem_cons_of_mem a hb)]

omit [DecidableEq κ] in
theorem drop_eq_cons_iff {l k : List κ} {pre : ℕ} {x : κ} :
    l.drop pre = x :: k ↔ l[pre]? = some x ∧ l.drop (pre + 1) = k := by
  induction l generalizing pre with
  | nil => simp
  | cons y l ih =>
    cases pre with
    | zero => simp
    | succ pre => simpa using ih

theorem find_ext {key : List κ} {v : V} {rest : List (List κ × V)} {pre : ℕ} {k : List κ}
    (h : Good ((key, v) :: rest) pre) (hlt : pre < sharedAll key rest) :
    find ((key, v) :: rest) pre k =
      match stripPrefix ((key.take (sharedAll key rest)).drop pre) k with
      | some r => find ((key, v) :: rest) (sharedAll key rest) r
      | none => none := by
  have hsplit : ∀ p ∈ (key, v) :: rest, p.1.drop pre =
      (key.take (sharedAll key rest)).drop pre ++ p.1.drop (sharedAll key rest) := by
    intro p hp
    rw [h.shared.agree _ List.mem_cons_self p hp, ← List.drop_append_of_le_length,
      List.take_append_drop]
    rw [List.length_take]
    have := h.shared.long p hp
    omega
  cases hs : stripPrefix ((key.take (sharedAll key rest)).drop pre) k with
  | some r =>
    obtain rfl := stripPrefix_eq_some.mp hs
    refine find_congr (find?_congr_mem fun p hp => ?_)
    rw [hsplit p hp, decide_eq_decide, List.append_cancel_left_eq]
  | none =>
    unfold find
    rw [List.find?_eq_none.mpr, Option.map_none]
    intro p hp
    rw [decide_eq_true_eq]
    rintro rfl
    refine stripPrefix_eq_none.mp hs ?_
    rw [hsplit p hp]
    exact List.prefix_append _ _

theorem find_group (pairs : List (List κ × V)) (pre : ℕ) (x : κ) (k : List κ) :
    find pairs pre (x :: k) = find (group pre x pairs) (pre + 1) k := by
  refine find_congr ?_
  unfold group
  rw [List.find?_filter]
  refine find?_congr_mem fun p _ => ?_
  rw [decide_eq_decide, decide_eq_true_eq, decide_eq_true_eq, drop_eq_cons_iff]

theorem find_nil_of_lt {pairs : List (List κ × V)} {pre : ℕ}
    (h : ∀ p ∈ pairs, pre < p.1.length) : find pairs pre [] = none := by
  unfold find
  rw [List.find?_eq_none.mpr, Option.map_none]
  intro p hp
  have := h p hp
  rw [decide_eq_true_eq, List.drop_eq_nil_iff]
  omega

theorem find_eq_some_iff {pairs : List (List κ × V)} {k : List κ} {v : V}
    (h : pairs.Pairwise fun p q => Incomparable p.1 q.1) :
    find pairs 0 k = some v ↔ (k, v) ∈ pairs := by
  unfold find
  simp only [List.drop_zero]
  induction pairs with
  | nil => simp
  | cons p pairs ih =>
    obtain ⟨hp, hrest⟩ := List.pairwise_cons.mp h
    by_cases hk : p.1 = k
    · have hnot : (k, v) ∉ pairs := fun hmem => (hp _ hmem).1 (hk ▸ List.prefix_rfl)
      simp [hk, hnot, Prod.ext_iff, eq_comm]
    · have hne : (k, v) ≠ p := fun he => hk (by rw [← he])
      rw [List.find?_cons_of_neg (by simpa using hk), ih hrest, List.mem_cons]
      simp [hne]

/-- The trie of `pairs` holds each value at its key, and nothing else. -/
theorem lookup_ofPairs (pairs : List (List κ × V)) (pre : ℕ) (k : List κ)
    (h : Good pairs pre) : lookup (ofPairs pairs pre) k = find pairs pre k := by
  induction pairs, pre using ofPairs.induct generalizing k with
  | case1 pre => rw [ofPairs]; rfl
  | case2 pre key v =>
    rw [ofPairs]
    by_cases hk : key.drop pre = k
    · simp [lookup, find, hk]
    · simp [lookup, find, hk, Ne.symm hk]
  | case3 pre key v q rest hlt ih =>
    rw [ofPairs, if_pos hlt, lookup, find_ext h hlt]
    cases stripPrefix ((key.take (sharedAll key (q :: rest))).drop pre) k with
    | none => rfl
    | some r => exact ih r h.shared
  | case4 pre key v q rest hlt ih =>
    rw [ofPairs, if_neg hlt]
    cases k with
    | nil => rw [lookup, find_nil_of_lt fun p hp => h.lt_length hp]
    | cons x k => rw [lookup, ih x k (h.group x), find_group]

/-! ## Sorted pairs

Along sorted keys that agree on their first `pre` letters the next letter never falls, so the
keys that go on with one letter stand together. -/

omit [DecidableEq κ] in
theorem takeWhile_eq_filter {α : Type} {f : α → ℕ} {x : ℕ} {l : List α}
    (hmono : l.Pairwise fun a b => f a ≤ f b) (hle : ∀ a ∈ l, x ≤ f a) :
    l.takeWhile (fun a => f a = x) = l.filter (fun a => f a = x) ∧
      l.dropWhile (fun a => f a = x) = l.filter (fun a => x + 1 ≤ f a) := by
  induction l with
  | nil => simp
  | cons a l ih =>
    obtain ⟨ha, hl⟩ := List.pairwise_cons.mp hmono
    have hxa := hle a List.mem_cons_self
    by_cases hx : f a = x
    · obtain ⟨ht, hd⟩ := ih hl fun b hb => hle b (List.mem_cons_of_mem a hb)
      simp [hx, ht, hd]
    · have hlt : ∀ b ∈ a :: l, x + 1 ≤ f b := by
        intro b hb
        rcases List.mem_cons.mp hb with rfl | hb
        · omega
        · have := ha b hb
          omega
      refine ⟨?_, ?_⟩
      · rw [List.takeWhile_cons_of_neg (by simpa using hx), eq_comm, List.filter_eq_nil_iff]
        intro b hb
        have := hlt b hb
        simp only [decide_eq_true_eq]
        omega
      · rw [List.dropWhile_cons_of_neg (by simpa using hx), eq_comm, List.filter_eq_self]
        simpa using hlt

/-! ## Shape -/

/-- Every path is at most `n` letters long and every value satisfies `P`. -/
def Within (n : ℕ) (P : V → Prop) : Trie κ V → Prop
  | empty => True
  | leaf p v => p.length ≤ n ∧ P v
  | ext p c => p.length ≤ n ∧ Within n P c
  | branch c => ∀ x, Within n P (c x)

theorem within_ofPairs {n : ℕ} {P : V → Prop} (pairs : List (List κ × V)) (pre : ℕ)
    (h : ∀ p ∈ pairs, p.1.length ≤ n ∧ P p.2) : Within n P (ofPairs pairs pre) := by
  induction pairs, pre using ofPairs.induct with
  | case1 pre => rw [ofPairs]; trivial
  | case2 pre key v =>
    have hk : key.length ≤ n ∧ P v := h (key, v) List.mem_cons_self
    rw [ofPairs]
    refine ⟨?_, hk.2⟩
    rw [List.length_drop]
    omega
  | case3 pre key v q rest hlt ih =>
    have hk : key.length ≤ n ∧ P v := h (key, v) List.mem_cons_self
    rw [ofPairs, if_pos hlt]
    refine ⟨?_, ih h⟩
    rw [List.length_drop, List.length_take]
    omega
  | case4 pre key v q rest hlt ih =>
    rw [ofPairs, if_neg hlt]
    exact fun x => ih x fun p hp => h p (mem_group.mp hp).1

/-- A non-empty trie all of whose keys have length `d`. -/
def FullDepth : Trie κ V → ℕ → Prop
  | empty, _ => False
  | leaf p _, d => p.length = d
  | ext p c, d => ∃ d', p.length + d' = d ∧ FullDepth c d'
  | branch c, d => ∃ d', d' + 1 = d ∧ (∃ x, FullDepth (c x) d') ∧
      ∀ x, c x = empty ∨ FullDepth (c x) d'

theorem ofPairs_nil (pre : ℕ) : ofPairs ([] : List (List κ × V)) pre = empty := by
  rw [ofPairs]

theorem fullDepth_ofPairs {n : ℕ} (pairs : List (List κ × V)) (pre : ℕ) (h : Good pairs pre)
    (hne : pairs ≠ []) (hlen : ∀ p ∈ pairs, p.1.length = n) :
    FullDepth (ofPairs pairs pre) (n - pre) := by
  induction pairs, pre using ofPairs.induct with
  | case1 pre => exact absurd rfl hne
  | case2 pre key v =>
    rw [ofPairs]
    show (key.drop pre).length = n - pre
    rw [List.length_drop, hlen (key, v) List.mem_cons_self]
  | case3 pre key v q rest hlt ih =>
    have hkey := hlen (key, v) List.mem_cons_self
    have hle := sharedAll_le_length key (q :: rest)
    rw [ofPairs, if_pos hlt]
    refine ⟨n - sharedAll key (q :: rest), ?_, ih h.shared hne hlen⟩
    rw [List.length_drop, List.length_take]
    dsimp only at hkey
    omega
  | case4 pre key v q rest hlt ih =>
    have hlong := h.lt_length (r := (key, v)) List.mem_cons_self
    have hkey := hlen (key, v) List.mem_cons_self
    rw [ofPairs, if_neg hlt]
    refine ⟨n - (pre + 1), by dsimp only at hkey hlong; omega, ⟨key.get ⟨pre, hlong⟩, ?_⟩,
      fun x => ?_⟩
    · refine ih _ (h.group _) (List.ne_nil_of_mem (mem_group.mpr ⟨List.mem_cons_self, ?_⟩))
        fun p hp => hlen p (mem_group.mp hp).1
      simp [List.getElem?_eq_getElem hlong]
    · by_cases hx : group pre x ((key, v) :: q :: rest) = []
      · left
        dsimp only
        rw [hx, ofPairs_nil]
      · exact .inr (ih x (h.group x) hx fun p hp => hlen p (mem_group.mp hp).1)

/-- The nodes met on the way of `k` down from the root. -/
def path : Trie κ V → List κ → List (Trie κ V)
  | empty, _ => []
  | leaf p v, _ => [leaf p v]
  | ext p c, k =>
    ext p c ::
      match stripPrefix p k with
      | some r => path c r
      | none => []
  | branch c, [] => [branch c]
  | branch c, x :: k => branch c :: path (c x) k

/-- Following `k` never reaches a leaf with letters of `k` left over. -/
def Ends : Trie κ V → List κ → Prop
  | empty, _ => True
  | leaf p _, k => p <+: k → k = p
  | ext p c, k => ∀ r, k = p ++ r → Ends c r
  | branch _, [] => True
  | branch c, x :: k => Ends (c x) k

theorem ends_of_lookup {t : Trie κ V} {k : List κ} {v : V} (h : lookup t k = some v) :
    Ends t k := by
  induction t generalizing k with
  | empty => trivial
  | leaf p w =>
    simp only [lookup, Option.ite_none_right_eq_some] at h
    exact fun _ => h.1
  | ext p c ih =>
    rintro r rfl
    simp only [lookup, stripPrefix_append] at h
    exact ih h
  | branch c ih =>
    cases k with
    | nil => trivial
    | cons x k => exact ih x h

omit [DecidableEq κ] in
theorem ends_of_fullDepth {t : Trie κ V} {k : List κ} (h : FullDepth t k.length) : Ends t k := by
  induction t generalizing k with
  | empty => trivial
  | leaf p w => exact fun hp => (hp.eq_of_length h).symm
  | ext p c ih =>
    rintro r rfl
    obtain ⟨d, hd, hc⟩ := h
    rw [List.length_append] at hd
    obtain rfl : d = r.length := by omega
    exact ih hc
  | branch c ih =>
    cases k with
    | nil => trivial
    | cons x k =>
      obtain ⟨d, hd, -, hall⟩ := h
      obtain rfl : d = k.length := by simpa using hd
      rcases hall x with he | hx
      · show Ends (c x) k
        rw [he]
        trivial
      · exact ih x hx

end Trie
