import Mathlib.Data.List.Chain
import Mathlib.Data.List.Nodup
import Mathlib.Data.List.Sort

/-!
# Hash-linked chains

Blocks with a height and a hash, each of which names the hash of a parent. A chain is linked when
every block stands one above the block before and names it. Two linked chains that share a block
share everything below it, unless two blocks of one hash name different parents.
-/

namespace HashChain

variable {β η : Type*} {number : β → ℕ} {hash : β → η} {names : β → η → Prop}

theorem isChain_append_of_getLast {R : β → β → Prop} {chain more : List β} (h : chain.IsChain R)
    (hmore : (chain.getLast?.toList ++ more).IsChain R) : (chain ++ more).IsChain R := by
  refine h.append hmore.right_of_append ?_
  intro x hx y hy
  rw [Option.mem_def.mp hx] at hmore
  cases more with
  | nil => cases hy
  | cons a rest =>
    cases hy
    exact (List.isChain_cons_cons.mp hmore).1

/-- `b` stands one above `a` and names it as its parent. -/
def Follows (number : β → ℕ) (hash : β → η) (names : β → η → Prop) (a b : β) : Prop :=
  number b = number a + 1 ∧ names b (hash a)

theorem pairwise_number {chain : List β} (h : chain.IsChain (Follows number hash names)) :
    chain.Pairwise fun a b => number a < number b := by
  have hlt : chain.IsChain fun a b => number a < number b := by
    refine h.imp ?_
    intro a b hab
    rw [hab.1]
    exact Nat.lt_succ_self _
  have : IsTrans β fun a b => number a < number b := ⟨fun _ _ _ => Nat.lt_trans⟩
  exact List.isChain_iff_pairwise.mp hlt

theorem eq_of_number_eq {chain : List β} (h : chain.IsChain (Follows number hash names)) {a b : β}
    (ha : a ∈ chain) (hb : b ∈ chain) (hn : number a = number b) : a = b := by
  have hnodup : (chain.map number).Nodup := by
    rw [List.Nodup, List.pairwise_map]
    exact (pairwise_number h).imp fun hlt => hlt.ne
  exact List.inj_on_of_nodup_map hnodup ha hb hn

theorem map_number {first : β} {chain : List β}
    (h : (first :: chain).IsChain (Follows number hash names)) :
    (first :: chain).map number = List.range' (number first) (chain.length + 1) := by
  induction chain generalizing first with
  | nil => rfl
  | cons next rest ih =>
    obtain ⟨hnext, hrest⟩ := List.isChain_cons_cons.mp h
    rw [List.map_cons, ih hrest, hnext.1, List.length_cons, ← List.range'_succ]

theorem exists_between {chain : List β} (h : chain.IsChain (Follows number hash names)) {a b : β}
    (ha : a ∈ chain) (hb : b ∈ chain) {n : ℕ} (hlo : number a ≤ n) (hhi : n ≤ number b) :
    ∃ c ∈ chain, number c = n := by
  cases chain with
  | nil => cases ha
  | cons first rest =>
    have hmem : ∀ {x}, x ∈ first :: rest →
        number first ≤ number x ∧ number x < number first + (rest.length + 1) := by
      intro x hx
      have hx' := List.mem_map_of_mem (f := number) hx
      rw [map_number h] at hx'
      exact List.mem_range'_1.mp hx'
    have hn : n ∈ (first :: rest).map number := by
      rw [map_number h]
      exact List.mem_range'_1.mpr ⟨(hmem ha).1.trans hlo, hhi.trans_lt (hmem hb).2⟩
    obtain ⟨c, hc, rfl⟩ := List.mem_map.mp hn
    exact ⟨c, hc, rfl⟩

/-- The part of a linked chain between two heights that it covers has a block at each of them. -/
theorem map_number_filter {chain : List β} (h : chain.IsChain (Follows number hash names))
    {a b : β} (ha : a ∈ chain) (hb : b ∈ chain) {lo hi : ℕ} (hlo : number a ≤ lo)
    (hhi : hi ≤ number b) :
    (chain.filter fun c => decide (lo ≤ number c ∧ number c ≤ hi)).map number =
      List.range' lo (hi + 1 - lo) := by
  refine List.Pairwise.eq_of_mem_iff
    (List.pairwise_map.mpr ((pairwise_number h).filter _)) (List.pairwise_lt_range' 1) ?_
  intro n
  rw [List.mem_range'_1, List.mem_map]
  constructor
  · rintro ⟨c, hc, rfl⟩
    have hbounds := of_decide_eq_true (List.mem_filter.mp hc).2
    omega
  · rintro ⟨hlon, hnhi⟩
    obtain ⟨c, hc, rfl⟩ := exists_between h ha hb (hlo.trans hlon) (by omega : n ≤ number b)
    exact ⟨c, List.mem_filter.mpr ⟨hc, decide_eq_true ⟨hlon, by omega⟩⟩, rfl⟩

theorem number_getLast {chain : List β} {first last : β}
    (h : (first :: chain).IsChain (Follows number hash names))
    (hlast : (first :: chain).getLast? = some last) :
    number last = number first + chain.length := by
  induction chain generalizing first with
  | nil =>
    cases hlast
    rfl
  | cons next rest ih =>
    rw [List.getLast?_cons_cons] at hlast
    obtain ⟨hfollows, htail⟩ := List.isChain_cons_cons.mp h
    rw [ih htail hlast, hfollows.1, List.length_cons]
    omega

theorem exists_parent {chain : List β} (h : chain.IsChain (Follows number hash names)) {a b : β}
    (ha : a ∈ chain) (hb : b ∈ chain) (hlt : number a < number b) :
    ∃ p ∈ chain, Follows number hash names p b := by
  induction chain generalizing a with
  | nil => cases ha
  | cons first rest ih =>
    have hgrow := List.pairwise_cons.mp (pairwise_number h)
    rcases List.mem_cons.mp hb with rfl | hb
    · -- nothing stands below the first block
      rcases List.mem_cons.mp ha with rfl | ha
      · exact absurd hlt (Nat.lt_irrefl _)
      · exact absurd hlt (hgrow.1 a ha).le.not_gt
    · cases rest with
      | nil => cases hb
      | cons next rest =>
        obtain ⟨hfollows, htail⟩ := List.isChain_cons_cons.mp h
        rcases List.mem_cons.mp hb with rfl | hb'
        · exact ⟨first, List.mem_cons_self, hfollows⟩
        · have hnext : number next < number b :=
            (List.pairwise_cons.mp hgrow.2).1 b hb'
          obtain ⟨p, hp, hpb⟩ := ih htail List.mem_cons_self hb hnext
          exact ⟨p, List.mem_cons_of_mem _ hp, hpb⟩

/-- Two blocks at one height with one hash that name different parents. -/
structure Clash (number : β → ℕ) (hash : β → η) (names : β → η → Prop) (b c : β) : Prop where
  number_eq : number b = number c
  hash_eq : hash b = hash c
  parents : ∃ p q, names b p ∧ names c q ∧ p ≠ q

/-- Below a shared block two linked chains have the same hashes, or two of their blocks clash. -/
theorem agree_below {old new : List β} (hold : old.IsChain (Follows number hash names))
    (hnew : new.IsChain (Follows number hash names)) {x y : β} (hx : x ∈ old) (hy : y ∈ new)
    (hnumber : number x = number y) (hhash : hash x = hash y) {b c : β} (hb : b ∈ old)
    (hc : c ∈ new) (hbc : number b = number c) (hle : number b ≤ number x) :
    hash b = hash c ∨ ∃ u ∈ old, ∃ v ∈ new, Clash number hash names u v := by
  -- the distance down from the shared block
  obtain ⟨d, hd⟩ := Nat.exists_eq_add_of_le hle
  induction d generalizing x y with
  | zero =>
    have hbx : b = x := eq_of_number_eq hold hb hx hd.symm
    have hcy : c = y := eq_of_number_eq hnew hc hy (by rw [← hbc, ← hnumber]; exact hd.symm)
    rw [hbx, hcy]
    exact .inl hhash
  | succ d ih =>
    obtain ⟨p, hp, hpx⟩ := exists_parent hold hb hx (by omega)
    obtain ⟨q, hq, hqy⟩ := exists_parent hnew hc hy (by omega)
    by_cases hparent : hash p = hash q
    · have hpn := hpx.1
      have hqn := hqy.1
      exact ih hp hq (by omega) hparent (by omega) (by omega)
    · exact .inr ⟨x, hx, y, hy, hnumber, hhash, hash p, hash q, hpx.2, hqy.2, hparent⟩

end HashChain
