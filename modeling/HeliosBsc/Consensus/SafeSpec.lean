import HeliosBsc.Consensus.NewestSafe
import HeliosBsc.Lib.HashChain

/-!
# What the Safe head is

`newest_safe` returns the highest block with enough miners above it, whatever the sealers repeat.
Which block that is depends on the blocks above it alone, so cutting the far end of a chain or
adding blocks at its tip moves the head nowhere or up.
-/

namespace HeliosBsc

/-- Every block stands one above the block before it. -/
def Consecutive (chain : List VerifiedBlock) : Prop :=
  chain.IsChain fun a b => b.number = a.number + 1

theorem Consecutive.pairwise_number {chain : List VerifiedBlock} (h : Consecutive chain) :
    chain.Pairwise fun a b => a.number < b.number := by
  have hlinked : chain.IsChain
      (HashChain.Follows VerifiedBlock.number (fun _ => ()) fun _ _ => True) :=
    h.imp fun _ _ hab => ⟨hab, trivial⟩
  exact HashChain.pairwise_number hlinked

/-- The highest block of the chain with `t` miners above it. -/
structure IsSafe (t : ℕ) (chain : List VerifiedBlock) (s : VerifiedBlock) : Prop where
  mem : s ∈ chain
  reached : t ≤ distinctSealers (blocksAbove chain s.number)
  highest : ∀ b ∈ chain, t ≤ distinctSealers (blocksAbove chain b.number) → b.number ≤ s.number

/-- What a computation of the Safe head owes for the threshold `t`. -/
structure SafeSpec (t : ℕ) (safe : List VerifiedBlock → Option SafeHead) : Prop where
  eq_some : ∀ chain head, Consecutive chain → (safe chain = some head ↔
    ∃ s, IsSafe t chain s ∧ head = safeHeadAt t s (blocksAbove chain s.number))
  eq_none : ∀ chain, Consecutive chain → (safe chain = none ↔
    ∀ b ∈ chain, ¬ t ≤ distinctSealers (blocksAbove chain b.number))
  trimmed : ∀ chain kept head, Consecutive chain → kept <:+ chain → safe kept = some head →
    safe chain = some head
  grown : ∀ chain block head, Consecutive (chain ++ [block]) → safe chain = some head →
    ∃ head', safe (chain ++ [block]) = some head' ∧ head.number ≤ head'.number

section

variable {t : ℕ} {chain : List VerifiedBlock} {s : VerifiedBlock}

/-- The safe block is the one whose confirmations `newest_safe` counts. -/
theorem isSafe_iff_confirmed (ht : 0 < t) (h : Consecutive chain) :
    IsSafe t chain s ↔ ∃ older, Confirmed t chain older s (blocksAbove chain s.number) := by
  have hnumbers := h.pairwise_number
  constructor
  · intro hs
    obtain ⟨older, newer, hsplit⟩ := List.append_of_mem hs.mem
    have habove := blocksAbove_of_split hsplit hnumbers
    refine ⟨older, ⟨?_, hs.reached, ?_⟩⟩
    · rwa [habove]
    · rw [habove]
      cases newer with
      | nil => exact ht
      | cons b rest =>
        -- the block right above `s` is too high to have `t` miners above it
        by_contra hlt
        have hb : chain = (older ++ [s]) ++ b :: rest := by
          rw [hsplit, List.append_assoc, List.singleton_append]
        have hmem : b ∈ chain := by
          rw [hb]
          exact List.mem_append_right _ List.mem_cons_self
        have hle := hs.highest b hmem (by
          rw [blocksAbove_of_split hb hnumbers]
          exact not_lt.mp hlt)
        rw [hb, List.pairwise_append] at hnumbers
        have hgt := hnumbers.2.2 s (List.mem_append_right _ List.mem_cons_self) b
          List.mem_cons_self
        omega
  · rintro ⟨older, hc⟩
    refine ⟨hc.mem, hc.reached, ?_⟩
    intro b hb hreached
    by_contra hgt
    have habove : b ∈ blocksAbove chain s.number :=
      List.mem_filter.mpr ⟨hb, decide_eq_true (not_le.mp hgt)⟩
    obtain ⟨between, higher, hsplit⟩ := List.append_of_mem habove
    have hb' : chain = (older ++ s :: between) ++ b :: higher := by
      conv_lhs => rw [hc.split, hsplit]
      rw [List.append_assoc, List.cons_append]
    rw [blocksAbove_of_split hb' hnumbers] at hreached
    have hhigher : higher <:+ chain := by
      rw [hb']
      exact List.IsSuffix.trans (List.suffix_cons b higher) (List.suffix_append _ _)
    have hlength := hc.length_le hhigher hreached
    rw [hsplit, List.length_append, List.length_cons] at hlength
    omega

theorem newestSafeAt_eq_some (ht : 0 < t) (h : Consecutive chain) {head : SafeHead} :
    newestSafeAt t chain = some head ↔
      ∃ s, IsSafe t chain s ∧ head = safeHeadAt t s (blocksAbove chain s.number) := by
  constructor
  · intro hsome
    obtain ⟨older, s, newer, hc, rfl⟩ := confirmed_of_newestSafeAt ht hsome
    obtain rfl : blocksAbove chain s.number = newer := hc.blocksAbove_eq h.pairwise_number
    exact ⟨s, (isSafe_iff_confirmed ht h).mpr ⟨older, hc⟩, rfl⟩
  · rintro ⟨s, hs, rfl⟩
    obtain ⟨older, hc⟩ := (isSafe_iff_confirmed ht h).mp hs
    exact newestSafeAt_of_confirmed ht hc

theorem newestSafeAt_eq_none_iff (ht : 0 < t) (h : Consecutive chain) :
    newestSafeAt t chain = none ↔
      ∀ b ∈ chain, ¬ t ≤ distinctSealers (blocksAbove chain b.number) := by
  constructor
  · intro hnone b hb hreached
    obtain ⟨older, newer, hsplit⟩ := List.append_of_mem hb
    rw [blocksAbove_of_split hsplit h.pairwise_number] at hreached
    have hmono := distinctSealers_mono (suffix_tail_of_split hsplit).subset
    have hfew := (newestSafeAt_eq_none ht).mp hnone
    omega
  · intro hfew
    cases hsome : newestSafeAt t chain with
    | none => rfl
    | some head =>
      obtain ⟨s, hs, -⟩ := (newestSafeAt_eq_some ht h).mp hsome
      exact absurd hs.reached (hfew s hs.mem)

/-- What confirms a block does not depend on the blocks below it. -/
theorem newestSafeAt_trimmed (ht : 0 < t) {kept : List VerifiedBlock} (hkept : kept <:+ chain)
    {head : SafeHead} (h : newestSafeAt t kept = some head) : newestSafeAt t chain = some head := by
  obtain ⟨older, s, newer, hc, rfl⟩ := confirmed_of_newestSafeAt ht h
  obtain ⟨dropped, rfl⟩ := hkept
  have hc' : Confirmed t (dropped ++ kept) (dropped ++ older) s newer := by
    refine ⟨?_, hc.reached, hc.shortest⟩
    rw [hc.split, List.append_assoc]
  exact newestSafeAt_of_confirmed ht hc'

theorem newestSafeAt_grown (ht : 0 < t) {block : VerifiedBlock} (h : Consecutive (chain ++ [block]))
    {head : SafeHead} (hsome : newestSafeAt t chain = some head) :
    ∃ head', newestSafeAt t (chain ++ [block]) = some head' ∧ head.number ≤ head'.number := by
  cases hgrown : newestSafeAt t (chain ++ [block]) with
  | none =>
    obtain ⟨older, s, newer, hc, -⟩ := confirmed_of_newestSafeAt ht hsome
    have hsplit : chain ++ [block] = older ++ s :: (newer ++ [block]) := by
      rw [hc.split, List.append_assoc, List.cons_append]
    have hold := distinctSealers_mono (List.subset_append_left newer [block])
    have hnew := distinctSealers_mono (suffix_tail_of_split hsplit).subset
    have hreached := hc.reached
    have hfew := (newestSafeAt_eq_none ht).mp hgrown
    omega
  | some head' =>
    exact ⟨head', rfl, newestSafeAt_mono ht List.suffix_rfl h.pairwise_number hsome hgrown⟩

end

theorem newestSafeAt_safeSpec {t : ℕ} (ht : 0 < t) : SafeSpec t (newestSafeAt t) where
  eq_some _ _ h := newestSafeAt_eq_some ht h
  eq_none _ h := newestSafeAt_eq_none_iff ht h
  trimmed _ _ _ _ hkept hsome := newestSafeAt_trimmed ht hkept hsome
  grown _ _ _ h hsome := newestSafeAt_grown ht h hsome

/-- `min_distinct_sealers` where the product wraps, as in a build without overflow checks. -/
def minDistinctSealersWrapping (nSeal : ℕ) : ℕ :=
  if nSeal = 0 then 0 else 2 * nSeal % 2 ^ 32 / 3 + 1

/-- For any number of validators, whatever the product overflows to: `newest_safe` returns the
highest block with enough distinct miners above it, and none if there is no such block. A head found
on an end of the chain is the head of the whole chain, and a further block leaves the head where it
is or moves it up. -/
theorem newestSafe_meets_spec (n : ℕ) (hn : 1 ≤ n) :
    SafeSpec (minDistinctSealers n) (fun chain => newestSafe chain n) ∧
      SafeSpec (minDistinctSealersWrapping n) (newestSafeAt (minDistinctSealersWrapping n)) := by
  constructor
  · exact newestSafeAt_safeSpec (minDistinctSealers_pos hn)
  · apply newestSafeAt_safeSpec
    unfold minDistinctSealersWrapping
    rw [if_neg (Nat.one_le_iff_ne_zero.mp hn)]
    exact Nat.succ_pos _

/-- A block of the sample chain. -/
def safeSampleBlock (number : ℕ) (miner : UInt8) : VerifiedBlock where
  number := number
  hash := .repeated 32 0
  stateRoot := .repeated 32 0
  miner := .repeated 20 miner
  milliTimestamp := 0
  gasLimit := 0
  header := none

/-- Two of the three validators have sealed above block 11. Their next block moves the head up. -/
theorem newestSafe_meets_spec_sample :
    let chain := [safeSampleBlock 10 1, safeSampleBlock 11 1, safeSampleBlock 12 2,
      safeSampleBlock 13 3]
    Consecutive (chain ++ [safeSampleBlock 14 2]) ∧ IsSafe 2 chain (safeSampleBlock 11 1) ∧
      ∃ head, newestSafe (chain ++ [safeSampleBlock 14 2]) 2 = some head ∧ 11 ≤ head.number := by
  intro chain
  have hgrown : Consecutive (chain ++ [safeSampleBlock 14 2]) := by
    simp [chain, Consecutive, safeSampleBlock]
  have hchain : Consecutive chain := by simp [chain, Consecutive, safeSampleBlock]
  have hsafe : newestSafe chain 2 = some (safeHeadAt 2 (safeSampleBlock 11 1)
    [safeSampleBlock 12 2, safeSampleBlock 13 3]) := by decide +kernel
  have hspec := (newestSafe_meets_spec 2 (by norm_num)).1
  obtain ⟨s, hs, hhead⟩ := (hspec.eq_some chain _ hchain).mp hsafe
  have hnumber : (11 : ℕ) = s.number := congrArg SafeHead.number hhead
  have heq : s = safeSampleBlock 11 1 := by
    have hmem := hs.mem
    simp only [chain, List.mem_cons, List.not_mem_nil, or_false] at hmem
    rcases hmem with rfl | rfl | rfl | rfl
    · cases hnumber
    · rfl
    · cases hnumber
    · cases hnumber
  refine ⟨hgrown, ?_, hspec.grown chain _ _ hgrown hsafe⟩
  rw [← heq]
  exact hs

end HeliosBsc
