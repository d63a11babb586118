import HeliosBsc.Consensus.Engine
import Mathlib.Data.Finset.Card

/-!
# The Safe head

`newest_safe` walks down from the tip and counts the miners it has not seen before. What it returns
is the newest block with enough distinct miners above it, so the Safe head of a chain that has only
grown at its tip and lost blocks at its far end is never older.
-/

namespace HeliosBsc

/-- How many miners have sealed the blocks. -/
def distinctSealers (blocks : List VerifiedBlock) : ℕ :=
  (blocks.map VerifiedBlock.miner).toFinset.card

theorem distinctSealers_mono {blocks more : List VerifiedBlock} (h : blocks ⊆ more) :
    distinctSealers blocks ≤ distinctSealers more := by
  apply Finset.card_le_card
  intro miner hm
  exact List.mem_toFinset.mpr (List.map_subset _ h (List.mem_toFinset.mp hm))

theorem distinctSealers_le_length (blocks : List VerifiedBlock) :
    distinctSealers blocks ≤ blocks.length :=
  (List.toFinset_card_le _).trans (List.length_map _).le

theorem distinctSealers_of_nodup {blocks : List VerifiedBlock}
    (h : (blocks.map VerifiedBlock.miner).Nodup) : distinctSealers blocks = blocks.length := by
  rw [distinctSealers, List.toFinset_card_of_nodup h, List.length_map]

theorem minDistinctSealers_pos {n : ℕ} (h : 0 < n) : 0 < minDistinctSealers n := by
  unfold minDistinctSealers
  rw [if_neg h.ne']
  exact Nat.succ_pos _

/-- `newer` stands above `s`, and it is the shortest end of the chain with `t` miners. -/
structure Confirmed (t : ℕ) (chain older : List VerifiedBlock) (s : VerifiedBlock)
    (newer : List VerifiedBlock) : Prop where
  split : chain = older ++ s :: newer
  reached : t ≤ distinctSealers newer
  shortest : distinctSealers newer.tail < t

/-- The head that names a block. -/
def safeHeadAt (t : ℕ) (s : VerifiedBlock) (newer : List VerifiedBlock) : SafeHead where
  number := s.number
  hash := hexPrefixed s.hash.val
  stateRoot := hexPrefixed s.stateRoot.val
  distinctSealers := distinctSealers newer
  requiredSealers := t

theorem suffix_tail_of_split {chain older newer : List VerifiedBlock} {s : VerifiedBlock}
    (hsplit : chain = older ++ s :: newer) : newer <:+ chain.tail := by
  rw [hsplit]
  cases older with
  | nil => exact List.suffix_rfl
  | cons b rest => exact ⟨rest ++ [s], by simp⟩

/-- Blocks of different miners confirm the block below them, and no fewer of them do. -/
theorem confirmed_of_nodup {older newer : List VerifiedBlock} (s : VerifiedBlock)
    (hne : newer ≠ []) (h : (newer.map VerifiedBlock.miner).Nodup) :
    Confirmed newer.length (older ++ s :: newer) older s newer := by
  refine ⟨rfl, (distinctSealers_of_nodup h).ge, ?_⟩
  have hpos := List.length_pos_of_ne_nil hne
  have hshorter := distinctSealers_le_length newer.tail
  rw [List.length_tail] at hshorter
  omega

namespace Confirmed

variable {t : ℕ} {chain older newer : List VerifiedBlock} {s : VerifiedBlock}

theorem newer_suffix (h : Confirmed t chain older s newer) : newer <:+ chain.tail :=
  suffix_tail_of_split h.split

theorem mem (h : Confirmed t chain older s newer) : s ∈ chain := by
  rw [h.split]
  exact List.mem_append_right _ List.mem_cons_self

theorem length_le (h : Confirmed t chain older s newer) {blocks : List VerifiedBlock}
    (hblocks : blocks <:+ chain) (hreached : t ≤ distinctSealers blocks) :
    newer.length ≤ blocks.length := by
  by_contra hlt
  have hnewer : newer.tail <:+ chain :=
    List.IsSuffix.trans (List.tail_suffix newer)
      (List.IsSuffix.trans h.newer_suffix (List.tail_suffix chain))
  have hsub : blocks <:+ newer.tail := by
    apply List.suffix_of_suffix_length_le hblocks hnewer
    rw [List.length_tail]
    omega
  have hmono := distinctSealers_mono hsub.subset
  have hshortest := h.shortest
  omega

/-- An end of the chain with enough miners, and none shorter, is the only one. -/
theorem unique (h : Confirmed t chain older s newer) {older' newer' : List VerifiedBlock}
    {s' : VerifiedBlock} (h' : Confirmed t chain older' s' newer') : s = s' ∧ newer = newer' := by
  have hle := h.length_le (List.IsSuffix.trans h'.newer_suffix (List.tail_suffix chain)) h'.reached
  have hge := h'.length_le (List.IsSuffix.trans h.newer_suffix (List.tail_suffix chain)) h.reached
  have hsplit : older ++ s :: newer = older' ++ s' :: newer' := h.split.symm.trans h'.split
  have hlength : (s :: newer).length = (s' :: newer').length :=
    congrArg (· + 1) (le_antisymm hle hge)
  exact List.cons_eq_cons.mp (List.append_inj_right' hsplit hlength)

end Confirmed

/-- The blocks above a height. -/
def blocksAbove (chain : List VerifiedBlock) (n : ℕ) : List VerifiedBlock :=
  chain.filter fun b => decide (n < b.number)

theorem blocksAbove_of_split {chain older newer : List VerifiedBlock} {s : VerifiedBlock}
    (hsplit : chain = older ++ s :: newer)
    (hnumbers : chain.Pairwise fun a b => a.number < b.number) :
    blocksAbove chain s.number = newer := by
  rw [hsplit, List.pairwise_append] at hnumbers
  obtain ⟨-, hcons, hcross⟩ := hnumbers
  have holder : older.filter (fun b => decide (s.number < b.number)) = [] := by
    rw [List.filter_eq_nil_iff]
    intro b hb hlt
    have hbelow := hcross b hb s List.mem_cons_self
    have habove := of_decide_eq_true hlt
    omega
  have hnewer : newer.filter (fun b => decide (s.number < b.number)) = newer := by
    rw [List.filter_eq_self]
    intro b hb
    exact decide_eq_true ((List.pairwise_cons.mp hcons).1 b hb)
  rw [blocksAbove, hsplit, List.filter_append, holder, List.nil_append,
    List.filter_cons_of_neg (by simp), hnewer]

theorem Confirmed.blocksAbove_eq {t : ℕ} {chain older newer : List VerifiedBlock}
    {s : VerifiedBlock} (h : Confirmed t chain older s newer)
    (hnumbers : chain.Pairwise fun a b => a.number < b.number) :
    blocksAbove chain s.number = newer :=
  blocksAbove_of_split h.split hnumbers

/-- The loop from the blocks `rest`, tip first, with the miners of the `newer` ones seen. -/
theorem newestSafeLoop_cases {t : ℕ} (rest newer : List VerifiedBlock) (seen : List Address)
    (hnodup : seen.Nodup) (hseen : seen.toFinset = (newer.map VerifiedBlock.miner).toFinset)
    (hbelow : distinctSealers newer < t) :
    (∃ older s above, Confirmed t (rest.reverse ++ newer) older s above ∧
      newestSafeLoop t rest seen = some (safeHeadAt t s above)) ∨
    (distinctSealers (rest.reverse ++ newer).tail < t ∧ newestSafeLoop t rest seen = none) := by
  induction rest generalizing newer seen with
  | nil =>
    have hmono := distinctSealers_mono (List.tail_subset newer)
    exact .inr ⟨hmono.trans_lt hbelow, rfl⟩
  | cons block rest ih =>
    obtain ⟨seen', hseen'⟩ : ∃ seen', seen' =
      if block.miner ∈ seen then seen else seen ++ [block.miner] := ⟨_, rfl⟩
    have hnodup' : seen'.Nodup := by
      rw [hseen']
      split
      · exact hnodup
      · next hnew =>
        rw [← List.concat_eq_append]
        exact hnodup.concat hnew
    have hminers : seen'.toFinset = ((block :: newer).map VerifiedBlock.miner).toFinset := by
      rw [List.map_cons, List.toFinset_cons, ← hseen, hseen']
      split
      · next hold => exact (Finset.insert_eq_self.mpr (List.mem_toFinset.mpr hold)).symm
      · rw [List.toFinset_append, List.toFinset_cons, List.toFinset_nil, insert_empty_eq,
          Finset.union_comm, Finset.singleton_union]
    have hcount : seen'.length = distinctSealers (block :: newer) := by
      rw [distinctSealers, ← hminers, List.toFinset_card_of_nodup hnodup']
    rw [newestSafeLoop, ← hseen']
    simp only [List.reverse_cons, List.append_assoc, List.singleton_append]
    split
    · next hreached =>
      rw [hcount] at hreached
      cases rest with
      | nil => exact .inr ⟨hbelow, rfl⟩
      | cons s rest =>
        refine .inl ⟨rest.reverse, s, block :: newer, ⟨by simp, hreached, hbelow⟩, ?_⟩
        rw [List.head?_cons, Option.map_some, hcount]
        rfl
    · next hopen =>
      rw [hcount, not_le] at hopen
      exact ih (block :: newer) seen' hnodup' hminers hopen

/-- `newest_safe` once it has computed its threshold. -/
def newestSafeAt (t : ℕ) (chain : List VerifiedBlock) : Option SafeHead :=
  if chain.length < 2 then none else newestSafeLoop t chain.reverse []

section

variable {t : ℕ} (ht : 0 < t)
include ht

/-- The spec of `newest_safe`: the newest block with enough miners above it, or too few miners above
the first block. -/
theorem newestSafeAt_cases (chain : List VerifiedBlock) :
    (∃ older s newer, Confirmed t chain older s newer ∧
      newestSafeAt t chain = some (safeHeadAt t s newer)) ∨
    (distinctSealers chain.tail < t ∧ newestSafeAt t chain = none) := by
  unfold newestSafeAt
  split
  · next hshort =>
    refine .inr ⟨?_, rfl⟩
    have htail := distinctSealers_le_length chain.tail
    rw [List.length_tail] at htail
    omega
  · have h := newestSafeLoop_cases chain.reverse [] [] List.nodup_nil rfl ht
    rwa [List.reverse_reverse, List.append_nil] at h

theorem newestSafeAt_eq_none {chain : List VerifiedBlock} :
    newestSafeAt t chain = none ↔ distinctSealers chain.tail < t := by
  rcases newestSafeAt_cases ht chain with ⟨older, s, newer, h, hr⟩ | ⟨hlt, hr⟩
  · rw [hr]
    have hmono := distinctSealers_mono h.newer_suffix.subset
    have hreached := h.reached
    constructor
    · rintro ⟨⟩
    · intro hlt
      omega
  · exact ⟨fun _ => hlt, fun _ => hr⟩

theorem confirmed_of_newestSafeAt {chain : List VerifiedBlock} {head : SafeHead}
    (h : newestSafeAt t chain = some head) :
    ∃ older s newer, Confirmed t chain older s newer ∧ head = safeHeadAt t s newer := by
  rcases newestSafeAt_cases ht chain with ⟨older, s, newer, hc, hr⟩ | ⟨-, hr⟩
  · rw [h] at hr
    exact ⟨older, s, newer, hc, Option.some.inj hr⟩
  · rw [h] at hr
    cases hr

end

theorem newestSafeAt_of_confirmed {t : ℕ} {chain older newer : List VerifiedBlock}
    {s : VerifiedBlock} (ht : 0 < t) (h : Confirmed t chain older s newer) :
    newestSafeAt t chain = some (safeHeadAt t s newer) := by
  rcases newestSafeAt_cases ht chain with ⟨older', s', newer', h', hr⟩ | ⟨hlt, -⟩
  · obtain ⟨rfl, rfl⟩ := h.unique h'
    exact hr
  · have hmono := distinctSealers_mono h.newer_suffix.subset
    have hreached := h.reached
    omega

theorem newestSafe_cases (chain : List VerifiedBlock) {n : ℕ} (hn : 0 < n) :
    (∃ older s newer, Confirmed (minDistinctSealers n) chain older s newer ∧
      newestSafe chain n = some (safeHeadAt (minDistinctSealers n) s newer)) ∨
    (distinctSealers chain.tail < minDistinctSealers n ∧ newestSafe chain n = none) :=
  newestSafeAt_cases (minDistinctSealers_pos hn) chain

theorem newestSafe_eq_none {chain : List VerifiedBlock} {n : ℕ} (hn : 0 < n) :
    newestSafe chain n = none ↔ distinctSealers chain.tail < minDistinctSealers n :=
  newestSafeAt_eq_none (minDistinctSealers_pos hn)

theorem confirmed_of_newestSafe {chain : List VerifiedBlock} {n : ℕ} (hn : 0 < n)
    {head : SafeHead} (h : newestSafe chain n = some head) :
    ∃ older s newer, Confirmed (minDistinctSealers n) chain older s newer ∧
      head = safeHeadAt (minDistinctSealers n) s newer :=
  confirmed_of_newestSafeAt (minDistinctSealers_pos hn) h

theorem newestSafeLoop_required {t : ℕ} {rest : List VerifiedBlock} {seen : List Address}
    {head : SafeHead} (h : newestSafeLoop t rest seen = some head) : head.requiredSealers = t := by
  induction rest generalizing seen with
  | nil => cases h
  | cons block rest ih =>
    rw [newestSafeLoop] at h
    generalize (if block.miner ∈ seen then seen else seen ++ [block.miner]) = seen' at h
    split at h
    · obtain ⟨s, -, rfl⟩ := Option.map_eq_some_iff.mp h
      rfl
    · exact ih h

theorem newestSafe_required {chain : List VerifiedBlock} {n : ℕ} {head : SafeHead}
    (h : newestSafe chain n = some head) : head.requiredSealers = minDistinctSealers n := by
  unfold newestSafe at h
  split at h
  · cases h
  · exact newestSafeLoop_required h

/-- A chain that has grown at the tip and may have lost blocks at its far end has no older Safe
head. -/
theorem newestSafeAt_mono {chain more chain' : List VerifiedBlock} {t : ℕ} (ht : 0 < t)
    (hkept : chain' <:+ chain ++ more)
    (hnumbers : (chain ++ more).Pairwise fun a b => a.number < b.number) {head head' : SafeHead}
    (h : newestSafeAt t chain = some head) (h' : newestSafeAt t chain' = some head') :
    head.number ≤ head'.number := by
  obtain ⟨older, s, newer, hc, rfl⟩ := confirmed_of_newestSafeAt ht h
  obtain ⟨older', s', newer', hc', rfl⟩ := confirmed_of_newestSafeAt ht h'
  change s.number ≤ s'.number
  have hwhole : chain ++ more = older ++ s :: (newer ++ more) := by
    rw [hc.split, List.append_assoc, List.cons_append]
  have hend : s' :: newer' <:+ chain ++ more :=
    List.IsSuffix.trans ⟨older', hc'.split.symm⟩ hkept
  -- what stood above the old head is enough for the new one to stand no lower
  have hlength : newer'.length ≤ (newer ++ more).length := by
    by_contra hlt
    have hblocks : newer ++ more <:+ newer' := by
      apply List.suffix_of_suffix_length_le ⟨older ++ [s], by rw [hwhole]; simp⟩
        (List.IsSuffix.trans (List.suffix_cons s' newer') hend)
      omega
    have hreached := hc.reached.trans
      (distinctSealers_mono (List.subset_append_left newer more))
    have hchain' : newer ++ more <:+ chain' :=
      List.IsSuffix.trans hblocks
        (List.IsSuffix.trans hc'.newer_suffix (List.tail_suffix chain'))
    exact hlt (hc'.length_le hchain' hreached)
  have hmem : s' ∈ s :: (newer ++ more) := by
    have hsub : s' :: newer' <:+ s :: (newer ++ more) := by
      apply List.suffix_of_suffix_length_le hend ⟨older, hwhole.symm⟩
      rw [List.length_cons, List.length_cons]
      omega
    exact hsub.subset List.mem_cons_self
  rw [hwhole, List.pairwise_append] at hnumbers
  rcases List.mem_cons.mp hmem with rfl | hnew
  · exact le_rfl
  · exact ((List.pairwise_cons.mp hnumbers.2.1).1 s' hnew).le

theorem newestSafe_mono {chain more chain' : List VerifiedBlock} {n : ℕ} (hn : 0 < n)
    (hkept : chain' <:+ chain ++ more)
    (hnumbers : (chain ++ more).Pairwise fun a b => a.number < b.number) {head head' : SafeHead}
    (h : newestSafe chain n = some head) (h' : newestSafe chain' n = some head') :
    head.number ≤ head'.number :=
  newestSafeAt_mono (minDistinctSealers_pos hn) hkept hnumbers h h'

end HeliosBsc
