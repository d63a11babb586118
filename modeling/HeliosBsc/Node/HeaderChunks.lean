import HeliosBsc.Lib.Loop
import HeliosBsc.Types.Bytes

/-!
# Header chunks

`bin/helios-bsc/src/upstream.rs`: a range of headers is asked for in batches of eight. Below the top of
`u64` the batches are a partition of the range; at the top the loop that cuts them overflows.
-/

namespace HeliosBsc

/-- What `a + b` does when it leaves `u64`: a build with overflow checks panics, one without wraps. -/
inductive Overflow where
  | panics
  | wraps
  deriving DecidableEq, Repr

/-- `a + b` in `u64`; `none` is a panic. -/
def Overflow.add (o : Overflow) (a b : ℕ) : Option ℕ :=
  match o with
  | panics => if a + b < u64Size then some (a + b) else none
  | wraps => some ((a + b) % u64Size)

theorem Overflow.add_of_lt (o : Overflow) {a b : ℕ} (h : a + b < u64Size) :
    o.add a b = some (a + b) := by
  cases o with
  | panics => exact if_pos h
  | wraps => exact congrArg some (Nat.mod_eq_of_lt h)

/-- The last number of a chunk, `n.saturating_add(7).min(to)`. -/
def chunkEnd (toBlock n : ℕ) : ℕ := min (satAdd n 7) toBlock

theorem chunkEnd_le (toBlock n : ℕ) : chunkEnd toBlock n ≤ toBlock := Nat.min_le_right _ _

theorem le_chunkEnd {toBlock n : ℕ} (h : n ≤ toBlock) (hto : toBlock < u64Size) :
    n ≤ chunkEnd toBlock n ∧ chunkEnd toBlock n < n + 8 := by
  unfold chunkEnd satAdd
  omega

/-- One round of the loop of `header_chunks`: the next number and the chunks so far. The loop leaves
with `none` where it panics. -/
def chunkTurn (o : Overflow) (toBlock : ℕ) (s : ℕ × List (ℕ × ℕ)) :
    Loop.Turn (ℕ × List (ℕ × ℕ)) (Option (List (ℕ × ℕ))) :=
  if s.1 ≤ toBlock then
    match o.add (chunkEnd toBlock s.1) 1 with
    | some n => .next (n, s.2 ++ [(s.1, chunkEnd toBlock s.1)])
    | none => .leave none
  else .leave (some s.2)

/-- `Upstream::header_chunks`: the call returns, or panics, with `r`. -/
def HeaderChunks (o : Overflow) (fromBlock toBlock : ℕ) (r : Option (List (ℕ × ℕ))) : Prop :=
  Loop.Leaves (chunkTurn o toBlock) (fromBlock, []) r

/-- The numbers of a chunk, in order. -/
def chunkNumbers (c : ℕ × ℕ) : List ℕ := List.range' c.1 (c.2 + 1 - c.1)

theorem mem_chunkNumbers {c : ℕ × ℕ} {n : ℕ} : n ∈ chunkNumbers c ↔ c.1 ≤ n ∧ n ≤ c.2 := by
  unfold chunkNumbers
  rw [List.mem_range'_1]
  omega

/-- Ranges of one to eight numbers, in ascending order and disjoint, that together are
`fromBlock..=toBlock`. -/
structure Partitions (fromBlock toBlock : ℕ) (chunks : List (ℕ × ℕ)) : Prop where
  size : ∀ c ∈ chunks, c.1 ≤ c.2 ∧ c.2 + 1 - c.1 ≤ 8
  ascending : chunks.Pairwise fun a b => a.2 < b.1
  union : ∀ n, (∃ c ∈ chunks, c.1 ≤ n ∧ n ≤ c.2) ↔ fromBlock ≤ n ∧ n ≤ toBlock

theorem Partitions.of_numbers {fromBlock toBlock : ℕ} {chunks : List (ℕ × ℕ)}
    (hsize : ∀ c ∈ chunks, c.1 ≤ c.2 ∧ c.2 + 1 - c.1 ≤ 8)
    (hnumbers : chunks.flatMap chunkNumbers = List.range' fromBlock (toBlock + 1 - fromBlock)) :
    Partitions fromBlock toBlock chunks where
  size := hsize
  ascending := by
    have hsorted : (chunks.flatMap chunkNumbers).Pairwise (· < ·) := by
      rw [hnumbers]
      exact List.pairwise_lt_range'
    have hpair := (List.pairwise_flatMap.mp hsorted).2
    refine hpair.imp_of_mem fun {a b} ha hb hab => ?_
    have hlast : a.2 ∈ chunkNumbers a := mem_chunkNumbers.mpr ⟨(hsize a ha).1, le_rfl⟩
    have hfirst : b.1 ∈ chunkNumbers b := mem_chunkNumbers.mpr ⟨le_rfl, (hsize b hb).1⟩
    exact hab a.2 hlast b.1 hfirst
  union := by
    intro n
    have hmem : n ∈ chunks.flatMap chunkNumbers ↔
        n ∈ List.range' fromBlock (toBlock + 1 - fromBlock) := by rw [hnumbers]
    rw [List.mem_flatMap, List.mem_range'_1] at hmem
    simp only [mem_chunkNumbers] at hmem
    rw [hmem]
    omega

/-- What the loop has cut off: the chunks so far spell out the numbers before the next one. -/
structure CutUpTo (fromBlock toBlock : ℕ) (s : ℕ × List (ℕ × ℕ)) : Prop where
  reached : fromBlock ≤ s.1 ∧ s.1 ≤ max fromBlock (toBlock + 1)
  size : ∀ c ∈ s.2, c.1 ≤ c.2 ∧ c.2 + 1 - c.1 ≤ 8
  numbers : s.2.flatMap chunkNumbers = List.range' fromBlock (s.1 - fromBlock)

section

variable {o : Overflow} {fromBlock toBlock : ℕ}

theorem chunkTurn_of_lt {s : ℕ × List (ℕ × ℕ)} (h : toBlock < s.1) :
    chunkTurn o toBlock s = .leave (some s.2) :=
  if_neg (Nat.not_le.mpr h)

theorem chunkTurn_of_le (hto : toBlock + 1 < u64Size) {s : ℕ × List (ℕ × ℕ)} (h : s.1 ≤ toBlock) :
    chunkTurn o toBlock s =
      .next (chunkEnd toBlock s.1 + 1, s.2 ++ [(s.1, chunkEnd toBlock s.1)]) := by
  have hadd : o.add (chunkEnd toBlock s.1) 1 = some (chunkEnd toBlock s.1 + 1) :=
    o.add_of_lt ((Nat.add_le_add_right (chunkEnd_le toBlock s.1) 1).trans_lt hto)
  unfold chunkTurn
  rw [if_pos h, hadd]

theorem CutUpTo.push {s : ℕ × List (ℕ × ℕ)} (hs : CutUpTo fromBlock toBlock s)
    (hto : toBlock < u64Size) (h : s.1 ≤ toBlock) :
    CutUpTo fromBlock toBlock
      (chunkEnd toBlock s.1 + 1, s.2 ++ [(s.1, chunkEnd toBlock s.1)]) where
  reached := by
    have hend := le_chunkEnd h hto
    have hle := chunkEnd_le toBlock s.1
    have hreached := hs.reached
    show fromBlock ≤ chunkEnd toBlock s.1 + 1 ∧
      chunkEnd toBlock s.1 + 1 ≤ max fromBlock (toBlock + 1)
    omega
  size := by
    have hend := le_chunkEnd h hto
    intro c hc
    rcases List.mem_append.mp hc with hc | hc
    · exact hs.size c hc
    · rw [List.mem_singleton.mp hc]
      show s.1 ≤ chunkEnd toBlock s.1 ∧ chunkEnd toBlock s.1 + 1 - s.1 ≤ 8
      omega
  numbers := by
    have hend := le_chunkEnd h hto
    have hreached := hs.reached.1
    have hlen : chunkEnd toBlock s.1 + 1 - fromBlock =
        (s.1 - fromBlock) + (chunkEnd toBlock s.1 + 1 - s.1) := by omega
    have hstart : fromBlock + (s.1 - fromBlock) = s.1 := by omega
    rw [List.flatMap_append, hs.numbers, List.flatMap_singleton]
    show _ ++ List.range' s.1 (chunkEnd toBlock s.1 + 1 - s.1) =
      List.range' fromBlock (chunkEnd toBlock s.1 + 1 - fromBlock)
    rw [hlen, ← List.range'_append_1, hstart]

/-- Below the top of `u64` the loop leaves, with chunks that spell out the range. -/
theorem exists_headerChunks (o : Overflow) (fromBlock : ℕ) (hto : toBlock + 1 < u64Size) :
    ∃ chunks, HeaderChunks o fromBlock toBlock (some chunks) ∧
      (∀ c ∈ chunks, c.1 ≤ c.2 ∧ c.2 + 1 - c.1 ≤ 8) ∧
      chunks.flatMap chunkNumbers = List.range' fromBlock (toBlock + 1 - fromBlock) := by
  have hto' : toBlock < u64Size := Nat.lt_of_succ_lt hto
  have hstart : CutUpTo fromBlock toBlock (fromBlock, []) :=
    ⟨⟨le_rfl, le_max_left _ _⟩, by simp, by simp⟩
  have hnext : ∀ s s', CutUpTo fromBlock toBlock s → chunkTurn o toBlock s = .next s' →
      CutUpTo fromBlock toBlock s' ∧ toBlock + 1 - s'.1 < toBlock + 1 - s.1 := by
    intro s s' hs hturn
    by_cases h : s.1 ≤ toBlock
    · rw [chunkTurn_of_le hto h] at hturn
      cases hturn
      have hend := le_chunkEnd h hto'
      refine ⟨hs.push hto' h, ?_⟩
      show toBlock + 1 - (chunkEnd toBlock s.1 + 1) < toBlock + 1 - s.1
      omega
    · rw [chunkTurn_of_lt (Nat.lt_of_not_le h)] at hturn
      cases hturn
  have hleave : ∀ s r, CutUpTo fromBlock toBlock s → chunkTurn o toBlock s = .leave r →
      ∃ chunks, r = some chunks ∧ (∀ c ∈ chunks, c.1 ≤ c.2 ∧ c.2 + 1 - c.1 ≤ 8) ∧
        chunks.flatMap chunkNumbers = List.range' fromBlock (toBlock + 1 - fromBlock) := by
    intro s r hs hturn
    by_cases h : s.1 ≤ toBlock
    · rw [chunkTurn_of_le hto h] at hturn
      cases hturn
    · rw [chunkTurn_of_lt (Nat.lt_of_not_le h)] at hturn
      cases hturn
      have hreached := hs.reached
      have hlen : s.1 - fromBlock = toBlock + 1 - fromBlock := by omega
      exact ⟨s.2, rfl, hs.size, hlen ▸ hs.numbers⟩
  obtain ⟨r, hr, chunks, rfl, hcut⟩ :=
    Loop.exists_leaves (fun s => toBlock + 1 - s.1) hnext hleave hstart
  exact ⟨chunks, hr, hcut⟩

theorem HeaderChunks.spec (hto : toBlock + 1 < u64Size) {chunks : List (ℕ × ℕ)}
    (h : HeaderChunks o fromBlock toBlock (some chunks)) :
    (∀ c ∈ chunks, c.1 ≤ c.2 ∧ c.2 + 1 - c.1 ≤ 8) ∧
      chunks.flatMap chunkNumbers = chunkNumbers (fromBlock, toBlock) := by
  obtain ⟨chunks', hchunks', hcut⟩ := exists_headerChunks o fromBlock hto
  cases Loop.Leaves.unique h hchunks'
  exact hcut

end

/-! ## The top of `u64` -/

section

variable {fromBlock toBlock : ℕ}

/-- With overflow checks, a call whose range ends at `u64::MAX` panics. -/
theorem headerChunks_panics (hfrom : fromBlock < u64Size) (hto : toBlock + 1 = u64Size) :
    HeaderChunks .panics fromBlock toBlock none := by
  have hstart : fromBlock ≤ toBlock := by omega
  have hnext : ∀ s s', s.1 ≤ toBlock → chunkTurn .panics toBlock s = .next s' →
      s'.1 ≤ toBlock ∧ toBlock + 1 - s'.1 < toBlock + 1 - s.1 := by
    intro s s' hs hturn
    have hend := le_chunkEnd hs (by omega)
    by_cases hadd : chunkEnd toBlock s.1 + 1 < u64Size
    · rw [chunkTurn, if_pos hs, Overflow.add, if_pos hadd] at hturn
      cases hturn
      show chunkEnd toBlock s.1 + 1 ≤ toBlock ∧
        toBlock + 1 - (chunkEnd toBlock s.1 + 1) < toBlock + 1 - s.1
      omega
    · rw [chunkTurn, if_pos hs, Overflow.add, if_neg hadd] at hturn
      cases hturn
  have hleave : ∀ s r, s.1 ≤ toBlock → chunkTurn .panics toBlock s = .leave r → r = none := by
    intro s r hs hturn
    unfold chunkTurn at hturn
    rw [if_pos hs] at hturn
    cases hadd : Overflow.add .panics (chunkEnd toBlock s.1) 1 with
    | some n =>
      rw [hadd] at hturn
      cases hturn
    | none =>
      rw [hadd] at hturn
      cases hturn
      rfl
  obtain ⟨r, hr, rfl⟩ :=
    Loop.exists_leaves (s := (fromBlock, [])) (fun s => toBlock + 1 - s.1) hnext hleave hstart
  exact hr

/-- Without them the number after `u64::MAX` is zero, and the call never returns. -/
theorem not_headerChunks_wraps (hfrom : fromBlock < u64Size) (hto : toBlock + 1 = u64Size)
    (r : Option (List (ℕ × ℕ))) : ¬ HeaderChunks .wraps fromBlock toBlock r := by
  have hstart : fromBlock ≤ toBlock := by omega
  refine Loop.not_leaves (I := fun s => s.1 ≤ toBlock) ?_ (s := (fromBlock, [])) hstart r
  intro s hs
  refine ⟨((chunkEnd toBlock s.1 + 1) % u64Size, s.2 ++ [(s.1, chunkEnd toBlock s.1)]), ?_, ?_⟩
  · unfold chunkTurn
    rw [if_pos hs]
    rfl
  · have hlt := Nat.mod_lt (chunkEnd toBlock s.1 + 1) u64Size_pos
    show (chunkEnd toBlock s.1 + 1) % u64Size ≤ toBlock
    omega

theorem not_headerChunks_some (o : Overflow) (hfrom : fromBlock < u64Size)
    (hto : toBlock + 1 = u64Size) (chunks : List (ℕ × ℕ)) :
    ¬ HeaderChunks o fromBlock toBlock (some chunks) := by
  cases o with
  | panics =>
    intro h
    have hnone := Loop.Leaves.unique h (headerChunks_panics hfrom hto)
    cases hnone
  | wraps => exact not_headerChunks_wraps hfrom hto (some chunks)

/-- A call returns a partition of its range, unless the range ends at `u64::MAX`. -/
theorem headerChunks_partition (o : Overflow) (hfrom : fromBlock < u64Size)
    (hto : toBlock < u64Size) :
    (∃ chunks, HeaderChunks o fromBlock toBlock (some chunks) ∧
      Partitions fromBlock toBlock chunks) ↔ toBlock ≠ u64Size - 1 := by
  constructor
  · rintro ⟨chunks, hchunks, -⟩ htop
    exact not_headerChunks_some o hfrom (by omega) chunks hchunks
  · intro htop
    have hbelow : toBlock + 1 < u64Size := by omega
    obtain ⟨chunks, hchunks, hsize, hnumbers⟩ := exists_headerChunks o fromBlock hbelow
    exact ⟨chunks, hchunks, .of_numbers hsize hnumbers⟩

theorem headerChunks_partition_twenty : ∃ chunks, HeaderChunks .wraps 1 20 (some chunks) ∧
    Partitions 1 20 chunks :=
  (headerChunks_partition .wraps (by rw [u64Size_eq]; norm_num) (by rw [u64Size_eq]; norm_num)).mpr
    (by rw [u64Size_eq]; norm_num)

/-- The newest 130 headers under a tip at `u64::MAX`: a panic, or a call that never returns. -/
theorem headerChunks_lookback_top :
    (∀ o, ¬ ∃ chunks, HeaderChunks o (u64Size - 130) (u64Size - 1) (some chunks) ∧
        Partitions (u64Size - 130) (u64Size - 1) chunks) ∧
      HeaderChunks .panics (u64Size - 130) (u64Size - 1) none ∧
      ∀ r, ¬ HeaderChunks .wraps (u64Size - 130) (u64Size - 1) r := by
  have hfrom : u64Size - 130 < u64Size := by rw [u64Size_eq]; norm_num
  have hto : u64Size - 1 + 1 = u64Size := by rw [u64Size_eq]; norm_num
  refine ⟨?_, headerChunks_panics hfrom hto, not_headerChunks_wraps hfrom hto⟩
  rintro o ⟨chunks, hchunks, -⟩
  exact not_headerChunks_some o hfrom hto chunks hchunks

end

end HeliosBsc
