import HeliosBsc.Node.ReadHead

/-!
# The Safe threshold

`safe_of` asks for the miners that a set of `mainnet_n_seal` validators needs, the engine for those
that the set in force needs. The two agree as long as the set has the size the constant is for.
-/

namespace HeliosBsc

variable {P : Primitives}

/-- How a chain with a snapshot begins: as an engine built from a checkpoint, or as the walk from a
checkpoint returns it, on an answer that does not overflow. -/
inductive Synced.Begun (P : Primitives) : Synced → Prop
  | engine {cp : Checkpoint} {header : RpcBlockHeader} {now : ℕ} {e : LightEngine} :
      LightEngine.fromCheckpointAndHeader P cp header now = .ok e → Synced.Begun P e.synced
  | walked {headerByNumber : HeaderByNumber} {headersRange : HeadersRange} {cp : Checkpoint}
      {toBlock maxSync : ℕ} {enforce : Bool} {st : Synced}
      (hunwrapped : headersRange.Unwrapped toBlock) :
      walkFromCheckpointInturn P headerByNumber headersRange cp toBlock maxSync enforce = .ok st →
      Synced.Begun P st

theorem Synced.Begun.linked {st : Synced} (h : st.Begun P) : st.Linked := by
  cases h with
  | engine he => exact LightEngine.linked_of_ok he
  | walked hunwrapped h => exact (walkFromCheckpointInturn_linked h hunwrapped).1

/-- Only sets of 21 and 22 validators need as many miners as the constant. -/
theorem minDistinctSealers_eq_mainnet {n : ℕ} :
    minDistinctSealers n = minDistinctSealers mainnetNSeal ↔ n = 21 ∨ n = 22 := by
  have hmainnet : minDistinctSealers mainnetNSeal = 15 := by decide
  rw [hmainnet]
  unfold minDistinctSealers
  split <;> omega

theorem newestSafe_congr {n m : ℕ} (h : minDistinctSealers n = minDistinctSealers m)
    (chain : List VerifiedBlock) : newestSafe chain n = newestSafe chain m := by
  unfold newestSafe
  rw [h]

/-- Without validators the threshold is zero, and one block above is enough. -/
theorem newestSafe_zero_ne_none {chain : List VerifiedBlock} (h : 2 ≤ chain.length) :
    newestSafe chain 0 ≠ none := by
  unfold newestSafe
  rw [if_neg (Nat.not_lt.mpr h)]
  obtain ⟨tip, older, hreverse⟩ : ∃ tip older, chain.reverse = tip :: older := by
    apply List.exists_cons_of_length_pos
    rw [List.length_reverse]
    omega
  cases older with
  | nil =>
    have hlength := congrArg List.length hreverse
    rw [List.length_reverse, List.length_singleton] at hlength
    omega
  | cons s older =>
    rw [hreverse, newestSafeLoop]
    simp [minDistinctSealers]

theorem newestSafe_agree_iff {chain : List VerifiedBlock} {n m : ℕ} (hm : 0 < m) :
    (∀ safe, newestSafe chain m = some safe ↔ newestSafe chain n = some safe) ↔
      minDistinctSealers n = minDistinctSealers m ∨ chain.length < 2 ∨
        distinctSealers chain.tail < min (minDistinctSealers n) (minDistinctSealers m) := by
  constructor
  · intro h
    rcases newestSafe_cases chain hm with ⟨older, s, newer, -, hr⟩ | ⟨hlt, hr⟩
    · -- both name a block, so they name the same threshold
      have hn := newestSafe_required ((h _).mp hr)
      exact .inl (hn.symm.trans (newestSafe_required hr))
    · have hnone : newestSafe chain n = none := by
        cases hn : newestSafe chain n with
        | none => rfl
        | some safe =>
          rw [(h safe).mpr hn] at hr
          cases hr
      rcases Nat.eq_zero_or_pos n with rfl | hpos
      · by_contra hcond
        simp only [not_or, not_lt] at hcond
        exact newestSafe_zero_ne_none hcond.2.1 hnone
      · exact .inr (.inr (lt_min ((newestSafe_eq_none hpos).mp hnone) hlt))
  · rintro (heq | hshort | hfew) safe
    · rw [newestSafe_congr heq]
    · unfold newestSafe
      rw [if_pos hshort, if_pos hshort]
    · rcases Nat.eq_zero_or_pos n with rfl | hpos
      · exact absurd hfew (by simp [minDistinctSealers])
      · obtain ⟨hn, hm'⟩ := lt_min_iff.mp hfew
        rw [(newestSafe_eq_none hpos).mpr hn, (newestSafe_eq_none hm).mpr hm']

/-- Over every run of appends from a checkpoint whose heights do not overflow, with any number of
validators and any switches of the set: the blocks above what `safe_of` returns are always sealed by
as many miners as the set in force needs, and `safe_of` is the rule of the engine, exactly where the
set has 21 or 22 validators or where the chain above its first block has too few miners for either
rule. -/
theorem safe_threshold_iff {start : Synced} (hstart : start.Begun P) {calls : List AppendCall}
    (hunwrapped : ∀ call ∈ calls, call.Unwrapped) :
    let st := Machine.run (appendStep P) start calls
    let nSeal := st.snapshot.nSeal
    ((∀ safe, safeOf st.chain = .ok safe →
        minDistinctSealers nSeal ≤ distinctSealers (blocksAbove st.chain safe.number)) ∧
      ∀ safe, safeOf st.chain = .ok safe ↔ newestSafe st.chain nSeal = some safe) ↔
    (nSeal = 21 ∨ nSeal = 22 ∨ st.chain.length < 2 ∨
      distinctSealers st.chain.tail <
        min (minDistinctSealers nSeal) (minDistinctSealers mainnetNSeal)) := by
  intro st nSeal
  obtain ⟨more, hext⟩ := hstart.linked.run (P := P) hunwrapped
  have hnumbers := pairwise_number (hext.toLinked hstart.linked).chain
  have hagree := @newestSafe_agree_iff st.chain nSeal mainnetNSeal mainnetNSeal_pos
  rw [minDistinctSealers_eq_mainnet, or_assoc] at hagree
  rw [← hagree]
  simp only [safeOf_eq_ok]
  constructor
  · exact And.right
  · intro h
    refine ⟨?_, h⟩
    intro safe hsafe
    rcases Nat.eq_zero_or_pos nSeal with hzero | hpos
    · rw [hzero]
      exact Nat.zero_le _
    · obtain ⟨older, s, newer, hc, rfl⟩ := confirmed_of_newestSafe hpos ((h safe).mp hsafe)
      change _ ≤ distinctSealers (blocksAbove st.chain s.number)
      rw [hc.blocksAbove_eq hnumbers]
      exact hc.reached

/-- With twenty-two of the pool in the set, after sixteen blocks of sixteen of them, both rules return
the same head. -/
theorem safe_threshold_iff_pool : ∃ (start : Synced) (calls : List AppendCall),
    start.Begun mockPrimitives ∧ (∀ call ∈ calls, call.Unwrapped) ∧
    let st := Machine.run (appendStep mockPrimitives) start calls
    st.snapshot.nSeal = 22 ∧ ∃ safe, safeOf st.chain = .ok safe ∧
      newestSafe st.chain st.snapshot.nSeal = some safe ∧
      minDistinctSealers st.snapshot.nSeal ≤
        distinctSealers (blocksAbove st.chain safe.number) := by
  have hlength : (poolMembers.take 22).length = 22 := by
    rw [List.length_take, length_poolMembers]
    rfl
  have hsixteen : poolMembers.take 16 ⊆ poolMembers.take 22 :=
    (List.take_subset_take_left poolMembers (by norm_num))
  obtain ⟨cp, headerByNumber, headersRange, start, call, hwalk, hunwrapped, hcalls, genesis, blocks, s,
    hcall, hsealers, hcount⟩ := exists_sealed_of_members
      (nodup_poolMembers.sublist (List.take_sublist 22 _)) (by rw [hlength]; norm_num) hsixteen
  have hbegun : start.Begun mockPrimitives := .walked hunwrapped hwalk
  rw [← List.forall_mem_singleton (p := AppendCall.Unwrapped)] at hcalls
  have hrun : Machine.run (appendStep mockPrimitives) start [call] = ⟨genesis :: blocks, s⟩ := by
    rw [Machine.run_cons, Machine.run_nil, hcall]
  have hset : s.nSeal = 22 := by
    rw [Snapshot.nSeal, hcount, hlength]
    norm_num
  obtain ⟨hcovered, hagree⟩ := (safe_threshold_iff hbegun hcalls).mpr (.inr (.inl (by rw [hrun, hset])))
  obtain ⟨safe, hsafe⟩ : ∃ safe, safeOf (genesis :: blocks) = .ok safe := by
    rcases newestSafe_cases (genesis :: blocks) mainnetNSeal_pos with
      ⟨older, b, newer, -, hr⟩ | ⟨hlt, -⟩
    · exact ⟨_, safeOf_eq_ok.mpr hr⟩
    · rw [List.tail_cons, hsealers] at hlt
      exact absurd hlt (by decide)
  rw [← show (Machine.run (appendStep mockPrimitives) start [call]).chain = genesis :: blocks by
    rw [hrun]] at hsafe
  exact ⟨start, [call], hbegun, hcalls, by rw [hrun, hset], safe, hsafe, (hagree safe).mp hsafe,
    hcovered safe hsafe⟩

/-- Twenty-four validators need seventeen miners. After sixteen blocks of sixteen of them `safe_of`
returns a head all the same. -/
theorem safe_threshold_not_followed : ∃ (start : Synced) (calls : List AppendCall),
    start.Begun mockPrimitives ∧ (∀ call ∈ calls, call.Unwrapped) ∧
    let st := Machine.run (appendStep mockPrimitives) start calls
    newestSafe st.chain st.snapshot.nSeal = none ∧
    ∃ safe, safeOf st.chain = .ok safe ∧
      distinctSealers (blocksAbove st.chain safe.number) <
        minDistinctSealers st.snapshot.nSeal := by
  obtain ⟨cp, headerByNumber, headersRange, start, call, hwalk, hunwrapped, hcalls, genesis, blocks, s,
    hcall, hsealers, hcount⟩ := exists_pool_sealed
  have hbegun : start.Begun mockPrimitives := .walked hunwrapped hwalk
  rw [← List.forall_mem_singleton (p := AppendCall.Unwrapped)] at hcalls
  have hrun : Machine.run (appendStep mockPrimitives) start [call] = ⟨genesis :: blocks, s⟩ := by
    rw [Machine.run_cons, Machine.run_nil, hcall]
  obtain ⟨more, hext⟩ := hbegun.linked.run (P := mockPrimitives) hcalls
  have hnumbers := pairwise_number (hext.toLinked hbegun.linked).chain
  have hset : s.nSeal = 24 := by
    rw [Snapshot.nSeal, hcount]
    norm_num
  refine ⟨start, [call], hbegun, hcalls, ?_⟩
  rw [hrun] at hnumbers ⊢
  simp only [hset]
  have hneeded : minDistinctSealers 24 = 17 := by decide
  constructor
  · rw [newestSafe_eq_none (by norm_num), List.tail_cons, hsealers, hneeded]
    norm_num
  · rcases newestSafe_cases (genesis :: blocks) mainnetNSeal_pos with
      ⟨older, b, newer, hc, hr⟩ | ⟨hlt, -⟩
    · refine ⟨_, safeOf_eq_ok.mpr hr, ?_⟩
      have hmono := distinctSealers_mono hc.newer_suffix.subset
      rw [List.tail_cons, hsealers] at hmono
      change distinctSealers (blocksAbove (genesis :: blocks) b.number) < _
      rw [hc.blocksAbove_eq hnumbers, hneeded]
      omega
    · rw [List.tail_cons, hsealers] at hlt
      exact absurd hlt (by decide)

end HeliosBsc
