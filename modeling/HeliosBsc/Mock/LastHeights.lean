import HeliosBsc.Mock.Pool

/-!
# A chain past the last height

The pool's validators seal across `u64::MAX`. The height of the next header is a plain `u64` sum,
which wraps around in a release build, so the block after the last height has height `0`, and the
node appends it.
-/

namespace HeliosBsc

open Checked

variable {P : Primitives}

/-- The heights from the last but one on. -/
def lastHeight : ℕ → ℕ
  | 0 => u64Size - 2
  | 1 => u64Size - 1
  | k + 2 => k

theorem wrapSucc_lastHeight {k : ℕ} (hk : k < 24) : wrapSucc (lastHeight k) = lastHeight (k + 1) := by
  have hsize := u64Size_eq
  rcases k with _ | _ | k
  · change wrapSucc (u64Size - 2) = u64Size - 1
    rw [wrapSucc_of_lt (by omega)]
    omega
  · exact if_pos rfl
  · change wrapSucc k = k + 1
    exact wrapSucc_of_lt (by omega)

theorem lastHeight_lt {k : ℕ} (hk : k < 26) : lastHeight k < u64Size := by
  have hsize := u64Size_eq
  rcases k with _ | _ | k
  · exact Nat.sub_lt u64Size_pos (by norm_num)
  · exact Nat.sub_lt u64Size_pos (by norm_num)
  · change k < u64Size
    omega

/-- Block `0` is the only epoch block of these. -/
theorem lastHeight_mod {k : ℕ} (hk : k < 24) :
    lastHeight (k + 1) % maxwellEpochLength = 0 ↔ k = 1 := by
  have hlength : maxwellEpochLength = 1000 := rfl
  rw [hlength]
  rcases k with _ | _ | k
  · change (u64Size - 1) % 1000 = 0 ↔ 0 = 1
    rw [u64Size_eq]
    decide
  · change 0 % 1000 = 0 ↔ 0 + 1 = 1
    decide
  · change (k + 1) % 1000 = 0 ↔ k + 2 = 1
    omega

/-- The milliseconds of the block at a height. -/
def milliAt (k : ℕ) : ℕ := 1770000000000 + 1000 * k

theorem milliAt_era {k : ℕ} (hk : k < 24) : maxwellTime ≤ milliAt (k + 1) / 1000 ∧
    lorentzTime * 1000 ≤ milliAt (k + 1) ∧ milliAt (k + 1) < u64Size := by
  have hmaxwell : maxwellTime * 1000 ≤ 1770000000000 := by decide
  have hlorentz : lorentzTime * 1000 ≤ 1770000000000 := by decide
  have hsize := u64Size_eq
  refine ⟨(Nat.le_div_iff_mul_le (by norm_num)).mpr ?_, ?_, ?_⟩
  · exact hmaxwell.trans (Nat.le_add_right _ _)
  · exact hlorentz.trans (Nat.le_add_right _ _)
  · unfold milliAt
    omega

/-- The snapshot of `members` at one of these heights, of whom `used` have sealed. -/
structure Snapshot.LastPool (members used : List Address) (k : ℕ) (s : Snapshot) : Prop
    extends Snapshot.Members members used s where
  number : s.number = lastHeight k
  walkStart : s.walkStart = u64Size - 1
  attestation : s.attestation = none
  pending : ∀ p, s.pending = some p → 2 ≤ k ∧ 25 ≤ p.activateAt

/-- The next block of a validator, with an epoch's records in block `0`. -/
def lastDraft (s : Snapshot) (signer : Address) (k : ℕ) : Draft where
  number := lastHeight (k + 1)
  parent := s.hash
  milli := milliAt (k + 1)
  stateRoot := .repeated 32 0
  difficulty := s.expectedDifficulty signer
  mid := if k = 1 then soleRecords 1 8 else []

namespace Snapshot.LastPool

variable {members used : List Address} {k : ℕ} {s : Snapshot}

theorem ready (h : s.LastPool members used k) (hk : k < 24) {sk : SecretKey P}
    (hmember : sk.address ∈ members) (hfresh : sk.address ∉ used) : ∃ fee vals turn,
    Snapshot.Ready sk s (lastDraft s sk.address k) fee vals turn := by
  obtain ⟨htime, hmilli⟩ := milliAt_era hk
  have hepochLength : (paramsAt (lastHeight (k + 1)) (milliAt (k + 1) / 1000)).epochLength =
      maxwellEpochLength := (paramsAt_of_maxwell _ htime).1
  have hmod := lastHeight_mod hk
  refine ⟨if k = 0 then some (hexQuantity 0) else none,
    if k = 1 then [⟨(mockKey 1).address, .repeated 48 1⟩] else [],
    if k = 1 then some 8 else none, ⟨lastHeight_lt (by omega), hmilli, ?_, ?_⟩, ?_, ?_, ?_, rfl,
    h.validators _ hmember, rfl, h.not_signRecently hfresh _, .inr (h.known_eq_false ?_ _), ?_, ?_⟩
  · change s.expectedDifficulty sk.address = _ ∨ s.expectedDifficulty sk.address = _
    unfold expectedDifficulty
    split
    · exact .inr rfl
    · exact .inl rfl
  · change (if k = 1 then soleRecords 1 8 else []).length ≤ 100000
    split
    · exact length_soleRecords (by norm_num) 8
    · exact Nat.zero_le _
  · change (lastDraft s sk.address k).LaidOutBy
      (paramsAt (lastHeight (k + 1)) (milliAt (k + 1) / 1000)).epochLength
    rw [hepochLength]
    by_cases hone : k = 1
    · exact .inr ⟨_, _, _, if_pos hone, by simp, by simp, by simp, by norm_num, by decide⟩
    · exact .inl fun hz => hone (hmod.mp hz)
  · have hsize := u64Size_eq
    have hlondon : londonBlock ≤ 18446744073709551615 := by decide
    have hgenesis : 24 ≤ londonBlock := by decide
    by_cases hzero : k = 0
    · refine .inl ⟨if_pos hzero, ?_⟩
      subst hzero
      change londonBlock ≤ u64Size - 1
      omega
    · refine .inr ⟨if_neg hzero, ?_⟩
      obtain ⟨j, rfl⟩ := Nat.exists_eq_succ_of_ne_zero hzero
      change j < londonBlock
      omega
  · change lastHeight (k + 1) = wrapSucc s.number
    rw [h.number, wrapSucc_lastHeight hk]
  · have hsize := u64Size_eq
    have hlt := lastHeight_lt (show k < 26 by omega)
    rw [h.number, h.walkStart]
    omega
  · change (lastDraft s sk.address k).Carries (decide (lastHeight (k + 1) % s.epochLength = 0)) _ _ _
    rw [h.epoch]
    by_cases hone : k = 1
    · rw [decide_eq_true (hmod.mpr hone), if_pos hone, if_pos hone]
      exact Draft.carries_epoch (if_pos hone) (by simp) (by simp) (by norm_num)
    · have hmid : (lastDraft s sk.address k).mid = [] := if_neg hone
      rw [decide_eq_false (fun hz => hone (hmod.mp hz)), if_neg hone, if_neg hone, ← hmid]
      exact Draft.carries_plain _
  · intro hz
    change lastHeight (k + 1) % s.epochLength = 0 at hz
    rw [h.epoch, hmod] at hz
    rw [if_pos hz]
    exact List.cons_ne_nil _ _

/-- Block `0` announces a set that is not installed here, and no vote is adopted. -/
theorem next (h : s.LastPool members used k) (hk : k < 24) {signer : Address} {l : Link} {b : Body}
    {milli : ℕ} (hl : l.number = lastHeight (k + 1))
    (hflag : b.isEpoch = decide (lastHeight (k + 1) % s.epochLength = 0))
    (hadopted : b.adopted = none) :
    (s.next signer l b milli).LastPool members (signer :: used) (k + 1) := by
  rw [h.epoch] at hflag
  have hduring : ∀ p, s.pendingDuring l b = some p → 2 ≤ k + 1 ∧ 25 ≤ p.activateAt ∧
      l.number ≠ p.activateAt := by
    intro p hp
    unfold pendingDuring at hp
    by_cases hone : k = 1
    · subst hone
      rw [hflag, decide_eq_true ((lastHeight_mod hk).mpr rfl), if_pos rfl, Option.some.injEq] at hp
      have hzero : l.number = 0 := hl
      have hdelay := h.delay_bounds
      have hactivate : p.activateAt = s.delay := by
        rw [← hp, nextPending, hzero]
        refine (wrapAdd_of_lt ?_).trans (Nat.zero_add _)
        rw [Nat.zero_add]
        exact Draft.small_lt_u64Size hdelay.2
      refine ⟨le_rfl, ?_, ?_⟩
      · rw [hactivate]
        exact hdelay.1
      · omega
    · rw [hflag, decide_eq_false (fun hz => hone ((lastHeight_mod hk).mp hz))] at hp
      obtain ⟨hlate, hactivate⟩ := h.pending p hp
      obtain ⟨j, rfl⟩ := Nat.exists_eq_add_of_le' hlate
      have hj : l.number = j + 1 := hl
      exact ⟨by omega, hactivate, by omega⟩
  rcases s.next_sets signer l b milli with ⟨p, hp, hat, -⟩ | ⟨-, -, -, -, hvals, hturn, hpend⟩
  · exact absurd hat (hduring p hp).2.2
  · refine ⟨h.toMembers.next hvals hturn, hl, ?_, ?_, ?_⟩
    · rw [next_walkStart]
      exact h.walkStart
    · rw [next_attestation_of_none hadopted]
      exact h.attestation
    · intro p hp
      rw [hpend] at hp
      exact ⟨(hduring p hp).1, (hduring p hp).2.1⟩

end Snapshot.LastPool

/-- A chain of these blocks, each sealed by another of `members`. -/
structure Synced.LastPool (members used : List Address) (k : ℕ) (st : Synced) : Prop where
  snapshot : st.snapshot.LastPool members used k
  numbers : st.chain.map VerifiedBlock.number = (List.range (k + 1)).map lastHeight
  miners : st.chain.tail.map VerifiedBlock.miner = used.reverse
  tip : ∃ b, st.chain.getLast? = some b ∧ b.milliTimestamp = milliAt k ∧ b.gasLimit = mockGasLimit

namespace Synced.LastPool

variable {members used : List Address} {k : ℕ} {st : Synced}

theorem append (h : st.LastPool members used k) (hk : k < 24) {sk : SecretKey P}
    (hmember : sk.address ∈ members) (hfresh : sk.address ∉ used) :
    ∃ call block s, appendHeader P st call = (.ok (), ⟨st.chain ++ [block], s⟩) ∧
      block.miner = sk.address ∧
      Synced.LastPool members (sk.address :: used) (k + 1) ⟨st.chain ++ [block], s⟩ := by
  obtain ⟨fee, vals, turn, hready⟩ := h.snapshot.ready hk hmember hfresh
  obtain ⟨prev, hprev, hmilli, hgas⟩ := h.tip
  have hlater : prev.milliTimestamp + 1000 ≤ (lastDraft st.snapshot sk.address k).milli := by
    change prev.milliTimestamp + 1000 ≤ milliAt (k + 1)
    rw [hmilli, milliAt, milliAt]
    omega
  obtain ⟨call, block, l, b, happend, hl, hflag, hadopted, hnumber, hminer, hblockMilli,
    hblockGas⟩ := appendHeader_of_ready hready (milliAt_era hk).1 hprev hlater hgas
  refine ⟨call, block, _, happend, hminer, h.snapshot.next hk hl hflag hadopted, ?_, ?_, block,
    List.getLast?_concat, hblockMilli, hblockGas⟩
  · rw [List.map_append, h.numbers, List.range_succ (n := k + 1), List.map_append]
    simp [hnumber, lastDraft]
  · have hne : st.chain ≠ [] := by
      intro hnil
      rw [hnil] at hprev
      cases hprev
    rw [List.tail_append_of_ne_nil hne, List.map_append, h.miners, List.reverse_cons]
    simp [hminer]

theorem length_chain (h : st.LastPool members used k) : st.chain.length = k + 1 := by
  rw [← List.length_map, h.numbers, List.length_map, List.length_range]

theorem lastNumber_eq (h : st.LastPool members used k) : lastNumber st.chain = lastHeight k := by
  have hlast : (st.chain.map VerifiedBlock.number).getLast? = some (lastHeight k) := by
    rw [h.numbers, List.range_succ, List.map_append]
    exact List.getLast?_concat
  unfold lastNumber
  rw [← List.getLast?_map, hlast]
  rfl

theorem call {k : ℕ} {st : Synced}
    (h : st.LastPool poolMembers (poolMembers.take k).reverse k) {m newTip : ℕ} (hkm : k ≤ m)
    (hm : m ≤ 24) (htip : lastHeight k < newTip) : ∃ headersRange st',
    appendSynced mockPrimitives headersRange st newTip = (.ok (), st') ∧
      st'.LastPool poolMembers (poolMembers.take m).reverse m := by
  have hcount : ((poolKeys.take m).drop k).length = m - k := by
    rw [List.length_drop, List.length_take, poolKeys, List.length_map, List.length_range]
    omega
  have haddresses : ((poolKeys.take m).drop k).map SecretKey.address =
      (poolMembers.take m).drop k := by
    rw [List.map_drop, List.map_take, poolMembers]
  have hparts : poolMembers.take k ++ (poolMembers.take m).drop k = poolMembers.take m := by
    have htake : poolMembers.take k = (poolMembers.take m).take k := by
      rw [List.take_take, Nat.min_eq_left hkm]
    rw [htake, List.take_append_drop]
  have hnodup : (poolMembers.take k ++ (poolMembers.take m).drop k).Nodup := by
    rw [hparts]
    exact nodup_poolMembers.sublist (List.take_sublist _ _)
  obtain ⟨-, hnext, hdisjoint⟩ := List.nodup_append.mp hnodup
  have hmem : ∀ sk ∈ (poolKeys.take m).drop k, sk.address ∈ (poolMembers.take m).drop k :=
    fun sk hk => haddresses ▸ List.mem_map_of_mem hk
  obtain ⟨calls, blocks, s, -, happend, -, hst'⟩ := @appendHeaders_of_append _ _
    (fun k used st => Synced.LastPool poolMembers used k st) (fun hpool hk hin hnew =>
      hpool.append hk hin hnew) _ _ _ h ((poolKeys.take m).drop k) (by rw [hcount]; omega)
    (fun sk hk => List.mem_of_mem_take (List.mem_of_mem_drop (hmem sk hk)))
    (by rw [haddresses]; exact hnext)
    (fun sk hk hused => hdisjoint _ (List.mem_reverse.mp hused) _ (hmem sk hk) rfl)
  rw [haddresses, ← List.reverse_append, hparts, hcount, Nat.add_sub_cancel' hkm] at hst'
  have hlength : (st.chain ++ blocks).length ≤ 512 := by
    rw [hst'.length_chain]
    omega
  exact ⟨fun _ _ => .ok calls, _,
    appendSynced_ok (by rw [h.lastNumber_eq]; exact htip) rfl happend hlength, hst'⟩

theorem newestSafe_eq (h : st.LastPool members used k) (hnodup : used.Nodup) (hk : 15 ≤ k) :
    ∃ safe, newestSafe st.chain mainnetNSeal = some safe ∧ safe.number = lastHeight (k - 15) := by
  have hthreshold : minDistinctSealers mainnetNSeal = 15 := by decide
  have hlength := h.length_chain
  have hsealers : ∀ blocks, List.Sublist blocks st.chain.tail →
      distinctSealers blocks = blocks.length := by
    intro blocks hsub
    apply distinctSealers_of_nodup
    refine List.Nodup.sublist (hsub.map VerifiedBlock.miner) ?_
    rw [h.miners]
    exact List.nodup_reverse.mpr hnodup
  rcases newestSafe_cases st.chain (show 0 < mainnetNSeal by decide) with
    ⟨older, b, newer, hc, hr⟩ | ⟨hlt, -⟩
  · refine ⟨_, hr, ?_⟩
    have hsub : List.Sublist newer st.chain.tail := by
      rw [hc.split]
      rcases older with _ | ⟨a, older⟩
      · exact List.Sublist.refl _
      · exact (List.sublist_cons_self _ _).trans (List.sublist_append_right _ _)
    have hreached := hc.reached
    have hshortest := hc.shortest
    rw [hthreshold, hsealers newer hsub] at hreached
    rw [hthreshold, hsealers newer.tail ((List.tail_sublist _).trans hsub), List.length_tail]
      at hshortest
    rw [hc.split, List.length_append, List.length_cons] at hlength
    have hat : (st.chain.map VerifiedBlock.number)[older.length]? = some b.number := by
      rw [hc.split]
      simp
    have hindex : older.length = k - 15 := by omega
    rw [h.numbers, hindex, List.getElem?_map, List.getElem?_range (by omega)] at hat
    exact (Option.some.inj hat).symm
  · rw [hthreshold, hsealers _ (List.Sublist.refl _), List.length_tail] at hlt
    omega

end Synced.LastPool

/-- A walk that ends at a checkpoint of the pool, at the last height but one. -/
theorem exists_last_walk : ∃ cp headerByNumber headersRange st,
    walkFromCheckpoint mockPrimitives headerByNumber headersRange cp (u64Size - 2) 0 = .ok st ∧
    st.LastPool poolMembers [] 0 := by
  have hsize := u64Size_eq
  have hmilli := (@blankDraft_fits sealedChainStart (by decide) (by decide)).milli
  have hfits : (blankDraft (u64Size - 2)).Fits := by
    refine ⟨⟨?_, ?_⟩, hmilli, .inr rfl, Nat.zero_le _⟩
    · change londonBlock ≤ u64Size - 2
      rw [hsize]
      decide
    · exact Nat.sub_lt u64Size_pos (by norm_num)
  have hplain : (u64Size - 2) % maxwellEpochLength ≠ 0 := by
    rw [hsize]
    decide
  obtain ⟨header, e, he, -, hmembers, hpending, hattestation, hwalk, henforce, hnumber, -, genesis,
    hchain, hgenesis, hgenesisMilli, hgas⟩ := exists_engine_at nodup_poolMembers
      (by rw [length_poolMembers]; norm_num) hfits hplain
  have hstart : e.snapshot.walkStart = u64Size - 1 := by
    rw [hwalk, satAdd]
    omega
  obtain ⟨headerByNumber, headersRange, hseeded, -⟩ := exists_walk_at he hmembers hnumber henforce
    (show u64Size - 2 < e.snapshot.walkStart by omega) (Nat.sub_lt u64Size_pos (by norm_num))
    (show londonBlock + maxwellEpochLength ≤ (u64Size - 2) / 1000 * 1000 by rw [hsize]; decide)
    (show 7 ≤ (u64Size - 2) % 1000 by rw [hsize]; decide)
  refine ⟨_, headerByNumber, headersRange, _, hseeded, ⟨hmembers, hnumber, hstart, hattestation, ?_⟩,
    ?_, ?_, genesis, ?_, hgenesisMilli, hgas⟩
  · intro p hp
    rw [LightEngine.synced, hpending] at hp
    cases hp
  · rw [LightEngine.synced, hchain, List.map_singleton, hgenesis]
    rfl
  · rw [LightEngine.synced, hchain]
    rfl
  · rw [LightEngine.synced, hchain]
    rfl

end HeliosBsc
