import HeliosBsc.Consensus.Adoption
import Mathlib.Data.Finset.Card

/-!
# Quorums of votes

A vote attestation that passes `verify_attestation_signature` names its voters by the bits of
`vote_address_set`. Two accepted ones over the same list of `n` validators share at least
`⌈n / 3⌉` voters, so that two conflicting justified blocks expose that many validators.
-/

namespace HeliosBsc

open Checked

/-- `⌈n / 3⌉`. -/
def ceilThird (n : ℕ) : ℕ := (n + 2) / 3

/-! ## The voters of a bit set -/

/-- The positions that a bit set names in a list of `n` validators. -/
structure Voters (set n : ℕ) (voters : List ℕ) : Prop where
  increasing : voters.Pairwise (· < ·)
  below : ∀ i ∈ voters, i < n
  bits : ∀ i, i ∈ voters ↔ set.testBit i = true
  count : voters.length = countOnes set

/-- A bit that names no validator is refused: `high` holds every bit from `n` on. -/
theorem lt_of_testBit_of_high {set n i : ℕ} (hset : set < u64Size)
    (hhigh : (if 64 ≤ n then 0 else set >>> n) = 0) (hi : set.testBit i = true) :
    i < min n 64 := by
  have h64 : i < 64 := by
    by_contra hge
    have hlt : set < 2 ^ i :=
      hset.trans_le (by rw [u64Size_eq]; exact Nat.pow_le_pow_right (by norm_num) (by omega))
    rw [Nat.testBit_lt_two_pow hlt] at hi
    cases hi
  rw [lt_min_iff]
  refine ⟨?_, h64⟩
  by_cases hn : 64 ≤ n
  · omega
  · rw [if_neg hn] at hhigh
    by_contra hge
    have hbit : (set >>> n).testBit (i - n) = true := by
      rw [Nat.testBit_shiftRight, show n + (i - n) = i by omega]
      exact hi
    rw [hhigh, Nat.zero_testBit] at hbit
    cases hbit

theorem length_filter_range_of_lt {set m k : ℕ} (hmk : m ≤ k)
    (h : ∀ i, set.testBit i = true → i < m) :
    ((List.range m).filter fun i => set.testBit i).length =
      ((List.range k).filter fun i => set.testBit i).length := by
  obtain ⟨d, rfl⟩ := Nat.exists_eq_add_of_le hmk
  rw [List.range_add, List.filter_append, List.length_append]
  have hnone : ((List.range d).map fun i => m + i).filter (fun i => set.testBit i) = [] := by
    apply List.filter_eq_nil_iff.mpr
    intro i hi hbit
    obtain ⟨j, -, rfl⟩ := List.mem_map.mp hi
    have := h (m + j) hbit
    omega
  rw [hnone, List.length_nil, Nat.add_zero]

theorem voters_of_votedIndices {set n : ℕ} {voters : List ℕ} (hset : set < u64Size)
    (h : votedIndices set n = .ok voters) : Voters set n voters := by
  simp only [votedIndices, bind_eq_ok, require_eq_ok, pure_eq_ok, Except.ok.injEq,
    exists_const] at h
  obtain ⟨-, hhigh, rfl⟩ := h
  have hlt : ∀ i, set.testBit i = true → i < min n 64 :=
    fun i => lt_of_testBit_of_high hset hhigh
  refine ⟨List.pairwise_lt_range.filter _, fun i hi => ?_, fun i => ?_, ?_⟩
  · have hi' := List.mem_range.mp (List.mem_of_mem_filter hi)
    omega
  · rw [List.mem_filter, List.mem_range]
    exact ⟨fun hi => hi.2, fun hi => ⟨hlt i hi, hi⟩⟩
  · exact length_filter_range_of_lt (min_le_right n 64) hlt

theorem Voters.length_le {set n : ℕ} {voters : List ℕ} (h : Voters set n voters) :
    voters.length ≤ 64 := by
  rw [h.count, countOnes]
  exact (List.length_filter_le _ _).trans (List.length_range (n := 64)).le

/-! ## Accepted attestations -/

/-- What stands behind an accepted signature: the quorum, and the aggregate of the voters' keys. -/
structure Certified (P : Primitives) (validators : List SealingValidator) (att : VoteAttestation)
    (voters : List ℕ) : Prop where
  indices : votedIndices att.voteAddressSet validators.length = .ok voters
  named : Voters att.voteAddressSet validators.length voters
  quorum : minVotesForFinality validators.length ≤ voters.length
  voted : voters ≠ []
  signed : ∃ keys pk,
    voters.map (fun i => (validators[i]?).map SealingValidator.voteKey) = keys.map some ∧
      P.aggregate keys = some pk ∧
      P.sigVerify att.aggSignature (att.data.hash P) voteDst pk = true

theorem validateKeys_eq_ok {P : Primitives} {validators : List SealingValidator}
    {indices : List ℕ} {keys : List VoteKey} (h : validateKeys P validators indices = .ok keys) :
    indices.map (fun i => (validators[i]?).map SealingValidator.voteKey) = keys.map some := by
  induction indices generalizing keys with
  | nil =>
    cases h
    rfl
  | cons i rest ih =>
    rw [validateKeys] at h
    cases hv : validators[i]? with
    | none => simp [hv] at h
    | some v =>
      simp only [hv, bind_eq_ok, require_eq_ok, pure_eq_ok, Except.ok.injEq, exists_const] at h
      obtain ⟨-, tail, htail, rfl⟩ := h
      rw [List.map_cons, List.map_cons, ih htail, hv, Option.map_some]

theorem certified_of_verify {P : Primitives} {validators : List SealingValidator}
    {att : VoteAttestation} (hset : att.voteAddressSet < u64Size)
    (h : verifyAttestationSignature P att validators = .ok ()) :
    ∃ voters, Certified P validators att voters := by
  simp only [verifyAttestationSignature, bind_eq_ok, require_eq_ok, exists_const] at h
  obtain ⟨-, voters, hvoters, hne, keys, hkeys, hneed, h⟩ := h
  have hmap := validateKeys_eq_ok hkeys
  have hlen : keys.length = voters.length := by
    have := congrArg List.length hmap
    simpa using this.symm
  refine ⟨voters, hvoters, voters_of_votedIndices hset hvoters, hlen ▸ hneed, hne, ?_⟩
  cases hagg : P.aggregate keys with
  | none => simp [hagg] at h
  | some pk =>
    simp only [hagg, bind_eq_ok, require_eq_ok, exists_const] at h
    exact ⟨keys, pk, hmap, hagg, h.2⟩

/-- With at most 64 voters the quorum is two thirds, rounded up, without saturation. -/
theorem two_thirds_le {n k : ℕ} (hk : k ≤ 64) (h : minVotesForFinality n ≤ k) :
    2 * n ≤ 3 * k := by
  have h64 : 64 < u64Size / 4 := by
    rw [u64Size_eq]
    norm_num
  unfold minVotesForFinality satMul at h
  omega

/-- Two quorums over one list share `⌈n / 3⌉` voters. -/
theorem Certified.shared {P : Primitives} {validators : List SealingValidator}
    {a b : VoteAttestation} {va vb : List ℕ} (ha : Certified P validators a va)
    (hb : Certified P validators b vb) :
    1 ≤ ceilThird validators.length ∧
      ceilThird validators.length ≤ (va.toFinset ∩ vb.toFinset).card := by
  have hcard : ∀ {att : VoteAttestation} {v : List ℕ}, Certified P validators att v →
      v.toFinset.card = v.length :=
    fun h => List.toFinset_card_of_nodup (h.named.increasing.imp fun hlt => hlt.ne)
  have hunion : (va.toFinset ∪ vb.toFinset).card ≤ validators.length := by
    rw [← Finset.card_range validators.length]
    apply Finset.card_le_card
    intro i hi
    rw [Finset.mem_union, List.mem_toFinset, List.mem_toFinset] at hi
    exact Finset.mem_range.mpr (hi.elim (ha.named.below i) (hb.named.below i))
  have hsum := Finset.card_union_add_card_inter va.toFinset vb.toFinset
  rw [hcard ha, hcard hb] at hsum
  have hqa := two_thirds_le ha.named.length_le ha.quorum
  have hqb := two_thirds_le hb.named.length_le hb.quorum
  have hpos : 0 < validators.length := by
    obtain ⟨i, hi⟩ := List.exists_mem_of_ne_nil va ha.voted
    have := ha.named.below i hi
    omega
  unfold ceilThird
  omega

/-! ## Votes behind a justified block -/

theorem uintOf_lt {raw : Bytes} {n : ℕ} (h : uintOf raw = .ok n) : n < u64Size := by
  simp only [uintOf, bind_eq_ok, require_eq_ok, pure_eq_ok, Except.ok.injEq, exists_const] at h
  obtain ⟨hlen, -, rfl⟩ := h
  exact value_lt_u64Size hlen

theorem voteAddressSet_lt {raw : Bytes} {att : VoteAttestation}
    (h : decodeVoteAttestation raw = .ok (some att)) : att.voteAddressSet < u64Size := by
  unfold decodeVoteAttestation at h
  split at h
  · cases h
  · simp only [bind_eq_ok] at h
    obtain ⟨top, -, fields, -, h⟩ := h
    split at h
    · simp only [bind_eq_ok, pure_eq_ok, Except.ok.injEq, Option.some.injEq] at h
      obtain ⟨bytes, -, set, hset, -, -, -, -, -, -, -, -, -, -, rfl⟩ := h
      exact uintOf_lt hset
    · cases h

namespace Snapshot

/-- The walk ends with the target of `att` justified, and some accepted header of the walk has
carried `att` and had it checked against `set`. -/
structure JustifiedBy (P : Primitives) (start : Snapshot) (calls : List (RpcBlockHeader × ℕ))
    (set : List SealingValidator) (att : VoteAttestation) : Prop where
  justified : (start.walk P calls).justified = some (att.data.targetNumber, att.data.targetHash)
  carried : ∃ before call after signer raw, calls = before ++ call :: after ∧
    (step P (start.walk P before) call).1 = .ok signer ∧
    (start.walk P before).attestationRegion call.1 = some raw ∧
    decodeVoteAttestation raw = .ok (some att) ∧
    set = (start.walk P before).attestationSet att.data.targetNumber
  verified : verifyAttestationSignature P att set = .ok ()

theorem JustifiedBy.certified {P : Primitives} {start : Snapshot}
    {calls : List (RpcBlockHeader × ℕ)} {set : List SealingValidator} {att : VoteAttestation}
    (h : JustifiedBy P start calls set att) : ∃ voters, Certified P set att voters := by
  obtain ⟨_, _, _, _, raw, -, -, -, hdec, -⟩ := h.carried
  exact certified_of_verify (voteAddressSet_lt hdec) h.verified

/-- One call leaves the justified block as it is, or takes it from a verified vote. -/
theorem justified_step {P : Primitives} {s : Snapshot} (call : RpcBlockHeader × ℕ) :
    (step P s call).2.justified = s.justified ∨
    ∃ signer raw att, (step P s call).1 = .ok signer ∧
      s.attestationRegion call.1 = some raw ∧ decodeVoteAttestation raw = .ok (some att) ∧
      verifyAttestationSignature P att (s.attestationSet att.data.targetNumber) = .ok () ∧
      (step P s call).2.justified = some (att.data.targetNumber, att.data.targetHash) := by
  cases hok : (step P s call).1 with
  | error err =>
    left
    rcases step_error hok with hr | hr
    · rw [hr]
    · rw [hr]
      rfl
  | ok signer =>
    obtain ⟨l, b, milli, -, hacc, hr⟩ := step_ok hok
    rcases checkAttestation_eq_ok.mp hacc.body.adopted with
      ⟨-, hnone⟩ | ⟨att, hdec, ⟨-, hnone⟩ | ⟨hvote, hsome⟩⟩
    · left
      rw [hr, Snapshot.justified, next_attestation_of_none hnone]
      rfl
    · left
      rw [hr, Snapshot.justified, next_attestation_of_none hnone]
      rfl
    · right
      refine ⟨signer, _, att, rfl, hacc.attestationRegion_eq, hdec, hvote.signature, ?_⟩
      obtain ⟨htn, hth⟩ := adoptAttestation_target s.attestation att.data
      rw [hr, Snapshot.justified, next_attestation, hsome, Option.map_some, htn, hth]

/-- In a walk that starts without an attestation, a vote stands behind every justified block. -/
theorem exists_justifiedBy {P : Primitives} {start : Snapshot} (hnone : start.attestation = none)
    {calls : List (RpcBlockHeader × ℕ)} {n : ℕ} {h : Hash}
    (hj : (start.walk P calls).justified = some (n, h)) :
    ∃ set att, att.data.targetNumber = n ∧ att.data.targetHash = h ∧
      JustifiedBy P start calls set att := by
  induction calls using List.reverseRecOn with
  | nil =>
    rw [walk, Machine.run_nil, Snapshot.justified, hnone] at hj
    cases hj
  | append_singleton calls call ih =>
    have hrun : start.walk P (calls ++ [call]) = (step P (start.walk P calls) call).2 :=
      Machine.run_concat start calls call
    rcases justified_step (P := P) (s := start.walk P calls) call with
      hsame | ⟨signer, raw, att, hok, hregion, hdec, hverified, hmoved⟩
    · obtain ⟨set, att, hn, hh, hby⟩ := ih (by rw [← hsame, ← hrun, hj])
      refine ⟨set, att, hn, hh, ?_, ?_, hby.verified⟩
      · rw [hrun, hsame, hby.justified]
      · obtain ⟨before, c, after, signer, raw, rfl, hrest⟩ := hby.carried
        exact ⟨before, c, after ++ [call], signer, raw, by simp, hrest⟩
    · rw [hrun, hmoved, Option.some.injEq, Prod.mk.injEq] at hj
      exact ⟨_, att, hj.1, hj.2, hrun ▸ hmoved,
        ⟨calls, call, [], signer, raw, rfl, hok, hregion, hdec, rfl⟩, hverified⟩

end Snapshot

/-- Accountable quorum. Every attestation accepted over a list of `n` validators has its voters
named by the bits of its `u64` set, as many as are set, in increasing order and below `n`; any two
of them share `⌈n / 3⌉ ≥ 1` voters. A block justified in a walk from a checkpoint has such an
attestation behind it, so two walks that justify different blocks at one height, by votes checked
against the same set, expose `⌈n / 3⌉` validators whose keys are in both aggregates. -/
theorem accountable_quorum (P : Primitives) :
    (∀ (validators : List SealingValidator) (a b : VoteAttestation),
      a.voteAddressSet < u64Size → b.voteAddressSet < u64Size →
      verifyAttestationSignature P a validators = .ok () →
      verifyAttestationSignature P b validators = .ok () →
      ∃ va vb, Certified P validators a va ∧ Certified P validators b vb ∧
        1 ≤ ceilThird validators.length ∧
        ceilThird validators.length ≤ (va.toFinset ∩ vb.toFinset).card) ∧
    (∀ (cp₁ cp₂ : Checkpoint) (s₁ s₂ : Snapshot) (calls₁ calls₂ : List (RpcBlockHeader × ℕ))
        (n : ℕ) (h₁ h₂ : Hash),
      Snapshot.fromCheckpoint cp₁ = .ok s₁ → Snapshot.fromCheckpoint cp₂ = .ok s₂ →
      (s₁.walk P calls₁).justified = some (n, h₁) →
      (s₂.walk P calls₂).justified = some (n, h₂) →
      (∃ set a, Snapshot.JustifiedBy P s₁ calls₁ set a) ∧
      (∃ set b, Snapshot.JustifiedBy P s₂ calls₂ set b) ∧
      ∀ set a b, Snapshot.JustifiedBy P s₁ calls₁ set a → Snapshot.JustifiedBy P s₂ calls₂ set b →
        (h₁ ≠ h₂ → a.data ≠ b.data) ∧ ∃ va vb, Certified P set a va ∧ Certified P set b vb ∧
          1 ≤ ceilThird set.length ∧ ceilThird set.length ≤ (va.toFinset ∩ vb.toFinset).card) := by
  constructor
  · intro validators a b ha hb hva hvb
    obtain ⟨va, hca⟩ := certified_of_verify ha hva
    obtain ⟨vb, hcb⟩ := certified_of_verify hb hvb
    exact ⟨va, vb, hca, hcb, hca.shared hcb⟩
  · intro cp₁ cp₂ s₁ s₂ calls₁ calls₂ n h₁ h₂ hs₁ hs₂ hj₁ hj₂
    obtain ⟨-, -, -, -, -, -, -, -, -, hatt₁, -⟩ := Snapshot.fromCheckpoint_ok hs₁
    obtain ⟨-, -, -, -, -, -, -, -, -, hatt₂, -⟩ := Snapshot.fromCheckpoint_ok hs₂
    obtain ⟨set₁, a, -, -, hby₁⟩ := Snapshot.exists_justifiedBy hatt₁ hj₁
    obtain ⟨set₂, b, -, -, hby₂⟩ := Snapshot.exists_justifiedBy hatt₂ hj₂
    refine ⟨⟨set₁, a, hby₁⟩, ⟨set₂, b, hby₂⟩, fun set a b hby₁ hby₂ => ?_⟩
    obtain ⟨va, hca⟩ := hby₁.certified
    obtain ⟨vb, hcb⟩ := hby₂.certified
    refine ⟨fun hne heq => hne ?_, va, vb, hca, hcb, hca.shared hcb⟩
    have hja := hj₁.symm.trans hby₁.justified
    have hjb := hj₂.symm.trans hby₂.justified
    rw [Option.some.injEq, Prod.mk.injEq] at hja hjb
    rw [hja.2, hjb.2, heq]

/-- Three validators of the mock. -/
def threeVoters : List SealingValidator :=
  [⟨.repeated 20 1, .repeated 48 1⟩, ⟨.repeated 20 2, .repeated 48 2⟩,
    ⟨.repeated 20 3, .repeated 48 3⟩]

/-- The vote of the validators with the keys `x` and `y` for a block with the hash `h`. -/
def pairVote (set : ℕ) (x y : UInt8) (h : Hash) : VoteAttestation where
  voteAddressSet := set
  aggSignature := ⟨List.replicate 48 x ++ List.replicate 48 y, rfl⟩
  data := ⟨9, .repeated 32 0, 10, h⟩
  extra := []

/-- Of three validators, the first two vote for one block and the last two for another: the one in
the middle is exposed. On the mock's chain the vote for the checkpoint block has its voter. -/
theorem accountable_quorum_mock :
    (∃ va vb, Certified mockPrimitives threeVoters (pairVote 3 1 2 (.repeated 32 1)) va ∧
      Certified mockPrimitives threeVoters (pairVote 6 2 3 (.repeated 32 2)) vb ∧
      1 ≤ (va.toFinset ∩ vb.toFinset).card) ∧
    ∃ s call set a, Snapshot.JustifiedBy mockPrimitives s [call] set a := by
  have hneed : minVotesForFinality 3 = 2 := by
    unfold minVotesForFinality satMul
    rw [u64Size_eq]
    rfl
  have hsmall : ∀ k : ℕ, k < 8 → k < u64Size := by
    intro k hk
    rw [u64Size_eq]
    omega
  constructor
  · have hfirst : votedIndices 3 3 = .ok [0, 1] := by rfl
    have hlast : votedIndices 6 3 = .ok [1, 2] := by rfl
    have hva : verifyAttestationSignature mockPrimitives (pairVote 3 1 2 (.repeated 32 1))
        threeVoters = .ok () := by
      simp [verifyAttestationSignature, pairVote, threeVoters, hfirst, hneed, validateKeys,
        mockPrimitives, FixedBytes.repeated, require]
    have hvb : verifyAttestationSignature mockPrimitives (pairVote 6 2 3 (.repeated 32 2))
        threeVoters = .ok () := by
      simp [verifyAttestationSignature, pairVote, threeVoters, hlast, hneed, validateKeys,
        mockPrimitives, FixedBytes.repeated, require]
    obtain ⟨va, vb, hca, hcb, -, hshared⟩ := (accountable_quorum mockPrimitives).1 threeVoters _ _
      (hsmall 3 (by norm_num)) (hsmall 6 (by norm_num)) hva hvb
    exact ⟨va, vb, hca, hcb, hshared⟩
  · obtain ⟨hash, header₀, e, header, now, data, l, b, milli, h, -, -, -, -, -, hb, hseal, hacc,
      -⟩ := exists_attested_step (.repeated 48 1)
    obtain ⟨-, hs, -⟩ := LightEngine.fromCheckpointAndHeader_ok h
    have hstep : e.snapshot.walk mockPrimitives [(header, now)] =
        e.snapshot.next (mockKey 1).address l b milli :=
      congrArg Prod.snd (Snapshot.applyHeader_of_accepts hseal.verified hacc)
    have hj : (e.snapshot.walk mockPrimitives [(header, now)]).justified =
        some (data.targetNumber, data.targetHash) := by
      obtain ⟨htn, hth⟩ := Snapshot.adoptAttestation_target e.snapshot.attestation data
      rw [hstep, Snapshot.justified, Snapshot.next_attestation, hb, Option.map_some, htn, hth]
    obtain ⟨⟨set, a, hby⟩, -⟩ := (accountable_quorum mockPrimitives).2 _ _ _ _ _ _ _ _ _ hs hs hj hj
    exact ⟨_, _, set, a, hby⟩

end HeliosBsc
