import HeliosBsc.Consensus.Persist

/-!
# The shape of the validator set

Sets come from checkpoints in the operator's order and from the `extraData` of epoch headers. The
checks for duplicates and for the turn length are made by `verify_extra_layout`, which finds the
epoch blocks by the header's own timestamp, and the set is installed by `apply_verified`, which finds
them by the epoch length it carries. From Maxwell on the two agree, because `verify_cascading_vs_parent`
does not let the clock of the chain go back.
-/

namespace HeliosBsc

open Checked

/-- Strictly ascending addresses. -/
def Ascending (l : List Address) : Prop := l.Pairwise fun a b => a.val < b.val

theorem ascending_of_ordered {l : List Address} (hordered : l.Pairwise fun a b => a.le b = true)
    (hnodup : l.Nodup) : Ascending l := by
  apply (hordered.and hnodup).imp
  rintro a b ⟨hle, hne⟩
  by_contra hlt
  have hge : b.le a = true := decide_eq_true (Std.not_lt.mp hlt)
  exact hne (FixedBytes.le_antisymm hle hge)

/-! ## Epoch blocks, by the two rules -/

/-- The rule of `verify_extra_layout`. -/
def epochByLayout (number time : ℕ) : Bool :=
  decide (number % (paramsAt number time).epochLength = 0)

theorem verifyExtraLayout_epoch {header : RpcBlockHeader} {number time : ℕ} {extra : Bytes}
    {parsed : ParsedExtra} (h : verifyExtraLayout header = .ok ())
    (hnumber : decodeU64 header.number = .ok number) (htime : decodeU64 header.timestamp = .ok time)
    (hextra : decodeHex header.extraData = .ok extra)
    (hversion : (paramsAt number time).extraDataVersion = .bohr)
    (hepoch : epochByLayout number time = true)
    (hparsed : parseExtra extra .bohr true = .ok parsed) :
    (parsed.validators.map SealingValidator.address).Nodup ∧
      ∃ t, parsed.turnLength = some t ∧ 0 < t ∧ t ≤ maxTurnLength := by
  unfold epochByLayout at hepoch
  simp only [verifyExtraLayout, hnumber, htime, hextra, mapError_ok, ok_bind, hepoch, hversion,
    hparsed, if_true, bind_eq_ok, require_eq_ok, exists_const, forall_const] at h
  obtain ⟨-, hnodup, t, ht, hpos, hle⟩ := h
  exact ⟨hnodup, t, ht, hpos, hle⟩

/-! ## The clock -/

theorem SealOk.maxwell_iff {P : Primitives} {header : RpcBlockHeader} {now : ℕ} {signer : Address}
    (h : SealOk P header now signer) {time milli : ℕ}
    (htime : decodeU64 header.timestamp = .ok time) (hmilli : milliTimestamp header = .ok milli) :
    maxwellTime * 1000 ≤ milli ↔ maxwellTime ≤ time := by
  have hu := h.unsealed
  simp only [verifyUnsealedFields, bind_eq_ok] at hu
  obtain ⟨-, -, -, -, -, -, -, -, -, -, -, -, -, -, -, -, -, -, ⟨⟩, hmix, -⟩ := hu
  simp only [verifyMixDigest, htime, mapError_ok, ok_bind, bind_eq_ok, mapError_eq_ok] at hmix
  obtain ⟨mix, hmixd, hmix⟩ := hmix
  have horder : lorentzTime < maxwellTime := by decide
  by_cases hold : time < lorentzTime
  · simp only [milliTimestamp, htime, hmixd, mapError_ok, ok_bind, if_pos hold, pure_eq_ok,
      Except.ok.injEq] at hmilli
    have hle : satMul time 1000 ≤ time * 1000 := min_le_left _ _
    omega
  · simp only [if_neg hold, hmilli, ok_bind, require_eq_ok] at hmix
    omega

/-- The checks against the parent keep the clock from going back and the gas limit from
vanishing. -/
theorem verifyCascading_maxwell {parentMilli parentGas : ℕ} {header : RpcBlockHeader}
    {milli gas : ℕ} (h : verifyCascadingVsParent parentMilli parentGas header = .ok ())
    (hgas : parentGas ≠ 0) (hparent : maxwellTime * 1000 ≤ parentMilli)
    (hmilli : milliTimestamp header = .ok milli) (hlimit : decodeU64 header.gasLimit = .ok gas) :
    maxwellTime * 1000 ≤ milli ∧ gas ≠ 0 := by
  simp only [verifyCascadingVsParent, if_neg hgas, hmilli, hlimit, mapError_ok, ok_bind, bind_eq_ok,
    require_eq_ok, exists_const] at h
  obtain ⟨number, -, time, -, hlate, hmin, -⟩ := h
  have hmax : maxwellTime * 1000 < u64Size := by
    rw [u64Size_eq]
    decide
  unfold satAdd at hlate
  unfold minGasLimit at hmin
  omega

namespace Snapshot

/-- The shape of the set in force and of the announced one. -/
structure Shaped (s : Snapshot) : Prop where
  aligned : Aligned s
  nonempty : s.validators ≠ []
  nodup : s.validators.Nodup
  turn : 1 ≤ s.turnLength ∧ s.turnLength ≤ 255
  epoch : s.epochLength = maxwellEpochLength
  announced : ∀ p, s.pending = some p → p.validators ≠ [] ∧ p.validators.Nodup ∧
    1 ≤ p.turnLength ∧ p.turnLength ≤ 255

namespace Shaped

variable {P : Primitives} {s : Snapshot}

theorem trimRecents (h : Shaped s) (n : ℕ) : Shaped (s.trimRecents n) :=
  ⟨⟨h.aligned.ordered, h.aligned.votes, h.aligned.announced⟩, h.nonempty, h.nodup, h.turn, h.epoch,
    h.announced⟩

/-- From Maxwell on both rules find the same epoch blocks. -/
theorem isEpoch_eq (h : Shaped s) {header : RpcBlockHeader} {signer : Address} {l : Link} {b : Body}
    {milli : ℕ} (hacc : Accepts P s header signer l b milli) (htime : maxwellTime ≤ l.time) :
    b.isEpoch = epochByLayout l.number l.time := by
  have hepoch : b.isEpoch = decide (l.number % s.epochLength = 0) := hacc.body.isEpoch
  rw [hepoch, epochByLayout, h.epoch, (paramsAt_of_maxwell l.number htime).1]

/-- The step lemma: an epoch header installs nothing that the layout check has not seen. -/
theorem next (h : Shaped s) {header : RpcBlockHeader} {now : ℕ} {signer : Address} {l : Link}
    {b : Body} {milli : ℕ} (hseal : SealOk P header now signer)
    (hacc : Accepts P s header signer l b milli) (htime : maxwellTime ≤ l.time) :
    Shaped (s.next signer l b milli) := by
  have hduring : ∀ p, s.pendingDuring l b = some p → p.validators ≠ [] ∧ p.validators.Nodup ∧
      1 ≤ p.turnLength ∧ p.turnLength ≤ 255 := by
    intro p hp
    unfold pendingDuring at hp
    split at hp
    · next hepoch =>
      obtain ⟨extra, hextra, hparsed⟩ := hacc.body.parsed
      rw [hepoch] at hparsed
      have hlayout : epochByLayout l.number l.time = true := by
        rw [← h.isEpoch_eq hacc htime, hepoch]
      obtain ⟨hnodup, t, ht, hpos, hle⟩ := verifyExtraLayout_epoch hseal.extraLayout
        hacc.link.number hacc.link.time hextra (paramsAt_of_maxwell l.number htime).2.1 hlayout
        hparsed
      have hperm := perm_sortByAddress b.parsed.validators
      have hmax : maxTurnLength ≤ 255 := by decide
      rw [← Option.some.inj hp]
      refine ⟨?_, (hperm.map _).nodup_iff.mpr hnodup, ?_⟩
      · simpa [nextPending] using sortByAddress_ne_nil (hacc.body.validators hepoch)
      · simp only [nextPending, ht, Option.getD_some]
        omega
    · exact h.announced p hp
  have hlength : (s.next signer l b milli).epochLength = maxwellEpochLength := by
    rw [next_epochLength, advanceEpochLength, h.epoch]
    simp [maxwellEpochLength, lorentzEpochLength, defaultEpochLength]
  have haligned := h.aligned.next signer l b milli
  rcases s.next_sets signer l b milli with
    ⟨p, hp, -, -, -, -, hvals, hturn, hpend⟩ | ⟨-, -, -, -, hvals, hturn, hpend⟩
  · obtain ⟨hne, hnodup, hlow, hhigh⟩ := hduring p hp
    refine ⟨haligned, by rwa [hvals], by rwa [hvals], by rw [hturn]; exact ⟨hlow, hhigh⟩, hlength,
      fun q hq => ?_⟩
    rw [hpend] at hq
    cases hq
  · refine ⟨haligned, by rw [hvals]; exact h.nonempty, by rw [hvals]; exact h.nodup,
      by rw [hturn]; exact h.turn, hlength, fun q hq => ?_⟩
    rw [hpend] at hq
    exact hduring q hq

end Shaped

/-- A checkpoint from Maxwell on that passes `validate_basic` starts in shape. -/
theorem shaped_fromCheckpoint {cp : Checkpoint} {s : Snapshot}
    (hbasic : cp.validateBasic = .ok ()) (h : fromCheckpoint cp = .ok s)
    (htime : maxwellTime ≤ cp.timestamp) : Shaped s := by
  obtain ⟨-, -, hepoch, hturn, hpend, -⟩ := fromCheckpoint_ok h
  obtain ⟨hlength, -, hturn8, -⟩ := paramsAt_of_maxwell cp.number htime
  have hdistinct := distinct_fromCheckpoint hbasic h
  refine ⟨aligned_fromCheckpoint h, hdistinct.nonempty, hdistinct.validators, ?_,
    hepoch.trans hlength, ?_⟩
  · rw [hturn, hturn8]
    exact ⟨by norm_num, by norm_num⟩
  · rw [hpend]
    rintro p ⟨⟩

end Snapshot

namespace LightEngine

variable {P : Primitives}

/-- The set is in shape, and the last block is from Maxwell on and has a gas limit. -/
structure Shaped (e : LightEngine) : Prop where
  snapshot : Snapshot.Shaped e.snapshot
  tip : ∃ prev, e.chain.getLast? = some prev ∧ maxwellTime * 1000 ≤ prev.milliTimestamp ∧
    prev.gasLimit ≠ 0

theorem Shaped.maxwell {e : LightEngine} (h : e.Shaped) {header : RpcBlockHeader} {now : ℕ}
    {signer : Address} {l : Snapshot.Link} {b : Snapshot.Body} {milli : ℕ} {block : VerifiedBlock}
    (hseal : SealOk P header now signer)
    (hacc : Snapshot.Accepts P e.snapshot header signer l b milli)
    (hpre : e.preChecks header = .ok l.number) (hblock : BlockOf header signer l milli block) :
    maxwellTime ≤ l.time ∧ maxwellTime * 1000 ≤ block.milliTimestamp ∧ block.gasLimit ≠ 0 := by
  obtain ⟨prev, hlast, hlate, hgas⟩ := h.tip
  simp only [preChecks, parentChecks, hlast, bind_eq_ok, mapError_eq_ok] at hpre
  obtain ⟨-, -, ⟨⟩, hcascade, -⟩ := hpre
  obtain ⟨hmilli, hlimit⟩ := verifyCascading_maxwell hcascade hgas hlate hacc.milli hblock.gasLimit
  exact ⟨(hseal.maxwell_iff hacc.link.time hacc.milli).mp hmilli, hblock.milli ▸ hmilli, hlimit⟩

theorem Shaped.step {e : LightEngine} (h : e.Shaped) (call : RpcBlockHeader × ℕ) :
    (step P e call).2.Shaped := by
  cases hr : (LightEngine.step P e call).1 with
  | ok r =>
    obtain ⟨signer, l, b, milli, block, hseal, hacc, hpre, hblock, hnext⟩ := step_ok hr
    obtain ⟨htime, hmilli, hgas⟩ := h.maxwell hseal hacc hpre hblock
    rw [hnext]
    refine ⟨h.snapshot.next hseal hacc htime, block, ?_, hmilli, hgas⟩
    rw [advance, getLast?_trimChain, List.getLast?_concat]
  | error err =>
    rcases step_error hr with hsame | ⟨-, htrimmed⟩
    · rw [hsame]
      exact h
    · rw [htrimmed]
      exact ⟨h.snapshot.trimRecents _, h.tip⟩

theorem fromCheckpointAndHeader_genesis {cp : Checkpoint} {header : RpcBlockHeader} {now : ℕ}
    {e : LightEngine} (h : fromCheckpointAndHeader P cp header now = .ok e) :
    ∃ signer genesis, SealOk P header now signer ∧ e.chain = [genesis] ∧
      milliTimestamp header = .ok genesis.milliTimestamp ∧
      decodeU64 header.gasLimit = .ok genesis.gasLimit := by
  simp only [fromCheckpointAndHeader, bind_eq_ok, mapError_eq_ok, pure_eq_ok, Except.ok.injEq] at h
  obtain ⟨-, -, -, -, signer, hseal, s, -, hash, -, root, -, milli, hmilli, gas, hgas, rfl⟩ := h
  exact ⟨signer, _, sealOk_of_verify hseal, rfl, hmilli, hgas⟩

theorem shaped_fromCheckpointAndHeader {cp : Checkpoint} {header : RpcBlockHeader}
    {now time gas : ℕ} {e : LightEngine} (h : fromCheckpointAndHeader P cp header now = .ok e)
    (hcp : maxwellTime ≤ cp.timestamp) (htime : decodeU64 header.timestamp = .ok time)
    (hmaxwell : maxwellTime ≤ time) (hgas : decodeU64 header.gasLimit = .ok gas)
    (hpos : gas ≠ 0) : e.Shaped := by
  obtain ⟨hbasic, hs, -⟩ := fromCheckpointAndHeader_ok h
  obtain ⟨signer, genesis, hseal, hchain, hmilli, hlimit⟩ := fromCheckpointAndHeader_genesis h
  refine ⟨Snapshot.shaped_fromCheckpoint hbasic hs hcp, genesis, ?_, ?_, ?_⟩
  · rw [hchain]
    rfl
  · exact (hseal.maxwell_iff htime hmilli).mpr hmaxwell
  · rwa [← Except.ok.inj (hgas.symm.trans hlimit)]

/-- The representation invariant. An engine built from a valid checkpoint, with the checkpoint and
its header from Maxwell on and a gas limit in the header, has after every sequence of calls: a
non-empty, strictly ascending set; a turn length from 1 to 255; the epoch length 1000; a vote set
that is empty or lists the validators in order; a `contains` that finds exactly the validators; and
it reads the next header it accepts as an epoch block exactly when `verify_extra_layout` did. -/
theorem validator_set_shape {cp : Checkpoint} {header : RpcBlockHeader} {now time gas : ℕ}
    {e₀ : LightEngine} (h : fromCheckpointAndHeader P cp header now = .ok e₀)
    (hcp : maxwellTime ≤ cp.timestamp) (htime : decodeU64 header.timestamp = .ok time)
    (hmaxwell : maxwellTime ≤ time) (hgas : decodeU64 header.gasLimit = .ok gas) (hpos : gas ≠ 0)
    (calls : List (RpcBlockHeader × ℕ)) :
    let e := walk P e₀ calls
    let s := e.snapshot
    s.validators ≠ [] ∧ Ascending s.validators ∧ (1 ≤ s.turnLength ∧ s.turnLength ≤ 255) ∧
    s.epochLength = 1000 ∧
    (s.voteSet = [] ∨ s.voteSet.map SealingValidator.address = s.validators) ∧
    (∀ addr, s.contains addr = true ↔ addr ∈ s.validators) ∧
    ∀ call, (step P e call).1 = .ok () →
      ∃ signer l b, verifySealCoinbase P call.1 call.2 = .ok signer ∧
        s.linkChecks call.1 signer = .ok l ∧
        (s.trimRecents l.number).bodyChecks P call.1 signer l = .ok b ∧
        (b.isEpoch = true ↔ epochByLayout l.number l.time = true) := by
  have hshaped : (walk P e₀ calls).Shaped := Machine.run_invariant (fun e call he => he.step call)
    (shaped_fromCheckpointAndHeader h hcp htime hmaxwell hgas hpos) calls
  have hs := hshaped.snapshot
  refine ⟨hs.nonempty, ascending_of_ordered hs.aligned.ordered hs.nodup, hs.turn, hs.epoch,
    hs.aligned.votes, fun addr => Snapshot.contains_iff hs.aligned.ordered, fun call hok => ?_⟩
  obtain ⟨signer, l, b, milli, block, hseal, hacc, hpre, hblock, -⟩ := step_ok hok
  obtain ⟨hlate, -, -⟩ := hshaped.maxwell hseal hacc hpre hblock
  refine ⟨signer, l, b, hseal.verified, Snapshot.linkChecks_eq_ok.mpr hacc.link,
    Snapshot.bodyChecks_eq_ok.mpr hacc.body, ?_⟩
  rw [hs.isEpoch_eq hacc hlate]

/-- On the mock's chain, whatever headers come after the checkpoint, the set stays in order; at the
checkpoint its only validator is found. -/
theorem validator_set_shape_sole : ∃ e₀ : LightEngine,
    (∀ calls, Ascending (walk mockPrimitives e₀ calls).snapshot.validators) ∧
    e₀.snapshot.contains (mockKey 1).address = true := by
  obtain ⟨header, hash, e₀, h, hsole, -⟩ := exists_start_engine (.repeated 48 1)
  obtain ⟨signer, genesis, hseal, hchain, hmilli, hgas⟩ := fromCheckpointAndHeader_genesis h
  obtain ⟨b, hb, hbmilli, hbgas⟩ := hsole.tip
  obtain rfl : genesis = b := by
    rw [hchain] at hb
    exact Option.some.inj hb
  obtain ⟨hash', hhash, -⟩ := hseal.hash_eq
  obtain ⟨-, -, time, htime⟩ := headerHash_reads hhash
  have hmaxwell : maxwellTime ≤ time := by
    apply (hseal.maxwell_iff htime hmilli).mp
    rw [hbmilli]
    decide
  have hpos : genesis.gasLimit ≠ 0 := by
    rw [hbgas]
    decide
  have hcp : maxwellTime ≤ (blankDraft sealedChainStart).time := by decide
  have hshape := validator_set_shape h hcp htime hmaxwell hgas hpos
  refine ⟨e₀, fun calls => (hshape calls).2.1, ?_⟩
  obtain ⟨-, -, -, -, -, hcontains, -⟩ := hshape []
  apply (hcontains _).mpr
  change (mockKey 1).address ∈ e₀.snapshot.validators
  rw [hsole.snapshot.validators]
  exact List.mem_singleton_self _

end LightEngine

end HeliosBsc
