import HeliosBsc.Consensus.Adoption

/-!
# Across a set switch

The chain of one validator through an epoch block: the block announces a set, six plain blocks pass,
and the block after them switches to it.
-/

namespace HeliosBsc

open Checked

variable {P : Primitives}

theorem epochRecords_header {d : Draft} {vals : List SealingValidator} {turnLength : ℕ}
    {attestation : Bytes} (signer : Address) (sealBytes : FixedBytes 65) (hash : Hash)
    (hfits : d.Fits) (hepoch : d.number % maxwellEpochLength = 0)
    (hcarries : d.Carries true vals (some turnLength) attestation) (hne : vals ≠ []) :
    epochRecords (d.header signer sealBytes hash) = .ok (sortByAddress vals, turnLength) := by
  obtain ⟨hlength, hversion, -, -⟩ := paramsAt_of_maxwell d.number hfits.time.1
  obtain ⟨p, hp, hvals, hturn, -⟩ := hcarries sealBytes
  have hboundary : ¬ ((paramsAt d.number d.time).epochLength = 0 ∨
      d.number % (paramsAt d.number d.time).epochLength ≠ 0) := by
    rw [hlength, not_or, not_not]
    exact ⟨by decide, hepoch⟩
  unfold epochRecords
  simp only [Draft.header, hfits.reads.number, hfits.reads.time, mapError_ok, ok_bind,
    require_of hboundary, decodeHex_hexPrefixed, hversion, hp, require_of hne, hvals, hturn,
    Option.getD_some, pure_eq_ok]

namespace LightEngine

/-- The engine is on the chain of one validator, at a block and a time, with a set announced and a
vote set in force, and has adopted no vote. -/
structure Waits (sk : SecretKey P) (p : Option PendingEpoch) (votes : List SealingValidator)
    (number milli : ℕ) (e : LightEngine) : Prop where
  sole : e.Sole sk milli
  pending : e.snapshot.pending = p
  votes : e.snapshot.voteSet = votes
  attestation : e.snapshot.attestation = none
  number : e.snapshot.number = number

/-- The numbers and times at which headers fit. -/
def InRange (number milli : ℕ) : Prop :=
  londonBlock ≤ number ∧ number + 8 < 2 ^ 32 ∧ 1770000000000 ≤ milli ∧ milli + 1000 < 1780000000000

theorem InRange.nextDraft_fits {e : LightEngine} {number milli : ℕ} {mid : Bytes}
    (h : InRange number milli) (hnumber : e.snapshot.number = number) (hmid : mid.length ≤ 100000) :
    (e.nextDraft (milli + 1000) mid).Fits := by
  obtain ⟨hlow, hhigh, hfrom, hto⟩ := h
  refine HeliosBsc.nextDraft_fits ?_ ⟨hfrom.trans (Nat.le_add_right _ _), hto⟩ hmid
  rw [hnumber]
  exact ⟨hlow.trans (Nat.le_succ _), by omega⟩

theorem checkAttestation_nil (s : Snapshot) (number time : ℕ) :
    s.checkAttestation P [] number time = .ok none :=
  Snapshot.checkAttestation_eq_ok.mpr (.inl ⟨rfl, rfl⟩)

/-- The call is accepted where a set activates seven blocks after its announcement, and announces
nothing or a given set. -/
structure SteadyStep (P : Primitives) (vals : List SealingValidator) (e : LightEngine)
    (call : RpcBlockHeader × ℕ) : Prop where
  accepted : (step P e call).1 = .ok ()
  delay : e.snapshot.delay = 7
  announced : ∃ signer l b milli, Snapshot.Accepts P e.snapshot call.1 signer l b milli ∧
    (b.parsed.validators = [] ∨ b.parsed.validators = vals)

/-- Every call of the walk is such a step. -/
def Steady (P : Primitives) (vals : List SealingValidator) (e : LightEngine)
    (calls : List (RpcBlockHeader × ℕ)) : Prop :=
  Machine.Along (step P) (SteadyStep P vals) e calls

theorem Steady.snapshot {vals : List SealingValidator} {e : LightEngine}
    {calls : List (RpcBlockHeader × ℕ)} (h : Steady P vals e calls) :
    (walk P e calls).snapshot = Snapshot.walk P e.snapshot calls := by
  induction calls using List.reverseRecOn with
  | nil => rfl
  | append_singleton calls call ih =>
    obtain ⟨hcalls, hcall⟩ : Steady P vals e calls ∧ SteadyStep P vals (walk P e calls) call :=
      Machine.along_concat.mp h
    rw [walk_concat, (step_snapshot hcall.accepted).2]
    exact (congrArg (fun s => (Snapshot.step P s call).2) (ih hcalls)).trans
      (Machine.run_concat _ _ _).symm

theorem Waits.plain {sk : SecretKey P} {p : Option PendingEpoch} {votes : List SealingValidator}
    {number milli : ℕ} {e : LightEngine} (h : Waits sk p votes number milli e)
    (hrange : InRange number milli) (hplain : ¬ (number + 1) % maxwellEpochLength = 0) :
    ∃ header parsed hash block, block.milliTimestamp = milli + 1000 ∧
      block.gasLimit = mockGasLimit ∧ block.header = some header ∧
      (∃ time, decodeU64 header.timestamp = .ok time ∧ maxwellTime ≤ time) ∧
      (∀ vals, SteadyStep P vals e (header, (e.nextDraft (milli + 1000) []).time)) ∧
      LightEngine.step P e (header, (e.nextDraft (milli + 1000) []).time) = (.ok (), e.advance
        (e.snapshot.next sk.address
          ⟨number + 1, (e.nextDraft (milli + 1000) []).time, hash⟩
          ⟨false, parsed, none⟩ (milli + 1000)) block) := by
  have hfits : (e.nextDraft (milli + 1000) []).Fits :=
    hrange.nextDraft_fits h.number (Nat.zero_le _)
  rw [← h.number] at hplain ⊢
  have hcarries : (e.nextDraft (milli + 1000) []).Carries
      (decide ((e.snapshot.number + 1) % maxwellEpochLength = 0)) [] none [] := by
    rw [decide_eq_false hplain]
    exact e.nextDraft_carries _ _
  obtain ⟨header, parsed, hash, block, ⟨sealBytes, hheader⟩, -, hnone, -, -, hmilli, hgas, hsource, -,
    hacc, hstep⟩ := h.sole.step hfits (.inl hplain) le_rfl hcarries (fun hz => absurd hz hplain)
      (checkAttestation_nil _ _ _)
  have hsteady (vals : List SealingValidator) :
      SteadyStep P vals e (header, (e.nextDraft (milli + 1000) []).time) :=
    ⟨congrArg Prod.fst hstep, h.sole.snapshot.delay_eq, _, _, _, _, hacc, .inl hnone⟩
  rw [decide_eq_false hplain] at hstep
  have htime : decodeU64 header.timestamp = .ok (e.nextDraft (milli + 1000) []).time := by
    rw [hheader]
    exact hfits.reads.time
  exact ⟨header, parsed, hash, block, hmilli, hgas, hsource, ⟨_, htime, hfits.time.1⟩, hsteady,
    hstep⟩

/-- Before the announced set is due, a plain header changes neither set nor announcement. -/
theorem Waits.wait {sk : SecretKey P} {p : Option PendingEpoch} {votes : List SealingValidator}
    {number milli : ℕ} {e : LightEngine} (h : Waits sk p votes number milli e)
    (hrange : InRange number milli) (hplain : ¬ (number + 1) % maxwellEpochLength = 0)
    (hearly : ∀ q, p = some q → number + 1 ≠ q.activateAt) :
    ∃ call, (∀ vals, SteadyStep P vals e call) ∧
      (∃ l b, l.number = number + 1 ∧ b.isEpoch = false ∧ b.adopted = none ∧
        (step P e call).2.snapshot = e.snapshot.next sk.address l b (milli + 1000)) ∧
      (step P e call).2.snapshot.prevVoteSet = e.snapshot.prevVoteSet ∧
      (step P e call).2.snapshot.setChangedAt = e.snapshot.setChangedAt ∧
      Waits sk p votes (number + 1) (milli + 1000) (step P e call).2 := by
  obtain ⟨header, parsed, hash, block, hmilli, hgas, -, -, hsteady, hstep⟩ := h.plain hrange hplain
  refine ⟨(header, (e.nextDraft (milli + 1000) []).time), hsteady, ?_⟩
  rw [hstep]
  refine ⟨⟨_, _, rfl, rfl, rfl, rfl⟩, ?_⟩
  have hduring : e.snapshot.pendingDuring
      ⟨number + 1, (e.nextDraft (milli + 1000) []).time, hash⟩ ⟨false, parsed, none⟩ = p :=
    h.pending
  rcases e.snapshot.next_sets sk.address
      ⟨number + 1, (e.nextDraft (milli + 1000) []).time, hash⟩ ⟨false, parsed, none⟩
      (milli + 1000) with ⟨q, hq, hat, -⟩ | ⟨-, hvote, hprev, hchanged, hvals, hturn, hpend⟩
  · exact absurd hat (hearly q (hduring.symm.trans hq))
  · refine ⟨hprev, hchanged, h.sole.advance ?_ ?_ ?_ hmilli hgas, hpend.trans hduring,
      hvote.trans h.votes, (Snapshot.next_attestation _ _ _ _ _).trans h.attestation, rfl⟩
    · rw [h.number]
    · exact hvals.trans h.sole.snapshot.validators
    · exact hturn.trans h.sole.snapshot.turn

theorem Waits.waits {sk : SecretKey P} {p : Option PendingEpoch} {votes : List SealingValidator}
    {number milli a : ℕ} {e : LightEngine} (h : Waits sk p votes (number + a) (milli + 1000 * a) e)
    (k : ℕ) (hrange : ∀ j, a ≤ j → j < a + k → InRange (number + j) (milli + 1000 * j))
    (hplain : ∀ j, a ≤ j → j < a + k → ¬ (number + j + 1) % maxwellEpochLength = 0)
    (hearly : ∀ q, p = some q → number + (a + k) < q.activateAt) :
    ∃ calls, calls.length = k ∧ (∀ vals, Steady P vals e calls) ∧
      (walk P e calls).snapshot.setChangedAt = e.snapshot.setChangedAt ∧
      Waits sk p votes (number + (a + k)) (milli + 1000 * (a + k)) (walk P e calls) := by
  induction k with
  | zero => exact ⟨[], rfl, fun _ => Machine.along_nil, rfl, h⟩
  | succ k ih =>
    obtain ⟨calls, hlength, hsteady, hchanged, hk⟩ := ih (fun j ha hj => hrange j ha (by omega))
      (fun j ha hj => hplain j ha (by omega))
      (fun q hq => (Nat.lt_succ_self _).trans (hearly q hq))
    obtain ⟨call, hcall, -, -, hsame, hnext⟩ := hk.wait
      (hrange (a + k) (Nat.le_add_right a k) (by omega))
      (hplain (a + k) (Nat.le_add_right a k) (by omega)) (fun q hq => (hearly q hq).ne)
    refine ⟨calls ++ [call], by rw [List.length_append, hlength, List.length_singleton],
      fun vals => Machine.along_concat.mpr ⟨hsteady vals, hcall vals⟩, ?_, ?_⟩
    · rw [walk_concat, hsame, hchanged]
    · rw [walk_concat]
      have hmilli : milli + 1000 * (a + (k + 1)) = milli + 1000 * (a + k) + 1000 := by ring
      rw [hmilli]
      exact hnext

/-- The plain header at the activation block switches the sets. -/
theorem Waits.switch {sk : SecretKey P} {q : PendingEpoch} {votes : List SealingValidator}
    {number milli : ℕ} {e : LightEngine} (h : Waits sk (some q) votes number milli e)
    (hrange : InRange number milli) (hplain : ¬ (number + 1) % maxwellEpochLength = 0)
    (hdue : number + 1 = q.activateAt) :
    ∃ call l b block header, l.number = number + 1 ∧ block.milliTimestamp = milli + 1000 ∧
      block.gasLimit = mockGasLimit ∧ block.header = some header ∧
      (∃ time, decodeU64 header.timestamp = .ok time ∧ maxwellTime ≤ time) ∧
      (∀ vals, SteadyStep P vals e call) ∧ step P e call =
        (.ok (), e.advance (e.snapshot.next sk.address l b (milli + 1000)) block) ∧
      (step P e call).2.snapshot.voteSet = Snapshot.pendingVoteSet q ∧
      (step P e call).2.snapshot.prevVoteSet = votes ∧
      (step P e call).2.snapshot.setChangedAt = number + 1 ∧
      (step P e call).2.snapshot.validators = q.validators ∧
      (step P e call).2.snapshot.turnLength = q.turnLength ∧
      (step P e call).2.snapshot.pending = none ∧
      (step P e call).2.snapshot.attestation = none := by
  obtain ⟨header, parsed, hash, block, hmilli, hgas, hsource, htime, hsteady, hstep⟩ :=
    h.plain hrange hplain
  have hduring : e.snapshot.pendingDuring
      ⟨number + 1, (e.nextDraft (milli + 1000) []).time, hash⟩ ⟨false, parsed, none⟩ = some q :=
    h.pending
  refine ⟨_, _, _, block, header, rfl, hmilli, hgas, hsource, htime, hsteady, hstep, ?_⟩
  rw [hstep]
  rcases e.snapshot.next_sets sk.address
      ⟨number + 1, (e.nextDraft (milli + 1000) []).time, hash⟩ ⟨false, parsed, none⟩
      (milli + 1000) with ⟨q', hq, -, hvote, hprev, hchanged, hvals, hturn, hpend⟩ | ⟨hnot, -⟩
  · obtain rfl : q = q' := Option.some.inj (hduring.symm.trans hq)
    exact ⟨hvote, hprev.trans h.votes, hchanged, hvals, hturn, hpend,
      (Snapshot.next_attestation _ _ _ _ _).trans h.attestation⟩
  · exact absurd hdue (hnot q hduring)

theorem Waits.announce {sk : SecretKey P} {votes : List SealingValidator}
    {number milli : ℕ} {e : LightEngine} (h : Waits sk none votes number milli e)
    (hrange : InRange number milli) (hepoch : (number + 1) % maxwellEpochLength = 0)
    {vals : List SealingValidator} (hne : vals ≠ []) (hcount : vals.length < 256)
    (hnodup : (vals.map SealingValidator.address).Nodup)
    (hsize : (epochPart vals 8 []).length ≤ 100000) :
    ∃ header now q, q.activateAt = number + 8 ∧ q.turnLength = 8 ∧
      q.validators = (sortByAddress vals).map SealingValidator.address ∧
      Snapshot.pendingVoteSet q = sortByAddress vals ∧
      decodeU64 header.number = .ok (number + 1) ∧
      (∃ time, decodeU64 header.timestamp = .ok time ∧ maxwellTime ≤ time) ∧
      epochRecords header = .ok (sortByAddress vals, 8) ∧ SteadyStep P vals e (header, now) ∧
      Waits sk (some q) votes (number + 1) (milli + 1000) (step P e (header, now)).2 := by
  obtain ⟨mid, hmid⟩ : ∃ mid, mid = epochPart vals 8 [] := ⟨_, rfl⟩
  rw [← hmid] at hsize
  have hfits := hrange.nextDraft_fits h.number hsize
  have hcarries : (e.nextDraft (milli + 1000) mid).Carries true vals (some 8) [] :=
    Draft.carries_epoch hmid hne hcount (by norm_num)
  have hdelay : e.snapshot.delay = 7 := h.sole.snapshot.delay_eq
  rw [← h.number] at hepoch ⊢
  have hlaid : (e.nextDraft (milli + 1000) mid).LaidOut :=
    .inr ⟨vals, 8, [], hmid, hne, hcount, hnodup, by norm_num, by decide⟩
  have hdecide : decide ((e.snapshot.number + 1) % maxwellEpochLength = 0) = true :=
    decide_eq_true hepoch
  obtain ⟨header, parsed, hash, block, ⟨sealBytes, rfl⟩, -, hvals, hturn, -, hmilli, hgas, -, -, hacc,
    hstep⟩ := h.sole.step hfits hlaid le_rfl (by rw [hdecide]; exact hcarries) (fun _ => hne)
      (checkAttestation_nil _ _ _)
  have hsteady : SteadyStep P vals e (_, (e.nextDraft (milli + 1000) mid).time) :=
    ⟨congrArg Prod.fst hstep, hdelay, _, _, _, _, hacc, .inr hvals⟩
  rw [hdecide] at hstep
  have hnumber : decodeU64 ((e.nextDraft (milli + 1000) mid).header sk.address sealBytes
      hash).number = .ok (e.snapshot.number + 1) := by
    simp only [Draft.header]
    exact hfits.reads.number
  have htime : decodeU64 ((e.nextDraft (milli + 1000) mid).header sk.address sealBytes
      hash).timestamp = .ok (e.nextDraft (milli + 1000) mid).time := by
    simp only [Draft.header]
    exact hfits.reads.time
  have hat : (e.snapshot.nextPending (e.snapshot.number + 1) parsed).activateAt =
      e.snapshot.number + 1 + 7 := by
    have hroom : e.snapshot.number + 1 + 7 < u64Size := Draft.small_lt_u64Size (by
      have := hrange.2.1
      rw [h.number]
      omega)
    change wrapAdd (e.snapshot.number + 1) e.snapshot.delay = _
    rw [hdelay, wrapAdd_of_lt hroom]
  refine ⟨(e.nextDraft (milli + 1000) mid).header sk.address sealBytes hash,
    (e.nextDraft (milli + 1000) mid).time, e.snapshot.nextPending (e.snapshot.number + 1) parsed,
    ?_, ?_, ?_, ?_, hnumber, ⟨_, htime, hfits.time.1⟩,
    epochRecords_header _ _ _ hfits hepoch hcarries hne, hsteady, ?_⟩
  · exact hat.trans (Nat.add_assoc _ _ _)
  · change parsed.turnLength.getD _ = 8
    rw [hturn, Option.getD_some]
  · change (sortByAddress parsed.validators).map _ = _
    rw [hvals]
  · rw [Snapshot.pendingVoteSet_nextPending, hvals]
  · rw [hstep]
    rcases e.snapshot.next_sets sk.address
        ⟨e.snapshot.number + 1, (e.nextDraft (milli + 1000) mid).time, hash⟩
        ⟨true, parsed, none⟩ (milli + 1000) with
      ⟨q, hq, hdue, -⟩ | ⟨-, hvote, -, -, hset, hlength, hpend⟩
    · obtain rfl := Option.some.inj hq
      rw [hat] at hdue
      change e.snapshot.number + 1 = _ at hdue
      omega
    · exact ⟨h.sole.advance rfl (hset.trans h.sole.snapshot.validators)
        (hlength.trans h.sole.snapshot.turn) hmilli hgas, hpend, hvote.trans h.votes,
        (Snapshot.next_attestation _ _ _ _ _).trans h.attestation, rfl⟩

/-- An engine whose last block switched from the sets of one validator to announced ones. -/
structure SwitchedAt (sk : SecretKey P) (votes vals : List SealingValidator) (number milli : ℕ)
    (e : LightEngine) : Prop where
  reached : e.snapshot.number = number
  changed : e.snapshot.setChangedAt = number
  voteSet : e.snapshot.voteSet = sortByAddress vals
  prevVoteSet : e.snapshot.prevVoteSet = votes
  validators : e.snapshot.validators = (sortByAddress vals).map SealingValidator.address
  pending : e.snapshot.pending = none
  attestation : e.snapshot.attestation = none
  tip : ∃ block tip time, e.chain.getLast? = some block ∧ block.header = some tip ∧
    decodeU64 tip.timestamp = .ok time ∧ maxwellTime ≤ time
  waits : e.snapshot.validators = [sk.address] →
    e.Waits sk none (sortByAddress vals) number milli

/-- An epoch block, the blocks up to the switch, and the switch. -/
theorem Waits.throughSwitch {sk : SecretKey P} {votes : List SealingValidator} {number milli : ℕ}
    {e : LightEngine} (h : Waits sk none votes number milli e)
    (hrange : ∀ j ≤ 7, InRange (number + j) (milli + 1000 * j))
    (hepoch : (number + 1) % maxwellEpochLength = 0) {vals : List SealingValidator} (hne : vals ≠ [])
    (hcount : vals.length < 256) (hnodup : (vals.map SealingValidator.address).Nodup)
    (hsize : (epochPart vals 8 []).length ≤ 100000) :
    ∃ epoch now calls, calls.length = 7 ∧ Steady P vals e ((epoch, now) :: calls) ∧
      decodeU64 epoch.number = .ok (number + 1) ∧
      (∃ time, decodeU64 epoch.timestamp = .ok time ∧ maxwellTime ≤ time) ∧
      epochRecords epoch = .ok (sortByAddress vals, 8) ∧
      SwitchedAt sk votes vals (number + 8) (milli + 1000 * 8)
        (walk P e ((epoch, now) :: calls)) := by
  have hplain : ∀ j < 8, 0 < j → ¬ (number + j + 1) % maxwellEpochLength = 0 := by
    intro j hj hpos
    unfold maxwellEpochLength at hepoch ⊢
    omega
  obtain ⟨epoch, now, q, hat, hturn, hset, hvoteSet, hnumber, htime, hrecords, hannounced, hone⟩ :=
    h.announce (hrange 0 (by norm_num)) hepoch hne hcount hnodup hsize
  have hearly : ∀ p, some q = some p → number + 1 + 6 < p.activateAt := by
    intro p hp
    rw [← Option.some.inj hp, hat]
    exact Nat.lt_succ_self _
  obtain ⟨calls, hsix, hsteady, -, hlast⟩ := Waits.waits (a := 1) hone 6
    (fun j _ hj => hrange j (by omega)) (fun j hpos hj => hplain j (by omega) hpos) hearly
  obtain ⟨call, l, b, block, tip, hl, hmilli, hgas, hsource, ⟨tipTime, htipTime⟩, hswitch, hstep,
    hvote, hprev, hchanged, hvals, hlength, hnone, hatt⟩ := hlast.switch (hrange 7 le_rfl)
      (hplain 7 (by norm_num) (by norm_num)) (by rw [hat])
  refine ⟨epoch, now, calls ++ [call], by simp [hsix],
    Machine.along_cons.mpr ⟨hannounced, Machine.along_concat.mpr ⟨hsteady vals, hswitch vals⟩⟩,
    hnumber, htime, hrecords, ?_⟩
  have hwalk : walk P e ((epoch, now) :: (calls ++ [call])) =
      (step P (walk P (step P e (epoch, now)).2 calls) call).2 := walk_concat _ _ _ _
  have hreached : (step P (walk P (step P e (epoch, now)).2 calls) call).2.snapshot.number =
      number + 8 := by
    rw [hstep]
    exact hl
  rw [hwalk]
  refine ⟨hreached, hchanged, hvote.trans hvoteSet, hprev, hvals.trans hset, hnone, hatt,
    ⟨block, tip, tipTime, ?_, hsource, htipTime⟩, fun hsole => ?_⟩
  · rw [hstep, advance, getLast?_trimChain, List.getLast?_concat]
  · refine ⟨?_, hnone, hvote.trans hvoteSet, hatt, hreached⟩
    rw [hstep] at hsole hlength ⊢
    exact hlast.sole.advance (by rw [hl, hlast.number]) hsole (hlength.trans hturn) hmilli hgas

end LightEngine

/-- The last block before an epoch block, after the London block and far from the last number. -/
def beforeEpoch : ℕ := 116663999

/-- A walk from a checkpoint to the very block where an announced set replaces the first one. -/
theorem exists_switched (key : VoteKey) {vals : List SealingValidator} (hne : vals ≠ [])
    (hcount : vals.length < 256) (hnodup : (vals.map SealingValidator.address).Nodup)
    (hsize : (epochPart vals 8 []).length ≤ 100000) :
    ∃ cp header₀ now e₀ calls epochHeader milli,
      LightEngine.fromCheckpointAndHeader mockPrimitives cp header₀ now = .ok e₀ ∧
      cp.number = beforeEpoch ∧ calls.length = 8 ∧
      LightEngine.Steady mockPrimitives vals e₀ calls ∧
      decodeU64 epochHeader.number = .ok (beforeEpoch + 1) ∧
      epochRecords epochHeader = .ok (sortByAddress vals, 8) ∧
      LightEngine.InRange (beforeEpoch + 8) milli ∧
      let e := LightEngine.walk mockPrimitives e₀ calls
      e.snapshot.number = beforeEpoch + 8 ∧ e.snapshot.setChangedAt = beforeEpoch + 8 ∧
      e.snapshot.voteSet = sortByAddress vals ∧
      e.snapshot.prevVoteSet = [⟨(mockKey 1).address, key⟩] ∧
      e.snapshot.validators = (sortByAddress vals).map SealingValidator.address ∧
      e.snapshot.pending = none ∧ e.snapshot.attestation = none ∧
      (∃ block tip time, e.chain.getLast? = some block ∧ block.header = some tip ∧
        decodeU64 tip.timestamp = .ok time ∧ maxwellTime ≤ time) ∧
      (e.snapshot.validators = [(mockKey 1).address] →
        e.Waits (mockKey 1) none (sortByAddress vals) (beforeEpoch + 8) milli) := by
  have hlaid : (blankDraft beforeEpoch).LaidOut := .inl (by decide)
  obtain ⟨header₀, hash, e₀, he, hsole, hnumber, -, hvotes, hpending, hatt, -⟩ :=
    exists_sole_engine (mockKey 1) key (blankDraft_fits (by decide) (by decide)) hlaid
  have hrange₀ : 1770000000000 ≤ (blankDraft beforeEpoch).milli ∧
      (blankDraft beforeEpoch).milli + 9000 < 1780000000000 := by decide
  generalize (blankDraft beforeEpoch).milli = milli at hsole hrange₀
  have hlow : londonBlock ≤ beforeEpoch := by decide
  have hhigh : beforeEpoch + 8 + 8 < 2 ^ 32 := by decide
  have hrange : ∀ j ≤ 8, LightEngine.InRange (beforeEpoch + j) (milli + 1000 * j) :=
    fun j hj => ⟨by omega, by omega, by omega, by omega⟩
  have hstart : e₀.Waits (mockKey 1) none [⟨(mockKey 1).address, key⟩] beforeEpoch milli :=
    ⟨hsole, hpending, hvotes, hatt, hnumber⟩
  obtain ⟨epochHeader, time, calls, hseven, hsteady, hepochNumber, -, hrecords, hswitched⟩ :=
    hstart.throughSwitch (fun j hj => hrange j (by omega)) (by decide) hne hcount hnodup hsize
  obtain ⟨hreached, hchanged, hvote, hprev, hvals, hnone, hatt', htip, hwaits⟩ := hswitched
  exact ⟨_, header₀, _, e₀, (epochHeader, time) :: calls, epochHeader, milli + 1000 * 8, he, rfl,
    by simp [hseven], hsteady, hepochNumber, hrecords, hrange 8 le_rfl, hreached, hchanged, hvote,
    hprev, hvals, hnone, hatt', htip, hwaits⟩

theorem Draft.exists_epochHeader {d : Draft} {turn : ℕ} (hfits : d.Fits)
    (hepoch : d.number % maxwellEpochLength = 0) (hturn : turn < 256) {v : SealingValidator}
    (hmid : d.mid = epochPart [v] turn []) :
    ∃ header, decodeU64 header.number = .ok d.number ∧ decodeU64 header.timestamp = .ok d.time ∧
      epochRecords header = .ok (sortByAddress [v], turn) := by
  have hcarries : d.Carries true [v] (some turn) [] :=
    Draft.carries_epoch hmid (by simp) (by simp) hturn
  refine ⟨d.header v.address (.repeated 65 0) (.repeated 32 0), ?_, ?_, ?_⟩
  · simp only [Draft.header]
    exact hfits.reads.number
  · simp only [Draft.header]
    exact hfits.reads.time
  · exact epochRecords_header _ _ _ hfits hepoch hcarries (by simp)

/-- From the activation block to the end of the epoch the set of the epoch header is active, if the
epoch before it had one validator. -/
theorem epochSeedAt_switched {first n : ℕ} (hepoch : first % maxwellEpochLength = 0)
    (hlondon : londonBlock + maxwellEpochLength ≤ first) (hlow : first + 7 ≤ n)
    (hhigh : n < first + maxwellEpochLength) {epochHeader : RpcBlockHeader}
    {vals : List SealingValidator} (v : SealingValidator)
    (hnumber : decodeU64 epochHeader.number = .ok first)
    (hrecords : epochRecords epochHeader = .ok (vals, 8)) :
    ∃ prevEpochHeader, epochSeedAt n maxwellEpochLength epochHeader prevEpochHeader =
      .ok (.active first 8) := by
  have hpos : 0 < maxwellEpochLength := by decide
  obtain ⟨d, hd⟩ : ∃ d : Draft, d = ⟨first - maxwellEpochLength, .repeated 32 0, 1770000000000,
    .repeated 32 0, diffInTurn, epochPart [v] 8 []⟩ := ⟨_, rfl⟩
  have hfits : d.Fits := by
    have hblank := @blankDraft_fits sealedChainStart (by decide) (by decide)
    have hlt := decodeU64_lt hnumber
    rw [hd]
    refine ⟨⟨Nat.le_sub_of_add_le hlondon, (Nat.sub_le _ _).trans_lt hlt⟩, hblank.milli,
      hblank.difficulty, ?_⟩
    rw [length_epochPart, List.length_singleton, List.length_nil]
    decide
  have hboundary : d.number % maxwellEpochLength = 0 := by
    rw [hd]
    exact (Nat.mod_eq_sub_mod (by omega : maxwellEpochLength ≤ first)).symm.trans hepoch
  have hmid : d.mid = epochPart [v] 8 [] := by rw [hd]
  obtain ⟨prevEpochHeader, hprevNumber, -, hprev⟩ :=
    Draft.exists_epochHeader hfits hboundary (by norm_num) hmid
  rw [show d.number = first - maxwellEpochLength by rw [hd]] at hprevNumber
  have hadjacent : ¬ (maxwellEpochLength = 0 ∨ ¬ (first - maxwellEpochLength ≤ first ∧
      first - (first - maxwellEpochLength) = maxwellEpochLength)) := by omega
  have hinside : ¬ (n < first ∨ maxwellEpochLength ≤ n - first) := by omega
  have hlength : (sortByAddress [v]).length = 1 := Snapshot.length_sortByAddress [v]
  have hdelay : minerHistoryCheckLen (1 % 2 ^ 32) 8 = 7 := by decide
  have hactive : satAdd first 7 ≤ n := by
    unfold satAdd
    exact (Nat.min_le_left _ _).trans hlow
  refine ⟨prevEpochHeader, ?_⟩
  unfold epochSeedAt
  rw [hnumber, hprevNumber, hrecords, hprev]
  simp only [mapError_ok, ok_bind, require_of hadjacent, require_of hinside, hlength, hdelay,
    if_pos hactive, pure_eq_ok]

end HeliosBsc
