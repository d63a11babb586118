import HeliosBsc.Mock.Activation

/-!
# Is the set of an epoch active?

Two functions answer it for a block inside the epoch. `epoch_seed_at` measures the delay with the
set and the turn length in force before the epoch block, read off the epoch header before it.
`sealing_set_from_activated_epoch` in `consensus/src/lib.rs`, which writes checkpoints, has only the
epoch header itself and measures the delay with the set and the turn length it announces.
-/

namespace HeliosBsc

open Checked

/-- `ConsensusError`, as far as the functions below return it. -/
inductive ActivatedEpochError where
  | notEpoch (number epochLength : ℕ)
  | emptyEpochValidators (number : ℕ)
  | epochSetNotActivated (epoch activateAt checkpoint : ℕ)
  | types (e : TypesError)
  | extra (e : ExtraError)
  deriving DecidableEq, Repr

/-- `validators_from_activated_epoch`. -/
def validatorsFromActivatedEpoch (epochHeader : RpcBlockHeader) (checkpointNumber : ℕ) :
    Except ActivatedEpochError (List SealingValidator) := do
  let number ← (decodeU64 epochHeader.number).mapError .types
  let timestamp ← (decodeU64 epochHeader.timestamp).mapError .types
  let fork := paramsAt number timestamp
  require (number % fork.epochLength = 0) (.notEpoch number fork.epochLength)
  let extra ← (decodeHex epochHeader.extraData).mapError .types
  let parsed ← (parseExtra extra .bohr true).mapError .extra
  require (parsed.validators ≠ []) (.emptyEpochValidators number)
  let n := parsed.validators.length % 2 ^ 32
  let turn := parsed.turnLength.getD fork.turnLength
  let activateAt := satAdd number (minerHistoryCheckLen n turn)
  require (activateAt ≤ checkpointNumber)
    (.epochSetNotActivated number activateAt checkpointNumber)
  return parsed.validators

/-- `sealing_set_from_activated_epoch`. -/
def sealingSetFromActivatedEpoch (epochHeader : RpcBlockHeader) (checkpointNumber : ℕ) :
    Except ActivatedEpochError (List String) := do
  let validators ← validatorsFromActivatedEpoch epochHeader checkpointNumber
  return validators.map fun v => formatAddress v.address

/-! ## Epoch headers -/

/-- An epoch header from Maxwell on, with its number, its validators in order and its turn
length. -/
structure EpochHeader (header : RpcBlockHeader) (number : ℕ) (vals : List SealingValidator)
    (turn : ℕ) : Prop where
  number : decodeU64 header.number = .ok number
  time : ∃ t, decodeU64 header.timestamp = .ok t ∧ maxwellTime ≤ t
  records : epochRecords header = .ok (vals, turn)

/-- The blocks that pass from an epoch block to the switch, with this set and turn length in
force. -/
def switchDelay (vals : List SealingValidator) (turn : ℕ) : ℕ :=
  minerHistoryCheckLen (vals.length % 2 ^ 32) turn

section

variable {header : RpcBlockHeader} {number turn : ℕ} {vals : List SealingValidator}

theorem EpochHeader.parsed (h : EpochHeader header number vals turn) :
    number % maxwellEpochLength = 0 ∧ ∃ extra parsed, decodeHex header.extraData = .ok extra ∧
      parseExtra extra .bohr true = .ok parsed ∧ parsed.validators ≠ [] ∧
      vals = sortByAddress parsed.validators ∧ parsed.turnLength = some turn := by
  obtain ⟨t, htime, hmaxwell⟩ := h.time
  obtain ⟨hlength, hversion, -, -⟩ := paramsAt_of_maxwell number hmaxwell
  have hrecords := h.records
  simp only [epochRecords, h.number, htime, mapError_ok, ok_bind, bind_eq_ok, mapError_eq_ok,
    require_eq_ok, pure_eq_ok, Except.ok.injEq, Prod.mk.injEq, hlength, hversion,
    exists_const] at hrecords
  obtain ⟨hboundary, extra, hextra, parsed, hparsed, hne, rfl, hturn⟩ := hrecords
  obtain ⟨-, -, t', ht', -⟩ := parseExtra_bohr_true hparsed
  rw [ht', Option.getD_some] at hturn
  rw [not_or, not_not] at hboundary
  exact ⟨hboundary.2, extra, parsed, hextra, hparsed, hne, rfl, by rw [ht', hturn]⟩

/-- The set may be written from the delay on that its own size and turn length give. -/
theorem sealingSet_ok_iff (h : EpochHeader header number vals turn) (c : ℕ) :
    (∃ set, sealingSetFromActivatedEpoch header c = .ok set) ↔
      satAdd number (switchDelay vals turn) ≤ c := by
  obtain ⟨t, htime, hmaxwell⟩ := h.time
  obtain ⟨hboundary, extra, parsed, hextra, hparsed, hne, rfl, hturn⟩ := h.parsed
  have hepoch : number % (paramsAt number t).epochLength = 0 := by
    rw [(paramsAt_of_maxwell number hmaxwell).1, hboundary]
  simp only [sealingSetFromActivatedEpoch, validatorsFromActivatedEpoch, h.number, htime, hextra,
    hparsed, mapError_ok, ok_bind, require_of hepoch, require_of hne, hturn, Option.getD_some,
    bind_eq_ok, require_eq_ok, pure_eq_ok, Except.ok.injEq, switchDelay,
    Snapshot.length_sortByAddress]
  constructor
  · rintro ⟨-, -, ⟨-, hle, -⟩, -⟩
    exact hle
  · intro hle
    exact ⟨_, _, ⟨(), hle, rfl⟩, rfl⟩

/-- The answer of `epoch_seed_at` for a block inside the epoch. -/
theorem epochSeedAt_eq {prevHeader : RpcBlockHeader} {prevVals : List SealingValidator}
    {prevTurn c : ℕ} (hnumber : decodeU64 header.number = .ok number)
    (hown : epochRecords header = .ok (vals, turn))
    (hprev : decodeU64 prevHeader.number = .ok (number - maxwellEpochLength))
    (hrecords : epochRecords prevHeader = .ok (prevVals, prevTurn))
    (hfrom : maxwellEpochLength ≤ number) (hc : number ≤ c ∧ c < number + maxwellEpochLength) :
    epochSeedAt c maxwellEpochLength header prevHeader =
      if satAdd number (switchDelay prevVals prevTurn) ≤ c then .ok (.active number turn)
      else .ok (.pendingActivation number (satAdd number (switchDelay prevVals prevTurn))) := by
  have hlength : maxwellEpochLength = 1000 := rfl
  have hadjacent : ¬ (maxwellEpochLength = 0 ∨ ¬ (number - maxwellEpochLength ≤ number ∧
      number - (number - maxwellEpochLength) = maxwellEpochLength)) := by omega
  have hinside : ¬ (c < number ∨ maxwellEpochLength ≤ c - number) := by omega
  unfold epochSeedAt
  rw [hnumber, hprev, hown, hrecords]
  simp only [mapError_ok, ok_bind, require_of hadjacent, require_of hinside, switchDelay,
    pure_eq_ok]
  rfl

end

/-! ## The two answers compared -/

section

variable {epochHeader prevHeader : RpcBlockHeader} {epoch turn prevTurn : ℕ}
  {vals prevVals : List SealingValidator}

/-- A set that may be written into a checkpoint is active there exactly when the block is not
between the two heights: at or after the one computed from the announced set, and before the one
computed from the set in force. -/
theorem sealing_set_active_iff (hepoch : EpochHeader epochHeader (epoch + 1000) vals turn)
    (hprev : EpochHeader prevHeader epoch prevVals prevTurn) (c : ℕ)
    (hc : epoch + 1000 ≤ c ∧ c < epoch + 1000 + 1000) :
    ((∃ set, sealingSetFromActivatedEpoch epochHeader c = .ok set) →
        ∃ block turnLength, epochSeedAt c 1000 epochHeader prevHeader =
          .ok (.active block turnLength)) ↔
      (c < satAdd (epoch + 1000) (switchDelay vals turn) ∨
        satAdd (epoch + 1000) (switchDelay prevVals prevTurn) ≤ c) := by
  have hprevNumber : decodeU64 prevHeader.number = .ok (epoch + 1000 - maxwellEpochLength) := by
    rw [hprev.number, maxwellEpochLength, Nat.add_sub_cancel]
  have hfrom : maxwellEpochLength ≤ epoch + 1000 := Nat.le_add_left _ _
  have hseed := epochSeedAt_eq hepoch.number hepoch.records hprevNumber hprev.records
    hfrom hc
  rw [maxwellEpochLength] at hseed
  rw [sealingSet_ok_iff hepoch, hseed, ← not_le, imp_iff_not_or]
  by_cases hactive : satAdd (epoch + 1000) (switchDelay prevVals prevTurn) ≤ c
  · simp [hactive]
  · simp [hactive]

end

theorem exists_epochHeaders {prevTurn turn : ℕ} (hprevTurn : prevTurn < 256) (hturn : turn < 256) :
    ∃ prevHeader epochHeader prevVals vals, prevVals.length = 1 ∧ vals.length = 1 ∧
      EpochHeader prevHeader (beforeEpoch + 1) prevVals prevTurn ∧
      EpochHeader epochHeader (beforeEpoch + 1 + 1000) vals turn := by
  have hheader : ∀ number turn, londonBlock ≤ number → number < 2 ^ 32 →
      number % maxwellEpochLength = 0 → turn < 256 →
      ∃ header, EpochHeader header number (sortByAddress [⟨.repeated 20 1, .repeated 48 1⟩])
        turn := by
    intro number turn hlow hhigh hepoch hturn
    have hblank := blankDraft_fits hlow hhigh
    obtain ⟨mid, hmid⟩ : ∃ mid, mid = epochPart [⟨.repeated 20 1, .repeated 48 1⟩] turn [] :=
      ⟨_, rfl⟩
    have hsize : mid.length ≤ 100000 := by
      rw [hmid, length_epochPart, List.length_singleton, List.length_nil]
      decide
    have hfits : ({ blankDraft number with mid := mid } : Draft).Fits :=
      ⟨hblank.number, hblank.milli, hblank.difficulty, hsize⟩
    obtain ⟨header, hread, htime, hrecords⟩ := Draft.exists_epochHeader hfits hepoch hturn hmid
    exact ⟨header, hread, ⟨_, htime, hfits.time.1⟩, hrecords⟩
  obtain ⟨prevHeader, hprev⟩ := hheader (beforeEpoch + 1) prevTurn (by decide) (by decide)
    (by decide) hprevTurn
  obtain ⟨epochHeader, hepoch⟩ := hheader (beforeEpoch + 1 + 1000) turn (by decide) (by decide)
    (by decide) hturn
  exact ⟨prevHeader, epochHeader, _, _, Snapshot.length_sortByAddress _,
    Snapshot.length_sortByAddress _, hprev, hepoch⟩

/-- Two epochs with the same turn length, at the height where the set switches. -/
theorem sealing_set_active_iff_same :
    ∃ prevHeader epochHeader vals prevVals,
      EpochHeader prevHeader (beforeEpoch + 1) prevVals 8 ∧
      EpochHeader epochHeader (beforeEpoch + 1 + 1000) vals 8 ∧
      (((∃ set, sealingSetFromActivatedEpoch epochHeader (beforeEpoch + 1 + 1000 + 7) = .ok set) →
          ∃ block turnLength, epochSeedAt (beforeEpoch + 1 + 1000 + 7) 1000 epochHeader
            prevHeader = .ok (.active block turnLength)) ↔
        (beforeEpoch + 1 + 1000 + 7 < satAdd (beforeEpoch + 1 + 1000) (switchDelay vals 8) ∨
          satAdd (beforeEpoch + 1 + 1000) (switchDelay prevVals 8) ≤
            beforeEpoch + 1 + 1000 + 7)) := by
  obtain ⟨prevHeader, epochHeader, prevVals, vals, -, -, hprev, hepoch⟩ :=
    exists_epochHeaders (show 8 < 256 by norm_num) (show 8 < 256 by norm_num)
  exact ⟨prevHeader, epochHeader, vals, prevVals, hprev, hepoch,
    sealing_set_active_iff hepoch hprev _ (by norm_num)⟩

/-- The turn length falls from 16 to 8: ten blocks into the epoch the announced set may be written,
and the set in force is still the old one. -/
theorem sealing_set_not_active :
    ¬ ∀ epochHeader prevHeader epoch vals turn prevVals prevTurn c,
      EpochHeader epochHeader (epoch + 1000) vals turn →
      EpochHeader prevHeader epoch prevVals prevTurn →
      (epoch + 1000 ≤ c ∧ c < epoch + 1000 + 1000) →
      (∃ set, sealingSetFromActivatedEpoch epochHeader c = .ok set) →
      ∃ block turnLength, epochSeedAt c 1000 epochHeader prevHeader =
        .ok (.active block turnLength) := by
  intro hall
  obtain ⟨prevHeader, epochHeader, prevVals, vals, hprevOne, hone, hprev, hepoch⟩ :=
    exists_epochHeaders (show 16 < 256 by norm_num) (show 8 < 256 by norm_num)
  have hdelay : minerHistoryCheckLen (1 % 2 ^ 32) 8 = 7 := by decide
  have hprevDelay : minerHistoryCheckLen (1 % 2 ^ 32) 16 = 15 := by decide
  have hown : satAdd (beforeEpoch + 1 + 1000) (switchDelay vals 8) ≤
      beforeEpoch + 1 + 1000 + 10 := by
    rw [switchDelay, hone, hdelay]
    exact (Nat.min_le_left _ _).trans (by norm_num)
  have hprevNumber : decodeU64 prevHeader.number =
      .ok (beforeEpoch + 1 + 1000 - maxwellEpochLength) := hprev.number
  have hseed := epochSeedAt_eq (c := beforeEpoch + 1 + 1000 + 10) hepoch.number hepoch.records
    hprevNumber hprev.records (by decide) (by decide)
  have hlate : ¬ satAdd (beforeEpoch + 1 + 1000) (switchDelay prevVals 16) ≤
      beforeEpoch + 1 + 1000 + 10 := by
    rw [switchDelay, hprevOne, hprevDelay]
    norm_num [satAdd, beforeEpoch, u64Size]
  rw [if_neg hlate, maxwellEpochLength] at hseed
  obtain ⟨block, turnLength, hactive⟩ := hall _ _ _ _ _ _ _ (beforeEpoch + 1 + 1000 + 10) hepoch
    hprev (by norm_num) ((sealingSet_ok_iff hepoch _).mpr hown)
  rw [hseed] at hactive
  cases hactive

end HeliosBsc
