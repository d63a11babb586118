import HeliosBsc.Consensus.Vote
import HeliosBsc.Lib.Bisect

/-!
# The sealing-set snapshot

`consensus/src/snapshot.rs`: the validator set in force at a block, the announcement and the
activation of the next one, the recent sealers, and the newest attestation. `applyVerified` is the
transition of one header. It returns the state also when it refuses, because the source changes
`recents` before its last checks.
-/

namespace HeliosBsc

open Checked

/-! ## Recent sealers -/

/-- `HashMap<u64, [u8; 20]>`: block number to sealer. -/
structure Recents where
  entries : List (ℕ × Address)
  nodup : (entries.map Prod.fst).Nodup

namespace Recents

@[ext] theorem ext {a b : Recents} (h : a.entries = b.entries) : a = b := by
  cases a
  cases b
  congr

def empty : Recents := ⟨[], List.nodup_nil⟩

/-- `retain`, by block number. -/
def retain (r : Recents) (keep : ℕ → Bool) : Recents where
  entries := r.entries.filter fun e => keep e.1
  nodup := (List.filter_sublist.map _).nodup r.nodup

theorem mem_of_mem_retain {r : Recents} {keep : ℕ → Bool} {e : ℕ × Address}
    (h : e ∈ (r.retain keep).entries) : e ∈ r.entries :=
  List.mem_of_mem_filter h

/-- `remove`. -/
def remove (r : Recents) (block : ℕ) : Recents := r.retain fun b => b != block

/-- `insert`. -/
def insert (r : Recents) (block : ℕ) (sealer : Address) : Recents where
  entries := (block, sealer) :: (r.remove block).entries
  nodup := by
    refine List.nodup_cons.mpr ⟨?_, (r.remove block).nodup⟩
    simp [remove, retain]

end Recents

/-- `RECENT_EPOCH_SENTINEL`. -/
def recentEpochSentinel : Address := .repeated 20 0

/-! ## State -/

/-- `SnapshotError`. -/
inductive SnapshotError where
  | sealErr (e : SealError)
  | extra (e : ExtraError)
  | types (e : TypesError)
  | numberMismatch (want got : ℕ)
  | parentHashMismatch
  | unauthorized (signer : String)
  | missingEpochExtra (number : ℕ)
  | badDifficulty (got : ℕ)
  | difficultyMismatch (got want : ℕ)
  | recentlySigned (signer : String)
  | vote (e : VoteError)
  | attestationTarget (want got : ℕ)
  | attestationTargetHash
  | attestationSource (want got : ℕ)
  | attestationSourceHash
  | notEpochBoundary (number epochLength : ℕ)
  | epochHeadersNotAdjacent (newer older epochLength : ℕ)
  | seedEpochMismatch (checkpoint epoch : ℕ)
  | seedAfterWalk (number : ℕ)
  deriving DecidableEq, Repr

def SnapshotError.message : SnapshotError → String
  | sealErr e => e.message
  | extra e => e.message
  | types e => e.message
  | numberMismatch want got => s!"header {got} does not follow parent {want}"
  | parentHashMismatch => "parent hash mismatch"
  | unauthorized signer => s!"signer {signer} not in active sealing set"
  | missingEpochExtra number => s!"epoch extraData missing at boundary {number}"
  | badDifficulty got => s!"Parlia difficulty {got} is not 1 or 2"
  | difficultyMismatch got want => s!"difficulty {got} does not match in-turn (want {want})"
  | recentlySigned signer => s!"signer {signer} signed too recently (seenTimes >= turnLength)"
  | vote e => e.message
  | attestationTarget want got =>
    s!"attestation targets block {got}, outside the ancestor window ending at parent {want}"
  | attestationTargetHash => "attestation target hash does not match the parent hash"
  | attestationSource want got => s!"attestation source {got} is not the justified block {want}"
  | attestationSourceHash => "attestation source hash does not match the justified block"
  | notEpochBoundary number epochLength =>
    s!"header {number} is not an epoch boundary (epochLength={epochLength})"
  | epochHeadersNotAdjacent newer older epochLength =>
    s!"epoch headers {newer} and {older} are not one epoch ({epochLength}) apart"
  | seedEpochMismatch checkpoint epoch => s!"checkpoint {checkpoint} is not inside epoch {epoch}"
  | seedAfterWalk number =>
    s!"epoch state can only be seeded before the first header is walked (at {number})"

/-- `PendingEpoch`. -/
structure PendingEpoch where
  epochBlock : ℕ
  activateAt : ℕ
  validators : List Address
  voteKeys : List VoteKey
  turnLength : ℕ

/-- `EpochSeed`. -/
inductive EpochSeed where
  | active (epochBlock turnLength : ℕ)
  | pendingActivation (epochBlock activateAt : ℕ)
  deriving DecidableEq, Repr

/-- `Snapshot`. -/
structure Snapshot where
  number : ℕ
  hash : Hash
  epochLength : ℕ
  turnLength : ℕ
  validators : List Address
  pending : Option PendingEpoch
  enforceInturn : Bool
  recents : Recents
  voteSet : List SealingValidator
  prevVoteSet : List SealingValidator
  setChangedAt : ℕ
  attestation : Option VoteData
  lastMilli : Option ℕ
  walkStart : ℕ
  ancestors : List (ℕ × Hash)

/-- `sort_by_key(|v| v.address)`. -/
def sortByAddress (vals : List SealingValidator) : List SealingValidator :=
  vals.mergeSort fun a b => a.address.le b.address

/-- `epoch_records`. -/
def epochRecords (header : RpcBlockHeader) :
    Except SnapshotError (List SealingValidator × ℕ) := do
  let number ← (decodeU64 header.number).mapError .types
  let timestamp ← (decodeU64 header.timestamp).mapError .types
  let fork := paramsAt number timestamp
  require (¬ (fork.epochLength = 0 ∨ number % fork.epochLength ≠ 0))
    (.notEpochBoundary number fork.epochLength)
  let extra ← (decodeHex header.extraData).mapError .types
  let parsed ← (parseExtra extra fork.extraDataVersion true).mapError .extra
  require (parsed.validators ≠ []) (.missingEpochExtra number)
  return (sortByAddress parsed.validators, parsed.turnLength.getD fork.turnLength)

/-- `epoch_seed_at`. -/
def epochSeedAt (checkpointNumber epochLength : ℕ) (epochHeader prevEpochHeader : RpcBlockHeader) :
    Except SnapshotError EpochSeed := do
  let epochBlock ← (decodeU64 epochHeader.number).mapError .types
  let prevBlock ← (decodeU64 prevEpochHeader.number).mapError .types
  require (¬ (epochLength = 0 ∨ ¬ (prevBlock ≤ epochBlock ∧ epochBlock - prevBlock = epochLength)))
    (.epochHeadersNotAdjacent epochBlock prevBlock epochLength)
  require (¬ (checkpointNumber < epochBlock ∨ epochLength ≤ checkpointNumber - epochBlock))
    (.seedEpochMismatch checkpointNumber epochBlock)
  let (_, turnLength) ← epochRecords epochHeader
  let (prevVals, prevTurn) ← epochRecords prevEpochHeader
  let activateAt := satAdd epochBlock (minerHistoryCheckLen (prevVals.length % 2 ^ 32) prevTurn)
  if activateAt ≤ checkpointNumber then return .active epochBlock turnLength
  else return .pendingActivation epochBlock activateAt

namespace Snapshot

/-- The pairs that `from_checkpoint` makes of addresses and key strings. -/
def decodePairs : List (Address × String) → Except SnapshotError (List SealingValidator)
  | [] => .ok []
  | (address, key) :: rest => do
    let voteKey ← (decodeHexFixed 48 key).mapError .types
    let pairs ← decodePairs rest
    return { address, voteKey } :: pairs

/-- The vote set of a checkpoint: addresses and keys are sorted as pairs. -/
def checkpointVoteSet (validators : List Address) (voteKeys : Option (List String)) :
    Except SnapshotError (List SealingValidator) :=
  match voteKeys with
  | some keys =>
    if keys.length = validators.length then sortByAddress <$> decodePairs (validators.zip keys)
    else .ok []
  | none => .ok []

/-- `Snapshot::from_checkpoint`. -/
def fromCheckpoint (cp : Checkpoint) : Except SnapshotError Snapshot := do
  let validators ← (cp.sealingSet.mapM (decodeHexFixed 20)).mapError .types
  let voteSet ← checkpointVoteSet validators cp.voteKeys
  let fork := paramsAt cp.number cp.timestamp
  let hash ← (decodeHexFixed 32 cp.hash).mapError .types
  return {
    number := cp.number
    hash := hash
    epochLength := fork.epochLength
    turnLength := fork.turnLength
    validators := validators.mergeSort FixedBytes.le
    pending := none
    enforceInturn := true
    recents := .empty
    voteSet := voteSet
    prevVoteSet := []
    setChangedAt := 0
    attestation := none
    lastMilli := none
    walkStart := satAdd cp.number 1
    ancestors := [(cp.number, hash)] }

/-- `Snapshot::seed_turn_length`. -/
def seedTurnLength (s : Snapshot) (turnLength : ℕ) : Except SnapshotError Snapshot := do
  require (s.number < s.walkStart) (.seedAfterWalk s.number)
  if 0 < turnLength then return { s with turnLength := turnLength } else return s

/-- `Snapshot::vote_keys_hex`. -/
def voteKeysHex (s : Snapshot) : Option (List String) :=
  if s.voteSet = [] then none else some (s.voteSet.map fun v => hexPrefixed v.voteKey.val)

/-- `Snapshot::justified`. -/
def justified (s : Snapshot) : Option (ℕ × Hash) :=
  s.attestation.map fun a => (a.targetNumber, a.targetHash)

/-- `Snapshot::finalized`. -/
def finalized (s : Snapshot) : Option (ℕ × Hash) :=
  s.attestation.map fun a => (a.sourceNumber, a.sourceHash)

/-- `Snapshot::finalized_number`. -/
def finalizedNumber (s : Snapshot) : ℕ := (s.attestation.map VoteData.sourceNumber).getD 0

/-- `Snapshot::attestation_set`. -/
def attestationSet (s : Snapshot) (targetNumber : ℕ) : List SealingValidator :=
  if targetNumber - 1 < s.setChangedAt then s.prevVoteSet else s.voteSet

/-- `Snapshot::ancestor_hash`. -/
def ancestorHash (s : Snapshot) (number : ℕ) : Option Hash :=
  (s.ancestors.reverse.find? fun a => a.1 = number).map Prod.snd

/-- `Snapshot::n_seal`. -/
def nSeal (s : Snapshot) : ℕ := s.validators.length % 2 ^ 32

/-- `Snapshot::delay`. -/
def delay (s : Snapshot) : ℕ := minerHistoryCheckLen s.nSeal s.turnLength

/-- `Snapshot::contains`: a `binary_search` of the list. -/
def contains (s : Snapshot) (addr : Address) : Bool :=
  Bisect.contains FixedBytes.le s.validators addr

/-- `Snapshot::inturn_validator`. -/
def inturnValidator (s : Snapshot) : Option Address :=
  let n := s.validators.length
  if n = 0 ∨ s.turnLength = 0 then none
  else s.validators[satAdd s.number 1 / s.turnLength % n]?

/-- `Snapshot::expected_difficulty`. -/
def expectedDifficulty (s : Snapshot) (signer : Address) : ℕ :=
  if s.inturnValidator = some signer then diffInTurn else diffNoTurn

/-- How often `sign_recently` sees the signer. -/
def seenTimes (s : Snapshot) (signer : Address) : ℕ :=
  let leftBound := s.number - s.delay
  (s.recents.entries.filter fun e =>
    leftBound < e.1 ∧ e.2 ≠ recentEpochSentinel ∧ e.2 = signer).length

/-- `Snapshot::sign_recently`: the counter is a `u8` that saturates, and is compared each time it
is raised. -/
def signRecently (s : Snapshot) (signer : Address) : Bool :=
  let seen := s.seenTimes signer
  decide (0 < seen ∧ s.turnLength ≤ min seen 255)

/-- `Snapshot::recents_window_walked`. -/
def recentsWindowWalked (s : Snapshot) : Bool :=
  let leftBound := s.number - s.delay
  decide (s.walkStart ≤ satAdd leftBound 1)

/-- `Snapshot::backoff_context`. -/
def backoffContext (s : Snapshot) : BackoffContext where
  parentMilli := s.lastMilli.getD 0
  known := s.enforceInturn && decide (0 < s.turnLength) && decide (s.validators ≠ []) &&
    s.lastMilli.isSome && s.recentsWindowWalked
  inTurnSignedRecently := (s.inturnValidator.map s.signRecently).getD true

/-- `Snapshot::sealing_set_hex`. -/
def sealingSetHex (s : Snapshot) : List String := s.validators.map formatAddress

/-! ## The attestation of a header -/

section

variable (P : Primitives)

/-- The source of a vote is the block this snapshot holds justified, if it holds one. -/
def checkSource (current : Option VoteData) (data : VoteData) : Except SnapshotError Unit :=
  match current with
  | none => .ok ()
  | some justified => do
    require (data.sourceNumber = justified.targetNumber)
      (.attestationSource justified.targetNumber data.sourceNumber)
    require (data.sourceHash = justified.targetHash) .attestationSourceHash

/-- The part of `check_attestation` after the vote is decoded. -/
def checkVote (s : Snapshot) (att : VoteAttestation) (number timestamp : ℕ) :
    Except SnapshotError (Option VoteData) := do
  att.data.sourceBelowTarget.mapError .vote
  let set := s.attestationSet att.data.targetNumber
  if set = [] then return none
  else
    let window := attestationTargetWindow number timestamp
    require (window.1 ≤ att.data.targetNumber ∧ att.data.targetNumber ≤ window.2)
      (.attestationTarget window.2 att.data.targetNumber)
    match s.ancestorHash att.data.targetNumber with
    | none => return none
    | some h => do
      require (h = att.data.targetHash) .attestationTargetHash
      checkSource s.attestation att.data
      (verifyAttestationSignature P att set).mapError .vote
      return some att.data

/-- `Snapshot::check_attestation`: `none` when there is nothing to adopt. -/
def checkAttestation (s : Snapshot) (raw : Bytes) (number timestamp : ℕ) :
    Except SnapshotError (Option VoteData) := do
  match ← (decodeVoteAttestation raw).mapError .vote with
  | none => return none
  | some att => s.checkVote P att number timestamp

end

/-! ## One header -/

/-- `Snapshot::adopt_attestation`: the attestation that replaces the current one. -/
def adoptAttestation (current : Option VoteData) (data : VoteData) : VoteData :=
  match current with
  | some cur =>
    -- a non-contiguous vote moves only the target
    if satAdd data.sourceNumber 1 ≠ data.targetNumber then
      { cur with targetNumber := data.targetNumber, targetHash := data.targetHash }
    else data
  | none => data

/-- `Snapshot::prune_recents_to_finalized`. -/
def pruneRecentsToFinalized (s : Snapshot) : Snapshot :=
  { s with recents := s.recents.retain fun block => s.finalizedNumber < block }

/-- `Snapshot::advance_epoch_length`. -/
def advanceEpochLength (s : Snapshot) (number time : ℕ) : Snapshot :=
  let next := satAdd number 1
  let first :=
    if s.epochLength = defaultEpochLength ∧ lorentzTime ≤ time ∧ next % lorentzEpochLength = 0 then
      lorentzEpochLength
    else s.epochLength
  let second :=
    if first = lorentzEpochLength ∧ maxwellTime ≤ time ∧ next % maxwellEpochLength = 0 then
      maxwellEpochLength
    else first
  { s with epochLength := second }

/-- What an epoch block announces. -/
def nextPending (s : Snapshot) (number : ℕ) (parsed : ParsedExtra) : PendingEpoch :=
  let vals := sortByAddress parsed.validators
  { epochBlock := number
    activateAt := wrapAdd number (minerHistoryCheckLen s.nSeal s.turnLength)
    validators := vals.map SealingValidator.address
    voteKeys := vals.map SealingValidator.voteKey
    turnLength := parsed.turnLength.getD s.turnLength }

/-- The vote set of a pending epoch. -/
def pendingVoteSet (p : PendingEpoch) : List SealingValidator :=
  if p.voteKeys.length = p.validators.length then
    (p.validators.zip p.voteKeys).map fun v => { address := v.1, voteKey := v.2 }
  else []

/-- The switch to a pending set at its activation block. -/
def activate (s : Snapshot) (number : ℕ) : Snapshot :=
  match s.pending with
  | none => s
  | some p =>
    if number = p.activateAt then
      let cleared := Recents.empty
      { s with
        prevVoteSet := s.voteSet
        voteSet := pendingVoteSet p
        setChangedAt := number
        validators := p.validators
        turnLength := p.turnLength
        pending := none
        recents :=
          if s.epochLength = 0 then cleared
          else cleared.insert (u64Size - 1 - number / s.epochLength) recentEpochSentinel }
    else s

/-- The new tip and the window of the newest blocks. -/
def moveTo (s : Snapshot) (number : ℕ) (hash : Hash) : Snapshot :=
  let ancestors := s.ancestors ++ [(number, hash)]
  { s with
    number := number
    hash := hash
    ancestors := ancestors.drop (ancestors.length - kAncestorGenerationDepth) }

/-- What the link checks have read off the header. -/
structure Link where
  number : ℕ
  time : ℕ
  hash : Hash

/-- The first checks of `apply_verified`, which change nothing. Nothing checks the sum
`self.number + 1`, which in a release build lets block `0` follow the last `u64`. -/
def linkChecks (s : Snapshot) (header : RpcBlockHeader) (signer : Address) :
    Except SnapshotError Link := do
  let number ← (decodeU64 header.number).mapError .types
  let time ← (decodeU64 header.timestamp).mapError .types
  let parent ← (decodeHexFixed 32 header.parentHash).mapError .types
  let hash ← (decodeHexFixed 32 header.hash).mapError .types
  require (number = wrapSucc s.number) (.numberMismatch (wrapSucc s.number) number)
  require (parent = s.hash) .parentHashMismatch
  require (s.contains signer = true) (.unauthorized (formatAddress signer))
  let difficulty ← (decodeU64 header.difficulty).mapError .types
  require (difficulty = diffNoTurn ∨ difficulty = diffInTurn) (.badDifficulty difficulty)
  require (s.enforceInturn = true → difficulty = s.expectedDifficulty signer)
    (.difficultyMismatch difficulty (s.expectedDifficulty signer))
  return { number, time, hash }

/-- The removal of the entry that leaves the window of `SignRecently`. -/
def trimRecents (s : Snapshot) (number : ℕ) : Snapshot :=
  let limit := satAdd s.delay 1
  { s with recents := if limit ≤ number then s.recents.remove (number - limit) else s.recents }

/-- What the remaining checks have read off the header. -/
structure Body where
  isEpoch : Bool
  parsed : ParsedExtra
  adopted : Option VoteData

/-- The assignments of `apply_verified` before the set switch, in the order of the source. -/
def record (s : Snapshot) (signer : Address) (l : Link) (b : Body) : Snapshot :=
  let s := { s with
    pending := if b.isEpoch then some (s.nextPending l.number b.parsed) else s.pending }
  let s := { s with
    attestation := match b.adopted with
      | some data => some (adoptAttestation s.attestation data)
      | none => s.attestation }
  let s := { s with recents := s.recents.insert l.number signer }
  let s := { s with
    recents := if maxwellTime ≤ l.time then s.pruneRecentsToFinalized.recents else s.recents }
  s.advanceEpochLength l.number l.time

/-- All assignments of `apply_verified` but the last. -/
def commit (s : Snapshot) (signer : Address) (l : Link) (b : Body) : Snapshot :=
  ((s.record signer l b).activate l.number).moveTo l.number l.hash

section

variable (P : Primitives)

/-- The remaining checks of `apply_verified`, on the snapshot with trimmed recents. -/
def bodyChecks (s : Snapshot) (header : RpcBlockHeader) (signer : Address) (l : Link) :
    Except SnapshotError Body := do
  require (s.signRecently signer = false) (.recentlySigned (formatAddress signer))
  (verifyOutOfTurnBackoff s.backoffContext header).mapError .sealErr
  let extra ← (decodeHex header.extraData).mapError .types
  let isEpoch := decide (l.number % s.epochLength = 0)
  let parsed ← (parseExtra extra .bohr isEpoch).mapError .extra
  let adopted ← s.checkAttestation P parsed.attestation l.number l.time
  require (isEpoch = true → parsed.validators ≠ []) (.missingEpochExtra l.number)
  return { isEpoch, parsed, adopted }

/-- `Snapshot::apply_verified`. -/
def applyVerified (s : Snapshot) (header : RpcBlockHeader) (signer : Address) :
    Except SnapshotError Unit × Snapshot :=
  match s.linkChecks header signer with
  | .error e => (.error e, s)
  | .ok l =>
    let trimmed := s.trimRecents l.number
    match trimmed.bodyChecks P header signer l with
    | .error e => (.error e, trimmed)
    | .ok b =>
      let committed := trimmed.commit signer l b
      match milliTimestamp header with
      | .error e => (.error (.sealErr e), committed)
      | .ok milli => (.ok (), { committed with lastMilli := some milli })

/-- `Snapshot::apply_header`. -/
def applyHeader (s : Snapshot) (header : RpcBlockHeader) (now : ℕ) :
    Except SnapshotError Address × Snapshot :=
  match verifySealCoinbase P header now with
  | .error e => (.error (.sealErr e), s)
  | .ok signer =>
    match s.applyVerified P header signer with
    | (.error e, s') => (.error e, s')
    | (.ok (), s') => (.ok signer, s')

end

end Snapshot

end HeliosBsc
