import HeliosBsc.Consensus.Snapshot

/-!
# The light engine

`consensus/src/finality.rs` and `consensus/src/lib.rs`: the chain of verified blocks, the Safe head
by confirmation depth, and `LightEngine`, which walks headers from a checkpoint and writes a
checkpoint of its own at the tip.
-/

namespace HeliosBsc

open Checked

/-- `VerifiedBlock`. -/
structure VerifiedBlock where
  number : ℕ
  hash : Hash
  stateRoot : Hash
  miner : Address
  milliTimestamp : ℕ
  gasLimit : ℕ
  header : Option RpcBlockHeader
  deriving DecidableEq

/-- The loop of `newest_safe`, from the tip down. -/
def newestSafeLoop (threshold : ℕ) : List VerifiedBlock → List Address → Option SafeHead
  | [], _ => none
  | block :: older, seen =>
    let seen := if block.miner ∈ seen then seen else seen ++ [block.miner]
    if threshold ≤ seen.length then
      older.head?.map fun s =>
        { number := s.number
          hash := hexPrefixed s.hash.val
          stateRoot := hexPrefixed s.stateRoot.val
          distinctSealers := seen.length
          requiredSealers := threshold }
    else newestSafeLoop threshold older seen

/-- `newest_safe`. -/
def newestSafe (chain : List VerifiedBlock) (nSeal : ℕ) : Option SafeHead :=
  if chain.length < 2 then none
  else newestSafeLoop (minDistinctSealers nSeal) chain.reverse []

/-- `ConsensusError`, as far as the functions below return it. -/
inductive ConsensusError where
  | invalidCheckpoint (reason : String)
  | checkpointMismatch (field : String)
  | sealErr (e : SealError)
  | snapshot (e : SnapshotError)
  | types (e : TypesError)
  deriving DecidableEq, Repr

def ConsensusError.message : ConsensusError → String
  | invalidCheckpoint reason => s!"invalid checkpoint: {reason}"
  | checkpointMismatch field => s!"checkpoint {field} mismatch vs header"
  | sealErr e => e.message
  | snapshot e => e.message
  | types e => e.message

/-- `hex_eq`. -/
def hexEq (a b : String) : Bool :=
  let trim (s : String) := trimStartMarks 'X' (trimStartMarks 'x' s.toList)
  (trim a).map Char.toLower == (trim b).map Char.toLower

section

variable (P : Primitives)

/-- `checkpoint_at_snapshot`. -/
def checkpointAtSnapshot (header : RpcBlockHeader) (snapshot : Snapshot) (forkId : String)
    (attestation : Option String) : Except ConsensusError Checkpoint := do
  let number ← (decodeU64 header.number).mapError .types
  require (number = snapshot.number) (.checkpointMismatch "number")
  let got ← (headerHash P header).mapError .sealErr
  require (got = snapshot.hash) (.checkpointMismatch "hash")
  let header := { header with hash := hexPrefixed got.val }
  let cp ← (Checkpoint.fromRpcHeader header snapshot.sealingSetHex forkId attestation).mapError
    .types
  match snapshot.voteKeysHex with
  | some keys => return cp.withVoteKeys keys
  | none => return cp

/-- `header_matches_checkpoint`. -/
def headerMatchesCheckpoint (checkpoint : Checkpoint) (header : RpcBlockHeader) :
    Except ConsensusError Unit := do
  let number ← (decodeU64 header.number).mapError .types
  require (number = checkpoint.number) (.checkpointMismatch "number")
  let computed ← (headerHash P header).mapError .sealErr
  let want ← (decodeHexFixed 32 checkpoint.hash).mapError .types
  require (computed = want) (.checkpointMismatch "hash")
  require (hexEq header.parentHash checkpoint.parentHash = true) (.checkpointMismatch "parentHash")
  require (hexEq header.stateRoot checkpoint.stateRoot = true) (.checkpointMismatch "stateRoot")

end

/-- `LightEngine`. -/
structure LightEngine where
  checkpoint : Checkpoint
  snapshot : Snapshot
  chain : List VerifiedBlock
  safe : Option SafeHead
  proofLookback : ℕ

/-- The block that `apply_header` pushes for a header. -/
def verifiedBlock (header : RpcBlockHeader) (number : ℕ) (signer : Address) :
    Except ConsensusError VerifiedBlock := do
  let hash ← (decodeHexFixed 32 header.hash).mapError .types
  let stateRoot ← (decodeHexFixed 32 header.stateRoot).mapError .types
  let milli ← (milliTimestamp header).mapError .sealErr
  let gasLimit ← (decodeU64 header.gasLimit).mapError .types
  return {
    number := number
    hash := hash
    stateRoot := stateRoot
    miner := signer
    milliTimestamp := milli
    gasLimit := gasLimit
    header := some header }

/-- `KEEP`. -/
@[irreducible] def keepBlocks : ℕ := 512

theorem keepBlocks_pos : 0 < keepBlocks := by
  unfold keepBlocks
  norm_num

/-- `chain.drain(0..drop)` down to the newest `keepBlocks`. -/
def trimChain (chain : List VerifiedBlock) : List VerifiedBlock :=
  chain.drop (chain.length - keepBlocks)

theorem trimChain_suffix (chain : List VerifiedBlock) : trimChain chain <:+ chain := by
  unfold trimChain
  exact List.drop_suffix _ _

theorem trimChain_of_le {chain : List VerifiedBlock} (h : chain.length ≤ 512) :
    trimChain chain = chain := by
  unfold trimChain keepBlocks
  rw [Nat.sub_eq_zero_of_le h, List.drop_zero]

theorem getLast?_trimChain (chain : List VerifiedBlock) :
    (trimChain chain).getLast? = chain.getLast? := by
  cases chain with
  | nil => rw [trimChain, List.drop_nil]
  | cons b rest =>
    have hkeep : ¬ (b :: rest).length ≤ (b :: rest).length - keepBlocks := by
      have := keepBlocks_pos
      rw [List.length_cons]
      omega
    rw [trimChain, List.getLast?_drop, if_neg hkeep]

namespace LightEngine

variable (P : Primitives)

/-- `LightEngine::from_checkpoint_and_header`. -/
def fromCheckpointAndHeader (checkpoint : Checkpoint) (header : RpcBlockHeader) (now : ℕ) :
    Except ConsensusError LightEngine := do
  checkpoint.validateBasic.mapError fun e => .invalidCheckpoint e.message
  headerMatchesCheckpoint P checkpoint header
  let miner ← (verifySealCoinbase P header now).mapError .sealErr
  let snapshot ← (Snapshot.fromCheckpoint checkpoint).mapError .snapshot
  let hash ← (decodeHexFixed 32 checkpoint.hash).mapError .types
  let stateRoot ← (decodeHexFixed 32 checkpoint.stateRoot).mapError .types
  let milli ← (milliTimestamp header).mapError .sealErr
  let gasLimit ← (decodeU64 header.gasLimit).mapError .types
  let genesis : VerifiedBlock := {
    number := checkpoint.number
    hash := hash
    stateRoot := stateRoot
    miner := miner
    milliTimestamp := milli
    gasLimit := gasLimit
    header := some header }
  return {
    checkpoint := checkpoint
    snapshot := snapshot
    chain := [genesis]
    safe := none
    proofLookback := providerProofLookback }

/-- `LightEngine::last_verified_checkpoint`. -/
def lastVerifiedCheckpoint (e : LightEngine) (header : RpcBlockHeader) :
    Except ConsensusError Checkpoint :=
  checkpointAtSnapshot P header e.snapshot e.checkpoint.forkId (some "helios-bsc last-verified")

/-- The check of a header against the last block of the chain. -/
def parentChecks (e : LightEngine) (header : RpcBlockHeader) : Except SealError Unit :=
  match e.chain.getLast? with
  | none => .ok ()
  | some prev => verifyCascadingVsParent prev.milliTimestamp prev.gasLimit header

/-- The checks of `apply_header` that come before the snapshot moves. -/
def preChecks (e : LightEngine) (header : RpcBlockHeader) : Except ConsensusError ℕ := do
  let number ← (decodeU64 header.number).mapError .types
  (e.parentChecks header).mapError .sealErr
  return number

/-- `LightEngine::apply_header`. -/
def applyHeader (e : LightEngine) (header : RpcBlockHeader) (now : ℕ) :
    Except ConsensusError Unit × LightEngine :=
  match e.preChecks header with
  | .error err => (.error err, e)
  | .ok number =>
    match e.snapshot.applyHeader P header now with
    | (.error err, s) => (.error (.snapshot err), { e with snapshot := s })
    | (.ok signer, s) =>
      match verifiedBlock header number signer with
      | .error err => (.error err, { e with snapshot := s })
      | .ok block =>
        let chain := trimChain (e.chain ++ [block])
        (.ok (), { e with snapshot := s, chain := chain, safe := newestSafe chain s.nSeal })

/-- `LightEngine::tip_number`. -/
def tipNumber (e : LightEngine) : ℕ := e.snapshot.number

/-- `LightEngine::apply_headers`, which stops at the first error. -/
def applyHeaders (e : LightEngine) :
    List (RpcBlockHeader × ℕ) → Except ConsensusError Unit × LightEngine
  | [] => (.ok (), e)
  | (header, now) :: rest =>
    match e.applyHeader P header now with
    | (.error err, e') => (.error err, e')
    | (.ok (), e') => applyHeaders e' rest

end LightEngine

end HeliosBsc
