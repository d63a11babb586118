import HeliosBsc.Execution.Estimate
import HeliosBsc.Lib.Queries

/-!
# Verified calls

`execution/src/call.rs`: `eth_call_verified` and `eth_estimate_gas_verified` as a whole. The accounts
that the call names are fetched first, then those of its access list, and then the call is run.

revm reads its database through four functions and stops at the first error of one of them. An EVM
with its transaction is therefore a program that asks queries of the database.
-/

namespace HeliosBsc

open Checked

/-! ## The EVM as a program -/

/-- A call of revm's `Database`. -/
inductive DbQuery where
  | basic (address : Address)
  | codeByHash (hash : Hash)
  | storage (address : Address) (slot : U256)
  | blockHash (number : ℕ)

/-- What the call returns. -/
abbrev DbQuery.Answer : DbQuery → Type
  | basic _ => Option AccountInfo
  | codeByHash _ => Bytes
  | storage _ _ => U256
  | blockHash _ => Hash

/-- What a database returns. -/
def ProofDb.answer (precompiles : SpecId → Address → Bool) (db : ProofDb) :
    (q : DbQuery) → Except CallError q.Answer
  | .basic address => db.basic precompiles address
  | .codeByHash hash => db.codeByHash hash
  | .storage address slot => db.storage address slot
  | .blockHash number => db.blockHash number

/-- A transaction in its block, up to what the database says: the errors at its end are those that
come from no read. -/
abbrev DbProgram (ρ : Type) := Asking DbQuery DbQuery.Answer (Except EvmError ρ)

/-- The EVM that runs a program at each gas. -/
def evmOf {ρ : Type} (precompiles : SpecId → Address → Bool) (program : ℕ → DbProgram ρ) : Evm ρ :=
  fun db gas =>
    match (program gas).run (db.answer precompiles) with
    | .error e => .error (.database e)
    | .ok r => r

/-! ## The prover of the node -/

/-- What the upstream answers to one fetch: `get_proof_at_safe` and its decoding, and `get_code`. -/
structure ProofUpstream where
  getProofAtSafe : Address → List Hash → Hash → ℕ → Except ProofError EthAccountProof
  getCode : Address → String → Except ProofError Bytes

/-- `UpstreamProve`. Code is asked for at the hash of the block, then at its number. -/
def ProofUpstream.prover (up : ProofUpstream) : Prover where
  getProof address slots hash number :=
    (up.getProofAtSafe address slots hash number).mapError .proof
  getCode address hash number :=
    match up.getCode address (hexPrefixed hash.val) with
    | .ok code => .ok code
    | .error _ =>
      (up.getCode address ("0x" ++ String.ofList (Nat.toDigits 16 number))).mapError .proof

/-! ## Seeding -/

/-- `MAX_CALL_DATA`. -/
def maxCallData : ℕ := 131072

/-- `CallTx`, with what `seed_call_accounts` reads and the calldata. -/
structure EthCallTx extends CallTx where
  fromAddress : Address
  toAddress : Address
  data : Bytes
  accessList : List (Address × List Hash)

/-- The loop of `access_list_within_caps`. -/
def accessListKeys : ℕ → List (Address × List Hash) → Except CallError Unit
  | _, [] => .ok ()
  | totalKeys, (_, slots) :: rest => do
    require (slots.length ≤ maxProofStorageKeys) (.invalid "accessList too large")
    let totalKeys := satAdd totalKeys slots.length
    require (totalKeys ≤ maxProofStorageKeys) (.invalid "accessList too large")
    accessListKeys totalKeys rest

/-- `access_list_within_caps`. -/
def accessListWithinCaps (tx : EthCallTx) : Except CallError Unit := do
  require (tx.accessList.length ≤ maxCallAccounts) (.invalid "accessList too large")
  accessListKeys 0 tx.accessList

section

variable (precompiles : SpecId → Address → Bool) (block : CallBlock)

/-- An address that is fetched. -/
def isFetched (address : Address) : Bool :=
  match precompileKind precompiles address (evmSpecAt block.timestamp) with
  | .account => true
  | _ => false

/-- The addresses that the loop of `seed_call_accounts` fetches, each once. -/
def freshAccounts : List Address → List Address → List Address
  | _, [] => []
  | seen, address :: rest =>
    if isFetched precompiles block address = false then freshAccounts seen rest
    else if seen.any fun a => decide (a = address) then freshAccounts seen rest
    else address :: freshAccounts (seen ++ [address]) rest

/-- What `seed_call_accounts` and `seed_access_list` fetch, in order. -/
def seedRequests (tx : EthCallTx) : List (Address × List Hash) :=
  (freshAccounts precompiles block [] [tx.toAddress, tx.fromAddress, block.beneficiary]).map (·, []) ++
    tx.accessList.filter fun entry => isFetched precompiles block entry.1

end

section

variable (keccak256 : Bytes → Hash)

/-- Fetches one after the other, up to the first that fails: the result, the database and the calls
made. `prover n` answers the `n`-th fetch. -/
def fetchEach (prover : ℕ → Prover) (block : CallBlock) :
    ProofDb → ℕ → List (Address × List Hash) → Except CallError Unit × ProofDb × List LoadCall
  | db, _, [] => (.ok (), db, [])
  | db, n, (address, slots) :: rest =>
    match fetchAndLoad keccak256 (prover n) db block address slots with
    | (.error e, db) => (.error e, db, [.fetch (prover n) address slots])
    | (.ok _, db) =>
      let r := fetchEach prover block db (n + 1) rest
      (r.1, r.2.1, .fetch (prover n) address slots :: r.2.2)

/-- `seed_call_accounts`. -/
def seedCallAccounts (precompiles : SpecId → Address → Bool) (prover : ℕ → Prover)
    (db : ProofDb) (block : CallBlock) (tx : EthCallTx) :
    Except CallError Unit × ProofDb × List LoadCall :=
  match accessListWithinCaps tx with
  | .error e => (.error e, db, [])
  | .ok _ => fetchEach keccak256 prover block db 0 (seedRequests precompiles block tx)

end

/-! ## The two calls -/

/-- `ExecutionResult` with the output of a success. -/
structure Executed where
  result : ExecutionResult
  output : Bytes

/-- `execution_output`. -/
def executionOutput (executed : Executed) : Except CallError Bytes :=
  match executed.result with
  | .success _ => .ok executed.output
  | .revert output => .error (.revert output)
  | .halt reason => .error (.halt (haltStr reason))

/-- What an upstream answers to the fetches of one call: those that seed, and those of the rounds. -/
structure CallAnswers where
  seed : ℕ → ProofUpstream
  round : ℕ → ProofUpstream

/-- What a verified call returns, and the calls it made on its database. -/
structure VerifiedRun (α : Type) where
  result : Except CallError α
  calls : List LoadCall

section

variable (keccak256 : Bytes → Hash) (precompiles : SpecId → Address → Bool) (up : CallAnswers)

/-- The common part of the two calls: the checks and the seeding, and then a run on the database. -/
def verifiedRun {α : Type} (spec : SpecId) (block : CallBlock) (tx : EthCallTx)
    (run : ProofDb → Except CallError α × List LoadCall) : VerifiedRun α :=
  if maxCallData < tx.data.length then ⟨.error (.invalid "calldata too large"), []⟩
  else
    match seedCallAccounts keccak256 precompiles (fun n => (up.seed n).prover)
        ((ProofDb.new spec).seedBlockHashes block) block tx with
    | (.error e, _, calls) => ⟨.error e, .seed :: calls⟩
    | (.ok _, db, calls) => ⟨(run db).1, .seed :: calls ++ (run db).2⟩

/-- `eth_call_verified`. -/
def ethCallVerified (evm : Evm Executed) (spec : SpecId) (block : CallBlock) (tx : EthCallTx) :
    VerifiedRun Bytes :=
  verifiedRun keccak256 precompiles up spec block tx fun db =>
    let c := transactCallProven keccak256 (fun n => (up.round n).prover) evm db block
      (callGas tx.toCallTx block) 0
    (c.result >>= executionOutput, c.calls)

/-- The calls that the attempts of a search made. -/
def attemptCalls (prover : ℕ → Prover) (evm : Evm ExecutionResult) (block : CallBlock)
    (runs : List Attempt) : List LoadCall :=
  runs.flatMap fun a => CallState.made keccak256 prover block a.call (evm, a.gas)

/-- `eth_estimate_gas_verified`. -/
def ethEstimateGasVerified (evm : Evm ExecutionResult) (spec : SpecId) (block : CallBlock)
    (tx : EthCallTx) : VerifiedRun ℕ :=
  verifiedRun keccak256 precompiles up spec block tx fun db =>
    let prover := fun n => (up.round n).prover
    let search := estimateGasSearch keccak256 prover evm block tx.toCallTx ⟨db, 0⟩
    (search.result, attemptCalls keccak256 prover evm block search.runs)

/-- The loads that a verified call made at its block. -/
def VerifiedRun.loads {α : Type} (spec : SpecId) (block : CallBlock) (c : VerifiedRun α) :
    List (AcceptedLoad keccak256 block.stateRoot) :=
  LoadCall.loads keccak256 block (.new spec) c.calls

end

end HeliosBsc
