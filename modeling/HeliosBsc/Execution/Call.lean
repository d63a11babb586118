import HeliosBsc.Config.Forks
import HeliosBsc.Execution.Proof
import Mathlib.Data.List.AList

/-!
# Verified execution

`execution/src/call.rs`: the database that a call is executed on. It holds what was proven against
the state root of one block and answers `Missing` for the rest; each `Missing` is fetched from an
untrusted prover, checked and loaded, and the call is run again.

The EVM itself is another package: it is an argument, as are the addresses of its precompiles. A
`U256` is given by its 32 bytes, most significant first, and revm's `Bytecode` by the bytes it is
made of.
-/

namespace HeliosBsc

open Checked

/-- `CALL_GAS_CAP`. -/
def callGasCap : ℕ := 50000000

/-- `MAX_PROOF_ROUNDS`. -/
def maxProofRounds : ℕ := 8

/-- `MAX_CALL_ACCOUNTS`. -/
def maxCallAccounts : ℕ := 32

/-- `BLOCKHASH_WINDOW`. -/
def blockhashWindow : ℕ := 256

/-- `U256`. -/
abbrev U256 := Hash

/-- `CallBlock`. -/
structure CallBlock where
  number : ℕ
  hash : Hash
  stateRoot : Hash
  timestamp : ℕ
  beneficiary : Address
  gasLimit : ℕ
  difficulty : Hash
  prevrandao : Hash
  basefee : ℕ
  excessBlobGas : ℕ
  historicalHashes : List (ℕ × Hash)

/-- `Miss`. -/
inductive Miss where
  | account (address : Address)
  | storage (address : Address) (slot : Hash)
  | blockHash (number : ℕ)
  | codeHash (hash : Hash)
  deriving DecidableEq, Repr

/-- `CallError`. -/
inductive CallError where
  | missing (miss : Miss)
  | proof (e : ProofError)
  | revert (output : Bytes)
  | halt (reason : String)
  | budget
  | invalid (reason : String)
  | unsupportedPrecompile (address : Address)
  deriving DecidableEq, Repr

/-! ## Rules of the block -/

/-- `SpecId`, as far as `evm_spec_at` names it. -/
inductive SpecId where
  | shanghai
  | cancun
  | prague
  | osaka
  deriving DecidableEq, Repr

/-- `evm_spec_at`. -/
def evmSpecAt (timestamp : ℕ) : SpecId :=
  if osakaMendelTime ≤ timestamp then .osaka
  else if pragueTime ≤ timestamp then .prague
  else if cancunTime ≤ timestamp then .cancun
  else .shanghai

/-- `PrecompileKind`. -/
inductive PrecompileKind where
  | account
  | local_
  | unsupported
  deriving DecidableEq, Repr

/-- `precompile_kind`: `precompiles spec` is the set that revm implements under `spec`. -/
def precompileKind (precompiles : SpecId → Address → Bool) (address : Address) (spec : SpecId) :
    PrecompileKind :=
  let n := address.val
  let last := (n.getD 19 0).toNat
  if n.take 18 = List.replicate 18 0 ∧ n.getD 18 0 = 0x01 ∧ last = 0x00 then .unsupported
  else if n.take 19 ≠ List.replicate 19 0 then .account
  else if 0x01 ≤ last ∧ last ≤ 0x11 then
    if precompiles spec address then .local_ else .unsupported
  else if 0x64 ≤ last ∧ last ≤ 0x69 then .unsupported
  else .account

/-! ## The database -/

/-- `AccountInfo`. -/
structure AccountInfo where
  balance : U256
  nonce : ℕ
  codeHash : Hash
  code : Option Bytes

/-- `AccountInfo::default()`. -/
def AccountInfo.default : AccountInfo := ⟨.repeated 32 0, 0, emptyCodeHash, some []⟩

/-- `HashMap<U256, U256>`: the proven slots of an account. -/
abbrev SlotMap := AList fun _ : U256 => U256

/-- `ProvenAccount`. -/
structure ProvenAccount where
  info : AccountInfo
  storageRoot : Hash
  storage : SlotMap

/-- `ProofDb`. -/
structure ProofDb where
  accounts : AList fun _ : Address => ProvenAccount
  codes : AList fun _ : Hash => Bytes
  blockHashes : AList fun _ : ℕ => Hash
  blockNumber : ℕ
  spec : SpecId

namespace ProofDb

/-- `ProofDb::new`, with revm's default for the rules. -/
def new (spec : SpecId) : ProofDb := ⟨∅, ∅, ∅, 0, spec⟩

/-- `seed_block_hashes`. -/
def seedBlockHashes (db : ProofDb) (block : CallBlock) : ProofDb :=
  { db with
    blockNumber := block.number
    spec := evmSpecAt block.timestamp
    blockHashes := (block.historicalHashes.take blockhashWindow).foldl
      (fun hashes entry => hashes.insert entry.1 entry.2) ∅ }

/-- `Database::basic`. -/
def basic (precompiles : SpecId → Address → Bool) (db : ProofDb) (address : Address) :
    Except CallError (Option AccountInfo) :=
  match precompileKind precompiles address db.spec with
  | .unsupported => .error (.unsupportedPrecompile address)
  | .local_ => .ok (some .default)
  | .account =>
    match db.accounts.lookup address with
    | some acc => .ok (some acc.info)
    | none => .error (.missing (.account address))

/-- `Database::code_by_hash`. -/
def codeByHash (db : ProofDb) (codeHash : Hash) : Except CallError Bytes :=
  if codeHash = emptyCodeHash then .ok []
  else
    match db.codes.lookup codeHash with
    | some code => .ok code
    | none => .error (.missing (.codeHash codeHash))

/-- `Database::storage`. -/
def storage (db : ProofDb) (address : Address) (index : U256) : Except CallError U256 :=
  match db.accounts.lookup address with
  | none => .error (.missing (.storage address index))
  | some acc =>
    match acc.storage.lookup index with
    | some v => .ok v
    | none =>
      if acc.storageRoot = emptyTrieRoot then .ok (.repeated 32 0)
      else .error (.missing (.storage address index))

/-- `Database::block_hash`. -/
def blockHash (db : ProofDb) (number : ℕ) : Except CallError Hash :=
  if db.blockNumber ≤ number ∨ satAdd number blockhashWindow < db.blockNumber then
    .ok (.repeated 32 0)
  else
    match db.blockHashes.lookup number with
    | some h => .ok h
    | none => .error (.missing (.blockHash number))

/-- The slots of an account that are there already. -/
def slotsOf (db : ProofDb) (address : Address) : SlotMap :=
  match db.accounts.lookup address with
  | some acc => acc.storage
  | none => ∅

/-- `slot_is_proven`. -/
def slotIsProven (db : ProofDb) (address : Address) (slot : Hash) : Bool :=
  match db.accounts.lookup address with
  | none => false
  | some acc => decide (acc.storageRoot = emptyTrieRoot) || decide (slot ∈ acc.storage)

end ProofDb

/-! ## Loading -/

/-- The text of a `hex::decode` error. -/
def hexErrorText : TypesError → String
  | .invalidHex reason => reason
  | e => e.message

/-- `decode_slot_key`. -/
def decodeSlotKey (s : String) : Except ProofError Hash := do
  let raw := strip0x s.toList
  let even := if utf8Length raw % 2 = 1 then '0' :: raw else raw
  let b ← (decodeHexDigits even 0).mapError fun e => .json (hexErrorText e)
  require (b.length ≤ 32) (.claimMismatch "storageProof key wider than a slot")
  return pad32 b

section

variable (keccak256 : Bytes → Hash)

/-- One entry of the loop of `load_proven_account`. -/
def loadSlot (verified : VerifiedAccount) (proof : EthAccountProof) (storage : SlotMap)
    (entry : StorageProofEntry) : Except CallError SlotMap := do
  let key ← (decodeSlotKey entry.key).mapError .proof
  let val ← (verifyStorageSlot keccak256 verified key proof).mapError .proof
  require (¬ (maxProofStorageKeys ≤ storage.keys.length ∧ key ∉ storage)) .budget
  return storage.insert key (pad32 val)

/-- The loop of `load_proven_account`. -/
def loadSlots (verified : VerifiedAccount) (proof : EthAccountProof) (storage : SlotMap) :
    Except CallError SlotMap :=
  if verified.storageRoot ≠ emptyTrieRoot then
    proof.storageProof.foldlM (loadSlot keccak256 verified proof) storage
  else .ok storage

/-- What `load_proven_account` does before it writes: the account and its slots. -/
def checkLoad (db : ProofDb) (stateRoot : Hash) (address : Address) (proof : EthAccountProof)
    (code : Bytes) : Except CallError (VerifiedAccount × SlotMap) := do
  require (code.length ≤ maxCodeSize) (.invalid "code too large")
  let verified ← (verifyEthGetProof keccak256 stateRoot address proof).mapError .proof
  (verifyAccountCode keccak256 verified code).mapError .proof
  let isNew := decide (address ∉ db.accounts)
  require (¬ (isNew = true ∧ maxCallAccounts ≤ db.accounts.keys.length)) .budget
  let storage ← loadSlots keccak256 verified proof (db.slotsOf address)
  return (verified, storage)

/-- `load_proven_account`. -/
def loadProvenAccount (db : ProofDb) (stateRoot : Hash) (address : Address)
    (proof : EthAccountProof) (code : Bytes) : Except CallError Unit × ProofDb :=
  match checkLoad keccak256 db stateRoot address proof code with
  | .error e => (.error e, db)
  | .ok (verified, storage) =>
    let db :=
      if verified.codeHash ≠ emptyCodeHash then
        { db with codes := db.codes.insert verified.codeHash code }
      else db
    let info : AccountInfo :=
      ⟨pad32 verified.balanceWei, verified.nonce, verified.codeHash, some code⟩
    (.ok (), { db with
      accounts := db.accounts.insert address ⟨info, verified.storageRoot, storage⟩ })

/-- `ProveAtSafe`: what a prover answers to one fetch. -/
structure Prover where
  getProof : Address → List Hash → Hash → ℕ → Except CallError EthAccountProof
  getCode : Address → Hash → ℕ → Except CallError Bytes

/-- What `fetch_and_load` gets from the prover: a proof, and the code it has to go with. -/
def fetchAnswer (prover : Prover) (block : CallBlock) (address : Address) (slots : List Hash) :
    Except CallError (EthAccountProof × Bytes) := do
  require (slots.length ≤ maxProofStorageKeys) .budget
  let proof ← prover.getProof address slots block.hash block.number
  let verified ← (verifyEthGetProof keccak256 block.stateRoot address proof).mapError .proof
  let code ← if verified.codeHash = emptyCodeHash then .ok []
    else prover.getCode address block.hash block.number
  return (proof, code)

/-- `fetch_and_load`. -/
def fetchAndLoad (prover : Prover) (db : ProofDb) (block : CallBlock) (address : Address)
    (slots : List Hash) : Except CallError Unit × ProofDb :=
  match fetchAnswer keccak256 prover block address slots with
  | .error e => (.error e, db)
  | .ok (proof, code) => loadProvenAccount keccak256 db block.stateRoot address proof code

end

/-! ## The call -/

/-- `EVMError`. -/
inductive EvmError where
  | database (e : CallError)
  | transaction
  | header
  | custom

/-- An EVM with the transaction it is to run: a database and the gas give an outcome. -/
abbrev Evm (ρ : Type) := ProofDb → ℕ → Except EvmError ρ

/-- The errors that `transact_call` returns. -/
def EvmError.callError : EvmError → CallError
  | database e => e
  | transaction => .invalid "transaction"
  | header => .invalid "header"
  | custom => .halt "custom"

section

variable {ρ : Type}

/-- `transact_call`. -/
def transactCall (evm : Evm ρ) (db : ProofDb) (block : CallBlock) (gas : ℕ) :
    Except CallError ρ × ProofDb :=
  let db := db.seedBlockHashes block
  ((evm db gas).mapError EvmError.callError, db)

/-- What is fetched for a missing item. A block hash and a code hash are not. -/
def Miss.request : Miss → Option (Address × List Hash)
  | account address => some (address, [])
  | storage address slot => some (address, [slot])
  | blockHash _ => none
  | codeHash _ => none

/-- A call that changes the database of a block. -/
inductive LoadCall where
  | seed
  | load (address : Address) (proof : EthAccountProof) (code : Bytes)
  | fetch (prover : Prover) (address : Address) (slots : List Hash)

/-- The end of `transact_call_proven`: what it returns, the database and the rounds after it, and
the calls it made on the way. -/
structure ProvenCall (ρ : Type) where
  result : Except CallError ρ
  db : ProofDb
  rounds : ℕ
  calls : List LoadCall

/-- The same end, after one more call. -/
def ProvenCall.after (calls : List LoadCall) (c : ProvenCall ρ) : ProvenCall ρ :=
  { c with calls := calls ++ c.calls }

/-- `transact_call_proven`: `prover n` answers the fetch that is made when `rounds` is `n`. -/
def transactCallProven (keccak256 : Bytes → Hash) (prover : ℕ → Prover) (evm : Evm ρ)
    (db : ProofDb) (block : CallBlock) (gas rounds : ℕ) : ProvenCall ρ :=
  match transactCall evm db block gas with
  | (.ok res, db) => ⟨.ok res, db, rounds, [.seed]⟩
  | (.error (.missing miss), db) =>
    match miss.request with
    | none => ⟨.error (.missing miss), db, rounds, [.seed]⟩
    | some (address, slots) =>
      if _h : maxProofRounds ≤ rounds then ⟨.error .budget, db, rounds, [.seed]⟩
      else
        match fetchAndLoad keccak256 (prover rounds) db block address slots with
        | (.error e, db) =>
          ⟨.error e, db, rounds + 1, [.seed, .fetch (prover rounds) address slots]⟩
        | (.ok _, db) =>
          if slots.all fun slot => db.slotIsProven address slot then
            (transactCallProven keccak256 prover evm db block gas (rounds + 1)).after
              [.seed, .fetch (prover rounds) address slots]
          else
            ⟨.error (.missing miss), db, rounds + 1,
              [.seed, .fetch (prover rounds) address slots]⟩
  | (.error e, db) => ⟨.error e, db, rounds, [.seed]⟩
termination_by maxProofRounds - rounds

end

end HeliosBsc
