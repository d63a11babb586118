import HeliosBsc.Execution.Mpt

/-!
# Account proofs

`execution/src/proof.rs` and the leaves of `mpt.rs`: what is checked in an upstream's answer to
`eth_getProof`. The account is checked against a state root, each requested storage slot against the
account's storage root and its code against the code hash; entries that were not requested are
dropped.
-/

namespace HeliosBsc

open Checked

/-- `ProofError`, as far as the functions below return it. -/
inductive ProofError where
  | types (e : TypesError)
  | mpt (e : MptError)
  | json (reason : String)
  | claimMismatch (field : String)
  | tooManyNodes
  | nodeTooLarge
  | tooManyStorageEntries
  deriving DecidableEq, Repr

def ProofError.message : ProofError → String
  | types e => e.message
  | mpt e => e.message
  | json reason => s!"proof JSON: {reason}"
  | claimMismatch field => s!"claimed field mismatch: {field}"
  | tooManyNodes => "too many proof nodes"
  | nodeTooLarge => "proof node too large"
  | tooManyStorageEntries => "too many storageProof entries"

/-- `MAX_PROOF_NODES`. -/
def maxProofNodes : ℕ := 32

/-- `MAX_PROOF_NODE_BYTES`. -/
def maxProofNodeBytes : ℕ := 16 * 1024

/-- `MAX_PROOF_STORAGE_ENTRIES`. -/
def maxProofStorageEntries : ℕ := 64

/-- `MAX_PROOF_STORAGE_KEYS`. -/
def maxProofStorageKeys : ℕ := 64

/-- `MAX_CODE_SIZE`. -/
def maxCodeSize : ℕ := 24576

/-- `EMPTY_CODE_HASH`. -/
def emptyCodeHash : Hash where
  val := [
    0xc5, 0xd2, 0x46, 0x01, 0x86, 0xf7, 0x23, 0x3c, 0x92, 0x7e, 0x7d, 0xb2, 0xdc, 0xc7, 0x03, 0xc0,
    0xe5, 0x00, 0xb6, 0x53, 0xca, 0x82, 0x27, 0x3b, 0x7b, 0xfa, 0xd8, 0x04, 0x5d, 0x85, 0xa4, 0x70]
  len := rfl

/-- `StorageProofEntry`. -/
structure StorageProofEntry where
  key : String
  value : String
  proof : List String
  deriving DecidableEq, Repr

/-- `EthAccountProof`. -/
structure EthAccountProof where
  address : String
  accountProof : List String
  balance : String
  codeHash : String
  nonce : String
  storageHash : String
  storageProof : List StorageProofEntry
  deriving DecidableEq, Repr

/-- `VerifiedAccount`. -/
structure VerifiedAccount where
  address : Address
  nonce : ℕ
  balanceWei : Bytes
  storageRoot : Hash
  codeHash : Hash

/-! ## Quantities -/

/-- `decode_qty`: a hex quantity of any length. -/
def decodeQty (s : String) : Except TypesError Bytes :=
  let raw := strip0x s.toList
  if raw = [] then .ok []
  else if utf8Length raw % 2 = 1 then decodeHex (String.ofList ('0' :: 'x' :: '0' :: raw))
  else decodeHex s

/-- `encode_qty`. -/
def encodeQty (b : Bytes) : String :=
  match (hexChars b).dropWhile (· = '0') with
  | [] => "0x0"
  | trimmed => String.ofList ('0' :: 'x' :: trimmed)

/-- `parse_qty_u64`. -/
def parseQtyU64 (s : String) : Except ProofError ℕ := do
  let v ← (decodeQty s).mapError .types
  require (v.length ≤ 8) (.json "nonce too large")
  return BigEndian.value v

/-- `pad32`: the low 32 bytes, with zeros before them. -/
def pad32 (b : Bytes) : Hash where
  val := List.replicate (32 - b.length) 0 ++ b.drop (b.length - 32)
  len := by
    rw [List.length_append, List.length_replicate, List.length_drop]
    omega

/-! ## Leaves -/

/-- `Account`. -/
structure Account where
  nonce : ℕ
  balance : Bytes
  storageRoot : Hash
  codeHash : Hash

/-- `empty_account`. -/
def emptyAccount : Account := ⟨0, [], emptyTrieRoot, emptyCodeHash⟩

/-- `as_bytes().map_err(|_| MptError::BadAccount)`. -/
def accountField (item : Rlp) : Except MptError Bytes := item.asBytes.mapError fun _ => .badAccount

/-- `rlp_uint`. -/
def rlpUint (b : Bytes) : Except MptError ℕ := do
  require (b.length ≤ 8) .badAccount
  return BigEndian.value b

/-- `decode_account`. -/
def decodeAccount (value : Bytes) : Except MptError Account := do
  let decoded ← (decode value).mapError .rlp
  match decoded with
  | .list [nonceItem, balanceItem, storageItem, codeItem] =>
    let nonce ← rlpUint (← accountField nonceItem)
    let balance ← accountField balanceItem
    require (balance.length ≤ 32) .badAccount
    let storage ← accountField storageItem
    let code ← accountField codeItem
    if h : storage.length = 32 ∧ code.length = 32 then
      return ⟨nonce, balance, ⟨storage, h.1⟩, ⟨code, h.2⟩⟩
    else throw .badAccount
  | _ => throw .badAccount

/-- `decode_storage_leaf`. -/
def decodeStorageLeaf (raw : Bytes) : Except MptError Bytes :=
  match decode raw with
  | .ok (.bytes b) => if b.length ≤ 32 then .ok b else .error .badStorageLeaf
  | _ => .error .badStorageLeaf

section

variable (keccak256 : Bytes → Hash)

/-- `verify_account_proof`. -/
def verifyAccountProof (stateRoot : Hash) (address : Address) (proof : List Bytes) :
    Except MptError Account := do
  match ← verifyTrieProof keccak256 stateRoot (keccak256 address.val) proof with
  | none => return emptyAccount
  | some value => decodeAccount value

/-- `verify_storage_proof`. -/
def verifyStorageProof (storageRoot slot : Hash) (proof : List Bytes) : Except MptError Bytes :=
  if storageRoot = emptyTrieRoot then .ok []
  else do
    match ← verifyTrieProof keccak256 storageRoot (keccak256 slot.val) proof with
    | none => return []
    | some raw => decodeStorageLeaf raw

/-- The nodes of a proof, none of them too large. -/
def decodeNodes (proof : List String) : Except ProofError (List Bytes) := do
  let nodes ← (proof.mapM decodeHex).mapError .types
  require (∀ n ∈ nodes, n.length ≤ maxProofNodeBytes) .nodeTooLarge
  return nodes

/-! ## The account -/

/-- Whether a claimed hash is the proven one; an absent account may claim zeros. -/
def claimedHashOk (claimed proven : Hash) (absent : Bool) : Bool :=
  decide (claimed = proven) || (absent && claimed.val.all (· == 0))

/-- `verify_eth_get_proof`. -/
def verifyEthGetProof (stateRoot : Hash) (expectedAddress : Address) (proof : EthAccountProof) :
    Except ProofError VerifiedAccount := do
  let addr ← (decodeHexFixed 20 proof.address).mapError .types
  require (addr = expectedAddress) (.claimMismatch "address")
  require (proof.accountProof.length ≤ maxProofNodes) .tooManyNodes
  require (proof.storageProof.length ≤ maxProofStorageEntries) .tooManyStorageEntries
  require (∀ sp ∈ proof.storageProof, sp.proof.length ≤ maxProofNodes) .tooManyNodes
  let nodes ← decodeNodes proof.accountProof
  let account ← (verifyAccountProof keccak256 stateRoot addr nodes).mapError .mpt
  let absent := decide (account.nonce = 0 ∧ BigEndian.strip account.balance = [] ∧
    account.storageRoot = emptyTrieRoot ∧ account.codeHash = emptyCodeHash)
  let claimedBalance ← (decodeQty proof.balance).mapError .types
  require (encodeQty claimedBalance = encodeQty account.balance) (.claimMismatch "balance")
  let claimedNonce ← parseQtyU64 proof.nonce
  require (claimedNonce = account.nonce) (.claimMismatch "nonce")
  let claimedStorage ← (decodeHexFixed 32 proof.storageHash).mapError .types
  require (claimedHashOk claimedStorage account.storageRoot absent = true)
    (.claimMismatch "storageHash")
  let claimedCode ← (decodeHexFixed 32 proof.codeHash).mapError .types
  require (claimedHashOk claimedCode account.codeHash absent = true) (.claimMismatch "codeHash")
  return {
    address := addr
    nonce := account.nonce
    balanceWei := BigEndian.strip account.balance
    storageRoot := account.storageRoot
    codeHash := account.codeHash }

/-! ## Storage -/

/-- `slot_of_key`. -/
def slotOfKey (s : String) : Option Hash :=
  match decodeQty s with
  | .ok raw => if 32 < raw.length then none else some (pad32 raw)
  | .error _ => none

/-- `eq_ignore_ascii_case`. -/
def eqIgnoreAsciiCase (a b : String) : Bool :=
  a.toList.map Char.toLower == b.toList.map Char.toLower

/-- `verify_storage_slot`. -/
def verifyStorageSlot (account : VerifiedAccount) (slot : Hash) (proof : EthAccountProof) :
    Except ProofError Bytes :=
  if account.storageRoot = emptyTrieRoot then .ok []
  else
    match proof.storageProof.find? fun e =>
      decide (slotOfKey e.key = some slot) || eqIgnoreAsciiCase e.key (hexPrefixed slot.val) with
    | none => .error (.claimMismatch "storageProof")
    | some entry => do
      let nodes ← decodeNodes entry.proof
      let value ← (verifyStorageProof keccak256 account.storageRoot slot nodes).mapError .mpt
      let claimed ← (decodeQty entry.value).mapError .types
      require (¬ (BigEndian.strip value ≠ BigEndian.strip claimed ∧
        encodeQty value ≠ encodeQty claimed)) (.claimMismatch "storage value")
      return value

/-! ## Code -/

/-- `verify_bytecode`. -/
def verifyBytecode (code : Bytes) (expectedHash : Hash) : Except MptError Unit :=
  require (keccak256 code = expectedHash) .hashMismatch

/-- `verify_account_code`. -/
def verifyAccountCode (account : VerifiedAccount) (code : Bytes) : Except ProofError Unit :=
  if account.codeHash = emptyCodeHash then require (code = []) (.claimMismatch "empty code")
  else (verifyBytecode keccak256 code account.codeHash).mapError .mpt

end

/-- The loop of `retain_requested_storage`: `taken` marks the wanted slots that have an entry. -/
def retainLoop (want : List Hash) : List Bool → List StorageProofEntry → List StorageProofEntry
  | _, [] => []
  | taken, e :: rest =>
    match slotOfKey e.key with
    | none => retainLoop want taken rest
    | some slot =>
      match want.findIdx? (· = slot) with
      | none => retainLoop want taken rest
      | some i =>
        if taken.getD i false then retainLoop want taken rest
        else e :: retainLoop want (taken.set i true) rest

/-- `retain_requested_storage`. -/
def retainRequestedStorage (proof : EthAccountProof) (keys : List String) : EthAccountProof :=
  if keys = [] then { proof with storageProof := [] }
  else
    let want := keys.filterMap slotOfKey
    { proof with
      storageProof := retainLoop want (List.replicate want.length false) proof.storageProof }

end HeliosBsc
