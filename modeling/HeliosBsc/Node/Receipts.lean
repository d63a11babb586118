import HeliosBsc.Execution.OrderedTrie
import HeliosBsc.Execution.RawTx
import HeliosBsc.Consensus.Seal
import HeliosBsc.Lib.Json
import HeliosBsc.Node.Logs

/-!
# Receipts of a block

`execution/src/receipt_rlp.rs` and `bin/helios-bsc/src/rpc_server/receipts.rs`: the JSON receipts of
an untrusted upstream are read, re-encoded and bound to the sealed `receiptsRoot`; then every field
that the header or the bound envelopes determine is written over what the upstream said.
-/

namespace HeliosBsc

open Checked

/-- `MAX_RECEIPT_LOGS`. -/
def maxReceiptLogs : ℕ := 1024

/-- `MAX_LOG_TOPICS`. -/
def maxLogTopics : ℕ := 4

/-- `MAX_LOG_DATA`. -/
def maxLogData : ℕ := 64 * 1024

/-- `ERR_UPSTREAM`. -/
def errUpstream : ℤ := -32000

/-! ## Consensus receipts -/

/-- `ReceiptRlpError`. -/
inductive ReceiptRlpError where
  | unknownType (t : ℕ)
  | invalidStatus
  | tooManyLogs
  | tooManyTopics
  deriving DecidableEq, Repr

def ReceiptRlpError.message : ReceiptRlpError → String
  | unknownType t => "unknown receipt type 0x" ++ String.ofList (hexChars [UInt8.ofNat t])
  | invalidStatus => "receipt status is not 0x0 or 0x1"
  | tooManyLogs => "too many receipt logs"
  | tooManyTopics => "too many log topics"

/-- `ConsensusReceipt`. -/
structure ConsensusReceipt where
  status : ℕ
  cumulativeGasUsed : ℕ
  logsBloom : FixedBytes 256
  logs : List ConsensusLog
  txType : ℕ
  deriving DecidableEq

/-- `encode_log`. -/
def encodeLog (log : ConsensusLog) : Bytes :=
  encodeList [encodeBytes log.address.val, encodeList (log.topics.map fun t => encodeBytes t.val),
    encodeBytes log.data]

/-- `encode_consensus_receipt`. -/
def encodeConsensusReceipt (r : ConsensusReceipt) : Except ReceiptRlpError Bytes := do
  require (r.txType ≤ 4) (.unknownType r.txType)
  require (r.status ≤ 1) .invalidStatus
  require (r.logs.length ≤ maxReceiptLogs) .tooManyLogs
  require (r.logs.all fun log => decide (log.topics.length ≤ maxLogTopics)) .tooManyTopics
  let payload := encodeList [encodeUint r.status, encodeUint r.cumulativeGasUsed,
    encodeBytes r.logsBloom.val, encodeList (r.logs.map encodeLog)]
  return if r.txType = 0 then payload else UInt8.ofNat r.txType :: payload

/-! ## Reading receipt JSON -/

/-- A member that has to be a string. -/
def stringMember (m : Json.Fields) (key : String) : Except String String :=
  match m.get? key with
  | some (.string s) => .ok s
  | _ => .error s!"{key} missing"

/-- `status`. -/
def receiptStatus (m : Json.Fields) : Except String ℕ := do
  let s ← stringMember m "status"
  let n ← (decodeU64 s).mapError fun _ => "status invalid"
  require (n ≤ 1) "status is not 0x0 or 0x1"
  return n

/-- `cumulativeGasUsed`. -/
def receiptCumulativeGasUsed (m : Json.Fields) : Except String ℕ := do
  let s ← stringMember m "cumulativeGasUsed"
  (decodeU64 s).mapError fun _ => "cumulativeGasUsed is not a hex quantity"

/-- `logsBloom`. -/
def receiptLogsBloom (m : Json.Fields) : Except String (FixedBytes 256) := do
  let s ← stringMember m "logsBloom"
  (decodeHexFixed 256 s).mapError fun _ => "logsBloom is not 256 bytes"

/-- `type`. -/
def receiptType (m : Json.Fields) : Except String ℕ :=
  match m.get? "type" with
  | none | some .null => .ok 0
  | some (.string s) => do
    let n ← (decodeU64 s).mapError fun _ => "type invalid"
    require (n ≤ 4) "tx type is not 0x0..=0x4"
    return n
  | some _ => .error "type not a hex quantity"

/-- One topic of `parse_consensus_log_json`. -/
def parseLogTopic (t : Json) : Except String Hash :=
  match t with
  | .string s => (decodeHexFixed 32 s).mapError fun _ => "log topic is not 32 bytes"
  | _ => .error "log topic not a string"

/-- `topics`. -/
def logTopics (m : Json.Fields) : Except String (List Hash) :=
  match m.get? "topics" with
  | none | some .null => .ok []
  | some (.array arr) => do
    require (arr.length ≤ maxLogTopics) "too many log topics"
    arr.mapM parseLogTopic
  | some _ => .error "log.topics is not an array"

/-- `data`. -/
def logData (m : Json.Fields) : Except String Bytes :=
  match m.get? "data" with
  | none | some .null => .ok []
  | some (.string s) => do
    let bytes ← (decodeHex s).mapError fun _ => "log.data is not hex"
    require (bytes.length ≤ maxLogData) "log.data too large"
    return bytes
  | some _ => .error "log.data not a hex string"

/-- `address`. -/
def logAddress (m : Json.Fields) : Except String Address :=
  match m.get? "address" with
  | some (.string s) => (decodeHexFixed 20 s).mapError fun _ => "log.address is not 20 bytes"
  | _ => .error "log.address missing"

/-- `parse_consensus_log_json`. -/
def parseConsensusLogJson (v : Json) : Except String ConsensusLog :=
  match v.asObject with
  | some m => do
    let address ← logAddress m
    let topics ← logTopics m
    let data ← logData m
    return { address, topics, data }
  | none => .error "log is not an object"

/-- `logs`. -/
def receiptLogs (m : Json.Fields) : Except String (List ConsensusLog) :=
  match m.get? "logs" with
  | none | some .null => .ok []
  | some (.array arr) => do
    require (arr.length ≤ maxReceiptLogs) "too many logs"
    arr.mapM parseConsensusLogJson
  | some _ => .error "logs not an array"

/-- `transactionHash`. -/
def receiptTxHash (m : Json.Fields) : Except String (Option Hash) :=
  match m.get? "transactionHash" with
  | none | some .null => .ok none
  | some (.string s) => do
    let h ← (decodeHexFixed 32 s).mapError fun _ => "transactionHash is not a 32-byte hash"
    return some h
  | some _ => .error "transactionHash not a string"

/-- `bind_optional_address`. -/
def bindOptionalAddress (v : Option Json) (field : String) (allowNull : Bool) :
    Except String Unit :=
  match v with
  | none => .ok ()
  | some .null => if allowNull then .ok () else .error s!"{field} must be an address"
  | some (.string s) => do
    let _ ← (decodeHexFixed 20 s).mapError fun _ => s!"{field} is not a 20-byte address"
    return ()
  | some _ => .error s!"{field} not a string"

/-- `bind_optional_qty`. -/
def bindOptionalQty (v : Option Json) (field : String) : Except String Unit :=
  match v with
  | none | some .null => .ok ()
  | some (.string s) => do
    let _ ← (decodeU64 s).mapError fun _ => s!"{field} is not a hex quantity"
    return ()
  | some _ => .error s!"{field} not a hex quantity"

/-- `ParsedReceipt`. -/
structure ParsedReceipt where
  consensus : ConsensusReceipt
  txHash : Option Hash

/-- `parse_consensus_receipt_json`. -/
def parseConsensusReceiptJson (v : Json) : Except String ParsedReceipt :=
  match v.asObject with
  | some m => do
    let status ← receiptStatus m
    let cumulativeGasUsed ← receiptCumulativeGasUsed m
    let logsBloom ← receiptLogsBloom m
    let txType ← receiptType m
    let logs ← receiptLogs m
    let txHash ← receiptTxHash m
    bindOptionalAddress (m.get? "from") "from" false
    bindOptionalAddress (m.get? "to") "to" true
    bindOptionalAddress (m.get? "contractAddress") "contractAddress" true
    bindOptionalQty (m.get? "gasUsed") "gasUsed"
    bindOptionalQty (m.get? "effectiveGasPrice") "effectiveGasPrice"
    return ⟨{ status, cumulativeGasUsed, logsBloom, logs, txType }, txHash⟩
  | none => .error "receipt is not an object"

/-! ## Writing receipt JSON -/

/-- The JSON of `rpc_log_json`. -/
def RpcLog.json (log : RpcLog) : Json :=
  .object [("address", .string (hexPrefixed log.address.val)),
    ("topics", .array (log.topics.map fun t => .string (hexPrefixed t.val))),
    ("data", .string (hexPrefixed log.data)),
    ("blockNumber", .string log.blockNumber),
    ("blockHash", .string log.blockHash),
    ("transactionHash", match log.transactionHash with
      | some h => .string (hexPrefixed h.val)
      | none => .null),
    ("transactionIndex", .string (hexQuantity log.transactionIndex)),
    ("logIndex", .string (hexQuantity log.logIndex)),
    ("removed", .bool false)]

/-- `logs` as `decorate_receipt_json` rebuilds it. -/
def rebuildLogs (hdr : RpcBlockHeader) (index : ℕ) (txHash : Option Hash)
    (logs : List ConsensusLog) (firstLogIndex : ℕ) : List Json :=
  logs.zipIdx.map fun log =>
    (rpcLogJson log.1 hdr txHash index (satAdd firstLogIndex log.2)).json

/-- `decorate_receipt_json`. -/
def decorateReceiptJson (v : Json) (hdr : RpcBlockHeader) (index : ℕ) (txHash : Option Hash)
    (logs : List ConsensusLog) (firstLogIndex gasUsed : ℕ) : Json :=
  match v.asObject with
  | some m =>
    let m := m.insert "blockHash" (.string hdr.hash)
    let m := m.insert "blockNumber" (.string hdr.number)
    let m := m.insert "transactionIndex" (.string (hexQuantity index))
    let m := m.insert "gasUsed" (.string (hexQuantity gasUsed))
    let m := match txHash with
      | some h => m.insert "transactionHash" (.string (hexPrefixed h.val))
      | none => m
    .object (m.insert "logs" (.array (rebuildLogs hdr index txHash logs firstLogIndex)))
  | none => v

/-- One log of `set_transaction_hash`. -/
def setLogTransactionHash (hash : Hash) (v : Json) : Json :=
  match v.asObject with
  | some log => .object (log.insert "transactionHash" (.string (hexPrefixed hash.val)))
  | none => v

/-- `set_transaction_hash`. -/
def setTransactionHash (v : Json) (hash : Hash) : Json :=
  match v.asObject with
  | some m =>
    let m := m.insert "transactionHash" (.string (hexPrefixed hash.val))
    match m.get? "logs" with
    | some (.array logs) =>
      .object (m.insert "logs" (.array (logs.map (setLogTransactionHash hash))))
    | _ => .object m
  | none => v

/-! ## Binding -/

/-- What an upstream answers for a block: `block_receipts_json` and `block_raw_transactions`. -/
structure BlockAnswers where
  receipts : Except String (List Json)
  transactions : Except String (List ByteVec)

/-- `BoundReceipt`, with its JSON. -/
structure JsonReceipt extends BoundReceipt where
  json : Json

/-- `ReceiptBind`, with the JSON of the receipts. -/
inductive Receipts where
  | empty
  | omitted
  | list (receipts : List JsonReceipt)

/-- A verification that failed. -/
def proofFailed (text : String) : RpcFailure :=
  ⟨errProofFailed, s!"proof_verification_failed: {text}"⟩

/-- The loop of `bind_receipts` over the upstream's receipts, from the `i`-th on: each with its
encoding. -/
def bindReceiptLoop (hdr : RpcBlockHeader) :
    List Json → (i logIndex prevCumulative : ℕ) → Except RpcFailure (List (Bytes × JsonReceipt))
  | [], _, _, _ => .ok []
  | v :: rest, i, logIndex, prevCumulative => do
    let parsed ← (parseConsensusReceiptJson v).mapError fun e => proofFailed s!"receipt {i}: {e}"
    let consensus := parsed.consensus
    let raw ← (encodeConsensusReceipt consensus).mapError fun e =>
      proofFailed s!"receipt {i}: {e.message}"
    let gasUsed := consensus.cumulativeGasUsed - prevCumulative
    let json := decorateReceiptJson v hdr i parsed.txHash consensus.logs logIndex gasUsed
    let tail ← bindReceiptLoop hdr rest (i + 1) (satAdd logIndex consensus.logs.length)
      consensus.cumulativeGasUsed
    return (raw, { txHash := parsed.txHash, logs := consensus.logs, json }) :: tail

/-- `u128::from_str_radix(_, 16)` from a digit on, after `acc`. -/
def parseHexU128 : List Char → ℕ → Option ℕ
  | [], acc => some acc
  | c :: cs, acc => do
    let d ← hexDigitValue c
    if 16 * acc + d ≤ u128Max then parseHexU128 cs (16 * acc + d) else none

/-- `u128::from_str_radix(_, 16)`. -/
def u128FromStrRadix16 : List Char → Option ℕ
  | [] => none
  | ['+'] => none
  | '+' :: cs => parseHexU128 cs 0
  | cs => parseHexU128 cs 0

/-- The base fee of the sealed header, or zero. -/
def baseFee (hdr : RpcBlockHeader) : ℕ :=
  (hdr.baseFeePerGas.bind fun h => u128FromStrRadix16 (trimStartMarks 'x' h.toList)).getD 0

section

variable (keccak256 : Bytes → Hash) (ecrecover : Hash → Bytes → Except SealError Address)

/-- `Node::bind_tx_envelopes`. -/
def bindTxEnvelopes (hdr : RpcBlockHeader) (up : BlockAnswers) :
    Except RpcFailure (Option (List ByteVec)) := do
  let root ← (decodeHexFixed 32 hdr.transactionsRoot).mapError fun e =>
    proofFailed s!"transactionsRoot: {e.message}"
  if root = emptyTrieRoot then return none
  let raws ← up.transactions.mapError fun e => ⟨errUpstream, s!"unverified_upstream: {e}"⟩
  if raws.isEmpty then return none
  let _ ← (verifyTxList keccak256 (raws.map ByteVec.val) root).mapError fun e =>
    proofFailed e.message
  return some raws

/-- The sender of an envelope, recovered from the signature over it. -/
def txSender (envelope : Bytes) : Option Address :=
  match txSigningHash keccak256 envelope with
  | .ok (digest, sig) => (ecrecover digest sig.val).toOption
  | .error _ => none

/-- `to`. -/
def recipientJson : Option Address → Json
  | some a => .string (hexPrefixed a.val)
  | none => .null

/-- `contractAddress`, for the recipient and the recovered sender of an envelope. -/
def deriveContract (envelope : Bytes) (recipient : Option Address) (sender : Address)
    (m : Json.Fields) : Json.Fields :=
  match recipient with
  | some _ => m.insert "contractAddress" .null
  | none =>
    match txNonce envelope with
    | .ok nonce =>
      m.insert "contractAddress" (.string (hexPrefixed (contractAddress keccak256 sender nonce).val))
    | .error _ => m

/-- `effectiveGasPrice`. -/
def derivePrice (hdr : RpcBlockHeader) (envelope : Bytes) (m : Json.Fields) : Json.Fields :=
  match txGasPrice envelope with
  | .ok price => m.insert "effectiveGasPrice" (.string (hexQuantity (price.effective (baseFee hdr))))
  | .error _ => m

/-- `from`, and `contractAddress` that depends on it. -/
def deriveSender (envelope : Bytes) (recipient : Option Address) (m : Json.Fields) : Json.Fields :=
  match txSender keccak256 ecrecover envelope with
  | some sender =>
    deriveContract keccak256 envelope recipient sender
      (m.insert "from" (.string (hexPrefixed sender.val)))
  | none => m

/-- The fields that are read out of a bound envelope. -/
def deriveFields (hdr : RpcBlockHeader) (envelope : Bytes) (v : Json) : Json :=
  match txToAddress envelope, v.asObject with
  | .ok recipient, some m =>
    let m := m.insert "to" (recipientJson recipient)
    .object (deriveSender keccak256 ecrecover envelope recipient (derivePrice hdr envelope m))
  | _, _ => v

/-- One receipt and the envelope at its index. -/
def bindEnvelope (hdr : RpcBlockHeader) (i : ℕ) (item : JsonReceipt) (envelope : Bytes) :
    Except RpcFailure JsonReceipt := do
  let derived := keccak256 envelope
  match item.txHash with
  | some claimed =>
    require (derived = claimed)
      (proofFailed s!"receipt {i}: transactionHash does not match transactionsRoot")
  | none => pure ()
  return { item with
    txHash := some derived
    json := deriveFields keccak256 ecrecover hdr envelope (setTransactionHash item.json derived) }

theorem bindEnvelope_eq_ok {hdr : RpcBlockHeader} {i : ℕ} {item r : JsonReceipt} {envelope : Bytes}
    (h : bindEnvelope keccak256 ecrecover hdr i item envelope = .ok r) :
    (∀ claimed, item.txHash = some claimed → keccak256 envelope = claimed) ∧
      r = { item with
        txHash := some (keccak256 envelope)
        json := deriveFields keccak256 ecrecover hdr envelope
          (setTransactionHash item.json (keccak256 envelope)) } := by
  simp only [bindEnvelope] at h
  split at h
  · next claimed hclaimed =>
    simp only [bind_eq_ok, require_eq_ok, exists_const, pure_eq_ok, Except.ok.injEq] at h
    refine ⟨fun c hc => ?_, h.2.symm⟩
    rw [h.1, Option.some.inj (hclaimed.symm.trans hc)]
  · next hnone =>
    simp only [pure_eq_ok, Except.ok.injEq] at h
    refine ⟨fun c hc => ?_, h.symm⟩
    rw [hnone] at hc
    cases hc

/-- The loop of `bind_receipts` over the bound envelopes. -/
def bindEnvelopeLoop (hdr : RpcBlockHeader) :
    List JsonReceipt → List ByteVec → ℕ → Except RpcFailure (List JsonReceipt)
  | [], _, _ => .ok []
  | _ :: _, [], _ => .error (proofFailed "more receipts than bound transactions")
  | item :: items, envelope :: envelopes, i => do
    let item ← bindEnvelope keccak256 ecrecover hdr i item envelope.val
    let rest ← bindEnvelopeLoop hdr items envelopes (i + 1)
    return item :: rest

/-- `Node::bind_receipts`. -/
def bindReceipts (hdr : RpcBlockHeader) (up : BlockAnswers) : Except RpcFailure Receipts := do
  let root ← (decodeHexFixed 32 hdr.receiptsRoot).mapError fun e =>
    proofFailed s!"receiptsRoot: {e.message}"
  if root = emptyTrieRoot then return .empty
  let jsons ← up.receipts.mapError fun e => ⟨errUpstream, s!"unverified_upstream: {e}"⟩
  if jsons.isEmpty then return .omitted
  require (jsons.length ≤ maxOrderedTrieItems) (proofFailed "too many receipts")
  let bound ← bindReceiptLoop hdr jsons 0 0 0
  (verifyReceiptList keccak256 (bound.map Prod.fst) root).mapError fun e => proofFailed e.message
  match ← bindTxEnvelopes keccak256 hdr up with
  | none => return .list (bound.map Prod.snd)
  | some envelopes =>
    return .list (← bindEnvelopeLoop keccak256 ecrecover hdr (bound.map Prod.snd) envelopes 0)

end

/-! ## The receipts of a verified block -/

/-- `ERR_STATE_ROOT`. -/
def errStateRoot : ℤ := -32002

/-- The upstream, as far as the receipt methods ask it: the answer to each request. -/
structure ReceiptUpstream where
  headerByHash : String → Except String RpcBlockHeader
  blockReceiptsJson : String → Except String (List Json)
  blockRawTransactions : String → Except String (List ByteVec)

/-- What the upstream answers for the block with this hash. -/
def ReceiptUpstream.answers (up : ReceiptUpstream) (hash : String) : BlockAnswers where
  receipts := up.blockReceiptsJson hash
  transactions := up.blockRawTransactions hash

section

variable (P : Primitives)

/-- `header_matches_local`. -/
def headerMatchesLocal (hdr : RpcBlockHeader) (block : VerifiedBlock) : Except RpcFailure Unit := do
  let number ← (decodeU64 hdr.number).mapError fun e => proofFailed e.message
  require (number = block.number) (proofFailed "header number mismatch")
  let root ← (decodeHexFixed 32 hdr.stateRoot).mapError fun e =>
    ⟨errStateRoot, s!"state_root_mismatch: {e.message}"⟩
  require (root = block.stateRoot)
    ⟨errStateRoot, "state_root_mismatch: header stateRoot != local verified"⟩
  let computed ← (headerHash P hdr).mapError fun e => proofFailed e.message
  require (computed = block.hash) (proofFailed "header hash mismatch")

variable (up : ReceiptUpstream)

/-- `Node::load_verified_header`. -/
def loadVerifiedHeader (block : VerifiedBlock) : Except RpcFailure RpcBlockHeader := do
  let hdr ← match block.header with
    | some h => pure h
    | none => (up.headerByHash (hexPrefixed block.hash.val)).mapError proofFailed
  headerMatchesLocal P hdr block
  return { hdr with hash := hexPrefixed block.hash.val }

/-- `Node::bound_block_receipts`. -/
def boundBlockReceipts (block : VerifiedBlock) : Except RpcFailure (RpcBlockHeader × Receipts) := do
  let header ← loadVerifiedHeader P up block
  let bind ← bindReceipts P.keccak256 (ecrecover P) header (up.answers header.hash)
  return (header, bind)

/-- The result of `Node::get_block_receipts` for a verified block. -/
def getBlockReceipts (block : VerifiedBlock) : Except RpcFailure (List Json) := do
  match ← boundBlockReceipts P up block with
  | (_, .list receipts) => return receipts.map JsonReceipt.json
  | (_, .empty) => return []
  | (_, .omitted) => return []

end

/-- What the log methods use of the receipts. -/
def Receipts.bind : Receipts → ReceiptBind
  | empty => .empty
  | omitted => .omitted
  | list receipts => .list (receipts.map (·.toBoundReceipt))

/-- `bound_block_receipts`, as the log methods call it. -/
def fetchReceipts (P : Primitives) (up : ReceiptUpstream) : Fetch := fun block =>
  (boundBlockReceipts P up block).map fun r => (r.1, r.2.bind)

end HeliosBsc
