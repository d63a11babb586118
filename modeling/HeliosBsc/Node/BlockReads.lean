import HeliosBsc.Consensus.HeaderBinding
import HeliosBsc.Execution.ListBinding
import HeliosBsc.Node.GetLogs
import HeliosBsc.Node.HeaderBatches
import HeliosBsc.Node.StateReads

/-!
# Reads of a block

`bin/helios-bsc/src/rpc_server/blocks.rs`: blocks, transaction counts and transactions by their
index. The header is the one that was verified, or one with its hash; the transactions are the
upstream's, bound to the header's `transactionsRoot`. However many providers are asked, all that is
answered about one block hash is one header and one list of transactions.
-/

namespace HeliosBsc

open Checked

/-- `ERR_METHOD`. -/
def errMethod : ℤ := -32601

/-- `TxBind`. -/
inductive TxBind where
  | empty
  | omitted
  | list (hashes : List Hash)
  deriving DecidableEq

/-- `TxBind::hashes`. -/
def TxBind.hashes : TxBind → List Hash
  | list v => v
  | empty | omitted => []

/-- `Value::is_null`. -/
def isNull : Json → Bool
  | .null => true
  | _ => false

/-- `rpc_block_json`. -/
def rpcBlockJson (hdr : RpcBlockHeader) (txHashes : List Hash) : Json :=
  match headerJson hdr with
  | .object map =>
    let txs := txHashes.map fun h => Json.string (hexPrefixed h.val)
    let map := Json.Fields.insert "uncles" (.array []) (Json.Fields.insert "transactions" (.array txs) map)
    .object (map.filter fun f => !isNull f.2)
  | v => v

/-- The object that `tx_at_index` answers with. -/
def txJson (hash : Hash) (hdr : RpcBlockHeader) (index : ℕ) : Json :=
  .object [("hash", .string (hexPrefixed hash.val)), ("blockHash", .string hdr.hash),
    ("blockNumber", .string hdr.number), ("transactionIndex", .string (hexQuantity index))]

/-- `wants_full_txs`. -/
def wantsFullTxs (params : Option (List Json)) : Bool :=
  match (params.bind fun p => p[1]? : Option Json) with
  | some (.bool b) => b
  | _ => false

/-- `parse_tx_index`. -/
def parseTxIndex (params : Option (List Json)) : Except RpcFailure ℕ := do
  let s ← StateReads.requireParam (StateReads.paramString (params.bind fun p => p[1]?))
    "transaction index required"
  (decodeU64 s).mapError fun e => ⟨errParams, s!"invalid transaction index: {e.message}"⟩

/-! ## The local block -/

/-- What a request for a block above the safe head is refused with. -/
def aboveSafe : RpcFailure := ⟨errNotSynced, "wallet mode only serves Safe or below (latest→Safe)"⟩

/-- The tag of a request: its first parameter, when that is a string. -/
def requestTag (params : Option (List Json)) : Except RpcFailure (Option String) :=
  match params.bind List.head? with
  | none => .ok none
  | some .null => .ok none
  | some (.string tag) => .ok (some tag)
  | some _ => .error ⟨errParams, "invalid params"⟩

section

variable (params : Option (List Json)) (refreshed : Except String (ℕ × SafeHead))
  (chain : List VerifiedBlock)

/-- The block of the chain with this tag, once the view is fresh. -/
def blockAtTag (tag : Option String) : Except RpcFailure VerifiedBlock := do
  let (_, safe) ← refreshed.mapError fun e => ⟨errNotSynced, s!"not_synced: {e}"⟩
  require ((walletBlockNumberAllowed tag safe).isSome = true) aboveSafe
  match walletGetBlockByNumber tag safe chain with
  | some block => return block
  | none => throw aboveSafe

/-- The block of the chain with this hash, once the view is fresh. -/
def blockAtHash (hash : String) : Except RpcFailure VerifiedBlock := do
  let _ ← (decodeHexFixed 32 hash).mapError fun _ => ⟨errParams, "bad block hash"⟩
  let (_, safe) ← refreshed.mapError fun e => ⟨errNotSynced, s!"not_synced: {e}"⟩
  match walletGetBlockByHash hash safe.number chain with
  | some block => return block
  | none => throw ⟨errNotSynced, "wallet mode only serves verified hashes at or below Safe"⟩

/-- The hash of a request: its first parameter. -/
def requestHash : Except RpcFailure String := do
  let params ← StateReads.requireParam params "invalid params"
  StateReads.requireParam (StateReads.paramString params.head?) "block hash required"

/-- `Node::local_block_by_number`. -/
def localBlockByNumber : Except RpcFailure VerifiedBlock := do
  let tag ← requestTag params
  blockAtTag refreshed chain tag

/-- `Node::local_block_by_hash`. -/
def localBlockByHash : Except RpcFailure VerifiedBlock := do
  let hash ← requestHash params
  blockAtHash refreshed chain hash

end

section

variable {refreshed : Except String (ℕ × SafeHead)} {chain : List VerifiedBlock} {b : VerifiedBlock}

theorem mem_of_blockAtTag {tag : Option String} (h : blockAtTag refreshed chain tag = .ok b) :
    ∃ tip safe, refreshed = .ok (tip, safe) ∧ b ∈ chain ∧ b.number ≤ safe.number := by
  simp only [blockAtTag, bind_eq_ok, mapError_eq_ok, require_eq_ok] at h
  obtain ⟨⟨tip, safe⟩, hrefreshed, ⟨⟩, -, h⟩ := h
  split at h
  · next block hblock =>
    obtain rfl := Except.ok.inj h
    exact ⟨tip, safe, hrefreshed, mem_of_walletGetBlockByNumber hblock⟩
  · cases h

theorem mem_of_blockAtHash {hash : String} (h : blockAtHash refreshed chain hash = .ok b) :
    ∃ tip safe, refreshed = .ok (tip, safe) ∧ b ∈ chain ∧ b.number ≤ safe.number := by
  simp only [blockAtHash, bind_eq_ok, mapError_eq_ok] at h
  obtain ⟨want, -, ⟨tip, safe⟩, hrefreshed, h⟩ := h
  split at h
  · next block hblock =>
    obtain rfl := Except.ok.inj h
    exact ⟨tip, safe, hrefreshed, mem_of_walletGetBlockByHash hblock⟩
  · cases h

end

/-! ## The transactions -/

/-- `Node::bind_tx_hashes`. -/
def bindTxHashes (keccak256 : Bytes → Hash) (hdr : RpcBlockHeader)
    (transactions : Except String (List ByteVec)) : Except RpcFailure TxBind := do
  let root ← (decodeHexFixed 32 hdr.transactionsRoot).mapError fun e =>
    proofFailed s!"transactionsRoot: {e.message}"
  if root = emptyTrieRoot then return .empty
  let raws ← transactions.mapError fun e => ⟨errUpstream, s!"unverified_upstream: {e}"⟩
  if raws.isEmpty then return .omitted
  let hashes ← (verifyTxList keccak256 (raws.map ByteVec.val) root).mapError fun e =>
    proofFailed e.message
  return .list hashes

section

variable (P : Primitives) (up : ReceiptUpstream)

/-- `Node::bound_block_txs`. -/
def boundBlockTxs (block : VerifiedBlock) : Except RpcFailure (RpcBlockHeader × TxBind) := do
  let header ← loadVerifiedHeader P up block
  let txs ← bindTxHashes P.keccak256 header (up.blockRawTransactions header.hash)
  return (header, txs)

/-- `TX_ENVELOPES_UNAVAILABLE`. -/
def txEnvelopesUnavailable : RpcFailure :=
  ⟨errProofFailed, "proof_verification_failed: upstream served no transaction envelopes"⟩

/-- `Node::verified_header_json`. -/
def verifiedHeaderJson (block : VerifiedBlock) : Except RpcFailure Json := do
  let (header, txs) ← boundBlockTxs P up block
  return rpcBlockJson header txs.hashes

/-- `Node::verified_tx_count`. -/
def verifiedTxCount (block : VerifiedBlock) : Except RpcFailure Json := do
  match ← boundBlockTxs P up block with
  | (_, .empty) => return .string "0x0"
  | (_, .list v) => return .string (hexQuantity v.length)
  | (_, .omitted) => throw txEnvelopesUnavailable

/-- `Node::tx_at_index`. -/
def txAtIndex (block : VerifiedBlock) (index : ℕ) : Except RpcFailure Json := do
  let (header, txs) ← boundBlockTxs P up block
  require (txs ≠ .omitted) txEnvelopesUnavailable
  match txs.hashes[index]? with
  | some hash => return txJson hash header index
  | none => return .null

variable (params : Option (List Json)) (refreshed : Except String (ℕ × SafeHead))
  (chain : List VerifiedBlock)

/-- `Node::get_block_by_number`. -/
def getBlockByNumber : Except RpcFailure Json := do
  let tag ← requestTag params
  require (wantsFullTxs params = false) ⟨errMethod, "method_unsupported"⟩
  let block ← blockAtTag refreshed chain tag
  verifiedHeaderJson P up block

/-- `Node::get_block_by_hash`. -/
def getBlockByHash : Except RpcFailure Json := do
  let hash ← requestHash params
  require (wantsFullTxs params = false) ⟨errMethod, "method_unsupported"⟩
  let block ← blockAtHash refreshed chain hash
  verifiedHeaderJson P up block

/-- `Node::tx_count_by_number`. -/
def txCountByNumber : Except RpcFailure Json := do
  let block ← localBlockByNumber params refreshed chain
  verifiedTxCount P up block

/-- `Node::tx_count_by_hash`. -/
def txCountByHash : Except RpcFailure Json := do
  let block ← localBlockByHash params refreshed chain
  verifiedTxCount P up block

/-- `Node::tx_by_block_number_and_index`. -/
def txByBlockNumberAndIndex : Except RpcFailure Json := do
  let block ← localBlockByNumber params refreshed chain
  let index ← parseTxIndex params
  txAtIndex P up block index

/-- `Node::tx_by_block_hash_and_index`. -/
def txByBlockHashAndIndex : Except RpcFailure Json := do
  let block ← localBlockByHash params refreshed chain
  let index ← parseTxIndex params
  txAtIndex P up block index

end

/-! ## What the hash of a block binds -/

/-- The string that is hashed for a header with these fields. -/
def HeaderFields.preimage (f : HeaderFields) : Bytes := encodeList (f.items.map encodeBytes)

/-- Two headers with one hash agree, or the strings that were hashed collide. -/
theorem HeaderFields.agree_or_collision {keccak256 : Bytes → Hash} {f f' : HeaderFields}
    {hdr hdr' : RpcBlockHeader} (hf : f.Of hdr) (hf' : f'.Of hdr')
    (hextra : utf8Length hdr.extraData.toList ≤ isizeMax)
    (hextra' : utf8Length hdr'.extraData.toList ≤ isizeMax)
    (h : keccak256 f.preimage = keccak256 f'.preimage) :
    f.Agree f' ∨ Collision keccak256 [f.preimage] [f'.preimage] := by
  by_cases heq : f.preimage = f'.preimage
  · left
    exact agree_of_items_eq hf hf' (eq_of_encodeList_eq (hf.length_encodeList_lt hextra)
      (hf'.length_encodeList_lt hextra') heq)
  · exact .inr ⟨_, List.mem_singleton_self _, _, List.mem_singleton_self _, heq, h⟩

/-- The strings that are hashed for a block: its header, and the trie of the transactions that the
upstream serves. -/
def hashedFor (P : Primitives) (up : ReceiptUpstream) (block : VerifiedBlock) : List Bytes :=
  match loadVerifiedHeader P up block with
  | .error _ => []
  | .ok hdr => (headerPreimage hdr).toOption.toList ++
    match up.blockRawTransactions hdr.hash with
    | .error _ => []
    | .ok raws => hashedStrings P.keccak256 (listTrie (raws.map ByteVec.val))

/-- What was bound to the hash of a block. -/
structure BoundTo (P : Primitives) (up : ReceiptUpstream) (block : VerifiedBlock)
    (hdr : RpcBlockHeader) (txs : TxBind) (f : HeaderFields) : Prop where
  loaded : loadVerifiedHeader P up block = .ok hdr
  hash : hdr.hash = hexPrefixed block.hash.val
  fields : f.Of hdr
  preimage : headerPreimage hdr = .ok f.preimage
  hashed : P.keccak256 f.preimage = block.hash
  empty : txs = .empty → f.txHash = emptyTrieRoot
  omitted : txs = .omitted → f.txHash ≠ emptyTrieRoot
  list : ∀ hashes, txs = .list hashes → f.txHash ≠ emptyTrieRoot ∧
    ∃ raws, up.blockRawTransactions hdr.hash = .ok raws ∧ raws ≠ [] ∧
      raws.length ≤ maxOrderedTrieItems ∧
      orderedTrieRoot P.keccak256 (raws.map ByteVec.val) = f.txHash ∧
      hashes = raws.map fun r => P.keccak256 r.val

section

variable {P : Primitives} {up : ReceiptUpstream} {block : VerifiedBlock} {hdr : RpcBlockHeader}
  {txs : TxBind} {f : HeaderFields}

theorem loadVerifiedHeader_ok (h : loadVerifiedHeader P up block = .ok hdr) :
    hdr.hash = hexPrefixed block.hash.val ∧ headerHash P hdr = .ok block.hash := by
  have hchecked : ∃ raw, headerMatchesLocal P raw block = .ok () ∧
      hdr = { raw with hash := hexPrefixed block.hash.val } := by
    unfold loadVerifiedHeader at h
    cases hheader : block.header with
    | some raw =>
      simp only [hheader, bind_eq_ok, pure_eq_ok, Except.ok.injEq] at h
      obtain ⟨raw', rfl, ⟨⟩, hmatches, rfl⟩ := h
      exact ⟨_, hmatches, rfl⟩
    | none =>
      simp only [hheader, bind_eq_ok, pure_eq_ok, Except.ok.injEq] at h
      obtain ⟨raw', -, ⟨⟩, hmatches, rfl⟩ := h
      exact ⟨_, hmatches, rfl⟩
  obtain ⟨raw, hmatches, rfl⟩ := hchecked
  simp only [headerMatchesLocal, bind_eq_ok, mapError_eq_ok, require_eq_ok] at hmatches
  obtain ⟨-, -, -, -, -, -, -, -, computed, hcomputed, rfl⟩ := hmatches
  exact ⟨rfl, hcomputed⟩

theorem verifyTxList_eq_ok {keccak256 : Bytes → Hash} {raws : List Bytes} {root : Hash}
    {hashes : List Hash} (h : verifyTxList keccak256 raws root = .ok hashes) :
    raws.length ≤ maxOrderedTrieItems ∧ orderedTrieRoot keccak256 raws = root ∧
      hashes = raws.map keccak256 := by
  simp only [verifyTxList, bind_eq_ok, require_eq_ok, pure_eq_ok, Except.ok.injEq] at h
  obtain ⟨-, hfew, -, hroot, rfl⟩ := h
  exact ⟨hfew, hroot, rfl⟩

theorem bindTxHashes_ok {keccak256 : Bytes → Hash} {answer : Except String (List ByteVec)}
    (h : bindTxHashes keccak256 hdr answer = .ok txs) :
    ∃ root, decodeHexFixed 32 hdr.transactionsRoot = .ok root ∧
      ((root = emptyTrieRoot ∧ txs = .empty) ∨ root ≠ emptyTrieRoot ∧
        ∃ raws, answer = .ok raws ∧ ((raws = [] ∧ txs = .omitted) ∨ raws ≠ [] ∧
          ∃ hashes, verifyTxList keccak256 (raws.map ByteVec.val) root = .ok hashes ∧
            txs = .list hashes)) := by
  simp only [bindTxHashes, bind_eq_ok, mapError_eq_ok] at h
  obtain ⟨root, hroot, h⟩ := h
  refine ⟨root, hroot, ?_⟩
  split_ifs at h with hempty
  · exact .inl ⟨hempty, (Except.ok.inj h).symm⟩
  · simp only [bind_eq_ok, mapError_eq_ok] at h
    obtain ⟨raws, hraws, h⟩ := h
    refine .inr ⟨hempty, raws, hraws, ?_⟩
    split_ifs at h with hnil
    · exact .inl ⟨List.isEmpty_iff.mp hnil, (Except.ok.inj h).symm⟩
    · simp only [bind_eq_ok, mapError_eq_ok, pure_eq_ok, Except.ok.injEq] at h
      obtain ⟨hashes, hverify, rfl⟩ := h
      exact .inr ⟨fun hraw => hnil (List.isEmpty_iff.mpr hraw), hashes, hverify, rfl⟩

theorem boundBlockTxs_ok (h : boundBlockTxs P up block = .ok (hdr, txs)) :
    ∃ f, BoundTo P up block hdr txs f := by
  simp only [boundBlockTxs, bind_eq_ok, pure_eq_ok, Except.ok.injEq, Prod.mk.injEq] at h
  obtain ⟨hdr', hload, txs', htxs, rfl, rfl⟩ := h
  obtain ⟨hhash, hheader⟩ := loadVerifiedHeader_ok hload
  obtain ⟨bytes, hbytes, hkeccak⟩ := map_eq_ok.mp hheader
  obtain ⟨f, hf, rfl⟩ := headerPreimage_eq_ok hbytes
  obtain ⟨root, hroot, hcases⟩ := bindTxHashes_ok htxs
  cases hf.txHash.symm.trans hroot
  refine ⟨f, hload, hhash, hf, hbytes, hkeccak, ?_, ?_, ?_⟩
  · rintro rfl
    obtain ⟨hempty, -⟩ | ⟨-, raws, -, ⟨-, h⟩ | ⟨-, hashes, -, h⟩⟩ := hcases
    · exact hempty
    · cases h
    · cases h
  · rintro rfl
    obtain ⟨-, h⟩ | ⟨hne, -⟩ := hcases
    · cases h
    · exact hne
  · rintro hashes rfl
    obtain ⟨-, h⟩ | ⟨hne, raws, hraws, ⟨-, h⟩ | ⟨hnil, hashes', hverify, h⟩⟩ := hcases
    · cases h
    · cases h
    · cases h
      obtain ⟨hfew, hlist, rfl⟩ := verifyTxList_eq_ok hverify
      rw [List.length_map] at hfew
      exact ⟨hne, raws, hraws, hnil, hfew, hlist, List.map_map⟩

theorem BoundTo.mem_hashedFor (h : BoundTo P up block hdr txs f) :
    f.preimage ∈ hashedFor P up block ∧ ∀ raws, up.blockRawTransactions hdr.hash = .ok raws →
      ∀ x ∈ hashedStrings P.keccak256 (listTrie (raws.map ByteVec.val)), x ∈ hashedFor P up block := by
  unfold hashedFor
  rw [h.loaded]
  constructor
  · refine List.mem_append_left _ ?_
    rw [h.preimage]
    exact List.mem_singleton_self _
  · intro raws hraws x hx
    simp only [hraws]
    exact List.mem_append_right _ hx

theorem BoundTo.agree (hempty : P.keccak256 [0x80] = emptyTrieRoot) {up' : ReceiptUpstream}
    {block' : VerifiedBlock} {hdr' : RpcBlockHeader} {txs' : TxBind} {f' : HeaderFields}
    (h : BoundTo P up block hdr txs f) (h' : BoundTo P up' block' hdr' txs' f')
    (hsame : block.hash = block'.hash)
    (hextra : utf8Length hdr.extraData.toList ≤ isizeMax)
    (hextra' : utf8Length hdr'.extraData.toList ≤ isizeMax)
    (hnot : ¬ Collision P.keccak256 (hashedFor P up block) (hashedFor P up' block')) :
    f.Agree f' ∧ ∀ raws raws',
      up.blockRawTransactions hdr.hash = .ok raws → raws.length ≤ maxOrderedTrieItems →
      orderedTrieRoot P.keccak256 (raws.map ByteVec.val) = f.txHash →
      up'.blockRawTransactions hdr'.hash = .ok raws' → raws'.length ≤ maxOrderedTrieItems →
      orderedTrieRoot P.keccak256 (raws'.map ByteVec.val) = f'.txHash → raws = raws' := by
  have hagree : f.Agree f' := by
    refine (HeaderFields.agree_or_collision h.fields h'.fields hextra hextra'
      (h.hashed.trans (hsame.trans h'.hashed.symm))).resolve_right fun hcol => hnot ?_
    refine Collision.mono P.keccak256 hcol (fun x hx => ?_) fun x hx => ?_
    · rw [List.mem_singleton.mp hx]
      exact h.mem_hashedFor.1
    · rw [List.mem_singleton.mp hx]
      exact h'.mem_hashedFor.1
  have hroots : f.txHash = f'.txHash := by rw [hagree.mandatory]
  refine ⟨hagree, fun raws raws' hraws hfew hroot hraws' hfew' hroot' => ?_⟩
  refine (eq_or_collision_of_root_eq P.keccak256 hempty hfew hfew'
    (hroot.trans (hroots.trans hroot'.symm))).resolve_right fun hcol => hnot ?_
  exact Collision.mono P.keccak256 hcol (h.mem_hashedFor.2 raws hraws)
    (h'.mem_hashedFor.2 raws' hraws')

end

/-! ## One view of a block -/

/-- A block: its header and its transactions. -/
structure BlockView where
  hash : Hash
  fields : HeaderFields
  transactions : List ByteVec

namespace BlockView

/-- The hashes of the transactions. -/
def txHashes (keccak256 : Bytes → Hash) (v : BlockView) : List Hash :=
  v.transactions.map fun r => keccak256 r.val

/-- What was bound is of this block: its header, and its transactions where they were served. -/
structure Covers (keccak256 : Bytes → Hash) (v : BlockView) (hdr : RpcBlockHeader) (txs : TxBind) :
    Prop where
  hash : hdr.hash = hexPrefixed v.hash.val
  fields : ∃ f : HeaderFields, f.Of hdr ∧ f.Agree v.fields
  empty : txs = .empty → v.transactions = []
  omitted : txs = .omitted → v.transactions ≠ []
  list : ∀ hashes, txs = .list hashes → v.transactions ≠ [] ∧ hashes = v.txHashes keccak256

end BlockView

/-- The methods that read a block. -/
inductive BlockMethod where
  | getBlockByNumber
  | getBlockByHash
  | getBlockTransactionCountByNumber
  | getBlockTransactionCountByHash
  | getTransactionByBlockNumberAndIndex
  | getTransactionByBlockHashAndIndex
  deriving DecidableEq

/-- A request for a block, the view and the chain it meets, and the upstream that is asked. -/
structure BlockRead where
  method : BlockMethod
  params : Option (List Json)
  refreshed : Except String (ℕ × SafeHead)
  chain : List VerifiedBlock
  up : ReceiptUpstream

namespace BlockRead

/-- The block of the chain that the request is about. -/
def block (r : BlockRead) : Except RpcFailure VerifiedBlock :=
  match r.method with
  | .getBlockByNumber | .getBlockTransactionCountByNumber | .getTransactionByBlockNumberAndIndex =>
    localBlockByNumber r.params r.refreshed r.chain
  | .getBlockByHash | .getBlockTransactionCountByHash | .getTransactionByBlockHashAndIndex =>
    localBlockByHash r.params r.refreshed r.chain

/-- The arm of `handle` for the method. -/
def answer (P : Primitives) (r : BlockRead) : Except RpcFailure Json :=
  match r.method with
  | .getBlockByNumber => getBlockByNumber P r.up r.params r.refreshed r.chain
  | .getBlockByHash => getBlockByHash P r.up r.params r.refreshed r.chain
  | .getBlockTransactionCountByNumber => txCountByNumber P r.up r.params r.refreshed r.chain
  | .getBlockTransactionCountByHash => txCountByHash P r.up r.params r.refreshed r.chain
  | .getTransactionByBlockNumberAndIndex =>
    txByBlockNumberAndIndex P r.up r.params r.refreshed r.chain
  | .getTransactionByBlockHashAndIndex => txByBlockHashAndIndex P r.up r.params r.refreshed r.chain

/-- The strings that are hashed for the request. -/
def hashed (P : Primitives) (r : BlockRead) : List Bytes :=
  match r.block with
  | .ok b => hashedFor P r.up b
  | .error _ => []

end BlockRead

/-- What the answer to a request shows of a block. -/
inductive BlockView.Shows (keccak256 : Bytes → Hash) (v : BlockView) :
    BlockMethod → Option (List Json) → Json → Prop where
  | block {m : BlockMethod} {params : Option (List Json)} {hdr : RpcBlockHeader}
      {hashes : List Hash} (hm : m = .getBlockByNumber ∨ m = .getBlockByHash)
      (hash : hdr.hash = hexPrefixed v.hash.val)
      (fields : ∃ f : HeaderFields, f.Of hdr ∧ f.Agree v.fields)
      (shown : hashes = v.txHashes keccak256 ∨ hashes = []) :
      v.Shows keccak256 m params (rpcBlockJson hdr hashes)
  | count {m : BlockMethod} {params : Option (List Json)}
      (hm : m = .getBlockTransactionCountByNumber ∨ m = .getBlockTransactionCountByHash) :
      v.Shows keccak256 m params (.string (hexQuantity v.transactions.length))
  | transaction {m : BlockMethod} {params : Option (List Json)} {hdr : RpcBlockHeader} {i : ℕ}
      {tx : ByteVec}
      (hm : m = .getTransactionByBlockNumberAndIndex ∨ m = .getTransactionByBlockHashAndIndex)
      (index : parseTxIndex params = .ok i) (found : v.transactions[i]? = some tx)
      (hash : hdr.hash = hexPrefixed v.hash.val) (number : decodeU64 hdr.number = .ok v.fields.number) :
      v.Shows keccak256 m params (txJson (keccak256 tx.val) hdr i)
  | beyond {m : BlockMethod} {params : Option (List Json)} {i : ℕ}
      (hm : m = .getTransactionByBlockNumberAndIndex ∨ m = .getTransactionByBlockHashAndIndex)
      (index : parseTxIndex params = .ok i) (past : v.transactions.length ≤ i) :
      v.Shows keccak256 m params .null

section

variable {P : Primitives} {up : ReceiptUpstream} {block : VerifiedBlock} {v : BlockView}
  {params : Option (List Json)} {answer : Json} {m : BlockMethod}

theorem hexQuantity_zero : hexQuantity 0 = "0x0" := by
  rw [hexQuantity, quantityDigits, if_pos (by norm_num)]
  rfl

theorem shows_of_verifiedHeaderJson (hm : m = .getBlockByNumber ∨ m = .getBlockByHash)
    (h : verifiedHeaderJson P up block = .ok answer)
    (hcovers : ∀ hdr txs, boundBlockTxs P up block = .ok (hdr, txs) → v.Covers P.keccak256 hdr txs) :
    v.Shows P.keccak256 m params answer := by
  simp only [verifiedHeaderJson, bind_eq_ok, pure_eq_ok, Except.ok.injEq] at h
  obtain ⟨⟨hdr, txs⟩, hbound, rfl⟩ := h
  have hc := hcovers hdr txs hbound
  refine .block hm hc.hash hc.fields ?_
  cases txs with
  | empty => exact .inr rfl
  | omitted => exact .inr rfl
  | list hashes => exact .inl (hc.list hashes rfl).2

theorem shows_of_verifiedTxCount
    (hm : m = .getBlockTransactionCountByNumber ∨ m = .getBlockTransactionCountByHash)
    (h : verifiedTxCount P up block = .ok answer)
    (hcovers : ∀ hdr txs, boundBlockTxs P up block = .ok (hdr, txs) → v.Covers P.keccak256 hdr txs) :
    v.Shows P.keccak256 m params answer := by
  simp only [verifiedTxCount, bind_eq_ok] at h
  obtain ⟨⟨hdr, txs⟩, hbound, h⟩ := h
  have hc := hcovers hdr txs hbound
  have hcount : v.Shows P.keccak256 m params (.string (hexQuantity v.transactions.length)) :=
    .count hm
  cases txs with
  | empty =>
    obtain rfl := Except.ok.inj h
    rw [hc.empty rfl, List.length_nil, hexQuantity_zero] at hcount
    exact hcount
  | omitted => cases h
  | list hashes =>
    obtain rfl := Except.ok.inj h
    rw [(hc.list hashes rfl).2, BlockView.txHashes, List.length_map]
    exact hcount

theorem shows_of_txAtIndex
    (hm : m = .getTransactionByBlockNumberAndIndex ∨ m = .getTransactionByBlockHashAndIndex) {i : ℕ}
    (hindex : parseTxIndex params = .ok i) (h : txAtIndex P up block i = .ok answer)
    (hcovers : ∀ hdr txs, boundBlockTxs P up block = .ok (hdr, txs) → v.Covers P.keccak256 hdr txs) :
    v.Shows P.keccak256 m params answer := by
  simp only [txAtIndex, bind_eq_ok, require_eq_ok] at h
  obtain ⟨⟨hdr, txs⟩, hbound, ⟨⟩, hserved, h⟩ := h
  have hc := hcovers hdr txs hbound
  have hhashes : txs.hashes = v.txHashes P.keccak256 := by
    cases txs with
    | empty =>
      rw [BlockView.txHashes, hc.empty rfl]
      rfl
    | omitted => exact absurd rfl hserved
    | list hashes => exact (hc.list hashes rfl).2
  rw [hhashes] at h
  split at h
  · next hash hget =>
    obtain rfl := Except.ok.inj h
    rw [BlockView.txHashes, List.getElem?_map, Option.map_eq_some_iff] at hget
    obtain ⟨tx, htx, rfl⟩ := hget
    obtain ⟨f, hf, hagree⟩ := hc.fields
    have hnumber := hf.number
    rw [hagree.mandatory] at hnumber
    exact .transaction hm hindex htx hc.hash hnumber
  · next hget =>
    obtain rfl := Except.ok.inj h
    rw [List.getElem?_eq_none_iff, BlockView.txHashes, List.length_map] at hget
    exact .beyond hm hindex hget

end

/-- A successful answer is about the block of the request, and shows any view that covers what was
bound. -/
theorem BlockRead.shows_of_answer {P : Primitives} {r : BlockRead} {v : BlockView} {answer : Json}
    {block : VerifiedBlock} (h : r.answer P = .ok answer) (hblock : r.block = .ok block)
    (hcovers : ∀ hdr txs, boundBlockTxs P r.up block = .ok (hdr, txs) →
      v.Covers P.keccak256 hdr txs) :
    v.Shows P.keccak256 r.method r.params answer := by
  obtain ⟨m, params, refreshed, chain, up⟩ := r
  cases m with
  | getBlockByNumber =>
    simp only [BlockRead.answer, BlockRead.block, getBlockByNumber, localBlockByNumber, bind_eq_ok,
      require_eq_ok] at h hblock
    obtain ⟨tag, htag, ⟨⟩, -, b, hb, h⟩ := h
    obtain ⟨tag', htag', hb'⟩ := hblock
    cases htag.symm.trans htag'
    cases hb.symm.trans hb'
    exact shows_of_verifiedHeaderJson (.inl rfl) h hcovers
  | getBlockByHash =>
    simp only [BlockRead.answer, BlockRead.block, getBlockByHash, localBlockByHash, bind_eq_ok,
      require_eq_ok] at h hblock
    obtain ⟨hash, hhash, ⟨⟩, -, b, hb, h⟩ := h
    obtain ⟨hash', hhash', hb'⟩ := hblock
    cases hhash.symm.trans hhash'
    cases hb.symm.trans hb'
    exact shows_of_verifiedHeaderJson (.inr rfl) h hcovers
  | getBlockTransactionCountByNumber =>
    simp only [BlockRead.answer, BlockRead.block, txCountByNumber, bind_eq_ok] at h hblock
    obtain ⟨b, hb, h⟩ := h
    cases hb.symm.trans hblock
    exact shows_of_verifiedTxCount (.inl rfl) h hcovers
  | getBlockTransactionCountByHash =>
    simp only [BlockRead.answer, BlockRead.block, txCountByHash, bind_eq_ok] at h hblock
    obtain ⟨b, hb, h⟩ := h
    cases hb.symm.trans hblock
    exact shows_of_verifiedTxCount (.inr rfl) h hcovers
  | getTransactionByBlockNumberAndIndex =>
    simp only [BlockRead.answer, BlockRead.block, txByBlockNumberAndIndex, bind_eq_ok] at h hblock
    obtain ⟨b, hb, i, hi, h⟩ := h
    cases hb.symm.trans hblock
    exact shows_of_txAtIndex (.inl rfl) hi h hcovers
  | getTransactionByBlockHashAndIndex =>
    simp only [BlockRead.answer, BlockRead.block, txByBlockHashAndIndex, bind_eq_ok] at h hblock
    obtain ⟨b, hb, i, hi, h⟩ := h
    cases hb.symm.trans hblock
    exact shows_of_txAtIndex (.inr rfl) hi h hcovers

/-! ## All that is answered about one hash -/

instance : Inhabited HeaderFields where
  default := {
    parent := default, uncle := default, coinbase := default, root := default, txHash := default,
    receipt := default, bloom := .repeated 256 0, difficulty := 0, number := 0, gasLimit := 0,
    gasUsed := 0, time := 0, extra := [], mix := default, nonce := .repeated 8 0, baseFee := none,
    withdrawals := none, blobGas := none, excess := none, beacon := none, requests := none }

/-- The header that is loaded for the request has an `extraData` that a `String` can hold. -/
def BlockRead.Allocated (P : Primitives) (r : BlockRead) : Prop :=
  ∀ b hdr, r.block = .ok b → loadVerifiedHeader P r.up b = .ok hdr →
    utf8Length hdr.extraData.toList ≤ isizeMax

/-- A request of the list had this bound to the hash. -/
structure BoundIn (P : Primitives) (reads : List BlockRead) (hash : Hash) (r : BlockRead)
    (b : VerifiedBlock) (hdr : RpcBlockHeader) (txs : TxBind) (f : HeaderFields) : Prop where
  mem : r ∈ reads
  block : r.block = .ok b
  hash : b.hash = hash
  bound : BoundTo P r.up b hdr txs f

section

variable {P : Primitives} {reads : List BlockRead} {hash : Hash} {r r' : BlockRead}
  {b b' : VerifiedBlock} {hdr hdr' : RpcBlockHeader} {txs txs' : TxBind} {f f' : HeaderFields}

/-- What two requests had bound to the hash is one header, and one list where both had one. -/
theorem BoundIn.agree (hempty : P.keccak256 [0x80] = emptyTrieRoot)
    (hextra : ∀ r ∈ reads, r.Allocated P)
    (hnot : ¬ ∃ r ∈ reads, ∃ r' ∈ reads, Collision P.keccak256 (r.hashed P) (r'.hashed P))
    (h : BoundIn P reads hash r b hdr txs f) (h' : BoundIn P reads hash r' b' hdr' txs' f') :
    f.Agree f' ∧ ∀ hashes hashes', txs = .list hashes → txs' = .list hashes' → hashes = hashes' := by
  have hstrings : ∀ {r : BlockRead} {b : VerifiedBlock}, r.block = .ok b →
      r.hashed P = hashedFor P r.up b := fun hb => by
    rw [BlockRead.hashed, hb]
  obtain ⟨hagree, hlists⟩ := h.bound.agree hempty h'.bound (h.hash.trans h'.hash.symm)
    (hextra r h.mem b hdr h.block h.bound.loaded) (hextra r' h'.mem b' hdr' h'.block h'.bound.loaded)
    fun hcol => hnot ⟨r, h.mem, r', h'.mem, by rwa [hstrings h.block, hstrings h'.block]⟩
  refine ⟨hagree, fun hashes hashes' hl hl' => ?_⟩
  obtain ⟨-, raws, hraws, -, hfew, hroot, rfl⟩ := h.bound.list hashes hl
  obtain ⟨-, raws', hraws', -, hfew', hroot', rfl⟩ := h'.bound.list hashes' hl'
  rw [hlists raws raws' hraws hfew hroot hraws' hfew' hroot']

/-- One block covers all that was bound to the hash. -/
theorem exists_view (hash : Hash) (hempty : P.keccak256 [0x80] = emptyTrieRoot)
    (hextra : ∀ r ∈ reads, r.Allocated P)
    (hnot : ¬ ∃ r ∈ reads, ∃ r' ∈ reads, Collision P.keccak256 (r.hashed P) (r'.hashed P)) :
    ∃ v : BlockView, v.hash = hash ∧ ∀ r b hdr txs f, BoundIn P reads hash r b hdr txs f →
      v.Covers P.keccak256 hdr txs := by
  by_cases hany : ∃ r b hdr txs f, BoundIn P reads hash r b hdr txs f
  · obtain ⟨r₀, b₀, hdr₀, txs₀, f₀, h₀⟩ := hany
    have hroots : ∀ r b hdr txs f, BoundIn P reads hash r b hdr txs f → f.Agree f₀ :=
      fun r b hdr txs f h => (h.agree hempty hextra hnot h₀).1
    -- The list of any request that had one, or any other list that is empty when the root is.
    have hlist : ∃ l : List ByteVec, (f₀.txHash = emptyTrieRoot ↔ l = []) ∧
        ∀ r b hdr txs f, BoundIn P reads hash r b hdr txs f → ∀ hashes, txs = .list hashes →
          hashes = l.map fun t => P.keccak256 t.val := by
      by_cases hserved : ∃ r b hdr hashes f, BoundIn P reads hash r b hdr (.list hashes) f
      · obtain ⟨r₁, b₁, hdr₁, hashes₁, f₁, h₁⟩ := hserved
        obtain ⟨hne, raws, -, hnil, -, -, rfl⟩ := h₁.bound.list hashes₁ rfl
        rw [(hroots _ _ _ _ _ h₁).mandatory] at hne
        refine ⟨raws, iff_of_false hne hnil, fun r b hdr txs f h hashes hl => ?_⟩
        exact (h.agree hempty hextra hnot h₁).2 hashes _ hl rfl
      · have hnone : ∀ l : List ByteVec, ∀ r b hdr txs f, BoundIn P reads hash r b hdr txs f →
            ∀ hashes, txs = .list hashes → hashes = l.map fun t => P.keccak256 t.val := by
          rintro l r b hdr txs f h hashes rfl
          exact absurd ⟨r, b, hdr, hashes, f, h⟩ hserved
        by_cases hroot : f₀.txHash = emptyTrieRoot
        · exact ⟨[], iff_of_true hroot rfl, hnone []⟩
        · exact ⟨[⟨[], Nat.zero_le _⟩], iff_of_false hroot (List.cons_ne_nil _ _), hnone _⟩
    obtain ⟨l, hl, hlists⟩ := hlist
    refine ⟨⟨hash, f₀, l⟩, rfl, fun r b hdr txs f h => ?_⟩
    have hagree := hroots r b hdr txs f h
    have htx : f.txHash = f₀.txHash := by rw [hagree.mandatory]
    constructor
    · rw [h.bound.hash, h.hash]
    · exact ⟨f, h.bound.fields, hagree⟩
    · exact fun he => hl.mp (htx ▸ h.bound.empty he)
    · exact fun ho => mt hl.mpr (htx ▸ h.bound.omitted ho)
    · exact fun hashes hh => ⟨mt hl.mpr (htx ▸ (h.bound.list hashes hh).1),
        hlists r b hdr txs f h hashes hh⟩
  · exact ⟨⟨hash, default, []⟩, rfl, fun r b hdr txs f h => absurd ⟨r, b, hdr, txs, f, h⟩ hany⟩

end

theorem BlockRead.block_of_answer {P : Primitives} {r : BlockRead} {answer : Json}
    (h : r.answer P = .ok answer) :
    ∃ tip safe b, r.refreshed = .ok (tip, safe) ∧ r.block = .ok b ∧ b ∈ r.chain ∧
      b.number ≤ safe.number := by
  have hblock : ∃ b, r.block = .ok b := by
    obtain ⟨m, params, refreshed, chain, up⟩ := r
    cases m with
    | getBlockByNumber =>
      simp only [BlockRead.answer, getBlockByNumber, bind_eq_ok, require_eq_ok] at h
      obtain ⟨tag, htag, ⟨⟩, -, b, hb, -⟩ := h
      exact ⟨b, bind_eq_ok.mpr ⟨tag, htag, hb⟩⟩
    | getBlockByHash =>
      simp only [BlockRead.answer, getBlockByHash, bind_eq_ok, require_eq_ok] at h
      obtain ⟨hash, hhash, ⟨⟩, -, b, hb, -⟩ := h
      exact ⟨b, bind_eq_ok.mpr ⟨hash, hhash, hb⟩⟩
    | getBlockTransactionCountByNumber | getBlockTransactionCountByHash
    | getTransactionByBlockNumberAndIndex | getTransactionByBlockHashAndIndex =>
      obtain ⟨b, hb, -⟩ := bind_eq_ok.mp h
      exact ⟨b, hb⟩
  obtain ⟨b, hb⟩ := hblock
  have hlocal : ∃ tip safe, r.refreshed = .ok (tip, safe) ∧ b ∈ r.chain ∧ b.number ≤ safe.number := by
    obtain ⟨m, params, refreshed, chain, up⟩ := r
    cases m with
    | getBlockByNumber | getBlockTransactionCountByNumber | getTransactionByBlockNumberAndIndex =>
      obtain ⟨tag, -, hb⟩ := bind_eq_ok.mp hb
      exact mem_of_blockAtTag hb
    | getBlockByHash | getBlockTransactionCountByHash | getTransactionByBlockHashAndIndex =>
      obtain ⟨hash, -, hb⟩ := bind_eq_ok.mp hb
      exact mem_of_blockAtHash hb
  obtain ⟨tip, safe, hrefreshed, hmem, hle⟩ := hlocal
  exact ⟨tip, safe, b, hrefreshed, hb, hmem, hle⟩

/-- However many block requests are made, with whatever parameters, views, chains and upstreams:
each that succeeds is about a block of its chain at or below its safe head, and all that are about
one hash show one block. The header fields that they show are of one header, their counts are of one
list of transactions and so is each transaction or absence at an index. Otherwise two strings that
were hashed for them collide. -/
theorem block_reads_show_one_block (P : Primitives) (hempty : P.keccak256 [0x80] = emptyTrieRoot)
    (reads : List BlockRead) (hextra : ∀ r ∈ reads, r.Allocated P) (hash : Hash) :
    (∀ r ∈ reads, ∀ answer, r.answer P = .ok answer → ∃ tip safe b,
      r.refreshed = .ok (tip, safe) ∧ r.block = .ok b ∧ b ∈ r.chain ∧ b.number ≤ safe.number) ∧
    ((∃ v : BlockView, v.hash = hash ∧ ∀ r ∈ reads, ∀ b answer, r.block = .ok b → b.hash = hash →
      r.answer P = .ok answer → v.Shows P.keccak256 r.method r.params answer) ∨
      ∃ r ∈ reads, ∃ r' ∈ reads, Collision P.keccak256 (r.hashed P) (r'.hashed P)) := by
  refine ⟨fun r _ answer h => BlockRead.block_of_answer h, ?_⟩
  by_cases hcol : ∃ r ∈ reads, ∃ r' ∈ reads, Collision P.keccak256 (r.hashed P) (r'.hashed P)
  · exact .inr hcol
  · obtain ⟨v, hv, hcovers⟩ := exists_view hash hempty hextra hcol
    refine .inl ⟨v, hv, fun r hr b answer hb hhash h => ?_⟩
    refine BlockRead.shows_of_answer h hb fun hdr txs hbound => ?_
    obtain ⟨f, hf⟩ := boundBlockTxs_ok hbound
    exact hcovers r b hdr txs f ⟨hr, hb, hhash, hf⟩

/-! ## A block with one transaction -/

theorem BlockRead.answer_of_count {P : Primitives} {r : BlockRead} {b : VerifiedBlock}
    (hmethod : r.method = .getBlockTransactionCountByNumber ∨
      r.method = .getBlockTransactionCountByHash) (hblock : r.block = .ok b) :
    r.answer P = verifiedTxCount P r.up b := by
  obtain ⟨m, params, refreshed, chain, up⟩ := r
  rcases hmethod with hm | hm
  · cases hm
    have hlocal : localBlockByNumber params refreshed chain = .ok b := hblock
    simp only [answer, txCountByNumber, hlocal, ok_bind]
  · cases hm
    have hlocal : localBlockByHash params refreshed chain = .ok b := hblock
    simp only [answer, txCountByHash, hlocal, ok_bind]

def sampleTx : ByteVec := ⟨[2], by decide⟩

/-- An upstream that serves the transaction, and a header or none. -/
def sampleTxUpstream (header : Except String RpcBlockHeader) : ReceiptUpstream where
  headerByHash _ := header
  blockReceiptsJson _ := .ok []
  blockRawTransactions _ := .ok [sampleTx]

/-- Two counts of the transactions of a block: by number, where the block has kept its header, and by
hash from another upstream, which has to serve the header, too. -/
def sampleReads (hdr : RpcBlockHeader) (hash : Hash) : List BlockRead :=
  let refreshed := .ok (sealedChainStart, ⟨sealedChainStart, "", "", 1, 1⟩)
  [⟨.getBlockTransactionCountByNumber, some [], refreshed, [sampleBlock (some hdr) hash],
      sampleTxUpstream (.error "not served")⟩,
    ⟨.getBlockTransactionCountByHash, some [.string (hexPrefixed hash.val)], refreshed,
      [sampleBlock none hash], sampleTxUpstream (.ok hdr)⟩]

theorem sampleReads_block {hdr : RpcBlockHeader} {hash : Hash} {r : BlockRead}
    (hr : r ∈ sampleReads hdr hash) : ∃ header, r.block = .ok (sampleBlock header hash) ∧
      (header = some hdr ∨ header = none ∧ r.up.headerByHash (hexPrefixed hash.val) = .ok hdr) ∧
      (∀ hash, r.up.blockRawTransactions hash = .ok [sampleTx]) ∧
      (r.method = .getBlockTransactionCountByNumber ∨
        r.method = .getBlockTransactionCountByHash) := by
  rcases List.mem_cons.mp hr with rfl | hr
  · exact ⟨some hdr, rfl, .inl rfl, fun _ => rfl, .inl rfl⟩
  · rw [List.mem_singleton.mp hr]
    refine ⟨none, ?_, .inr ⟨rfl, rfl⟩, fun _ => rfl, .inr rfl⟩
    have hfound : walletGetBlockByHash (hexPrefixed hash.val) sealedChainStart [sampleBlock none hash] =
        some (sampleBlock none hash) := by
      simp [walletGetBlockByHash, sampleBlock]
    change blockAtHash _ [sampleBlock none hash] (hexPrefixed hash.val) = _
    unfold blockAtHash
    rw [decodeHexFixed_hexPrefixed]
    simp only [mapError_ok, ok_bind, hfound, pure_eq_ok]

theorem sampleReads_allocated {receipts transactions hash : Hash}
    (hhash : headerHash mockPrimitives (headerWithRoots receipts transactions) = .ok hash) :
    ∀ r ∈ sampleReads (headerWithRoots receipts transactions) hash, r.Allocated mockPrimitives := by
  intro r hr b hdr hb hload
  obtain ⟨header, hblock, hkept, -, -⟩ := sampleReads_block hr
  rw [hblock] at hb
  cases hb
  rw [loadVerifiedHeader_sample hhash hkept] at hload
  cases hload
  change utf8Length (headerWithRoots receipts transactions).extraData.toList ≤ isizeMax
  rw [headerWithRoots, Draft.header, utf8Length_hexPrefixed, Draft.length_extra]
  decide

theorem sampleTx_root_ne_empty : orderedTrieRoot mockPrimitives.keccak256 [sampleTx.val] ≠
    emptyTrieRoot := by
  rw [orderedTrieRoot_singleton, show mockPrimitives.keccak256 = keccakRows from
    keccak256_eq_keccakRows]
  decide +kernel

theorem sampleReads_count {receipts transactions hash : Hash}
    (htransactions : orderedTrieRoot mockPrimitives.keccak256 [sampleTx.val] = transactions)
    (hhash : headerHash mockPrimitives (headerWithRoots receipts transactions) = .ok hash) :
    ∀ r ∈ sampleReads (headerWithRoots receipts transactions) hash,
      r.answer mockPrimitives = .ok (.string (hexQuantity 1)) := by
  intro r hr
  obtain ⟨header, hblock, hkept, hserved, hmethod⟩ := sampleReads_block hr
  have hne : transactions ≠ emptyTrieRoot := htransactions ▸ sampleTx_root_ne_empty
  have hroot : (headerWithRoots receipts transactions).transactionsRoot =
      hexPrefixed transactions.val := rfl
  have hverified : verifyTxList mockPrimitives.keccak256 [sampleTx.val] transactions =
      .ok [mockPrimitives.keccak256 sampleTx.val] := by
    unfold verifyTxList
    rw [require_of (by rw [List.length_singleton]; decide), ok_bind, require_of htransactions]
    rfl
  rw [BlockRead.answer_of_count hmethod hblock]
  unfold verifiedTxCount boundBlockTxs bindTxHashes
  simp only [loadVerifiedHeader_sample hhash hkept, ok_bind, hroot, decodeHexFixed_hexPrefixed,
    mapError_ok, if_neg hne, hserved, List.isEmpty_cons, Bool.false_eq_true, if_false,
    List.map_singleton, hverified, pure_eq_ok, List.length_singleton]

/-- Two upstreams have the one transaction of the block counted, and show one block. -/
theorem block_reads_show_one_block_sample : ∃ hdr hash,
    (∀ r ∈ sampleReads hdr hash, r.answer mockPrimitives = .ok (.string (hexQuantity 1))) ∧
    ((∃ v : BlockView, v.hash = hash ∧ ∀ r ∈ sampleReads hdr hash, ∀ b answer, r.block = .ok b →
        b.hash = hash → r.answer mockPrimitives = .ok answer →
        v.Shows mockPrimitives.keccak256 r.method r.params answer) ∨
      ∃ r ∈ sampleReads hdr hash, ∃ r' ∈ sampleReads hdr hash,
        Collision mockPrimitives.keccak256 (r.hashed mockPrimitives) (r'.hashed mockPrimitives)) := by
  obtain ⟨transactions, htransactions⟩ : ∃ transactions,
      orderedTrieRoot mockPrimitives.keccak256 [sampleTx.val] = transactions := ⟨_, rfl⟩
  obtain ⟨hash, hhash⟩ := exists_headerHash emptyTrieRoot transactions
  have hempty : mockPrimitives.keccak256 [0x80] = emptyTrieRoot := by
    rw [keccak256_eq_keccakRows]
    decide +kernel
  exact ⟨_, hash, sampleReads_count htransactions hhash,
    (block_reads_show_one_block mockPrimitives hempty
      (sampleReads (headerWithRoots emptyTrieRoot transactions) hash)
      (sampleReads_allocated hhash) hash).2⟩

end HeliosBsc
