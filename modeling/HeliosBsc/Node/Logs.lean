import HeliosBsc.Consensus.HeaderBinding
import HeliosBsc.Node.EthProof
import HeliosBsc.Node.ReadHead

/-!
# Logs of a span of blocks

`bin/helios-bsc/src/rpc_server/logs.rs`: the path that `eth_getLogs` and the log filters share. The
receipts of a block are fetched and bound elsewhere; here `fetch` answers for each block what
`bound_block_receipts` returns in this call. Groups of blocks are fetched at once and consumed in
order, so the answers are consumed block by block.
-/

namespace HeliosBsc

open Checked

/-- `ConsensusLog`. -/
structure ConsensusLog where
  address : Address
  topics : List Hash
  data : Bytes
  deriving DecidableEq

/-- `BoundReceipt`, without the JSON that only the receipt methods serve. -/
structure BoundReceipt where
  txHash : Option Hash
  logs : List ConsensusLog
  deriving DecidableEq

/-- `ReceiptBind`. -/
inductive ReceiptBind where
  | empty
  | omitted
  | list (receipts : List BoundReceipt)
  deriving DecidableEq

/-- The object of `rpc_log_json`. -/
structure RpcLog where
  address : Address
  topics : List Hash
  data : Bytes
  blockNumber : String
  blockHash : String
  transactionHash : Option Hash
  transactionIndex : ℕ
  logIndex : ℕ
  deriving DecidableEq

/-- `rpc_log_json`. -/
def rpcLogJson (log : ConsensusLog) (hdr : RpcBlockHeader) (txHash : Option Hash)
    (txIndex logIndex : ℕ) : RpcLog where
  address := log.address
  topics := log.topics
  data := log.data
  blockNumber := hdr.number
  blockHash := hdr.hash
  transactionHash := txHash
  transactionIndex := txIndex
  logIndex := logIndex

/-- What a filter matches: `parse_log_addresses` and `parse_log_topics` of its object. -/
structure LogQuery where
  addresses : List Address
  topics : List (Option (List Hash))

/-- `log_matches`. -/
def logMatches (log : ConsensusLog) (q : LogQuery) : Bool :=
  if !q.addresses.isEmpty && !q.addresses.contains log.address then false
  else if log.topics.length < q.topics.length then false
  else (q.topics.zip log.topics).all fun t =>
    match t.1 with
    | none => true
    | some ors => ors.isEmpty || ors.contains t.2

/-- `LogsError`. -/
inductive LogsError where
  | capped
  | rpc (e : RpcFailure)
  deriving DecidableEq, Repr

/-- `MAX_GET_LOGS`. -/
def maxGetLogs : ℕ := 1024

/-- `MAX_GET_LOGS_RANGE`. -/
def maxGetLogsRange : ℕ := 128

/-- What `bound_block_receipts` answers for each block during one call. -/
abbrev Fetch := VerifiedBlock → Except RpcFailure (RpcBlockHeader × ReceiptBind)

/-! ## The collecting loops -/

section

variable (q : LogQuery) (hdr : RpcBlockHeader)

/-- A log with the hash and the index of its transaction. -/
abbrev TxLog := ConsensusLog × Option Hash × ℕ

/-- The innermost loop body of `collect_logs`: the list so far and the block-wide index. -/
def collectLog (st : List RpcLog × ℕ) (entry : TxLog) : Except LogsError (List RpcLog × ℕ) :=
  if logMatches entry.1 q then
    if maxGetLogs ≤ st.1.length then .error .capped
    else .ok (st.1 ++ [rpcLogJson entry.1 hdr entry.2.1 entry.2.2 st.2], satAdd st.2 1)
  else .ok (st.1, satAdd st.2 1)

/-- The loops of `collect_logs` over the receipts of a block. -/
def collectReceipts (out : List RpcLog) (receipts : List BoundReceipt) :
    Except LogsError (List RpcLog) := do
  let st ← receipts.zipIdx.foldlM
    (fun st rec => rec.1.logs.foldlM (fun st log => collectLog q hdr st (log, rec.1.txHash, rec.2))
      st) (out, 0)
  return st.1

/-- The logs of the receipts with their transactions, in the order of the block. -/
def txLogs (receipts : List BoundReceipt) : List TxLog :=
  receipts.zipIdx.flatMap fun rec => rec.1.logs.map fun log => (log, rec.1.txHash, rec.2)

/-- The matching logs of a block: every log has its index in the block, matching or not. -/
def blockLogs (receipts : List BoundReceipt) : List RpcLog :=
  ((txLogs receipts).zipIdx.filter fun e => logMatches e.1.1 q).map fun e =>
    rpcLogJson e.1.1 hdr e.1.2.1 e.1.2.2 (min e.2 (u64Size - 1))

end

/-- The outer loop body of `collect_logs`. -/
def collectBlock (q : LogQuery) (fetch : Fetch) (out : List RpcLog) (b : VerifiedBlock) :
    Except LogsError (List RpcLog) := do
  let (hdr, bind) ← (fetch b).mapError .rpc
  match bind with
  | .list receipts => collectReceipts q hdr out receipts
  | .empty => return out
  | .omitted => .error (.rpc ⟨errProofFailed,
      s!"proof_verification_failed: upstream served no receipts for block {b.number}, so its " ++
        "logs cannot be proven absent"⟩)

/-- `collect_logs`. -/
def collectLogs (q : LogQuery) (fetch : Fetch) (blocks : List VerifiedBlock) :
    Except LogsError (List RpcLog) :=
  blocks.foldlM (collectBlock q fetch) []

/-- The matching logs of a block, as far as the fetch answers for it. -/
def matchingLogs (q : LogQuery) (fetch : Fetch) (b : VerifiedBlock) : List RpcLog :=
  match fetch b with
  | .ok (hdr, .list receipts) => blockLogs q hdr receipts
  | _ => []

/-- The receipts of the block are known: bound, or proven to be none. -/
def Fetched (fetch : Fetch) (b : VerifiedBlock) : Prop :=
  ∃ hdr bind, fetch b = .ok (hdr, bind) ∧ bind ≠ .omitted

section

variable {q : LogQuery} {hdr : RpcBlockHeader}

theorem foldlM_collectLog {entries : List TxLog} {out : List RpcLog} {k : ℕ}
    {st : List RpcLog × ℕ}
    (h : entries.foldlM (collectLog q hdr) (out, min k (u64Size - 1)) = .ok st) :
    st.1 = out ++ ((entries.zipIdx k).filter fun e => logMatches e.1.1 q).map fun e =>
      rpcLogJson e.1.1 hdr e.1.2.1 e.1.2.2 (min e.2 (u64Size - 1)) := by
  induction entries generalizing out k with
  | nil =>
    rw [List.foldlM_nil] at h
    rw [← Except.ok.inj h]
    simp
  | cons entry rest ih =>
    have hindex : satAdd (min k (u64Size - 1)) 1 = min (k + 1) (u64Size - 1) := by
      unfold satAdd
      omega
    rw [List.foldlM_cons] at h
    obtain ⟨st', hst', hrest⟩ := bind_eq_ok.mp h
    unfold collectLog at hst'
    simp only [hindex] at hst'
    by_cases hmatch : logMatches entry.1 q = true
    · rw [if_pos hmatch] at hst'
      split at hst'
      · cases hst'
      · rw [← Except.ok.inj hst'] at hrest
        rw [ih hrest, List.zipIdx_cons,
          List.filter_cons_of_pos (p := fun e : TxLog × ℕ => logMatches e.1.1 q) hmatch,
          List.map_cons, List.append_assoc, List.singleton_append]
    · rw [if_neg hmatch] at hst'
      rw [← Except.ok.inj hst'] at hrest
      rw [ih hrest, List.zipIdx_cons,
        List.filter_cons_of_neg (p := fun e : TxLog × ℕ => logMatches e.1.1 q) hmatch]

theorem foldlM_flatMap {α β γ ε : Type} {f : α → List β} {g : γ → β → Except ε γ} {l : List α}
    {s : γ} :
    (l.flatMap f).foldlM g s = l.foldlM (fun s a => (f a).foldlM g s) s := by
  induction l generalizing s with
  | nil => rfl
  | cons a l ih =>
    rw [List.flatMap_cons, List.foldlM_append, List.foldlM_cons]
    congr 1
    funext s'
    exact ih

theorem collectReceipts_ok {out out' : List RpcLog} {receipts : List BoundReceipt}
    (h : collectReceipts q hdr out receipts = .ok out') :
    out' = out ++ blockLogs q hdr receipts := by
  obtain ⟨st, hst, rfl⟩ : ∃ st, (txLogs receipts).foldlM (collectLog q hdr) (out, 0) = .ok st ∧
      st.1 = out' := by
    simp only [collectReceipts, bind_eq_ok, pure_eq_ok, Except.ok.injEq] at h
    obtain ⟨st, hst, rfl⟩ := h
    refine ⟨st, ?_, rfl⟩
    rw [txLogs, foldlM_flatMap, ← hst]
    congr 1
    funext s rec
    rw [List.foldlM_map]
  exact foldlM_collectLog (k := 0) hst

theorem collectBlock_ok {fetch : Fetch} {out out' : List RpcLog} {b : VerifiedBlock}
    (h : collectBlock q fetch out b = .ok out') :
    Fetched fetch b ∧ out' = out ++ matchingLogs q fetch b := by
  simp only [collectBlock, bind_eq_ok, mapError_eq_ok, Prod.exists] at h
  obtain ⟨hdr, bind, hfetch, h⟩ := h
  unfold matchingLogs
  rw [hfetch]
  cases bind with
  | empty =>
    refine ⟨⟨hdr, _, hfetch, by simp⟩, ?_⟩
    simpa using (Except.ok.inj h).symm
  | omitted => cases h
  | list receipts => exact ⟨⟨hdr, _, hfetch, by simp⟩, collectReceipts_ok h⟩

/-- What is collected are the matching logs of all blocks, in order. -/
theorem collectLogs_ok {fetch : Fetch} {blocks : List VerifiedBlock} {logs : List RpcLog}
    (h : collectLogs q fetch blocks = .ok logs) :
    (∀ b ∈ blocks, Fetched fetch b) ∧ logs = blocks.flatMap (matchingLogs q fetch) := by
  suffices hall : ∀ out, blocks.foldlM (collectBlock q fetch) out = .ok logs →
      (∀ b ∈ blocks, Fetched fetch b) ∧ logs = out ++ blocks.flatMap (matchingLogs q fetch) by
    simpa using hall [] h
  clear h
  induction blocks with
  | nil =>
    intro out h
    rw [List.foldlM_nil] at h
    exact ⟨by simp, by simpa using (Except.ok.inj h).symm⟩
  | cons b rest ih =>
    intro out h
    rw [List.foldlM_cons] at h
    obtain ⟨out', hout', hrest⟩ := bind_eq_ok.mp h
    obtain ⟨hfetched, rfl⟩ := collectBlock_ok hout'
    obtain ⟨hall, hlogs⟩ := ih _ hrest
    refine ⟨List.forall_mem_cons.mpr ⟨hfetched, hall⟩, ?_⟩
    rw [hlogs, List.flatMap_cons, List.append_assoc]

end

/-! ## The blocks of a range -/

/-- The text begins with `0x` or `0X`. -/
def hexMarked (t : String) : Bool :=
  match t.toList with
  | '0' :: 'x' :: _ => true
  | '0' :: 'X' :: _ => true
  | _ => false

/-- `log_filter_block_number`. -/
def logFilterBlockNumber (tag : Option String) (safe : SafeHead) : Option ℕ :=
  match tag with
  | none => some safe.number
  | some t =>
    if t ∈ ["", "latest", "safe", "finalized"] then some safe.number
    else if t ∈ ["pending", "earliest"] then none
    else if eqIgnoreAsciiCase t safe.hash then some safe.number
    else if hexMarked t then
      match decodeHexFixed 32 t with
      | .ok _ => none
      | .error _ => (decodeU64 t).toOption
    else none

/-- `WALLET_TAG_ONLY`. -/
def walletTagOnly : String := "wallet mode only serves Safe or below (latest→Safe)"

/-- `log_filter_block_number` for one bound of a range. -/
def rangeBound (tag : Option String) (safe : SafeHead) : Except RpcFailure ℕ :=
  match logFilterBlockNumber tag safe with
  | some n => .ok n
  | none => .error ⟨errNotSynced, walletTagOnly⟩

/-- `resolve_get_logs_blocks` without a `blockHash`: `refreshed` is the read head, or why there is
none. -/
def resolveGetLogsBlocks (fromTag toTag : Option String) (refreshed : Except String SafeHead)
    (chain : List VerifiedBlock) : Except RpcFailure (List VerifiedBlock) := do
  let safe ← refreshed.mapError fun e => ⟨errNotSynced, s!"not_synced: {e}"⟩
  let fromN ← rangeBound fromTag safe
  let toN ← rangeBound toTag safe
  require (fromN ≤ toN) ⟨errParams, "eth_getLogs fromBlock is above toBlock"⟩
  let span := wrapAdd (toN - fromN) 1
  require (span ≤ maxGetLogsRange) ⟨errParams, s!"eth_getLogs range is {span} blocks; this client " ++
    s!"keeps no log index and serves at most {maxGetLogsRange}"⟩
  require (toN ≤ safe.number) ⟨errNotSynced, walletTagOnly⟩
  let blocks := (chain.filter fun b => decide (fromN ≤ b.number ∧ b.number ≤ toN)).mergeSort
    fun a b => decide (a.number ≤ b.number)
  require (blocks.length = span)
    ⟨errNotSynced, "eth_getLogs range reaches outside the locally verified chain"⟩
  return blocks

/-- `Node::logs_for_span` over the span from `lo` to `hi`. -/
def logsForSpan (q : LogQuery) (refreshed : Except String SafeHead) (chain : List VerifiedBlock)
    (fetch : Fetch) (lo hi : ℕ) : Except LogsError (List RpcLog) := do
  let span := satAdd (hi - lo) 1
  require (span ≤ maxGetLogsRange) (.rpc ⟨errParams, s!"filter span is {span} blocks; this client " ++
    s!"keeps no log index and serves at most {maxGetLogsRange}"⟩)
  let blocks ← (resolveGetLogsBlocks (some (hexQuantity lo)) (some (hexQuantity hi)) refreshed
    chain).mapError .rpc
  collectLogs q fetch blocks

/-- A read of the logs in a span of blocks. -/
structure SpanRead where
  lo : ℕ
  hi : ℕ
  fetch : Fetch
  logs : List RpcLog

/-- The read has every block of its span once, in order, each of them one of `blocks` with its
receipts known, and its logs are all that match in them. -/
def SpanRead.Complete (q : LogQuery) (blocks : List VerifiedBlock) (r : SpanRead) : Prop :=
  ∃ read ⊆ blocks, read.map VerifiedBlock.number = List.range' r.lo (r.hi + 1 - r.lo) ∧
    (∀ b ∈ read, Fetched r.fetch b) ∧ r.logs = read.flatMap (matchingLogs q r.fetch)

theorem not_eqIgnoreAsciiCase_hexQuantity {n : ℕ} (hn : n < u64Size) (hash : Hash) :
    eqIgnoreAsciiCase (hexQuantity n) (hexPrefixed hash.val) = false := by
  rw [Bool.eq_false_iff]
  intro h
  unfold eqIgnoreAsciiCase hexQuantity hexPrefixed at h
  rw [beq_iff_eq, String.toList_ofList, String.toList_ofList] at h
  have hlength := congrArg List.length h
  have hdigits := length_quantityDigits_le (n := n) (k := 15)
    (hn.trans_eq (u64Size_eq.trans (by norm_num))) []
  simp only [List.length_map, List.length_cons, length_hexChars, hash.len] at hlength
  rw [List.length_nil] at hdigits
  omega

@[simp] theorem hexMarked_hexQuantity (n : ℕ) : hexMarked (hexQuantity n) = true := by
  unfold hexMarked hexQuantity
  rw [String.toList_ofList]
  rfl

theorem hexQuantity_notMem {tags : List String} (htags : ∀ t ∈ tags, hexMarked t = false) (n : ℕ) :
    hexQuantity n ∉ tags := by
  intro hmem
  have h := htags _ hmem
  rw [hexMarked_hexQuantity] at h
  cases h

theorem decodeHexFixed_hexQuantity {n : ℕ} (hn : n < u64Size) :
    ∃ e, decodeHexFixed 32 (hexQuantity n) = .error e := by
  rcases ok_or_error (decodeHexFixed 32 (hexQuantity n)) with ⟨v, hv⟩ | hrefused
  · unfold decodeHexFixed at hv
    obtain ⟨bytes, hbytes, hv⟩ := bind_eq_ok.mp hv
    simp only [decodeHex, bind_eq_ok] at hbytes
    obtain ⟨-, -, hbytes⟩ := hbytes
    unfold hexQuantity at hbytes
    rw [String.toList_ofList] at hbytes
    have hlength : 2 * bytes.length = (quantityDigits n []).length := length_decodeHexDigits hbytes
    have hdigits := length_quantityDigits_le (n := n) (k := 15)
      (hn.trans_eq (u64Size_eq.trans (by norm_num))) []
    rw [List.length_nil] at hdigits
    split at hv
    · omega
    · cases hv
  · exact hrefused

/-- A span's own bound is read back as the same number. -/
theorem rangeBound_hexQuantity {n : ℕ} {safe : SafeHead} {b : VerifiedBlock} (hsafe : safe.Names b)
    (hn : n < u64Size) : rangeBound (some (hexQuantity n)) safe = .ok n := by
  obtain ⟨e, he⟩ := decodeHexFixed_hexQuantity hn
  have hnumber : logFilterBlockNumber (some (hexQuantity n)) safe = some n := by
    unfold logFilterBlockNumber
    simp only
    rw [if_neg (hexQuantity_notMem (by decide) n), if_neg (hexQuantity_notMem (by decide) n),
      hsafe.2.1, if_neg (Bool.eq_false_iff.mp (not_eqIgnoreAsciiCase_hexQuantity hn b.hash)),
      if_pos (hexMarked_hexQuantity n), he, decodeU64_hexQuantity hn]
    rfl
  unfold rangeBound
  rw [hnumber]

theorem eq_range'_of_length {l : List ℕ} {lo k : ℕ} (hl : l.Pairwise (· < ·))
    (hmem : ∀ n ∈ l, lo ≤ n ∧ n < lo + k) (hlength : l.length = k) : l = List.range' lo k := by
  have hsub : l ⊆ List.range' lo k := fun n hn => List.mem_range'_1.mpr (hmem n hn)
  have hperm : l.Perm (List.range' lo k) :=
    (List.subperm_of_subset (hl.imp fun h => h.ne) hsub).perm_of_length_le (by simp [hlength])
  exact hperm.eq_of_pairwise (fun a b _ _ h h' => absurd h (lt_asymm h')) hl
    (List.pairwise_lt_range' 1)

section

variable {refreshed : Except String SafeHead} {chain : List VerifiedBlock}

/-- The blocks of a resolved range are blocks of the chain, and there is one at each height. -/
theorem resolveGetLogsBlocks_ok (hchain : chain.Pairwise fun a b => a.number < b.number)
    (hsafe : ∀ safe, refreshed = .ok safe → ∃ b, safe.Names b) {lo hi : ℕ} (hlo : lo < u64Size)
    (hhi : hi < u64Size) (hwidth : hi - lo + 1 < u64Size) {blocks : List VerifiedBlock}
    (h : resolveGetLogsBlocks (some (hexQuantity lo)) (some (hexQuantity hi)) refreshed chain =
      .ok blocks) :
    blocks ⊆ chain ∧ blocks.map VerifiedBlock.number = List.range' lo (hi + 1 - lo) := by
  simp only [resolveGetLogsBlocks, bind_eq_ok, mapError_eq_ok, require_eq_ok, pure_eq_ok,
    Except.ok.injEq] at h
  obtain ⟨safe, hrefreshed, fromN, hfrom, toN, hto, -, hle, -, -, -, -, -, hlength, rfl⟩ := h
  obtain ⟨b, hnames⟩ := hsafe safe hrefreshed
  obtain rfl := Except.ok.inj ((rangeBound_hexQuantity hnames hlo).symm.trans hfrom)
  obtain rfl := Except.ok.inj ((rangeBound_hexQuantity hnames hhi).symm.trans hto)
  have hascending := hchain.filter fun b => decide (lo ≤ b.number ∧ b.number ≤ hi)
  rw [wrapAdd_of_lt hwidth] at hlength
  -- the chain is ascending, so sorting it changes nothing
  rw [List.mergeSort_of_pairwise (hascending.imp fun h => decide_eq_true h.le)] at hlength ⊢
  refine ⟨List.filter_sublist.subset, ?_⟩
  refine eq_range'_of_length (List.pairwise_map.mpr hascending) ?_ ?_
  · intro n hn
    obtain ⟨b, hb, rfl⟩ := List.mem_map.mp hn
    have hbounds := of_decide_eq_true (List.mem_filter.mp hb).2
    omega
  · rw [List.length_map, hlength]
    omega

theorem logsForSpan_ok {q : LogQuery} (hchain : chain.Pairwise fun a b => a.number < b.number)
    (hsafe : ∀ safe, refreshed = .ok safe → ∃ b, safe.Names b) {fetch : Fetch} {lo hi : ℕ}
    (hlo : lo < u64Size) (hhi : hi < u64Size) {logs : List RpcLog}
    (h : logsForSpan q refreshed chain fetch lo hi = .ok logs) :
    SpanRead.Complete q chain ⟨lo, hi, fetch, logs⟩ := by
  simp only [logsForSpan, bind_eq_ok, mapError_eq_ok, require_eq_ok] at h
  obtain ⟨-, hcap, blocks, hblocks, hlogs⟩ := h
  have hwidth : hi - lo + 1 < u64Size := by
    rw [u64Size_eq]
    unfold satAdd maxGetLogsRange at hcap
    rw [u64Size_eq] at hcap
    omega
  obtain ⟨hsub, hnumbers⟩ := resolveGetLogsBlocks_ok hchain hsafe hlo hhi hwidth hblocks
  obtain ⟨hfetched, hall⟩ := collectLogs_ok hlogs
  exact ⟨blocks, hsub, hnumbers, hfetched, hall⟩

/-- A span that the chain covers up to the head is read from its blocks. -/
theorem logsForSpan_of_covered {q : LogQuery} {safe : SafeHead} {a b : VerifiedBlock}
    (hchain : List.IsChain Follows chain) (ha : a ∈ chain) (hb : b ∈ chain) (hsafe : safe.Names b)
    (hsize : safe.number < u64Size) (fetch : Fetch) {lo hi : ℕ} (hlo : a.number ≤ lo) (hle : lo ≤ hi)
    (hhi : hi ≤ safe.number) (hwidth : hi < lo + maxGetLogsRange) :
    logsForSpan q (.ok safe) chain fetch lo hi = collectLogs q fetch
      (chain.filter fun b => decide (lo ≤ b.number ∧ b.number ≤ hi)) := by
  have hascending := (pairwise_number hchain).filter fun b => decide (lo ≤ b.number ∧ b.number ≤ hi)
  have hlength := congrArg List.length (HashChain.map_number_filter (follows_eq ▸ hchain) ha hb hlo
    (hhi.trans_eq hsafe.1))
  rw [List.length_map, List.length_range'] at hlength
  have hspan : satAdd (hi - lo) 1 ≤ maxGetLogsRange := by
    unfold satAdd
    omega
  have hspan' : wrapAdd (hi - lo) 1 = hi - lo + 1 := by
    apply wrapAdd_of_lt
    rw [u64Size_eq]
    unfold maxGetLogsRange at hwidth
    omega
  have hresolve : resolveGetLogsBlocks (some (hexQuantity lo)) (some (hexQuantity hi)) (.ok safe)
      chain = .ok (chain.filter fun b => decide (lo ≤ b.number ∧ b.number ≤ hi)) := by
    unfold resolveGetLogsBlocks
    simp only [mapError_ok, ok_bind, rangeBound_hexQuantity hsafe (hle.trans_lt (hhi.trans_lt hsize)),
      rangeBound_hexQuantity hsafe (hhi.trans_lt hsize), require_of hle, hspan',
      require_of (show hi - lo + 1 ≤ maxGetLogsRange by omega), require_of hhi,
      List.mergeSort_of_pairwise (hascending.imp fun h => decide_eq_true h.le)]
    rw [require_of (by omega)]
    rfl
  simp only [logsForSpan, require_of hspan, hresolve, ok_bind, mapError_ok]

end

end HeliosBsc
