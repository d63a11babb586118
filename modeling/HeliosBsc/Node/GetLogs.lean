import HeliosBsc.Mock.SoleSealer
import HeliosBsc.Node.Receipts

/-!
# The logs of a range and the logs of the receipts

`eth_getLogs` renders the logs of bound receipts on its own, with its own index; the receipt methods
render them while the receipts are bound, and write the transaction hash over them afterwards. Both
give the same objects, so a range is answered with the matching logs of its blocks' receipts, or refused
when there are too many.
-/

namespace HeliosBsc

open Checked

/-! ## Collecting with a cap -/

section

variable {q : LogQuery} {hdr : RpcBlockHeader}

/-- The matching logs of a block from the `k`-th log on. -/
def matchingFrom (q : LogQuery) (hdr : RpcBlockHeader) (k : ℕ) (entries : List TxLog) : List RpcLog :=
  ((entries.zipIdx k).filter fun e => logMatches e.1.1 q).map fun e =>
    rpcLogJson e.1.1 hdr e.1.2.1 e.1.2.2 (min e.2 (u64Size - 1))

theorem matchingFrom_cons (k : ℕ) (entry : TxLog) (rest : List TxLog) :
    matchingFrom q hdr k (entry :: rest) =
      if logMatches entry.1 q then
        rpcLogJson entry.1 hdr entry.2.1 entry.2.2 (min k (u64Size - 1)) ::
          matchingFrom q hdr (k + 1) rest
      else matchingFrom q hdr (k + 1) rest := by
  unfold matchingFrom
  rw [List.zipIdx_cons, List.filter_cons]
  split <;> rfl

theorem foldlM_collectLog_eq {entries : List TxLog} {out : List RpcLog} {k : ℕ}
    (hout : out.length ≤ maxGetLogs) :
    entries.foldlM (collectLog q hdr) (out, min k (u64Size - 1)) =
      if out.length + (matchingFrom q hdr k entries).length ≤ maxGetLogs then
        .ok (out ++ matchingFrom q hdr k entries, min (k + entries.length) (u64Size - 1))
      else .error .capped := by
  induction entries generalizing out k with
  | nil =>
    rw [if_pos (by simpa [matchingFrom] using hout)]
    simp [matchingFrom]
  | cons entry rest ih =>
    have hindex : satAdd (min k (u64Size - 1)) 1 = min (k + 1) (u64Size - 1) := by
      unfold satAdd
      omega
    have hstep : collectLog q hdr (out, min k (u64Size - 1)) entry =
        if logMatches entry.1 q then
          if maxGetLogs ≤ out.length then .error .capped
          else .ok (out ++ [rpcLogJson entry.1 hdr entry.2.1 entry.2.2 (min k (u64Size - 1))],
            min (k + 1) (u64Size - 1))
        else .ok (out, min (k + 1) (u64Size - 1)) := by
      unfold collectLog
      simp only [hindex]
    have hlast : k + 1 + rest.length = k + (rest.length + 1) := by omega
    rw [List.foldlM_cons, hstep, matchingFrom_cons, List.length_cons]
    by_cases hmatch : logMatches entry.1 q = true
    · rw [if_pos hmatch, if_pos hmatch]
      by_cases hfull : maxGetLogs ≤ out.length
      · rw [if_pos hfull, if_neg (by rw [List.length_cons]; omega)]
        rfl
      · rw [if_neg hfull, ok_bind, ih (by rw [List.length_append, List.length_singleton]; omega), hlast,
          List.append_assoc, List.singleton_append, List.length_append, List.length_singleton,
          List.length_cons, Nat.add_assoc, Nat.add_comm 1]
    · rw [if_neg hmatch, if_neg hmatch, ok_bind, ih hout, hlast]

theorem collectReceipts_eq {out : List RpcLog} (hout : out.length ≤ maxGetLogs)
    (receipts : List BoundReceipt) :
    collectReceipts q hdr out receipts =
      if out.length + (blockLogs q hdr receipts).length ≤ maxGetLogs then
        .ok (out ++ blockLogs q hdr receipts)
      else .error .capped := by
  have hloop : receipts.zipIdx.foldlM (fun st rec =>
      rec.1.logs.foldlM (fun st log => collectLog q hdr st (log, rec.1.txHash, rec.2)) st) (out, 0) =
      (txLogs receipts).foldlM (collectLog q hdr) (out, min 0 (u64Size - 1)) := by
    rw [txLogs, foldlM_flatMap, Nat.zero_min]
    congr 1
    funext s rec
    rw [List.foldlM_map]
  have hblock : matchingFrom q hdr 0 (txLogs receipts) = blockLogs q hdr receipts := rfl
  rw [collectReceipts, hloop, foldlM_collectLog_eq hout, hblock]
  split <;> rfl

theorem collectBlock_eq {fetch : Fetch} {b : VerifiedBlock} (hfetch : Fetched fetch b)
    {out : List RpcLog} (hout : out.length ≤ maxGetLogs) :
    collectBlock q fetch out b =
      if out.length + (matchingLogs q fetch b).length ≤ maxGetLogs then
        .ok (out ++ matchingLogs q fetch b)
      else .error .capped := by
  obtain ⟨hdr, bind, hfetch, hne⟩ := hfetch
  unfold collectBlock matchingLogs
  rw [hfetch]
  cases bind with
  | empty =>
    rw [if_pos (by simpa using hout), List.append_nil]
    rfl
  | omitted => exact absurd rfl hne
  | list receipts => exact collectReceipts_eq hout receipts

theorem foldlM_collectBlock_eq {fetch : Fetch} {blocks : List VerifiedBlock}
    (hfetch : ∀ b ∈ blocks, Fetched fetch b) {out : List RpcLog} (hout : out.length ≤ maxGetLogs) :
    blocks.foldlM (collectBlock q fetch) out =
      if out.length + (blocks.flatMap (matchingLogs q fetch)).length ≤ maxGetLogs then
        .ok (out ++ blocks.flatMap (matchingLogs q fetch))
      else .error .capped := by
  induction blocks generalizing out with
  | nil =>
    rw [if_pos (by simpa using hout)]
    simp
  | cons b rest ih =>
    obtain ⟨hb, hrest⟩ := List.forall_mem_cons.mp hfetch
    rw [List.foldlM_cons, collectBlock_eq hb hout, List.flatMap_cons, List.length_append]
    by_cases hfits : out.length + (matchingLogs q fetch b).length ≤ maxGetLogs
    · rw [if_pos hfits, ok_bind, ih hrest (by rwa [List.length_append]), List.length_append,
        Nat.add_assoc, List.append_assoc]
    · rw [if_neg hfits, if_neg (by omega)]
      rfl

/-- A range is answered with all matching logs, or refused when they are too many. -/
theorem collectLogs_eq {fetch : Fetch} {blocks : List VerifiedBlock}
    (hfetch : ∀ b ∈ blocks, Fetched fetch b) :
    collectLogs q fetch blocks =
      if (blocks.flatMap (matchingLogs q fetch)).length ≤ maxGetLogs then
        .ok (blocks.flatMap (matchingLogs q fetch))
      else .error .capped := by
  have hnone : ([] : List RpcLog).length ≤ maxGetLogs := Nat.zero_le _
  simpa [collectLogs] using foldlM_collectBlock_eq (q := q) hfetch hnone

end

/-! ## The logs in the JSON of a receipt -/

/-- The member `logs` of an object. -/
def logsOf (v : Json) : List Json :=
  match v.asObject.bind fun m => m.get? "logs" with
  | some (.array logs) => logs
  | _ => []

theorem logsOf_object (m : Json.Fields) :
    logsOf (.object m) = match m.get? "logs" with
      | some (.array logs) => logs
      | _ => [] := rfl

theorem logsOf_insert {key : String} (h : "logs" ≠ key) (w : Json) (m : Json.Fields) :
    logsOf (.object (m.insert key w)) = logsOf (.object m) := by
  rw [logsOf_object, logsOf_object, Json.Fields.get?_insert_of_ne h]

section

variable {hdr : RpcBlockHeader}

theorem logsOf_decorateReceiptJson {v : Json} {m : Json.Fields} (hv : v.asObject = some m) (i : ℕ)
    (txHash : Option Hash) (logs : List ConsensusLog) (k gasUsed : ℕ) :
    logsOf (decorateReceiptJson v hdr i txHash logs k gasUsed) = rebuildLogs hdr i txHash logs k := by
  unfold decorateReceiptJson
  rw [hv]
  simp only
  rw [logsOf_object, Json.Fields.get?_insert_self]

theorem logsOf_setTransactionHash (v : Json) (hash : Hash) :
    logsOf (setTransactionHash v hash) = (logsOf v).map (setLogTransactionHash hash) := by
  cases v with
  | object m =>
    have hget := Json.Fields.get?_insert_of_ne (show "logs" ≠ "transactionHash" by decide)
      (.string (hexPrefixed hash.val)) m
    unfold setTransactionHash
    simp only [Json.asObject, hget]
    rw [logsOf_object m]
    cases hlogs : Json.Fields.get? m "logs" with
    | none =>
      simp only
      rw [logsOf_object, hget, hlogs]
      rfl
    | some v =>
      cases v with
      | array logs =>
        simp only
        rw [logsOf_object, Json.Fields.get?_insert_self]
      | _ =>
        simp only
        rw [logsOf_object, hget, hlogs]
        rfl
  | _ => rfl

theorem logsOf_deriveFields (keccak256 : Bytes → Hash)
    (ecrecover : Hash → Bytes → Except SealError Address) (envelope : Bytes) (v : Json) :
    logsOf (deriveFields keccak256 ecrecover hdr envelope v) = logsOf v := by
  unfold deriveFields
  split
  · next recipient m hto hm =>
    have hobject : logsOf v = logsOf (.object m) := by
      unfold logsOf
      rw [hm]
      rfl
    have hprice : ∀ m, logsOf (.object (derivePrice hdr envelope m)) = logsOf (.object m) := by
      intro m
      unfold derivePrice
      split
      · exact logsOf_insert (by decide) _ _
      · rfl
    have hcontract : ∀ sender m,
        logsOf (.object (deriveContract keccak256 envelope recipient sender m)) = logsOf (.object m) := by
      intro sender m
      unfold deriveContract
      split
      · exact logsOf_insert (by decide) _ _
      · split
        · exact logsOf_insert (by decide) _ _
        · rfl
    rw [hobject]
    unfold deriveSender
    split
    · rw [hcontract, logsOf_insert (by decide), hprice, logsOf_insert (by decide)]
    · rw [hprice, logsOf_insert (by decide)]
  · rfl

theorem map_setLogTransactionHash (hash : Hash) (i : ℕ) (txHash : Option Hash)
    (logs : List ConsensusLog) (k : ℕ) :
    (rebuildLogs hdr i txHash logs k).map (setLogTransactionHash hash) =
      rebuildLogs hdr i (some hash) logs k := by
  unfold rebuildLogs
  rw [List.map_map]
  rfl

end

/-! ## Reading a log back -/

/-- A log is within the limits of the receipt reader. -/
def ConsensusLog.WithinLimits (log : ConsensusLog) : Prop :=
  log.topics.length ≤ maxLogTopics ∧ log.data.length ≤ maxLogData

theorem withinLimits_of_parse {v : Json} {log : ConsensusLog}
    (h : parseConsensusLogJson v = .ok log) : log.WithinLimits := by
  unfold parseConsensusLogJson at h
  split at h
  · next m hm =>
    simp only [bind_eq_ok, pure_eq_ok, Except.ok.injEq] at h
    obtain ⟨address, -, topics, htopics, data, hdata, rfl⟩ := h
    constructor
    · unfold logTopics at htopics
      split at htopics
      · rw [← Except.ok.inj htopics]
        exact Nat.zero_le _
      · rw [← Except.ok.inj htopics]
        exact Nat.zero_le _
      · next arr harr =>
        simp only [bind_eq_ok, require_eq_ok, exists_const] at htopics
        exact (length_of_mapM_eq_ok htopics.2).trans_le htopics.1
      · cases htopics
    · unfold logData at hdata
      split at hdata
      · rw [← Except.ok.inj hdata]
        exact Nat.zero_le _
      · rw [← Except.ok.inj hdata]
        exact Nat.zero_le _
      · next text htext =>
        simp only [bind_eq_ok, require_eq_ok, exists_const, pure_eq_ok, Except.ok.injEq] at hdata
        obtain ⟨bytes, -, hle, rfl⟩ := hdata
        exact hle
      · cases hdata
  · cases h

theorem mapM_parseLogTopic (topics : List Hash) :
    (topics.map fun t => Json.string (hexPrefixed t.val)).mapM parseLogTopic = .ok topics := by
  induction topics with
  | nil => rfl
  | cons t topics ih =>
    have ht : parseLogTopic (.string (hexPrefixed t.val)) = .ok t := by
      rw [parseLogTopic, decodeHexFixed_hexPrefixed]
      rfl
    rw [List.map_cons, List.mapM_cons, ht, ok_bind, ih]
    rfl

theorem parseConsensusLogJson_object {log : ConsensusLog} (h : log.WithinLimits) {m : Json.Fields}
    (haddress : m.get? "address" = some (.string (hexPrefixed log.address.val)))
    (htopics : m.get? "topics" =
      some (.array (log.topics.map fun t => .string (hexPrefixed t.val))))
    (hdata : m.get? "data" = some (.string (hexPrefixed log.data))) :
    parseConsensusLogJson (.object m) = .ok log := by
  have hlength : (log.topics.map fun t => Json.string (hexPrefixed t.val)).length ≤ maxLogTopics := by
    rw [List.length_map]
    exact h.1
  have hfields : logAddress m = .ok log.address ∧ logTopics m = .ok log.topics ∧
      logData m = .ok log.data := by
    refine ⟨?_, ?_, ?_⟩
    · rw [logAddress, haddress]
      simp only [decodeHexFixed_hexPrefixed, mapError_ok]
    · rw [logTopics, htopics]
      simp only [require_of hlength, ok_bind, mapM_parseLogTopic]
    · rw [logData, hdata]
      simp only [decodeHex_hexPrefixed, mapError_ok, ok_bind, require_of h.2, pure_eq_ok]
  rw [parseConsensusLogJson]
  simp only [Json.asObject, hfields.1, hfields.2.1, hfields.2.2, ok_bind, pure_eq_ok]

/-- A rendered log is read back as the log it was rendered from. -/
theorem parseConsensusLogJson_rpcLogJson {log : ConsensusLog} (h : log.WithinLimits)
    (hdr : RpcBlockHeader) (txHash : Option Hash) (i k : ℕ) :
    parseConsensusLogJson (rpcLogJson log hdr txHash i k).json = .ok log := by
  rw [RpcLog.json]
  exact parseConsensusLogJson_object h rfl rfl rfl

/-! ## The logs of bound receipts -/

section

variable {hdr : RpcBlockHeader}

/-- The JSON of the receipts, from the `i`-th receipt and the `k`-th log of the block on, has the logs
of the receipts, rendered with the receipt's transaction. -/
def LogsServed (hdr : RpcBlockHeader) : ℕ → ℕ → List JsonReceipt → Prop
  | _, _, [] => True
  | i, k, r :: rest => logsOf r.json = rebuildLogs hdr i r.txHash r.logs k ∧
      (∀ log ∈ r.logs, log.WithinLimits) ∧ LogsServed hdr (i + 1) (satAdd k r.logs.length) rest

theorem withinLimits_of_receipt {v : Json} {parsed : ParsedReceipt}
    (h : parseConsensusReceiptJson v = .ok parsed) :
    (∃ m, v.asObject = some m) ∧ ∀ log ∈ parsed.consensus.logs, log.WithinLimits := by
  unfold parseConsensusReceiptJson at h
  split at h
  · next m hm =>
    simp only [bind_eq_ok, pure_eq_ok, Except.ok.injEq] at h
    obtain ⟨-, -, -, -, -, -, -, -, logs, hlogs, -, -, -, -, -, -, -, -, -, -, -, -, rfl⟩ := h
    refine ⟨⟨m, hm⟩, ?_⟩
    unfold receiptLogs at hlogs
    split at hlogs
    · obtain rfl := Except.ok.inj hlogs
      simp
    · obtain rfl := Except.ok.inj hlogs
      simp
    · next arr harr =>
      simp only [bind_eq_ok, require_eq_ok, exists_const] at hlogs
      intro log hlog
      obtain ⟨v, -, hv⟩ := exists_of_mapM_eq_ok hlogs.2 log hlog
      exact withinLimits_of_parse hv
    · cases hlogs
  · cases h

theorem logsServed_of_bindReceiptLoop {jsons : List Json} {i k prev : ℕ}
    {bound : List (Bytes × JsonReceipt)} (h : bindReceiptLoop hdr jsons i k prev = .ok bound) :
    LogsServed hdr i k (bound.map Prod.snd) := by
  induction jsons generalizing i k prev bound with
  | nil =>
    rw [← Except.ok.inj h]
    trivial
  | cons v jsons ih =>
    simp only [bindReceiptLoop, bind_eq_ok, mapError_eq_ok, pure_eq_ok, Except.ok.injEq] at h
    obtain ⟨parsed, hparsed, raw, -, tail, htail, rfl⟩ := h
    obtain ⟨⟨m, hm⟩, hlimits⟩ := withinLimits_of_receipt hparsed
    exact ⟨logsOf_decorateReceiptJson hm i _ _ _ _, hlimits, ih htail⟩

/-- Binding the envelopes writes their hashes over the receipts and over the logs. -/
theorem logsServed_of_bindEnvelopeLoop {keccak256 : Bytes → Hash}
    {ecrecover : Hash → Bytes → Except SealError Address} {items items' : List JsonReceipt}
    {envelopes : List ByteVec} {i j k : ℕ} (hserved : LogsServed hdr i k items)
    (h : bindEnvelopeLoop keccak256 ecrecover hdr items envelopes j = .ok items') :
    LogsServed hdr i k items' := by
  induction items generalizing envelopes i j k items' with
  | nil =>
    rw [← Except.ok.inj h]
    trivial
  | cons r items ih =>
    cases envelopes with
    | nil => cases h
    | cons envelope envelopes =>
      obtain ⟨hlogs, hlimits, hrest⟩ := hserved
      simp only [bindEnvelopeLoop, bind_eq_ok, pure_eq_ok, Except.ok.injEq] at h
      obtain ⟨r', hr', rest, htail, rfl⟩ := h
      obtain ⟨-, rfl⟩ := bindEnvelope_eq_ok keccak256 ecrecover hr'
      refine ⟨?_, hlimits, ih hrest htail⟩
      rw [logsOf_deriveFields, logsOf_setTransactionHash, hlogs, map_setLogTransactionHash]

theorem logsServed_of_bindReceipts {keccak256 : Bytes → Hash}
    {ecrecover : Hash → Bytes → Except SealError Address} {up : BlockAnswers}
    {receipts : List JsonReceipt}
    (h : bindReceipts keccak256 ecrecover hdr up = .ok (.list receipts)) :
    LogsServed hdr 0 0 receipts := by
  simp only [bindReceipts, bind_eq_ok, mapError_eq_ok] at h
  obtain ⟨root, -, h⟩ := h
  split at h
  · cases h
  simp only [bind_eq_ok, mapError_eq_ok] at h
  obtain ⟨jsons, -, h⟩ := h
  split at h
  · cases h
  simp only [bind_eq_ok, mapError_eq_ok, require_eq_ok, exists_const] at h
  obtain ⟨-, bound, hbound, -, -, envelopes, -, h⟩ := h
  have hserved := logsServed_of_bindReceiptLoop hbound
  split at h
  · obtain rfl := Receipts.list.inj (Except.ok.inj h)
    exact hserved
  · simp only [bind_eq_ok, pure_eq_ok, Except.ok.injEq, Receipts.list.injEq] at h
    obtain ⟨items, hitems, rfl⟩ := h
    exact logsServed_of_bindEnvelopeLoop hserved hitems

/-- The rendering of a log at its place in the block. -/
def renderLog (hdr : RpcBlockHeader) (e : TxLog × ℕ) : Json :=
  (rpcLogJson e.1.1 hdr e.1.2.1 e.1.2.2 (min e.2 (u64Size - 1))).json

theorem rebuildLogs_eq (i n : ℕ) (txHash : Option Hash) (logs : List ConsensusLog) :
    rebuildLogs hdr i txHash logs (min n (u64Size - 1)) =
      ((logs.map fun log => (log, txHash, i)).zipIdx n).map (renderLog hdr) := by
  have hindex : ∀ j, satAdd (min n (u64Size - 1)) j = min (n + j) (u64Size - 1) := by
    intro j
    unfold satAdd
    omega
  unfold rebuildLogs renderLog
  simp only [hindex]
  rw [List.zipIdx_map, List.map_map, List.zipIdx_eq_map_add (l := logs) (i := n), List.map_map]
  rfl

theorem flatMap_logsOf {receipts : List JsonReceipt} {i n : ℕ}
    (h : LogsServed hdr i (min n (u64Size - 1)) receipts) :
    receipts.flatMap (fun r => logsOf r.json) =
      ((((receipts.map JsonReceipt.toBoundReceipt).zipIdx i).flatMap fun rec =>
        rec.1.logs.map fun log => (log, rec.1.txHash, rec.2)).zipIdx n).map (renderLog hdr) := by
  induction receipts generalizing i n with
  | nil => rfl
  | cons r receipts ih =>
    obtain ⟨hlogs, -, hrest⟩ := h
    have hindex : satAdd (min n (u64Size - 1)) r.logs.length =
        min (n + r.logs.length) (u64Size - 1) := by
      unfold satAdd
      omega
    rw [hindex] at hrest
    rw [List.flatMap_cons, hlogs, ih hrest, rebuildLogs_eq, List.map_cons, List.zipIdx_cons,
      List.flatMap_cons, List.zipIdx_append, List.map_append, List.length_map]

theorem withinLimits_of_served {receipts : List JsonReceipt} {i k : ℕ}
    (h : LogsServed hdr i k receipts) : ∀ r ∈ receipts, ∀ log ∈ r.logs, log.WithinLimits := by
  induction receipts generalizing i k with
  | nil => simp
  | cons r receipts ih => exact List.forall_mem_cons.mpr ⟨h.2.1, ih h.2.2⟩

end

/-! ## A range of blocks -/

/-- The log object matches, as its log is read back. -/
def logJsonMatches (q : LogQuery) (v : Json) : Bool :=
  match parseConsensusLogJson v with
  | .ok log => logMatches log q
  | .error _ => false

/-- The log objects in the receipts that `eth_getBlockReceipts` serves for a block. -/
def servedLogs (P : Primitives) (up : ReceiptUpstream) (b : VerifiedBlock) : List Json :=
  match getBlockReceipts P up b with
  | .ok receipts => receipts.flatMap logsOf
  | .error _ => []

section

variable {P : Primitives} {up : ReceiptUpstream} {q : LogQuery}

/-- A log matches as its rendering does. -/
theorem logJsonMatches_renderLog {hdr : RpcBlockHeader} {e : TxLog × ℕ} (h : e.1.1.WithinLimits) :
    logJsonMatches q (renderLog hdr e) = logMatches e.1.1 q := by
  unfold logJsonMatches renderLog
  rw [parseConsensusLogJson_rpcLogJson h]

/-- The matching logs of a block are the matching ones of its served logs. -/
theorem matchingLogs_eq {b : VerifiedBlock} {hdr : RpcBlockHeader} {receipts : Receipts}
    (h : boundBlockReceipts P up b = .ok (hdr, receipts)) :
    (matchingLogs q (fetchReceipts P up) b).map RpcLog.json =
      (servedLogs P up b).filter (logJsonMatches q) := by
  unfold matchingLogs servedLogs getBlockReceipts fetchReceipts
  rw [h]
  cases receipts with
  | empty => rfl
  | omitted => rfl
  | list receipts =>
    have hbind : ∃ up', bindReceipts P.keccak256 (ecrecover P) hdr up' = .ok (.list receipts) := by
      simp only [boundBlockReceipts, bind_eq_ok, pure_eq_ok, Except.ok.injEq, Prod.mk.injEq] at h
      obtain ⟨header, -, bind, hbind, rfl, rfl⟩ := h
      exact ⟨_, hbind⟩
    obtain ⟨up', hbind⟩ := hbind
    have hserved := logsServed_of_bindReceipts hbind
    have hlogs := flatMap_logsOf (n := 0) (by rwa [Nat.zero_min])
    simp only [Except.map, Receipts.bind, ok_bind, pure_eq_ok, List.flatMap_map]
    have hlimits : ∀ e ∈ (txLogs (receipts.map JsonReceipt.toBoundReceipt)).zipIdx,
        e.1.1.WithinLimits := by
      intro e he
      obtain ⟨rec, hrec, hlog⟩ := List.mem_flatMap.mp (List.fst_mem_of_mem_zipIdx he)
      obtain ⟨log, hlog, heq⟩ := List.mem_map.mp hlog
      obtain ⟨r, hr, hrec⟩ := List.mem_map.mp (List.fst_mem_of_mem_zipIdx hrec)
      rw [← heq]
      exact withinLimits_of_served hserved r hr log (by rwa [← hrec] at hlog)
    rw [hlogs, List.filter_map, blockLogs, List.map_map]
    congr 1
    exact List.filter_congr fun e he => (logJsonMatches_renderLog (hlimits e he)).symm

theorem fetched_of_bound {b : VerifiedBlock} {hdr : RpcBlockHeader} {receipts : Receipts}
    (h : boundBlockReceipts P up b = .ok (hdr, receipts)) (hne : receipts ≠ .omitted) :
    Fetched (fetchReceipts P up) b := by
  refine ⟨hdr, receipts.bind, ?_, ?_⟩
  · rw [fetchReceipts, h]
    rfl
  · cases receipts with
    | empty => exact fun h => ReceiptBind.noConfusion h
    | omitted => exact absurd rfl hne
    | list receipts => exact fun h => ReceiptBind.noConfusion h

end

/-! ## Groups of blocks -/

/-- `LOG_FETCH_PARALLEL`. -/
def logFetchParallel : ℕ := 4

/-- `slice.chunks(n)`, for a positive `n`. -/
def chunks {α : Type} (n : ℕ) : List α → List (List α)
  | [] => []
  | a :: l => (a :: l.take (n - 1)) :: chunks n (l.drop (n - 1))
termination_by l => l.length
decreasing_by
  rw [List.length_drop, List.length_cons]
  omega

theorem flatten_chunks {α : Type} (n : ℕ) (l : List α) : (chunks n l).flatten = l := by
  induction l using chunks.induct n with
  | case1 => rw [chunks, List.flatten_nil]
  | case2 a l ih => rw [chunks, List.flatten_cons, ih, List.cons_append, List.take_append_drop]

/-- One group of `collect_logs`: fetched at once, consumed in the order of its blocks. -/
def collectGroup (q : LogQuery) (fetch : Fetch) (out : List RpcLog) (group : List VerifiedBlock) :
    Except LogsError (List RpcLog) :=
  (group.zip (group.map fetch)).foldlM (fun out r => collectBlock q (fun _ => r.2) out r.1) out

/-- `collect_logs`, group by group. -/
def collectLogsInGroups (q : LogQuery) (fetch : Fetch) (blocks : List VerifiedBlock) :
    Except LogsError (List RpcLog) :=
  (chunks logFetchParallel blocks).foldlM (collectGroup q fetch) []

/-- The groups make no difference. -/
theorem collectLogsInGroups_eq (q : LogQuery) (fetch : Fetch) (blocks : List VerifiedBlock) :
    collectLogsInGroups q fetch blocks = collectLogs q fetch blocks := by
  have hgroup : collectGroup q fetch = fun out group =>
      group.foldlM (collectBlock q fetch) out := by
    funext out group
    rw [collectGroup, ← List.map_prod_left_eq_zip, List.foldlM_map]
    rfl
  rw [collectLogsInGroups, hgroup, collectLogs]
  conv_rhs => rw [← flatten_chunks logFetchParallel blocks, ← List.flatMap_id, foldlM_flatMap]
  rfl

/-- Over blocks whose receipts are bound or proven to be none, the range is answered with the log
objects of the receipts that match, in their order, or refused when they are too many. -/
theorem getLogs_filters_receipts (P : Primitives) (up : ReceiptUpstream) (q : LogQuery)
    (blocks : List VerifiedBlock)
    (hbound : ∀ b ∈ blocks, ∃ hdr receipts,
      boundBlockReceipts P up b = .ok (hdr, receipts) ∧ receipts ≠ .omitted) :
    (((blocks.flatMap (servedLogs P up)).filter (logJsonMatches q)).length ≤ maxGetLogs →
      ∃ logs, collectLogsInGroups q (fetchReceipts P up) blocks = .ok logs ∧
        logs.map RpcLog.json = (blocks.flatMap (servedLogs P up)).filter (logJsonMatches q)) ∧
    (maxGetLogs < ((blocks.flatMap (servedLogs P up)).filter (logJsonMatches q)).length →
      collectLogsInGroups q (fetchReceipts P up) blocks = .error .capped) := by
  have hfetch : ∀ b ∈ blocks, Fetched (fetchReceipts P up) b := by
    intro b hb
    obtain ⟨hdr, receipts, h, hne⟩ := hbound b hb
    exact fetched_of_bound h hne
  have hserved : (blocks.flatMap (servedLogs P up)).filter (logJsonMatches q) =
      (blocks.flatMap (matchingLogs q (fetchReceipts P up))).map RpcLog.json := by
    rw [List.filter_flatMap, List.map_flatMap]
    refine List.flatMap_congr fun b hb => ?_
    obtain ⟨hdr, receipts, h, -⟩ := hbound b hb
    exact (matchingLogs_eq h).symm
  rw [hserved, List.length_map, collectLogsInGroups_eq, collectLogs_eq hfetch]
  constructor
  · intro hle
    rw [if_pos hle]
    exact ⟨_, rfl, rfl⟩
  · intro hlt
    rw [if_neg (Nat.not_le.mpr hlt)]

/-! ## A block with two logs -/

/-- A log of one of two contracts. -/
def sampleLog (contract : UInt8) : ConsensusLog := ⟨.repeated 20 contract, [], []⟩

def sampleReceipt : ConsensusReceipt := ⟨1, 0, .repeated 256 0, [sampleLog 1, sampleLog 2], 0⟩

/-- A log as an upstream serves it. -/
def sampleLogJson (contract : UInt8) : Json :=
  .object [("address", .string (hexPrefixed (sampleLog contract).address.val)),
    ("topics", .array []), ("data", .string (hexPrefixed []))]

/-- The receipt as an upstream serves it, without its transaction's hash. -/
def sampleReceiptFields : Json.Fields :=
  [("status", .string (hexQuantity 1)), ("cumulativeGasUsed", .string (hexQuantity 0)),
    ("logsBloom", .string (hexPrefixed (FixedBytes.repeated 256 0).val)),
    ("logs", .array [sampleLogJson 1, sampleLogJson 2])]

theorem parse_sampleReceipt :
    parseConsensusReceiptJson (.object sampleReceiptFields) = .ok ⟨sampleReceipt, none⟩ := by
  have hone := decodeU64_hexQuantity (n := 1) (Draft.small_lt_u64Size (by decide))
  have hzero := decodeU64_hexQuantity (n := 0) u64Size_pos
  have hstatus : receiptStatus sampleReceiptFields = .ok 1 := by
    have hget : stringMember sampleReceiptFields "status" = .ok (hexQuantity 1) := rfl
    rw [receiptStatus, hget, ok_bind, hone]
    rfl
  have hgas : receiptCumulativeGasUsed sampleReceiptFields = .ok 0 := by
    have hget : stringMember sampleReceiptFields "cumulativeGasUsed" = .ok (hexQuantity 0) := rfl
    rw [receiptCumulativeGasUsed, hget, ok_bind, hzero]
    rfl
  have hbloom : receiptLogsBloom sampleReceiptFields = .ok (.repeated 256 0) := by
    have hget : stringMember sampleReceiptFields "logsBloom" =
      .ok (hexPrefixed (FixedBytes.repeated 256 0).val) := rfl
    rw [receiptLogsBloom, hget, ok_bind, decodeHexFixed_hexPrefixed]
    rfl
  have hlog : ∀ contract, parseConsensusLogJson (sampleLogJson contract) = .ok (sampleLog contract) :=
    fun _ => parseConsensusLogJson_object ⟨Nat.zero_le _, Nat.zero_le _⟩ rfl rfl rfl
  have hlogs : receiptLogs sampleReceiptFields = .ok [sampleLog 1, sampleLog 2] := by
    have hget : sampleReceiptFields.get? "logs" =
      some (.array [sampleLogJson 1, sampleLogJson 2]) := rfl
    rw [receiptLogs, hget]
    simp only
    rw [require_of (show [sampleLogJson 1, sampleLogJson 2].length ≤ maxReceiptLogs by decide), ok_bind,
      List.mapM_cons, hlog, List.mapM_cons, hlog]
    rfl
  rw [parseConsensusReceiptJson]
  simp only [Json.asObject, hstatus, hgas, hbloom, hlogs, ok_bind]
  rfl

/-- The encoding of the receipt. -/
def sampleReceiptRaw : Bytes :=
  encodeList [encodeUint 1, encodeUint 0, encodeBytes (FixedBytes.repeated 256 0).val,
    encodeList [encodeLog (sampleLog 1), encodeLog (sampleLog 2)]]

theorem encode_sampleReceipt : encodeConsensusReceipt sampleReceipt = .ok sampleReceiptRaw := by
  have htopics : (sampleReceipt.logs.all fun log => decide (log.topics.length ≤ maxLogTopics)) = true :=
    by decide
  unfold encodeConsensusReceipt
  rw [require_of (by decide), ok_bind, require_of (by decide), ok_bind, require_of (by decide), ok_bind,
    require_of htopics, ok_bind]
  simp only [sampleReceipt, if_true, pure_eq_ok, List.map_cons, List.map_nil, sampleReceiptRaw]

theorem orderedTrieRoot_singleton (keccak256 : Bytes → Hash) (b : Bytes) :
    orderedTrieRoot keccak256 [b] = keccak256 (encodeList
      [encodeBytes (hexPrefixEncode (bytesToNibbles (encodeUint 0)) true), encodeBytes b]) := by
  have hpairs : (indexedPairs [b]).mergeSort pairLe = [(bytesToNibbles (encodeUint 0), b)] := by
    rw [indexedPairs, List.zipIdx_singleton, List.map_singleton, List.mergeSort_singleton]
  have htake : [b].take (min [b].length maxOrderedTrieItems) = [b] := rfl
  rw [orderedTrieRoot]
  simp only [htake]
  rw [if_neg (List.cons_ne_nil b []), hpairs, encodeNode, List.drop_zero]

/-- The encoding, byte by byte. -/
def sampleReceiptBytes : Bytes :=
  [0xf9, 0x01, 0x36, 0x01, 0x80, 0xb9, 0x01, 0x00] ++ List.replicate 256 0 ++ [0xf0, 0xd7, 0x94] ++
    List.replicate 20 1 ++ [0xc0, 0x80, 0xd7, 0x94] ++ List.replicate 20 2 ++ [0xc0, 0x80]

theorem sampleReceiptRaw_eq : sampleReceiptRaw = sampleReceiptBytes := by decide +kernel

theorem sampleLeaf_eq : encodeList [encodeBytes (hexPrefixEncode (bytesToNibbles (encodeUint 0)) true),
    encodeBytes sampleReceiptBytes] =
      [0xf9, 0x01, 0x3f, 0x82, 0x20, 0x80, 0xb9, 0x01, 0x39] ++ sampleReceiptBytes := by
  decide +kernel

theorem sampleRoot_ne_empty : orderedTrieRoot Types.keccak256 [sampleReceiptRaw] ≠ emptyTrieRoot := by
  rw [orderedTrieRoot_singleton, sampleReceiptRaw_eq, sampleLeaf_eq,
    show Types.keccak256 = keccakRows from keccak256_eq_keccakRows]
  decide +kernel

/-- A header of the mock with other roots of its receipts and transactions. -/
def headerWithRoots (receipts transactions : Hash) : RpcBlockHeader :=
  { (blankDraft sealedChainStart).header (.repeated 20 1) (.repeated 65 0) (.repeated 32 0) with
    receiptsRoot := hexPrefixed receipts.val
    transactionsRoot := hexPrefixed transactions.val }

/-- An upstream that serves the receipt and no envelopes. -/
def sampleUpstream : ReceiptUpstream where
  headerByHash _ := .error "not served"
  blockReceiptsJson _ := .ok [.object sampleReceiptFields]
  blockRawTransactions _ := .ok []

/-- The block of such a header, which it may have kept. -/
def sampleBlock (header : Option RpcBlockHeader) (hash : Hash) : VerifiedBlock where
  number := sealedChainStart
  hash := hash
  stateRoot := .repeated 32 0
  miner := .repeated 20 1
  milliTimestamp := 0
  gasLimit := 0
  header := header

theorem exists_headerHash (receipts transactions : Hash) :
    ∃ hash, headerHash mockPrimitives (headerWithRoots receipts transactions) = .ok hash := by
  have h := (blankDraft_fits (n := sealedChainStart) (by decide) (by decide)).reads
  have hpre : ∃ bytes, headerPreimage (headerWithRoots receipts transactions) = .ok bytes := by
    simp [headerPreimage, headerWithRoots, Draft.header, formatAddress, h.number, h.time,
      h.difficulty, h.gasLimit, h.zero, pushIf, encodeOptUint, encodeOptHash]
  obtain ⟨bytes, hbytes⟩ := hpre
  rw [headerHash, hbytes]
  exact ⟨_, rfl⟩

theorem loadVerifiedHeader_sample {up : ReceiptUpstream} {receipts transactions hash : Hash}
    {header : Option RpcBlockHeader}
    (hhash : headerHash mockPrimitives (headerWithRoots receipts transactions) = .ok hash)
    (hkept : header = some (headerWithRoots receipts transactions) ∨ header = none ∧
      up.headerByHash (hexPrefixed hash.val) = .ok (headerWithRoots receipts transactions)) :
    loadVerifiedHeader mockPrimitives up (sampleBlock header hash) =
      .ok { headerWithRoots receipts transactions with hash := hexPrefixed hash.val } := by
  have hreads := (blankDraft_fits (n := sealedChainStart) (by decide) (by decide)).reads
  have hnumber : decodeU64 (headerWithRoots receipts transactions).number = .ok sealedChainStart :=
    hreads.number
  have hroot : decodeHexFixed 32 (headerWithRoots receipts transactions).stateRoot =
    .ok (.repeated 32 0) := decodeHexFixed_hexPrefixed _
  have hmatch : headerMatchesLocal mockPrimitives (headerWithRoots receipts transactions)
      (sampleBlock header hash) = .ok () := by
    unfold headerMatchesLocal
    simp only [hnumber, hroot, hhash, mapError_ok, ok_bind, sampleBlock, require_of]
  unfold loadVerifiedHeader
  rcases hkept with rfl | ⟨rfl, hserved⟩
  · simp only [sampleBlock, pure_eq_ok, ok_bind] at hmatch ⊢
    rw [hmatch, ok_bind]
  · simp only [sampleBlock, hserved, mapError_ok, pure_eq_ok, ok_bind] at hmatch ⊢
    rw [hmatch, ok_bind]

theorem bindReceipts_of_omitted {keccak256 : Bytes → Hash}
    {ecrecover : Hash → Bytes → Except SealError Address} {hdr : RpcBlockHeader} {up : BlockAnswers}
    {root : Hash} {v : Json} {raw : Bytes} {r : JsonReceipt}
    (hroot : decodeHexFixed 32 hdr.receiptsRoot = .ok root) (hne : root ≠ emptyTrieRoot)
    (hanswer : up.receipts = .ok [v]) (hloop : bindReceiptLoop hdr [v] 0 0 0 = .ok [(raw, r)])
    (hverify : verifyReceiptList keccak256 [raw] root = .ok ())
    (htx : bindTxEnvelopes keccak256 hdr up = .ok none) :
    bindReceipts keccak256 ecrecover hdr up = .ok (.list [r]) := by
  unfold bindReceipts
  simp only [hroot, mapError_ok, ok_bind, hne, if_false, hanswer, List.isEmpty_cons,
    Bool.false_eq_true, hloop]
  rw [require_of (by rw [List.length_singleton]; decide), ok_bind, List.map_singleton, hverify]
  simp only [mapError_ok, ok_bind, htx, List.map_singleton, pure_eq_ok]

/-- The sample receipt, bound. -/
def sampleBound (hdr : RpcBlockHeader) : JsonReceipt where
  txHash := none
  logs := [sampleLog 1, sampleLog 2]
  json := decorateReceiptJson (.object sampleReceiptFields) hdr 0 none [sampleLog 1, sampleLog 2] 0 0

theorem bindReceipts_sample {hdr : RpcBlockHeader} {root : Hash} {raw : Bytes}
    (hraw : encodeConsensusReceipt sampleReceipt = .ok raw)
    (hreceipts : hdr.receiptsRoot = hexPrefixed root.val)
    (htransactions : hdr.transactionsRoot = hexPrefixed emptyTrieRoot.val)
    (hroot : orderedTrieRoot mockPrimitives.keccak256 [raw] = root) (hne : root ≠ emptyTrieRoot) :
    bindReceipts mockPrimitives.keccak256 (ecrecover mockPrimitives) hdr
      (sampleUpstream.answers hdr.hash) = .ok (.list [sampleBound hdr]) := by
  have hloop : bindReceiptLoop hdr [.object sampleReceiptFields] 0 0 0 =
      .ok [(raw, sampleBound hdr)] := by
    have hlogs : sampleReceipt.logs = [sampleLog 1, sampleLog 2] := by rw [sampleReceipt]
    have hgas : sampleReceipt.cumulativeGasUsed = 0 := by rw [sampleReceipt]
    simp only [bindReceiptLoop, parse_sampleReceipt, hraw, mapError_ok, ok_bind, hlogs, hgas,
      Nat.sub_zero, pure_eq_ok, sampleBound]
  have hverify : verifyReceiptList mockPrimitives.keccak256 [raw] root = .ok () := by
    unfold verifyReceiptList
    rw [require_of (by rw [List.length_singleton]; decide), ok_bind, require_of hroot]
  have htx : bindTxEnvelopes mockPrimitives.keccak256 hdr (sampleUpstream.answers hdr.hash) =
      .ok none := by
    unfold bindTxEnvelopes
    simp only [htransactions, decodeHexFixed_hexPrefixed, mapError_ok, ok_bind, if_true, pure_eq_ok]
  exact bindReceipts_of_omitted (by rw [hreceipts, decodeHexFixed_hexPrefixed]) hne rfl hloop hverify htx

/-- The block of the mock whose only receipt has a log of each of two contracts: both are served, and
a filter for the first contract finds one. -/
theorem getLogs_filters_receipts_sample : ∃ b hdr receipts log,
    boundBlockReceipts mockPrimitives sampleUpstream b = .ok (hdr, .list receipts) ∧
      receipts.length = 1 ∧ (servedLogs mockPrimitives sampleUpstream b).length = 2 ∧
      collectLogsInGroups ⟨[.repeated 20 1], []⟩ (fetchReceipts mockPrimitives sampleUpstream) [b] =
        .ok [log] ∧
      [log.json] = ([b].flatMap (servedLogs mockPrimitives sampleUpstream)).filter
        (logJsonMatches ⟨[.repeated 20 1], []⟩) := by
  obtain ⟨root, hroot⟩ : ∃ root, orderedTrieRoot mockPrimitives.keccak256 [sampleReceiptRaw] = root :=
    ⟨_, rfl⟩
  have hne : root ≠ emptyTrieRoot := by
    rw [← hroot]
    exact sampleRoot_ne_empty
  obtain ⟨hash, hhash⟩ := exists_headerHash root emptyTrieRoot
  obtain ⟨b, hb⟩ : ∃ b, b = sampleBlock (some (headerWithRoots root emptyTrieRoot)) hash := ⟨_, rfl⟩
  obtain ⟨hdr, hbound⟩ : ∃ hdr, boundBlockReceipts mockPrimitives sampleUpstream b =
      .ok (hdr, .list [sampleBound hdr]) := by
    refine ⟨{ headerWithRoots root emptyTrieRoot with hash := hexPrefixed hash.val }, ?_⟩
    unfold boundBlockReceipts
    rw [hb, loadVerifiedHeader_sample hhash (.inl rfl), ok_bind,
      bindReceipts_sample encode_sampleReceipt rfl rfl hroot hne]
    rfl
  have hserved : servedLogs mockPrimitives sampleUpstream b =
      [renderLog hdr ((sampleLog 1, none, 0), 0), renderLog hdr ((sampleLog 2, none, 0), 1)] := by
    unfold servedLogs getBlockReceipts
    rw [hbound]
    simp only [ok_bind, List.map_singleton, pure_eq_ok, List.flatMap_singleton, sampleBound]
    rw [logsOf_decorateReceiptJson rfl]
    exact rebuildLogs_eq 0 0 none [sampleLog 1, sampleLog 2]
  have hlimits : ∀ contract, (sampleLog contract).WithinLimits := fun _ =>
    ⟨Nat.zero_le _, Nat.zero_le _⟩
  have hfound : ([b].flatMap (servedLogs mockPrimitives sampleUpstream)).filter
      (logJsonMatches ⟨[.repeated 20 1], []⟩) = [renderLog hdr ((sampleLog 1, none, 0), 0)] := by
    rw [List.flatMap_singleton, hserved, List.filter_cons_of_pos, List.filter_cons_of_neg,
      List.filter_nil]
    · rw [logJsonMatches_renderLog (hlimits 2)]
      decide
    · rw [logJsonMatches_renderLog (hlimits 1)]
      decide
  obtain ⟨logs, hlogs, hjson⟩ := (getLogs_filters_receipts mockPrimitives sampleUpstream
    ⟨[.repeated 20 1], []⟩ [b] (fun c hc => by
      rw [List.mem_singleton.mp hc]
      exact ⟨_, _, hbound, fun h => Receipts.noConfusion h⟩)).1 (by
        rw [hfound, List.length_singleton]
        decide)
  have hone : logs.length = 1 := by rw [← List.length_map, hjson, hfound, List.length_singleton]
  obtain ⟨log, rfl⟩ := List.length_eq_one_iff.mp hone
  exact ⟨b, hdr, _, log, hbound, rfl, by rw [hserved]; rfl, hlogs, hjson⟩

end HeliosBsc
