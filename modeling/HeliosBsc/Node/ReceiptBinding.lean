import HeliosBsc.Execution.ListBinding
import HeliosBsc.Node.ReceiptEncoding

/-!
# What an upstream can say of a bound receipt

Two upstreams answer for one sealed header, both receipt lists are bound and both serve the
envelopes. The encoding of a receipt is read back as the receipt, a root has one list, and every
member of the served JSON is either one that the encoding binds or one that is written over what the
upstream said.
-/

namespace HeliosBsc

open Checked BigEndian

theorem readable_of_parse {v : Json} {parsed : ParsedReceipt}
    (h : parseConsensusReceiptJson v = .ok parsed) :
    ∃ m : Json.Fields, v = .object m ∧ parsed.consensus.Readable ∧
      receiptStatus m = .ok parsed.consensus.status ∧
      receiptCumulativeGasUsed m = .ok parsed.consensus.cumulativeGasUsed ∧
      receiptLogsBloom m = .ok parsed.consensus.logsBloom ∧
      receiptType m = .ok parsed.consensus.txType := by
  have hlimits := (withinLimits_of_receipt h).2
  unfold parseConsensusReceiptJson at h
  split at h
  · next m hm =>
    have hv : v = .object m := by
      cases v with
      | object fields => rw [Option.some.inj hm]
      | _ => cases hm
    simp only [bind_eq_ok, pure_eq_ok, Except.ok.injEq] at h
    obtain ⟨status, hstatus, gas, hgas, bloom, hbloom, txType, htype, logs, hlogs, txHash, -, -, -,
      -, -, -, -, -, -, -, -, rfl⟩ := h
    refine ⟨m, hv, ⟨?_, ?_, ?_, ?_, hlimits⟩, hstatus, hgas, hbloom, htype⟩
    · simp only [receiptStatus, bind_eq_ok, require_eq_ok, exists_const, pure_eq_ok,
        Except.ok.injEq] at hstatus
      obtain ⟨-, -, n, -, hle, rfl⟩ := hstatus
      exact hle
    · simp only [receiptCumulativeGasUsed, bind_eq_ok, mapError_eq_ok] at hgas
      obtain ⟨s, -, hs⟩ := hgas
      exact decodeU64_lt hs
    · unfold receiptType at htype
      split at htype
      · rw [← Except.ok.inj htype]
        exact Nat.zero_le _
      · rw [← Except.ok.inj htype]
        exact Nat.zero_le _
      · simp only [bind_eq_ok, require_eq_ok, exists_const, pure_eq_ok, Except.ok.injEq] at htype
        obtain ⟨n, -, hle, rfl⟩ := htype
        exact hle
      · cases htype
    · unfold receiptLogs at hlogs
      split at hlogs
      · rw [← Except.ok.inj hlogs]
        exact Nat.zero_le _
      · rw [← Except.ok.inj hlogs]
        exact Nat.zero_le _
      · simp only [bind_eq_ok, require_eq_ok, exists_const] at hlogs
        exact (length_of_mapM_eq_ok hlogs.2).trans_le hlogs.1
      · cases hlogs
  · cases h

/-! ## The members of a bound receipt -/

/-- What the readers of an envelope find in it. -/
structure EnvelopeFields where
  recipient : Option Address
  price : TxGasPrice
  nonce : ℕ
  sender : Address

section

variable (keccak256 : Bytes → Hash) (ecrecover : Hash → Bytes → Except SealError Address)

/-- The readers of an envelope find these fields in it, and its signer is recovered. -/
structure Decodes (envelope : Bytes) (tx : EnvelopeFields) : Prop where
  recipient : txToAddress envelope = .ok tx.recipient
  price : txGasPrice envelope = .ok tx.price
  nonce : txNonce envelope = .ok tx.nonce
  sender : ∃ digest sig, txSigningHash keccak256 envelope = .ok (digest, sig) ∧
    ecrecover digest sig.val = .ok tx.sender

theorem Decodes.unique {envelope : Bytes} {tx tx' : EnvelopeFields}
    (h : Decodes keccak256 ecrecover envelope tx) (h' : Decodes keccak256 ecrecover envelope tx') :
    tx = tx' := by
  obtain ⟨digest, sig, hsig, hsender⟩ := h.sender
  obtain ⟨digest', sig', hsig', hsender'⟩ := h'.sender
  obtain ⟨rfl, rfl⟩ := Prod.mk.inj (Except.ok.inj (hsig.symm.trans hsig'))
  have hrecipient := Except.ok.inj (h.recipient.symm.trans h'.recipient)
  have hprice := Except.ok.inj (h.price.symm.trans h'.price)
  have hnonce := Except.ok.inj (h.nonce.symm.trans h'.nonce)
  have hsame := Except.ok.inj (hsender.symm.trans hsender')
  cases tx
  cases tx'
  simp only [EnvelopeFields.mk.injEq]
  exact ⟨hrecipient, hprice, hnonce, hsame⟩

/-- `contractAddress`. -/
def contractJson (tx : EnvelopeFields) : Json :=
  match tx.recipient with
  | some _ => .null
  | none => .string (hexPrefixed (contractAddress keccak256 tx.sender tx.nonce).val)

/-- The members that are written over what an upstream said, for the receipt at index `i` whose
first log is the `k`-th of the block. -/
def derivedMembers (hdr : RpcBlockHeader) (i k gasUsed : ℕ) (logs : List ConsensusLog)
    (envelope : Bytes) (tx : EnvelopeFields) : Json.Fields :=
  [("gasUsed", .string (hexQuantity gasUsed)),
    ("transactionHash", .string (hexPrefixed (keccak256 envelope).val)),
    ("transactionIndex", .string (hexQuantity i)),
    ("blockHash", .string hdr.hash),
    ("blockNumber", .string hdr.number),
    ("to", recipientJson tx.recipient),
    ("from", .string (hexPrefixed tx.sender.val)),
    ("contractAddress", contractJson keccak256 tx),
    ("effectiveGasPrice", .string (hexQuantity (tx.price.effective (baseFee hdr)))),
    ("logs", .array (rebuildLogs hdr i (some (keccak256 envelope)) logs k))]

/-- The keys of these members. -/
def derivedKeys : List String :=
  ["gasUsed", "transactionHash", "transactionIndex", "blockHash", "blockNumber", "to", "from",
    "contractAddress", "effectiveGasPrice", "logs"]

variable {keccak256 ecrecover}

theorem deriveFields_of_decodes {envelope : Bytes} {tx : EnvelopeFields}
    (h : Decodes keccak256 ecrecover envelope tx) (hdr : RpcBlockHeader) (m : Json.Fields) :
    deriveFields keccak256 ecrecover hdr envelope (.object m) =
      .object (m.writeAll [("to", recipientJson tx.recipient),
        ("effectiveGasPrice", .string (hexQuantity (tx.price.effective (baseFee hdr)))),
        ("from", .string (hexPrefixed tx.sender.val)),
        ("contractAddress", contractJson keccak256 tx)]) := by
  obtain ⟨digest, sig, hsig, hsender⟩ := h.sender
  have hsigner : txSender keccak256 ecrecover envelope = some tx.sender := by
    rw [txSender, hsig]
    simp only
    rw [hsender]
    rfl
  have hcontract : ∀ m, deriveContract keccak256 envelope tx.recipient tx.sender m =
      m.insert "contractAddress" (contractJson keccak256 tx) := by
    intro m
    unfold deriveContract contractJson
    cases tx.recipient with
    | some a => rfl
    | none =>
      simp only
      rw [h.nonce]
  unfold deriveFields
  rw [h.recipient]
  simp only [Json.asObject]
  unfold deriveSender derivePrice
  rw [hsigner, h.price]
  simp only
  rw [hcontract]
  rfl

/-- The label of a receipt, when the upstream gave one. -/
def labelMembers : Option Hash → Json.Fields
  | some h => [("transactionHash", .string (hexPrefixed h.val))]
  | none => []

theorem decorateReceiptJson_object (m : Json.Fields) (hdr : RpcBlockHeader) (i : ℕ)
    (txHash : Option Hash) (logs : List ConsensusLog) (k gasUsed : ℕ) :
    decorateReceiptJson (.object m) hdr i txHash logs k gasUsed =
      .object (m.writeAll ([("blockHash", .string hdr.hash), ("blockNumber", .string hdr.number),
          ("transactionIndex", .string (hexQuantity i)),
          ("gasUsed", .string (hexQuantity gasUsed))] ++
        labelMembers txHash ++ [("logs", .array (rebuildLogs hdr i txHash logs k))])) := by
  cases txHash with
  | none => rfl
  | some h => rfl

theorem setTransactionHash_object {m : Json.Fields} {logs : List Json}
    (h : m.get? "logs" = some (.array logs)) (hash : Hash) :
    setTransactionHash (.object m) hash =
      .object (m.writeAll [("transactionHash", .string (hexPrefixed hash.val)),
        ("logs", .array (logs.map (setLogTransactionHash hash)))]) := by
  unfold setTransactionHash
  simp only [Json.asObject]
  rw [Json.Fields.get?_insert_of_ne (by decide), h]
  rfl

theorem writeAll_append (m a b : Json.Fields) :
    (m.writeAll a).writeAll b = m.writeAll (a ++ b) := by
  unfold Json.Fields.writeAll
  rw [List.foldl_append]

/-- All that is written over a receipt of the upstream, in order. -/
def writtenMembers (keccak256 : Bytes → Hash) (hdr : RpcBlockHeader) (i k gasUsed : ℕ)
    (txHash : Option Hash) (logs : List ConsensusLog) (envelope : Bytes) (tx : EnvelopeFields) :
    Json.Fields :=
  [("blockHash", .string hdr.hash), ("blockNumber", .string hdr.number),
    ("transactionIndex", .string (hexQuantity i)), ("gasUsed", .string (hexQuantity gasUsed))] ++
    labelMembers txHash ++
    [("logs", .array (rebuildLogs hdr i txHash logs k)),
      ("transactionHash", .string (hexPrefixed (keccak256 envelope).val)),
      ("logs", .array (rebuildLogs hdr i (some (keccak256 envelope)) logs k)),
      ("to", recipientJson tx.recipient),
      ("effectiveGasPrice", .string (hexQuantity (tx.price.effective (baseFee hdr)))),
      ("from", .string (hexPrefixed tx.sender.val)),
      ("contractAddress", contractJson keccak256 tx)]

theorem boundJson_eq {envelope : Bytes} {tx : EnvelopeFields}
    (h : Decodes keccak256 ecrecover envelope tx) (hdr : RpcBlockHeader) (m : Json.Fields)
    (i k gasUsed : ℕ) (txHash : Option Hash) (logs : List ConsensusLog) :
    deriveFields keccak256 ecrecover hdr envelope
        (setTransactionHash (decorateReceiptJson (.object m) hdr i txHash logs k gasUsed)
          (keccak256 envelope)) =
      .object (m.writeAll (writtenMembers keccak256 hdr i k gasUsed txHash logs envelope tx)) := by
  rw [decorateReceiptJson_object]
  have hlogs : ∀ written : Json.Fields,
      (m.writeAll (written ++ [("logs", .array (rebuildLogs hdr i txHash logs k))])).get? "logs" =
        some (.array (rebuildLogs hdr i txHash logs k)) := by
    intro written
    rw [Json.Fields.get?_writeAll, List.reverse_append, List.reverse_singleton,
      List.singleton_append, Json.Fields.get?_cons_self, Option.some_or]
  rw [setTransactionHash_object (hlogs _), map_setLogTransactionHash, deriveFields_of_decodes h,
    writeAll_append, writeAll_append]
  unfold writtenMembers
  simp only [List.append_assoc, List.cons_append, List.nil_append]

theorem get?_derived {hdr : RpcBlockHeader} {i k gasUsed : ℕ} {txHash : Option Hash}
    {logs : List ConsensusLog} {envelope : Bytes} {tx : EnvelopeFields} (m : Json.Fields) :
    ∀ f ∈ derivedMembers keccak256 hdr i k gasUsed logs envelope tx,
      (m.writeAll (writtenMembers keccak256 hdr i k gasUsed txHash logs envelope tx)).get? f.1 =
        some f.2 := by
  simp only [Json.Fields.get?_writeAll, derivedMembers, List.forall_mem_cons]
  cases txHash with
  | none => simp [writtenMembers, labelMembers, Json.Fields.get?]
  | some h => simp [writtenMembers, labelMembers, Json.Fields.get?]

theorem get?_of_notMem_derivedKeys {hdr : RpcBlockHeader} {i k gasUsed : ℕ} {txHash : Option Hash}
    {logs : List ConsensusLog} {envelope : Bytes} {tx : EnvelopeFields} (m : Json.Fields)
    {key : String} (hkey : key ∉ derivedKeys) :
    (m.writeAll (writtenMembers keccak256 hdr i k gasUsed txHash logs envelope tx)).get? key =
      m.get? key := by
  have hnone : ∀ f ∈ writtenMembers keccak256 hdr i k gasUsed txHash logs envelope tx,
      f.1 ∈ derivedKeys := by
    unfold writtenMembers
    cases txHash with
    | none => simp [labelMembers, derivedKeys]
    | some h => simp [labelMembers, derivedKeys]
  have hget : Json.Fields.get?
      (writtenMembers keccak256 hdr i k gasUsed txHash logs envelope tx).reverse key = none := by
    unfold Json.Fields.get?
    rw [Option.map_eq_none_iff, List.find?_eq_none]
    intro f hf heq
    rw [decide_eq_true_eq] at heq
    exact hkey (heq ▸ hnone f (List.mem_reverse.mp hf))
  rw [Json.Fields.get?_writeAll, hget, Option.none_or]

/-! ## One run -/

variable (keccak256 ecrecover)

/-- The served receipt has the fields of the bound one, and everything else from the header and the
envelope. -/
structure ServedReceipt (hdr : RpcBlockHeader) (i k gasUsed : ℕ) (c : ConsensusReceipt)
    (envelope : Bytes) (tx : EnvelopeFields) (m : Json.Fields) : Prop where
  status : receiptStatus m = .ok c.status
  cumulativeGasUsed : receiptCumulativeGasUsed m = .ok c.cumulativeGasUsed
  logsBloom : receiptLogsBloom m = .ok c.logsBloom
  txType : receiptType m = .ok c.txType
  derived : ∀ f ∈ derivedMembers keccak256 hdr i k gasUsed c.logs envelope tx,
    m.get? f.1 = some f.2

/-- The receipts of a run, from the `i`-th receipt and the `k`-th log of the block on, after a
cumulative gas of `prev`. -/
def ServedRun (hdr : RpcBlockHeader) :
    (i k prev : ℕ) → List ConsensusReceipt → List ByteVec → List JsonReceipt → Prop
  | _, _, _, [], _, receipts => receipts = []
  | i, k, prev, c :: cs, e :: es, r :: rs =>
    (∃ (tx : EnvelopeFields) (m : Json.Fields), Decodes keccak256 ecrecover e.val tx ∧
      r.json = .object m ∧
      ServedReceipt keccak256 hdr i k (c.cumulativeGasUsed - prev) c e.val tx m) ∧
      ServedRun hdr (i + 1) (satAdd k c.logs.length) c.cumulativeGasUsed cs es rs
  | _, _, _, _ :: _, _, _ => False

variable {keccak256 ecrecover}

theorem servedReceipt_of_parse {v : Json} {parsed : ParsedReceipt}
    (hparsed : parseConsensusReceiptJson v = .ok parsed) {envelope : Bytes} {tx : EnvelopeFields}
    (htx : Decodes keccak256 ecrecover envelope tx) (hdr : RpcBlockHeader) (i k gasUsed : ℕ) :
    ∃ m : Json.Fields, deriveFields keccak256 ecrecover hdr envelope (setTransactionHash
        (decorateReceiptJson v hdr i parsed.txHash parsed.consensus.logs k gasUsed)
        (keccak256 envelope)) = .object m ∧
      ServedReceipt keccak256 hdr i k gasUsed parsed.consensus envelope tx m := by
  obtain ⟨m, rfl, -, hstatus, hgas, hbloom, htype⟩ := readable_of_parse hparsed
  have hkept : ∀ key ∉ derivedKeys, (m.writeAll (writtenMembers keccak256 hdr i k gasUsed
      parsed.txHash parsed.consensus.logs envelope tx)).get? key = m.get? key :=
    fun key hkey => get?_of_notMem_derivedKeys m hkey
  refine ⟨_, boundJson_eq htx hdr m i k gasUsed _ _, ⟨?_, ?_, ?_, ?_, get?_derived m⟩⟩
  · rwa [receiptStatus, stringMember, hkept "status" (by decide)]
  · rwa [receiptCumulativeGasUsed, stringMember, hkept "cumulativeGasUsed" (by decide)]
  · rwa [receiptLogsBloom, stringMember, hkept "logsBloom" (by decide)]
  · rwa [receiptType, hkept "type" (by decide)]

/-- What is served for bound receipts comes from readable receipts whose encodings were bound. -/
theorem servedRun_of_loops {hdr : RpcBlockHeader} {jsons : List Json} {i j k prev : ℕ}
    {bound : List (Bytes × JsonReceipt)} {envelopes : List ByteVec} {receipts : List JsonReceipt}
    (hloop : bindReceiptLoop hdr jsons i k prev = .ok bound)
    (henvelopes : bindEnvelopeLoop keccak256 ecrecover hdr (bound.map Prod.snd) envelopes j =
      .ok receipts)
    (hdecodes : ∀ e ∈ envelopes, ∃ tx, Decodes keccak256 ecrecover e.val tx) :
    ∃ cs, List.Forall₂ (fun (c : ConsensusReceipt) raw => c.Readable ∧
        encodeConsensusReceipt c = .ok raw) cs (bound.map Prod.fst) ∧
      ServedRun keccak256 ecrecover hdr i k prev cs envelopes receipts := by
  induction jsons generalizing i j k prev bound envelopes receipts with
  | nil =>
    obtain rfl := Except.ok.inj hloop
    obtain rfl := Except.ok.inj henvelopes
    exact ⟨[], .nil, rfl⟩
  | cons v jsons ih =>
    simp only [bindReceiptLoop, bind_eq_ok, mapError_eq_ok, pure_eq_ok, Except.ok.injEq] at hloop
    obtain ⟨parsed, hparsed, raw, hraw, tail, htail, rfl⟩ := hloop
    cases envelopes with
    | nil => cases henvelopes
    | cons e es =>
      simp only [List.map_cons, bindEnvelopeLoop, bind_eq_ok, pure_eq_ok, Except.ok.injEq]
        at henvelopes
      obtain ⟨r, hr, rs, hrs, rfl⟩ := henvelopes
      obtain ⟨-, rfl⟩ := bindEnvelope_eq_ok keccak256 ecrecover hr
      obtain ⟨⟨tx, htx⟩, hrest⟩ := List.forall_mem_cons.mp hdecodes
      obtain ⟨cs, hcs, hrun⟩ := ih htail hrs hrest
      obtain ⟨-, -, hreadable, -⟩ := readable_of_parse hparsed
      obtain ⟨m, hm, hserved⟩ := servedReceipt_of_parse hparsed htx hdr i k
        (parsed.consensus.cumulativeGasUsed - prev)
      exact ⟨parsed.consensus :: cs, .cons ⟨hreadable, hraw⟩ hcs, ⟨tx, m, htx, hm, hserved⟩, hrun⟩

/-! ## Two runs -/

/-- Two served receipts have the same decoded `status`, `cumulativeGasUsed`, `logsBloom` and `type`,
and the same members, logs included, at every derived key. -/
def SameReceipt (a b : JsonReceipt) : Prop :=
  ∃ m m' : Json.Fields, a.json = .object m ∧ b.json = .object m' ∧
    (∃ status, receiptStatus m = .ok status ∧ receiptStatus m' = .ok status) ∧
    (∃ gas, receiptCumulativeGasUsed m = .ok gas ∧ receiptCumulativeGasUsed m' = .ok gas) ∧
    (∃ bloom, receiptLogsBloom m = .ok bloom ∧ receiptLogsBloom m' = .ok bloom) ∧
    (∃ txType, receiptType m = .ok txType ∧ receiptType m' = .ok txType) ∧
    ∀ key ∈ derivedKeys, ∃ v, m.get? key = some v ∧ m'.get? key = some v

theorem sameReceipt_of_served {hdr : RpcBlockHeader} {i k gasUsed : ℕ} {c : ConsensusReceipt}
    {envelope : Bytes} {tx : EnvelopeFields} {a b : JsonReceipt} {m m' : Json.Fields}
    (ha : a.json = .object m) (hb : b.json = .object m')
    (h : ServedReceipt keccak256 hdr i k gasUsed c envelope tx m)
    (h' : ServedReceipt keccak256 hdr i k gasUsed c envelope tx m') : SameReceipt a b := by
  refine ⟨m, m', ha, hb, ⟨_, h.status, h'.status⟩, ⟨_, h.cumulativeGasUsed, h'.cumulativeGasUsed⟩,
    ⟨_, h.logsBloom, h'.logsBloom⟩, ⟨_, h.txType, h'.txType⟩, fun key hkey => ?_⟩
  have hmember : key ∈ (derivedMembers keccak256 hdr i k gasUsed c.logs envelope tx).map Prod.fst :=
    hkey
  obtain ⟨f, hf, rfl⟩ := List.mem_map.mp hmember
  exact ⟨f.2, h.derived f hf, h'.derived f hf⟩

/-- The receipts and the envelopes determine what a run serves. -/
theorem same_of_servedRun {hdr : RpcBlockHeader} {i k prev : ℕ} {cs : List ConsensusReceipt}
    {es : List ByteVec} {rs rs' : List JsonReceipt}
    (h : ServedRun keccak256 ecrecover hdr i k prev cs es rs)
    (h' : ServedRun keccak256 ecrecover hdr i k prev cs es rs') :
    List.Forall₂ SameReceipt rs rs' := by
  induction cs generalizing i k prev es rs rs' with
  | nil =>
    obtain rfl : rs = [] := h
    obtain rfl : rs' = [] := h'
    exact .nil
  | cons c cs ih =>
    cases es with
    | nil => exact False.elim h
    | cons e es =>
      cases rs with
      | nil => exact False.elim h
      | cons r rs =>
        cases rs' with
        | nil => exact False.elim h'
        | cons r' rs' =>
          obtain ⟨⟨tx, m, htx, hm, hserved⟩, hrest⟩ := h
          obtain ⟨⟨tx', m', htx', hm', hserved'⟩, hrest'⟩ := h'
          obtain rfl := Decodes.unique keccak256 ecrecover htx htx'
          exact .cons (sameReceipt_of_served hm hm' hserved hserved') (ih hrest hrest')

/-- One list of encodings comes from one list of receipts. -/
theorem consensus_unique {cs cs' : List ConsensusReceipt} {raws : List Bytes}
    (h : List.Forall₂ (fun (c : ConsensusReceipt) raw => c.Readable ∧
      encodeConsensusReceipt c = .ok raw) cs raws)
    (h' : List.Forall₂ (fun (c : ConsensusReceipt) raw => c.Readable ∧
      encodeConsensusReceipt c = .ok raw) cs' raws) : cs = cs' :=
  List.left_unique_forall₂'
    (fun _ _ _ hc hc' => consensus_eq_of_encode_eq hc.1 hc'.1 hc.2 hc'.2) h h'

/-! ## The claim of two upstreams -/

variable (keccak256 ecrecover)

/-- An upstream's answers for the header are bound as these receipts, with these envelopes served,
each of which can be read. -/
structure BoundAnswers (hdr : RpcBlockHeader) (up : BlockAnswers) (receipts : List JsonReceipt)
    (envelopes : List ByteVec) : Prop where
  bound : bindReceipts keccak256 ecrecover hdr up = .ok (.list receipts)
  served : bindTxEnvelopes keccak256 hdr up = .ok (some envelopes)
  decodes : ∀ e ∈ envelopes, ∃ tx, Decodes keccak256 ecrecover e.val tx

/-- The strings that are hashed when an upstream's answers are checked against the two roots. -/
def checkedStrings (hdr : RpcBlockHeader) (up : BlockAnswers) : List Bytes :=
  (match up.receipts with
    | .ok jsons =>
      match bindReceiptLoop hdr jsons 0 0 0 with
      | .ok bound => hashedStrings keccak256 (listTrie (bound.map Prod.fst))
      | .error _ => []
    | .error _ => []) ++
  match up.transactions with
    | .ok raws => hashedStrings keccak256 (listTrie (raws.map ByteVec.val))
    | .error _ => []

variable {keccak256 ecrecover}

theorem BoundAnswers.checked {hdr : RpcBlockHeader} {up : BlockAnswers}
    {receipts : List JsonReceipt} {envelopes : List ByteVec}
    (h : BoundAnswers keccak256 ecrecover hdr up receipts envelopes) :
    ∃ root txRoot jsons bound,
      decodeHexFixed 32 hdr.receiptsRoot = .ok root ∧
      decodeHexFixed 32 hdr.transactionsRoot = .ok txRoot ∧
      up.receipts = .ok jsons ∧ up.transactions = .ok envelopes ∧
      bindReceiptLoop hdr jsons 0 0 0 = .ok bound ∧
      verifyReceiptList keccak256 (bound.map Prod.fst) root = .ok () ∧
      envelopes.length ≤ maxOrderedTrieItems ∧
      orderedTrieRoot keccak256 (envelopes.map ByteVec.val) = txRoot ∧
      bindEnvelopeLoop keccak256 ecrecover hdr (bound.map Prod.snd) envelopes 0 = .ok receipts := by
  have hreceipts := h.bound
  simp only [bindReceipts, h.served, bind_eq_ok, mapError_eq_ok] at hreceipts
  obtain ⟨root, hroot, hreceipts⟩ := hreceipts
  split at hreceipts
  · cases hreceipts
  simp only [bind_eq_ok, mapError_eq_ok] at hreceipts
  obtain ⟨jsons, hjsons, hreceipts⟩ := hreceipts
  split at hreceipts
  · cases hreceipts
  simp only [bind_eq_ok, mapError_eq_ok, require_eq_ok, exists_const, Except.ok.injEq, pure_eq_ok,
    exists_eq_left', Receipts.list.injEq] at hreceipts
  obtain ⟨-, bound, hbound, _, hverify, items, hitems, rfl⟩ := hreceipts
  have henvelopes := h.served
  simp only [bindTxEnvelopes, bind_eq_ok, mapError_eq_ok] at henvelopes
  obtain ⟨txRoot, htxRoot, henvelopes⟩ := henvelopes
  split at henvelopes
  · cases henvelopes
  simp only [bind_eq_ok, mapError_eq_ok] at henvelopes
  obtain ⟨raws, hraws, henvelopes⟩ := henvelopes
  split at henvelopes
  · cases henvelopes
  simp only [bind_eq_ok, mapError_eq_ok, verifyTxList, require_eq_ok, exists_const, pure_eq_ok,
    Except.ok.injEq, Option.some.injEq, List.length_map] at henvelopes
  obtain ⟨-, ⟨hlength, htx, -⟩, rfl⟩ := henvelopes
  exact ⟨root, txRoot, jsons, bound, hroot, htxRoot, hjsons, hraws, hbound, hverify, hlength, htx,
    hitems⟩

theorem exists_byteVecs {raws : List Bytes} (h : ∀ raw ∈ raws, raw.length ≤ isizeMax) :
    ∃ vecs : List ByteVec, vecs.map ByteVec.val = raws := by
  induction raws with
  | nil => exact ⟨[], rfl⟩
  | cons raw raws ih =>
    obtain ⟨hraw, hrest⟩ := List.forall_mem_cons.mp h
    obtain ⟨vecs, rfl⟩ := ih hrest
    exact ⟨⟨raw, hraw⟩ :: vecs, rfl⟩

theorem byteVecs_of_readable {cs : List ConsensusReceipt} {raws : List Bytes}
    (h : List.Forall₂ (fun (c : ConsensusReceipt) raw => c.Readable ∧
      encodeConsensusReceipt c = .ok raw) cs raws) :
    ∃ vecs : List ByteVec, vecs.map ByteVec.val = raws := by
  refine exists_byteVecs fun raw hraw => ?_
  obtain ⟨c, -, hc⟩ := exists_of_forall₂_right h raw hraw
  exact length_encodeConsensusReceipt_le hc.1 hc.2

/-- Two upstreams whose receipts are bound to one header, with the envelopes served and readable,
serve the same receipts, or their answers exhibit a collision of the hash. -/
theorem bound_receipts_agree (keccak256 : Bytes → Hash)
    (hempty : keccak256 [0x80] = emptyTrieRoot)
    (ecrecover : Hash → Bytes → Except SealError Address) {hdr : RpcBlockHeader}
    {a b : BlockAnswers} {as bs : List JsonReceipt} {es fs : List ByteVec}
    (ha : BoundAnswers keccak256 ecrecover hdr a as es)
    (hb : BoundAnswers keccak256 ecrecover hdr b bs fs) :
    List.Forall₂ SameReceipt as bs ∨
      Collision keccak256 (checkedStrings keccak256 hdr a) (checkedStrings keccak256 hdr b) := by
  obtain ⟨root, txRoot, jsons, bound, hroot, htxRoot, hjsons, htxs, hbound, hverify, hlength, htx,
    hloop⟩ := ha.checked
  obtain ⟨root', txRoot', jsons', bound', hroot', htxRoot', hjsons', htxs', hbound', hverify',
    hlength', htx', hloop'⟩ := hb.checked
  obtain rfl := Except.ok.inj (hroot.symm.trans hroot')
  obtain rfl := Except.ok.inj (htxRoot.symm.trans htxRoot')
  obtain ⟨cs, hcs, hrun⟩ := servedRun_of_loops hbound hloop ha.decodes
  obtain ⟨cs', hcs', hrun'⟩ := servedRun_of_loops hbound' hloop' hb.decodes
  obtain ⟨vecs, hvecs⟩ := byteVecs_of_readable hcs
  obtain ⟨vecs', hvecs'⟩ := byteVecs_of_readable hcs'
  have hchecked : checkedStrings keccak256 hdr a =
      hashedStrings keccak256 (listTrie (vecs.map ByteVec.val)) ++
        hashedStrings keccak256 (listTrie (es.map ByteVec.val)) := by
    unfold checkedStrings
    rw [hjsons, htxs]
    simp only
    rw [hbound, hvecs]
  have hchecked' : checkedStrings keccak256 hdr b =
      hashedStrings keccak256 (listTrie (vecs'.map ByteVec.val)) ++
        hashedStrings keccak256 (listTrie (fs.map ByteVec.val)) := by
    unfold checkedStrings
    rw [hjsons', htxs']
    simp only
    rw [hbound', hvecs']
  rw [hchecked, hchecked']
  simp only [verifyReceiptList, bind_eq_ok, require_eq_ok, exists_const, ← hvecs, ← hvecs',
    List.length_map] at hverify hverify'
  -- the receipts
  rcases eq_or_collision_of_root_eq keccak256 hempty hverify.1 hverify'.1
    (hverify.2.trans hverify'.2.symm) with rfl | hcollision
  · -- the envelopes
    rcases eq_or_collision_of_root_eq keccak256 hempty hlength hlength' (htx.trans htx'.symm) with
      rfl | hcollision
    · left
      rw [← hvecs] at hcs
      rw [← hvecs'] at hcs'
      obtain rfl := consensus_unique hcs hcs'
      exact same_of_servedRun hrun hrun'
    · exact .inr (hcollision.mono keccak256 (fun x hx => List.mem_append_right _ hx)
        fun y hy => List.mem_append_right _ hy)
  · exact .inr (hcollision.mono keccak256 (fun x hx => List.mem_append_left _ hx)
      fun y hy => List.mem_append_left _ hy)

end

/-! ## A block with one transaction -/

/-- A signer for every signature. -/
def sampleRecover (_ : Hash) (_ : Bytes) : Except SealError Address := .ok (.repeated 20 7)

theorem decodes_sampleEnvelope : Decodes Types.keccak256 sampleRecover sampleEnvelope
    ⟨none, .fixed 0, 0, .repeated 20 7⟩ where
  recipient := by
    rw [txToAddress, txItems_sampleEnvelope, ok_bind]
    rfl
  price := by
    rw [txGasPrice, txItems_sampleEnvelope, ok_bind]
    rfl
  nonce := by
    rw [txNonce, txItems_sampleEnvelope, ok_bind]
    rfl
  sender := by
    obtain ⟨digest, sig, h⟩ := txSigningHash_sampleEnvelope Types.keccak256
    exact ⟨digest, sig, h, rfl⟩

theorem sampleTxRoot_ne_empty :
    orderedTrieRoot Types.keccak256 [sampleEnvelope] ≠ emptyTrieRoot := by
  rw [orderedTrieRoot_singleton, show Types.keccak256 = keccakRows from keccak256_eq_keccakRows]
  decide +kernel

/-- The header of the block. -/
def receiptSampleHeader : RpcBlockHeader :=
  headerWithRoots (orderedTrieRoot Types.keccak256 [sampleReceiptRaw])
    (orderedTrieRoot Types.keccak256 [sampleEnvelope])

/-- An upstream that serves the envelope and one receipt object. -/
def receiptSampleAnswers (v : Json) : BlockAnswers where
  receipts := .ok [v]
  transactions := .ok [⟨sampleEnvelope, by decide⟩]

section

variable {keccak256 : Bytes → Hash} {ecrecover : Hash → Bytes → Except SealError Address}
  {hdr : RpcBlockHeader} {up : BlockAnswers} {root : Hash}

theorem bindTxEnvelopes_singleton {envelope : ByteVec}
    (hroot : decodeHexFixed 32 hdr.transactionsRoot = .ok root) (hne : root ≠ emptyTrieRoot)
    (hanswer : up.transactions = .ok [envelope])
    (hverify : orderedTrieRoot keccak256 [envelope.val] = root) :
    bindTxEnvelopes keccak256 hdr up = .ok (some [envelope]) := by
  have hchecked : verifyTxList keccak256 [envelope.val] root = .ok [keccak256 envelope.val] := by
    unfold verifyTxList
    rw [require_of (by rw [List.length_singleton]; decide), ok_bind, require_of hverify]
    rfl
  unfold bindTxEnvelopes
  simp only [hroot, mapError_ok, ok_bind, hne, if_false, hanswer, List.isEmpty_cons,
    Bool.false_eq_true, List.map_singleton, hchecked, pure_eq_ok]

/-- A receipt that is not labelled with another transaction takes the hash of its envelope. -/
theorem bindEnvelope_isOk {item : JsonReceipt} {envelope : Bytes}
    (hlabel : ∀ claimed, item.txHash = some claimed → keccak256 envelope = claimed) (i : ℕ) :
    ∃ receipt, bindEnvelope keccak256 ecrecover hdr i item envelope = .ok receipt := by
  unfold bindEnvelope
  cases hclaimed : item.txHash with
  | none => exact ⟨_, rfl⟩
  | some claimed =>
    simp only
    rw [require_of (hlabel claimed hclaimed)]
    exact ⟨_, rfl⟩

theorem bindReceipts_singleton {v : Json} {parsed : ParsedReceipt} {raw : Bytes}
    {envelope : ByteVec} (hroot : decodeHexFixed 32 hdr.receiptsRoot = .ok root)
    (hne : root ≠ emptyTrieRoot) (hanswer : up.receipts = .ok [v])
    (hparsed : parseConsensusReceiptJson v = .ok parsed)
    (hraw : encodeConsensusReceipt parsed.consensus = .ok raw)
    (hverify : orderedTrieRoot keccak256 [raw] = root)
    (hserved : bindTxEnvelopes keccak256 hdr up = .ok (some [envelope]))
    (hlabel : ∀ claimed, parsed.txHash = some claimed → keccak256 envelope.val = claimed) :
    ∃ receipt, bindReceipts keccak256 ecrecover hdr up = .ok (.list [receipt]) := by
  obtain ⟨item, hitem, hloop⟩ : ∃ item : JsonReceipt, item.txHash = parsed.txHash ∧
      bindReceiptLoop hdr [v] 0 0 0 = .ok [(raw, item)] := by
    refine ⟨{ txHash := parsed.txHash
              logs := parsed.consensus.logs
              json := decorateReceiptJson v hdr 0 parsed.txHash parsed.consensus.logs 0
                (parsed.consensus.cumulativeGasUsed - 0) }, rfl, ?_⟩
    simp only [bindReceiptLoop, hparsed, hraw, mapError_ok, ok_bind, pure_eq_ok]
  obtain ⟨receipt, hreceipt⟩ : ∃ receipt,
      bindEnvelope keccak256 ecrecover hdr 0 item envelope.val = .ok receipt :=
    bindEnvelope_isOk (hitem ▸ hlabel) 0
  have hchecked : verifyReceiptList keccak256 [raw] root = .ok () := by
    unfold verifyReceiptList
    rw [require_of (by rw [List.length_singleton]; decide), ok_bind, require_of hverify]
  have hfew : [v].length ≤ maxOrderedTrieItems := by
    rw [List.length_singleton]
    decide
  refine ⟨receipt, ?_⟩
  unfold bindReceipts
  simp only [hroot, mapError_ok, ok_bind, hne, if_false, hanswer, List.isEmpty_cons,
    Bool.false_eq_true, require_of hfew, hloop, List.map_singleton, hchecked, hserved,
    bindEnvelopeLoop, hreceipt, pure_eq_ok]

end

theorem boundAnswers_sample {v : Json}
    (hv : parseConsensusReceiptJson v = .ok ⟨sampleReceipt, none⟩) :
    ∃ receipts, BoundAnswers Types.keccak256 sampleRecover receiptSampleHeader
      (receiptSampleAnswers v) receipts [⟨sampleEnvelope, by decide⟩] := by
  have htxText : receiptSampleHeader.transactionsRoot =
      hexPrefixed (orderedTrieRoot Types.keccak256 [sampleEnvelope]).val := rfl
  have htxRoot : decodeHexFixed 32 receiptSampleHeader.transactionsRoot =
      .ok (orderedTrieRoot Types.keccak256 [sampleEnvelope]) := by
    rw [htxText, decodeHexFixed_hexPrefixed]
  have htext : receiptSampleHeader.receiptsRoot =
      hexPrefixed (orderedTrieRoot Types.keccak256 [sampleReceiptRaw]).val := rfl
  have hroot : decodeHexFixed 32 receiptSampleHeader.receiptsRoot =
      .ok (orderedTrieRoot Types.keccak256 [sampleReceiptRaw]) := by
    rw [htext, decodeHexFixed_hexPrefixed]
  have hserved : bindTxEnvelopes Types.keccak256 receiptSampleHeader (receiptSampleAnswers v) =
      .ok (some [⟨sampleEnvelope, by decide⟩]) :=
    bindTxEnvelopes_singleton htxRoot sampleTxRoot_ne_empty rfl rfl
  have hbound : ∃ receipt, bindReceipts Types.keccak256 sampleRecover receiptSampleHeader
      (receiptSampleAnswers v) = .ok (.list [receipt]) :=
    bindReceipts_singleton hroot sampleRoot_ne_empty rfl hv encode_sampleReceipt rfl hserved nofun
  obtain ⟨receipt, hbound⟩ := hbound
  refine ⟨[receipt], hbound, hserved, fun e he => ?_⟩
  rw [List.mem_singleton.mp he]
  exact ⟨_, decodes_sampleEnvelope⟩

/-- The receipt object with a gas that is not the receipt's. -/
def forgedReceiptFields : Json.Fields := ("gasUsed", .string (hexQuantity 5)) :: sampleReceiptFields

theorem parse_forgedReceipt :
    parseConsensusReceiptJson (.object forgedReceiptFields) = .ok ⟨sampleReceipt, none⟩ := by
  have hkept : ∀ key : String, "gasUsed" ≠ key →
      forgedReceiptFields.get? key = sampleReceiptFields.get? key :=
    fun key hkey => Json.Fields.get?_cons_of_ne hkey _
  have hgas : bindOptionalQty (forgedReceiptFields.get? "gasUsed") "gasUsed" = .ok () := by
    have hfive := decodeU64_hexQuantity (n := 5) (Draft.small_lt_u64Size (by decide))
    have hget : forgedReceiptFields.get? "gasUsed" = some (.string (hexQuantity 5)) :=
      Json.Fields.get?_cons_self _ _ _
    rw [hget, bindOptionalQty, hfive]
    rfl
  rw [← parse_sampleReceipt, parseConsensusReceiptJson, parseConsensusReceiptJson]
  simp only [Json.asObject, receiptStatus, receiptCumulativeGasUsed, receiptLogsBloom, receiptType,
    receiptLogs, receiptTxHash, stringMember, hkept "status" (by decide),
    hkept "cumulativeGasUsed" (by decide), hkept "logsBloom" (by decide), hkept "type" (by decide),
    hkept "logs" (by decide), hkept "transactionHash" (by decide), hkept "from" (by decide),
    hkept "to" (by decide), hkept "contractAddress" (by decide),
    hkept "effectiveGasPrice" (by decide), hgas]
  rfl

/-- An upstream that forges the gas of its receipt serves what another serves, or the hash
collides. -/
theorem bound_receipts_agree_sample : ∃ as bs : List JsonReceipt,
    bindReceipts Types.keccak256 sampleRecover receiptSampleHeader
      (receiptSampleAnswers (.object sampleReceiptFields)) = .ok (.list as) ∧
    bindReceipts Types.keccak256 sampleRecover receiptSampleHeader
      (receiptSampleAnswers (.object forgedReceiptFields)) = .ok (.list bs) ∧
    (List.Forall₂ SameReceipt as bs ∨ Collision Types.keccak256
      (checkedStrings Types.keccak256 receiptSampleHeader
        (receiptSampleAnswers (.object sampleReceiptFields)))
      (checkedStrings Types.keccak256 receiptSampleHeader
        (receiptSampleAnswers (.object forgedReceiptFields)))) := by
  obtain ⟨as, ha⟩ := boundAnswers_sample parse_sampleReceipt
  obtain ⟨bs, hb⟩ := boundAnswers_sample parse_forgedReceipt
  have hempty : Types.keccak256 [0x80] = emptyTrieRoot := by
    rw [show Types.keccak256 = keccakRows from keccak256_eq_keccakRows]
    decide +kernel
  exact ⟨as, bs, ha.bound, hb.bound,
    bound_receipts_agree Types.keccak256 hempty sampleRecover ha hb⟩

end HeliosBsc
