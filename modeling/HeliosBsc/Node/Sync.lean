import HeliosBsc.Consensus.Engine

/-!
# The header walk

`bin/helios-bsc/src/sync.rs`: how headers of an untrusted upstream extend the chain. An upstream
answers as it likes, so its answers are arguments; a header comes with the clock at the moment it is
checked. An `anyhow` error is the list of the texts of its chain, outermost first.
-/

namespace HeliosBsc

open Checked

/-- The texts of an `anyhow` error, outermost first. -/
abbrev Report := List String

/-- `with_context`. -/
def withContext {α : Type} (text : String) (r : Except Report α) : Except Report α :=
  r.mapError (text :: ·)

/-- A header as an upstream answers it, and the clock when it is checked. -/
abbrev TimedHeader := RpcBlockHeader × ℕ

/-- The answers of an upstream to `headers_range(from, to)`. -/
abbrev HeadersRange := ℕ → ℕ → Except Report (List TimedHeader)

/-! ## Without a snapshot -/

/-- `link_ok`. -/
def linkOk (prev : VerifiedBlock) (parent : Hash) (number : ℕ) : Except Report Unit := do
  let want := wrapSucc prev.number
  require (number = want) [s!"non-consecutive header {number} after {want}"]
  require (parent = prev.hash) [s!"parent_hash mismatch at {number}"]

section

variable (P : Primitives)

/-- The cascading check of a header against a parent's time and gas limit. -/
def cascading (milli gasLimit : ℕ) (header : RpcBlockHeader) : Except Report Unit :=
  withContext s!"cascading {header.number}"
    ((verifyCascadingVsParent milli gasLimit header).mapError fun e => [e.message])

/-- The cascading check of `verify_header_chain_from`: against the header before, else against the
last accepted block. -/
def cascadingFrom (parentHeader : Option RpcBlockHeader) (prev : Option VerifiedBlock)
    (header : RpcBlockHeader) : Except Report Unit :=
  match parentHeader, prev with
  | some ph, _ => do
    let milli ← (milliTimestamp ph).mapError fun e => [e.message]
    let gas ← (decodeU64 ph.gasLimit).mapError fun e => [e.message]
    cascading milli gas header
  | none, some p => cascading p.milliTimestamp p.gasLimit header
  | none, none => .ok ()

/-- The block of a header whose signer is known. -/
def blockOfHeader (header : RpcBlockHeader) (miner : Address) : Except Report VerifiedBlock := do
  let number ← (decodeU64 header.number).mapError fun e => [e.message]
  let hash ← (decodeHexFixed 32 header.hash).mapError fun e => [e.message]
  let stateRoot ← (decodeHexFixed 32 header.stateRoot).mapError fun e => [e.message]
  let milliTimestamp ← (milliTimestamp header).mapError fun e => [e.message]
  let gasLimit ← (decodeU64 header.gasLimit).mapError fun e => [e.message]
  return { number, hash, stateRoot, miner, milliTimestamp, gasLimit, header := some header }

/-- The link check of `verify_header_chain_from`. -/
def linkFrom (prev : Option VerifiedBlock) (parent : Hash) (number : ℕ) : Except Report Unit :=
  match prev with
  | some p => linkOk p parent number
  | none => .ok ()

/-- The loop of `verify_header_chain_from`. -/
def verifyHeaderChainLoop (prev : Option VerifiedBlock) :
    Option RpcBlockHeader → List VerifiedBlock → List TimedHeader →
      Except Report (List VerifiedBlock)
  | _, chain, [] => .ok chain
  | parentHeader, chain, (header, now) :: rest => do
    let signer ← withContext s!"seal {header.number}"
      ((verifySealCoinbase P header now).mapError fun e => [e.message])
    let number ← (decodeU64 header.number).mapError fun e => [e.message]
    let _ ← (decodeHexFixed 32 header.hash).mapError fun e => [e.message]
    let parent ← (decodeHexFixed 32 header.parentHash).mapError fun e => [e.message]
    linkFrom (chain.getLast?.or prev) parent number
    cascadingFrom parentHeader prev header
    let block ← blockOfHeader header signer
    verifyHeaderChainLoop prev (some header) (chain ++ [block]) rest

/-- `verify_header_chain_from`. -/
def verifyHeaderChainFrom (headers : List TimedHeader) (prev : Option VerifiedBlock) :
    Except Report (List VerifiedBlock) :=
  verifyHeaderChainLoop P prev none [] headers

/-- `walk_headers`. -/
def walkHeaders (headersRange : HeadersRange) (fromBlock toBlock : ℕ) :
    Except Report (List VerifiedBlock) := do
  let headers ← headersRange fromBlock toBlock
  verifyHeaderChainFrom P headers none

/-! ## With a snapshot -/

/-- The chain and the snapshot at its tip. -/
structure Synced where
  chain : List VerifiedBlock
  snapshot : Snapshot

/-- The checks of `append_new_with_snapshot` that come before the snapshot moves: the block to push,
with an empty miner. -/
def blockBefore (chain : List VerifiedBlock) (header : RpcBlockHeader) :
    Except Report VerifiedBlock := do
  match chain.getLast? with
  | some prev => cascading prev.milliTimestamp prev.gasLimit header
  | none => pure ()
  blockOfHeader header (.repeated 20 0)

/-- One round of the loop of `append_new_with_snapshot`. -/
def appendHeader (st : Synced) (call : TimedHeader) : Except Report Unit × Synced :=
  match blockBefore st.chain call.1 with
  | .error e => (.error e, st)
  | .ok block =>
    match st.snapshot.applyHeader P call.1 call.2 with
    | (.error e, s) =>
      (.error [s!"snapshot {call.1.number}", e.message], { st with snapshot := s })
    | (.ok signer, s) =>
      (.ok (), { chain := st.chain ++ [{ block with miner := signer }], snapshot := s })

/-- The loop of `append_new_with_snapshot`, which stops at the first error. -/
def appendHeaders : Synced → List TimedHeader → Except Report Unit × Synced
  | st, [] => (.ok (), st)
  | st, call :: rest =>
    match appendHeader P st call with
    | (.error e, st') => (.error e, st')
    | (.ok (), st') => appendHeaders st' rest

/-- `append_new_with_snapshot` with a snapshot. The chain is trimmed only after the whole loop. -/
def appendSynced (headersRange : HeadersRange) (st : Synced) (newTip : ℕ) :
    Except Report Unit × Synced :=
  let last := (st.chain.getLast?.map VerifiedBlock.number).getD 0
  if newTip ≤ last then (.ok (), st)
  else
    match headersRange (last + 1) newTip with
    | .error e => (.error e, st)
    | .ok headers =>
      match appendHeaders P st headers with
      | (.error e, st') => (.error e, st')
      | (.ok (), st') => (.ok (), { st' with chain := trimChain st'.chain })

/-- `append_new_with_snapshot` without a snapshot. -/
def appendUnsynced (headersRange : HeadersRange) (chain : List VerifiedBlock) (newTip : ℕ) :
    Except Report (List VerifiedBlock) := do
  let last := (chain.getLast?.map VerifiedBlock.number).getD 0
  if newTip ≤ last then return chain
  else
    let headers ← headersRange (last + 1) newTip
    let extra ← verifyHeaderChainFrom P headers chain.getLast?
    return trimChain (chain ++ extra)

end

/-! ## Forks -/

/-- `LINK_ERR_PHRASES`. -/
def linkErrPhrases : List String :=
  ["parent_hash mismatch", "non-consecutive header", "parent hash mismatch",
    "does not follow parent"]

/-- `str::contains`. -/
def containsText (text phrase : String) : Bool :=
  text.toList.tails.any fun t => phrase.toList.isPrefixOf t

/-- `to_ascii_lowercase`. -/
def asciiLowercase (text : String) : String := String.ofList (text.toList.map Char.toLower)

/-- `is_link_err`. -/
def isLinkErr (err : Report) : Bool :=
  err.any fun cause => linkErrPhrases.any fun p => containsText (asciiLowercase cause) p

/-- The number of the last block, `0` of an empty chain. -/
def lastNumber (chain : List VerifiedBlock) : ℕ := (chain.getLast?.map VerifiedBlock.number).getD 0

/-- The number of the first block, `0` of an empty chain. -/
def firstNumber (chain : List VerifiedBlock) : ℕ := (chain.head?.map VerifiedBlock.number).getD 0

/-- `reorg_within_depth`. -/
def reorgWithinDepth (old new : List VerifiedBlock) (depth : ℕ) : Bool :=
  if old = [] ∨ new = [] then true
  else
    let minN := lastNumber old - depth
    (old.reverse.takeWhile fun b => decide (minN ≤ b.number)).any fun b =>
      new.any fun n => decide (n.hash = b.hash ∧ n.number = b.number)

/-- `accept_lookback_resync`. -/
def acceptLookbackResync (old new : List VerifiedBlock) : Except Report (List VerifiedBlock) :=
  if reorgWithinDepth old new maxReorgDepth then .ok new
  else .error [s!"reorg deeper than {maxReorgDepth} blocks — fail-closed (pass --checkpoint)"]

/-! ## The head that reads resolve to -/

/-- `safe_of`. -/
def safeOf (chain : List VerifiedBlock) : Except Report SafeHead :=
  match newestSafe chain mainnetNSeal with
  | some safe => .ok safe
  | none => .error ["no Safe head in lookback"]

/-- `fast_finality_head`. -/
def fastFinalityHead (chain : List VerifiedBlock) (snapshot : Option Snapshot)
    (confSafe : SafeHead) : SafeHead :=
  match snapshot.bind Snapshot.finalized with
  | none => confSafe
  | some (number, hash) =>
    if number ≤ confSafe.number then confSafe
    else
      match chain.find? fun b => decide (b.number = number ∧ b.hash = hash) with
      | none => confSafe
      | some block =>
        { number := block.number
          hash := hexPrefixed block.hash.val
          stateRoot := hexPrefixed block.stateRoot.val
          distinctSealers := confSafe.distinctSealers
          requiredSealers := confSafe.requiredSealers }

/-! ## Catching up -/

section

variable (P : Primitives)

/-- The walk of the newest `lookback` headers, which replaces the chain. -/
def walkLookback (headersRange : HeadersRange) (lookback tip : ℕ) :
    Except Report (List VerifiedBlock) :=
  walkHeaders P headersRange (tip - (lookback - 1)) tip

/-- The three ways a chain without a snapshot reaches the tip: a new walk after a jump, an append,
and after a broken link a new walk that has to meet the old chain. The requests of one call are
answered one by one, so the answers carry the number of the request. The second component counts
the headers of the walk. -/
def resyncLookback (headersRange : ℕ → HeadersRange) (chain : List VerifiedBlock)
    (lookback tip : ℕ) : Except Report (List VerifiedBlock × ℕ) :=
  if satAdd (lastNumber chain) lookback < tip ∨ chain.length < 16 then do
    let walked ← walkLookback P (headersRange 0) lookback tip
    return (walked, walked.length)
  else
    match appendUnsynced P (headersRange 0) chain tip with
    | .ok chain' => .ok (chain', lastNumber chain' - lastNumber chain)
    | .error e =>
      if isLinkErr e then do
        let walked ← walkLookback P (headersRange 1) lookback tip
        let accepted ← acceptLookbackResync chain walked
        return (accepted, accepted.length)
      else .error e

/-- `catch_up`: the tip, the chain and the snapshot. -/
def catchUp (blockNumber : Except Report ℕ) (headersRange : ℕ → HeadersRange)
    (chain : List VerifiedBlock) (lookback maxSync : ℕ) (snapshot : Option Snapshot) :
    Except Report ℕ × List VerifiedBlock × Option Snapshot :=
  match withContext "eth_blockNumber catch-up" blockNumber with
  | .error e => (.error e, chain, snapshot)
  | .ok tip =>
    match snapshot with
    | some s =>
      if satAdd (lastNumber chain) maxSync < tip then
        (.error [s!"tip jumped {tip - lastNumber chain} blocks during walk; " ++
          s!"pass a fresh --checkpoint (max-sync {maxSync})"], chain, snapshot)
      else
        match appendSynced P (headersRange 0) ⟨chain, s⟩ tip with
        | (.error e, st) => (.error e, st.chain, some st.snapshot)
        | (.ok (), st) => (.ok tip, st.chain, some st.snapshot)
    | none =>
      match resyncLookback P headersRange chain lookback tip with
      | .error e => (.error e, chain, none)
      | .ok (chain', _) => (.ok tip, chain', none)

/-! ## From a checkpoint -/

/-- The answers to `header_by_number`, with the number of the request within the call. -/
abbrev HeaderByNumber := ℕ → ℕ → Except Report TimedHeader

/-- `seed_epoch_state`. -/
def seedEpochState (headerByNumber : HeaderByNumber) (snapshot : Snapshot)
    (checkpointNumber : ℕ) : Except Report Snapshot :=
  let epochLength := snapshot.epochLength
  let epochBlock := checkpointNumber / epochLength * epochLength
  if epochLength = 0 ∨ epochBlock < epochLength then .ok snapshot
  else do
    let prevBlock := epochBlock - epochLength
    let epochHeader ← withContext s!"epoch header {epochBlock} (checkpoint turnLength)"
      (headerByNumber 1 epochBlock)
    let prevHeader ← withContext s!"epoch header {prevBlock} (checkpoint turnLength)"
      (headerByNumber 2 prevBlock)
    let seed ← (epochSeedAt checkpointNumber epochLength epochHeader.1 prevHeader.1).mapError
      fun e => [e.message]
    match seed with
    | .active _ turnLength => (snapshot.seedTurnLength turnLength).mapError fun e => [e.message]
    | .pendingActivation epochBlock activateAt =>
      .error [s!"checkpoint {checkpointNumber} sits inside epoch {epochBlock}'s activation " ++
        s!"window — the sealing set announced at {epochBlock} takes effect at {activateAt}, " ++
        s!"which this client would miss. Use a checkpoint at block {epochBlock - 1} " ++
        s!"or at or above {activateAt}."]

/-- The seeding of `walk_from_checkpoint_inturn`, left out where the turns are not enforced. -/
def seedEnforced (headerByNumber : HeaderByNumber) (snapshot : Snapshot)
    (checkpointNumber : ℕ) : Except Report Snapshot :=
  if snapshot.enforceInturn then seedEpochState headerByNumber snapshot checkpointNumber
  else .ok snapshot

/-- `walk_from_checkpoint_inturn`. -/
def walkFromCheckpointInturn (headerByNumber : HeaderByNumber) (headersRange : HeadersRange)
    (checkpoint : Checkpoint) (toBlock maxSync : ℕ) (enforceInturn : Bool) :
    Except Report Synced := do
  let lag := toBlock - checkpoint.number
  require (lag ≤ maxSync)
    [s!"checkpoint is {lag} blocks behind tip (limit {maxSync}) — fail-closed (fresher checkpoint)"]
  let header ← headerByNumber 0 checkpoint.number
  let engine ← (LightEngine.fromCheckpointAndHeader P checkpoint header.1 header.2).mapError
    fun e => [e.message]
  let snapshot := { engine.snapshot with enforceInturn := enforceInturn }
  let seeded ← seedEnforced headerByNumber snapshot checkpoint.number
  let engine := { engine with snapshot := seeded }
  if engine.tipNumber < toBlock then do
    let headers ← headersRange (engine.tipNumber + 1) toBlock
    match engine.applyHeaders P headers with
    | (.error e, _) => .error [e.message]
    | (.ok (), engine) => .ok ⟨engine.chain, engine.snapshot⟩
  else .ok ⟨engine.chain, engine.snapshot⟩

/-- `walk_from_checkpoint`. -/
def walkFromCheckpoint (headerByNumber : HeaderByNumber) (headersRange : HeadersRange)
    (checkpoint : Checkpoint) (toBlock maxSync : ℕ) : Except Report Synced :=
  walkFromCheckpointInturn P headerByNumber headersRange checkpoint toBlock maxSync true

end

end HeliosBsc
