import HeliosBsc.Node.Sync
import Mathlib.Data.List.DropRight

/-!
# The node

`bin/helios-bsc/src/rpc_server.rs`: a node keeps the verified chain and, in checkpoint mode, the
snapshot at its tip and some older snapshots to rewind to. `refresh_now` brings the chain to the tip
an upstream names and publishes the head that reads resolve to. The locks of the source make every
call one step. Clocks of a published view and the checkpoint file are left out.
-/

namespace HeliosBsc

/-- `FinalityMode`. -/
inductive FinalityMode where
  | confirmationDepth
  | fast
  deriving DecidableEq, Repr

/-- `FinalityView`. -/
structure FinalityView where
  head : ℕ
  available : Bool
  justified : Option (ℕ × Hash)
  finalized : Option (ℕ × Hash)
  readHead : Option SafeHead
  readHeadIsFast : Bool

/-- `FinalityView::default`. -/
def FinalityView.unset : FinalityView := ⟨0, false, none, none, none, false⟩

/-- `NO_BLOCK`. -/
def noBlock : ℕ := u64Size - 1

/-- The counters and gauges that `refresh_now` writes. -/
structure Metrics where
  headersVerified : ℕ
  headerVerifyFail : ℕ
  upstreamErrors : ℕ
  lastTip : ℕ
  lastSafe : ℕ
  lastJustified : ℕ
  lastFinalized : ℕ

/-- `AtomicU64::fetch_add`. -/
def fetchAdd (counter n : ℕ) : ℕ := (counter + n) % u64Size

/-- A completed recovery from a broken link, as the node reports it on its error stream. -/
inductive Recovery where
  | rewound (point : ℕ)
  | replayed (checkpoint : ℕ)
  deriving DecidableEq, Repr

/-- The block that a recovery has walked on from. -/
def Recovery.base : Recovery → ℕ
  | rewound point => point
  | replayed checkpoint => checkpoint

/-- `Node`. -/
structure Node where
  lookback : ℕ
  maxSync : ℕ
  origin : Option Checkpoint
  finalityMode : FinalityMode
  chain : List VerifiedBlock
  snapshot : Option Snapshot
  /-- Oldest first. -/
  rollbacks : List Snapshot
  finality : FinalityView
  metrics : Metrics
  /-- The recoveries completed so far, oldest first. -/
  recoveries : List Recovery

/-- What an upstream answers during one call. The requests of each kind are numbered. -/
structure Upstream where
  blockNumber : Except Report ℕ
  headerByNumber : HeaderByNumber
  headersRange : ℕ → HeadersRange

/-- `ROLLBACK_EVERY`. -/
def rollbackEvery : ℕ := 16

/-- `ROLLBACK_KEEP`. -/
def rollbackKeep : ℕ := 16

/-- `Snapshot::fast_finality_available`. -/
def Snapshot.fastFinalityAvailable (s : Snapshot) : Bool := !s.voteSet.isEmpty

namespace Node

/-- `Node::from_parts_with_snapshot`. -/
def fromPartsWithSnapshot (lookback : ℕ) (chain : List VerifiedBlock) (snapshot : Snapshot) :
    Node where
  lookback := lookback
  maxSync := lookback
  origin := none
  finalityMode := .confirmationDepth
  chain := chain
  snapshot := some snapshot
  rollbacks := [snapshot]
  finality := .unset
  metrics := ⟨0, 0, 0, noBlock, noBlock, noBlock, noBlock⟩
  recoveries := []

/-- `Node::set_finality_mode`. -/
def setFinalityMode (node : Node) (mode : FinalityMode) : Node := { node with finalityMode := mode }

/-- `Node::read_head`. -/
def readHead (node : Node) (confSafe : SafeHead) : SafeHead :=
  if node.finalityMode = .fast then fastFinalityHead node.chain node.snapshot confSafe else confSafe

/-- The node on another chain. -/
def withSynced (node : Node) (st : Synced) : Node :=
  { node with chain := st.chain, snapshot := some st.snapshot }

/-! ## Rollback points -/

/-- `Node::record_rollback`, on the retained points. -/
def recordRollback (rollbacks : List Snapshot) (snapshot : Snapshot) (chainFloor : ℕ) :
    List Snapshot :=
  let kept := rollbacks.dropWhile fun p => decide (p.number < chainFloor)
  let due := match kept.getLast? with
    | some newest => decide (satAdd newest.number rollbackEvery ≤ snapshot.number)
    | none => true
  if due then
    let pushed := kept ++ [snapshot]
    pushed.drop (pushed.length - rollbackKeep)
  else kept

/-- How the loop over the retained points ends, if it does not stop at an error. -/
inductive Attempt where
  | rewound (point : Snapshot) (st : Synced)
  | exhausted (tried : ℕ)

section

variable (P : Primitives)

/-- The loop of `recover_from_link_break` over the retained points, newest first. A point is tried
when the chain still holds its block. -/
def tryPoints (headersRange : ℕ → HeadersRange) (chain : List VerifiedBlock) (tip : ℕ) :
    ℕ → List Snapshot → Except Report Attempt
  | tried, [] => .ok (.exhausted tried)
  | tried, point :: older =>
    if point.number < firstNumber chain ∨ tip < point.number then
      tryPoints headersRange chain tip tried older
    else
      let candidate := chain.takeWhile fun b => decide (b.number ≤ point.number)
      if candidate.getLast?.map VerifiedBlock.number ≠ some point.number then
        tryPoints headersRange chain tip tried older
      else
        match appendSynced P (headersRange (tried + 1)) ⟨candidate, point⟩ tip with
        | (.ok (), st) => .ok (.rewound point st)
        | (.error again, _) =>
          if isLinkErr again then tryPoints headersRange chain tip (tried + 1) older
          else .error again

/-- `Node::recover_from_link_break`. -/
def recoverFromLinkBreak (node : Node) (up : Upstream) (tip : ℕ) (err : Report) :
    Except Report Unit × Node :=
  match tryPoints P up.headersRange node.chain tip 0 node.rollbacks.reverse with
  | .error e => (.error e, node)
  | .ok (.rewound point st) =>
    (.ok (), { node.withSynced st with
      rollbacks := node.rollbacks.rdropWhile fun s => decide (point.number < s.number)
      recoveries := node.recoveries ++ [.rewound point.number] })
  | .ok (.exhausted tried) =>
    match node.origin with
    | none =>
      (.error ((s!"reorg recovery: {tried} rollback point(s) tried and none was on the canonical " ++
        "chain, and this process booted without a --checkpoint to replay from") :: err), node)
    | some cp =>
      match walkFromCheckpoint P up.headerByNumber (up.headersRange (tried + 1)) cp tip
          node.maxSync with
      | .error replay =>
        let causes := ": ".intercalate replay
        let span := satMul rollbackEvery rollbackKeep
        (.error [s!"reorg recovery failed: {causes}. {tried} rollback point(s) covering up to " ++
          s!"{span} blocks were tried first and none was on the canonical chain. The fallback " ++
          s!"replays from the checkpoint this process booted from ({cp.number}), now " ++
          s!"{tip - cp.number} blocks behind the tip; nothing recovers that in place. Write a " ++
          "fresh checkpoint and restart."], node)
      | .ok st =>
        (.ok (), { node.withSynced st with
          rollbacks := []
          recoveries := node.recoveries ++ [.replayed cp.number] })

/-! ## One sync -/

/-- The append of `resync_locked` in checkpoint mode, with the recovery from a broken link. A failed
append leaves what it has appended. -/
def appendOrRecover (node : Node) (s : Snapshot) (up : Upstream) (tip : ℕ) :
    Except Report Unit × Node :=
  match appendSynced P (up.headersRange 0) ⟨node.chain, s⟩ tip with
  | (.ok (), st) => (.ok (), node.withSynced st)
  | (.error e, st) =>
    if isLinkErr e then (node.withSynced st).recoverFromLinkBreak P up tip e
    else (.error e, node.withSynced st)

/-- The last step of `resync_locked` in checkpoint mode. -/
def retain (node : Node) : Node :=
  match node.snapshot with
  | some s => { node with rollbacks := recordRollback node.rollbacks s (firstNumber node.chain) }
  | none => node

/-- What `resync_locked` returns. -/
structure Resynced where
  head : SafeHead
  confSafe : SafeHead
  verifiedThis : ℕ
  grew : Bool

/-- The part of `resync_locked` that moves the chain: the number of new headers, and whether the
chain has grown. -/
def moveChain (node : Node) (up : Upstream) (tip : ℕ) : Except Report (ℕ × Bool) × Node :=
  let last := lastNumber node.chain
  match node.snapshot with
  | some s =>
    if satAdd last node.maxSync < tip then
      (.error [s!"tip jumped {tip - last} blocks; pass a fresh --checkpoint " ++
        s!"(max-sync {node.maxSync})"], node)
    else
      match node.appendOrRecover P s up tip with
      | (.error e, node') => (.error e, node')
      | (.ok (), node') =>
        let newLast := lastNumber node'.chain
        (.ok (newLast - last, decide (last < newLast)), node'.retain)
  | none =>
    match resyncLookback P up.headersRange node.chain node.lookback tip with
    | .error e => (.error e, node)
    | .ok (chain, verified) => (.ok (verified, false), { node with chain := chain })

/-- `Node::resync_locked`. -/
def resyncLocked (node : Node) (up : Upstream) (tip : ℕ) : Except Report Resynced × Node :=
  match node.moveChain P up tip with
  | (.error e, node') => (.error e, node')
  | (.ok (verifiedThis, grew), node') =>
    match safeOf node'.chain with
    | .error e => (.error e, node')
    | .ok confSafe => (.ok ⟨node'.readHead confSafe, confSafe, verifiedThis, grew⟩, node')

/-- The view that `refresh_now` publishes. -/
def publishedView (node : Node) (head : ℕ) (r : Resynced) : FinalityView where
  head := head
  available := (node.snapshot.map Snapshot.fastFinalityAvailable).getD false
  justified := node.snapshot.bind Snapshot.justified
  finalized := node.snapshot.bind Snapshot.finalized
  readHead := some r.head
  readHeadIsFast := decide (r.head.number ≠ r.confSafe.number)

/-- `Node::refresh_now`. -/
def refreshNow (node : Node) (up : Upstream) : Except Report (ℕ × SafeHead) × Node :=
  match up.blockNumber with
  | .error e =>
    (.error e, { node with
      metrics := { node.metrics with upstreamErrors := fetchAdd node.metrics.upstreamErrors 1 } })
  | .ok tip =>
    match node.resyncLocked P up tip with
    | (.error e, node') =>
      (.error e, { node' with
        metrics :=
          { node'.metrics with headerVerifyFail := fetchAdd node'.metrics.headerVerifyFail 1 } })
    | (.ok r, node') =>
      let head := (node'.chain.getLast?.map VerifiedBlock.number).getD tip
      let view := node'.publishedView head r
      (.ok (head, r.head), { node' with
        finality := view
        metrics := { node'.metrics with
          headersVerified := fetchAdd node'.metrics.headersVerified r.verifiedThis
          lastTip := head
          lastSafe := r.confSafe.number
          lastJustified := (view.justified.map Prod.fst).getD noBlock
          lastFinalized := (view.finalized.map Prod.fst).getD noBlock } })

/-! ## The start from a checkpoint -/

/-- A round of the wait for a first Safe head: what the upstream answers in it. -/
structure WaitRound where
  blockNumber : Except Report ℕ
  headersRange : HeadersRange

/-- The wait of `bootstrap_from_checkpoint`, over the rounds that begin before the deadline. -/
def waitForSafe : Synced → List WaitRound → Except Report (Synced × SafeHead)
  | st, rounds =>
    match safeOf st.chain with
    | .ok safe => .ok (st, safe)
    | .error e =>
      match rounds with
      | [] =>
        .error (("no confirmation-depth head after 180s — the checkpoint is too close to the " ++
          "tip for its sealing set to have produced enough distinct sealers") :: e)
      | round :: rest => do
        let newer ← round.blockNumber
        match appendSynced P round.headersRange st newer with
        | (.error e, _) => .error e
        | (.ok (), st') => waitForSafe st' rest

/-- `Node::bootstrap_from_checkpoint`. -/
def bootstrapFromCheckpoint (up : Upstream) (rounds : List WaitRound) (lookback maxSync : ℕ)
    (checkpoint : Checkpoint) : Except Report Node := do
  let tip ← up.blockNumber
  let walked ← walkFromCheckpoint P up.headerByNumber (up.headersRange 0) checkpoint tip maxSync
  let (st, safe) ← waitForSafe P walked rounds
  return {
    lookback := lookback
    maxSync := maxSync
    origin := some checkpoint
    finalityMode := .confirmationDepth
    chain := st.chain
    snapshot := some st.snapshot
    rollbacks := [st.snapshot]
    finality := .unset
    metrics := {
      headersVerified := st.chain.length
      headerVerifyFail := 0
      upstreamErrors := 0
      lastTip := tip
      lastSafe := safe.number
      lastJustified := (st.snapshot.justified.map Prod.fst).getD noBlock
      lastFinalized := (st.snapshot.finalized.map Prod.fst).getD noBlock }
    recoveries := [] }

end

end Node

end HeliosBsc
