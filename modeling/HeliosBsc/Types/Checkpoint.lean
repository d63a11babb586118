import HeliosBsc.Types.Bytes

/-!
# Headers and checkpoints

`types/src/rpc_header.rs` and `types/src/lib.rs`: the header as a JSON-RPC answer carries it
(hexadecimal strings), the trusted checkpoint with its own validity check, and the Safe head.
-/

namespace HeliosBsc

open Checked

/-- `BSC_MAINNET_CHAIN_ID`. -/
def bscMainnetChainId : ℕ := 56

/-- `RpcBlockHeader`. -/
structure RpcBlockHeader where
  hash : String
  parentHash : String
  sha3Uncles : String
  miner : String
  stateRoot : String
  transactionsRoot : String
  receiptsRoot : String
  logsBloom : String
  difficulty : String
  number : String
  gasLimit : String
  gasUsed : String
  timestamp : String
  extraData : String
  mixHash : String
  nonce : String
  baseFeePerGas : Option String
  withdrawalsRoot : Option String
  blobGasUsed : Option String
  excessBlobGas : Option String
  parentBeaconBlockRoot : Option String
  requestsHash : Option String
  deriving DecidableEq, Repr

/-- `Checkpoint`. -/
structure Checkpoint where
  chainId : ℕ
  number : ℕ
  hash : String
  parentHash : String
  stateRoot : String
  timestamp : ℕ
  forkId : String
  sealingSet : List String
  voteKeys : Option (List String)
  attestation : Option String
  deriving DecidableEq, Repr

/-- The two loops of `validate_basic` over hexadecimal arrays: each is decoded and looked up among
the ones seen before. -/
def checkDistinct (n : ℕ) (bad duplicate : TypesError) :
    List String → List (FixedBytes n) → Except TypesError Unit
  | [], _ => .ok ()
  | a :: rest, seen => do
    let x ← (decodeHexFixed n a).mapError fun _ => bad
    require (x ∉ seen) duplicate
    checkDistinct n bad duplicate rest (x :: seen)

/-- `Checkpoint::validate_basic`. -/
def Checkpoint.validateBasic (cp : Checkpoint) : Except TypesError Unit := do
  require (cp.chainId = bscMainnetChainId) (.unsupportedChainId cp.chainId)
  require (cp.sealingSet ≠ []) .emptySealingSet
  checkDistinct 20 .badSealingAddress .duplicateSealingAddress cp.sealingSet []
  let _ ← (decodeHexFixed 32 cp.hash).mapError fun _ => .badCheckpointHash "hash"
  let _ ← (decodeHexFixed 32 cp.parentHash).mapError fun _ => .badCheckpointHash "parentHash"
  let _ ← (decodeHexFixed 32 cp.stateRoot).mapError fun _ => .badCheckpointHash "stateRoot"
  match cp.voteKeys with
  | none => return ()
  | some keys => do
    require (keys.length = cp.sealingSet.length)
      (.voteKeyCountMismatch keys.length cp.sealingSet.length)
    checkDistinct 48 .badVoteKey .duplicateVoteKey keys []

/-- `Checkpoint::with_vote_keys`. -/
def Checkpoint.withVoteKeys (cp : Checkpoint) (keys : List String) : Checkpoint :=
  { cp with voteKeys := some keys }

/-- `Checkpoint::from_rpc_header`. -/
def Checkpoint.fromRpcHeader (header : RpcBlockHeader) (sealingSet : List String)
    (forkId : String) (attestation : Option String) : Except TypesError Checkpoint := do
  let number ← decodeU64 header.number
  let timestamp ← decodeU64 header.timestamp
  return {
    chainId := bscMainnetChainId
    number := number
    hash := header.hash
    parentHash := header.parentHash
    stateRoot := header.stateRoot
    timestamp := timestamp
    forkId := forkId
    sealingSet := sealingSet
    voteKeys := none
    attestation := attestation }

/-- `SafeHead`. -/
structure SafeHead where
  number : ℕ
  hash : String
  stateRoot : String
  distinctSealers : ℕ
  requiredSealers : ℕ
  deriving DecidableEq, Repr

/-- `min_distinct_sealers`. -/
def minDistinctSealers (nSeal : ℕ) : ℕ := if nSeal = 0 then 0 else 2 * nSeal / 3 + 1

/-! ## What the distinctness loop accepts -/

/-- The loop passes on arrays written out in full exactly when they are distinct and new. -/
theorem checkDistinct_hexPrefixed {n : ℕ} {bad duplicate : TypesError} {l seen : List (FixedBytes n)} :
    checkDistinct n bad duplicate (l.map fun a => hexPrefixed a.val) seen = .ok () ↔
      l.Nodup ∧ ∀ a ∈ l, a ∉ seen := by
  induction l generalizing seen with
  | nil => simp [checkDistinct]
  | cons a l ih =>
    rw [List.map_cons, checkDistinct, decodeHexFixed_hexPrefixed]
    simp only [mapError_ok, ok_bind, bind_eq_ok, require_eq_ok, ih, List.nodup_cons,
      List.mem_cons, exists_const]
    constructor
    · rintro ⟨ha, hl, hnew⟩
      refine ⟨⟨fun hmem => hnew a hmem (.inl rfl), hl⟩, ?_⟩
      rintro b (rfl | hb)
      · exact ha
      · exact fun hs => hnew b hb (.inr hs)
    · rintro ⟨⟨ha, hl⟩, hnew⟩
      refine ⟨hnew a (.inl rfl), hl, fun b hb => ?_⟩
      rintro (rfl | hs)
      · exact ha hb
      · exact hnew b (.inr hb) hs

theorem exists_of_checkDistinct {n : ℕ} {bad duplicate : TypesError} {l : List String}
    {seen : List (FixedBytes n)} (h : checkDistinct n bad duplicate l seen = .ok ()) :
    ∃ xs : List (FixedBytes n), l.mapM (decodeHexFixed n) = .ok xs ∧ xs.Nodup ∧
      ∀ x ∈ xs, x ∉ seen := by
  induction l generalizing seen with
  | nil => exact ⟨[], rfl, List.nodup_nil, by simp⟩
  | cons a l ih =>
    rw [checkDistinct] at h
    simp only [bind_eq_ok, mapError_eq_ok, require_eq_ok] at h
    obtain ⟨x, hx, -, hnew, h⟩ := h
    obtain ⟨xs, hxs, hnodup, hseen⟩ := ih h
    refine ⟨x :: xs, by simp [List.mapM_cons, hx, hxs], List.nodup_cons.mpr ⟨?_, hnodup⟩, ?_⟩
    · exact fun hmem => hseen x hmem List.mem_cons_self
    · intro y hy
      rcases List.mem_cons.mp hy with rfl | hy
      · exact hnew
      · exact fun hs => hseen y hy (List.mem_cons_of_mem _ hs)

end HeliosBsc
