import HeliosBsc.Config.Extra
import HeliosBsc.Execution.Rlp
import HeliosBsc.Types.Checkpoint

/-!
# Seals and header checks

`consensus/src/seal.rs`: the seal hash and the header hash, recovery of the signer, and the checks
of a header that need no snapshot. The hash and the two signature schemes are parameters
(`Primitives`); the clock is an argument `now` of the functions that read it.
-/

namespace HeliosBsc

open Checked

/-- The cryptographic functions of other packages. -/
structure Primitives where
  /-- `tiny_keccak`. -/
  keccak256 : Bytes → Hash
  /-- `secp256k1` recovery from a digest, the compact signature and a recovery id `0..=3`: the
  uncompressed public key, or the text of the error. -/
  recoverEcdsa : Hash → Bytes → ℕ → Except String Bytes
  /-- `PublicKey::key_validate`. -/
  keyValidate : VoteKey → Bool
  /-- `AggregatePublicKey::aggregate`. -/
  aggregate : List VoteKey → Option Bytes
  /-- `Signature::sig_validate`. -/
  sigValidate : FixedBytes 96 → Bool
  /-- `Signature::verify` of a message under a domain tag and a public key. -/
  sigVerify : FixedBytes 96 → Hash → String → Bytes → Bool

/-- `SealError`. -/
inductive SealError where
  | types (e : TypesError)
  | extraTooShort
  | badRecoveryId (v : ℕ)
  | recover (reason : String)
  | coinbaseMismatch (recovered miner : String)
  | badDifficulty (got : ℕ)
  | invalidUncles
  | invalidGasUsed (used limit : ℕ)
  | invalidBaseFee (got : String)
  | missingBaseFee (number : ℕ)
  | unexpectedBaseFee (number : ℕ)
  | invalidGasLimit (got : ℕ)
  | invalidMixDigest
  | invalidParentBeaconRoot
  | hashMismatch
  | extraTooLong
  | invalidWithdrawalsRoot
  | timestampTooEarly (got parent interval : ℕ)
  | outOfTurnTooEarly (got parent interval backoff : ℕ)
  | gasLimitBound (got parent bound : ℕ)
  | futureBlock (time now : ℕ)
  | invalidNonce
  | extra (e : ExtraError)
  | missingEpochExtra
  | invalidTurnLength
  | duplicateValidator
  deriving DecidableEq, Repr

def SealError.message : SealError → String
  | types e => e.message
  | extraTooShort => "extraData too short for vanity+seal"
  | badRecoveryId v => s!"invalid recovery id {v}"
  | recover reason => s!"secp256k1 recover failed: {reason}"
  | coinbaseMismatch recovered miner => s!"coinbase mismatch: recovered {recovered}, miner {miner}"
  | badDifficulty got => s!"Parlia difficulty {got} is not 1 (out-of-turn) or 2 (in-turn)"
  | invalidUncles => "non-empty uncle hash (Parlia forbids uncles)"
  | invalidGasUsed used limit => s!"gasUsed {used} exceeds gasLimit {limit}"
  | invalidBaseFee got => s!"baseFeePerGas {got} must be 0 on a Parlia chain"
  | missingBaseFee number => s!"baseFeePerGas missing after London (block {number})"
  | unexpectedBaseFee number => s!"baseFeePerGas present before London (block {number})"
  | invalidGasLimit got => s!"gasLimit {got} exceeds 2^63-1"
  | invalidMixDigest => "invalid mixDigest (Lorentz milliseconds / pre-Lorentz zero)"
  | invalidParentBeaconRoot => "invalid parentBeaconRoot (Bohr+ expects the zero hash)"
  | hashMismatch => "header hash mismatch (geth Header.Hash())"
  | extraTooLong => "header extraData exceeds 100KiB"
  | invalidWithdrawalsRoot => "withdrawalsRoot is not the empty trie hash"
  | timestampTooEarly got parent interval =>
    s!"block MilliTimestamp {got} < parent {parent} + interval {interval}ms"
  | outOfTurnTooEarly got parent interval backoff =>
    s!"out-of-turn block MilliTimestamp {got} < parent {parent} + interval {interval}ms " ++
      s!"+ backoff {backoff}ms"
  | gasLimitBound got parent bound => s!"gasLimit {got} outside parent {parent} ± bound {bound}"
  | futureBlock time now => s!"header timestamp {time} is in the future (now {now})"
  | invalidNonce => "Parlia nonce must be the empty 8-byte nonce"
  | extra e => e.message
  | missingEpochExtra => "epoch extraData has no validators"
  | invalidTurnLength => "epoch extraData turnLength is out of range 1..=64"
  | duplicateValidator => "epoch extraData has a duplicate validator address"

/-- `EMPTY_UNCLE_HASH`. -/
def emptyUncleHash : Hash where
  val := [
    0x1d, 0xcc, 0x4d, 0xe8, 0xde, 0xc7, 0x5d, 0x7a, 0xab, 0x85, 0xb5, 0x67, 0xb6, 0xcc, 0xd4, 0x1a,
    0xd3, 0x12, 0x45, 0x1b, 0x94, 0x8a, 0x74, 0x13, 0xf0, 0xa1, 0x42, 0xfd, 0x40, 0xd4, 0x93, 0x47]
  len := rfl

/-- The bytes of `EMPTY_WITHDRAWALS_HASH`. -/
def emptyWithdrawalsBytes : Bytes := [
  0x56, 0xe8, 0x1f, 0x17, 0x1b, 0xcc, 0x55, 0xa6, 0xff, 0x83, 0x45, 0xe6, 0x92, 0xc0, 0xf8, 0x6e,
  0x5b, 0x48, 0xe0, 0x1b, 0x99, 0x6c, 0xad, 0xc0, 0x01, 0x62, 0x2f, 0xb5, 0xe3, 0x63, 0xb4, 0x21]

/-- `EMPTY_WITHDRAWALS_HASH`. -/
def emptyWithdrawalsHash : Hash := ⟨emptyWithdrawalsBytes, rfl⟩

def gasLimitMax : ℕ := 0x7fffffffffffffff
def minGasLimit : ℕ := 5000
def gasLimitBoundDivisor : ℕ := 1024
def gasLimitBoundDivisorPreLorentz : ℕ := 256
def extraMax : ℕ := 100 * 1024
def maxFutureSkewSecs : ℕ := 15
def lorentzInitialBackoffMs : ℕ := 2000
def defaultInitialBackoffMs : ℕ := 1000

/-! ## Hashes -/

/-- `encode_uint` of `rlp_util.rs`, on `u128`. -/
def encodeUint128 (n : ℕ) : Bytes := encodeUintOfWidth 16 n

theorem encodeUint128_zero : encodeUint128 0 = [0x80] := by
  unfold encodeUint128 encodeUintOfWidth
  rw [if_pos rfl]

/-- `opt.map(decode_u64).transpose()?.unwrap_or(0)`. -/
def optU64 (s : Option String) : Except TypesError ℕ :=
  match s with
  | none => .ok 0
  | some x => decodeU64 x

/-- `opt.map(decode_hex_fixed::<32>).transpose()?.unwrap_or([0u8; 32])`. -/
def optHash (s : Option String) : Except TypesError Hash :=
  match s with
  | none => .ok (.repeated 32 0)
  | some x => decodeHexFixed 32 x

/-- The bytes that `seal_hash` hashes. -/
def sealPreimage (header : RpcBlockHeader) (chainId : ℕ) : Except SealError Bytes := do
  let extra ← (decodeHex header.extraData).mapError .types
  require (extraVanity + extraSeal ≤ extra.length) .extraTooShort
  let extraWoSeal := extra.take (extra.length - extraSeal)
  let parent ← (decodeHexFixed 32 header.parentHash).mapError .types
  let uncle ← (decodeHexFixed 32 header.sha3Uncles).mapError .types
  let coinbase ← (decodeHexFixed 20 header.miner).mapError .types
  let root ← (decodeHexFixed 32 header.stateRoot).mapError .types
  let txHash ← (decodeHexFixed 32 header.transactionsRoot).mapError .types
  let receipt ← (decodeHexFixed 32 header.receiptsRoot).mapError .types
  let bloom ← (decodeHex header.logsBloom).mapError .types
  let difficulty ← (decodeU64 header.difficulty).mapError .types
  let number ← (decodeU64 header.number).mapError .types
  let gasLimit ← (decodeU64 header.gasLimit).mapError .types
  let gasUsed ← (decodeU64 header.gasUsed).mapError .types
  let time ← (decodeU64 header.timestamp).mapError .types
  let mix ← (decodeHexFixed 32 header.mixHash).mapError .types
  let nonce ← (decodeHexFixed 8 header.nonce).mapError .types
  let items := [
    encodeUint128 chainId, encodeBytes parent.val, encodeBytes uncle.val, encodeBytes coinbase.val,
    encodeBytes root.val, encodeBytes txHash.val, encodeBytes receipt.val, encodeBytes bloom,
    encodeUint128 difficulty, encodeUint128 number, encodeUint128 gasLimit, encodeUint128 gasUsed,
    encodeUint128 time, encodeBytes extraWoSeal, encodeBytes mix.val, encodeBytes nonce.val]
  match header.parentBeaconBlockRoot with
  | none => return encodeList items
  | some beaconRoot => do
    let baseFee ← (optU64 header.baseFeePerGas).mapError .types
    let withdrawals ← (optHash header.withdrawalsRoot).mapError .types
    let blobGas ← (optU64 header.blobGasUsed).mapError .types
    let excess ← (optU64 header.excessBlobGas).mapError .types
    let beacon ← (decodeHexFixed 32 beaconRoot).mapError .types
    let items := items ++ [encodeUint128 baseFee, encodeBytes withdrawals.val,
      encodeUint128 blobGas, encodeUint128 excess, encodeBytes beacon.val]
    match header.requestsHash with
    | none => return encodeList items
    | some req => do
      let r ← (decodeHexFixed 32 req).mapError .types
      return encodeList (items ++ [encodeBytes r.val])

/-- `encode_opt_uint`. -/
def encodeOptUint (s : Option String) : Except SealError Bytes :=
  match s with
  | none => .ok [0x80]
  | some x => do
    let n ← (decodeU64 x).mapError .types
    return encodeUint128 n

/-- `encode_opt_hash`. -/
def encodeOptHash (s : Option String) : Except SealError Bytes :=
  match s with
  | none => .ok [0x80]
  | some x => do
    let h ← (decodeHexFixed 32 x).mapError .types
    return encodeBytes h.val

/-- `items.push(..)` under a condition. -/
def pushIf (c : Bool) (items : List Bytes) (item : Except SealError Bytes) :
    Except SealError (List Bytes) := do
  if c then return items ++ [← item] else return items

/-- The bytes that `header_hash` hashes: optional fields run from the first to the last one that is
present, with empty strings for the missing ones between. -/
def headerPreimage (header : RpcBlockHeader) : Except SealError Bytes := do
  let parent ← (decodeHexFixed 32 header.parentHash).mapError .types
  let uncle ← (decodeHexFixed 32 header.sha3Uncles).mapError .types
  let coinbase ← (decodeHexFixed 20 header.miner).mapError .types
  let root ← (decodeHexFixed 32 header.stateRoot).mapError .types
  let txHash ← (decodeHexFixed 32 header.transactionsRoot).mapError .types
  let receipt ← (decodeHexFixed 32 header.receiptsRoot).mapError .types
  let bloom ← (decodeHexFixed 256 header.logsBloom).mapError .types
  let difficulty ← (decodeU64 header.difficulty).mapError .types
  let number ← (decodeU64 header.number).mapError .types
  let gasLimit ← (decodeU64 header.gasLimit).mapError .types
  let gasUsed ← (decodeU64 header.gasUsed).mapError .types
  let time ← (decodeU64 header.timestamp).mapError .types
  let extra ← (decodeHex header.extraData).mapError .types
  let mix ← (decodeHexFixed 32 header.mixHash).mapError .types
  let nonce ← (decodeHexFixed 8 header.nonce).mapError .types
  let items := [
    encodeBytes parent.val, encodeBytes uncle.val, encodeBytes coinbase.val, encodeBytes root.val,
    encodeBytes txHash.val, encodeBytes receipt.val, encodeBytes bloom.val,
    encodeUint128 difficulty, encodeUint128 number, encodeUint128 gasLimit, encodeUint128 gasUsed,
    encodeUint128 time, encodeBytes extra, encodeBytes mix.val, encodeBytes nonce.val]
  let hasReq := header.requestsHash.isSome
  let hasBeacon := header.parentBeaconBlockRoot.isSome || hasReq
  let hasExcess := header.excessBlobGas.isSome || hasBeacon
  let hasBlob := header.blobGasUsed.isSome || hasExcess
  let hasWd := header.withdrawalsRoot.isSome || hasBlob
  let hasBase := header.baseFeePerGas.isSome || hasWd
  let items ← pushIf hasBase items (encodeOptUint header.baseFeePerGas)
  let items ← pushIf hasWd items (encodeOptHash header.withdrawalsRoot)
  let items ← pushIf hasBlob items (encodeOptUint header.blobGasUsed)
  let items ← pushIf hasExcess items (encodeOptUint header.excessBlobGas)
  let items ← pushIf hasBeacon items (encodeOptHash header.parentBeaconBlockRoot)
  let items ← pushIf hasReq items (encodeOptHash header.requestsHash)
  return encodeList items

/-! ## Checks that need no key -/

/-- `milli_timestamp`. -/
def milliTimestamp (header : RpcBlockHeader) : Except SealError ℕ := do
  let time ← (decodeU64 header.timestamp).mapError .types
  let mix ← (decodeHexFixed 32 header.mixHash).mapError .types
  if time < lorentzTime then return satMul time 1000
  else
    let ms := 256 * (mix.val.getD 30 0).toNat + (mix.val.getD 31 0).toNat
    return satAdd (satMul time 1000) ms

/-- `verify_base_fee`. -/
def verifyBaseFee (header : RpcBlockHeader) : Except SealError Unit := do
  let number ← (decodeU64 header.number).mapError .types
  match header.baseFeePerGas with
  | none => require (number < londonBlock) (.missingBaseFee number)
  | some raw => do
    require (londonBlock ≤ number) (.unexpectedBaseFee number)
    match decodeU64 raw with
    | .ok 0 => return ()
    | _ => throw (.invalidBaseFee raw)

/-- `verify_timestamp_not_future`. -/
def verifyTimestampNotFuture (header : RpcBlockHeader) (now : ℕ) : Except SealError Unit := do
  let time ← (decodeU64 header.timestamp).mapError .types
  require (time ≤ satAdd now maxFutureSkewSecs) (.futureBlock time now)

/-- `verify_extra_layout`. -/
def verifyExtraLayout (header : RpcBlockHeader) : Except SealError Unit := do
  let extra ← (decodeHex header.extraData).mapError .types
  let number ← (decodeU64 header.number).mapError .types
  let time ← (decodeU64 header.timestamp).mapError .types
  let p := paramsAt number time
  let isEpoch := decide (number % p.epochLength = 0)
  let parsed ← (parseExtra extra p.extraDataVersion isEpoch).mapError .extra
  if isEpoch then do
    require (parsed.validators ≠ []) .missingEpochExtra
    require (parsed.validators.map SealingValidator.address).Nodup .duplicateValidator
    require (p.extraDataVersion = .bohr →
      ∃ t ∈ parsed.turnLength, 0 < t ∧ t ≤ maxTurnLength) .invalidTurnLength
  else return ()

/-- The check of `mixHash` in `verify_unsealed_fields`. -/
def verifyMixDigest (header : RpcBlockHeader) : Except SealError Unit := do
  let time ← (decodeU64 header.timestamp).mapError .types
  let mix ← (decodeHexFixed 32 header.mixHash).mapError .types
  if time < lorentzTime then require (mix = .repeated 32 0) .invalidMixDigest
  else do
    let milli ← milliTimestamp header
    require (milli / 1000 = time) .invalidMixDigest

/-- The check of `parentBeaconBlockRoot` in `verify_unsealed_fields`. -/
def verifyParentBeaconRoot (header : RpcBlockHeader) : Except SealError Unit := do
  let time ← (decodeU64 header.timestamp).mapError .types
  if bohrTime ≤ time then
    match header.parentBeaconBlockRoot with
    | none => throw .invalidParentBeaconRoot
    | some root => do
      let got ← (decodeHexFixed 32 root).mapError .types
      require (got = .repeated 32 0) .invalidParentBeaconRoot
  else return ()

/-- The check of `withdrawalsRoot` in `verify_unsealed_fields`. -/
def verifyWithdrawalsRoot (header : RpcBlockHeader) : Except SealError Unit :=
  match header.withdrawalsRoot with
  | none => return ()
  | some w => do
    let got ← (decodeHexFixed 32 w).mapError .types
    require (got = emptyWithdrawalsHash) .invalidWithdrawalsRoot

/-- `verify_unsealed_fields`. -/
def verifyUnsealedFields (header : RpcBlockHeader) (now : ℕ) : Except SealError Unit := do
  let extra ← (decodeHex header.extraData).mapError .types
  require (extra.length ≤ extraMax) .extraTooLong
  let uncles ← (decodeHexFixed 32 header.sha3Uncles).mapError .types
  require (uncles = emptyUncleHash) .invalidUncles
  let gasLimit ← (decodeU64 header.gasLimit).mapError .types
  require (gasLimit ≤ gasLimitMax) (.invalidGasLimit gasLimit)
  let gasUsed ← (decodeU64 header.gasUsed).mapError .types
  require (gasUsed ≤ gasLimit) (.invalidGasUsed gasUsed gasLimit)
  verifyBaseFee header
  verifyMixDigest header
  verifyParentBeaconRoot header
  verifyWithdrawalsRoot header
  let nonce ← (decodeHexFixed 8 header.nonce).mapError .types
  require (nonce = .repeated 8 0) .invalidNonce
  verifyTimestampNotFuture header now
  verifyExtraLayout header

/-- `verify_cascading_vs_parent`. -/
def verifyCascadingVsParent (parentMilli parentGasLimit : ℕ) (header : RpcBlockHeader) :
    Except SealError Unit := do
  if parentGasLimit = 0 then return ()
  else
    let number ← (decodeU64 header.number).mapError .types
    let time ← (decodeU64 header.timestamp).mapError .types
    let interval := (paramsAt number time).blockIntervalMs
    let gotMilli ← milliTimestamp header
    require (satAdd parentMilli interval ≤ gotMilli)
      (.timestampTooEarly gotMilli parentMilli interval)
    let gas ← (decodeU64 header.gasLimit).mapError .types
    require (minGasLimit ≤ gas) (.invalidGasLimit gas)
    let divisor :=
      if lorentzTime ≤ time then gasLimitBoundDivisor else gasLimitBoundDivisorPreLorentz
    let bound := parentGasLimit / divisor
    -- `abs_diff`
    let diff := (parentGasLimit - gas) + (gas - parentGasLimit)
    require (diff < bound) (.gasLimitBound gas parentGasLimit bound)

/-- `BackoffContext`. -/
structure BackoffContext where
  parentMilli : ℕ
  known : Bool
  inTurnSignedRecently : Bool

/-- `verify_out_of_turn_backoff`. -/
def verifyOutOfTurnBackoff (ctx : BackoffContext) (header : RpcBlockHeader) :
    Except SealError Unit := do
  if !ctx.known || ctx.inTurnSignedRecently then return ()
  else
    let difficulty ← (decodeU64 header.difficulty).mapError .types
    if difficulty ≠ diffNoTurn then return ()
    else
      let backoff :=
        if lorentzTime ≤ ctx.parentMilli / 1000 then lorentzInitialBackoffMs
        else defaultInitialBackoffMs
      let number ← (decodeU64 header.number).mapError .types
      let time ← (decodeU64 header.timestamp).mapError .types
      let interval := (paramsAt number time).blockIntervalMs
      let got ← milliTimestamp header
      require (satAdd (satAdd ctx.parentMilli interval) backoff ≤ got)
        (.outOfTurnTooEarly got ctx.parentMilli interval backoff)

/-- `assert_difficulty_range`. -/
def assertDifficultyRange (difficulty : ℕ) : Except SealError Unit :=
  require (difficulty = diffNoTurn ∨ difficulty = diffInTurn) (.badDifficulty difficulty)

/-! ## Hash and signer of a header -/

section

variable (P : Primitives)

/-- `seal_hash`. -/
def sealHash (header : RpcBlockHeader) (chainId : ℕ) : Except SealError Hash :=
  (sealPreimage header chainId).map P.keccak256

/-- `header_hash`. -/
def headerHash (header : RpcBlockHeader) : Except SealError Hash :=
  (headerPreimage header).map P.keccak256

/-- `verify_header_hash`. -/
def verifyHeaderHash (header : RpcBlockHeader) : Except SealError Hash := do
  let computed ← headerHash P header
  let claimed ← (decodeHexFixed 32 header.hash).mapError .types
  require (computed = claimed) .hashMismatch
  return computed

/-- `address_from_pubkey_uncompressed`. -/
def addressFromPubkeyUncompressed (pubkey : Bytes) : Except TypesError Address := do
  require (¬ (pubkey.length ≠ 65 ∨ pubkey.head? ≠ some 0x04))
    (.invalidHex "expected uncompressed secp256k1 pubkey (65 bytes, 0x04 prefix)")
  return sliceFixed 20 (P.keccak256 (pubkey.drop 1)).val 12

/-- `ecrecover`. -/
def ecrecover (digest : Hash) (sealBytes : Bytes) : Except SealError Address := do
  require (sealBytes.length = extraSeal) .extraTooShort
  let v := (sealBytes.getD 64 0).toNat
  let recId := if 27 ≤ v then v - 27 else v
  require (recId ≤ 3) (.badRecoveryId v)
  let pk ← (P.recoverEcdsa digest (sealBytes.take 64) recId).mapError .recover
  (addressFromPubkeyUncompressed P pk).mapError .types

/-- `recover_signer`. -/
def recoverSigner (header : RpcBlockHeader) (chainId : ℕ) : Except SealError Address := do
  let extra ← (decodeHex header.extraData).mapError .types
  require (extraSeal ≤ extra.length) .extraTooShort
  let sealBytes := extra.drop (extra.length - extraSeal)
  let digest ← sealHash P header chainId
  ecrecover P digest sealBytes

/-- `verify_seal_coinbase`. -/
def verifySealCoinbase (header : RpcBlockHeader) (now : ℕ) : Except SealError Address := do
  verifyUnsealedFields header now
  let difficulty ← (decodeU64 header.difficulty).mapError .types
  assertDifficultyRange difficulty
  let recovered ← recoverSigner P header bscMainnetChainId
  let miner ← (decodeHexFixed 20 header.miner).mapError .types
  require (recovered = miner) (.coinbaseMismatch (formatAddress recovered) (formatAddress miner))
  let _ ← verifyHeaderHash P header
  return recovered

end

end HeliosBsc
