import HeliosBsc.Execution.Proof

/-!
# Signed envelopes

`execution/src/raw_tx.rs`: fields that are read out of the bytes of a signed transaction. A legacy
envelope is one RLP list; a typed one is a type byte from 1 to 4 and a list. The signing preimage is
cut out of the envelope's own bytes, with a new list header before it.
-/

namespace HeliosBsc

open Checked

/-- `MAX_RAW_TX`. -/
def maxRawTx : ℕ := 512 * 1024

/-- `RawTxError`, as far as the functions below return it. -/
inductive RawTxError where
  | empty
  | tooLarge
  | invalidRlp
  | truncated
  | unsigned
  | unprotected
  | unknownType (t : UInt8)
  deriving DecidableEq, Repr

/-- `decode_list`. -/
def decodeTxList (b : Bytes) : Except RawTxError (List Rlp) :=
  match decode b with
  | .ok (.list v) => .ok v
  | .ok (.bytes _) => .error .invalidRlp
  | .error .truncated => .error .truncated
  | .error _ => .error .invalidRlp

/-- The first byte of an envelope, whose size and type are allowed. -/
def txType (b : Bytes) : Except RawTxError UInt8 := do
  match b with
  | [] => throw .empty
  | t :: _ =>
    require (b.length ≤ maxRawTx) .tooLarge
    require (¬ (0x05 ≤ t.toNat ∧ t.toNat ≤ 0x7f)) (.unknownType t)
    return t

/-- `matches!(bytes[0], 0x01..=0x04)`. -/
def isTyped (t : UInt8) : Bool := decide (0x01 ≤ t.toNat ∧ t.toNat ≤ 0x04)

/-- The list of an envelope: all of a legacy one, what follows the type byte of a typed one. -/
def txEnvelope (t : UInt8) (b : Bytes) : Bytes := if isTyped t then b.tail else b

/-- The fields of an envelope. -/
def txItems (b : Bytes) : Except RawTxError (UInt8 × List Rlp) := do
  let t ← txType b
  let items ← decodeTxList (txEnvelope t b)
  return (t, items)

/-- `items.get(i).ok_or(RawTxError::Truncated)`. -/
def txItem (items : List Rlp) (i : ℕ) : Except RawTxError Rlp :=
  match items[i]? with
  | some item => .ok item
  | none => .error .truncated

/-- `as_bytes().map_err(|_| RawTxError::InvalidRlp)`. -/
def txBytes (item : Rlp) : Except RawTxError Bytes := item.asBytes.mapError fun _ => .invalidRlp

/-- `rlp_u64` and `rlp_u128`: an integer of at most `w` bytes without a leading zero. -/
def txUint (w : ℕ) (item : Rlp) : Except RawTxError ℕ := do
  let b ← txBytes item
  require (b.length ≤ w) .invalidRlp
  require (¬ (1 < b.length ∧ b.head? = some 0)) .invalidRlp
  return BigEndian.value b

/-- `tx_to_address`. -/
def txToAddress (b : Bytes) : Except RawTxError (Option Address) := do
  let (t, items) ← txItems b
  let item ← txItem items (if t = 0x01 then 4 else if isTyped t then 5 else 3)
  let a ← txBytes item
  if a = [] then return none
  else if h : a.length = 20 then return some ⟨a, h⟩
  else throw .invalidRlp

/-! ## Gas price -/

/-- `u128::MAX`. -/
def u128Max : ℕ := 2 ^ 128 - 1

/-- `TxGasPrice`. -/
inductive TxGasPrice where
  | fixed (price : ℕ)
  | dynamic (maxPriority maxFee : ℕ)
  deriving DecidableEq, Repr

/-- `TxGasPrice::effective`. -/
def TxGasPrice.effective (baseFee : ℕ) : TxGasPrice → ℕ
  | fixed p => p
  | dynamic maxPriority maxFee => min (baseFee + min maxPriority (maxFee - baseFee)) u128Max

/-- `tx_gas_price`. -/
def txGasPrice (b : Bytes) : Except RawTxError TxGasPrice := do
  let (t, items) ← txItems b
  if t = 0x01 then return .fixed (← txUint 16 (← txItem items 2))
  else if isTyped t then
    let maxPriority ← txUint 16 (← txItem items 2)
    let maxFee ← txUint 16 (← txItem items 3)
    return .dynamic maxPriority maxFee
  else return .fixed (← txUint 16 (← txItem items 1))

/-! ## Nonce and contract address -/

/-- `tx_nonce`. -/
def txNonce (b : Bytes) : Except RawTxError ℕ := do
  let (t, items) ← txItems b
  txUint 8 (← txItem items (if isTyped t then 1 else 0))

/-- `contract_address`. -/
def contractAddress (keccak256 : Bytes → Hash) (sender : Address) (nonce : ℕ) : Address where
  val := (keccak256 (encodeList [encodeBytes sender.val, encodeUint nonce])).val.drop 12
  len := by rw [List.length_drop, FixedBytes.len]

/-! ## Signing hash -/

/-- `list_header`. -/
def listHeader (len : ℕ) : Bytes :=
  if len ≤ 55 then [UInt8.ofNat (0xc0 + len)]
  else UInt8.ofNat (0xf7 + (lenBe len).length) :: lenBe len

/-- The payload of a list from `start` on, `len` bytes of it. -/
def payloadAt (buf : Bytes) (start len : ℕ) : Except RawTxError Bytes := do
  require (start + len ≤ buf.length) .truncated
  return (buf.drop start).take len

/-- `list_payload`. -/
def listPayload (buf : Bytes) : Except RawTxError Bytes := do
  match buf with
  | [] => throw .truncated
  | p :: rest =>
    if 0xc0 ≤ p.toNat ∧ p.toNat ≤ 0xf7 then payloadAt buf 1 (p.toNat - 0xc0)
    else if 0xf8 ≤ p.toNat then
      let ll := p.toNat - 0xf7
      require (ll ≤ rest.length) .truncated
      payloadAt buf (1 + ll) (BigEndian.value (rest.take ll))
    else throw .invalidRlp

/-- `long`: the header and the payload length of an item with `ll` length bytes. -/
def longItem (rest : Bytes) (ll : ℕ) : Except RawTxError (ℕ × ℕ) := do
  require (¬ (ll = 0 ∨ 8 < ll ∨ rest.length < ll)) .invalidRlp
  return (1 + ll, BigEndian.value (rest.take ll))

/-- `item_len`. -/
def itemLen (buf : Bytes) : Except RawTxError ℕ := do
  match buf with
  | [] => throw .truncated
  | p :: rest =>
    let (hdr, len) ←
      if p.toNat ≤ 0x7f then .ok (0, 1)
      else if p.toNat ≤ 0xb7 then .ok (1, p.toNat - 0x80)
      else if p.toNat ≤ 0xbf then longItem rest (p.toNat - 0xb7)
      else if p.toNat ≤ 0xf7 then .ok (1, p.toNat - 0xc0)
      else longItem rest (p.toNat - 0xf7)
    require (hdr + len ≤ buf.length) .truncated
    return hdr + len

/-- The loop of `item_offsets` from position `pos` on. -/
def itemOffsets (payload : Bytes) : ℕ → ℕ → Except RawTxError (List ℕ)
  | 0, pos => do
    require (pos = payload.length) .invalidRlp
    return []
  | count + 1, pos => do
    require (pos ≤ payload.length) .truncated
    let len ← itemLen (payload.drop pos)
    let rest ← itemOffsets payload count (pos + len)
    return pos :: rest

/-- `item_bytes32`. -/
def itemBytes32 (item : Rlp) : Except RawTxError Hash := do
  let b ← txBytes item
  require (¬ (b = [] ∨ 32 < b.length)) .unsigned
  return pad32 b

/-- The bytes that were signed and the recovery id: the fields before the signature of a typed
envelope; the first six fields of a legacy one, and the chain id with two zeros when it has one. -/
def signingPreimage (t : UInt8) (payload : Bytes) (spans : List ℕ) (n sigV : ℕ) :
    Except RawTxError (Bytes × UInt8) := do
  if isTyped t then
    let cut := spans.getD (n - 3) 0
    require (sigV ≤ 1) .invalidRlp
    return (t :: (listHeader cut ++ payload.take cut), UInt8.ofNat sigV)
  else
    require (n = 9) .truncated
    let body := payload.take (spans.getD 6 0)
    if sigV = 27 ∨ sigV = 28 then
      return (listHeader body.length ++ body, UInt8.ofNat (sigV - 27))
    else if 35 ≤ sigV then
      let body := body ++ encodeUint ((sigV - 35) / 2) ++ [0x80, 0x80]
      return (listHeader body.length ++ body, UInt8.ofNat ((sigV - 35) % 2))
    else throw .unprotected

theorem length_signature (r s : Hash) (recid : UInt8) :
    (r.val ++ s.val ++ [recid]).length = 65 := by
  simp [FixedBytes.len]

/-- `tx_signing_hash`. -/
def txSigningHash (keccak256 : Bytes → Hash) (b : Bytes) : Except RawTxError (Hash × FixedBytes 65) := do
  let (t, items) ← txItems b
  let n := items.length
  require (9 ≤ n) .truncated
  let payload ← listPayload (txEnvelope t b)
  let spans ← itemOffsets payload n 0
  let sigV ← txUint 8 (← txItem items (n - 3))
  let r ← itemBytes32 (← txItem items (n - 2))
  let s ← itemBytes32 (← txItem items (n - 1))
  let (preimage, recid) ← signingPreimage t payload spans n sigV
  return (keccak256 preimage, ⟨r.val ++ s.val ++ [recid], length_signature r s recid⟩)

end HeliosBsc
