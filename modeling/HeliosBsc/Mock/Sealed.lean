import HeliosBsc.Consensus.Seal
import HeliosBsc.Execution.Mpt

/-!
# Sealed headers

`mock/src/sealed.rs`: headers that carry a real seal. Signing is a parameter like the other
cryptographic functions: of a key it is known that recovery from its signature gives its public
key. `seal_one` is modelled with the parts that its callers vary as arguments, and with arbitrary
bytes between vanity and seal, where the source has none; a header it returns passes
`verify_seal_coinbase`.
-/

namespace HeliosBsc

open Checked

/-- A `SecretKey` with what signing and recovery promise each other. -/
structure SecretKey (P : Primitives) where
  /-- The uncompressed public key without its first byte. -/
  pubkey : FixedBytes 64
  /-- `sign_ecdsa_recoverable`: the compact signature and the recovery id. -/
  sign : Hash → FixedBytes 64 × Fin 4
  recovers : ∀ digest,
    P.recoverEcdsa digest (sign digest).1.val (sign digest).2.val = .ok (0x04 :: pubkey.val)

/-- `address_of`. -/
def SecretKey.address {P : Primitives} (sk : SecretKey P) : Address :=
  sliceFixed 20 (P.keccak256 sk.pubkey.val).val 12

/-- `GAS_LIMIT`. -/
def mockGasLimit : ℕ := 140000000

/-- What varies from one sealed header to the next. -/
structure Draft where
  number : ℕ
  parent : Hash
  milli : ℕ
  stateRoot : Hash
  difficulty : ℕ
  /-- The bytes between vanity and seal. -/
  mid : Bytes

namespace Draft

/-- The timestamp in seconds. -/
def time (d : Draft) : ℕ := d.milli / 1000

/-- `mixHash`: the milliseconds in the last two bytes. -/
def mix (d : Draft) : Hash where
  val := List.replicate 30 0 ++
    [UInt8.ofNat (d.milli % 1000 / 256), UInt8.ofNat (d.milli % 1000 % 256)]
  len := by simp

/-- `extraData` with a given seal. -/
def extra (d : Draft) (sealBytes : FixedBytes 65) : Bytes :=
  (FixedBytes.repeated 32 0).val ++ d.mid ++ sealBytes.val

/-- The header with a given seal and hash. -/
def header (d : Draft) (miner : Address) (sealBytes : FixedBytes 65) (hash : Hash) :
    RpcBlockHeader where
  hash := hexPrefixed hash.val
  parentHash := hexPrefixed d.parent.val
  sha3Uncles := hexPrefixed emptyUncleHash.val
  miner := formatAddress miner
  stateRoot := hexPrefixed d.stateRoot.val
  transactionsRoot := hexPrefixed emptyTrieRoot.val
  receiptsRoot := hexPrefixed emptyTrieRoot.val
  logsBloom := hexPrefixed (FixedBytes.repeated 256 0).val
  difficulty := hexQuantity d.difficulty
  number := hexQuantity d.number
  gasLimit := hexQuantity mockGasLimit
  gasUsed := hexQuantity 0
  timestamp := hexQuantity d.time
  extraData := hexPrefixed (d.extra sealBytes)
  mixHash := hexPrefixed d.mix.val
  nonce := hexPrefixed (FixedBytes.repeated 8 0).val
  baseFeePerGas := some (hexQuantity 0)
  withdrawalsRoot := none
  blobGasUsed := none
  excessBlobGas := none
  parentBeaconBlockRoot := some (hexPrefixed (FixedBytes.repeated 32 0).val)
  requestsHash := none

/-- The bytes whose hash is the header's. -/
def preimage (d : Draft) (miner : Address) (sealBytes : FixedBytes 65) : Bytes :=
  encodeList [
    encodeBytes d.parent.val, encodeBytes emptyUncleHash.val, encodeBytes miner.val,
    encodeBytes d.stateRoot.val, encodeBytes emptyTrieRoot.val, encodeBytes emptyTrieRoot.val,
    encodeBytes (FixedBytes.repeated 256 0).val, encodeUint128 d.difficulty,
    encodeUint128 d.number, encodeUint128 mockGasLimit, encodeUint128 0, encodeUint128 d.time,
    encodeBytes (d.extra sealBytes), encodeBytes d.mix.val,
    encodeBytes (FixedBytes.repeated 8 0).val, encodeUint128 0, [0x80], [0x80], [0x80],
    encodeBytes (FixedBytes.repeated 32 0).val]

/-- The header with another base fee. -/
def headerPaying (d : Draft) (fee : Option String) (miner : Address) (sealBytes : FixedBytes 65)
    (hash : Hash) : RpcBlockHeader :=
  { d.header miner sealBytes hash with baseFeePerGas := fee }

/-- The base fee is what the height asks for. -/
def Pays (d : Draft) (fee : Option String) : Prop :=
  fee = some (hexQuantity 0) ∧ londonBlock ≤ d.number ∨ fee = none ∧ d.number < londonBlock

/-- The numbers are in range, and the time is one of Lorentz or later. -/
structure Bounded (d : Draft) : Prop where
  number : d.number < u64Size
  milli : lorentzTime * 1000 ≤ d.milli ∧ d.milli < u64Size
  difficulty : d.difficulty = diffNoTurn ∨ d.difficulty = diffInTurn
  mid : d.mid.length ≤ 100000

/-- The numbers are in range, and the fork rules of the mock's era apply. -/
structure Fits (d : Draft) : Prop where
  number : londonBlock ≤ d.number ∧ d.number < u64Size
  milli : maxwellTime * 1000 ≤ d.milli ∧ d.milli < u64Size
  difficulty : d.difficulty = diffNoTurn ∨ d.difficulty = diffInTurn
  mid : d.mid.length ≤ 100000

end Draft

section

variable {P : Primitives} (sk : SecretKey P) (d : Draft)

/-- The seal over a digest. -/
def SecretKey.sealOver (digest : Hash) : FixedBytes 65 where
  val := (sk.sign digest).1.val ++ [UInt8.ofNat (sk.sign digest).2.val]
  len := by simp [(sk.sign digest).1.len]

/-- `seal_one`. -/
def sealOne : Except SealError RpcBlockHeader := do
  let digest ← sealHash P (d.header sk.address (.repeated 65 0) (.repeated 32 0)) bscMainnetChainId
  let hash ← headerHash P (d.header sk.address (sk.sealOver digest) (.repeated 32 0))
  return d.header sk.address (sk.sealOver digest) hash

end

namespace Draft

variable {d : Draft}

theorem Fits.time (h : d.Fits) : maxwellTime ≤ d.time ∧ d.time < u64Size :=
  ⟨(Nat.le_div_iff_mul_le (by norm_num)).mpr h.milli.1, (Nat.div_le_self _ _).trans_lt h.milli.2⟩

theorem Fits.bounded (h : d.Fits) : d.Bounded where
  number := h.number.2
  milli := ⟨(show lorentzTime * 1000 ≤ maxwellTime * 1000 by decide).trans h.milli.1, h.milli.2⟩
  difficulty := h.difficulty
  mid := h.mid

theorem Fits.pays (h : d.Fits) : d.Pays (some (hexQuantity 0)) := .inl ⟨rfl, h.number.1⟩

theorem Bounded.time (h : d.Bounded) : lorentzTime ≤ d.time ∧ d.time < u64Size :=
  ⟨(Nat.le_div_iff_mul_le (by norm_num)).mpr h.milli.1, (Nat.div_le_self _ _).trans_lt h.milli.2⟩

theorem small_lt_u64Size {n : ℕ} (h : n < 2 ^ 32) : n < u64Size := by
  rw [u64Size_eq]
  exact h.trans (by norm_num)

/-- What the readers find in the quantities of a header. -/
structure Reads (d : Draft) : Prop where
  number : decodeU64 (hexQuantity d.number) = .ok d.number
  time : decodeU64 (hexQuantity d.time) = .ok d.time
  difficulty : decodeU64 (hexQuantity d.difficulty) = .ok d.difficulty
  gasLimit : decodeU64 (hexQuantity mockGasLimit) = .ok mockGasLimit
  zero : decodeU64 (hexQuantity 0) = .ok 0

theorem Bounded.reads (h : d.Bounded) : d.Reads where
  number := decodeU64_hexQuantity h.number
  time := decodeU64_hexQuantity h.time.2
  difficulty := by
    refine decodeU64_hexQuantity (small_lt_u64Size ?_)
    rcases h.difficulty with hd | hd
    · rw [hd]; decide
    · rw [hd]; decide
  gasLimit := decodeU64_hexQuantity (small_lt_u64Size (by decide))
  zero := decodeU64_hexQuantity u64Size_pos

theorem Fits.reads (h : d.Fits) : d.Reads := h.bounded.reads

section

variable (fee : Option String) (miner : Address) (sealBytes : FixedBytes 65) (hash : Hash)

theorem length_extra : (d.extra sealBytes).length = 97 + d.mid.length := by
  simp only [extra, List.length_append, FixedBytes.len]
  omega

theorem take_extra : (d.extra sealBytes).take ((d.extra sealBytes).length - extraSeal) =
    (FixedBytes.repeated 32 0).val ++ d.mid := by
  have hwo : ((FixedBytes.repeated 32 0).val ++ d.mid).length = 32 + d.mid.length := by
    simp only [List.length_append, FixedBytes.len]
  rw [length_extra, extra, extraSeal, List.take_left' (by rw [hwo]; omega)]

theorem drop_extra : (d.extra sealBytes).drop ((d.extra sealBytes).length - extraSeal) =
    sealBytes.val := by
  have hwo : ((FixedBytes.repeated 32 0).val ++ d.mid).length = 32 + d.mid.length := by
    simp only [List.length_append, FixedBytes.len]
  rw [length_extra, extra, extraSeal, List.drop_left' (by rw [hwo]; omega)]

/-- What is sealed depends neither on the seal nor on the hash, nor on a base fee of zero. -/
theorem sealPreimage_headerPaying (h : d.Reads) : ∃ bytes, ∀ sealBytes hash fee,
    fee = some (hexQuantity 0) ∨ fee = none →
    sealPreimage (d.headerPaying fee miner sealBytes hash) bscMainnetChainId = .ok bytes := by
  refine ⟨encodeList ([
    encodeUint128 bscMainnetChainId, encodeBytes d.parent.val, encodeBytes emptyUncleHash.val,
    encodeBytes miner.val, encodeBytes d.stateRoot.val, encodeBytes emptyTrieRoot.val,
    encodeBytes emptyTrieRoot.val, encodeBytes (FixedBytes.repeated 256 0).val,
    encodeUint128 d.difficulty, encodeUint128 d.number, encodeUint128 mockGasLimit,
    encodeUint128 0, encodeUint128 d.time, encodeBytes ((FixedBytes.repeated 32 0).val ++ d.mid),
    encodeBytes d.mix.val, encodeBytes (FixedBytes.repeated 8 0).val] ++
    [encodeUint128 0, encodeBytes (FixedBytes.repeated 32 0).val, encodeUint128 0,
      encodeUint128 0, encodeBytes (FixedBytes.repeated 32 0).val]), ?_⟩
  intro sealBytes hash fee hfee
  have hlen : extraVanity + extraSeal ≤ (d.extra sealBytes).length := by
    rw [length_extra, extraVanity, extraSeal]
    omega
  have hbase : optU64 fee = .ok 0 := by
    rcases hfee with rfl | rfl
    · exact h.zero
    · rfl
  have habsent : optU64 none = .ok 0 := rfl
  simp only [sealPreimage, headerPaying, header, decodeHex_hexPrefixed, mapError_ok, ok_bind,
    require_of hlen, take_extra, decodeHexFixed_hexPrefixed, formatAddress, h.number, h.time,
    h.difficulty, h.gasLimit, h.zero, hbase, habsent, optHash, pure_eq_ok]

theorem headerPreimage_header (h : d.Reads) :
    headerPreimage (d.header miner sealBytes hash) = .ok (d.preimage miner sealBytes) := by
  simp [headerPreimage, header, preimage, formatAddress, h.number, h.time, h.difficulty,
    h.gasLimit, h.zero, pushIf, encodeOptUint, encodeOptHash]

theorem headerPreimage_without_baseFee (h : d.Reads) :
    headerPreimage (d.headerPaying none miner sealBytes hash) =
      .ok (d.preimage miner sealBytes) := by
  simp only [headerPreimage, headerPaying, header, preimage, formatAddress, h.number, h.time,
    h.difficulty, h.gasLimit, h.zero, pushIf, encodeOptUint, encodeOptHash, encodeUint128_zero,
    decodeHexFixed_hexPrefixed, decodeHex_hexPrefixed, mapError_ok, ok_bind, pure_eq_ok,
    Option.isSome_none, Option.isSome_some, Bool.or_false, if_true, Bool.false_eq_true, if_false,
    Bool.or_true]
  rfl

theorem milliTimestamp_headerPaying (h : d.Reads)
    (hmilli : lorentzTime * 1000 ≤ d.milli ∧ d.milli < u64Size) :
    milliTimestamp (d.headerPaying fee miner sealBytes hash) = .ok d.milli := by
  obtain ⟨hfrom, hto⟩ := hmilli
  have htime : ¬ d.time < lorentzTime :=
    Nat.not_lt.mpr ((Nat.le_div_iff_mul_le (by norm_num)).mpr hfrom)
  have hhigh : (d.mix.val.getD 30 0).toNat = d.milli % 1000 / 256 :=
    UInt8.toNat_ofNat_of_lt' (show d.milli % 1000 / 256 < 256 by omega)
  have hlow : (d.mix.val.getD 31 0).toNat = d.milli % 1000 % 256 :=
    UInt8.toNat_ofNat_of_lt' (show d.milli % 1000 % 256 < 256 by omega)
  simp only [milliTimestamp, headerPaying, header, h.time, decodeHexFixed_hexPrefixed, mapError_ok,
    ok_bind, if_neg htime, pure_eq_ok, hhigh, hlow, Except.ok.injEq]
  unfold satAdd satMul Draft.time
  omega

theorem milliTimestamp_header (h : d.Fits) :
    milliTimestamp (d.header miner sealBytes hash) = .ok d.milli :=
  milliTimestamp_headerPaying (some (hexQuantity 0)) miner sealBytes hash h.reads h.bounded.milli

/-- The bytes between vanity and seal are laid out as an epoch length wants them. -/
def LaidOutBy (d : Draft) (epochLength : ℕ) : Prop :=
  d.number % epochLength ≠ 0 ∨
    ∃ vals turnLength attestation, d.mid = epochPart vals turnLength attestation ∧
      vals ≠ [] ∧ vals.length < 256 ∧ (vals.map SealingValidator.address).Nodup ∧
      0 < turnLength ∧ turnLength ≤ maxTurnLength

/-- The bytes between vanity and seal are laid out as the fork rules want them. -/
def LaidOut (d : Draft) : Prop := d.LaidOutBy maxwellEpochLength

theorem Fits.laidOutBy (h : d.Fits) (hl : d.LaidOut) :
    d.LaidOutBy (paramsAt d.number d.time).epochLength := by
  rw [(paramsAt_of_maxwell d.number h.time.1).1]
  exact hl

theorem verifyExtraLayout_headerPaying (h : d.Bounded)
    (hl : d.LaidOutBy (paramsAt d.number d.time).epochLength) :
    verifyExtraLayout (d.headerPaying fee miner sealBytes hash) = .ok () := by
  have hversion := extraDataVersion_of_bohr d.number
    ((show bohrTime ≤ lorentzTime by decide).trans h.time.1)
  simp only [verifyExtraLayout, headerPaying, header, decodeHex_hexPrefixed, h.reads.number,
    h.reads.time, mapError_ok, ok_bind, hversion, extra]
  by_cases hplain : d.number % (paramsAt d.number d.time).epochLength = 0
  · rcases hl with hne | ⟨vals, turn, att, hmid, hne, hcount, hnodup, hpos, hle⟩
    · exact absurd hplain hne
    have hturn : turn < 256 := by
      unfold maxTurnLength at hle
      omega
    obtain ⟨p, hp, hvals, hturnLength, -⟩ :=
      parseExtra_epochPart (.repeated 32 0) sealBytes att hne hcount hturn
    simp only [hplain, decide_true, hmid, hp, mapError_ok, ok_bind, if_true, hvals,
      require_of hne, require_of hnodup, hturnLength]
    rw [require_of]
    exact fun _ => ⟨turn, rfl, hpos, hle⟩
  · obtain ⟨p, hp, -⟩ := parseExtra_plain (.repeated 32 0) sealBytes d.mid
    simp only [hplain, decide_false, hp, mapError_ok, ok_bind, Bool.false_eq_true, if_false,
      pure_eq_ok]

theorem verifyUnsealedFields_headerPaying (h : d.Bounded)
    (hl : d.LaidOutBy (paramsAt d.number d.time).epochLength) (hfee : d.Pays fee) {now : ℕ}
    (hnow : d.time ≤ now) (hclock : now < u64Size) :
    verifyUnsealedFields (d.headerPaying fee miner sealBytes hash) now = .ok () := by
  have hextra : (d.extra sealBytes).length ≤ extraMax := by
    have := h.mid
    rw [length_extra, extraMax]
    omega
  have hmix : verifyMixDigest (d.headerPaying fee miner sealBytes hash) = .ok () := by
    have htime : ¬ d.time < lorentzTime := Nat.not_lt.mpr h.time.1
    unfold verifyMixDigest
    rw [milliTimestamp_headerPaying fee miner sealBytes hash h.reads h.milli]
    have hsec : d.milli / 1000 = d.time := rfl
    simp only [headerPaying, header, h.reads.time, decodeHexFixed_hexPrefixed, mapError_ok, ok_bind,
      if_neg htime, require_of hsec]
  have hbeacon : verifyParentBeaconRoot (d.headerPaying fee miner sealBytes hash) = .ok () := by
    have htime : bohrTime ≤ d.time := (show bohrTime ≤ lorentzTime by decide).trans h.time.1
    simp [verifyParentBeaconRoot, headerPaying, header, h.reads.time, if_pos htime]
  have hpaid : verifyBaseFee (d.headerPaying fee miner sealBytes hash) = .ok () := by
    rcases hfee with ⟨rfl, hlondon⟩ | ⟨rfl, hlondon⟩
    · simp [verifyBaseFee, headerPaying, header, h.reads.number, h.reads.zero, hlondon]
    · simp [verifyBaseFee, headerPaying, header, h.reads.number, hlondon]
  have hfuture : d.time ≤ satAdd now maxFutureSkewSecs := by
    unfold satAdd
    omega
  have hgas : mockGasLimit ≤ gasLimitMax := by decide
  have hlayout := verifyExtraLayout_headerPaying fee miner sealBytes hash h hl
  unfold verifyUnsealedFields
  rw [hmix, hbeacon, hlayout, hpaid]
  simp [headerPaying, header, verifyWithdrawalsRoot, verifyTimestampNotFuture, require_of,
    h.reads.time, h.reads.gasLimit, h.reads.zero, hextra, hfuture, hgas]

theorem verifyCascadingVsParent_headerPaying (h : d.Bounded) (hmaxwell : maxwellTime ≤ d.time)
    {milli : ℕ} (hlater : milli + 1000 ≤ d.milli) :
    verifyCascadingVsParent milli mockGasLimit (d.headerPaying fee miner sealBytes hash) =
      .ok () := by
  have hinterval := (paramsAt_of_maxwell d.number hmaxwell).2.2.2
  have hfloor : satAdd milli (paramsAt d.number d.time).blockIntervalMs ≤ d.milli := by
    unfold satAdd
    unfold maxwellBlockIntervalMs at hinterval
    omega
  have hlorentz : lorentzTime ≤ d.time := h.time.1
  have hgasMin : minGasLimit ≤ mockGasLimit := by decide
  have hdiff : mockGasLimit - mockGasLimit + (mockGasLimit - mockGasLimit) <
      mockGasLimit / gasLimitBoundDivisor := by decide
  have hnonzero : ¬ mockGasLimit = 0 := by decide
  unfold verifyCascadingVsParent
  rw [milliTimestamp_headerPaying fee miner sealBytes hash h.reads h.milli]
  simp only [if_neg hnonzero, headerPaying, header, h.reads.number, h.reads.time, h.reads.gasLimit,
    mapError_ok, ok_bind, require_of hfloor, require_of hgasMin, if_pos hlorentz, require_of hdiff]

theorem verifyCascadingVsParent_header (h : d.Fits) {milli : ℕ} (hlater : milli + 1000 ≤ d.milli) :
    verifyCascadingVsParent milli mockGasLimit (d.header miner sealBytes hash) = .ok () :=
  verifyCascadingVsParent_headerPaying (some (hexQuantity 0)) miner sealBytes hash h.bounded
    h.time.1 hlater

end

end Draft

/-! ## A sealed header verifies -/

section

variable {P : Primitives} (sk : SecretKey P) {d : Draft}

theorem ecrecover_sealOver (digest : Hash) :
    ecrecover P digest (sk.sealOver digest).val = .ok sk.address := by
  have hv : ((sk.sealOver digest).val.getD 64 0).toNat = (sk.sign digest).2.val := by
    have hget : (sk.sealOver digest).val.getD 64 0 = UInt8.ofNat (sk.sign digest).2.val := by
      rw [List.getD_eq_getElem?_getD, SecretKey.sealOver,
        List.getElem?_append_right (by rw [(sk.sign digest).1.len]), (sk.sign digest).1.len]
      rfl
    rw [hget]
    exact UInt8.toNat_ofNat_of_lt' (show (sk.sign digest).2.val < 256 by omega)
  have htake : (sk.sealOver digest).val.take 64 = (sk.sign digest).1.val :=
    List.take_left' (sk.sign digest).1.len
  have hid : (sk.sign digest).2.val ≤ 3 := by omega
  have hsize : (sk.sealOver digest).val.length = extraSeal := (sk.sealOver digest).len
  unfold ecrecover
  rw [require_of hsize]
  simp only [ok_bind, hv, if_neg (show ¬ 27 ≤ (sk.sign digest).2.val by omega), require_of hid,
    htake, sk.recovers digest, mapError_ok]
  have hform : ¬ ((0x04 :: sk.pubkey.val).length ≠ 65 ∨
      (0x04 :: sk.pubkey.val).head? ≠ some 0x04) := by simp [sk.pubkey.len]
  simp only [addressFromPubkeyUncompressed, require_of hform, ok_bind, List.drop_succ_cons,
    List.drop_zero, pure_eq_ok, mapError_ok, SecretKey.address]

/-- A draft passes `verify_seal_coinbase` under any seal that recovers to its miner, at every clock
from its time on. -/
theorem verifySealCoinbase_of_ecrecover (h : d.Bounded)
    (hl : d.LaidOutBy (paramsAt d.number d.time).epochLength) {fee : Option String}
    (hfee : d.Pays fee) {miner : Address} {sealed : Bytes} (hsealed : ∀ sealBytes hash,
      sealPreimage (d.headerPaying fee miner sealBytes hash) bscMainnetChainId = .ok sealed)
    {sealBytes : FixedBytes 65}
    (hrec : ecrecover P (P.keccak256 sealed) sealBytes.val = .ok miner) {hash : Hash}
    (hhash : hash = P.keccak256 (d.preimage miner sealBytes)) {now : ℕ} (hnow : d.time ≤ now)
    (hclock : now < u64Size) :
    verifySealCoinbase P (d.headerPaying fee miner sealBytes hash) now = .ok miner := by
  have hpreimage : headerPreimage (d.headerPaying fee miner sealBytes hash) =
      .ok (d.preimage miner sealBytes) := by
    rcases hfee with ⟨rfl, -⟩ | ⟨rfl, -⟩
    · exact Draft.headerPreimage_header miner sealBytes hash h.reads
    · exact Draft.headerPreimage_without_baseFee miner sealBytes hash h.reads
  have hunsealed := Draft.verifyUnsealedFields_headerPaying fee miner sealBytes hash h hl hfee hnow
    hclock
  generalize d.preimage miner sealBytes = bytes at hpreimage hhash
  have hrecover : recoverSigner P (d.headerPaying fee miner sealBytes hash) bscMainnetChainId =
      .ok miner := by
    have hlong : extraSeal ≤ (d.extra sealBytes).length := by
      rw [Draft.length_extra, extraSeal]
      omega
    unfold recoverSigner sealHash
    rw [hsealed]
    simp only [Draft.headerPaying, Draft.header, decodeHex_hexPrefixed, mapError_ok, ok_bind,
      require_of hlong, Draft.drop_extra, Except.map]
    exact hrec
  have hverified : verifyHeaderHash P (d.headerPaying fee miner sealBytes hash) = .ok hash := by
    unfold verifyHeaderHash headerHash
    rw [hpreimage]
    simp [Draft.headerPaying, Draft.header, Except.map, hhash]
  unfold verifySealCoinbase
  rw [hunsealed, hrecover, hverified]
  have hrange := h.difficulty
  simp [Draft.headerPaying, Draft.header, h.reads.difficulty, assertDifficultyRange,
    require_of hrange, formatAddress]

/-- A validator's seal over a draft verifies at every clock from its time on. -/
theorem exists_seal (h : d.Bounded) (hl : d.LaidOutBy (paramsAt d.number d.time).epochLength)
    {fee : Option String} (hfee : d.Pays fee) :
    ∃ sealBytes hash, ∀ now, d.time ≤ now → now < u64Size →
      verifySealCoinbase P (d.headerPaying fee sk.address sealBytes hash) now =
        .ok sk.address := by
  obtain ⟨sealed, hsealed⟩ := Draft.sealPreimage_headerPaying sk.address h.reads
  have hzero : fee = some (hexQuantity 0) ∨ fee = none := hfee.imp And.left And.left
  exact ⟨_, _, fun now hnow hclock => verifySealCoinbase_of_ecrecover h hl hfee
    (fun sealBytes hash => hsealed sealBytes hash fee hzero) (ecrecover_sealOver sk _) rfl hnow
    hclock⟩

/-- `seal_one` succeeds, and its header passes `verify_seal_coinbase` at every clock from its time
on. -/
theorem verifySealCoinbase_sealOne (h : d.Fits) (hl : d.LaidOut) :
    ∃ sealBytes hash, sealOne sk d = .ok (d.header sk.address sealBytes hash) ∧
      (∃ digest, sealBytes = sk.sealOver digest) ∧
      hash = P.keccak256 (d.preimage sk.address sealBytes) ∧
      ∀ now, d.time ≤ now → now < u64Size →
        verifySealCoinbase P (d.header sk.address sealBytes hash) now = .ok sk.address := by
  obtain ⟨sealed, hpaying⟩ := Draft.sealPreimage_headerPaying sk.address h.reads
  have hsealed : ∀ sealBytes hash,
      sealPreimage (d.header sk.address sealBytes hash) bscMainnetChainId = .ok sealed :=
    fun sealBytes hash => hpaying sealBytes hash (some (hexQuantity 0)) (.inl rfl)
  have hbytes := fun hash =>
    Draft.headerPreimage_header sk.address (sk.sealOver (P.keccak256 sealed)) hash h.reads
  refine ⟨sk.sealOver (P.keccak256 sealed), _, ?_, ⟨_, rfl⟩, rfl, fun now hnow hclock => ?_⟩
  · simp only [sealOne, sealHash, hsealed, Except.map, ok_bind, headerHash, hbytes, pure_eq_ok]
  · exact verifySealCoinbase_of_ecrecover h.bounded (h.laidOutBy hl) h.pays hsealed
      (ecrecover_sealOver sk _) rfl hnow hclock

end

end HeliosBsc
