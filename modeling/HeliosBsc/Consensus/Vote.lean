import HeliosBsc.Consensus.Seal

/-!
# Vote attestations

`consensus/src/vote.rs`: the strict RLP reader of an attestation (two levels of lists) and the
check of the aggregated BLS signature. The chain-state half of the check is in the snapshot.
-/

namespace HeliosBsc

open Checked BigEndian

def maxAttestationExtraLen : ℕ := 256

/-- `DST`. -/
def voteDst : String := "BLS_SIG_BLS12381G2_XMD:SHA-256_SSWU_RO_POP_"

/-- `MAX_RLP_DEPTH` of the vote decoder. -/
def maxVoteRlpDepth : ℕ := 2

/-- `VoteError`. -/
inductive VoteError where
  | rlp (what : String)
  | extraTooLong (len : ℕ)
  | sourceNotBelowTarget (fromBlock toBlock : ℕ)
  | voteNumberLargerThanValidators (voted validators : ℕ)
  | bitOutOfRange (index validators : ℕ)
  | noVotes
  | notEnoughVotes (got need : ℕ)
  | invalidVoteKey (index : ℕ)
  | invalidSignature
  | aggregateFailed
  | signatureVerifyFailed
  deriving DecidableEq, Repr

def VoteError.message : VoteError → String
  | rlp what => s!"malformed vote attestation RLP: {what}"
  | extraTooLong len => s!"too large extra length: {len} > 256"
  | sourceNotBelowTarget fromBlock toBlock =>
    s!"attestation source {fromBlock} is not below its target {toBlock}"
  | voteNumberLargerThanValidators voted validators =>
    s!"vote number larger than validators number: {voted} > {validators}"
  | bitOutOfRange index validators =>
    s!"vote address set has bit {index} set but only {validators} validators exist"
  | noVotes => "vote address set is empty"
  | notEnoughVotes got need => s!"not enough validators voted: {got} < {need}"
  | invalidVoteKey index => s!"validator {index} has an invalid BLS vote key"
  | invalidSignature => "aggregated signature is not a valid BLS signature"
  | aggregateFailed => "BLS public key aggregation failed"
  | signatureVerifyFailed => "vote attestation signature verify fail"

/-- `VoteData`. -/
structure VoteData where
  sourceNumber : ℕ
  sourceHash : Hash
  targetNumber : ℕ
  targetHash : Hash
  deriving DecidableEq, Repr

/-- `VoteAttestation`. -/
structure VoteAttestation where
  voteAddressSet : ℕ
  aggSignature : FixedBytes 96
  data : VoteData
  extra : Bytes
  deriving DecidableEq, Repr

/-- `VoteData::source_below_target`. -/
def VoteData.sourceBelowTarget (d : VoteData) : Except VoteError Unit :=
  require (d.sourceNumber < d.targetNumber) (.sourceNotBelowTarget d.sourceNumber d.targetNumber)

/-- The RLP list of the vote data. -/
def VoteData.encode (d : VoteData) : Bytes :=
  encodeList [encodeUint128 d.sourceNumber, encodeBytes d.sourceHash.val,
    encodeUint128 d.targetNumber, encodeBytes d.targetHash.val]

/-- `VoteData::hash`. -/
def VoteData.hash (P : Primitives) (d : VoteData) : Hash := P.keccak256 d.encode

/-- `min_votes_for_finality`. -/
def minVotesForFinality (n : ℕ) : ℕ := (satMul n 2 + 2) / 3

/-! ## Reading -/

/-- `take`. -/
def voteTake (buf : Bytes) (n : ℕ) : Except VoteError (Bytes × Bytes) := do
  require (n ≤ buf.length) (.rlp "payload overruns the buffer")
  return (buf.take n, buf.drop n)

/-- One round of the loop of `long_len`. -/
def longLenStep (len : ℕ) (b : UInt8) : Except VoteError ℕ := do
  require (len * 256 + b.toNat < u64Size) (.rlp "length prefix overflows usize")
  return len * 256 + b.toNat

/-- `long_len`. -/
def longLen (buf : Bytes) (lenOfLen : ℕ) : Except VoteError (ℕ × Bytes) := do
  let (raw, rest) ← voteTake buf lenOfLen
  require (raw.head? ≠ some 0) (.rlp "length prefix has a leading zero byte")
  let len ← raw.foldlM longLenStep 0
  require (55 < len) (.rlp "long form used where the short form fits")
  return (len, rest)

/-- The prefix dispatch of `decode_item`. -/
def voteSplit : Bytes → Except VoteError (Chunk × Bytes)
  | [] => .error (.rlp "unexpected end of input")
  | p :: tail =>
    if p.toNat ≤ 0x7f then .ok (.str [p], tail)
    else if p.toNat ≤ 0xb7 then do
      let (payload, rest) ← voteTake tail (p.toNat - 0x80)
      require (¬ (p.toNat - 0x80 = 1 ∧ ∃ x ∈ payload.head?, x.toNat < 0x80))
        (.rlp "single byte < 0x80 wrapped as a string")
      return (.str payload, rest)
    else if p.toNat ≤ 0xbf then do
      let (len, rest) ← longLen tail (p.toNat - 0xb7)
      let (payload, rest) ← voteTake rest len
      return (.str payload, rest)
    else if p.toNat ≤ 0xf7 then do
      let (payload, rest) ← voteTake tail (p.toNat - 0xc0)
      return (.list payload, rest)
    else do
      let (len, rest) ← longLen tail (p.toNat - 0xf7)
      let (payload, rest) ← voteTake rest len
      return (.list payload, rest)

theorem voteTake_eq_ok {buf a b : Bytes} {n : ℕ} :
    voteTake buf n = .ok (a, b) ↔ n ≤ buf.length ∧ a = buf.take n ∧ b = buf.drop n := by
  simp only [voteTake, bind_eq_ok, require_eq_ok, pure_eq_ok, Except.ok.injEq, Prod.mk.injEq,
    exists_const]
  constructor
  · rintro ⟨h, rfl, rfl⟩
    exact ⟨h, rfl, rfl⟩
  · rintro ⟨h, rfl, rfl⟩
    exact ⟨h, rfl, rfl⟩

theorem voteTake_length {buf a b : Bytes} {n : ℕ} (h : voteTake buf n = .ok (a, b)) :
    b.length ≤ buf.length := by
  rw [(voteTake_eq_ok.mp h).2.2, List.length_drop]
  omega

theorem longLen_length {buf rest : Bytes} {ll len : ℕ} (h : longLen buf ll = .ok (len, rest)) :
    rest.length ≤ buf.length := by
  simp only [longLen, bind_eq_ok, Prod.exists, require_eq_ok, pure_eq_ok, Except.ok.injEq,
    Prod.mk.injEq] at h
  obtain ⟨raw, r, ht, -, -, n, -, -, -, -, rfl⟩ := h
  exact voteTake_length ht

theorem voteSplit_length {buf rest : Bytes} {c : Chunk} (h : voteSplit buf = .ok (c, rest)) :
    rest.length < buf.length := by
  cases buf with
  | nil => simp [voteSplit] at h
  | cons p tail =>
    rw [List.length_cons, Nat.lt_succ_iff]
    simp only [voteSplit] at h
    split_ifs at h
    · simp only [Except.ok.injEq, Prod.mk.injEq] at h
      rw [h.2]
    · simp only [bind_eq_ok, Prod.exists, require_eq_ok, pure_eq_ok, Except.ok.injEq,
        Prod.mk.injEq] at h
      obtain ⟨payload, r, ht, -, -, -, hr⟩ := h
      exact hr ▸ voteTake_length ht
    · simp only [bind_eq_ok, Prod.exists, pure_eq_ok, Except.ok.injEq, Prod.mk.injEq] at h
      obtain ⟨len, r, hl, payload, r', ht, -, hr⟩ := h
      exact hr ▸ (voteTake_length ht).trans (longLen_length hl)
    · simp only [bind_eq_ok, Prod.exists, pure_eq_ok, Except.ok.injEq, Prod.mk.injEq] at h
      obtain ⟨payload, r, ht, -, hr⟩ := h
      exact hr ▸ voteTake_length ht
    · simp only [bind_eq_ok, Prod.exists, pure_eq_ok, Except.ok.injEq, Prod.mk.injEq] at h
      obtain ⟨len, r, hl, payload, r', ht, -, hr⟩ := h
      exact hr ▸ (voteTake_length ht).trans (longLen_length hl)

/-- The loop of `decode_list`; `inner` reads the payload of a list item. -/
def readItems (inner : Bytes → Except VoteError (List Rlp)) (payload : Bytes) :
    Except VoteError (List Rlp) :=
  if payload = [] then .ok []
  else
    match _h : voteSplit payload with
    | .error e => .error e
    | .ok (.str b, rest) => do
      let items ← readItems inner rest
      return .bytes b :: items
    | .ok (.list p, rest) => do
      let sub ← inner p
      let items ← readItems inner rest
      return .list sub :: items
termination_by payload.length
decreasing_by
  · exact voteSplit_length _h
  · exact voteSplit_length _h

/-- `decode_list` with `levels` levels of nesting left (`MAX_RLP_DEPTH - depth`). -/
def decodeVoteList : ℕ → Bytes → Except VoteError (List Rlp)
  | 0, _ => .error (.rlp "RLP nested deeper than a vote attestation")
  | levels + 1, payload => readItems (decodeVoteList levels) payload

/-- `decode_top`. -/
def decodeTop (buf : Bytes) : Except VoteError Rlp := do
  let (chunk, rest) ← voteSplit buf
  let item ← match chunk with
    | .str b => pure (Rlp.bytes b)
    | .list payload => Rlp.list <$> decodeVoteList maxVoteRlpDepth payload
  require (rest = []) (.rlp "trailing bytes after the top-level item")
  return item

/-- `str_of`. -/
def strOf : Rlp → Except VoteError Bytes
  | .bytes s => .ok s
  | .list _ => .error (.rlp "expected a string, found a list")

/-- `list_of`. -/
def listOf : Rlp → Except VoteError (List Rlp)
  | .list l => .ok l
  | .bytes _ => .error (.rlp "expected a list, found a string")

/-- `uint_of`. -/
def uintOf (raw : Bytes) : Except VoteError ℕ := do
  require (raw.length ≤ 8) (.rlp "integer longer than 8 bytes")
  require (raw.head? ≠ some 0) (.rlp "integer has a leading zero byte")
  return BigEndian.value raw

/-- `fixed_str`. -/
def fixedStr (n : ℕ) (raw : Bytes) (what : String) : Except VoteError (FixedBytes n) :=
  if h : raw.length = n then .ok ⟨raw, h⟩ else .error (.rlp what)

/-- The items of `vote_data`. -/
def readVoteData (fields : List Rlp) : Except VoteError VoteData :=
  match fields with
  | [sn, sh, tn, th] => do
    let sourceNumber ← uintOf (← strOf sn)
    let sourceHash ← fixedStr 32 (← strOf sh) "source hash is not 32 bytes"
    let targetNumber ← uintOf (← strOf tn)
    let targetHash ← fixedStr 32 (← strOf th) "target hash is not 32 bytes"
    return { sourceNumber, sourceHash, targetNumber, targetHash }
  | _ => .error (.rlp "vote data must be a 4-item list")

/-- `decode_vote_attestation`. -/
def decodeVoteAttestation (raw : Bytes) : Except VoteError (Option VoteAttestation) := do
  if raw = [] then return none
  else
    let top ← decodeTop raw
    match ← listOf top with
    | [set, sig, data, extra] => do
      let voteAddressSet ← uintOf (← strOf set)
      let aggSignature ← fixedStr 96 (← strOf sig) "aggregated signature is not 96 bytes"
      let data ← readVoteData (← listOf data)
      let extra ← strOf extra
      return some { voteAddressSet, aggSignature, data, extra }
    | _ => .error (.rlp "vote attestation must be a 4-item list")

/-! ## The signature -/

/-- `u64::count_ones`. -/
def countOnes (set : ℕ) : ℕ := ((List.range 64).filter fun i => set.testBit i).length

/-- `u64::trailing_zeros`. -/
def trailingZeros (n : ℕ) : ℕ := ((List.range 64).find? fun i => n.testBit i).getD 64

/-- `voted_indices`. -/
def votedIndices (set n : ℕ) : Except VoteError (List ℕ) := do
  let voted := countOnes set
  require (voted ≤ n) (.voteNumberLargerThanValidators voted n)
  let high := if 64 ≤ n then 0 else set >>> n
  require (high = 0) (.bitOutOfRange (n + trailingZeros high) n)
  return (List.range (min n 64)).filter fun i => set.testBit i

section

variable (P : Primitives)

/-- The loop that validates the voters' keys. -/
def validateKeys (validators : List SealingValidator) : List ℕ → Except VoteError (List VoteKey)
  | [] => .ok []
  | i :: rest => do
    match validators[i]? with
    -- `voted_indices` only returns positions of the list
    | none => throw (.invalidVoteKey i)
    | some v =>
      require (P.keyValidate v.voteKey = true) (.invalidVoteKey i)
      let keys ← validateKeys validators rest
      return v.voteKey :: keys

/-- `verify_attestation_signature`. -/
def verifyAttestationSignature (att : VoteAttestation) (validators : List SealingValidator) :
    Except VoteError Unit := do
  require (att.extra.length ≤ maxAttestationExtraLen) (.extraTooLong att.extra.length)
  let indices ← votedIndices att.voteAddressSet validators.length
  require (indices ≠ []) .noVotes
  let keys ← validateKeys P validators indices
  let need := minVotesForFinality validators.length
  require (need ≤ keys.length) (.notEnoughVotes keys.length need)
  match P.aggregate keys with
  | none => throw .aggregateFailed
  | some pk => do
    require (P.sigValidate att.aggSignature = true) .invalidSignature
    require (P.sigVerify att.aggSignature (att.data.hash P) voteDst pk = true)
      .signatureVerifyFailed

end

end HeliosBsc
