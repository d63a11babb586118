import HeliosBsc.Config.Forks
import HeliosBsc.Types.Bytes

/-!
# The `extraData` codec

`config/src/extra.rs`: vanity, the validator records and the turn length of an epoch block, the
raw attestation, the seal.
-/

namespace HeliosBsc

open Checked

/-- `ExtraError`. -/
inductive ExtraError where
  | tooShort
  | invalidEpochValidators
  | missingTurnLength
  deriving DecidableEq, Repr

def ExtraError.message : ExtraError → String
  | tooShort => "extraData shorter than vanity+seal (32+65)"
  | invalidEpochValidators => "epoch extraData missing validator count / records"
  | missingTurnLength => "epoch extraData missing turnLength byte"

/-- `SealingValidator`. -/
structure SealingValidator where
  address : Address
  voteKey : VoteKey
  deriving DecidableEq, Repr

/-- `ParsedExtra`. -/
structure ParsedExtra where
  vanity : Bytes
  nextForkHash : Bytes
  validators : List SealingValidator
  turnLength : Option ℕ
  attestation : Bytes
  sealBytes : Bytes

/-- `copy_from_slice` of `n` bytes at `off`; the callers have checked the length. -/
def sliceFixed (n : ℕ) (b : Bytes) (off : ℕ) : FixedBytes n :=
  if h : ((b.drop off).take n).length = n then ⟨(b.drop off).take n, h⟩ else .repeated n 0

/-- The `i`-th record of an epoch block. -/
def validatorAt (mid : Bytes) (i : ℕ) : SealingValidator :=
  let off := validatorNumberSize + i * validatorBytes
  { address := sliceFixed 20 mid off
    voteKey := sliceFixed 48 mid (off + 20) }

/-- `parse_pre_luban_epoch`, the part that reads `mid`. -/
def parsePreLubanEpoch (mid : Bytes) : Except ExtraError (List SealingValidator) := do
  require (mid.length % 20 = 0) .invalidEpochValidators
  return (List.range (mid.length / 20)).map fun i =>
    { address := sliceFixed 20 mid (i * 20), voteKey := .repeated 48 0 }

/-- `parse_extra`. -/
def parseExtra (extra : Bytes) (version : ExtraDataVersion) (isEpoch : Bool) :
    Except ExtraError ParsedExtra := do
  require (extraVanity + extraSeal ≤ extra.length) .tooShort
  let vanity := extra.take extraVanity
  let nextForkHash := vanity.drop (extraVanity - nextForkHashSize)
  let sealBytes := extra.drop (extra.length - extraSeal)
  let mid := (extra.drop extraVanity).take (extra.length - extraSeal - extraVanity)
  if !isEpoch || version = .preLuban then
    if version = .preLuban && isEpoch then
      let validators ← parsePreLubanEpoch mid
      return { vanity, nextForkHash, validators, turnLength := none, attestation := [], sealBytes }
    else
      return { vanity, nextForkHash, validators := [], turnLength := none, attestation := mid,
               sealBytes }
  else
    require (mid ≠ []) .invalidEpochValidators
    let n := (mid.headD 0).toNat
    let valsEnd := validatorNumberSize + n * validatorBytes
    let need := if version = .bohr then valsEnd + 1 else valsEnd
    require (¬ (n = 0 ∨ mid.length < need)) .invalidEpochValidators
    let validators := (List.range n).map (validatorAt mid)
    let (turnLength, attOff) :=
      if version = .bohr then (some (mid.getD valsEnd 0).toNat, valsEnd + 1) else (none, valsEnd)
    return { vanity, nextForkHash, validators, turnLength, attestation := mid.drop attOff,
             sealBytes }

theorem parseExtra_bohr_true {extra : Bytes} {p : ParsedExtra}
    (h : parseExtra extra .bohr true = .ok p) :
    p.validators ≠ [] ∧ p.validators.length ≤ 255 ∧ ∃ t, p.turnLength = some t ∧ t ≤ 255 := by
  simp only [parseExtra, bind_eq_ok, require_eq_ok] at h
  obtain ⟨-, -, h⟩ := h
  simp only [Bool.not_true, Bool.false_or, decide_eq_true_eq, reduceCtorEq, if_false, if_true,
    bind_eq_ok, require_eq_ok, pure_eq_ok, Except.ok.injEq] at h
  obtain ⟨-, -, -, hn, rfl⟩ := h
  have hbyte : ∀ x : UInt8, x.toNat ≤ 255 := fun x => Nat.le_of_lt_succ x.toNat_lt
  refine ⟨?_, ?_, _, rfl, hbyte _⟩
  · rw [← List.length_pos_iff, List.length_map, List.length_range]
    omega
  · rw [List.length_map, List.length_range]
    exact hbyte _

/-! ## Writing -/

/-- The records of an epoch block: address and vote key of each validator. -/
def epochRecordBytes (vals : List SealingValidator) : Bytes :=
  vals.flatMap fun v => v.address.val ++ v.voteKey.val

/-- What an epoch block carries between vanity and seal. -/
def epochPart (vals : List SealingValidator) (turnLength : ℕ) (attestation : Bytes) : Bytes :=
  UInt8.ofNat vals.length :: (epochRecordBytes vals ++ UInt8.ofNat turnLength :: attestation)

theorem length_epochRecordBytes (vals : List SealingValidator) :
    (epochRecordBytes vals).length = vals.length * validatorBytes := by
  induction vals with
  | nil => simp [epochRecordBytes]
  | cons v vals ih =>
    have hv : (epochRecordBytes (v :: vals)).length = 68 + (epochRecordBytes vals).length := by
      simp only [epochRecordBytes, List.flatMap_cons, List.length_append, v.address.len,
        v.voteKey.len]
    rw [hv, ih, List.length_cons, validatorBytes]
    omega

theorem length_epochPart (vals : List SealingValidator) (turnLength : ℕ) (attestation : Bytes) :
    (epochPart vals turnLength attestation).length =
      vals.length * validatorBytes + attestation.length + 2 := by
  simp only [epochPart, List.length_cons, List.length_append, length_epochRecordBytes]
  omega

theorem drop_epochRecordBytes (vals : List SealingValidator) (i : ℕ) :
    (epochRecordBytes vals).drop (i * validatorBytes) = epochRecordBytes (vals.drop i) := by
  induction vals generalizing i with
  | nil => simp [epochRecordBytes]
  | cons v vals ih =>
    cases i with
    | zero => simp
    | succ i =>
      have hlen : (v.address.val ++ v.voteKey.val).length = validatorBytes := by
        rw [List.length_append, v.address.len, v.voteKey.len, validatorBytes]
      have hcons : epochRecordBytes (v :: vals) =
          (v.address.val ++ v.voteKey.val) ++ epochRecordBytes vals := rfl
      rw [hcons, List.drop_succ_cons, ← ih i, Nat.succ_mul, Nat.add_comm, ← hlen,
        ← List.drop_drop, List.drop_left]

theorem sliceFixed_of_append {n : ℕ} {b : Bytes} {off : ℕ} (x : FixedBytes n) {tail : Bytes}
    (h : b.drop off = x.val ++ tail) : sliceFixed n b off = x := by
  have htake : (b.drop off).take n = x.val := by
    rw [h, List.take_left' x.len]
  unfold sliceFixed
  rw [dif_pos (by rw [htake, x.len])]
  exact FixedBytes.ext htake

theorem validatorAt_records {vals : List SealingValidator} {i : ℕ} (hi : i < vals.length)
    (count : UInt8) (tail : Bytes) :
    validatorAt (count :: (epochRecordBytes vals ++ tail)) i = vals[i] := by
  have hbytes := length_epochRecordBytes vals
  have hdrop : (count :: (epochRecordBytes vals ++ tail)).drop
      (validatorNumberSize + i * validatorBytes) =
      vals[i].address.val ++ (vals[i].voteKey.val ++ (epochRecordBytes (vals.drop (i + 1)) ++ tail)) := by
    have hle : i * validatorBytes ≤ (epochRecordBytes vals).length := by
      rw [hbytes]
      exact Nat.mul_le_mul_right _ hi.le
    rw [validatorNumberSize, Nat.add_comm, List.drop_succ_cons,
      List.drop_append_of_le_length hle, drop_epochRecordBytes, List.drop_eq_getElem_cons hi,
      epochRecordBytes, List.flatMap_cons, List.append_assoc, List.append_assoc]
    rfl
  have hkey : (count :: (epochRecordBytes vals ++ tail)).drop
      (validatorNumberSize + i * validatorBytes + 20) =
      vals[i].voteKey.val ++ (epochRecordBytes (vals.drop (i + 1)) ++ tail) := by
    rw [← List.drop_drop, hdrop, List.drop_left' vals[i].address.len]
  unfold validatorAt
  simp only [sliceFixed_of_append _ hdrop, sliceFixed_of_append _ hkey]

/-! ## Reading the middle part -/

/-- What `parse_extra` makes of the bytes between vanity and seal: the validators, the turn length
and the attestation. -/
def parseMid (version : ExtraDataVersion) (isEpoch : Bool) (mid : Bytes) :
    Except ExtraError (List SealingValidator × Option ℕ × Bytes) := do
  if !isEpoch || version = .preLuban then
    if version = .preLuban && isEpoch then
      let validators ← parsePreLubanEpoch mid
      return (validators, none, [])
    else return ([], none, mid)
  else
    require (mid ≠ []) .invalidEpochValidators
    let n := (mid.headD 0).toNat
    let valsEnd := validatorNumberSize + n * validatorBytes
    let need := if version = .bohr then valsEnd + 1 else valsEnd
    require (¬ (n = 0 ∨ mid.length < need)) .invalidEpochValidators
    let validators := (List.range n).map (validatorAt mid)
    if version = .bohr then
      return (validators, some (mid.getD valsEnd 0).toNat, mid.drop (valsEnd + 1))
    else return (validators, none, mid.drop valsEnd)

/-- The parsed middle part with vanity and seal. -/
def ParsedExtra.around (vanity sealBytes : Bytes)
    (fields : List SealingValidator × Option ℕ × Bytes) : ParsedExtra where
  vanity := vanity
  nextForkHash := vanity.drop (extraVanity - nextForkHashSize)
  validators := fields.1
  turnLength := fields.2.1
  attestation := fields.2.2
  sealBytes := sealBytes

section

variable (vanity : FixedBytes 32) (sealBytes : FixedBytes 65)

theorem parseExtra_parts (mid : Bytes) (version : ExtraDataVersion) (isEpoch : Bool) :
    parseExtra (vanity.val ++ mid ++ sealBytes.val) version isEpoch =
      (parseMid version isEpoch mid).map (ParsedExtra.around vanity.val sealBytes.val) := by
  have hlen : (vanity.val ++ mid ++ sealBytes.val).length = 32 + mid.length + 65 := by
    simp only [List.length_append, vanity.len, sealBytes.len]
  have hlong : extraVanity + extraSeal ≤ (vanity.val ++ mid ++ sealBytes.val).length := by
    rw [hlen, extraVanity, extraSeal]
    omega
  have hvanity : (vanity.val ++ mid ++ sealBytes.val).take extraVanity = vanity.val := by
    rw [extraVanity, List.append_assoc, List.take_left' vanity.len]
  have hmid : ((vanity.val ++ mid ++ sealBytes.val).drop extraVanity).take
      ((vanity.val ++ mid ++ sealBytes.val).length - extraSeal - extraVanity) = mid := by
    rw [hlen, extraVanity, extraSeal, List.append_assoc, List.drop_left' vanity.len,
      show 32 + mid.length + 65 - 65 - 32 = mid.length by omega, List.take_left]
  have hseal : (vanity.val ++ mid ++ sealBytes.val).drop
      ((vanity.val ++ mid ++ sealBytes.val).length - extraSeal) = sealBytes.val := by
    have hwo : (vanity.val ++ mid).length = 32 + mid.length := by simp [vanity.len]
    rw [hlen, extraSeal, show 32 + mid.length + 65 - 65 = (vanity.val ++ mid).length by omega,
      List.drop_left]
  simp only [parseExtra, parseMid, require_of hlong, ok_bind, hvanity, hmid, hseal]
  split_ifs
  · cases parsePreLubanEpoch mid <;> rfl
  · rfl
  · simp only [map_bind]
    rfl
  · simp only [map_bind]
    rfl

theorem parseExtra_plain (mid : Bytes) :
    ∃ p, parseExtra (vanity.val ++ mid ++ sealBytes.val) .bohr false = .ok p ∧
      p.validators = [] ∧ p.turnLength = none ∧ p.attestation = mid := by
  rw [parseExtra_parts]
  exact ⟨_, rfl, rfl, rfl, rfl⟩

end

theorem validatorAt_map_range (vals : List SealingValidator) (count : UInt8) (tail : Bytes) :
    (List.range vals.length).map (validatorAt (count :: (epochRecordBytes vals ++ tail))) =
      vals := by
  refine List.ext_getElem (by simp) fun i h₁ h₂ => ?_
  rw [List.getElem_map, List.getElem_range]
  exact validatorAt_records h₂ _ _

theorem drop_records (vals : List SealingValidator) (count : UInt8) (tail : Bytes) :
    (count :: (epochRecordBytes vals ++ tail)).drop
      (validatorNumberSize + vals.length * validatorBytes) = tail := by
  rw [validatorNumberSize, Nat.add_comm, List.drop_succ_cons, ← length_epochRecordBytes,
    List.drop_left]

theorem parseMid_records {vals : List SealingValidator} (hpos : vals ≠ [])
    (hcount : vals.length < 256) (tail : Bytes) :
    parseMid .luban true (UInt8.ofNat vals.length :: (epochRecordBytes vals ++ tail)) =
        .ok (vals, none, tail) ∧
      ∀ turnLength : UInt8,
        parseMid .bohr true (UInt8.ofNat vals.length ::
          (epochRecordBytes vals ++ turnLength :: tail)) =
            .ok (vals, some turnLength.toNat, tail) := by
  have hn : (UInt8.ofNat vals.length).toNat = vals.length := by simpa using hcount
  have hvpos := List.length_pos_iff.mpr hpos
  have hlen := length_epochRecordBytes vals
  constructor
  · have hvals := validatorAt_map_range vals (UInt8.ofNat vals.length) tail
    have hdrop := drop_records vals (UInt8.ofNat vals.length) tail
    have hneed : ¬ (vals.length = 0 ∨
        (UInt8.ofNat vals.length :: (epochRecordBytes vals ++ tail)).length <
          validatorNumberSize + vals.length * validatorBytes) := by
      rw [List.length_cons, List.length_append, hlen, validatorNumberSize]
      omega
    simp only [parseMid, Bool.not_true, Bool.false_or, decide_eq_true_eq, reduceCtorEq, if_false,
      List.headD_cons, hn, require_of hneed, ok_bind, hvals, hdrop, pure_eq_ok]
    rw [require_of (List.cons_ne_nil _ _)]
    rfl
  · intro turnLength
    have hvals := validatorAt_map_range vals (UInt8.ofNat vals.length) (turnLength :: tail)
    have hdrop := drop_records vals (UInt8.ofNat vals.length) (turnLength :: tail)
    have hneed : ¬ (vals.length = 0 ∨
        (UInt8.ofNat vals.length :: (epochRecordBytes vals ++ turnLength :: tail)).length <
          validatorNumberSize + vals.length * validatorBytes + 1) := by
      rw [List.length_cons, List.length_append, hlen, List.length_cons, validatorNumberSize]
      omega
    have hturn : (UInt8.ofNat vals.length :: (epochRecordBytes vals ++ turnLength :: tail)).getD
        (validatorNumberSize + vals.length * validatorBytes) 0 = turnLength := by
      have hhead := congrArg List.head? hdrop
      rw [List.head?_drop] at hhead
      rw [List.getD_eq_getElem?_getD, hhead]
      rfl
    have hatt : (UInt8.ofNat vals.length :: (epochRecordBytes vals ++ turnLength :: tail)).drop
        (validatorNumberSize + vals.length * validatorBytes + 1) = tail := by
      rw [← List.drop_drop, hdrop]
      rfl
    simp only [parseMid, Bool.not_true, Bool.false_or, decide_eq_true_eq, reduceCtorEq, if_false,
      if_true, List.headD_cons, hn, require_of hneed, ok_bind, hvals, hturn, hatt, pure_eq_ok]
    rw [require_of (List.cons_ne_nil _ _)]
    rfl

theorem parseExtra_epochPart (vanity : FixedBytes 32) (sealBytes : FixedBytes 65)
    {vals : List SealingValidator} {turnLength : ℕ} (attestation : Bytes)
    (hpos : vals ≠ []) (hcount : vals.length < 256) (hturn : turnLength < 256) :
    ∃ p, parseExtra (vanity.val ++ epochPart vals turnLength attestation ++ sealBytes.val) .bohr
        true = .ok p ∧
      p.validators = vals ∧ p.turnLength = some turnLength ∧ p.attestation = attestation := by
  have hread := (parseMid_records hpos hcount attestation).2 (UInt8.ofNat turnLength)
  rw [UInt8.toNat_ofNat_of_lt' hturn] at hread
  rw [parseExtra_parts, epochPart, hread]
  exact ⟨_, rfl, rfl, rfl, rfl⟩

end HeliosBsc
