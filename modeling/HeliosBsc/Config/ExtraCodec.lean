import HeliosBsc.Config.Extra
import HeliosBsc.Lib.Panics

/-!
# extraData as a codec

Writing the parsed fields one after the other gives back what was parsed, and parsing what was
written gives back the fields. The count that an epoch block starts with says where everything after
it lies, so no slice is out of range.
-/

namespace HeliosBsc

open Checked

/-- The fields one after the other, with the count of the records in an epoch block. -/
def encodeExtra (isEpoch : Bool) (p : ParsedExtra) : Bytes :=
  p.vanity ++
    ((if isEpoch then UInt8.ofNat p.validators.length :: epochRecordBytes p.validators else []) ++
      (p.turnLength.map UInt8.ofNat).toList ++ p.attestation) ++
    p.sealBytes

/-- The fields have their sizes, an epoch block has at least one record and no more than its count
byte can say, and from Bohr on it has a turn length. -/
structure ParsedExtra.Fits (version : ExtraDataVersion) (isEpoch : Bool) (p : ParsedExtra) :
    Prop where
  vanity : p.vanity.length = 32
  nextForkHash : p.nextForkHash = p.vanity.drop 28
  validators : if isEpoch then p.validators ≠ [] ∧ p.validators.length < 256
    else p.validators = []
  turnLength : if isEpoch = true ∧ version = .bohr then ∃ t < 256, p.turnLength = some t
    else p.turnLength = none
  sealBytes : p.sealBytes.length = 65

/-! ## What is read was written so -/

theorem sliceFixed_val {n : ℕ} {b : Bytes} {off : ℕ} (h : off + n ≤ b.length) :
    (sliceFixed n b off).val = (b.drop off).take n := by
  have hlen : ((b.drop off).take n).length = n := by
    rw [List.length_take, List.length_drop]
    omega
  unfold sliceFixed
  rw [dif_pos hlen]

theorem validatorAt_bytes {mid : Bytes} {i : ℕ} (h : 1 + (i + 1) * 68 ≤ mid.length) :
    (validatorAt mid i).address.val ++ (validatorAt mid i).voteKey.val =
      ((mid.drop 1).drop (i * 68)).take 68 := by
  unfold validatorAt validatorNumberSize validatorBytes
  simp only
  rw [sliceFixed_val (by omega), sliceFixed_val (by omega), List.drop_drop,
    show (68 : ℕ) = 20 + 48 from rfl, List.take_add, List.drop_drop]

theorem epochRecordBytes_read {mid : Bytes} {n : ℕ} (h : 1 + n * 68 ≤ mid.length) :
    epochRecordBytes ((List.range n).map (validatorAt mid)) = (mid.drop 1).take (n * 68) := by
  induction n with
  | zero => simp [epochRecordBytes]
  | succ n ih =>
    have hrecord := validatorAt_bytes h
    rw [List.range_succ, List.map_append, epochRecordBytes, List.flatMap_append]
    change epochRecordBytes _ ++ _ = _
    rw [ih (by omega), Nat.succ_mul, List.take_add]
    simpa [List.flatMap_cons] using hrecord

theorem exists_parts {extra : Bytes} (h : 97 ≤ extra.length) :
    ∃ (vanity : FixedBytes 32) (mid : Bytes) (sealBytes : FixedBytes 65),
      extra = vanity.val ++ mid ++ sealBytes.val := by
  refine ⟨⟨extra.take 32, ?_⟩, (extra.take (extra.length - 65)).drop 32,
    ⟨extra.drop (extra.length - 65), ?_⟩, ?_⟩
  · rw [List.length_take]
    omega
  · rw [List.length_drop]
    omega
  · have hvanity : extra.take 32 = (extra.take (extra.length - 65)).take 32 := by
      rw [List.take_take, Nat.min_eq_left (by omega)]
    simp only
    rw [hvanity, List.take_append_drop, List.take_append_drop]

theorem take_append_getD_drop {l : Bytes} {k : ℕ} (h : k < l.length) :
    l.take k ++ [UInt8.ofNat (l.getD k 0).toNat] ++ l.drop (k + 1) = l := by
  rw [UInt8.ofNat_toNat, List.getD_eq_getElem?_getD, List.getElem?_eq_getElem h, Option.getD_some,
    ← List.take_succ_eq_append_getElem h, List.take_append_drop]

theorem parseMid_eq_ok {version : ExtraDataVersion} (hversion : version ≠ .preLuban)
    {isEpoch : Bool} {mid : Bytes} {fields : List SealingValidator × Option ℕ × Bytes}
    (h : parseMid version isEpoch mid = .ok fields) :
    (if isEpoch then fields.1 ≠ [] ∧ fields.1.length < 256 else fields.1 = []) ∧
      (if isEpoch = true ∧ version = .bohr then ∃ t < 256, fields.2.1 = some t
        else fields.2.1 = none) ∧
      (if isEpoch then UInt8.ofNat fields.1.length :: epochRecordBytes fields.1 else []) ++
        (fields.2.1.map UInt8.ofNat).toList ++ fields.2.2 = mid := by
  cases isEpoch with
  | false =>
    simp only [parseMid, Bool.not_false, Bool.true_or, if_true, Bool.and_false,
      Bool.false_eq_true, if_false, pure_eq_ok, Except.ok.injEq] at h
    subst h
    simp
  | true =>
    simp only [parseMid, Bool.not_true, Bool.false_or, decide_eq_true_eq, if_neg hversion,
      bind_eq_ok, require_eq_ok] at h
    obtain ⟨-, hne, -, hneed, h⟩ := h
    cases mid with
    | nil => exact absurd rfl hne
    | cons c rest =>
      rw [List.headD_cons, validatorNumberSize, validatorBytes] at hneed h
      have hsize : 1 + c.toNat * 68 ≤ (c :: rest).length := by
        split at hneed <;> omega
      have hlength : ((List.range c.toNat).map (validatorAt (c :: rest))).length = c.toNat := by
        rw [List.length_map, List.length_range]
      have hrecords := epochRecordBytes_read hsize
      rw [List.drop_succ_cons, List.drop_zero] at hrecords
      have hvalidators : (List.range c.toNat).map (validatorAt (c :: rest)) ≠ [] ∧
          ((List.range c.toNat).map (validatorAt (c :: rest))).length < 256 := by
        refine ⟨?_, hlength.trans_lt c.toNat_lt⟩
        rw [← List.length_pos_iff, hlength]
        omega
      cases version with
      | preLuban => exact absurd rfl hversion
      | luban =>
        rw [if_neg (by decide), pure_eq_ok, Except.ok.injEq] at h
        subst h
        refine ⟨hvalidators, rfl, ?_⟩
        simp only [if_true]
        rw [hlength, UInt8.ofNat_toNat, hrecords, Nat.add_comm, List.drop_succ_cons]
        simp
      | bohr =>
        rw [if_pos rfl, pure_eq_ok, Except.ok.injEq] at h
        subst h
        refine ⟨hvalidators, ⟨_, UInt8.toNat_lt _, rfl⟩, ?_⟩
        have hturn : c.toNat * 68 < rest.length := by
          rw [if_pos rfl, List.length_cons] at hneed
          omega
        simp only [if_true]
        rw [hlength, UInt8.ofNat_toNat, hrecords, Nat.add_comm 1, List.getD_cons_succ,
          List.drop_succ_cons]
        exact congrArg (c :: ·) (take_append_getD_drop hturn)

/-- The parsed fields are in order and spell the input. -/
theorem encodeExtra_of_parseExtra {version : ExtraDataVersion} (hversion : version ≠ .preLuban)
    {isEpoch : Bool} {extra : Bytes} {p : ParsedExtra}
    (h : parseExtra extra version isEpoch = .ok p) :
    p.Fits version isEpoch ∧ encodeExtra isEpoch p = extra := by
  have hlong : 97 ≤ extra.length := by
    simp only [parseExtra, bind_eq_ok, require_eq_ok] at h
    obtain ⟨-, hlong, -⟩ := h
    exact hlong
  obtain ⟨vanity, mid, sealBytes, rfl⟩ := exists_parts hlong
  rw [parseExtra_parts] at h
  cases hmid : parseMid version isEpoch mid with
  | error e =>
    rw [hmid] at h
    cases h
  | ok fields =>
    rw [hmid] at h
    obtain rfl := Except.ok.inj h
    obtain ⟨hvalidators, hturn, hbytes⟩ := parseMid_eq_ok hversion hmid
    exact ⟨⟨vanity.len, rfl, hvalidators, hturn, sealBytes.len⟩,
      congrArg (vanity.val ++ · ++ sealBytes.val) hbytes⟩

/-! ## What is written is read so -/

theorem parseExtra_encodeExtra {version : ExtraDataVersion} (hversion : version ≠ .preLuban)
    {isEpoch : Bool} {p : ParsedExtra} (h : p.Fits version isEpoch) :
    parseExtra (encodeExtra isEpoch p) version isEpoch = .ok p := by
  obtain ⟨vanity, nextForkHash, validators, turnLength, attestation, sealBytes⟩ := p
  obtain ⟨hvanity, hfork, hvalidators, hturn, hseal⟩ := h
  have hparts := parseExtra_parts ⟨vanity, hvanity⟩ ⟨sealBytes, hseal⟩
  simp only at hvanity hfork hvalidators hturn hseal
  have hmid : parseMid version isEpoch
      ((if isEpoch then UInt8.ofNat validators.length :: epochRecordBytes validators else []) ++
        (turnLength.map UInt8.ofNat).toList ++ attestation) =
      .ok (validators, turnLength, attestation) := by
    cases isEpoch with
    | false =>
      simp only [Bool.false_eq_true, if_false, false_and] at hvalidators hturn
      subst hvalidators hturn
      simp [parseMid]
    | true =>
      simp only [if_true, true_and] at hvalidators hturn
      have hread := parseMid_records hvalidators.1 hvalidators.2 attestation
      cases version with
      | preLuban => exact absurd rfl hversion
      | luban =>
        rw [if_neg (by decide)] at hturn
        subst hturn
        simpa using hread.1
      | bohr =>
        rw [if_pos rfl] at hturn
        obtain ⟨t, ht, rfl⟩ := hturn
        have hbohr := hread.2 (UInt8.ofNat t)
        rw [UInt8.toNat_ofNat_of_lt' ht] at hbohr
        simpa using hbohr
  unfold encodeExtra
  rw [hparts, hmid, hfork]
  rfl

/-! ## No slice is out of range -/

namespace Panicking

open Panics

/-- `copy_from_slice(&b[off..stop])` into an array of `n` bytes. -/
def copySlice (n : ℕ) (b : Bytes) (off stop : ℕ) : Panics ExtraError (FixedBytes n) := do
  let s ← slice b off stop
  ExceptT.lift (if h : s.length = n then some ⟨s, h⟩ else none)

/-- A record of an epoch block. -/
def validatorAt (mid : Bytes) (i : ℕ) : Panics ExtraError SealingValidator := do
  let off := validatorNumberSize + i * validatorBytes
  let address ← copySlice 20 mid off (off + 20)
  let voteKey ← copySlice 48 mid (off + 20) (off + validatorBytes)
  return ⟨address, voteKey⟩

/-- A record of an epoch block before Luban. -/
def preLubanAt (mid : Bytes) (i : ℕ) : Panics ExtraError SealingValidator := do
  let address ← copySlice 20 mid (i * 20) ((i + 1) * 20)
  return ⟨address, .repeated 48 0⟩

/-- `parse_pre_luban_epoch`, the part that reads `mid`. -/
def parsePreLubanEpoch (mid : Bytes) : Panics ExtraError (List SealingValidator) :=
  if mid.length % 20 ≠ 0 then throw .invalidEpochValidators
  else (List.range (mid.length / 20)).mapM (preLubanAt mid)

/-- The part of `parse_extra` that reads the records of an epoch block, and what follows them. -/
def parseRecords (version : ExtraDataVersion) (mid : Bytes) (n : ℕ) :
    Panics ExtraError (List SealingValidator × Option ℕ × Bytes) := do
  let valsEnd := validatorNumberSize + n * validatorBytes
  let validators ← (List.range n).mapM (validatorAt mid)
  if version = .bohr then
    let turnLength ← index mid valsEnd
    let attestation ← slice mid (valsEnd + 1) mid.length
    return (validators, some turnLength.toNat, attestation)
  else
    let attestation ← slice mid valsEnd mid.length
    return (validators, none, attestation)

/-- The part of `parse_extra` that reads `mid`. -/
def parseMid (version : ExtraDataVersion) (isEpoch : Bool) (mid : Bytes) :
    Panics ExtraError (List SealingValidator × Option ℕ × Bytes) := do
  if !isEpoch || version = .preLuban then
    if version = .preLuban && isEpoch then
      let validators ← parsePreLubanEpoch mid
      return (validators, none, [])
    else return ([], none, mid)
  else if mid = [] then throw .invalidEpochValidators
  else
    let n := (← index mid 0).toNat
    let valsEnd := validatorNumberSize + n * validatorBytes
    let need := if version = .bohr then valsEnd + 1 else valsEnd
    if n = 0 ∨ mid.length < need then throw .invalidEpochValidators
    else parseRecords version mid n

/-- `parse_extra`. -/
def parseExtra (extra : Bytes) (version : ExtraDataVersion) (isEpoch : Bool) :
    Panics ExtraError ParsedExtra := do
  if extra.length < extraVanity + extraSeal then throw .tooShort
  else
    let vanity ← copySlice 32 extra 0 extraVanity
    let nextForkHash ← copySlice 4 vanity.val (extraVanity - nextForkHashSize) vanity.val.length
    let stop ← sub extra.length extraSeal
    let sealBytes ← copySlice 65 extra stop extra.length
    let mid ← slice extra extraVanity stop
    let (validators, turnLength, attestation) ← parseMid version isEpoch mid
    return ⟨vanity.val, nextForkHash.val, validators, turnLength, attestation, sealBytes.val⟩

theorem copySlice_eq {n off stop : ℕ} {b : Bytes} (hn : stop = off + n) (h : stop ≤ b.length) :
    copySlice n b off stop = total (.ok (sliceFixed n b off)) := by
  subst hn
  have hlen : ((b.drop off).take n).length = n := by
    rw [List.length_take, List.length_drop]
    omega
  unfold copySlice sliceFixed
  rw [slice_of_le (Nat.le_add_right off n) h, total_bind_ok, Nat.add_sub_cancel_left,
    dif_pos hlen, dif_pos hlen]
  rfl

theorem validatorAt_eq {mid : Bytes} {i : ℕ} (h : 1 + (i + 1) * 68 ≤ mid.length) :
    validatorAt mid i = total (.ok (HeliosBsc.validatorAt mid i)) := by
  unfold validatorAt HeliosBsc.validatorAt validatorNumberSize validatorBytes
  simp only
  rw [copySlice_eq rfl (by omega), total_bind_ok, copySlice_eq rfl (by omega)]
  rfl

theorem parsePreLubanEpoch_eq (mid : Bytes) :
    parsePreLubanEpoch mid = total (HeliosBsc.parsePreLubanEpoch mid) := by
  unfold parsePreLubanEpoch HeliosBsc.parsePreLubanEpoch
  by_cases hmod : mid.length % 20 = 0
  · rw [if_neg (not_not.mpr hmod), require_of hmod]
    apply mapM_of_total
    intro i hi
    have hin := List.mem_range.mp hi
    unfold preLubanAt
    rw [copySlice_eq (by omega) (by omega)]
    rfl
  · rw [if_pos hmod, require_of_not hmod]
    rfl

theorem parseRecords_eq {version : ExtraDataVersion} {mid : Bytes} {n : ℕ}
    (h : (if version = .bohr then validatorNumberSize + n * validatorBytes + 1
      else validatorNumberSize + n * validatorBytes) ≤ mid.length) :
    parseRecords version mid n = total (.ok (
      let valsEnd := validatorNumberSize + n * validatorBytes
      let validators := (List.range n).map (HeliosBsc.validatorAt mid)
      if version = .bohr then
        (validators, some (mid.getD valsEnd 0).toNat, mid.drop (valsEnd + 1))
      else (validators, none, mid.drop valsEnd))) := by
  have hvalidators : (List.range n).mapM (validatorAt mid) =
      total (.ok ((List.range n).map (HeliosBsc.validatorAt mid))) := by
    apply mapM_of_total
    intro i hi
    have hin := List.mem_range.mp hi
    apply validatorAt_eq
    unfold validatorNumberSize validatorBytes at h
    split at h <;> omega
  unfold parseRecords
  simp only
  rw [hvalidators, total_bind_ok]
  generalize validatorNumberSize + n * validatorBytes = valsEnd at h ⊢
  split
  · next hbohr =>
    rw [if_pos hbohr] at h
    have hturn : mid[valsEnd]? = some (mid.getD valsEnd 0) := by
      rw [List.getD_eq_getElem?_getD, List.getElem?_eq_getElem (by omega)]
      rfl
    rw [index_of_getElem? hturn, total_bind_ok, slice_of_le (by omega) le_rfl, total_bind_ok,
      List.take_of_length_le (by rw [List.length_drop])]
    rfl
  · next hluban =>
    rw [if_neg hluban] at h
    rw [slice_of_le (by omega) le_rfl, total_bind_ok,
      List.take_of_length_le (by rw [List.length_drop])]
    rfl

theorem parseMid_eq (version : ExtraDataVersion) (isEpoch : Bool) (mid : Bytes) :
    parseMid version isEpoch mid = total (HeliosBsc.parseMid version isEpoch mid) := by
  unfold parseMid HeliosBsc.parseMid
  by_cases hplain : (!isEpoch || decide (version = .preLuban)) = true
  · rw [if_pos hplain, if_pos hplain]
    by_cases hpre : (decide (version = .preLuban) && isEpoch) = true
    · rw [if_pos hpre, if_pos hpre, parsePreLubanEpoch_eq]
      cases HeliosBsc.parsePreLubanEpoch mid <;> rfl
    · rw [if_neg hpre, if_neg hpre]
      rfl
  · rw [if_neg hplain, if_neg hplain]
    cases mid with
    | nil => rfl
    | cons c rest =>
      have hcount : (index (c :: rest) 0 : Panics ExtraError UInt8) = total (.ok c) :=
        index_of_getElem? rfl
      rw [if_neg (List.cons_ne_nil c rest), require_of (List.cons_ne_nil c rest), hcount,
        total_bind_ok, ok_bind, List.headD_cons]
      simp only
      by_cases hshort : c.toNat = 0 ∨ (c :: rest).length <
          if version = .bohr then validatorNumberSize + c.toNat * validatorBytes + 1
          else validatorNumberSize + c.toNat * validatorBytes
      · rw [if_pos hshort, require_of_not (not_not.mpr hshort)]
        rfl
      · rw [if_neg hshort, require_of hshort, ok_bind,
          parseRecords_eq (not_lt.mp (not_or.mp hshort).2)]
        simp only
        split <;> rfl

/-- `parse_extra` never panics, whatever it is given. -/
theorem parseExtra_eq (extra : Bytes) (version : ExtraDataVersion) (isEpoch : Bool) :
    parseExtra extra version isEpoch = total (HeliosBsc.parseExtra extra version isEpoch) := by
  by_cases hlong : 97 ≤ extra.length
  · obtain ⟨vanity, mid, sealBytes, rfl⟩ := exists_parts hlong
    have hlen : (vanity.val ++ mid ++ sealBytes.val).length = 32 + mid.length + 65 := by
      simp only [List.length_append, vanity.len, sealBytes.len]
    have hvanity : sliceFixed 32 (vanity.val ++ mid ++ sealBytes.val) 0 = vanity := by
      apply sliceFixed_of_append vanity
      rw [List.drop_zero, List.append_assoc]
    have hseal : sliceFixed 65 (vanity.val ++ mid ++ sealBytes.val) (32 + mid.length) =
        sealBytes := by
      have hdrop : (vanity.val ++ mid ++ sealBytes.val).drop (32 + mid.length) =
          sealBytes.val ++ [] := by
        rw [List.append_nil, List.drop_left' (by rw [List.length_append, vanity.len])]
      exact sliceFixed_of_append sealBytes hdrop
    have hmid : ((vanity.val ++ mid ++ sealBytes.val).drop 32).take (32 + mid.length - 32) =
        mid := by
      rw [List.append_assoc, List.drop_left' vanity.len, Nat.add_sub_cancel_left, List.take_left]
    rw [parseExtra_parts]
    unfold parseExtra extraVanity extraSeal nextForkHashSize
    rw [if_neg (by omega), copySlice_eq rfl (by omega), total_bind_ok, hvanity,
      copySlice_eq (by rw [vanity.len]) le_rfl, total_bind_ok, sub_of_le (by omega), total_bind_ok,
      hlen, Nat.add_sub_cancel, copySlice_eq rfl (by omega), total_bind_ok, hseal,
      slice_of_le (by omega) (by omega), total_bind_ok, hmid, parseMid_eq]
    have hfork : (sliceFixed 4 vanity.val (32 - 4)).val = vanity.val.drop 28 := by
      rw [sliceFixed_val (by rw [vanity.len]), List.take_of_length_le]
      rw [List.length_drop, vanity.len]
    cases HeliosBsc.parseMid version isEpoch mid with
    | error e => rfl
    | ok fields =>
      rw [total_bind_ok, hfork]
      rfl
  · unfold parseExtra HeliosBsc.parseExtra extraVanity extraSeal
    rw [if_pos (by omega), require_of_not (by omega)]
    rfl

end Panicking

/-- In the Luban and the Bohr layout, in an epoch block and outside one: `parse_extra` accepts
exactly the strings that spell fields of the right sizes, the fields it returns spell what it was
given, and it returns the fields that were written. It never panics. -/
theorem extra_codec (version : ExtraDataVersion) (hversion : version ≠ .preLuban)
    (isEpoch : Bool) :
    (∀ extra, (∃ p, parseExtra extra version isEpoch = .ok p) ↔
      ∃ p : ParsedExtra, p.Fits version isEpoch ∧ extra = encodeExtra isEpoch p) ∧
    (∀ extra p, parseExtra extra version isEpoch = .ok p → encodeExtra isEpoch p = extra) ∧
    (∀ p : ParsedExtra, p.Fits version isEpoch →
      parseExtra (encodeExtra isEpoch p) version isEpoch = .ok p) ∧
    ∀ extra, (Panicking.parseExtra extra version isEpoch).run ≠ none := by
  refine ⟨?_, ?_, ?_, ?_⟩
  · intro extra
    constructor
    · rintro ⟨p, hp⟩
      obtain ⟨hfits, hbytes⟩ := encodeExtra_of_parseExtra hversion hp
      exact ⟨p, hfits, hbytes.symm⟩
    · rintro ⟨p, hfits, rfl⟩
      exact ⟨p, parseExtra_encodeExtra hversion hfits⟩
  · intro extra p hp
    exact (encodeExtra_of_parseExtra hversion hp).2
  · intro p hfits
    exact parseExtra_encodeExtra hversion hfits
  · intro extra
    rw [Panicking.parseExtra_eq]
    exact Option.some_ne_none _

/-- An epoch block with one validator. -/
theorem extra_codec_sample :
    let p : ParsedExtra :=
      { vanity := List.replicate 32 7
        nextForkHash := List.replicate 4 7
        validators := [⟨.repeated 20 1, .repeated 48 2⟩]
        turnLength := some 8
        attestation := [0xc0]
        sealBytes := List.replicate 65 9 }
    p.Fits .bohr true ∧ parseExtra (encodeExtra true p) .bohr true = .ok p := by
  intro p
  have hfits : p.Fits .bohr true := by
    constructor
    · rfl
    · rfl
    · exact ⟨List.cons_ne_nil _ _, by decide⟩
    · exact ⟨8, by decide, rfl⟩
    · rfl
  exact ⟨hfits, (extra_codec .bohr (by decide) true).2.2.1 p hfits⟩

end HeliosBsc
