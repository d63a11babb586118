import HeliosBsc.Consensus.Vote
import HeliosBsc.Execution.RlpRoundTrip

/-!
# The spelling of an attestation

The vote decoder cuts items as the decoder of the execution crate does, so it reads back what
`rlp_util` writes: an attestation that fits its field widths decodes from its own encoding.
-/

namespace HeliosBsc

open Checked BigEndian

/-! ## The two ways of cutting an item agree -/

theorem foldlM_longLenStep (b : Bytes) (n : ℕ) (h : n * 256 ^ b.length + value b < u64Size) :
    b.foldlM longLenStep n = .ok (n * 256 ^ b.length + value b) := by
  refine foldlM_eq_value (fun n x hn => ?_) b n h
  simp only [longLenStep, require_of hn, ok_bind]

theorem voteTake_of_le {buf : Bytes} {n : ℕ} (h : n ≤ buf.length) :
    voteTake buf n = .ok (buf.take n, buf.drop n) := by
  unfold voteTake
  rw [require_of h]
  rfl

theorem longLen_of_splitLong {ll : ℕ} {buf payload tail : Bytes} (hll : ll ≤ 8)
    (h : splitLong ll buf = .ok (payload, tail)) :
    ∃ len rest, longLen buf ll = .ok (len, rest) ∧ voteTake rest len = .ok (payload, tail) := by
  simp only [splitLong, bind_eq_ok, require_eq_ok, pure_eq_ok, Except.ok.injEq, Prod.mk.injEq,
    beLen] at h
  obtain ⟨-, hbuf, len, ⟨-, hraw, hfold⟩, -, h55, -, hafter, rfl, rfl⟩ := h
  have hlen : (buf.take ll).length ≤ 8 := (List.length_take_le ll buf).trans hll
  have hval := value_lt_u64Size hlen
  rw [foldlM_beLenStep _ _ (by simpa using hval), Except.ok.injEq] at hfold
  refine ⟨len, buf.drop ll, ?_, voteTake_of_le hafter⟩
  have hhead : (buf.take ll).head? ≠ some 0 := by
    intro hzero
    have hone : (buf.take ll).length ≤ 1 := by
      by_contra hlong
      exact hraw (.inr ⟨hzero, by omega⟩)
    -- a lone zero byte announces nothing
    obtain ⟨x, t, hx⟩ := List.exists_cons_of_ne_nil fun hnil => hraw (.inl hnil)
    rw [hx] at hzero hone hfold
    obtain rfl : t = [] := List.eq_nil_of_length_eq_zero (by simpa using hone)
    simp only [List.head?_cons, Option.some.injEq] at hzero
    subst hzero
    simp [value] at hfold
    omega
  unfold longLen
  rw [voteTake_of_le hbuf, ok_bind]
  simp only [require_of hhead, ok_bind]
  rw [foldlM_longLenStep _ _ (by simpa using hval), hfold]
  simp only [ok_bind, require_of h55, pure_eq_ok]

theorem voteLong_of_splitLong {ll : ℕ} {buf : Bytes} {make : Bytes → Chunk} {r : Chunk × Bytes}
    (hll : ll ≤ 8)
    (h : (do let (payload, rest) ← splitLong ll buf; pure (make payload, rest)) = .ok r) :
    (do
      let (len, rest) ← longLen buf ll
      let (payload, rest) ← voteTake rest len
      pure (make payload, rest)) = .ok r := by
  simp only [bind_eq_ok, Prod.exists, pure_eq_ok, Except.ok.injEq] at h
  obtain ⟨payload, rest, hsplit, rfl⟩ := h
  obtain ⟨len, after, hlong, htake⟩ := longLen_of_splitLong hll hsplit
  rw [hlong, ok_bind]
  simp only
  rw [htake]
  rfl

theorem voteSplit_of_splitItem {buf : Bytes} {r : Chunk × Bytes} (h : splitItem buf = .ok r) :
    voteSplit buf = .ok r := by
  cases buf with
  | nil => simp [splitItem] at h
  | cons p tail =>
    have hp := p.toNat_lt
    simp only [splitItem] at h
    simp only [voteSplit]
    split_ifs at h ⊢
    · rw [Except.ok.injEq] at h ⊢
      exact h
    · simp only [bind_eq_ok, require_eq_ok, exists_const, pure_eq_ok, Except.ok.injEq] at h
      obtain ⟨hlen, hone, rfl⟩ := h
      have hcanon : ¬ (p.toNat - 0x80 = 1 ∧
          ∃ x ∈ (tail.take (p.toNat - 0x80)).head?, x.toNat < 0x80) := by
        rintro ⟨hl, x, hx, hlt⟩
        refine hone ⟨hl, x, ?_, hlt⟩
        rw [hl] at hx
        cases tail with
        | nil => simp at hx
        | cons y t => simpa using hx
      simp only [voteTake_of_le hlen, ok_bind, require_of hcanon, pure_eq_ok]
    · exact voteLong_of_splitLong (by omega) h
    · simp only [bind_eq_ok, require_eq_ok, exists_const, pure_eq_ok, Except.ok.injEq] at h
      obtain ⟨hlen, rfl⟩ := h
      rw [voteTake_of_le hlen]
      simp only [ok_bind, pure_eq_ok]
    · exact voteLong_of_splitLong (by omega) h

/-! ## Reading what was written -/

theorem readItems_nil (inner : Bytes → Except VoteError (List Rlp)) : readItems inner [] = .ok [] := by
  rw [readItems]
  rfl

theorem readItems_encodeBytes (inner : Bytes → Except VoteError (List Rlp)) {b : Bytes}
    (tail : Bytes) (h : b.length < u64Size) :
    readItems inner (encodeBytes b ++ tail) =
      (readItems inner tail).map fun items => .bytes b :: items := by
  rw [readItems, if_neg (by simp [encodeBytes_ne_nil b])]
  have hsplit := voteSplit_of_splitItem (splitItem_encodeBytes tail h)
  split
  · next e he => rw [hsplit] at he; cases he
  · next b' rest hr =>
    rw [hsplit] at hr
    cases hr
    cases readItems inner tail <;> rfl
  · next p rest hr => rw [hsplit] at hr; cases hr

theorem readItems_encodeList (inner : Bytes → Except VoteError (List Rlp)) {encoded : List Bytes}
    {items : List Rlp} (tail : Bytes) (h : encoded.flatten.length < u64Size)
    (hinner : inner encoded.flatten = .ok items) :
    readItems inner (encodeList encoded ++ tail) =
      (readItems inner tail).map fun rest => .list items :: rest := by
  have hne : encodeList encoded ≠ [] := by
    have := flatten_length_lt_encodeList encoded
    exact List.ne_nil_of_length_pos (by omega)
  rw [readItems, if_neg (by simp [hne])]
  have hsplit := voteSplit_of_splitItem (splitItem_encodeList tail h)
  split
  · next e he => rw [hsplit] at he; cases he
  · next b rest hr => rw [hsplit] at hr; cases hr
  · next p rest hr =>
    rw [hsplit] at hr
    cases hr
    rw [hinner, ok_bind]
    cases readItems inner tail <;> rfl

/-- The bytes of an unsigned integer, without leading zeros. -/
def uintBytes (n : ℕ) : Bytes := strip (BigEndian.bytes 16 n)

theorem value_uintBytes {n : ℕ} (h : n < u64Size) : value (uintBytes n) = n := by
  rw [uintBytes, value_strip, value_bytes_of_lt]
  rw [u64Size_eq] at h
  exact h.trans (by norm_num)

theorem length_uintBytes_le {n : ℕ} (h : n < u64Size) : (uintBytes n).length ≤ 8 := by
  cases hs : uintBytes n with
  | nil => simp
  | cons x t =>
    have hx : x ≠ 0 := strip_head_ne_zero hs
    have hv := value_uintBytes h
    rw [hs, value_cons] at hv
    by_contra hlong
    have hpow : 256 ^ 8 ≤ 256 ^ t.length :=
      Nat.pow_le_pow_right (by norm_num) (by rw [List.length_cons] at hlong; omega)
    have hxpos : 1 ≤ x.toNat := Nat.one_le_iff_ne_zero.mpr fun hz => hx (UInt8.toNat.inj hz)
    have hmul := Nat.le_mul_of_pos_left (256 ^ t.length) hxpos
    rw [u64Size_eq_pow] at h
    omega

theorem encodeUint128_eq (n : ℕ) : encodeUint128 n = encodeBytes (uintBytes n) := by
  unfold encodeUint128 encodeUintOfWidth uintBytes
  split
  · next h =>
    subst h
    rfl
  · rfl

theorem uintOf_uintBytes {n : ℕ} (h : n < u64Size) : uintOf (uintBytes n) = .ok n := by
  unfold uintOf
  rw [require_of (length_uintBytes_le h), ok_bind, require_of, ok_bind, value_uintBytes h]
  · rfl
  · cases hs : uintBytes n with
    | nil => simp
    | cons x t => simpa using strip_head_ne_zero hs

theorem fixedStr_val {n : ℕ} (x : FixedBytes n) (what : String) :
    fixedStr n x.val what = .ok x := by
  unfold fixedStr
  rw [dif_pos x.len]

/-! ## Attestations -/

/-- The encoding of an attestation. -/
def VoteAttestation.encode (a : VoteAttestation) : Bytes :=
  encodeList [encodeUint128 a.voteAddressSet, encodeBytes a.aggSignature.val, a.data.encode,
    encodeBytes a.extra]

/-- The numbers of a vote are `u64`s. -/
structure VoteData.Fits (d : VoteData) : Prop where
  source : d.sourceNumber < u64Size
  target : d.targetNumber < u64Size

/-- The attestation fits its field widths; the extra bytes are at most the allowed ones. -/
structure VoteAttestation.Fits (a : VoteAttestation) : Prop where
  set : a.voteAddressSet < u64Size
  data : a.data.Fits
  extra : a.extra.length ≤ maxAttestationExtraLen

/-- The attestation is a value of its type: the numbers are `u64`s, the extra bytes a `Vec`. -/
structure VoteAttestation.Typed (a : VoteAttestation) : Prop where
  set : a.voteAddressSet < u64Size
  data : a.data.Fits
  extra : a.extra.length ≤ isizeMax

theorem VoteAttestation.Fits.typed {a : VoteAttestation} (h : a.Fits) : a.Typed where
  set := h.set
  data := h.data
  extra := h.extra.trans (by decide)

theorem length_uint_lt {n : ℕ} (h : n < u64Size) : (uintBytes n).length < u64Size := by
  have h8 := length_uintBytes_le h
  rw [u64Size_eq]
  omega

theorem length_fixed_lt {n : ℕ} (x : FixedBytes n) (h : n ≤ 1000) : x.val.length < u64Size := by
  rw [x.len, u64Size_eq]
  omega

theorem VoteData.length_encode_payload {d : VoteData} (h : d.Fits) :
    [encodeUint128 d.sourceNumber, encodeBytes d.sourceHash.val, encodeUint128 d.targetNumber,
      encodeBytes d.targetHash.val].flatten.length ≤ 200 := by
  have h1 := length_encodeBytes_le (uintBytes d.sourceNumber)
  have h2 := length_encodeBytes_le d.sourceHash.val
  have h3 := length_encodeBytes_le (uintBytes d.targetNumber)
  have h4 := length_encodeBytes_le d.targetHash.val
  have h5 := length_uintBytes_le h.source
  have h6 := length_uintBytes_le h.target
  have h7 := d.sourceHash.len
  have h8 := d.targetHash.len
  simp only [encodeUint128_eq, List.flatten_cons, List.flatten_nil, List.length_append,
    List.length_nil]
  omega

theorem readItems_voteData {d : VoteData} (h : d.Fits)
    (inner : Bytes → Except VoteError (List Rlp)) :
    readItems inner [encodeUint128 d.sourceNumber, encodeBytes d.sourceHash.val,
      encodeUint128 d.targetNumber, encodeBytes d.targetHash.val].flatten =
      .ok [.bytes (uintBytes d.sourceNumber), .bytes d.sourceHash.val,
        .bytes (uintBytes d.targetNumber), .bytes d.targetHash.val] := by
  simp only [encodeUint128_eq, List.flatten_cons, List.flatten_nil]
  rw [readItems_encodeBytes _ _ (length_uint_lt h.source),
    readItems_encodeBytes _ _ (length_fixed_lt d.sourceHash (by norm_num)),
    readItems_encodeBytes _ _ (length_uint_lt h.target),
    readItems_encodeBytes _ _ (length_fixed_lt d.targetHash (by norm_num)), readItems_nil]
  rfl

theorem readVoteData_bytes {d : VoteData} (h : d.Fits) :
    readVoteData [.bytes (uintBytes d.sourceNumber), .bytes d.sourceHash.val,
      .bytes (uintBytes d.targetNumber), .bytes d.targetHash.val] = .ok d := by
  simp [readVoteData, strOf, uintOf_uintBytes h.source, uintOf_uintBytes h.target, fixedStr_val]

theorem decodeVoteAttestation_encode {a : VoteAttestation} (h : a.Typed) :
    decodeVoteAttestation a.encode = .ok (some a) := by
  have hextra : a.extra.length < u64Size := lt_u64Size_of_le_isizeMax h.extra
  have hdata := VoteData.length_encode_payload h.data
  have hinner : decodeVoteList 1 [encodeUint128 a.data.sourceNumber,
      encodeBytes a.data.sourceHash.val, encodeUint128 a.data.targetNumber,
      encodeBytes a.data.targetHash.val].flatten = .ok _ := readItems_voteData h.data _
  have hfit : [encodeUint128 a.voteAddressSet, encodeBytes a.aggSignature.val, a.data.encode,
      encodeBytes a.extra].flatten.length < u64Size := by
    have h1 := length_encodeBytes_le (uintBytes a.voteAddressSet)
    have h2 := length_encodeBytes_le a.aggSignature.val
    have h3 := length_encodeList_le [encodeUint128 a.data.sourceNumber,
      encodeBytes a.data.sourceHash.val, encodeUint128 a.data.targetNumber,
      encodeBytes a.data.targetHash.val]
    have h4 := length_encodeBytes_le a.extra
    have h5 := length_uintBytes_le h.set
    have h6 := a.aggSignature.len
    have h7 := h.extra
    unfold isizeMax at h7
    rw [u64Size_eq]
    simp only [encodeUint128_eq, VoteData.encode, List.flatten_cons, List.flatten_nil,
      List.length_append, List.length_nil] at h3 hdata ⊢
    omega
  have hitems : decodeVoteList maxVoteRlpDepth [encodeUint128 a.voteAddressSet,
      encodeBytes a.aggSignature.val, a.data.encode, encodeBytes a.extra].flatten =
      .ok [.bytes (uintBytes a.voteAddressSet), .bytes a.aggSignature.val,
        .list [.bytes (uintBytes a.data.sourceNumber), .bytes a.data.sourceHash.val,
          .bytes (uintBytes a.data.targetNumber), .bytes a.data.targetHash.val],
        .bytes a.extra] := by
    rw [maxVoteRlpDepth, decodeVoteList]
    simp only [encodeUint128_eq a.voteAddressSet, List.flatten_cons, List.flatten_nil]
    rw [readItems_encodeBytes _ _ (length_uint_lt h.set),
      readItems_encodeBytes _ _ (length_fixed_lt a.aggSignature (by norm_num)), VoteData.encode,
      readItems_encodeList _ _ (by rw [u64Size_eq]; omega) hinner,
      readItems_encodeBytes _ _ hextra, readItems_nil]
    rfl
  have hsplit := voteSplit_of_splitItem (splitItem_encodeList [] hfit)
  rw [List.append_nil] at hsplit
  have hne : a.encode ≠ [] := by
    have := flatten_length_lt_encodeList [encodeUint128 a.voteAddressSet,
      encodeBytes a.aggSignature.val, a.data.encode, encodeBytes a.extra]
    exact List.ne_nil_of_length_pos (by unfold VoteAttestation.encode; omega)
  unfold decodeVoteAttestation
  rw [if_neg hne]
  unfold VoteAttestation.encode decodeTop
  rw [hsplit]
  generalize [encodeUint128 a.voteAddressSet, encodeBytes a.aggSignature.val, a.data.encode,
    encodeBytes a.extra].flatten = payload at hitems
  simp [hitems, listOf, strOf, uintOf_uintBytes h.set, fixedStr_val, readVoteData_bytes h.data,
    require_of]

end HeliosBsc
