import HeliosBsc.Execution.RawTx
import HeliosBsc.Execution.RlpBounds
import HeliosBsc.Lib.Panics

/-!
# What a transaction signature covers

`tx_signing_hash` cuts the signing preimage out of an envelope with a second walk over the items of
its list. The walk finds the boundaries that the decoder found, so what is hashed is the fields before
the signature, encoded again, and no slice or addition of the walk is out of range.
-/

namespace HeliosBsc

open Checked BigEndian

/-! ## The walk over the items -/

theorem splitLong_payload {ll : ℕ} {rest b tail : Bytes} (hll : ll ≤ 8)
    (h : splitLong ll rest = .ok (b, tail)) :
    ll ≤ rest.length ∧ value (rest.take ll) = b.length ∧ b = (rest.drop ll).take b.length ∧
      ll + b.length + tail.length = rest.length := by
  simp only [splitLong, bind_eq_ok, require_eq_ok, pure_eq_ok, Except.ok.injEq, Prod.mk.injEq,
    exists_const] at h
  obtain ⟨hrest, len, hbe, -, hlen, rfl, rfl⟩ := h
  have htake : ((rest.drop ll).take len).length = len := List.length_take_of_le hlen
  simp only [beLen, bind_eq_ok] at hbe
  obtain ⟨-, -, hbe⟩ := hbe
  have hfold := foldlM_beLenStep_of_ok (by
    simpa using value_lt_u64Size ((List.length_take_le ll rest).trans hll)) hbe
  rw [htake]
  refine ⟨hrest, by simpa using hfold.symm, rfl, ?_⟩
  rw [List.length_drop, List.length_drop]
  rw [List.length_drop] at hlen
  omega

theorem longItem_of_splitLong {ll : ℕ} {rest b tail : Bytes} (h0 : ll ≠ 0) (hll : ll ≤ 8)
    (h : splitLong ll rest = .ok (b, tail)) : longItem rest ll = .ok (1 + ll, b.length) := by
  obtain ⟨hrest, hvalue, -, -⟩ := splitLong_payload hll h
  unfold longItem
  rw [require_of (by omega), ok_bind, pure_eq_ok, hvalue]

theorem itemLen_of_splitItem {buf tail : Bytes} {c : Chunk} (h : splitItem buf = .ok (c, tail)) :
    itemLen buf = .ok (buf.length - tail.length) := by
  cases buf with
  | nil => cases h
  | cons p rest =>
    have hp := p.toNat_lt
    unfold itemLen
    simp only [List.length_cons]
    cases itemForm_of_splitItem h with
    | single hlow =>
      rw [if_pos hlow, ok_bind, require_of (by omega), ok_bind, pure_eq_ok, Except.ok.injEq]
      omega
    | short hlow hhigh hlen hcanonical =>
      rw [if_neg (by omega), if_pos hhigh, ok_bind, require_of (by omega), ok_bind, pure_eq_ok,
        List.length_drop, Except.ok.injEq]
      omega
    | long hlow hhigh hsplit =>
      have hlen := (splitLong_payload (by omega) hsplit).2.2.2
      rw [if_neg (by omega), if_neg (by omega), if_pos hhigh,
        longItem_of_splitLong (by omega) (by omega) hsplit, ok_bind, require_of (by omega), ok_bind,
        pure_eq_ok, Except.ok.injEq]
      omega
    | shortList hlow hhigh hlen =>
      rw [if_neg (by omega), if_neg (by omega), if_neg (by omega), if_pos hhigh, ok_bind,
        require_of (by omega), ok_bind, pure_eq_ok, List.length_drop, Except.ok.injEq]
      omega
    | longList hlow hsplit =>
      have hlen := (splitLong_payload (by omega) hsplit).2.2.2
      rw [if_neg (by omega), if_neg (by omega), if_neg (by omega), if_neg (by omega),
        longItem_of_splitLong (by omega) (by omega) hsplit, ok_bind, require_of (by omega), ok_bind,
        pure_eq_ok, Except.ok.injEq]
      omega

theorem payloadAt_of_le {buf : Bytes} {start len : ℕ} (h : start + len ≤ buf.length) :
    payloadAt buf start len = .ok ((buf.drop start).take len) := by
  unfold payloadAt
  rw [require_of h]
  rfl

theorem listPayload_of_splitItem {buf payload tail : Bytes}
    (h : splitItem buf = .ok (.list payload, tail)) : listPayload buf = .ok payload := by
  cases buf with
  | nil => cases h
  | cons p rest =>
    have hp := p.toNat_lt
    unfold listPayload
    simp only
    rcases listForm_of_splitItem h with ⟨hlow, hhigh, hlen, rfl⟩ | ⟨hlow, hsplit⟩
    · rw [if_pos (by omega), payloadAt_of_le (by rw [List.length_cons]; omega)]
      rfl
    · obtain ⟨hll, hvalue, hb, hlen⟩ := splitLong_payload (by omega) hsplit
      rw [if_neg (by omega), if_pos (by omega), require_of hll, ok_bind, hvalue, payloadAt_of_le
        (by rw [List.length_cons]; omega), Nat.add_comm 1, List.drop_succ_cons, ← hb]

theorem decodeOne_canonical {input rest : Bytes} {depth : ℕ} {x : Rlp}
    (h : decodeOne input depth = .ok (x, rest)) : input = encodeRlp x ++ rest := by
  rcases decodeOne_eq h with ⟨b, hs, rfl⟩ | ⟨payload, items, hs, hitems, rfl⟩
  · rw [(splitItem_eq hs).1, encodeRlp]
    rfl
  · simp only [decodeList, bind_eq_ok] at hitems
    obtain ⟨-, -, hitems⟩ := hitems
    rw [(splitItem_eq hs).1, encodeRlp_list, encodeList_flatten,
      decodeItems_canonical _ payload _ items le_rfl hitems]
    rfl

theorem decodeItems_eq_cons {payload : Bytes} {depth : ℕ} {x : Rlp} {items : List Rlp}
    (h : decodeItems payload depth = .ok (x :: items)) :
    ∃ c rest, splitItem payload = .ok (c, rest) ∧ payload = encodeRlp x ++ rest ∧
      decodeItems rest depth = .ok items := by
  have hne : payload ≠ [] := by
    rintro rfl
    rw [decodeItems_nil] at h
    cases h
  rw [decodeItems_step _ _ hne] at h
  simp only [bind_eq_ok, pure_eq_ok, Except.ok.injEq, Prod.exists, List.cons.injEq] at h
  obtain ⟨y, rest, hone, items', hitems, rfl, rfl⟩ := h
  rcases decodeOne_eq hone with ⟨b, hs, -⟩ | ⟨inner, sub, hs, -⟩
  · exact ⟨_, rest, hs, decodeOne_canonical hone, hitems⟩
  · exact ⟨_, rest, hs, decodeOne_canonical hone, hitems⟩

theorem eq_nil_of_decodeItems {payload : Bytes} {depth : ℕ} (h : decodeItems payload depth = .ok []) :
    payload = [] := by
  have hnil := decodeItems_canonical _ payload depth [] le_rfl h
  simpa using hnil.symm

/-- Where the items of a payload start, from position `pos` on. -/
def itemStarts : ℕ → List Rlp → List ℕ
  | _, [] => []
  | pos, x :: items => pos :: itemStarts (pos + (encodeRlp x).length) items

theorem itemOffsets_of_decodeItems {depth : ℕ} {items : List Rlp} (pre : Bytes) {payload : Bytes}
    (h : decodeItems payload depth = .ok items) :
    itemOffsets (pre ++ payload) items.length pre.length = .ok (itemStarts pre.length items) := by
  induction items generalizing pre payload with
  | nil =>
    obtain rfl := eq_nil_of_decodeItems h
    simp only [itemOffsets, List.length_nil, List.append_nil, require_of, ok_bind, pure_eq_ok,
      itemStarts]
  | cons x items ih =>
    obtain ⟨c, rest, hs, rfl, hitems⟩ := decodeItems_eq_cons h
    have hlen := itemLen_of_splitItem hs
    have hrest := ih (pre ++ encodeRlp x) hitems
    rw [List.length_append, Nat.add_sub_cancel] at hlen
    rw [List.append_assoc, List.length_append] at hrest
    rw [List.length_cons, itemOffsets, require_of (by simp), ok_bind, List.drop_left, hlen, ok_bind,
      hrest, ok_bind, pure_eq_ok, itemStarts]

theorem length_itemStarts (pos : ℕ) (items : List Rlp) :
    (itemStarts pos items).length = items.length := by
  induction items generalizing pos with
  | nil => rfl
  | cons x items ih => rw [itemStarts, List.length_cons, List.length_cons, ih]

theorem itemStarts_getD {items : List Rlp} {k : ℕ} (pos : ℕ) (hk : k < items.length) :
    (itemStarts pos items).getD k 0 = pos + ((items.take k).map encodeRlp).flatten.length := by
  induction items generalizing pos k with
  | nil => exact absurd hk (Nat.not_lt_zero k)
  | cons x items ih =>
    cases k with
    | zero => rfl
    | succ k =>
      rw [itemStarts, List.getD_cons_succ, ih _ (Nat.lt_of_succ_lt_succ hk), List.take_succ_cons,
        List.map_cons, List.flatten_cons, List.length_append, Nat.add_assoc]

theorem take_payload (items : List Rlp) (k : ℕ) :
    (items.map encodeRlp).flatten.take ((items.take k).map encodeRlp).flatten.length =
      ((items.take k).map encodeRlp).flatten := by
  conv_lhs => rw [← List.take_append_drop k items, List.map_append, List.flatten_append]
  simp only [List.take_append_drop]
  exact List.take_left

theorem listHeader_append (items : List Bytes) :
    listHeader items.flatten.length ++ items.flatten = encodeList items := by
  unfold listHeader
  simp only [encodeList]
  split_ifs <;> rfl

/-! ## The envelope -/

theorem decodeTxList_eq_ok {b : Bytes} {items : List Rlp} (h : decodeTxList b = .ok items) :
    decode b = .ok (.list items) := by
  unfold decodeTxList at h
  split at h
  · next v hv => rw [hv, Except.ok.inj h]
  all_goals cases h

/-- A list that was decoded was cut off whole, and its payload read item by item. -/
theorem split_of_decode_list {b : Bytes} {items : List Rlp} (h : decode b = .ok (.list items)) :
    ∃ payload, splitItem b = .ok (.list payload, []) ∧ decodeItems payload 1 = .ok items := by
  simp only [decode, bind_eq_ok, require_eq_ok, pure_eq_ok, Except.ok.injEq, Prod.exists] at h
  obtain ⟨y, rest, hone, -, rfl, rfl⟩ := h
  rcases decodeOne_eq hone with ⟨b', -, heq⟩ | ⟨payload, sub, hs, hsub, heq⟩
  · cases heq
  · obtain rfl := Rlp.list.inj heq
    simp only [decodeList, bind_eq_ok] at hsub
    obtain ⟨-, -, hsub⟩ := hsub
    exact ⟨payload, hs, hsub⟩

theorem spans_of_decode_list {b : Bytes} {items : List Rlp} (h : decode b = .ok (.list items)) :
    listPayload b = .ok (items.map encodeRlp).flatten ∧
      itemOffsets (items.map encodeRlp).flatten items.length 0 = .ok (itemStarts 0 items) := by
  obtain ⟨payload, hs, hitems⟩ := split_of_decode_list h
  have hpayload := decodeItems_canonical _ payload 1 items le_rfl hitems
  rw [hpayload]
  exact ⟨listPayload_of_splitItem hs, itemOffsets_of_decodeItems [] hitems⟩

theorem txItems_eq_ok {b : Bytes} {t : UInt8} {items : List Rlp} (h : txItems b = .ok (t, items)) :
    b.head? = some t ∧ decode (txEnvelope t b) = .ok (.list items) := by
  simp only [txItems, bind_eq_ok, pure_eq_ok, Except.ok.injEq, Prod.mk.injEq] at h
  obtain ⟨t', ht, items', hitems, rfl, rfl⟩ := h
  refine ⟨?_, decodeTxList_eq_ok hitems⟩
  unfold txType at ht
  cases b with
  | nil => cases ht
  | cons x rest =>
    simp only [bind_eq_ok, pure_eq_ok, Except.ok.injEq] at ht
    obtain ⟨-, -, -, -, rfl⟩ := ht
    rfl

/-! ## What is signed -/

/-- The recovery id that `v` stands for. -/
def recoveryId (t : UInt8) (v : ℕ) : ℕ :=
  if isTyped t then v else if v = 27 ∨ v = 28 then v - 27 else (v - 35) % 2

/-- The digest is over the fields before the signature, and the signature is that of the last three
items `v`, `r` and `s`. -/
structure SignatureOver (keccak256 : Bytes → Hash) (t : UInt8) (items : List Rlp) (digest : Hash)
    (sig : FixedBytes 65) (v r s : Bytes) : Prop where
  enough : 9 ≤ items.length
  lastThree : items.drop (items.length - 3) = [.bytes v, .bytes r, .bytes s]
  typed : isTyped t = true →
    digest = keccak256 (t :: encodeList ((items.take (items.length - 3)).map encodeRlp))
  legacy : isTyped t = false → value v = 27 ∨ value v = 28 →
    digest = keccak256 (encodeList ((items.take 6).map encodeRlp))
  replayProtected : isTyped t = false → 35 ≤ value v →
    digest = keccak256 (encodeList ((items.take 6).map encodeRlp ++
      [encodeUint ((value v - 35) / 2), encodeUint 0, encodeUint 0]))
  short : r.length ≤ 32 ∧ s.length ≤ 32
  signature : sig.val = (List.replicate (32 - r.length) 0 ++ r) ++
    (List.replicate (32 - s.length) 0 ++ s) ++ [UInt8.ofNat (recoveryId t (value v))]

theorem txItem_eq_ok {items : List Rlp} {i : ℕ} {x : Rlp} (h : txItem items i = .ok x) :
    items[i]? = some x := by
  unfold txItem at h
  split at h
  · next y hy => rw [hy, Except.ok.inj h]
  · cases h

theorem txBytes_eq_ok {item : Rlp} {b : Bytes} (h : txBytes item = .ok b) : item = .bytes b := by
  unfold txBytes at h
  cases item with
  | bytes s =>
    obtain rfl := Except.ok.inj h
    rfl
  | list l => cases h

theorem txUint_eq_ok {w : ℕ} {item : Rlp} {n : ℕ} (h : txUint w item = .ok n) :
    ∃ b, item = .bytes b ∧ value b = n := by
  simp only [txUint, bind_eq_ok, pure_eq_ok, Except.ok.injEq] at h
  obtain ⟨b, hb, -, -, -, -, rfl⟩ := h
  exact ⟨b, txBytes_eq_ok hb, rfl⟩

theorem pad32_of_le {b : Bytes} (h : b.length ≤ 32) :
    (pad32 b).val = List.replicate (32 - b.length) 0 ++ b := by
  unfold pad32
  simp only
  rw [Nat.sub_eq_zero_of_le h, List.drop_zero]

theorem itemBytes32_eq_ok {item : Rlp} {x : Hash} (h : itemBytes32 item = .ok x) :
    ∃ b, item = .bytes b ∧ b.length ≤ 32 ∧ x.val = List.replicate (32 - b.length) 0 ++ b := by
  simp only [itemBytes32, bind_eq_ok, require_eq_ok, exists_const, pure_eq_ok, Except.ok.injEq,
    not_or, not_lt] at h
  obtain ⟨b, hb, ⟨-, hlen⟩, rfl⟩ := h
  exact ⟨b, txBytes_eq_ok hb, hlen, pad32_of_le hlen⟩

theorem drop_lastThree {items : List Rlp} {a b c : Rlp} (h : 3 ≤ items.length)
    (ha : items[items.length - 3]? = some a) (hb : items[items.length - 2]? = some b)
    (hc : items[items.length - 1]? = some c) : items.drop (items.length - 3) = [a, b, c] := by
  have hlen : (items.drop (items.length - 3)).length = 3 := by
    rw [List.length_drop]
    omega
  obtain ⟨x, y, z, hxyz⟩ := List.length_eq_three.mp hlen
  have hx := congrArg (·[0]?) hxyz
  have hy := congrArg (·[1]?) hxyz
  have hz := congrArg (·[2]?) hxyz
  simp only [List.getElem?_drop, List.getElem?_cons_zero, List.getElem?_cons_succ] at hx hy hz
  rw [show items.length - 3 + 0 = items.length - 3 by omega, ha] at hx
  rw [show items.length - 3 + 1 = items.length - 2 by omega, hb] at hy
  rw [show items.length - 3 + 2 = items.length - 1 by omega, hc] at hz
  rw [hxyz, Option.some.inj hx, Option.some.inj hy, Option.some.inj hz]

section

variable {keccak256 : Bytes → Hash} {t : UInt8} {items : List Rlp} {v : ℕ} {preimage : Bytes}
  {recid : UInt8}

theorem signingPreimage_typed (ht : isTyped t = true) (hlen : 9 ≤ items.length)
    (h : signingPreimage t (items.map encodeRlp).flatten (itemStarts 0 items) items.length v =
      .ok (preimage, recid)) :
    preimage = t :: encodeList ((items.take (items.length - 3)).map encodeRlp) ∧
      recid = UInt8.ofNat v := by
  unfold signingPreimage at h
  simp only [if_pos ht, bind_eq_ok, pure_eq_ok, Except.ok.injEq, Prod.mk.injEq] at h
  obtain ⟨-, -, rfl, rfl⟩ := h
  rw [itemStarts_getD 0 (by omega), Nat.zero_add, take_payload, listHeader_append]
  exact ⟨rfl, rfl⟩

theorem signingPreimage_legacy (ht : isTyped t = false)
    (h : signingPreimage t (items.map encodeRlp).flatten (itemStarts 0 items) items.length v =
      .ok (preimage, recid)) :
    (v = 27 ∨ v = 28) ∧ preimage = encodeList ((items.take 6).map encodeRlp) ∧
        recid = UInt8.ofNat (v - 27) ∨
      35 ≤ v ∧ preimage = encodeList ((items.take 6).map encodeRlp ++
        [encodeUint ((v - 35) / 2), encodeUint 0, encodeUint 0]) ∧
        recid = UInt8.ofNat ((v - 35) % 2) := by
  unfold signingPreimage at h
  simp only [ht, Bool.false_eq_true, if_false, bind_eq_ok, require_eq_ok, exists_const] at h
  obtain ⟨hnine, h⟩ := h
  rw [itemStarts_getD 0 (by omega), Nat.zero_add, take_payload] at h
  split_ifs at h with hold hnew
  · simp only [pure_eq_ok, Except.ok.injEq, Prod.mk.injEq] at h
    obtain ⟨rfl, rfl⟩ := h
    exact .inl ⟨hold, listHeader_append _, rfl⟩
  · simp only [pure_eq_ok, Except.ok.injEq, Prod.mk.injEq] at h
    obtain ⟨rfl, rfl⟩ := h
    refine .inr ⟨hnew, ?_, rfl⟩
    rw [← listHeader_append]
    simp only [List.flatten_append, List.flatten_cons, List.flatten_nil, List.append_assoc,
      List.append_nil]
    rfl

/-- What is returned is the digest over the fields before the signature, and the signature. -/
theorem txSigningHash_eq_ok {b : Bytes} {digest : Hash} {sig : FixedBytes 65}
    (h : txSigningHash keccak256 b = .ok (digest, sig)) :
    ∃ t items v r s, b.head? = some t ∧ decode (txEnvelope t b) = .ok (.list items) ∧
      SignatureOver keccak256 t items digest sig v r s := by
  simp only [txSigningHash, bind_eq_ok, Prod.exists, require_eq_ok, exists_const, pure_eq_ok,
    Except.ok.injEq, Prod.mk.injEq] at h
  obtain ⟨t, items, htx, hnine, payload, hpayload, spans, hspans, iv, hiv, v, hv, ir, hir, r, hr,
    is, his, s, hs, preimage, recid, hpre, rfl, rfl⟩ := h
  obtain ⟨hhead, hdecode⟩ := txItems_eq_ok htx
  obtain ⟨hpayload', hspans'⟩ := spans_of_decode_list hdecode
  obtain rfl := Except.ok.inj (hpayload'.symm.trans hpayload)
  obtain rfl := Except.ok.inj (hspans'.symm.trans hspans)
  obtain ⟨bv, rfl, rfl⟩ := txUint_eq_ok hv
  obtain ⟨br, rfl, hbr, hpadr⟩ := itemBytes32_eq_ok hr
  obtain ⟨bs, rfl, hbs, hpads⟩ := itemBytes32_eq_ok hs
  have hlast := drop_lastThree (by omega) (txItem_eq_ok hiv) (txItem_eq_ok hir) (txItem_eq_ok his)
  refine ⟨t, items, bv, br, bs, hhead, hdecode, ?_⟩
  cases ht : isTyped t with
  | true =>
    obtain ⟨rfl, rfl⟩ := signingPreimage_typed ht hnine hpre
    refine ⟨hnine, hlast, fun _ => rfl, by simp [ht], by simp [ht], ⟨hbr, hbs⟩, ?_⟩
    simp only [recoveryId, ht, if_true, hpadr, hpads]
  | false =>
    rcases signingPreimage_legacy ht hpre with ⟨hold, rfl, rfl⟩ | ⟨hnew, rfl, rfl⟩
    · refine ⟨hnine, hlast, by simp [ht], fun _ _ => rfl, fun _ hge => absurd hold (by omega),
        ⟨hbr, hbs⟩, ?_⟩
      simp only [recoveryId, ht, Bool.false_eq_true, if_false, if_pos hold, hpadr, hpads]
    · have hnot : ¬ (value bv = 27 ∨ value bv = 28) := by omega
      refine ⟨hnine, hlast, by simp [ht], fun _ hold => absurd hold hnot, fun _ _ => rfl,
        ⟨hbr, hbs⟩, ?_⟩
      simp only [recoveryId, ht, Bool.false_eq_true, if_false, if_neg hnot, hpadr, hpads]

end

end HeliosBsc
