import HeliosBsc.Execution.SigningHash

/-!
# The signing walk stays inside its input

The functions behind `tx_signing_hash` once more, with the operations of the language that can panic:
an index or a slice out of range, an addition or a subtraction that leaves 64 bits. The second walk
does not check what it reads as the decoder does; it is safe because it only runs over what the decoder
has accepted.
-/

namespace HeliosBsc

open Checked BigEndian Panics

namespace Panicking

/-- What `decode_list` makes of the result of `decode`. -/
def asTxList : Except RlpError Rlp → Except RawTxError (List Rlp)
  | .ok (.list v) => .ok v
  | .ok (.bytes _) => .error .invalidRlp
  | .error .truncated => .error .truncated
  | .error _ => .error .invalidRlp

/-- `decode_list`. -/
def decodeTxList (b : Bytes) : Panics RawTxError (List Rlp) := mapResult asTxList (decode b)

/-- `(n << 8) | x` on 64 bits. -/
def shiftIn (n : ℕ) (x : UInt8) : ℕ := n * 256 % u64Size + x.toNat

/-- `b.len() > 1 && b[0] == 0`. -/
def isPadded (b : Bytes) : Panics RawTxError Bool :=
  if 1 < b.length then (· == 0) <$> index b 0 else pure false

/-- `rlp_u64`. -/
def rlpU64 (item : Rlp) : Panics RawTxError ℕ := do
  let b ← total (txBytes item)
  if 8 < b.length then throw .invalidRlp
  else if ← isPadded b then throw .invalidRlp
  else return b.foldl shiftIn 0

/-- The bytes of a length, and the number they spell. -/
def announcedLen (buf : Bytes) (ll : ℕ) : Panics RawTxError (ℕ × ℕ) := do
  let lb ← slice buf 1 (1 + ll)
  return (1 + ll, lb.foldl shiftIn 0)

/-- Where the payload of a list starts, and how long it is. -/
def listSpan (buf : Bytes) : Panics RawTxError (ℕ × ℕ) :=
  match buf with
  | [] => throw .truncated
  | p :: _ =>
    if 0xc0 ≤ p.toNat ∧ p.toNat ≤ 0xf7 then do
      let len ← sub p.toNat 0xc0
      return (1, len)
    else if 0xf8 ≤ p.toNat then do
      let ll ← sub p.toNat 0xf7
      if buf.length < 1 + ll then throw .truncated else announcedLen buf ll
    else throw .invalidRlp

/-- `list_payload`. -/
def listPayload (buf : Bytes) : Panics RawTxError Bytes := do
  let (start, len) ← listSpan buf
  let stop ← add u64Size start len
  if stop ≤ buf.length then slice buf start stop else throw .truncated

/-- `long`. -/
def longItem (buf : Bytes) (ll : ℕ) : Panics RawTxError (ℕ × ℕ) :=
  if ll = 0 ∨ 8 < ll ∨ buf.length < 1 + ll then throw .invalidRlp else announcedLen buf ll

/-- The header and the payload length of the first item. -/
def itemSpan (buf : Bytes) : Panics RawTxError (ℕ × ℕ) :=
  match buf with
  | [] => throw .truncated
  | p :: _ =>
    if p.toNat ≤ 0x7f then pure (0, 1)
    else if p.toNat ≤ 0xb7 then do
      let len ← sub p.toNat 0x80
      return (1, len)
    else if p.toNat ≤ 0xbf then do
      let ll ← sub p.toNat 0xb7
      longItem buf ll
    else if p.toNat ≤ 0xf7 then do
      let len ← sub p.toNat 0xc0
      return (1, len)
    else do
      let ll ← sub p.toNat 0xf7
      longItem buf ll

/-- `item_len`. -/
def itemLen (buf : Bytes) : Panics RawTxError ℕ := do
  let (hdr, len) ← itemSpan buf
  let all ← add u64Size hdr len
  if buf.length < all then throw .truncated else return all

/-- The loop of `item_offsets` from position `pos` on. -/
def itemOffsets (payload : Bytes) : ℕ → ℕ → Panics RawTxError (List ℕ)
  | 0, pos => if pos = payload.length then return [] else throw .invalidRlp
  | count + 1, pos => do
    if payload.length < pos then throw .truncated
    else
      let len ← itemLen (payload.drop pos)
      let rest ← itemOffsets payload count (← add u64Size pos len)
      return pos :: rest

/-- `item_bytes32`. -/
def itemBytes32 (item : Rlp) : Panics RawTxError Hash := do
  let b ← total (txBytes item)
  if b = [] ∨ 32 < b.length then throw .unsigned
  else
    let _ ← sub 32 b.length
    return pad32 b

/-- The bytes that were signed and the recovery id. -/
def signingPreimage (t : UInt8) (payload : Bytes) (spans : List ℕ) (n sigV : ℕ) :
    Panics RawTxError (Bytes × UInt8) := do
  if isTyped t then
    let cut ← index spans (← sub n 3)
    if 1 < sigV then throw .invalidRlp
    else
      let body ← slice payload 0 cut
      return (t :: (listHeader cut ++ body), UInt8.ofNat sigV)
  else if n ≠ 9 then throw .truncated
  else
    let body ← slice payload 0 (← index spans 6)
    if sigV = 27 ∨ sigV = 28 then
      return (listHeader body.length ++ body, UInt8.ofNat (← sub sigV 27))
    else if 35 ≤ sigV then
      let rest ← sub sigV 35
      let body := body ++ encodeUint (rest / 2) ++ [0x80, 0x80]
      return (listHeader body.length ++ body, UInt8.ofNat (rest % 2))
    else throw .unprotected

/-- `if typed { &bytes[1..] } else { bytes }`. -/
def txEnvelope (t : UInt8) (b : Bytes) : Panics RawTxError Bytes :=
  if isTyped t then slice b 1 b.length else pure b

/-- `items[n - k]`. -/
def itemFromEnd (items : List Rlp) (k : ℕ) : Panics RawTxError Rlp := do
  let i ← sub items.length k
  index items i

/-- `tx_signing_hash`. -/
def txSigningHash (keccak256 : Bytes → Hash) (b : Bytes) :
    Panics RawTxError (Hash × FixedBytes 65) := do
  if b = [] then throw .empty
  else if maxRawTx < b.length then throw .tooLarge
  else
    let t ← index b 0
    if 0x05 ≤ t.toNat ∧ t.toNat ≤ 0x7f then throw (.unknownType t)
    else
      let envelope ← txEnvelope t b
      let items ← decodeTxList envelope
      let n := items.length
      if n < 9 then throw .truncated
      else
        let payload ← listPayload envelope
        let spans ← itemOffsets payload n 0
        let sigV ← rlpU64 (← itemFromEnd items 3)
        let r ← itemBytes32 (← itemFromEnd items 2)
        let s ← itemBytes32 (← itemFromEnd items 1)
        let (preimage, recid) ← signingPreimage t payload spans n sigV
        return (keccak256 preimage, ⟨r.val ++ s.val ++ [recid], length_signature r s recid⟩)

/-! ## No step panics -/

theorem decodeTxList_eq (b : Bytes) : decodeTxList b = total (HeliosBsc.decodeTxList b) := by
  have hdecode : mapResult asTxList (decode b) = total (asTxList (HeliosBsc.decode b)) := by
    rw [decode_eq]
    rfl
  rw [decodeTxList, hdecode]
  rfl

theorem foldl_shiftIn (b : Bytes) (n : ℕ) (h : n * 256 ^ b.length + value b < u64Size) :
    b.foldl shiftIn n = n * 256 ^ b.length + value b := by
  rw [List.foldl_eq_foldlM]
  refine foldlM_eq_value (m := Id) (fun n x hn => ?_) b n h
  have hshift : n * 256 < u64Size := (Nat.le_add_right _ _).trans_lt hn
  show shiftIn n x = n * 256 + x.toNat
  rw [shiftIn, Nat.mod_eq_of_lt hshift]

theorem foldl_shiftIn_of_length {b : Bytes} (h : b.length ≤ 8) : b.foldl shiftIn 0 = value b := by
  rw [foldl_shiftIn b 0 (by simpa using value_lt_u64Size h)]
  simp

theorem isPadded_eq (b : Bytes) :
    isPadded b = total (.ok (decide (1 < b.length ∧ b.head? = some 0))) := by
  unfold isPadded
  cases b with
  | nil => rfl
  | cons x t =>
    split
    · next h =>
      have hx : (index (x :: t) 0 : Panics RawTxError UInt8) = total (.ok x) := index_of_getElem? rfl
      rw [hx]
      simp only [h, true_and, List.head?_cons, Option.some.injEq]
      rfl
    · next h =>
      simp only [h, false_and, decide_false]
      rfl

theorem rlpU64_eq (item : Rlp) : rlpU64 item = total (txUint 8 item) := by
  unfold rlpU64 txUint
  cases txBytes item with
  | error e => rfl
  | ok b =>
    rw [total_bind_ok, ok_bind, isPadded_eq]
    by_cases h8 : 8 < b.length
    · rw [if_pos h8, require_of_not (by omega)]
      rfl
    rw [if_neg h8, require_of (by omega), ok_bind, total_bind_ok]
    by_cases hpad : 1 < b.length ∧ b.head? = some 0
    · rw [if_pos (decide_eq_true hpad), require_of_not (not_not.mpr hpad)]
      rfl
    · rw [if_neg (by simpa using hpad), require_of hpad, ok_bind,
        foldl_shiftIn_of_length (by omega)]
      rfl

theorem itemBytes32_eq (item : Rlp) : itemBytes32 item = total (HeliosBsc.itemBytes32 item) := by
  unfold itemBytes32 HeliosBsc.itemBytes32
  cases txBytes item with
  | error e => rfl
  | ok b =>
    rw [total_bind_ok, ok_bind]
    by_cases h : b = [] ∨ 32 < b.length
    · rw [if_pos h, require_of_not (not_not.mpr h)]
      rfl
    · rw [if_neg h, require_of h, sub_of_le (by omega)]
      rfl

theorem announcedLen_eq {p : UInt8} {rest b tail : Bytes} {ll : ℕ} (hll : ll ≤ 8)
    (h : HeliosBsc.splitLong ll rest = .ok (b, tail)) :
    announcedLen (p :: rest) ll = total (.ok (1 + ll, b.length)) := by
  obtain ⟨hrest, hvalue, -, -⟩ := splitLong_payload hll h
  unfold announcedLen
  rw [slice_of_le (by omega) (by rw [List.length_cons]; omega), total_bind_ok, Nat.add_sub_cancel_left,
    List.drop_succ_cons, List.drop_zero,
    foldl_shiftIn_of_length ((List.length_take_le ll rest).trans hll), hvalue]
  rfl

theorem longItem_eq {p : UInt8} {rest b tail : Bytes} {ll : ℕ} (h0 : ll ≠ 0) (hll : ll ≤ 8)
    (h : HeliosBsc.splitLong ll rest = .ok (b, tail)) :
    longItem (p :: rest) ll = total (.ok (1 + ll, b.length)) := by
  have hrest := (splitLong_payload hll h).1
  unfold longItem
  rw [if_neg (by rw [List.length_cons]; omega), announcedLen_eq hll h]

theorem itemSpan_eq {buf tail : Bytes} {c : Chunk} (h : HeliosBsc.splitItem buf = .ok (c, tail)) :
    ∃ hdr len, itemSpan buf = total (.ok (hdr, len)) ∧ hdr + len + tail.length = buf.length := by
  cases buf with
  | nil => cases h
  | cons p rest =>
    have hp := p.toNat_lt
    unfold itemSpan
    simp only [List.length_cons]
    cases itemForm_of_splitItem h with
    | single hlow =>
      refine ⟨0, 1, ?_, by omega⟩
      rw [if_pos hlow]
      rfl
    | short hlow hhigh hlen hcanonical =>
      refine ⟨1, p.toNat - 0x80, ?_, by rw [List.length_drop]; omega⟩
      rw [if_neg (by omega), if_pos hhigh, sub_of_le (by omega)]
      rfl
    | @long b _ hlow hhigh hsplit =>
      have hlen := (splitLong_payload (by omega) hsplit).2.2.2
      refine ⟨1 + (p.toNat - 0xb7), b.length, ?_, by omega⟩
      rw [if_neg (by omega), if_neg (by omega), if_pos hhigh, sub_of_le (by omega), total_bind_ok,
        longItem_eq (by omega) (by omega) hsplit]
    | shortList hlow hhigh hlen =>
      refine ⟨1, p.toNat - 0xc0, ?_, by rw [List.length_drop]; omega⟩
      rw [if_neg (by omega), if_neg (by omega), if_neg (by omega), if_pos hhigh,
        sub_of_le (by omega)]
      rfl
    | @longList payload _ hlow hsplit =>
      have hlen := (splitLong_payload (by omega) hsplit).2.2.2
      refine ⟨1 + (p.toNat - 0xf7), payload.length, ?_, by omega⟩
      rw [if_neg (by omega), if_neg (by omega), if_neg (by omega), if_neg (by omega),
        sub_of_le (by omega), total_bind_ok, longItem_eq (by omega) (by omega) hsplit]

theorem itemLen_eq {buf tail : Bytes} {c : Chunk} (h : HeliosBsc.splitItem buf = .ok (c, tail))
    (hsize : buf.length < u64Size) : itemLen buf = total (.ok (buf.length - tail.length)) := by
  obtain ⟨hdr, len, hspan, hlen⟩ := itemSpan_eq h
  unfold itemLen
  rw [hspan, total_bind_ok]
  simp only
  rw [add_of_lt (by omega), total_bind_ok, if_neg (by omega),
    show buf.length - tail.length = hdr + len by omega]
  rfl

theorem listSpan_eq {buf payload tail : Bytes}
    (h : HeliosBsc.splitItem buf = .ok (.list payload, tail)) :
    ∃ start len, listSpan buf = total (.ok (start, len)) ∧ start + len ≤ buf.length ∧
      (buf.drop start).take len = payload := by
  cases buf with
  | nil => cases h
  | cons p rest =>
    have hp := p.toNat_lt
    unfold listSpan
    simp only [List.length_cons]
    rcases listForm_of_splitItem h with ⟨hlow, hhigh, hlen, rfl⟩ | ⟨hlow, hsplit⟩
    · refine ⟨1, p.toNat - 0xc0, ?_, by omega, rfl⟩
      rw [if_pos (by omega), sub_of_le (by omega)]
      rfl
    · obtain ⟨hll, -, hb, hlen⟩ := splitLong_payload (by omega) hsplit
      refine ⟨1 + (p.toNat - 0xf7), payload.length, ?_, by omega, ?_⟩
      · rw [if_neg (by omega), if_pos (by omega), sub_of_le (by omega), total_bind_ok,
          if_neg (by omega), announcedLen_eq (by omega) hsplit]
      · rw [Nat.add_comm 1, List.drop_succ_cons, ← hb]

theorem listPayload_eq {buf payload tail : Bytes}
    (h : HeliosBsc.splitItem buf = .ok (.list payload, tail)) (hsize : buf.length < u64Size) :
    listPayload buf = total (.ok payload) := by
  obtain ⟨start, len, hspan, hlen, hpayload⟩ := listSpan_eq h
  unfold listPayload
  rw [hspan, total_bind_ok]
  simp only
  rw [add_of_lt (by omega), total_bind_ok, if_pos hlen, slice_of_le (by omega) hlen,
    Nat.add_sub_cancel_left, hpayload]

theorem itemOffsets_eq {depth : ℕ} {items : List Rlp} (pre : Bytes) {payload : Bytes}
    (h : HeliosBsc.decodeItems payload depth = .ok items) (hsize : (pre ++ payload).length < u64Size) :
    itemOffsets (pre ++ payload) items.length pre.length =
      total (.ok (itemStarts pre.length items)) := by
  induction items generalizing pre payload with
  | nil =>
    obtain rfl := eq_nil_of_decodeItems h
    simp only [itemOffsets, List.length_nil, List.append_nil, if_true, itemStarts]
    rfl
  | cons x items ih =>
    obtain ⟨c, rest, hs, rfl, hitems⟩ := decodeItems_eq_cons h
    have hlen := itemLen_eq hs (by rw [List.length_append] at hsize; omega)
    have hrest := ih (pre ++ encodeRlp x) hitems (by rwa [List.append_assoc])
    rw [List.length_append, Nat.add_sub_cancel] at hlen
    rw [List.append_assoc, List.length_append] at hrest
    rw [List.length_append, List.length_append] at hsize
    rw [List.length_cons, itemOffsets, if_neg (by rw [List.length_append]; omega), List.drop_left, hlen,
      total_bind_ok, add_of_lt (by omega), total_bind_ok, hrest, total_bind_ok, itemStarts]
    rfl

theorem index_itemStarts {items : List Rlp} {k : ℕ} (pos : ℕ) (hk : k < items.length) :
    (index (itemStarts pos items) k : Panics RawTxError ℕ) =
      total (.ok ((itemStarts pos items).getD k 0)) := by
  apply index_of_getElem?
  have hlen : k < (itemStarts pos items).length := by rwa [length_itemStarts]
  rw [List.getD_eq_getElem?_getD, List.getElem?_eq_getElem hlen]
  rfl

theorem slice_payload (items : List Rlp) (k : ℕ) :
    (slice (items.map encodeRlp).flatten 0 ((items.take k).map encodeRlp).flatten.length :
      Panics RawTxError Bytes) = total (.ok ((items.take k).map encodeRlp).flatten) := by
  have hle : ((items.take k).map encodeRlp).flatten.length ≤ (items.map encodeRlp).flatten.length := by
    rw [← take_payload items k]
    exact List.length_take_le' _ _
  rw [slice_of_le (Nat.zero_le _) hle, List.drop_zero, Nat.sub_zero, take_payload]

theorem signingPreimage_eq {items : List Rlp} (hlen : 9 ≤ items.length) (t : UInt8) (v : ℕ) :
    signingPreimage t (items.map encodeRlp).flatten (itemStarts 0 items) items.length v =
      total (HeliosBsc.signingPreimage t (items.map encodeRlp).flatten (itemStarts 0 items)
        items.length v) := by
  unfold signingPreimage HeliosBsc.signingPreimage
  cases isTyped t with
  | true =>
    rw [if_pos rfl, if_pos rfl, sub_of_le (by omega), total_bind_ok, index_itemStarts 0 (by omega),
      total_bind_ok]
    by_cases hv : 1 < v
    · rw [if_pos hv, require_of_not (by omega)]
      rfl
    · rw [if_neg hv, require_of (by omega), itemStarts_getD 0 (by omega), Nat.zero_add, slice_payload,
        total_bind_ok]
      simp only [take_payload]
      rfl
  | false =>
    simp only [Bool.false_eq_true, if_false]
    by_cases hn : items.length = 9
    · rw [if_neg (not_not.mpr hn), require_of hn, index_itemStarts 0 (by omega), total_bind_ok,
        itemStarts_getD 0 (by omega), Nat.zero_add, slice_payload, total_bind_ok, ok_bind,
        take_payload]
      split_ifs with hold hnew
      · rw [sub_of_le (by omega)]
        rfl
      · rw [sub_of_le (by omega)]
        rfl
      · rfl
    · rw [if_pos hn, require_of_not hn]
      rfl

theorem itemFromEnd_eq {items : List Rlp} {k : ℕ} (hk : 0 < k) (hlen : k ≤ items.length) :
    itemFromEnd items k = total (txItem items (items.length - k)) := by
  have hlt : items.length - k < items.length := by omega
  unfold itemFromEnd txItem
  rw [sub_of_le hlen, total_bind_ok, index_of_getElem? (List.getElem?_eq_getElem hlt),
    List.getElem?_eq_getElem hlt]

theorem afterDecode_eq {b : Bytes} {items : List Rlp} (hsize : b.length < u64Size)
    (h : HeliosBsc.decode b = .ok (.list items)) :
    listPayload b = total (.ok (items.map encodeRlp).flatten) ∧
      itemOffsets (items.map encodeRlp).flatten items.length 0 =
        total (.ok (itemStarts 0 items)) := by
  obtain ⟨payload, hs, hitems⟩ := split_of_decode_list h
  have hpayload := decodeItems_canonical _ payload 1 items le_rfl hitems
  have hlen := (splitItem_length hs).2.2 payload rfl
  rw [hpayload]
  exact ⟨listPayload_eq hs hsize, itemOffsets_eq [] hitems (hlen.trans hsize)⟩

theorem txEnvelope_eq (t : UInt8) {b : Bytes} (hb : b ≠ []) :
    txEnvelope t b = total (.ok (HeliosBsc.txEnvelope t b)) := by
  unfold txEnvelope HeliosBsc.txEnvelope
  split
  · rw [slice_of_le (List.length_pos_iff.mpr hb) le_rfl, List.drop_one,
      List.take_of_length_le (by rw [List.length_tail])]
  · rfl

theorem length_txEnvelope_le (t : UInt8) (b : Bytes) :
    (HeliosBsc.txEnvelope t b).length ≤ b.length := by
  unfold HeliosBsc.txEnvelope
  split
  · rw [List.length_tail]
    omega
  · exact le_rfl

/-- No step of `tx_signing_hash` panics, and what it returns is what the function above returns. -/
theorem txSigningHash_eq (keccak256 : Bytes → Hash) (b : Bytes) :
    txSigningHash keccak256 b = total (HeliosBsc.txSigningHash keccak256 b) := by
  cases b with
  | nil => rfl
  | cons t rest =>
    unfold txSigningHash HeliosBsc.txSigningHash txItems txType
    simp only [reduceCtorEq, if_false]
    by_cases hlarge : maxRawTx < (t :: rest).length
    · rw [if_pos hlarge, require_of_not (by omega)]
      rfl
    have ht : (index (t :: rest) 0 : Panics RawTxError UInt8) = total (.ok t) := index_of_getElem? rfl
    rw [if_neg hlarge, require_of (by omega), ok_bind, ht, total_bind_ok]
    by_cases hunknown : 0x05 ≤ t.toNat ∧ t.toNat ≤ 0x7f
    · rw [if_pos hunknown, require_of_not (not_not.mpr hunknown)]
      rfl
    rw [if_neg hunknown, require_of hunknown, txEnvelope_eq t (List.cons_ne_nil t rest), total_bind_ok,
      decodeTxList_eq]
    simp only [ok_bind, pure_eq_ok]
    cases hdecode : HeliosBsc.decodeTxList (HeliosBsc.txEnvelope t (t :: rest)) with
    | error e => rfl
    | ok items =>
      rw [total_bind_ok, ok_bind]
      simp only [ok_bind]
      by_cases hn : items.length < 9
      · rw [if_pos hn, require_of_not (by omega)]
        rfl
      have hsize : (HeliosBsc.txEnvelope t (t :: rest)).length < u64Size := by
        have hle := length_txEnvelope_le t (t :: rest)
        have hmax : maxRawTx < u64Size := by
          rw [u64Size_eq]
          decide
        omega
      -- the decoder has accepted the bytes, so the walk after it is safe
      have hlist := decodeTxList_eq_ok hdecode
      obtain ⟨hpayload, hspans⟩ := afterDecode_eq hsize hlist
      obtain ⟨hpayload', hspans'⟩ := spans_of_decode_list hlist
      rw [if_neg hn, require_of (by omega), hpayload, hpayload', total_bind_ok, hspans, total_bind_ok]
      simp only [ok_bind, hspans', itemFromEnd_eq (show 0 < 3 by decide) (show 3 ≤ items.length by omega),
        itemFromEnd_eq (show 0 < 2 by decide) (show 2 ≤ items.length by omega),
        itemFromEnd_eq (show 0 < 1 by decide) (show 1 ≤ items.length by omega), rlpU64_eq,
        itemBytes32_eq, signingPreimage_eq (show 9 ≤ items.length by omega), Panics.pure_eq,
        total_bind]

end Panicking

/-- `tx_signing_hash` panics on no input; what it returns is the digest over the fields before the
signature, as the decoder reads and the encoder writes them, and the signature itself. -/
theorem tx_signing_hash_covers (keccak256 : Bytes → Hash) (b : Bytes) :
    (Panicking.txSigningHash keccak256 b).run = some (txSigningHash keccak256 b) ∧
    ∀ digest sig, txSigningHash keccak256 b = .ok (digest, sig) →
      ∃ t items v r s, b.head? = some t ∧ decode (txEnvelope t b) = .ok (.list items) ∧
        SignatureOver keccak256 t items digest sig v r s := by
  refine ⟨?_, fun digest sig h => txSigningHash_eq_ok h⟩
  rw [Panicking.txSigningHash_eq, run_total]

/-- A legacy envelope of empty fields, with `v` 27. -/
def sampleEnvelope : Bytes := [0xc9, 0x80, 0x80, 0x80, 0x80, 0x80, 0x80, 0x1b, 0x01, 0x01]

def sampleItems : List Rlp :=
  List.replicate 6 (.bytes []) ++ [.bytes [0x1b], .bytes [0x01], .bytes [0x01]]

theorem decode_sampleEnvelope : decode sampleEnvelope = .ok (.list sampleItems) := by
  have hencode : encodeRlp (.list sampleItems) = sampleEnvelope := by
    rw [encodeRlp_list]
    simp only [sampleItems, List.replicate, List.cons_append, List.nil_append, List.map_cons,
      List.map_nil, encodeRlp]
    decide
  rw [← hencode]
  refine decode_encodeRlp ?_ ?_
  · rw [hencode, u64Size_eq]
    decide
  · rw [Rlp.depth_list]
    simp only [sampleItems, List.replicate, List.cons_append, List.nil_append, List.map_cons,
      List.map_nil, Rlp.depth]
    decide

theorem txItems_sampleEnvelope : txItems sampleEnvelope = .ok (0xc9, sampleItems) := by
  have hlist : decodeTxList sampleEnvelope = .ok sampleItems := by
    rw [decodeTxList, decode_sampleEnvelope]
  have henvelope : txEnvelope 0xc9 sampleEnvelope = sampleEnvelope := rfl
  have htype : txType sampleEnvelope = .ok 0xc9 := rfl
  rw [txItems, htype, ok_bind, henvelope, hlist]
  rfl

theorem txSigningHash_sampleEnvelope (keccak256 : Bytes → Hash) :
    ∃ digest sig, txSigningHash keccak256 sampleEnvelope = .ok (digest, sig) := by
  obtain ⟨hpayload, hspans⟩ := spans_of_decode_list decode_sampleEnvelope
  have henvelope : txEnvelope 0xc9 sampleEnvelope = sampleEnvelope := rfl
  unfold txSigningHash
  rw [txItems_sampleEnvelope, ok_bind]
  simp only
  rw [require_of (by decide), ok_bind, henvelope, hpayload, ok_bind, hspans, ok_bind]
  exact ⟨_, _, rfl⟩

/-- What the sample's signature covers. -/
theorem tx_signing_hash_covers_sample :
    ∃ digest sig, txSigningHash Types.keccak256 sampleEnvelope = .ok (digest, sig) ∧
      digest = Types.keccak256 (encodeList ((sampleItems.take 6).map encodeRlp)) := by
  obtain ⟨digest, sig, h⟩ := txSigningHash_sampleEnvelope Types.keccak256
  obtain ⟨t, items, v, r, s, ht, hdecode, hover⟩ :=
    (tx_signing_hash_covers Types.keccak256 sampleEnvelope).2 digest sig h
  obtain rfl : t = 0xc9 := (Option.some.inj ht).symm
  have henvelope : txEnvelope 0xc9 sampleEnvelope = sampleEnvelope := rfl
  rw [henvelope, decode_sampleEnvelope] at hdecode
  obtain rfl := Rlp.list.inj (Except.ok.inj hdecode)
  have hv : v = [0x1b] := by
    have hlast := hover.lastThree
    exact (Rlp.bytes.inj (List.cons.inj hlast).1).symm
  exact ⟨digest, sig, h, hover.legacy rfl (.inl (by rw [hv]; rfl))⟩

end HeliosBsc
