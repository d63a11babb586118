import HeliosBsc.Types.Bytes
import HeliosBsc.Lib.BigEndian

/-!
# RLP

`execution/src/rlp.rs`: the strict reader of MPT nodes, receipts and transactions, and the
encoder. The reader takes one item at a time: `splitItem` reads the prefix of the first item and
cuts its payload off, `decodeOne` and `decodeList` recurse into list payloads up to
`maxRlpDepth`. `decode_encodeRlp` is the round trip on every tree that is not nested too deep and
fits a 64-bit length.
-/

namespace HeliosBsc

open Checked BigEndian

/-- `RlpError`. -/
inductive RlpError where
  | truncated
  | trailing
  | invalid
  | tooDeep
  | nonCanonical
  deriving DecidableEq, Repr

def RlpError.message : RlpError → String
  | truncated => "rlp truncated"
  | trailing => "rlp trailing bytes"
  | invalid => "rlp invalid length"
  | tooDeep => "rlp nested too deeply"
  | nonCanonical => "rlp non-canonical encoding"

/-- `MAX_RLP_DEPTH`. -/
def maxRlpDepth : ℕ := 32

/-- `Rlp`: a decoded item. -/
inductive Rlp where
  | bytes (b : Bytes)
  | list (items : List Rlp)
  deriving Repr

/-! ## Reading -/

/-- One round of the loop of `be_len`: a wrapping shift, then a checked addition. -/
def beLenStep (n : ℕ) (x : UInt8) : Except RlpError ℕ := do
  let shifted := n * 256 % u64Size
  require (shifted + x.toNat < u64Size) .invalid
  return shifted + x.toNat

/-- `be_len`. -/
def beLen (b : Bytes) : Except RlpError ℕ := do
  require (¬ (b = [] ∨ b.head? = some 0 ∧ 1 < b.length)) .invalid
  b.foldlM beLenStep 0

/-- The payload of the first item and the bytes after it. -/
inductive Chunk where
  | str (b : Bytes)
  | list (payload : Bytes)

/-- The payload announced by a long-form prefix with `ll` length bytes. -/
def splitLong (ll : ℕ) (rest : Bytes) : Except RlpError (Bytes × Bytes) := do
  require (ll ≤ rest.length) .truncated
  let after := rest.drop ll
  let len ← beLen (rest.take ll)
  require (55 < len) .nonCanonical
  require (len ≤ after.length) .truncated
  return (after.take len, after.drop len)

/-- The prefix dispatch of `decode_one`. -/
def splitItem : Bytes → Except RlpError (Chunk × Bytes)
  | [] => .error .truncated
  | p :: rest =>
    if p.toNat ≤ 0x7f then .ok (.str [p], rest)
    else if p.toNat ≤ 0xb7 then do
      let len := p.toNat - 0x80
      require (len ≤ rest.length) .truncated
      -- `0x81 xx` with `xx < 0x80` would be a second spelling of the lone byte
      require (¬ (len = 1 ∧ ∃ x ∈ rest.head?, x.toNat < 0x80)) .nonCanonical
      return (.str (rest.take len), rest.drop len)
    else if p.toNat ≤ 0xbf then do
      let (b, tail) ← splitLong (p.toNat - 0xb7) rest
      return (.str b, tail)
    else if p.toNat ≤ 0xf7 then do
      let len := p.toNat - 0xc0
      require (len ≤ rest.length) .truncated
      return (.list (rest.take len), rest.drop len)
    else do
      let (payload, tail) ← splitLong (p.toNat - 0xf7) rest
      return (.list payload, tail)

theorem splitLong_length {ll : ℕ} {rest b tail : Bytes} (h : splitLong ll rest = .ok (b, tail)) :
    b.length + tail.length ≤ rest.length := by
  simp only [splitLong, bind_eq_ok, require_eq_ok, pure_eq_ok, Except.ok.injEq, Prod.mk.injEq]
    at h
  obtain ⟨-, -, len, -, -, -, -, -, rfl, rfl⟩ := h
  simp only [List.length_take, List.length_drop]
  omega

/-- The bytes of a chunk. -/
def Chunk.data : Chunk → Bytes
  | str b => b
  | list b => b

/-- The five forms of an item behind its first byte `p`. -/
inductive ItemForm (p : UInt8) (rest : Bytes) : Chunk → Bytes → Prop where
  | single (hp : p.toNat ≤ 0x7f) : ItemForm p rest (.str [p]) rest
  | short (hlow : 0x7f < p.toNat) (hhigh : p.toNat ≤ 0xb7) (hlen : p.toNat - 0x80 ≤ rest.length)
      (hcanonical : ¬ (p.toNat - 0x80 = 1 ∧ ∃ x ∈ rest.head?, x.toNat < 0x80)) :
      ItemForm p rest (.str (rest.take (p.toNat - 0x80))) (rest.drop (p.toNat - 0x80))
  | long {b tail : Bytes} (hlow : 0xb7 < p.toNat) (hhigh : p.toNat ≤ 0xbf)
      (hsplit : splitLong (p.toNat - 0xb7) rest = .ok (b, tail)) : ItemForm p rest (.str b) tail
  | shortList (hlow : 0xbf < p.toNat) (hhigh : p.toNat ≤ 0xf7)
      (hlen : p.toNat - 0xc0 ≤ rest.length) :
      ItemForm p rest (.list (rest.take (p.toNat - 0xc0))) (rest.drop (p.toNat - 0xc0))
  | longList {payload tail : Bytes} (hlow : 0xf7 < p.toNat)
      (hsplit : splitLong (p.toNat - 0xf7) rest = .ok (payload, tail)) :
      ItemForm p rest (.list payload) tail

theorem itemForm_of_splitItem {p : UInt8} {rest tail : Bytes} {c : Chunk}
    (h : splitItem (p :: rest) = .ok (c, tail)) : ItemForm p rest c tail := by
  simp only [splitItem] at h
  split_ifs at h with hsingle hshort hlong hshortList
  · simp only [Except.ok.injEq, Prod.mk.injEq] at h
    obtain ⟨rfl, rfl⟩ := h
    exact .single hsingle
  · simp only [bind_eq_ok, require_eq_ok, pure_eq_ok, Except.ok.injEq, Prod.mk.injEq] at h
    obtain ⟨-, hlen, -, hcanonical, rfl, rfl⟩ := h
    exact .short (by omega) hshort hlen hcanonical
  · simp only [bind_eq_ok, pure_eq_ok, Except.ok.injEq, Prod.mk.injEq, Prod.exists] at h
    obtain ⟨b, t, hsplit, rfl, rfl⟩ := h
    exact .long (by omega) hlong hsplit
  · simp only [bind_eq_ok, require_eq_ok, pure_eq_ok, Except.ok.injEq, Prod.mk.injEq] at h
    obtain ⟨-, hlen, rfl, rfl⟩ := h
    exact .shortList (by omega) hshortList hlen
  · simp only [bind_eq_ok, pure_eq_ok, Except.ok.injEq, Prod.mk.injEq, Prod.exists] at h
    obtain ⟨payload, t, hsplit, rfl, rfl⟩ := h
    exact .longList (by omega) hsplit

theorem listForm_of_splitItem {p : UInt8} {rest payload tail : Bytes}
    (h : splitItem (p :: rest) = .ok (.list payload, tail)) :
    (0xbf < p.toNat ∧ p.toNat ≤ 0xf7 ∧ p.toNat - 0xc0 ≤ rest.length ∧
      rest.take (p.toNat - 0xc0) = payload) ∨
    (0xf7 < p.toNat ∧ splitLong (p.toNat - 0xf7) rest = .ok (payload, tail)) := by
  generalize hc : Chunk.list payload = c at h
  cases itemForm_of_splitItem h with
  | single hp => cases hc
  | short hlow hhigh hlen hcanonical => cases hc
  | long hlow hhigh hsplit => cases hc
  | shortList hlow hhigh hlen => exact .inl ⟨hlow, hhigh, hlen, (Chunk.list.inj hc).symm⟩
  | longList hlow hsplit =>
    rw [Chunk.list.inj hc]
    exact .inr ⟨hlow, hsplit⟩

theorem splitItem_length {input tail : Bytes} {c : Chunk} (h : splitItem input = .ok (c, tail)) :
    c.data.length ≤ input.length ∧ tail.length < input.length ∧
      ∀ payload, c = .list payload → payload.length < input.length := by
  cases input with
  | nil => cases h
  | cons p rest =>
    cases itemForm_of_splitItem h with
    | single hp => simp [Chunk.data]
    | short hlow hhigh hlen hcanonical =>
      simp only [Chunk.data, List.length_take, List.length_drop, List.length_cons, reduceCtorEq,
        false_implies, implies_true, and_true]
      omega
    | long hlow hhigh hsplit =>
      have hlen := splitLong_length hsplit
      simp only [Chunk.data, List.length_cons, reduceCtorEq, false_implies, implies_true, and_true]
      omega
    | shortList hlow hhigh hlen =>
      simp only [Chunk.data, List.length_take, List.length_drop, List.length_cons,
        Chunk.list.injEq, forall_eq']
      omega
    | longList hlow hsplit =>
      have hlen := splitLong_length hsplit
      simp only [Chunk.data, List.length_cons, Chunk.list.injEq, forall_eq']
      omega

/-- The loop of `decode_list` at nesting `depth`: items are taken off `payload` until it is
empty; the payload of a list item is read one level deeper. -/
def decodeItems (payload : Bytes) (depth : ℕ) : Except RlpError (List Rlp) :=
  if payload.isEmpty then .ok []
  else
    match _h : splitItem payload with
    | .error e => .error e
    | .ok (.str b, tail) => do
      let items ← decodeItems tail depth
      return .bytes b :: items
    | .ok (.list inner, tail) => do
      require (depth + 1 ≤ maxRlpDepth) .tooDeep
      let sub ← decodeItems inner (depth + 1)
      let items ← decodeItems tail depth
      return .list sub :: items
termination_by payload.length
decreasing_by
  · exact (splitItem_length _h).2.1
  · exact (splitItem_length _h).2.2 _ rfl
  · exact (splitItem_length _h).2.1

/-- `decode_list`. -/
def decodeList (payload : Bytes) (depth : ℕ) : Except RlpError (List Rlp) := do
  require (depth ≤ maxRlpDepth) .tooDeep
  decodeItems payload depth

/-- `decode_one`. -/
def decodeOne (input : Bytes) (depth : ℕ) : Except RlpError (Rlp × Bytes) := do
  match ← splitItem input with
  | (.str b, tail) => return (.bytes b, tail)
  | (.list payload, tail) => return (.list (← decodeList payload (depth + 1)), tail)

/-- `decode`. -/
def decode (input : Bytes) : Except RlpError Rlp := do
  let (item, rest) ← decodeOne input 0
  require (rest = []) .trailing
  return item

/-- `Rlp::as_bytes`. -/
def Rlp.asBytes : Rlp → Except RlpError Bytes
  | .bytes b => .ok b
  | .list _ => .error .invalid

/-- `Rlp::as_list`. -/
def Rlp.asList : Rlp → Except RlpError (List Rlp)
  | .list v => .ok v
  | .bytes _ => .error .invalid

/-- The loop of `decode_list` as the source writes it: `decode_one`, then the rest. -/
theorem decodeItems_step (payload : Bytes) (depth : ℕ) (hp : payload ≠ []) :
    decodeItems payload depth = do
      let (item, rest) ← decodeOne payload depth
      let items ← decodeItems rest depth
      return item :: items := by
  rw [decodeItems, if_neg (by simpa using hp)]
  unfold decodeOne
  split
  · next e h => simp [h]
  · next b tail h => simp [h]
  · next inner tail h =>
    simp only [h, ok_bind, decodeList, pure_eq_ok]
    by_cases hd : depth + 1 ≤ maxRlpDepth
    · rw [require_of hd]
      simp only [ok_bind]
      cases decodeItems inner (depth + 1) <;> rfl
    · rw [require_of_not hd]
      rfl

/-! ## Writing -/

/-- `len_be`. -/
def lenBe (len : ℕ) : Bytes :=
  match strip (BigEndian.bytes 8 len) with
  | [] => [0]
  | b => b

/-- `encode_string`. -/
def encodeString (data : Bytes) : Bytes :=
  if data.length ≤ 55 then UInt8.ofNat (0x80 + data.length) :: data
  else
    let lenb := lenBe data.length
    UInt8.ofNat (0xb7 + lenb.length) :: (lenb ++ data)

/-- `encode_bytes`. -/
def encodeBytes (data : Bytes) : Bytes :=
  match data with
  | [b] => if b.toNat < 0x80 then [b] else encodeString data
  | _ => encodeString data

/-- `encode_uint` of a `w`-byte integer. -/
def encodeUintOfWidth (w n : ℕ) : Bytes :=
  if n = 0 then [0x80] else encodeBytes (strip (BigEndian.bytes w n))

/-- `encode_uint` of the execution crate, on `u64`. -/
def encodeUint (n : ℕ) : Bytes := encodeUintOfWidth 8 n

/-- `encode_list`: already encoded items. -/
def encodeList (items : List Bytes) : Bytes :=
  let payload := items.flatten
  if payload.length ≤ 55 then UInt8.ofNat (0xc0 + payload.length) :: payload
  else
    let lenb := lenBe payload.length
    UInt8.ofNat (0xf7 + lenb.length) :: (lenb ++ payload)

/-- Re-encoding of a decoded item. -/
def encodeRlp : Rlp → Bytes
  | .bytes b => encodeBytes b
  | .list items => encodeList (items.map encodeRlp)

/-- List nesting. -/
def Rlp.depth : Rlp → ℕ
  | .bytes _ => 0
  | .list items => 1 + ((items.map depth).foldr max 0)

end HeliosBsc
