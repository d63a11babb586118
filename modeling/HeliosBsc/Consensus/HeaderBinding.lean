import HeliosBsc.Mock.SoleSealer

/-!
# The header hash binds the header

`header_hash` hashes one RLP list. Its optional fields run from the first to the last one that is
present, with empty strings for the missing ones between, so that the list does not say which of
them were missing. It still determines every field: a hash is never empty, and an empty integer is
zero. Headers that are re-fetched by hash are trusted because of this.
-/

namespace HeliosBsc

open Checked BigEndian

attribute [local irreducible] uintBytes

/-! ## Optional fields at the end of a list -/

/-- The items of optional fields: up to the last present one, a missing one as the empty string. -/
def optionalTail : List (Option Bytes) → List Bytes
  | [] => []
  | o :: rest => if (o :: rest).any Option.isSome then o.getD [] :: optionalTail rest else []

theorem optionalTail_of_any {o : Option Bytes} {rest : List (Option Bytes)}
    (h : (o :: rest).any Option.isSome = true) :
    optionalTail (o :: rest) = o.getD [] :: optionalTail rest := by
  rw [optionalTail, if_pos h]

theorem optionalTail_of_not_any {os : List (Option Bytes)} (h : os.any Option.isSome = false) :
    optionalTail os = [] := by
  cases os with
  | nil => rfl
  | cons o rest => rw [optionalTail, if_neg (by rw [h]; exact Bool.false_ne_true)]

/-- The items determine every field up to reading a missing one as empty. -/
theorem map_getD_of_optionalTail_eq {os os' : List (Option Bytes)} (hlen : os.length = os'.length)
    (h : optionalTail os = optionalTail os') :
    os.map (·.getD []) = os'.map (·.getD []) := by
  have hnone : ∀ {l : List (Option Bytes)}, l.any Option.isSome = false →
      l.map (·.getD []) = List.replicate l.length [] := by
    intro l hl
    rw [List.eq_replicate_iff]
    refine ⟨List.length_map _, fun b hb => ?_⟩
    obtain ⟨o, ho, rfl⟩ := List.mem_map.mp hb
    have := List.any_eq_false.mp hl o ho
    cases o with
    | none => rfl
    | some x => exact absurd rfl this
  induction os generalizing os' with
  | nil =>
    rw [List.length_nil, eq_comm, List.length_eq_zero_iff] at hlen
    rw [hlen]
  | cons o rest ih =>
    cases os' with
    | nil => cases hlen
    | cons o' rest' =>
      rw [List.length_cons, List.length_cons, Nat.succ.injEq] at hlen
      cases ho : (o :: rest).any Option.isSome with
      | false =>
        cases ho' : (o' :: rest').any Option.isSome with
        | false => rw [hnone ho, hnone ho', List.length_cons, List.length_cons, hlen]
        | true =>
          rw [optionalTail_of_not_any ho, optionalTail_of_any ho'] at h
          cases h
      | true =>
        cases ho' : (o' :: rest').any Option.isSome with
        | false =>
          rw [optionalTail_of_any ho, optionalTail_of_not_any ho'] at h
          cases h
        | true =>
          rw [optionalTail_of_any ho, optionalTail_of_any ho', List.cons.injEq] at h
          rw [List.map_cons, List.map_cons, h.1, ih hlen h.2]

/-! ## The fields of a header -/

/-- The decoded mandatory fields. -/
@[ext] structure MandatoryFields where
  parent : Hash
  uncle : Hash
  coinbase : Address
  root : Hash
  txHash : Hash
  receipt : Hash
  bloom : FixedBytes 256
  difficulty : ℕ
  number : ℕ
  gasLimit : ℕ
  gasUsed : ℕ
  time : ℕ
  extra : Bytes
  mix : Hash
  nonce : FixedBytes 8

/-- The decoded fields of a header. -/
structure HeaderFields extends MandatoryFields where
  baseFee : Option ℕ
  withdrawals : Option Hash
  blobGas : Option ℕ
  excess : Option ℕ
  beacon : Option Hash
  requests : Option Hash

namespace HeaderFields

/-- The fields are those that the readers give for `header`; an optional one is present when the
header has it. -/
structure Of (header : RpcBlockHeader) (f : HeaderFields) : Prop where
  parent : decodeHexFixed 32 header.parentHash = .ok f.parent
  uncle : decodeHexFixed 32 header.sha3Uncles = .ok f.uncle
  coinbase : decodeHexFixed 20 header.miner = .ok f.coinbase
  root : decodeHexFixed 32 header.stateRoot = .ok f.root
  txHash : decodeHexFixed 32 header.transactionsRoot = .ok f.txHash
  receipt : decodeHexFixed 32 header.receiptsRoot = .ok f.receipt
  bloom : decodeHexFixed 256 header.logsBloom = .ok f.bloom
  difficulty : decodeU64 header.difficulty = .ok f.difficulty
  number : decodeU64 header.number = .ok f.number
  gasLimit : decodeU64 header.gasLimit = .ok f.gasLimit
  gasUsed : decodeU64 header.gasUsed = .ok f.gasUsed
  time : decodeU64 header.timestamp = .ok f.time
  extra : decodeHex header.extraData = .ok f.extra
  mix : decodeHexFixed 32 header.mixHash = .ok f.mix
  nonce : decodeHexFixed 8 header.nonce = .ok f.nonce
  baseFee : header.baseFeePerGas.map decodeU64 = f.baseFee.map .ok
  withdrawals : header.withdrawalsRoot.map (decodeHexFixed 32) = f.withdrawals.map .ok
  blobGas : header.blobGasUsed.map decodeU64 = f.blobGas.map .ok
  excess : header.excessBlobGas.map decodeU64 = f.excess.map .ok
  beacon : header.parentBeaconBlockRoot.map (decodeHexFixed 32) = f.beacon.map .ok
  requests : header.requestsHash.map (decodeHexFixed 32) = f.requests.map .ok

/-- Two headers agree: on every mandatory field, on the optional hashes with their presence, and on
the optional integers, where a missing one is zero. -/
structure Agree (f g : HeaderFields) : Prop where
  mandatory : f.toMandatoryFields = g.toMandatoryFields
  withdrawals : f.withdrawals = g.withdrawals
  beacon : f.beacon = g.beacon
  requests : f.requests = g.requests
  baseFee : f.baseFee.getD 0 = g.baseFee.getD 0
  blobGas : f.blobGas.getD 0 = g.blobGas.getD 0
  excess : f.excess.getD 0 = g.excess.getD 0

/-- The strings of the mandatory fields, in the order of the list. -/
def mandatoryItems (f : HeaderFields) : List Bytes := [
  f.parent.val, f.uncle.val, f.coinbase.val, f.root.val, f.txHash.val, f.receipt.val, f.bloom.val,
  uintBytes f.difficulty, uintBytes f.number, uintBytes f.gasLimit, uintBytes f.gasUsed,
  uintBytes f.time, f.extra, f.mix.val, f.nonce.val]

/-- The strings of the optional fields, where they are present. -/
def optionalItems (f : HeaderFields) : List (Option Bytes) := [
  f.baseFee.map uintBytes, f.withdrawals.map FixedBytes.val, f.blobGas.map uintBytes,
  f.excess.map uintBytes, f.beacon.map FixedBytes.val, f.requests.map FixedBytes.val]

/-- The list that is hashed. -/
def items (f : HeaderFields) : List Bytes := f.mandatoryItems ++ optionalTail f.optionalItems

end HeaderFields

/-! ## What is hashed -/

theorem isSome_of_map_eq {α ε : Type} {read : String → Except ε α} {s : Option String}
    {o : Option α} (h : s.map read = o.map .ok) : o.isSome = s.isSome := by
  rw [← Option.isSome_map (f := read), h, Option.isSome_map]

theorem encodeOptUint_eq_ok {s : Option String} {item : Bytes} (h : encodeOptUint s = .ok item) :
    ∃ o : Option ℕ, s.map decodeU64 = o.map .ok ∧
      item = encodeBytes ((o.map uintBytes).getD []) := by
  cases s with
  | none =>
    cases h
    exact ⟨none, rfl, rfl⟩
  | some x =>
    simp only [encodeOptUint, bind_eq_ok, mapError_eq_ok, pure_eq_ok, Except.ok.injEq] at h
    obtain ⟨n, hn, rfl⟩ := h
    refine ⟨some n, congrArg some hn, ?_⟩
    rw [encodeUint128_eq, Option.map_some, Option.getD_some]

theorem encodeOptHash_eq_ok {s : Option String} {item : Bytes} (h : encodeOptHash s = .ok item) :
    ∃ o : Option Hash, s.map (decodeHexFixed 32) = o.map .ok ∧
      item = encodeBytes ((o.map FixedBytes.val).getD []) := by
  cases s with
  | none =>
    cases h
    exact ⟨none, rfl, rfl⟩
  | some x =>
    simp only [encodeOptHash, bind_eq_ok, mapError_eq_ok, pure_eq_ok, Except.ok.injEq] at h
    obtain ⟨hash, hhash, rfl⟩ := h
    exact ⟨some hash, congrArg some hhash, rfl⟩

theorem pushIf_eq_ok {α ε : Type} {read : String → Except ε α} {raw : α → Bytes}
    {s : Option String} {item : Except SealError Bytes} {c : Bool} {items items' : List Bytes}
    (hitem : ∀ e, item = .ok e → ∃ o : Option α, s.map read = o.map .ok ∧
      e = encodeBytes ((o.map raw).getD []))
    (hc : s.isSome = true → c = true) (h : pushIf c items item = .ok items') :
    ∃ o : Option α, s.map read = o.map .ok ∧
      items' = items ++ (if c then [(o.map raw).getD []] else []).map encodeBytes := by
  unfold pushIf at h
  cases c with
  | true =>
    simp only [if_true, bind_eq_ok, pure_eq_ok, Except.ok.injEq] at h
    obtain ⟨e, he, rfl⟩ := h
    obtain ⟨o, ho, rfl⟩ := hitem e he
    exact ⟨o, ho, rfl⟩
  | false =>
    cases s with
    | some x => cases hc rfl
    | none =>
      cases h
      exact ⟨none, rfl, (List.append_nil items).symm⟩

/-- The flags of the source mark exactly the items up to the last present one. -/
theorem optionalTail_six (a b c d e f : Option Bytes) :
    (let hasF := f.isSome
     let hasE := e.isSome || hasF
     let hasD := d.isSome || hasE
     let hasC := c.isSome || hasD
     let hasB := b.isSome || hasC
     let hasA := a.isSome || hasB
     (if hasA then [a.getD []] else []) ++ (if hasB then [b.getD []] else []) ++
       (if hasC then [c.getD []] else []) ++ (if hasD then [d.getD []] else []) ++
       (if hasE then [e.getD []] else []) ++ (if hasF then [f.getD []] else [])) =
      optionalTail [a, b, c, d, e, f] := by
  cases f with
  | some f => simp [optionalTail]
  | none =>
    cases e with
    | some e => simp [optionalTail]
    | none =>
      cases d with
      | some d => simp [optionalTail]
      | none =>
        cases c with
        | some c => simp [optionalTail]
        | none =>
          cases b with
          | some b => simp [optionalTail]
          | none => cases a <;> simp [optionalTail]

/-- The hashed string is the encoded list of the decoded fields. -/
theorem headerPreimage_eq_ok {header : RpcBlockHeader} {bytes : Bytes}
    (h : headerPreimage header = .ok bytes) :
    ∃ f : HeaderFields, f.Of header ∧ bytes = encodeList (f.items.map encodeBytes) := by
  simp only [headerPreimage, bind_eq_ok, mapError_eq_ok, pure_eq_ok, Except.ok.injEq] at h
  obtain ⟨parent, hparent, uncle, huncle, coinbase, hcoinbase, root, hroot, txHash, htxHash,
    receipt, hreceipt, bloom, hbloom, difficulty, hdifficulty, number, hnumber, gasLimit,
    hgasLimit, gasUsed, hgasUsed, time, htime, extra, hextra, mix, hmix, nonce, hnonce, h⟩ := h
  obtain ⟨items₁, h₁, items₂, h₂, items₃, h₃, items₄, h₄, items₅, h₅, items₆, h₆, rfl⟩ := h
  obtain ⟨baseFee, hbaseFee, rfl⟩ := pushIf_eq_ok (fun _ => encodeOptUint_eq_ok) (by simp_all) h₁
  obtain ⟨withdrawals, hwithdrawals, rfl⟩ :=
    pushIf_eq_ok (fun _ => encodeOptHash_eq_ok) (by simp_all) h₂
  obtain ⟨blobGas, hblobGas, rfl⟩ := pushIf_eq_ok (fun _ => encodeOptUint_eq_ok) (by simp_all) h₃
  obtain ⟨excess, hexcess, rfl⟩ := pushIf_eq_ok (fun _ => encodeOptUint_eq_ok) (by simp_all) h₄
  obtain ⟨beacon, hbeacon, rfl⟩ := pushIf_eq_ok (fun _ => encodeOptHash_eq_ok) (by simp_all) h₅
  obtain ⟨requests, hrequests, rfl⟩ := pushIf_eq_ok (fun _ => encodeOptHash_eq_ok) (by simp_all) h₆
  refine ⟨⟨⟨parent, uncle, coinbase, root, txHash, receipt, bloom, difficulty, number, gasLimit,
    gasUsed, time, extra, mix, nonce⟩, baseFee, withdrawals, blobGas, excess, beacon, requests⟩,
    ⟨hparent, huncle, hcoinbase, hroot, htxHash, hreceipt, hbloom, hdifficulty, hnumber, hgasLimit,
      hgasUsed, htime, hextra, hmix, hnonce, hbaseFee, hwithdrawals, hblobGas, hexcess, hbeacon,
      hrequests⟩, ?_⟩
  have htail := optionalTail_six (baseFee.map uintBytes) (withdrawals.map FixedBytes.val)
    (blobGas.map uintBytes) (excess.map uintBytes) (beacon.map FixedBytes.val)
    (requests.map FixedBytes.val)
  simp only [Option.isSome_map, isSome_of_map_eq hbaseFee, isSome_of_map_eq hwithdrawals,
    isSome_of_map_eq hblobGas, isSome_of_map_eq hexcess, isSome_of_map_eq hbeacon,
    isSome_of_map_eq hrequests] at htail
  simp only [HeaderFields.items, HeaderFields.mandatoryItems, HeaderFields.optionalItems, ← htail,
    encodeUint128_eq, List.map_append, List.map_cons, List.map_nil, List.append_assoc]

/-! ## The fields from the hashed string -/

theorem length_decodeHexDigits {cs : List Char} {i : ℕ} {b : Bytes}
    (h : decodeHexDigits cs i = .ok b) : 2 * b.length = cs.length := by
  induction cs, i using decodeHexDigits.induct generalizing b with
  | case1 i =>
    cases h
    rfl
  | case2 c i => simp [decodeHexDigits] at h
  | case3 hi lo rest i ih =>
    simp only [decodeHexDigits, bind_eq_ok, pure_eq_ok, Except.ok.injEq] at h
    obtain ⟨x, -, y, -, tail, htail, rfl⟩ := h
    have := ih htail
    simp only [List.length_cons]
    omega

theorem length_strip0x_le (cs : List Char) : (strip0x cs).length ≤ cs.length := by
  unfold strip0x
  split
  · simp only [List.length_cons]
    omega
  · simp only [List.length_cons]
    omega
  · exact le_rfl

theorem length_le_utf8Length (cs : List Char) : cs.length ≤ utf8Length cs := by
  induction cs with
  | nil => rfl
  | cons c cs ih =>
    have hc := c.utf8Size_pos
    unfold utf8Length at *
    simp only [List.length_cons, List.map_cons, List.sum_cons]
    omega

theorem length_decodeHex_le {s : String} {b : Bytes} (h : decodeHex s = .ok b) :
    2 * b.length ≤ utf8Length s.toList := by
  simp only [decodeHex, bind_eq_ok, require_eq_ok, exists_const] at h
  rw [length_decodeHexDigits h.2]
  exact (length_strip0x_le _).trans (length_le_utf8Length _)

theorem mem_optionalTail {os : List (Option Bytes)} {b : Bytes} (h : b ∈ optionalTail os) :
    ∃ o ∈ os, b = o.getD [] := by
  induction os with
  | nil => cases h
  | cons o rest ih =>
    rw [optionalTail] at h
    split at h
    · rcases List.mem_cons.mp h with rfl | h
      · exact ⟨o, List.mem_cons_self, rfl⟩
      · obtain ⟨o', ho', rfl⟩ := ih h
        exact ⟨o', List.mem_cons_of_mem o ho', rfl⟩
    · cases h

theorem length_optionalTail_le (os : List (Option Bytes)) :
    (optionalTail os).length ≤ os.length := by
  induction os with
  | nil => exact le_rfl
  | cons o rest ih =>
    rw [optionalTail]
    split
    · simp only [List.length_cons]
      omega
    · exact Nat.zero_le _

theorem length_flatten_encodeBytes_le (l : List Bytes) :
    (l.map encodeBytes).flatten.length ≤ l.flatten.length + 9 * l.length := by
  induction l with
  | nil => exact le_rfl
  | cons b l ih =>
    have hb := length_encodeBytes_le b
    simp only [List.map_cons, List.flatten_cons, List.length_append, List.length_cons]
    omega

theorem getD_eq_of_uintBytes {o o' : Option ℕ} (ho : ∀ n, o = some n → n < u64Size)
    (ho' : ∀ n, o' = some n → n < u64Size)
    (h : (o.map uintBytes).getD [] = (o'.map uintBytes).getD []) : o.getD 0 = o'.getD 0 := by
  have hvalue : ∀ {o : Option ℕ}, (∀ n, o = some n → n < u64Size) →
      value ((o.map uintBytes).getD []) = o.getD 0 := by
    intro o ho
    cases o with
    | none => rfl
    | some n => exact value_uintBytes (ho n rfl)
  rw [← hvalue ho, ← hvalue ho', h]

theorem eq_of_getD_val {o o' : Option Hash}
    (h : (o.map FixedBytes.val).getD [] = (o'.map FixedBytes.val).getD []) : o = o' := by
  have hne : ∀ x : Hash, x.val ≠ [] := by
    intro x hx
    have := x.len
    rw [hx] at this
    cases this
  cases o with
  | none =>
    cases o' with
    | none => rfl
    | some y => exact absurd h.symm (hne y)
  | some x =>
    cases o' with
    | none => exact absurd h (hne x)
    | some y => exact congrArg some (FixedBytes.ext h)

theorem uintBytes_inj {m n : ℕ} (hm : m < u64Size) (hn : n < u64Size)
    (h : uintBytes m = uintBytes n) : m = n := by
  rw [← value_uintBytes hm, ← value_uintBytes hn, h]

attribute [local irreducible] encodeBytes

namespace HeaderFields

variable {header header' : RpcBlockHeader} {f g : HeaderFields}

theorem lt_of_map_eq {s : Option String} {o : Option ℕ} (h : s.map decodeU64 = o.map .ok) (n : ℕ)
    (hn : o = some n) : n < u64Size := by
  subst hn
  obtain ⟨x, -, hx⟩ := Option.map_eq_some_iff.mp h
  exact decodeU64_lt hx

/-- The fields of a header are determined by its list. -/
theorem agree_of_items_eq (hf : f.Of header) (hg : g.Of header') (h : f.items = g.items) :
    f.Agree g := by
  obtain ⟨hmand, htail⟩ := List.append_inj h rfl
  have hopt := map_getD_of_optionalTail_eq (by rfl) htail
  simp only [optionalItems, List.map_cons, List.map_nil, List.cons.injEq, and_true] at hopt
  obtain ⟨hbase, hwd, hblob, hexcess, hbeacon, hreq⟩ := hopt
  simp only [mandatoryItems, List.cons.injEq, and_true] at hmand
  obtain ⟨hparent, huncle, hcoinbase, hroot, htx, hreceipt, hbloom, hdiff, hnumber, hlimit, hused,
    htime, hextra, hmix, hnonce⟩ := hmand
  refine ⟨?_, eq_of_getD_val hwd, eq_of_getD_val hbeacon, eq_of_getD_val hreq,
    getD_eq_of_uintBytes (lt_of_map_eq hf.baseFee) (lt_of_map_eq hg.baseFee) hbase,
    getD_eq_of_uintBytes (lt_of_map_eq hf.blobGas) (lt_of_map_eq hg.blobGas) hblob,
    getD_eq_of_uintBytes (lt_of_map_eq hf.excess) (lt_of_map_eq hg.excess) hexcess⟩
  have hdiff := uintBytes_inj (decodeU64_lt hf.difficulty) (decodeU64_lt hg.difficulty) hdiff
  have hnumber := uintBytes_inj (decodeU64_lt hf.number) (decodeU64_lt hg.number) hnumber
  have hlimit := uintBytes_inj (decodeU64_lt hf.gasLimit) (decodeU64_lt hg.gasLimit) hlimit
  have hused := uintBytes_inj (decodeU64_lt hf.gasUsed) (decodeU64_lt hg.gasUsed) hused
  have htime := uintBytes_inj (decodeU64_lt hf.time) (decodeU64_lt hg.time) htime
  exact MandatoryFields.ext (FixedBytes.ext hparent) (FixedBytes.ext huncle)
    (FixedBytes.ext hcoinbase) (FixedBytes.ext hroot) (FixedBytes.ext htx)
    (FixedBytes.ext hreceipt) (FixedBytes.ext hbloom) hdiff hnumber hlimit hused htime hextra
    (FixedBytes.ext hmix) (FixedBytes.ext hnonce)

theorem Of.length_optional_le (hf : f.Of header) {b : Bytes}
    (hb : b ∈ optionalTail f.optionalItems) : b.length ≤ 32 := by
  have huint : ∀ {s : Option String} {o : Option ℕ}, s.map decodeU64 = o.map .ok →
      ((o.map uintBytes).getD []).length ≤ 32 := by
    intro s o hs
    cases o with
    | none => exact Nat.zero_le _
    | some n => exact (length_uintBytes_le (lt_of_map_eq hs n rfl)).trans (by norm_num)
  have hhash : ∀ o : Option Hash, ((o.map FixedBytes.val).getD []).length ≤ 32 := by
    intro o
    cases o with
    | none => exact Nat.zero_le _
    | some x => exact x.len.le
  obtain ⟨o, ho, rfl⟩ := mem_optionalTail hb
  simp only [optionalItems, List.mem_cons, List.not_mem_nil, or_false] at ho
  rcases ho with rfl | rfl | rfl | rfl | rfl | rfl
  · exact huint hf.baseFee
  · exact hhash _
  · exact huint hf.blobGas
  · exact huint hf.excess
  · exact hhash _
  · exact hhash _

theorem Of.length_flatten_le (hf : f.Of header) :
    f.items.flatten.length ≤ f.extra.length + 1000 ∧ f.items.length ≤ 21 := by
  have hcount := length_optionalTail_le f.optionalItems
  have hopt : (optionalTail f.optionalItems).flatten.length ≤ 6 * 32 :=
    (HeliosBsc.length_flatten_le fun _ hb => hf.length_optional_le hb).trans
      (Nat.mul_le_mul_right 32 hcount)
  have hmand : f.mandatoryItems.flatten.length ≤ f.extra.length + 700 := by
    have u₁ := length_uintBytes_le (decodeU64_lt hf.difficulty)
    have u₂ := length_uintBytes_le (decodeU64_lt hf.number)
    have u₃ := length_uintBytes_le (decodeU64_lt hf.gasLimit)
    have u₄ := length_uintBytes_le (decodeU64_lt hf.gasUsed)
    have u₅ := length_uintBytes_le (decodeU64_lt hf.time)
    simp only [mandatoryItems, List.flatten_cons, List.flatten_nil, List.length_append,
      List.length_nil, FixedBytes.len]
    omega
  rw [items, List.flatten_append, List.length_append, List.length_append]
  have hmandatory : f.mandatoryItems.length = 15 := rfl
  have hoptional : f.optionalItems.length = 6 := rfl
  omega

/-- The list of a header whose `extraData` is an allocated string fits a 64-bit length. -/
theorem Of.length_encodeList_lt (hf : f.Of header)
    (hextra : utf8Length header.extraData.toList ≤ isizeMax) :
    (encodeList (f.items.map encodeBytes)).length < u64Size := by
  obtain ⟨hflat, hcount⟩ := hf.length_flatten_le
  have hlist := length_encodeList_le (f.items.map encodeBytes)
  have hitems := length_flatten_encodeBytes_le f.items
  have hbytes := length_decodeHex_le hf.extra
  have hsize : isizeMax + 10000 < u64Size := by
    rw [u64Size_eq]
    unfold isizeMax
    norm_num
  omega

end HeaderFields

theorem eq_of_encodeList_eq {l l' : List Bytes}
    (hl : (encodeList (l.map encodeBytes)).length < u64Size)
    (hl' : (encodeList (l'.map encodeBytes)).length < u64Size)
    (h : encodeList (l.map encodeBytes) = encodeList (l'.map encodeBytes)) : l = l' := by
  have htree : ∀ l : List Bytes,
      encodeRlp (.list (l.map Rlp.bytes)) = encodeList (l.map encodeBytes) := by
    intro l
    rw [encodeRlp_list, List.map_map]
    congr 1
    apply List.map_congr_left
    intro b _
    rw [Function.comp_apply, encodeRlp]
  have hdepth : ∀ l : List Bytes, (Rlp.list (l.map Rlp.bytes)).depth ≤ maxRlpDepth := by
    intro l
    have : ((l.map Rlp.bytes).map Rlp.depth).foldr max 0 ≤ 0 := by
      apply foldr_max_le
      intro n hn
      rw [List.map_map] at hn
      obtain ⟨b, -, rfl⟩ := List.mem_map.mp hn
      rw [Function.comp_apply, Rlp.depth]
    rw [Rlp.depth_list]
    unfold maxRlpDepth
    omega
  have hd := decode_encodeRlp (by rw [htree]; exact hl) (hdepth l)
  have hd' := decode_encodeRlp (by rw [htree]; exact hl') (hdepth l')
  rw [htree, h, ← htree, hd', Except.ok.injEq, Rlp.list.injEq] at hd
  exact (List.map_injective_iff.mpr fun a b => Rlp.bytes.inj) hd.symm

/-- An encoded list determines the bytes of its items, however long they are. -/
theorem flatten_eq_of_encodeList_eq {l l' : List Bytes} (h : encodeList l = encodeList l') :
    l.flatten = l'.flatten := by
  have hle := length_lenBe_le l.flatten.length
  have hle' := length_lenBe_le l'.flatten.length
  have hlength := congrArg List.length h
  have hfirst := congrArg (fun b => b.head?.map UInt8.toNat) h
  unfold encodeList at h hlength hfirst
  by_cases hs : l.flatten.length ≤ 55
  · by_cases hs' : l'.flatten.length ≤ 55
    · simp only [if_pos hs, if_pos hs', List.cons.injEq] at h
      exact h.2
    · -- the marks of a short and a long list are equal only for lengths that differ
      simp only [if_pos hs, if_neg hs', List.head?_cons, Option.map_some, Option.some.injEq,
        List.length_cons, List.length_append] at hfirst hlength
      rw [toNat_ofNat_of_lt (by omega), toNat_ofNat_of_lt (by omega)] at hfirst
      omega
  · by_cases hs' : l'.flatten.length ≤ 55
    · simp only [if_neg hs, if_pos hs', List.head?_cons, Option.map_some, Option.some.injEq,
        List.length_cons, List.length_append] at hfirst hlength
      rw [toNat_ofNat_of_lt (by omega), toNat_ofNat_of_lt (by omega)] at hfirst
      omega
    · simp only [if_neg hs, if_neg hs', List.head?_cons, Option.map_some, Option.some.injEq] at hfirst
      rw [toNat_ofNat_of_lt (by omega), toNat_ofNat_of_lt (by omega)] at hfirst
      simp only [if_neg hs, if_neg hs', List.cons.injEq] at h
      exact (List.append_inj h.2 (by omega)).2

theorem parent_eq_of_headerPreimage_eq {header header' : RpcBlockHeader} {bytes : Bytes}
    (h : headerPreimage header = .ok bytes) (h' : headerPreimage header' = .ok bytes)
    {parent parent' : Hash} (hp : decodeHexFixed 32 header.parentHash = .ok parent)
    (hp' : decodeHexFixed 32 header'.parentHash = .ok parent') : parent = parent' := by
  obtain ⟨f, hf, heq⟩ := headerPreimage_eq_ok h
  obtain ⟨g, hg, heq'⟩ := headerPreimage_eq_ok h'
  obtain rfl : f.parent = parent := Except.ok.inj (hf.parent.symm.trans hp)
  obtain rfl : g.parent = parent' := Except.ok.inj (hg.parent.symm.trans hp')
  -- the encoded parent is the first item of the list
  have hflatten := flatten_eq_of_encodeList_eq (heq.symm.trans heq')
  simp only [HeaderFields.items, HeaderFields.mandatoryItems, List.map_append, List.map_cons,
    List.cons_append, List.flatten_cons] at hflatten
  have hitem : ∀ p : Hash, encodeBytes p.val = 160 :: p.val := by
    intro p
    apply encodeBytes_of_short
    · rw [p.len]
      decide
    · rw [p.len]
      norm_num
    · intro x hx
      have hlen := p.len
      rw [hx] at hlen
      cases hlen
  rw [hitem f.parent, hitem g.parent, List.cons_append, List.cons_append, List.cons.injEq]
    at hflatten
  have hval := (List.append_inj hflatten.2 (by rw [f.parent.len, g.parent.len])).1
  exact FixedBytes.ext hval

/-- The header hash binds the header. If two headers, whose `extraData` strings are no longer than
a `String` can be, have the same hash, then both decode, and either the two strings that were hashed
collide, or the headers agree: on all mandatory fields, on the optional hashes with their presence,
and on the optional integers with a missing one read as zero. -/
theorem headerHash_binds_fields {P : Primitives} {header header' : RpcBlockHeader} {hash : Hash}
    (hextra : utf8Length header.extraData.toList ≤ isizeMax)
    (hextra' : utf8Length header'.extraData.toList ≤ isizeMax)
    (h : headerHash P header = .ok hash) (h' : headerHash P header' = .ok hash) :
    ∃ bytes bytes' f g, headerPreimage header = .ok bytes ∧ headerPreimage header' = .ok bytes' ∧
      HeaderFields.Of header f ∧ HeaderFields.Of header' g ∧
      (bytes ≠ bytes' ∧ P.keccak256 bytes = P.keccak256 bytes' ∨ f.Agree g) := by
  have hmap : ∀ {x : RpcBlockHeader}, headerHash P x = .ok hash →
      ∃ b, headerPreimage x = .ok b ∧ P.keccak256 b = hash := fun hx => map_eq_ok.mp hx
  obtain ⟨bytes, hb, hk⟩ := hmap h
  obtain ⟨bytes', hb', hk'⟩ := hmap h'
  obtain ⟨f, hf, rfl⟩ := headerPreimage_eq_ok hb
  obtain ⟨g, hg, rfl⟩ := headerPreimage_eq_ok hb'
  refine ⟨_, _, f, g, hb, hb', hf, hg, ?_⟩
  by_cases heq : encodeList (f.items.map encodeBytes) = encodeList (g.items.map encodeBytes)
  · right
    apply HeaderFields.agree_of_items_eq hf hg
    exact eq_of_encodeList_eq (hf.length_encodeList_lt hextra) (hg.length_encodeList_lt hextra') heq
  · exact .inl ⟨heq, hk.trans hk'.symm⟩

theorem utf8Length_hexPrefixed (b : Bytes) :
    utf8Length (hexPrefixed b).toList = 2 + 2 * b.length := by
  have h := utf8Length_hexChars b
  unfold utf8Length hexPrefixed at *
  simp only [String.toList_ofList, List.map_cons, List.sum_cons, h]
  have h0 : '0'.utf8Size = 1 := by decide
  have hx : 'x'.utf8Size = 1 := by decide
  omega

/-- A header of the mock and the same header without its zero base fee have one hash, and agree. -/
theorem headerHash_binds_fields_blank : ∃ header header' hash f g,
    header.baseFeePerGas = some (hexQuantity 0) ∧ header'.baseFeePerGas = none ∧
    headerHash mockPrimitives header = .ok hash ∧ headerHash mockPrimitives header' = .ok hash ∧
    HeaderFields.Of header f ∧ HeaderFields.Of header' g ∧ f.Agree g := by
  obtain ⟨d, hd, hfits⟩ : ∃ d : Draft, d.mid = [] ∧ d.Fits :=
    ⟨blankDraft sealedChainStart, rfl, blankDraft_fits (by decide) (by decide)⟩
  have hpre := Draft.headerPreimage_header (.repeated 20 1) (.repeated 65 0) (.repeated 32 0)
    hfits.reads
  have hsame : headerPreimage { d.header (.repeated 20 1) (.repeated 65 0) (.repeated 32 0) with
      baseFeePerGas := none } = .ok (d.preimage (.repeated 20 1) (.repeated 65 0)) :=
    Draft.headerPreimage_without_baseFee _ _ _ hfits.reads
  have hextra : utf8Length (d.header (.repeated 20 1) (.repeated 65 0)
      (.repeated 32 0)).extraData.toList ≤ isizeMax := by
    rw [Draft.header, utf8Length_hexPrefixed, Draft.length_extra, hd]
    decide
  have hbase : (d.header (.repeated 20 1) (.repeated 65 0) (.repeated 32 0)).baseFeePerGas =
      some (hexQuantity 0) := by
    rw [Draft.header]
  generalize d.header (.repeated 20 1) (.repeated 65 0) (.repeated 32 0) = header at *
  generalize d.preimage (.repeated 20 1) (.repeated 65 0) = preimage at *
  obtain ⟨hash, hhash⟩ : ∃ hash, headerHash mockPrimitives header = .ok hash := by
    rw [headerHash, hpre]
    exact ⟨_, rfl⟩
  have hhash' : headerHash mockPrimitives { header with baseFeePerGas := none } = .ok hash := by
    rw [headerHash, hsame, ← hpre]
    exact hhash
  obtain ⟨bytes, bytes', f, g, hb, hb', hf, hg, hne | hagree⟩ :=
    headerHash_binds_fields hextra (by exact hextra) hhash hhash'
  · rw [hpre, Except.ok.injEq] at hb
    rw [hsame, Except.ok.injEq] at hb'
    exact absurd (hb.symm.trans hb') hne.1
  · exact ⟨header, _, hash, f, g, hbase, rfl, hhash, hhash', hf, hg, hagree⟩

end HeliosBsc
