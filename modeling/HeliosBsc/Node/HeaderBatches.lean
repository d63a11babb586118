import Mathlib.Data.List.Nodup
import Mathlib.Data.List.Perm.Subperm
import HeliosBsc.Lib.Json
import HeliosBsc.Mock.Sealed
import HeliosBsc.Node.HeaderChunks
import HeliosBsc.Node.Sync

/-!
# Header batches

`bin/helios-bsc/src/upstream.rs`: the responses to a batch of header requests may come in any order and
are put back into order by their ids. What comes back is one header for each number asked for, or an
error.
-/

namespace HeliosBsc

open Checked

/-! ## The answers to a batch -/

/-- What `serde_json` does with a value: it writes its text, and reads a header from it. -/
structure Serde where
  display : Json → String
  header : Json → Except Report RpcBlockHeader

/-- `Value::get` of a key. -/
def member (v : Json) (key : String) : Option Json := v.asObject.bind fun m => m.get? key

/-- `Value::as_u64`: the text of an integer without a sign, if it fits. -/
def asU64 : Json → Option ℕ
  | .number text =>
    if text ≠ "" ∧ text.toList.all Char.isDigit ∧ Nat.ofDigitChars 10 text.toList 0 < u64Size then
      some (Nat.ofDigitChars 10 text.toList 0)
    else none
  | _ => none

/-- `item.get("id").and_then(Value::as_u64)`. -/
def batchId (item : Json) : Option ℕ := (member item "id").bind asU64

/-- `item.get("result").cloned().unwrap_or(Value::Null)`. -/
def batchResult (item : Json) : Json := (member item "result").getD .null

section

variable (S : Serde) (fromBlock toBlock : ℕ)

/-- One response of the loop in `headers_from_batch`, after the rows of those before it. -/
def batchRow (rows : List (ℕ × RpcBlockHeader)) (item : Json) :
    Except Report (List (ℕ × RpcBlockHeader)) :=
  match member item "error" with
  | some err => .error [s!"batch rpc error: {S.display err}"]
  | none =>
    match (batchId item).filter fun id => fromBlock ≤ id ∧ id ≤ toBlock with
    | none => .error [s!"batch response id outside {fromBlock}..={toBlock}"]
    | some id => do
      require (¬ rows.any fun row => row.1 = id) [s!"batch response repeats id {id}"]
      let hdr ← withContext s!"header {id}" (S.header (batchResult item))
      return rows ++ [(id, hdr)]

/-- `rows.sort_by_key(|(id, _)| *id)`. -/
def sortById (rows : List (ℕ × RpcBlockHeader)) : List (ℕ × RpcBlockHeader) :=
  rows.mergeSort fun a b => a.1 ≤ b.1

/-- `headers_from_batch`, for a range whose size fits in `u64`. -/
def headersFromBatch (arr : List Json) : Except Report (List RpcBlockHeader) := do
  let want := toBlock - fromBlock + 1
  require (arr.length = want)
    [s!"batch returned {arr.length} responses for {want} requests"]
  let rows ← arr.foldlM (batchRow S fromBlock toBlock) []
  return (sortById rows).map Prod.snd

/-- The row of a response: it carries no error, and its id and its header are those of the row. -/
structure RowOf (item : Json) (row : ℕ × RpcBlockHeader) : Prop where
  noError : member item "error" = none
  id : batchId item = some row.1
  header : S.header (batchResult item) = .ok row.2

/-- An answer to every request of the batch: as many responses as requests, none with an error, each
number of the range the id of one of them, and a header in each. -/
structure Answered (arr : List Json) : Prop where
  count : arr.length = toBlock - fromBlock + 1
  noError : ∀ item ∈ arr, member item "error" = none
  ids : (arr.map batchId).Perm ((List.range' fromBlock (toBlock - fromBlock + 1)).map some)
  headers : ∀ item ∈ arr, ∃ hdr, S.header (batchResult item) = .ok hdr

end

/-! ### What a batch returns -/

theorem sortById_perm (rows : List (ℕ × RpcBlockHeader)) : (sortById rows).Perm rows :=
  List.mergeSort_perm rows _

theorem map_fst_sortById {rows : List (ℕ × RpcBlockHeader)} {start n : ℕ}
    (h : (rows.map Prod.fst).Perm (List.range' start n)) :
    (sortById rows).map Prod.fst = List.range' start n := by
  have hpair : (sortById rows).Pairwise fun a b => decide (a.1 ≤ b.1) = true :=
    List.pairwise_mergeSort
      (fun a b c hab hbc => by simpa using Nat.le_trans (by simpa using hab) (by simpa using hbc))
      (fun a b => by simpa using Nat.le_total a.1 b.1) rows
  have hsorted : ((sortById rows).map Prod.fst).Pairwise (· ≤ ·) :=
    List.pairwise_map.mpr (hpair.imp fun hab => of_decide_eq_true hab)
  have hrange : (List.range' start n).Pairwise (· ≤ ·) :=
    (List.pairwise_lt_range').imp fun hab => hab.le
  exact List.Perm.eq_of_pairwise (fun _ _ _ _ hab hba => Nat.le_antisymm hab hba) hsorted hrange
    (((sortById_perm rows).map Prod.fst).trans h)

/-- Rows with the same ids in ascending order are the same if one is a permutation of the other. -/
theorem eq_of_perm_of_map_fst {a b : List (ℕ × RpcBlockHeader)} {ids : List ℕ}
    (hids : ids.Pairwise (· < ·)) (ha : a.map Prod.fst = ids) (hb : b.map Prod.fst = ids)
    (h : a.Perm b) : a = b := by
  have ha : a.Pairwise fun x y => x.1 < y.1 := List.pairwise_map.mp (ha ▸ hids)
  have hb : b.Pairwise fun x y => x.1 < y.1 := List.pairwise_map.mp (hb ▸ hids)
  exact List.Perm.eq_of_pairwise (fun _ _ _ _ hxy hyx => absurd hyx (Nat.lt_asymm hxy)) ha hb h

section

variable {S : Serde} {fromBlock toBlock : ℕ}

theorem batchRow_eq_ok {rows rows' : List (ℕ × RpcBlockHeader)} {item : Json} :
    batchRow S fromBlock toBlock rows item = .ok rows' ↔
      ∃ row, rows' = rows ++ [row] ∧ RowOf S item row ∧
        (fromBlock ≤ row.1 ∧ row.1 ≤ toBlock) ∧ row.1 ∉ rows.map Prod.fst := by
  constructor
  · intro h
    unfold batchRow at h
    split at h
    · cases h
    · next herror =>
      split at h
      · cases h
      · next id hid =>
        obtain ⟨hid, hrange⟩ := Option.filter_eq_some_iff.mp hid
        simp only [bind_eq_ok, require_eq_ok, pure_eq_ok, Except.ok.injEq, withContext,
          mapError_eq_ok] at h
        obtain ⟨-, hnew, hdr, hhdr, rfl⟩ := h
        refine ⟨(id, hdr), rfl, ⟨herror, hid, hhdr⟩, by simpa using hrange, ?_⟩
        simpa using hnew
  · rintro ⟨row, rfl, hrow, hrange, hnew⟩
    have hid : ((batchId item).filter fun id => fromBlock ≤ id ∧ id ≤ toBlock) = some row.1 :=
      Option.filter_eq_some_iff.mpr ⟨hrow.id, by simpa using hrange⟩
    have hnot : ¬ (rows.any fun r => r.1 = row.1) = true := by simpa using hnew
    unfold batchRow
    simp only [hrow.noError, hid, hrow.header, require_of hnot, withContext, mapError_ok, ok_bind,
      pure_eq_ok]

theorem foldlM_batchRow {arr : List Json} {rows rows' : List (ℕ × RpcBlockHeader)}
    (hrows : (rows.map Prod.fst).Nodup) :
    arr.foldlM (batchRow S fromBlock toBlock) rows = .ok rows' ↔
      ∃ more, rows' = rows ++ more ∧ List.Forall₂ (RowOf S) arr more ∧
        (∀ row ∈ more, fromBlock ≤ row.1 ∧ row.1 ≤ toBlock) ∧ (rows'.map Prod.fst).Nodup := by
  induction arr generalizing rows with
  | nil =>
    constructor
    · intro h
      cases h
      exact ⟨[], by simp, .nil, by simp, hrows⟩
    · rintro ⟨more, rfl, hmore, -, -⟩
      cases hmore
      simp
  | cons item arr ih =>
    -- the rows after one more response have different ids again
    have hpush : ∀ row : ℕ × RpcBlockHeader, row.1 ∉ rows.map Prod.fst →
        ((rows ++ [row]).map Prod.fst).Nodup := by
      intro row hnew
      rw [List.map_append, List.map_singleton]
      exact List.nodup_append_comm.mp (List.nodup_cons.mpr ⟨hnew, hrows⟩)
    rw [List.foldlM_cons, bind_eq_ok]
    constructor
    · rintro ⟨next, hnext, hrest⟩
      obtain ⟨row, rfl, hrow, hrange, hnew⟩ := batchRow_eq_ok.mp hnext
      obtain ⟨more, rfl, hmore, hranges, hnodup⟩ := (ih (hpush row hnew)).mp hrest
      refine ⟨row :: more, by simp, .cons hrow hmore, ?_, hnodup⟩
      exact List.forall_mem_cons.mpr ⟨hrange, hranges⟩
    · rintro ⟨more, rfl, hmore, hranges, hnodup⟩
      cases hmore with
      | @cons _ row _ more hrow hmore =>
        obtain ⟨hrange, hranges⟩ := List.forall_mem_cons.mp hranges
        have hnew : row.1 ∉ rows.map Prod.fst := by
          intro hmem
          rw [List.map_append, List.map_cons] at hnodup
          exact (List.nodup_append.mp hnodup).2.2 row.1 hmem row.1 List.mem_cons_self rfl
        refine ⟨rows ++ [row], batchRow_eq_ok.mpr ⟨row, rfl, hrow, hrange, hnew⟩, ?_⟩
        exact (ih (hpush row hnew)).mpr ⟨more, by simp, hmore, hranges, by simpa using hnodup⟩

/-- A batch returns headers that, paired with the numbers of the range, are the rows of the
responses in some order. -/
theorem headersFromBatch_eq_ok (hle : fromBlock ≤ toBlock) {arr : List Json}
    {hs : List RpcBlockHeader} :
    headersFromBatch S fromBlock toBlock arr = .ok hs ↔
      hs.length = toBlock - fromBlock + 1 ∧ ∃ rows, List.Forall₂ (RowOf S) arr rows ∧
        rows.Perm ((List.range' fromBlock (toBlock - fromBlock + 1)).zip hs) := by
  have hnone : (([] : List (ℕ × RpcBlockHeader)).map Prod.fst).Nodup := List.nodup_nil
  simp only [headersFromBatch, bind_eq_ok, require_eq_ok, pure_eq_ok, Except.ok.injEq,
    foldlM_batchRow hnone, List.nil_append]
  constructor
  · rintro ⟨-, hcount, rows, ⟨more, rfl, hrows, hranges, hnodup⟩, rfl⟩
    have hlen : rows.length = toBlock - fromBlock + 1 := hrows.length_eq ▸ hcount
    -- different numbers of the range, as many as the range has
    have hids : (rows.map Prod.fst).Perm (List.range' fromBlock (toBlock - fromBlock + 1)) := by
      refine (List.subperm_of_subset hnodup ?_).perm_of_length_le (by simp [hlen])
      intro id hid
      obtain ⟨row, hrow, rfl⟩ := List.mem_map.mp hid
      have hrange := hranges row hrow
      rw [List.mem_range'_1]
      omega
    have hsorted := List.zip_of_prod (map_fst_sortById hids) rfl
    refine ⟨?_, rows, hrows, hsorted ▸ (sortById_perm rows).symm⟩
    rw [List.length_map, (sortById_perm rows).length_eq, hlen]
  · rintro ⟨hlen, rows, hrows, hperm⟩
    have hzip : ((List.range' fromBlock (toBlock - fromBlock + 1)).zip hs).map Prod.fst =
        List.range' fromBlock (toBlock - fromBlock + 1) := List.map_fst_zip (by simp [hlen])
    have hids : (rows.map Prod.fst).Perm (List.range' fromBlock (toBlock - fromBlock + 1)) :=
      hzip ▸ hperm.map Prod.fst
    have hsorted : sortById rows = (List.range' fromBlock (toBlock - fromBlock + 1)).zip hs :=
      eq_of_perm_of_map_fst List.pairwise_lt_range' (map_fst_sortById hids) hzip
        ((sortById_perm rows).trans hperm)
    have hcount : arr.length = toBlock - fromBlock + 1 := by
      rw [hrows.length_eq, hperm.length_eq, List.length_zip, List.length_range', hlen, Nat.min_self]
    refine ⟨(), hcount, rows, ⟨rows, rfl, hrows, ?_, ?_⟩, ?_⟩
    · intro row hrow
      have hmem := hids.mem_iff.mp (List.mem_map_of_mem hrow)
      rw [List.mem_range'_1] at hmem
      omega
    · exact hids.nodup_iff.mpr List.nodup_range'
    · rw [hsorted, List.map_snd_zip (by simp [hlen])]

theorem answered_of_rows {arr : List Json} {rows : List (ℕ × RpcBlockHeader)}
    (hrows : List.Forall₂ (RowOf S) arr rows)
    (hids : (rows.map Prod.fst).Perm (List.range' fromBlock (toBlock - fromBlock + 1))) :
    Answered S fromBlock toBlock arr := by
  have hsame : arr.map batchId = (rows.map Prod.fst).map some := by
    clear hids
    induction hrows with
    | nil => rfl
    | cons hrow _ ih => rw [List.map_cons, List.map_cons, List.map_cons, hrow.id, ih]
  refine ⟨?_, fun item hitem => ?_, hsame ▸ hids.map some, fun item hitem => ?_⟩
  · rw [hrows.length_eq, ← List.length_map Prod.fst, hids.length_eq, List.length_range']
  · obtain ⟨row, -, hrow⟩ := exists_of_forall₂_left hrows item hitem
    exact hrow.noError
  · obtain ⟨row, -, hrow⟩ := exists_of_forall₂_left hrows item hitem
    exact ⟨row.2, hrow.header⟩

theorem Answered.exists_rows {arr : List Json} (h : Answered S fromBlock toBlock arr) :
    ∃ rows, List.Forall₂ (RowOf S) arr rows ∧
      (rows.map Prod.fst).Perm (List.range' fromBlock (toBlock - fromBlock + 1)) := by
  have hrow : ∀ item ∈ arr, ∃ row, RowOf S item row := by
    intro item hitem
    obtain ⟨hdr, hhdr⟩ := h.headers item hitem
    obtain ⟨id, -, hid⟩ := List.mem_map.mp (h.ids.mem_iff.mp (List.mem_map_of_mem hitem))
    exact ⟨(id, hdr), h.noError item hitem, hid.symm, hhdr⟩
  have hall : ∃ rows, List.Forall₂ (RowOf S) arr rows ∧
      arr.map batchId = (rows.map Prod.fst).map some := by
    clear h
    induction arr with
    | nil => exact ⟨[], .nil, rfl⟩
    | cons item arr ih =>
      obtain ⟨row, hitem⟩ := hrow item List.mem_cons_self
      obtain ⟨rows, hrows, hids⟩ := ih fun i hi => hrow i (List.mem_cons_of_mem item hi)
      refine ⟨row :: rows, .cons hitem hrows, ?_⟩
      rw [List.map_cons, List.map_cons, List.map_cons, hitem.id, hids]
  obtain ⟨rows, hrows, hids⟩ := hall
  have hperm := h.ids
  rw [hids] at hperm
  exact ⟨rows, hrows, (List.map_perm_map_iff (Option.some_injective ℕ)).mp hperm⟩

/-- A batch returns headers exactly when every request is answered. -/
theorem exists_headersFromBatch (hle : fromBlock ≤ toBlock) {arr : List Json} :
    (∃ hs, headersFromBatch S fromBlock toBlock arr = .ok hs) ↔
      Answered S fromBlock toBlock arr := by
  constructor
  · rintro ⟨hs, h⟩
    obtain ⟨hlen, rows, hrows, hperm⟩ := (headersFromBatch_eq_ok hle).mp h
    refine answered_of_rows hrows ?_
    have hids := hperm.map Prod.fst
    rwa [List.map_fst_zip (by simp [hlen])] at hids
  · intro h
    obtain ⟨rows, hrows, hids⟩ := h.exists_rows
    have hsorted := List.zip_of_prod (map_fst_sortById hids) rfl
    refine ⟨(sortById rows).map Prod.snd, (headersFromBatch_eq_ok hle).mpr ⟨?_, rows, hrows, ?_⟩⟩
    · rw [List.length_map, (sortById_perm rows).length_eq, ← hrows.length_eq, h.count]
    · exact hsorted ▸ (sortById_perm rows).symm

theorem exists_response (hle : fromBlock ≤ toBlock) {arr : List Json} {hs : List RpcBlockHeader}
    (h : headersFromBatch S fromBlock toBlock arr = .ok hs) {n : ℕ} {hdr : RpcBlockHeader}
    (hmem : (n, hdr) ∈ (List.range' fromBlock (toBlock - fromBlock + 1)).zip hs) :
    ∃ item ∈ arr, batchId item = some n ∧ S.header (batchResult item) = .ok hdr := by
  obtain ⟨-, rows, hrows, hperm⟩ := (headersFromBatch_eq_ok hle).mp h
  obtain ⟨item, hitem, hrow⟩ :=
    exists_of_forall₂_right hrows (n, hdr) (hperm.mem_iff.mpr hmem)
  exact ⟨item, hitem, hrow.id, hrow.header⟩

theorem headersFromBatch_of_perm (hle : fromBlock ≤ toBlock) {arr arr' : List Json}
    (hperm : arr.Perm arr') {hs : List RpcBlockHeader}
    (h : headersFromBatch S fromBlock toBlock arr = .ok hs) :
    headersFromBatch S fromBlock toBlock arr' = .ok hs := by
  obtain ⟨hlen, rows, hrows, hzip⟩ := (headersFromBatch_eq_ok hle).mp h
  obtain ⟨rows', hrows', hperm'⟩ := List.perm_comp_forall₂ hperm.symm hrows
  exact (headersFromBatch_eq_ok hle).mpr ⟨hlen, rows', hrows', hperm'.trans hzip⟩

end

/-! ### Honest answers -/

/-- The member of a header's field. -/
def textField (v : Json) (key : String) : Except Report String :=
  match member v key with
  | some (.string s) => .ok s
  | some _ => .error [s!"invalid type of {key}, expected a string"]
  | none => .error [s!"missing field {key}"]

/-- The member of a header's field that may be missing. -/
def optionField (v : Json) (key : String) : Except Report (Option String) :=
  match member v key with
  | some (.string s) => .ok (some s)
  | some .null => .ok none
  | some _ => .error [s!"invalid type of {key}, expected a string"]
  | none => .ok none

/-- `Deserialize` of `RpcBlockHeader`, on an object. -/
def readHeader (v : Json) : Except Report RpcBlockHeader := do
  return {
    hash := ← textField v "hash"
    parentHash := ← textField v "parentHash"
    sha3Uncles := ← textField v "sha3Uncles"
    miner := ← textField v "miner"
    stateRoot := ← textField v "stateRoot"
    transactionsRoot := ← textField v "transactionsRoot"
    receiptsRoot := ← textField v "receiptsRoot"
    logsBloom := ← textField v "logsBloom"
    difficulty := ← textField v "difficulty"
    number := ← textField v "number"
    gasLimit := ← textField v "gasLimit"
    gasUsed := ← textField v "gasUsed"
    timestamp := ← textField v "timestamp"
    extraData := ← textField v "extraData"
    mixHash := ← textField v "mixHash"
    nonce := ← textField v "nonce"
    baseFeePerGas := ← optionField v "baseFeePerGas"
    withdrawalsRoot := ← optionField v "withdrawalsRoot"
    blobGasUsed := ← optionField v "blobGasUsed"
    excessBlobGas := ← optionField v "excessBlobGas"
    parentBeaconBlockRoot := ← optionField v "parentBeaconBlockRoot"
    requestsHash := ← optionField v "requestsHash" }

/-- A text, or `null`. -/
def optionJson : Option String → Json
  | some s => .string s
  | none => .null

/-- `Serialize` of `RpcBlockHeader`. -/
def headerJson (h : RpcBlockHeader) : Json :=
  .object [("hash", .string h.hash), ("parentHash", .string h.parentHash),
    ("sha3Uncles", .string h.sha3Uncles), ("miner", .string h.miner),
    ("stateRoot", .string h.stateRoot), ("transactionsRoot", .string h.transactionsRoot),
    ("receiptsRoot", .string h.receiptsRoot), ("logsBloom", .string h.logsBloom),
    ("difficulty", .string h.difficulty), ("number", .string h.number),
    ("gasLimit", .string h.gasLimit), ("gasUsed", .string h.gasUsed),
    ("timestamp", .string h.timestamp), ("extraData", .string h.extraData),
    ("mixHash", .string h.mixHash), ("nonce", .string h.nonce),
    ("baseFeePerGas", optionJson h.baseFeePerGas),
    ("withdrawalsRoot", optionJson h.withdrawalsRoot),
    ("blobGasUsed", optionJson h.blobGasUsed), ("excessBlobGas", optionJson h.excessBlobGas),
    ("parentBeaconBlockRoot", optionJson h.parentBeaconBlockRoot),
    ("requestsHash", optionJson h.requestsHash)]

theorem optionField_of {v : Json} {key : String} {s : Option String}
    (h : member v key = some (optionJson s)) : optionField v key = .ok s := by
  rw [optionField, h]
  cases s <;> rfl

theorem readHeader_headerJson (h : RpcBlockHeader) : readHeader (headerJson h) = .ok h := by
  have hbaseFee : optionField (headerJson h) "baseFeePerGas" = .ok h.baseFeePerGas :=
    optionField_of rfl
  have hwithdrawals : optionField (headerJson h) "withdrawalsRoot" = .ok h.withdrawalsRoot :=
    optionField_of rfl
  have hblobGas : optionField (headerJson h) "blobGasUsed" = .ok h.blobGasUsed := optionField_of rfl
  have hexcess : optionField (headerJson h) "excessBlobGas" = .ok h.excessBlobGas :=
    optionField_of rfl
  have hbeacon : optionField (headerJson h) "parentBeaconBlockRoot" = .ok h.parentBeaconBlockRoot :=
    optionField_of rfl
  have hrequests : optionField (headerJson h) "requestsHash" = .ok h.requestsHash :=
    optionField_of rfl
  unfold readHeader
  rw [hbaseFee, hwithdrawals, hblobGas, hexcess, hbeacon, hrequests]
  rfl

/-- The response to the request for a number. -/
def respond (n : ℕ) (h : RpcBlockHeader) : Json :=
  .object [("jsonrpc", .string "2.0"), ("id", .number (toString n)), ("result", headerJson h)]

theorem asU64_toString {n : ℕ} (h : n < u64Size) : asU64 (.number (toString n)) = some n := by
  have hdigits : (toString n).toList = Nat.toDigits 10 n := by rw [Nat.toString_eq_repr, Nat.toList_repr]
  have hne : toString n ≠ "" := by
    intro hempty
    rw [hempty] at hdigits
    exact Nat.toDigits_ne_nil hdigits.symm
  have hall : (Nat.toDigits 10 n).all Char.isDigit = true :=
    List.all_eq_true.mpr fun c hc => Nat.isDigit_of_mem_toDigits (by decide) (by decide) hc
  rw [asU64, hdigits, Nat.ofDigitChars_ten_toDigits, if_pos ⟨hne, hall, h⟩]

theorem rowOf_respond {S : Serde} (hread : ∀ h, S.header (headerJson h) = .ok h) {n : ℕ}
    (h : n < u64Size) (hdr : RpcBlockHeader) : RowOf S (respond n hdr) (n, hdr) where
  noError := rfl
  id := by
    show asU64 (.number (toString n)) = some n
    exact asU64_toString h
  header := by
    show S.header (headerJson hdr) = .ok hdr
    exact hread hdr

/-- An upstream that answers every request with the header of its number, in any order, is read
as the headers of the range. -/
theorem headersFromBatch_respond {S : Serde} (hread : ∀ h, S.header (headerJson h) = .ok h)
    {fromBlock toBlock : ℕ} (hle : fromBlock ≤ toBlock) (hto : toBlock < u64Size)
    (header : ℕ → RpcBlockHeader) {arr : List Json}
    (hperm : ((chunkNumbers (fromBlock, toBlock)).map fun n => respond n (header n)).Perm arr) :
    headersFromBatch S fromBlock toBlock arr =
      .ok ((chunkNumbers (fromBlock, toBlock)).map header) := by
  have hnumbers : chunkNumbers (fromBlock, toBlock) =
      List.range' fromBlock (toBlock - fromBlock + 1) := by
    show List.range' fromBlock (toBlock + 1 - fromBlock) = _
    rw [Nat.sub_add_comm hle]
  refine headersFromBatch_of_perm hle hperm ((headersFromBatch_eq_ok hle).mpr ⟨?_, ?_⟩)
  · rw [List.length_map, hnumbers, List.length_range']
  · refine ⟨(chunkNumbers (fromBlock, toBlock)).map fun n => (n, header n), ?_, ?_⟩
    · rw [List.forall₂_map_left_iff, List.forall₂_map_right_iff, List.forall₂_same]
      intro n hn
      exact rowOf_respond hread ((mem_chunkNumbers.mp hn).2.trans_lt hto) (header n)
    · rw [← hnumbers, ← List.map_prod_left_eq_zip]

/-- A batch of responses in any order gives one header for each number of the range, in the order of
the numbers, exactly when every request is answered. -/
theorem headersFromBatch_exact (S : Serde) {fromBlock toBlock : ℕ} (hle : fromBlock ≤ toBlock)
    (arr : List Json) :
    ((∃ hs, headersFromBatch S fromBlock toBlock arr = .ok hs) ↔
        Answered S fromBlock toBlock arr) ∧
      (∀ hs, headersFromBatch S fromBlock toBlock arr = .ok hs →
        hs.length = toBlock - fromBlock + 1 ∧ ∀ i hdr, hs[i]? = some hdr → ∃ item ∈ arr,
          batchId item = some (fromBlock + i) ∧ S.header (batchResult item) = .ok hdr) ∧
      ∀ arr', arr.Perm arr' → ∀ hs, headersFromBatch S fromBlock toBlock arr = .ok hs →
        headersFromBatch S fromBlock toBlock arr' = .ok hs := by
  refine ⟨exists_headersFromBatch hle, fun hs h => ⟨?_, fun i hdr hi => ?_⟩, ?_⟩
  · exact ((headersFromBatch_eq_ok hle).mp h).1
  · have hlt : i < toBlock - fromBlock + 1 :=
      ((headersFromBatch_eq_ok hle).mp h).1 ▸ (List.getElem?_eq_some_iff.mp hi).1
    refine exists_response hle h (List.mem_of_getElem? (i := i) ?_)
    rw [List.getElem?_zip_eq_some]
    exact ⟨by rw [List.getElem?_range' hlt, Nat.one_mul], hi⟩
  · intro arr' hperm hs h
    exact headersFromBatch_of_perm hle hperm h

/-- The reader of the fields; it writes no texts. -/
def fieldReader : Serde where
  display _ := ""
  header := readHeader

/-- The header of a number. -/
def numberedHeader (n : ℕ) : RpcBlockHeader :=
  Draft.header ⟨n, .repeated 32 0, 0, .repeated 32 0, 2, []⟩ (.repeated 20 0) (.repeated 65 0)
    (.repeated 32 0)

theorem headersFromBatch_exact_three :
    ∃ hs, headersFromBatch fieldReader 116663999 116664001
        [respond 116664001 (numberedHeader 116664001), respond 116663999 (numberedHeader 116663999),
          respond 116664000 (numberedHeader 116664000)] = .ok hs := by
  have hrow : ∀ n < u64Size, RowOf fieldReader (respond n (numberedHeader n)) (n, numberedHeader n) :=
    fun n hn => rowOf_respond readHeader_headerJson hn (numberedHeader n)
  have hlt : 116664001 < u64Size := by rw [u64Size_eq]; norm_num
  refine (headersFromBatch_exact fieldReader (by norm_num) _).1.mpr (answered_of_rows
    (.cons (hrow 116664001 hlt) (.cons (hrow 116663999 (by omega))
      (.cons (hrow 116664000 (by omega)) .nil))) ?_)
  show [116664001, 116663999, 116664000].Perm (List.range' 116663999 3)
  decide

/-! ## Whole ranges -/

section

variable (S : Serde) (post : ℕ × ℕ → Except Report Json)

/-- `Upstream::headers_one_batch`, over the upstream's answer to the batch of a chunk. -/
def headersOneBatch (c : ℕ × ℕ) : Except Report (List RpcBlockHeader) := do
  let resp ← post c
  match resp with
  | .array arr => headersFromBatch S c.1 c.2 arr
  | _ => .error [s!"batch response not array: {S.display resp}"]

/-- `out.extend(self.headers_one_batch(a, b)?)`. -/
def extendBatch (out : List RpcBlockHeader) (c : ℕ × ℕ) : Except Report (List RpcBlockHeader) := do
  let batch ← headersOneBatch S post c
  return out ++ batch

/-- `Upstream::headers_range_batch`, over the chunks of the range. -/
def headersRangeBatch (chunks : List (ℕ × ℕ)) : Except Report (List RpcBlockHeader) :=
  chunks.foldlM (extendBatch S post) []

/-- `chunks(PARALLEL)`, with `PARALLEL` 3. -/
def groupsOfThree {α : Type} : List α → List (List α)
  | [] => []
  | a :: b :: c :: rest => [a, b, c] :: groupsOfThree rest
  | few => [few]

/-- `Upstream::headers_range_parallel`, over the chunks of the range: the batches of a group are
fetched at once and joined in order. -/
def headersRangeParallel (chunks : List (ℕ × ℕ)) : Except Report (List RpcBlockHeader) :=
  (groupsOfThree chunks).foldlM (fun out group => do
    let collected ← group.mapM (headersOneBatch S post)
    return out ++ collected.flatten) []

/-- `Upstream::headers_range`, over the chunks of the range: parallel batches, else batches one after
the other, else one request for each header. -/
def headersRange (parallel serial : ℕ × ℕ → Except Report Json)
    (headerByNumber : ℕ → Except Report RpcBlockHeader) (chunks : List (ℕ × ℕ))
    (fromBlock toBlock : ℕ) : Except Report (List RpcBlockHeader) :=
  if toBlock < fromBlock then .ok []
  else
    match headersRangeParallel S parallel chunks with
    | .ok v => .ok v
    | .error _ =>
      match headersRangeBatch S serial chunks with
      | .ok v => .ok v
      | .error _ => (chunkNumbers (fromBlock, toBlock)).mapM headerByNumber

/-- The upstream answered the request for a number with this header. -/
def HeaderFetched (n : ℕ) (hdr : RpcBlockHeader) : Prop :=
  ∃ c arr, post c = .ok (.array arr) ∧
    ∃ item ∈ arr, batchId item = some n ∧ S.header (batchResult item) = .ok hdr

end

section

variable {S : Serde} {post : ℕ × ℕ → Except Report Json}

theorem headersOneBatch_fetched {c : ℕ × ℕ} (hc : c.1 ≤ c.2) {hs : List RpcBlockHeader}
    (h : headersOneBatch S post c = .ok hs) :
    List.Forall₂ (HeaderFetched S post) (chunkNumbers c) hs := by
  unfold headersOneBatch at h
  obtain ⟨resp, hresp, h⟩ := bind_eq_ok.mp h
  split at h
  · next arr =>
    have hnumbers : chunkNumbers c = List.range' c.1 (c.2 - c.1 + 1) := by
      rw [chunkNumbers, Nat.sub_add_comm hc]
    rw [hnumbers, List.forall₂_iff_zip, List.length_range']
    refine ⟨((headersFromBatch_eq_ok hc).mp h).1.symm, fun {n hdr} hmem => ?_⟩
    exact ⟨c, arr, hresp, exists_response hc h hmem⟩
  · cases h

/-- The headers of a list of chunks are those of the numbers of the chunks, one after the other. -/
theorem headersRangeBatch_fetched {chunks : List (ℕ × ℕ)} (hsize : ∀ c ∈ chunks, c.1 ≤ c.2)
    {hs : List RpcBlockHeader} (h : headersRangeBatch S post chunks = .ok hs) :
    List.Forall₂ (HeaderFetched S post) (chunks.flatMap chunkNumbers) hs := by
  suffices hfold : ∀ out, chunks.foldlM (extendBatch S post) out = .ok hs → ∃ more,
      hs = out ++ more ∧ List.Forall₂ (HeaderFetched S post) (chunks.flatMap chunkNumbers) more by
    obtain ⟨more, rfl, hmore⟩ := hfold [] h
    exact hmore
  clear h
  induction chunks with
  | nil =>
    intro out h
    cases h
    exact ⟨[], by simp, .nil⟩
  | cons c chunks ih =>
    intro out h
    simp only [List.foldlM_cons, extendBatch, bind_eq_ok, pure_eq_ok, Except.ok.injEq] at h
    obtain ⟨-, ⟨batch, hbatch, rfl⟩, h⟩ := h
    obtain ⟨hc, hsize⟩ := List.forall_mem_cons.mp hsize
    obtain ⟨more, rfl, hmore⟩ := ih hsize (out ++ batch) h
    refine ⟨batch ++ more, by simp, ?_⟩
    rw [List.flatMap_cons]
    exact List.rel_append (headersOneBatch_fetched hc hbatch) hmore

theorem headersRangeBatch_respond (hread : ∀ h, S.header (headerJson h) = .ok h)
    (header : ℕ → RpcBlockHeader) {chunks : List (ℕ × ℕ)}
    (hchunks : ∀ c ∈ chunks, c.1 ≤ c.2 ∧ c.2 < u64Size)
    (hpost : ∀ c ∈ chunks, ∃ arr, post c = .ok (.array arr) ∧
      ((chunkNumbers c).map fun n => respond n (header n)).Perm arr) :
    headersRangeBatch S post chunks = .ok ((chunks.flatMap chunkNumbers).map header) := by
  suffices hfold : ∀ out, chunks.foldlM (extendBatch S post) out =
      .ok (out ++ (chunks.flatMap chunkNumbers).map header) from hfold []
  induction chunks with
  | nil =>
    intro out
    simp
  | cons c chunks ih =>
    intro out
    obtain ⟨⟨hle, hlt⟩, hchunks⟩ := List.forall_mem_cons.mp hchunks
    obtain ⟨⟨arr, harr, hperm⟩, hpost⟩ := List.forall_mem_cons.mp hpost
    have hbatch : headersOneBatch S post c = .ok ((chunkNumbers c).map header) := by
      rw [headersOneBatch, harr]
      exact headersFromBatch_respond hread hle hlt header hperm
    rw [List.foldlM_cons, extendBatch, hbatch, ok_bind, pure_eq_ok, ok_bind, ih hchunks hpost,
      List.flatMap_cons, List.map_append, List.append_assoc]

/-- A range that is fetched in batches comes back as one header for each of its numbers, in order,
each from a response with the number as its id. -/
theorem headersRangeBatch_exact {o : Overflow} {fromBlock toBlock : ℕ}
    (hto : toBlock + 1 < u64Size) {chunks : List (ℕ × ℕ)}
    (hchunks : HeaderChunks o fromBlock toBlock (some chunks)) {hs : List RpcBlockHeader}
    (h : headersRangeBatch S post chunks = .ok hs) :
    List.Forall₂ (HeaderFetched S post) (chunkNumbers (fromBlock, toBlock)) hs := by
  obtain ⟨hsize, hnumbers⟩ := hchunks.spec hto
  have hfetched := headersRangeBatch_fetched (fun c hc => (hsize c hc).1) h
  rwa [hnumbers] at hfetched

/-- Fetching three batches at once makes no difference to what is returned. -/
theorem headersRangeParallel_eq (chunks : List (ℕ × ℕ)) :
    headersRangeParallel S post chunks = headersRangeBatch S post chunks := by
  have hgroup : ∀ (group : List (ℕ × ℕ)) (out : List RpcBlockHeader),
      (group.mapM (headersOneBatch S post) >>= fun collected => .ok (out ++ collected.flatten)) =
        group.foldlM (extendBatch S post) out := by
    intro group
    induction group with
    | nil =>
      intro out
      simp
    | cons c group ih =>
      intro out
      rw [List.mapM_cons, List.foldlM_cons, extendBatch]
      cases headersOneBatch S post c with
      | error e => rfl
      | ok batch =>
        rw [ok_bind, ok_bind, pure_eq_ok, ok_bind, ← ih (out ++ batch)]
        cases group.mapM (headersOneBatch S post) with
        | error e => rfl
        | ok collected =>
          show Except.ok (out ++ (batch ++ collected.flatten)) = _
          rw [← List.append_assoc]
          rfl
  have hfold : ∀ (out : List RpcBlockHeader),
      (groupsOfThree chunks).foldlM (fun out group => do
        let collected ← group.mapM (headersOneBatch S post)
        return out ++ collected.flatten) out = chunks.foldlM (extendBatch S post) out := by
    induction chunks using groupsOfThree.induct with
    | case1 =>
      intro out
      rfl
    | case2 a b c rest ih =>
      intro out
      rw [groupsOfThree, List.foldlM_cons]
      simp only [pure_eq_ok, hgroup] at ih ⊢
      have hsplit : a :: b :: c :: rest = [a, b, c] ++ rest := rfl
      rw [hsplit, List.foldlM_append]
      exact congrArg _ (funext ih)
    | case3 few hnil hlong =>
      intro out
      rw [groupsOfThree, List.foldlM_cons]
      · simp only [pure_eq_ok, hgroup, List.foldlM_nil]
        cases few.foldlM (extendBatch S post) out <;> rfl
      · exact hnil
      · exact hlong
  exact hfold []

/-- What is fetched for a range, in whichever way, is one header for each of its numbers, in order. -/
theorem headersRange_exact {parallel serial : ℕ × ℕ → Except Report Json}
    {headerByNumber : ℕ → Except Report RpcBlockHeader} {o : Overflow} {fromBlock toBlock : ℕ}
    (hto : toBlock + 1 < u64Size) {chunks : List (ℕ × ℕ)}
    (hchunks : HeaderChunks o fromBlock toBlock (some chunks)) {hs : List RpcBlockHeader}
    (h : headersRange S parallel serial headerByNumber chunks fromBlock toBlock = .ok hs) :
    List.Forall₂ (fun n hdr => HeaderFetched S parallel n hdr ∨ HeaderFetched S serial n hdr ∨
      headerByNumber n = .ok hdr) (chunkNumbers (fromBlock, toBlock)) hs := by
  unfold headersRange at h
  split at h
  · next hempty =>
    cases h
    have hlen : toBlock + 1 - fromBlock = 0 := by omega
    rw [chunkNumbers, hlen]
    exact .nil
  · split at h
    · next v hparallel =>
      cases h
      rw [headersRangeParallel_eq] at hparallel
      exact (headersRangeBatch_exact hto hchunks hparallel).imp fun _ _ hf => .inl hf
    · split at h
      · next v hserial =>
        cases h
        exact (headersRangeBatch_exact hto hchunks hserial).imp fun _ _ hf => .inr (.inl hf)
      · exact (forall₂_of_mapM_eq_ok h).imp fun _ _ hf => .inr (.inr hf)

/-- An upstream that answers every request of a range with the header of its number is read as the
headers of the range. -/
theorem headersRangeBatch_honest (hread : ∀ h, S.header (headerJson h) = .ok h)
    (header : ℕ → RpcBlockHeader) {o : Overflow} {fromBlock toBlock : ℕ}
    (hto : toBlock + 1 < u64Size) {chunks : List (ℕ × ℕ)}
    (hchunks : HeaderChunks o fromBlock toBlock (some chunks))
    (hpost : ∀ c ∈ chunks, ∃ arr, post c = .ok (.array arr) ∧
      ((chunkNumbers c).map fun n => respond n (header n)).Perm arr) :
    headersRangeBatch S post chunks = .ok ((chunkNumbers (fromBlock, toBlock)).map header) := by
  obtain ⟨hsize, hnumbers⟩ := hchunks.spec hto
  rw [← hnumbers]
  refine headersRangeBatch_respond hread header (fun c hc => ⟨(hsize c hc).1, ?_⟩) hpost
  -- the last number of a chunk is one of the range
  have hlast : c.2 ∈ chunks.flatMap chunkNumbers :=
    List.mem_flatMap.mpr ⟨c, hc, mem_chunkNumbers.mpr ⟨(hsize c hc).1, le_rfl⟩⟩
  rw [hnumbers] at hlast
  exact (mem_chunkNumbers.mp hlast).2.trans_lt (Nat.lt_of_succ_lt hto)

end

end HeliosBsc
