import HeliosBsc.Execution.HexPrefix
import HeliosBsc.Execution.RlpRoundTrip
import HeliosBsc.Execution.Mpt
import HeliosBsc.Lib.Patricia
import Mathlib.Data.List.Lex
import Mathlib.Data.List.TakeWhile
import Mathlib.Order.Fin.Basic

/-!
# Ordered tries

`execution/src/ordered_trie.rs`, `tx_list.rs` and `receipt_list.rs`: the builder of the hexary
trie of a list (item `i` at key `RLP(i)`) and the two list checks that use its root. The builder
works on a slice of pairs sorted by nibble key, all of which agree on their first `preLen`
nibbles.
-/

namespace HeliosBsc

open Checked Trie

/-- A nibble key and its item. -/
abbrev Pair := List Nibble × Bytes

/-- `MAX_ORDERED_TRIE_ITEMS`. -/
def maxOrderedTrieItems : ℕ := 4096

/-- `shared_prefix_len`. -/
def sharedPrefixLen (a b : List Nibble) : ℕ := (a.zip b).findIdx fun p => p.1 != p.2

/-- The loop that computes `shared`. -/
def sharedOf (key : List Nibble) (rest : List Pair) : ℕ :=
  rest.foldl (fun shared p => min shared (sharedPrefixLen key p.1)) key.length

/-- `k[pre_len] == nibble`. -/
def hasNibble (preLen nibble : ℕ) (p : Pair) : Bool := p.1[preLen]?.map Fin.val == some nibble

/-- `&input[begin..]` when the loop over the sixteen nibbles comes to `nibble`: one pair is
skipped when the first key ends here, then the slices of the earlier nibbles. -/
def slotStart (input : List Pair) (keyLen preLen : ℕ) : ℕ → List Pair
  | 0 => input.drop (if preLen = keyLen then 1 else 0)
  | nibble + 1 => (slotStart input keyLen preLen nibble).dropWhile (hasNibble preLen nibble)

/-- The slice of the pairs below one nibble. -/
def slot (input : List Pair) (keyLen preLen nibble : ℕ) : List Pair :=
  (slotStart input keyLen preLen nibble).takeWhile (hasNibble preLen nibble)

theorem slotStart_sublist (input : List Pair) (keyLen preLen nibble : ℕ) :
    (slotStart input keyLen preLen nibble).Sublist input := by
  induction nibble with
  | zero => exact List.drop_sublist _ _
  | succ n ih => exact (List.dropWhile_sublist _).trans ih

theorem slot_sublist (input : List Pair) (keyLen preLen nibble : ℕ) :
    (slot input keyLen preLen nibble).Sublist input :=
  (List.takeWhile_sublist _).trans (slotStart_sublist input keyLen preLen nibble)

theorem lt_length_of_mem_slot {input : List Pair} {keyLen preLen nibble : ℕ} {p : Pair}
    (h : p ∈ slot input keyLen preLen nibble) : preLen < p.1.length := by
  have hp := List.mem_takeWhile_imp h
  simp only [hasNibble, beq_iff_eq, Option.map_eq_some_iff] at hp
  obtain ⟨x, hx, -⟩ := hp
  exact (List.getElem?_eq_some_iff.mp hx).1

theorem sharedPrefixLen_eq (a b : List Nibble) : sharedPrefixLen a b = sharedLen a b := by
  unfold sharedPrefixLen
  induction a generalizing b with
  | nil => rfl
  | cons x a ih =>
    cases b with
    | nil => rfl
    | cons y b =>
      rw [List.zip_cons_cons, List.findIdx_cons, ih, sharedLen]
      by_cases h : x = y
      · simp [h]
      · simp [h, bne_iff_ne.mpr h]

theorem sharedOf_eq (key : List Nibble) (rest : List Pair) :
    sharedOf key rest = sharedAll key rest := by
  unfold sharedOf sharedAll
  simp only [sharedPrefixLen_eq]

section

variable (keccak256 : Bytes → Hash)

/-- `child_ref`. -/
def childRef (encoded : Bytes) : Bytes :=
  if encoded.length < 32 then encoded else encodeBytes (keccak256 encoded).val

/-- `encode_node`. -/
def encodeNode (input : List Pair) (preLen : ℕ) : Bytes :=
  match input with
  | [] => encodeBytes []
  | [(key, value)] =>
    encodeList [encodeBytes (hexPrefixEncode (key.drop preLen) true), encodeBytes value]
  | (key, value) :: q :: rest =>
    if preLen < sharedOf key (q :: rest) then
      let hp := hexPrefixEncode ((key.take (sharedOf key (q :: rest))).drop preLen) false
      let child := encodeNode ((key, value) :: q :: rest) (sharedOf key (q :: rest))
      encodeList [encodeBytes hp, childRef keccak256 child]
    else
      let children := (List.range 16).map fun nibble =>
        if slot ((key, value) :: q :: rest) key.length preLen nibble = [] then encodeBytes []
        else
          childRef keccak256
            (encodeNode (slot ((key, value) :: q :: rest) key.length preLen nibble) (preLen + 1))
      let last := if preLen = key.length then encodeBytes value else encodeBytes []
      encodeList (children ++ [last])
termination_by remaining input preLen
decreasing_by
  · next hlt =>
    rw [sharedOf_eq] at hlt ⊢
    exact remaining_lt_of_lt (p := (key, value)) List.mem_cons_self hlt (sharedAll_le_length _ _)
  · exact remaining_lt_of_sublist (slot_sublist _ _ _ _) (List.cons_ne_nil _ _)
      (fun _ hp => lt_length_of_mem_slot hp)

/-- `a.0.cmp(&b.0)` is not `Greater`. -/
def pairLe (a b : Pair) : Bool := decide (a.1 ≤ b.1)

/-- The key and the item of each index, before sorting. -/
def indexedPairs (items : List Bytes) : List Pair :=
  items.zipIdx.map fun p => (bytesToNibbles (encodeUint p.2), p.1)

/-- `ordered_trie_root`. -/
def orderedTrieRoot (items : List Bytes) : Hash :=
  let items := items.take (min items.length maxOrderedTrieItems)
  if items = [] then emptyTrieRoot
  else keccak256 (encodeNode keccak256 ((indexedPairs items).mergeSort pairLe) 0)

/-- `TxListError`. -/
inductive TxListError where
  | tooMany
  | rootMismatch
  deriving DecidableEq, Repr

def TxListError.message : TxListError → String
  | tooMany => "tx list exceeds 4096 items"
  | rootMismatch => "transactionsRoot mismatch"

/-- `verify_tx_list`. -/
def verifyTxList (raws : List Bytes) (transactionsRoot : Hash) : Except TxListError (List Hash) := do
  require (raws.length ≤ maxOrderedTrieItems) .tooMany
  require (orderedTrieRoot keccak256 raws = transactionsRoot) .rootMismatch
  return raws.map keccak256

/-- `ReceiptListError`. -/
inductive ReceiptListError where
  | tooManyItems
  | rootMismatch
  deriving DecidableEq, Repr

def ReceiptListError.message : ReceiptListError → String
  | tooManyItems => "too many receipt list items"
  | rootMismatch => "receiptsRoot mismatch"

/-- `verify_receipt_list`. -/
def verifyReceiptList (receiptRlps : List Bytes) (receiptsRoot : Hash) :
    Except ReceiptListError Unit := do
  require (receiptRlps.length ≤ maxOrderedTrieItems) .tooManyItems
  require (orderedTrieRoot keccak256 receiptRlps = receiptsRoot) .rootMismatch

end

end HeliosBsc
