import HeliosBsc.Execution.HexPrefix
import HeliosBsc.Execution.RlpCanonical

/-!
# Merkle-Patricia proofs

`execution/src/mpt.rs`: the walk of an EIP-1186 node list. `consumeHashed` takes the next node of
the list and checks it against the reference in its parent, `walkItems` follows the key through
one node, `followChild` goes on in a child, which is either inlined in its parent or the next node
of the list. The three recurse into each other; the walk ends because each step takes a node off
the list or goes into a shorter encoding.
-/

namespace HeliosBsc

open Checked

/-- `MptError`. -/
inductive MptError where
  | rlp (e : RlpError)
  | hashMismatch
  | pathMismatch (index remaining pathLen : ℕ)
  | emptyChild
  | exhausted
  | extraNodes
  | badAccount
  | keyLeftover
  | badStorageLeaf
  deriving DecidableEq, Repr

def MptError.message : MptError → String
  | rlp e => e.message
  | hashMismatch => "proof node hash mismatch"
  | pathMismatch index remaining pathLen =>
    "proof path mismatch at node " ++ toString index ++ " (remaining " ++ toString remaining ++
      " nibbles, compact path " ++ toString pathLen ++ ")"
  | emptyChild => "unexpected empty child"
  | exhausted => "proof exhausted before leaf"
  | extraNodes => "extra proof nodes"
  | badAccount => "invalid account leaf"
  | keyLeftover => "key leftover after leaf"
  | badStorageLeaf => "storage leaf is not rlp(uint256)"

/-- `EMPTY_TRIE_ROOT`. -/
def emptyTrieRoot : Hash where
  val := [
    0x56, 0xe8, 0x1f, 0x17, 0x1b, 0xcc, 0x55, 0xa6, 0xff, 0x83, 0x45, 0xe6, 0x92, 0xc0, 0xf8, 0x6e,
    0x5b, 0x48, 0xe0, 0x1b, 0x99, 0x6c, 0xad, 0xc0, 0x01, 0x62, 0x2f, 0xb5, 0xe3, 0x63, 0xb4, 0x21]
  len := rfl

/-- `decode(raw)?.as_list()?`. -/
def nodeItems (raw : Bytes) : Except MptError (List Rlp) := do
  let decoded ← (decode raw).mapError .rlp
  decoded.asList.mapError .rlp

theorem encodeRlp_of_nodeItems {raw : Bytes} {items : List Rlp} (h : nodeItems raw = .ok items) :
    encodeRlp (.list items) = raw := by
  simp only [nodeItems, bind_eq_ok, mapError_eq_ok] at h
  obtain ⟨x, hx, hl⟩ := h
  cases x with
  | bytes b => simp [Rlp.asList] at hl
  | list v =>
    obtain rfl : v = items := by simpa [Rlp.asList] using hl
    exact encodeRlp_of_decode hx

section

variable (keccak256 : Bytes → Hash)

/-- `node_ref`. -/
def nodeRef (node : Bytes) : Bytes :=
  if node.length < 32 then node else (keccak256 node).val

mutual

/-- `consume_hashed`. -/
def consumeHashed (rest : List Bytes) (expected : Bytes) (nibbles : List Nibble) :
    Except MptError (Option Bytes) :=
  match rest with
  | [] => .error .exhausted
  | raw :: rest => do
    require (nodeRef keccak256 raw = expected) .hashMismatch
    let items ← nodeItems raw
    walkItems items rest nibbles
termination_by (rest.length, 0)

/-- `walk_items`. -/
def walkItems (items : List Rlp) (rest : List Bytes) (nibbles : List Nibble) :
    Except MptError (Option Bytes) :=
  if h17 : items.length = 17 then
    match nibbles with
    | [] => followChild (items.get ⟨16, by omega⟩) rest [] true
    | nibble :: nibbles => followChild (items.get ⟨nibble.val, by omega⟩) rest nibbles false
  else
    match items with
    | [pathItem, child] => do
      let pathBytes ← pathItem.asBytes.mapError .rlp
      match hexPrefixDecode pathBytes with
      | none => .error (.pathMismatch 0 0 0)
      | some (path, isLeaf) =>
        if nibbles.length < path.length ∨ nibbles.take path.length ≠ path then
          if rest = [] then .ok none
          else .error (.pathMismatch 0 nibbles.length path.length)
        else if isLeaf then do
          require (nibbles.drop path.length = []) .keyLeftover
          require (rest = []) .extraNodes
          let value ← child.asBytes.mapError .rlp
          return some value
        else followChild child rest (nibbles.drop path.length) false
    | _ => .error (.rlp .invalid)
termination_by (rest.length, 2 * (encodeRlp (.list items)).length)
decreasing_by
  · exact Prod.Lex.right _ (by have := length_encodeRlp_lt (List.get_mem items ⟨16, by omega⟩); omega)
  · exact Prod.Lex.right _
      (by have := length_encodeRlp_lt (List.get_mem items ⟨nibble.val, by omega⟩); omega)
  · exact Prod.Lex.right _
      (by have := length_encodeRlp_lt (show child ∈ [pathItem, child] by simp); omega)

/-- `follow_child`: `branchValue` marks the 17th slot of a branch, which is itself the value. -/
def followChild (item : Rlp) (rest : List Bytes) (nibbles : List Nibble) (branchValue : Bool) :
    Except MptError (Option Bytes) :=
  match item with
  | .bytes [] => if rest = [] then .ok none else .error .emptyChild
  | .bytes (x :: b) =>
    if branchValue then
      if rest = [] then .ok (some (x :: b)) else .error .extraNodes
    else if 32 ≤ (x :: b).length then consumeHashed rest (x :: b) nibbles
    else
      match _h : nodeItems (x :: b) with
      | .error e => .error e
      | .ok items => walkItems items rest nibbles
  | .list v => walkItems v rest nibbles
termination_by (rest.length, 2 * (encodeRlp item).length + 1)
decreasing_by
  · exact Prod.Lex.right _ (by omega)
  · refine Prod.Lex.right _ ?_
    have hle := length_le_encodeBytes (x :: b)
    rw [encodeRlp_of_nodeItems _h, encodeRlp]
    omega
  · exact Prod.Lex.right _ (by omega)

end

/-- `verify_nibble_proof`. -/
def verifyNibbleProof (root : Hash) (nibbles : List Nibble) (proof : List Bytes) :
    Except MptError (Option Bytes) := do
  require (proof ≠ []) .exhausted
  consumeHashed keccak256 proof root.val nibbles

/-- `verify_trie_proof`. -/
def verifyTrieProof (root hashedKey : Hash) (proof : List Bytes) :
    Except MptError (Option Bytes) :=
  verifyNibbleProof keccak256 root (bytesToNibbles hashedKey.val) proof

end

end HeliosBsc
