import HeliosBsc.Node.HonestProof

/-!
# States of one account

The smallest states that a provider can answer from: a trie with one account, which is the one that
is asked for or another one, and which may have one slot in use.
-/

namespace HeliosBsc

open Checked

/-- A map with one entry. -/
def KeyMap.single (k : Hash) (v : ByteVec) : KeyMap where
  entries := [(k, v)]
  nodup := List.nodup_singleton _
  nonempty := List.cons_ne_nil _ _

namespace KeyMap

variable (keccak256 : Bytes → Hash) {k k' : Hash} {v : ByteVec}

theorem get_single_self : (single k v).get k = some v.val := by
  unfold get single
  rw [List.find?_cons_of_pos (by simp)]
  rfl

theorem get_single_of_ne (h : k ≠ k') : (single k v).get k' = none := by
  unfold get single
  rw [List.find?_cons_of_neg (by simpa using h)]
  rfl

theorem trie_single : (single k v).trie = .leaf (bytesToNibbles k.val) v.val := by
  rw [trie, sortedPairs, pairs, single, List.map_singleton, List.mergeSort_singleton, Trie.ofPairs]
  rfl

theorem proofFor_single : (single k v).proofFor keccak256 k' =
    longNodes [encodeTrie keccak256 (.leaf (bytesToNibbles k.val) v.val)] := by
  rw [proofFor, trie_single]
  rfl

theorem length_encodeLeaf_le {p : List Nibble} {v : Bytes} (hp : p.length = 64)
    (hv : v.length ≤ 100) : (encodeTrie keccak256 (.leaf p v)).length ≤ maxProofNodeBytes := by
  have h₁ := length_encodeBytes_le (hexPrefixEncode p true)
  have h₂ := length_encodeBytes_le v
  have h₃ := length_encodeList_le [encodeBytes (hexPrefixEncode p true), encodeBytes v]
  rw [length_hexPrefixEncode] at h₁
  rw [encodeTrie, nodeRlp, encodeRlp_list]
  simp only [List.map_cons, List.map_nil, encodeRlp, List.flatten_cons, List.flatten_nil,
    List.length_append, List.length_nil] at h₃ ⊢
  unfold maxProofNodeBytes
  omega

theorem withinProofCaps_single (hv : v.val.length ≤ 100) :
    WithinProofCaps ((single k v).proofFor keccak256 k') := by
  rw [proofFor_single]
  refine ⟨(List.length_filter_le _ _).trans (show 1 ≤ 32 by norm_num), fun n hn => ?_⟩
  rw [List.mem_singleton.mp (mem_longNodes.mp hn).1]
  refine length_encodeLeaf_le keccak256 ?_ hv
  rw [length_bytesToNibbles, k.len]

end KeyMap

/-! ## The account -/

/-- The leaf of an account with nonce 1, without balance and code. -/
def leafWith (storageRoot : Hash) : Bytes :=
  encodeList [encodeUint 1, encodeUint 0, encodeBytes storageRoot.val, encodeBytes emptyCodeHash.val]

theorem leafWith_eq (storageRoot : Hash) : leafWith storageRoot = encodeRlp (.list [.bytes [1],
    .bytes [], .bytes storageRoot.val, .bytes emptyCodeHash.val]) := by
  rw [encodeRlp_list]
  simp only [List.map_cons, List.map_nil, encodeRlp]
  rfl

theorem length_leafWith_le (storageRoot : Hash) : (leafWith storageRoot).length ≤ 100 := by
  have hroot := length_encodeBytes_le storageRoot.val
  have hcode := length_encodeBytes_le emptyCodeHash.val
  have hone : (encodeUint 1).length = 1 := by decide
  have hzero : (encodeUint 0).length = 1 := by decide
  have hlist := length_encodeList_le
    [encodeUint 1, encodeUint 0, encodeBytes storageRoot.val, encodeBytes emptyCodeHash.val]
  rw [storageRoot.len] at hroot
  rw [emptyCodeHash.len] at hcode
  simp only [List.flatten_cons, List.flatten_nil, List.length_append, List.length_nil] at hlist
  unfold leafWith
  omega

theorem decodeAccount_leafWith (storageRoot : Hash) :
    decodeAccount (leafWith storageRoot) = .ok ⟨1, [], storageRoot, emptyCodeHash⟩ := by
  have hdepth : (Rlp.list [.bytes [1], .bytes [], .bytes storageRoot.val,
      .bytes emptyCodeHash.val]).depth ≤ maxRlpDepth := by
    rw [Rlp.depth_list]
    simp only [List.map_cons, List.map_nil, Rlp.depth]
    decide
  have hshort : (leafWith storageRoot).length < u64Size :=
    (length_leafWith_le storageRoot).trans_lt (by rw [u64Size_eq]; norm_num)
  rw [leafWith_eq] at hshort
  have hdecode := decode_encodeRlp hshort hdepth
  unfold decodeAccount
  rw [leafWith_eq, hdecode]
  simp only [mapError_ok, ok_bind, accountField, Rlp.asBytes, rlpUint, pure_eq_ok]
  rw [require_of (by decide), ok_bind, ok_bind, require_of (by decide), ok_bind,
    dif_pos ⟨storageRoot.len, emptyCodeHash.len⟩]
  rfl

section

variable (keccak256 : Bytes → Hash)

/-- The state whose only account has a hash and a storage root. -/
def loneAccounts (key storageRoot : Hash) : KeyMap :=
  .single key ⟨leafWith storageRoot, (length_leafWith_le storageRoot).trans (by decide)⟩

theorem accountAt_self {key storageRoot : Hash} {address : Address}
    (h : keccak256 address.val = key) :
    (loneAccounts key storageRoot).accountAt keccak256 address =
      .ok ⟨1, [], storageRoot, emptyCodeHash⟩ := by
  unfold KeyMap.accountAt loneAccounts
  rw [h, KeyMap.get_single_self]
  exact decodeAccount_leafWith storageRoot

theorem accountAt_of_ne {key storageRoot : Hash} {address : Address}
    (h : key ≠ keccak256 address.val) :
    (loneAccounts key storageRoot).accountAt keccak256 address = .ok emptyAccount := by
  unfold KeyMap.accountAt loneAccounts
  rw [KeyMap.get_single_of_ne h]

/-- With the storage trie of the account. -/
def loneWorld (key storageRoot : Hash) (T : StorageTrie) (hroot : T.HasRoot keccak256 storageRoot) :
    World keccak256 ((loneAccounts key storageRoot).root keccak256) where
  accounts := loneAccounts key storageRoot
  storage address := if keccak256 address.val = key then T else .empty
  code _ := []
  root := rfl
  storageRoot address leaf h := by
    by_cases hkey : keccak256 address.val = key
    · rw [accountAt_self keccak256 hkey] at h
      cases h
      rw [if_pos hkey]
      exact hroot
    · rw [accountAt_of_ne keccak256 (Ne.symm hkey)] at h
      cases h
      rw [if_neg hkey]
      rfl
  coded address leaf h hne := by
    by_cases hkey : keccak256 address.val = key
    · rw [accountAt_self keccak256 hkey] at h
      cases h
      exact absurd rfl hne
    · rw [accountAt_of_ne keccak256 (Ne.symm hkey)] at h
      cases h
      exact absurd rfl hne
  noCode := rfl

theorem loneAccounts_caps (key storageRoot k : Hash) :
    WithinProofCaps ((loneAccounts key storageRoot).proofFor keccak256 k) :=
  KeyMap.withinProofCaps_single keccak256 (length_leafWith_le storageRoot)

/-! ## The account is another one -/

/-- A hash that is not the hash of the address. -/
def otherKey (address : Address) : Hash where
  val := (keccak256 address.val).val.map (· + 1)
  len := by rw [List.length_map, (keccak256 address.val).len]

theorem otherKey_ne (address : Address) : otherKey keccak256 address ≠ keccak256 address.val := by
  intro h
  have hval := congrArg FixedBytes.val h
  cases hk : (keccak256 address.val).val with
  | nil => simpa [hk] using (keccak256 address.val).len
  | cons x b =>
    have hx := congrArg List.head? hval
    simp [otherKey, hk] at hx

/-- A state without the account. -/
def absentWorld (address : Address) :
    World keccak256 ((loneAccounts (otherKey keccak256 address) emptyTrieRoot).root keccak256) :=
  loneWorld keccak256 (otherKey keccak256 address) emptyTrieRoot .empty rfl

theorem accountAt_absentWorld (address : Address) :
    (absentWorld keccak256 address).accounts.accountAt keccak256 address = .ok emptyAccount :=
  accountAt_of_ne keccak256 (otherKey_ne keccak256 address)

end

/-! ## The account has a slot -/

/-- The trie of a storage whose only slot in use holds 7. -/
def slotTrie (slot : Hash) : KeyMap :=
  .single (Types.keccak256 slot.val) ⟨encodeBytes [7], by decide⟩

/-- Its root. -/
def slotRoot (slot : Hash) : Hash := (slotTrie slot).root Types.keccak256

theorem slotRoot_eq (slot : Hash) : slotRoot slot = Types.keccak256 (encodeList
    [encodeBytes (hexPrefixEncode (bytesToNibbles (Types.keccak256 slot.val).val) true),
      encodeBytes (encodeBytes [7])]) := by
  rw [slotRoot, KeyMap.root_eq, slotTrie, KeyMap.trie_single, encodeTrie, nodeRlp, encodeRlp_list]
  simp only [List.map_cons, List.map_nil, encodeRlp]

theorem slotRoot_zero_ne_empty : slotRoot (.repeated 32 0) ≠ emptyTrieRoot := by
  rw [slotRoot_eq, show Types.keccak256 = keccakRows from keccak256_eq_keccakRows]
  decide +kernel

/-- A state with the account, which has slot zero in use. -/
def slotWorld (address : Address) : World Types.keccak256 ((loneAccounts
    (Types.keccak256 address.val) (slotRoot (.repeated 32 0))).root Types.keccak256) :=
  loneWorld Types.keccak256 (Types.keccak256 address.val) (slotRoot (.repeated 32 0))
    (.ofMap (slotTrie (.repeated 32 0))) ⟨rfl, slotRoot_zero_ne_empty⟩

theorem accountAt_slotWorld (address : Address) :
    (slotWorld address).accounts.accountAt Types.keccak256 address =
      .ok ⟨1, [], slotRoot (.repeated 32 0), emptyCodeHash⟩ := accountAt_self Types.keccak256 rfl

theorem storage_slotWorld (address : Address) :
    (slotWorld address).storage address = .ofMap (slotTrie (.repeated 32 0)) := if_pos rfl

theorem holds_slotWorld (address : Address) :
    ((slotWorld address).storage address).Holds Types.keccak256 (.repeated 32 0) 7 := by
  rw [storage_slotWorld]
  have hget : (StorageTrie.ofMap (slotTrie (.repeated 32 0))).get
      (Types.keccak256 (FixedBytes.repeated 32 0).val) = some (encodeBytes [7]) :=
    KeyMap.get_single_self
  have hdecode : decode (encodeRlp (.bytes [7])) = .ok (.bytes [7]) := by
    refine decode_encodeRlp ?_ ?_
    · rw [encodeRlp, u64Size_eq]
      decide
    · rw [Rlp.depth]
      decide
  rw [encodeRlp] at hdecode
  unfold StorageTrie.Holds
  rw [hget]
  exact ⟨[7], hdecode, by decide, rfl⟩

theorem slotWorld_caps (address : Address) (k : Hash) :
    WithinProofCaps (((slotWorld address).storage address).proofFor Types.keccak256 k) := by
  rw [storage_slotWorld]
  exact KeyMap.withinProofCaps_single Types.keccak256 (show 1 ≤ 100 by norm_num)

/-- A state where an account has a storage trie and 7 in slot zero. -/
theorem exists_slotWorld (address : Address) :
    ∃ (stateRoot : Hash) (w : World Types.keccak256 stateRoot) (leaf : Account),
      w.accounts.accountAt Types.keccak256 address = .ok leaf ∧
      leaf.storageRoot ≠ emptyTrieRoot ∧ leaf.codeHash = emptyCodeHash ∧
      (∀ k, WithinProofCaps (w.accounts.proofFor Types.keccak256 k)) ∧
      (∀ k, WithinProofCaps ((w.storage address).proofFor Types.keccak256 k)) ∧
      (w.storage address).Holds Types.keccak256 (.repeated 32 0) 7 :=
  ⟨_, slotWorld address, _, accountAt_slotWorld address, slotRoot_zero_ne_empty, rfl,
    loneAccounts_caps Types.keccak256 _ _, slotWorld_caps address, holds_slotWorld address⟩

end HeliosBsc
