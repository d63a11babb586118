import HeliosBsc.Config.Forks
import HeliosBsc.Consensus.Engine
import HeliosBsc.Execution.ProofSound

/-!
# `eth_getProof`

`bin/helios-bsc/src/rpc_server/state.rs` from the parsed request on: the account of the upstream's
answer is verified against the state root of a block this client sealed, its fields are overwritten
with the proven ones, every requested slot is verified and the entries nobody asked for are dropped.
-/

namespace HeliosBsc

open Checked

/-- The error object of a response (`rpc_err`). -/
structure RpcFailure where
  code : ℤ
  message : String
  deriving DecidableEq, Repr

/-- `ERR_PARAMS`. -/
def errParams : ℤ := -32602

/-- `ERR_PROOF_FAILED`. -/
def errProofFailed : ℤ := -32001

/-- `ERR_NOT_SYNCED`. -/
def errNotSynced : ℤ := -32003

/-- `require_rpc_address`. -/
def requireRpcAddress (s : String) : Except String Address :=
  (decodeHexFixed 20 s).mapError fun _ => "address is not 20 bytes"

/-- `parse_slot`. -/
def parseSlot (s : String) : Except String Hash := do
  require (s ≠ "") "storage key is not a hex quantity"
  let raw := trimStartMarks 'X' (trimStartMarks 'x' s.toList)
  require (raw.all fun c => (hexDigitValue c).isSome) "storage key is not a hex quantity"
  require (utf8Length raw ≤ 64) "storage key is not 32 bytes"
  let even := if utf8Length raw % 2 = 1 then '0' :: raw else raw
  let bytes ← (decodeHexDigits even 0).mapError fun e => s!"bad slot: {e.message}"
  require (bytes.length ≤ 32) "storage key is not 32 bytes"
  return pad32 bytes

/-- `parse_storage_keys` of an array of strings. -/
def parseStorageKeys (keys : List String) : Except String (List String) := do
  require (keys.length ≤ maxProofStorageKeys) "too many storage keys"
  let _ ← keys.mapM parseSlot
  return keys

/-- `proof_lag`. -/
def proofLag (tip safe : ℕ) : ℕ := tip - safe

section

variable (keccak256 : Bytes → Hash)

/-- `Node::verified_proof`, with the upstream's `answer` to `eth_getProof`. -/
def verifiedProof (addr : String) (tip : ℕ) (exec : VerifiedBlock)
    (answer : Except String EthAccountProof) :
    Except RpcFailure (VerifiedAccount × EthAccountProof) := do
  let lag := proofLag tip exec.number
  require (lag ≤ providerProofLookback)
    ⟨errNotSynced, s!"proof window exceeded: lag {lag} > {providerProofLookback}"⟩
  let proof ← answer.mapError fun e => ⟨errProofFailed, s!"proof_verification_failed: {e}"⟩
  let want ← (decodeHexFixed 20 addr).mapError fun e =>
    ⟨errParams, s!"bad address: {e.message}"⟩
  let acc ← (verifyEthGetProof keccak256 exec.stateRoot want proof).mapError fun e =>
    ⟨errProofFailed, s!"proof_verification_failed: {e.message}"⟩
  return (acc, proof)

/-- The account fields of the answer, overwritten with the proven ones. -/
def overwriteAccount (acc : VerifiedAccount) (proof : EthAccountProof) : EthAccountProof :=
  { proof with
    address := hexPrefixed acc.address.val
    nonce := hexQuantity acc.nonce
    balance := encodeQty acc.balanceWei
    codeHash := hexPrefixed acc.codeHash.val
    storageHash := hexPrefixed acc.storageRoot.val }

/-- One requested key of `get_eth_proof`. -/
def checkStorageKey (acc : VerifiedAccount) (proof : EthAccountProof) (k : String) :
    Except RpcFailure Bytes := do
  let slot ← (parseSlot k).mapError fun e => ⟨errParams, e⟩
  (verifyStorageSlot keccak256 acc slot proof).mapError fun e =>
    ⟨errProofFailed, s!"proof_verification_failed: {e.message}"⟩

/-- `Node::get_eth_proof`, once the block to execute at is resolved. -/
def getEthProof (addr : String) (requested : List String) (tip : ℕ) (exec : VerifiedBlock)
    (answer : Except String EthAccountProof) : Except RpcFailure EthAccountProof := do
  let _ ← (requireRpcAddress addr).mapError fun e => ⟨errParams, e⟩
  let keys ← (parseStorageKeys requested).mapError fun e => ⟨errParams, e⟩
  let (acc, raw) ← verifiedProof keccak256 addr tip exec answer
  let proof := overwriteAccount acc raw
  let _ ← keys.mapM (checkStorageKey keccak256 acc proof)
  return retainRequestedStorage proof keys

end

/-! ## Requested keys -/

theorem trimStartMarks_of_digits {x : Char} (hx : hexDigitValue x = none) {cs : List Char}
    (h : ∀ c ∈ cs, (hexDigitValue c).isSome = true) : trimStartMarks x cs = cs := by
  unfold trimStartMarks
  split
  · next c rest =>
    refine if_neg ?_
    rintro rfl
    have := h c (by simp)
    rw [hx] at this
    cases this
  · rfl

/-- After the digits of a quantity are found, both readers look at the same ones. -/
theorem trimStartMarks_eq_strip0x {cs : List Char}
    (h : ∀ c ∈ strip0x cs, (hexDigitValue c).isSome = true) :
    trimStartMarks 'X' (trimStartMarks 'x' cs) = strip0x cs := by
  have hx : hexDigitValue 'x' = none := by decide
  have hX : hexDigitValue 'X' = none := by decide
  unfold strip0x at h ⊢
  split at h
  · next rest =>
    show trimStartMarks 'X' (trimStartMarks 'x' ('0' :: 'x' :: rest)) = rest
    rw [trimStartMarks, if_pos rfl, trimStartMarks_of_digits hx h, trimStartMarks_of_digits hX h]
  · next rest =>
    show trimStartMarks 'X' (trimStartMarks 'x' ('0' :: 'X' :: rest)) = rest
    rw [trimStartMarks, if_neg (by decide), trimStartMarks, if_pos rfl,
      trimStartMarks_of_digits hX h]
  · show trimStartMarks 'X' (trimStartMarks 'x' cs) = cs
    rw [trimStartMarks_of_digits hx h, trimStartMarks_of_digits hX h]

theorem slotOfKey_eq_some {key : String} {slot : Hash} (h : slotOfKey key = some slot) :
    ∃ b, decodeQty key = .ok b ∧ b.length ≤ 32 ∧ pad32 b = slot := by
  unfold slotOfKey at h
  split at h
  · next b hb =>
    split_ifs at h with hlen
    exact ⟨b, hb, Nat.not_lt.mp hlen, Option.some.inj h⟩
  · cases h

/-- A key that denotes a slot in an entry denotes it in a request. -/
theorem slotOfKey_eq_parseSlot {key : String} {s s' : Hash} (h : slotOfKey key = some s)
    (h' : parseSlot key = .ok s') : s = s' := by
  obtain ⟨b, hqty, -, rfl⟩ := slotOfKey_eq_some h
  have hdec := decodeQty_ok hqty
  have hdigits : ∀ c ∈ strip0x key.toList, (hexDigitValue c).isSome = true := by
    intro c hc
    refine (digits_of_decodeHexDigits hdec).1 c ?_
    unfold evenDigits
    split_ifs
    · exact List.mem_cons_of_mem _ hc
    · exact hc
  unfold parseSlot at h'
  simp only [trimStartMarks_eq_strip0x hdigits, bind_eq_ok, require_eq_ok, mapError_eq_ok,
    pure_eq_ok, Except.ok.injEq] at h'
  obtain ⟨-, -, -, -, -, -, b', hb', -, -, rfl⟩ := h'
  rw [Except.ok.inj (hdec.symm.trans hb')]

/-! ## What is served of an account's storage -/

/-- The claimed value reads as zero. -/
def StorageProofEntry.ClaimsZero (e : StorageProofEntry) : Prop :=
  ∃ v, decodeQty e.value = .ok v ∧ BigEndian.value v = 0

/-- The entries are of requested slots, one for each at most, and each claims the value that its
slot has in the storage trie with this root, or one of its nodes collides with one of the trie. -/
structure StorageProven (keccak256 : Bytes → Hash) (root : Hash) (keys : List String)
    (entries : List StorageProofEntry) : Prop where
  requested : ∀ e ∈ entries, ∃ k ∈ keys, ∃ slot,
    parseSlot k = .ok slot ∧ slotOfKey e.key = some slot
  once : entries.Pairwise fun a b => slotOfKey a.key ≠ slotOfKey b.key
  proven : ∀ e ∈ entries, ∀ slot, slotOfKey e.key = some slot →
    ∀ T : StorageTrie, T.HasRoot keccak256 root →
      (∃ v, decodeQty e.value = .ok v ∧ T.Holds keccak256 slot (BigEndian.value v)) ∨
        ∃ nodes, decodeNodes e.proof = .ok nodes ∧
          Collision keccak256 (T.proofFor keccak256 (keccak256 slot.val)) (longNodes nodes)

section

variable {keccak256 : Bytes → Hash} {account : VerifiedAccount} {proof : EthAccountProof}
  {keys : List String}

theorem verified_of_retained
    (hslots : ∀ k ∈ keys, ∃ slot v,
      parseSlot k = .ok slot ∧ verifyStorageSlot keccak256 account slot proof = .ok v)
    {e : StorageProofEntry} (he : e ∈ (retainRequestedStorage proof keys).storageProof) :
    ∃ k ∈ keys, ∃ slot v, slotOfKey k = some slot ∧ parseSlot k = .ok slot ∧
      slotOfKey e.key = some slot ∧ proof.firstEntry slot = some e ∧
      verifyStorageSlot keccak256 account slot proof = .ok v := by
  obtain ⟨slot, hkey, ⟨k, hk, hwant⟩, hfirst⟩ := mem_retainRequestedStorage.mp he
  obtain ⟨s, v, hs, hv⟩ := hslots k hk
  obtain rfl := slotOfKey_eq_parseSlot hwant hs
  exact ⟨k, hk, slot, v, hwant, hs, hkey, hfirst, hv⟩

theorem proven_of_verifyStorageSlot {e : StorageProofEntry} {slot : Hash} {v : Bytes}
    (hne : account.storageRoot ≠ emptyTrieRoot) (hfirst : proof.firstEntry slot = some e)
    (hv : verifyStorageSlot keccak256 account slot proof = .ok v) {T : StorageTrie}
    (hT : T.HasRoot keccak256 account.storageRoot) :
    (∃ v, decodeQty e.value = .ok v ∧ T.Holds keccak256 slot (BigEndian.value v)) ∨
      ∃ nodes, decodeNodes e.proof = .ok nodes ∧
        Collision keccak256 (T.proofFor keccak256 (keccak256 slot.val)) (longNodes nodes) := by
  obtain ⟨e', nodes, claimed, he', hnodes, hproof, hclaimed, hvalue⟩ := verifyStorageSlot_ok hne hv
  obtain rfl : e = e' := Option.some.inj (hfirst.symm.trans he')
  rcases holds_of_verifyStorageProof hT hne hproof with hholds | hcol
  · exact .inl ⟨claimed, hclaimed, hvalue ▸ hholds⟩
  · exact .inr ⟨nodes, hnodes, hcol⟩

/-- Entries that were verified for every key are proven exactly when the storage trie is not empty,
or no entry that is the first for a requested slot claims anything but zero. -/
theorem storageProven_retained_iff
    (hslots : ∀ k ∈ keys, ∃ slot v,
      parseSlot k = .ok slot ∧ verifyStorageSlot keccak256 account slot proof = .ok v) :
    StorageProven keccak256 account.storageRoot keys
        (retainRequestedStorage proof keys).storageProof ↔
      (account.storageRoot ≠ emptyTrieRoot ∨
        ∀ k ∈ keys, ∀ slot e, slotOfKey k = some slot → proof.firstEntry slot = some e →
          e.ClaimsZero) := by
  constructor
  · intro h
    by_cases hne : account.storageRoot = emptyTrieRoot
    · right
      intro k hk slot e hslot hfirst
      have hkey : slotOfKey e.key = some slot := by simpa using List.find?_some hfirst
      have he : e ∈ (retainRequestedStorage proof keys).storageProof :=
        mem_retainRequestedStorage.mpr ⟨slot, hkey, ⟨k, hk, hslot⟩, hfirst⟩
      rcases h.proven e he slot hkey .empty hne with hzero | ⟨nodes, -, x, hx, -⟩
      · exact hzero
      · cases hx
    · exact .inl hne
  · intro h
    refine ⟨fun e he => ?_, pairwise_retainRequestedStorage proof keys, ?_⟩
    · obtain ⟨k, hk, slot, v, -, hs, hkey, -, -⟩ := verified_of_retained hslots he
      exact ⟨k, hk, slot, hs, hkey⟩
    · intro e he slot hslot T hT
      obtain ⟨k, hk, s, v, hwant, -, hkey, hfirst, hv⟩ := verified_of_retained hslots he
      obtain rfl : slot = s := Option.some.inj (hslot.symm.trans hkey)
      by_cases hne : account.storageRoot = emptyTrieRoot
      · obtain ⟨w, hw, hzero⟩ := h.resolve_left (not_not.mpr hne) k hk slot e hwant hfirst
        cases T with
        | empty => exact .inl ⟨w, hw, hzero⟩
        | ofMap M => exact absurd hne hT.2
      · exact proven_of_verifyStorageSlot hne hfirst hv hT

/-- What a successful `eth_getProof` checked, and that it serves what is kept of it. -/
theorem getEthProof_ok {addr : String} {requested : List String} {tip : ℕ} {exec : VerifiedBlock}
    {answer : Except String EthAccountProof} {served : EthAccountProof}
    (h : getEthProof keccak256 addr requested tip exec answer = .ok served) :
    ∃ address raw acc, answer = .ok raw ∧ decodeHexFixed 20 addr = .ok address ∧
      verifyEthGetProof keccak256 exec.stateRoot address raw = .ok acc ∧
      (∀ k ∈ requested, ∃ slot v, parseSlot k = .ok slot ∧
        verifyStorageSlot keccak256 acc slot (overwriteAccount acc raw) = .ok v) ∧
      served = retainRequestedStorage (overwriteAccount acc raw) requested := by
  simp only [getEthProof, parseStorageKeys, verifiedProof, bind_eq_ok, mapError_eq_ok,
    require_eq_ok, pure_eq_ok, Except.ok.injEq] at h
  obtain ⟨-, -, keys, ⟨-, -, -, -, rfl⟩, ⟨acc, raw'⟩, ⟨-, -, raw, hraw, address, haddr, acc', hacc,
    hpair⟩, values, hkeys, rfl⟩ := h
  obtain ⟨rfl, rfl⟩ := Prod.mk.inj hpair
  refine ⟨address, raw, acc', hraw, haddr, hacc, fun k hk => ?_, rfl⟩
  obtain ⟨v, hv⟩ := ok_of_mapM_eq_ok hkeys k hk
  simp only [checkStorageKey, bind_eq_ok, mapError_eq_ok] at hv
  obtain ⟨slot, hslot, hverify⟩ := hv
  exact ⟨slot, v, hslot, hverify⟩

/-- Served storage of an account whose storage trie is not empty is proven. -/
theorem getEthProof_storage_proven {addr : String} {requested : List String} {tip : ℕ}
    {exec : VerifiedBlock} {raw served : EthAccountProof}
    (h : getEthProof keccak256 addr requested tip exec (.ok raw) = .ok served) :
    ∃ address acc, verifyEthGetProof keccak256 exec.stateRoot address raw = .ok acc ∧
      (acc.storageRoot ≠ emptyTrieRoot →
        StorageProven keccak256 acc.storageRoot requested served.storageProof) := by
  obtain ⟨address, raw', acc, hraw, -, hacc, hslots, rfl⟩ := getEthProof_ok h
  obtain rfl := Except.ok.inj hraw
  exact ⟨address, acc, hacc, fun hne => (storageProven_retained_iff hslots).mpr (.inl hne)⟩

end

end HeliosBsc
