import HeliosBsc.Mock.LoneState

/-!
# The storage that is kept of a proof

`eth_getProof` serves the entries of the upstream that `retain_requested_storage` keeps. They are
proven where the account has a storage trie. Where it has none no entry is looked at, so that one is
served with whatever the upstream claims.
-/

namespace HeliosBsc

open Checked

/-- The storage served for an accepted account is proven exactly when the account's storage trie
is not empty, or no entry that is the first for a requested slot claims anything but zero. -/
theorem retained_storage_proven_iff (keccak256 : Bytes → Hash) (stateRoot : Hash)
    (address : Address) (proof : EthAccountProof) (account : VerifiedAccount) (keys : List String)
    (_haccount : verifyEthGetProof keccak256 stateRoot address proof = .ok account)
    (hslots : ∀ k ∈ keys, ∃ slot v,
      parseSlot k = .ok slot ∧ verifyStorageSlot keccak256 account slot proof = .ok v) :
    StorageProven keccak256 account.storageRoot keys
        (retainRequestedStorage proof keys).storageProof ↔
      (account.storageRoot ≠ emptyTrieRoot ∨
        ∀ k ∈ keys, ∀ slot e, slotOfKey k = some slot → proof.firstEntry slot = some e →
          e.ClaimsZero) :=
  storageProven_retained_iff hslots

/-! ## Slot zero -/

theorem parseSlot_zero : parseSlot "0x0" = .ok (.repeated 32 0) := by
  have hraw : trimStartMarks 'X' (trimStartMarks 'x' "0x0".toList) = ['0'] := rfl
  have hdigits : (['0'].all fun c => (hexDigitValue c).isSome) = true := rfl
  have hlength : utf8Length ['0'] = 1 := rfl
  have hbytes : decodeHexDigits ['0', '0'] 0 = .ok [0] := rfl
  have hpad : pad32 [0] = .repeated 32 0 := rfl
  unfold parseSlot
  simp only [hraw, hlength, require_of hdigits]
  simp [require_of, hbytes, hpad]

theorem slotOfKey_zero : slotOfKey "0x0" = some (.repeated 32 0) := by decide

/-- An answer about an account that is not in the state, with an entry for slot zero. -/
def absentAnswer (keccak256 : Bytes → Hash) (address : Address) (claimed : String) :
    EthAccountProof :=
  { (absentWorld keccak256 address).proofOf address emptyAccount [] with
    storageProof := [⟨"0x0", claimed, []⟩] }

/-- The absence is accepted, whatever the entry claims. -/
theorem verifyEthGetProof_absent (keccak256 : Bytes → Hash) (address : Address) (claimed : String) :
    verifyEthGetProof keccak256
        ((loneAccounts (otherKey keccak256 address) emptyTrieRoot).root keccak256) address
        (absentAnswer keccak256 address claimed) =
      .ok ⟨address, 0, [], emptyTrieRoot, emptyCodeHash⟩ := by
  refine World.verifyEthGetProof_entries (accountAt_absentWorld keccak256 address)
    (loneAccounts_caps keccak256 _ _ _) (show 1 ≤ 64 by norm_num) fun sp hsp => ?_
  rw [List.mem_singleton.mp hsp]
  exact Nat.zero_le _

theorem absent_slots_verify (keccak256 : Bytes → Hash) (address : Address) (claimed : String) :
    ∀ k ∈ ["0x0"], ∃ slot v, parseSlot k = .ok slot ∧
      verifyStorageSlot keccak256 ⟨address, 0, [], emptyTrieRoot, emptyCodeHash⟩ slot
        (absentAnswer keccak256 address claimed) = .ok v := by
  intro k hk
  rw [List.mem_singleton.mp hk]
  exact ⟨_, [], parseSlot_zero, if_pos rfl⟩

/-- For an account without storage the entry is kept with whatever value the upstream put in it. -/
theorem retained_storage_not_proven :
    ¬ ∀ (stateRoot : Hash) (address : Address) (proof : EthAccountProof)
        (account : VerifiedAccount) (keys : List String),
      verifyEthGetProof Types.keccak256 stateRoot address proof = .ok account →
      (∀ k ∈ keys, ∃ slot v, parseSlot k = .ok slot ∧
        verifyStorageSlot Types.keccak256 account slot proof = .ok v) →
      StorageProven Types.keccak256 account.storageRoot keys
        (retainRequestedStorage proof keys).storageProof := by
  intro h
  have hserved := h _ default (absentAnswer Types.keccak256 default "0x1") _ ["0x0"]
    (verifyEthGetProof_absent Types.keccak256 default "0x1")
    (absent_slots_verify Types.keccak256 default "0x1")
  have hkept : (⟨"0x0", "0x1", []⟩ : StorageProofEntry) ∈ (retainRequestedStorage
      (absentAnswer Types.keccak256 default "0x1") ["0x0"]).storageProof := by
    refine mem_retainRequestedStorage.mpr
      ⟨.repeated 32 0, slotOfKey_zero, ⟨"0x0", List.mem_singleton_self _, slotOfKey_zero⟩, ?_⟩
    exact List.find?_cons_of_pos (decide_eq_true slotOfKey_zero)
  rcases hserved.proven _ hkept _ slotOfKey_zero .empty rfl with
    ⟨v, hv, hvalue⟩ | ⟨nodes, -, x, hx, -⟩
  · have hone : decodeQty "0x1" = .ok [1] := by decide
    obtain rfl := Except.ok.inj (hone.symm.trans hv)
    exact absurd (show (1 : ℕ) = 0 from hvalue) one_ne_zero
  · cases hx

section

variable {keccak256 : Bytes → Hash} {stateRoot : Hash} {w : World keccak256 stateRoot}
  {address : Address} {leaf : Account} {slot : Hash} {key : String}

theorem retain_proofOf (hkey : slotOfKey key = some slot) :
    (retainRequestedStorage (w.proofOf address leaf [slot]) [key]).storageProof =
      [⟨hexPrefixed slot.val, hexQuantity ((w.storage address).valueAt keccak256 slot),
        ((w.storage address).proofFor keccak256 (keccak256 slot.val)).map hexPrefixed⟩] := by
  have hwant : [key].filterMap slotOfKey = [slot] := by rw [List.filterMap_cons_some hkey]; rfl
  unfold retainRequestedStorage
  rw [if_neg (List.cons_ne_nil _ _)]
  simp only [hwant]
  simp [World.proofOf, retainLoop, slotOfKey_hexPrefixed]

theorem verified_proofOf {n : ℕ} (hleaf : w.accounts.accountAt keccak256 address = .ok leaf)
    (hcaps : ∀ k, WithinProofCaps (w.accounts.proofFor keccak256 k))
    (hslotCaps : ∀ k, WithinProofCaps ((w.storage address).proofFor keccak256 k))
    (hn : (w.storage address).Holds keccak256 slot n) (hkey : parseSlot key = .ok slot) :
    ∃ account, verifyEthGetProof keccak256 stateRoot address (w.proofOf address leaf [slot]) =
        .ok account ∧ account.storageRoot = leaf.storageRoot ∧
      ∀ k ∈ [key], ∃ slot' v, parseSlot k = .ok slot' ∧
        verifyStorageSlot keccak256 account slot' (w.proofOf address leaf [slot]) = .ok v := by
  obtain ⟨v, hv, -⟩ := World.verifyStorageSlot_proofOf hleaf (List.mem_singleton_self slot)
    (hslotCaps _) hn
  refine ⟨_, World.verifyEthGetProof_proofOf hleaf (show [slot].length ≤ 64 by simp) (hcaps _)
    fun s _ => hslotCaps _, rfl, fun k hk => ?_⟩
  rw [List.mem_singleton.mp hk]
  exact ⟨slot, v, hkey, hv⟩

end

/-- The slot of an account that has one is served with its value, and the slot of an account that is
not there as the zero that the upstream claims for it. -/
theorem retained_storage_proven_slot : ∃ (proof : EthAccountProof) (root : Hash),
    root ≠ emptyTrieRoot ∧ ((retainRequestedStorage proof ["0x0"]).storageProof.map
      StorageProofEntry.value) = [hexQuantity 7] ∧
    StorageProven Types.keccak256 root ["0x0"] (retainRequestedStorage proof ["0x0"]).storageProof ∧
    StorageProven Types.keccak256 emptyTrieRoot ["0x0"]
      (retainRequestedStorage (absentAnswer Types.keccak256 default "0x0") ["0x0"]).storageProof := by
  obtain ⟨stateRoot, w, leaf, hleaf, hstored, -, hcaps, hslotCaps, hholds⟩ :=
    exists_slotWorld default
  obtain ⟨account, haccount, hroot, hslots⟩ :=
    verified_proofOf hleaf hcaps hslotCaps hholds parseSlot_zero
  have hne : account.storageRoot ≠ emptyTrieRoot := by
    rw [hroot]
    exact hstored
  refine ⟨_, account.storageRoot, hne, ?_, (retained_storage_proven_iff Types.keccak256 _ default _
    account ["0x0"] haccount hslots).mpr (.inl hne), ?_⟩
  · rw [retain_proofOf slotOfKey_zero, List.map_singleton, World.valueAt_of_holds hholds]
  · refine (retained_storage_proven_iff Types.keccak256 _ default
      (absentAnswer Types.keccak256 default "0x0") _ ["0x0"]
      (verifyEthGetProof_absent Types.keccak256 default "0x0")
      (absent_slots_verify Types.keccak256 default "0x0")).mpr (.inr ?_)
    intro k _ slot e _ hfirst
    rw [List.mem_singleton.mp (List.mem_of_find?_eq_some hfirst)]
    exact ⟨[0], by decide, rfl⟩

end HeliosBsc
