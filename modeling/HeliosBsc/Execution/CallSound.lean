import HeliosBsc.Execution.Call
import HeliosBsc.Execution.MptAgree
import HeliosBsc.Execution.ProofSound
import HeliosBsc.Lib.Machine

/-!
# Execution on proven state

An accepted load carries the checks it passed. Two of them at one state root agree, or strings that
they served collide. Whatever calls came before, what the database answers is what an accepted load
proved, and what no load proved is `Missing`.
-/

namespace HeliosBsc

open Checked

/-! ## Accepted proofs of one account agree -/

section

variable {keccak256 : Bytes → Hash}

theorem decodeNodes_ok {proof : List String} {nodes : List Bytes}
    (h : decodeNodes proof = .ok nodes) : proof.mapM decodeHex = .ok nodes := by
  simp only [decodeNodes, bind_eq_ok, mapError_eq_ok, require_eq_ok, pure_eq_ok,
    Except.ok.injEq] at h
  obtain ⟨nodes', hnodes, -, -, rfl⟩ := h
  exact hnodes

/-- What an accepted account proof says is what the account trie answered. -/
theorem verifyEthGetProof_ok {stateRoot : Hash} {address : Address} {proof : EthAccountProof}
    {account : VerifiedAccount}
    (h : verifyEthGetProof keccak256 stateRoot address proof = .ok account) :
    ∃ nodes leaf, decodeNodes proof.accountProof = .ok nodes ∧
      verifyAccountProof keccak256 stateRoot address nodes = .ok leaf ∧
      account = ⟨address, leaf.nonce, BigEndian.strip leaf.balance, leaf.storageRoot,
        leaf.codeHash⟩ := by
  simp only [verifyEthGetProof, bind_eq_ok, mapError_eq_ok, require_eq_ok, pure_eq_ok,
    Except.ok.injEq] at h
  obtain ⟨addr, -, -, rfl, -, -, -, -, -, -, nodes, hnodes, leaf, hleaf, -, -, -, -, -, -, -, -, -,
    -, -, -, -, -, -, -, rfl⟩ := h
  exact ⟨nodes, leaf, hnodes, hleaf, rfl⟩

theorem verifyAccountProof_agree {stateRoot : Hash} {address : Address}
    {nodes nodes' : List Bytes} {leaf leaf' : Account}
    (h : verifyAccountProof keccak256 stateRoot address nodes = .ok leaf)
    (h' : verifyAccountProof keccak256 stateRoot address nodes' = .ok leaf') :
    leaf = leaf' ∨ Collision keccak256 nodes nodes' := by
  simp only [verifyAccountProof, bind_eq_ok] at h h'
  obtain ⟨answer, hwalk, h⟩ := h
  obtain ⟨answer', hwalk', h'⟩ := h'
  refine (verifyTrieProof_agree hwalk hwalk').imp_left fun hanswer => ?_
  subst hanswer
  exact Except.ok.inj (h.symm.trans h')

theorem verifyStorageProof_agree {root slot : Hash} {nodes nodes' : List Bytes} {v v' : Bytes}
    (hne : root ≠ emptyTrieRoot) (h : verifyStorageProof keccak256 root slot nodes = .ok v)
    (h' : verifyStorageProof keccak256 root slot nodes' = .ok v') :
    v = v' ∨ Collision keccak256 nodes nodes' := by
  rw [verifyStorageProof, if_neg hne] at h h'
  simp only [bind_eq_ok] at h h'
  obtain ⟨answer, hwalk, h⟩ := h
  obtain ⟨answer', hwalk', h'⟩ := h'
  refine (verifyTrieProof_agree hwalk hwalk').imp_left fun hanswer => ?_
  subst hanswer
  exact Except.ok.inj (h.symm.trans h')

theorem verifyAccountCode_ok {account : VerifiedAccount} {code : Bytes}
    (h : verifyAccountCode keccak256 account code = .ok ()) :
    if account.codeHash = emptyCodeHash then code = [] else keccak256 code = account.codeHash := by
  unfold verifyAccountCode verifyBytecode at h
  split_ifs at h ⊢ <;> simpa using h

end

/-- An accepted load: the answer, the code and what they prove. -/
structure AcceptedLoad (keccak256 : Bytes → Hash) (stateRoot : Hash) where
  address : Address
  proof : EthAccountProof
  code : Bytes
  account : VerifiedAccount
  proven : verifyEthGetProof keccak256 stateRoot address proof = .ok account
  coded : verifyAccountCode keccak256 account code = .ok ()

namespace AcceptedLoad

variable {keccak256 : Bytes → Hash} {stateRoot : Hash}

/-- The account as the EVM is given it. -/
def info (l : AcceptedLoad keccak256 stateRoot) : AccountInfo :=
  ⟨pad32 l.account.balanceWei, l.account.nonce, l.account.codeHash, some l.code⟩

/-- The load has an entry for the slot, and the proof of it was accepted with this value. -/
def ProvesSlot (l : AcceptedLoad keccak256 stateRoot) (slot value : U256) : Prop :=
  l.account.storageRoot ≠ emptyTrieRoot ∧
    (∃ e ∈ l.proof.storageProof, decodeSlotKey e.key = .ok slot) ∧
    ∃ v, verifyStorageSlot keccak256 l.account slot l.proof = .ok v ∧ value = pad32 v

/-- The byte strings that came with the load: its code and the nodes of its proofs. -/
def served (l : AcceptedLoad keccak256 stateRoot) : List Bytes :=
  l.code :: (l.proof.accountProof ++ l.proof.storageProof.flatMap (·.proof)).filterMap fun s =>
    (decodeHex s).toOption

/-- Two loads say the same of an account, of a code hash and of a slot. -/
structure Agree (l l' : AcceptedLoad keccak256 stateRoot) : Prop where
  account : l.address = l'.address → l.account = l'.account
  code : l.account.codeHash = l'.account.codeHash → l.code = l'.code
  slot : l.address = l'.address → ∀ slot value value', l.ProvesSlot slot value →
    l'.ProvesSlot slot value' → value = value'

theorem mem_served {l : AcceptedLoad keccak256 stateRoot} {proof : List String}
    {nodes : List Bytes} (hnodes : decodeNodes proof = .ok nodes)
    (hproof : ∀ s ∈ proof, s ∈ l.proof.accountProof ++ l.proof.storageProof.flatMap (·.proof)) :
    ∀ n ∈ nodes, n ∈ l.served := by
  intro n hn
  obtain ⟨s, hs, hdec⟩ := exists_of_mapM_eq_ok (decodeNodes_ok hnodes) n hn
  refine List.mem_cons_of_mem _ (List.mem_filterMap.mpr ⟨s, hproof s hs, ?_⟩)
  rw [hdec]
  rfl

theorem account_agree {l l' : AcceptedLoad keccak256 stateRoot} (h : l.address = l'.address) :
    l.account = l'.account ∨ Collision keccak256 l.served l'.served := by
  obtain ⟨nodes, leaf, hnodes, hleaf, haccount⟩ := verifyEthGetProof_ok l.proven
  obtain ⟨nodes', leaf', hnodes', hleaf', haccount'⟩ := verifyEthGetProof_ok l'.proven
  rw [h] at hleaf haccount
  rcases verifyAccountProof_agree hleaf hleaf' with hsame | hcol
  · left
    rw [haccount, haccount', hsame]
  · right
    exact Collision.mono keccak256 hcol
      (mem_served hnodes fun s hs => List.mem_append_left _ hs)
      (mem_served hnodes' fun s hs => List.mem_append_left _ hs)

theorem code_agree {l l' : AcceptedLoad keccak256 stateRoot}
    (h : l.account.codeHash = l'.account.codeHash) :
    l.code = l'.code ∨ Collision keccak256 l.served l'.served := by
  have hcode := verifyAccountCode_ok l.coded
  have hcode' := verifyAccountCode_ok l'.coded
  rw [h] at hcode
  split_ifs at hcode hcode' with hempty
  · exact .inl (hcode.trans hcode'.symm)
  · by_cases hsame : l.code = l'.code
    · exact .inl hsame
    · exact .inr ⟨l.code, List.mem_cons_self, l'.code, List.mem_cons_self, hsame,
        hcode.trans hcode'.symm⟩

theorem ProvesSlot.nodes {l : AcceptedLoad keccak256 stateRoot} {slot value : U256}
    (h : l.ProvesSlot slot value) :
    ∃ nodes v, verifyStorageProof keccak256 l.account.storageRoot slot nodes = .ok v ∧
      value = pad32 v ∧ ∀ n ∈ nodes, n ∈ l.served := by
  obtain ⟨hne, -, v, hv, rfl⟩ := h
  obtain ⟨e, nodes, claimed, hfirst, hnodes, hproof, -, -⟩ := verifyStorageSlot_ok hne hv
  refine ⟨nodes, v, hproof, rfl, mem_served hnodes fun s hs => ?_⟩
  have he : e ∈ l.proof.storageProof := List.mem_of_find?_eq_some hfirst
  exact List.mem_append_right _ (List.mem_flatMap.mpr ⟨e, he, hs⟩)

theorem slot_agree {l l' : AcceptedLoad keccak256 stateRoot} (h : l.address = l'.address)
    {slot value value' : U256} (hv : l.ProvesSlot slot value) (hv' : l'.ProvesSlot slot value') :
    value = value' ∨ Collision keccak256 l.served l'.served := by
  rcases account_agree h with haccount | hcol
  · obtain ⟨nodes, v, hproof, rfl, hmem⟩ := hv.nodes
    obtain ⟨nodes', v', hproof', rfl, hmem'⟩ := hv'.nodes
    rw [haccount] at hproof
    rcases verifyStorageProof_agree hv'.1 hproof hproof' with hsame | hcol
    · exact .inl (congrArg pad32 hsame)
    · exact .inr (Collision.mono keccak256 hcol hmem hmem')
  · exact .inr hcol

/-- Any two loads at one state root agree, or strings that they served collide. -/
theorem agree_or_collision (l l' : AcceptedLoad keccak256 stateRoot) :
    Agree l l' ∨ Collision keccak256 l.served l'.served := by
  by_cases hcol : Collision keccak256 l.served l'.served
  · exact .inr hcol
  · refine .inl ⟨fun h => ?_, fun h => ?_, fun h slot value value' hv hv' => ?_⟩
    · exact (account_agree h).resolve_right hcol
    · exact (code_agree h).resolve_right hcol
    · exact (slot_agree h hv hv').resolve_right hcol

end AcceptedLoad

/-! ## Accepted loads and the state -/

/-- The account that a state has at an address. -/
def KeyMap.accountAt (M : KeyMap) (keccak256 : Bytes → Hash) (address : Address) :
    Except MptError Account :=
  match M.get (keccak256 address.val) with
  | none => .ok emptyAccount
  | some leaf => decodeAccount leaf

theorem value_pad32 {b : Bytes} (h : b.length ≤ 32) :
    BigEndian.value (pad32 b).val = BigEndian.value b := by
  show BigEndian.value (List.replicate (32 - b.length) 0 ++ b.drop (b.length - 32)) = _
  rw [Nat.sub_eq_zero_of_le h, List.drop_zero, ← BigEndian.value_strip,
    BigEndian.strip_replicate_append, BigEndian.value_strip]

namespace AcceptedLoad

variable {keccak256 : Bytes → Hash} {stateRoot : Hash}

/-- An account loaded under the root of a state is the one of the state, or nodes collide. -/
theorem account_of_state {M : KeyMap} (hroot : stateRoot = M.root keccak256)
    (l : AcceptedLoad keccak256 stateRoot) :
    (∃ leaf, M.accountAt keccak256 l.address = .ok leaf ∧
      l.account = ⟨l.address, leaf.nonce, BigEndian.strip leaf.balance, leaf.storageRoot,
        leaf.codeHash⟩) ∨
      Collision keccak256 (M.proofFor keccak256 (keccak256 l.address.val)) l.served := by
  subst hroot
  obtain ⟨nodes, leaf, hnodes, hleaf, haccount⟩ := verifyEthGetProof_ok l.proven
  simp only [verifyAccountProof, bind_eq_ok] at hleaf
  obtain ⟨answer, hwalk, hleaf⟩ := hleaf
  rcases (verifyTrieProof_sound_and_complete keccak256 M _).1 nodes answer hwalk with hanswer | hcol
  · refine .inl ⟨leaf, ?_, haccount⟩
    unfold KeyMap.accountAt
    rw [← hanswer]
    exact hleaf
  · refine .inr (Collision.mono keccak256 hcol (fun _ hx => hx) fun x hx => ?_)
    exact mem_served hnodes (fun s hs => List.mem_append_left _ hs) x (mem_longNodes.mp hx).1

theorem slot_of_storage {T : StorageTrie} {l : AcceptedLoad keccak256 stateRoot}
    (hroot : T.HasRoot keccak256 l.account.storageRoot) {slot value : U256}
    (h : l.ProvesSlot slot value) :
    T.Holds keccak256 slot (BigEndian.value value.val) ∨
      Collision keccak256 (T.proofFor keccak256 (keccak256 slot.val)) l.served := by
  obtain ⟨nodes, v, hproof, rfl, hmem⟩ := h.nodes
  rw [value_pad32 (length_of_verifyStorageProof hproof)]
  refine (holds_of_verifyStorageProof hroot h.1 hproof).imp_right fun hcol => ?_
  exact Collision.mono keccak256 hcol (fun _ hx => hx) fun x hx => hmem x (mem_longNodes.mp hx).1

end AcceptedLoad

/-! ## What a load does -/

section

variable (keccak256 : Bytes → Hash)

/-- The load of an answer that passes the checks. -/
def acceptedLoad (stateRoot : Hash) (address : Address) (proof : EthAccountProof) (code : Bytes) :
    Option (AcceptedLoad keccak256 stateRoot) :=
  match hp : verifyEthGetProof keccak256 stateRoot address proof with
  | .error _ => none
  | .ok account =>
    match hc : verifyAccountCode keccak256 account code with
    | .error _ => none
    | .ok () => some ⟨address, proof, code, account, hp, hc⟩

/-- The database after a load that found these slots. -/
def ProofDb.put {stateRoot : Hash} (db : ProofDb) (l : AcceptedLoad keccak256 stateRoot)
    (storage : SlotMap) : ProofDb :=
  { db with
    codes := if l.account.codeHash ≠ emptyCodeHash then db.codes.insert l.account.codeHash l.code
      else db.codes
    accounts := db.accounts.insert l.address ⟨l.info, l.account.storageRoot, storage⟩ }

namespace LoadCall

/-- A call on the database of a block. -/
def step (block : CallBlock) (db : ProofDb) : LoadCall → Except CallError Unit × ProofDb
  | seed => (.ok (), db.seedBlockHashes block)
  | load address proof code => loadProvenAccount keccak256 db block.stateRoot address proof code
  | fetch prover address slots => fetchAndLoad keccak256 prover db block address slots

/-- The load of a call whose answer passes the checks. -/
def loaded (block : CallBlock) : LoadCall → Option (AcceptedLoad keccak256 block.stateRoot)
  | seed => none
  | load address proof code => acceptedLoad keccak256 block.stateRoot address proof code
  | fetch prover address slots =>
    match fetchAnswer keccak256 prover block address slots with
    | .error _ => none
    | .ok (proof, code) => acceptedLoad keccak256 block.stateRoot address proof code

/-- The load that a call made, when it was not refused. -/
def accepted (block : CallBlock) (db : ProofDb) (call : LoadCall) :
    List (AcceptedLoad keccak256 block.stateRoot) :=
  match (call.step keccak256 block db).1 with
  | .error _ => []
  | .ok _ => (call.loaded keccak256 block).toList

end LoadCall

/-- The database after some calls. -/
def LoadCall.run (block : CallBlock) (db : ProofDb) (calls : List LoadCall) : ProofDb :=
  Machine.run (LoadCall.step keccak256 block) db calls

/-- The loads that some calls made. -/
def LoadCall.loads (block : CallBlock) (db : ProofDb) (calls : List LoadCall) :
    List (AcceptedLoad keccak256 block.stateRoot) :=
  Machine.history (LoadCall.accepted keccak256 block) (LoadCall.step keccak256 block) db calls

variable {keccak256}

theorem loadProvenAccount_cases (db : ProofDb) (stateRoot : Hash) (address : Address)
    (proof : EthAccountProof) (code : Bytes) :
    (∃ e, loadProvenAccount keccak256 db stateRoot address proof code = (.error e, db)) ∨
      ∃ l storage, acceptedLoad keccak256 stateRoot address proof code = some l ∧
        loadSlots keccak256 l.account l.proof (db.slotsOf l.address) = .ok storage ∧
        loadProvenAccount keccak256 db stateRoot address proof code =
          (.ok (), db.put keccak256 l storage) := by
  unfold loadProvenAccount
  cases hcheck : checkLoad keccak256 db stateRoot address proof code with
  | error e => exact .inl ⟨e, rfl⟩
  | ok found =>
    obtain ⟨verified, storage⟩ := found
    right
    simp only [checkLoad, bind_eq_ok, mapError_eq_ok, require_eq_ok, pure_eq_ok,
      Except.ok.injEq, Prod.mk.injEq] at hcheck
    obtain ⟨-, -, account, haccount, ⟨⟩, hcode, -, -, slots, hslots, rfl, rfl⟩ := hcheck
    refine ⟨⟨address, proof, code, account, haccount, hcode⟩, slots, ?_, hslots, ?_⟩
    · unfold acceptedLoad
      split
      · next hp => rw [haccount] at hp; cases hp
      · next found hp =>
        obtain rfl := Except.ok.inj (haccount.symm.trans hp)
        split
        · next hc => rw [hcode] at hc; cases hc
        · rfl
    · simp only [ProofDb.put, AcceptedLoad.info]
      split_ifs <;> rfl

variable (keccak256) in
/-- One lemma for the three kinds of call. -/
theorem LoadCall.step_cases (block : CallBlock) (db : ProofDb) (call : LoadCall) :
    (∃ e, call.step keccak256 block db = (.error e, db)) ∨
      (call.loaded keccak256 block = none ∧
        call.step keccak256 block db = (.ok (), db.seedBlockHashes block)) ∨
      ∃ l storage, call.loaded keccak256 block = some l ∧
        loadSlots keccak256 l.account l.proof (db.slotsOf l.address) = .ok storage ∧
        call.step keccak256 block db = (.ok (), db.put keccak256 l storage) := by
  cases call with
  | seed => exact .inr (.inl ⟨rfl, rfl⟩)
  | load address proof code =>
    exact (loadProvenAccount_cases db block.stateRoot address proof code).imp_right .inr
  | fetch prover address slots =>
    simp only [step, loaded, fetchAndLoad]
    cases fetchAnswer keccak256 prover block address slots with
    | error e => exact .inl ⟨e, rfl⟩
    | ok answer =>
      exact (loadProvenAccount_cases db block.stateRoot address answer.1 answer.2).imp_right .inr

theorem LoadCall.step_of_error {block : CallBlock} {db : ProofDb} {call : LoadCall} {e : CallError}
    (h : (call.step keccak256 block db).1 = .error e) :
    (call.step keccak256 block db).2 = db := by
  rcases step_cases keccak256 block db call with ⟨_, hs⟩ | ⟨-, hs⟩ | ⟨_, _, -, -, hs⟩
  · rw [hs]
  · rw [hs] at h
    cases h
  · rw [hs] at h
    cases h

/-! ## The slots of a load -/

theorem lookup_of_loadSlots {verified : VerifiedAccount} {proof : EthAccountProof}
    {entries : List StorageProofEntry} {storage storage' : SlotMap}
    (h : entries.foldlM (loadSlot keccak256 verified proof) storage = .ok storage') {slot v : U256}
    (hv : storage'.lookup slot = some v) :
    storage.lookup slot = some v ∨
      (∃ e ∈ entries, decodeSlotKey e.key = .ok slot) ∧
        ∃ val, verifyStorageSlot keccak256 verified slot proof = .ok val ∧ v = pad32 val := by
  induction entries generalizing storage with
  | nil =>
    obtain rfl := Except.ok.inj h
    exact .inl hv
  | cons e rest ih =>
    simp only [List.foldlM_cons, loadSlot, bind_eq_ok, mapError_eq_ok, require_eq_ok, pure_eq_ok,
      Except.ok.injEq] at h
    obtain ⟨next, ⟨key, hkey, val, hval, -, -, rfl⟩, h⟩ := h
    rcases ih h with hnext | ⟨⟨e', he', hkey'⟩, hproof⟩
    · by_cases hslot : slot = key
      · subst hslot
        rw [AList.lookup_insert] at hnext
        exact .inr ⟨⟨e, List.mem_cons_self, hkey⟩, val, hval, (Option.some.inj hnext).symm⟩
      · rw [AList.lookup_insert_ne hslot] at hnext
        exact .inl hnext
    · exact .inr ⟨⟨e', List.mem_cons_of_mem e he', hkey'⟩, hproof⟩

/-- The loop keeps the slots that were there and adds one for each entry. -/
theorem mem_of_loadSlots {verified : VerifiedAccount} {proof : EthAccountProof}
    {entries : List StorageProofEntry} {storage storage' : SlotMap}
    (h : entries.foldlM (loadSlot keccak256 verified proof) storage = .ok storage') {slot : U256}
    (hslot : slot ∈ storage ∨ ∃ e ∈ entries, decodeSlotKey e.key = .ok slot) :
    slot ∈ storage' := by
  induction entries generalizing storage with
  | nil =>
    obtain rfl := Except.ok.inj h
    exact hslot.resolve_right (by simp)
  | cons e rest ih =>
    simp only [List.foldlM_cons, loadSlot, bind_eq_ok, mapError_eq_ok, require_eq_ok, pure_eq_ok,
      Except.ok.injEq] at h
    obtain ⟨next, ⟨key, hkey, val, -, -, -, rfl⟩, h⟩ := h
    refine ih h ?_
    rcases hslot with hmem | ⟨e', he', hkey'⟩
    · exact .inl ((AList.mem_insert _).mpr (.inr hmem))
    · rcases List.mem_cons.mp he' with rfl | hrest
      · obtain rfl := Except.ok.inj (hkey.symm.trans hkey')
        exact .inl ((AList.mem_insert _).mpr (.inl rfl))
      · exact .inr ⟨e', hrest, hkey'⟩

end

/-! ## The database is backed by its loads -/

section

variable {keccak256 : Bytes → Hash} {stateRoot : Hash}

/-- Everything in the database was put there by a load, and nothing a load proved was lost. -/
structure Backed (loads : List (AcceptedLoad keccak256 stateRoot)) (db : ProofDb) : Prop where
  account : ∀ a acc, db.accounts.lookup a = some acc →
    ∃ l ∈ loads, l.address = a ∧ acc.info = l.info ∧ acc.storageRoot = l.account.storageRoot
  slot : ∀ a acc, db.accounts.lookup a = some acc → ∀ slot v, acc.storage.lookup slot = some v →
    ∃ l ∈ loads, l.address = a ∧ l.ProvesSlot slot v
  code : ∀ h code, db.codes.lookup h = some code →
    ∃ l ∈ loads, l.account.codeHash = h ∧ l.code = code
  loaded : ∀ l ∈ loads, ∃ acc, db.accounts.lookup l.address = some acc ∧
    ∀ slot v, l.ProvesSlot slot v → slot ∈ acc.storage
  coded : ∀ l ∈ loads, l.account.codeHash ≠ emptyCodeHash → l.account.codeHash ∈ db.codes

theorem backed_new (spec : SpecId) :
    Backed ([] : List (AcceptedLoad keccak256 stateRoot)) (ProofDb.new spec) := by
  refine ⟨fun a acc h => ?_, fun a acc h => ?_, fun h code hc => ?_, by simp, by simp⟩
  · simp [ProofDb.new] at h
  · simp [ProofDb.new] at h
  · simp [ProofDb.new] at hc

theorem Backed.seed {loads : List (AcceptedLoad keccak256 stateRoot)} {db : ProofDb}
    (h : Backed loads db) (block : CallBlock) : Backed loads (db.seedBlockHashes block) :=
  ⟨h.account, h.slot, h.code, h.loaded, h.coded⟩

theorem slotsOf_eq {db : ProofDb} {address : Address} {acc : ProvenAccount}
    (h : db.accounts.lookup address = some acc) : db.slotsOf address = acc.storage := by
  unfold ProofDb.slotsOf
  rw [h]

theorem lookup_slotsOf {db : ProofDb} {address : Address} {slot v : U256}
    (h : (db.slotsOf address).lookup slot = some v) :
    ∃ acc, db.accounts.lookup address = some acc ∧ acc.storage.lookup slot = some v := by
  unfold ProofDb.slotsOf at h
  split at h
  · next acc hacc => exact ⟨acc, hacc, h⟩
  · simp at h

theorem loadSlots_spec {db : ProofDb} {l : AcceptedLoad keccak256 stateRoot} {storage : SlotMap}
    (h : loadSlots keccak256 l.account l.proof (db.slotsOf l.address) = .ok storage) :
    (∀ slot v, storage.lookup slot = some v →
      (db.slotsOf l.address).lookup slot = some v ∨ l.ProvesSlot slot v) ∧
    (∀ slot ∈ db.slotsOf l.address, slot ∈ storage) ∧
    ∀ slot v, l.ProvesSlot slot v → slot ∈ storage := by
  unfold loadSlots at h
  split_ifs at h with hroot
  · refine ⟨fun slot v hv => ?_, fun slot hslot => mem_of_loadSlots h (.inl hslot),
      fun slot v hv => mem_of_loadSlots h (.inr hv.2.1)⟩
    exact (lookup_of_loadSlots h hv).imp_right fun hproved => ⟨hroot, hproved⟩
  · obtain rfl := Except.ok.inj h
    exact ⟨fun slot v hv => .inl hv, fun slot hslot => hslot, fun slot v hv => absurd hv.1 hroot⟩

theorem Backed.put {loads : List (AcceptedLoad keccak256 stateRoot)} {db : ProofDb}
    (h : Backed loads db) {l : AcceptedLoad keccak256 stateRoot} {storage : SlotMap}
    (hslots : loadSlots keccak256 l.account l.proof (db.slotsOf l.address) = .ok storage) :
    Backed (loads ++ [l]) (db.put keccak256 l storage) := by
  obtain ⟨hold, hkept, hnew⟩ := loadSlots_spec hslots
  have hlast : l ∈ loads ++ [l] := List.mem_append_right _ (List.mem_singleton_self l)
  have hbefore : ∀ l' ∈ loads, l' ∈ loads ++ [l] := fun l' => List.mem_append_left _
  have haccounts : (db.put keccak256 l storage).accounts =
      db.accounts.insert l.address ⟨l.info, l.account.storageRoot, storage⟩ := rfl
  refine ⟨fun a acc ha => ?_, fun a acc ha slot v hv => ?_, fun hash code hc => ?_,
    fun l' hl' => ?_, fun l' hl' hne => ?_⟩
  · rw [haccounts] at ha
    by_cases hsame : a = l.address
    · subst hsame
      rw [AList.lookup_insert] at ha
      obtain rfl := Option.some.inj ha
      exact ⟨l, hlast, rfl, rfl, rfl⟩
    · rw [AList.lookup_insert_ne hsame] at ha
      obtain ⟨l', hl', hrest⟩ := h.account a acc ha
      exact ⟨l', hbefore l' hl', hrest⟩
  · rw [haccounts] at ha
    by_cases hsame : a = l.address
    · subst hsame
      rw [AList.lookup_insert] at ha
      obtain rfl := Option.some.inj ha
      rcases hold slot v hv with hprev | hproved
      · obtain ⟨acc', hacc', hv'⟩ := lookup_slotsOf hprev
        obtain ⟨l', hl', hrest⟩ := h.slot l.address acc' hacc' slot v hv'
        exact ⟨l', hbefore l' hl', hrest⟩
      · exact ⟨l, hlast, rfl, hproved⟩
    · rw [AList.lookup_insert_ne hsame] at ha
      obtain ⟨l', hl', hrest⟩ := h.slot a acc ha slot v hv
      exact ⟨l', hbefore l' hl', hrest⟩
  · simp only [ProofDb.put] at hc
    split_ifs at hc with hempty
    · by_cases hsame : hash = l.account.codeHash
      · subst hsame
        rw [AList.lookup_insert] at hc
        exact ⟨l, hlast, rfl, Option.some.inj hc⟩
      · rw [AList.lookup_insert_ne hsame] at hc
        obtain ⟨l', hl', hrest⟩ := h.code hash code hc
        exact ⟨l', hbefore l' hl', hrest⟩
    · obtain ⟨l', hl', hrest⟩ := h.code hash code hc
      exact ⟨l', hbefore l' hl', hrest⟩
  · rw [haccounts]
    rcases List.mem_append.mp hl' with hmem | hmem
    · obtain ⟨acc, hacc, hslot⟩ := h.loaded l' hmem
      by_cases hsame : l'.address = l.address
      · rw [hsame, AList.lookup_insert]
        refine ⟨_, rfl, fun slot v hv => hkept slot ?_⟩
        rw [← hsame, slotsOf_eq hacc]
        exact hslot slot v hv
      · rw [AList.lookup_insert_ne hsame]
        exact ⟨acc, hacc, hslot⟩
    · rw [List.mem_singleton.mp hmem, AList.lookup_insert]
      exact ⟨_, rfl, hnew⟩
  · simp only [ProofDb.put]
    rcases List.mem_append.mp hl' with hmem | hmem
    · have hin := h.coded l' hmem hne
      split_ifs
      · exact (AList.mem_insert _).mpr (.inr hin)
      · exact hin
    · obtain rfl := List.mem_singleton.mp hmem
      rw [if_pos hne]
      exact (AList.mem_insert _).mpr (.inl rfl)

/-- Every call keeps the database backed by the loads made so far. -/
theorem Backed.step {block : CallBlock} {loads : List (AcceptedLoad keccak256 block.stateRoot)}
    {db : ProofDb} (h : Backed loads db) (call : LoadCall) :
    Backed (loads ++ call.accepted keccak256 block db) (call.step keccak256 block db).2 := by
  unfold LoadCall.accepted
  rcases LoadCall.step_cases keccak256 block db call with
    ⟨e, hs⟩ | ⟨hnone, hs⟩ | ⟨l, storage, hsome, hslots, hs⟩
  · rw [hs, List.append_nil]
    exact h
  · rw [hs, hnone]
    simpa using h.seed block
  · rw [hs, hsome]
    exact h.put hslots

theorem backed_run (block : CallBlock) (spec : SpecId) (calls : List LoadCall) :
    Backed (LoadCall.loads keccak256 block (.new spec) calls)
      (LoadCall.run keccak256 block (.new spec) calls) := by
  have hrun : ∀ past db (call : LoadCall), Backed past db →
      Backed (past ++ LoadCall.accepted keccak256 block db call)
        (LoadCall.step keccak256 block db call).2 := fun past db call h => h.step call
  have h := Machine.run_history_invariant (LoadCall.accepted keccak256 block) hrun
    (backed_new spec) calls
  rwa [List.nil_append] at h

/-! ## What is read -/

/-- Each read returns what a load proved, and `Missing` exactly where no load proved anything. Zero
is read without a proof of the slot only under an empty storage root. -/
structure ReadsProven (precompiles : SpecId → Address → Bool)
    (loads : List (AcceptedLoad keccak256 stateRoot)) (db : ProofDb) : Prop where
  basic : ∀ a, precompileKind precompiles a db.spec = .account →
    (∃ l ∈ loads, l.address = a ∧ db.basic precompiles a = .ok (some l.info)) ∨
      (∀ l ∈ loads, l.address ≠ a) ∧ db.basic precompiles a = .error (.missing (.account a))
  codeByHash : ∀ h,
    h = emptyCodeHash ∧ db.codeByHash h = .ok [] ∨
      (∃ l ∈ loads, l.account.codeHash = h ∧ keccak256 l.code = h ∧
        db.codeByHash h = .ok l.code) ∨
      (∀ l ∈ loads, l.account.codeHash ≠ h) ∧ db.codeByHash h = .error (.missing (.codeHash h))
  storage : ∀ a slot,
    (∃ l ∈ loads, l.address = a ∧ ∃ v, l.ProvesSlot slot v ∧ db.storage a slot = .ok v) ∨
      (∃ l ∈ loads, l.address = a ∧ l.account.storageRoot = emptyTrieRoot ∧
        db.storage a slot = .ok (.repeated 32 0)) ∨
      (∀ l ∈ loads, l.address = a → ∀ v, ¬ l.ProvesSlot slot v) ∧
        db.storage a slot = .error (.missing (.storage a slot))

variable {loads : List (AcceptedLoad keccak256 stateRoot)} {db : ProofDb}

theorem Backed.basic (h : Backed loads db) (precompiles : SpecId → Address → Bool) (a : Address)
    (hkind : precompileKind precompiles a db.spec = .account) :
    (∃ l ∈ loads, l.address = a ∧ db.basic precompiles a = .ok (some l.info)) ∨
      (∀ l ∈ loads, l.address ≠ a) ∧
        db.basic precompiles a = .error (.missing (.account a)) := by
  unfold ProofDb.basic
  simp only [hkind]
  cases hacc : db.accounts.lookup a with
  | some acc =>
    obtain ⟨l, hl, haddr, hinfo, -⟩ := h.account a acc hacc
    exact .inl ⟨l, hl, haddr, congrArg (fun info => Except.ok (some info)) hinfo⟩
  | none =>
    refine .inr ⟨fun l hl haddr => ?_, rfl⟩
    obtain ⟨acc, hin, -⟩ := h.loaded l hl
    rw [haddr, hacc] at hin
    cases hin

theorem Backed.codeByHash (h : Backed loads db) (hash : Hash) :
    hash = emptyCodeHash ∧ db.codeByHash hash = .ok [] ∨
      (∃ l ∈ loads, l.account.codeHash = hash ∧ keccak256 l.code = hash ∧
        db.codeByHash hash = .ok l.code) ∨
      (∀ l ∈ loads, l.account.codeHash ≠ hash) ∧
        db.codeByHash hash = .error (.missing (.codeHash hash)) := by
  unfold ProofDb.codeByHash
  by_cases hempty : hash = emptyCodeHash
  · exact .inl ⟨hempty, if_pos hempty⟩
  · right
    rw [if_neg hempty]
    cases hcode : db.codes.lookup hash with
    | some code =>
      obtain ⟨l, hl, hhash, rfl⟩ := h.code hash code hcode
      have hkeccak := verifyAccountCode_ok l.coded
      rw [hhash, if_neg hempty] at hkeccak
      exact .inl ⟨l, hl, hhash, hkeccak, rfl⟩
    | none =>
      refine .inr ⟨fun l hl hhash => ?_, rfl⟩
      have hin := h.coded l hl (hhash ▸ hempty)
      rw [hhash] at hin
      exact AList.lookup_eq_none.mp hcode hin

theorem Backed.storage (h : Backed loads db) (a : Address) (slot : U256) :
    (∃ l ∈ loads, l.address = a ∧ ∃ v, l.ProvesSlot slot v ∧ db.storage a slot = .ok v) ∨
      (∃ l ∈ loads, l.address = a ∧ l.account.storageRoot = emptyTrieRoot ∧
        db.storage a slot = .ok (.repeated 32 0)) ∨
      (∀ l ∈ loads, l.address = a → ∀ v, ¬ l.ProvesSlot slot v) ∧
        db.storage a slot = .error (.missing (.storage a slot)) := by
  unfold ProofDb.storage
  cases hacc : db.accounts.lookup a with
  | none =>
    refine .inr (.inr ⟨fun l hl haddr => ?_, rfl⟩)
    obtain ⟨acc, hin, -⟩ := h.loaded l hl
    rw [haddr, hacc] at hin
    cases hin
  | some acc =>
    simp only
    cases hv : acc.storage.lookup slot with
    | some v =>
      obtain ⟨l, hl, haddr, hproves⟩ := h.slot a acc hacc slot v hv
      exact .inl ⟨l, hl, haddr, v, hproves, rfl⟩
    | none =>
      by_cases hroot : acc.storageRoot = emptyTrieRoot
      · obtain ⟨l, hl, haddr, -, hsame⟩ := h.account a acc hacc
        exact .inr (.inl ⟨l, hl, haddr, hsame ▸ hroot, if_pos hroot⟩)
      · refine .inr (.inr ⟨fun l hl haddr v hproves => ?_, if_neg hroot⟩)
        obtain ⟨acc', hin, hslot⟩ := h.loaded l hl
        rw [haddr, hacc] at hin
        obtain rfl := Option.some.inj hin
        exact AList.lookup_eq_none.mp hv (hslot slot v hproves)

theorem Backed.readsProven (h : Backed loads db) (precompiles : SpecId → Address → Bool) :
    ReadsProven precompiles loads db :=
  ⟨h.basic precompiles, h.codeByHash, h.storage⟩

end

end HeliosBsc
