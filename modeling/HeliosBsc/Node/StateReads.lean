import HeliosBsc.Lib.Json
import HeliosBsc.Mock.LoneState

/-!
# Reads of the state

`bin/helios-bsc/src/rpc_server/state.rs` for `eth_getBalance`, `eth_getTransactionCount`,
`eth_getCode` and `eth_getStorageAt`, from the parameters of the request to the text of the answer. A
read names a block by a tag, a height or a hash; it is answered from a proof against the state root
of a block of the client's own chain. What it answers is what the state behind that root says.
-/

namespace HeliosBsc

open Checked

/-- `wallet_block_tag_str`. -/
def walletBlockTagStr : Option Json → Except String (Option String)
  | none => .ok none
  | some .null => .ok none
  | some (.string s) => .ok (some s)
  | some _ => .error "block id must be a string tag or hex"

/-- `wallet_block_id_str`. -/
def walletBlockIdStr (raw : Option Json) : Except RpcFailure (Option String) :=
  (walletBlockTagStr raw).mapError fun e => ⟨errParams, e⟩

/-- `wallet_get_block_by_hash`. -/
def walletGetBlockByHash (hash : String) (safeNumber : ℕ) (chain : List VerifiedBlock) :
    Option VerifiedBlock :=
  match decodeHexFixed 32 hash with
  | .error _ => none
  | .ok want => chain.find? fun b => decide (b.hash = want) && decide (b.number ≤ safeNumber)

/-- `Node::resolve_wallet_exec_block_in`. -/
def resolveWalletExecBlock (tag : Option String) (tip : ℕ) (safe : SafeHead)
    (chain : List VerifiedBlock) : Except RpcFailure VerifiedBlock := do
  let found := (walletGetBlockByNumber tag safe chain).or
    (tag.bind fun t => walletGetBlockByHash t safe.number chain)
  match found with
  | none => throw ⟨errNotSynced, "wallet mode only serves Safe or below (latest→Safe)"⟩
  | some local_ =>
    let lag := proofLag tip local_.number
    require (lag ≤ providerProofLookback)
      ⟨errNotSynced, s!"proof window exceeded: lag {lag} > {providerProofLookback}"⟩
    return local_

/-! ## The methods -/

/-- The answers of the upstream to one request: `get_proof_at_safe`, read as a proof, and
`get_code`. -/
structure StateUpstream where
  proofAtSafe : String → List String → String → ℕ → Except String EthAccountProof
  code : String → String → Except String Bytes

/-- What is asked for the proof of an account at a block. -/
def StateUpstream.proofAt (up : StateUpstream) (addr : String) (keys : List String)
    (exec : VerifiedBlock) : Except String EthAccountProof :=
  up.proofAtSafe addr keys (hexPrefixed exec.hash.val) exec.number

/-- The code at a block, asked by its hash and then by its height. -/
def StateUpstream.codeAt (up : StateUpstream) (addr : String) (exec : VerifiedBlock) :
    Except String Bytes :=
  match up.code addr (hexPrefixed exec.hash.val) with
  | .ok code => .ok code
  | .error _ => up.code addr (hexQuantity exec.number)

namespace StateReads

/-- `AccountField`. -/
inductive AccountField where
  | balance
  | nonce
  deriving DecidableEq

/-- A parameter that has to be there. -/
def requireParam {α : Type} (param : Option α) (reason : String) : Except RpcFailure α :=
  match param with
  | some v => .ok v
  | none => .error ⟨errParams, reason⟩

/-- `Value::as_str` of a parameter. -/
def paramString (param : Option Json) : Option String :=
  match param with
  | some (.string s) => some s
  | _ => none

/-- The parameters of a request and the address, which comes first. -/
def requestAddress (params : Option (List Json)) : Except RpcFailure (List Json × String) := do
  let params ← requireParam params "invalid params"
  let addr ← requireParam (paramString params.head?) "address required"
  let _ ← (requireRpcAddress addr).mapError fun e => ⟨errParams, e⟩
  return (params, addr)

/-- The tip and the block that a request is answered at: `refresh`, and then the chain. -/
def requestBlock (tag : Option String) (refreshed : Except String (ℕ × SafeHead))
    (chain : List VerifiedBlock) : Except RpcFailure (ℕ × VerifiedBlock) := do
  let (tip, safe) ← refreshed.mapError fun e => ⟨errNotSynced, s!"not_synced: {e}"⟩
  let exec ← resolveWalletExecBlock tag tip safe chain
  return (tip, exec)

section

variable (keccak256 : Bytes → Hash) (params : Option (List Json))
  (refreshed : Except String (ℕ × SafeHead)) (chain : List VerifiedBlock) (up : StateUpstream)

/-- `Node::verified_account`. -/
def verifiedAccount (addr : String) (tip : ℕ) (exec : VerifiedBlock) :
    Except RpcFailure VerifiedAccount := do
  let (acc, _) ← verifiedProof keccak256 addr tip exec (up.proofAt addr [] exec)
  return acc

/-- `Node::account_field`. -/
def accountField (field : AccountField) : Except RpcFailure String := do
  let (params, addr) ← requestAddress params
  let tag ← walletBlockIdStr params[1]?
  let (tip, exec) ← requestBlock tag refreshed chain
  let acc ← verifiedAccount keccak256 up addr tip exec
  match field with
  | .balance => return encodeQty acc.balanceWei
  | .nonce => return hexQuantity acc.nonce

/-- `Node::get_code`. -/
def getCode : Except RpcFailure String := do
  let (params, addr) ← requestAddress params
  let tag ← walletBlockIdStr params[1]?
  let (tip, exec) ← requestBlock tag refreshed chain
  let acc ← verifiedAccount keccak256 up addr tip exec
  if acc.codeHash = emptyCodeHash then return "0x"
  let code ← (up.codeAt addr exec).mapError fun e =>
    ⟨errProofFailed, s!"proof_verification_failed: {e}"⟩
  require (code.length ≤ maxCodeSize) ⟨errProofFailed, "bytecode exceeds MaxCodeSize"⟩
  let _ ← (verifyAccountCode keccak256 acc code).mapError fun e =>
    ⟨errProofFailed, s!"proof_verification_failed: {e.message}"⟩
  return hexPrefixed code

/-- `Node::get_storage`. -/
def getStorage : Except RpcFailure String := do
  let (params, addr) ← requestAddress params
  let slotHex ← requireParam (paramString params[1]?) "storage slot required"
  let tag ← walletBlockIdStr params[2]?
  let slot ← (parseSlot slotHex).mapError fun e => ⟨errParams, e⟩
  let (tip, exec) ← requestBlock tag refreshed chain
  let (acc, proof) ← verifiedProof keccak256 addr tip exec
    (up.proofAt addr [hexPrefixed slot.val] exec)
  let val ← (verifyStorageSlot keccak256 acc slot proof).mapError fun e =>
    ⟨errProofFailed, s!"proof_verification_failed: {e.message}"⟩
  return hexPrefixed (pad32 val).val

end

end StateReads

/-- The methods that read one value of the state. -/
inductive StateMethod where
  | getBalance
  | getTransactionCount
  | getCode
  | getStorageAt
  deriving DecidableEq

namespace StateMethod

/-- The arm of `handle` for the method. -/
def call (keccak256 : Bytes → Hash) (m : StateMethod) (params : Option (List Json))
    (refreshed : Except String (ℕ × SafeHead)) (chain : List VerifiedBlock) (up : StateUpstream) :
    Except RpcFailure String :=
  match m with
  | .getBalance => StateReads.accountField keccak256 params refreshed chain up .balance
  | .getTransactionCount => StateReads.accountField keccak256 params refreshed chain up .nonce
  | .getCode => StateReads.getCode keccak256 params refreshed chain up
  | .getStorageAt => StateReads.getStorage keccak256 params refreshed chain up

/-- The place of the block id among the parameters. -/
def idAt : StateMethod → ℕ
  | .getBalance | .getTransactionCount | .getCode => 1
  | .getStorageAt => 2

end StateMethod

/-! ## What is asked and what a state says -/

/-- A value of a state. -/
inductive StateQuery where
  | balance (address : Address)
  | nonce (address : Address)
  | code (address : Address)
  | slot (address : Address) (slot : Hash)
  deriving DecidableEq

namespace StateQuery

def address : StateQuery → Address
  | balance address | nonce address | code address | slot address _ => address

/-- The slots of the query. -/
def slots : StateQuery → List Hash
  | balance _ | nonce _ | code _ => []
  | slot _ s => [s]

end StateQuery

/-- The value that the parameters ask for. -/
def StateMethod.query (m : StateMethod) (addr : String) (params : List Json) : Option StateQuery := do
  let address ← (decodeHexFixed 20 addr).toOption
  match m with
  | .getBalance => return .balance address
  | .getTransactionCount => return .nonce address
  | .getCode => return .code address
  | .getStorageAt =>
    let key ← StateReads.paramString params[1]?
    return .slot address (← (parseSlot key).toOption)

theorem StateMethod.query_eq_some {m : StateMethod} {addr : String} {params : List Json}
    {q : StateQuery} :
    m.query addr params = some q ↔ ∃ address, decodeHexFixed 20 addr = .ok address ∧
      match m with
      | .getBalance => q = .balance address
      | .getTransactionCount => q = .nonce address
      | .getCode => q = .code address
      | .getStorageAt => ∃ key slot, StateReads.paramString params[1]? = some key ∧
          parseSlot key = .ok slot ∧ q = .slot address slot := by
  unfold StateMethod.query
  simp only [Option.bind_eq_bind, Option.bind_eq_some_iff, toOption_eq_some]
  refine exists_congr fun address => and_congr_right fun _ => ?_
  cases m with
  | getBalance | getTransactionCount | getCode => exact Option.some_inj.trans eq_comm
  | getStorageAt =>
    simp only [Option.bind_eq_some_iff, toOption_eq_some, Option.pure_def, Option.some.injEq]
    constructor
    · rintro ⟨key, hkey, slot, hslot, rfl⟩
      exact ⟨key, slot, hkey, hslot, rfl⟩
    · rintro ⟨key, slot, hkey, hslot, rfl⟩
      exact ⟨key, hkey, slot, hslot, rfl⟩

namespace World

variable {keccak256 : Bytes → Hash} {stateRoot : Hash}

/-- The text of a value in a state. -/
inductive Says (w : World keccak256 stateRoot) : StateQuery → String → Prop where
  | balance {address : Address} {leaf : Account}
      (h : w.accounts.accountAt keccak256 address = .ok leaf) :
      w.Says (.balance address) (hexQuantity (BigEndian.value leaf.balance))
  | nonce {address : Address} {leaf : Account}
      (h : w.accounts.accountAt keccak256 address = .ok leaf) :
      w.Says (.nonce address) (hexQuantity leaf.nonce)
  | code {address : Address} {leaf : Account}
      (h : w.accounts.accountAt keccak256 address = .ok leaf) :
      w.Says (.code address) (hexPrefixed (w.code leaf.codeHash))
  | slot {address : Address} {slot : Hash} {n : ℕ}
      (h : (w.storage address).Holds keccak256 slot n) :
      w.Says (.slot address slot) (hexPrefixed (BigEndian.bytes 32 n))

/-- One of the strings collides with one of the state. -/
def CollidesWith (w : World keccak256 stateRoot) (strings : List Bytes) : Prop :=
  ∃ x y, w.Has x ∧ y ∈ strings ∧ x ≠ y ∧ keccak256 x = keccak256 y

variable {w : World keccak256 stateRoot}

theorem Says.unique {q : StateQuery} {text text' : String} (h : w.Says q text)
    (h' : w.Says q text') : text = text' := by
  cases h with
  | balance hleaf | nonce hleaf | code hleaf =>
    cases h' with
    | _ hleaf' =>
      cases hleaf.symm.trans hleaf'
      rfl
  | slot hn =>
    cases h' with
    | slot hn' => rw [holds_value hn hn']

theorem CollidesWith.of_collision {theirs strings : List Bytes}
    (h : Collision keccak256 theirs strings) (htheirs : ∀ x ∈ theirs, w.Has x) :
    w.CollidesWith strings := by
  obtain ⟨x, hx, y, hy, hne, heq⟩ := h
  exact ⟨x, y, htheirs x hx, hy, hne, heq⟩

theorem CollidesWith.mono {strings strings' : List Bytes} (h : w.CollidesWith strings)
    (hsub : ∀ y ∈ strings, y ∈ strings') : w.CollidesWith strings' := by
  obtain ⟨x, y, hx, hy, hrest⟩ := h
  exact ⟨x, y, hx, hsub y hy, hrest⟩

/-! ## What a proof says of the state -/

theorem account_of_proof {address : Address} {proof : EthAccountProof} {acc : VerifiedAccount}
    (h : verifyEthGetProof keccak256 stateRoot address proof = .ok acc)
    (hnot : ¬ w.CollidesWith proof.strings) :
    ∃ leaf, w.accounts.accountAt keccak256 address = .ok leaf ∧ acc =
      ⟨address, leaf.nonce, BigEndian.strip leaf.balance, leaf.storageRoot, leaf.codeHash⟩ := by
  obtain ⟨nodes, leaf, hnodes, hleaf, hacc⟩ := verifyEthGetProof_ok h
  refine ⟨leaf, (accountAt_of_verifyAccountProof w.root hleaf).resolve_right fun hcol => hnot ?_,
    hacc⟩
  refine (CollidesWith.of_collision hcol fun x hx => .account address hx).mono fun y hy => ?_
  exact EthAccountProof.mem_strings hnodes (fun s hs => List.mem_append_left _ hs) y
    (mem_longNodes.mp hy).1

theorem slot_of_proof {address : Address} {leaf : Account} {slot : Hash} {proof : EthAccountProof}
    {v : Bytes} (hleaf : w.accounts.accountAt keccak256 address = .ok leaf)
    (h : verifyStorageSlot keccak256 ⟨address, leaf.nonce, BigEndian.strip leaf.balance,
      leaf.storageRoot, leaf.codeHash⟩ slot proof = .ok v)
    (hnot : ¬ w.CollidesWith proof.strings) :
    (w.storage address).Holds keccak256 slot (BigEndian.value v) ∧ v.length ≤ 32 := by
  have hroot := w.storageRoot address leaf hleaf
  by_cases hempty : leaf.storageRoot = emptyTrieRoot
  · rw [verifyStorageSlot, if_pos hempty] at h
    cases h
    rw [hempty] at hroot
    exact ⟨holds_zero hroot slot, Nat.zero_le _⟩
  · obtain ⟨e, nodes, claimed, hfirst, hnodes, hproof, -, -⟩ := verifyStorageSlot_ok hempty h
    refine ⟨(holds_of_verifyStorageProof hroot hempty hproof).resolve_right fun hcol => hnot ?_,
      length_of_verifyStorageProof hproof⟩
    refine (CollidesWith.of_collision hcol fun x hx => .storage address slot hx).mono fun y hy => ?_
    have he : e ∈ proof.storageProof := List.mem_of_find?_eq_some hfirst
    exact EthAccountProof.mem_strings hnodes
      (fun s hs => List.mem_append_right _ (List.mem_flatMap.mpr ⟨e, he, hs⟩)) y
      (mem_longNodes.mp hy).1

theorem code_of_accepted {address : Address} {leaf : Account} {code : Bytes} {acc : VerifiedAccount}
    (hleaf : w.accounts.accountAt keccak256 address = .ok leaf) (hhash : acc.codeHash = leaf.codeHash)
    (h : verifyAccountCode keccak256 acc code = .ok ()) (hnot : ¬ w.CollidesWith [code]) :
    code = w.code leaf.codeHash := by
  have hcode := verifyAccountCode_ok h
  rw [hhash] at hcode
  split_ifs at hcode with hempty
  · rw [hcode, hempty, w.noCode]
  · by_contra hne
    exact hnot ⟨_, code, .code leaf.codeHash, List.mem_singleton_self _, Ne.symm hne,
      (w.coded address leaf hleaf hempty).trans hcode.symm⟩

end World

/-! ## What a request resolves to -/

/-- The parameters name an address, a value and a block of the chain. -/
structure StateMethod.Resolves (m : StateMethod) (params : List Json) (tip : ℕ) (safe : SafeHead)
    (chain : List VerifiedBlock) (addr : String) (q : StateQuery) (exec : VerifiedBlock) :
    Prop where
  address : StateReads.paramString params.head? = some addr
  query : m.query addr params = some q
  block : ∃ tag, walletBlockIdStr params[m.idAt]? = .ok tag ∧
    resolveWalletExecBlock tag tip safe chain = .ok exec

theorem le_of_walletBlockNumberAllowed {tag : Option String} {safe : SafeHead} {n : ℕ}
    (h : walletBlockNumberAllowed tag safe = some (.number n)) : n ≤ safe.number := by
  unfold walletBlockNumberAllowed at h
  split at h
  · cases h
  · split_ifs at h
    · cases h
    · cases h
    · obtain ⟨m, -, hm⟩ := Option.bind_eq_some_iff.mp h
      split_ifs at hm with hle
      cases hm
      exact hle

theorem mem_of_walletGetBlockByNumber {tag : Option String} {safe : SafeHead}
    {chain : List VerifiedBlock} {b : VerifiedBlock}
    (h : walletGetBlockByNumber tag safe chain = some b) : b ∈ chain ∧ b.number ≤ safe.number := by
  unfold walletGetBlockByNumber at h
  split at h
  · cases h
  · refine ⟨List.mem_of_find?_eq_some h, ?_⟩
    have := List.find?_some h
    exact (beq_iff_eq.mp this).le
  · next n hn =>
    refine ⟨List.mem_of_find?_eq_some h, ?_⟩
    have hnum := List.find?_some h
    rw [beq_iff_eq] at hnum
    rw [hnum]
    exact le_of_walletBlockNumberAllowed hn

theorem mem_of_walletGetBlockByHash {hash : String} {safeNumber : ℕ} {chain : List VerifiedBlock}
    {b : VerifiedBlock} (h : walletGetBlockByHash hash safeNumber chain = some b) :
    b ∈ chain ∧ b.number ≤ safeNumber := by
  unfold walletGetBlockByHash at h
  split at h
  · cases h
  · refine ⟨List.mem_of_find?_eq_some h, ?_⟩
    have := List.find?_some h
    simp only [Bool.and_eq_true, decide_eq_true_eq] at this
    exact this.2

/-- A request is answered at a block of the chain, at or below the safe head and no further behind
the tip than the proofs reach. -/
theorem resolveWalletExecBlock_ok {tag : Option String} {tip : ℕ} {safe : SafeHead}
    {chain : List VerifiedBlock} {exec : VerifiedBlock}
    (h : resolveWalletExecBlock tag tip safe chain = .ok exec) :
    exec ∈ chain ∧ exec.number ≤ safe.number ∧ tip - exec.number ≤ providerProofLookback := by
  unfold resolveWalletExecBlock at h
  simp only at h
  split at h
  · cases h
  · next b hfound =>
    simp only [bind_eq_ok, require_eq_ok, pure_eq_ok, Except.ok.injEq] at h
    obtain ⟨-, hlag, rfl⟩ := h
    suffices hmem : b ∈ chain ∧ b.number ≤ safe.number from ⟨hmem.1, hmem.2, hlag⟩
    rcases Option.or_eq_some_iff.mp hfound with hnumber | ⟨-, hhash⟩
    · exact mem_of_walletGetBlockByNumber hnumber
    · obtain ⟨t, -, ht⟩ := Option.bind_eq_some_iff.mp hhash
      exact mem_of_walletGetBlockByHash ht

theorem requireParam_eq_ok {α : Type} {param : Option α} {reason : String} {v : α} :
    StateReads.requireParam param reason = .ok v ↔ param = some v := by
  unfold StateReads.requireParam
  cases param <;> simp

theorem requestAddress_eq_ok {params : Option (List Json)} {ps : List Json} {addr : String} :
    StateReads.requestAddress params = .ok (ps, addr) ↔ params = some ps ∧
      StateReads.paramString ps.head? = some addr ∧
        ∃ address, decodeHexFixed 20 addr = .ok address := by
  unfold StateReads.requestAddress requireRpcAddress
  simp only [bind_eq_ok, mapError_eq_ok, pure_eq_ok, Except.ok.injEq, Prod.mk.injEq,
    requireParam_eq_ok]
  constructor
  · rintro ⟨list, rfl, text, htext, address, haddr, rfl, rfl⟩
    exact ⟨rfl, htext, address, haddr⟩
  · rintro ⟨rfl, htext, address, haddr⟩
    exact ⟨ps, rfl, addr, htext, address, haddr, rfl, rfl⟩

/-! ## Every answer is the state's -/

/-- What the upstream is asked for the slots of a query. -/
def StateUpstream.proofFor (up : StateUpstream) (addr : String) (q : StateQuery)
    (exec : VerifiedBlock) : Except String EthAccountProof :=
  up.proofAt addr (q.slots.map fun s => hexPrefixed s.val) exec

/-- The byte strings that the upstream serves for a query: nodes, and code. -/
def StateUpstream.served (up : StateUpstream) (addr : String) (q : StateQuery)
    (exec : VerifiedBlock) : List Bytes :=
  (up.proofFor addr q exec).toOption.toList.flatMap (·.strings) ++
    (up.codeAt addr exec).toOption.toList

section

variable {keccak256 : Bytes → Hash} {up : StateUpstream} {addr : String} {q : StateQuery} {tip : ℕ}
  {exec : VerifiedBlock}

theorem mem_served_of_proof {proof : EthAccountProof} (h : up.proofFor addr q exec = .ok proof)
    {y : Bytes} (hy : y ∈ proof.strings) : y ∈ up.served addr q exec := by
  refine List.mem_append_left _ (List.mem_flatMap.mpr ⟨proof, ?_, hy⟩)
  rw [h]
  exact List.mem_singleton_self _

theorem mem_served_of_code {code : Bytes} (h : up.codeAt addr exec = .ok code) :
    code ∈ up.served addr q exec := by
  refine List.mem_append_right _ ?_
  rw [h]
  exact List.mem_singleton_self _

theorem verifiedProof_eq_ok {answer : Except String EthAccountProof} {acc : VerifiedAccount}
    {proof : EthAccountProof} :
    verifiedProof keccak256 addr tip exec answer = .ok (acc, proof) ↔
      proofLag tip exec.number ≤ providerProofLookback ∧ answer = .ok proof ∧
        ∃ address, decodeHexFixed 20 addr = .ok address ∧
          verifyEthGetProof keccak256 exec.stateRoot address proof = .ok acc := by
  simp only [verifiedProof, bind_eq_ok, mapError_eq_ok, require_eq_ok, pure_eq_ok, Except.ok.injEq,
    Prod.mk.injEq]
  constructor
  · rintro ⟨-, hlag, proof, hproof, address, haddr, acc, hacc, rfl, rfl⟩
    exact ⟨hlag, hproof, address, haddr, hacc⟩
  · rintro ⟨hlag, hproof, address, haddr, hacc⟩
    exact ⟨(), hlag, proof, hproof, address, haddr, acc, hacc, rfl, rfl⟩

/-- A verified account is the one that the state has at the address asked for. -/
theorem account_of_verifiedProof {acc : VerifiedAccount} {proof : EthAccountProof}
    (h : verifiedProof keccak256 addr tip exec (up.proofFor addr q exec) = .ok (acc, proof))
    (haddr : decodeHexFixed 20 addr = .ok q.address) {w : World keccak256 exec.stateRoot}
    (hnot : ¬ w.CollidesWith (up.served addr q exec)) :
    ∃ leaf, w.accounts.accountAt keccak256 q.address = .ok leaf ∧
      acc = ⟨q.address, leaf.nonce, BigEndian.strip leaf.balance, leaf.storageRoot, leaf.codeHash⟩ := by
  obtain ⟨-, hproof, address, haddr', hacc⟩ := verifiedProof_eq_ok.mp h
  cases haddr.symm.trans haddr'
  exact World.account_of_proof hacc fun hcol => hnot (hcol.mono fun y => mem_served_of_proof hproof)

end

section

variable {keccak256 : Bytes → Hash} {params : List Json} {tip : ℕ} {safe : SafeHead}
  {chain : List VerifiedBlock} {up : StateUpstream} {text : String}

theorem requestBlock_eq_ok {tag : Option String} {refreshed : Except String (ℕ × SafeHead)}
    {exec : VerifiedBlock} :
    StateReads.requestBlock tag refreshed chain = .ok (tip, exec) ↔
      ∃ safe, refreshed = .ok (tip, safe) ∧ resolveWalletExecBlock tag tip safe chain = .ok exec := by
  simp only [StateReads.requestBlock, bind_eq_ok, mapError_eq_ok, pure_eq_ok, Except.ok.injEq,
    Prod.mk.injEq]
  constructor
  · rintro ⟨⟨tip', safe⟩, hrefreshed, exec', hexec, rfl, rfl⟩
    exact ⟨safe, hrefreshed, hexec⟩
  · rintro ⟨safe, hrefreshed, hexec⟩
    exact ⟨(tip, safe), hrefreshed, exec, hexec, rfl, rfl⟩

variable {request : Option (List Json)} {refreshed : Except String (ℕ × SafeHead)}

/-- The account that a request is answered from. -/
def AccountRead (keccak256 : Bytes → Hash) (request : Option (List Json)) (idAt : ℕ)
    (refreshed : Except String (ℕ × SafeHead)) (chain : List VerifiedBlock) (up : StateUpstream)
    (slots : List Hash) (ps : List Json) (addr : String) (tip : ℕ) (exec : VerifiedBlock)
    (acc : VerifiedAccount) (proof : EthAccountProof) : Prop :=
  StateReads.requestAddress request = .ok (ps, addr) ∧
    (∃ tag, walletBlockIdStr ps[idAt]? = .ok tag ∧
      StateReads.requestBlock tag refreshed chain = .ok (tip, exec)) ∧
    verifiedProof keccak256 addr tip exec
      (up.proofAt addr (slots.map fun s => hexPrefixed s.val) exec) = .ok (acc, proof)

theorem accountField_eq_ok (field : StateReads.AccountField) :
    StateReads.accountField keccak256 request refreshed chain up field = .ok text ↔
      ∃ ps addr tip exec acc proof,
        AccountRead keccak256 request 1 refreshed chain up [] ps addr tip exec acc proof ∧
        text = match field with
          | .balance => encodeQty acc.balanceWei
          | .nonce => hexQuantity acc.nonce := by
  simp only [StateReads.accountField, StateReads.verifiedAccount, bind_eq_ok, pure_eq_ok,
    Except.ok.injEq, AccountRead]
  constructor
  · rintro ⟨⟨ps, addr⟩, hrequest, tag, htag, ⟨tip, exec⟩, hblock, acc, ⟨⟨acc', proof⟩, hproof, rfl⟩,
      htext⟩
    refine ⟨ps, addr, tip, exec, acc', proof, ⟨hrequest, ⟨tag, htag, hblock⟩, hproof⟩, ?_⟩
    cases field <;> exact (Except.ok.inj htext).symm
  · rintro ⟨ps, addr, tip, exec, acc, proof, ⟨hrequest, ⟨tag, htag, hblock⟩, hproof⟩, rfl⟩
    refine ⟨(ps, addr), hrequest, tag, htag, (tip, exec), hblock, acc, ⟨(acc, proof), hproof, rfl⟩, ?_⟩
    cases field <;> rfl

theorem getCode_eq_ok :
    StateReads.getCode keccak256 request refreshed chain up = .ok text ↔
      ∃ ps addr tip exec acc proof,
        AccountRead keccak256 request 1 refreshed chain up [] ps addr tip exec acc proof ∧
        ((acc.codeHash = emptyCodeHash ∧ text = "0x") ∨
          acc.codeHash ≠ emptyCodeHash ∧ ∃ code, up.codeAt addr exec = .ok code ∧
            code.length ≤ maxCodeSize ∧ verifyAccountCode keccak256 acc code = .ok () ∧
            text = hexPrefixed code) := by
  simp only [StateReads.getCode, StateReads.verifiedAccount, bind_eq_ok, pure_eq_ok,
    Except.ok.injEq, AccountRead]
  constructor
  · rintro ⟨⟨ps, addr⟩, hrequest, tag, htag, ⟨tip, exec⟩, hblock, acc, ⟨⟨acc', proof⟩, hproof, rfl⟩,
      htext⟩
    refine ⟨ps, addr, tip, exec, acc', proof, ⟨hrequest, ⟨tag, htag, hblock⟩, hproof⟩, ?_⟩
    split_ifs at htext with hempty
    · exact .inl ⟨hempty, (Except.ok.inj htext).symm⟩
    · simp only [bind_eq_ok, mapError_eq_ok, require_eq_ok, Except.ok.injEq] at htext
      obtain ⟨code, hcode, -, hsize, ⟨⟩, hverify, rfl⟩ := htext
      exact .inr ⟨hempty, code, hcode, hsize, hverify, rfl⟩
  · rintro ⟨ps, addr, tip, exec, acc, proof, ⟨hrequest, ⟨tag, htag, hblock⟩, hproof⟩, hend⟩
    refine ⟨(ps, addr), hrequest, tag, htag, (tip, exec), hblock, acc, ⟨(acc, proof), hproof, rfl⟩, ?_⟩
    rcases hend with ⟨hempty, rfl⟩ | ⟨hne, code, hcode, hsize, hverify, rfl⟩
    · rw [if_pos hempty]
    · rw [if_neg hne]
      simp only [bind_eq_ok, mapError_eq_ok, require_eq_ok, Except.ok.injEq]
      exact ⟨code, hcode, (), hsize, (), hverify, rfl⟩

theorem getStorage_eq_ok :
    StateReads.getStorage keccak256 request refreshed chain up = .ok text ↔
      ∃ ps addr tip exec acc proof key slot v,
        AccountRead keccak256 request 2 refreshed chain up [slot] ps addr tip exec acc proof ∧
        StateReads.paramString ps[1]? = some key ∧ parseSlot key = .ok slot ∧
        verifyStorageSlot keccak256 acc slot proof = .ok v ∧ text = hexPrefixed (pad32 v).val := by
  simp only [StateReads.getStorage, bind_eq_ok, mapError_eq_ok, pure_eq_ok, Except.ok.injEq,
    requireParam_eq_ok, AccountRead]
  constructor
  · rintro ⟨⟨ps, addr⟩, hrequest, key, hkey, tag, htag, slot, hslot, ⟨tip, exec⟩, hblock,
      ⟨acc, proof⟩, hproof, v, hv, rfl⟩
    exact ⟨ps, addr, tip, exec, acc, proof, key, slot, v, ⟨hrequest, ⟨tag, htag, hblock⟩, hproof⟩,
      hkey, hslot, hv, rfl⟩
  · rintro ⟨ps, addr, tip, exec, acc, proof, key, slot, v, ⟨hrequest, ⟨tag, htag, hblock⟩, hproof⟩,
      hkey, hslot, hv, rfl⟩
    exact ⟨(ps, addr), hrequest, key, hkey, tag, htag, slot, hslot, (tip, exec), hblock, (acc, proof),
      hproof, v, hv, rfl⟩

theorem AccountRead.resolves {m : StateMethod} {slots : List Hash} {ps : List Json} {addr : String}
    {exec : VerifiedBlock} {acc : VerifiedAccount} {proof : EthAccountProof} {q : StateQuery}
    (h : AccountRead keccak256 request m.idAt refreshed chain up slots ps addr tip exec acc proof)
    (hq : m.query addr ps = some q) :
    request = some ps ∧ ∃ safe, refreshed = .ok (tip, safe) ∧
      m.Resolves ps tip safe chain addr q exec := by
  obtain ⟨hrequest, ⟨tag, htag, hblock⟩, -⟩ := h
  obtain ⟨rfl, haddr, -⟩ := requestAddress_eq_ok.mp hrequest
  obtain ⟨safe, hrefreshed, hexec⟩ := requestBlock_eq_ok.mp hblock
  exact ⟨rfl, safe, hrefreshed, haddr, hq, tag, htag, hexec⟩

end

theorem pad32_eq_bytes {v : Bytes} (h : v.length ≤ 32) :
    (pad32 v).val = BigEndian.bytes 32 (BigEndian.value v) := by
  rw [BigEndian.bytes_value h]
  show List.replicate (32 - v.length) 0 ++ v.drop (v.length - 32) = _
  rw [Nat.sub_eq_zero_of_le h, List.drop_zero]

/-- What a method answers is the text of the value in the state. -/
theorem says_of_call {keccak256 : Bytes → Hash} {m : StateMethod} {request : Option (List Json)}
    {refreshed : Except String (ℕ × SafeHead)} {chain : List VerifiedBlock} {up : StateUpstream}
    {text : String} (h : m.call keccak256 request refreshed chain up = .ok text) :
    ∃ ps tip safe addr q exec, request = some ps ∧ refreshed = .ok (tip, safe) ∧
      m.Resolves ps tip safe chain addr q exec ∧
      ∀ w : World keccak256 exec.stateRoot, ¬ w.CollidesWith (up.served addr q exec) →
        w.Says q text := by
  have hstrip : ∀ b, encodeQty (BigEndian.strip b) = hexQuantity (BigEndian.value b) := fun b => by
    rw [encodeQty_eq, BigEndian.value_strip]
  cases m with
  | getBalance =>
    obtain ⟨ps, addr, tip, exec, acc, proof, hread, rfl⟩ := (accountField_eq_ok .balance).mp h
    obtain ⟨address, haddr⟩ := (requestAddress_eq_ok.mp hread.1).2.2
    obtain ⟨rfl, safe, hrefreshed, hresolves⟩ := hread.resolves (m := .getBalance)
      (StateMethod.query_eq_some.mpr ⟨address, haddr, rfl⟩)
    refine ⟨ps, tip, safe, addr, _, exec, rfl, hrefreshed, hresolves, fun w hnot => ?_⟩
    obtain ⟨leaf, hleaf, rfl⟩ := account_of_verifiedProof hread.2.2 haddr hnot
    simp only [hstrip]
    exact .balance hleaf
  | getTransactionCount =>
    obtain ⟨ps, addr, tip, exec, acc, proof, hread, rfl⟩ :=
      (accountField_eq_ok .nonce).mp h
    obtain ⟨address, haddr⟩ := (requestAddress_eq_ok.mp hread.1).2.2
    obtain ⟨rfl, safe, hrefreshed, hresolves⟩ := hread.resolves (m := .getTransactionCount)
      (StateMethod.query_eq_some.mpr ⟨address, haddr, rfl⟩)
    refine ⟨ps, tip, safe, addr, _, exec, rfl, hrefreshed, hresolves, fun w hnot => ?_⟩
    obtain ⟨leaf, hleaf, rfl⟩ := account_of_verifiedProof hread.2.2 haddr hnot
    exact .nonce hleaf
  | getCode =>
    obtain ⟨ps, addr, tip, exec, acc, proof, hread, hend⟩ := getCode_eq_ok.mp h
    obtain ⟨address, haddr⟩ := (requestAddress_eq_ok.mp hread.1).2.2
    obtain ⟨rfl, safe, hrefreshed, hresolves⟩ := hread.resolves (m := .getCode)
      (StateMethod.query_eq_some.mpr ⟨address, haddr, rfl⟩)
    refine ⟨ps, tip, safe, addr, _, exec, rfl, hrefreshed, hresolves, fun w hnot => ?_⟩
    obtain ⟨leaf, hleaf, hacc⟩ := account_of_verifiedProof hread.2.2 haddr hnot
    have hhash : acc.codeHash = leaf.codeHash := by rw [hacc]
    have hcode : text = hexPrefixed (w.code leaf.codeHash) := by
      rcases hend with ⟨hempty, rfl⟩ | ⟨-, code, hcode, -, hverify, rfl⟩
      · rw [← hhash, hempty, w.noCode]
        rfl
      · rw [World.code_of_accepted hleaf hhash hverify fun hcol => hnot (hcol.mono fun y hy => ?_)]
        rw [List.mem_singleton.mp hy]
        exact mem_served_of_code hcode
    rw [hcode]
    exact .code hleaf
  | getStorageAt =>
    obtain ⟨ps, addr, tip, exec, acc, proof, key, slot, v, hread, hkey, hslot, hv, rfl⟩ :=
      getStorage_eq_ok.mp h
    obtain ⟨address, haddr⟩ := (requestAddress_eq_ok.mp hread.1).2.2
    obtain ⟨rfl, safe, hrefreshed, hresolves⟩ := hread.resolves (m := .getStorageAt)
      (StateMethod.query_eq_some.mpr ⟨address, haddr, key, slot, hkey, hslot, rfl⟩)
    refine ⟨ps, tip, safe, addr, _, exec, rfl, hrefreshed, hresolves, fun w hnot => ?_⟩
    obtain ⟨leaf, hleaf, rfl⟩ := account_of_verifiedProof hread.2.2 haddr hnot
    have hproof : up.proofFor addr (.slot address slot) exec = .ok proof :=
      (verifiedProof_eq_ok.mp hread.2.2).2.1
    obtain ⟨hholds, hlen⟩ := World.slot_of_proof hleaf hv fun hcol =>
      hnot (hcol.mono fun y => mem_served_of_proof hproof)
    rw [pad32_eq_bytes hlen]
    exact .slot hholds

/-- Every successful `eth_getBalance`, `eth_getTransactionCount`, `eth_getCode` and
`eth_getStorageAt`, whatever the upstream answered, is about a block of the client's own chain, at or
below the safe head and no more than 112 blocks behind the tip, and it is the text of the value in the
state behind this block's root, the only one there is, unless a string that was served collides with
one of the state. -/
theorem state_read_on_world (keccak256 : Bytes → Hash) (m : StateMethod)
    (request : Option (List Json)) (refreshed : Except String (ℕ × SafeHead))
    (chain : List VerifiedBlock) (up : StateUpstream) :
    (∃ e, m.call keccak256 request refreshed chain up = .error e) ∨
      ∃ ps tip safe addr q exec text, request = some ps ∧ refreshed = .ok (tip, safe) ∧
        m.Resolves ps tip safe chain addr q exec ∧
        (exec ∈ chain ∧ exec.number ≤ safe.number ∧ tip - exec.number ≤ providerProofLookback) ∧
        m.call keccak256 request refreshed chain up = .ok text ∧
        ∀ w : World keccak256 exec.stateRoot,
          (w.Says q text ∧ ∀ text', w.Says q text' → text' = text) ∨
            w.CollidesWith (up.served addr q exec) := by
  cases h : m.call keccak256 request refreshed chain up with
  | error e => exact .inl ⟨e, rfl⟩
  | ok text =>
    obtain ⟨ps, tip, safe, addr, q, exec, hps, hrefreshed, hresolves, htext⟩ := says_of_call h
    obtain ⟨tag, -, hexec⟩ := hresolves.block
    refine .inr ⟨ps, tip, safe, addr, q, exec, text, hps, hrefreshed, hresolves,
      resolveWalletExecBlock_ok hexec, rfl, fun w => ?_⟩
    by_cases hcol : w.CollidesWith (up.served addr q exec)
    · exact .inr hcol
    · exact .inl ⟨htext w hcol, fun text' h' => h'.unique (htext w hcol)⟩

/-! ## A provider that has the state is served -/

namespace World

variable {keccak256 : Bytes → Hash} {stateRoot : Hash}

/-- A provider that has the state and answers from it. -/
def upstream (w : World keccak256 stateRoot) : StateUpstream where
  proofAtSafe addr keys _ _ := do
    let address ← (decodeHexFixed 20 addr).mapError TypesError.message
    let leaf ← (w.accounts.accountAt keccak256 address).mapError MptError.message
    let slots ← keys.mapM parseSlot
    return w.proofOf address leaf slots
  code addr _ := do
    let address ← (decodeHexFixed 20 addr).mapError TypesError.message
    let leaf ← (w.accounts.accountAt keccak256 address).mapError MptError.message
    return w.code leaf.codeHash

/-- What the query reads is well-formed in the state, and its proofs and its code are within the
limits of the client. -/
structure Readable (w : World keccak256 stateRoot) (q : StateQuery) (leaf : Account) : Prop where
  account : w.accounts.accountAt keccak256 q.address = .ok leaf
  nodes : WithinProofCaps (w.accounts.proofFor keccak256 (keccak256 q.address.val))
  slots : ∀ slot ∈ q.slots, ∃ n, (w.storage q.address).Holds keccak256 slot n
  slotNodes : ∀ slot ∈ q.slots,
    WithinProofCaps ((w.storage q.address).proofFor keccak256 (keccak256 slot.val))
  code : (w.code leaf.codeHash).length ≤ maxCodeSize

theorem mapM_parseSlot_hexPrefixed (slots : List Hash) :
    (slots.map fun s => hexPrefixed s.val).mapM parseSlot = .ok slots := by
  induction slots with
  | nil => rfl
  | cons s slots ih => simp [parseSlot_hexPrefixed, ih]

variable {exec : VerifiedBlock} {w : World keccak256 exec.stateRoot} {q : StateQuery} {leaf : Account}
  {addr : String}

theorem proofFor_upstream (h : w.Readable q leaf)
    (haddr : decodeHexFixed 20 addr = .ok q.address) :
    w.upstream.proofFor addr q exec = .ok (w.proofOf q.address leaf q.slots) := by
  unfold StateUpstream.proofFor StateUpstream.proofAt upstream
  simp only [haddr, h.account, mapError_ok, ok_bind, mapM_parseSlot_hexPrefixed, pure_eq_ok]

theorem codeAt_upstream (h : w.Readable q leaf)
    (haddr : decodeHexFixed 20 addr = .ok q.address) :
    w.upstream.codeAt addr exec = .ok (w.code leaf.codeHash) := by
  unfold StateUpstream.codeAt upstream
  simp only [haddr, h.account, mapError_ok, ok_bind, pure_eq_ok]

theorem accountRead_upstream {m : StateMethod} {params : List Json} {tip : ℕ} {safe : SafeHead}
    {chain : List VerifiedBlock} (hresolves : m.Resolves params tip safe chain addr q exec)
    (h : w.Readable q leaf) :
    AccountRead keccak256 (some params) m.idAt (.ok (tip, safe)) chain w.upstream q.slots params addr
      tip exec ⟨q.address, leaf.nonce, BigEndian.strip leaf.balance, leaf.storageRoot, leaf.codeHash⟩
      (w.proofOf q.address leaf q.slots) := by
  obtain ⟨htext, hq, tag, htag, hexec⟩ := hresolves
  have haddr : decodeHexFixed 20 addr = .ok q.address := by
    obtain ⟨address, haddr, hq⟩ := StateMethod.query_eq_some.mp hq
    cases m with
    | getBalance | getTransactionCount | getCode =>
      cases hq
      exact haddr
    | getStorageAt =>
      obtain ⟨key, slot, -, -, rfl⟩ := hq
      exact haddr
  have hmany : q.slots.length ≤ maxProofStorageEntries := by
    cases q with
    | balance _ | nonce _ | code _ => exact Nat.zero_le _
    | slot _ _ => exact show 1 ≤ 64 by norm_num
  refine ⟨requestAddress_eq_ok.mpr ⟨rfl, htext, _, haddr⟩,
    ⟨tag, htag, requestBlock_eq_ok.mpr ⟨safe, rfl, hexec⟩⟩, verifiedProof_eq_ok.mpr
      ⟨(resolveWalletExecBlock_ok hexec).2.2, proofFor_upstream h haddr, q.address, haddr, ?_⟩⟩
  exact verifyEthGetProof_proofOf h.account hmany h.nodes h.slotNodes

end World

/-- An upstream that answers from the state behind the root of the block asked for is never refused:
the read succeeds, with the text of the value in this state. -/
theorem state_read_of_provider {keccak256 : Bytes → Hash} (m : StateMethod) (params : List Json)
    (tip : ℕ) (safe : SafeHead) (chain : List VerifiedBlock) (addr : String) (q : StateQuery)
    (exec : VerifiedBlock) (w : World keccak256 exec.stateRoot) (leaf : Account)
    (hresolves : m.Resolves params tip safe chain addr q exec) (h : w.Readable q leaf) :
    ∃ text, m.call keccak256 (some params) (.ok (tip, safe)) chain w.upstream = .ok text ∧
      w.Says q text := by
  have hread := World.accountRead_upstream hresolves h
  have hstrip : ∀ b, encodeQty (BigEndian.strip b) = hexQuantity (BigEndian.value b) := fun b => by
    rw [encodeQty_eq, BigEndian.value_strip]
  obtain ⟨address, haddr, hq⟩ := StateMethod.query_eq_some.mp hresolves.query
  cases m with
  | getBalance =>
    cases hq
    refine ⟨_, (accountField_eq_ok .balance).mpr ⟨params, addr, tip, exec, _, _, hread, rfl⟩, ?_⟩
    simp only [hstrip]
    exact .balance h.account
  | getTransactionCount =>
    cases hq
    exact ⟨_, (accountField_eq_ok .nonce).mpr ⟨params, addr, tip, exec, _, _, hread, rfl⟩,
      .nonce h.account⟩
  | getCode =>
    cases hq
    refine ⟨_, getCode_eq_ok.mpr ⟨params, addr, tip, exec, _, _, hread, ?_⟩, .code h.account⟩
    by_cases hempty : leaf.codeHash = emptyCodeHash
    · refine .inl ⟨hempty, ?_⟩
      rw [hempty, w.noCode]
      rfl
    · refine .inr ⟨hempty, _, World.codeAt_upstream h haddr, h.code, ?_, rfl⟩
      unfold verifyAccountCode verifyBytecode
      rw [if_neg hempty, require_of (w.coded _ leaf h.account hempty)]
      rfl
  | getStorageAt =>
    obtain ⟨key, slot, hkey, hslot, rfl⟩ := hq
    obtain ⟨n, hn⟩ := h.slots slot (List.mem_singleton_self slot)
    obtain ⟨v, hv, hlen, rfl⟩ := World.verifyStorageSlot_proofOf h.account
      (List.mem_singleton_self slot) (h.slotNodes slot (List.mem_singleton_self slot)) hn
    refine ⟨_, getStorage_eq_ok.mpr ⟨params, addr, tip, exec, _, _, key, slot, v, hread, hkey, hslot,
      hv, rfl⟩, ?_⟩
    rw [pad32_eq_bytes hlen]
    exact .slot hn

/-! ## States of one account -/

/-- A block with this state, at height 5. -/
def blockOnState (stateRoot : Hash) : VerifiedBlock where
  number := 5
  hash := default
  stateRoot := stateRoot
  miner := default
  milliTimestamp := 0
  gasLimit := 0
  header := none

theorem readable_slot {keccak256 : Bytes → Hash} {stateRoot : Hash} {w : World keccak256 stateRoot}
    {address : Address} {leaf : Account} {slot : Hash} {n : ℕ}
    (hleaf : w.accounts.accountAt keccak256 address = .ok leaf) (hcode : leaf.codeHash = emptyCodeHash)
    (hcaps : ∀ k, WithinProofCaps (w.accounts.proofFor keccak256 k))
    (hslotCaps : ∀ k, WithinProofCaps ((w.storage address).proofFor keccak256 k))
    (hn : (w.storage address).Holds keccak256 slot n) :
    w.Readable (.slot address slot) leaf where
  account := hleaf
  nodes := hcaps _
  slots s hs := ⟨n, by rwa [List.mem_singleton.mp hs]⟩
  slotNodes _ _ := hslotCaps _
  code := by
    rw [hcode, w.noCode]
    exact Nat.zero_le _

theorem absentWorld_readable (keccak256 : Bytes → Hash) (address : Address) :
    (absentWorld keccak256 address).Readable (.balance address) emptyAccount where
  account := accountAt_absentWorld keccak256 address
  nodes := loneAccounts_caps keccak256 _ _ _
  slots _ h := (List.not_mem_nil h).elim
  slotNodes _ h := (List.not_mem_nil h).elim
  code := Nat.zero_le _

/-- At the safe head the slot of an account that has one is read as the 7 it holds, and the balance
of an account that is not there is read from the proof of its absence. -/
theorem state_read_of_provider_slot : ∃ (stateRoot otherRoot : Hash)
    (w : World Types.keccak256 (blockOnState stateRoot).stateRoot)
    (w' : World Types.keccak256 (blockOnState otherRoot).stateRoot) (text : String),
    StateMethod.call Types.keccak256 .getStorageAt
        (some [.string (hexPrefixed (default : Address).val),
          .string (hexPrefixed (FixedBytes.repeated 32 0).val)])
        (.ok (5, ⟨5, "0x", "0x", 15, 15⟩)) [blockOnState stateRoot] w.upstream =
      .ok (hexPrefixed (BigEndian.bytes 32 7)) ∧
    StateMethod.call Types.keccak256 .getBalance (some [.string (hexPrefixed (default : Address).val)])
        (.ok (5, ⟨5, "0x", "0x", 15, 15⟩)) [blockOnState otherRoot] w'.upstream = .ok text ∧
      w'.accounts.accountAt Types.keccak256 default = .ok emptyAccount ∧
      w'.Says (.balance default) text := by
  obtain ⟨stateRoot, w, leaf, hleaf, -, hcode, hcaps, hslotCaps, hholds⟩ := exists_slotWorld default
  obtain ⟨slotText, hslot, hsays⟩ := state_read_of_provider .getStorageAt
    [.string (hexPrefixed (default : Address).val), .string (hexPrefixed (FixedBytes.repeated 32 0).val)]
    5 ⟨5, "0x", "0x", 15, 15⟩ [blockOnState stateRoot] (hexPrefixed (default : Address).val)
    (.slot default (.repeated 32 0)) (blockOnState stateRoot) w leaf
    ⟨rfl, StateMethod.query_eq_some.mpr ⟨default, decodeHexFixed_hexPrefixed default, _, _, rfl,
      parseSlot_hexPrefixed _, rfl⟩, none, rfl, rfl⟩
    (readable_slot hleaf hcode hcaps hslotCaps hholds)
  obtain ⟨text, hbalance, hsaid⟩ := state_read_of_provider .getBalance
    [.string (hexPrefixed (default : Address).val)] 5 ⟨5, "0x", "0x", 15, 15⟩ [blockOnState _]
    (hexPrefixed (default : Address).val) (.balance default) (blockOnState _)
    (absentWorld Types.keccak256 default) emptyAccount
    ⟨rfl, StateMethod.query_eq_some.mpr ⟨default, decodeHexFixed_hexPrefixed default, rfl⟩, none, rfl,
      rfl⟩
    (absentWorld_readable Types.keccak256 default)
  have htext : slotText = hexPrefixed (BigEndian.bytes 32 7) := hsays.unique (.slot hholds)
  exact ⟨stateRoot, _, w, _, text, htext ▸ hslot, hbalance, accountAt_absentWorld _ _, hsaid⟩

end HeliosBsc
