import HeliosBsc.Execution.CallAgree

/-!
# Calls on the state behind the root

The state that a header commits to: an account trie, a storage trie for each account and the code of
each code hash. A verified call ends as the EVM does on this state, whichever prover served it, or a
string that was served collides with one of the state.
-/

namespace HeliosBsc

open Checked

/-- The state behind a state root. -/
structure World (keccak256 : Bytes → Hash) (stateRoot : Hash) where
  accounts : KeyMap
  storage : Address → StorageTrie
  code : Hash → Bytes
  root : stateRoot = accounts.root keccak256
  storageRoot : ∀ address leaf, accounts.accountAt keccak256 address = .ok leaf →
    (storage address).HasRoot keccak256 leaf.storageRoot
  coded : ∀ address leaf, accounts.accountAt keccak256 address = .ok leaf →
    leaf.codeHash ≠ emptyCodeHash → keccak256 (code leaf.codeHash) = leaf.codeHash
  noCode : code emptyCodeHash = []

namespace World

section

variable {keccak256 : Bytes → Hash} {stateRoot : Hash}

/-- A byte string of the state: a code, or a node of one of its tries. -/
inductive Has (w : World keccak256 stateRoot) : Bytes → Prop where
  | code (hash : Hash) : w.Has (w.code hash)
  | account (address : Address) {x : Bytes}
      (h : x ∈ w.accounts.proofFor keccak256 (keccak256 address.val)) : w.Has x
  | storage (address : Address) (slot : Hash) {x : Bytes}
      (h : x ∈ (w.storage address).proofFor keccak256 (keccak256 slot.val)) : w.Has x

/-- A string that a load was served with collides with one of the state. -/
def Collides (w : World keccak256 stateRoot) (l : AcceptedLoad keccak256 stateRoot) : Prop :=
  ∃ x y, w.Has x ∧ y ∈ l.served ∧ x ≠ y ∧ keccak256 x = keccak256 y

variable {w : World keccak256 stateRoot} {l : AcceptedLoad keccak256 stateRoot}

theorem collides_of_collision {strings : List Bytes} (h : Collision keccak256 strings l.served)
    (hstrings : ∀ x ∈ strings, w.Has x) : w.Collides l := by
  obtain ⟨x, hx, y, hy, hne, heq⟩ := h
  exact ⟨x, y, hstrings x hx, hy, hne, heq⟩

/-- The account of a state, as the EVM is given it. -/
def infoOf (w : World keccak256 stateRoot) (leaf : Account) : AccountInfo :=
  ⟨pad32 (BigEndian.strip leaf.balance), leaf.nonce, leaf.codeHash, some (w.code leaf.codeHash)⟩

/-- What the reads of the EVM return in the state, at a block. -/
def Answers (w : World keccak256 stateRoot) (precompiles : SpecId → Address → Bool)
    (block : CallBlock) : (q : DbQuery) → q.Answer → Prop
  | .basic address, info =>
    match precompileKind precompiles address (evmSpecAt block.timestamp) with
    | .unsupported => False
    | .local_ => info = some .default
    | .account => ∃ leaf, w.accounts.accountAt keccak256 address = .ok leaf ∧
        info = some (w.infoOf leaf)
  | .codeByHash hash, code => code = w.code hash
  | .storage address slot, value =>
    (w.storage address).Holds keccak256 slot (BigEndian.value value.val)
  | .blockHash number, hash =>
    ((ProofDb.new .shanghai).seedBlockHashes block).blockHash number = .ok hash

/-! ## What a load says of the state -/

theorem account_of_load (hnot : ¬ w.Collides l) :
    ∃ leaf, w.accounts.accountAt keccak256 l.address = .ok leaf ∧ l.account = ⟨l.address,
      leaf.nonce, BigEndian.strip leaf.balance, leaf.storageRoot, leaf.codeHash⟩ := by
  refine (l.account_of_state w.root).resolve_right fun hcol => hnot ?_
  exact collides_of_collision hcol fun x hx => .account l.address hx

theorem code_of_load (hnot : ¬ w.Collides l) : l.code = w.code l.account.codeHash := by
  obtain ⟨leaf, hleaf, haccount⟩ := account_of_load hnot
  have hcode := verifyAccountCode_ok l.coded
  have hhash : l.account.codeHash = leaf.codeHash := by rw [haccount]
  rw [hhash] at hcode ⊢
  split_ifs at hcode with hempty
  · rw [hcode, hempty, w.noCode]
  · by_contra hne
    have hkeccak := w.coded l.address leaf hleaf hempty
    exact hnot ⟨_, l.code, .code leaf.codeHash, List.mem_cons_self, Ne.symm hne,
      hkeccak.trans hcode.symm⟩

theorem info_of_load (hnot : ¬ w.Collides l) :
    ∃ leaf, w.accounts.accountAt keccak256 l.address = .ok leaf ∧ l.info = w.infoOf leaf := by
  obtain ⟨leaf, hleaf, haccount⟩ := account_of_load hnot
  refine ⟨leaf, hleaf, ?_⟩
  rw [AcceptedLoad.info, code_of_load hnot, haccount, infoOf]

theorem storageRoot_of_load (hnot : ¬ w.Collides l) :
    (w.storage l.address).HasRoot keccak256 l.account.storageRoot := by
  obtain ⟨leaf, hleaf, haccount⟩ := account_of_load hnot
  rw [haccount]
  exact w.storageRoot l.address leaf hleaf

theorem holds_zero {T : StorageTrie} (h : T.HasRoot keccak256 emptyTrieRoot) (slot : Hash) :
    T.Holds keccak256 slot 0 := by
  cases T with
  | empty => rfl
  | ofMap M => exact absurd rfl h.2

theorem holds_of_load (hnot : ¬ w.Collides l) {slot value : U256} (h : l.ProvesSlot slot value) :
    (w.storage l.address).Holds keccak256 slot (BigEndian.value value.val) := by
  refine (AcceptedLoad.slot_of_storage (storageRoot_of_load hnot) h).resolve_right fun hcol => hnot ?_
  exact collides_of_collision hcol fun x hx => .storage l.address slot hx

/-! ## What a database says of the state -/

variable {loads : List (AcceptedLoad keccak256 stateRoot)} {db : ProofDb}
  {precompiles : SpecId → Address → Bool}

theorem value_zeros (n : ℕ) : BigEndian.value (List.replicate n (0 : UInt8)) = 0 := by
  induction n with
  | zero => rfl
  | succ n ih => rw [List.replicate_succ', BigEndian.value_concat, ih]; rfl

/-- What a loaded database answers holds in the state. -/
theorem answers_of_backed {block : CallBlock} {before : ProofDb}
    (hbacked : Backed loads (before.seedBlockHashes block)) (hnot : ∀ l ∈ loads, ¬ w.Collides l)
    (q : DbQuery) (a : q.Answer)
    (h : (before.seedBlockHashes block).answer precompiles q = .ok a) :
    w.Answers precompiles block q a := by
  cases q with
  | basic address =>
    have hread : (before.seedBlockHashes block).basic precompiles address = .ok a := h
    simp only [Answers]
    cases hkind : precompileKind precompiles address (evmSpecAt block.timestamp) with
    | account =>
      rcases hbacked.basic precompiles address hkind with ⟨l, hl, rfl, hbasic⟩ | ⟨-, hbasic⟩
      · obtain ⟨leaf, hleaf, hinfo⟩ := info_of_load (hnot l hl)
        rw [hread] at hbasic
        exact ⟨leaf, hleaf, by rw [Except.ok.inj hbasic, hinfo]⟩
      · rw [hread] at hbasic
        cases hbasic
    | local_ =>
      unfold ProofDb.basic at hread
      simp only [ProofDb.seedBlockHashes, hkind] at hread
      exact (Except.ok.inj hread).symm
    | unsupported =>
      unfold ProofDb.basic at hread
      simp only [ProofDb.seedBlockHashes, hkind] at hread
      cases hread
  | codeByHash hash =>
    have hread : (before.seedBlockHashes block).codeByHash hash = .ok a := h
    change a = w.code hash
    rcases hbacked.codeByHash hash with ⟨rfl, hcode⟩ | ⟨l, hl, rfl, -, hcode⟩ | ⟨-, hcode⟩
    · rw [hread] at hcode
      rw [Except.ok.inj hcode, w.noCode]
    · rw [hread] at hcode
      rw [Except.ok.inj hcode, code_of_load (hnot l hl)]
    · rw [hread] at hcode
      cases hcode
  | storage address slot =>
    have hread : (before.seedBlockHashes block).storage address slot = .ok a := h
    change (w.storage address).Holds keccak256 slot _
    rcases hbacked.storage address slot with
      ⟨l, hl, rfl, v, hv, hslot⟩ | ⟨l, hl, rfl, hempty, hslot⟩ | ⟨-, hslot⟩
    · rw [hread] at hslot
      rw [Except.ok.inj hslot]
      exact holds_of_load (hnot l hl) hv
    · have hroot := storageRoot_of_load (hnot l hl)
      rw [hempty] at hroot
      rw [hread] at hslot
      rw [Except.ok.inj hslot]
      have hzero : BigEndian.value (FixedBytes.repeated 32 0).val = 0 := value_zeros 32
      rw [hzero]
      exact holds_zero hroot slot
    · rw [hread] at hslot
      cases hslot
  | blockHash number =>
    have hread : (before.seedBlockHashes block).blockHash number = .ok a := h
    exact (blockHash_eq (sameSeed _ _ block) number).trans hread

theorem holds_value {T : StorageTrie} {slot : Hash} {n n' : ℕ} (h : T.Holds keccak256 slot n)
    (h' : T.Holds keccak256 slot n') : n = n' := by
  unfold StorageTrie.Holds at h h'
  split at h
  · next hget =>
    simp only [hget] at h'
    rw [h, h']
  · next raw hget =>
    simp only [hget] at h'
    obtain ⟨b, hb, -, hv⟩ := h
    obtain ⟨b', hb', -, hv'⟩ := h'
    cases hb.symm.trans hb'
    rw [hv, hv']

theorem holds_unique {T : StorageTrie} {slot v v' : U256}
    (h : T.Holds keccak256 slot (BigEndian.value v.val))
    (h' : T.Holds keccak256 slot (BigEndian.value v'.val)) : v = v' := by
  have hvalue := holds_value h h'
  apply FixedBytes.ext
  have hbytes := BigEndian.bytes_value (w := 32) v.len.le
  have hbytes' := BigEndian.bytes_value (w := 32) v'.len.le
  rw [v.len, Nat.sub_self] at hbytes
  rw [v'.len, Nat.sub_self] at hbytes'
  calc v.val = BigEndian.bytes 32 (BigEndian.value v.val) := hbytes.symm
    _ = BigEndian.bytes 32 (BigEndian.value v'.val) := by rw [hvalue]
    _ = v'.val := hbytes'

theorem Answers.unique {block : CallBlock} (q : DbQuery) (a a' : q.Answer)
    (h : w.Answers precompiles block q a) (h' : w.Answers precompiles block q a') : a = a' := by
  cases q with
  | basic address =>
    simp only [Answers] at h h'
    cases hkind : precompileKind precompiles address (evmSpecAt block.timestamp) with
    | account =>
      simp only [hkind] at h h'
      obtain ⟨leaf, hleaf, rfl⟩ := h
      obtain ⟨leaf', hleaf', rfl⟩ := h'
      cases hleaf.symm.trans hleaf'
      rfl
    | local_ =>
      simp only [hkind] at h h'
      exact h.trans h'.symm
    | unsupported =>
      simp only [hkind] at h
  | codeByHash hash => exact Eq.trans h (Eq.symm h')
  | storage address slot => exact holds_unique h h'
  | blockHash number => exact Except.ok.inj (h.symm.trans h')

end

end World

/-! ## The call -/

/-- The errors of a read: no proof of it, or a precompile that revm does not have. -/
def CallError.Unanswered (e : CallError) : Prop :=
  e.Lost ∨ ∃ address, e = .unsupportedPrecompile address

section

variable {keccak256 : Bytes → Hash} {spec : SpecId} {block : CallBlock}
  {precompiles : SpecId → Address → Bool}

theorem answer_failsOnly (db : ProofDb) (q : DbQuery) :
    FailsOnly CallError.Unanswered (db.answer precompiles q) := by
  intro e h
  cases q with
  | basic address =>
    change db.basic precompiles address = .error e at h
    unfold ProofDb.basic at h
    split at h
    · cases h
      exact .inr ⟨address, rfl⟩
    · cases h
    · split at h <;> cases h
      exact .inl trivial
  | codeByHash hash =>
    change db.codeByHash hash = .error e at h
    unfold ProofDb.codeByHash at h
    split at h
    · cases h
    · split at h <;> cases h
      exact .inl trivial
  | storage address slot =>
    change db.storage address slot = .error e at h
    unfold ProofDb.storage at h
    split at h
    · cases h
      exact .inl trivial
    · split at h
      · cases h
      · split at h <;> cases h
        exact .inl trivial
  | blockHash number =>
    change db.blockHash number = .error e at h
    unfold ProofDb.blockHash at h
    split at h
    · cases h
    · split at h <;> cases h
      exact .inl trivial

/-- What an attempt ends with on a state: the error of a read, or what the program yields there. -/
theorem attempt_on_state {ρ : Type} (up : ℕ → ProofUpstream) (program : ℕ → DbProgram ρ)
    (w : World keccak256 block.stateRoot) {db : ProofDb} {calls : List LoadCall}
    (h : Loaded keccak256 spec block db calls) (gas rounds : ℕ) :
    let c := transactCallProven keccak256 (fun n => (up n).prover) (evmOf precompiles program) db
      block gas rounds
    (∀ l ∈ LoadCall.loads keccak256 block (.new spec) (calls ++ c.calls), ¬ w.Collides l) →
      (∃ e, c.result = .error e ∧ e.Unanswered) ∨
        ∃ r, (program gas).Yields (w.Answers precompiles block) r ∧
          c.result = r.mapError EvmError.callError := by
  intro c hnot
  have hloaded : Loaded keccak256 spec block c.db (calls ++ c.calls) :=
    h.append (transactCallProven_run keccak256 (fun n => (up n).prover) _ db block gas rounds)
  rcases transactCallProven_end keccak256 up (evmOf precompiles program) db block gas rounds with
    ⟨e, he, hlost⟩ | ⟨hresult, before, hdb⟩
  · exact .inl ⟨e, hlost, .inl he⟩
  have hbacked := hloaded.backed
  rw [show c.db = _ from hdb] at hbacked
  rw [show (transactCallProven keccak256 (fun n => (up n).prover) (evmOf precompiles program) db
    block gas rounds).db = _ from hdb] at hresult
  unfold evmOf at hresult
  cases hrun : (program gas).run ((before.seedBlockHashes block).answer precompiles) with
  | error e =>
    have he := Asking.run_failsOnly (answer_failsOnly (before.seedBlockHashes block)) (program gas) e
      hrun
    rw [hrun] at hresult
    exact .inl ⟨e, hresult, he⟩
  | ok r =>
    rw [hrun] at hresult
    exact .inr ⟨r, Asking.yields_of_run (World.answers_of_backed hbacked hnot) hrun, hresult⟩

/-- On the state that the header commits to, a verified call that is neither refused nor without its
proofs ends as the EVM does there, with its output, revert or halt, whichever prover answered, or a
string that was served collides with one of the state. The EVM has one end there. -/
theorem eth_call_on_state (keccak256 : Bytes → Hash) (precompiles : SpecId → Address → Bool)
    (program : ℕ → DbProgram Executed) (spec : SpecId) (block : CallBlock) (tx : EthCallTx)
    (up : CallAnswers) (w : World keccak256 block.stateRoot) :
    let c := ethCallVerified keccak256 precompiles up (evmOf precompiles program) spec block tx
    let Ends := (program (callGas tx.toCallTx block)).Yields (w.Answers precompiles block)
    (∃ e, c.result = .error e ∧ (e.Unanswered ∨ e.IsInvalid)) ∨
      (∃ r, Ends r ∧ (∀ r', Ends r' → r' = r) ∧
        c.result = r.mapError EvmError.callError >>= executionOutput) ∨
      ∃ l ∈ c.loads keccak256 spec block, w.Collides l := by
  intro c Ends
  by_cases hcol : ∃ l ∈ c.loads keccak256 spec block, w.Collides l
  · exact .inr (.inr hcol)
  have hnot : ∀ l ∈ c.loads keccak256 spec block, ¬ w.Collides l :=
    fun l hl hl' => hcol ⟨l, hl, hl'⟩
  rcases verifiedRun_cases keccak256 spec block precompiles up tx (fun db =>
      let c := transactCallProven keccak256 (fun n => (up.round n).prover)
        (evmOf precompiles program) db block (callGas tx.toCallTx block) 0
      (c.result >>= executionOutput, c.calls)) with
    ⟨e, hc, hlost | ⟨hinvalid, -⟩⟩ | ⟨db, calls, h, hc⟩
  · exact .inl ⟨e, hc, .inl (.inl hlost)⟩
  · exact .inl ⟨e, hc, .inr hinvalid⟩
  · have hcall : c = _ := hc
    rw [VerifiedRun.loads, hcall] at hnot
    have hresult : c.result = (transactCallProven keccak256 (fun n => (up.round n).prover)
        (evmOf precompiles program) db block (callGas tx.toCallTx block) 0).result >>=
          executionOutput := congrArg VerifiedRun.result hc
    rcases attempt_on_state up.round program w h (callGas tx.toCallTx block) 0 hnot with
      ⟨e, he, hkind⟩ | ⟨r, hr, hend⟩
    · refine .inl ⟨e, ?_, .inl hkind⟩
      rw [hresult, he, error_bind]
    · refine .inr (.inl ⟨r, hr, fun r' hr' => hr'.unique World.Answers.unique hr, ?_⟩)
      rw [hresult, hend]

/-! ## The estimate -/

section

variable {prover : ℕ → Prover} {evm : Evm ExecutionResult} {tx : CallTx} {call : CallState}

/-- An attempt of a search: it was made on a database that part of the calls of the search had
loaded, and no read of it went without an answer. -/
def RunAnswered (keccak256 : Bytes → Hash) (spec : SpecId) (block : CallBlock) (prover : ℕ → Prover)
    (evm : Evm ExecutionResult) (all : List LoadCall) (a : Attempt) : Prop :=
  (∃ before after, Loaded keccak256 spec block a.call.db before ∧
    all = before ++ attemptCalls keccak256 prover evm block [a] ++ after) ∧
  ∀ e, a.outcome keccak256 prover evm block = .error e → ¬ e.Unanswered

theorem nextBounds_unanswered {lo hi mid : ℕ} {e : CallError} (h : e.Unanswered) :
    nextBounds lo hi mid (.error e) = .error e := by
  rcases h with hlost | ⟨address, rfl⟩
  · exact nextBounds_lost hlost
  · rfl

theorem RunAnswered.append {all : List LoadCall} {a : Attempt}
    (h : RunAnswered keccak256 spec block prover evm all a) (more : List LoadCall) :
    RunAnswered keccak256 spec block prover evm (all ++ more) a := by
  obtain ⟨⟨before, after, hloaded, rfl⟩, hout⟩ := h
  exact ⟨⟨before, after ++ more, hloaded, List.append_assoc _ _ _⟩, hout⟩

/-- In every state that a search reaches its database is behind its attempts, and all of them were
answered. -/
theorem answered_of_reached {calls : List LoadCall}
    (h : Loaded keccak256 spec block call.db calls) {s : EstimateState}
    (hs : s.Reached keccak256 prover evm block tx call) :
    Behind keccak256 spec block prover evm calls s ∧
      ∀ a ∈ s.runs, RunAnswered keccak256 spec block prover evm
        (calls ++ attemptCalls keccak256 prover evm block s.runs) a := by
  induction hs with
  | @start gasUsed hcap hout =>
    refine ⟨Behind.start h _ gasUsed, fun a ha => ?_⟩
    obtain rfl : a = ⟨call, callGas tx block⟩ := List.mem_singleton.mp ha
    refine ⟨⟨calls, [], h, (List.append_nil _).symm⟩, fun e he => ?_⟩
    rw [hout] at he
    cases he
  | @next s hs hopen hbody ih =>
    obtain ⟨hbehind, hruns⟩ := ih
    refine ⟨hbehind.body, fun a ha => ?_⟩
    have hnext := (body_rest keccak256 block prover evm s).2
    rw [hnext, attemptCalls_append, ← List.append_assoc]
    rw [hnext] at ha
    rcases List.mem_append.mp ha with ha | ha
    · exact (hruns a ha).append _
    · obtain rfl := List.mem_singleton.mp ha
      refine ⟨⟨_, [], hbehind, (List.append_nil _).symm⟩, fun e he hunanswered => ?_⟩
      obtain ⟨bounds, hbounds, -⟩ := EstimateState.body_eq_ok hbody
      rw [he, nextBounds_unanswered hunanswered] at hbounds
      cases hbounds

theorem exists_reached_of_search {g : ℕ}
    (hg : (estimateGasSearch keccak256 prover evm block tx call).result = .ok g) :
    ∃ last : EstimateState, last.Reached keccak256 prover evm block tx call ∧ g = last.hi ∧
      (estimateGasSearch keccak256 prover evm block tx call).runs = last.runs := by
  by_cases hlow : callGas tx block < txGas
  · simp only [estimateGasSearch, if_pos hlow] at hg
    cases hg
  · have hfirst := hg
    rw [search_result hlow, bind_eq_ok] at hfirst
    obtain ⟨executed, hout, hrest⟩ := hfirst
    cases executed with
    | revert output => cases hrest
    | halt reason => cases hrest
    | success gasUsed =>
      rw [search_of_success hlow hout]
      obtain ⟨last, hreached, -, hgas, hruns⟩ := EstimateState.exists_reached_of_loop
        (EstimateState.Reached.start (Nat.not_lt.mp hlow) hout) hrest
      exact ⟨last, hreached, hgas, hruns⟩

theorem executed_of_reached {s : EstimateState}
    (hs : s.Reached keccak256 prover evm block tx call) :
    s.hi ≤ callGas tx block ∧
      ∃ a ∈ s.runs, a.gas = s.hi ∧ a.Succeeds keccak256 prover evm block := by
  induction hs with
  | @start gasUsed hcap hout => exact ⟨le_rfl, _, List.mem_singleton_self _, rfl, gasUsed, hout⟩
  | @next s hs hopen hbody ih =>
    obtain ⟨hle, top, htop, hgas, hsucceeds⟩ := ih
    have hbelow : s.lo + 1 < s.hi :=
      (EstimateState.satAdd_one_lt_iff (hle.trans (callGas_le_cap tx block))).mp hopen.1
    obtain ⟨bounds, hbounds, hnext⟩ := EstimateState.body_eq_ok hbody
    rw [hnext]
    rcases nextBounds_eq_ok hbounds with ⟨used, hout, hhi, -⟩ | ⟨-, hsame⟩
    · have hmid : s.attempt.gas = s.lo + (s.hi - s.lo) / 2 := rfl
      refine ⟨?_, s.attempt, List.mem_append_right _ (List.mem_singleton_self _), hhi.symm, used,
        hout⟩
      change bounds.2 ≤ _
      omega
    · refine ⟨?_, top, List.mem_append_left _ htop, ?_, hsucceeds⟩
      · change bounds.2 ≤ _
        rwa [hsame]
      · change _ = bounds.2
        rw [hgas, hsame]

end

/-- On the state that the header commits to, the gas that a verified estimate returns is within the
budget of the call and the EVM succeeds there at this gas, whichever prover answered, or a string
that was served collides with one of the state. -/
theorem estimate_gas_on_state (keccak256 : Bytes → Hash) (precompiles : SpecId → Address → Bool)
    (program : ℕ → DbProgram ExecutionResult) (spec : SpecId) (block : CallBlock) (tx : EthCallTx)
    (up : CallAnswers) (w : World keccak256 block.stateRoot) :
    let c := ethEstimateGasVerified keccak256 precompiles up (evmOf precompiles program) spec block tx
    (∃ e, c.result = .error e) ∨
      (∃ gas used, c.result = .ok gas ∧ gas ≤ callGas tx.toCallTx block ∧
        (program gas).Yields (w.Answers precompiles block) (.ok (.success used)) ∧
        ∀ r, (program gas).Yields (w.Answers precompiles block) r → r = .ok (.success used)) ∨
      ∃ l ∈ c.loads keccak256 spec block, w.Collides l := by
  intro c
  cases hresult : c.result with
  | error e => exact .inl ⟨e, rfl⟩
  | ok gas =>
    right
    by_cases hcol : ∃ l ∈ c.loads keccak256 spec block, w.Collides l
    · exact .inr hcol
    left
    have hnot : ∀ l ∈ c.loads keccak256 spec block, ¬ w.Collides l :=
      fun l hl hl' => hcol ⟨l, hl, hl'⟩
    rcases verifiedRun_cases keccak256 spec block precompiles up tx (fun db =>
        let prover := fun n => (up.round n).prover
        let search := estimateGasSearch keccak256 prover (evmOf precompiles program) block
          tx.toCallTx ⟨db, 0⟩
        (search.result,
          attemptCalls keccak256 prover (evmOf precompiles program) block search.runs)) with
      ⟨e, hc, -⟩ | ⟨db, calls, h, hc⟩
    · cases hresult.symm.trans hc
    · have hsearch : (estimateGasSearch keccak256 (fun n => (up.round n).prover)
          (evmOf precompiles program) block tx.toCallTx ⟨db, 0⟩).result = .ok gas :=
        (congrArg VerifiedRun.result hc).symm.trans hresult
      have hcalls : c.calls = calls ++ attemptCalls keccak256 (fun n => (up.round n).prover)
          (evmOf precompiles program) block (estimateGasSearch keccak256
            (fun n => (up.round n).prover) (evmOf precompiles program) block tx.toCallTx
            ⟨db, 0⟩).runs := congrArg VerifiedRun.calls hc
      obtain ⟨last, hreached, rfl, hruns⟩ := exists_reached_of_search hsearch
      obtain ⟨hcap, a, ha, hgas, used, hout⟩ := executed_of_reached hreached
      obtain ⟨⟨before, after, hloaded, hall⟩, hanswered⟩ :=
        (answered_of_reached h hreached).2 a ha
      rw [hruns, hall, attemptCalls_singleton] at hcalls
      have hpart : ∀ l ∈ LoadCall.loads keccak256 block (.new spec) (before ++
          CallState.made keccak256 (fun n => (up.round n).prover) block a.call
            (evmOf precompiles program, a.gas)), ¬ w.Collides l := by
        intro l hl
        refine hnot l ?_
        rw [VerifiedRun.loads, hcalls]
        exact loads_subset _ after hl
      rcases attempt_on_state up.round program w hloaded a.gas a.call.rounds hpart with
        ⟨e, he, hkind⟩ | ⟨r, hr, hend⟩
      · exact absurd hkind (hanswered e he)
      · have hr' : r = .ok (.success used) :=
          mapError_eq_ok.mp (hend.symm.trans hout)
        rw [hr', hgas] at hr
        exact ⟨last.hi, used, rfl, hcap, hr, fun r' hr' => hr'.unique World.Answers.unique hr⟩

end

end HeliosBsc
