import HeliosBsc.Execution.VerifiedCall

/-!
# Calls do not depend on the prover

Two provers may answer every fetch of a call differently. Whatever the two databases then answer is
alike: equal, unless one of them has no proof of it. So two verified calls at one block end alike, or
two byte strings that the provers served have one hash.
-/

namespace HeliosBsc

open Checked

/-- The errors that say nothing about the call: no proof was served, a proof failed, or a cap was
reached. -/
def CallError.Lost : CallError → Prop
  | missing _ | proof _ | budget => True
  | invalid reason => reason = "code too large"
  | _ => False

theorem lost_missing (miss : Miss) : CallError.Lost (.missing miss) := trivial

theorem lost_budget : CallError.Lost .budget := trivial

theorem lost_codeTooLarge : CallError.Lost (.invalid "code too large") := rfl

theorem failsOnly_proof {α : Type} (a : Except ProofError α) :
    FailsOnly CallError.Lost (a.mapError CallError.proof) := .mapError fun _ => trivial

/-! ## Databases of one block -/

section

variable {keccak256 : Bytes → Hash} {stateRoot : Hash}
  {loads loads' : List (AcceptedLoad keccak256 stateRoot)} {db db' : ProofDb}

/-- What does not come from the loads is the same in both databases. -/
structure SameSeed (db db' : ProofDb) : Prop where
  spec : db.spec = db'.spec
  blockNumber : db.blockNumber = db'.blockNumber
  blockHashes : db.blockHashes = db'.blockHashes

theorem sameSeed (db db' : ProofDb) (block : CallBlock) :
    SameSeed (db.seedBlockHashes block) (db'.seedBlockHashes block) := ⟨rfl, rfl, rfl⟩

/-- Every load of the one agrees with every load of the other. -/
def AllAgree (loads loads' : List (AcceptedLoad keccak256 stateRoot)) : Prop :=
  ∀ l ∈ loads, ∀ l' ∈ loads', l.Agree l'

/-- All loads agree, or strings that two of them served collide. -/
theorem allAgree_or_collision (loads loads' : List (AcceptedLoad keccak256 stateRoot)) :
    AllAgree loads loads' ∨
      ∃ l ∈ loads, ∃ l' ∈ loads', Collision keccak256 l.served l'.served := by
  by_cases hcol : ∃ l ∈ loads, ∃ l' ∈ loads', Collision keccak256 l.served l'.served
  · exact .inr hcol
  · left
    intro l hl l' hl'
    exact (l.agree_or_collision l').resolve_right fun h => hcol ⟨l, hl, l', hl', h⟩

theorem AllAgree.mono {more more' : List (AcceptedLoad keccak256 stateRoot)}
    (h : AllAgree more more') (hsub : loads ⊆ more) (hsub' : loads' ⊆ more') :
    AllAgree loads loads' := fun l hl l' hl' => h l (hsub hl) l' (hsub' hl')

theorem AcceptedLoad.Agree.info {l l' : AcceptedLoad keccak256 stateRoot} (h : l.Agree l')
    (haddr : l.address = l'.address) : l.info = l'.info := by
  have haccount := h.account haddr
  have hcode := h.code (congrArg VerifiedAccount.codeHash haccount)
  rw [AcceptedLoad.info, AcceptedLoad.info, haccount, hcode]

theorem basic_alike (h : Backed loads db) (h' : Backed loads' db') (hseed : SameSeed db db')
    (hagree : AllAgree loads loads') (precompiles : SpecId → Address → Bool) (a : Address) :
    Alike CallError.Lost (db.basic precompiles a) (db'.basic precompiles a) := by
  cases hkind : precompileKind precompiles a db.spec with
  | account =>
    have hkind' : precompileKind precompiles a db'.spec = .account := by rwa [← hseed.spec]
    rcases h.basic precompiles a hkind with ⟨l, hl, haddr, hread⟩ | ⟨-, hread⟩
    · rcases h'.basic precompiles a hkind' with ⟨l', hl', haddr', hread'⟩ | ⟨-, hread'⟩
      · left
        rw [hread, hread', (hagree l hl l' hl').info (haddr.trans haddr'.symm)]
      · rw [hread']
        exact (Alike.of_lost (lost_missing _) _).symm
    · rw [hread]
      exact .of_lost (lost_missing _) _
  | local_ | unsupported =>
    left
    unfold ProofDb.basic
    rw [← hseed.spec]
    simp only [hkind]

theorem codeByHash_alike (h : Backed loads db) (h' : Backed loads' db')
    (hagree : AllAgree loads loads') (hash : Hash) :
    Alike CallError.Lost (db.codeByHash hash) (db'.codeByHash hash) := by
  rcases h.codeByHash hash with ⟨rfl, hread⟩ | ⟨l, hl, hhash, -, hread⟩ | ⟨-, hread⟩
  · left
    rw [hread, ProofDb.codeByHash, if_pos rfl]
  · rcases h'.codeByHash hash with ⟨rfl, -⟩ | ⟨l', hl', hhash', -, hread'⟩ | ⟨-, hread'⟩
    · left
      rw [ProofDb.codeByHash, ProofDb.codeByHash, if_pos rfl, if_pos rfl]
    · left
      rw [hread, hread', (hagree l hl l' hl').code (hhash.trans hhash'.symm)]
    · rw [hread']
      exact (Alike.of_lost (lost_missing _) _).symm
  · rw [hread]
    exact .of_lost (lost_missing _) _

theorem storage_alike (h : Backed loads db) (h' : Backed loads' db')
    (hagree : AllAgree loads loads') (a : Address) (slot : U256) :
    Alike CallError.Lost (db.storage a slot) (db'.storage a slot) := by
  rcases h.storage a slot with
    ⟨l, hl, haddr, v, hv, hread⟩ | ⟨l, hl, haddr, hempty, hread⟩ | ⟨-, hread⟩
  · rcases h'.storage a slot with
      ⟨l', hl', haddr', v', hv', hread'⟩ | ⟨l', hl', haddr', hempty, -⟩ | ⟨-, hread'⟩
    · left
      rw [hread, hread', (hagree l hl l' hl').slot (haddr.trans haddr'.symm) slot v v' hv hv']
    · -- a slot is proved under a root that is not empty
      rw [(hagree l hl l' hl').account (haddr.trans haddr'.symm) |>.symm] at hempty
      exact absurd hempty hv.1
    · rw [hread']
      exact (Alike.of_lost (lost_missing _) _).symm
  · rcases h'.storage a slot with
      ⟨l', hl', haddr', v', hv', -⟩ | ⟨l', hl', haddr', -, hread'⟩ | ⟨-, hread'⟩
    · rw [(hagree l hl l' hl').account (haddr.trans haddr'.symm)] at hempty
      exact absurd hempty hv'.1
    · left
      rw [hread, hread']
    · rw [hread']
      exact (Alike.of_lost (lost_missing _) _).symm
  · rw [hread]
    exact .of_lost (lost_missing _) _

theorem blockHash_eq (hseed : SameSeed db db') (number : ℕ) :
    db.blockHash number = db'.blockHash number := by
  rw [ProofDb.blockHash, ProofDb.blockHash, hseed.blockNumber, hseed.blockHashes]

/-- Every read of two databases of one block is alike. -/
theorem answer_alike (h : Backed loads db) (h' : Backed loads' db') (hseed : SameSeed db db')
    (hagree : AllAgree loads loads') (precompiles : SpecId → Address → Bool) (q : DbQuery) :
    Alike CallError.Lost (db.answer precompiles q) (db'.answer precompiles q) := by
  cases q with
  | basic address => exact basic_alike h h' hseed hagree precompiles address
  | codeByHash hash => exact codeByHash_alike h h' hagree hash
  | storage address slot => exact storage_alike h h' hagree address slot
  | blockHash number =>
    left
    exact blockHash_eq hseed number

theorem evmOf_alike {ρ : Type} (h : Backed loads db) (h' : Backed loads' db')
    (hseed : SameSeed db db') (hagree : AllAgree loads loads')
    (precompiles : SpecId → Address → Bool) (program : ℕ → DbProgram ρ) (gas : ℕ) :
    Alike CallError.Lost ((evmOf precompiles program db gas).mapError EvmError.callError)
      ((evmOf precompiles program db' gas).mapError EvmError.callError) := by
  have hrun := (program gas).run_alike (answer_alike h h' hseed hagree precompiles)
  unfold evmOf
  rcases hrun with heq | ⟨e, he, herror | herror⟩
  · left
    rw [heq]
  · rw [herror]
    exact .of_lost he _
  · rw [herror]
    exact (Alike.of_lost he _).symm

end

/-! ## Fetches -/

section

variable (keccak256 : Bytes → Hash)

theorem loadSlot_failsOnly (verified : VerifiedAccount) (proof : EthAccountProof)
    (storage : SlotMap) (entry : StorageProofEntry) :
    FailsOnly CallError.Lost (loadSlot keccak256 verified proof storage entry) := by
  unfold loadSlot
  apply FailsOnly.bind (failsOnly_proof _)
  intro key
  apply FailsOnly.bind (failsOnly_proof _)
  intro val
  apply FailsOnly.bind (.require lost_budget)
  intro u
  exact .ok _

theorem checkLoad_failsOnly (db : ProofDb) (stateRoot : Hash) (address : Address)
    (proof : EthAccountProof) (code : Bytes) :
    FailsOnly CallError.Lost (checkLoad keccak256 db stateRoot address proof code) := by
  unfold checkLoad
  apply FailsOnly.bind (.require lost_codeTooLarge)
  intro u
  apply FailsOnly.bind (failsOnly_proof _)
  intro verified
  apply FailsOnly.bind (failsOnly_proof _)
  intro u
  apply FailsOnly.bind (.require lost_budget)
  intro u
  refine FailsOnly.bind ?_ fun _ => .ok _
  unfold loadSlots
  split
  · exact .foldlM (loadSlot_failsOnly keccak256 verified proof) _ _
  · exact .ok _

theorem fetchAnswer_failsOnly (up : ProofUpstream) (block : CallBlock) (address : Address)
    (slots : List Hash) :
    FailsOnly CallError.Lost (fetchAnswer keccak256 up.prover block address slots) := by
  unfold fetchAnswer
  apply FailsOnly.bind (.require lost_budget)
  intro u
  apply FailsOnly.bind (failsOnly_proof _)
  intro proof
  apply FailsOnly.bind (failsOnly_proof _)
  intro verified
  split
  · exact .ok _
  · refine FailsOnly.bind ?_ fun _ => .ok _
    simp only [ProofUpstream.prover]
    split
    · exact .ok _
    · exact failsOnly_proof _

/-- A fetch that fails says nothing about the call. -/
theorem fetchAndLoad_failsOnly (up : ProofUpstream) (db : ProofDb) (block : CallBlock)
    (address : Address) (slots : List Hash) :
    FailsOnly CallError.Lost (fetchAndLoad keccak256 up.prover db block address slots).1 := by
  intro e h
  unfold fetchAndLoad at h
  cases hanswer : fetchAnswer keccak256 up.prover block address slots with
  | error e' =>
    simp only [hanswer, Except.error.injEq] at h
    exact h ▸ fetchAnswer_failsOnly keccak256 up block address slots e' hanswer
  | ok answer =>
    simp only [hanswer, loadProvenAccount] at h
    cases hcheck : checkLoad keccak256 db block.stateRoot address answer.1 answer.2 with
    | error e' =>
      simp only [hcheck, Except.error.injEq] at h
      exact h ▸ checkLoad_failsOnly keccak256 db block.stateRoot address answer.1 answer.2 e' hcheck
    | ok found =>
      simp only [hcheck] at h
      cases h

/-- An attempt is lost, or ends with what the EVM returns on the database that it leaves. -/
theorem transactCallProven_end {ρ : Type} (up : ℕ → ProofUpstream) (evm : Evm ρ) (db : ProofDb)
    (block : CallBlock) (gas rounds : ℕ) :
    let c := transactCallProven keccak256 (fun n => (up n).prover) evm db block gas rounds
    (∃ e, CallError.Lost e ∧ c.result = .error e) ∨
      c.result = (evm c.db gas).mapError EvmError.callError ∧
        ∃ before, c.db = ProofDb.seedBlockHashes before block := by
  intro c
  fun_induction transactCallProven keccak256 (fun n => (up n).prover) evm db block gas rounds with
  | case1 db rounds res db' hrun =>
    obtain ⟨hout, rfl⟩ := Prod.mk.inj hrun
    exact .inr ⟨hout.symm, db, rfl⟩
  | case2 db rounds miss db' hrun hrequest => exact .inl ⟨_, lost_missing miss, rfl⟩
  | case3 => exact .inl ⟨.budget, lost_budget, rfl⟩
  | case4 db rounds miss db' hrun address slots hrequest hrounds e db'' hload =>
    have hlost := fetchAndLoad_failsOnly keccak256 (up rounds) db' block address slots
    exact .inl ⟨e, hlost e (by rw [hload]), rfl⟩
  | case5 db rounds miss db' hrun address slots hrequest hrounds u db'' hload hproven ih => exact ih
  | case6 db rounds miss => exact .inl ⟨_, lost_missing miss, rfl⟩
  | case7 db rounds e db' hnot hrun =>
    obtain ⟨hout, rfl⟩ := Prod.mk.inj hrun
    exact .inr ⟨hout.symm, db, rfl⟩

end

/-! ## Runs on a new database -/

section

variable {keccak256 : Bytes → Hash} {spec : SpecId} {block : CallBlock}

theorem loads_subset (calls more : List LoadCall) :
    LoadCall.loads keccak256 block (.new spec) calls ⊆
      LoadCall.loads keccak256 block (.new spec) (calls ++ more) := by
  unfold LoadCall.loads
  rw [Machine.history_append]
  exact List.subset_append_left _ _

/-- The database that some calls have loaded at a block. -/
def Loaded (keccak256 : Bytes → Hash) (spec : SpecId) (block : CallBlock) (db : ProofDb)
    (calls : List LoadCall) : Prop :=
  db = LoadCall.run keccak256 block (.new spec) calls

theorem Loaded.append {db db' : ProofDb} {calls more : List LoadCall}
    (h : Loaded keccak256 spec block db calls) (hmore : db' = LoadCall.run keccak256 block db more) :
    Loaded keccak256 spec block db' (calls ++ more) := by
  unfold Loaded at *
  rw [hmore, h]
  exact (Machine.run_append _ _ _).symm

theorem Loaded.backed {db : ProofDb} {calls : List LoadCall}
    (h : Loaded keccak256 spec block db calls) :
    Backed (LoadCall.loads keccak256 block (.new spec) calls) db := by
  rw [show db = _ from h]
  exact backed_run block spec calls

/-- The loads of two sequences of calls agree. -/
def CallsAgree (keccak256 : Bytes → Hash) (spec : SpecId) (block : CallBlock)
    (calls calls' : List LoadCall) : Prop :=
  AllAgree (LoadCall.loads keccak256 block (.new spec) calls)
    (LoadCall.loads keccak256 block (.new spec) calls')

theorem CallsAgree.left {calls calls' more more' : List LoadCall}
    (h : CallsAgree keccak256 spec block (calls ++ more) (calls' ++ more')) :
    CallsAgree keccak256 spec block calls calls' :=
  AllAgree.mono h (loads_subset calls more) (loads_subset calls' more')

section

variable {precompiles : SpecId → Address → Bool} {up up' : ℕ → ProofUpstream} {db db' : ProofDb}
  {calls calls' : List LoadCall}

variable (precompiles) in
/-- Two attempts at one gas are alike, whatever was loaded before them. -/
theorem attempt_alike {ρ : Type} (program : ℕ → DbProgram ρ) (gas rounds rounds' : ℕ)
    (h : Loaded keccak256 spec block db calls) (h' : Loaded keccak256 spec block db' calls') :
    let evm := evmOf precompiles program
    let c := transactCallProven keccak256 (fun n => (up n).prover) evm db block gas rounds
    let c' := transactCallProven keccak256 (fun n => (up' n).prover) evm db' block gas rounds'
    CallsAgree keccak256 spec block (calls ++ c.calls) (calls' ++ c'.calls) →
      Alike CallError.Lost c.result c'.result := by
  intro evm c c' hagree
  have hloaded := h.append
    (transactCallProven_run keccak256 (fun n => (up n).prover) evm db block gas rounds)
  have hloaded' := h'.append
    (transactCallProven_run keccak256 (fun n => (up' n).prover) evm db' block gas rounds')
  rcases transactCallProven_end keccak256 up evm db block gas rounds with
    ⟨e, he, hlost⟩ | ⟨hresult, before, hdb⟩
  · rw [show c.result = .error e from hlost]
    exact .of_lost he _
  rcases transactCallProven_end keccak256 up' evm db' block gas rounds' with
    ⟨e, he, hlost⟩ | ⟨hresult', before', hdb'⟩
  · rw [show c'.result = .error e from hlost]
    exact (Alike.of_lost he _).symm
  have hseed : SameSeed c.db c'.db := by
    rw [show c.db = _ from hdb, show c'.db = _ from hdb']
    exact sameSeed before before' block
  rw [show c.result = _ from hresult, show c'.result = _ from hresult']
  exact evmOf_alike hloaded.backed hloaded'.backed hseed hagree precompiles program gas

/-! ### The seeding -/

variable (keccak256 block) in
theorem fetchEach_run (prover : ℕ → Prover) (db : ProofDb) (n : ℕ)
    (requests : List (Address × List Hash)) :
    let r := fetchEach keccak256 prover block db n requests
    r.2.1 = LoadCall.run keccak256 block db r.2.2 := by
  induction requests generalizing db n with
  | nil => rfl
  | cons request rest ih =>
    obtain ⟨address, slots⟩ := request
    intro r
    simp only [r, fetchEach]
    rcases hload : fetchAndLoad keccak256 (prover n) db block address slots with ⟨e | u, next⟩
    · simp [LoadCall.run, LoadCall.step, hload]
    · have hrest := ih next (n + 1)
      simp only at hrest
      rw [hrest]
      simp [LoadCall.run, LoadCall.step, hload]

variable (keccak256 block) in
theorem fetchEach_failsOnly (up : ℕ → ProofUpstream) (db : ProofDb) (n : ℕ)
    (requests : List (Address × List Hash)) :
    FailsOnly CallError.Lost
      (fetchEach keccak256 (fun n => (up n).prover) block db n requests).1 := by
  induction requests generalizing db n with
  | nil => exact .ok _
  | cons request rest ih =>
    obtain ⟨address, slots⟩ := request
    rw [fetchEach]
    have hfetch := fetchAndLoad_failsOnly keccak256 (up n) db block address slots
    rcases hload : fetchAndLoad keccak256 (up n).prover db block address slots with ⟨e | u, next⟩
    · rw [hload] at hfetch
      exact hfetch
    · exact ih next (n + 1)

def CallError.IsInvalid (e : CallError) : Prop := ∃ reason, e = .invalid reason

theorem isInvalid (reason : String) : CallError.IsInvalid (.invalid reason) := ⟨reason, rfl⟩

theorem accessListWithinCaps_failsOnly (tx : EthCallTx) :
    FailsOnly CallError.IsInvalid (accessListWithinCaps tx) := by
  have hkeys : ∀ entries totalKeys, FailsOnly CallError.IsInvalid
      (accessListKeys totalKeys entries) := by
    intro entries
    induction entries with
    | nil => exact fun _ => .ok _
    | cons entry rest ih =>
      intro totalKeys
      apply FailsOnly.bind (.require (isInvalid _))
      intro u
      apply FailsOnly.bind (.require (isInvalid _))
      intro u
      exact ih _
  exact FailsOnly.bind (.require (isInvalid _)) fun _ => hkeys _ _

variable (keccak256 spec block precompiles) in
/-- A call that seeds is refused before its run, by checks of its own or by a fetch that is lost, or
it runs on what was loaded. -/
theorem verifiedRun_cases {α : Type} (up : CallAnswers) (tx : EthCallTx)
    (run : ProofDb → Except CallError α × List LoadCall) :
    let c := verifiedRun keccak256 precompiles up spec block tx run
    (∃ e, c.result = .error e ∧ (e.Lost ∨ e.IsInvalid ∧
      ∀ up' run', (verifiedRun (α := α) keccak256 precompiles up' spec block tx run').result =
        .error e)) ∨
    ∃ db calls, Loaded keccak256 spec block db calls ∧ c = ⟨(run db).1, calls ++ (run db).2⟩ := by
  intro c
  by_cases hdata : maxCallData < tx.data.length
  · left
    have hrefused : ∀ up' run', (verifiedRun (α := α) keccak256 precompiles up' spec block tx
        run').result = .error (.invalid "calldata too large") := by
      intro up' run'
      simp only [verifiedRun, if_pos hdata]
    exact ⟨_, hrefused up run, .inr ⟨isInvalid _, hrefused⟩⟩
  · cases hcaps : accessListWithinCaps tx with
    | error e =>
      left
      have hrefused : ∀ up' run', (verifiedRun (α := α) keccak256 precompiles up' spec block tx
          run').result = .error e := by
        intro up' run'
        simp only [verifiedRun, if_neg hdata, seedCallAccounts, hcaps]
      exact ⟨e, hrefused up run, .inr ⟨accessListWithinCaps_failsOnly tx e hcaps, hrefused⟩⟩
    | ok u =>
      have hseed := fetchEach_run keccak256 block (fun n => (up.seed n).prover)
        ((ProofDb.new spec).seedBlockHashes block) 0 (seedRequests precompiles block tx)
      have hfails := fetchEach_failsOnly keccak256 block up.seed
        ((ProofDb.new spec).seedBlockHashes block) 0 (seedRequests precompiles block tx)
      rcases hfetch : fetchEach keccak256 (fun n => (up.seed n).prover) block
          ((ProofDb.new spec).seedBlockHashes block) 0 (seedRequests precompiles block tx) with
        ⟨e | u', db, calls⟩
      · left
        rw [hfetch] at hfails
        refine ⟨e, ?_, .inl (hfails e rfl)⟩
        simp only [c, verifiedRun, if_neg hdata, seedCallAccounts, hcaps, hfetch]
      · right
        rw [hfetch] at hseed
        refine ⟨db, .seed :: calls, hseed, ?_⟩
        simp only [c, verifiedRun, if_neg hdata, seedCallAccounts, hcaps, hfetch]

theorem verifiedRun_alike {α : Type} (up up' : CallAnswers) (tx : EthCallTx)
    {run run' : ProofDb → Except CallError α × List LoadCall}
    (hrun : ∀ db db' calls calls', Loaded keccak256 spec block db calls →
      Loaded keccak256 spec block db' calls' →
      CallsAgree keccak256 spec block (calls ++ (run db).2) (calls' ++ (run' db').2) →
      Alike CallError.Lost (run db).1 (run' db').1) :
    let c := verifiedRun keccak256 precompiles up spec block tx run
    let c' := verifiedRun keccak256 precompiles up' spec block tx run'
    CallsAgree keccak256 spec block c.calls c'.calls → Alike CallError.Lost c.result c'.result := by
  intro c c' hagree
  rcases verifiedRun_cases keccak256 spec block precompiles up tx run with
    ⟨e, hc, hlost | ⟨-, hboth⟩⟩ | ⟨db, calls, h, hc⟩
  · rw [show c.result = .error e from hc]
    exact .of_lost hlost _
  · left
    rw [show c.result = .error e from hc, show c'.result = .error e from hboth up' run']
  rcases verifiedRun_cases keccak256 spec block precompiles up' tx run' with
    ⟨e, hc', hlost | ⟨-, hboth⟩⟩ | ⟨db', calls', h', hc'⟩
  · rw [show c'.result = .error e from hc']
    exact (Alike.of_lost hlost _).symm
  · left
    rw [show c'.result = .error e from hc', show c.result = .error e from hboth up run]
  · rw [show c = _ from hc, show c' = _ from hc'] at hagree ⊢
    exact hrun db db' calls calls' h h' hagree

end

/-- Two verified calls of one transaction at one block, with any provers: they end alike, equal
unless one of them found no proof or reached a cap, or byte strings that were served to them
collide. -/
theorem eth_call_agrees (keccak256 : Bytes → Hash) (precompiles : SpecId → Address → Bool)
    (program : ℕ → DbProgram Executed) (spec : SpecId) (block : CallBlock) (tx : EthCallTx)
    (up up' : CallAnswers) :
    let evm := evmOf precompiles program
    let c := ethCallVerified keccak256 precompiles up evm spec block tx
    let c' := ethCallVerified keccak256 precompiles up' evm spec block tx
    Alike CallError.Lost c.result c'.result ∨
      ∃ l ∈ c.loads keccak256 spec block, ∃ l' ∈ c'.loads keccak256 spec block,
        Collision keccak256 l.served l'.served := by
  intro evm c c'
  refine (allAgree_or_collision _ _).imp_left fun hagree => ?_
  refine verifiedRun_alike up up' tx (fun db db' calls calls' h h' hall => ?_) hagree
  have hattempt := attempt_alike precompiles program (callGas tx.toCallTx block) 0 0 h h' hall
  exact hattempt.bind fun executed _ _ => .refl _

/-! ## Gas estimates -/

theorem nextBounds_lost {lo hi mid : ℕ} {e : CallError} (h : e.Lost) :
    nextBounds lo hi mid (.error e) = .error e := by
  cases e with
  | invalid reason =>
    obtain rfl : reason = "code too large" := h
    rfl
  | halt reason => exact h.elim
  | missing | proof | budget | revert | unsupportedPrecompile => rfl

theorem nextBounds_alike {a b : Except CallError ExecutionResult} (h : Alike CallError.Lost a b)
    (lo hi mid : ℕ) : Alike CallError.Lost (nextBounds lo hi mid a) (nextBounds lo hi mid b) := by
  rcases h with rfl | ⟨e, he, rfl | rfl⟩
  · exact .refl _
  · rw [nextBounds_lost he]
    exact .of_lost he _
  · rw [nextBounds_lost he]
    exact (Alike.of_lost he _).symm

section

variable {prover : ℕ → Prover} {evm : Evm ExecutionResult} {calls : List LoadCall}

/-- The database of a search is the one that its attempts have loaded. -/
def Behind (keccak256 : Bytes → Hash) (spec : SpecId) (block : CallBlock) (prover : ℕ → Prover)
    (evm : Evm ExecutionResult) (calls : List LoadCall) (s : EstimateState) : Prop :=
  Loaded keccak256 spec block s.call.db (calls ++ attemptCalls keccak256 prover evm block s.runs)

theorem attemptCalls_append (runs more : List Attempt) :
    attemptCalls keccak256 prover evm block (runs ++ more) =
      attemptCalls keccak256 prover evm block runs ++
        attemptCalls keccak256 prover evm block more := List.flatMap_append

theorem attemptCalls_singleton (a : Attempt) : attemptCalls keccak256 prover evm block [a] =
    CallState.made keccak256 prover block a.call (evm, a.gas) := List.append_nil _

variable (keccak256 prover evm block) in
theorem body_rest (s : EstimateState) :
    (s.body keccak256 prover evm block).2.call = s.attempt.after keccak256 prover evm block ∧
      (s.body keccak256 prover evm block).2.runs = s.runs ++ [s.attempt] := by
  unfold EstimateState.body
  simp only
  split <;> exact ⟨rfl, rfl⟩

theorem body_fst (s : EstimateState) : (s.body keccak256 prover evm block).1 =
    nextBounds s.lo s.hi s.attempt.gas (s.attempt.outcome keccak256 prover evm block) >>=
      fun _ => .ok () := by
  unfold EstimateState.body
  simp only
  split
  · next hb => rw [hb, error_bind]
  · next hb => rw [hb, ok_bind]

theorem Loaded.attempt {a : Attempt} (h : Loaded keccak256 spec block a.call.db calls) :
    Loaded keccak256 spec block (a.after keccak256 prover evm block).db
      (calls ++ attemptCalls keccak256 prover evm block [a]) := by
  rw [attemptCalls_singleton]
  exact h.append
    (transactCallProven_run keccak256 prover evm a.call.db block a.gas a.call.rounds)

theorem Behind.body {s : EstimateState} (h : Behind keccak256 spec block prover evm calls s) :
    Behind keccak256 spec block prover evm calls (s.body keccak256 prover evm block).2 := by
  obtain ⟨hcall, hruns⟩ := body_rest keccak256 block prover evm s
  unfold Behind
  rw [hcall, hruns, attemptCalls_append, ← List.append_assoc]
  exact Loaded.attempt h

/-! ### The loop -/

theorem loop_of_error {s : EstimateState} (hopen : s.Open) {e : CallError}
    (h : (s.body keccak256 prover evm block).1 = .error e) :
    s.loop keccak256 prover evm block = ⟨.error e, (s.body keccak256 prover evm block).2.call,
      (s.body keccak256 prover evm block).2.runs⟩ := by
  rw [EstimateState.loop, dif_pos hopen]
  simp only [h]

theorem loop_of_ok {s : EstimateState} (hopen : s.Open) {u : Unit}
    (h : (s.body keccak256 prover evm block).1 = .ok u) :
    s.loop keccak256 prover evm block =
      (s.body keccak256 prover evm block).2.loop keccak256 prover evm block := by
  rw [EstimateState.loop, dif_pos hopen]
  simp only [h]

theorem loop_result {s : EstimateState} (hopen : s.Open) :
    (s.loop keccak256 prover evm block).result =
      (s.body keccak256 prover evm block).1 >>= fun _ =>
        ((s.body keccak256 prover evm block).2.loop keccak256 prover evm block).result := by
  cases hbody : (s.body keccak256 prover evm block).1 with
  | error e => rw [loop_of_error hopen hbody, error_bind]
  | ok u => rw [loop_of_ok hopen hbody, ok_bind]

theorem loop_closed {s : EstimateState} (hclosed : ¬ s.Open) :
    (s.loop keccak256 prover evm block).result = .ok s.hi := by
  rw [EstimateState.loop, dif_neg hclosed]

variable (keccak256 prover evm block) in
theorem loop_runs (s : EstimateState) :
    ∃ more, (s.loop keccak256 prover evm block).runs = s.runs ++ more := by
  fun_induction EstimateState.loop keccak256 prover evm block s with
  | case1 s hopen r e herror => exact ⟨[s.attempt], (body_rest keccak256 block prover evm s).2⟩
  | case2 s hopen r u hok ih =>
    obtain ⟨more, hmore⟩ := ih
    refine ⟨s.attempt :: more, ?_⟩
    rw [hmore, (body_rest keccak256 block prover evm s).2, List.append_assoc,
      List.singleton_append]
  | case3 s hclosed => exact ⟨[], (List.append_nil _).symm⟩

variable (keccak256 prover evm block) in
theorem loop_runs_open {s : EstimateState} (hopen : s.Open) :
    ∃ more, (s.loop keccak256 prover evm block).runs = s.runs ++ [s.attempt] ++ more := by
  have hruns := (body_rest keccak256 block prover evm s).2
  cases hbody : (s.body keccak256 prover evm block).1 with
  | error e => exact ⟨[], by rw [loop_of_error hopen hbody, hruns, List.append_nil]⟩
  | ok u =>
    obtain ⟨more, hmore⟩ := loop_runs keccak256 block prover evm
      (s.body keccak256 prover evm block).2
    exact ⟨more, by rw [loop_of_ok hopen hbody, hmore, hruns]⟩

end

/-! ### The first attempt -/

section

variable {prover : ℕ → Prover} {evm : Evm ExecutionResult} {tx : CallTx} {call : CallState}

theorem search_of_success (hcap : ¬ callGas tx block < txGas) {gasUsed : ℕ}
    (h : Attempt.outcome keccak256 prover evm block ⟨call, callGas tx block⟩ =
      .ok (.success gasUsed)) :
    estimateGasSearch keccak256 prover evm block tx call =
      (EstimateState.start keccak256 prover evm block ⟨call, callGas tx block⟩ gasUsed).loop
        keccak256 prover evm block := by
  rw [estimateGasSearch]
  simp only [if_neg hcap, h]

theorem search_result (hcap : ¬ callGas tx block < txGas) :
    (estimateGasSearch keccak256 prover evm block tx call).result =
      Attempt.outcome keccak256 prover evm block ⟨call, callGas tx block⟩ >>= fun
        | .success gasUsed =>
          ((EstimateState.start keccak256 prover evm block ⟨call, callGas tx block⟩
            gasUsed).loop keccak256 prover evm block).result
        | .revert output => .error (.revert output)
        | .halt reason => .error (.halt (haltStr reason)) := by
  rw [estimateGasSearch]
  simp only [if_neg hcap]
  split <;> next h => rw [h]; rfl

variable (keccak256 block prover evm tx call) in
theorem search_runs (hcap : ¬ callGas tx block < txGas) :
    ∃ more, (estimateGasSearch keccak256 prover evm block tx call).runs =
      [⟨call, callGas tx block⟩] ++ more := by
  rw [estimateGasSearch]
  simp only [if_neg hcap]
  split
  · exact ⟨[], rfl⟩
  · exact ⟨[], rfl⟩
  · exact ⟨[], rfl⟩
  · next gasUsed h =>
    exact loop_runs keccak256 block prover evm
      (EstimateState.start keccak256 prover evm block ⟨call, callGas tx block⟩ gasUsed)

theorem Behind.start {calls : List LoadCall} (h : Loaded keccak256 spec block call.db calls)
    (gas gasUsed : ℕ) : Behind keccak256 spec block prover evm calls
      (EstimateState.start keccak256 prover evm block ⟨call, gas⟩ gasUsed) :=
  Loaded.attempt h

end

/-! ### Two searches -/

/-- Two searches are at the same bounds. -/
structure SameBounds (s s' : EstimateState) : Prop where
  lo : s.lo = s'.lo
  hi : s.hi = s'.hi
  iters : s.iters = s'.iters

theorem SameBounds.open_iff {s s' : EstimateState} (h : SameBounds s s') : s.Open ↔ s'.Open := by
  rw [EstimateState.Open, EstimateState.Open, h.lo, h.hi, h.iters]

section

variable {precompiles : SpecId → Address → Bool} {program : ℕ → DbProgram ExecutionResult}
  {up up' : ℕ → ProofUpstream} {calls calls' : List LoadCall}

theorem outcome_alike {a b : Attempt} (hgas : a.gas = b.gas)
    (h : Loaded keccak256 spec block a.call.db calls)
    (h' : Loaded keccak256 spec block b.call.db calls')
    (hagree : CallsAgree keccak256 spec block
      (calls ++ attemptCalls keccak256 (fun n => (up n).prover) (evmOf precompiles program) block [a])
      (calls' ++
        attemptCalls keccak256 (fun n => (up' n).prover) (evmOf precompiles program) block [b])) :
    Alike CallError.Lost
      (a.outcome keccak256 (fun n => (up n).prover) (evmOf precompiles program) block)
      (b.outcome keccak256 (fun n => (up' n).prover) (evmOf precompiles program) block) := by
  rw [attemptCalls_singleton, attemptCalls_singleton] at hagree
  unfold Attempt.outcome CallState.attempt
  unfold CallState.made at hagree
  rw [← hgas] at hagree ⊢
  exact attempt_alike precompiles program a.gas a.call.rounds b.call.rounds h h' hagree

theorem body_alike {prover prover' : ℕ → Prover} {evm evm' : Evm ExecutionResult}
    {s s' : EstimateState} (hsame : SameBounds s s')
    (h : Alike CallError.Lost (s.attempt.outcome keccak256 prover evm block)
      (s'.attempt.outcome keccak256 prover' evm' block)) :
    Alike CallError.Lost (s.body keccak256 prover evm block).1
        (s'.body keccak256 prover' evm' block).1 ∧
      ∀ u u', (s.body keccak256 prover evm block).1 = .ok u →
        (s'.body keccak256 prover' evm' block).1 = .ok u' →
        SameBounds (s.body keccak256 prover evm block).2
          (s'.body keccak256 prover' evm' block).2 := by
  have hgas : s'.attempt.gas = s.attempt.gas := by
    simp only [EstimateState.attempt, hsame.lo, hsame.hi]
  have hbounds := nextBounds_alike h s.lo s.hi s.attempt.gas
  have hbounds' : nextBounds s'.lo s'.hi s'.attempt.gas
      (s'.attempt.outcome keccak256 prover' evm' block) =
    nextBounds s.lo s.hi s.attempt.gas (s'.attempt.outcome keccak256 prover' evm' block) := by
    rw [hgas, hsame.lo, hsame.hi]
  refine ⟨?_, fun u u' hok hok' => ?_⟩
  · rw [body_fst, body_fst, hbounds']
    exact hbounds.bind fun _ _ _ => .refl _
  · obtain ⟨bounds, hb, hs⟩ := EstimateState.body_eq_ok hok
    obtain ⟨bounds', hb', hs'⟩ := EstimateState.body_eq_ok hok'
    rw [hbounds'] at hb'
    rw [hb, hb'] at hbounds
    rw [hs, hs', hbounds.ok_inj]
    exact ⟨rfl, rfl, congrArg (· + 1) hsame.iters⟩

/-- Two searches that are at the same bounds end alike, if what they load agrees. -/
theorem loop_alike {s s' : EstimateState} (hsame : SameBounds s s')
    (h : Behind keccak256 spec block (fun n => (up n).prover) (evmOf precompiles program) calls s)
    (h' : Behind keccak256 spec block (fun n => (up' n).prover) (evmOf precompiles program) calls'
      s') :
    let evm := evmOf precompiles program
    let e := s.loop keccak256 (fun n => (up n).prover) evm block
    let e' := s'.loop keccak256 (fun n => (up' n).prover) evm block
    CallsAgree keccak256 spec block
        (calls ++ attemptCalls keccak256 (fun n => (up n).prover) evm block e.runs)
        (calls' ++ attemptCalls keccak256 (fun n => (up' n).prover) evm block e'.runs) →
      Alike CallError.Lost e.result e'.result := by
  intro evm e e'
  -- the iterations that are left
  induction hn : maxEstimateIters - s.iters using Nat.strong_induction_on generalizing s s' with
  | h n ih =>
    intro hagree
    by_cases hopen : s.Open
    · have hopen' : s'.Open := hsame.open_iff.mp hopen
      obtain ⟨more, hruns⟩ : ∃ more, e.runs = s.runs ++ [s.attempt] ++ more :=
        loop_runs_open keccak256 block (fun n => (up n).prover) evm hopen
      obtain ⟨more', hruns'⟩ : ∃ more, e'.runs = s'.runs ++ [s'.attempt] ++ more :=
        loop_runs_open keccak256 block (fun n => (up' n).prover) evm hopen'
      have hattempts := hagree
      rw [hruns, hruns', attemptCalls_append (s.runs ++ [s.attempt]),
        attemptCalls_append (s'.runs ++ [s'.attempt]), attemptCalls_append s.runs,
        attemptCalls_append s'.runs, ← List.append_assoc calls, ← List.append_assoc calls',
        ← List.append_assoc calls, ← List.append_assoc calls'] at hattempts
      have hgas : s.attempt.gas = s'.attempt.gas := by
        simp only [EstimateState.attempt, hsame.lo, hsame.hi]
      obtain ⟨hbody, hnext⟩ := body_alike hsame (outcome_alike hgas h h' hattempts.left)
      have hresult : e.result = _ := loop_result hopen
      have hresult' : e'.result = _ := loop_result hopen'
      rw [hresult, hresult']
      refine hbody.bind fun u hone hother => ?_
      have hless : maxEstimateIters -
          (s.body keccak256 (fun n => (up n).prover) evm block).2.iters < n := by
        have hlt := hopen.2
        rw [EstimateState.body_iters]
        omega
      have hrest := ih _ hless (hnext u u hone hother) h.body h'.body rfl
      rw [← loop_of_ok hopen hone, ← loop_of_ok hopen' hother] at hrest ⊢
      exact hrest hagree
    · have hclosed' : ¬ s'.Open := fun hopen' => hopen (hsame.open_iff.mpr hopen')
      have hresult : e.result = .ok s.hi := loop_closed hopen
      have hresult' : e'.result = .ok s'.hi := loop_closed hclosed'
      left
      rw [hresult, hresult', hsame.hi]

theorem search_alike (tx : CallTx) {db db' : ProofDb} (h : Loaded keccak256 spec block db calls)
    (h' : Loaded keccak256 spec block db' calls') :
    let evm := evmOf precompiles program
    let e := estimateGasSearch keccak256 (fun n => (up n).prover) evm block tx ⟨db, 0⟩
    let e' := estimateGasSearch keccak256 (fun n => (up' n).prover) evm block tx ⟨db', 0⟩
    CallsAgree keccak256 spec block
        (calls ++ attemptCalls keccak256 (fun n => (up n).prover) evm block e.runs)
        (calls' ++ attemptCalls keccak256 (fun n => (up' n).prover) evm block e'.runs) →
      Alike CallError.Lost e.result e'.result := by
  intro evm e e' hagree
  by_cases hlow : callGas tx block < txGas
  · left
    simp only [e, e', estimateGasSearch, if_pos hlow]
  · obtain ⟨more, hruns⟩ : ∃ more, e.runs = [⟨⟨db, 0⟩, callGas tx block⟩] ++ more :=
      search_runs keccak256 block (fun n => (up n).prover) evm tx ⟨db, 0⟩ hlow
    obtain ⟨more', hruns'⟩ : ∃ more, e'.runs = [⟨⟨db', 0⟩, callGas tx block⟩] ++ more :=
      search_runs keccak256 block (fun n => (up' n).prover) evm tx ⟨db', 0⟩ hlow
    have hattempts := hagree
    rw [hruns, hruns', attemptCalls_append, attemptCalls_append, ← List.append_assoc calls,
      ← List.append_assoc calls'] at hattempts
    have hfirst := outcome_alike (a := ⟨⟨db, 0⟩, callGas tx block⟩)
      (b := ⟨⟨db', 0⟩, callGas tx block⟩) rfl h h' hattempts.left
    have hresult : e.result = _ := search_result hlow
    have hresult' : e'.result = _ := search_result hlow
    rw [hresult, hresult']
    refine hfirst.bind fun executed hone hother => ?_
    cases executed with
    | revert output => exact .refl _
    | halt reason => exact .refl _
    | success gasUsed =>
      have hsame : SameBounds
          (EstimateState.start keccak256 (fun n => (up n).prover) evm block
            ⟨⟨db, 0⟩, callGas tx block⟩ gasUsed)
          (EstimateState.start keccak256 (fun n => (up' n).prover) evm block
            ⟨⟨db', 0⟩, callGas tx block⟩ gasUsed) := ⟨rfl, rfl, rfl⟩
      have hrest := loop_alike hsame (Behind.start h _ gasUsed) (Behind.start h' _ gasUsed)
      have he : e = _ := search_of_success hlow hone
      have he' : e' = _ := search_of_success hlow hother
      rw [he, he'] at hagree
      exact hrest hagree

end

/-- Two verified gas estimates of one transaction at one block, with any provers: they end alike,
equal unless one of them found no proof or reached a cap, or byte strings that were served to them
collide. -/
theorem estimate_gas_agrees (keccak256 : Bytes → Hash) (precompiles : SpecId → Address → Bool)
    (program : ℕ → DbProgram ExecutionResult) (spec : SpecId) (block : CallBlock) (tx : EthCallTx)
    (up up' : CallAnswers) :
    let evm := evmOf precompiles program
    let c := ethEstimateGasVerified keccak256 precompiles up evm spec block tx
    let c' := ethEstimateGasVerified keccak256 precompiles up' evm spec block tx
    Alike CallError.Lost c.result c'.result ∨
      ∃ l ∈ c.loads keccak256 spec block, ∃ l' ∈ c'.loads keccak256 spec block,
        Collision keccak256 l.served l'.served := by
  intro evm c c'
  refine (allAgree_or_collision _ _).imp_left fun hagree => ?_
  refine verifiedRun_alike up up' tx (fun db db' calls calls' h h' hall => ?_) hagree
  exact search_alike tx.toCallTx h h' hall

end

end HeliosBsc
