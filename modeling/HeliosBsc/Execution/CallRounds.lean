import HeliosBsc.Execution.CallSound

/-!
# Rounds of a call

`transact_call_proven` makes the calls of a run on the database and nothing else, at most one fetch
for each round that is left. Attempts that share one counter, as those of a gas estimate do, share
the rounds.
-/

namespace HeliosBsc

section

variable (keccak256 : Bytes → Hash) {ρ : Type}

/-- A call of `fetch_and_load`. -/
def LoadCall.isFetch : LoadCall → Bool
  | fetch _ _ _ => true
  | _ => false

/-- The number of fetches among some calls. -/
def fetches (calls : List LoadCall) : ℕ := calls.countP (·.isFetch)

/-- The database and the counter that the attempts of one call share. -/
structure CallState where
  db : ProofDb
  rounds : ℕ

/-- One attempt, of one EVM at one gas. -/
def CallState.attempt (prover : ℕ → Prover) (block : CallBlock) (s : CallState)
    (job : Evm ρ × ℕ) : Except CallError ρ × CallState :=
  let c := transactCallProven keccak256 prover job.1 s.db block job.2 s.rounds
  (c.result, ⟨c.db, c.rounds⟩)

/-- The calls that an attempt makes. -/
def CallState.made (prover : ℕ → Prover) (block : CallBlock) (s : CallState) (job : Evm ρ × ℕ) :
    List LoadCall :=
  (transactCallProven keccak256 prover job.1 s.db block job.2 s.rounds).calls

theorem fetches_append (calls more : List LoadCall) :
    fetches (calls ++ more) = fetches calls + fetches more := List.countP_append

/-- An attempt runs the EVM once and ends, or spends a round on a fetch and then ends or goes on. -/
theorem transactCallProven_cases (prover : ℕ → Prover) (evm : Evm ρ) (db : ProofDb)
    (block : CallBlock) (gas rounds : ℕ) :
    let c := transactCallProven keccak256 prover evm db block gas rounds
    let seeded := db.seedBlockHashes block
    (∃ result, c = ⟨result, seeded, rounds, [.seed]⟩) ∨
      rounds < maxProofRounds ∧ ∃ address slots,
        let fetched := fetchAndLoad keccak256 (prover rounds) seeded block address slots
        let calls := [.seed, .fetch (prover rounds) address slots]
        (∃ result, c = ⟨result, fetched.2, rounds + 1, calls⟩) ∨
          c = (transactCallProven keccak256 prover evm fetched.2 block gas (rounds + 1)).after
            calls := by
  intro c seeded
  have hc : c = transactCallProven keccak256 prover evm db block gas rounds := rfl
  rw [transactCallProven] at hc
  unfold transactCall at hc
  split at hc
  · next res db' hout =>
    obtain ⟨-, rfl⟩ := Prod.mk.inj hout
    exact .inl ⟨_, hc⟩
  · next miss db' hout =>
    obtain ⟨-, rfl⟩ := Prod.mk.inj hout
    split at hc
    · exact .inl ⟨_, hc⟩
    · next address slots _ =>
      split_ifs at hc with hrounds
      · exact .inl ⟨_, hc⟩
      · refine .inr ⟨Nat.not_le.mp hrounds, address, slots, ?_⟩
        intro fetched calls
        have hf : fetched = fetchAndLoad keccak256 (prover rounds) seeded block address slots := rfl
        split at hc
        · next e db' hfetch =>
          rw [hf, hfetch]
          exact .inl ⟨_, hc⟩
        · next db' hfetch =>
          rw [hf, hfetch]
          split_ifs at hc with hproven
          · exact .inr hc
          · exact .inl ⟨_, hc⟩
  · next e db' _ hout =>
    obtain ⟨-, rfl⟩ := Prod.mk.inj hout
    exact .inl ⟨_, hc⟩

/-- What holds of an end, and of every fetch before an end or an attempt of which it holds, holds of
every attempt. -/
theorem transactCallProven_induction {prover : ℕ → Prover} (evm : Evm ρ) {block : CallBlock}
    (gas : ℕ) {motive : ProofDb → ℕ → ProvenCall ρ → Prop}
    (ends : ∀ db rounds result,
      motive db rounds ⟨result, db.seedBlockHashes block, rounds, [.seed]⟩)
    (fails : ∀ db rounds address slots result, rounds < maxProofRounds →
      motive db rounds ⟨result,
        (fetchAndLoad keccak256 (prover rounds) (db.seedBlockHashes block) block address slots).2,
        rounds + 1, [.seed, .fetch (prover rounds) address slots]⟩)
    (goes : ∀ db rounds address slots c, rounds < maxProofRounds →
      motive (fetchAndLoad keccak256 (prover rounds) (db.seedBlockHashes block) block address
        slots).2 (rounds + 1) c →
      motive db rounds (c.after [.seed, .fetch (prover rounds) address slots]))
    (db : ProofDb) (rounds : ℕ) :
    motive db rounds (transactCallProven keccak256 prover evm db block gas rounds) := by
  -- the rounds that are left
  induction hn : maxProofRounds - rounds generalizing db rounds with
  | zero =>
    rcases transactCallProven_cases keccak256 prover evm db block gas rounds with
      ⟨result, hc⟩ | ⟨hlt, -⟩
    · rw [hc]
      exact ends db rounds result
    · omega
  | succ n ih =>
    rcases transactCallProven_cases keccak256 prover evm db block gas rounds with
      ⟨result, hc⟩ | ⟨hlt, address, slots, ⟨result, hc⟩ | hc⟩
    · rw [hc]
      exact ends db rounds result
    · rw [hc]
      exact fails db rounds address slots result hlt
    · rw [hc]
      exact goes db rounds address slots _ hlt (ih _ (rounds + 1) (by omega))

theorem transactCallProven_run (prover : ℕ → Prover) (evm : Evm ρ) (db : ProofDb)
    (block : CallBlock) (gas rounds : ℕ) :
    let c := transactCallProven keccak256 prover evm db block gas rounds
    c.db = LoadCall.run keccak256 block db c.calls := by
  refine transactCallProven_induction keccak256 evm gas
    (motive := fun db _ c => c.db = LoadCall.run keccak256 block db c.calls) ?_ ?_ ?_ db rounds
  · intro db rounds result
    rfl
  · intro db rounds address slots result _
    rfl
  · intro db rounds address slots c _ ih
    exact ih

/-- Every fetch takes a round, and no round is taken after the last. -/
theorem transactCallProven_rounds (prover : ℕ → Prover) (evm : Evm ρ) (db : ProofDb)
    (block : CallBlock) (gas rounds : ℕ) :
    let c := transactCallProven keccak256 prover evm db block gas rounds
    c.rounds = rounds + fetches c.calls ∧ (rounds ≤ maxProofRounds → c.rounds ≤ maxProofRounds) := by
  refine transactCallProven_induction keccak256 evm gas
    (motive := fun _ rounds c => c.rounds = rounds + fetches c.calls ∧
      (rounds ≤ maxProofRounds → c.rounds ≤ maxProofRounds)) ?_ ?_ ?_ db rounds
  · intro db rounds result
    exact ⟨rfl, fun h => h⟩
  · intro db rounds address slots result hlt
    exact ⟨rfl, fun _ => hlt⟩
  · rintro db rounds address slots c hlt ⟨hcount, hle⟩
    refine ⟨?_, fun _ => hle hlt⟩
    show _ = rounds + fetches (_ ++ _)
    rw [fetches_append]
    show _ = rounds + (1 + _)
    rw [← Nat.add_assoc]
    exact hcount

/-- The attempts of one call, whatever their EVMs and gas: their calls lead to the database they
leave, and the counter grows by one for each fetch and stays within the rounds. -/
theorem attempts_run (prover : ℕ → Prover) (block : CallBlock) (s : CallState)
    (jobs : List (Evm ρ × ℕ)) :
    let made := Machine.history (CallState.made keccak256 prover block)
      (CallState.attempt keccak256 prover block) s jobs
    let last := Machine.run (CallState.attempt keccak256 prover block) s jobs
    last.db = LoadCall.run keccak256 block s.db made ∧ last.rounds = s.rounds + fetches made ∧
      (s.rounds ≤ maxProofRounds → last.rounds ≤ maxProofRounds) := by
  induction jobs generalizing s with
  | nil => exact ⟨rfl, rfl, fun h => h⟩
  | cons job jobs ih =>
    have hdb := transactCallProven_run keccak256 prover job.1 s.db block job.2
      s.rounds
    obtain ⟨hrounds, hle⟩ := transactCallProven_rounds keccak256 prover job.1 s.db
      block job.2 s.rounds
    obtain ⟨hdb', hrounds', hle'⟩ := ih (CallState.attempt keccak256 prover block s job).2
    refine ⟨?_, ?_, fun h => hle' (hle h)⟩
    · show _ = Machine.run _ _ (_ ++ _)
      rw [Machine.run_append]
      exact hdb'.trans (congrArg (LoadCall.run keccak256 block · _) hdb)
    · show _ = s.rounds + fetches (_ ++ _)
      rw [fetches_append, ← Nat.add_assoc]
      exact hrounds'.trans (congrArg (· + _) hrounds)

end

/-- Whatever calls load a new database at a block: each read returns what an accepted load proved
and is `Missing` where none did, loads agree or what they served collides, a refused call changes
nothing, and however often the EVM is then run, the calls made for it have at most
`MAX_PROOF_ROUNDS` fetches and end in a database loaded in the same way. -/
theorem execution_sees_proven_state (keccak256 : Bytes → Hash)
    (precompiles : SpecId → Address → Bool) (spec : SpecId) (block : CallBlock)
    (calls : List LoadCall) :
    let db := LoadCall.run keccak256 block (.new spec) calls
    ReadsProven precompiles (LoadCall.loads keccak256 block (.new spec) calls) db ∧
      (∀ l l' : AcceptedLoad keccak256 block.stateRoot,
        l.Agree l' ∨ Collision keccak256 l.served l'.served) ∧
      (∀ call e, (LoadCall.step keccak256 block db call).1 = .error e →
        (LoadCall.step keccak256 block db call).2 = db) ∧
      ∀ (ρ : Type) (prover : ℕ → Prover) (jobs : List (Evm ρ × ℕ)),
        let made := Machine.history (CallState.made keccak256 prover block)
          (CallState.attempt keccak256 prover block) ⟨db, 0⟩ jobs
        let last := Machine.run (CallState.attempt keccak256 prover block) ⟨db, 0⟩ jobs
        fetches made ≤ maxProofRounds ∧
          last.db = LoadCall.run keccak256 block (.new spec) (calls ++ made) := by
  intro db
  refine ⟨(backed_run block spec calls).readsProven precompiles,
    AcceptedLoad.agree_or_collision, fun call e => LoadCall.step_of_error, ?_⟩
  intro ρ prover jobs made last
  obtain ⟨hdb, hrounds, hle⟩ := attempts_run keccak256 prover block ⟨db, 0⟩ jobs
  refine ⟨?_, ?_⟩
  · have hbound := hle (Nat.zero_le _)
    rw [hrounds, Nat.zero_add] at hbound
    exact hbound
  · unfold LoadCall.run
    rw [Machine.run_append]
    exact hdb

end HeliosBsc
