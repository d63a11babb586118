import HeliosBsc.Consensus.SnapshotStep

/-!
# What one header does to the engine

The inversion lemma of `LightEngine::apply_header`. The decodes that come after the snapshot has
moved repeat decodes that the seal checks have made, so no refusal comes after the commit.
-/

namespace HeliosBsc

open Checked

/-- The block pushed for a sealed header that the snapshot has accepted. -/
structure BlockOf (header : RpcBlockHeader) (signer : Address) (l : Snapshot.Link) (milli : ℕ)
    (block : VerifiedBlock) : Prop where
  number : block.number = l.number
  hash : block.hash = l.hash
  miner : block.miner = signer
  milli : block.milliTimestamp = milli
  source : block.header = some header
  stateRoot : decodeHexFixed 32 header.stateRoot = .ok block.stateRoot
  gasLimit : decodeU64 header.gasLimit = .ok block.gasLimit

theorem verifiedBlock_ok {P : Primitives} {s : Snapshot} {header : RpcBlockHeader} {now : ℕ}
    {signer : Address} {l : Snapshot.Link} {b : Snapshot.Body} {milli : ℕ}
    (hseal : SealOk P header now signer) (hacc : Snapshot.Accepts P s header signer l b milli) :
    ∃ block, verifiedBlock header l.number signer = .ok block ∧
      BlockOf header signer l milli block := by
  obtain ⟨root, hroot⟩ := hseal.stateRoot_ok
  obtain ⟨gas, hgas⟩ := hseal.gasLimit_ok
  refine ⟨⟨l.number, l.hash, root, signer, milli, gas, some header⟩, ?_,
    rfl, rfl, rfl, rfl, rfl, hroot, hgas⟩
  simp [verifiedBlock, hacc.link.hash, hroot, hacc.milli, hgas]

namespace LightEngine

/-- The engine after an accepted header. -/
def advance (e : LightEngine) (s : Snapshot) (block : VerifiedBlock) : LightEngine :=
  { e with
    snapshot := s
    chain := trimChain (e.chain ++ [block])
    safe := newestSafe (trimChain (e.chain ++ [block])) s.nSeal }

/-- A sealed header that passes every check is accepted. -/
theorem applyHeader_of_accepts {P : Primitives} {e : LightEngine} {header : RpcBlockHeader}
    {now : ℕ} {signer : Address} {l : Snapshot.Link} {b : Snapshot.Body} {milli : ℕ}
    (hseal : verifySealCoinbase P header now = .ok signer)
    (h : Snapshot.Accepts P e.snapshot header signer l b milli)
    (hparent : e.parentChecks header = .ok ()) :
    ∃ block, BlockOf header signer l milli block ∧ e.applyHeader P header now =
      (.ok (), e.advance (e.snapshot.next signer l b milli) block) := by
  obtain ⟨block, hblock, hof⟩ := verifiedBlock_ok (sealOk_of_verify hseal) h
  have hpre : e.preChecks header = .ok l.number := by
    simp only [preChecks, h.link.number, hparent, mapError_ok, ok_bind, pure_eq_ok]
  refine ⟨block, hof, ?_⟩
  unfold applyHeader
  simp only [hpre, Snapshot.applyHeader_of_accepts hseal h, hblock, advance]

/-- The engine accepts a header and moves on, or refuses it and stays where it was, up to the
trimmed entry of `recents`. -/
theorem applyHeader_cases (P : Primitives) (e : LightEngine) (header : RpcBlockHeader) (now : ℕ) :
    (∃ signer l b milli block, SealOk P header now signer ∧
      Snapshot.Accepts P e.snapshot header signer l b milli ∧
      e.preChecks header = .ok l.number ∧ BlockOf header signer l milli block ∧
      e.applyHeader P header now = (.ok (), e.advance (e.snapshot.next signer l b milli) block)) ∨
    (∃ err, e.applyHeader P header now = (.error err, e)) ∨
    (∃ signer l err, Snapshot.LinkOk e.snapshot header signer l ∧
      e.applyHeader P header now =
        (.error err, { e with snapshot := e.snapshot.trimRecents l.number })) := by
  unfold applyHeader
  cases hpre : e.preChecks header with
  | error err => exact .inr (.inl ⟨err, rfl⟩)
  | ok number =>
    rcases e.snapshot.applyHeader_cases P header now with
      ⟨signer, l, b, milli, hseal, hacc, hr⟩ | ⟨err, hr⟩ | ⟨signer, l, err, hlink, hr⟩
    · obtain ⟨block, hblock, hof⟩ := verifiedBlock_ok hseal hacc
      have hnum : number = l.number := by
        simp only [preChecks, bind_eq_ok, mapError_eq_ok, pure_eq_ok, Except.ok.injEq] at hpre
        obtain ⟨n, hn, -, -, rfl⟩ := hpre
        exact Except.ok.inj (hn.symm.trans hacc.link.number)
      subst hnum
      exact .inl ⟨signer, l, b, milli, block, hseal, hacc, rfl, hof, by
        simp only [hr, hblock, advance]⟩
    · exact .inr (.inl ⟨.snapshot err, by simp only [hr]⟩)
    · exact .inr (.inr ⟨signer, l, .snapshot err, hlink, by simp only [hr]⟩)

/-- One call of `apply_header`: a header and the clock at the call. -/
def step (P : Primitives) (e : LightEngine) (call : RpcBlockHeader × ℕ) :
    Except ConsensusError Unit × LightEngine :=
  e.applyHeader P call.1 call.2

/-- An accepted call has passed every check. -/
theorem step_ok {P : Primitives} {e : LightEngine} {call : RpcBlockHeader × ℕ} {r : Unit}
    (h : (step P e call).1 = .ok r) :
    ∃ signer l b milli block, SealOk P call.1 call.2 signer ∧
      Snapshot.Accepts P e.snapshot call.1 signer l b milli ∧
      e.preChecks call.1 = .ok l.number ∧ BlockOf call.1 signer l milli block ∧
      (step P e call).2 = e.advance (e.snapshot.next signer l b milli) block := by
  unfold step at *
  rcases e.applyHeader_cases P call.1 call.2 with
    ⟨signer, l, b, milli, block, hseal, hacc, hpre, hblock, hr⟩ | ⟨err, hr⟩ | ⟨_, _, err, -, hr⟩
  · exact ⟨signer, l, b, milli, block, hseal, hacc, hpre, hblock, by rw [hr]⟩
  · rw [hr] at h
    cases h
  · rw [hr] at h
    cases h

/-- A refused call changes nothing, or trims one entry of `recents`. -/
theorem step_error {P : Primitives} {e : LightEngine} {call : RpcBlockHeader × ℕ}
    {err : ConsensusError} (h : (step P e call).1 = .error err) :
    (step P e call).2 = e ∨ (wrapSucc e.snapshot.number < u64Size ∧
      (step P e call).2 =
        { e with snapshot := e.snapshot.trimRecents (wrapSucc e.snapshot.number) }) := by
  unfold step at *
  rcases e.applyHeader_cases P call.1 call.2 with
    ⟨_, _, _, _, _, -, -, -, -, hr⟩ | ⟨err, hr⟩ | ⟨signer, l, err, hlink, hr⟩
  · rw [hr] at h
    cases h
  · rw [hr]
    exact .inl rfl
  · have hlt := decodeU64_lt hlink.number
    rw [hlink.follows] at hlt
    rw [hr, hlink.follows]
    exact .inr ⟨hlt, rfl⟩

theorem step_snapshot {P : Primitives} {e : LightEngine} {call : RpcBlockHeader × ℕ} {r : Unit}
    (h : (step P e call).1 = .ok r) :
    (∃ signer, (Snapshot.step P e.snapshot call).1 = .ok signer) ∧
      (step P e call).2.snapshot = (Snapshot.step P e.snapshot call).2 := by
  obtain ⟨signer, l, b, milli, block, hseal, hacc, -, -, hnext⟩ := step_ok h
  have hsnapshot : Snapshot.step P e.snapshot call =
      (.ok signer, e.snapshot.next signer l b milli) :=
    Snapshot.applyHeader_of_accepts hseal.verified hacc
  rw [hnext, hsnapshot]
  exact ⟨⟨signer, rfl⟩, rfl⟩

/-- The engine after a sequence of calls, accepted or refused. -/
def walk (P : Primitives) (e : LightEngine) (calls : List (RpcBlockHeader × ℕ)) : LightEngine :=
  Machine.run (step P) e calls

theorem walk_concat (P : Primitives) (e : LightEngine) (calls : List (RpcBlockHeader × ℕ))
    (call : RpcBlockHeader × ℕ) :
    walk P e (calls ++ [call]) = (step P (walk P e calls) call).2 :=
  Machine.run_concat e calls call

/-- No height of the walk overflows: none of the headers that it accepts claims block `0`. -/
def Unwrapped (P : Primitives) (e : LightEngine) (calls : List (RpcBlockHeader × ℕ)) : Prop :=
  AboveGenesis (Machine.accepted (step P) e calls)

theorem Unwrapped.nil {P : Primitives} {e : LightEngine} : Unwrapped P e [] := AboveGenesis.nil

theorem Unwrapped.append_iff {P : Primitives} {e : LightEngine}
    {calls more : List (RpcBlockHeader × ℕ)} :
    Unwrapped P e (calls ++ more) ↔ Unwrapped P e calls ∧ Unwrapped P (walk P e calls) more := by
  unfold Unwrapped
  rw [Machine.accepted_append, AboveGenesis.append_iff]
  rfl

theorem Unwrapped.along {P : Primitives} {e : LightEngine} {calls : List (RpcBlockHeader × ℕ)}
    (h : Unwrapped P e calls) :
    Machine.Along (step P) (fun e call => (step P e call).1 = .ok () → call.1.AboveGenesis) e
      calls := by
  rintro before call after rfl hok
  exact h call (Machine.mem_accepted ⟨after, by simp⟩ hok)

/-- A walk that is shorter than the way to the last `u64` does not come to block `0`. -/
theorem Unwrapped.of_fits {P : Primitives} {e : LightEngine} {calls : List (RpcBlockHeader × ℕ)}
    (hfits : e.snapshot.number + calls.length < u64Size) : Unwrapped P e calls := by
  unfold Unwrapped
  induction calls generalizing e with
  | nil => exact AboveGenesis.nil
  | cons call rest ih =>
    rw [List.length_cons] at hfits
    rw [Machine.accepted]
    cases hr : (step P e call).1 with
    | ok r =>
      obtain ⟨signer, l, b, milli, block, -, hacc, -, -, hs⟩ := step_ok hr
      have habove := hacc.link.aboveGenesis (by omega)
      refine AboveGenesis.cons_iff.mpr ⟨habove, ih ?_⟩
      rw [hs]
      change l.number + _ < _
      rw [hacc.link.number_eq habove]
      omega
    | error err =>
      refine ih ?_
      rcases step_error hr with hs | ⟨-, hs⟩
      · rw [hs]
        omega
      · rw [hs]
        change e.snapshot.number + _ < _
        omega

/-- A property of the snapshot that trimming `recents` and the accepted headers of the walk preserve
holds after it. -/
theorem walk_snapshot_invariant_mem {P : Primitives} {I : Snapshot → Prop} {e : LightEngine}
    {calls : List (RpcBlockHeader × ℕ)} (htrim : ∀ s n, I s → I (s.trimRecents n))
    (hnext : ∀ s, ∀ call ∈ Machine.accepted (step P) e calls, ∀ signer l b milli,
      Snapshot.Accepts P s call.1 signer l b milli → I s → I (s.next signer l b milli))
    (h : I e.snapshot) : I (walk P e calls).snapshot := by
  refine Machine.run_accepted_invariant_mem (I := fun _ (e : LightEngine) => I e.snapshot) ?_ ?_ h
  · intro _ e' call hcall r he hok
    obtain ⟨signer, l, b, milli, block, -, hacc, -, -, hnextState⟩ := step_ok hok
    rw [hnextState]
    exact hnext _ call hcall _ _ _ _ hacc he
  · intro _ e' call err he herr
    rcases step_error herr with hsame | ⟨-, htrimmed⟩
    · rw [hsame]
      exact he
    · rw [htrimmed]
      exact htrim _ _ he

/-- A property of the snapshot that trimming `recents` and accepting a header preserve holds after
every walk. -/
theorem walk_snapshot_invariant {P : Primitives} {I : Snapshot → Prop}
    (htrim : ∀ s n, I s → I (s.trimRecents n))
    (hnext : ∀ s header signer l b milli, Snapshot.Accepts P s header signer l b milli → I s →
      I (s.next signer l b milli))
    {e : LightEngine} (h : I e.snapshot) (calls : List (RpcBlockHeader × ℕ)) :
    I (walk P e calls).snapshot :=
  walk_snapshot_invariant_mem htrim (fun s call _ => hnext s call.1) h

theorem fromCheckpointAndHeader_ok {P : Primitives} {cp : Checkpoint} {header : RpcBlockHeader}
    {now : ℕ} {e : LightEngine} (h : fromCheckpointAndHeader P cp header now = .ok e) :
    cp.validateBasic = .ok () ∧ Snapshot.fromCheckpoint cp = .ok e.snapshot ∧
      e.checkpoint = cp ∧ headerMatchesCheckpoint P cp header = .ok () ∧
      (∃ signer, SealOk P header now signer) ∧
      ∃ genesis, e.chain = [genesis] ∧ genesis.number = cp.number ∧
        decodeHexFixed 32 cp.hash = .ok genesis.hash ∧ genesis.header = some header := by
  simp only [fromCheckpointAndHeader, bind_eq_ok, mapError_eq_ok, pure_eq_ok, Except.ok.injEq] at h
  obtain ⟨⟨⟩, hbasic, ⟨⟩, hmatch, signer, hseal, s, hs, hash, hhash, root, hroot, milli, hmilli, gas,
    hgas, rfl⟩ := h
  exact ⟨hbasic, hs, rfl, hmatch, ⟨signer, sealOk_of_verify hseal⟩, _, rfl, rfl, hhash, rfl⟩

end LightEngine

theorem Snapshot.fromCheckpoint_ok {cp : Checkpoint} {s : Snapshot}
    (h : Snapshot.fromCheckpoint cp = .ok s) :
    s.number = cp.number ∧ decodeHexFixed 32 cp.hash = .ok s.hash ∧
      s.epochLength = (paramsAt cp.number cp.timestamp).epochLength ∧
      s.turnLength = (paramsAt cp.number cp.timestamp).turnLength ∧
      s.pending = none ∧ s.enforceInturn = true ∧ s.recents = .empty ∧ s.prevVoteSet = [] ∧
      s.setChangedAt = 0 ∧ s.attestation = none ∧ s.lastMilli = none ∧
      s.walkStart = satAdd cp.number 1 ∧ s.ancestors = [(s.number, s.hash)] := by
  simp only [Snapshot.fromCheckpoint, bind_eq_ok, mapError_eq_ok, pure_eq_ok, Except.ok.injEq] at h
  obtain ⟨vals, -, votes, -, hash, hhash, rfl⟩ := h
  exact ⟨rfl, hhash, rfl, rfl, rfl, rfl, rfl, rfl, rfl, rfl, rfl, rfl, rfl⟩

theorem Snapshot.byteTurns_fromCheckpoint {cp : Checkpoint} {s : Snapshot}
    (h : Snapshot.fromCheckpoint cp = .ok s) : s.ByteTurns := by
  obtain ⟨-, -, -, hturn, hpend, -⟩ := Snapshot.fromCheckpoint_ok h
  refine ⟨?_, ?_⟩
  · rw [hturn]
    exact paramsAt_turnLength_lt _ _
  · rw [hpend]
    rintro p ⟨⟩

end HeliosBsc
