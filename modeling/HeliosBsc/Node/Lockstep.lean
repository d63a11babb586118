import HeliosBsc.Consensus.EngineStep
import HeliosBsc.Lib.HashChain
import HeliosBsc.Mock.SoleSealer
import HeliosBsc.Node.Sync

/-!
# Chain and snapshot in lockstep

Every fallible step of the append loop that could come between moving the snapshot and pushing to
the chain is made before the snapshot moves. So the last block of the chain is always the block the
snapshot is at, wherever a call stops.
-/

namespace HeliosBsc

open Checked

/-- `b` follows `a`: the next number, and a stored header whose parent is `a`. -/
def Follows (a b : VerifiedBlock) : Prop :=
  b.number = a.number + 1 ∧
    ∃ header, b.header = some header ∧ decodeHexFixed 32 header.parentHash = .ok a.hash

/-- The block's hash is that of its stored header. -/
def HashBound (P : Primitives) (b : VerifiedBlock) : Prop :=
  ∃ header, b.header = some header ∧ headerHash P header = .ok b.hash

/-- The snapshot is at the block. -/
def Snapshot.At (s : Snapshot) (b : VerifiedBlock) : Prop := b.number = s.number ∧ b.hash = s.hash

/-- The last block of the chain is the one that the snapshot is at. -/
def Synced.Lockstep (st : Synced) : Prop := ∃ b, st.chain.getLast? = some b ∧ st.snapshot.At b

theorem Synced.Lockstep.lastNumber_eq {st : Synced} (h : st.Lockstep) :
    lastNumber st.chain = st.snapshot.number := by
  obtain ⟨t, ht, hat⟩ := h
  unfold lastNumber
  rw [ht]
  exact hat.1

/-- A new engine holds the block of its checkpoint, which its snapshot is at. -/
theorem LightEngine.genesis_of_ok {P : Primitives} {cp : Checkpoint} {header : RpcBlockHeader}
    {now : ℕ} {e : LightEngine} (h : LightEngine.fromCheckpointAndHeader P cp header now = .ok e) :
    ∃ genesis, e.chain = [genesis] ∧ e.snapshot.At genesis ∧ genesis.number = cp.number ∧
      decodeHexFixed 32 cp.hash = .ok genesis.hash := by
  obtain ⟨-, hs, -, -, -, genesis, hchain, hnumber, hhash, -⟩ :=
    LightEngine.fromCheckpointAndHeader_ok h
  obtain ⟨hsnumber, hshash, -⟩ := Snapshot.fromCheckpoint_ok hs
  exact ⟨genesis, hchain, ⟨hnumber.trans hsnumber.symm, Except.ok.inj (hhash.symm.trans hshash)⟩,
    hnumber, hhash⟩

theorem blockOfHeader_ok {header : RpcBlockHeader} {miner : Address} {block : VerifiedBlock}
    (h : blockOfHeader header miner = .ok block) :
    decodeU64 header.number = .ok block.number ∧ decodeHexFixed 32 header.hash = .ok block.hash ∧
      decodeHexFixed 32 header.stateRoot = .ok block.stateRoot ∧
      milliTimestamp header = .ok block.milliTimestamp ∧
      decodeU64 header.gasLimit = .ok block.gasLimit ∧ block.header = some header := by
  simp only [blockOfHeader, bind_eq_ok, mapError_eq_ok, pure_eq_ok, Except.ok.injEq] at h
  obtain ⟨number, hn, hash, hh, root, hr, milli, hm, gas, hg, rfl⟩ := h
  exact ⟨hn, hh, hr, hm, hg, rfl⟩

theorem blockBefore_ok {chain : List VerifiedBlock} {header : RpcBlockHeader}
    {block : VerifiedBlock} (h : blockBefore chain header = .ok block) :
    decodeU64 header.number = .ok block.number ∧ decodeHexFixed 32 header.hash = .ok block.hash ∧
      decodeHexFixed 32 header.stateRoot = .ok block.stateRoot ∧
      milliTimestamp header = .ok block.milliTimestamp ∧
      decodeU64 header.gasLimit = .ok block.gasLimit ∧ block.header = some header := by
  unfold blockBefore at h
  split at h
  · simp only [bind_eq_ok] at h
    obtain ⟨-, -, hblock⟩ := h
    exact blockOfHeader_ok hblock
  · exact blockOfHeader_ok h

theorem blockBefore_of {chain : List VerifiedBlock} {header : RpcBlockHeader} {prev : VerifiedBlock}
    {number milli gas : ℕ} {hash root : Hash} (hprev : chain.getLast? = some prev)
    (hcascading : verifyCascadingVsParent prev.milliTimestamp prev.gasLimit header = .ok ())
    (hnumber : decodeU64 header.number = .ok number)
    (hhash : decodeHexFixed 32 header.hash = .ok hash)
    (hroot : decodeHexFixed 32 header.stateRoot = .ok root)
    (hmilli : milliTimestamp header = .ok milli) (hgas : decodeU64 header.gasLimit = .ok gas) :
    blockBefore chain header =
      .ok ⟨number, hash, root, .repeated 20 0, milli, gas, some header⟩ := by
  unfold blockBefore blockOfHeader cascading withContext
  simp [hprev, hcascading, hnumber, hhash, hroot, hmilli, hgas]

/-! ## Heights that do not overflow -/

/-- On top of block `last` the headers stay below the end of the numbers, or none of them claims
block `0` right after the last `u64`. -/
def UnwrappedFrom (last : ℕ) (headers : List TimedHeader) : Prop :=
  last + headers.length < u64Size ∨
    List.IsChain (fun n m => n = .ok (u64Size - 1) → m ≠ .ok 0)
      (.ok last :: headers.map fun call => decodeU64 call.1.number)

/-- The answers of an upstream up to a tip do not overflow. -/
def HeadersRange.Unwrapped (headersRange : HeadersRange) (tip : ℕ) : Prop :=
  ∀ last headers, last < tip → headersRange (last + 1) tip = .ok headers →
    UnwrappedFrom last headers

theorem HeadersRange.Unwrapped.of_range {headersRange : HeadersRange} {tip : ℕ} {st : Synced}
    {headers : List TimedHeader} (h : headersRange.Unwrapped tip) (hlockstep : st.Lockstep)
    (hlow : lastNumber st.chain < tip)
    (hrange : headersRange (lastNumber st.chain + 1) tip = .ok headers) :
    UnwrappedFrom st.snapshot.number headers := by
  rw [← hlockstep.lastNumber_eq]
  exact h _ headers hlow hrange

theorem HeadersRange.Unwrapped.of_length {headersRange : HeadersRange} {tip k : ℕ}
    (hlength : ∀ start headers, headersRange start tip = .ok headers → headers.length ≤ k)
    (hfits : tip + k < u64Size) : headersRange.Unwrapped tip := by
  intro last headers hlow hrange
  have hle := hlength _ headers hrange
  exact .inl (by omega)

theorem UnwrappedFrom.nil (last : ℕ) : UnwrappedFrom last [] := .inr (List.isChain_singleton _)

section

variable {P : Primitives}

/-- An accepted header does not overflow, and what comes after it stays on top of it. -/
theorem UnwrappedFrom.next {s : Snapshot} {call : TimedHeader} {rest : List TimedHeader}
    {signer : Address} {l : Snapshot.Link} {b : Snapshot.Body} {milli : ℕ}
    (h : UnwrappedFrom s.number (call :: rest))
    (hacc : Snapshot.Accepts P s call.1 signer l b milli) :
    call.1.AboveGenesis ∧ UnwrappedFrom l.number rest := by
  rcases h with hfits | hchain
  · rw [List.length_cons] at hfits
    have habove := hacc.link.aboveGenesis (by omega)
    refine ⟨habove, .inl ?_⟩
    rw [hacc.link.number_eq habove]
    omega
  · rw [List.map_cons, List.isChain_cons_cons, hacc.link.number] at hchain
    refine ⟨fun hzero => ?_, .inr hchain.2⟩
    rw [hacc.link.number] at hzero
    refine hchain.1 ?_ hzero
    have hfollows := hacc.link.follows
    rw [Except.ok.inj hzero] at hfollows
    unfold wrapSucc at hfollows
    split at hfollows
    · next hlast => rw [hlast]
    · exact absurd hfollows.symm (Nat.succ_ne_zero _)

/-- One round of the loop: a sealed header that passes every check is pushed, or the chain stays and
the snapshot stays, up to the trimmed entry of `recents`. -/
theorem appendHeader_inv (st : Synced) (call : TimedHeader) :
    (∃ signer l b milli block, SealOk P call.1 call.2 signer ∧
      Snapshot.Accepts P st.snapshot call.1 signer l b milli ∧ BlockOf call.1 signer l milli block ∧
      appendHeader P st call =
        (.ok (), ⟨st.chain ++ [block], st.snapshot.next signer l b milli⟩)) ∨
    (∃ e, appendHeader P st call = (.error e, st)) ∨
    (∃ e n, appendHeader P st call = (.error e, ⟨st.chain, st.snapshot.trimRecents n⟩)) := by
  unfold appendHeader
  cases hb : blockBefore st.chain call.1 with
  | error e => exact .inr (.inl ⟨e, rfl⟩)
  | ok block =>
    rcases st.snapshot.applyHeader_cases P call.1 call.2 with
      ⟨signer, l, b, milli, hseal, hacc, hr⟩ | ⟨e, hr⟩ | ⟨signer, l, e, -, hr⟩
    · left
      refine ⟨signer, l, b, milli, { block with miner := signer }, hseal, hacc, ?_,
        by simp only [hr]⟩
      obtain ⟨hnumber, hhash, hroot, hmilli, hgas, hheader⟩ := blockBefore_ok hb
      exact ⟨Except.ok.inj (hnumber.symm.trans hacc.link.number),
        Except.ok.inj (hhash.symm.trans hacc.link.hash), rfl,
        Except.ok.inj (hmilli.symm.trans hacc.milli), hheader, hroot, hgas⟩
    · simp only [hr]
      exact .inr (.inl ⟨_, rfl⟩)
    · simp only [hr]
      exact .inr (.inr ⟨_, l.number, rfl⟩)

theorem follows_of_accepts {s : Snapshot} {header : RpcBlockHeader} {signer : Address}
    {l : Snapshot.Link} {b : Snapshot.Body} {milli : ℕ} {tip block : VerifiedBlock}
    (habove : header.AboveGenesis) (hacc : Snapshot.Accepts P s header signer l b milli)
    (hof : BlockOf header signer l milli block) (hat : s.At tip) : Follows tip block := by
  refine ⟨?_, header, hof.source, ?_⟩
  · rw [hof.number, hacc.link.number_eq habove, hat.1]
  · rw [hacc.link.parent, hat.2]

theorem hashBound_of_seal {s : Snapshot} {header : RpcBlockHeader} {now : ℕ} {signer : Address}
    {l : Snapshot.Link} {b : Snapshot.Body} {milli : ℕ} {block : VerifiedBlock}
    (hseal : SealOk P header now signer) (hacc : Snapshot.Accepts P s header signer l b milli)
    (hof : BlockOf header signer l milli block) : HashBound P block := by
  obtain ⟨computed, hcomputed, hclaimed⟩ := hseal.hash_eq
  have hhash : computed = l.hash := Except.ok.inj (hclaimed.symm.trans hacc.link.hash)
  exact ⟨header, hof.source, by rw [hcomputed, hhash, hof.hash]⟩

theorem appendHeader_of_accepts {st : Synced} {header : RpcBlockHeader} {now : ℕ}
    {signer : Address} {l : Snapshot.Link} {b : Snapshot.Body} {milli : ℕ} {prev : VerifiedBlock}
    (hseal : verifySealCoinbase P header now = .ok signer)
    (h : Snapshot.Accepts P st.snapshot header signer l b milli)
    (hprev : st.chain.getLast? = some prev)
    (hcascading : verifyCascadingVsParent prev.milliTimestamp prev.gasLimit header = .ok ()) :
    ∃ block, BlockOf header signer l milli block ∧ appendHeader P st (header, now) =
      (.ok (), ⟨st.chain ++ [block], st.snapshot.next signer l b milli⟩) := by
  have hok := sealOk_of_verify hseal
  obtain ⟨root, hroot⟩ := hok.stateRoot_ok
  obtain ⟨gas, hgas⟩ := hok.gasLimit_ok
  refine ⟨⟨l.number, l.hash, root, signer, milli, gas, some header⟩,
    ⟨rfl, rfl, rfl, rfl, rfl, hroot, hgas⟩, ?_⟩
  have hblock := blockBefore_of hprev hcascading h.link.number h.link.hash hroot h.milli hgas
  unfold appendHeader
  simp only [hblock, Snapshot.applyHeader_of_accepts hseal h]

theorem appendHeader_of_ready {st : Synced} {sk : SecretKey P} {d : Draft} {fee : Option String}
    {vals : List SealingValidator} {turn : Option ℕ} {prev : VerifiedBlock}
    (h : Snapshot.Ready sk st.snapshot d fee vals turn) (hmaxwell : maxwellTime ≤ d.time)
    (hprev : st.chain.getLast? = some prev) (hlater : prev.milliTimestamp + 1000 ≤ d.milli)
    (hgas : prev.gasLimit = mockGasLimit) :
    ∃ call block l b, appendHeader P st call =
        (.ok (), ⟨st.chain ++ [block], st.snapshot.next sk.address l b d.milli⟩) ∧
      l.number = d.number ∧ b.isEpoch = decide (d.number % st.snapshot.epochLength = 0) ∧
      b.adopted = none ∧ block.number = d.number ∧ block.miner = sk.address ∧
      block.milliTimestamp = d.milli ∧ block.gasLimit = mockGasLimit := by
  obtain ⟨sealBytes, hash, p, hverify, hacc, -⟩ := h.accepts
  have hcascading := Draft.verifyCascadingVsParent_headerPaying fee sk.address sealBytes hash h.fits
    hmaxwell hlater
  rw [← hgas] at hcascading
  obtain ⟨block, hof, happend⟩ := appendHeader_of_accepts hverify hacc hprev hcascading
  exact ⟨_, block, _, _, happend, rfl, rfl, rfl, hof.number, hof.miner, hof.milli,
    Except.ok.inj (hof.gasLimit.symm.trans h.fits.reads.gasLimit)⟩

theorem appendSynced_trimmed {st st' : Synced} {calls : List TimedHeader} {newTip : ℕ}
    {headersRange : HeadersRange} (hlast : lastNumber st.chain < newTip)
    (hrange : headersRange (lastNumber st.chain + 1) newTip = .ok calls)
    (happend : appendHeaders P st calls = (.ok (), st')) :
    appendSynced P headersRange st newTip =
      (.ok (), { st' with chain := trimChain st'.chain }) := by
  unfold appendSynced
  unfold lastNumber at hlast hrange
  simp only [if_neg (Nat.not_le.mpr hlast), hrange, happend]

theorem appendSynced_ok {st st' : Synced} {calls : List TimedHeader} {newTip : ℕ}
    {headersRange : HeadersRange} (hlast : lastNumber st.chain < newTip)
    (hrange : headersRange (lastNumber st.chain + 1) newTip = .ok calls)
    (happend : appendHeaders P st calls = (.ok (), st')) (hlength : st'.chain.length ≤ 512) :
    appendSynced P headersRange st newTip = (.ok (), st') := by
  rw [appendSynced_trimmed hlast hrange happend, trimChain_of_le hlength]

/-- A chain of one validator in the Fermi era, at a block and a time. -/
structure Synced.SingleAt (sk : SecretKey P) (number milli : ℕ) (st : Synced) : Prop where
  snapshot : st.snapshot.Single sk 8
  epoch : st.snapshot.epochLength = maxwellEpochLength
  pending : st.snapshot.pending = none
  number : st.snapshot.number = number
  tip : ∃ b, st.chain.getLast? = some b ∧ b.milliTimestamp = milli ∧ b.gasLimit = mockGasLimit

theorem Synced.SingleAt.append {st : Synced} {sk : SecretKey P} {number milli milli' : ℕ}
    (h : st.SingleAt sk number milli)
    (hnumber : londonBlock ≤ number + 1 ∧ number + 1 < u64Size)
    (hmilli : 1770000000000 ≤ milli' ∧ milli' < 1780000000000) (hlater : milli + 1000 ≤ milli')
    (hplain : (number + 1) % maxwellEpochLength ≠ 0) :
    ∃ call block s, appendHeader P st call = (.ok (), ⟨st.chain ++ [block], s⟩) ∧
      block.number = number + 1 ∧
      Synced.SingleAt sk (number + 1) milli' ⟨st.chain ++ [block], s⟩ := by
  have hnext : wrapSucc st.snapshot.number = number + 1 := by
    rw [h.number]
    exact wrapSucc_of_lt hnumber.2
  have hmaxwell : maxwellTime * 1000 ≤ 1770000000000 := by decide
  have hera : maxwellTime ≤ milli' / 1000 :=
    (Nat.le_div_iff_mul_le (by norm_num)).mpr (hmaxwell.trans hmilli.1)
  have hfirst : lorentzTime * 1000 ≤ 1770000000000 := by decide
  have hready : Snapshot.Ready sk st.snapshot (st.snapshot.singleDraft milli' [])
      (some (hexQuantity 0)) [] none := by
    refine h.snapshot.ready_plain hnext hnumber ⟨hfirst.trans hmilli.1, hmilli.2⟩ ?_ ?_
    · rw [(paramsAt_of_maxwell _ hera).1]
      exact hplain
    · rw [h.epoch]
      exact hplain
  obtain ⟨prev, hprev, hprevMilli, hgas⟩ := h.tip
  obtain ⟨call, block, l, b, happend, hl, hflag, -, hblock, -, hblockMilli, hblockGas⟩ :=
    appendHeader_of_ready hready hera hprev (by rw [hprevMilli]; exact hlater) hgas
  have hlnumber : l.number = number + 1 := hl.trans hnext
  have hflag' : b.isEpoch = false := by
    rw [hflag, h.epoch]
    refine decide_eq_false ?_
    change ¬ wrapSucc st.snapshot.number % maxwellEpochLength = 0
    rw [hnext]
    exact hplain
  have hduring : st.snapshot.pendingDuring l b = none := by
    rw [Snapshot.pendingDuring, hflag']
    exact h.pending
  refine ⟨call, block, _, happend, hblock.trans hnext, ?_, ?_, ?_, hlnumber, block,
    List.getLast?_concat, hblockMilli, hblockGas⟩
  · exact h.snapshot.next_plain h.pending hflag' (by rw [h.number, hlnumber]; exact Nat.le_succ _)
  · rw [Snapshot.next_epochLength, Snapshot.advanceEpochLength, h.epoch]
    simp [maxwellEpochLength, lorentzEpochLength, defaultEpochLength]
  · rcases st.snapshot.next_sets sk.address l b (st.snapshot.singleDraft milli' []).milli with
      ⟨q, hq, -⟩ | ⟨-, -, -, -, -, -, hpend⟩
    · rw [hduring] at hq
      cases hq
    · exact hpend.trans hduring

theorem exists_single_start {n : ℕ} (hfits : (blankDraft n).Fits)
    (hplain : n % maxwellEpochLength ≠ 0) : ∃ (st : Synced) (genesis : VerifiedBlock),
      st.chain = [genesis] ∧ st.snapshot.At genesis ∧
      st.SingleAt (mockKey 1) n 1770000000000 := by
  obtain ⟨header, hash, e, he, hsole, hnumber, -, -, hpending, -⟩ :=
    exists_sole_engine (mockKey 1) (.repeated 48 1) hfits (.inl hplain)
  obtain ⟨genesis, hchain, hat, -, -⟩ := LightEngine.genesis_of_ok he
  have hs := hsole.snapshot
  exact ⟨⟨e.chain, e.snapshot⟩, genesis, hchain, hat,
    ⟨hs.validators, hs.turn, by norm_num, hs.recents⟩, hs.epoch, hpending, hnumber, hsole.tip⟩

/-! ### The end of the numbers -/

/-- A chain of one validator whose last block has the last number but one. -/
theorem exists_last_start : ∃ (st : Synced) (genesis : VerifiedBlock), st.chain = [genesis] ∧
    st.snapshot.At genesis ∧ st.SingleAt (mockKey 1) (u64Size - 2) 1770000000000 := by
  have hsize : u64Size = 18446744073709551616 := u64Size_eq
  have hlow : londonBlock ≤ 18446744073709551614 := by decide
  have hplain : (u64Size - 2) % maxwellEpochLength ≠ 0 := by
    rw [hsize]
    decide
  refine exists_single_start ⟨⟨?_, ?_⟩, ?_, .inr rfl, Nat.zero_le _⟩ hplain
  · change londonBlock ≤ u64Size - 2
    omega
  · change u64Size - 2 < u64Size
    omega
  · exact (@blankDraft_fits sealedChainStart (by decide) (by decide)).milli

/-- Above the last number the sum wraps: a header of block `0`, which is an epoch block, is
appended. -/
theorem Synced.SingleAt.append_zero {st : Synced} {milli milli' : ℕ}
    (h : st.SingleAt (mockKey 1) (u64Size - 1) milli)
    (hmilli : 1770000000000 ≤ milli' ∧ milli' < 1780000000000) (hlater : milli + 1000 ≤ milli') :
    ∃ call block s, appendHeader mockPrimitives st call = (.ok (), ⟨st.chain ++ [block], s⟩) ∧
      block.number = 0 := by
  have hnext : wrapSucc st.snapshot.number = 0 := by
    rw [h.number]
    exact if_pos rfl
  have hmaxwell : maxwellTime * 1000 ≤ 1770000000000 := by decide
  have hera : maxwellTime ≤ milli' / 1000 :=
    (Nat.le_div_iff_mul_le (by norm_num)).mpr (hmaxwell.trans hmilli.1)
  have hfirst : lorentzTime * 1000 ≤ 1770000000000 := by decide
  have hready : Snapshot.Ready (mockKey 1) st.snapshot
      (st.snapshot.singleDraft milli' (soleRecords 1 8)) none
      [⟨(mockKey 1).address, .repeated 48 1⟩] (some 8) := by
    refine h.snapshot.ready_epoch hnext u64Size_pos ⟨hfirst.trans hmilli.1, hmilli.2⟩
      (length_soleRecords (by norm_num) 8)
      (.inr ⟨_, _, _, rfl, by simp, by simp, by simp, by norm_num, by decide⟩) (.inr ⟨rfl, ?_⟩)
      (by simp) (by simp) (by norm_num) (Nat.zero_mod _)
    change wrapSucc st.snapshot.number < londonBlock
    rw [hnext]
    decide
  obtain ⟨prev, hprev, hprevMilli, hgas⟩ := h.tip
  obtain ⟨call, block, _, _, happend, -, -, -, hblock, -⟩ :=
    appendHeader_of_ready hready hera hprev (by rw [hprevMilli]; exact hlater) hgas
  exact ⟨call, block, _, happend, hblock.trans hnext⟩

/-! ## Whole calls -/

namespace Synced.Lockstep

variable {st : Synced}

theorem appendHeaders (h : st.Lockstep) (calls : List TimedHeader) :
    (appendHeaders P st calls).2.Lockstep := by
  induction calls generalizing st with
  | nil => exact h
  | cons call rest ih =>
    rw [HeliosBsc.appendHeaders]
    rcases appendHeader_inv (P := P) st call with
      ⟨signer, l, b, milli, block, -, -, hof, hr⟩ | ⟨e, hr⟩ | ⟨e, n, hr⟩
    · rw [hr]
      exact ih ⟨block, List.getLast?_concat, hof.number, hof.hash⟩
    · rw [hr]
      exact h
    · rw [hr]
      exact h

theorem trim (h : st.Lockstep) : Synced.Lockstep ⟨trimChain st.chain, st.snapshot⟩ := by
  obtain ⟨b, hb, hat⟩ := h
  exact ⟨b, (getLast?_trimChain st.chain).trans hb, hat⟩

/-- Wherever the call stops, chain and snapshot are at one block. -/
theorem appendSynced (h : st.Lockstep) (headersRange : HeadersRange) (newTip : ℕ) :
    (appendSynced P headersRange st newTip).2.Lockstep := by
  unfold HeliosBsc.appendSynced
  simp only
  split
  · exact h
  · split
    · exact h
    · next headers _ =>
      have hall := h.appendHeaders (P := P) headers
      split
      · next hr =>
        rw [hr] at hall
        exact hall
      · next hr =>
        rw [hr] at hall
        exact hall.trim

end Synced.Lockstep

/-- How a state comes from `start` by appending: `appended` are linked to each other and to the last
block of the start, and what is left of the chain ends at the snapshot's block. -/
structure Extends (P : Primitives) (start : Synced) (appended : List VerifiedBlock) (st : Synced) :
    Prop where
  linked : List.IsChain Follows (start.chain.getLast?.toList ++ appended)
  bound : ∀ b ∈ appended, HashBound P b
  kept : st.chain <:+ start.chain ++ appended
  tip : st.Lockstep

namespace Extends

variable {start st : Synced} {appended : List VerifiedBlock}

theorem getLast?_eq (h : Extends P start appended st) :
    (start.chain ++ appended).getLast? = st.chain.getLast? := by
  obtain ⟨b, hb, -⟩ := h.tip
  obtain ⟨older, holder⟩ := h.kept
  rw [← holder, List.getLast?_append, hb]
  rfl

theorem push (h : Extends P start appended st) {tip block : VerifiedBlock} {s : Snapshot}
    (htip : st.chain.getLast? = some tip) (hfollows : Follows tip block)
    (hbound : HashBound P block) (hs : s.At block) :
    Extends P start (appended ++ [block]) ⟨st.chain ++ [block], s⟩ where
  linked := by
    rw [← List.append_assoc]
    refine h.linked.append (List.isChain_singleton _) ?_
    intro x hx y hy
    have hlast : (start.chain.getLast?.toList ++ appended).getLast? = some tip := by
      rw [← htip, ← h.getLast?_eq, List.getLast?_append, List.getLast?_append]
      cases start.chain.getLast? with
      | none => rfl
      | some b => rfl
    rw [hlast] at hx
    cases hx
    cases hy
    exact hfollows
  bound := by
    intro b hb
    rcases List.mem_append.mp hb with hb | hb
    · exact h.bound b hb
    · exact (List.mem_singleton.mp hb) ▸ hbound
  kept := by
    rw [← List.append_assoc]
    exact (List.suffix_append_inj_of_length_eq rfl).mpr ⟨h.kept, rfl⟩
  tip := ⟨block, List.getLast?_concat, hs⟩

theorem trim (h : Extends P start appended st) :
    Extends P start appended { st with chain := trimChain st.chain } := by
  have hkept : trimChain st.chain <:+ start.chain ++ appended :=
    List.IsSuffix.trans (trimChain_suffix st.chain) h.kept
  exact ⟨h.linked, h.bound, hkept, h.tip.trim⟩

theorem appendHeaders (h : Extends P start appended st) {calls : List TimedHeader}
    (hunwrapped : UnwrappedFrom st.snapshot.number calls) :
    ∃ more, Extends P start (appended ++ more) (appendHeaders P st calls).2 := by
  induction calls generalizing st appended with
  | nil => exact ⟨[], by simpa [HeliosBsc.appendHeaders] using h⟩
  | cons call rest ih =>
    obtain ⟨tip, htip, hs⟩ := h.tip
    rw [HeliosBsc.appendHeaders]
    rcases appendHeader_inv (P := P) st call with
      ⟨signer, l, b, milli, block, hseal, hacc, hof, hr⟩ | ⟨e, hr⟩ | ⟨e, n, hr⟩
    · have hnext : (st.snapshot.next signer l b milli).At block := ⟨hof.number, hof.hash⟩
      obtain ⟨habove, hrest⟩ := hunwrapped.next hacc
      obtain ⟨more, hmore⟩ := ih (h.push htip (follows_of_accepts habove hacc hof hs)
        (hashBound_of_seal hseal hacc hof) hnext) hrest
      rw [hr]
      exact ⟨block :: more, by simpa using hmore⟩
    · rw [hr]
      exact ⟨[], by simpa using h⟩
    · rw [hr]
      exact ⟨[], by simpa using ⟨h.linked, h.bound, h.kept, tip, htip, hs⟩⟩

theorem appendSynced (h : Extends P start appended st) {headersRange : HeadersRange}
    {newTip : ℕ} (hunwrapped : headersRange.Unwrapped newTip) :
    ∃ more, Extends P start (appended ++ more) (appendSynced P headersRange st newTip).2 := by
  have hstay : ∃ more, Extends P start (appended ++ more) st := ⟨[], by simpa using h⟩
  unfold HeliosBsc.appendSynced
  simp only
  split
  · exact hstay
  · next hlow =>
    split
    · exact hstay
    · next headers hrange =>
      obtain ⟨more, hmore⟩ := h.appendHeaders
        (hunwrapped.of_range h.tip (Nat.not_le.mp hlow) hrange)
      split
      · next hr => exact ⟨more, by rwa [hr] at hmore⟩
      · next hr => exact ⟨more, by rw [hr] at hmore; exact hmore.trim⟩

theorem isChain_append (h : Extends P start appended st)
    (hchain : List.IsChain Follows start.chain) :
    List.IsChain Follows (start.chain ++ appended) :=
  HashChain.isChain_append_of_getLast hchain h.linked

theorem isChain (h : Extends P start appended st) (hchain : List.IsChain Follows start.chain) :
    List.IsChain Follows st.chain := by
  have hall := h.isChain_append hchain
  obtain ⟨older, holder⟩ := h.kept
  rw [← holder] at hall
  exact hall.right_of_append

end Extends

/-- One call of `append_new_with_snapshot`: the upstream's answers and the tip it named. -/
structure AppendCall where
  headersRange : HeadersRange
  newTip : ℕ

/-- The answers of the upstream do not overflow. -/
def AppendCall.Unwrapped (call : AppendCall) : Prop := call.headersRange.Unwrapped call.newTip

def appendStep (P : Primitives) (st : Synced) (call : AppendCall) : Except Report Unit × Synced :=
  appendSynced P call.headersRange st call.newTip

/-- From a state whose last block is the snapshot's, after any sequence of calls that succeed or fail
part way, the last block is still the snapshot's. Where no answer goes from the last `u64` on to block
`0`: the blocks appended on the way carry consecutive numbers, stored headers whose parent is the
block before (the first one's is the last block of the start) and hashes that are those of their
headers; the chain is what the trimming has left of the start and the appended blocks, so that it is
consecutive and linked if it was at the start. -/
theorem append_lockstep (start : Synced) {tip : VerifiedBlock}
    (htip : start.chain.getLast? = some tip)
    (hat : tip.number = start.snapshot.number ∧ tip.hash = start.snapshot.hash)
    (calls : List AppendCall) :
    let st := Machine.run (appendStep P) start calls
    (∃ b, st.chain.getLast? = some b ∧ b.number = st.snapshot.number ∧
      b.hash = st.snapshot.hash) ∧
    ((∀ call ∈ calls, call.Unwrapped) →
      (∃ appended, st.chain <:+ start.chain ++ appended ∧
        List.IsChain Follows (tip :: appended) ∧ ∀ b ∈ appended, HashBound P b) ∧
      (List.IsChain Follows start.chain → List.IsChain Follows st.chain)) := by
  intro st
  have hlockstep : st.Lockstep := Machine.run_invariant (I := Synced.Lockstep)
    (fun s call hs => hs.appendSynced call.headersRange call.newTip) ⟨tip, htip, hat⟩ calls
  refine ⟨hlockstep, fun hunwrapped => ?_⟩
  have hstart : Extends P start [] start :=
    ⟨by simp [htip], by simp, by simp, tip, htip, hat⟩
  have hrun : ∃ appended, Extends P start appended st := by
    refine Machine.run_invariant_mem (I := fun s => ∃ appended, Extends P start appended s) ?_
      ⟨[], hstart⟩
    rintro s call hcall ⟨appended, hs⟩
    obtain ⟨more, hmore⟩ := hs.appendSynced (hunwrapped call hcall)
    exact ⟨appended ++ more, hmore⟩
  obtain ⟨appended, h⟩ := hrun
  have hlinked : List.IsChain Follows (tip :: appended) := by
    have := h.linked
    rwa [htip] at this
  exact ⟨⟨appended, h.kept, hlinked, h.bound⟩, h.isChain⟩

/-- The mock's chain after a call that appends two blocks: whatever the upstream answers from then
on, the chain stays linked. -/
theorem append_lockstep_two : ∃ (start : Synced) (call : AppendCall) (first second third :
    VerifiedBlock), call.Unwrapped ∧
    (Machine.run (appendStep mockPrimitives) start [call]).chain = [first, second, third] ∧
    ∀ calls, (∀ call' ∈ calls, call'.Unwrapped) →
      let st := Machine.run (appendStep mockPrimitives) start (call :: calls)
      (∃ b, st.chain.getLast? = some b ∧ b.number = st.snapshot.number ∧
        b.hash = st.snapshot.hash) ∧ List.IsChain Follows st.chain := by
  have hstart : sealedChainStart = 116664100 := rfl
  have hlow : londonBlock ≤ sealedChainStart := by decide
  have hsmall : sealedChainStart + 4 < u64Size := Draft.small_lt_u64Size (by decide)
  have hlength : maxwellEpochLength = 1000 := rfl
  obtain ⟨st, genesis, hchain, hat, hsingle⟩ :=
    exists_single_start (blankDraft_fits hlow (by decide)) (by decide)
  obtain ⟨call, block, s, happend, -, hnext⟩ :=
    hsingle.append ⟨by omega, by omega⟩ (by norm_num) le_rfl (by rw [hlength]; omega)
  obtain ⟨call', block', s', happend', -, -⟩ :=
    hnext.append ⟨by omega, by omega⟩ (by norm_num) le_rfl (by rw [hlength]; omega)
  obtain ⟨headersRange, hrange⟩ : ∃ headersRange : HeadersRange,
      ∀ a b, headersRange a b = .ok [call, call'] := ⟨fun _ _ => .ok [call, call'], fun _ _ => rfl⟩
  have hlast : lastNumber st.chain = sealedChainStart := by
    rw [hchain, ← hsingle.number]
    exact hat.1
  have hboth : appendHeaders mockPrimitives st [call, call'] =
      (.ok (), ⟨[genesis, block, block'], s'⟩) := by
    rw [hchain] at happend happend'
    simp only [appendHeaders, happend, happend']
    rfl
  have hstep := appendSynced_ok (show lastNumber st.chain < sealedChainStart + 2 by omega)
    (hrange _ _) hboth (by simp)
  have hunwrapped : AppendCall.Unwrapped ⟨headersRange, sealedChainStart + 2⟩ := by
    refine .of_length (fun a headers h => ?_) (show sealedChainStart + 2 + 2 < u64Size by omega)
    obtain rfl : [call, call'] = headers := Except.ok.inj ((hrange _ _).symm.trans h)
    exact le_rfl
  refine ⟨st, ⟨headersRange, sealedChainStart + 2⟩, genesis, block, block', hunwrapped, ?_, ?_⟩
  · rw [Machine.run_cons, Machine.run_nil, appendStep, hstep]
  · intro calls hcalls
    have htip : st.chain.getLast? = some genesis := by rw [hchain]; rfl
    obtain ⟨hlockstep, hall⟩ := append_lockstep (P := mockPrimitives) st htip hat
      (⟨headersRange, sealedChainStart + 2⟩ :: calls)
    refine ⟨hlockstep, (hall (List.forall_mem_cons.mpr ⟨hunwrapped, hcalls⟩)).2 ?_⟩
    rw [hchain]
    exact List.isChain_singleton _

/-- A tip at the last number, and a list of two headers above a chain that ends right below it: both
are appended, and the second is block `0`. -/
theorem append_past_the_last : ¬ ∀ (P : Primitives) (start : Synced) (tip : VerifiedBlock)
      (calls : List AppendCall), start.chain.getLast? = some tip → start.snapshot.At tip →
      (∀ call ∈ calls, call.newTip < u64Size) → List.IsChain Follows start.chain →
      List.IsChain Follows (Machine.run (appendStep P) start calls).chain := by
  intro hall
  have hsize : u64Size = 18446744073709551616 := u64Size_eq
  have hplain : (u64Size - 2 + 1) % maxwellEpochLength ≠ 0 := by
    rw [hsize]
    decide
  have hlow : londonBlock ≤ u64Size - 2 + 1 := by
    rw [hsize]
    decide
  obtain ⟨st, genesis, hchain, hat, hsingle⟩ := exists_last_start
  obtain ⟨call, block, s, happend, hblock, hnext⟩ :=
    hsingle.append ⟨hlow, by omega⟩ (by norm_num) le_rfl hplain
  rw [show u64Size - 2 + 1 = u64Size - 1 by omega] at hblock hnext
  obtain ⟨call', block', s', happend', hblock'⟩ := hnext.append_zero (by norm_num) le_rfl
  rw [hchain] at happend happend'
  have hboth : appendHeaders mockPrimitives st [call, call'] =
      (.ok (), ⟨[genesis, block, block'], s'⟩) := by
    simp only [appendHeaders, happend, happend']
    rfl
  have hlast : lastNumber st.chain = u64Size - 2 := by
    rw [hchain, ← hsingle.number]
    exact hat.1
  obtain ⟨headersRange, hrange⟩ : ∃ headersRange : HeadersRange,
      ∀ a b, headersRange a b = .ok [call, call'] := ⟨fun _ _ => .ok [call, call'], fun _ _ => rfl⟩
  have hstep := appendSynced_ok (show lastNumber st.chain < u64Size - 1 by omega) (hrange _ _) hboth
    (by simp)
  have hlinked := hall mockPrimitives st genesis [⟨headersRange, u64Size - 1⟩]
    (by rw [hchain]; rfl) hat
    (List.forall_mem_singleton.mpr (show u64Size - 1 < u64Size by omega))
    (by rw [hchain]; exact List.isChain_singleton _)
  rw [Machine.run_cons, Machine.run_nil, appendStep, hstep, List.isChain_cons_cons,
    List.isChain_cons_cons] at hlinked
  have hwrong := hlinked.2.1.1
  omega

end

end HeliosBsc
