import HeliosBsc.Consensus.HeaderBinding
import HeliosBsc.Node.Walk
import Mathlib.Data.List.Infix

/-!
# Fork choice without a checkpoint

Without a snapshot a chain stands on the seals and links of its headers alone, and `catch_up` can
replace it. A jump shares no height with the old chain, an append keeps it, and a resync has to meet
it near its tip. From there down both chains are the same, because a header hash binds the parent.
-/

namespace HeliosBsc

open Checked

variable {P : Primitives}

/-! ## Chains that stand on their headers -/

/-- Every block follows the one before, and every hash is that of the stored header. -/
structure SelfBound (P : Primitives) (chain : List VerifiedBlock) : Prop where
  linked : List.IsChain Follows chain
  bound : ∀ b ∈ chain, HashBound P b

namespace SelfBound

variable {chain chain' extra : List VerifiedBlock}

theorem suffix (h : SelfBound P chain) (hs : chain' <:+ chain) : SelfBound P chain' :=
  ⟨h.linked.suffix hs, fun b hb => h.bound b (hs.subset hb)⟩

theorem append (h : SelfBound P chain)
    (hlinked : List.IsChain Follows (chain.getLast?.toList ++ extra))
    (hbound : ∀ b ∈ extra, HashBound P b) : SelfBound P (chain ++ extra) := by
  constructor
  · exact HashChain.isChain_append_of_getLast h.linked hlinked
  · intro b hb
    rcases List.mem_append.mp hb with hb | hb
    · exact h.bound b hb
    · exact hbound b hb

theorem lastNumber_lt (h : SelfBound P chain) {b : VerifiedBlock} (hb : b ∈ chain) :
    lastNumber chain < b.number + chain.length := by
  cases chain with
  | nil => cases hb
  | cons first rest =>
    obtain ⟨last, hlast⟩ : ∃ last, (first :: rest).getLast? = some last :=
      ⟨_, List.getLast?_eq_getLast_of_ne_nil (List.cons_ne_nil first rest)⟩
    have hlinked := h.linked
    have hfirst : first.number ≤ b.number := firstNumber_le hlinked hb
    rw [follows_eq] at hlinked
    have hlength := HashChain.number_getLast hlinked hlast
    unfold lastNumber
    rw [hlast, Option.map_some, Option.getD_some, hlength, List.length_cons]
    omega

end SelfBound

theorem linkFrom_eq_ok {p : VerifiedBlock} {parent : Hash} {number : ℕ} (habove : number ≠ 0)
    (h : linkFrom (some p) parent number = .ok ()) : number = p.number + 1 ∧ parent = p.hash := by
  simp only [linkFrom, linkOk, bind_eq_ok, require_eq_ok] at h
  obtain ⟨-, hnumber, hparent⟩ := h
  exact ⟨eq_succ_of_wrapSucc hnumber habove, hparent⟩

/-- The headers carry the numbers from `start` on. -/
def NumberedFrom (start : ℕ) (headers : List TimedHeader) : Prop :=
  headers.map (fun call => decodeU64 call.1.number) =
    (List.range' start headers.length).map .ok

theorem NumberedFrom.cons_iff {start : ℕ} {call : TimedHeader} {rest : List TimedHeader} :
    NumberedFrom start (call :: rest) ↔
      decodeU64 call.1.number = .ok start ∧ NumberedFrom (start + 1) rest := by
  unfold NumberedFrom
  rw [List.map_cons, List.length_cons, List.range'_succ, List.map_cons, List.cons.injEq]

/-- The loop pushes a block for every header, linked to what is there. A block `0` only begins a
chain. -/
theorem verifyHeaderChainLoop_ok {prev : Option VerifiedBlock} {headers : List TimedHeader}
    {parentHeader : Option RpcBlockHeader} {chain out : List VerifiedBlock} {start : ℕ}
    (hnumbered : NumberedFrom start headers) (hfirst : start = 0 → chain.getLast?.or prev = none)
    (h : verifyHeaderChainLoop P prev parentHeader chain headers = .ok out) :
    ∃ extra, out = chain ++ extra ∧
      List.IsChain Follows ((chain.getLast?.or prev).toList ++ extra) ∧
      (∀ b ∈ extra, HashBound P b) ∧
      ∀ b ∈ extra, ∃ call ∈ headers, decodeU64 call.1.number = .ok b.number := by
  induction headers generalizing parentHeader chain start with
  | nil =>
    rw [verifyHeaderChainLoop, Except.ok.injEq] at h
    refine ⟨[], by rw [h, List.append_nil], ?_, by simp, by simp⟩
    cases chain.getLast?.or prev with
    | none => exact List.isChain_nil
    | some p => exact List.isChain_singleton p
  | cons call rest ih =>
    obtain ⟨header, now⟩ := call
    simp only [verifyHeaderChainLoop, withContext, bind_eq_ok, mapError_eq_ok] at h
    obtain ⟨signer, hseal, number, hn, -, -, parent, hp, ⟨⟩, hlink, ⟨⟩, -, block, hblock, h⟩ := h
    obtain ⟨hnumber, hhash, -, -, -, hheader⟩ := blockOfHeader_ok hblock
    obtain rfl : number = block.number := Except.ok.inj (hn.symm.trans hnumber)
    obtain ⟨hstart, hrest⟩ := NumberedFrom.cons_iff.mp hnumbered
    obtain rfl : block.number = start := Except.ok.inj (hnumber.symm.trans hstart)
    obtain ⟨extra, rfl, hlinked, hbound, hnumbers⟩ :=
      ih hrest (fun hzero => absurd hzero (Nat.succ_ne_zero _)) h
    rw [List.getLast?_concat, Option.some_or, Option.toList_some, List.singleton_append] at hlinked
    refine ⟨block :: extra, by simp, ?_, ?_, ?_⟩
    · cases hlast : chain.getLast?.or prev with
      | none => exact hlinked
      | some p =>
        rw [hlast] at hlink hfirst
        obtain ⟨hfollows, rfl⟩ :=
          linkFrom_eq_ok (fun hzero => Option.some_ne_none p (hfirst hzero)) hlink
        exact List.isChain_cons_cons.mpr ⟨⟨hfollows, header, hheader, hp⟩, hlinked⟩
    · obtain ⟨computed, hcomputed, hclaimed⟩ := (sealOk_of_verify hseal).hash_eq
      obtain rfl : computed = block.hash := Except.ok.inj (hclaimed.symm.trans hhash)
      exact List.forall_mem_cons.mpr ⟨⟨header, hheader, hcomputed⟩, hbound⟩
    · intro b hb
      rcases List.mem_cons.mp hb with rfl | hb
      · exact ⟨_, List.mem_cons_self, hnumber⟩
      · obtain ⟨call, hcall, hread⟩ := hnumbers b hb
        exact ⟨call, List.mem_cons_of_mem _ hcall, hread⟩

/-- Every answer has the numbers that were asked for. -/
def HeadersRange.Numbered (headersRange : HeadersRange) : Prop :=
  ∀ fromBlock toBlock headers, headersRange fromBlock toBlock = .ok headers →
    headers.length = toBlock + 1 - fromBlock ∧ NumberedFrom fromBlock headers

theorem walkHeaders_ok {headersRange : HeadersRange} (hup : headersRange.Numbered)
    {fromBlock toBlock : ℕ} {chain : List VerifiedBlock}
    (h : walkHeaders P headersRange fromBlock toBlock = .ok chain) :
    SelfBound P chain ∧ ∃ headers, headersRange fromBlock toBlock = .ok headers ∧
      ∀ b ∈ chain, ∃ call ∈ headers, decodeU64 call.1.number = .ok b.number := by
  simp only [walkHeaders, verifyHeaderChainFrom, bind_eq_ok] at h
  obtain ⟨headers, hheaders, h⟩ := h
  obtain ⟨extra, rfl, hlinked, hbound, hnumbers⟩ :=
    verifyHeaderChainLoop_ok (hup _ _ headers hheaders).2 (fun _ => rfl) h
  exact ⟨⟨hlinked, hbound⟩, headers, hheaders, hnumbers⟩

theorem appendUnsynced_ok {headersRange : HeadersRange} (hup : headersRange.Numbered)
    {chain chain' : List VerifiedBlock} {newTip : ℕ} (hself : SelfBound P chain)
    (h : appendUnsynced P headersRange chain newTip = .ok chain') :
    ∃ extra, SelfBound P (chain ++ extra) ∧ chain' <:+ chain ++ extra := by
  unfold appendUnsynced at h
  simp only at h
  split at h
  · cases h
    exact ⟨[], by rwa [List.append_nil], [], (List.append_nil chain).symm⟩
  · simp only [verifyHeaderChainFrom, bind_eq_ok, pure_eq_ok, Except.ok.injEq] at h
    obtain ⟨headers, hheaders, extra, hextra, rfl⟩ := h
    obtain ⟨extra', heq, hlinked, hbound, -⟩ := verifyHeaderChainLoop_ok
      (hup _ _ headers hheaders).2 (fun hzero => absurd hzero (Nat.succ_ne_zero _)) hextra
    rw [heq, List.nil_append]
    exact ⟨extra', hself.append hlinked hbound, trimChain_suffix _⟩

/-- How a chain without a snapshot comes about. -/
inductive Built (P : Primitives) : List VerifiedBlock → Prop
  | walked {headersRange : HeadersRange} {fromBlock toBlock : ℕ} {chain : List VerifiedBlock} :
      headersRange.Numbered → walkHeaders P headersRange fromBlock toBlock = .ok chain →
      Built P chain
  | appended {headersRange : HeadersRange} {chain chain' : List VerifiedBlock} {newTip : ℕ} :
      Built P chain → headersRange.Numbered →
      appendUnsynced P headersRange chain newTip = .ok chain' → Built P chain'

theorem Built.selfBound {chain : List VerifiedBlock} (h : Built P chain) : SelfBound P chain := by
  induction h with
  | walked hup h => exact (walkHeaders_ok hup h).1
  | appended _ hup h ih =>
    obtain ⟨extra, hall, hsuffix⟩ := appendUnsynced_ok hup ih h
    exact hall.suffix hsuffix

/-! ## Below a shared block -/

/-- Two blocks whose stored headers are hashed as different strings, to one hash. -/
def HeaderCollision (P : Primitives) (b c : VerifiedBlock) : Prop :=
  ∃ header header' bytes bytes', b.header = some header ∧ c.header = some header' ∧
    headerPreimage header = .ok bytes ∧ headerPreimage header' = .ok bytes' ∧ bytes ≠ bytes' ∧
    P.keccak256 bytes = P.keccak256 bytes'

/-- Blocks of one hash with different parents are a collision. -/
theorem HashBound.collision {b c : VerifiedBlock} (hb : HashBound P b) (hc : HashBound P c)
    (h : HashChain.Clash VerifiedBlock.number VerifiedBlock.hash NamesParent b c) :
    HeaderCollision P b c := by
  obtain ⟨header, hheader, hhash⟩ := hb
  obtain ⟨header', hheader', hhash'⟩ := hc
  obtain ⟨bytes, hbytes, hk⟩ := map_eq_ok.mp hhash
  obtain ⟨bytes', hbytes', hk'⟩ := map_eq_ok.mp hhash'
  obtain ⟨p, q, ⟨x, hx, hp⟩, ⟨y, hy, hq⟩, hne⟩ := h.parents
  obtain rfl : header = x := Option.some.inj (hheader.symm.trans hx)
  obtain rfl : header' = y := Option.some.inj (hheader'.symm.trans hy)
  refine ⟨header, header', bytes, bytes', hheader, hheader', hbytes, hbytes', ?_, ?_⟩
  · rintro rfl
    exact hne (parent_eq_of_headerPreimage_eq hbytes hbytes' hp hq)
  · rw [hk, hk']
    exact h.hash_eq

/-- At one height the old and the new chain have one hash, or two of their headers collide. -/
def AgreeAt (P : Primitives) (old new : List VerifiedBlock) (b c : VerifiedBlock) : Prop :=
  b.hash = c.hash ∨ ∃ u ∈ old, ∃ v ∈ new, HeaderCollision P u v

section

variable {old new : List VerifiedBlock}

/-- A new chain that meets the old one near its tip is the old one from there down. -/
theorem agreeAt_of_reorgWithinDepth (hold : SelfBound P old) (hnew : SelfBound P new) {depth : ℕ}
    (h : reorgWithinDepth old new depth = true) {b c : VerifiedBlock} (hb : b ∈ old) (hc : c ∈ new)
    (hbc : b.number = c.number) (hdeep : b.number + depth ≤ lastNumber old) :
    AgreeAt P old new b c := by
  unfold reorgWithinDepth at h
  have hne : ¬ (old = [] ∨ new = []) :=
    not_or.mpr ⟨List.ne_nil_of_mem hb, List.ne_nil_of_mem hc⟩
  simp only [if_neg hne, List.any_eq_true, decide_eq_true_eq] at h
  obtain ⟨x, hx, y, hy, hhash, hnumber⟩ := h
  -- the shared block stands above the height
  have hshallow : lastNumber old - depth ≤ x.number := by
    simpa using List.mem_takeWhile_imp hx
  have hxold : x ∈ old := List.mem_reverse.mp ((List.takeWhile_prefix _).subset hx)
  have hlinked := hold.linked
  have hlinked' := hnew.linked
  rw [follows_eq] at hlinked hlinked'
  rcases HashChain.agree_below hlinked hlinked' hxold hy hnumber.symm hhash.symm hb hc hbc
    (by omega) with heq | ⟨u, hu, v, hv, hclash⟩
  · exact .inl heq
  · exact .inr ⟨u, hu, v, hv, (hold.bound u hu).collision (hnew.bound v hv) hclash⟩

theorem agreeAt_of_suffix {extra : List VerifiedBlock} (h : SelfBound P (old ++ extra))
    (hkept : new <:+ old ++ extra) {b c : VerifiedBlock} (hb : b ∈ old) (hc : c ∈ new)
    (hbc : b.number = c.number) : AgreeAt P old new b c := by
  left
  rw [eq_of_number_eq h.linked (List.mem_append_left _ hb) (hkept.subset hc) hbc]

end

/-! ## Catching up -/

/-- The blocks of a walk stand in the range, and its end is a number of a header. -/
theorem HeadersRange.Numbered.walkHeaders {headersRange : HeadersRange}
    (hup : headersRange.Numbered) {fromBlock toBlock : ℕ} {chain : List VerifiedBlock}
    (h : walkHeaders P headersRange fromBlock toBlock = .ok chain) {b : VerifiedBlock}
    (hb : b ∈ chain) : fromBlock ≤ b.number ∧ toBlock < u64Size := by
  obtain ⟨-, headers, hheaders, hnumbers⟩ := walkHeaders_ok hup h
  obtain ⟨hlength, hmap⟩ := hup fromBlock toBlock headers hheaders
  unfold NumberedFrom at hmap
  rw [hlength] at hmap
  obtain ⟨call, hcall, hread⟩ := hnumbers b hb
  have hmem : decodeU64 call.1.number ∈ headers.map fun call => decodeU64 call.1.number :=
    List.mem_map.mpr ⟨call, hcall, rfl⟩
  rw [hmap, hread] at hmem
  obtain ⟨n, hn, heq⟩ := List.mem_map.mp hmem
  obtain rfl : n = b.number := Except.ok.inj heq
  obtain ⟨hlow, hhigh⟩ := List.mem_range'_1.mp hn
  refine ⟨hlow, ?_⟩
  have htop : (.ok toBlock : Except TypesError ℕ) ∈
      headers.map fun call => decodeU64 call.1.number := by
    rw [hmap]
    exact List.mem_map.mpr ⟨toBlock, List.mem_range'_1.mpr (by omega), rfl⟩
  obtain ⟨last, -, hlast⟩ := List.mem_map.mp htop
  exact decodeU64_lt hlast

/-- A jump shares no height with the old chain, and a short chain has none that deep. -/
theorem not_deep_of_jump {headersRange : HeadersRange} (hup : headersRange.Numbered)
    {old new : List VerifiedBlock} (hold : SelfBound P old) {lookback tip : ℕ}
    (hjump : satAdd (lastNumber old) lookback < tip ∨ old.length < 16)
    (h : walkLookback P headersRange lookback tip = .ok new) {b c : VerifiedBlock}
    (hb : b ∈ old) (hc : c ∈ new) (hbc : b.number = c.number) :
    ¬ b.number + maxReorgDepth ≤ lastNumber old := by
  intro hdeep
  have hdepth : maxReorgDepth = 21 := rfl
  obtain ⟨hlow, hhigh⟩ := hup.walkHeaders h hc
  rcases hjump with hfar | hshort
  · unfold satAdd at hfar
    omega
  · have hlength := hold.lastNumber_lt hb
    omega

/-- Fork choice without a checkpoint is bounded and all or nothing. From a chain that was built by
walks and appends, with any lookback and an upstream that answers with errors or with the numbers
asked for: a failed `catch_up` leaves the chain as it was; after one that succeeds the new chain is
consecutive and linked, and at every height at least `max_reorg_depth` below the old tip that both
chains have, they have the same hash, or two of their headers collide. -/
theorem lookback_fork_choice {chain : List VerifiedBlock} (hbuilt : Built P chain)
    {headersRange : ℕ → HeadersRange} (hup : ∀ k, (headersRange k).Numbered)
    (blockNumber : Except Report ℕ) (lookback maxSync : ℕ) :
    let r := catchUp P blockNumber headersRange chain lookback maxSync none
    let chain' := r.2.1
    (∀ e, r.1 = .error e → chain' = chain) ∧
    ∀ tip, r.1 = .ok tip → List.IsChain Follows chain' ∧
      ∀ b ∈ chain, ∀ c ∈ chain', b.number = c.number →
        b.number + maxReorgDepth ≤ lastNumber chain → AgreeAt P chain chain' b c := by
  have hself := hbuilt.selfBound
  unfold catchUp
  cases withContext "eth_blockNumber catch-up" blockNumber with
  | error e => exact ⟨fun _ _ => rfl, fun tip h => nomatch h⟩
  | ok tip =>
    simp only
    cases hr : resyncLookback P headersRange chain lookback tip with
    | error e => exact ⟨fun _ _ => rfl, fun tip h => nomatch h⟩
    | ok out =>
      obtain ⟨chain', count⟩ := out
      refine ⟨fun e h => (nomatch h), fun tip' _ => ?_⟩
      change List.IsChain Follows chain' ∧ ∀ b ∈ chain, ∀ c ∈ chain', b.number = c.number →
        b.number + maxReorgDepth ≤ lastNumber chain → AgreeAt P chain chain' b c
      unfold resyncLookback at hr
      split at hr
      · next hjump =>
        simp only [bind_eq_ok, pure_eq_ok, Except.ok.injEq, Prod.mk.injEq] at hr
        obtain ⟨walked, hwalk, rfl, -⟩ := hr
        refine ⟨(walkHeaders_ok (hup 0) hwalk).1.linked, ?_⟩
        intro b hb c hc hbc hdeep
        exact absurd hdeep (not_deep_of_jump (hup 0) hself hjump hwalk hb hc hbc)
      · split at hr
        · next happend =>
          cases hr
          obtain ⟨extra, hall, hkept⟩ := appendUnsynced_ok (hup 0) hself happend
          refine ⟨(hall.suffix hkept).linked, ?_⟩
          intro b hb c hc hbc _
          exact agreeAt_of_suffix hall hkept hb hc hbc
        · split at hr
          · simp only [bind_eq_ok, pure_eq_ok, Except.ok.injEq, Prod.mk.injEq] at hr
            obtain ⟨walked, hwalk, accepted, haccepted, rfl, -⟩ := hr
            unfold acceptLookbackResync at haccepted
            split at haccepted
            · next hdepth =>
              cases haccepted
              have hnew := (walkHeaders_ok (hup 1) hwalk).1
              refine ⟨hnew.linked, ?_⟩
              intro b hb c hc hbc hdeep
              exact agreeAt_of_reorgWithinDepth hself hnew hdepth hb hc hbc hdeep
            · cases haccepted
          · cases hr

/-! ## A fork at the deepest block

Two branches of sealed headers, built without a snapshot. They part right above the lowest block that
a resync may still meet the old chain at. -/

/-- A header on top of `parent`, in no epoch block. -/
def rowDraft (number milli : ℕ) (parent root : Hash) : Draft :=
  ⟨number, parent, milli, root, diffInTurn, []⟩

/-- Numbers and times of a row of headers that are all in range and all plain. -/
def RowFits (number milli count : ℕ) : Prop :=
  ∀ j < count, (londonBlock ≤ number + j ∧ number + j < u64Size) ∧
    (number + j) % maxwellEpochLength ≠ 0 ∧
    maxwellTime * 1000 ≤ milli + 1000 * j ∧ milli + 1000 * j < u64Size

theorem RowFits.fits {number milli count : ℕ} (h : RowFits number milli (count + 1))
    (parent root : Hash) : (rowDraft number milli parent root).Fits := by
  obtain ⟨hnumber, -, hmilli⟩ := h 0 (Nat.succ_pos count)
  exact ⟨hnumber, hmilli, .inr rfl, Nat.zero_le _⟩

theorem RowFits.tail {number milli count : ℕ} (h : RowFits number milli (count + 1)) :
    RowFits (number + 1) (milli + 1000) count := by
  intro j hj
  have hnext := h (j + 1) (by omega)
  rwa [show number + (j + 1) = number + 1 + j by omega,
    show milli + 1000 * (j + 1) = milli + 1000 + 1000 * j by omega] at hnext

/-- The loop of `verify_header_chain_from` is where a header on top of `parent` passes. -/
structure LoopAt (number milli : ℕ) (parent : Hash) (prev : Option VerifiedBlock)
    (parentHeader : Option RpcBlockHeader) (chain : List VerifiedBlock) : Prop where
  link : linkFrom (chain.getLast?.or prev) parent number = .ok ()
  cascading : ∀ d : Draft, d.Fits → milli ≤ d.milli → ∀ miner sealBytes hash,
    cascadingFrom parentHeader prev (d.header miner sealBytes hash) = .ok ()

theorem loopAt_nil (number milli : ℕ) (parent : Hash) : LoopAt number milli parent none none [] :=
  ⟨rfl, fun _ _ _ _ _ _ => rfl⟩

/-- A sealed header with a number, a time, a parent and a state root. -/
structure Row (P : Primitives) (number milli : ℕ) (parent root : Hash) (call : TimedHeader)
    (block : VerifiedBlock) : Prop where
  verified : verifySealCoinbase P call.1 call.2 = .ok block.miner
  readNumber : decodeU64 call.1.number = .ok number
  readParent : decodeHexFixed 32 call.1.parentHash = .ok parent
  readHash : decodeHexFixed 32 call.1.hash = .ok block.hash
  readMilli : milliTimestamp call.1 = .ok milli
  readGasLimit : decodeU64 call.1.gasLimit = .ok mockGasLimit
  cascading : ∀ prev parentHeader chain, LoopAt number milli parent prev parentHeader chain →
    cascadingFrom parentHeader prev call.1 = .ok ()
  built : blockOfHeader call.1 block.miner = .ok block
  number_eq : block.number = number
  stateRoot_eq : block.stateRoot = root

theorem exists_row (sk : SecretKey P) {number milli count : ℕ}
    (hfits : RowFits number milli (count + 1)) (parent root : Hash) :
    ∃ call block, Row P number milli parent root call block := by
  have hd := hfits.fits parent root
  obtain ⟨sealBytes, hash, -, -, -, hverified⟩ :=
    verifySealCoinbase_sealOne sk hd (.inl (hfits 0 (Nat.succ_pos count)).2.1)
  have hmilli : milliTimestamp ((rowDraft number milli parent root).header sk.address sealBytes
      hash) = .ok milli := Draft.milliTimestamp_header sk.address sealBytes hash hd
  refine ⟨((rowDraft number milli parent root).header sk.address sealBytes hash,
    (rowDraft number milli parent root).time), (rowDraft number milli parent root).block sk.address
      sealBytes hash, hverified _ le_rfl hd.time.2, hd.reads.number, decodeHexFixed_hexPrefixed _,
    decodeHexFixed_hexPrefixed _, hmilli, hd.reads.gasLimit, fun prev parentHeader chain hat =>
      hat.cascading _ hd le_rfl _ _ _, ?_, rfl, rfl⟩
  have hnumber : decodeU64 ((rowDraft number milli parent root).header sk.address sealBytes
      hash).number = .ok number := hd.reads.number
  have hhash : decodeHexFixed 32 ((rowDraft number milli parent root).header sk.address sealBytes
      hash).hash = .ok hash := decodeHexFixed_hexPrefixed hash
  have hroot : decodeHexFixed 32 ((rowDraft number milli parent root).header sk.address sealBytes
      hash).stateRoot = .ok root := decodeHexFixed_hexPrefixed root
  have hgas : decodeU64 ((rowDraft number milli parent root).header sk.address sealBytes
      hash).gasLimit = .ok mockGasLimit := hd.reads.gasLimit
  unfold blockOfHeader
  simp only [hnumber, hhash, hroot, hmilli, hgas, mapError_ok, ok_bind, pure_eq_ok]
  rfl

namespace Row

variable {number milli : ℕ} {parent root : Hash} {call : TimedHeader} {block : VerifiedBlock}
  {prev : Option VerifiedBlock} {parentHeader : Option RpcBlockHeader} {chain : List VerifiedBlock}

theorem push (h : Row P number milli parent root call block)
    (hat : LoopAt number milli parent prev parentHeader chain) (rest : List TimedHeader) :
    verifyHeaderChainLoop P prev parentHeader chain (call :: rest) =
      verifyHeaderChainLoop P prev (some call.1) (chain ++ [block]) rest := by
  rw [verifyHeaderChainLoop]
  simp only [withContext, h.verified, h.readNumber, h.readHash, h.readParent, mapError_ok, ok_bind,
    hat.link, h.cascading _ _ _ hat, h.built]

theorem next (h : Row P number milli parent root call block) (hroom : number + 1 < u64Size) :
    LoopAt (number + 1) (milli + 1000) block.hash prev (some call.1) (chain ++ [block]) := by
  constructor
  · rw [List.getLast?_concat, Option.some_or]
    simp only [linkFrom, linkOk, h.number_eq, wrapSucc_of_lt hroom, require_of, ok_bind]
  · intro d hd hlater miner sealBytes hash
    simp only [cascadingFrom, h.readMilli, h.readGasLimit, mapError_ok, ok_bind]
    unfold HeliosBsc.cascading withContext
    rw [Draft.verifyCascadingVsParent_header miner sealBytes hash hd hlater]
    rfl

theorem stray (h : Row P number milli parent root call block) {tip : VerifiedBlock}
    (hnumber : wrapSucc tip.number = number) (hparent : parent ≠ tip.hash) :
    verifyHeaderChainLoop P (some tip) none [] [call] =
      .error ["parent_hash mismatch" ++ s!" at {number}"] := by
  rw [verifyHeaderChainLoop]
  simp only [withContext, h.verified, h.readNumber, h.readHash, h.readParent, mapError_ok, ok_bind,
    List.getLast?_nil, Option.none_or, linkFrom, linkOk, hnumber, require_of, require_of_not hparent]
  rfl

end Row

theorem exists_rows (sk : SecretKey P) {number milli count : ℕ} (hfits : RowFits number milli count)
    (hroom : number + count < u64Size) (parent root : Hash) :
    ∃ (calls : List TimedHeader) (blocks : List VerifiedBlock) (last : Hash),
      calls.length = count ∧ NumberedFrom number calls ∧
      blocks.map VerifiedBlock.number = List.range' number count ∧
      (∀ b ∈ blocks, b.stateRoot = root) ∧
      ∀ prev parentHeader chain, LoopAt number milli parent prev parentHeader chain →
        ∃ lastHeader,
          LoopAt (number + count) (milli + 1000 * count) last prev lastHeader (chain ++ blocks) ∧
          ∀ rest, verifyHeaderChainLoop P prev parentHeader chain (calls ++ rest) =
            verifyHeaderChainLoop P prev lastHeader (chain ++ blocks) rest := by
  induction count generalizing number milli parent with
  | zero =>
    refine ⟨[], [], parent, rfl, rfl, rfl, by simp, fun prev parentHeader chain hat => ?_⟩
    exact ⟨parentHeader, by simpa using hat, fun rest => by simp⟩
  | succ count ih =>
    obtain ⟨call, block, hrow⟩ := exists_row sk hfits parent root
    obtain ⟨calls, blocks, last, hlength, hnumbered, hnumbers, hroots, hrest⟩ :=
      ih hfits.tail (by omega) block.hash
    refine ⟨call :: calls, block :: blocks, last, by rw [List.length_cons, hlength],
      NumberedFrom.cons_iff.mpr ⟨hrow.readNumber, hnumbered⟩, ?_,
      List.forall_mem_cons.mpr ⟨hrow.stateRoot_eq, hroots⟩, fun prev parentHeader chain hat => ?_⟩
    · rw [List.map_cons, hrow.number_eq, hnumbers, List.range'_succ]
    · obtain ⟨lastHeader, hlast, hall⟩ :=
        hrest prev (some call.1) (chain ++ [block]) (hrow.next (by omega))
      rw [List.append_assoc, List.singleton_append] at hlast hall
      rw [show number + (count + 1) = number + 1 + count by omega,
        show milli + 1000 * (count + 1) = milli + 1000 + 1000 * count by omega]
      exact ⟨lastHeader, hlast, fun rest => (hrow.push hat _).trans (hall rest)⟩

theorem NumberedFrom.append {start : ℕ} {headers more : List TimedHeader}
    (h : NumberedFrom start headers) (hmore : NumberedFrom (start + headers.length) more) :
    NumberedFrom start (headers ++ more) := by
  unfold NumberedFrom at *
  rw [List.map_append, h, hmore, ← List.map_append, List.length_append, List.range'_append_1]

theorem containsText_append (phrase text : String) : containsText (phrase ++ text) phrase = true := by
  unfold containsText
  rw [String.toList_append]
  exact List.any_eq_true.mpr ⟨phrase.toList ++ text.toList, (List.mem_tails _ _).mpr List.suffix_rfl,
    List.isPrefixOf_iff_prefix.mpr (List.prefix_append _ _)⟩

theorem isLinkErr_mismatch (text : String) : isLinkErr ["parent_hash mismatch" ++ text] = true := by
  have hlower : asciiLowercase ("parent_hash mismatch" ++ text) =
      "parent_hash mismatch" ++ asciiLowercase text := by
    unfold asciiLowercase
    rw [String.toList_append, List.map_append, String.ofList_append]
    rfl
  unfold isLinkErr
  rw [List.any_cons, hlower, linkErrPhrases, List.any_cons, containsText_append]
  rfl

/-- An upstream that answers one request. -/
def onlyAnswer (lo hi : ℕ) (headers : List TimedHeader) : HeadersRange := fun fromBlock toBlock =>
  if fromBlock = lo ∧ toBlock = hi then .ok headers else .error []

@[simp] theorem onlyAnswer_self (lo hi : ℕ) (headers : List TimedHeader) :
    onlyAnswer lo hi headers lo hi = .ok headers := if_pos ⟨rfl, rfl⟩

theorem onlyAnswer_numbered {lo hi : ℕ} {headers : List TimedHeader}
    (hlength : headers.length = hi + 1 - lo) (hnumbered : NumberedFrom lo headers) :
    (onlyAnswer lo hi headers).Numbered := by
  intro fromBlock toBlock answer h
  unfold onlyAnswer at h
  split at h
  · next hspan =>
    obtain ⟨rfl, rfl⟩ := hspan
    cases h
    exact ⟨hlength, hnumbered⟩
  · cases h

theorem walkHeaders_rows {headersRange : HeadersRange} {fromBlock toBlock : ℕ}
    {calls more : List TimedHeader} {lastHeader : Option RpcBlockHeader}
    {blocks blocks' : List VerifiedBlock}
    (hrange : headersRange fromBlock toBlock = .ok (calls ++ more))
    (hfirst : verifyHeaderChainLoop P none none [] (calls ++ more) =
      verifyHeaderChainLoop P none lastHeader blocks more)
    (hmore : ∃ lastHeader', ∀ rest, verifyHeaderChainLoop P none lastHeader blocks (more ++ rest) =
      verifyHeaderChainLoop P none lastHeader' (blocks ++ blocks') rest) :
    walkHeaders P headersRange fromBlock toBlock = .ok (blocks ++ blocks') := by
  obtain ⟨lastHeader', hrest⟩ := hmore
  have hend := hrest []
  rw [List.append_nil] at hend
  unfold walkHeaders verifyHeaderChainFrom
  rw [hrange, ok_bind, hfirst, hend, verifyHeaderChainLoop]

/-- An answer from the first height on, and the blocks that it verifies to above the shared ones. -/
structure Branch (P : Primitives) (shared : List VerifiedBlock) (count : ℕ) (root : Hash)
    (calls : List TimedHeader) (blocks : List VerifiedBlock) : Prop where
  numbered : NumberedFrom sealedChainStart calls
  length : calls.length = count
  numbers : (shared ++ blocks).map VerifiedBlock.number = List.range' sealedChainStart count
  roots : ∀ b ∈ blocks, b.stateRoot = root
  walk : ∀ (headersRange : HeadersRange) (lo hi : ℕ), headersRange lo hi = .ok calls →
    walkHeaders P headersRange lo hi = .ok (shared ++ blocks)

namespace Branch

variable {shared blocks : List VerifiedBlock} {count : ℕ} {root : Hash} {calls : List TimedHeader}

theorem length_chain (h : Branch P shared count root calls blocks) :
    (shared ++ blocks).length = count := by
  rw [← List.length_map (f := VerifiedBlock.number), h.numbers, List.length_range']

theorem built (h : Branch P shared (count + 1) root calls blocks) : Built P (shared ++ blocks) := by
  have hlength : calls.length = sealedChainStart + count + 1 - sealedChainStart := by
    rw [h.length]
    omega
  exact .walked (onlyAnswer_numbered hlength h.numbered) (h.walk _ _ _ (onlyAnswer_self _ _ _))

theorem getLast (h : Branch P shared (count + 1) root calls blocks) :
    ∃ tip, (shared ++ blocks).getLast? = some tip ∧ tip.number = sealedChainStart + count := by
  obtain ⟨tip, htip⟩ : ∃ tip, (shared ++ blocks).getLast? = some tip :=
    ⟨_, List.getLast?_eq_getLast_of_ne_nil (List.ne_nil_of_length_eq_add_one h.length_chain)⟩
  have hlast := congrArg List.getLast? h.numbers
  rw [List.getLast?_map, htip, List.getLast?_range'] at hlast
  exact ⟨tip, htip, by simpa using hlast⟩

theorem exists_above (h : Branch P shared count root calls blocks) (hlong : shared.length < count) :
    ∃ c ∈ blocks, c.number = sealedChainStart + shared.length ∧ c.stateRoot = root := by
  have hlength := h.length_chain
  cases blocks with
  | nil =>
    rw [List.append_nil] at hlength
    omega
  | cons c rest =>
    have hat := congrArg (fun numbers => numbers[shared.length]?) h.numbers
    simp only [List.map_append, List.map_cons] at hat
    rw [List.getElem?_append_right (by rw [List.length_map]), List.length_map, Nat.sub_self,
      List.getElem?_cons_zero, List.getElem?_range' hlong, Nat.one_mul] at hat
    exact ⟨c, List.mem_cons_self, Option.some.inj hat, h.roots c List.mem_cons_self⟩

end Branch

/-- Two blocks that many branches share. -/
theorem exists_branches : ∃ a b : VerifiedBlock, a.number = sealedChainStart ∧
    b.number = sealedChainStart + 1 ∧ ∀ count ≤ 22, ∀ root, ∃ calls blocks,
      Branch mockPrimitives [a, b] (2 + count) root calls blocks := by
  have hstart : sealedChainStart = 116664100 := rfl
  have hmaxwell : maxwellTime * 1000 ≤ 1770000000000 := by decide
  have hlondon : londonBlock ≤ sealedChainStart := by decide
  have hlate : (1780000000000 : ℕ) < u64Size := by
    rw [u64Size_eq]
    norm_num
  have hfits : ∀ j count, j + count ≤ 24 →
      RowFits (sealedChainStart + j) (1770000000000 + 1000 * j) count := by
    intro j count hle i hi
    have hlength : maxwellEpochLength = 1000 := rfl
    rw [hlength]
    omega
  obtain ⟨calls, blocks, fork, hcalls, hnumbered, hnumbers, -, hloop⟩ :=
    exists_rows (mockKey 1) (hfits 0 2 (by norm_num)) (by omega) default (.repeated 32 0)
  obtain ⟨lastHeader, hat, hshared⟩ := hloop none none [] (loopAt_nil _ _ _)
  rw [List.nil_append] at hat hshared
  obtain ⟨a, b, rfl⟩ : ∃ a b, blocks = [a, b] := by
    refine List.length_eq_two.mp ?_
    rw [← List.length_map (f := VerifiedBlock.number), hnumbers, List.length_range']
  obtain ⟨ha, hb⟩ : a.number = sealedChainStart ∧ b.number = sealedChainStart + 1 := by
    simpa [List.range'] using hnumbers
  refine ⟨a, b, ha, hb, fun count hcount root => ?_⟩
  have hroom : sealedChainStart + 2 + count < u64Size := by omega
  obtain ⟨more, above, _, hmore, hnumbered', hnumbers', hroots, hloop'⟩ :=
    exists_rows (mockKey 1) (hfits 2 count (Nat.add_le_add_left hcount 2)) hroom fork root
  obtain ⟨header, -, hend⟩ := hloop' none lastHeader [a, b] hat
  refine ⟨calls ++ more, above, ?_, by rw [List.length_append, hcalls, hmore], ?_, hroots,
    fun _ _ _ hrange => walkHeaders_rows hrange (hshared more) ⟨header, hend⟩⟩
  · rw [← hcalls] at hnumbered'
    exact hnumbered.append hnumbered'
  · rw [List.map_append, hnumbers, hnumbers']
    exact List.range'_append_1

theorem appendUnsynced_stray {headersRange : HeadersRange} {old : List VerifiedBlock}
    {tip block : VerifiedBlock} {call : TimedHeader} {milli : ℕ} {parent root : Hash}
    (htip : old.getLast? = some tip) (hroom : tip.number + 1 < u64Size)
    (hanswer : headersRange (tip.number + 1) (tip.number + 1) = .ok [call])
    (hrow : Row P (tip.number + 1) milli parent root call block) (hparent : parent ≠ tip.hash) :
    appendUnsynced P headersRange old (tip.number + 1) =
      .error ["parent_hash mismatch" ++ s!" at {tip.number + 1}"] := by
  unfold appendUnsynced verifyHeaderChainFrom
  simp only [htip, Option.map_some, Option.getD_some, if_neg (Nat.not_succ_le_self _), hanswer,
    ok_bind, hrow.stray (wrapSucc_of_lt hroom) hparent]
  rfl

theorem reorgWithinDepth_of_mem {old new : List VerifiedBlock} {b : VerifiedBlock} {depth : ℕ}
    (hlinked : List.IsChain Follows old) (hold : b ∈ old) (hnew : b ∈ new)
    (hdeep : lastNumber old ≤ b.number + depth) : reorgWithinDepth old new depth = true := by
  have hlow : lastNumber old - depth ≤ b.number := Nat.sub_le_iff_le_add.mpr hdeep
  unfold reorgWithinDepth
  rw [if_neg (not_or.mpr ⟨List.ne_nil_of_mem hold, List.ne_nil_of_mem hnew⟩)]
  refine List.any_eq_true.mpr ⟨b, ?_, List.any_eq_true.mpr ⟨b, hnew, decide_eq_true ⟨rfl, rfl⟩⟩⟩
  generalize lastNumber old - depth = low at hlow ⊢
  obtain ⟨before, above, rfl⟩ := List.append_of_mem hold
  rw [follows_eq] at hlinked
  have hgrow := List.pairwise_cons.mp
    (List.pairwise_append.mp (HashChain.pairwise_number hlinked)).2.1
  have hhigh : ∀ c ∈ (b :: above).reverse, decide (low ≤ c.number) = true := by
    intro c hc
    rcases List.mem_cons.mp (List.mem_reverse.mp hc) with rfl | hc
    · exact decide_eq_true hlow
    · exact decide_eq_true (hlow.trans (hgrow.1 c hc).le)
  rw [List.reverse_append, List.takeWhile_append_of_pos hhigh]
  simp

/-- The append breaks, and the resync takes over a chain that meets the old one high enough. -/
theorem catchUp_takes_over {headersRange : ℕ → HeadersRange} {old new : List VerifiedBlock}
    {lookback tip : ℕ} {report : Report} (maxSync : ℕ)
    (hnear : ¬ (satAdd (lastNumber old) lookback < tip ∨ old.length < 16))
    (happend : appendUnsynced P (headersRange 0) old tip = .error report)
    (hbreak : isLinkErr report = true)
    (hwalk : walkLookback P (headersRange 1) lookback tip = .ok new)
    (hdepth : reorgWithinDepth old new maxReorgDepth = true) :
    catchUp P (.ok tip) headersRange old lookback maxSync none = (.ok tip, new, none) := by
  unfold catchUp resyncLookback acceptLookbackResync
  simp only [withContext, mapError_ok, if_neg hnear, happend, hbreak, if_true, hwalk, ok_bind,
    hdepth, pure_eq_ok]

/-- An old chain of twenty-three blocks, and an upstream that has another branch from its third block
on: the append breaks, and the resync takes the branch over, which meets the old chain at the lowest
block that is allowed. -/
theorem lookback_fork_choice_fork : ∃ (chain : List VerifiedBlock) (headersRange : ℕ → HeadersRange)
    (tip : ℕ), Built mockPrimitives chain ∧ (∀ k, (headersRange k).Numbered) ∧
    maxReorgDepth < chain.length ∧
    let r := catchUp mockPrimitives (.ok tip) headersRange chain 24 0 none
    r.1 = .ok tip ∧ List.IsChain Follows r.2.1 ∧
    (∃ b ∈ chain, ∃ c ∈ r.2.1, b.number = c.number ∧ b.stateRoot ≠ c.stateRoot) ∧
    ∃ b ∈ chain, ∃ c ∈ r.2.1, b.number = c.number ∧
      b.number + maxReorgDepth ≤ lastNumber chain ∧ AgreeAt mockPrimitives chain r.2.1 b c := by
  have hstart : sealedChainStart = 116664100 := rfl
  have hreorg : maxReorgDepth = 21 := rfl
  have hlate : (1780000000000 : ℕ) < u64Size := by
    rw [u64Size_eq]
    norm_num
  obtain ⟨a, b, -, hb, hbranches⟩ := exists_branches
  obtain ⟨callsA, blocksA, hA⟩ := hbranches 21 (by norm_num) (.repeated 32 0)
  obtain ⟨callsB, blocksB, hB⟩ := hbranches 22 (by norm_num) (.repeated 32 1)
  obtain ⟨old, hold⟩ : ∃ old, old = [a, b] ++ blocksA := ⟨_, rfl⟩
  have hmem : b ∈ old := by
    rw [hold]
    simp
  have hbuilt : Built mockPrimitives old := hold ▸ hA.built
  have hlength : old.length = 23 := hold ▸ hA.length_chain
  obtain ⟨tip, htip, htipNumber⟩ := hA.getLast
  rw [← hold] at htip
  have hlast : lastNumber old = tip.number := by
    unfold lastNumber
    rw [htip, Option.map_some, Option.getD_some]
  have hdeep : b.number + maxReorgDepth = lastNumber old := by
    rw [hb, hlast, htipNumber, hreorg]
  -- a header above the tip that does not link
  obtain ⟨parent, hparent⟩ : ∃ parent : Hash, parent ≠ tip.hash := by
    by_cases hzero : tip.hash = .repeated 32 0
    · refine ⟨.repeated 32 1, ?_⟩
      rw [hzero]
      decide
    · exact ⟨_, Ne.symm hzero⟩
  have hfits : RowFits (tip.number + 1) 1770000000000 1 := by
    intro j hj
    have hlondon : londonBlock ≤ sealedChainStart := by decide
    have hmaxwell : maxwellTime * 1000 ≤ 1770000000000 := by decide
    have hepoch : maxwellEpochLength = 1000 := rfl
    rw [hepoch, htipNumber]
    omega
  obtain ⟨stray, block, hrow⟩ := exists_row (mockKey 1) hfits parent (.repeated 32 0)
  have hroom : tip.number + 1 < u64Size := by omega
  -- the append is answered with it, and the resync with the other branch
  obtain ⟨up, hup₀, hup₁⟩ : ∃ up : ℕ → HeadersRange,
      up 0 = onlyAnswer (tip.number + 1) (tip.number + 1) [stray] ∧
      ∀ k, up (k + 1) = onlyAnswer sealedChainStart (tip.number + 1) callsB :=
    ⟨fun k => if k = 0 then onlyAnswer _ _ [stray] else onlyAnswer _ _ callsB, if_pos rfl,
      fun k => if_neg (Nat.succ_ne_zero k)⟩
  have hasked : ∀ k, (up k).Numbered := by
    intro k
    cases k with
    | zero =>
      rw [hup₀]
      refine onlyAnswer_numbered ?_ (NumberedFrom.cons_iff.mpr ⟨hrow.readNumber, rfl⟩)
      rw [List.length_singleton]
      omega
    | succ k =>
      rw [hup₁]
      refine onlyAnswer_numbered ?_ hB.numbered
      rw [hB.length]
      omega
  have hanswer : up 0 (tip.number + 1) (tip.number + 1) = .ok [stray] := by
    rw [hup₀, onlyAnswer_self]
  have happend := appendUnsynced_stray htip hroom hanswer hrow hparent
  have hwalk : walkLookback mockPrimitives (up 1) 24 (tip.number + 1) = .ok ([a, b] ++ blocksB) := by
    refine hB.walk _ _ _ ?_
    rw [hup₁, htipNumber]
    exact onlyAnswer_self _ _ _
  have hcatch := catchUp_takes_over 0
    (by rw [hlast, satAdd_of_lt (by omega), hlength]; omega) happend (isLinkErr_mismatch _) hwalk
    (reorgWithinDepth_of_mem hbuilt.selfBound.linked hmem (by simp) hdeep.ge)
  obtain ⟨-, hok⟩ := lookback_fork_choice hbuilt hasked (.ok (tip.number + 1)) 24 0
  rw [hcatch] at hok
  obtain ⟨hlinked, hagree⟩ := hok _ rfl
  refine ⟨old, up, tip.number + 1, hbuilt, hasked, by rw [hlength, hreorg]; norm_num, ?_⟩
  rw [hcatch]
  refine ⟨rfl, hlinked, ?_, b, hmem, b, by simp, rfl, hdeep.le,
    hagree b hmem b (by simp) rfl hdeep.le⟩
  obtain ⟨c, hc, hcNumber, hcRoot⟩ := hA.exists_above (by norm_num)
  obtain ⟨d, hd, hdNumber, hdRoot⟩ := hB.exists_above (by norm_num)
  refine ⟨c, hold ▸ List.mem_append_right _ hc, d, List.mem_append_right _ hd,
    hcNumber.trans hdNumber.symm, ?_⟩
  rw [hcRoot, hdRoot]
  decide

end HeliosBsc
