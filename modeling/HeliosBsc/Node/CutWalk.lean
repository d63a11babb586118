import HeliosBsc.Mock.Pool

/-!
# A walk cut into pieces

`LightEngine::apply_headers` and `append_new_with_snapshot` are two loops over the same headers. The
engine trims its chain after every header and decodes some fields after its snapshot has moved; the
append trims once, at the end of a call, and decodes before. They accept the same headers and leave
the same chain and snapshot, so a node may walk from its checkpoint in one go or in any number of
calls.
-/

namespace HeliosBsc

open Checked

/-! ## Trimming -/

theorem trimChain_eq_self {chain : List VerifiedBlock} (h : chain.length ≤ keepBlocks) :
    trimChain chain = chain := by
  rw [trimChain, Nat.sub_eq_zero_of_le h, List.drop_zero]

theorem length_trimChain_le (chain : List VerifiedBlock) :
    (trimChain chain).length ≤ keepBlocks := by
  rw [trimChain, List.length_drop]
  omega

/-- Trimming before a push changes nothing about what is left after it. -/
theorem trimChain_concat (chain : List VerifiedBlock) (b : VerifiedBlock) :
    trimChain (trimChain chain ++ [b]) = trimChain (chain ++ [b]) := by
  have hkeep := keepBlocks_pos
  rcases Nat.le_total chain.length keepBlocks with hle | hle
  · rw [trimChain_eq_self hle]
  · -- the trimmed chain is full, so that each side drops one more block
    have hlen : (trimChain chain).length = keepBlocks := by
      rw [trimChain, List.length_drop]
      omega
    have hleft : (trimChain chain ++ [b]).length - keepBlocks = 1 := by
      rw [List.length_append, hlen, List.length_singleton]
      omega
    have hright : (chain ++ [b]).length - keepBlocks = chain.length - keepBlocks + 1 := by
      rw [List.length_append, List.length_singleton]
      omega
    have hfirst : 1 ≤ (trimChain chain).length := by omega
    have hwhole : chain.length - keepBlocks + 1 ≤ chain.length := by omega
    calc trimChain (trimChain chain ++ [b])
        = (trimChain chain ++ [b]).drop 1 := by rw [trimChain, hleft]
      _ = (trimChain chain).drop 1 ++ [b] := List.drop_append_of_le_length hfirst
      _ = chain.drop (chain.length - keepBlocks + 1) ++ [b] := by rw [trimChain, List.drop_drop]
      _ = (chain ++ [b]).drop (chain.length - keepBlocks + 1) :=
        (List.drop_append_of_le_length hwhole).symm
      _ = trimChain (chain ++ [b]) := by
        rw [← hright]
        rfl

/-! ## One header -/

section

variable {P : Primitives}

theorem BlockOf.unique {header : RpcBlockHeader} {signer : Address} {l : Snapshot.Link} {milli : ℕ}
    {block block' : VerifiedBlock} (h : BlockOf header signer l milli block)
    (h' : BlockOf header signer l milli block') : block = block' := by
  have hroot : block.stateRoot = block'.stateRoot :=
    Except.ok.inj (h.stateRoot.symm.trans h'.stateRoot)
  have hgas : block.gasLimit = block'.gasLimit := Except.ok.inj (h.gasLimit.symm.trans h'.gasLimit)
  have hnumber := h.number.trans h'.number.symm
  have hhash := h.hash.trans h'.hash.symm
  have hminer := h.miner.trans h'.miner.symm
  have hmilli := h.milli.trans h'.milli.symm
  have hsource := h.source.trans h'.source.symm
  cases block
  cases block'
  simp_all only

/-- The engine and the node's state hold one snapshot, and the engine's chain is the node's after it
is trimmed. -/
structure Mirrors (e : LightEngine) (st : Synced) : Prop where
  snapshot : e.snapshot = st.snapshot
  chain : e.chain = trimChain st.chain
  some : st.chain ≠ []

namespace Mirrors

variable {e : LightEngine} {st : Synced}

theorem getLast? (h : Mirrors e st) : e.chain.getLast? = st.chain.getLast? := by
  rw [h.chain, getLast?_trimChain]

theorem exists_last (h : Mirrors e st) : ∃ prev, st.chain.getLast? = .some prev :=
  ⟨_, List.getLast?_eq_some_getLast h.some⟩

theorem accept (h : Mirrors e st) {header : RpcBlockHeader} {now : ℕ} {signer : Address}
    {l : Snapshot.Link} {b : Snapshot.Body} {milli : ℕ} {prev : VerifiedBlock}
    (hseal : verifySealCoinbase P header now = .ok signer)
    (hacc : Snapshot.Accepts P st.snapshot header signer l b milli)
    (hprev : st.chain.getLast? = .some prev)
    (hcascading : verifyCascadingVsParent prev.milliTimestamp prev.gasLimit header = .ok ()) :
    ∃ e' st', e.applyHeader P header now = (.ok (), e') ∧
      appendHeader P st (header, now) = (.ok (), st') ∧ Mirrors e' st' := by
  have hparent : e.parentChecks header = .ok () := by
    rw [LightEngine.parentChecks, h.getLast?, hprev]
    exact hcascading
  obtain ⟨block, hof, happend⟩ := appendHeader_of_accepts hseal hacc hprev hcascading
  have hacc' : Snapshot.Accepts P e.snapshot header signer l b milli := by rwa [h.snapshot]
  obtain ⟨block', hof', happly⟩ := LightEngine.applyHeader_of_accepts hseal hacc' hparent
  have hblock : block' = block := hof'.unique hof
  refine ⟨_, _, happly, happend, ?_, ?_, ?_⟩
  · rw [LightEngine.advance, h.snapshot]
  · rw [LightEngine.advance, hblock, h.chain]
    exact trimChain_concat st.chain block
  · exact List.concat_ne_nil block st.chain

theorem cascading_of_append {header : RpcBlockHeader} {now : ℕ} {prev : VerifiedBlock}
    (hprev : st.chain.getLast? = .some prev) (hok : (appendHeader P st (header, now)).1 = .ok ()) :
    verifyCascadingVsParent prev.milliTimestamp prev.gasLimit header = .ok () := by
  cases hb : blockBefore st.chain header with
  | error e =>
    rw [appendHeader, hb] at hok
    cases hok
  | ok block =>
    simp only [blockBefore, hprev, bind_eq_ok, cascading, withContext, mapError_eq_ok] at hb
    obtain ⟨⟨⟩, hcascading, -⟩ := hb
    exact hcascading

/-- One header is accepted on both sides or refused on both. -/
theorem step (h : Mirrors e st) (call : TimedHeader) :
    (∃ r r', (LightEngine.step P e call).1 = .ok r ∧ (appendHeader P st call).1 = .ok r' ∧
      Mirrors (LightEngine.step P e call).2 (appendHeader P st call).2) ∨
    ∃ err err', (LightEngine.step P e call).1 = .error err ∧
      (appendHeader P st call).1 = .error err' := by
  obtain ⟨header, now⟩ := call
  obtain ⟨prev, hprev⟩ := h.exists_last
  have hboth : ∀ {signer l b milli}, verifySealCoinbase P header now = .ok signer →
      Snapshot.Accepts P st.snapshot header signer l b milli →
      verifyCascadingVsParent prev.milliTimestamp prev.gasLimit header = .ok () →
      ∃ r r', (LightEngine.step P e (header, now)).1 = .ok r ∧
        (appendHeader P st (header, now)).1 = .ok r' ∧
        Mirrors (LightEngine.step P e (header, now)).2 (appendHeader P st (header, now)).2 := by
    intro signer l b milli hseal hacc hcascading
    obtain ⟨e', st', happly, happend, hnext⟩ := h.accept hseal hacc hprev hcascading
    rw [LightEngine.step, happly, happend]
    exact ⟨(), (), rfl, rfl, hnext⟩
  cases happly : (LightEngine.step P e (header, now)).1 with
  | ok r =>
    obtain ⟨signer, l, b, milli, block, hseal, hacc, hpre, -, -⟩ := LightEngine.step_ok happly
    rw [h.snapshot] at hacc
    simp only [LightEngine.preChecks, LightEngine.parentChecks, h.getLast?, hprev, bind_eq_ok,
      mapError_eq_ok] at hpre
    obtain ⟨-, -, ⟨⟩, hcascading, -⟩ := hpre
    rw [← happly]
    exact .inl (hboth hseal.verified hacc hcascading)
  | error err =>
    right
    rcases appendHeader_inv (P := P) st (header, now) with
      ⟨signer, l, b, milli, block, hseal, hacc, -, hr⟩ | ⟨err', hr⟩ | ⟨err', n, hr⟩
    · have hpushed : (appendHeader P st (header, now)).1 = .ok () := by rw [hr]
      have hcascading := cascading_of_append hprev hpushed
      obtain ⟨r, -, hok, -, -⟩ := hboth hseal.verified hacc hcascading
      rw [happly] at hok
      cases hok
    · exact ⟨err, err', rfl, by rw [hr]⟩
    · exact ⟨err, err', rfl, by rw [hr]⟩

end Mirrors

/-! ## The loops -/

theorem applyHeaders_eq_ok {e e' : LightEngine} {calls : List TimedHeader} :
    e.applyHeaders P calls = (.ok (), e') ↔
      Machine.acceptAll (LightEngine.step P) e calls = some e' := by
  induction calls generalizing e with
  | nil => simp [LightEngine.applyHeaders]
  | cons call rest ih =>
    obtain ⟨header, now⟩ := call
    rw [LightEngine.applyHeaders, Machine.acceptAll, LightEngine.step]
    rcases e.applyHeader P header now with ⟨err | ⟨⟨⟩⟩, next⟩
    · simp
    · exact ih

theorem appendHeaders_eq_ok {st st' : Synced} {calls : List TimedHeader} :
    appendHeaders P st calls = (.ok (), st') ↔
      Machine.acceptAll (appendHeader P) st calls = some st' := by
  induction calls generalizing st with
  | nil => simp [appendHeaders]
  | cons call rest ih =>
    rw [appendHeaders, Machine.acceptAll]
    rcases appendHeader P st call with ⟨err | ⟨⟨⟩⟩, next⟩
    · simp
    · exact ih

theorem appendSynced_of_le {st : Synced} {headersRange : HeadersRange} {newTip : ℕ}
    (h : newTip ≤ lastNumber st.chain) : appendSynced P headersRange st newTip = (.ok (), st) := by
  unfold appendSynced
  unfold lastNumber at h
  simp only [if_pos h]

theorem appendSynced_refused {st st' : Synced} {headersRange : HeadersRange} {newTip : ℕ}
    {calls : List TimedHeader} {err : Report} (hlast : lastNumber st.chain < newTip)
    (hrange : headersRange (lastNumber st.chain + 1) newTip = .ok calls)
    (happend : appendHeaders P st calls = (.error err, st')) :
    appendSynced P headersRange st newTip = (.error err, st') := by
  unfold appendSynced
  unfold lastNumber at hlast hrange
  simp only [if_neg (Nat.not_le.mpr hlast), hrange, happend]

theorem appendHeaders_refused {st : Synced} {calls : List TimedHeader}
    (h : Machine.acceptAll (appendHeader P) st calls = none) :
    ∃ err st', appendHeaders P st calls = (.error err, st') := by
  rcases hr : appendHeaders P st calls with ⟨err | ⟨⟨⟩⟩, st'⟩
  · exact ⟨err, st', rfl⟩
  · rw [appendHeaders_eq_ok.mp hr] at h
    cases h

/-! ## Whole walks -/

/-- The headers above one height up to another, of a source that has one header at each height. -/
def headersUpTo (source : ℕ → TimedHeader) (n t : ℕ) : List TimedHeader :=
  (List.range' (n + 1) (t - n)).map source

/-- An upstream that answers every range from one source. -/
def rangeOf (source : ℕ → TimedHeader) : HeadersRange :=
  fun fromBlock toBlock => .ok ((List.range' fromBlock (toBlock + 1 - fromBlock)).map source)

theorem rangeOf_succ (source : ℕ → TimedHeader) (n t : ℕ) :
    rangeOf source (n + 1) t = .ok (headersUpTo source n t) := by
  rw [rangeOf, headersUpTo, Nat.add_sub_add_right]

theorem headersUpTo_of_le (source : ℕ → TimedHeader) {n t : ℕ} (h : t ≤ n) :
    headersUpTo source n t = [] := by
  rw [headersUpTo, Nat.sub_eq_zero_of_le h]
  rfl

theorem headersUpTo_append (source : ℕ → TimedHeader) {n m t : ℕ} (hnm : n ≤ m) (hmt : m ≤ t) :
    headersUpTo source n t = headersUpTo source n m ++ headersUpTo source m t := by
  have hcount : t - n = m - n + (t - m) := by omega
  have hnext : m + 1 = n + 1 + (m - n) := by omega
  rw [headersUpTo, headersUpTo, headersUpTo, ← List.map_append, hnext, hcount,
    List.range'_append_1]

theorem length_headersUpTo (source : ℕ → TimedHeader) (n t : ℕ) :
    (headersUpTo source n t).length = t - n := by
  rw [headersUpTo, List.length_map, List.length_range']

theorem le_foldl_max (n : ℕ) (l : List ℕ) : n ≤ l.foldl max n := by
  induction l generalizing n with
  | nil => exact le_rfl
  | cons a l ih => exact (le_max_left n a).trans (ih (max n a))

theorem sub_le_of_foldl_max {l : List ℕ} {base n bound : ℕ} (hn : n - base ≤ bound)
    (hall : ∀ a ∈ l, a - base ≤ bound) : l.foldl max n - base ≤ bound := by
  induction l generalizing n with
  | nil => exact hn
  | cons a l ih =>
    have ha := hall a List.mem_cons_self
    exact ih (by omega) fun b hb => hall b (List.mem_cons_of_mem a hb)

namespace LightEngine

/-- A linked and trimmed chain whose snapshot is at a height. -/
structure AtHeight (n : ℕ) (e : LightEngine) : Prop where
  linked : e.synced.Linked
  number : e.snapshot.number = n
  length : e.chain.length ≤ keepBlocks

namespace AtHeight

variable {n : ℕ} {e : LightEngine}

theorem mirrors (h : AtHeight n e) : Mirrors e e.synced := by
  obtain ⟨b, hb, -⟩ := h.linked.tip
  exact ⟨rfl, (trimChain_eq_self h.length).symm, List.ne_nil_of_mem (List.mem_of_getLast? hb)⟩

theorem lastNumber_eq (h : AtHeight n e) : lastNumber e.synced.chain = n :=
  h.linked.lastNumber_eq.trans h.number

theorem step (h : AtHeight n e) (hfits : n + 1 < u64Size) {call : TimedHeader} {r : Unit}
    (hok : (LightEngine.step P e call).1 = .ok r) :
    AtHeight (n + 1) (LightEngine.step P e call).2 := by
  obtain ⟨signer, l, b, milli, block, hseal, hacc, -, hof, hnext⟩ := step_ok hok
  obtain ⟨tip, htip, hat⟩ := h.linked.tip
  have habove := hacc.link.aboveGenesis (by rw [h.number]; exact hfits)
  have hpush := (Extends.refl (P := P) h.linked).push htip (follows_of_accepts habove hacc hof hat)
    (hashBound_of_seal hseal hacc hof)
    (show (e.snapshot.next signer l b milli).At block from ⟨hof.number, hof.hash⟩)
  rw [hnext]
  refine ⟨hpush.trim.toLinked h.linked, ?_, length_trimChain_le _⟩
  rw [← h.number]
  exact hacc.link.number_eq habove

theorem acceptAll (h : AtHeight n e) {calls : List TimedHeader} (hfits : n + calls.length < u64Size)
    {e' : LightEngine} (hall : Machine.acceptAll (LightEngine.step P) e calls = some e') :
    AtHeight (n + calls.length) e' := by
  induction calls generalizing n e with
  | nil =>
    cases hall
    exact h
  | cons call rest ih =>
    rw [List.length_cons] at hfits
    rw [Machine.acceptAll] at hall
    cases hr : (LightEngine.step P e call).1 with
    | ok r =>
      rw [hr] at hall
      have hend := ih (h.step (by omega) hr) (by omega) hall
      rwa [Nat.add_assoc, Nat.add_comm 1] at hend
    | error err =>
      rw [hr] at hall
      cases hall

/-- One call of the append reaches what the engine reaches over the same headers. -/
theorem appendStep (h : AtHeight n e) (source : ℕ → TimedHeader) (t : ℕ) :
    Machine.acceptAll (HeliosBsc.appendStep P) e.synced [⟨rangeOf source, t⟩] =
      (Machine.acceptAll (LightEngine.step P) e (headersUpTo source n (max n t))).map synced := by
  rcases Nat.lt_or_ge n t with hlt | hle
  · rw [max_eq_right hlt.le]
    have hlast : lastNumber e.synced.chain < t := by rwa [h.lastNumber_eq]
    have hrange : rangeOf source (lastNumber e.synced.chain + 1) t =
        .ok (headersUpTo source n t) := by rw [h.lastNumber_eq, rangeOf_succ]
    rcases Machine.acceptAll_bisim (R := Mirrors) (fun e st call hm => hm.step (P := P) call)
        h.mirrors (headersUpTo source n t) with ⟨e', st', hengine, hnode, hm⟩ | ⟨hengine, hnode⟩
    · have happend : appendSynced P (rangeOf source) e.synced t = (.ok (), e'.synced) := by
        rw [appendSynced_trimmed hlast hrange (appendHeaders_eq_ok.mpr hnode), synced, hm.snapshot,
          hm.chain]
      rw [hengine, Option.map_some]
      exact Machine.acceptAll_of_ok happend
    · obtain ⟨err, st', happend⟩ := appendHeaders_refused hnode
      rw [hengine, Option.map_none]
      exact Machine.acceptAll_of_error (appendSynced_refused hlast hrange happend)
  · rw [max_eq_left hle, headersUpTo_of_le source le_rfl, Machine.acceptAll_nil, Option.map_some]
    have hstay : appendSynced P (rangeOf source) e.synced t = (.ok (), e.synced) :=
      appendSynced_of_le (by rwa [h.lastNumber_eq])
    exact Machine.acceptAll_of_ok hstay

/-- Any number of calls reach what the engine reaches in one pass to the highest of their tips. -/
theorem appendSteps (h : AtHeight n e) (source : ℕ → TimedHeader) {tips : List ℕ}
    (hfits : tips.foldl max n < u64Size) :
    Machine.acceptAll (HeliosBsc.appendStep P) e.synced (tips.map fun t => ⟨rangeOf source, t⟩) =
      (Machine.acceptAll (LightEngine.step P) e
        (headersUpTo source n (tips.foldl max n))).map synced := by
  induction tips generalizing n e with
  | nil =>
    rw [List.foldl_nil, headersUpTo_of_le source le_rfl]
    rfl
  | cons t rest ih =>
    have hle : n ≤ max n t := le_max_left n t
    have htop : max n t ≤ rest.foldl max (max n t) := le_foldl_max _ rest
    rw [List.foldl_cons] at hfits
    rw [List.map_cons, Machine.acceptAll_cons, h.appendStep, List.foldl_cons,
      headersUpTo_append source hle htop, Machine.acceptAll_append]
    cases hfirst : Machine.acceptAll (LightEngine.step P) e (headersUpTo source n (max n t)) with
    | none => rfl
    | some e' =>
      have hend := h.acceptAll (by rw [length_headersUpTo]; omega) hfirst
      rw [length_headersUpTo, Nat.add_sub_cancel' hle] at hend
      exact ih hend hfits

end AtHeight

end LightEngine

/-- The engine that a walk from a checkpoint applies its headers to. -/
def walkStart (P : Primitives) (headerByNumber : HeaderByNumber) (checkpoint : Checkpoint) :
    Except Report LightEngine := do
  let header ← headerByNumber 0 checkpoint.number
  let engine ← (LightEngine.fromCheckpointAndHeader P checkpoint header.1 header.2).mapError
    fun e => [e.message]
  let seeded ← seedEnforced headerByNumber { engine.snapshot with enforceInturn := true }
    checkpoint.number
  return { engine with snapshot := seeded }

variable {headerByNumber : HeaderByNumber} {cp : Checkpoint}

theorem seedEnforced_ok {s s' : Snapshot} {n : ℕ} (h : seedEnforced headerByNumber s n = .ok s') :
    ∃ t, s' = { s with turnLength := t } := by
  unfold seedEnforced at h
  split at h
  · exact seedEpochState_ok h
  · cases h
    exact ⟨s.turnLength, rfl⟩

theorem walkStart_atHeight {e : LightEngine} (h : walkStart P headerByNumber cp = .ok e) :
    LightEngine.AtHeight cp.number e := by
  simp only [walkStart, bind_eq_ok, mapError_eq_ok, pure_eq_ok, Except.ok.injEq] at h
  obtain ⟨header, -, engine, hengine, s, hs, rfl⟩ := h
  obtain ⟨genesis, hchain, hgenesis, hnumber, -⟩ := LightEngine.genesis_of_ok hengine
  have hat : s.At genesis := by
    obtain ⟨t, rfl⟩ := seedEnforced_ok hs
    exact hgenesis
  refine ⟨⟨?_, genesis, ?_, hat⟩, hat.1.symm.trans hnumber, ?_⟩
  · change List.IsChain Follows engine.chain
    rw [hchain]
    exact List.isChain_singleton _
  · change engine.chain.getLast? = some genesis
    rw [hchain]
    rfl
  · change engine.chain.length ≤ keepBlocks
    rw [hchain]
    exact keepBlocks_pos

/-- The headers of a walk, requested and applied. -/
def walkHeadersFrom (P : Primitives) (headersRange : HeadersRange) (e : LightEngine)
    (toBlock : ℕ) : Except Report Synced :=
  if e.tipNumber < toBlock then do
    let headers ← headersRange (e.tipNumber + 1) toBlock
    match e.applyHeaders P headers with
    | (.error err, _) => .error [err.message]
    | (.ok (), e') => .ok e'.synced
  else .ok e.synced

theorem walkFromCheckpoint_eq (headersRange : HeadersRange) {t maxSync : ℕ}
    (hlag : t - cp.number ≤ maxSync) :
    walkFromCheckpoint P headerByNumber headersRange cp t maxSync =
      walkStart P headerByNumber cp >>= fun e => walkHeadersFrom P headersRange e t := by
  simp only [walkFromCheckpoint, walkFromCheckpointInturn, walkStart, require_of hlag, ok_bind,
    bind_assoc, pure_bind]
  rfl

/-- Requesting and applying is accepting the headers above the tip. -/
theorem walkHeadersFrom_eq_ok {source : ℕ → TimedHeader} {n t : ℕ} {e : LightEngine} {st : Synced}
    (h : LightEngine.AtHeight n e) : walkHeadersFrom P (rangeOf source) e t = .ok st ↔
      (Machine.acceptAll (LightEngine.step P) e (headersUpTo source n t)).map
        LightEngine.synced = some st := by
  have htip : e.tipNumber = n := h.number
  rw [walkHeadersFrom, htip, rangeOf_succ]
  rcases Nat.lt_or_ge n t with hlt | hle
  · rw [if_pos hlt, ok_bind]
    rcases hr : e.applyHeaders P (headersUpTo source n t) with ⟨err | ⟨⟨⟩⟩, e'⟩
    · have hnone : Machine.acceptAll (LightEngine.step P) e (headersUpTo source n t) = none := by
        rw [Option.eq_none_iff_forall_ne_some]
        intro e₂ h₂
        rw [applyHeaders_eq_ok.mpr h₂] at hr
        cases hr
      simp [hnone]
    · rw [applyHeaders_eq_ok.mp hr]
      simp
  · rw [if_neg (Nat.not_lt.mpr hle), headersUpTo_of_le source hle]
    simp

theorem walkFromCheckpoint_eq_ok {source : ℕ → TimedHeader} {t maxSync : ℕ} {st : Synced}
    (hlag : t - cp.number ≤ maxSync) :
    walkFromCheckpoint P headerByNumber (rangeOf source) cp t maxSync = .ok st ↔
      ∃ e, walkStart P headerByNumber cp = .ok e ∧
        (Machine.acceptAll (LightEngine.step P) e (headersUpTo source cp.number t)).map
          LightEngine.synced = some st := by
  rw [walkFromCheckpoint_eq _ hlag, bind_eq_ok]
  constructor
  · rintro ⟨e, he, hwalk⟩
    exact ⟨e, he, (walkHeadersFrom_eq_ok (walkStart_atHeight he)).mp hwalk⟩
  · rintro ⟨e, he, hwalk⟩
    exact ⟨e, he, (walkHeadersFrom_eq_ok (walkStart_atHeight he)).mpr hwalk⟩

theorem lag_of_walk {headersRange : HeadersRange} {t maxSync : ℕ} {st : Synced}
    (h : walkFromCheckpoint P headerByNumber headersRange cp t maxSync = .ok st) :
    t - cp.number ≤ maxSync := by
  simp only [walkFromCheckpoint, walkFromCheckpointInturn, bind_eq_ok, require_eq_ok] at h
  obtain ⟨-, hlag, -, -⟩ := h
  exact hlag

/-- From the state of a walk to any height, with an upstream that has one header at each height,
any calls of the append within `max-sync`, in any order of their tips, succeed if and only if one
walk from the checkpoint to the highest of the tips does, and they leave the same chain and
snapshot. -/
theorem walk_can_be_cut (P : Primitives) (headerByNumber : HeaderByNumber)
    (source : ℕ → TimedHeader) (cp : Checkpoint) {a maxSync : ℕ} (hbase : cp.number ≤ a)
    {tips : List ℕ} (hlag : ∀ t ∈ tips, t - cp.number ≤ maxSync)
    (hfits : tips.foldl max a < u64Size) {st : Synced}
    (hst : walkFromCheckpoint P headerByNumber (rangeOf source) cp a maxSync = .ok st)
    (st' : Synced) :
    Machine.acceptAll (appendStep P) st (tips.map fun t => ⟨rangeOf source, t⟩) = some st' ↔
      walkFromCheckpoint P headerByNumber (rangeOf source) cp (tips.foldl max a) maxSync =
        .ok st' := by
  have hfirst := lag_of_walk hst
  obtain ⟨e, hstart, hwalk⟩ := (walkFromCheckpoint_eq_ok hfirst).mp hst
  obtain ⟨e', hall, rfl⟩ := Option.map_eq_some_iff.mp hwalk
  have hat := (walkStart_atHeight hstart).acceptAll
    (by rw [length_headersUpTo]; have := le_foldl_max a tips; omega) hall
  rw [length_headersUpTo, Nat.add_sub_cancel' hbase] at hat
  have htop : tips.foldl max a - cp.number ≤ maxSync :=
    sub_le_of_foldl_max hfirst hlag
  rw [hat.appendSteps source hfits, walkFromCheckpoint_eq_ok htop,
    headersUpTo_append source hbase (le_foldl_max a tips)]
  constructor
  · intro h
    exact ⟨e, hstart, by rw [Machine.acceptAll_append, hall]; exact h⟩
  · rintro ⟨e₂, hstart₂, h⟩
    cases hstart.symm.trans hstart₂
    rwa [Machine.acceptAll_append, hall] at h

/-! ## On the mock's chain -/

theorem exists_source (n : ℕ) (call : TimedHeader) (rest : List TimedHeader) :
    ∃ source, headersUpTo source n (n + (call :: rest).length) = call :: rest := by
  refine ⟨fun k => (call :: rest).getD (k - (n + 1)) call, ?_⟩
  apply List.ext_getElem
  · rw [length_headersUpTo, Nat.add_sub_cancel_left]
  · intro i hi hi'
    simp only [headersUpTo, List.getElem_map, List.getElem_range', Nat.one_mul,
      Nat.add_sub_cancel_left]
    rw [List.getD_eq_getElem?_getD, List.getElem?_eq_getElem hi', Option.getD_some]

/-- The walk from the pool's checkpoint, over sixteen blocks of its validators. -/
theorem exists_pool_long_walk : ∃ cp headerByNumber source st st',
    walkFromCheckpoint mockPrimitives headerByNumber (rangeOf source) cp cp.number 16 = .ok st ∧
    walkFromCheckpoint mockPrimitives headerByNumber (rangeOf source) cp (cp.number + 16) 16 =
      .ok st' ∧ st'.snapshot.number = cp.number + 16 ∧ cp.number = sealedChainStart := by
  obtain ⟨cp, headerByNumber, headersRange, st, hwalk, -, hlinked, hpool, hnumber, hlength⟩ :=
    exists_pool_walk
  have hlag := lag_of_walk hwalk
  rw [walkFromCheckpoint_eq _ hlag, bind_eq_ok] at hwalk
  obtain ⟨e, hstart, hheaders⟩ := hwalk
  have hat := walkStart_atHeight hstart
  have htip : ¬ e.tipNumber < sealedChainStart := by
    rw [LightEngine.tipNumber, hat.number]
    omega
  rw [walkHeadersFrom, if_neg htip] at hheaders
  cases hheaders
  have hbase : cp.number = sealedChainStart := hat.number.symm.trans hnumber
  obtain ⟨calls, blocks, s, hcount, happend, hs, -⟩ :=
    hpool.sealAll hnumber (.repeated 32 0) (show 16 ≤ 24 by norm_num) (List.take_subset _ _)
  -- what the node appends the engine accepts
  rcases Machine.acceptAll_bisim (R := Mirrors)
      (fun e st call hm => hm.step (P := mockPrimitives) call) hat.mirrors calls with
    ⟨e', st', hengine, hnode, hm⟩ | ⟨-, hnode⟩
  · rw [appendHeaders_eq_ok.mp happend] at hnode
    cases hnode
    have hnumber' : e'.snapshot.number = cp.number + 16 := by rw [hm.snapshot, hs, hbase]
    cases calls with
    | nil => cases hcount
    | cons call rest =>
      obtain ⟨source, hsource⟩ := exists_source cp.number call rest
      rw [hcount] at hsource
      refine ⟨cp, headerByNumber, source, e.synced, e'.synced, ?_, ?_, hnumber', hbase⟩
      · rw [walkFromCheckpoint_eq_ok (by omega)]
        exact ⟨e, hstart, by rw [headersUpTo_of_le source le_rfl]; rfl⟩
      · rw [walkFromCheckpoint_eq_ok (by omega)]
        exact ⟨e, hstart, by rw [hsource, hengine]; rfl⟩
  · rw [appendHeaders_eq_ok.mp happend] at hnode
    cases hnode

/-- Sixteen blocks of the pool, appended by three calls of which one asks for nothing. -/
theorem walk_can_be_cut_pool : ∃ cp source st st',
    Machine.acceptAll (appendStep mockPrimitives) st
      ([cp.number + 5, cp.number + 2, cp.number + 16].map fun t => ⟨rangeOf source, t⟩) =
        some st' ∧ (st' : Synced).snapshot.number = (cp : Checkpoint).number + 16 := by
  obtain ⟨cp, headerByNumber, source, st, st', hst, hwhole, hnumber, hstart⟩ :=
    exists_pool_long_walk
  refine ⟨cp, source, st, st', ?_, hnumber⟩
  have hlag : ∀ t ∈ [cp.number + 5, cp.number + 2, cp.number + 16], t - cp.number ≤ 16 := by
    intro t ht
    simp only [List.mem_cons, List.not_mem_nil, or_false] at ht
    omega
  have htop : [cp.number + 5, cp.number + 2, cp.number + 16].foldl max cp.number =
      cp.number + 16 := by
    simp only [List.foldl_cons, List.foldl_nil]
    omega
  have hfits : [cp.number + 5, cp.number + 2, cp.number + 16].foldl max cp.number < u64Size := by
    rw [htop, hstart]
    exact Draft.small_lt_u64Size (by decide)
  apply (walk_can_be_cut mockPrimitives headerByNumber source cp le_rfl hlag hfits hst st').mpr
  rw [htop]
  exact hwhole

end

end HeliosBsc
