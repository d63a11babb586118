import HeliosBsc.Node.ReadHead
import HeliosBsc.Node.Rollback

/-!
# What has been served

A head that `refresh_now` has published names a block of the chain. Appends never touch it. A
recovery from a broken link walks on from an older block, and nothing compares that block with the
heads published before: a recovery from a block below a published head can put another block in its
place, and only such a recovery can.
-/

namespace HeliosBsc

open Checked

namespace Node

variable {P : Primitives} {node node' : Node} {n k : ℕ} {hash : Hash}

/-- A node that has reached a height and can hold no other block there. -/
structure Pinned (node : Node) (n : ℕ) (hash : Hash) : Prop where
  tracks : ∃ s, Tracks node s ∧ n ≤ s.number
  block : ∀ b ∈ node.chain, b.number = n → b.hash = hash
  origin : ∀ cp, node.origin = some cp → cp.number = n → decodeHexFixed 32 cp.hash = .ok hash

theorem Tracks.pinned {s : Snapshot} (h : Tracks node s) {b : VerifiedBlock} (hb : b ∈ node.chain) :
    node.Pinned b.number b.hash where
  tracks := ⟨s, h, h.linked.number_le hb⟩
  block := by
    intro c hc hn
    rw [eq_of_number_eq h.linked.chain hc hb hn]
  origin := fun cp hcp hn => (h.origin cp hcp b hb).2 hn.symm

/-! ## What a recovery adds -/

theorem block_of_extends {start st : Synced} {more : List VerifiedBlock} (hstart : start.Linked)
    (hext : Extends P start more st) (hle : n ≤ start.snapshot.number)
    (hblock : ∀ b ∈ start.chain, b.number = n → b.hash = hash) :
    ∀ b ∈ st.chain, b.number = n → b.hash = hash := by
  intro b hb hn
  rcases hext.mem_or_lt hstart hb with hold | hlt
  · exact hblock b hold hn
  · omega

/-- A move adds at most one recovery. -/
theorem Move.recoveries (h : Move P node node') : node.recoveries <+: node'.recoveries := by
  cases h with
  | append hunwrapped hs => exact List.prefix_rfl
  | rewind hunwrapped hp hfirst hcandidate hlast happend => exact List.prefix_append _ _
  | replay hunwrapped hcp hwalk => exact List.prefix_append _ _
  | retain =>
    unfold Node.retain
    split
    · exact List.prefix_rfl
    · exact List.prefix_rfl

/-- A move keeps the block unless it recovers from below. -/
theorem Pinned.move (h : node.Pinned n hash) (hk : k ≤ node.recoveries.length)
    (hmove : Move P node node') (habove : ∀ r ∈ node'.recoveries.drop k, n ≤ r.base) :
    node'.Pinned n hash := by
  obtain ⟨s, hs, hle⟩ := h.tracks
  cases hmove with
  | @append s' headersRange tip hunwrapped hs' =>
    have heq : s = s' := Option.some.inj (hs.snapshot.symm.trans hs')
    subst heq
    obtain ⟨more, hext⟩ := hs.linked.appendSynced (P := P) hunwrapped
    exact ⟨⟨_, hs.extend hext, hle.trans (hext.number_le hs.linked)⟩,
      block_of_extends hs.linked hext hle h.block, h.origin⟩
  | @rewind point candidate headersRange tip st hunwrapped hp hfirst hcandidate hlast happend =>
    have hlinked := hs.candidate_linked hp hfirst hcandidate hlast
    obtain ⟨more, hext⟩ := hlinked.appendSynced (P := P) hunwrapped
    rw [happend] at hext
    have hbase : n ≤ point.number := by
      apply habove (.rewound point.number)
      rw [List.drop_append_of_le_length hk]
      exact List.mem_append_right _ (List.mem_singleton_self _)
    have hcut : candidate <+: node.chain := by
      rw [hcandidate]
      exact List.takeWhile_prefix _
    refine ⟨⟨st.snapshot, hs.rewind hp hfirst hcandidate hlast hext _,
      hbase.trans (hext.number_le hlinked)⟩, ?_, h.origin⟩
    exact block_of_extends hlinked hext hbase fun b hb => h.block b (hcut.subset hb)
  | @replay cp headerByNumber headersRange tip maxSync st hunwrapped hcp hwalk =>
    obtain ⟨hst, hstarts⟩ := walkFromCheckpointInturn_linked hwalk hunwrapped
    have hbase : n ≤ cp.number := by
      apply habove (.replayed cp.number)
      rw [List.drop_append_of_le_length hk]
      exact List.mem_append_right _ (List.mem_singleton_self _)
    obtain ⟨t, ht, hat⟩ := hst.tip
    have htip : n ≤ st.snapshot.number := by
      rw [← hat.1]
      exact hbase.trans (hstarts t (List.mem_of_getLast? ht)).1
    refine ⟨⟨st.snapshot, Tracks.replay hcp hst hstarts _, htip⟩, ?_, h.origin⟩
    -- the new chain holds the height only as the block of the checkpoint
    intro b hb hn
    have hcpn : cp.number = n := le_antisymm (hn ▸ (hstarts b hb).1) hbase
    exact Except.ok.inj (((hstarts b hb).2 (hn.trans hcpn.symm)).symm.trans (h.origin cp hcp hcpn))
  | retain =>
    refine ⟨⟨s, hs.retain, hle⟩, ?_, ?_⟩
    · unfold Node.retain
      split
      · exact h.block
      · exact h.block
    · unfold Node.retain
      split
      · exact h.origin
      · exact h.origin

/-- A block is kept as long as the recoveries after the first `k` all start at its height or
above. -/
structure Keeps (k n : ℕ) (hash : Hash) (node : Node) : Prop where
  checkpointed : ∃ s, Tracks node s
  past : k ≤ node.recoveries.length
  pinned : (∀ r ∈ node.recoveries.drop k, n ≤ r.base) → node.Pinned n hash

theorem Keeps.move (h : node.Keeps k n hash) (hmove : Move P node node') :
    node'.Keeps k n hash := by
  obtain ⟨s, hs⟩ := h.checkpointed
  refine ⟨hs.move hmove, h.past.trans hmove.recoveries.length_le, ?_⟩
  intro habove
  have hbefore : ∀ r ∈ node.recoveries.drop k, n ≤ r.base :=
    fun r hr => habove r ((hmove.recoveries.drop k).subset hr)
  exact (h.pinned hbefore).move h.past hmove habove

theorem Keeps.moves (h : node.Keeps k n hash) (hmoves : Relation.ReflTransGen (Move P) node node') :
    node'.Keeps k n hash := by
  induction hmoves with
  | refl => exact h
  | tail _ hmove ih => exact ih.move hmove

/-! ## `refresh_now` -/

/-- One call of `refresh_now` with the answers of the upstream. -/
def refreshStep (P : Primitives) (node : Node) (up : Upstream) :
    Except Report (ℕ × SafeHead) × Node :=
  node.refreshNow P up

/-- A call is a sequence of moves, and new numbers for the readers. What it serves is the read head
of where the moves end. -/
theorem refreshStep_moves {s : Snapshot} (hs : node.snapshot = some s) {up : Upstream}
    (hunwrapped : up.TipUnwrapped) :
    ∃ moved finality metrics, Relation.ReflTransGen (Move P) node moved ∧
      (refreshStep P node up).2 = { moved with finality := finality, metrics := metrics } ∧
      ∀ head safe, (refreshStep P node up).1 = .ok (head, safe) →
        ∃ confSafe, safeOf moved.chain = .ok confSafe ∧ safe = moved.readHead confSafe := by
  unfold refreshStep refreshNow
  cases htip : up.blockNumber with
  | error e =>
    refine ⟨node, _, _, .refl, rfl, ?_⟩
    rintro head safe ⟨⟩
  | ok tip =>
    have hmoves := moveChain_moves (P := P) hs (hunwrapped tip htip)
    have hstate := resyncLocked_state (P := P) node up tip
    rw [← hstate] at hmoves
    dsimp only
    cases hr : node.resyncLocked P up tip with
    | mk r moved =>
      rw [hr] at hmoves
      cases r with
      | error e =>
        refine ⟨moved, _, _, hmoves, rfl, ?_⟩
        rintro head safe ⟨⟩
      | ok r =>
        refine ⟨moved, _, _, hmoves, rfl, ?_⟩
        rintro head safe ⟨⟩
        unfold resyncLocked at hr
        split at hr
        · cases hr
        · split at hr
          · cases hr
          · next hconf =>
            cases hr
            exact ⟨_, hconf, rfl⟩

theorem Tracks.relabel {s : Snapshot} (h : Tracks node s) (finality : FinalityView)
    (metrics : Metrics) : Tracks { node with finality := finality, metrics := metrics } s :=
  ⟨h.snapshot, h.linked, h.below, h.held, h.spaced, h.count, h.origin⟩

theorem Keeps.relabel (h : node.Keeps k n hash) (finality : FinalityView) (metrics : Metrics) :
    Keeps k n hash { node with finality := finality, metrics := metrics } := by
  obtain ⟨s, hs⟩ := h.checkpointed
  refine ⟨⟨s, hs.relabel finality metrics⟩, h.past, fun habove => ?_⟩
  obtain ⟨⟨s', hs', hle⟩, hblock, horigin⟩ := h.pinned habove
  exact ⟨⟨s', hs'.relabel finality metrics, hle⟩, hblock, horigin⟩

theorem Keeps.refreshStep (h : node.Keeps k n hash) {up : Upstream} (hunwrapped : up.TipUnwrapped) :
    Keeps k n hash (refreshStep P node up).2 := by
  obtain ⟨s, hs⟩ := h.checkpointed
  obtain ⟨moved, finality, metrics, hmoves, heq, -⟩ :=
    refreshStep_moves (P := P) hs.snapshot hunwrapped
  rw [heq]
  exact (h.moves hmoves).relabel finality metrics

theorem Tracks.refreshStep {s : Snapshot} (h : Tracks node s) {up : Upstream}
    (hunwrapped : up.TipUnwrapped) : ∃ s', Tracks (Node.refreshStep P node up).2 s' := by
  obtain ⟨moved, finality, metrics, hmoves, heq, -⟩ :=
    refreshStep_moves (P := P) h.snapshot hunwrapped
  obtain ⟨s', hs'⟩ := h.moves hmoves
  rw [heq]
  exact ⟨s', hs'.relabel finality metrics⟩

theorem readHead_names {s : Snapshot} (hs : node.snapshot = some s) {confSafe : SafeHead}
    (hconf : safeOf node.chain = .ok confSafe) :
    ∃ b ∈ node.chain, (node.readHead confSafe).Names b := by
  unfold readHead
  split
  · rw [hs]
    rcases fastFinalityHead_cases node.chain s confSafe with heq | ⟨b, hb, -, -, hnames⟩
    · rw [heq]
      exact exists_names_of_safeOf hconf
    · exact ⟨b, hb, hnames⟩
  · exact exists_names_of_safeOf hconf

/-- What a call serves is a block of the chain that the call leaves. -/
theorem served_names {s : Snapshot} (h : Tracks node s) {up : Upstream}
    (hunwrapped : up.TipUnwrapped) {head : ℕ} {safe : SafeHead}
    (hserved : (refreshStep P node up).1 = .ok (head, safe)) :
    ∃ b ∈ (refreshStep P node up).2.chain, safe.Names b := by
  obtain ⟨moved, finality, metrics, -, heq, hread⟩ :=
    refreshStep_moves (P := P) h.snapshot hunwrapped
  obtain ⟨s', hs'⟩ := h.refreshStep (P := P) hunwrapped
  obtain ⟨confSafe, hconf, rfl⟩ := hread head safe hserved
  rw [heq] at hs' ⊢
  exact readHead_names hs'.snapshot hconf

/-- In every run of `refresh_now` in checkpoint mode, whatever the upstreams answer as long as the
heights do not overflow: a head that a call has served is the block at its height in every later
chain that has one there, unless a recovery after that call has started below the head. -/
theorem served_head_kept (hstart : Started P node) {before : List Upstream} {up : Upstream}
    {after : List Upstream} (hunwrapped : ∀ u ∈ before ++ [up] ++ after, u.TipUnwrapped) :
    let served := Machine.run (refreshStep P) node (before ++ [up])
    let later := Machine.run (refreshStep P) node (before ++ [up] ++ after)
    ∀ head safe, (refreshStep P (Machine.run (refreshStep P) node before) up).1 =
        .ok (head, safe) →
      (∀ r ∈ later.recoveries.drop served.recoveries.length, safe.number ≤ r.base) →
      ∀ b ∈ later.chain, b.number = safe.number → hexPrefixed b.hash.val = safe.hash := by
  intro served later head safe hserved habove b hb hn
  obtain ⟨s, hs⟩ : ∃ s, Tracks (Machine.run (refreshStep P) node before) s := by
    refine Machine.run_invariant_mem (I := fun n => ∃ s, Tracks n s) ?_ hstart.tracks
    rintro n u hu ⟨s, hs⟩
    exact hs.refreshStep (hunwrapped u (by simp [hu]))
  have hup : up.TipUnwrapped := hunwrapped up (by simp)
  obtain ⟨c, hc, hnames⟩ := served_names hs hup hserved
  obtain ⟨s', hs'⟩ := hs.refreshStep (P := P) hup
  rw [← Machine.run_concat] at hc hs'
  have hkeeps : Keeps served.recoveries.length c.number c.hash served :=
    ⟨⟨s', hs'⟩, le_rfl, fun _ => hs'.pinned hc⟩
  have hlater : Keeps served.recoveries.length c.number c.hash later := by
    change Keeps _ _ _ (Machine.run (refreshStep P) node (before ++ [up] ++ after))
    rw [Machine.run_append]
    exact Machine.run_invariant_mem
      (fun n u hu h => h.refreshStep (hunwrapped u (by simp [hu]))) hkeeps
  rw [hnames.1] at habove hn
  rw [(hlater.pinned habove).block b hb hn, hnames.2.1]

/-! ## Two branches -/

/-- A recovery whose newest point breaks too and whose oldest does not. -/
theorem moveChain_rewound {s p q : Snapshot} (hs : node.snapshot = some s) {up : Upstream} {tip : ℕ}
    (hnear : tip ≤ satAdd (lastNumber node.chain) node.maxSync) {st' : Synced} {e e' : Report}
    (happend : appendSynced P (up.headersRange 0) ⟨node.chain, s⟩ tip =
      (.error e, ⟨node.chain, s⟩)) (he : isLinkErr e = true)
    (hpoints : node.rollbacks = [p, q]) (hp : firstNumber node.chain ≤ p.number ∧ p.number ≤ tip)
    (hq : firstNumber node.chain ≤ q.number ∧ q.number ≤ tip) {older newer : List VerifiedBlock}
    (holder : (node.chain.takeWhile fun b => decide (b.number ≤ p.number)) = older)
    (hnewer : (node.chain.takeWhile fun b => decide (b.number ≤ q.number)) = newer)
    (holderLast : older.getLast?.map VerifiedBlock.number = some p.number)
    (hnewerLast : newer.getLast?.map VerifiedBlock.number = some q.number)
    (hbroken : (appendSynced P (up.headersRange 1) ⟨newer, q⟩ tip).1 = .error e')
    (he' : isLinkErr e' = true)
    (hgood : appendSynced P (up.headersRange 2) ⟨older, p⟩ tip = (.ok (), st')) :
    (node.moveChain P up tip).2.chain = st'.chain := by
  have hsame : node.withSynced ⟨node.chain, s⟩ = node := by
    unfold withSynced
    rw [← hs]
  have htry : tryPoints P up.headersRange node.chain tip 0 node.rollbacks.reverse =
      .ok (.rewound p st') := by
    rw [hpoints, List.reverse_cons, List.reverse_singleton, List.singleton_append, tryPoints,
      if_neg (by omega)]
    simp only [hnewer]
    rw [if_neg (not_ne_iff.mpr hnewerLast)]
    cases hr : appendSynced P (up.headersRange 1) ⟨newer, q⟩ tip with
    | mk r st =>
      rw [hr] at hbroken
      simp only at hbroken
      rw [hbroken]
      simp only [he', if_true, tryPoints]
      rw [if_neg (by omega)]
      simp only [holder]
      rw [if_neg (not_ne_iff.mpr holderLast), hgood]
  unfold Node.moveChain appendOrRecover recoverFromLinkBreak
  simp only [hs, if_neg (Nat.not_lt.mpr hnear), happend, he, if_true, hsame, htry]
  rfl

theorem refreshStep_ok {up : Upstream} {tip : ℕ} {grown : ℕ × Bool} {moved : Node}
    {confSafe : SafeHead} (htip : up.blockNumber = .ok tip)
    (hmove : node.moveChain P up tip = (.ok grown, moved))
    (hsafe : safeOf moved.chain = .ok confSafe) :
    ∃ head finality metrics, refreshStep P node up =
      (.ok (head, moved.readHead confSafe),
        { moved with finality := finality, metrics := metrics }) := by
  unfold refreshStep refreshNow resyncLocked
  simp only [htip, hmove, hsafe]
  exact ⟨_, _, _, rfl⟩

theorem refreshStep_chain {up : Upstream} {tip : ℕ} (htip : up.blockNumber = .ok tip) :
    (refreshStep P node up).2.chain = (node.moveChain P up tip).2.chain ∧
      (refreshStep P node up).2.recoveries = (node.moveChain P up tip).2.recoveries := by
  rw [← resyncLocked_state]
  unfold refreshStep refreshNow
  simp only [htip]
  split
  · next hr => rw [hr]; exact ⟨rfl, rfl⟩
  · next hr => rw [hr]; exact ⟨rfl, rfl⟩

theorem exists_pool_served : ∃ node up head safe s₀ s₁ genesis first rest served,
    Started mockPrimitives node ∧ up.TipUnwrapped ∧
    refreshStep mockPrimitives node up = (.ok (head, safe), served) ∧
    Sixteen s₀ s₁ genesis first rest served ∧ rest.length = 15 ∧ safe.Names first ∧
    first.hash = firstHash (s₀.expectedDifficulty (mockKey 1).address) (.repeated 32 0) := by
  obtain ⟨node, up, grown, s₀, s₁, genesis, first, rest, moved, hstart, htip, hexact, hmove, hmode,
    hsixteen, hlength, hnodup, hfirstHash⟩ := exists_pool_sixteen
  have hconfirmed : Confirmed (minDistinctSealers mainnetNSeal) (genesis :: first :: rest)
      [genesis] first rest := by
    have hthreshold : minDistinctSealers mainnetNSeal = rest.length := by
      rw [hlength]
      decide
    rw [hthreshold]
    have hne : rest ≠ [] := List.ne_nil_of_length_eq_add_one hlength
    exact @confirmed_of_nodup [genesis] rest first hne hnodup
  have hsafe : safeOf moved.chain =
      .ok (safeHeadAt (minDistinctSealers mainnetNSeal) first rest) := by
    rw [hsixteen.chain]
    exact safeOf_eq_ok.mpr (newestSafeAt_of_confirmed
      (minDistinctSealers_pos mainnetNSeal_pos) hconfirmed)
  obtain ⟨head, finality, metrics, hserved⟩ := refreshStep_ok htip hmove hsafe
  have hread : moved.readHead (safeHeadAt (minDistinctSealers mainnetNSeal) first rest) =
      safeHeadAt (minDistinctSealers mainnetNSeal) first rest := by
    unfold readHead
    rw [hmode]
    rfl
  refine ⟨node, up, head, _, s₀, s₁, genesis, first, rest, _, hstart, ?_, hserved, ?_,
    hlength, ?_, hfirstHash⟩
  · intro tip heq
    cases htip.symm.trans heq
    exact hexact.unwrapped (Draft.small_lt_u64Size (by decide))
  · exact ⟨hsixteen.chain, hsixteen.snapshot, hsixteen.rollbacks, hsixteen.maxSync, hsixteen.start,
      hsixteen.startNumber, hsixteen.startHash, hsixteen.tip, hsixteen.tipNumber, hsixteen.linked,
      hsixteen.genesisNumber, hsixteen.firstNumber⟩
  · rw [hread]
    exact ⟨rfl, rfl, rfl⟩

/-- A longer branch from the start replaces the first block. -/
theorem Sixteen.replaced {s₀ s₁ : Snapshot} {genesis first : VerifiedBlock}
    {rest : List VerifiedBlock} {node : Node} (h : Sixteen s₀ s₁ genesis first rest node) :
    ∃ up : Upstream, up.TipUnwrapped ∧
      ∃ b ∈ (refreshStep mockPrimitives node up).2.chain, b.number = sealedChainStart + 1 ∧
      b.hash = firstHash (s₀.expectedDifficulty (mockKey 1).address) (.repeated 32 1) := by
  obtain ⟨calls, first', rest', s', hcalls, happend, -, hlength, -, -, hfirst, hfirstHash⟩ :=
    h.start.branch h.startNumber h.startHash (.repeated 32 1) (show 16 < 24 by norm_num)
  simp only [List.singleton_append] at happend
  obtain ⟨fork, e, he, hfork⟩ := h.tip.append_fork
    (by rw [h.tipNumber]; exact Nat.add_lt_add_left (by norm_num) _) (mockKey 1)
  obtain ⟨up, hup⟩ : ∃ up : Upstream, up = ⟨.ok (sealedChainStart + 17), fun _ _ => .error [],
      fun k _ _ => if k = 2 then .ok calls else .ok [fork]⟩ := ⟨_, rfl⟩
  have hlast : lastNumber (genesis :: first :: rest) = sealedChainStart + 16 :=
    h.linked.lastNumber_eq.trans h.tipNumber
  have hbroken : ∀ k, k ≠ 2 → appendSynced mockPrimitives (up.headersRange k)
      ⟨genesis :: first :: rest, s₁⟩ (sealedChainStart + 17) =
        (.error e, ⟨genesis :: first :: rest, s₁⟩) := by
    intro k hk
    unfold lastNumber at hlast
    rw [hup]
    unfold appendSynced
    simp only [hlast, if_neg hk, appendHeaders, hfork]
    rw [if_neg (by omega)]
  have hgood : appendSynced mockPrimitives (up.headersRange 2) ⟨[genesis], s₀⟩
      (sealedChainStart + 17) = (.ok (), ⟨genesis :: first' :: rest', s'⟩) := by
    refine appendSynced_ok ?_ ?_ happend ?_
    · change genesis.number < _
      rw [h.genesisNumber]
      omega
    · rw [hup]
      rfl
    · rw [List.length_cons, List.length_cons, hlength]
      norm_num
  have hgenesis : ¬ sealedChainStart + 1 ≤ sealedChainStart := Nat.not_succ_le_self _
  have hall : ∀ b ∈ genesis :: first :: rest, decide (b.number ≤ s₁.number) = true :=
    fun b hb => decide_eq_true (h.linked.number_le hb)
  have hmoved : (node.moveChain mockPrimitives up (sealedChainStart + 17)).2.chain =
      genesis :: first' :: rest' := by
    have hbroken₀ := hbroken 0 (by norm_num)
    have hbroken₁ := congrArg Prod.fst (hbroken 1 (by norm_num))
    rw [← h.chain] at hbroken₀
    refine moveChain_rewound h.snapshot ?_ hbroken₀ he h.rollbacks ?_ ?_ ?_ ?_ ?_ ?_ hbroken₁ he
      hgood
    · rw [h.chain, hlast, h.maxSync]
      unfold satAdd
      rw [u64Size_eq]
      decide
    · rw [h.chain, h.startNumber]
      change genesis.number ≤ _ ∧ _
      rw [h.genesisNumber]
      omega
    · rw [h.chain, h.tipNumber]
      change genesis.number ≤ _ ∧ _
      rw [h.genesisNumber]
      omega
    · rw [h.chain, h.startNumber]
      simp [h.genesisNumber, h.firstNumber, hgenesis]
    · rw [h.chain]
      exact List.takeWhile_eq_self_iff.mpr hall
    · rw [h.startNumber, ← h.genesisNumber]
      rfl
    · obtain ⟨t, ht, hat⟩ := h.linked.tip
      rw [ht, Option.map_some, hat.1]
  have htipOf : up.blockNumber = .ok (sealedChainStart + 17) := by rw [hup]
  refine ⟨up, ?_, first', ?_, hfirst, hfirstHash⟩
  · intro tip heq k
    cases htipOf.symm.trans heq
    refine .of_length (fun start headers hrange => ?_)
      (Draft.small_lt_u64Size (by decide : sealedChainStart + 17 + 17 < 2 ^ 32))
    rw [hup] at hrange
    simp only at hrange
    split at hrange
    · cases hrange
      exact hcalls.le
    · cases hrange
      exact Nat.succ_le_succ (Nat.zero_le _)
  rw [(refreshStep_chain htipOf).1, hmoved]
  simp

theorem Sixteen.grown {s₀ s₁ : Snapshot} {genesis first : VerifiedBlock}
    {rest : List VerifiedBlock} {node : Node} (h : Sixteen s₀ s₁ genesis first rest node)
    (hlength : rest.length = 15) : ∃ up : Upstream, up.TipUnwrapped ∧
      (∃ block, (refreshStep mockPrimitives node up).2.chain = node.chain ++ [block]) ∧
      (refreshStep mockPrimitives node up).2.recoveries = node.recoveries := by
  have hroom : s₁.number < sealedChainStart + 24 := by
    rw [h.tipNumber]
    exact Nat.add_lt_add_left (by norm_num) _
  have hfresh : (mockKey 17).address ∉ (poolMembers.take 16).reverse := by
    have hsplit : poolMembers.take 17 = poolMembers.take 16 ++ [(mockKey 17).address] := rfl
    have hnodup := nodup_poolMembers.sublist (List.take_sublist 17 poolMembers)
    rw [hsplit, List.nodup_append] at hnodup
    intro hmem
    exact hnodup.2.2 _ (List.mem_reverse.mp hmem) _ (List.mem_singleton_self _) rfl
  have hmember : (mockKey 17).address ∈ poolMembers :=
    List.mem_map.mpr ⟨mockKey 17, List.mem_map.mpr ⟨16, by decide, rfl⟩, rfl⟩
  obtain ⟨call, block, s, happend, -⟩ := h.tip.append hroom hmember hfresh (.repeated 32 0)
  obtain ⟨up, hup⟩ : ∃ up : Upstream, up = ⟨.ok (sealedChainStart + 17), fun _ _ => .error [],
      fun _ _ _ => .ok [call]⟩ := ⟨_, rfl⟩
  have hlast : lastNumber (genesis :: first :: rest) = sealedChainStart + 16 :=
    h.linked.lastNumber_eq.trans h.tipNumber
  have hsynced : appendSynced mockPrimitives (up.headersRange 0) ⟨node.chain, s₁⟩
      (sealedChainStart + 17) = (.ok (), ⟨node.chain ++ [block], s⟩) := by
    rw [h.chain]
    refine @appendSynced_ok _ _ _ [call] _ _ ?_ (by rw [hup]) ?_ ?_
    · rw [hlast]
      omega
    · simp only [appendHeaders, happend]
    · simp [hlength]
  have hmove := moveChain_append h.snapshot
    (by rw [h.chain, hlast, h.maxSync]; unfold satAdd; rw [u64Size_eq]; decide) hsynced
  obtain ⟨hchain, hrecoveries⟩ := @refreshStep_chain mockPrimitives node up _
    (show up.blockNumber = .ok (sealedChainStart + 17) by rw [hup])
  refine ⟨up, ?_, ⟨block, ?_⟩, ?_⟩
  · intro tip heq k
    rw [hup] at heq ⊢
    cases heq
    refine .of_length (fun start headers hrange => ?_)
      (Draft.small_lt_u64Size (by decide : sealedChainStart + 17 + 1 < 2 ^ 32))
    cases hrange
    exact le_rfl
  · rw [hchain, hmove]
    rfl
  · rw [hrecoveries, hmove]
    rfl

/-- The head of the first branch is still there after a call that appends the next block. -/
theorem served_head_kept_pool : ∃ (node : Node) (up next : Upstream) (head : ℕ) (safe : SafeHead),
    Started mockPrimitives node ∧ (∀ u ∈ [] ++ [up] ++ [next], u.TipUnwrapped) ∧
    (refreshStep mockPrimitives node up).1 = .ok (head, safe) ∧
    let served := Machine.run (refreshStep mockPrimitives) node ([] ++ [up])
    let later := Machine.run (refreshStep mockPrimitives) node ([] ++ [up] ++ [next])
    served.chain.length < later.chain.length ∧ (∃ b ∈ later.chain, b.number = safe.number) ∧
      ∀ b ∈ later.chain, b.number = safe.number → hexPrefixed b.hash.val = safe.hash := by
  obtain ⟨node, up, head, safe, s₀, s₁, genesis, first, rest, served, hstart, hup, hserved, hsixteen,
    hlength, ⟨hnumber, -, -⟩, -⟩ := exists_pool_served
  have hanswer : (refreshStep mockPrimitives node up).1 = .ok (head, safe) := by rw [hserved]
  obtain ⟨next, hnext, ⟨block, hgrown⟩, hrecoveries⟩ := hsixteen.grown hlength
  have hunwrapped : ∀ u ∈ [] ++ [up] ++ [next], u.TipUnwrapped := by
    simp only [List.nil_append, List.singleton_append, List.forall_mem_cons]
    exact ⟨hup, hnext, by simp⟩
  have hrun : Machine.run (refreshStep mockPrimitives) node ([] ++ [up]) = served := by
    rw [List.nil_append, Machine.run_cons, Machine.run_nil, hserved]
  have hlater : Machine.run (refreshStep mockPrimitives) node ([] ++ [up] ++ [next]) =
      (refreshStep mockPrimitives served next).2 := by
    rw [Machine.run_concat, hrun]
  refine ⟨node, up, next, head, safe, hstart, hunwrapped, hanswer, ?_, ⟨first, ?_, hnumber.symm⟩, ?_⟩
  · rw [hlater, hrun, hgrown, List.length_append]
    exact Nat.lt_succ_self _
  · rw [hlater, hgrown, hsixteen.chain]
    exact List.mem_cons_of_mem _ List.mem_cons_self
  · refine served_head_kept hstart hunwrapped head safe hanswer ?_
    rw [hlater, hrun, hrecoveries, List.drop_length]
    exact fun r hr => absurd hr List.not_mem_nil

/-- The next call after the one that serves a head can replace it: an upstream first answers a branch
of sixteen blocks, and then breaks the link and answers another one from the same start. -/
theorem served_head_replaced : ∃ (node : Node) (served replaced : Upstream) (head : ℕ)
    (safe : SafeHead) (b : VerifiedBlock), Started mockPrimitives node ∧
    served.TipUnwrapped ∧ replaced.TipUnwrapped ∧
    (refreshStep mockPrimitives node served).1 = .ok (head, safe) ∧
    b ∈ (Machine.run (refreshStep mockPrimitives) node [served, replaced]).chain ∧
    b.number = safe.number ∧ hexPrefixed b.hash.val ≠ safe.hash := by
  obtain ⟨node, served, head, safe, s₀, s₁, genesis, first, rest, reached, hstart, hunwrapped, hserved,
    hsixteen, -, ⟨hnumber, hhash, -⟩, hfirstHash⟩ := exists_pool_served
  obtain ⟨replaced, hunwrapped', b, hb, hbnumber, hbhash⟩ := hsixteen.replaced
  refine ⟨node, served, replaced, head, safe, b, hstart, hunwrapped, hunwrapped', by rw [hserved], ?_,
    ?_, ?_⟩
  · rw [Machine.run_cons, Machine.run_cons, Machine.run_nil, hserved]
    exact hb
  · rw [hbnumber, hnumber, hsixteen.firstNumber]
  · rw [hhash, hfirstHash, hbhash]
    intro heq
    have hdifficulty : s₀.expectedDifficulty (mockKey 1).address = diffNoTurn ∨
        s₀.expectedDifficulty (mockKey 1).address = diffInTurn := by
      unfold Snapshot.expectedDifficulty
      split
      · exact .inr rfl
      · exact .inl rfl
    have hdecoded := congrArg (decodeHexFixed 32) heq
    rw [decodeHexFixed_hexPrefixed, decodeHexFixed_hexPrefixed] at hdecoded
    exact firstHash_ne hdifficulty (Except.ok.inj hdecoded).symm

end Node

end HeliosBsc
