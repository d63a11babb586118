import HeliosBsc.Mock.Pool
import Mathlib.Logic.Relation

/-!
# The rollback store

The retained points are recorded, aged out with the front of the chain, popped after a rewind and
cleared after a replay. Through all of this they stay in order and apart, and every point that the
chain still reaches down to is the state at a block of the chain. So a rewind never lands on a
branch that was given up.
-/

namespace HeliosBsc

open Checked

/-! ## The answers of an upstream -/

/-- No answer to a request for headers up to the tip overflows. -/
def Upstream.Unwrapped (up : Upstream) (tip : ℕ) : Prop := ∀ k, (up.headersRange k).Unwrapped tip

/-- The same, for the tip that the upstream itself names. -/
def Upstream.TipUnwrapped (up : Upstream) : Prop :=
  ∀ tip, up.blockNumber = .ok tip → up.Unwrapped tip

/-- A request for headers is refused, or answered with as many as it asks for. -/
def Upstream.Exact (up : Upstream) : Prop :=
  ∀ k start stop headers, up.headersRange k start stop = .ok headers →
    headers.length = stop - start + 1

/-- As many headers as asked for end at the tip, so their heights do not overflow. -/
theorem Upstream.Exact.unwrapped {up : Upstream} {tip : ℕ} (h : up.Exact) (htip : tip < u64Size) :
    up.Unwrapped tip := by
  intro k last headers hlow hrange
  have hlength := h k _ _ _ hrange
  exact .inl (by omega)

namespace Node

/-- The answer to a round does not overflow. -/
def WaitRound.Unwrapped (round : WaitRound) : Prop :=
  ∀ newer, round.blockNumber = .ok newer → round.headersRange.Unwrapped newer

variable {P : Primitives} {node : Node} {s : Snapshot}

/-- How two retained points stand to each other, the older one first. At the end of the numbers the
distance saturates. -/
def Spaced (p q : Snapshot) : Prop :=
  p.number ≤ q.number ∧ satAdd p.number rollbackEvery ≤ q.number

theorem Spaced.le_or {p q : Snapshot} (h : Spaced p q) :
    p.number + rollbackEvery ≤ q.number ∨ u64Size - 1 ≤ q.number := by
  have hsat := h.2
  unfold satAdd at hsat
  omega

/-- A node in checkpoint mode, with its snapshot. -/
structure Tracks (node : Node) (s : Snapshot) : Prop where
  snapshot : node.snapshot = some s
  linked : Synced.Linked ⟨node.chain, s⟩
  below : ∀ p ∈ node.rollbacks, p.number ≤ s.number
  held : ∀ p ∈ node.rollbacks, firstNumber node.chain ≤ p.number → ∃ b ∈ node.chain, p.At b
  spaced : node.rollbacks.Pairwise Spaced
  count : node.rollbacks.length ≤ rollbackKeep
  origin : ∀ cp, node.origin = some cp → StartsAt cp node.chain

/-! ## What the operations do to the invariant -/

theorem StartsAt.extend {start st : Synced} {appended : List VerifiedBlock} {cp : Checkpoint}
    (h : StartsAt cp start.chain) (hstart : start.Linked) (hext : Extends P start appended st) :
    StartsAt cp st.chain := by
  intro b hb
  rcases hext.mem_or_lt hstart hb with hold | hlt
  · exact h b hold
  · obtain ⟨t, ht, hat⟩ := hstart.tip
    have hle := (h t (List.mem_of_getLast? ht)).1
    have hnumber := hat.1
    exact ⟨by omega, fun heq => by omega⟩

theorem Tracks.extend (h : Tracks node s) {appended : List VerifiedBlock} {st : Synced}
    (hext : Extends P ⟨node.chain, s⟩ appended st) : Tracks (node.withSynced st) st.snapshot where
  snapshot := rfl
  linked := hext.toLinked h.linked
  below := fun p hp => (h.below p hp).trans (hext.number_le h.linked)
  held := by
    intro p hp hfirst
    obtain ⟨b, hb, hat⟩ := h.held p hp ((hext.firstNumber_le h.linked).trans hfirst)
    refine ⟨b, hext.mem_of_le h.linked hb ?_, hat⟩
    rw [hat.1]
    exact hfirst
  spaced := h.spaced
  count := h.count
  origin := fun cp hcp => StartsAt.extend (h.origin cp hcp) h.linked hext

theorem Tracks.candidate_linked (h : Tracks node s) {point : Snapshot} (hp : point ∈ node.rollbacks)
    (hfirst : firstNumber node.chain ≤ point.number) {candidate : List VerifiedBlock}
    (hcandidate : candidate = node.chain.takeWhile fun b => decide (b.number ≤ point.number))
    (hlast : candidate.getLast?.map VerifiedBlock.number = some point.number) :
    Synced.Linked ⟨candidate, point⟩ := by
  have hcut : candidate <+: node.chain := by
    rw [hcandidate]
    exact List.takeWhile_prefix _
  obtain ⟨t, ht, hnumber⟩ := Option.map_eq_some_iff.mp hlast
  obtain ⟨b, hb, hat⟩ := h.held point hp hfirst
  have heq : b = t := by
    refine eq_of_number_eq h.linked.chain hb (hcut.subset (List.mem_of_getLast? ht)) ?_
    rw [hat.1, hnumber]
  constructor
  · exact h.linked.chain.prefix hcut
  · refine ⟨t, ht, ?_⟩
    rw [← heq]
    exact hat

/-- After a rewind only the points up to the fork are left. -/
theorem le_of_mem_rdropWhile {rollbacks : List Snapshot} (h : rollbacks.Pairwise Spaced) {n : ℕ}
    {p : Snapshot} (hp : p ∈ rollbacks.rdropWhile fun s => decide (n < s.number)) :
    p.number ≤ n := by
  have hne := List.ne_nil_of_mem hp
  have hlast := List.rdropWhile_last_not (fun s : Snapshot => decide (n < s.number)) rollbacks hne
  have hmono : (rollbacks.rdropWhile fun s => decide (n < s.number)).Pairwise
      fun p q => p.number ≤ q.number :=
    (h.imp fun hpq => hpq.1).sublist (List.rdropWhile_prefix _ _).sublist
  have hle := hmono.rel_getLast hp
  simp only [decide_eq_true_eq, Nat.not_lt] at hlast
  exact hle.trans hlast

theorem Tracks.rewind (h : Tracks node s) {point : Snapshot} (hp : point ∈ node.rollbacks)
    (hfirst : firstNumber node.chain ≤ point.number) {candidate : List VerifiedBlock}
    (hcandidate : candidate = node.chain.takeWhile fun b => decide (b.number ≤ point.number))
    (hlast : candidate.getLast?.map VerifiedBlock.number = some point.number)
    {appended : List VerifiedBlock} {st : Synced}
    (hext : Extends P ⟨candidate, point⟩ appended st) (recoveries : List Recovery) :
    Tracks { node.withSynced st with
      rollbacks := node.rollbacks.rdropWhile fun s => decide (point.number < s.number)
      recoveries := recoveries } st.snapshot := by
  have hlinked := h.candidate_linked hp hfirst hcandidate hlast
  have hcut : candidate <+: node.chain := by
    rw [hcandidate]
    exact List.takeWhile_prefix _
  have hkept := List.rdropWhile_prefix (fun s : Snapshot => decide (point.number < s.number))
    node.rollbacks
  have hle : ∀ p ∈ node.rollbacks.rdropWhile fun s => decide (point.number < s.number),
      p.number ≤ point.number := fun p hp => le_of_mem_rdropWhile h.spaced hp
  -- the rewound chain starts where the old one does, or later
  have hfloor : firstNumber node.chain ≤ firstNumber st.chain := by
    refine le_trans ?_ (hext.firstNumber_le hlinked)
    obtain ⟨t, ht, -⟩ := hlinked.tip
    obtain ⟨b, hb, hnumber⟩ :=
      exists_mem_firstNumber (List.ne_nil_of_mem (List.mem_of_getLast? ht))
    rw [← hnumber]
    exact firstNumber_le h.linked.chain (hcut.subset hb)
  constructor
  · rfl
  · exact hext.toLinked hlinked
  · exact fun p hp => (hle p hp).trans (hext.number_le hlinked)
  · intro p hp hst
    obtain ⟨b, hb, hat⟩ := h.held p (hkept.subset hp) (hfloor.trans hst)
    have hmem : b ∈ candidate := by
      rw [hcandidate]
      exact mem_takeWhile_number h.linked.chain hb (by rw [hat.1]; exact hle p hp)
    refine ⟨b, hext.mem_of_le hlinked hmem ?_, hat⟩
    rw [hat.1]
    exact hst
  · exact h.spaced.sublist hkept.sublist
  · exact hkept.length_le.trans h.count
  · intro cp hcp
    refine StartsAt.extend ?_ hlinked hext
    exact fun b hb => h.origin cp hcp b (hcut.subset hb)

theorem Tracks.replay {cp : Checkpoint} (hcp : node.origin = some cp) {st : Synced}
    (hst : st.Linked) (hstarts : StartsAt cp st.chain) (recoveries : List Recovery) :
    Tracks { node.withSynced st with rollbacks := [], recoveries := recoveries } st.snapshot where
  snapshot := rfl
  linked := hst
  below := by simp
  held := by simp
  spaced := List.Pairwise.nil
  count := Nat.zero_le _
  origin := by
    intro cp' hcp'
    have heq : cp = cp' := Option.some.inj (hcp.symm.trans hcp')
    rw [← heq]
    exact hstarts

theorem pairwise_concat_newest {kept : List Snapshot} (h : kept.Pairwise Spaced)
    (hbelow : ∀ p ∈ kept, p.number ≤ s.number)
    (hdue : ∀ newest, kept.getLast? = some newest →
      satAdd newest.number rollbackEvery ≤ s.number) :
    (kept ++ [s]).Pairwise Spaced := by
  rw [List.pairwise_append]
  refine ⟨h, List.pairwise_singleton _ _, ?_⟩
  intro p hp q hq
  rw [List.mem_singleton.mp hq]
  refine ⟨hbelow p hp, ?_⟩
  obtain ⟨newest, hnewest⟩ :=
    Option.isSome_iff_exists.mp (List.getLast?_isSome.mpr (List.ne_nil_of_mem hp))
  obtain ⟨front, hfront⟩ := List.getLast?_eq_some_iff.mp hnewest
  rw [hfront] at hp h
  rcases List.mem_append.mp hp with hp | hp
  · have hspaced := (List.pairwise_append.mp h).2.2 p hp newest (List.mem_singleton_self _)
    exact hspaced.2.trans (hbelow newest (List.mem_of_getLast? hnewest))
  · rw [List.mem_singleton.mp hp]
    exact hdue newest hnewest

/-- What is left of the store, and the newest state behind it when it is due. -/
theorem recordRollback_cases (rollbacks : List Snapshot) (s : Snapshot) (chainFloor : ℕ) :
    ∃ kept, kept <:+ rollbacks ∧ (recordRollback rollbacks s chainFloor = kept ∨
      (∀ newest, kept.getLast? = some newest → satAdd newest.number rollbackEvery ≤ s.number) ∧
        recordRollback rollbacks s chainFloor =
          (kept ++ [s]).drop ((kept ++ [s]).length - rollbackKeep)) := by
  refine ⟨rollbacks.dropWhile fun p => decide (p.number < chainFloor), List.dropWhile_suffix _, ?_⟩
  unfold recordRollback
  generalize (rollbacks.dropWhile fun p => decide (p.number < chainFloor)) = kept
  cases hlast : kept.getLast? with
  | none => exact .inr ⟨fun newest hn => (Option.some_ne_none newest hn.symm).elim, by simp [hlast]⟩
  | some newest =>
    by_cases hdue : satAdd newest.number rollbackEvery ≤ s.number
    · refine .inr ⟨fun n hn => ?_, by simp [hlast, hdue]⟩
      rw [← Option.some.inj hn]
      exact hdue
    · exact .inl (by simp [hlast, hdue])

theorem Tracks.retain (h : Tracks node s) : Tracks node.retain s := by
  obtain ⟨t, ht, hat⟩ := h.linked.tip
  obtain ⟨kept, hkept, hcases⟩ :=
    recordRollback_cases node.rollbacks s (firstNumber node.chain)
  have hbelow : ∀ p ∈ kept, p.number ≤ s.number := fun p hp => h.below p (hkept.subset hp)
  have hspaced : kept.Pairwise Spaced := h.spaced.sublist hkept.sublist
  unfold Node.retain
  rw [h.snapshot]
  simp only
  rcases hcases with hsame | ⟨hdue, hpush⟩
  · rw [hsame]
    exact ⟨rfl, h.linked, hbelow, fun p hp => h.held p (hkept.subset hp), hspaced,
      hkept.length_le.trans h.count, h.origin⟩
  · rw [hpush]
    have hdrop := List.drop_suffix ((kept ++ [s]).length - rollbackKeep) (kept ++ [s])
    have hpushed := pairwise_concat_newest hspaced hbelow hdue
    refine ⟨rfl, h.linked, ?_, ?_, hpushed.sublist hdrop.sublist, ?_, h.origin⟩
    · intro p hp
      rcases List.mem_append.mp (hdrop.subset hp) with hp | hp
      · exact hbelow p hp
      · rw [List.mem_singleton.mp hp]
    · intro p hp hfirst
      rcases List.mem_append.mp (hdrop.subset hp) with hp | hp
      · exact h.held p (hkept.subset hp) hfirst
      · rw [List.mem_singleton.mp hp]
        exact ⟨t, List.mem_of_getLast? ht, hat⟩
    · rw [List.length_drop]
      omega

/-! ## Recovery -/

/-- The loop ends at a retained point that the chain holds, and the walk from there succeeds. -/
theorem tryPoints_rewound {headersRange : ℕ → HeadersRange} {chain : List VerifiedBlock}
    {tip tried : ℕ} {points : List Snapshot} {point : Snapshot} {st : Synced}
    (h : tryPoints P headersRange chain tip tried points = .ok (.rewound point st)) :
    ∃ request candidate, point ∈ points ∧ firstNumber chain ≤ point.number ∧
      candidate = (chain.takeWhile fun b => decide (b.number ≤ point.number)) ∧
      candidate.getLast?.map VerifiedBlock.number = some point.number ∧
      appendSynced P (headersRange request) ⟨candidate, point⟩ tip = (.ok (), st) := by
  induction points generalizing tried with
  | nil => cases h
  | cons p older ih =>
    have hskip : ∀ {n}, tryPoints P headersRange chain tip n older = .ok (.rewound point st) →
        ∃ request candidate, point ∈ p :: older ∧ firstNumber chain ≤ point.number ∧
          candidate = (chain.takeWhile fun b => decide (b.number ≤ point.number)) ∧
          candidate.getLast?.map VerifiedBlock.number = some point.number ∧
          appendSynced P (headersRange request) ⟨candidate, point⟩ tip = (.ok (), st) := by
      intro n hn
      obtain ⟨request, candidate, hmem, hrest⟩ := ih hn
      exact ⟨request, candidate, List.mem_cons_of_mem _ hmem, hrest⟩
    rw [tryPoints] at h
    split at h
    · exact hskip h
    · next hwindow =>
      simp only at h
      split at h
      · exact hskip h
      · next hlast =>
        rw [not_ne_iff] at hlast
        split at h
        · next hr =>
          cases h
          exact ⟨_, _, List.mem_cons_self, by omega, rfl, hlast, hr⟩
        · split at h
          · exact hskip h
          · cases h

/-- What the node does to its chain, one operation at a time. -/
inductive Move (P : Primitives) (node : Node) : Node → Prop where
  | append {s : Snapshot} {headersRange : HeadersRange} {tip : ℕ}
      (hunwrapped : headersRange.Unwrapped tip) (hs : node.snapshot = some s) :
      Move P node (node.withSynced (appendSynced P headersRange ⟨node.chain, s⟩ tip).2)
  | rewind {point : Snapshot} {candidate : List VerifiedBlock} {headersRange : HeadersRange}
      {tip : ℕ} {st : Synced} (hunwrapped : headersRange.Unwrapped tip) (hp : point ∈ node.rollbacks)
      (hfirst : firstNumber node.chain ≤ point.number)
      (hcandidate : candidate = node.chain.takeWhile fun b => decide (b.number ≤ point.number))
      (hlast : candidate.getLast?.map VerifiedBlock.number = some point.number)
      (happend : appendSynced P headersRange ⟨candidate, point⟩ tip = (.ok (), st)) :
      Move P node { node.withSynced st with
        rollbacks := node.rollbacks.rdropWhile fun s => decide (point.number < s.number)
        recoveries := node.recoveries ++ [.rewound point.number] }
  | replay {cp : Checkpoint} {headerByNumber : HeaderByNumber} {headersRange : HeadersRange}
      {tip maxSync : ℕ} {st : Synced} (hunwrapped : headersRange.Unwrapped tip)
      (hcp : node.origin = some cp)
      (hwalk : walkFromCheckpoint P headerByNumber headersRange cp tip maxSync = .ok st) :
      Move P node { node.withSynced st with
        rollbacks := []
        recoveries := node.recoveries ++ [.replayed cp.number] }
  | retain : Move P node node.retain

/-- A recovery fails and leaves everything, or is one move. -/
theorem recoverFromLinkBreak_cases (node : Node) {up : Upstream} {tip : ℕ}
    (hunwrapped : up.Unwrapped tip) (err : Report) :
    (∃ e, node.recoverFromLinkBreak P up tip err = (.error e, node)) ∨
    ∃ node', Move P node node' ∧ node.recoverFromLinkBreak P up tip err = (.ok (), node') := by
  unfold recoverFromLinkBreak
  cases htry : tryPoints P up.headersRange node.chain tip 0 node.rollbacks.reverse with
  | error e => exact .inl ⟨e, rfl⟩
  | ok attempt =>
    cases attempt with
    | rewound point st =>
      obtain ⟨request, candidate, hmem, hfirst, hcandidate, hlast, happend⟩ := tryPoints_rewound htry
      exact .inr ⟨_, .rewind (hunwrapped _) (List.mem_reverse.mp hmem) hfirst hcandidate hlast
        happend, rfl⟩
    | exhausted tried =>
      cases horigin : node.origin with
      | none => exact .inl ⟨_, rfl⟩
      | some cp =>
        cases hwalk : walkFromCheckpoint P up.headerByNumber (up.headersRange (tried + 1)) cp tip
            node.maxSync with
        | error replay =>
          simp only [hwalk]
          exact .inl ⟨_, rfl⟩
        | ok st =>
          simp only [hwalk]
          exact .inr ⟨_, .replay (hunwrapped _) horigin hwalk, rfl⟩

/-- In checkpoint mode a sync is a sequence of moves. -/
theorem moveChain_moves (hs : node.snapshot = some s) {up : Upstream} {tip : ℕ}
    (hunwrapped : up.Unwrapped tip) :
    Relation.ReflTransGen (Move P) node (node.moveChain P up tip).2 := by
  have happend : Relation.ReflTransGen (Move P) node (node.appendOrRecover P s up tip).2 := by
    have hmove := Relation.ReflTransGen.single (Move.append (P := P) (hunwrapped 0) hs)
    unfold appendOrRecover
    split
    · next hr =>
      rw [hr] at hmove
      exact hmove
    · next e st hr =>
      rw [hr] at hmove
      split
      · rcases (node.withSynced st).recoverFromLinkBreak_cases (P := P) hunwrapped e with
          ⟨e', hr'⟩ | ⟨node', hnext, hr'⟩
        · rw [hr']
          exact hmove
        · rw [hr']
          exact hmove.tail hnext
      · exact hmove
  unfold Node.moveChain
  simp only [hs]
  split
  · exact .refl
  · split
    · next hr =>
      rw [hr] at happend
      exact happend
    · next hr =>
      rw [hr] at happend
      exact happend.tail .retain

/-- Every operation keeps the invariant. -/
theorem Tracks.move (h : Tracks node s) {node' : Node} (hmove : Move P node node') :
    ∃ s', Tracks node' s' := by
  cases hmove with
  | @append s' headersRange tip hunwrapped hs =>
    have heq : s = s' := Option.some.inj (h.snapshot.symm.trans hs)
    subst heq
    obtain ⟨more, hext⟩ := h.linked.appendSynced (P := P) hunwrapped
    exact ⟨_, h.extend hext⟩
  | @rewind point candidate headersRange tip st hunwrapped hp hfirst hcandidate hlast happend =>
    have hlinked := h.candidate_linked hp hfirst hcandidate hlast
    obtain ⟨more, hext⟩ := hlinked.appendSynced (P := P) hunwrapped
    rw [happend] at hext
    exact ⟨st.snapshot, h.rewind hp hfirst hcandidate hlast hext _⟩
  | @replay cp headerByNumber headersRange tip maxSync st hunwrapped hcp hwalk =>
    obtain ⟨hst, hstarts⟩ := walkFromCheckpointInturn_linked hwalk hunwrapped
    exact ⟨st.snapshot, Tracks.replay hcp hst hstarts _⟩
  | retain => exact ⟨s, h.retain⟩

theorem Tracks.moves (h : Tracks node s) {node' : Node}
    (hmoves : Relation.ReflTransGen (Move P) node node') : ∃ s', Tracks node' s' := by
  induction hmoves with
  | refl => exact ⟨s, h⟩
  | tail _ hmove ih =>
    obtain ⟨s', hs'⟩ := ih
    exact hs'.move hmove

theorem Tracks.moveChain (h : Tracks node s) {up : Upstream} {tip : ℕ}
    (hunwrapped : up.Unwrapped tip) : ∃ s', Tracks (node.moveChain P up tip).2 s' :=
  h.moves (moveChain_moves h.snapshot hunwrapped)

theorem resyncLocked_state (node : Node) (up : Upstream) (tip : ℕ) :
    (node.resyncLocked P up tip).2 = (node.moveChain P up tip).2 := by
  unfold resyncLocked
  split
  · next hr => rw [hr]
  · next hr =>
    rw [hr]
    split
    · rfl
    · rfl

/-! ## Runs -/

/-- How a node in checkpoint mode starts: from a checkpoint, on answers that do not overflow, or from
a linked chain and the snapshot at its last block. -/
inductive Started (P : Primitives) : Node → Prop where
  | bootstrap {up : Upstream} {rounds : List WaitRound} {lookback maxSync : ℕ} {cp : Checkpoint}
      {node : Node} (mode : FinalityMode) (hup : up.TipUnwrapped)
      (hrounds : ∀ round ∈ rounds, round.Unwrapped)
      (h : bootstrapFromCheckpoint P up rounds lookback maxSync cp = .ok node) :
      Started P (node.setFinalityMode mode)
  | parts {chain : List VerifiedBlock} {snapshot : Snapshot} (lookback : ℕ) (mode : FinalityMode)
      (h : Synced.Linked ⟨chain, snapshot⟩) :
      Started P ((fromPartsWithSnapshot lookback chain snapshot).setFinalityMode mode)

theorem waitForSafe_extends {st st' : Synced} {rounds : List WaitRound} {safe : SafeHead}
    (h : waitForSafe P st rounds = .ok (st', safe)) (hst : st.Linked)
    (hrounds : ∀ round ∈ rounds, round.Unwrapped) :
    st'.Linked ∧ ∀ cp, StartsAt cp st.chain → StartsAt cp st'.chain := by
  induction rounds generalizing st with
  | nil =>
    unfold waitForSafe at h
    split at h
    · cases h
      exact ⟨hst, fun _ => id⟩
    · cases h
  | cons round rest ih =>
    unfold waitForSafe at h
    split at h
    · cases h
      exact ⟨hst, fun _ => id⟩
    · simp only [bind_eq_ok] at h
      obtain ⟨hround, hrest⟩ := List.forall_mem_cons.mp hrounds
      obtain ⟨newer, hnewer, h⟩ := h
      obtain ⟨more, hext⟩ := hst.appendSynced (P := P) (hround newer hnewer)
      split at h
      · cases h
      · next hr =>
        rw [hr] at hext
        obtain ⟨hlinked, hstarts⟩ := ih h (hext.toLinked hst) hrest
        exact ⟨hlinked, fun cp hcp => hstarts cp (StartsAt.extend hcp hst hext)⟩

theorem tracks_of_single (hsnapshot : node.snapshot = some s) (hlinked : Synced.Linked ⟨node.chain, s⟩)
    (hrollbacks : node.rollbacks = [s])
    (horigin : ∀ cp, node.origin = some cp → StartsAt cp node.chain) : Tracks node s := by
  obtain ⟨t, ht, hat⟩ := hlinked.tip
  refine ⟨hsnapshot, hlinked, ?_, ?_, ?_, ?_, horigin⟩
  · rw [hrollbacks]
    intro p hp
    rw [List.mem_singleton.mp hp]
  · rw [hrollbacks]
    intro p hp hfirst
    rw [List.mem_singleton.mp hp]
    exact ⟨t, List.mem_of_getLast? ht, hat⟩
  · rw [hrollbacks]
    exact List.pairwise_singleton _ _
  · rw [hrollbacks, rollbackKeep]
    norm_num

theorem Started.tracks (h : Started P node) : ∃ s, Tracks node s := by
  cases h with
  | @bootstrap up rounds lookback maxSync cp start mode hup hrounds h =>
    simp only [bootstrapFromCheckpoint, bind_eq_ok, pure_eq_ok, Except.ok.injEq] at h
    obtain ⟨tip, htip, walked, hwalk, ⟨st, safe⟩, hwait, rfl⟩ := h
    obtain ⟨hlinked, hstarts⟩ := walkFromCheckpointInturn_linked hwalk (hup tip htip 0)
    obtain ⟨hst, hkeep⟩ := waitForSafe_extends hwait hlinked hrounds
    refine ⟨st.snapshot, tracks_of_single rfl hst rfl ?_⟩
    intro cp' hcp'
    rw [← Option.some.inj hcp']
    exact hkeep cp hstarts
  | @parts chain snapshot lookback mode h =>
    refine ⟨snapshot, tracks_of_single rfl h rfl ?_⟩
    intro cp hcp
    cases hcp

/-- One call of `resync_locked`: the answers of the upstream and the tip. -/
def resyncStep (P : Primitives) (node : Node) (call : Upstream × ℕ) :
    Except Report Resynced × Node :=
  node.resyncLocked P call.1 call.2

theorem Started.tracks_run (h : Started P node) {calls : List (Upstream × ℕ)}
    (hunwrapped : ∀ call ∈ calls, call.1.Unwrapped call.2) :
    ∃ s, Tracks (Machine.run (resyncStep P) node calls) s := by
  refine Machine.run_invariant_mem (I := fun n => ∃ s, Tracks n s) ?_ h.tracks
  rintro n ⟨up, tip⟩ hcall ⟨s, hs⟩
  rw [resyncStep, resyncLocked_state]
  exact hs.moveChain (hunwrapped _ hcall)

/-- In every state of a run of `resync_locked` over upstreams that refuse a request for headers or
answer as many as it asks for: the retained points are in ascending order, two of them at least
`ROLLBACK_EVERY` apart unless the later one is at the last `u64`; there are at most `ROLLBACK_KEEP`;
one that is not below the first block of the chain is the state at a block of the chain. When the
next call breaks on a link, a recovery that fails leaves the node as it was, and one that succeeds
leaves the last block and the snapshot at the same block. -/
theorem rollback_store (hstart : Started P node) {calls : List (Upstream × ℕ)}
    (hcalls : ∀ call ∈ calls, call.1.Exact ∧ call.2 < u64Size) :
    let reached := Machine.run (resyncStep P) node calls
    reached.rollbacks.Pairwise (fun p q => p.number ≤ q.number ∧
      (p.number + rollbackEvery ≤ q.number ∨ u64Size - 1 ≤ q.number)) ∧
    reached.rollbacks.length ≤ rollbackKeep ∧
    (∀ p ∈ reached.rollbacks, firstNumber reached.chain ≤ p.number →
      ∃ b ∈ reached.chain, b.number = p.number ∧ b.hash = p.hash) ∧
    ∀ (up : Upstream) (tip : ℕ) (s : Snapshot), up.Exact → tip < u64Size →
      reached.snapshot = some s →
      let append := appendSynced P (up.headersRange 0) ⟨reached.chain, s⟩ tip
      let broken := reached.withSynced append.2
      ∀ err, append.1 = .error err →
        (∀ e, (broken.recoverFromLinkBreak P up tip err).1 = .error e →
          (broken.recoverFromLinkBreak P up tip err).2 = broken) ∧
        ((broken.recoverFromLinkBreak P up tip err).1 = .ok () → ∃ b s',
          (broken.recoverFromLinkBreak P up tip err).2.chain.getLast? = some b ∧
          (broken.recoverFromLinkBreak P up tip err).2.snapshot = some s' ∧
          b.number = s'.number ∧ b.hash = s'.hash) := by
  intro reached
  obtain ⟨s, hs⟩ :=
    hstart.tracks_run fun call hcall => (hcalls call hcall).1.unwrapped (hcalls call hcall).2
  refine ⟨hs.spaced.imp fun h => ⟨h.1, h.le_or⟩, hs.count, hs.held, ?_⟩
  intro up tip s' hexact htip hs' append broken err herr
  have hunwrapped := hexact.unwrapped htip
  have heq : s = s' := Option.some.inj (hs.snapshot.symm.trans hs')
  subst heq
  obtain ⟨more, hext⟩ := hs.linked.appendSynced (P := P) (hunwrapped 0)
  have hbroken : Tracks broken append.2.snapshot := hs.extend hext
  rcases broken.recoverFromLinkBreak_cases (P := P) hunwrapped err with ⟨e, hr⟩ | ⟨node', hmove, hr⟩
  · rw [hr]
    exact ⟨fun _ _ => rfl, fun hok => by cases hok⟩
  · rw [hr]
    refine ⟨fun e he => (by cases he), fun _ => ?_⟩
    obtain ⟨s'', hrec⟩ := hbroken.move hmove
    obtain ⟨b, hb, hat⟩ := hrec.linked.tip
    exact ⟨b, s'', hb, hrec.snapshot, hat⟩

/-! ## A sync that only appends -/

theorem moveChain_append (hs : node.snapshot = some s) {up : Upstream} {tip : ℕ} {st : Synced}
    (hnear : tip ≤ satAdd (lastNumber node.chain) node.maxSync)
    (happend : appendSynced P (up.headersRange 0) ⟨node.chain, s⟩ tip = (.ok (), st)) :
    node.moveChain P up tip =
      (.ok (lastNumber st.chain - lastNumber node.chain,
        decide (lastNumber node.chain < lastNumber st.chain)), (node.withSynced st).retain) := by
  unfold Node.moveChain appendOrRecover
  simp only [hs, if_neg (Nat.not_lt.mpr hnear), happend]
  rfl

theorem recordRollback_second {p : Snapshot} {chainFloor : ℕ} (hfloor : chainFloor ≤ p.number)
    (hdue : satAdd p.number rollbackEvery ≤ s.number) :
    recordRollback [p] s chainFloor = [p, s] := by
  unfold recordRollback
  simp [List.dropWhile, Nat.not_lt.mpr hfloor, hdue, rollbackKeep]

/-- A state is retained again where the distance saturates. -/
theorem recordRollback_again {p q : Snapshot} {chainFloor : ℕ} (hfloor : chainFloor ≤ p.number)
    (hdue : satAdd q.number rollbackEvery ≤ q.number) :
    recordRollback [p, q] q chainFloor = [p, q, q] := by
  unfold recordRollback
  simp [List.dropWhile, Nat.not_lt.mpr hfloor, hdue, rollbackKeep]

theorem moveChain_first {chain : List VerifiedBlock} {p : Snapshot} {maxSync tip : ℕ}
    (mode : FinalityMode) (up : Upstream) {st : Synced}
    (hnear : tip ≤ satAdd (lastNumber chain) maxSync)
    (happend : appendSynced P (up.headersRange 0) ⟨chain, p⟩ tip = (.ok (), st))
    (hfloor : firstNumber st.chain ≤ p.number)
    (hdue : satAdd p.number rollbackEvery ≤ st.snapshot.number) :
    ∃ grown moved,
      ((fromPartsWithSnapshot maxSync chain p).setFinalityMode mode).moveChain P up tip =
        (.ok grown, moved) ∧
      moved.chain = st.chain ∧ moved.snapshot = some st.snapshot ∧
      moved.rollbacks = [p, st.snapshot] ∧ moved.maxSync = maxSync ∧
      moved.finalityMode = mode := by
  have hmove := @moveChain_append P
    ((fromPartsWithSnapshot maxSync chain p).setFinalityMode mode) p rfl up tip st hnear happend
  exact ⟨_, _, hmove, rfl, rfl, recordRollback_second hfloor hdue, rfl, rfl⟩

/-- A node of the pool after the first sixteen blocks of a branch: two points are retained, the start
and the tip. -/
structure Sixteen (s₀ s₁ : Snapshot) (genesis first : VerifiedBlock) (rest : List VerifiedBlock)
    (node : Node) : Prop where
  chain : node.chain = genesis :: first :: rest
  snapshot : node.snapshot = some s₁
  rollbacks : node.rollbacks = [s₀, s₁]
  maxSync : node.maxSync = 130
  start : Synced.Pool poolMembers [] ⟨[genesis], s₀⟩
  startNumber : s₀.number = sealedChainStart
  startHash : s₀.hash = poolGenesis
  tip : Synced.Pool poolMembers (poolMembers.take 16).reverse ⟨genesis :: first :: rest, s₁⟩
  tipNumber : s₁.number = sealedChainStart + 16
  linked : Synced.Linked ⟨genesis :: first :: rest, s₁⟩
  genesisNumber : genesis.number = sealedChainStart
  firstNumber : first.number = sealedChainStart + 1

theorem exists_pool_sixteen : ∃ node up grown s₀ s₁ genesis first rest moved,
    Started mockPrimitives node ∧ up.blockNumber = .ok (sealedChainStart + 16) ∧ up.Exact ∧
    node.moveChain mockPrimitives up (sealedChainStart + 16) = (.ok grown, moved) ∧
    moved.finalityMode = .confirmationDepth ∧ Sixteen s₀ s₁ genesis first rest moved ∧
    rest.length = 15 ∧ (rest.map VerifiedBlock.miner).Nodup ∧
    first.hash = firstHash (s₀.expectedDifficulty (mockKey 1).address) (.repeated 32 0) := by
  obtain ⟨header, e, -, hlinked, hpool, hnumber, hhash, hlength, -⟩ := exists_pool_engine
  obtain ⟨genesis, hgenesis⟩ := List.length_eq_one_iff.mp hlength
  unfold LightEngine.synced at hlinked hpool
  rw [hgenesis] at hlinked hpool
  obtain ⟨calls, first, rest, s₁, hcalls, happend, hnumber₁, hlength₁, hnodup, hpool₁, hfirst,
    hfirstHash⟩ := hpool.branch hnumber hhash (.repeated 32 0) (show 15 < 24 by norm_num)
  simp only [List.singleton_append] at happend hpool₁
  have hgenesisNumber : genesis.number = sealedChainStart := by
    rw [← hnumber]
    exact hlinked.lastNumber_eq
  have hlast : lastNumber [genesis] = sealedChainStart := hgenesisNumber
  obtain ⟨up, hup⟩ : ∃ up : Upstream, up = ⟨.ok (sealedChainStart + 16), fun _ _ => .error [],
      fun _ start stop => if stop - start = 15 then .ok calls else .error []⟩ := ⟨_, rfl⟩
  have hexact : up.Exact := by
    intro k start stop headers hrange
    rw [hup] at hrange
    simp only at hrange
    split at hrange
    · next hspan =>
      cases hrange
      rw [hcalls, hspan]
    · cases hrange
  have hsynced : appendSynced mockPrimitives (up.headersRange 0) ⟨[genesis], e.snapshot⟩
      (sealedChainStart + 16) = (.ok (), ⟨genesis :: first :: rest, s₁⟩) := by
    refine appendSynced_ok ?_ ?_ happend ?_
    · rw [hlast]
      omega
    · simp [hup, hlast, Nat.add_sub_add_left]
    · rw [List.length_cons, List.length_cons, hlength₁]
      norm_num
  have htip : sealedChainStart + 16 < u64Size := Draft.small_lt_u64Size (by decide)
  have hlinked₁ : Synced.Linked ⟨genesis :: first :: rest, s₁⟩ := by
    obtain ⟨more, hext⟩ := hlinked.appendSynced (P := mockPrimitives) (hexact.unwrapped htip 0)
    rw [hsynced] at hext
    exact hext.toLinked hlinked
  have hnear : sealedChainStart + 16 ≤ satAdd (lastNumber [genesis]) 130 := by
    rw [hlast]
    unfold satAdd
    rw [u64Size_eq]
    decide
  have hfloor : firstNumber (genesis :: first :: rest) ≤ e.snapshot.number := by
    change genesis.number ≤ _
    rw [hgenesisNumber, hnumber]
  have hdue : satAdd e.snapshot.number rollbackEvery ≤ s₁.number := by
    rw [hnumber, hnumber₁]
    unfold satAdd
    rw [u64Size_eq]
    decide
  obtain ⟨grown, moved, hmove, hchain, hsnapshot, hrollbacks, hmaxSync, hmode⟩ :=
    moveChain_first .confirmationDepth up hnear hsynced hfloor hdue
  exact ⟨_, up, grown, e.snapshot, s₁, genesis, first, rest, moved,
    .parts 130 .confirmationDepth hlinked, by rw [hup], hexact, hmove, hmode,
    ⟨hchain, hsnapshot, hrollbacks, hmaxSync, hpool, hnumber, hhash, hpool₁, hnumber₁,
      hlinked₁, hgenesisNumber, hfirst⟩, hlength₁, hnodup, hfirstHash⟩

/-- Sixteen blocks of the pool in one call: the start and the new tip are retained, apart and in the
chain. -/
theorem rollback_store_pool : ∃ (node : Node) (calls : List (Upstream × ℕ)) (p q : Snapshot),
    Started mockPrimitives node ∧ (∀ call ∈ calls, call.1.Exact ∧ call.2 < u64Size) ∧
    let reached := Machine.run (resyncStep mockPrimitives) node calls
    reached.rollbacks = [p, q] ∧ p.number + rollbackEvery ≤ q.number ∧
    ∀ p ∈ reached.rollbacks, firstNumber reached.chain ≤ p.number →
      ∃ b ∈ reached.chain, b.number = p.number ∧ b.hash = p.hash := by
  obtain ⟨node, up, grown, s₀, s₁, genesis, first, rest, moved, hstart, -, hexact, hmove, -, hsixteen,
    -⟩ := exists_pool_sixteen
  have htip : sealedChainStart + 17 < u64Size := Draft.small_lt_u64Size (by decide)
  have hcalls : ∀ call ∈ [(up, sealedChainStart + 16)], call.1.Exact ∧ call.2 < u64Size := by
    simp only [List.mem_singleton, forall_eq]
    exact ⟨hexact, by omega⟩
  have hrollbacks : (Machine.run (resyncStep mockPrimitives) node
      [(up, sealedChainStart + 16)]).rollbacks = [s₀, s₁] := by
    rw [Machine.run_cons, Machine.run_nil, resyncStep, resyncLocked_state, hmove]
    exact hsixteen.rollbacks
  obtain ⟨hspaced, -, hheld, -⟩ := rollback_store hstart hcalls
  refine ⟨node, _, s₀, s₁, hstart, hcalls, hrollbacks, ?_, hheld⟩
  simp only [hrollbacks, List.pairwise_pair] at hspaced
  have htipNumber := hsixteen.tipNumber
  omega

/-! ## The end of the numbers -/

/-- An honest chain of one validator that ends one block below the last number, and the header of the
last block that a number is left for. -/
theorem exists_last_append : ∃ (st : Synced) (genesis block : VerifiedBlock) (call : TimedHeader)
    (s' : Snapshot), st.chain = [genesis] ∧ st.snapshot.At genesis ∧ st.Linked ∧
      st.snapshot.number = u64Size - 2 ∧ s'.number = st.snapshot.number + 1 ∧
      appendHeader mockPrimitives st call = (.ok (), ⟨st.chain ++ [block], s'⟩) := by
  have hsize : u64Size = 18446744073709551616 := u64Size_eq
  have hplain : (u64Size - 2 + 1) % maxwellEpochLength ≠ 0 := by
    rw [hsize]
    decide
  have hlow : londonBlock ≤ u64Size - 2 + 1 := by
    rw [hsize]
    decide
  obtain ⟨st, genesis, hchain, hat, hsingle⟩ := exists_last_start
  obtain ⟨call, block, s', happend, -, hnext⟩ :=
    hsingle.append ⟨hlow, by omega⟩ (by norm_num) le_rfl hplain
  refine ⟨st, genesis, block, call, s', hchain, hat, ⟨?_, genesis, ?_, hat⟩, hsingle.number,
    hnext.number.trans (by rw [hsingle.number]), happend⟩
  · rw [hchain]
    exact List.isChain_singleton _
  · rw [hchain]
    rfl

/-- An honest chain of one validator at the last two numbers: the second block is retained right
behind the first, and once more when the next call finds nothing new. -/
theorem rollback_points_close : ∃ (node : Node) (up : Upstream) (tip : ℕ),
    Started mockPrimitives node ∧ up.Exact ∧ tip < u64Size ∧
    ∃ p q, (Machine.run (resyncStep mockPrimitives) node [(up, tip), (up, tip)]).rollbacks =
      [p, q, q] ∧ q.number < p.number + rollbackEvery := by
  obtain ⟨st, genesis, block, call, s', hchain, hat, hlinked, hnumber, hnumber', happend⟩ :=
    exists_last_append
  have hsize : u64Size = 18446744073709551616 := u64Size_eq
  have hlast : lastNumber st.chain = st.snapshot.number := hlinked.lastNumber_eq
  obtain ⟨up, hup⟩ : ∃ up : Upstream, up = ⟨.error [], fun _ _ => .error [],
      fun _ a b => if a = b then .ok [call] else .error []⟩ := ⟨_, rfl⟩
  have hexact : up.Exact := by
    intro k a b headers hrange
    rw [hup] at hrange
    simp only at hrange
    split at hrange
    · next hab =>
      cases hrange
      rw [hab, Nat.sub_self]
      rfl
    · cases hrange
  have hsynced : appendSynced mockPrimitives (up.headersRange 0) st
      (st.snapshot.number + 1) = (.ok (), ⟨st.chain ++ [block], s'⟩) := by
    refine @appendSynced_ok _ _ _ [call] _ _ ?_ ?_ ?_ ?_
    · rw [hlast]
      exact Nat.lt_succ_self _
    · rw [hup, hlast]
      exact if_pos rfl
    · simp only [appendHeaders, happend]
    · rw [hchain]
      norm_num
  have hnear : st.snapshot.number + 1 ≤ satAdd (lastNumber st.chain) 130 := by
    rw [hlast, hnumber]
    unfold satAdd
    rw [hsize]
    decide
  have hfloor : firstNumber (st.chain ++ [block]) ≤ st.snapshot.number := by
    rw [hchain]
    exact hat.1.le
  have hsaturated : ∀ n, u64Size - 2 ≤ n → satAdd n rollbackEvery = u64Size - 1 := by
    intro n hn
    unfold satAdd rollbackEvery
    omega
  obtain ⟨grown, moved, hmove, hmovedChain, hmovedSnapshot, hrollbacks, hmaxSync, -⟩ :=
    moveChain_first .confirmationDepth up hnear hsynced hfloor
      (by rw [hsaturated _ hnumber.ge, hnumber', hnumber]; omega)
  simp only at hmovedChain hmovedSnapshot hrollbacks
  have hmovedLast : lastNumber moved.chain = st.snapshot.number + 1 := by
    have htip : block.number = s'.number := by
      have hlockstep := Synced.Lockstep.appendSynced (P := mockPrimitives) hlinked.tip
        (up.headersRange 0) (st.snapshot.number + 1)
      rw [hsynced] at hlockstep
      obtain ⟨t, ht, hnumbers, -⟩ := hlockstep
      cases (List.getLast?_concat).symm.trans ht
      exact hnumbers
    rw [hmovedChain, ← hnumber', ← htip]
    unfold lastNumber
    rw [List.getLast?_concat]
    rfl
  -- the second call finds the chain at the tip
  have hagain : appendSynced mockPrimitives (up.headersRange 0) ⟨moved.chain, s'⟩
      (st.snapshot.number + 1) = (.ok (), ⟨moved.chain, s'⟩) := by
    unfold appendSynced
    unfold lastNumber at hmovedLast
    simp only [hmovedLast]
    rw [if_pos le_rfl]
  have hmove' := moveChain_append hmovedSnapshot
    (by rw [hmovedLast, hmaxSync]; unfold satAdd; omega) hagain
  refine ⟨(fromPartsWithSnapshot 130 st.chain st.snapshot).setFinalityMode .confirmationDepth, up,
    st.snapshot.number + 1, .parts 130 .confirmationDepth hlinked, hexact, by omega, st.snapshot, s',
    ?_, ?_⟩
  · rw [Machine.run_cons, Machine.run_cons, Machine.run_nil, resyncStep, resyncStep,
      resyncLocked_state, resyncLocked_state, hmove, hmove']
    have hretained := @recordRollback_again st.snapshot s' (firstNumber moved.chain)
      (by rw [hmovedChain]; exact hfloor)
      (by rw [hsaturated _ (by omega), hnumber', hnumber]; omega)
    rw [← hrollbacks] at hretained
    exact hretained
  · rw [hnumber', rollbackEvery]
    omega

end Node

end HeliosBsc
