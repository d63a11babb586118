import HeliosBsc.Node.LogFilter

/-!
# Block filters

`Node::get_filter_changes` on one block filter with one caller. A poll refreshes and reads the cursor,
and then reads the hashes from the chain and writes the cursor; the chain may advance between the two
and between polls. The cursor moves by the arithmetic of the span, the hashes are those that the
trimmed chain still holds.
-/

namespace HeliosBsc

/-- The hashes that a poll reads from the chain. -/
def blockHashes (chain : List VerifiedBlock) (lo hi : ℕ) : List String :=
  (((chain.filter fun b => decide (lo ≤ b.number ∧ b.number ≤ hi)).map fun b =>
    (b.number, hexPrefixed b.hash.val)).mergeSort fun x y => decide (x.1 ≤ y.1)).map Prod.snd

/-- The verified chain, the head that reads resolve to, the cursor of the filter, the span of a poll
that has begun and the hashes that all polls have returned. -/
structure BlockFilterState where
  synced : Synced
  head : SafeHead
  cursor : ℕ
  reading : Option (ℕ × ℕ)
  returned : List String

/-- `new_block_filter`: the filter begins after the current head. -/
def newBlockFilter (synced : Synced) (head : SafeHead) : BlockFilterState where
  synced := synced
  head := head
  cursor := satAdd head.number 1
  reading := none
  returned := []

/-- An advance of the chain, or one of the two steps of a poll. -/
inductive BlockFilterEvent where
  | advance (call : AppendCall) (head : SafeHead)
  | refresh (outage : Option String)
  | collect

namespace BlockFilterState

section

variable (P : Primitives)

/-- A step, with what the poll returns if it is done. A poll begins when the one before is done. -/
def step (s : BlockFilterState) : BlockFilterEvent →
    Option (Except RpcFailure (List String)) × BlockFilterState
  | .advance call head =>
    (none, { s with synced := (appendStep P s.synced call).2, head := head })
  | .refresh outage =>
    match s.reading, outage with
    | some _, _ => (none, s)
    | none, some e => (some (.error ⟨errNotSynced, s!"not_synced: {e}"⟩), s)
    | none, none =>
      if s.head.number < s.cursor then (some (.ok []), s)
      else (none, { s with
        reading := some (s.cursor, min s.head.number (satAdd s.cursor (maxGetLogsRange - 1))) })
  | .collect =>
    match s.reading with
    | none => (none, s)
    | some (lo, hi) =>
      let hashes := blockHashes s.synced.chain lo hi
      (some (.ok hashes), { s with
        cursor := satAdd hi 1
        reading := none
        returned := s.returned ++ hashes })

end

/-- The hashes returned so far are those of the blocks from `initial` up to the cursor, of each of
them once and in order. -/
def Exact (blocks : List VerifiedBlock) (initial : ℕ) (s : BlockFilterState) : Prop :=
  ∃ passed ⊆ blocks, passed.map VerifiedBlock.number = List.range' initial (s.cursor - initial) ∧
    s.returned = passed.map fun b => hexPrefixed b.hash.val

/-- The condition on a step that publishes a head. -/
def HeadPublished (P : Primitives) (s : BlockFilterState) : BlockFilterEvent → Prop
  | .advance call head => call.Publishes P head (u64Size - 1) s.synced
  | _ => True

/-- A poll that collects finds every block from the cursor on still in the chain. -/
def InReach (s : BlockFilterState) : BlockFilterEvent → Prop
  | .collect => ∀ lo hi, s.reading = some (lo, hi) → firstNumber s.synced.chain ≤ lo
  | _ => True

end BlockFilterState

/-! ## The hashes of a span -/

section

variable {chain : List VerifiedBlock}

theorem blockHashes_eq (hchain : List.IsChain Follows chain) (lo hi : ℕ) :
    blockHashes chain lo hi = (chain.filter fun b => decide (lo ≤ b.number ∧ b.number ≤ hi)).map
      fun b => hexPrefixed b.hash.val := by
  have hascending := (pairwise_number hchain).filter fun b => decide (lo ≤ b.number ∧ b.number ≤ hi)
  unfold blockHashes
  rw [List.mergeSort_of_pairwise
    (List.pairwise_map.mpr (hascending.imp fun h => decide_eq_true h.le)), List.map_map]
  rfl

/-- Without the first block of the span there are too few hashes. -/
theorem length_blockHashes_lt (hchain : List.IsChain Follows chain) {lo hi : ℕ} (hle : lo ≤ hi)
    (hfirst : lo < firstNumber chain) : (blockHashes chain lo hi).length < hi + 1 - lo := by
  have hnodup : ((chain.filter fun b => decide (lo ≤ b.number ∧ b.number ≤ hi)).map
      VerifiedBlock.number).Nodup :=
    (List.pairwise_map.mpr ((pairwise_number hchain).filter _)).imp fun h => h.ne
  have hsub : (chain.filter fun b => decide (lo ≤ b.number ∧ b.number ≤ hi)).map
      VerifiedBlock.number ⊆ List.range' (lo + 1) (hi - lo) := by
    intro n hn
    obtain ⟨b, hb, rfl⟩ := List.mem_map.mp hn
    obtain ⟨hmem, hbounds⟩ := List.mem_filter.mp hb
    have hle' := firstNumber_le hchain hmem
    have := of_decide_eq_true hbounds
    exact List.mem_range'_1.mpr ⟨by omega, by omega⟩
  have hlength := (List.subperm_of_subset hnodup hsub).length_le
  rw [List.length_map, List.length_range'] at hlength
  rw [blockHashes_eq hchain, List.length_map]
  omega

end

namespace BlockFilterState

variable {P : Primitives} {start : Synced} {initial : ℕ} {s : BlockFilterState}

theorem Exact.length {blocks : List VerifiedBlock} (h : s.Exact blocks initial) :
    s.returned.length = s.cursor - initial := by
  obtain ⟨passed, -, hnumbers, hreturned⟩ := h
  rw [hreturned, List.length_map, ← List.length_map (f := VerifiedBlock.number), hnumbers,
    List.length_range']

/-- The hashes so far are exact, and a poll that has begun reads from the cursor to a block that the
chain has reached. -/
structure InStep (P : Primitives) (start : Synced) (initial : ℕ) (s : BlockFilterState) : Prop where
  extended : ∃ appended, Extends P start appended s.synced ∧ s.Exact (start.chain ++ appended) initial
  head : s.head.PublishedOn (u64Size - 1) s.synced.chain
  cursor : initial ≤ s.cursor
  reading : ∀ lo hi, s.reading = some (lo, hi) →
    lo = s.cursor ∧ lo ≤ hi ∧ hi < u64Size - 1 ∧ hi ≤ s.synced.snapshot.number

theorem Exact.mono {blocks blocks' : List VerifiedBlock} (h : s.Exact blocks initial)
    (hsub : blocks ⊆ blocks') : s.Exact blocks' initial := by
  obtain ⟨passed, hpassed, hrest⟩ := h
  exact ⟨passed, fun b hb => hsub (hpassed hb), hrest⟩

theorem InStep.linked (h : s.InStep P start initial) (hstart : start.Linked) : s.synced.Linked := by
  obtain ⟨appended, hextends, -⟩ := h.extended
  exact hextends.toLinked hstart

theorem InStep.advance (h : s.InStep P start initial) (hstart : start.Linked) {call : AppendCall}
    {head : SafeHead} (hhead : s.HeadPublished P (.advance call head)) :
    (s.step P (.advance call head)).2.InStep P start initial := by
  obtain ⟨appended, hextends, hexact⟩ := h.extended
  obtain ⟨hunwrapped, hpublished⟩ := hhead
  obtain ⟨more, hmore⟩ := hextends.appendSynced hunwrapped
  have hlinked := h.linked hstart
  obtain ⟨new, hnew⟩ := hlinked.appendSynced (P := P) hunwrapped
  refine ⟨⟨appended ++ more, hmore, ?_⟩, hpublished, h.cursor, fun lo hi hreading => ?_⟩
  · refine Exact.mono (s := (s.step P (.advance call head)).2) hexact ?_
    rw [← List.append_assoc]
    exact List.subset_append_left _ _
  · obtain ⟨hlo, hle, hhi, htip⟩ := h.reading lo hi hreading
    exact ⟨hlo, hle, hhi, htip.trans (hnew.number_le hlinked)⟩

theorem InStep.refresh (h : s.InStep P start initial) (hstart : start.Linked)
    (outage : Option String) : (s.step P (.refresh outage)).2.InStep P start initial := by
  unfold step
  simp only
  split
  · exact h
  · exact h
  · split
    · exact h
    · next hcursor =>
      refine ⟨h.extended, h.head, h.cursor, fun lo hi hreading => ?_⟩
      obtain ⟨hbound, b, hb, hnames⟩ := h.head
      have htip := (h.linked hstart).number_le hb
      have hspan : s.cursor ≤ min s.head.number (satAdd s.cursor (maxGetLogsRange - 1)) := by
        unfold satAdd
        omega
      have hstop : min s.head.number (satAdd s.cursor (maxGetLogsRange - 1)) ≤ s.head.number :=
        min_le_left _ _
      cases hreading
      exact ⟨rfl, hspan, hstop.trans_lt hbound, hstop.trans (hnames.1.le.trans htip)⟩

/-- A poll that finds its first block still in the chain returns every block of its span. -/
theorem InStep.collect (h : s.InStep P start initial) (hstart : start.Linked)
    (hreach : s.InReach .collect) : (s.step P .collect).2.InStep P start initial := by
  unfold step
  simp only
  split
  · exact h
  · next lo hi hreading =>
    obtain ⟨rfl, hle, hhi, htip⟩ := h.reading lo hi hreading
    obtain ⟨appended, hextends, passed, hpassed, hnumbers, hreturned⟩ := h.extended
    have hlinked := h.linked hstart
    obtain ⟨tip, hlast, hat⟩ := hlinked.tip
    have hmem := List.mem_of_getLast? hlast
    obtain ⟨first, hfirst, hnumber⟩ := exists_mem_firstNumber (List.ne_nil_of_mem hmem)
    have hspan := HashChain.map_number_filter (follows_eq ▸ hlinked.chain) hfirst hmem
      (hnumber.le.trans (hreach s.cursor hi hreading)) (htip.trans hat.1.ge)
    have hnext : satAdd hi 1 = hi + 1 := satAdd_of_lt (by omega)
    have hinitial := h.cursor
    refine ⟨⟨appended, hextends, passed ++ s.synced.chain.filter fun b =>
      decide (s.cursor ≤ b.number ∧ b.number ≤ hi), ?_, ?_, ?_⟩, h.head, ?_, fun _ _ hnone => ?_⟩
    · intro b hb
      rcases List.mem_append.mp hb with hold | hnew
      · exact hpassed hold
      · exact hextends.kept.subset (List.mem_filter.mp hnew).1
    · change _ = List.range' initial (satAdd hi 1 - initial)
      rw [List.map_append, hnumbers, hspan, hnext,
        show hi + 1 - initial = (s.cursor - initial) + (hi + 1 - s.cursor) by omega,
        ← List.range'_append_1, show initial + (s.cursor - initial) = s.cursor by omega]
    · change s.returned ++ blockHashes _ _ _ = _
      rw [hreturned, blockHashes_eq hlinked.chain, List.map_append]
    · change initial ≤ satAdd hi 1
      omega
    · cases hnone

theorem InStep.step (h : s.InStep P start initial) (hstart : start.Linked) {e : BlockFilterEvent}
    (hhead : s.HeadPublished P e) (hreach : s.InReach e) :
    (s.step P e).2.InStep P start initial := by
  cases e with
  | advance call head => exact h.advance hstart hhead
  | refresh outage => exact h.refresh hstart outage
  | collect => exact h.collect hstart hreach

/-- A poll that comes too late for its first block moves the cursor past a block it has not
returned. -/
theorem InStep.not_exact (h : s.InStep P start initial) (hstart : start.Linked)
    {e : BlockFilterEvent} (hreach : ¬ s.InReach e) (blocks : List VerifiedBlock) :
    ¬ (s.step P e).2.Exact blocks initial := by
  obtain ⟨lo, hi, rfl, hreading, hlate⟩ : ∃ lo hi, e = .collect ∧ s.reading = some (lo, hi) ∧
      lo < firstNumber s.synced.chain := by
    cases e with
    | collect =>
      simp only [InReach, not_forall, not_le] at hreach
      obtain ⟨lo, hi, hreading, hlate⟩ := hreach
      exact ⟨lo, hi, rfl, hreading, hlate⟩
    | _ => exact absurd trivial hreach
  obtain ⟨rfl, hle, hhi, -⟩ := h.reading lo hi hreading
  obtain ⟨appended, -, hexact⟩ := h.extended
  have hinitial := h.cursor
  have hfew := length_blockHashes_lt (h.linked hstart).chain hle hlate
  have hnext : satAdd hi 1 = hi + 1 := satAdd_of_lt (by omega)
  intro hafter
  have hlength := hafter.length
  simp only [BlockFilterState.step, hreading] at hlength
  rw [List.length_append, hexact.length, hnext] at hlength
  omega

end BlockFilterState

section

open BlockFilterState

variable {P : Primitives} {synced : Synced} {head : SafeHead}

theorem newBlockFilter_inStep (hlinked : synced.Linked)
    (hhead : head.PublishedOn (u64Size - 1) synced.chain) :
    (newBlockFilter synced head).InStep P synced (satAdd head.number 1) where
  extended := by
    refine ⟨[], .refl hlinked, [], List.nil_subset _, ?_, rfl⟩
    change [] = List.range' _ (satAdd head.number 1 - satAdd head.number 1)
    rw [Nat.sub_self]
    rfl
  head := hhead
  cursor := le_rfl
  reading := by
    intro lo hi h
    cases h

/-- While every poll finds its first block, the hashes stay exact. -/
theorem inStep_run (hlinked : synced.Linked) (hhead : head.PublishedOn (u64Size - 1) synced.chain)
    {events : List BlockFilterEvent}
    (hheads : Machine.Along (step P) (HeadPublished P) (newBlockFilter synced head) events)
    (hreach : Machine.Along (step P) InReach (newBlockFilter synced head) events) :
    (Machine.run (step P) (newBlockFilter synced head) events).InStep P synced
      (satAdd head.number 1) := by
  refine Machine.run_invariant_of
    (I := fun s : BlockFilterState => s.InStep P synced (satAdd head.number 1))
    (C := fun s e => s.HeadPublished P e ∧ s.InReach e) ?_ (newBlockFilter_inStep hlinked hhead) events
    fun before e after heq => ⟨hheads before e after heq, hreach before e after heq⟩
  rintro s e hs ⟨hpublished, hr⟩
  exact hs.step hlinked hpublished hr

/-- Over every run of the polls of a block filter and of advances of the chain, whose heads stay below
the last number: the hashes returned so far are at all times those of the verified blocks from the
initial cursor up to the current one, of each block once and in order, if and only if every poll that
collects finds the block at the cursor still in the chain. -/
theorem block_filter_exact_iff (P : Primitives) {synced : Synced} {head : SafeHead}
    (hlinked : synced.Linked) (hhead : head.PublishedOn (u64Size - 1) synced.chain)
    (events : List BlockFilterEvent)
    (hheads : Machine.Along (step P) (HeadPublished P) (newBlockFilter synced head) events) :
    let run := Machine.run (step P) (newBlockFilter synced head)
    (∀ before after, events = before ++ after → ∃ appended,
      Extends P synced appended (run before).synced ∧
        (run before).Exact (synced.chain ++ appended) (satAdd head.number 1)) ↔
    (∀ before e after, events = before ++ e :: after → (run before).InReach e) := by
  intro run
  constructor
  · intro hexact
    change Machine.Along (step P) InReach (newBlockFilter synced head) events
    induction events using List.reverseRecOn with
    | nil => exact Machine.along_nil
    | append_singleton l e ih =>
      have hprefix := (Machine.along_concat.mp hheads).1
      have hl := ih hprefix fun before after heq =>
        hexact before (after ++ [e]) (by rw [heq, List.append_assoc])
      refine Machine.along_concat.mpr ⟨hl, ?_⟩
      by_contra hlate
      obtain ⟨appended, -, hlast⟩ := hexact (l ++ [e]) [] (by rw [List.append_nil])
      rw [show run (l ++ [e]) = _ from Machine.run_concat _ _ _] at hlast
      exact (inStep_run hlinked hhead hprefix hl).not_exact hlinked hlate _ hlast
  · rintro hreach before after rfl
    exact (inStep_run hlinked hhead (Machine.along_append.mp hheads).1
      (Machine.along_append.mp (show Machine.Along (step P) InReach _ _ from hreach)).1).extended

end

/-- An advance of the chain and the first step of the poll after it. -/
def refreshedEvents (call : AppendCall) (tip : VerifiedBlock) : List BlockFilterEvent :=
  [.advance call (headOf tip), .refresh none]

theorem run_refreshedEvents {P : Primitives} {st st' : Synced} {call : AppendCall}
    {b tip : VerifiedBlock} (happend : appendStep P st call = (.ok (), st'))
    (hgrown : satAdd b.number 1 ≤ tip.number) :
    Machine.run (BlockFilterState.step P) (newBlockFilter st (headOf b))
        (refreshedEvents call tip) =
      { synced := st'
        head := headOf tip
        cursor := satAdd b.number 1
        reading := some (satAdd b.number 1,
          min tip.number (satAdd (satAdd b.number 1) (maxGetLogsRange - 1)))
        returned := [] } := by
  simp only [refreshedEvents, Machine.run_cons, Machine.run_nil, BlockFilterState.step,
    newBlockFilter, happend]
  have hnot : ¬ (headOf tip).number < satAdd (headOf b).number 1 := Nat.not_lt.mpr hgrown
  rw [if_neg hnot]
  rfl

theorem headPublished_refreshedEvents {P : Primitives} {st st' : Synced} {call : AppendCall}
    {head : SafeHead} {tip : VerifiedBlock} (hunwrapped : call.Unwrapped)
    (happend : appendStep P st call = (.ok (), st')) (htip : tip ∈ st'.chain)
    (hsize : tip.number < u64Size - 1) :
    Machine.Along (BlockFilterState.step P) (BlockFilterState.HeadPublished P)
      (newBlockFilter st head) (refreshedEvents call tip ++ [.collect]) := by
  refine Machine.along_cons.mpr ⟨⟨hunwrapped, hsize, tip, ?_, rfl, rfl, rfl⟩, Machine.along_cons.mpr
    ⟨trivial, Machine.along_cons.mpr ⟨trivial, Machine.along_nil⟩⟩⟩
  change tip ∈ (appendStep P st call).2.chain
  rw [happend]
  exact htip

/-- The chain grows, and a poll reads up to its new head. -/
def pollRound (call : AppendCall) (head : SafeHead) : List BlockFilterEvent :=
  [.advance call head, .refresh none, .collect]

theorem run_pollRound {P : Primitives} {s : BlockFilterState} (call : AppendCall) (head : SafeHead)
    (hreading : s.reading = none) (hle : s.cursor ≤ head.number)
    (hwidth : head.number < s.cursor + maxGetLogsRange) (hsize : head.number < u64Size)
    (hpublishes : call.Publishes P head (u64Size - 1) s.synced)
    (hfirst : firstNumber (appendStep P s.synced call).2.chain ≤ s.cursor) :
    Machine.Along (BlockFilterState.step P) (BlockFilterState.HeadPublished P) s
        (pollRound call head) ∧
      Machine.Along (BlockFilterState.step P) BlockFilterState.InReach s (pollRound call head) ∧
      Machine.run (BlockFilterState.step P) s (pollRound call head) =
        ⟨(appendStep P s.synced call).2, head, satAdd head.number 1, none,
          s.returned ++ blockHashes (appendStep P s.synced call).2.chain s.cursor head.number⟩ := by
  have hstop : min head.number (satAdd s.cursor (maxGetLogsRange - 1)) = head.number := by
    unfold maxGetLogsRange at hwidth
    unfold satAdd maxGetLogsRange
    omega
  obtain ⟨s₁, hs₁⟩ : ∃ s₁, s₁ = (BlockFilterState.step P s (.advance call head)).2 := ⟨_, rfl⟩
  have hread : (BlockFilterState.step P s₁ (.refresh none)).2 =
      { s₁ with reading := some (s.cursor, head.number) } := by
    rw [hs₁]
    simp only [BlockFilterState.step, hreading, hstop]
    rw [if_neg (Nat.not_lt.mpr hle)]
  refine ⟨Machine.along_cons.mpr ⟨hpublishes, ?_⟩, Machine.along_cons.mpr ⟨trivial, ?_⟩, ?_⟩
  · exact Machine.along_cons.mpr ⟨trivial, Machine.along_cons.mpr ⟨trivial, Machine.along_nil⟩⟩
  · rw [← hs₁]
    refine Machine.along_cons.mpr ⟨trivial, Machine.along_cons.mpr ⟨?_, Machine.along_nil⟩⟩
    rw [hread]
    rintro lo hi ⟨⟩
    rw [hs₁]
    exact hfirst
  · rw [pollRound, Machine.run_cons, ← hs₁, Machine.run_cons, hread, Machine.run_cons,
      Machine.run_nil, hs₁]
    rfl

/-- The chain grows and its head moves twice, with a poll after each. -/
def twoBlockPolls (call : AppendCall) (first tip : VerifiedBlock) : List BlockFilterEvent :=
  [.advance call (headOf first), .refresh none, .collect,
    .advance ⟨fun _ _ => .ok [], 0⟩ (headOf tip), .refresh none, .collect]

section

variable {P : Primitives} {st st' : Synced} {call : AppendCall} {genesis first tip : VerifiedBlock}

theorem appendStep_zero (headersRange : HeadersRange) :
    appendStep P st ⟨headersRange, 0⟩ = (.ok (), st) := by
  change appendSynced P headersRange st 0 = _
  unfold appendSynced
  simp only [if_pos (Nat.zero_le _)]

/-- The heads are published, both polls find their first block, and the second one leaves the cursor
behind the tip. -/
theorem run_twoBlockPolls (hunwrapped : call.Unwrapped)
    (happend : appendStep P st call = (.ok (), st')) (hstart : firstNumber st'.chain ≤ genesis.number)
    (hfirst : first.number = genesis.number + 1) (hmem : first ∈ st'.chain)
    (hnumber : tip.number = genesis.number + 3) (htip : tip ∈ st'.chain)
    (hsize : tip.number < u64Size - 1) :
    Machine.Along (BlockFilterState.step P) (BlockFilterState.HeadPublished P)
        (newBlockFilter st (headOf genesis)) (twoBlockPolls call first tip) ∧
      Machine.Along (BlockFilterState.step P) BlockFilterState.InReach
        (newBlockFilter st (headOf genesis)) (twoBlockPolls call first tip) ∧
      (Machine.run (BlockFilterState.step P) (newBlockFilter st (headOf genesis))
        (twoBlockPolls call first tip)).cursor = satAdd genesis.number 1 + 3 := by
  have hcursor : satAdd genesis.number 1 = genesis.number + 1 := satAdd_of_lt (by omega)
  have hcursor₁ : satAdd first.number 1 = genesis.number + 2 := by rw [satAdd_of_lt (by omega), hfirst]
  have hcursor₂ : satAdd tip.number 1 = genesis.number + 4 := by rw [satAdd_of_lt (by omega), hnumber]
  have hrange : maxGetLogsRange = 128 := rfl
  -- the first poll
  obtain ⟨s, hs⟩ : ∃ s, s = newBlockFilter st (headOf genesis) := ⟨_, rfl⟩
  obtain ⟨hsynced, hat, hidle⟩ : s.synced = st ∧ s.cursor = satAdd genesis.number 1 ∧
      s.reading = none := hs ▸ ⟨rfl, rfl, rfl⟩
  have hgrown : (appendStep P s.synced call).2 = st' := by rw [hsynced, happend]
  obtain ⟨hheads, hreach, hrun⟩ := run_pollRound (P := P) (s := s) call (headOf first)
    hidle (show s.cursor ≤ first.number by omega)
    (show first.number < s.cursor + maxGetLogsRange by omega) (show first.number < u64Size by omega)
    ⟨hunwrapped, show first.number < u64Size - 1 by omega, first, hgrown ▸ hmem, rfl, rfl, rfl⟩
    (by rw [hgrown]; omega)
  -- the second poll
  obtain ⟨s₁, hs₁⟩ : ∃ s₁, s₁ = Machine.run (BlockFilterState.step P) s
    (pollRound call (headOf first)) := ⟨_, rfl⟩
  rw [← hs₁, hgrown] at hrun
  have hat₁ : s₁.cursor = genesis.number + 2 := hrun ▸ hcursor₁
  have hsame : (appendStep P s₁.synced ⟨fun _ _ => .ok [], 0⟩).2 = st' := by
    rw [appendStep_zero, hrun]
  obtain ⟨hheads₁, hreach₁, hrun₁⟩ := run_pollRound (P := P) (s := s₁)
    ⟨fun _ _ => .ok [], 0⟩ (headOf tip) (by rw [hrun])
    (show s₁.cursor ≤ tip.number by omega) (show tip.number < s₁.cursor + maxGetLogsRange by omega)
    (show tip.number < u64Size by omega)
    ⟨fun last _ hlow => absurd hlow (Nat.not_lt_zero last), hsize, tip, hsame ▸ htip, rfl, rfl, rfl⟩
    (by rw [hsame]; omega)
  have hsplit : twoBlockPolls call first tip =
    pollRound call (headOf first) ++ pollRound ⟨fun _ _ => .ok [], 0⟩ (headOf tip) := rfl
  rw [hsplit, ← hs]
  refine ⟨Machine.along_append.mpr ⟨hheads, hs₁ ▸ hheads₁⟩,
    Machine.along_append.mpr ⟨hreach, hs₁ ▸ hreach₁⟩, ?_⟩
  rw [Machine.run_append, ← hs₁, hrun₁]
  change satAdd tip.number 1 = _
  rw [hcursor₂, hcursor]

end

/-- Two polls of a new filter on the mock's chain return three hashes. -/
theorem block_filter_exact_iff_sole : ∃ (synced : Synced) (head : SafeHead)
    (events : List BlockFilterEvent), synced.Linked ∧
    (Machine.run (BlockFilterState.step mockPrimitives) (newBlockFilter synced head)
      events).returned.length = 3 ∧
    ∀ before after, events = before ++ after → ∃ appended,
      Extends mockPrimitives synced appended
        (Machine.run (BlockFilterState.step mockPrimitives) (newBlockFilter synced head)
          before).synced ∧
      (Machine.run (BlockFilterState.step mockPrimitives) (newBlockFilter synced head) before).Exact
        (synced.chain ++ appended) (satAdd head.number 1) := by
  obtain ⟨st, genesis, tip, blocks, call, s, hlinked, hchain, hlength, hlinked', hlast, hnumber, hsize,
    hunwrapped, happend⟩ := exists_grown (k := 3) (by norm_num) (by norm_num)
  obtain ⟨first, rest, rfl⟩ := List.exists_cons_of_length_eq_add_one hlength
  have hfirst : first.number = genesis.number + 1 := (List.isChain_cons_cons.mp hlinked'.chain).1.1
  have hhead : (headOf genesis).PublishedOn (u64Size - 1) st.chain := by
    refine ⟨?_, genesis, by rw [hchain]; exact List.mem_singleton_self _, rfl, rfl, rfl⟩
    change genesis.number < u64Size - 1
    omega
  obtain ⟨hheads, hreach, hcursor⟩ := run_twoBlockPolls hunwrapped happend le_rfl hfirst (by simp)
    hnumber (List.mem_of_getLast? hlast) hsize
  have hexact := (block_filter_exact_iff mockPrimitives hlinked hhead _ hheads).mpr hreach
  refine ⟨st, headOf genesis, twoBlockPolls call first tip, hlinked, ?_, hexact⟩
  obtain ⟨-, -, passed, -, hnumbers, hreturned⟩ := hexact _ [] (List.append_nil _).symm
  have hlength := congrArg List.length hnumbers
  rw [List.length_map, List.length_range', hcursor] at hlength
  rw [hreturned, List.length_map, hlength]
  exact Nat.add_sub_cancel_left _ 3

/-- The mock's chain grows by six hundred blocks before the first poll, and holds the last 512 of them
then: the filter's first block is never returned. -/
theorem block_filter_skips : ∃ (synced : Synced) (head : SafeHead) (events : List BlockFilterEvent),
    synced.Linked ∧ head.PublishedOn (u64Size - 1) synced.chain ∧
    Machine.Along (BlockFilterState.step mockPrimitives)
      (BlockFilterState.HeadPublished mockPrimitives) (newBlockFilter synced head) events ∧
    ¬ ∃ appended, Extends mockPrimitives synced appended
        (Machine.run (BlockFilterState.step mockPrimitives) (newBlockFilter synced head)
          events).synced ∧
      (Machine.run (BlockFilterState.step mockPrimitives) (newBlockFilter synced head) events).Exact
        (synced.chain ++ appended) (satAdd head.number 1) := by
  obtain ⟨st, genesis, call, blocks, s, hlinked, hchain, hnumber, hlength, hs, hunwrapped, happend⟩ :=
    exists_sole_advance (k := 600) (by norm_num) (by norm_num)
  have hbound : sealedChainStart + 600 < u64Size - 1 := by
    have hroom : (sealedChainStart + 601 : ℕ) < u64Size := Draft.small_lt_u64Size (by decide)
    omega
  obtain ⟨more, hextends⟩ := hlinked.appendSynced (P := mockPrimitives) hunwrapped
  have hlinked' : Synced.Linked ⟨trimChain (genesis :: blocks), s⟩ := by
    have hnext := hextends.toLinked hlinked
    rwa [show appendSynced mockPrimitives call.headersRange st call.newTip = _ from happend] at hnext
  obtain ⟨tip, hlast, hat⟩ := hlinked'.tip
  have htip : tip.number = sealedChainStart + 600 := hat.1.trans hs
  have hkept : (trimChain (genesis :: blocks)).length = 512 := by
    unfold trimChain keepBlocks
    rw [List.length_drop, List.length_cons, hlength]
  -- the first block that is left is the 89th after the start
  have hfirst : firstNumber (trimChain (genesis :: blocks)) = sealedChainStart + 89 := by
    have hlinks := hlinked'.chain
    cases hcases : trimChain (genesis :: blocks) with
    | nil =>
      rw [hcases] at hkept
      cases hkept
    | cons first rest =>
      simp only [hcases] at hlinks hlast
      rw [hcases, List.length_cons] at hkept
      have hgrow := HashChain.number_getLast (follows_eq ▸ hlinks) hlast
      change first.number = _
      omega
  have hcursor : satAdd genesis.number 1 = sealedChainStart + 1 := by
    rw [satAdd_of_lt (by omega), hnumber]
  have hgrown : satAdd genesis.number 1 ≤ tip.number := by omega
  have hhead : (headOf genesis).PublishedOn (u64Size - 1) st.chain := by
    refine ⟨?_, genesis, by rw [hchain]; exact List.mem_singleton_self _, rfl, rfl, rfl⟩
    change genesis.number < u64Size - 1
    omega
  have hheads : Machine.Along (BlockFilterState.step mockPrimitives)
      (BlockFilterState.HeadPublished mockPrimitives) (newBlockFilter st (headOf genesis))
      (refreshedEvents call tip ++ [.collect]) :=
    headPublished_refreshedEvents hunwrapped happend (List.mem_of_getLast? hlast) (by omega)
  refine ⟨st, headOf genesis, refreshedEvents call tip ++ [.collect], hlinked, hhead, hheads, ?_⟩
  rintro ⟨appended, -, hexact⟩
  have hstep := inStep_run hlinked hhead (Machine.along_concat.mp hheads).1
    (Machine.along_cons.mpr ⟨trivial, Machine.along_cons.mpr ⟨trivial, Machine.along_nil⟩⟩)
  rw [Machine.run_concat] at hexact
  refine hstep.not_exact hlinked ?_ _ hexact
  rw [run_refreshedEvents happend hgrown]
  intro hreach
  have hle : firstNumber (trimChain (genesis :: blocks)) ≤ satAdd genesis.number 1 :=
    hreach _ _ rfl
  omega

end HeliosBsc
