import HeliosBsc.Consensus.Finality
import HeliosBsc.Consensus.NewestSafe
import HeliosBsc.Mock.LastHeights

/-!
# The head that reads resolve to

Reads resolve to the newer of the Safe head and the finalized block, and to the finalized block only
if the chain holds it. Appends move neither rule back. The finalized block can have been trimmed
away, but never one that is above the Safe head, which stands in the chain itself.
-/

namespace HeliosBsc

open Checked

variable {P : Primitives}

theorem safeOf_eq_ok {chain : List VerifiedBlock} {safe : SafeHead} :
    safeOf chain = .ok safe ↔ newestSafe chain mainnetNSeal = some safe := by
  unfold safeOf
  cases newestSafe chain mainnetNSeal with
  | none => simp
  | some s => simp

theorem mainnetNSeal_pos : 0 < mainnetNSeal := by decide

/-- The head is one of a block: its number, hash and state root are. -/
def SafeHead.Names (head : SafeHead) (b : VerifiedBlock) : Prop :=
  head.number = b.number ∧ head.hash = hexPrefixed b.hash.val ∧
    head.stateRoot = hexPrefixed b.stateRoot.val

theorem exists_names_of_safeOf {chain : List VerifiedBlock} {safe : SafeHead}
    (h : safeOf chain = .ok safe) : ∃ b ∈ chain, safe.Names b := by
  obtain ⟨older, s, newer, hc, rfl⟩ := confirmed_of_newestSafe mainnetNSeal_pos (safeOf_eq_ok.mp h)
  exact ⟨s, hc.mem, rfl, rfl, rfl⟩

section

variable {chain : List VerifiedBlock} {s : Snapshot} {safe : SafeHead}

/-- The head is the Safe head, or a finalized block above it that the chain holds. -/
theorem fastFinalityHead_cases (chain : List VerifiedBlock) (s : Snapshot) (safe : SafeHead) :
    fastFinalityHead chain (some s) safe = safe ∨
    ∃ b ∈ chain, s.finalized = some (b.number, b.hash) ∧ safe.number < b.number ∧
      (fastFinalityHead chain (some s) safe).Names b := by
  unfold fastFinalityHead
  rw [Option.bind_some]
  cases hf : s.finalized with
  | none => exact .inl rfl
  | some f =>
    obtain ⟨number, hash⟩ := f
    simp only
    split
    · exact .inl rfl
    · next hlt =>
      cases hfind : chain.find? fun b => decide (b.number = number ∧ b.hash = hash) with
      | none => exact .inl rfl
      | some b =>
        obtain ⟨rfl, rfl⟩ : b.number = number ∧ b.hash = hash := by
          simpa using List.find?_some hfind
        exact .inr ⟨b, List.mem_of_find?_eq_some hfind, rfl, not_le.mp hlt, rfl, rfl, rfl⟩

theorem le_fastFinalityHead {b : VerifiedBlock} (hb : b ∈ chain)
    (hf : s.finalized = some (b.number, b.hash)) :
    b.number ≤ (fastFinalityHead chain (some s) safe).number := by
  unfold fastFinalityHead
  rw [Option.bind_some, hf]
  simp only
  split
  · next hle => exact hle
  · cases hfind : chain.find? fun c => decide (c.number = b.number ∧ c.hash = b.hash) with
    | none =>
      have hnone := List.find?_eq_none.mp hfind b hb
      simp at hnone
    | some c =>
      have hc : c.number = b.number ∧ c.hash = b.hash := by simpa using List.find?_some hfind
      exact hc.1.ge

theorem safe_le_fastFinalityHead (chain : List VerifiedBlock) (s : Snapshot) (safe : SafeHead) :
    safe.number ≤ (fastFinalityHead chain (some s) safe).number := by
  rcases fastFinalityHead_cases chain s safe with heq | ⟨b, -, -, hlt, hn, -, -⟩
  · rw [heq]
  · rw [hn]
    exact hlt.le

end

/-! ## What has been walked -/

/-- Number and hash of the blocks. -/
def blockNames (chain : List VerifiedBlock) : List (ℕ × Hash) :=
  chain.map fun b => (b.number, b.hash)

namespace Synced

/-- The chain is the end of everything walked so far, and the finality invariant holds for that. -/
structure Remembers (start : ℕ) (past : List (ℕ × Hash)) (st : Synced) : Prop where
  walked : Snapshot.WalkedFrom start past st.snapshot
  sound : Snapshot.Sound past st.snapshot
  kept : blockNames st.chain <:+ past

namespace Remembers

variable {start : ℕ} {past : List (ℕ × Hash)} {st : Synced}

theorem accept (h : st.Remembers start past) {header : RpcBlockHeader} {signer : Address}
    {l : Snapshot.Link} {b : Snapshot.Body} {milli : ℕ} {block : VerifiedBlock}
    (habove : header.AboveGenesis) (hacc : Snapshot.Accepts P st.snapshot header signer l b milli)
    (hof : BlockOf header signer l milli block) :
    Remembers start (past ++ [(l.number, l.hash)])
      ⟨st.chain ++ [block], st.snapshot.next signer l b milli⟩ where
  walked := h.walked.next habove hacc
  sound := h.sound.next h.walked.toWalked hacc
  kept := by
    rw [blockNames, List.map_append, List.map_singleton, hof.number, hof.hash]
    exact (List.suffix_append_inj_of_length_eq rfl).mpr ⟨h.kept, rfl⟩

theorem refuse (h : st.Remembers start past) (n : ℕ) :
    Remembers start past ⟨st.chain, st.snapshot.trimRecents n⟩ :=
  ⟨h.walked.trimRecents n, ⟨h.sound.below, h.sound.known⟩, h.kept⟩

theorem trim (h : st.Remembers start past) :
    Remembers start past ⟨trimChain st.chain, st.snapshot⟩ :=
  ⟨h.walked, h.sound, List.IsSuffix.trans ((trimChain_suffix st.chain).map _) h.kept⟩

/-- What was walked at or above the height of a block of the chain is still in the chain. -/
theorem mem_of_le (h : st.Remembers start past) {f : ℕ × Hash} (hf : f ∈ past)
    {b : VerifiedBlock} (hb : b ∈ st.chain) (hle : b.number ≤ f.1) :
    ∃ c ∈ st.chain, (c.number, c.hash) = f := by
  obtain ⟨older, holder⟩ := h.kept
  rw [← holder] at hf
  rcases List.mem_append.mp hf with hold | hnew
  · -- numbers grow along what was walked
    have hpair : past.Pairwise fun x y => x.1 < y.1 := by
      rw [← List.pairwise_map, h.walked.numbers]
      exact List.pairwise_lt_range'
    rw [← holder, List.pairwise_append] at hpair
    have hlt := hpair.2.2 f hold (b.number, b.hash) (List.mem_map.mpr ⟨b, hb, rfl⟩)
    exact absurd hlt (not_lt.mpr hle)
  · exact List.mem_map.mp hnew

/-- An accepted header moves the finalized block only to one that was justified, so a walked one. -/
theorem finalized_next (h : st.Remembers start past) {header : RpcBlockHeader} {signer : Address}
    {l : Snapshot.Link} {b : Snapshot.Body} {milli : ℕ}
    (hacc : Snapshot.Accepts P st.snapshot header signer l b milli) {f : ℕ × Hash}
    (hf : st.snapshot.finalized = some f) (hmem : f ∈ past) :
    ∃ f' ∈ past, (st.snapshot.next signer l b milli).finalized = some f' ∧ f.1 ≤ f'.1 := by
  cases hb : b.adopted with
  | none =>
    refine ⟨f, hmem, ?_, le_rfl⟩
    rw [Snapshot.finalized, Snapshot.next_attestation_of_none hb]
    exact hf
  | some data =>
    obtain ⟨f', hf', hle, hmoved⟩ :=
      (Snapshot.advances_of_accepts hacc hb h.sound.below).finalized f hf
    refine ⟨f', ?_, hf', hle⟩
    by_cases heq : f' = f
    · rw [heq]
      exact hmem
    · exact h.sound.known f' (hmoved heq)

end Remembers

/-- A walked block at or above a height is finalized. -/
def FinalFrom (start n : ℕ) (st : Synced) : Prop :=
  ∃ past, st.Remembers start past ∧ ∃ f ∈ past, st.snapshot.finalized = some f ∧ n ≤ f.1

theorem remembers_stable (start : ℕ) : Stable P fun st => ∃ past, st.Remembers start past where
  accept := by
    rintro st header now signer l b milli block habove - hacc hof ⟨past, h⟩
    exact ⟨_, h.accept habove hacc hof⟩
  refuse := fun n ⟨past, h⟩ => ⟨past, h.refuse n⟩
  trim := fun ⟨past, h⟩ => ⟨past, h.trim⟩

theorem finalFrom_stable (start n : ℕ) : Stable P (FinalFrom start n) where
  accept := by
    rintro st header now signer l b milli block habove - hacc hof ⟨past, h, f, hmem, hf, hle⟩
    obtain ⟨f', hmem', hf', hle'⟩ := h.finalized_next hacc hf hmem
    exact ⟨_, h.accept habove hacc hof, f', List.mem_append_left _ hmem', hf', hle.trans hle'⟩
  refuse := fun n ⟨past, h, f, hmem, hf, hle⟩ => ⟨past, h.refuse n, f, hmem, hf, hle⟩
  trim := fun ⟨past, h, f, hmem, hf, hle⟩ => ⟨past, h.trim, f, hmem, hf, hle⟩

end Synced

theorem walkFromCheckpointInturn_remembers {headerByNumber : HeaderByNumber}
    {headersRange : HeadersRange} {cp : Checkpoint} {toBlock maxSync : ℕ} {enforce : Bool}
    {st : Synced}
    (h : walkFromCheckpointInturn P headerByNumber headersRange cp toBlock maxSync enforce =
      .ok st) (hunwrapped : headersRange.Unwrapped toBlock) :
    ∃ past, st.Remembers cp.number past := by
  obtain ⟨header, now, e, s, genesis, calls, he, ⟨t, hs⟩, hchain, hat, -, -, hcalls, rfl⟩ :=
    walkFromCheckpointInturn_ok h
  obtain ⟨-, hsnapshot, -⟩ := LightEngine.fromCheckpointAndHeader_ok he
  obtain ⟨-, hwalked⟩ := Snapshot.walked_fromCheckpoint hsnapshot
  obtain ⟨-, -, -, -, -, -, -, -, -, hatt, -⟩ := Snapshot.fromCheckpoint_ok hsnapshot
  have hstart : Synced.Remembers cp.number [(s.number, s.hash)]
      ({ e with snapshot := s } : LightEngine).synced := by
    constructor
    · rw [hs]
      exact ⟨⟨hwalked.tip, hwalked.ancestors⟩, hwalked.numbers⟩
    · have hnone : s.attestation = none := by
        rw [hs]
        exact hatt
      constructor
      · intro a ha
        rw [LightEngine.synced, hnone] at ha
        cases ha
      · intro j hj
        rw [LightEngine.synced, Snapshot.justified, hnone] at hj
        cases hj
    · rw [LightEngine.synced, hchain, blockNames, List.map_singleton, hat.1, hat.2]
  exact (Synced.remembers_stable cp.number).applyHeaders ⟨_, hstart⟩ (hcalls hunwrapped)

/-! ## The head over a run -/

/-- Along every run of appends after the walk from a checkpoint, at every point where `safe_of`
succeeds: the head is not below the Safe head, its number, hash and state root are those of a block
of the chain, and at every later such point the head is not lower. -/
theorem read_head_mono {headerByNumber : HeaderByNumber} {headersRange : HeadersRange}
    {cp : Checkpoint} {toBlock maxSync : ℕ} {st₀ : Synced}
    (h : walkFromCheckpoint P headerByNumber headersRange cp toBlock maxSync = .ok st₀)
    (hwalk : headersRange.Unwrapped toBlock) {before after : List AppendCall}
    (hunwrapped : ∀ call ∈ before ++ after, call.Unwrapped) :
    let st := Machine.run (appendStep P) st₀ before
    let st' := Machine.run (appendStep P) st₀ (before ++ after)
    ∀ safe, safeOf st.chain = .ok safe →
      let head := fastFinalityHead st.chain (some st.snapshot) safe
      safe.number ≤ head.number ∧ (∃ b ∈ st.chain, head.Names b) ∧
      ∀ safe', safeOf st'.chain = .ok safe' →
        head.number ≤ (fastFinalityHead st'.chain (some st'.snapshot) safe').number := by
  intro st st' safe hsafe head
  obtain ⟨hbefore, hafter⟩ := List.forall_mem_append.mp hunwrapped
  obtain ⟨hlinked₀, -⟩ := walkFromCheckpointInturn_linked h hwalk
  obtain ⟨more₀, hext₀⟩ := hlinked₀.run (P := P) hbefore
  have hlinked : st.Linked := hext₀.toLinked hlinked₀
  obtain ⟨past, hpast⟩ := (Synced.remembers_stable (P := P) cp.number).run
    (walkFromCheckpointInturn_remembers h hwalk) hlinked₀.tip hbefore
  have hcases := fastFinalityHead_cases st.chain st.snapshot safe
  refine ⟨safe_le_fastFinalityHead _ _ _, ?_, ?_⟩
  · rcases hcases with heq | ⟨b, hb, -, -, hnames⟩
    · change ∃ b ∈ st.chain, (fastFinalityHead st.chain (some st.snapshot) safe).Names b
      rw [heq]
      exact exists_names_of_safeOf hsafe
    · exact ⟨b, hb, hnames⟩
  · intro safe' hsafe'
    have hrun : st' = Machine.run (appendStep P) st after := Machine.run_append _ _ _
    obtain ⟨more, hext⟩ := hlinked.run (P := P) hafter
    rw [← hrun] at hext
    rcases hcases with heq | ⟨b, hb, hf, -, hn, -⟩
    · -- the Safe head does not move back, and the head is not below it
      have hmono := newestSafe_mono mainnetNSeal_pos hext.kept
        (pairwise_number (hext.isChain_append hlinked.chain)) (safeOf_eq_ok.mp hsafe)
        (safeOf_eq_ok.mp hsafe')
      change (fastFinalityHead st.chain (some st.snapshot) safe).number ≤ _
      rw [heq]
      exact hmono.trans (safe_le_fastFinalityHead _ _ _)
    · -- the finalized block of the chain stays finalized, or a later one is
      have hfinal : st.FinalFrom cp.number b.number :=
        ⟨past, hpast, _, hpast.kept.subset (List.mem_map.mpr ⟨b, hb, rfl⟩), hf, le_rfl⟩
      have hlater := (Synced.finalFrom_stable (P := P) cp.number b.number).run hfinal hlinked.tip
        hafter
      rw [← hrun] at hlater
      obtain ⟨past', hpast', f, hmem, hf', hle⟩ := hlater
      change (fastFinalityHead st.chain (some st.snapshot) safe).number ≤ _
      rw [hn]
      by_cases hbelow : f.1 ≤ safe'.number
      · exact (hle.trans hbelow).trans (safe_le_fastFinalityHead _ _ _)
      · obtain ⟨c, hc, hnumber, -⟩ := exists_names_of_safeOf hsafe'
        obtain ⟨d, hd, rfl⟩ := hpast'.mem_of_le hmem hc (by omega)
        exact hle.trans (le_fastFinalityHead hd hf')

/-- On the pool's chain `safe_of` fails at the checkpoint and succeeds sixteen blocks later, and from
then on the head does not move back. -/
theorem read_head_mono_pool : ∃ (st₀ : Synced) (call : AppendCall) (safe : SafeHead),
    safeOf (Machine.run (appendStep mockPrimitives) st₀ [call]).chain = .ok safe ∧
    ∀ after safe', (∀ call' ∈ after, call'.Unwrapped) →
      let st' := Machine.run (appendStep mockPrimitives) st₀ ([call] ++ after)
      safeOf st'.chain = .ok safe' →
        safe.number ≤ (fastFinalityHead st'.chain (some st'.snapshot) safe').number := by
  obtain ⟨cp, headerByNumber, headersRange, st₀, call, hwalk, hrange, hunwrapped, genesis, blocks, s,
    hcall, hcount, -⟩ := exists_pool_sealed
  have hrun : Machine.run (appendStep mockPrimitives) st₀ [call] = ⟨genesis :: blocks, s⟩ := by
    rw [Machine.run_cons, Machine.run_nil, hcall]
  obtain ⟨safe, hsafe⟩ : ∃ safe, safeOf (genesis :: blocks) = .ok safe := by
    rcases newestSafe_cases (genesis :: blocks) mainnetNSeal_pos with
      ⟨older, b, newer, -, hr⟩ | ⟨hlt, -⟩
    · exact ⟨_, safeOf_eq_ok.mpr hr⟩
    · rw [List.tail_cons, hcount] at hlt
      exact absurd hlt (by decide)
  refine ⟨st₀, call, safe, by rw [hrun]; exact hsafe, ?_⟩
  intro after safe' hafter st' hsafe'
  have hcalls : ∀ call' ∈ [call] ++ after, call'.Unwrapped :=
    List.forall_mem_append.mpr ⟨List.forall_mem_singleton.mpr hunwrapped, hafter⟩
  obtain ⟨hle, -, hmono⟩ := read_head_mono hwalk hrange hcalls safe (by rw [hrun]; exact hsafe)
  exact hle.trans (hmono safe' hsafe')

theorem Synced.LastPool.head_number {members used : List Address} {k : ℕ} {st : Synced}
    (h : st.LastPool members used k) (hnodup : used.Nodup) (hk : 15 ≤ k) :
    ∃ safe, safeOf st.chain = .ok safe ∧
      (fastFinalityHead st.chain (some st.snapshot) safe).number = lastHeight (k - 15) := by
  obtain ⟨safe, hsafe, hnumber⟩ := h.newestSafe_eq hnodup hk
  refine ⟨safe, safeOf_eq_ok.mpr hsafe, ?_⟩
  have hnone : st.snapshot.finalized = none := by
    rw [Snapshot.finalized, h.snapshot.attestation]
    rfl
  rcases fastFinalityHead_cases st.chain st.snapshot safe with heq | ⟨b, -, hf, -⟩
  · rw [heq, hnumber]
  · rw [hnone] at hf
    cases hf

/-- Tips up to the last height, and lists that go on past it: the head falls from the last height
but one to `0`. -/
theorem read_head_past_the_last : ¬ ∀ (P : Primitives) (headerByNumber : HeaderByNumber)
      (headersRange : HeadersRange) (cp : Checkpoint) (toBlock maxSync : ℕ) (st₀ : Synced)
      (before after : List AppendCall) (safe safe' : SafeHead),
      walkFromCheckpoint P headerByNumber headersRange cp toBlock maxSync = .ok st₀ →
      toBlock < u64Size → (∀ call ∈ before ++ after, call.newTip < u64Size) →
      let st := Machine.run (appendStep P) st₀ before
      let st' := Machine.run (appendStep P) st₀ (before ++ after)
      safeOf st.chain = .ok safe → safeOf st'.chain = .ok safe' →
      (fastFinalityHead st.chain (some st.snapshot) safe).number ≤
        (fastFinalityHead st'.chain (some st'.snapshot) safe').number := by
  intro hall
  have hsize := u64Size_eq
  obtain ⟨cp, headerByNumber, headersRange, st₀, hwalk, hstart⟩ := exists_last_walk
  change st₀.LastPool poolMembers (poolMembers.take 0).reverse 0 at hstart
  obtain ⟨range₁, st₁, hcall₁, hst₁⟩ := hstart.call (show 0 ≤ 15 by norm_num) (by norm_num)
    (show u64Size - 2 < u64Size - 1 by omega)
  obtain ⟨range₂, st₂, hcall₂, hst₂⟩ := hst₁.call (show 15 ≤ 17 by norm_num) (by norm_num)
    (show lastHeight 15 < 15 by decide)
  have hnodup : ∀ k, (poolMembers.take k).reverse.Nodup := fun k =>
    List.nodup_reverse.mpr (nodup_poolMembers.sublist (List.take_sublist _ _))
  obtain ⟨safe₁, hsafe₁, hhead₁⟩ := hst₁.head_number (hnodup 15) le_rfl
  obtain ⟨safe₂, hsafe₂, hhead₂⟩ := hst₂.head_number (hnodup 17) (by norm_num)
  have hrun₁ : Machine.run (appendStep mockPrimitives) st₀ [⟨range₁, u64Size - 1⟩] = st₁ := by
    rw [Machine.run_cons, Machine.run_nil, appendStep, hcall₁]
  have hrun₂ : Machine.run (appendStep mockPrimitives) st₀
      ([⟨range₁, u64Size - 1⟩] ++ [⟨range₂, 15⟩]) = st₂ := by
    rw [Machine.run_append, hrun₁, Machine.run_cons, Machine.run_nil, appendStep, hcall₂]
  have hle := hall mockPrimitives headerByNumber headersRange cp (u64Size - 2) 0 st₀
    [⟨range₁, u64Size - 1⟩] [⟨range₂, 15⟩] safe₁ safe₂ hwalk (by omega)
    (List.forall_mem_append.mpr ⟨List.forall_mem_singleton.mpr (show u64Size - 1 < u64Size by omega),
      List.forall_mem_singleton.mpr (show 15 < u64Size by omega)⟩)
  rw [hrun₁, hrun₂] at hle
  have hdown := hle hsafe₁ hsafe₂
  rw [hhead₁, hhead₂] at hdown
  change u64Size - 2 ≤ 0 at hdown
  omega

end HeliosBsc
