import HeliosBsc.Node.Lockstep
import HeliosBsc.Node.Refresh

/-!
# What the walks keep

A chain and a snapshot are linked when every block follows the one before and the snapshot is at the
last. The append keeps this, and `walk_from_checkpoint` establishes it. New blocks stand above the
old ones, so a block that stays in the chain is never another one at its height.
-/

namespace HeliosBsc

open Checked

/-! ## Linked chains -/

/-- Every block follows the one before, and the snapshot is at the last. -/
structure Synced.Linked (st : Synced) : Prop where
  chain : List.IsChain Follows st.chain
  tip : st.Lockstep

/-- The parent that the stored header names. -/
def NamesParent (b : VerifiedBlock) (parent : Hash) : Prop :=
  ∃ header, b.header = some header ∧ decodeHexFixed 32 header.parentHash = .ok parent

theorem follows_eq :
    Follows = HashChain.Follows VerifiedBlock.number VerifiedBlock.hash NamesParent := rfl

theorem pairwise_number {chain : List VerifiedBlock} (h : List.IsChain Follows chain) :
    chain.Pairwise fun a b => a.number < b.number := by
  rw [follows_eq] at h
  exact HashChain.pairwise_number h

theorem eq_of_number_eq {chain : List VerifiedBlock} (h : List.IsChain Follows chain)
    {a b : VerifiedBlock} (ha : a ∈ chain) (hb : b ∈ chain) (hn : a.number = b.number) : a = b := by
  rw [follows_eq] at h
  exact HashChain.eq_of_number_eq h ha hb hn

theorem firstNumber_le {chain : List VerifiedBlock} (h : List.IsChain Follows chain)
    {b : VerifiedBlock} (hb : b ∈ chain) : firstNumber chain ≤ b.number := by
  cases chain with
  | nil => cases hb
  | cons f rest =>
    rcases List.mem_cons.mp hb with rfl | hb
    · exact le_rfl
    · exact ((List.pairwise_cons.mp (pairwise_number h)).1 b hb).le

theorem exists_mem_firstNumber {chain : List VerifiedBlock} (hne : chain ≠ []) :
    ∃ b ∈ chain, b.number = firstNumber chain := by
  cases chain with
  | nil => exact absurd rfl hne
  | cons f rest => exact ⟨f, List.mem_cons_self, rfl⟩

theorem mem_takeWhile_number {chain : List VerifiedBlock} (h : List.IsChain Follows chain)
    {b : VerifiedBlock} {n : ℕ} (hb : b ∈ chain) (hn : b.number ≤ n) :
    b ∈ chain.takeWhile fun b => decide (b.number ≤ n) := by
  induction chain with
  | nil => cases hb
  | cons f rest ih =>
    have hfirst : f.number ≤ n := (firstNumber_le h hb).trans hn
    rw [List.takeWhile_cons_of_pos (by simpa using hfirst)]
    rcases List.mem_cons.mp hb with rfl | hb
    · exact List.mem_cons_self
    · exact List.mem_cons_of_mem _ (ih h.tail hb)

namespace Synced.Linked

variable {st : Synced}

theorem number_le (h : st.Linked) {b : VerifiedBlock} (hb : b ∈ st.chain) :
    b.number ≤ st.snapshot.number := by
  obtain ⟨t, ht, hat⟩ := h.tip
  rw [← hat.1]
  obtain ⟨front, hfront⟩ := List.getLast?_eq_some_iff.mp ht
  rw [hfront] at hb
  rcases List.mem_append.mp hb with hb | hb
  · have hpair := pairwise_number h.chain
    rw [hfront, List.pairwise_append] at hpair
    exact (hpair.2.2 b hb t (List.mem_singleton_self t)).le
  · rw [List.mem_singleton.mp hb]

theorem lastNumber_eq (h : st.Linked) : lastNumber st.chain = st.snapshot.number :=
  h.tip.lastNumber_eq

end Synced.Linked

/-! ## Appending -/

section

variable {P : Primitives} {start st : Synced} {appended : List VerifiedBlock}

theorem Extends.refl (h : start.Linked) : Extends P start [] start := by
  obtain ⟨b, hb, hat⟩ := h.tip
  exact ⟨by simp [hb], by simp, by simp, b, hb, hat⟩

theorem Extends.toLinked (h : Extends P start appended st) (hstart : start.Linked) : st.Linked :=
  ⟨h.isChain hstart.chain, h.tip⟩

theorem Extends.number_lt (h : Extends P start appended st) (hstart : start.Linked)
    {b : VerifiedBlock} (hb : b ∈ appended) : start.snapshot.number < b.number := by
  obtain ⟨t, ht, hat⟩ := hstart.tip
  have hlinked := h.linked
  rw [ht, Option.toList_some, List.singleton_append] at hlinked
  rw [← hat.1]
  exact (List.pairwise_cons.mp (pairwise_number hlinked)).1 b hb

theorem Extends.mem_or_lt (h : Extends P start appended st) (hstart : start.Linked)
    {b : VerifiedBlock} (hb : b ∈ st.chain) : b ∈ start.chain ∨ start.snapshot.number < b.number := by
  rcases List.mem_append.mp (h.kept.subset hb) with hold | hnew
  · exact .inl hold
  · exact .inr (h.number_lt hstart hnew)

theorem Extends.number_le (h : Extends P start appended st) (hstart : start.Linked) :
    start.snapshot.number ≤ st.snapshot.number := by
  obtain ⟨b, hb, hat⟩ := h.tip
  rw [← hat.1]
  have hlast := h.getLast?_eq
  rw [hb, List.getLast?_append] at hlast
  cases happended : appended.getLast? with
  | none =>
    obtain ⟨t, ht, hstartAt⟩ := hstart.tip
    rw [happended, Option.none_or, ht] at hlast
    rw [← Option.some.inj hlast, hstartAt.1]
  | some a =>
    rw [happended, Option.some_or] at hlast
    rw [← Option.some.inj hlast]
    exact (h.number_lt hstart (List.mem_of_getLast? happended)).le

theorem Extends.firstNumber_le (h : Extends P start appended st) (hstart : start.Linked) :
    firstNumber start.chain ≤ firstNumber st.chain := by
  obtain ⟨t, ht, -⟩ := h.tip
  obtain ⟨b, hb, hfirst⟩ := exists_mem_firstNumber (List.ne_nil_of_mem (List.mem_of_getLast? ht))
  rw [← hfirst]
  rcases h.mem_or_lt hstart hb with hold | hlt
  · exact HeliosBsc.firstNumber_le hstart.chain hold
  · obtain ⟨t', ht', hat⟩ := hstart.tip
    have hle := HeliosBsc.firstNumber_le hstart.chain (List.mem_of_getLast? ht')
    have hnumber := hat.1
    omega

/-- What is above the first block of the trimmed chain is in it if it was there before. -/
theorem Extends.mem_of_le (h : Extends P start appended st) (hstart : start.Linked)
    {b : VerifiedBlock} (hb : b ∈ start.chain) (hle : firstNumber st.chain ≤ b.number) :
    b ∈ st.chain := by
  obtain ⟨older, holder⟩ := h.kept
  have hmem : b ∈ older ++ st.chain := by
    rw [holder]
    exact List.mem_append_left _ hb
  rcases List.mem_append.mp hmem with hb' | hb'
  · -- a dropped block stands below the first one that is left
    obtain ⟨t, ht, -⟩ := h.tip
    have hall : List.IsChain Follows (older ++ st.chain) := by
      rw [holder]
      exact h.isChain_append hstart.chain
    have hpair := pairwise_number hall
    rw [List.pairwise_append] at hpair
    cases hchain : st.chain with
    | nil =>
      rw [hchain] at ht
      cases ht
    | cons f rest =>
      have hlt := hpair.2.2 b hb' f (by rw [hchain]; exact List.mem_cons_self)
      rw [hchain] at hle
      exact absurd hlt (Nat.not_lt.mpr hle)
  · exact hb'

theorem Synced.Linked.appendSynced (h : st.Linked) {headersRange : HeadersRange} {newTip : ℕ}
    (hunwrapped : headersRange.Unwrapped newTip) :
    ∃ more, Extends P st more (appendSynced P headersRange st newTip).2 := by
  obtain ⟨more, hmore⟩ := (Extends.refl (P := P) h).appendSynced hunwrapped
  exact ⟨more, hmore⟩

theorem Synced.Linked.run (h : st.Linked) {calls : List AppendCall}
    (hunwrapped : ∀ call ∈ calls, call.Unwrapped) :
    ∃ more, Extends P st more (Machine.run (appendStep P) st calls) := by
  refine Machine.run_invariant_mem (I := fun s => ∃ more, Extends P st more s) ?_
    ⟨[], Extends.refl h⟩
  rintro s call hcall ⟨more, hs⟩
  obtain ⟨more', hs'⟩ := hs.appendSynced (hunwrapped call hcall)
  exact ⟨more ++ more', hs'⟩

end

/-! ## The walk from a checkpoint -/

namespace LightEngine

variable {P : Primitives}

/-- The chain and the snapshot of an engine. -/
def synced (e : LightEngine) : Synced := ⟨e.chain, e.snapshot⟩

theorem applyHeaders_extends {start : Synced} {appended : List VerifiedBlock} {e : LightEngine}
    (h : Extends P start appended e.synced) {headers : List TimedHeader}
    (hunwrapped : UnwrappedFrom e.snapshot.number headers) :
    ∃ more, Extends P start (appended ++ more) (e.applyHeaders P headers).2.synced := by
  induction headers generalizing e appended with
  | nil => exact ⟨[], by simpa [applyHeaders] using h⟩
  | cons call rest ih =>
    obtain ⟨header, now⟩ := call
    obtain ⟨tip, htip, hat⟩ := h.tip
    rw [applyHeaders]
    rcases e.applyHeader_cases P header now with
      ⟨signer, l, b, milli, block, hseal, hacc, -, hof, hr⟩ | ⟨err, hr⟩ | ⟨signer, l, err, -, hr⟩
    · obtain ⟨habove, hrest⟩ := hunwrapped.next hacc
      have hfollows := follows_of_accepts habove hacc hof hat
      have hbound := hashBound_of_seal hseal hacc hof
      have hnext : (e.snapshot.next signer l b milli).At block := ⟨hof.number, hof.hash⟩
      have hpushed : Extends P start (appended ++ [block])
          (e.advance (e.snapshot.next signer l b milli) block).synced :=
        (h.push htip hfollows hbound hnext).trim
      obtain ⟨more, hmore⟩ := ih hpushed hrest
      rw [hr]
      exact ⟨block :: more, by simpa using hmore⟩
    · rw [hr]
      exact ⟨[], by simpa using h⟩
    · rw [hr]
      exact ⟨[], by simpa using ⟨h.linked, h.bound, h.kept, tip, htip, hat⟩⟩

end LightEngine

/-! ## Invariants of chain and snapshot -/

/-- A property of chain and snapshot that every way to move them keeps: an accepted header, a
refused one, which may trim `recents`, and the trimming of the chain. -/
structure Synced.Stable (P : Primitives) (I : Synced → Prop) : Prop where
  accept : ∀ {st : Synced} {header : RpcBlockHeader} {now : ℕ} {signer : Address}
    {l : Snapshot.Link} {b : Snapshot.Body} {milli : ℕ} {block : VerifiedBlock},
    header.AboveGenesis → SealOk P header now signer →
    Snapshot.Accepts P st.snapshot header signer l b milli → BlockOf header signer l milli block → I st →
    I ⟨st.chain ++ [block], st.snapshot.next signer l b milli⟩
  refuse : ∀ {st : Synced} (n : ℕ), I st → I ⟨st.chain, st.snapshot.trimRecents n⟩
  trim : ∀ {st : Synced}, I st → I ⟨trimChain st.chain, st.snapshot⟩

namespace Synced.Stable

variable {P : Primitives} {I : Synced → Prop} (hI : Synced.Stable P I)
include hI

theorem appendHeaders {st : Synced} (h : I st) {calls : List TimedHeader}
    (hunwrapped : UnwrappedFrom st.snapshot.number calls) : I (appendHeaders P st calls).2 := by
  induction calls generalizing st with
  | nil => exact h
  | cons call rest ih =>
    rw [HeliosBsc.appendHeaders]
    rcases appendHeader_inv (P := P) st call with
      ⟨signer, l, b, milli, block, hseal, hacc, hof, hr⟩ | ⟨e, hr⟩ | ⟨e, n, hr⟩
    · obtain ⟨habove, hrest⟩ := hunwrapped.next hacc
      rw [hr]
      exact ih (hI.accept habove hseal hacc hof h) hrest
    · rw [hr]
      exact h
    · rw [hr]
      exact hI.refuse n h

theorem appendSynced {st : Synced} (h : I st) (hlockstep : st.Lockstep)
    {headersRange : HeadersRange} {newTip : ℕ} (hunwrapped : headersRange.Unwrapped newTip) :
    I (appendSynced P headersRange st newTip).2 := by
  unfold HeliosBsc.appendSynced
  simp only
  split
  · exact h
  · next hlow =>
    split
    · exact h
    · next headers hrange =>
      have hall := hI.appendHeaders h
        (hunwrapped.of_range hlockstep (Nat.not_le.mp hlow) hrange)
      split
      · next hr =>
        rw [hr] at hall
        exact hall
      · next hr =>
        rw [hr] at hall
        exact hI.trim hall

theorem run {st : Synced} (h : I st) (hlockstep : st.Lockstep) {calls : List AppendCall}
    (hunwrapped : ∀ call ∈ calls, call.Unwrapped) : I (Machine.run (appendStep P) st calls) := by
  refine (Machine.run_invariant_mem (I := fun s => I s ∧ s.Lockstep) ?_ ⟨h, hlockstep⟩).1
  intro s call hcall hs
  exact ⟨hI.appendSynced hs.1 hs.2 (hunwrapped call hcall),
    hs.2.appendSynced call.headersRange call.newTip⟩

theorem applyHeaders {e : LightEngine} (h : I e.synced) {calls : List TimedHeader}
    (hunwrapped : UnwrappedFrom e.snapshot.number calls) :
    I (e.applyHeaders P calls).2.synced := by
  induction calls generalizing e with
  | nil => exact h
  | cons call rest ih =>
    obtain ⟨header, now⟩ := call
    rw [LightEngine.applyHeaders]
    rcases e.applyHeader_cases P header now with
      ⟨signer, l, b, milli, block, hseal, hacc, -, hof, hr⟩ | ⟨err, hr⟩ | ⟨signer, l, err, -, hr⟩
    · obtain ⟨habove, hrest⟩ := hunwrapped.next hacc
      rw [hr]
      exact ih (hI.trim (hI.accept habove hseal hacc hof h)) hrest
    · rw [hr]
      exact h
    · rw [hr]
      exact hI.refuse l.number h

end Synced.Stable

/-- Seeding moves only the turn length. -/
theorem seedEpochState_ok {headerByNumber : HeaderByNumber} {s s' : Snapshot} {n : ℕ}
    (h : seedEpochState headerByNumber s n = .ok s') : ∃ t, s' = { s with turnLength := t } := by
  unfold seedEpochState at h
  simp only at h
  split at h
  · cases h
    exact ⟨s.turnLength, rfl⟩
  · simp only [bind_eq_ok] at h
    obtain ⟨epochHeader, -, prevHeader, -, seed, -, h⟩ := h
    split at h
    · next turnLength =>
      simp only [mapError_eq_ok, Snapshot.seedTurnLength, bind_eq_ok] at h
      obtain ⟨-, -, h⟩ := h
      split at h
      · cases h
        exact ⟨_, rfl⟩
      · cases h
        exact ⟨s.turnLength, rfl⟩
    · cases h

/-- A chain that starts at a checkpoint: nothing stands below it, and at its height stands its own
block. -/
def StartsAt (cp : Checkpoint) (chain : List VerifiedBlock) : Prop :=
  ∀ b ∈ chain, cp.number ≤ b.number ∧
    (b.number = cp.number → decodeHexFixed 32 cp.hash = .ok b.hash)

theorem LightEngine.linked_of_ok {P : Primitives} {cp : Checkpoint} {header : RpcBlockHeader}
    {now : ℕ} {e : LightEngine} (h : LightEngine.fromCheckpointAndHeader P cp header now = .ok e) :
    e.synced.Linked := by
  obtain ⟨genesis, hchain, hat, -, -⟩ := LightEngine.genesis_of_ok h
  rw [LightEngine.synced, hchain]
  exact ⟨List.isChain_singleton _, genesis, rfl, hat⟩

/-- The walk from a checkpoint extends the block of the checkpoint. -/
theorem walkFromCheckpointInturn_ok {P : Primitives} {headerByNumber : HeaderByNumber}
    {headersRange : HeadersRange} {cp : Checkpoint} {toBlock maxSync : ℕ} {enforce : Bool}
    {st : Synced}
    (h : walkFromCheckpointInturn P headerByNumber headersRange cp toBlock maxSync enforce =
      .ok st) :
    ∃ header now e s genesis calls, LightEngine.fromCheckpointAndHeader P cp header now = .ok e ∧
      (∃ t, s = { e.snapshot with enforceInturn := enforce, turnLength := t }) ∧
      e.chain = [genesis] ∧ s.At genesis ∧ genesis.number = cp.number ∧
      decodeHexFixed 32 cp.hash = .ok genesis.hash ∧
      (headersRange.Unwrapped toBlock → UnwrappedFrom s.number calls) ∧
      st = ({ e with snapshot := s }.applyHeaders P calls).2.synced := by
  simp only [walkFromCheckpointInturn, bind_eq_ok, mapError_eq_ok, require_eq_ok] at h
  obtain ⟨-, -, ⟨header, now⟩, -, e, he, s, hs, h⟩ := h
  obtain ⟨genesis, hchain, hgenesis, hnumber, hhash⟩ := LightEngine.genesis_of_ok he
  have hseed : ∃ t, s = { e.snapshot with enforceInturn := enforce, turnLength := t } := by
    unfold seedEnforced at hs
    split at hs
    · exact seedEpochState_ok hs
    · cases hs
      exact ⟨e.snapshot.turnLength, rfl⟩
  have hat : s.At genesis := by
    obtain ⟨t, rfl⟩ := hseed
    exact hgenesis
  have hcalls : ∃ calls, (headersRange.Unwrapped toBlock → UnwrappedFrom s.number calls) ∧
      st = ({ e with snapshot := s }.applyHeaders P calls).2.synced := by
    split at h
    · next hlow =>
      simp only [bind_eq_ok] at h
      obtain ⟨headers, hrange, h⟩ := h
      split at h
      · cases h
      · next hr =>
        cases h
        exact ⟨headers, fun hunwrapped => hunwrapped _ headers hlow hrange, by rw [hr]; rfl⟩
    · cases h
      exact ⟨[], fun _ => .nil _, rfl⟩
  obtain ⟨calls, hcalls⟩ := hcalls
  exact ⟨header, now, e, s, genesis, calls, he, hseed, hchain, hat, hnumber, hhash, hcalls⟩

theorem walkFromCheckpointInturn_linked {P : Primitives} {headerByNumber : HeaderByNumber}
    {headersRange : HeadersRange} {cp : Checkpoint} {toBlock maxSync : ℕ} {enforce : Bool}
    {st : Synced}
    (h : walkFromCheckpointInturn P headerByNumber headersRange cp toBlock maxSync enforce =
      .ok st) (hunwrapped : headersRange.Unwrapped toBlock) :
    st.Linked ∧ StartsAt cp st.chain := by
  obtain ⟨-, -, e, s, genesis, calls, -, -, hchain, hat, hnumber, hhash, hcalls, rfl⟩ :=
    walkFromCheckpointInturn_ok h
  have hstart : Synced.Linked ⟨[genesis], s⟩ := ⟨List.isChain_singleton _, genesis, rfl, hat⟩
  have hrefl : Extends P ⟨[genesis], s⟩ [] ({ e with snapshot := s } : LightEngine).synced := by
    rw [LightEngine.synced, hchain]
    exact .refl hstart
  obtain ⟨more, hmore⟩ := LightEngine.applyHeaders_extends hrefl (hcalls hunwrapped)
  refine ⟨hmore.toLinked hstart, ?_⟩
  intro b hb
  rcases hmore.mem_or_lt hstart hb with hold | hlt
  · rw [List.mem_singleton.mp hold]
    exact ⟨hnumber.ge, fun _ => hhash⟩
  · have hlt' : cp.number < b.number := by
      rw [← hnumber, hat.1]
      exact hlt
    exact ⟨hlt'.le, fun heq => absurd heq hlt'.ne'⟩

end HeliosBsc
