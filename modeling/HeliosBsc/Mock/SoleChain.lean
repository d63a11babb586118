import HeliosBsc.Mock.Activation
import HeliosBsc.Node.Walk

/-!
# The chain of one validator, appended

What the node appends when the only validator seals plain headers one after the other.
-/

namespace HeliosBsc

variable {P : Primitives}

theorem Synced.SingleAt.appendAll {st : Synced} {sk : SecretKey P} {number milli : ℕ}
    (h : st.SingleAt sk number milli) (k : ℕ)
    (hrange : ∀ j < k, LightEngine.InRange (number + j) (milli + 1000 * j))
    (hplain : ∀ j < k, (number + j + 1) % maxwellEpochLength ≠ 0) :
    ∃ calls blocks s, appendHeaders P st calls = (.ok (), ⟨st.chain ++ blocks, s⟩) ∧
      calls.length = k ∧ blocks.length = k ∧ s.number = number + k := by
  induction k generalizing number milli st with
  | zero => exact ⟨[], [], st.snapshot, by simp [appendHeaders], rfl, rfl, h.number⟩
  | succ k ih =>
    obtain ⟨hlow, hhigh, hfrom, hto⟩ := hrange 0 (by omega)
    obtain ⟨call, block, s, happend, -, hnext⟩ := h.append
      ⟨by omega, Draft.small_lt_u64Size (by omega)⟩ ⟨by omega, by omega⟩ le_rfl (hplain 0 (by omega))
    obtain ⟨calls, blocks, s', hrest, hcalls, hlength, hnumber⟩ := ih hnext
      (fun j hj => by
        rw [show number + 1 + j = number + (j + 1) by omega,
          show milli + 1000 + 1000 * j = milli + 1000 * (j + 1) by omega]
        exact hrange (j + 1) (by omega))
      (fun j hj => by
        rw [show number + 1 + j = number + (j + 1) by omega]
        exact hplain (j + 1) (by omega))
    refine ⟨call :: calls, block :: blocks, s', ?_, by rw [List.length_cons, hcalls],
      by rw [List.length_cons, hlength], by omega⟩
    rw [appendHeaders, happend]
    refine hrest.trans ?_
    rw [List.append_assoc, List.singleton_append]

theorem exists_sole_start : ∃ (st : Synced) (genesis : VerifiedBlock),
    st.SingleAt (mockKey 1) sealedChainStart 1770000000000 ∧ st.chain = [genesis] ∧
      genesis.number = sealedChainStart ∧ st.Linked := by
  obtain ⟨st, genesis, hchain, hat, hsingle⟩ :=
    @exists_single_start sealedChainStart (blankDraft_fits (by decide) (by decide)) (by decide)
  have hnumber : genesis.number = sealedChainStart := hat.1.trans hsingle.number
  refine ⟨st, genesis, hsingle, hchain, hnumber, ?_⟩
  exact ⟨by rw [hchain]; exact List.isChain_singleton _, genesis, by rw [hchain]; rfl, hat⟩

theorem exists_sole_advance {k : ℕ} (hpos : 0 < k) (hk : k < 800) :
    ∃ (st : Synced) (genesis : VerifiedBlock) (call : AppendCall) (blocks : List VerifiedBlock)
      (s : Snapshot), st.Linked ∧ st.chain = [genesis] ∧ genesis.number = sealedChainStart ∧
      blocks.length = k ∧ s.number = sealedChainStart + k ∧ call.Unwrapped ∧
      appendStep mockPrimitives st call = (.ok (), ⟨trimChain (genesis :: blocks), s⟩) := by
  obtain ⟨st, genesis, hat, hchain, hnumber, hlinked⟩ := exists_sole_start
  have hstart : sealedChainStart = 116664100 := rfl
  obtain ⟨calls, blocks, s, happend, hcalls, hlength, hs⟩ := hat.appendAll k
    (fun j hj => by
      have hlow : londonBlock ≤ sealedChainStart := by decide
      exact ⟨hlow.trans (Nat.le_add_right _ _), by omega, by omega, by omega⟩)
    (fun j hj => by
      have hlen : maxwellEpochLength = 1000 := rfl
      rw [hlen]
      omega)
  have hlast : lastNumber st.chain = sealedChainStart := by
    rw [hchain, ← hnumber]
    rfl
  refine ⟨st, genesis, ⟨fun _ _ => .ok calls, sealedChainStart + k⟩, blocks, s, hlinked, hchain,
    hnumber, hlength, hs, ?_, ?_⟩
  · refine .of_length (fun start headers hrange => ?_)
      (Draft.small_lt_u64Size (by omega : sealedChainStart + k + k < 2 ^ 32))
    cases hrange
    exact hcalls.le
  have hlower : lastNumber st.chain < sealedChainStart + k := by
    rw [hlast]
    omega
  refine (appendSynced_trimmed hlower rfl happend).trans ?_
  change (_, (⟨trimChain (st.chain ++ blocks), s⟩ : Synced)) = _
  rw [hchain, List.singleton_append]

/-- The mock's chain before and after it grows by some blocks. -/
theorem exists_grown {k : ℕ} (hpos : 0 < k) (hk : k < 500) :
    ∃ (st : Synced) (genesis tip : VerifiedBlock) (blocks : List VerifiedBlock) (call : AppendCall)
      (s : Snapshot), st.Linked ∧ st.chain = [genesis] ∧ blocks.length = k ∧
      Synced.Linked ⟨genesis :: blocks, s⟩ ∧ (genesis :: blocks).getLast? = some tip ∧
      tip.number = genesis.number + k ∧ tip.number < u64Size - 1 ∧ call.Unwrapped ∧
      appendStep mockPrimitives st call = (.ok (), ⟨genesis :: blocks, s⟩) := by
  obtain ⟨st, genesis, call, blocks, s, hlinked, hchain, hnumber, hlength, hs, hunwrapped, happend⟩ :=
    exists_sole_advance hpos (by omega : k < 800)
  rw [trimChain_of_le (by rw [List.length_cons]; omega)] at happend
  obtain ⟨more, hextends⟩ := hlinked.appendSynced (P := mockPrimitives) hunwrapped
  have hlinked' : Synced.Linked ⟨genesis :: blocks, s⟩ := by
    have hnext := hextends.toLinked hlinked
    rwa [show appendSynced mockPrimitives call.headersRange st call.newTip = _ from happend] at hnext
  obtain ⟨tip, htip, hat⟩ := hlinked'.tip
  have hroom : (sealedChainStart + 501 : ℕ) < u64Size := Draft.small_lt_u64Size (by decide)
  have htipNumber : tip.number = sealedChainStart + k := hat.1.trans hs
  exact ⟨st, genesis, tip, blocks, call, s, hlinked, hchain, hlength, hlinked', htip, by omega,
    by omega, hunwrapped, happend⟩

theorem exists_two_blocks : ∃ (st : Synced) (genesis block : VerifiedBlock) (call : AppendCall)
    (s : Snapshot), st.Linked ∧ st.chain = [genesis] ∧ Synced.Linked ⟨[genesis, block], s⟩ ∧
      block.number = genesis.number + 1 ∧ block.number < u64Size - 1 ∧ call.Unwrapped ∧
      appendStep mockPrimitives st call = (.ok (), ⟨[genesis, block], s⟩) := by
  obtain ⟨st, genesis, tip, blocks, call, s, hlinked, hchain, hlength, hlinked', htip, hnumber, hsize,
    hunwrapped, happend⟩ := exists_grown (k := 1) (by norm_num) (by norm_num)
  obtain ⟨block, rfl⟩ := List.length_eq_one_iff.mp hlength
  cases htip
  exact ⟨st, genesis, block, call, s, hlinked, hchain, hlinked', hnumber, hsize, hunwrapped, happend⟩

end HeliosBsc
