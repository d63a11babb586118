import HeliosBsc.Consensus.HeaderBinding

/-!
# Branches

The blocks that a walk has been at, one at each number. Two walks that are at one block have been at
one parent, or two of their headers collide.
-/

namespace HeliosBsc

open Checked

namespace Snapshot

variable {P : Primitives}

/-- The walk has been at the block with this number and hash. -/
def Visits (P : Primitives) (s : Snapshot) (calls : List (RpcBlockHeader × ℕ)) (number : ℕ)
    (hash : Hash) : Prop :=
  ∃ past, past <+: calls ∧ (s.walk P past).number = number ∧ (s.walk P past).hash = hash

theorem walk_concat (s : Snapshot) (calls : List (RpcBlockHeader × ℕ)) (call : RpcBlockHeader × ℕ) :
    s.walk P (calls ++ [call]) = (step P (s.walk P calls) call).2 :=
  Machine.run_concat s calls call

theorem step_tip (s : Snapshot) {call : RpcBlockHeader × ℕ}
    (habove : ∀ signer, (step P s call).1 = .ok signer → call.1.AboveGenesis) :
    (step P s call).2.number = s.number + 1 ∨
      (step P s call).2.number = s.number ∧ (step P s call).2.hash = s.hash := by
  cases hr : (step P s call).1 with
  | ok signer =>
    obtain ⟨l, b, milli, -, hacc, hs⟩ := step_ok hr
    rw [hs, next_number]
    exact .inl (hacc.link.number_eq (habove signer hr))
  | error err =>
    rcases step_error hr with hs | hs <;> rw [hs] <;> exact .inr ⟨rfl, rfl⟩

theorem number_le_walk {s : Snapshot} {calls : List (RpcBlockHeader × ℕ)}
    (hunwrapped : Unwrapped P s calls) : s.number ≤ (s.walk P calls).number := by
  induction calls using List.reverseRecOn with
  | nil => exact le_rfl
  | append_singleton calls call ih =>
    have hle := ih (hunwrapped.of_prefix (List.prefix_append calls [call]))
    rw [walk_concat]
    rcases step_tip (s.walk P calls) fun signer => hunwrapped.aboveGenesis List.prefix_rfl with
      h | ⟨h, -⟩ <;> omega

theorem hash_walk_of_number {s : Snapshot} {calls : List (RpcBlockHeader × ℕ)}
    (hunwrapped : Unwrapped P s calls) (h : (s.walk P calls).number = s.number) :
    (s.walk P calls).hash = s.hash := by
  induction calls using List.reverseRecOn with
  | nil => rfl
  | append_singleton calls call ih =>
    have hcalls := hunwrapped.of_prefix (List.prefix_append calls [call])
    have hle := number_le_walk hcalls
    rw [walk_concat] at h ⊢
    rcases step_tip (s.walk P calls) fun signer => hunwrapped.aboveGenesis List.prefix_rfl with
      hup | ⟨hn, hh⟩
    · omega
    · rw [hh]
      exact ih hcalls (hn.symm.trans h)

theorem Visits.unique {s : Snapshot} {calls : List (RpcBlockHeader × ℕ)} {number : ℕ}
    {hash hash' : Hash} (hunwrapped : Unwrapped P s calls) (h : s.Visits P calls number hash)
    (h' : s.Visits P calls number hash') : hash = hash' := by
  obtain ⟨past, hpast, hn, hh⟩ := h
  obtain ⟨past', hpast', hn', hh'⟩ := h'
  wlog hle : past <+: past' generalizing past past' hash hash'
  · have hge : past' <+: past := (List.prefix_or_prefix_of_prefix hpast hpast').resolve_left hle
    exact (this past' hpast' hn' hh' past hpast hn hh hge).symm
  obtain ⟨more, rfl⟩ := hle
  have hrun : s.walk P (past ++ more) = (s.walk P past).walk P more := Machine.run_append s past more
  rw [hrun] at hn' hh'
  rw [← hh, ← hh']
  have hmore := (hunwrapped.of_prefix hpast').of_append
  exact (hash_walk_of_number hmore (hn'.trans hn.symm)).symm

/-- A block above the start was accepted on top of the block that its header names. -/
theorem Visits.exists_header {s : Snapshot} {calls : List (RpcBlockHeader × ℕ)} {number : ℕ}
    {hash : Hash} (hunwrapped : Unwrapped P s calls) (h : s.Visits P calls (number + 1) hash)
    (hstart : s.number ≤ number) :
    ∃ call ∈ calls, ∃ parent, s.Visits P calls number parent ∧
      headerHash P call.1 = .ok hash ∧ decodeHexFixed 32 call.1.parentHash = .ok parent := by
  obtain ⟨past, hpast, hn, hh⟩ := h
  induction past using List.reverseRecOn with
  | nil =>
    change s.number = number + 1 at hn
    omega
  | append_singleton past call ih =>
    have hpre : past <+: calls := (List.prefix_append past [call]).trans hpast
    rw [walk_concat] at hn hh
    cases hr : (step P (s.walk P past) call).1 with
    | ok signer =>
      obtain ⟨l, b, milli, hseal, hacc, hs⟩ := step_ok hr
      rw [hs, next_number, hacc.link.number_eq (hunwrapped.aboveGenesis hpast hr), Nat.succ_inj] at hn
      rw [hs, next_hash] at hh
      obtain ⟨own, hown, hclaimed⟩ := hseal.hash_eq
      obtain rfl : own = l.hash := Except.ok.inj (hclaimed.symm.trans hacc.link.hash)
      refine ⟨call, hpast.subset (by simp), _, ⟨past, hpre, hn, rfl⟩, ?_, hacc.link.parent⟩
      rw [← hh]
      exact hown
    | error err =>
      rcases step_error hr with hs | hs <;> rw [hs] at hn hh <;> exact ih hpre hn hh

theorem Visits.start_le {s : Snapshot} {calls : List (RpcBlockHeader × ℕ)} {number : ℕ}
    {hash : Hash} (hunwrapped : Unwrapped P s calls) (h : s.Visits P calls number hash) :
    s.number ≤ number := by
  obtain ⟨past, hpast, hn, -⟩ := h
  rw [← hn]
  exact number_le_walk (hunwrapped.of_prefix hpast)

theorem Visits.mono {s : Snapshot} {past calls : List (RpcBlockHeader × ℕ)} {number : ℕ}
    {hash : Hash} (h : s.Visits P past number hash) (hpast : past <+: calls) :
    s.Visits P calls number hash := by
  obtain ⟨earlier, hearlier, hn, hh⟩ := h
  exact ⟨earlier, hearlier.trans hpast, hn, hh⟩

theorem visits_of_ancestorHash {cp : Checkpoint} {s : Snapshot} (h : fromCheckpoint cp = .ok s)
    {calls : List (RpcBlockHeader × ℕ)} {number : ℕ} {hash : Hash}
    (ha : (s.walk P calls).ancestorHash number = some hash) : s.Visits P calls number hash := by
  obtain ⟨-, -, -, -, -, -, -, -, -, -, -, -, hanc⟩ := fromCheckpoint_ok h
  have hall : ∀ a ∈ (s.walk P calls).ancestors, s.Visits P calls a.1 a.2 := by
    clear ha
    induction calls using List.reverseRecOn with
    | nil =>
      intro a hmem
      change a ∈ s.ancestors at hmem
      rw [hanc, List.mem_singleton] at hmem
      exact ⟨[], List.prefix_rfl, by rw [hmem]; rfl, by rw [hmem]; rfl⟩
    | append_singleton calls call ih =>
      intro a hmem
      have hold : ∀ a ∈ (s.walk P calls).ancestors, s.Visits P (calls ++ [call]) a.1 a.2 :=
        fun a hmem => (ih a hmem).mono (List.prefix_append calls [call])
      rw [walk_concat] at hmem
      cases hr : (step P (s.walk P calls) call).1 with
      | ok signer =>
        obtain ⟨l, b, milli, -, -, hs⟩ := step_ok hr
        rw [hs, next_ancestors] at hmem
        rcases List.mem_append.mp (List.mem_of_mem_drop hmem) with hmem | hmem
        · exact hold a hmem
        · refine ⟨calls ++ [call], List.prefix_rfl, ?_, ?_⟩ <;>
            rw [walk_concat, hs, List.mem_singleton.mp hmem] <;> rfl
      | error err =>
        rcases step_error hr with hs | hs <;> rw [hs] at hmem <;> exact hold a hmem
  obtain ⟨a, hfind, rfl⟩ := Option.map_eq_some_iff.mp ha
  have hn : a.1 = number := by simpa using List.find?_some hfind
  rw [← hn]
  exact hall a (List.mem_reverse.mp (List.mem_of_find?_eq_some hfind))

/-- Headers of two walks whose hashed strings differ, with the same hash. -/
def HeadersCollide (P : Primitives) (calls calls' : List (RpcBlockHeader × ℕ)) : Prop :=
  ∃ call ∈ calls, ∃ call' ∈ calls', ∃ bytes bytes', headerPreimage call.1 = .ok bytes ∧
    headerPreimage call'.1 = .ok bytes' ∧ bytes ≠ bytes' ∧ P.keccak256 bytes = P.keccak256 bytes'

theorem HeadersCollide.mono {calls calls' more more' : List (RpcBlockHeader × ℕ)}
    (h : HeadersCollide P calls calls') (hsub : calls ⊆ more) (hsub' : calls' ⊆ more') :
    HeadersCollide P more more' := by
  obtain ⟨call, hcall, call', hcall', hrest⟩ := h
  exact ⟨call, hsub hcall, call', hsub' hcall', hrest⟩

/-- Two walks that share a block share its parent, or two of their headers collide. -/
theorem parent_agree {s s' : Snapshot} {calls calls' : List (RpcBlockHeader × ℕ)} {number : ℕ}
    {hash parent parent' : Hash} (hunwrapped : Unwrapped P s calls)
    (hunwrapped' : Unwrapped P s' calls') (hstart : s.number ≤ number) (hstart' : s'.number ≤ number)
    (h : s.Visits P calls (number + 1) hash) (h' : s'.Visits P calls' (number + 1) hash)
    (hp : s.Visits P calls number parent) (hp' : s'.Visits P calls' number parent') :
    parent = parent' ∨ HeadersCollide P calls calls' := by
  obtain ⟨call, hcall, p, hvisit, hhash, hparent⟩ := h.exists_header hunwrapped hstart
  obtain ⟨call', hcall', p', hvisit', hhash', hparent'⟩ := h'.exists_header hunwrapped' hstart'
  obtain rfl := hp.unique hunwrapped hvisit
  obtain rfl := hp'.unique hunwrapped' hvisit'
  obtain ⟨bytes, hb, hk⟩ := map_eq_ok.mp hhash
  obtain ⟨bytes', hb', hk'⟩ := map_eq_ok.mp hhash'
  by_cases heq : bytes = bytes'
  · subst heq
    exact .inl (parent_eq_of_headerPreimage_eq hb hb' hparent hparent')
  · exact .inr ⟨call, hcall, call', hcall', bytes, bytes', hb, hb', heq, hk.trans hk'.symm⟩

end Snapshot

end HeliosBsc
