import HeliosBsc.Consensus.Finality

/-!
# No attestation is passed over

`check_attestation` passes over a vote whose voters or whose target it does not know. With vote keys
in the checkpoint the voters are always known, and the ancestor window holds every target the fork
rules allow, down to the checkpoint block.
-/

namespace HeliosBsc

open Checked

namespace Snapshot

theorem pendingVoteSet_nextPending (s : Snapshot) (number : ℕ) (parsed : ParsedExtra) :
    pendingVoteSet (s.nextPending number parsed) = sortByAddress parsed.validators := by
  unfold pendingVoteSet nextPending
  simp only [List.length_map, if_true]
  rw [List.zip_map', List.map_map]
  exact List.map_id _

theorem length_sortByAddress (l : List SealingValidator) : (sortByAddress l).length = l.length :=
  List.length_mergeSort l

theorem sortByAddress_ne_nil {l : List SealingValidator} (h : l ≠ []) : sortByAddress l ≠ [] := by
  rw [← List.length_pos_iff, length_sortByAddress]
  exact List.length_pos_iff.mpr h

/-! ## The voters are known -/

/-- The keys of the set in force, of the one before it and of the announced one are known. -/
structure KeysKnown (s : Snapshot) : Prop where
  current : s.voteSet ≠ []
  previous : s.setChangedAt ≠ 0 → s.prevVoteSet ≠ []
  announced : ∀ p, s.pending = some p → pendingVoteSet p ≠ []

namespace KeysKnown

variable {s : Snapshot}

theorem attestationSet_ne_nil (h : KeysKnown s) (target : ℕ) : s.attestationSet target ≠ [] := by
  unfold attestationSet
  split
  · next hlt => exact h.previous (by omega)
  · exact h.current

theorem next {P : Primitives} {header : RpcBlockHeader} {signer : Address} {l : Link} {b : Body}
    {milli : ℕ} (h : KeysKnown s) (hacc : Accepts P s header signer l b milli) :
    KeysKnown (s.next signer l b milli) := by
  have hduring : ∀ p, s.pendingDuring l b = some p → pendingVoteSet p ≠ [] := by
    intro p hp
    unfold pendingDuring at hp
    split at hp
    · next hepoch =>
      rw [← Option.some.inj hp, pendingVoteSet_nextPending]
      exact sortByAddress_ne_nil (hacc.body.validators hepoch)
    · exact h.announced p hp
  rcases s.next_sets signer l b milli with
    ⟨p, hp, -, hvote, hprev, -, -, -, hpend⟩ | ⟨-, hvote, hprev, hchanged, -, -, hpend⟩
  · refine ⟨?_, fun _ => ?_, fun q hq => ?_⟩
    · rw [hvote]
      exact hduring p hp
    · rw [hprev]
      exact h.current
    · rw [hpend] at hq
      cases hq
  · refine ⟨?_, ?_, fun q hq => ?_⟩
    · rw [hvote]
      exact h.current
    · rw [hprev, hchanged]
      exact h.previous
    · rw [hpend] at hq
      exact hduring q hq

end KeysKnown

theorem length_decodePairs {pairs : List (Address × String)} {vals : List SealingValidator}
    (h : decodePairs pairs = .ok vals) : vals.length = pairs.length := by
  induction pairs generalizing vals with
  | nil => cases h; rfl
  | cons p rest ih =>
    obtain ⟨address, key⟩ := p
    simp only [decodePairs, bind_eq_ok, pure_eq_ok, Except.ok.injEq] at h
    obtain ⟨k, -, tail, ht, rfl⟩ := h
    rw [List.length_cons, List.length_cons, ih ht]

/-- A valid checkpoint with vote keys gives a vote set as long as its sealing set. -/
theorem keysKnown_fromCheckpoint {cp : Checkpoint} {s : Snapshot} {keys : List String}
    (hbasic : cp.validateBasic = .ok ()) (hkeys : cp.voteKeys = some keys)
    (h : fromCheckpoint cp = .ok s) : KeysKnown s := by
  simp only [Checkpoint.validateBasic, hkeys, bind_eq_ok, require_eq_ok] at hbasic
  obtain ⟨-, -, -, hne, ⟨⟩, hdistinct, -, -, -, -, -, -, -, hlen, -⟩ := hbasic
  obtain ⟨addrs, haddrs, -, -⟩ := exists_of_checkDistinct hdistinct
  have hpos := List.length_pos_iff.mpr hne
  have hcount := length_of_mapM_eq_ok haddrs
  simp only [fromCheckpoint, bind_eq_ok, mapError_eq_ok, pure_eq_ok, Except.ok.injEq, haddrs,
    hkeys] at h
  obtain ⟨vals, hvals, votes, hvotes, hash, -, rfl⟩ := h
  subst hvals
  refine ⟨?_, fun hc => absurd rfl hc, ?_⟩
  · simp only [checkpointVoteSet, hlen, hcount, if_true, map_eq_ok] at hvotes
    obtain ⟨pairs, hpairs, rfl⟩ := hvotes
    refine sortByAddress_ne_nil (List.length_pos_iff.mp ?_)
    rw [length_decodePairs hpairs, List.length_zip]
    omega
  · rintro p ⟨⟩

/-! ## The region of a header that holds the attestation -/

/-- The attestation bytes that the snapshot reads off a header's `extraData`. -/
def attestationRegion (s : Snapshot) (header : RpcBlockHeader) : Option Bytes :=
  match decodeU64 header.number, decodeHex header.extraData with
  | .ok number, .ok extra =>
    match parseExtra extra .bohr (decide (number % s.epochLength = 0)) with
    | .ok parsed => some parsed.attestation
    | .error _ => none
  | _, _ => none

theorem Accepts.attestationRegion_eq {P : Primitives} {s : Snapshot} {header : RpcBlockHeader}
    {signer : Address} {l : Link} {b : Body} {milli : ℕ}
    (h : Accepts P s header signer l b milli) :
    s.attestationRegion header = some b.parsed.attestation := by
  obtain ⟨extra, hextra, hparsed⟩ := h.body.parsed
  have hepoch : b.isEpoch = decide (l.number % s.epochLength = 0) := h.body.isEpoch
  unfold attestationRegion
  rw [h.link.number, hextra]
  simp only
  rw [← hepoch, hparsed]

theorem eq_nil_of_decodeVoteAttestation {raw : Bytes}
    (h : decodeVoteAttestation raw = .ok none) : raw = [] := by
  by_contra hne
  simp only [decodeVoteAttestation, if_neg hne, bind_eq_ok] at h
  obtain ⟨top, -, fields, -, h⟩ := h
  split at h
  · simp only [bind_eq_ok, pure_eq_ok, Except.ok.injEq, reduceCtorEq, and_false,
      exists_false] at h
  · cases h

/-- With known voters, a header that carries a vote is accepted only with the vote adopted, unless
the target lies before the walk's start. -/
theorem adopted_of_accepts {P : Primitives} {start : ℕ} {blocks : List (ℕ × Hash)} {s : Snapshot}
    {header : RpcBlockHeader} {signer : Address} {l : Link} {b : Body} {milli : ℕ}
    (hw : WalkedFrom start blocks s) (hk : KeysKnown s) (h : Accepts P s header signer l b milli)
    (habove : header.AboveGenesis) (hne : b.parsed.attestation ≠ []) :
    ∃ att, decodeVoteAttestation b.parsed.attestation = .ok (some att) ∧
      l.number ≤ att.data.targetNumber + 3 ∧
      (start ≤ att.data.targetNumber → b.adopted = some att.data) := by
  have hset : ∀ t, (s.trimRecents l.number).attestationSet t ≠ [] := hk.attestationSet_ne_nil
  rcases checkAttestation_eq_ok.mp h.body.adopted with ⟨hnone, -⟩ | ⟨att, hdec, hcase⟩
  · exact absurd (eq_nil_of_decodeVoteAttestation hnone) hne
  refine ⟨att, hdec, ?_⟩
  rcases hcase with ⟨⟨-, hempty | ⟨hwindow, hmissing⟩⟩, -⟩ | ⟨hvote, hadopted⟩
  · exact absurd hempty (hset _)
  · obtain ⟨hlow, hhigh⟩ := le_of_mem_window hwindow
    refine ⟨hlow, fun hstart => ?_⟩
    -- every allowed target from the start on is among the ancestors
    have hfollows := h.link.number_eq habove
    obtain ⟨hash, hhash⟩ := hw.ancestorHash_isSome hstart (by omega) (by omega)
    exact absurd (hhash.symm.trans hmissing) (by simp)
  · exact ⟨(le_of_mem_window hvote.window).1, fun _ => hadopted⟩

end Snapshot

namespace LightEngine

variable {P : Primitives}

theorem keysKnown_walk {cp : Checkpoint} {header : RpcBlockHeader} {now : ℕ} {e : LightEngine}
    {keys : List String} (h : fromCheckpointAndHeader P cp header now = .ok e)
    (hkeys : cp.voteKeys = some keys) (calls : List (RpcBlockHeader × ℕ)) :
    Snapshot.KeysKnown (walk P e calls).snapshot := by
  obtain ⟨hbasic, hs, -⟩ := fromCheckpointAndHeader_ok h
  exact walk_snapshot_invariant (I := Snapshot.KeysKnown)
    (fun _ _ hi => ⟨hi.current, hi.previous, hi.announced⟩)
    (fun _ _ _ _ _ _ hacc hi => hi.next hacc)
    (Snapshot.keysKnown_fromCheckpoint hbasic hkeys hs) calls

theorem length_blocks {cp : Checkpoint} {header : RpcBlockHeader} {now : ℕ} {e : LightEngine}
    (h : fromCheckpointAndHeader P cp header now = .ok e) (calls : List (RpcBlockHeader × ℕ)) :
    (e.blocks P calls).length = (Machine.accepted (step P) e calls).length + 1 := by
  obtain ⟨-, hs, rfl, -⟩ := fromCheckpointAndHeader_ok h
  let J (past : List (RpcBlockHeader × ℕ)) (_ : LightEngine) : Prop :=
    (blocksOf e.checkpoint past).length = past.length + 1
  have h₀ : J [] e := by simp [J, blocksOf, (Snapshot.walked_fromCheckpoint hs).1]
  refine Machine.run_accepted_invariant (I := J) ?_ (fun _ _ _ _ hi _ => hi) h₀ calls
  intro past e' call r hi hok
  obtain ⟨signer, l, b, milli, block, -, hacc, -, -, -⟩ := step_ok hok
  change (blocksOf e.checkpoint (past ++ [call])).length = _
  rw [blocksOf_concat hacc.link.headerBlock_eq, List.length_append, List.length_append, hi]
  rfl

/-- With vote keys in the checkpoint, after `k` accepted headers: `ancestors` is the newest
`min (k + 1) 3` of the walked blocks, whose numbers are consecutive and which end at the tip; and an
accepted header with a non-empty attestation region has its vote adopted if the target is not below
the checkpoint, which from the third accepted header on is always so. -/
theorem attestation_never_skipped {cp : Checkpoint} {header : RpcBlockHeader} {now : ℕ}
    {e₀ : LightEngine} {keys : List String}
    (h : fromCheckpointAndHeader P cp header now = .ok e₀) (hkeys : cp.voteKeys = some keys)
    {calls : List (RpcBlockHeader × ℕ)} (hunwrapped : Unwrapped P e₀ calls) :
    let e := walk P e₀ calls
    let k := (Machine.accepted (step P) e₀ calls).length
    let blocks := e₀.blocks P calls
    (blocks.length = k + 1 ∧ blocks.map Prod.fst = List.range' cp.number (k + 1) ∧
      blocks.getLast? = some (e.snapshot.number, e.snapshot.hash) ∧
      e.snapshot.ancestors = newest 3 blocks ∧ e.snapshot.ancestors.length = min (k + 1) 3) ∧
    ∀ call raw, call.1.AboveGenesis → (step P e call).1 = .ok () →
      e.snapshot.attestationRegion call.1 = some raw → raw ≠ [] →
      ∃ att, decodeVoteAttestation raw = .ok (some att) ∧
        (cp.number ≤ att.data.targetNumber → (step P e call).2.snapshot.justified =
          some (att.data.targetNumber, att.data.targetHash)) ∧
        (2 ≤ k → cp.number ≤ att.data.targetNumber) := by
  have hw := walkedFrom_of_checkpoint h hunwrapped
  have hlen := length_blocks h calls
  have hk := keysKnown_walk h hkeys calls
  have hbelow := (sound_of_checkpoint h calls).below
  refine ⟨⟨hlen, ?_, hw.tip, hw.ancestors, ?_⟩, ?_⟩
  · rw [← hlen]
    exact hw.numbers
  · rw [hw.ancestors, length_newest, hlen]
  · intro call raw hcall hok hregion hne
    obtain ⟨signer, l, b, milli, block, -, hacc, -, -, hr⟩ := step_ok hok
    obtain rfl : b.parsed.attestation = raw :=
      Option.some.inj (hacc.attestationRegion_eq.symm.trans hregion)
    obtain ⟨att, hdec, hlow, hadopt⟩ := Snapshot.adopted_of_accepts hw hk hacc hcall hne
    refine ⟨att, hdec, fun hstart => ?_, fun hlater => ?_⟩
    · rw [hr]
      exact (Snapshot.advances_of_accepts hacc (hadopt hstart) hbelow).justified
    · have htip := hw.number_add_one
      have hfollows := hacc.link.number_eq hcall
      omega

/-- On the mock's chain the vote for the checkpoint block is not passed over. -/
theorem attestation_never_skipped_sole : ∃ e₀ call raw att,
    (step mockPrimitives e₀ call).1 = .ok () ∧
    e₀.snapshot.attestationRegion call.1 = some raw ∧ raw ≠ [] ∧
    decodeVoteAttestation raw = .ok (some att) ∧
    (step mockPrimitives e₀ call).2.snapshot.justified =
      some (att.data.targetNumber, att.data.targetHash) := by
  obtain ⟨hash, header₀, e₀, header, now, data, l, b, milli, h, hnumber, htarget, -, hp, hfits, -, -, hacc,
    hok⟩ := exists_attested_step (.repeated 48 1)
  have hcall := hacc.link.aboveGenesis (by rw [hnumber]; exact Draft.small_lt_u64Size (by decide))
  have hregion := hacc.attestationRegion_eq
  have hdecoded : decodeVoteAttestation b.parsed.attestation =
      .ok (some (soleVote (.repeated 48 1) data)) := by
    rw [hp]
    exact decodeVoteAttestation_encode hfits.typed
  have hne : b.parsed.attestation ≠ [] := by
    intro hnil
    rw [hnil] at hdecoded
    cases hdecoded
  obtain ⟨att, hdec, hjustified, -⟩ :=
    (attestation_never_skipped h rfl (@Unwrapped.nil mockPrimitives e₀)).2 (header, now) _ hcall
      hok hregion hne
  obtain rfl : soleVote (.repeated 48 1) data = att :=
    Option.some.inj (Except.ok.inj (hdecoded.symm.trans hdec))
  exact ⟨e₀, (header, now), _, _, hok, hregion, hne, hdec, hjustified htarget.ge⟩

end LightEngine

end HeliosBsc
