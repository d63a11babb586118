import HeliosBsc.Consensus.History
import HeliosBsc.Mock.SoleSealer

/-!
# Finality along a walk

An adopted vote names the justified block as its source and a later, already walked block as its
target. So the justified block moves up strictly, the finalized one never moves down, and it only
ever moves to the block that was justified before.
-/

namespace HeliosBsc

open Checked

namespace Snapshot

variable {P : Primitives} {s : Snapshot}

/-- What stands behind the vote that an accepted header has made the snapshot adopt. -/
theorem Accepts.voteOk {header : RpcBlockHeader} {signer : Address} {l : Link} {b : Body}
    {milli : ℕ} {data : VoteData} (h : Accepts P s header signer l b milli)
    (hb : b.adopted = some data) :
    ∃ att, att.data = data ∧ VoteOk P (s.trimRecents l.number) l.number l.time att := by
  have hcheck := h.body.adopted
  rw [hb] at hcheck
  rcases checkAttestation_eq_ok.mp hcheck with ⟨-, hnone⟩ | ⟨att, -, ⟨-, hnone⟩ | ⟨hok, hsome⟩⟩
  · cases hnone
  · cases hnone
  · exact ⟨att, (Option.some.inj hsome).symm, hok⟩

theorem adoptAttestation_target (current : Option VoteData) (data : VoteData) :
    (adoptAttestation current data).targetNumber = data.targetNumber ∧
      (adoptAttestation current data).targetHash = data.targetHash := by
  unfold adoptAttestation
  split
  · split <;> exact ⟨rfl, rfl⟩
  · exact ⟨rfl, rfl⟩

theorem adoptAttestation_source (cur data : VoteData) :
    ((adoptAttestation (some cur) data).sourceNumber = cur.sourceNumber ∧
      (adoptAttestation (some cur) data).sourceHash = cur.sourceHash) ∨
    ((adoptAttestation (some cur) data).sourceNumber = data.sourceNumber ∧
      (adoptAttestation (some cur) data).sourceHash = data.sourceHash) := by
  unfold adoptAttestation
  simp only
  split
  · exact .inl ⟨rfl, rfl⟩
  · exact .inr ⟨rfl, rfl⟩

/-- The finality invariant: the source is below the target, and the target is a walked block. -/
structure Sound (blocks : List (ℕ × Hash)) (s : Snapshot) : Prop where
  below : ∀ a, s.attestation = some a → a.sourceNumber < a.targetNumber
  known : ∀ j, s.justified = some j → j ∈ blocks

/-- How the attestation moves from a snapshot to the next when `data` is adopted. -/
structure Advances (s s' : Snapshot) (data : VoteData) : Prop where
  justified : s'.justified = some (data.targetNumber, data.targetHash)
  higher : ∀ j, s.justified = some j → j.1 < data.targetNumber
  below : ∀ a, s'.attestation = some a → a.sourceNumber < a.targetNumber
  finalized : ∀ f, s.finalized = some f → ∃ f', s'.finalized = some f' ∧ f.1 ≤ f'.1 ∧
    (f' ≠ f → s.justified = some f')

section

variable {header : RpcBlockHeader} {signer : Address} {l : Link} {b : Body} {milli : ℕ}

/-- The step lemma of adoption. -/
theorem advances_of_accepts {data : VoteData} (h : Accepts P s header signer l b milli)
    (hb : b.adopted = some data)
    (hbelow : ∀ a, s.attestation = some a → a.sourceNumber < a.targetNumber) :
    Advances s (s.next signer l b milli) data := by
  obtain ⟨att, rfl, hvote⟩ := h.voteOk hb
  have hatt : (s.next signer l b milli).attestation =
      some (adoptAttestation s.attestation att.data) := by
    rw [next_attestation, hb]
  obtain ⟨htn, hth⟩ := adoptAttestation_target s.attestation att.data
  have hsource : ∀ j, s.attestation = some j →
      att.data.sourceNumber = j.targetNumber ∧ att.data.sourceHash = j.targetHash := hvote.source
  have hlt := hvote.below
  refine ⟨?_, ?_, ?_, ?_⟩
  · rw [Snapshot.justified, hatt, Option.map_some, htn, hth]
  · intro j hj
    obtain ⟨a, ha, rfl⟩ := Option.map_eq_some_iff.mp hj
    rw [← (hsource a ha).1]
    exact hlt
  · intro a ha
    rw [hatt, Option.some.injEq] at ha
    subst ha
    rw [htn]
    cases hcur : s.attestation with
    | none => exact hlt
    | some cur =>
      rcases adoptAttestation_source cur att.data with ⟨hs, -⟩ | ⟨hs, -⟩
      · have := hbelow cur hcur
        rw [hs]
        rw [← (hsource cur hcur).1] at this
        exact this.trans hlt
      · rw [hs]
        exact hlt
  · intro f hf
    obtain ⟨cur, hcur, rfl⟩ := Option.map_eq_some_iff.mp hf
    obtain ⟨hsn, hsh⟩ := hsource cur hcur
    have hcb := hbelow cur hcur
    rw [Snapshot.finalized, Snapshot.justified, hatt, hcur]
    refine ⟨_, rfl, ?_⟩
    simp only [Option.map_some]
    rcases adoptAttestation_source cur att.data with ⟨hs, hh⟩ | ⟨hs, hh⟩
    · rw [hs, hh]
      exact ⟨le_rfl, fun hne => absurd rfl hne⟩
    · rw [hs, hh, hsn, hsh]
      exact ⟨hcb.le, fun _ => rfl⟩

theorem next_attestation_of_none (hb : b.adopted = none) :
    (s.next signer l b milli).attestation = s.attestation := by
  rw [next_attestation, hb]

theorem Sound.next {blocks : List (ℕ × Hash)} (hs : Sound blocks s)
    (hw : Walked blocks s) (h : Accepts P s header signer l b milli) :
    Sound (blocks ++ [(l.number, l.hash)]) (s.next signer l b milli) := by
  cases hb : b.adopted with
  | none =>
    have hatt : (s.next signer l b milli).attestation = s.attestation :=
      next_attestation_of_none hb
    refine ⟨?_, fun j hj => List.mem_append_left _ (hs.known j ?_)⟩
    · rw [hatt]
      exact hs.below
    · rwa [Snapshot.justified, hatt] at hj
  | some data =>
    have hadv := advances_of_accepts h hb hs.below
    refine ⟨hadv.below, fun j hj => List.mem_append_left _ ?_⟩
    rw [hadv.justified, Option.some.injEq] at hj
    obtain ⟨att, rfl, hvote⟩ := h.voteOk hb
    rw [← hj]
    exact hw.mem_of_ancestorHash hvote.target

end

end Snapshot

namespace LightEngine

variable {P : Primitives}

/-- The call is accepted, and `check_attestation` has returned `data` for it. -/
def Adopts (P : Primitives) (e : LightEngine) (call : RpcBlockHeader × ℕ) (data : VoteData) :
    Prop :=
  (step P e call).1 = .ok () ∧
    ∃ signer l b, verifySealCoinbase P call.1 call.2 = .ok signer ∧
      e.snapshot.linkChecks call.1 signer = .ok l ∧
      (e.snapshot.trimRecents l.number).bodyChecks P call.1 signer l = .ok b ∧
      b.adopted = some data

theorem adopts_iff {e : LightEngine} {call : RpcBlockHeader × ℕ} (data : VoteData)
    {signer : Address} {l : Snapshot.Link} {b : Snapshot.Body} {milli : ℕ}
    (hok : (step P e call).1 = .ok ()) (hseal : SealOk P call.1 call.2 signer)
    (hacc : Snapshot.Accepts P e.snapshot call.1 signer l b milli) :
    Adopts P e call data ↔ b.adopted = some data := by
  have hl := Snapshot.linkChecks_eq_ok.mpr hacc.link
  have hb := Snapshot.bodyChecks_eq_ok.mpr hacc.body
  constructor
  · rintro ⟨-, signer', l', b', hv, hl', hb', hd⟩
    obtain rfl : signer = signer' := Except.ok.inj (hseal.verified.symm.trans hv)
    obtain rfl : l = l' := Except.ok.inj (hl.symm.trans hl')
    obtain rfl : b = b' := Except.ok.inj (hb.symm.trans hb')
    exact hd
  · exact fun hd => ⟨hok, signer, l, b, hseal.verified, hl, hb, hd⟩

theorem attestation_step (e : LightEngine) (call : RpcBlockHeader × ℕ)
    (hbelow : ∀ a, e.snapshot.attestation = some a → a.sourceNumber < a.targetNumber) :
    (∀ data, Adopts P e call data →
      Snapshot.Advances e.snapshot (step P e call).2.snapshot data) ∧
    ((∀ data, ¬ Adopts P e call data) →
      (step P e call).2.snapshot.attestation = e.snapshot.attestation) := by
  cases hok : (step P e call).1 with
  | ok r =>
    obtain ⟨signer, l, b, milli, block, hseal, hacc, -, -, hr⟩ := step_ok hok
    have hiff := fun data => adopts_iff data hok hseal hacc
    simp only [hiff]
    rw [hr]
    refine ⟨fun data hb => Snapshot.advances_of_accepts hacc hb hbelow, fun hnone => ?_⟩
    exact Snapshot.next_attestation_of_none (Option.eq_none_iff_forall_ne_some.mpr hnone)
  | error err =>
    refine ⟨fun data hd => ?_, fun _ => ?_⟩
    · rw [hd.1] at hok
      cases hok
    · rcases step_error hok with hr | ⟨-, hr⟩
      · rw [hr]
      · rw [hr]
        rfl

theorem finalized_step (e : LightEngine) (call : RpcBlockHeader × ℕ)
    (hbelow : ∀ a, e.snapshot.attestation = some a → a.sourceNumber < a.targetNumber)
    {f : ℕ × Hash} (hf : e.snapshot.finalized = some f) :
    ∃ f', (step P e call).2.snapshot.finalized = some f' ∧ f.1 ≤ f'.1 ∧
      (f' ≠ f → e.snapshot.justified = some f') := by
  obtain ⟨hadv, hsame⟩ := attestation_step (P := P) e call hbelow
  by_cases hd : ∃ data, Adopts P e call data
  · obtain ⟨data, hd⟩ := hd
    exact (hadv data hd).finalized f hf
  · refine ⟨f, ?_, le_rfl, fun hne => absurd rfl hne⟩
    rw [Snapshot.finalized, hsame (not_exists.mp hd)]
    exact hf

/-- The finality invariant holds after every walk. -/
theorem sound_of_checkpoint {cp : Checkpoint} {header : RpcBlockHeader} {now : ℕ}
    {e : LightEngine} (h : fromCheckpointAndHeader P cp header now = .ok e)
    (calls : List (RpcBlockHeader × ℕ)) :
    Snapshot.Sound (e.blocks P calls) (walk P e calls).snapshot := by
  obtain ⟨-, hs, rfl, -⟩ := fromCheckpointAndHeader_ok h
  obtain ⟨hblock, hwalked⟩ := Snapshot.walked_fromCheckpoint hs
  obtain ⟨-, -, -, -, -, -, -, -, -, hatt, -⟩ := Snapshot.fromCheckpoint_ok hs
  refine (blocks_invariant
    (I := fun past s => Snapshot.Walked past s ∧ Snapshot.Sound past s)
    (fun _ _ n hi => ⟨hi.1.trimRecents n, hi.2.below, hi.2.known⟩)
    (fun _ _ _ _ _ _ _ hacc hi => ⟨hi.1.next hacc, hi.2.next hi.1 hacc⟩) ?_ calls).2
  rw [hblock]
  refine ⟨hwalked.toWalked, ?_, ?_⟩
  · rw [hatt]
    rintro a ⟨⟩
  · rw [Snapshot.justified, hatt]
    rintro j ⟨⟩

theorem finalized_mono {cp : Checkpoint} {header : RpcBlockHeader} {now : ℕ} {e : LightEngine}
    (h : fromCheckpointAndHeader P cp header now = .ok e)
    (calls later : List (RpcBlockHeader × ℕ)) {f : ℕ × Hash}
    (hf : (walk P e calls).snapshot.finalized = some f) :
    ∃ f', (walk P e (calls ++ later)).snapshot.finalized = some f' ∧ f.1 ≤ f'.1 := by
  induction later using List.reverseRecOn with
  | nil => exact ⟨f, by rwa [List.append_nil], le_rfl⟩
  | append_singleton later call ih =>
    obtain ⟨f', hf', hle⟩ := ih
    rw [← List.append_assoc, walk_concat]
    obtain ⟨f'', hf'', hle', -⟩ := finalized_step (P := P) (walk P e (calls ++ later)) call
      (sound_of_checkpoint h (calls ++ later)).below hf'
    exact ⟨f'', hf'', hle.trans hle'⟩

/-- Over every walk from a checkpoint, in which each call may be refused: the source of the held
attestation is below its target; the justified block is the checkpoint block or an accepted one;
each adopted vote moves the justified block to its target, which is strictly higher; nothing else
moves the attestation; the finalized number never goes down; and the finalized block, once there is
one, only changes to the block that was justified before. -/
theorem finality_invariant {cp : Checkpoint} {header : RpcBlockHeader} {now : ℕ} {e₀ : LightEngine}
    (h : fromCheckpointAndHeader P cp header now = .ok e₀)
    (calls : List (RpcBlockHeader × ℕ)) :
    let s := (walk P e₀ calls).snapshot
    (∀ a, s.attestation = some a → a.sourceNumber < a.targetNumber) ∧
    (∀ j, s.justified = some j → j ∈ e₀.blocks P calls) ∧
    (∀ call, let s' := (walk P e₀ (calls ++ [call])).snapshot
      (∀ data, Adopts P (walk P e₀ calls) call data →
        s'.justified = some (data.targetNumber, data.targetHash) ∧
          ∀ j, s.justified = some j → j.1 < data.targetNumber) ∧
      ((∀ data, ¬ Adopts P (walk P e₀ calls) call data) → s'.attestation = s.attestation) ∧
      (∀ f f', s.finalized = some f → s'.finalized = some f' → f' ≠ f → s.justified = some f')) ∧
    (∀ later f, s.finalized = some f →
      ∃ f', (walk P e₀ (calls ++ later)).snapshot.finalized = some f' ∧ f.1 ≤ f'.1) := by
  have hsound := sound_of_checkpoint h calls
  refine ⟨hsound.below, hsound.known, fun call => ?_, fun later f hf => finalized_mono h _ _ hf⟩
  rw [walk_concat]
  obtain ⟨hadv, hsame⟩ := attestation_step (P := P) (walk P e₀ calls) call hsound.below
  refine ⟨fun data hd => ⟨(hadv data hd).justified, (hadv data hd).higher⟩, hsame, ?_⟩
  intro f f' hf hf' hne
  obtain ⟨f'', hf'', -, hmoved⟩ := finalized_step (P := P) _ call hsound.below hf
  obtain rfl : f' = f'' := Option.some.inj (hf'.symm.trans hf'')
  exact hmoved hne

/-- On the mock's chain the vote for the checkpoint block is adopted. -/
theorem finality_invariant_sole : ∃ e₀ call data,
    Adopts mockPrimitives e₀ call data ∧
    (walk mockPrimitives e₀ [call]).snapshot.justified =
      some (data.targetNumber, data.targetHash) ∧
    ∀ j, (walk mockPrimitives e₀ [call]).snapshot.justified = some j →
      j ∈ e₀.blocks mockPrimitives [call] := by
  obtain ⟨hash, header₀, e₀, header, now, data, l, b, milli, h, -, -, -, -, -, hb, hseal, hacc,
    hok⟩ :=
    exists_attested_step (.repeated 48 1)
  have hadopts : Adopts mockPrimitives e₀ (header, now) data :=
    (adopts_iff data hok hseal hacc).mpr hb
  obtain ⟨-, -, hcalls, -⟩ := finality_invariant h []
  exact ⟨e₀, (header, now), data, hadopts, ((hcalls (header, now)).1 data hadopts).1,
    (finality_invariant h [(header, now)]).2.1⟩

end LightEngine

end HeliosBsc
