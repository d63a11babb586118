import HeliosBsc.Mock.Activation
import HeliosBsc.Consensus.Finality
import HeliosBsc.Consensus.HeaderBinding

/-!
# A chain of votes of the mock

One validator seals and votes. From the same snapshot it can seal two branches: they differ in the
time of their first block, and on each one a vote makes that block final.
-/

namespace HeliosBsc

open Checked

namespace Snapshot

theorem next_ancestorHash_tip (s : Snapshot) (signer : Address) (l : Link) (b : Body) (milli : ℕ) :
    (s.next signer l b milli).ancestorHash (s.next signer l b milli).number =
      some (s.next signer l b milli).hash := by
  rw [ancestorHash, next_ancestors, next_number, next_hash,
    List.drop_append_of_le_length (by omega), List.reverse_append]
  simp

/-- The snapshot of a chain that one validator seals and votes on. -/
structure Voting (key : VoteKey) (s : Snapshot) : Prop where
  sole : s.Sole (mockKey 1)
  votes : s.voteSet = [⟨(mockKey 1).address, key⟩]
  pending : s.pending = none
  changed : s.setChangedAt = 0
  known : s.ancestorHash s.number = some s.hash

namespace Voting

variable {key : VoteKey} {s : Snapshot}

/-- The header the validator seals next. -/
def draft (s : Snapshot) (milli : ℕ) (mid : Bytes) : Draft where
  number := s.number + 1
  parent := s.hash
  milli := milli
  stateRoot := .repeated 32 0
  difficulty := diffInTurn
  mid := mid

/-- The numbers and times of the branches. -/
structure InEra (s : Snapshot) (milli : ℕ) : Prop where
  number : sealedChainStart ≤ s.number ∧ s.number < sealedChainStart + 8
  milli : 1770000000000 ≤ milli ∧ milli < 1780000000000

theorem InEra.fits {milli : ℕ} {mid : Bytes} (h : InEra s milli) (hmid : mid.length ≤ 100000) :
    (draft s milli mid).Fits where
  number := by
    have hlow : londonBlock ≤ sealedChainStart := by decide
    have hhigh : sealedChainStart + 9 < 2 ^ 32 := by decide
    exact ⟨by change _ ≤ s.number + 1; have := h.number; omega,
      Draft.small_lt_u64Size (by change s.number + 1 < _; have := h.number; omega)⟩
  milli := by
    have hmax : maxwellTime * 1000 ≤ 1770000000000 := by decide
    have hsize : (1780000000000 : ℕ) < u64Size := by
      rw [u64Size_eq]
      norm_num
    exact ⟨hmax.trans h.milli.1, h.milli.2.trans hsize⟩
  difficulty := .inr rfl
  mid := hmid

theorem InEra.plain {milli : ℕ} (h : InEra s milli) :
    (s.number + 1) % maxwellEpochLength ≠ 0 := by
  obtain ⟨k, hk⟩ := Nat.exists_eq_add_of_le h.number.1
  have hlt : k < 8 := by
    have := h.number.2
    omega
  rw [hk, maxwellEpochLength, sealedChainStart]
  omega

/-- The hash of the next block. -/
def nextHash (s : Snapshot) (milli : ℕ) (mid : Bytes) : Hash :=
  mockPrimitives.keccak256 ((draft s milli mid).preimage (mockKey 1).address
    ((mockKey 1).sealOver default))

theorem step {milli : ℕ} {mid : Bytes} {adopted : Option VoteData} (h : Voting key s)
    (hera : InEra s milli) (hmid : mid.length ≤ 100000)
    (hadopted : s.checkAttestation mockPrimitives mid (s.number + 1) (draft s milli mid).time =
      .ok adopted) :
    ∃ call signer l b, (Snapshot.step mockPrimitives s call) =
        (.ok signer, s.next signer l b milli) ∧ b.adopted = adopted ∧
      Voting key (s.next signer l b milli) ∧ l.number = s.number + 1 ∧
      l.hash = nextHash s milli mid ∧ decodeU64 call.1.number = .ok (s.number + 1) ∧
      utf8Length call.1.extraData.toList ≤ isizeMax := by
  have hfits := hera.fits hmid
  have hplain := hera.plain
  obtain ⟨sealBytes, hash, -, ⟨digest, rfl⟩, hhash, hverified⟩ :=
    verifySealCoinbase_sealOne (mockKey 1) hfits (.inl (by
      change ¬ (s.number + 1) % maxwellEpochLength = 0
      exact hplain))
  obtain ⟨p, hp, -, -, hpa⟩ := (draft s milli mid).carries_plain ((mockKey 1).sealOver digest)
  have hepoch : (draft s milli mid).number % s.epochLength ≠ 0 := by
    rw [h.sole.epoch]
    exact hplain
  have hmember : s.contains (mockKey 1).address = true := by
    rw [contains_iff, h.sole.validators]
    · exact List.mem_singleton_self _
    · rw [h.sole.validators]
      exact List.pairwise_singleton _ _
  have hparse : parseExtra ((draft s milli mid).extra ((mockKey 1).sealOver digest)) .bohr
      (decide ((draft s milli mid).number % s.epochLength = 0)) = .ok p := by
    rw [decide_eq_false hepoch]
    exact hp
  have hacc : Accepts mockPrimitives s
      ((draft s milli mid).header (mockKey 1).address ((mockKey 1).sealOver digest) hash)
      (mockKey 1).address ⟨s.number + 1, (draft s milli mid).time, hash⟩
      ⟨decide ((draft s milli mid).number % s.epochLength = 0), p, adopted⟩ milli :=
    accepts_header hfits.reads hfits.bounded.milli hfits.difficulty
      (wrapSucc_of_lt hfits.number.2).symm rfl hmember
      (fun _ => h.sole.expectedDifficulty_eq.symm) ((h.sole.trimRecents _).not_signRecently _)
      (.inl rfl) hparse (fun hz => absurd hz hepoch) (by rw [hpa]; exact hadopted)
  have happly := applyHeader_of_accepts (hverified _ le_rfl hfits.time.2) hacc
  refine ⟨(_, (draft s milli mid).time), _, _, _, happly, rfl, ?_, rfl, ?_, hacc.link.number, ?_⟩
  · rcases s.next_sets (mockKey 1).address ⟨s.number + 1, (draft s milli mid).time, hash⟩
        ⟨decide ((draft s milli mid).number % s.epochLength = 0), p, adopted⟩ milli with
      ⟨q, hq, -⟩ | ⟨-, hvotes, -, hchanged, hvals, hturn, hpend⟩
    · rw [pendingDuring, decide_eq_false hepoch, if_neg Bool.false_ne_true, h.pending] at hq
      cases hq
    · rw [decide_eq_false hepoch] at hvotes hchanged hvals hturn hpend ⊢
      rw [pendingDuring, if_neg Bool.false_ne_true, h.pending] at hpend
      exact ⟨h.sole.next rfl (hvals.trans h.sole.validators) (hturn.trans h.sole.turn),
        hvotes.trans h.votes, hpend, hchanged.trans h.changed, next_ancestorHash_tip _ _ _ _ _⟩
  · -- the stand-in signature does not depend on the digest
    rw [hhash]
    rfl
  · change utf8Length (hexPrefixed ((draft s milli mid).extra _)).toList ≤ isizeMax
    rw [utf8Length_hexPrefixed, Draft.length_extra]
    have hbytes : (draft s milli mid).mid.length ≤ 100000 := hmid
    unfold isizeMax
    omega

theorem vote {milli : ℕ} (h : Voting key s) (hera : InEra s milli) (data : VoteData)
    (htarget : data.targetNumber = s.number ∧ data.targetHash = s.hash)
    (hbelow : data.sourceNumber < data.targetNumber)
    (hsource : ∀ j, s.attestation = some j →
      data.sourceNumber = j.targetNumber ∧ data.sourceHash = j.targetHash) :
    ∃ call signer s', Snapshot.step mockPrimitives s call = (.ok signer, s') ∧ Voting key s' ∧
      s'.number = s.number + 1 ∧ s'.attestation = some (adoptAttestation s.attestation data) := by
  have hsize : s.number < u64Size := by
    have hhigh : sealedChainStart + 8 < 2 ^ 32 := by decide
    exact Draft.small_lt_u64Size (hera.number.2.trans hhigh)
  have hfits : data.Fits := ⟨hbelow.trans (htarget.1 ▸ hsize), htarget.1 ▸ hsize⟩
  have hset : s.attestationSet data.targetNumber = [⟨(mockKey 1).address, key⟩] := by
    rw [attestationSet, h.changed, if_neg (Nat.not_lt_zero _), h.votes]
  have hvote := fun time => @checkAttestation_soleVote s key (mockKey 1).address data time hfits hset
    hbelow htarget.1 (by rw [htarget.1, htarget.2]; exact h.known) hsource
  obtain ⟨call, signer, l, b, hstep, hb, hnext, hnumber, -, -, -⟩ :=
    h.step hera ((length_encode_soleVote_le hfits).trans (by decide)) (hvote _)
  refine ⟨call, signer, _, hstep, hnext, hnumber, ?_⟩
  rw [next_attestation, hb]

/-- Three blocks on top of a snapshot without votes: a plain one, one with a vote that leads to it
from the block below, and one with a vote that leads from it to the next. -/
theorem exists_branch {milli : ℕ} (h : Voting key s) (hera : InEra s milli)
    (hroom : s.number < sealedChainStart + 4) (hnone : s.attestation = none) :
    ∃ c₁ c₂ c₃, (s.walk mockPrimitives [c₁]).number = s.number + 1 ∧
      (s.walk mockPrimitives [c₁]).hash = nextHash s milli [] ∧
      (s.walk mockPrimitives [c₁, c₂]).finalized = some (s.number, s.hash) ∧
      (s.walk mockPrimitives [c₁, c₂]).justified = some (s.number + 1, nextHash s milli []) ∧
      (s.walk mockPrimitives [c₁, c₂, c₃]).finalized = some (s.number + 1, nextHash s milli []) ∧
      ∃ j, (s.walk mockPrimitives [c₁, c₂, c₃]).justified = some j ∧ s.number + 1 < j.1 := by
  obtain ⟨c₁, v₁, l, b, hs₁, hb, h₁, hn₁, hh₁, -, -⟩ :=
    h.step hera (Nat.zero_le _) (LightEngine.checkAttestation_nil s _ _)
  set s₁ := s.next v₁ l b milli with hdef
  have hnumber₁ : s₁.number = s.number + 1 := hn₁
  have hhash₁ : s₁.hash = nextHash s milli [] := hh₁
  have hatt₁ : s₁.attestation = none := by
    rw [hdef, next_attestation_of_none hb, hnone]
  have hera₁ : InEra s₁ milli := ⟨by have := hera.number; omega, hera.milli⟩
  obtain ⟨c₂, v₂, s₂, hs₂, h₂, hn₂, hatt₂⟩ := h₁.vote hera₁
    ⟨s.number, s.hash, s₁.number, s₁.hash⟩ ⟨rfl, rfl⟩ (by simp only; omega)
    (by rw [hatt₁]; rintro j ⟨⟩)
  have hera₂ : InEra s₂ milli := ⟨by have := hera.number; omega, hera.milli⟩
  rw [hatt₁] at hatt₂
  obtain ⟨c₃, v₃, s₃, hs₃, -, -, hatt₃⟩ := h₂.vote hera₂
    ⟨s₁.number, s₁.hash, s₂.number, s₂.hash⟩ ⟨rfl, rfl⟩ (by simp only; omega) (by
      rw [hatt₂]
      rintro j ⟨⟩
      exact ⟨rfl, rfl⟩)
  have hadopt : adoptAttestation s₂.attestation ⟨s₁.number, s₁.hash, s₂.number, s₂.hash⟩ =
      ⟨s₁.number, s₁.hash, s₂.number, s₂.hash⟩ := by
    have hroom₁ : s₁.number + 1 < u64Size := by
      have hhigh : sealedChainStart + 9 < 2 ^ 32 := by decide
      exact Draft.small_lt_u64Size (by omega)
    rw [hatt₂, adoptAttestation, satAdd_of_lt hroom₁, hn₂]
    exact if_neg (not_not.mpr rfl)
  have hw₁ : s.walk mockPrimitives [c₁] = s₁ := congrArg Prod.snd hs₁
  have hw₂ : s.walk mockPrimitives [c₁, c₂] = s₂ := by
    have := congrArg Prod.snd hs₂
    rw [← hw₁] at this
    exact this
  have hw₃ : s.walk mockPrimitives [c₁, c₂, c₃] = s₃ := by
    have := congrArg Prod.snd hs₃
    rw [← hw₂] at this
    exact this
  rw [hadopt] at hatt₃
  refine ⟨c₁, c₂, c₃, ?_⟩
  rw [hw₁, hw₂, hw₃]
  refine ⟨hnumber₁, hhash₁, ?_, ?_, ?_, (s₂.number, s₂.hash), ?_, by simp only; omega⟩
  · rw [Snapshot.finalized, hatt₂]
    rfl
  · rw [Snapshot.justified, hatt₂, ← hnumber₁, ← hhash₁]
    rfl
  · rw [Snapshot.finalized, hatt₃, ← hnumber₁, ← hhash₁]
    rfl
  · rw [Snapshot.justified, hatt₃]
    rfl

end Voting

/-- The snapshot at the start of the branches. -/
theorem exists_voting (key : VoteKey) (hash : Hash) : ∃ s,
    fromCheckpoint (soleCheckpoint (mockKey 1) key (blankDraft sealedChainStart) hash) = .ok s ∧
      Voting key s ∧ s.number = sealedChainStart ∧ s.hash = hash ∧ s.attestation = none := by
  obtain ⟨s, hs, hvals, hvotes⟩ : ∃ s,
      fromCheckpoint (soleCheckpoint (mockKey 1) key (blankDraft sealedChainStart) hash) = .ok s ∧
        s.validators = [(mockKey 1).address] ∧ s.voteSet = [⟨(mockKey 1).address, key⟩] := by
    simp [fromCheckpoint, soleCheckpoint, formatAddress, checkpointVoteSet, decodePairs,
      sortByAddress]
  obtain ⟨hnumber, hhash, hepoch, hturn, hpend, -, hrecents, -, hchanged, hatt, -, -, hanc⟩ :=
    fromCheckpoint_ok hs
  have hhash' : s.hash = hash :=
    Except.ok.inj (hhash.symm.trans (decodeHexFixed_hexPrefixed hash))
  have hera : maxwellTime ≤ (blankDraft sealedChainStart).time := by decide
  obtain ⟨hepoch', -, hturn', -⟩ := paramsAt_of_maxwell sealedChainStart hera
  refine ⟨s, hs, ⟨⟨hvals, hturn.trans hturn', hepoch.trans hepoch', ?_⟩, hvotes, hpend, hchanged,
    ?_⟩, hnumber, hhash', hatt⟩
  · intro r hr
    rw [hrecents] at hr
    cases hr
  · rw [ancestorHash, hanc]
    simp

/-- The hash of a first block, by rows. -/
def firstRows (milli : ℕ) : Hash :=
  let address := sliceFixed 20 (keccakRows (FixedBytes.repeated 64 1).val).val 12
  keccakRows (Draft.preimage ⟨sealedChainStart + 1, .repeated 32 7, milli, .repeated 32 0,
    diffInTurn, []⟩ address ((mockKey 1).sealOver default))

theorem nextHash_eq_firstRows {s : Snapshot} (hnumber : s.number = sealedChainStart)
    (hhash : s.hash = .repeated 32 7) (milli : ℕ) :
    Voting.nextHash s milli [] = firstRows milli := by
  unfold Voting.nextHash Voting.draft SecretKey.address firstRows
  rw [keccak256_eq_keccakRows, hnumber, hhash]
  simp only [mockKey]

theorem firstRows_ne : firstRows 1770000002000 ≠ firstRows 1770000001000 := by
  decide +kernel

end Snapshot

end HeliosBsc
