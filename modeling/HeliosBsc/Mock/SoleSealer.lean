import HeliosBsc.Consensus.EngineStep
import HeliosBsc.Consensus.VoteCodec
import HeliosBsc.Mock.Sealed
import Mathlib.Data.List.Perm.Subperm

/-!
# A chain of one validator

The smallest chain on which the whole engine runs: one validator seals every block, in turn. An
engine on such a chain accepts every next header that the validator seals.
-/

namespace HeliosBsc

open Checked

variable {P : Primitives}

/-- What the bytes between vanity and seal say. -/
def Draft.Carries (d : Draft) (isEpoch : Bool) (vals : List SealingValidator) (turn : Option ℕ)
    (attestation : Bytes) : Prop :=
  ∀ sealBytes, ∃ p, parseExtra (d.extra sealBytes) .bohr isEpoch = .ok p ∧
    p.validators = vals ∧ p.turnLength = turn ∧ p.attestation = attestation

theorem Draft.carries_plain (d : Draft) : d.Carries false [] none d.mid :=
  fun sealBytes => parseExtra_plain _ sealBytes d.mid

theorem Draft.carries_epoch {d : Draft} {vals : List SealingValidator} {turnLength : ℕ}
    {attestation : Bytes} (hmid : d.mid = epochPart vals turnLength attestation)
    (hpos : vals ≠ []) (hcount : vals.length < 256) (hturn : turnLength < 256) :
    d.Carries true vals (some turnLength) attestation := by
  intro sealBytes
  unfold Draft.extra
  rw [hmid]
  exact parseExtra_epochPart _ sealBytes attestation hpos hcount hturn

/-- A header on top of a snapshot passes the link checks if its sealer is a validator and its
difficulty is the one of the sealer. -/
theorem linkOk_header {s : Snapshot} {d : Draft} {signer : Address} {sealBytes : FixedBytes 65}
    {hash : Hash} {fee : Option String} (hreads : d.Reads)
    (hdifficulty : d.difficulty = diffNoTurn ∨ d.difficulty = diffInTurn)
    (hnumber : d.number = wrapSucc s.number) (hparent : d.parent = s.hash)
    (hmember : s.contains signer = true)
    (hturn : s.enforceInturn = true → d.difficulty = s.expectedDifficulty signer) :
    s.LinkOk (d.headerPaying fee signer sealBytes hash) signer ⟨d.number, d.time, hash⟩ where
  number := hreads.number
  time := hreads.time
  parent := by rw [← hparent]; exact decodeHexFixed_hexPrefixed d.parent
  hash := decodeHexFixed_hexPrefixed hash
  follows := hnumber
  member := hmember
  difficulty := ⟨d.difficulty, hreads.difficulty, hdifficulty, hturn⟩

/-- A header on top of a snapshot is accepted if its sealer may seal it and its attestation
passes. -/
theorem accepts_header {s : Snapshot} {d : Draft} {signer : Address} {sealBytes : FixedBytes 65}
    {hash : Hash} {p : ParsedExtra} {adopted : Option VoteData} {fee : Option String}
    (hreads : d.Reads) (hmilli : lorentzTime * 1000 ≤ d.milli ∧ d.milli < u64Size)
    (hdifficulty : d.difficulty = diffNoTurn ∨ d.difficulty = diffInTurn)
    (hnumber : d.number = wrapSucc s.number) (hparent : d.parent = s.hash)
    (hmember : s.contains signer = true)
    (hturn : s.enforceInturn = true → d.difficulty = s.expectedDifficulty signer)
    (hrecent : (s.trimRecents d.number).signRecently signer = false)
    (hbackoff : d.difficulty = diffInTurn ∨
      (s.trimRecents d.number).backoffContext.known = false)
    (hparse : parseExtra (d.extra sealBytes) .bohr (decide (d.number % s.epochLength = 0)) = .ok p)
    (hvals : d.number % s.epochLength = 0 → p.validators ≠ [])
    (hadopted : s.checkAttestation P p.attestation d.number d.time = .ok adopted) :
    Snapshot.Accepts P s (d.headerPaying fee signer sealBytes hash) signer ⟨d.number, d.time, hash⟩
      ⟨decide (d.number % s.epochLength = 0), p, adopted⟩ d.milli where
  link := linkOk_header hreads hdifficulty hnumber hparent hmember hturn
  body := {
    notRecent := hrecent
    backoff := by
      unfold verifyOutOfTurnBackoff
      rcases hbackoff with hin | hunknown
      · have hread : decodeU64 (d.headerPaying fee signer sealBytes hash).difficulty =
            .ok diffInTurn := by
          rw [← hin]
          exact hreads.difficulty
        split
        · rfl
        · simp only [hread, mapError_ok, ok_bind]
          rw [if_pos (by decide)]
          rfl
      · rw [if_pos (by rw [hunknown]; rfl)]
        rfl
    isEpoch := rfl
    parsed := ⟨d.extra sealBytes, decodeHex_hexPrefixed _, hparse⟩
    adopted := hadopted
    validators := fun h => hvals (of_decide_eq_true h) }
  milli := Draft.milliTimestamp_headerPaying fee signer sealBytes hash hreads hmilli

/-! ## A header that a validator may seal -/

/-- A validator may seal a drafted header on top of a snapshot: the draft is laid out for its height
and time and carries no vote, and the sealing rules let the validator through. -/
structure Snapshot.Ready (sk : SecretKey P) (s : Snapshot) (d : Draft) (fee : Option String)
    (vals : List SealingValidator) (turn : Option ℕ) : Prop where
  fits : d.Bounded
  laidOut : d.LaidOutBy (paramsAt d.number d.time).epochLength
  pays : d.Pays fee
  follows : d.number = wrapSucc s.number
  parent : d.parent = s.hash
  member : s.contains sk.address = true
  difficulty : d.difficulty = s.expectedDifficulty sk.address
  notRecent : (s.trimRecents d.number).signRecently sk.address = false
  backoff : d.difficulty = diffInTurn ∨ (s.trimRecents d.number).backoffContext.known = false
  carries : d.Carries (decide (d.number % s.epochLength = 0)) vals turn []
  validators : d.number % s.epochLength = 0 → vals ≠ []

theorem Snapshot.Ready.accepts {sk : SecretKey P} {s : Snapshot} {d : Draft} {fee : Option String}
    {vals : List SealingValidator} {turn : Option ℕ} (h : Ready sk s d fee vals turn) :
    ∃ sealBytes hash p,
      verifySealCoinbase P (d.headerPaying fee sk.address sealBytes hash) d.time =
        .ok sk.address ∧
      Accepts P s (d.headerPaying fee sk.address sealBytes hash) sk.address
        ⟨d.number, d.time, hash⟩ ⟨decide (d.number % s.epochLength = 0), p, none⟩ d.milli ∧
      p.validators = vals ∧ p.turnLength = turn := by
  obtain ⟨sealBytes, hash, hverified⟩ := exists_seal sk h.fits h.laidOut h.pays
  obtain ⟨p, hp, hpv, hpt, hpa⟩ := h.carries sealBytes
  refine ⟨sealBytes, hash, p, hverified _ le_rfl h.fits.time.2, ?_, hpv, hpt⟩
  exact accepts_header h.fits.reads h.fits.milli h.fits.difficulty h.follows h.parent h.member
    (fun _ => h.difficulty) h.notRecent h.backoff hp (fun hz => by rw [hpv]; exact h.validators hz)
    (checkAttestation_eq_ok.mpr (.inl ⟨by rw [hpa]; rfl, rfl⟩))

/-! ## One validator -/

namespace Snapshot

theorem delay_of_single {s : Snapshot} (hcount : s.validators.length = 1)
    (hturn : 0 < s.turnLength) : s.delay = s.turnLength - 1 := by
  have hseal : s.nSeal = 1 := by
    unfold nSeal
    rw [hcount]
    rfl
  rw [delay, hseal, minerHistoryCheckLen, if_neg (by omega)]
  omega

/-- The window of recent sealers has room for one block less than the turn length, so a single
validator is never in it too often. -/
theorem not_signRecently_of_single {s : Snapshot} (hcount : s.validators.length = 1)
    (hturn : 0 < s.turnLength)
    (hrecents : ∀ r ∈ s.recents.entries, r.1 ≤ s.number ∨ r.2 = recentEpochSentinel)
    (signer : Address) : s.signRecently signer = false := by
  have hdelay := delay_of_single hcount hturn
  have hseen : s.seenTimes signer ≤ s.turnLength - 1 := by
    unfold seenTimes
    rw [hdelay]
    simp only
    set counted := s.recents.entries.filter fun e =>
      decide (s.number - (s.turnLength - 1) < e.1 ∧ e.2 ≠ recentEpochSentinel ∧ e.2 = signer)
      with hcounted
    have hnodup : (counted.map Prod.fst).Nodup :=
      (List.filter_sublist.map _).nodup s.recents.nodup
    have hrange : counted.map Prod.fst ⊆
        List.range' (s.number - (s.turnLength - 1) + 1) (s.turnLength - 1) := by
      intro k hk
      obtain ⟨r, hr, rfl⟩ := List.mem_map.mp hk
      obtain ⟨hmem, hcond⟩ := List.mem_filter.mp hr
      obtain ⟨hlow, hmark, -⟩ := of_decide_eq_true hcond
      rcases hrecents r hmem with hle | hm
      · rw [List.mem_range'_1]
        omega
      · exact absurd hm hmark
    have hlen := (List.subperm_of_subset hnodup hrange).length_le
    rwa [List.length_map, List.length_range'] at hlen
  unfold signRecently
  rw [decide_eq_false_iff_not]
  omega

/-- A chain of one validator, whatever the length of its epochs. -/
structure Single (sk : SecretKey P) (turnLength : ℕ) (s : Snapshot) : Prop where
  validators : s.validators = [sk.address]
  turn : s.turnLength = turnLength
  pos : 0 < turnLength
  recents : ∀ r ∈ s.recents.entries, r.1 ≤ s.number ∨ r.2 = recentEpochSentinel

/-- What the validator seals on top of a snapshot, at a time and with given bytes in `extraData`. -/
def singleDraft (s : Snapshot) (milli : ℕ) (mid : Bytes) : Draft where
  number := wrapSucc s.number
  parent := s.hash
  milli := milli
  stateRoot := .repeated 32 0
  difficulty := diffInTurn
  mid := mid

namespace Single

variable {sk : SecretKey P} {turnLength : ℕ} {s : Snapshot}

theorem ready (h : Single sk turnLength s) {milli : ℕ} {mid : Bytes} {fee : Option String}
    {vals : List SealingValidator} {turn : Option ℕ}
    (hnumber : wrapSucc s.number < u64Size)
    (hmilli : lorentzTime * 1000 ≤ milli ∧ milli < 1780000000000) (hmid : mid.length ≤ 100000)
    (hlaid : (s.singleDraft milli mid).LaidOutBy
      (paramsAt (wrapSucc s.number) (milli / 1000)).epochLength)
    (hpays : (s.singleDraft milli mid).Pays fee)
    (hcarries : (s.singleDraft milli mid).Carries
      (decide (wrapSucc s.number % s.epochLength = 0)) vals turn [])
    (hvals : wrapSucc s.number % s.epochLength = 0 → vals ≠ []) :
    Ready sk s (s.singleDraft milli mid) fee vals turn where
  fits := by
    have hsize := u64Size_eq
    refine ⟨hnumber, ⟨hmilli.1, ?_⟩, .inr rfl, hmid⟩
    change milli < u64Size
    omega
  laidOut := hlaid
  pays := hpays
  follows := rfl
  parent := rfl
  member := by
    rw [contains_iff (by rw [h.validators]; exact List.pairwise_singleton _ _), h.validators]
    exact List.mem_singleton_self _
  difficulty := by
    have hin : s.inturnValidator = some sk.address := by
      simp [inturnValidator, h.validators, h.turn, h.pos.ne', Nat.mod_one]
    rw [expectedDifficulty, if_pos hin]
    rfl
  notRecent := not_signRecently_of_single (s := s.trimRecents _) (congrArg List.length h.validators)
    (h.turn ▸ h.pos) (fun r hr => h.recents r (mem_of_mem_trimRecents hr)) _
  backoff := .inl rfl
  carries := hcarries
  validators := hvals

theorem ready_plain (h : Single sk turnLength s) {number milli : ℕ}
    (hnext : wrapSucc s.number = number) (hnumber : londonBlock ≤ number ∧ number < u64Size)
    (hmilli : lorentzTime * 1000 ≤ milli ∧ milli < 1780000000000)
    (hlaid : number % (paramsAt number (milli / 1000)).epochLength ≠ 0)
    (hplain : number % s.epochLength ≠ 0) :
    Ready sk s (s.singleDraft milli []) (some (hexQuantity 0)) [] none := by
  subst hnext
  refine h.ready hnumber.2 hmilli (Nat.zero_le _) (.inl hlaid) (.inl ⟨rfl, hnumber.1⟩) ?_
    fun hz => absurd hz hplain
  rw [decide_eq_false hplain]
  exact Draft.carries_plain _

theorem ready_epoch (h : Single sk turnLength s) {number milli turn : ℕ} {fee : Option String}
    {vals : List SealingValidator} (hnext : wrapSucc s.number = number) (hnumber : number < u64Size)
    (hmilli : lorentzTime * 1000 ≤ milli ∧ milli < 1780000000000)
    (hmid : (epochPart vals turn []).length ≤ 100000)
    (hlaid : (s.singleDraft milli (epochPart vals turn [])).LaidOutBy
      (paramsAt number (milli / 1000)).epochLength)
    (hpays : (s.singleDraft milli (epochPart vals turn [])).Pays fee)
    (hvals : vals ≠ []) (hcount : vals.length < 256) (hturn : turn < 256)
    (hepoch : number % s.epochLength = 0) :
    Ready sk s (s.singleDraft milli (epochPart vals turn [])) fee vals (some turn) := by
  subst hnext
  refine h.ready hnumber hmilli hmid hlaid hpays ?_ fun _ => hvals
  rw [decide_eq_true hepoch]
  exact Draft.carries_epoch rfl hvals hcount hturn

theorem next_plain (h : Single sk turnLength s) (hpending : s.pending = none) {l : Link} {b : Body}
    {milli : ℕ} (hplain : b.isEpoch = false) (hfollows : s.number ≤ l.number) :
    Single sk turnLength (s.next sk.address l b milli) := by
  have hduring : s.pendingDuring l b = none := by
    rw [pendingDuring, hplain]
    exact hpending
  have hsets := s.next_sets sk.address l b milli
  rw [hduring] at hsets
  obtain ⟨q, hq, -⟩ | ⟨-, -, -, -, hvals, hturn, -⟩ := hsets
  · cases hq
  · refine ⟨hvals.trans h.validators, hturn.trans h.turn, h.pos, fun r hr => ?_⟩
    rw [next_number]
    rcases s.mem_next_recents sk.address l b milli hr with hold | hnew | hmark
    · exact (h.recents r hold).imp_left fun hle => hle.trans hfollows
    · exact .inl (by rw [hnew])
    · exact .inr hmark

end Single

/-- The snapshot of a chain that one validator seals. -/
structure Sole (sk : SecretKey P) (s : Snapshot) : Prop where
  validators : s.validators = [sk.address]
  turn : s.turnLength = 8
  epoch : s.epochLength = maxwellEpochLength
  recents : ∀ r ∈ s.recents.entries, r.1 ≤ s.number ∨ r.2 = recentEpochSentinel

namespace Sole

variable {sk : SecretKey P} {s : Snapshot}

theorem delay_eq (h : Sole sk s) : s.delay = 7 := by
  rw [delay_of_single (by rw [h.validators, List.length_singleton]) (by rw [h.turn]; norm_num),
    h.turn]

theorem expectedDifficulty_eq (h : Sole sk s) : s.expectedDifficulty sk.address = diffInTurn := by
  have hin : s.inturnValidator = some sk.address := by
    unfold inturnValidator
    rw [h.validators, h.turn]
    simp [Nat.mod_one]
  unfold expectedDifficulty
  rw [if_pos hin]

theorem contains_self (h : Sole sk s) : s.contains sk.address = true := by
  rw [contains_iff (by rw [h.validators]; exact List.pairwise_singleton _ _), h.validators]
  exact List.mem_singleton_self _

theorem not_signRecently (h : Sole sk s) (signer : Address) : s.signRecently signer = false :=
  not_signRecently_of_single (by rw [h.validators, List.length_singleton])
    (by rw [h.turn]; norm_num) h.recents signer

theorem trimRecents (h : Sole sk s) (n : ℕ) : Sole sk (s.trimRecents n) where
  validators := h.validators
  turn := h.turn
  epoch := h.epoch
  recents := fun r hr => h.recents r (mem_of_mem_trimRecents hr)

theorem next (h : Sole sk s) {l : Link} {b : Body} {milli : ℕ} (hl : l.number = s.number + 1)
    (hvals : (s.next sk.address l b milli).validators = [sk.address])
    (hturn : (s.next sk.address l b milli).turnLength = 8) : Sole sk (s.next sk.address l b milli) where
  validators := hvals
  turn := hturn
  epoch := by
    rw [next_epochLength, advanceEpochLength, h.epoch]
    simp [maxwellEpochLength, lorentzEpochLength, defaultEpochLength]
  recents := by
    intro r hr
    rw [next_number]
    rcases s.mem_next_recents sk.address l b milli hr with hold | hnew | hmark
    · rcases h.recents r hold with hle | hm
      · exact .inl (by omega)
      · exact .inr hm
    · exact .inl (by rw [hnew])
    · exact .inr hmark

end Sole

end Snapshot

namespace LightEngine

/-- The header the validator seals next, at a time and with given bytes in `extraData`. -/
def nextDraft (e : LightEngine) (milli : ℕ) (mid : Bytes) : Draft where
  number := e.snapshot.number + 1
  parent := e.snapshot.hash
  milli := milli
  stateRoot := .repeated 32 0
  difficulty := diffInTurn
  mid := mid

theorem nextDraft_carries (e : LightEngine) (milli : ℕ) (mid : Bytes) :
    (e.nextDraft milli mid).Carries false [] none mid :=
  Draft.carries_plain _

/-- An engine on the chain of one validator, whose tip has a given time. -/
structure Sole (sk : SecretKey P) (milli : ℕ) (e : LightEngine) : Prop where
  snapshot : e.snapshot.Sole sk
  tip : ∃ b, e.chain.getLast? = some b ∧ b.milliTimestamp = milli ∧ b.gasLimit = mockGasLimit

theorem parentChecks_header {sk : SecretKey P} {milli : ℕ} {e : LightEngine} (h : Sole sk milli e)
    {d : Draft} (hfits : d.Fits) (hlater : milli + 1000 ≤ d.milli) (signer : Address)
    (sealBytes : FixedBytes 65) (hash : Hash) :
    e.parentChecks (d.header signer sealBytes hash) = .ok () := by
  obtain ⟨b, hb, hmilli, hgas⟩ := h.tip
  unfold parentChecks
  simp only [hb, hmilli, hgas]
  exact Draft.verifyCascadingVsParent_header signer sealBytes hash hfits hlater

theorem Sole.step {sk : SecretKey P} {milli milli' : ℕ} {e : LightEngine} {mid : Bytes}
    {vals : List SealingValidator} {turn : Option ℕ} {attestation : Bytes}
    {adopted : Option VoteData} (h : Sole sk milli e) (hfits : (e.nextDraft milli' mid).Fits)
    (hlaid : (e.nextDraft milli' mid).LaidOut) (hlater : milli + 1000 ≤ milli')
    (hcarries : (e.nextDraft milli' mid).Carries
      (decide ((e.snapshot.number + 1) % maxwellEpochLength = 0)) vals turn attestation)
    (hvals : (e.snapshot.number + 1) % maxwellEpochLength = 0 → vals ≠ [])
    (hadopted : e.snapshot.checkAttestation P attestation (e.snapshot.number + 1)
      (e.nextDraft milli' mid).time = .ok adopted) :
    ∃ header p hash block,
      (∃ sealBytes, header = (e.nextDraft milli' mid).header sk.address sealBytes hash) ∧
      sealOne sk (e.nextDraft milli' mid) = .ok header ∧
      p.validators = vals ∧ p.turnLength = turn ∧ p.attestation = attestation ∧
      block.milliTimestamp = milli' ∧ block.gasLimit = mockGasLimit ∧
      block.header = some header ∧
      SealOk P header (e.nextDraft milli' mid).time sk.address ∧
      Snapshot.Accepts P e.snapshot header sk.address
        ⟨e.snapshot.number + 1, (e.nextDraft milli' mid).time, hash⟩
        ⟨decide ((e.snapshot.number + 1) % maxwellEpochLength = 0), p, adopted⟩ milli' ∧
      LightEngine.step P e (header, (e.nextDraft milli' mid).time) = (.ok (), e.advance
        (e.snapshot.next sk.address
          ⟨e.snapshot.number + 1, (e.nextDraft milli' mid).time, hash⟩
          ⟨decide ((e.snapshot.number + 1) % maxwellEpochLength = 0), p, adopted⟩ milli')
        block) := by
  obtain ⟨sealBytes, hash, hsealed, -, -, hverified⟩ := verifySealCoinbase_sealOne sk hfits hlaid
  obtain ⟨p, hp, hpv, hpt, hpa⟩ := hcarries sealBytes
  have hverify := hverified _ le_rfl hfits.time.2
  have hs := h.snapshot
  have hacc : Snapshot.Accepts P e.snapshot
      ((e.nextDraft milli' mid).header sk.address sealBytes hash) sk.address
      ⟨e.snapshot.number + 1, (e.nextDraft milli' mid).time, hash⟩
      ⟨decide ((e.snapshot.number + 1) % maxwellEpochLength = 0), p, adopted⟩ milli' := by
    rw [← hs.epoch] at hp hvals ⊢
    exact accepts_header hfits.reads hfits.bounded.milli hfits.difficulty
      (wrapSucc_of_lt hfits.number.2).symm rfl hs.contains_self
      (fun _ => hs.expectedDifficulty_eq.symm) ((hs.trimRecents _).not_signRecently _) (.inl rfl) hp
      (fun hn => by rw [hpv]; exact hvals hn)
      (by rw [hpa]; exact hadopted)
  obtain ⟨block, hof, hstep⟩ := applyHeader_of_accepts hverify hacc
    (parentChecks_header h hfits hlater _ _ _)
  refine ⟨_, p, hash, block, ⟨sealBytes, rfl⟩, hsealed, hpv, hpt, hpa, hof.milli, ?_, hof.source,
    sealOk_of_verify hverify, hacc, hstep⟩
  exact Except.ok.inj (hof.gasLimit.symm.trans hfits.reads.gasLimit)

theorem Sole.advance {sk : SecretKey P} {milli milli' : ℕ} {e : LightEngine}
    (h : Sole sk milli e) {l : Snapshot.Link} {b : Snapshot.Body} {block : VerifiedBlock}
    (hl : l.number = e.snapshot.number + 1)
    (hvals : (e.snapshot.next sk.address l b milli').validators = [sk.address])
    (hturn : (e.snapshot.next sk.address l b milli').turnLength = 8)
    (hmilli : block.milliTimestamp = milli') (hgas : block.gasLimit = mockGasLimit) :
    Sole sk milli' (e.advance (e.snapshot.next sk.address l b milli') block) where
  snapshot := h.snapshot.next hl hvals hturn
  tip := ⟨block, by rw [LightEngine.advance, getLast?_trimChain, List.getLast?_concat], hmilli, hgas⟩

end LightEngine

/-! ## The start -/

/-- The checkpoint at a sealed header, with one validator and its vote key. -/
def soleCheckpoint (sk : SecretKey P) (key : VoteKey) (d : Draft) (hash : Hash) : Checkpoint where
  chainId := bscMainnetChainId
  number := d.number
  hash := hexPrefixed hash.val
  parentHash := hexPrefixed d.parent.val
  stateRoot := hexPrefixed d.stateRoot.val
  timestamp := d.time
  forkId := "fermi"
  sealingSet := [formatAddress sk.address]
  voteKeys := some [hexPrefixed key.val]
  attestation := none

/-- The block of a sealed header. -/
def Draft.block (d : Draft) (miner : Address) (sealBytes : FixedBytes 65) (hash : Hash) :
    VerifiedBlock where
  number := d.number
  hash := hash
  stateRoot := d.stateRoot
  miner := miner
  milliTimestamp := d.milli
  gasLimit := mockGasLimit
  header := some (d.header miner sealBytes hash)

/-- The checkpoint is at the header. -/
structure Checkpoint.Names (cp : Checkpoint) (d : Draft) (hash : Hash) : Prop where
  number : cp.number = d.number
  hash : cp.hash = hexPrefixed hash.val
  parentHash : cp.parentHash = hexPrefixed d.parent.val
  stateRoot : cp.stateRoot = hexPrefixed d.stateRoot.val

theorem fromCheckpointAndHeader_block {sk : SecretKey P} {d : Draft} (hfits : d.Fits)
    {sealBytes : FixedBytes 65} {hash : Hash} {now : ℕ}
    (hverify : verifySealCoinbase P (d.header sk.address sealBytes hash) now = .ok sk.address)
    {cp : Checkpoint} {s : Snapshot} (hnames : cp.Names d hash) (hbasic : cp.validateBasic = .ok ())
    (hs : Snapshot.fromCheckpoint cp = .ok s) :
    LightEngine.fromCheckpointAndHeader P cp (d.header sk.address sealBytes hash) now =
      .ok ⟨cp, s, [d.block sk.address sealBytes hash], none, providerProofLookback⟩ := by
  obtain ⟨computed, hcomputed, hclaimed⟩ := (sealOk_of_verify hverify).hash_eq
  obtain rfl : hash = computed :=
    Except.ok.inj ((decodeHexFixed_hexPrefixed hash).symm.trans hclaimed)
  have heq : ∀ text, hexEq text text = true := fun text => by simp [hexEq]
  have hmatch : headerMatchesCheckpoint P cp (d.header sk.address sealBytes hash) = .ok () := by
    unfold headerMatchesCheckpoint
    rw [hcomputed, hnames.hash, hnames.parentHash, hnames.stateRoot]
    simp [hnames.number, Draft.header, hfits.reads.number, require_of, heq]
  have hmilli := Draft.milliTimestamp_header sk.address sealBytes hash hfits
  unfold LightEngine.fromCheckpointAndHeader
  rw [hbasic, hmatch, hverify, hs, hmilli, hnames.hash, hnames.stateRoot]
  simp [hnames.number, Draft.header, Draft.block, hfits.reads.gasLimit]

/-- An engine starts from the checkpoint and its header. -/
theorem exists_sole_engine (sk : SecretKey P) (key : VoteKey) {d : Draft} (hfits : d.Fits)
    (hlaid : d.LaidOut) :
    ∃ header hash e, LightEngine.fromCheckpointAndHeader P (soleCheckpoint sk key d hash) header
        d.time = .ok e ∧
      e.Sole sk d.milli ∧ e.snapshot.number = d.number ∧ e.snapshot.hash = hash ∧
      e.snapshot.voteSet = [⟨sk.address, key⟩] ∧ e.snapshot.pending = none ∧
      e.snapshot.attestation = none ∧ e.snapshot.setChangedAt = 0 ∧
      e.snapshot.ancestors = [(d.number, hash)] := by
  obtain ⟨sealBytes, hash, -, -, -, hverified⟩ := verifySealCoinbase_sealOne sk hfits hlaid
  obtain ⟨hepoch, -, hturn, -⟩ := paramsAt_of_maxwell d.number hfits.time.1
  have hbasic : (soleCheckpoint sk key d hash).validateBasic = .ok () := by
    simp [Checkpoint.validateBasic, soleCheckpoint, checkDistinct, formatAddress, require_of]
  have hsnapshot : ∃ s, Snapshot.fromCheckpoint (soleCheckpoint sk key d hash) = .ok s ∧
      s.validators = [sk.address] ∧ s.voteSet = [⟨sk.address, key⟩] := by
    simp [Snapshot.fromCheckpoint, soleCheckpoint, formatAddress, Snapshot.checkpointVoteSet,
      Snapshot.decodePairs, sortByAddress]
  obtain ⟨s, hs, hsvals, hsvotes⟩ := hsnapshot
  obtain ⟨hnumber, hhash, hepoch', hturn', hpend, -, hrecents, -, hchanged, hatt, -, -, hanc⟩ :=
    Snapshot.fromCheckpoint_ok hs
  have hhash' : s.hash = hash :=
    Except.ok.inj (hhash.symm.trans (decodeHexFixed_hexPrefixed hash))
  refine ⟨d.header sk.address sealBytes hash, hash, _,
    fromCheckpointAndHeader_block hfits (hverified _ le_rfl hfits.time.2) ⟨rfl, rfl, rfl, rfl⟩
      hbasic hs, ⟨⟨?_, ?_, ?_, ?_⟩, ?_⟩, ?_⟩
  · exact hsvals
  · exact hturn'.trans hturn
  · exact hepoch'.trans hepoch
  · intro r hr
    rw [hrecents] at hr
    cases hr
  · exact ⟨_, rfl, rfl, rfl⟩
  · refine ⟨hnumber, hhash', hsvotes, hpend, hatt, hchanged, ?_⟩
    rw [hanc, hhash', hnumber]
    rfl

/-! ## Stand-in primitives

Keccak is the real one. A signature of the first scheme is the public key itself; one of the second
starts with the aggregated key. -/

def mockPrimitives : Primitives where
  keccak256 := Types.keccak256
  recoverEcdsa _ signature _ := .ok (0x04 :: signature)
  keyValidate _ := true
  aggregate keys := some (keys.flatMap FixedBytes.val)
  sigValidate _ := true
  sigVerify signature _ _ pubkey := decide (signature.val.take pubkey.length = pubkey)

def mockKey (b : UInt8) : SecretKey mockPrimitives where
  pubkey := .repeated 64 b
  sign _ := (.repeated 64 b, 0)
  recovers _ := rfl

/-- The hash by rows, for evaluation. -/
def keccakRows (b : Bytes) : Hash :=
  ⟨Keccak.digestRows b, by rw [← Keccak.digest_eq_digestRows, Keccak.length_digest]⟩

theorem keccak256_eq_keccakRows : mockPrimitives.keccak256 = keccakRows := by
  funext b
  apply FixedBytes.ext
  exact Keccak.digest_eq_digestRows b

theorem mockKey_address_ne : (mockKey 1).address ≠ recentEpochSentinel := by
  unfold SecretKey.address
  rw [keccak256_eq_keccakRows]
  decide +kernel

/-- The records of the only validator, some times over. -/
def soleRecords (count turnLength : ℕ) : Bytes :=
  epochPart (List.replicate count ⟨(mockKey 1).address, .repeated 48 1⟩) turnLength []

theorem length_soleRecords {count : ℕ} (hcount : count ≤ 2) (turnLength : ℕ) :
    (soleRecords count turnLength).length ≤ 100000 := by
  rw [soleRecords, length_epochPart, List.length_replicate, List.length_nil]
  unfold validatorBytes
  omega

/-- `SEALED_CHAIN_START`. -/
def sealedChainStart : ℕ := 116664100

/-- A block with nothing in it, in the Fermi era. -/
def blankDraft (number : ℕ) : Draft where
  number := number
  parent := .repeated 32 0
  milli := 1770000000000
  stateRoot := .repeated 32 0
  difficulty := diffInTurn
  mid := []

/-- The vote of the only validator. -/
def soleVote (key : VoteKey) (data : VoteData) : VoteAttestation where
  voteAddressSet := 1
  aggSignature := ⟨key.val ++ List.replicate 48 0, by simp [key.len]⟩
  data := data
  extra := []

theorem soleVote_fits {key : VoteKey} {data : VoteData} (h : data.Fits) :
    (soleVote key data).Fits where
  set := Draft.small_lt_u64Size (by simp [soleVote])
  data := h
  extra := Nat.zero_le _

/-- The vote verifies against the voter's own key and no other. -/
theorem verify_soleVote (key key' : VoteKey) (data : VoteData) (address : Address) :
    verifyAttestationSignature mockPrimitives (soleVote key data) [⟨address, key'⟩] =
      if key' = key then .ok () else .error .signatureVerifyFailed := by
  have htake : (key.val ++ List.replicate 48 (0 : UInt8)).take key'.val.length = key.val :=
    List.take_left' (key.len.trans key'.len.symm)
  have hvoted : votedIndices 1 1 = .ok [0] := by rfl
  have hneed : minVotesForFinality 1 = 1 := by
    unfold minVotesForFinality satMul
    rw [u64Size_eq]
    rfl
  unfold verifyAttestationSignature
  simp only [soleVote, List.length_singleton, List.length_nil, Nat.zero_le, require_of, ok_bind,
    hvoted, ne_eq, List.cons_ne_nil, not_false_eq_true, validateKeys, List.getElem?_cons_zero,
    mockPrimitives, pure_eq_ok, hneed, le_refl, List.flatMap_cons, List.flatMap_nil,
    List.append_nil, htake]
  by_cases hkey : key' = key
  · subst hkey
    simp [require_of]
  · have hval : ¬ key.val = key'.val := fun hv => hkey (FixedBytes.ext hv.symm)
    simp [hkey, hval, require_of_not]

theorem blankDraft_fits {n : ℕ} (hlow : londonBlock ≤ n) (hhigh : n < 2 ^ 32) :
    (blankDraft n).Fits where
  number := ⟨hlow, Draft.small_lt_u64Size hhigh⟩
  milli := by
    rw [u64Size_eq]
    change maxwellTime * 1000 ≤ 1770000000000 ∧ 1770000000000 < 2 ^ 64
    decide
  difficulty := .inr rfl
  mid := Nat.zero_le _

theorem nextDraft_fits {e : LightEngine} {milli : ℕ} {mid : Bytes}
    (hnumber : londonBlock ≤ e.snapshot.number + 1 ∧ e.snapshot.number + 1 < 2 ^ 32)
    (hmilli : 1770000000000 ≤ milli ∧ milli < 1780000000000) (hmid : mid.length ≤ 100000) :
    (e.nextDraft milli mid).Fits where
  number := ⟨hnumber.1, Draft.small_lt_u64Size hnumber.2⟩
  milli := by
    have hmax : maxwellTime * 1000 ≤ 1770000000000 := by decide
    have hsize : (1780000000000 : ℕ) < u64Size := by
      rw [u64Size_eq]
      norm_num
    exact ⟨hmax.trans hmilli.1, hmilli.2.trans hsize⟩
  difficulty := .inr rfl
  mid := hmid

/-- A vote for the tip by the set that the snapshot asks is adopted. -/
theorem checkAttestation_soleVote {s : Snapshot} {key : VoteKey} {address : Address}
    {data : VoteData} {time : ℕ} (hfits : data.Fits)
    (hset : s.attestationSet data.targetNumber = [⟨address, key⟩])
    (hbelow : data.sourceNumber < data.targetNumber) (htarget : data.targetNumber = s.number)
    (hhash : s.ancestorHash data.targetNumber = some data.targetHash)
    (hsource : ∀ j, s.attestation = some j →
      data.sourceNumber = j.targetNumber ∧ data.sourceHash = j.targetHash) :
    s.checkAttestation mockPrimitives (soleVote key data).encode (s.number + 1) time =
      .ok (some data) := by
  refine Snapshot.checkAttestation_eq_ok.mpr (.inr ⟨soleVote key data,
    decodeVoteAttestation_encode (soleVote_fits hfits).typed, .inr ⟨?_, rfl⟩⟩)
  refine ⟨hbelow, ?_, ?_, hhash, hsource, ?_⟩
  · change s.attestationSet data.targetNumber ≠ []
    rw [hset]
    exact List.cons_ne_nil _ _
  · change _ ≤ data.targetNumber ∧ data.targetNumber ≤ _
    rw [htarget]
    unfold attestationTargetWindow
    simp only [Nat.add_sub_cancel]
    exact ⟨Nat.sub_le _ _, le_rfl⟩
  · change verifyAttestationSignature _ _ (s.attestationSet data.targetNumber) = _
    rw [hset, verify_soleVote, if_pos rfl]

theorem length_encode_soleVote_le {key : VoteKey} {data : VoteData} (h : data.Fits) :
    (soleVote key data).encode.length ≤ 1000 := by
  have h1 := length_encodeBytes_le (uintBytes (soleVote key data).voteAddressSet)
  have h2 := length_encodeBytes_le (soleVote key data).aggSignature.val
  have h3 := length_encodeList_le [encodeUint128 data.sourceNumber,
    encodeBytes data.sourceHash.val, encodeUint128 data.targetNumber,
    encodeBytes data.targetHash.val]
  have h4 := length_encodeBytes_le (soleVote key data).extra
  have h5 := length_uintBytes_le (@soleVote_fits key data h).set
  have h6 := (soleVote key data).aggSignature.len
  have h7 := VoteData.length_encode_payload h
  have h8 := length_encodeList_le [encodeUint128 (soleVote key data).voteAddressSet,
    encodeBytes (soleVote key data).aggSignature.val, (soleVote key data).data.encode,
    encodeBytes (soleVote key data).extra]
  have h9 : (soleVote key data).extra.length = 0 := rfl
  have h10 : (soleVote key data).data = data := rfl
  unfold VoteAttestation.encode
  rw [h10] at h8 ⊢
  simp only [encodeUint128_eq, VoteData.encode, List.flatten_cons, List.flatten_nil,
    List.length_append, List.length_nil] at h3 h7 h8 ⊢
  omega

theorem exists_start_engine (key : VoteKey) :
    ∃ header hash e, LightEngine.fromCheckpointAndHeader mockPrimitives
        (soleCheckpoint (mockKey 1) key (blankDraft sealedChainStart) hash) header 1770000000 =
        .ok e ∧
      e.Sole (mockKey 1) 1770000000000 ∧ e.snapshot.number = sealedChainStart ∧
      e.snapshot.hash = hash ∧ e.snapshot.voteSet = [⟨(mockKey 1).address, key⟩] ∧
      e.snapshot.pending = none ∧ e.snapshot.attestation = none ∧ e.snapshot.setChangedAt = 0 ∧
      e.snapshot.ancestors = [(sealedChainStart, hash)] :=
  exists_sole_engine (mockKey 1) key (blankDraft_fits (by decide) (by decide))
    (.inl (by decide))

/-- The engine accepts a header that carries the vote for the checkpoint block. -/
theorem exists_attested_step (key : VoteKey) :
    ∃ hash header₀ e header now data l b milli, LightEngine.fromCheckpointAndHeader mockPrimitives
        (soleCheckpoint (mockKey 1) key (blankDraft sealedChainStart) hash) header₀ 1770000000 =
        .ok e ∧
      e.snapshot.number = sealedChainStart ∧ data.targetNumber = sealedChainStart ∧
      b.parsed.validators = [] ∧
      b.parsed.attestation = (soleVote key data).encode ∧ (soleVote key data).Fits ∧
      b.adopted = some data ∧ SealOk mockPrimitives header now (mockKey 1).address ∧
      Snapshot.Accepts mockPrimitives e.snapshot header (mockKey 1).address l b milli ∧
      (LightEngine.step mockPrimitives e (header, now)).1 = .ok () := by
  obtain ⟨header₀, hash, e, he, hsole, hnumber, hhash, hvotes, -, hatt, hchanged, hanc⟩ :=
    exists_start_engine key
  have hsize : (sealedChainStart : ℕ) < u64Size := Draft.small_lt_u64Size (by decide)
  have hlt : sealedChainStart - 1 < sealedChainStart := by decide
  obtain ⟨data, hdata⟩ : ∃ data : VoteData,
      data = ⟨sealedChainStart - 1, .repeated 32 0, sealedChainStart, hash⟩ := ⟨_, rfl⟩
  have hfits : data.Fits := by
    rw [hdata]
    exact ⟨hlt.trans hsize, hsize⟩
  have hset : e.snapshot.attestationSet data.targetNumber = [⟨(mockKey 1).address, key⟩] := by
    rw [Snapshot.attestationSet, hchanged, if_neg (Nat.not_lt_zero _), hvotes]
  have hancestor : e.snapshot.ancestorHash data.targetNumber = some data.targetHash := by
    simp [Snapshot.ancestorHash, hanc, hdata]
  have hvote := fun time => @checkAttestation_soleVote e.snapshot key (mockKey 1).address data time
    hfits hset (by rw [hdata]; exact hlt) (by rw [hdata, hnumber]) hancestor
    (by rw [hatt]; rintro j ⟨⟩)
  have hplain : ¬ (e.snapshot.number + 1) % maxwellEpochLength = 0 := by
    rw [hnumber]
    decide
  obtain ⟨later, hlater, hin⟩ : ∃ later, 1770000000000 + 1000 ≤ later ∧
      1770000000000 ≤ later ∧ later < 1780000000000 := ⟨1770000001000, by norm_num⟩
  have hdraft : (e.nextDraft later (soleVote key data).encode).Fits :=
    nextDraft_fits (by rw [hnumber]; decide) hin
      ((length_encode_soleVote_le hfits).trans (by decide))
  have hcarries : (e.nextDraft later (soleVote key data).encode).Carries
      (decide ((e.snapshot.number + 1) % maxwellEpochLength = 0)) [] none
      (soleVote key data).encode := by
    rw [decide_eq_false hplain]
    exact e.nextDraft_carries later _
  obtain ⟨header, p, hash', block, -, -, hvals, -, hp, -, -, -, hseal, hacc, hstep⟩ :=
    hsole.step hdraft (.inl hplain) hlater hcarries (fun h => absurd h hplain) (hvote _)
  exact ⟨hash, header₀, e, header, _, data, _, _, _, he, hnumber, by rw [hdata], hvals, hp,
    soleVote_fits hfits, rfl, hseal, hacc, congrArg Prod.fst hstep⟩

end HeliosBsc
