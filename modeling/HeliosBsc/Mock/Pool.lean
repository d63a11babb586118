import HeliosBsc.Consensus.NewestSafe
import HeliosBsc.Mock.Activation
import HeliosBsc.Node.Walk

/-!
# A chain of many validators

Up to twenty-four validators, each of which seals at most one block after the checkpoint. A node
accepts every block of such a chain, so two branches from the checkpoint are both good.
-/

namespace HeliosBsc

open Checked

variable {P : Primitives}

/-! ## Short walks -/

/-- `members` may seal, and `used` have. -/
structure Snapshot.Members (members used : List Address) (s : Snapshot) : Prop where
  validators : ∀ a ∈ members, s.contains a = true
  count : s.validators.length = members.length
  size : 6 ≤ members.length ∧ members.length ≤ 24
  turn : s.turnLength = 8
  epoch : s.epochLength = maxwellEpochLength
  recents : ∀ e ∈ s.recents.entries, e.2 ∈ used ∨ e.2 = recentEpochSentinel

/-- The snapshot of a young chain. -/
structure Snapshot.Pool (members used : List Address) (s : Snapshot) : Prop
    extends Snapshot.Members members used s where
  pending : s.pending = none
  walkStart : s.walkStart = sealedChainStart + 1
  young : sealedChainStart ≤ s.number ∧ s.number ≤ sealedChainStart + 24

/-- The time of the block at a height. -/
def poolMilli (number : ℕ) : ℕ := 1770000000000 + 1000 * (number - sealedChainStart)

/-- The block a validator seals on top of a snapshot, in turn or not. -/
def poolDraft (s : Snapshot) (signer : Address) (root : Hash) : Draft where
  number := s.number + 1
  parent := s.hash
  milli := poolMilli (s.number + 1)
  stateRoot := root
  difficulty := s.expectedDifficulty signer
  mid := []

namespace Snapshot.Members

variable {members used : List Address} {s : Snapshot}

theorem delay_bounds (h : s.Members members used) : 25 ≤ s.delay ∧ s.delay < 2 ^ 32 := by
  have hsize := h.size
  unfold delay nSeal minerHistoryCheckLen
  rw [h.count, h.turn]
  split <;> omega

/-- While the window of recent sealers is not walked, no backoff is asked for. -/
theorem known_eq_false (h : s.Members members used) (hyoung : s.number - 25 + 1 < s.walkStart)
    (n : ℕ) : (s.trimRecents n).backoffContext.known = false := by
  have hdelay : 25 ≤ s.delay := h.delay_bounds.1
  have hwalk : (s.trimRecents n).recentsWindowWalked = false := by
    unfold recentsWindowWalked
    rw [decide_eq_false_iff_not]
    change ¬ s.walkStart ≤ satAdd (s.number - s.delay) 1
    unfold satAdd
    omega
  simp [backoffContext, hwalk]

theorem not_signRecently (h : s.Members members used) {signer : Address} (hfresh : signer ∉ used)
    (n : ℕ) : (s.trimRecents n).signRecently signer = false := by
  have hseen : (s.trimRecents n).seenTimes signer = 0 := by
    unfold seenTimes
    rw [List.length_eq_zero_iff, List.filter_eq_nil_iff]
    intro e he hcond
    obtain ⟨-, hmark, heq⟩ := of_decide_eq_true hcond
    rcases h.recents e (mem_of_mem_trimRecents he) with hused | hm
    · exact hfresh (heq ▸ hused)
    · exact hmark hm
  unfold signRecently
  rw [hseen]
  simp

/-- A header adds its sealer, and leaves the set as it is before an activation. -/
theorem next (h : s.Members members used) {signer : Address} {l : Link} {b : Body} {milli : ℕ}
    (hvals : (s.next signer l b milli).validators = s.validators)
    (hturn : (s.next signer l b milli).turnLength = s.turnLength) :
    (s.next signer l b milli).Members members (signer :: used) where
  validators := fun a ha => by
    rw [contains, hvals]
    exact h.validators a ha
  count := by
    rw [hvals]
    exact h.count
  size := h.size
  turn := hturn.trans h.turn
  epoch := by
    rw [next_epochLength, advanceEpochLength, h.epoch]
    simp [maxwellEpochLength, lorentzEpochLength, defaultEpochLength]
  recents := by
    intro e he
    rcases s.mem_next_recents signer l b milli he with hold | hnew | hmark
    · rcases h.recents e hold with hused | hm
      · exact .inl (List.mem_cons_of_mem _ hused)
      · exact .inr hm
    · rw [hnew]
      exact .inl List.mem_cons_self
    · exact .inr hmark

end Snapshot.Members

namespace Snapshot.Pool

variable {members used : List Address} {s : Snapshot}

theorem known_eq_false (h : s.Pool members used) (n : ℕ) :
    (s.trimRecents n).backoffContext.known = false := by
  refine h.toMembers.known_eq_false ?_ n
  have hyoung := h.young
  have hstart : sealedChainStart = 116664100 := rfl
  rw [h.walkStart]
  omega

theorem next (h : s.Pool members used) {signer : Address} {l : Link} {b : Body} {milli : ℕ}
    (hl : l.number = s.number + 1) (hroom : s.number < sealedChainStart + 24)
    (hplain : b.isEpoch = false) :
    (s.next signer l b milli).Pool members (signer :: used) := by
  have hpending : s.pendingDuring l b = none := by
    unfold pendingDuring
    rw [hplain]
    exact h.pending
  have hsets := s.next_sets signer l b milli
  rw [hpending] at hsets
  obtain ⟨p, hp, -⟩ | ⟨-, -, -, -, hvals, hturn, hpend⟩ := hsets
  · cases hp
  · refine ⟨h.toMembers.next hvals hturn, hpend, ?_, ?_⟩
    · rw [next_walkStart]
      exact h.walkStart
    · rw [next_number, hl]
      have hyoung := h.young
      omega

theorem mono (h : s.Pool members used) {used' : List Address} (hsub : used ⊆ used') :
    s.Pool members used' :=
  { h with recents := fun e he => (h.recents e he).imp_left fun hused => hsub hused }

theorem poolDraft_fits (h : s.Pool members used) (hroom : s.number < sealedChainStart + 24)
    (signer : Address) (root : Hash) : (poolDraft s signer root).Fits := by
  have hyoung := h.young
  have hstart : sealedChainStart = 116664100 := rfl
  have hsize : (2 : ℕ) ^ 32 < u64Size := by
    rw [u64Size_eq]
    norm_num
  have hlondon : londonBlock ≤ sealedChainStart := by decide
  have hmax : maxwellTime * 1000 ≤ 1770000000000 := by decide
  have hlate : (1780000000000 : ℕ) < u64Size := by
    rw [u64Size_eq]
    norm_num
  constructor
  · change londonBlock ≤ s.number + 1 ∧ s.number + 1 < u64Size
    omega
  · have hmilli : 1770000000000 ≤ poolMilli (s.number + 1) ∧
        poolMilli (s.number + 1) < 1780000000000 := by
      unfold poolMilli
      omega
    exact ⟨hmax.trans hmilli.1, hmilli.2.trans hlate⟩
  · change s.expectedDifficulty signer = _ ∨ s.expectedDifficulty signer = _
    unfold expectedDifficulty
    split
    · exact .inr rfl
    · exact .inl rfl
  · exact Nat.zero_le _

theorem poolMilli_succ (h : s.Pool members used) :
    poolMilli (s.number + 1) = poolMilli s.number + 1000 := by
  have hyoung := h.young
  unfold poolMilli
  omega

theorem plain (h : s.Pool members used) (hroom : s.number < sealedChainStart + 24) :
    (s.number + 1) % maxwellEpochLength ≠ 0 := by
  have hyoung := h.young
  have hstart : sealedChainStart = 116664100 := rfl
  unfold maxwellEpochLength
  omega

end Snapshot.Pool

/-- A chain and a snapshot of the pool, the last block at its time. -/
structure Synced.Pool (members used : List Address) (st : Synced) : Prop where
  snapshot : st.snapshot.Pool members used
  tip : ∃ b, st.chain.getLast? = some b ∧ b.milliTimestamp = poolMilli st.snapshot.number ∧
    b.gasLimit = mockGasLimit

/-- The next block of the pool, as a validator seals it. -/
structure PoolBlock (sk : SecretKey P) (s : Snapshot) (root : Hash) (block : VerifiedBlock) : Prop
    where
  number : block.number = s.number + 1
  miner : block.miner = sk.address
  milli : block.milliTimestamp = poolMilli (s.number + 1)
  gasLimit : block.gasLimit = mockGasLimit
  hash : ∃ digest, block.hash =
    P.keccak256 ((poolDraft s sk.address root).preimage sk.address (sk.sealOver digest))

/-- A validator that has not sealed yet extends the chain. -/
theorem Synced.Pool.append {members used : List Address} {st : Synced} (h : st.Pool members used)
    (hroom : st.snapshot.number < sealedChainStart + 24) {sk : SecretKey P}
    (hmember : sk.address ∈ members) (hfresh : sk.address ∉ used) (root : Hash) :
    ∃ call block s, appendHeader P st call = (.ok (), ⟨st.chain ++ [block], s⟩) ∧
      PoolBlock sk st.snapshot root block ∧ s.number = st.snapshot.number + 1 ∧
      Synced.Pool members (sk.address :: used) ⟨st.chain ++ [block], s⟩ := by
  have hs := h.snapshot
  obtain ⟨tip, htip, hmilli, hgas⟩ := h.tip
  have hfits := hs.poolDraft_fits hroom sk.address root
  have hplain := hs.plain hroom
  obtain ⟨sealBytes, hash, -, ⟨digest, rfl⟩, hhash, hverified⟩ :=
    verifySealCoinbase_sealOne sk hfits (.inl hplain)
  have hverify := hverified _ le_rfl hfits.time.2
  obtain ⟨p, hp, -, -, hpa⟩ := (poolDraft st.snapshot sk.address root).carries_plain
    (sk.sealOver digest)
  have hepoch : decide ((poolDraft st.snapshot sk.address root).number %
      st.snapshot.epochLength = 0) = false := by
    rw [hs.epoch]
    exact decide_eq_false hplain
  have hadopted : st.snapshot.checkAttestation P p.attestation
      (poolDraft st.snapshot sk.address root).number
      (poolDraft st.snapshot sk.address root).time = .ok none := by
    rw [hpa]
    rfl
  have hacc := @accepts_header P _ _ _ _ hash _ _ (some (hexQuantity 0)) hfits.reads
    hfits.bounded.milli hfits.difficulty
    (wrapSucc_of_lt hfits.number.2).symm rfl (hs.validators _ hmember) (fun _ => rfl)
    (hs.not_signRecently hfresh _) (.inr (hs.known_eq_false _)) (by rw [hepoch]; exact hp)
    (fun he => absurd he (by rw [hs.epoch]; exact hplain)) hadopted
  have hlater : tip.milliTimestamp + 1000 ≤ (poolDraft st.snapshot sk.address root).milli := by
    rw [hmilli]
    exact hs.poolMilli_succ.ge
  have hcascading := Draft.verifyCascadingVsParent_header sk.address (sk.sealOver digest) hash hfits
    hlater
  rw [← hgas] at hcascading
  obtain ⟨block, hof, happend⟩ := appendHeader_of_accepts hverify hacc htip hcascading
  have hblock : PoolBlock sk st.snapshot root block := by
    refine ⟨hof.number, hof.miner, hof.milli, ?_, digest, hof.hash.trans hhash⟩
    exact Except.ok.inj (hof.gasLimit.symm.trans hfits.reads.gasLimit)
  refine ⟨_, block, _, happend, hblock, rfl, ?_, block, List.getLast?_concat, ?_, hblock.gasLimit⟩
  · exact hs.next rfl hroom hepoch
  · exact hblock.milli

/-- Validators extend a chain one after the other, where each that has not sealed yet can. -/
theorem appendHeaders_of_append {members : List Address} {Inv : ℕ → List Address → Synced → Prop}
    (hstep : ∀ {k : ℕ} {used : List Address} {st : Synced} {sk : SecretKey P}, Inv k used st →
      k < 24 → sk.address ∈ members → sk.address ∉ used →
      ∃ call block s, appendHeader P st call = (.ok (), ⟨st.chain ++ [block], s⟩) ∧
        block.miner = sk.address ∧ Inv (k + 1) (sk.address :: used) ⟨st.chain ++ [block], s⟩)
    {k : ℕ} {used : List Address} {st : Synced} (h : Inv k used st) (keys : List (SecretKey P))
    (hroom : k + keys.length ≤ 24) (hmember : ∀ sk ∈ keys, sk.address ∈ members)
    (hnodup : (keys.map SecretKey.address).Nodup) (hfresh : ∀ sk ∈ keys, sk.address ∉ used) :
    ∃ calls blocks s, calls.length = keys.length ∧
      appendHeaders P st calls = (.ok (), ⟨st.chain ++ blocks, s⟩) ∧
      blocks.map VerifiedBlock.miner = keys.map SecretKey.address ∧
      Inv (k + keys.length) ((keys.map SecretKey.address).reverse ++ used)
        ⟨st.chain ++ blocks, s⟩ := by
  induction keys generalizing st used k with
  | nil => exact ⟨[], [], st.snapshot, rfl, by simp [appendHeaders], rfl, by simpa using h⟩
  | cons sk rest ih =>
    rw [List.map_cons, List.nodup_cons] at hnodup
    rw [List.length_cons] at hroom
    obtain ⟨call, block, s, happend, hminer, hnext⟩ := hstep h (by omega)
      (hmember sk List.mem_cons_self) (hfresh sk List.mem_cons_self)
    have hfresh' : ∀ key ∈ rest, key.address ∉ sk.address :: used := by
      intro key hkey hmem
      rcases List.mem_cons.mp hmem with heq | hused
      · exact hnodup.1 (List.mem_map.mpr ⟨key, hkey, heq⟩)
      · exact hfresh key (List.mem_cons_of_mem _ hkey) hused
    obtain ⟨calls, blocks, s', hlen, hall, hminers, hlast⟩ := ih hnext (by omega)
      (fun key hkey => hmember key (List.mem_cons_of_mem _ hkey)) hnodup.2 hfresh'
    rw [Nat.add_assoc, Nat.add_comm 1] at hlast
    refine ⟨call :: calls, block :: blocks, s', by rw [List.length_cons, hlen, List.length_cons],
      ?_, ?_, ?_⟩
    · rw [appendHeaders, happend]
      simpa using hall
    · rw [List.map_cons, List.map_cons, hminer, hminers]
    · simpa using hlast

theorem Synced.Pool.appendAll {members used : List Address} {st : Synced} (h : st.Pool members used)
    {k : ℕ} (hnumber : st.snapshot.number = sealedChainStart + k) (keys : List (SecretKey P))
    (hroom : k + keys.length ≤ 24) (hmember : ∀ sk ∈ keys, sk.address ∈ members)
    (hnodup : (keys.map SecretKey.address).Nodup) (hfresh : ∀ sk ∈ keys, sk.address ∉ used)
    (root : Hash) :
    ∃ calls blocks s, calls.length = keys.length ∧
      appendHeaders P st calls = (.ok (), ⟨st.chain ++ blocks, s⟩) ∧
      blocks.map VerifiedBlock.miner = keys.map SecretKey.address ∧
      Synced.Pool members ((keys.map SecretKey.address).reverse ++ used) ⟨st.chain ++ blocks, s⟩ ∧
      s.number = sealedChainStart + (k + keys.length) := by
  refine @appendHeaders_of_append P members (fun k used st => st.Pool members used ∧
    st.snapshot.number = sealedChainStart + k) ?_ _ _ _ ⟨h, hnumber⟩ keys hroom hmember hnodup hfresh
  intro k used st sk ⟨hpool, hat⟩ hk hin hnew
  obtain ⟨call, block, s, happend, hblock, hnext, hpool'⟩ := hpool.append (by omega) hin hnew root
  exact ⟨call, block, s, happend, hblock.miner, hpool', by rw [hnext, hat, Nat.add_assoc]⟩

theorem linkChecks_of_fork {s : Snapshot} {d : Draft} (hreads : d.Reads)
    (hnumber : d.number = s.number + 1) (hparent : d.parent ≠ s.hash) (signer : Address)
    (sealBytes : FixedBytes 65) (hash : Hash) :
    s.linkChecks (d.header signer sealBytes hash) signer = .error .parentHashMismatch := by
  have hother : decodeHexFixed 32 (d.header signer sealBytes hash).parentHash = .ok d.parent :=
    decodeHexFixed_hexPrefixed d.parent
  have hhash : decodeHexFixed 32 (d.header signer sealBytes hash).hash = .ok hash :=
    decodeHexFixed_hexPrefixed hash
  have hfollows : d.number = wrapSucc s.number := by
    have hfits := decodeU64_lt hreads.number
    rw [hnumber] at hfits ⊢
    exact (wrapSucc_of_lt hfits).symm
  unfold Snapshot.linkChecks
  rw [show decodeU64 (d.header signer sealBytes hash).number = .ok d.number from hreads.number,
    show decodeU64 (d.header signer sealBytes hash).timestamp = .ok d.time from hreads.time,
    hother, hhash]
  simp [require_of hfollows, require_of_not hparent]

theorem exists_blockBefore {d : Draft} (hfits : d.Fits) {chain : List VerifiedBlock}
    {prev : VerifiedBlock} (hprev : chain.getLast? = some prev) {signer : Address}
    {sealBytes : FixedBytes 65} {hash : Hash}
    (hcascading : verifyCascadingVsParent prev.milliTimestamp prev.gasLimit
      (d.header signer sealBytes hash) = .ok ()) :
    ∃ block, blockBefore chain (d.header signer sealBytes hash) = .ok block :=
  ⟨_, blockBefore_of hprev hcascading hfits.reads.number (decodeHexFixed_hexPrefixed hash)
    (decodeHexFixed_hexPrefixed d.stateRoot)
    (Draft.milliTimestamp_header signer sealBytes hash hfits) hfits.reads.gasLimit⟩

/-- A header of another branch, one above the snapshot, breaks the link and changes nothing. -/
theorem Synced.Pool.append_fork {members used : List Address} {st : Synced}
    (h : st.Pool members used) (hroom : st.snapshot.number < sealedChainStart + 24)
    (sk : SecretKey P) :
    ∃ call e, isLinkErr e = true ∧ appendHeader P st call = (.error e, st) := by
  have hs := h.snapshot
  obtain ⟨tip, htip, hmilli, hgas⟩ := h.tip
  obtain ⟨parent, hparent⟩ : ∃ parent : Hash, parent ≠ st.snapshot.hash := by
    by_cases hzero : st.snapshot.hash = .repeated 32 0
    · refine ⟨.repeated 32 1, ?_⟩
      rw [hzero]
      decide
    · exact ⟨_, Ne.symm hzero⟩
  obtain ⟨d, hd⟩ : ∃ d : Draft,
      d = { poolDraft st.snapshot sk.address default with parent := parent } := ⟨_, rfl⟩
  have hdnumber : d.number = st.snapshot.number + 1 := by
    rw [hd]
    rfl
  have hdparent : d.parent ≠ st.snapshot.hash := by
    rw [hd]
    exact hparent
  have hdmilli : d.milli = poolMilli (st.snapshot.number + 1) := by
    rw [hd]
    rfl
  have hfits : d.Fits := by
    have hpool := hs.poolDraft_fits hroom sk.address default
    rw [hd]
    exact ⟨hpool.number, hpool.milli, hpool.difficulty, hpool.mid⟩
  have hplain : d.number % maxwellEpochLength ≠ 0 := by
    rw [hdnumber]
    exact hs.plain hroom
  obtain ⟨sealBytes, hash, -, -, -, hverified⟩ := verifySealCoinbase_sealOne sk hfits (.inl hplain)
  have hverify := hverified _ le_rfl hfits.time.2
  have hlater : tip.milliTimestamp + 1000 ≤ d.milli := by
    rw [hmilli, hdmilli, hs.poolMilli_succ]
  have hcascading := Draft.verifyCascadingVsParent_header sk.address sealBytes hash hfits hlater
  rw [← hgas] at hcascading
  obtain ⟨block, hblock⟩ := exists_blockBefore hfits htip hcascading
  have hlink := linkChecks_of_fork hfits.reads hdnumber hdparent sk.address sealBytes hash
  have hphrase : (linkErrPhrases.any fun p =>
      containsText (asciiLowercase "parent hash mismatch") p) = true := by
    decide
  refine ⟨(d.header sk.address sealBytes hash, d.time),
    [s!"snapshot {(d.header sk.address sealBytes hash).number}", "parent hash mismatch"], ?_, ?_⟩
  · simp [isLinkErr, hphrase]
  · unfold appendHeader Snapshot.applyHeader Snapshot.applyVerified
    simp only [hblock, hverify, hlink]
    rfl

/-! ## The twenty-four validators -/

def poolKeys : List (SecretKey mockPrimitives) :=
  (List.range 24).map fun i => mockKey (UInt8.ofNat (i + 1))

def poolMembers : List Address := poolKeys.map SecretKey.address

theorem poolMembers_eq : poolMembers = (List.range 24).map fun i =>
    sliceFixed 20 (keccakRows (FixedBytes.repeated 64 (UInt8.ofNat (i + 1))).val).val 12 := by
  unfold poolMembers poolKeys
  rw [List.map_map, ← keccak256_eq_keccakRows]
  rfl

theorem nodup_poolMembers : poolMembers.Nodup := by
  rw [poolMembers_eq]
  decide +kernel

/-- The checkpoint of some validators at a header. -/
def poolCheckpoint (members : List Address) (d : Draft) (hash : Hash) : Checkpoint where
  chainId := bscMainnetChainId
  number := d.number
  hash := hexPrefixed hash.val
  parentHash := hexPrefixed d.parent.val
  stateRoot := hexPrefixed d.stateRoot.val
  timestamp := d.time
  forkId := "fermi"
  sealingSet := members.map formatAddress
  voteKeys := none
  attestation := none

theorem validateBasic_of_members {cp : Checkpoint} {d : Draft} {hash : Hash}
    {members : List Address} (hnames : cp.Names d hash) (hchain : cp.chainId = bscMainnetChainId)
    (hset : cp.sealingSet = members.map formatAddress) (hne : members ≠ [])
    (hnodup : members.Nodup) (hkeys : cp.voteKeys = none) : cp.validateBasic = .ok () := by
  have hdistinct : checkDistinct 20 .badSealingAddress .duplicateSealingAddress cp.sealingSet [] =
      .ok () := by
    rw [hset]
    exact checkDistinct_hexPrefixed.mpr ⟨hnodup, by simp⟩
  have hset' : cp.sealingSet ≠ [] := by
    rw [hset]
    simpa using hne
  unfold Checkpoint.validateBasic
  rw [require_of hchain, require_of hset', hdistinct, hnames.hash, hnames.parentHash,
    hnames.stateRoot, hkeys]
  simp

theorem mapM_formatAddress (l : List Address) :
    (l.map formatAddress).mapM (decodeHexFixed 20) = .ok l := by
  induction l with
  | nil => rfl
  | cons a l ih => simp [List.mapM_cons, formatAddress, ih]

theorem length_poolMembers : poolMembers.length = 24 := by
  simp [poolMembers, poolKeys]

theorem mockKey_sealOver (b : UInt8) (digest : Hash) :
    (mockKey b).sealOver digest = (mockKey b).sealOver default := rfl

/-- The hash of a blank block of the first validator. -/
def blankHash (n : ℕ) : Hash :=
  mockPrimitives.keccak256
    ((blankDraft n).preimage (mockKey 1).address ((mockKey 1).sealOver default))

/-- An engine at somebody's block, with the validators of the checkpoint. -/
theorem exists_engine_on {members : List Address} (hnodup : members.Nodup)
    (hsize : 6 ≤ members.length ∧ members.length ≤ 24) {sk : SecretKey P} {d : Draft}
    (hfits : d.Fits) {sealBytes : FixedBytes 65} {hash : Hash} {now : ℕ}
    (hverify : verifySealCoinbase P (d.header sk.address sealBytes hash) now = .ok sk.address) :
    ∃ e, LightEngine.fromCheckpointAndHeader P (poolCheckpoint members d hash)
        (d.header sk.address sealBytes hash) now = .ok e ∧
      e.synced.Linked ∧ e.snapshot.Members members [] ∧ e.snapshot.pending = none ∧
      e.snapshot.attestation = none ∧ e.snapshot.walkStart = satAdd d.number 1 ∧
      e.snapshot.enforceInturn = true ∧ e.snapshot.number = d.number ∧ e.snapshot.hash = hash ∧
      e.chain = [d.block sk.address sealBytes hash] := by
  have hlate : maxwellTime ≤ d.time := (Nat.le_div_iff_mul_le (by norm_num)).mpr hfits.milli.1
  obtain ⟨hepoch, -, hturn, -⟩ := paramsAt_of_maxwell d.number hlate
  have hmap := mapM_formatAddress members
  have hne : members ≠ [] := by
    rintro rfl
    exact absurd hsize.1 (by norm_num)
  have hnames : (poolCheckpoint members d hash).Names d hash := ⟨rfl, rfl, rfl, rfl⟩
  have hbasic := validateBasic_of_members hnames rfl rfl hne hnodup rfl
  have hsnapshot : ∃ s, Snapshot.fromCheckpoint (poolCheckpoint members d hash) = .ok s ∧
      s.validators = members.mergeSort FixedBytes.le := by
    simp [Snapshot.fromCheckpoint, poolCheckpoint, hmap, Snapshot.checkpointVoteSet]
  obtain ⟨s, hs, hvals⟩ := hsnapshot
  obtain ⟨hnumber, hhash, hepoch', hturn', hpending, henforce, hrecents, -, -, hattestation, -,
    hwalk, -⟩ := Snapshot.fromCheckpoint_ok hs
  have hshash : s.hash = hash :=
    Except.ok.inj (hhash.symm.trans (decodeHexFixed_hexPrefixed hash))
  have hengine := fromCheckpointAndHeader_block hfits hverify hnames hbasic hs
  have hmembers : s.Members members [] := by
    refine ⟨?_, ?_, hsize, hturn'.trans hturn, hepoch'.trans hepoch, ?_⟩
    · intro a ha
      rw [Snapshot.contains_iff, hvals]
      · exact List.mem_mergeSort.mpr ha
      · rw [hvals]
        exact List.pairwise_mergeSort FixedBytes.le_trans FixedBytes.le_total members
    · rw [hvals, List.length_mergeSort]
    · intro e he
      rw [hrecents] at he
      cases he
  refine ⟨_, hengine, ?_, hmembers, hpending, hattestation, hwalk, henforce, hnumber, hshash, rfl⟩
  exact ⟨List.isChain_singleton _, _, rfl, hnumber.symm, hshash.symm⟩

theorem exists_engine_at {members : List Address} (hnodup : members.Nodup)
    (hsize : 6 ≤ members.length ∧ members.length ≤ 24) {n : ℕ} (hfits : (blankDraft n).Fits)
    (hplain : n % maxwellEpochLength ≠ 0) :
    ∃ header e, LightEngine.fromCheckpointAndHeader mockPrimitives
        (poolCheckpoint members (blankDraft n) (blankHash n)) header 1770000000 = .ok e ∧
      e.synced.Linked ∧ e.snapshot.Members members [] ∧ e.snapshot.pending = none ∧
      e.snapshot.attestation = none ∧ e.snapshot.walkStart = satAdd n 1 ∧
      e.snapshot.enforceInturn = true ∧ e.snapshot.number = n ∧ e.snapshot.hash = blankHash n ∧
      ∃ genesis, e.chain = [genesis] ∧ genesis.number = n ∧
        genesis.milliTimestamp = 1770000000000 ∧ genesis.gasLimit = mockGasLimit := by
  obtain ⟨sealBytes, hash, -, ⟨digest, rfl⟩, hhash, hverified⟩ :=
    verifySealCoinbase_sealOne (mockKey 1) hfits (.inl hplain)
  rw [mockKey_sealOver, ← blankHash] at hhash
  have htime : (blankDraft n).time = 1770000000 := by norm_num [Draft.time, blankDraft]
  have hverify := hverified _ le_rfl hfits.time.2
  rw [hhash, htime] at hverify
  obtain ⟨e, he, hlinked, hmembers, hpending, hattestation, hwalk, henforce, hnumber, hehash,
    hchain⟩ := exists_engine_on hnodup hsize hfits hverify
  exact ⟨_, e, he, hlinked, hmembers, hpending, hattestation, hwalk, henforce, hnumber, hehash, _,
    hchain, rfl, rfl, rfl⟩

/-- The block at the start of the pool. -/
def poolGenesis : Hash := blankHash sealedChainStart

theorem exists_engine_of_members {members : List Address} (hnodup : members.Nodup)
    (hsize : 6 ≤ members.length ∧ members.length ≤ 24) :
    ∃ header e, LightEngine.fromCheckpointAndHeader mockPrimitives
        (poolCheckpoint members (blankDraft sealedChainStart) poolGenesis) header 1770000000 =
          .ok e ∧
      e.synced.Linked ∧ e.synced.Pool members [] ∧ e.snapshot.number = sealedChainStart ∧
      e.snapshot.hash = poolGenesis ∧ e.chain.length = 1 ∧ e.snapshot.enforceInturn = true := by
  obtain ⟨header, e, he, hlinked, hmembers, hpending, -, hwalk, henforce, hnumber, hhash, genesis,
    hchain, -, hmilli, hgas⟩ := exists_engine_at hnodup hsize
      (@blankDraft_fits sealedChainStart (by decide) (by decide)) (by decide)
  refine ⟨header, e, he, hlinked, ⟨⟨hmembers, hpending, ?_, ?_⟩, genesis, ?_, ?_, hgas⟩, hnumber,
    hhash, by rw [hchain]; rfl, henforce⟩
  · refine hwalk.trans (satAdd_of_lt ?_)
    exact Draft.small_lt_u64Size (by decide : sealedChainStart + 1 < 2 ^ 32)
  · change sealedChainStart ≤ e.snapshot.number ∧ e.snapshot.number ≤ sealedChainStart + 24
    rw [hnumber]
    exact ⟨le_rfl, Nat.le_add_right _ _⟩
  · change e.chain.getLast? = some genesis
    rw [hchain]
    rfl
  · change genesis.milliTimestamp = poolMilli e.snapshot.number
    rw [hmilli, hnumber, poolMilli, Nat.sub_self]

theorem exists_pool_engine :
    ∃ header e, LightEngine.fromCheckpointAndHeader mockPrimitives
        (poolCheckpoint poolMembers (blankDraft sealedChainStart) poolGenesis) header 1770000000 =
          .ok e ∧
      e.synced.Linked ∧ e.synced.Pool poolMembers [] ∧ e.snapshot.number = sealedChainStart ∧
      e.snapshot.hash = poolGenesis ∧ e.chain.length = 1 ∧ e.snapshot.enforceInturn = true :=
  exists_engine_of_members nodup_poolMembers (by rw [length_poolMembers]; norm_num)

/-- The turn length of the start is the one that seeding reads from the epoch header. -/
theorem exists_pool_seed {members : List Address} {s : Snapshot} {n : ℕ}
    (hmembers : s.Members members []) (hnumber : s.number = n) (hbefore : n < s.walkStart)
    (hn : n < u64Size) (hlondon : londonBlock + maxwellEpochLength ≤ n / 1000 * 1000)
    (hactive : 7 ≤ n % 1000) :
    ∃ epochHeader prevEpochHeader, ∀ headerByNumber : HeaderByNumber,
      headerByNumber 1 (n / 1000 * 1000) = .ok (epochHeader, 0) →
      headerByNumber 2 (n / 1000 * 1000 - 1000) = .ok (prevEpochHeader, 0) →
      seedEpochState headerByNumber s n = .ok s := by
  have hlength : maxwellEpochLength = 1000 := rfl
  obtain ⟨first, hfirst⟩ : ∃ first, first = n / 1000 * 1000 := ⟨_, rfl⟩
  rw [← hfirst] at hlondon ⊢
  obtain ⟨d, hd⟩ : ∃ d : Draft, d = { blankDraft first with
    mid := epochPart [⟨(mockKey 1).address, .repeated 48 1⟩] 8 [] } := ⟨_, rfl⟩
  have hfits : d.Fits := by
    have hblank := @blankDraft_fits sealedChainStart (by decide) (by decide)
    rw [hd]
    refine ⟨⟨?_, ?_⟩, hblank.milli, hblank.difficulty, ?_⟩
    · change londonBlock ≤ first
      omega
    · change first < u64Size
      omega
    · rw [length_epochPart, List.length_singleton, List.length_nil]
      decide
  have hepoch : first % maxwellEpochLength = 0 := by
    rw [hfirst, hlength]
    exact Nat.mul_mod_left _ _
  have hmid : d.mid = epochPart [⟨(mockKey 1).address, .repeated 48 1⟩] 8 [] := by rw [hd]
  have hdnumber : d.number = first := by rw [hd]; rfl
  obtain ⟨epochHeader, hread, -, hrecords⟩ :=
    Draft.exists_epochHeader hfits (by rw [hdnumber]; exact hepoch) (by norm_num) hmid
  rw [hdnumber] at hread
  obtain ⟨prevEpochHeader, hseed⟩ := @epochSeedAt_switched first n hepoch hlondon (by omega)
    (by omega) _ _ ⟨(mockKey 1).address, .repeated 48 1⟩ hread hrecords
  refine ⟨epochHeader, prevEpochHeader, ?_⟩
  intro headerByNumber hone htwo
  have hcond : ¬ (maxwellEpochLength = 0 ∨ first < maxwellEpochLength) := by omega
  have hturn : s.seedTurnLength 8 = .ok s := by
    have hstart : s.number < s.walkStart := by rwa [hnumber]
    unfold Snapshot.seedTurnLength
    rw [require_of hstart, ok_bind, if_pos (by norm_num), pure_eq_ok, ← hmembers.turn]
  have hboundary : n / maxwellEpochLength * maxwellEpochLength = first := hfirst.symm
  unfold seedEpochState
  rw [← hlength] at htwo
  simp only [hmembers.epoch, hboundary, if_neg hcond, hone, htwo, withContext, mapError_ok, ok_bind,
    hseed, hturn]

/-- A walk that ends at the checkpoint, where seeding changes nothing. -/
theorem walkFromCheckpoint_here {cp : Checkpoint} {header : RpcBlockHeader} {now : ℕ}
    {e : LightEngine} (he : LightEngine.fromCheckpointAndHeader P cp header now = .ok e)
    (hnumber : e.snapshot.number = cp.number) (henforce : e.snapshot.enforceInturn = true)
    {headerByNumber : HeaderByNumber} (headersRange : HeadersRange)
    (hheader : headerByNumber 0 cp.number = .ok (header, now))
    (hseed : seedEpochState headerByNumber e.snapshot cp.number = .ok e.snapshot) :
    walkFromCheckpoint P headerByNumber headersRange cp cp.number 0 = .ok e.synced := by
  have hsnapshot : { e.snapshot with enforceInturn := true } = e.snapshot := by
    rw [← henforce]
  have hlag : cp.number - cp.number ≤ 0 := (Nat.sub_self _).le
  have htip : ¬ e.snapshot.number < cp.number := by
    rw [hnumber]
    exact Nat.lt_irrefl _
  unfold walkFromCheckpoint walkFromCheckpointInturn
  simp only [require_of hlag, ok_bind, hheader, he, mapError_ok, hsnapshot, seedEnforced,
    if_true, hseed, LightEngine.tipNumber]
  exact if_neg htip

theorem exists_walk_at {members : List Address} {cp : Checkpoint} {header : RpcBlockHeader}
    {e : LightEngine}
    (he : LightEngine.fromCheckpointAndHeader mockPrimitives cp header 1770000000 = .ok e)
    (hmembers : e.snapshot.Members members []) (hnumber : e.snapshot.number = cp.number)
    (henforce : e.snapshot.enforceInturn = true) (hbefore : cp.number < e.snapshot.walkStart)
    (hn : cp.number < u64Size)
    (hlondon : londonBlock + maxwellEpochLength ≤ cp.number / 1000 * 1000)
    (hactive : 7 ≤ cp.number % 1000) :
    ∃ (headerByNumber : HeaderByNumber) (headersRange : HeadersRange),
      walkFromCheckpoint mockPrimitives headerByNumber headersRange cp cp.number 0 = .ok e.synced ∧
      headersRange.Unwrapped cp.number := by
  obtain ⟨epochHeader, prevEpochHeader, hseed⟩ :=
    exists_pool_seed hmembers hnumber hbefore hn hlondon hactive
  obtain ⟨headerByNumber, hfirst, hsecond, hthird⟩ : ∃ headerByNumber : HeaderByNumber,
      (∀ n, headerByNumber 0 n = .ok (header, 1770000000)) ∧
      (∀ n, headerByNumber 1 n = .ok (epochHeader, 0)) ∧
      ∀ n, headerByNumber 2 n = .ok (prevEpochHeader, 0) := by
    refine ⟨fun k _ => match k with
      | 0 => .ok (header, 1770000000)
      | 1 => .ok (epochHeader, 0)
      | _ => .ok (prevEpochHeader, 0), ?_, ?_, ?_⟩ <;> exact fun _ => rfl
  refine ⟨headerByNumber, fun _ _ => .error [], walkFromCheckpoint_here he hnumber henforce _
    (hfirst _) (hseed headerByNumber (hsecond _) (hthird _)), ?_⟩
  intro last headers _ hrange
  cases hrange

theorem exists_walk_of_members {members : List Address} (hnodup : members.Nodup)
    (hsize : 6 ≤ members.length ∧ members.length ≤ 24) : ∃ cp headerByNumber headersRange st,
    walkFromCheckpoint mockPrimitives headerByNumber headersRange cp sealedChainStart 0 = .ok st ∧
    headersRange.Unwrapped sealedChainStart ∧ st.Linked ∧ st.Pool members [] ∧
    st.snapshot.number = sealedChainStart ∧ st.chain.length = 1 := by
  obtain ⟨header, e, he, hlinked, hpool, hnumber, -, hlength, henforce⟩ :=
    exists_engine_of_members hnodup hsize
  obtain ⟨headerByNumber, headersRange, hwalk, hunwrapped⟩ := exists_walk_at he
    hpool.snapshot.toMembers hnumber henforce
    (by rw [show e.snapshot.walkStart = _ from hpool.snapshot.walkStart]; exact Nat.lt_succ_self _)
    (Draft.small_lt_u64Size (by decide : sealedChainStart < 2 ^ 32))
    (show londonBlock + maxwellEpochLength ≤ sealedChainStart / 1000 * 1000 by decide)
    (show 7 ≤ sealedChainStart % 1000 by decide)
  exact ⟨_, headerByNumber, headersRange, e.synced, hwalk, hunwrapped, hlinked, hpool, hnumber,
    hlength⟩

theorem exists_pool_walk : ∃ cp headerByNumber headersRange st,
    walkFromCheckpoint mockPrimitives headerByNumber headersRange cp sealedChainStart 0 = .ok st ∧
    headersRange.Unwrapped sealedChainStart ∧ st.Linked ∧ st.Pool poolMembers [] ∧
    st.snapshot.number = sealedChainStart ∧ st.chain.length = 1 :=
  exists_walk_of_members nodup_poolMembers (by rw [length_poolMembers]; norm_num)

theorem Synced.Pool.sealAll {members : List Address} {st : Synced} (h : st.Pool members [])
    (hnumber : st.snapshot.number = sealedChainStart) (root : Hash) {m : ℕ} (hm : m ≤ 24)
    (hmembers : poolMembers.take m ⊆ members) :
    ∃ calls blocks s, calls.length = m ∧
      appendHeaders mockPrimitives st calls = (.ok (), ⟨st.chain ++ blocks, s⟩) ∧
      s.number = sealedChainStart + m ∧ blocks.length = m ∧
      (blocks.map VerifiedBlock.miner).Nodup ∧
      Synced.Pool members (poolMembers.take m).reverse ⟨st.chain ++ blocks, s⟩ := by
  have hcount : (poolKeys.take m).length = m := by
    rw [List.length_take, poolKeys, List.length_map, List.length_range]
    omega
  have hnodup := nodup_poolMembers.sublist (List.take_sublist m poolMembers)
  rw [poolMembers, ← List.map_take] at hmembers hnodup
  obtain ⟨calls, blocks, s, hcalls, happend, hminers, hpool, hnumber'⟩ := h.appendAll (k := 0)
    hnumber (poolKeys.take m) (by rw [hcount]; omega)
    (fun sk hk => hmembers (List.mem_map.mpr ⟨sk, hk, rfl⟩)) hnodup (by simp) root
  rw [List.append_nil, List.map_take] at hpool
  rw [Nat.zero_add, hcount] at hnumber'
  refine ⟨calls, blocks, s, hcalls.trans hcount, happend, hnumber', ?_, ?_, hpool⟩
  · rw [← hcount, ← List.length_map, hminers, List.length_map]
  · rw [hminers]
    exact hnodup

/-- Sixteen of the validators seal a block each after the checkpoint. -/
theorem exists_sealed_of_members {members : List Address} (hnodup : members.Nodup)
    (hsize : 6 ≤ members.length ∧ members.length ≤ 24) (hmembers : poolMembers.take 16 ⊆ members) :
    ∃ cp headerByNumber headersRange st₀ call,
    walkFromCheckpoint mockPrimitives headerByNumber headersRange cp sealedChainStart 0 =
      .ok st₀ ∧
    headersRange.Unwrapped sealedChainStart ∧ call.Unwrapped ∧
    ∃ genesis blocks s, appendStep mockPrimitives st₀ call = (.ok (), ⟨genesis :: blocks, s⟩) ∧
      distinctSealers blocks = 16 ∧ s.validators.length = members.length := by
  obtain ⟨cp, headerByNumber, headersRange, st₀, hwalk, hunwrapped, hlinked, hpool, hnumber,
    hlength⟩ := exists_walk_of_members hnodup hsize
  obtain ⟨genesis, hgenesis⟩ := List.length_eq_one_iff.mp hlength
  obtain ⟨calls, blocks, s, hcalls, happend, -, hblocks, hminers, hpool'⟩ :=
    hpool.sealAll hnumber (.repeated 32 0) (show 16 ≤ 24 by norm_num) hmembers
  refine ⟨cp, headerByNumber, headersRange, st₀,
    ⟨fun _ _ => .ok calls, lastNumber st₀.chain + 1⟩, hwalk, hunwrapped, ?_, genesis, blocks, s, ?_,
    (distinctSealers_of_nodup hminers).trans hblocks, hpool'.snapshot.count⟩
  · refine .of_length (fun start headers hrange => ?_) (Draft.small_lt_u64Size
      (by rw [hlinked.lastNumber_eq, hnumber]; decide : lastNumber st₀.chain + 1 + 16 < 2 ^ 32))
    cases hrange
    exact hcalls.le
  · rw [hgenesis, List.singleton_append] at happend
    apply appendSynced_ok (Nat.lt_succ_self _) rfl happend
    rw [List.length_cons, hblocks]
    norm_num

theorem exists_pool_sealed : ∃ cp headerByNumber headersRange st₀ call,
    walkFromCheckpoint mockPrimitives headerByNumber headersRange cp sealedChainStart 0 =
      .ok st₀ ∧
    headersRange.Unwrapped sealedChainStart ∧ call.Unwrapped ∧
    ∃ genesis blocks s, appendStep mockPrimitives st₀ call = (.ok (), ⟨genesis :: blocks, s⟩) ∧
      distinctSealers blocks = 16 ∧ s.validators.length = 24 := by
  have hsealed := exists_sealed_of_members nodup_poolMembers (by rw [length_poolMembers]; norm_num)
    (List.take_subset 16 _)
  rwa [length_poolMembers] at hsealed

/-- The hash of a first block after the start. -/
def firstHash (difficulty : ℕ) (root : Hash) : Hash :=
  mockPrimitives.keccak256 (Draft.preimage ⟨sealedChainStart + 1, poolGenesis,
    poolMilli (sealedChainStart + 1), root, difficulty, []⟩ (mockKey 1).address
    ((mockKey 1).sealOver default))

/-- The same, by rows. -/
def firstHashRows (difficulty : ℕ) (root : Hash) : Hash :=
  let address := sliceFixed 20 (keccakRows (FixedBytes.repeated 64 1).val).val 12
  keccakRows (Draft.preimage ⟨sealedChainStart + 1,
    keccakRows ((blankDraft sealedChainStart).preimage address ((mockKey 1).sealOver default)),
    poolMilli (sealedChainStart + 1), root, difficulty, []⟩ address ((mockKey 1).sealOver default))

theorem firstHash_eq (difficulty : ℕ) (root : Hash) :
    firstHash difficulty root = firstHashRows difficulty root := by
  unfold firstHash poolGenesis blankHash SecretKey.address firstHashRows
  rw [keccak256_eq_keccakRows]
  simp only [mockKey]

theorem firstHashRows_ne : ∀ difficulty ∈ [diffNoTurn, diffInTurn],
    firstHashRows difficulty (.repeated 32 0) ≠ firstHashRows difficulty (.repeated 32 1) := by
  decide +kernel

theorem firstHash_ne {difficulty : ℕ} (h : difficulty = diffNoTurn ∨ difficulty = diffInTurn) :
    firstHash difficulty (.repeated 32 0) ≠ firstHash difficulty (.repeated 32 1) := by
  rw [firstHash_eq, firstHash_eq]
  exact firstHashRows_ne difficulty (by simpa using h)

/-- A branch from the start of the pool, a block of each validator in order. Its first block depends
on the state root alone. -/
theorem Synced.Pool.branch {st : Synced} (h : st.Pool poolMembers [])
    (hnumber : st.snapshot.number = sealedChainStart) (hhash : st.snapshot.hash = poolGenesis)
    (root : Hash) {m : ℕ} (hm : m < 24) :
    ∃ calls first rest s, calls.length = m + 1 ∧
      appendHeaders mockPrimitives st calls = (.ok (), ⟨st.chain ++ first :: rest, s⟩) ∧
      s.number = sealedChainStart + (m + 1) ∧ rest.length = m ∧
      (rest.map VerifiedBlock.miner).Nodup ∧
      Synced.Pool poolMembers (poolMembers.take (m + 1)).reverse ⟨st.chain ++ first :: rest, s⟩ ∧
      first.number = sealedChainStart + 1 ∧
      first.hash = firstHash (st.snapshot.expectedDifficulty (mockKey 1).address) root := by
  have hkeys : poolKeys.take (m + 1) = mockKey 1 :: poolKeys.tail.take m := rfl
  have hcount : (poolKeys.tail.take m).length = m := by
    rw [List.length_take, List.length_tail, poolKeys, List.length_map, List.length_range]
    omega
  have hall : (poolKeys.take (m + 1)).map SecretKey.address = poolMembers.take (m + 1) := by
    rw [List.map_take, poolMembers]
  have hnodup := nodup_poolMembers.sublist (List.take_sublist (m + 1) poolMembers)
  have hmember : ∀ sk ∈ poolKeys.take (m + 1), sk.address ∈ poolMembers := fun sk hk =>
    List.mem_map_of_mem (List.mem_of_mem_take hk)
  rw [hkeys] at hmember
  rw [← hall, hkeys, List.map_cons] at hnodup ⊢
  obtain ⟨hnew, hrest⟩ := List.nodup_cons.mp hnodup
  obtain ⟨call, first, s, happend, hblock, hat, hpool⟩ := h.append (by omega)
    (hmember _ List.mem_cons_self) (List.not_mem_nil) root
  obtain ⟨calls, rest, s', hcalls, happend', hminers, hpool', hat'⟩ := hpool.appendAll
    (hat.trans (by rw [hnumber])) (poolKeys.tail.take m) (by rw [hcount]; omega)
    (fun sk hk => hmember sk (List.mem_cons_of_mem _ hk)) hrest
    (fun sk hk hused => hnew (List.mem_map.mpr ⟨sk, hk, List.mem_singleton.mp hused⟩)) root
  have hdraft : poolDraft st.snapshot (mockKey 1).address root =
      ⟨sealedChainStart + 1, poolGenesis, poolMilli (sealedChainStart + 1), root,
        st.snapshot.expectedDifficulty (mockKey 1).address, []⟩ := by
    unfold poolDraft
    rw [hnumber, hhash]
  refine ⟨call :: calls, first, rest, s', ?_, ?_, ?_, ?_, ?_, ?_, ?_, ?_⟩
  · rw [List.length_cons, hcalls, hcount]
  · rw [appendHeaders, happend]
    simpa using happend'
  · rw [hat', hcount, Nat.add_comm 1]
  · rw [← List.length_map, hminers, List.length_map, hcount]
  · rw [hminers]
    exact hrest
  · simpa using hpool'
  · rw [hblock.number, hnumber]
  · obtain ⟨digest, hash⟩ := hblock.hash
    rw [hash, mockKey_sealOver, hdraft, firstHash]

end HeliosBsc
