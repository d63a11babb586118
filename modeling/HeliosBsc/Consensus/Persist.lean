import HeliosBsc.Mock.Activation

/-!
# Persist and restore

`last_verified_checkpoint` writes the tip of an engine out as a checkpoint, and `from_checkpoint`
reads it back. The writer puts down whatever set the epoch headers have installed; the reader asks
for distinct addresses and distinct vote keys. The seal checks refuse an epoch header with two equal
addresses, but nothing on the way looks at its vote keys.
-/

namespace HeliosBsc

open Checked

/-! ## Sets in order -/

theorem map_address_sortByAddress (vals : List SealingValidator) :
    (sortByAddress vals).map SealingValidator.address =
      (vals.map SealingValidator.address).mergeSort FixedBytes.le :=
  List.map_mergeSort fun _ _ _ _ => rfl

theorem perm_sortByAddress (vals : List SealingValidator) : (sortByAddress vals).Perm vals :=
  List.mergeSort_perm vals _

theorem pairwise_mergeSort_le (l : List Address) :
    (l.mergeSort FixedBytes.le).Pairwise fun a b => a.le b = true :=
  List.pairwise_mergeSort FixedBytes.le_trans FixedBytes.le_total l

/-- Sorting pairs that are already in order changes nothing. -/
theorem sortByAddress_of_ordered {vals : List SealingValidator}
    (h : (vals.map SealingValidator.address).Pairwise fun a b => a.le b = true) :
    sortByAddress vals = vals :=
  List.mergeSort_of_pairwise (List.pairwise_map.mp h)

namespace Snapshot

theorem decodePairs_hexPrefixed (vals : List SealingValidator) :
    decodePairs ((vals.map SealingValidator.address).zip
      (vals.map fun v => hexPrefixed v.voteKey.val)) = .ok vals := by
  induction vals with
  | nil => rfl
  | cons v rest ih =>
    rw [List.map_cons, List.map_cons, List.zip_cons_cons, decodePairs, ih]
    simp

theorem map_address_of_decodePairs {addrs : List Address} {keys : List String}
    {vals : List SealingValidator} (hlen : keys.length = addrs.length)
    (h : decodePairs (addrs.zip keys) = .ok vals) :
    vals.map SealingValidator.address = addrs := by
  induction addrs generalizing keys vals with
  | nil =>
    cases h
    rfl
  | cons a rest ih =>
    cases keys with
    | nil => simp at hlen
    | cons key keys =>
      simp only [List.zip_cons_cons, decodePairs, bind_eq_ok, pure_eq_ok, Except.ok.injEq] at h
      obtain ⟨k, -, tail, ht, rfl⟩ := h
      rw [List.map_cons, ih (by simpa using hlen) ht]

theorem map_voteKey_of_decodePairs {addrs : List Address} {keys : List String}
    {vals : List SealingValidator} {decoded : List VoteKey} (hlen : keys.length = addrs.length)
    (h : decodePairs (addrs.zip keys) = .ok vals) (hkeys : keys.mapM (decodeHexFixed 48) = .ok decoded) :
    vals.map SealingValidator.voteKey = decoded := by
  induction addrs generalizing keys vals decoded with
  | nil =>
    obtain rfl : keys = [] := List.eq_nil_of_length_eq_zero hlen
    cases h
    cases hkeys
    rfl
  | cons a rest ih =>
    cases keys with
    | nil => simp at hlen
    | cons key keys =>
      simp only [List.zip_cons_cons, decodePairs, bind_eq_ok, mapError_eq_ok, pure_eq_ok,
        Except.ok.injEq] at h
      simp only [List.mapM_cons, bind_eq_ok, pure_eq_ok, Except.ok.injEq] at hkeys
      obtain ⟨k, hk, tail, ht, rfl⟩ := h
      obtain ⟨k', hk', rest', hrest, rfl⟩ := hkeys
      obtain rfl : k = k' := Except.ok.inj (hk.symm.trans hk')
      rw [List.map_cons, ih (by simpa using hlen) ht hrest]

/-- The validators are in order, and the vote set, where it is known, lists them in that order. -/
structure Aligned (s : Snapshot) : Prop where
  ordered : s.validators.Pairwise fun a b => a.le b = true
  votes : s.voteSet = [] ∨ s.voteSet.map SealingValidator.address = s.validators
  announced : ∀ p, s.pending = some p → p.validators.Pairwise (fun a b => a.le b = true) ∧
    (pendingVoteSet p).map SealingValidator.address = p.validators

theorem aligned_nextPending (s : Snapshot) (number : ℕ) (parsed : ParsedExtra) :
    (s.nextPending number parsed).validators.Pairwise (fun a b => a.le b = true) ∧
      (pendingVoteSet (s.nextPending number parsed)).map SealingValidator.address =
        (s.nextPending number parsed).validators := by
  rw [pendingVoteSet_nextPending]
  refine ⟨?_, rfl⟩
  change ((sortByAddress parsed.validators).map SealingValidator.address).Pairwise _
  rw [map_address_sortByAddress]
  exact pairwise_mergeSort_le _

theorem Aligned.next {s : Snapshot} (h : Aligned s) (signer : Address) (l : Link) (b : Body)
    (milli : ℕ) : Aligned (s.next signer l b milli) := by
  have hduring : ∀ p, s.pendingDuring l b = some p →
      p.validators.Pairwise (fun a b => a.le b = true) ∧
        (pendingVoteSet p).map SealingValidator.address = p.validators := by
    intro p hp
    unfold pendingDuring at hp
    split at hp
    · rw [← Option.some.inj hp]
      exact s.aligned_nextPending l.number b.parsed
    · exact h.announced p hp
  rcases s.next_sets signer l b milli with
    ⟨p, hp, -, hvote, -, -, hvals, -, hpend⟩ | ⟨-, hvote, -, -, hvals, -, hpend⟩
  · obtain ⟨hordered, haddrs⟩ := hduring p hp
    refine ⟨by rwa [hvals], .inr (by rw [hvote, hvals, haddrs]), fun q hq => ?_⟩
    rw [hpend] at hq
    cases hq
  · refine ⟨by rw [hvals]; exact h.ordered, by rw [hvote, hvals]; exact h.votes, fun q hq => ?_⟩
    rw [hpend] at hq
    exact hduring q hq

/-- What `validate_basic` asks of a set, for the set in force and the announced one. -/
structure Distinct (s : Snapshot) : Prop where
  nonempty : s.validators ≠ []
  validators : s.validators.Nodup
  voteKeys : (s.voteSet.map SealingValidator.voteKey).Nodup
  announced : ∀ p, s.pending = some p → p.validators ≠ [] ∧ p.validators.Nodup ∧
    ((pendingVoteSet p).map SealingValidator.voteKey).Nodup

/-- The set that a header announces, read as the snapshot reads it. -/
def announcedSet (s : Snapshot) (header : RpcBlockHeader) : List SealingValidator :=
  match decodeU64 header.number, decodeHex header.extraData with
  | .ok number, .ok extra =>
    match parseExtra extra .bohr (decide (number % s.epochLength = 0)) with
    | .ok parsed => parsed.validators
    | .error _ => []
  | _, _ => []

theorem Accepts.announcedSet_eq {P : Primitives} {s : Snapshot} {header : RpcBlockHeader}
    {signer : Address} {l : Link} {b : Body} {milli : ℕ}
    (h : Accepts P s header signer l b milli) : s.announcedSet header = b.parsed.validators := by
  obtain ⟨extra, hextra, hparsed⟩ := h.body.parsed
  have hepoch : b.isEpoch = decide (l.number % s.epochLength = 0) := h.body.isEpoch
  unfold announcedSet
  rw [h.link.number, hextra]
  simp only
  rw [← hepoch, hparsed]

/-- No two records of the announced set share an address or a vote key. -/
def AnnouncesDistinct (s : Snapshot) (header : RpcBlockHeader) : Prop :=
  ((s.announcedSet header).map SealingValidator.address).Nodup ∧
    ((s.announcedSet header).map SealingValidator.voteKey).Nodup

theorem Distinct.next {P : Primitives} {s : Snapshot} {header : RpcBlockHeader} {signer : Address}
    {l : Link} {b : Body} {milli : ℕ} (h : Distinct s) (hacc : Accepts P s header signer l b milli)
    (hnew : s.AnnouncesDistinct header) : Distinct (s.next signer l b milli) := by
  unfold AnnouncesDistinct at hnew
  rw [hacc.announcedSet_eq] at hnew
  have hduring : ∀ p, s.pendingDuring l b = some p → p.validators ≠ [] ∧ p.validators.Nodup ∧
      ((pendingVoteSet p).map SealingValidator.voteKey).Nodup := by
    intro p hp
    unfold pendingDuring at hp
    split at hp
    · next hepoch =>
      have hperm := perm_sortByAddress b.parsed.validators
      rw [← Option.some.inj hp, pendingVoteSet_nextPending]
      refine ⟨?_, (hperm.map _).nodup_iff.mpr hnew.1, (hperm.map _).nodup_iff.mpr hnew.2⟩
      simpa [nextPending] using sortByAddress_ne_nil (hacc.body.validators hepoch)
    · exact h.announced p hp
  rcases s.next_sets signer l b milli with
    ⟨p, hp, -, hvote, -, -, hvals, -, hpend⟩ | ⟨-, hvote, -, -, hvals, -, hpend⟩
  · obtain ⟨hne, haddrs, hkeys⟩ := hduring p hp
    refine ⟨by rwa [hvals], by rwa [hvals], by rwa [hvote], fun q hq => ?_⟩
    rw [hpend] at hq
    cases hq
  · refine ⟨by rw [hvals]; exact h.nonempty, by rw [hvals]; exact h.validators,
      by rw [hvote]; exact h.voteKeys, fun q hq => ?_⟩
    rw [hpend] at hq
    exact hduring q hq

theorem aligned_fromCheckpoint {cp : Checkpoint} {s : Snapshot} (h : fromCheckpoint cp = .ok s) :
    Aligned s := by
  simp only [fromCheckpoint, bind_eq_ok, mapError_eq_ok, pure_eq_ok, Except.ok.injEq] at h
  obtain ⟨addrs, -, votes, hvotes, hash, -, rfl⟩ := h
  refine ⟨pairwise_mergeSort_le addrs, ?_, by rintro p ⟨⟩⟩
  change votes = [] ∨ votes.map SealingValidator.address = addrs.mergeSort FixedBytes.le
  unfold checkpointVoteSet at hvotes
  split at hvotes
  · next keys _ =>
    split at hvotes
    · next hlen =>
      obtain ⟨pairs, hpairs, rfl⟩ := map_eq_ok.mp hvotes
      right
      rw [map_address_sortByAddress, map_address_of_decodePairs hlen hpairs]
    · exact .inl (Except.ok.inj hvotes).symm
  · exact .inl (Except.ok.inj hvotes).symm

/-- A checkpoint that passes `validate_basic` gives distinct addresses and keys. -/
theorem distinct_fromCheckpoint {cp : Checkpoint} {s : Snapshot}
    (hbasic : cp.validateBasic = .ok ()) (h : fromCheckpoint cp = .ok s) : Distinct s := by
  simp only [Checkpoint.validateBasic, bind_eq_ok, require_eq_ok] at hbasic
  obtain ⟨-, -, -, hne, ⟨⟩, hdistinct, -, -, -, -, -, -, hkeys⟩ := hbasic
  obtain ⟨addrs, haddrs, hnodup, -⟩ := exists_of_checkDistinct hdistinct
  simp only [fromCheckpoint, bind_eq_ok, mapError_eq_ok, pure_eq_ok, Except.ok.injEq, haddrs] at h
  obtain ⟨addrs', rfl, votes, hvotes, hash, -, rfl⟩ := h
  have hperm : (addrs.mergeSort FixedBytes.le).Perm addrs := List.mergeSort_perm addrs _
  have hcount := length_of_mapM_eq_ok haddrs
  refine ⟨?_, hperm.nodup_iff.mpr hnodup, ?_, by rintro p ⟨⟩⟩
  · change addrs.mergeSort FixedBytes.le ≠ []
    rw [← List.length_pos_iff, hperm.length_eq, hcount]
    exact List.length_pos_iff.mpr hne
  · change (votes.map SealingValidator.voteKey).Nodup
    unfold checkpointVoteSet at hvotes
    cases hk : cp.voteKeys with
    | none =>
      rw [hk] at hvotes
      rw [← Except.ok.inj hvotes]
      exact List.nodup_nil
    | some keys =>
      simp only [hk, bind_eq_ok, require_eq_ok] at hvotes hkeys
      obtain ⟨-, hlen, hdistinctKeys⟩ := hkeys
      obtain ⟨decoded, hdecoded, hnodupKeys, -⟩ := exists_of_checkDistinct hdistinctKeys
      rw [← hcount] at hlen
      rw [if_pos hlen] at hvotes
      obtain ⟨pairs, hpairs, rfl⟩ := map_eq_ok.mp hvotes
      rw [((perm_sortByAddress pairs).map _).nodup_iff,
        map_voteKey_of_decodePairs hlen hpairs hdecoded]
      exact hnodupKeys

end Snapshot

/-! ## The header of the tip -/

theorem headerHash_reads {P : Primitives} {header : RpcBlockHeader} {hash : Hash}
    (h : headerHash P header = .ok hash) :
    (∃ parent, decodeHexFixed 32 header.parentHash = .ok parent) ∧
      (∃ root, decodeHexFixed 32 header.stateRoot = .ok root) ∧
      ∃ time, decodeU64 header.timestamp = .ok time := by
  unfold headerHash at h
  cases hp : headerPreimage header with
  | error e => simp [hp, Except.map] at h
  | ok bytes =>
    simp only [headerPreimage, bind_eq_ok, mapError_eq_ok] at hp
    obtain ⟨parent, hparent, -, -, -, -, root, hroot, -, -, -, -, -, -, -, -, -, -, -, -, -, -, time,
      htime, -⟩ := hp
    exact ⟨⟨parent, hparent⟩, ⟨root, hroot⟩, ⟨time, htime⟩⟩

namespace LightEngine

/-- The last block of the chain stores the header it was made of, and the snapshot is at it. -/
structure TipHeader (P : Primitives) (e : LightEngine) (block : VerifiedBlock)
    (header : RpcBlockHeader) : Prop where
  last : e.chain.getLast? = some block
  stored : block.header = some header
  milli : milliTimestamp header = .ok block.milliTimestamp
  gasLimit : decodeU64 header.gasLimit = .ok block.gasLimit
  number : decodeU64 header.number = .ok e.snapshot.number
  hash : headerHash P header = .ok e.snapshot.hash
  verified : ∃ now signer, verifySealCoinbase P header now = .ok signer

theorem tipHeader_fromCheckpoint {P : Primitives} {cp : Checkpoint} {header : RpcBlockHeader}
    {now : ℕ} {e : LightEngine} (h : fromCheckpointAndHeader P cp header now = .ok e) :
    ∃ block, TipHeader P e block header := by
  simp only [fromCheckpointAndHeader, bind_eq_ok, mapError_eq_ok, pure_eq_ok, Except.ok.injEq] at h
  obtain ⟨⟨⟩, hbasic, ⟨⟩, hmatch, signer, hseal, s, hs, hash, hhash, root, hroot, milli, hmilli, gas,
    hgas, rfl⟩ := h
  simp only [headerMatchesCheckpoint, bind_eq_ok, mapError_eq_ok, require_eq_ok] at hmatch
  obtain ⟨number, hnumber, -, rfl, computed, hcomputed, want, hwant, -, rfl, -⟩ := hmatch
  obtain ⟨hsnumber, hshash, -⟩ := Snapshot.fromCheckpoint_ok hs
  refine ⟨_, rfl, rfl, hmilli, hgas, ?_, ?_, now, signer, hseal⟩
  · rw [hnumber, hsnumber]
  · rw [hcomputed]
    exact congrArg Except.ok (Except.ok.inj (hwant.symm.trans hshash))

theorem exists_tipHeader {P : Primitives} {cp : Checkpoint} {header : RpcBlockHeader} {now : ℕ}
    {e : LightEngine} (h : fromCheckpointAndHeader P cp header now = .ok e)
    (calls : List (RpcBlockHeader × ℕ)) :
    ∃ block tip, TipHeader P (walk P e calls) block tip := by
  obtain ⟨genesis, hgenesis⟩ := tipHeader_fromCheckpoint h
  refine Machine.run_invariant (I := fun e => ∃ block tip, TipHeader P e block tip) ?_
    ⟨genesis, header, hgenesis⟩ calls
  rintro e call ⟨block, tip, ht⟩
  cases hr : (step P e call).1 with
  | ok r =>
    obtain ⟨signer, l, b, milli, block, hseal, hacc, -, hof, hnext⟩ := step_ok hr
    obtain ⟨hash, hcomputed, hclaimed⟩ := hseal.hash_eq
    rw [hnext]
    refine ⟨block, call.1, ?_, hof.source, ?_, hof.gasLimit, hacc.link.number, ?_, call.2, signer,
      hseal.verified⟩
    · rw [advance, getLast?_trimChain, List.getLast?_concat]
    · rw [hof.milli]
      exact hacc.milli
    · rw [hcomputed]
      exact congrArg Except.ok (Except.ok.inj (hclaimed.symm.trans hacc.link.hash))
  | error err =>
    rcases step_error hr with hsame | ⟨-, htrimmed⟩
    · rw [hsame]
      exact ⟨block, tip, ht⟩
    · rw [htrimmed]
      exact ⟨block, tip, ht.last, ht.stored, ht.milli, ht.gasLimit, ht.number, ht.hash, ht.verified⟩

/-! ## The checkpoint of the tip -/

/-- The checkpoint has a snapshot and the header of its block written down. -/
structure Written (s : Snapshot) (tip : RpcBlockHeader) (cp : Checkpoint) : Prop where
  chainId : cp.chainId = bscMainnetChainId
  number : cp.number = s.number
  hash : cp.hash = hexPrefixed s.hash.val
  parentHash : cp.parentHash = tip.parentHash
  stateRoot : cp.stateRoot = tip.stateRoot
  timestamp : decodeU64 tip.timestamp = .ok cp.timestamp
  sealingSet : cp.sealingSet = s.sealingSetHex
  voteKeys : cp.voteKeys = s.voteKeysHex

theorem exists_lastVerifiedCheckpoint {P : Primitives} {e : LightEngine} {block : VerifiedBlock}
    {tip : RpcBlockHeader} (h : TipHeader P e block tip) :
    ∃ saved, e.lastVerifiedCheckpoint P tip = .ok saved ∧ Written e.snapshot tip saved := by
  obtain ⟨-, -, ⟨time, htime⟩⟩ := headerHash_reads h.hash
  unfold lastVerifiedCheckpoint checkpointAtSnapshot Checkpoint.fromRpcHeader
  simp only [h.number, h.hash, htime, mapError_ok, ok_bind, require_of, pure_eq_ok]
  cases hkeys : e.snapshot.voteKeysHex with
  | none => exact ⟨_, rfl, rfl, rfl, rfl, rfl, rfl, htime, rfl, hkeys.symm⟩
  | some keys => exact ⟨_, rfl, rfl, rfl, rfl, rfl, rfl, htime, rfl, hkeys.symm⟩

/-- With distinct addresses, `validate_basic` of a written tip comes down to its vote keys. -/
theorem Written.validateBasic {P : Primitives} {s : Snapshot} {tip : RpcBlockHeader}
    {cp : Checkpoint} {hash : Hash} (h : Written s tip cp) (htip : headerHash P tip = .ok hash)
    (hne : s.validators ≠ []) (hnodup : s.validators.Nodup) (ha : s.Aligned) :
    cp.validateBasic = checkDistinct 48 .badVoteKey .duplicateVoteKey
      ((s.voteSet.map SealingValidator.voteKey).map fun k => hexPrefixed k.val) [] := by
  obtain ⟨⟨parent, hparent⟩, ⟨root, hroot⟩, -⟩ := headerHash_reads htip
  have hsome : s.sealingSetHex ≠ [] := by simpa [Snapshot.sealingSetHex] using hne
  have haddrs : checkDistinct 20 .badSealingAddress .duplicateSealingAddress s.sealingSetHex [] =
      .ok () := checkDistinct_hexPrefixed.mpr ⟨hnodup, by simp⟩
  unfold Checkpoint.validateBasic
  rw [h.sealingSet, h.hash, h.parentHash, h.stateRoot, hparent, hroot, h.voteKeys,
    require_of h.chainId, require_of hsome, haddrs, decodeHexFixed_hexPrefixed]
  simp only [mapError_ok, ok_bind, Snapshot.voteKeysHex]
  by_cases hnone : s.voteSet = []
  · rw [if_pos hnone, hnone]
    rfl
  · have hvotes : s.voteSet.map SealingValidator.address = s.validators :=
      ha.votes.resolve_left hnone
    have hlen : (s.voteSet.map fun v => hexPrefixed v.voteKey.val).length =
        s.sealingSetHex.length := by
      rw [Snapshot.sealingSetHex, ← hvotes, List.length_map, List.length_map, List.length_map]
    rw [if_neg hnone, List.map_map]
    simp only [require_of hlen, ok_bind]
    rfl

/-- Reading a written set back gives the same set, paired with the same keys in the same order. -/
theorem Written.fromCheckpoint {s : Snapshot} {tip : RpcBlockHeader} {cp : Checkpoint}
    (h : Written s tip cp) (ha : s.Aligned) :
    ∃ s', Snapshot.fromCheckpoint cp = .ok s' ∧ s'.number = s.number ∧ s'.hash = s.hash ∧
      s'.validators = s.validators ∧ s'.voteSet = s.voteSet := by
  have hdecoded : ∀ l : List Address, (l.map formatAddress).mapM (decodeHexFixed 20) = .ok l := by
    intro l
    induction l with
    | nil => rfl
    | cons a l ih => simp [List.mapM_cons, formatAddress, ih]
  have hvotes : Snapshot.checkpointVoteSet s.validators s.voteKeysHex = .ok s.voteSet := by
    unfold Snapshot.checkpointVoteSet Snapshot.voteKeysHex
    by_cases hnone : s.voteSet = []
    · rw [if_pos hnone, hnone]
    · have haddrs := ha.votes.resolve_left hnone
      have hordered := ha.ordered
      rw [← haddrs] at hordered ⊢
      rw [if_neg hnone]
      simp only [List.length_map, if_true]
      rw [Snapshot.decodePairs_hexPrefixed]
      exact congrArg Except.ok (sortByAddress_of_ordered hordered)
  unfold Snapshot.fromCheckpoint
  rw [h.sealingSet, Snapshot.sealingSetHex, hdecoded, h.voteKeys, h.hash,
    decodeHexFixed_hexPrefixed]
  simp only [mapError_ok, ok_bind, hvotes, pure_eq_ok]
  exact ⟨_, rfl, h.number, rfl, List.mergeSort_of_pairwise ha.ordered, rfl⟩

/-- In the walk, every accepted header announces a set with distinct addresses and distinct vote
keys. -/
def DistinctEpochs (P : Primitives) (e : LightEngine) (calls : List (RpcBlockHeader × ℕ)) : Prop :=
  ∀ past call, past ++ [call] <+: calls → (step P (walk P e past) call).1 = .ok () →
    (walk P e past).snapshot.AnnouncesDistinct call.1

theorem aligned_walk {P : Primitives} {cp : Checkpoint} {header : RpcBlockHeader} {now : ℕ}
    {e : LightEngine} (h : fromCheckpointAndHeader P cp header now = .ok e)
    (calls : List (RpcBlockHeader × ℕ)) : (walk P e calls).snapshot.Aligned := by
  obtain ⟨-, hs, -⟩ := fromCheckpointAndHeader_ok h
  exact walk_snapshot_invariant (I := Snapshot.Aligned)
    (fun _ _ hi => ⟨hi.ordered, hi.votes, hi.announced⟩)
    (fun _ _ signer l b milli _ hi => hi.next signer l b milli)
    (Snapshot.aligned_fromCheckpoint hs) calls

theorem distinct_walk {P : Primitives} {cp : Checkpoint} {header : RpcBlockHeader} {now : ℕ}
    {e : LightEngine} (h : fromCheckpointAndHeader P cp header now = .ok e)
    {calls : List (RpcBlockHeader × ℕ)} (hepochs : DistinctEpochs P e calls) :
    (walk P e calls).snapshot.Distinct := by
  induction calls using List.reverseRecOn with
  | nil =>
    obtain ⟨hbasic, hs, -⟩ := fromCheckpointAndHeader_ok h
    exact Snapshot.distinct_fromCheckpoint hbasic hs
  | append_singleton calls call ih =>
    have hi := ih fun past c hpre => hepochs past c (hpre.trans (List.prefix_append calls [call]))
    rw [walk_concat]
    cases hr : (step P (walk P e calls) call).1 with
    | ok r =>
      obtain ⟨signer, l, b, milli, block, -, hacc, -, -, hnext⟩ := step_ok hr
      rw [hnext]
      exact hi.next hacc (hepochs calls call List.prefix_rfl hr)
    | error err =>
      rcases step_error hr with hsame | ⟨-, htrimmed⟩
      · rw [hsame]
        exact hi
      · rw [htrimmed]
        exact ⟨hi.nonempty, hi.validators, hi.voteKeys, hi.announced⟩

/-- In every walk whose accepted epoch headers announce distinct addresses and distinct vote keys:
`last_verified_checkpoint` of the stored tip header succeeds, its checkpoint passes `validate_basic`,
and `from_checkpoint` restores number, hash, validators and vote set. -/
theorem persist_restore {P : Primitives} {cp : Checkpoint} {header : RpcBlockHeader} {now : ℕ}
    {e₀ : LightEngine} (h : fromCheckpointAndHeader P cp header now = .ok e₀)
    {calls : List (RpcBlockHeader × ℕ)} (hepochs : DistinctEpochs P e₀ calls) :
    let e := walk P e₀ calls
    ∃ block tip, e.chain.getLast? = some block ∧ block.header = some tip ∧
      ∃ saved, e.lastVerifiedCheckpoint P tip = .ok saved ∧ saved.validateBasic = .ok () ∧
        ∃ s, Snapshot.fromCheckpoint saved = .ok s ∧ s.number = e.snapshot.number ∧
          s.hash = e.snapshot.hash ∧ s.validators = e.snapshot.validators ∧
          s.voteSet = e.snapshot.voteSet := by
  intro e
  obtain ⟨block, tip, htip⟩ := exists_tipHeader h calls
  obtain ⟨saved, hsaved, hwritten⟩ := exists_lastVerifiedCheckpoint htip
  have haligned := aligned_walk h calls
  have hdistinct := distinct_walk h hepochs
  refine ⟨block, tip, htip.last, htip.stored, saved, hsaved, ?_, hwritten.fromCheckpoint haligned⟩
  rw [hwritten.validateBasic htip.hash hdistinct.nonempty hdistinct.validators haligned]
  exact checkDistinct_hexPrefixed.mpr ⟨hdistinct.voteKeys, by simp⟩

theorem exists_other_address : ∃ other : Address, other ≠ (mockKey 1).address := by
  by_cases hz : FixedBytes.repeated 20 0 = (mockKey 1).address
  · exact ⟨.repeated 20 1, fun h => absurd (h.trans hz.symm) (by decide)⟩
  · exact ⟨.repeated 20 0, hz⟩

theorem distinctEpochs_of_steady {P : Primitives} {e : LightEngine} {vals : List SealingValidator}
    {calls : List (RpcBlockHeader × ℕ)} (h : Steady P vals e calls)
    (haddrs : (vals.map SealingValidator.address).Nodup)
    (hkeys : (vals.map SealingValidator.voteKey).Nodup) : DistinctEpochs P e calls := by
  rintro past call ⟨rest, rfl⟩ -
  rw [List.append_assoc] at h
  obtain ⟨-, hcalls⟩ := Machine.along_append.mp h
  obtain ⟨signer, l, b, milli, hacc, hannounced⟩ := (Machine.along_cons.mp hcalls).1.announced
  unfold Snapshot.AnnouncesDistinct
  rw [walk, hacc.announcedSet_eq]
  rcases hannounced with hnone | hvals
  · rw [hnone]
    exact ⟨List.nodup_nil, List.nodup_nil⟩
  · rw [hvals]
    exact ⟨haddrs, hkeys⟩

/-- After an epoch header has announced two validators with two vote keys and their set is in force,
the checkpoint of the tip is restored. -/
theorem persist_restore_switched : ∃ cp header now e₀ calls vals block tip saved s,
    fromCheckpointAndHeader mockPrimitives cp header now = .ok e₀ ∧ vals.length = 2 ∧
    (walk mockPrimitives e₀ calls).snapshot.voteSet = sortByAddress vals ∧
    (walk mockPrimitives e₀ calls).chain.getLast? = some block ∧ block.header = some tip ∧
    (walk mockPrimitives e₀ calls).lastVerifiedCheckpoint mockPrimitives tip = .ok saved ∧
    saved.validateBasic = .ok () ∧ Snapshot.fromCheckpoint saved = .ok s ∧
    s.voteSet = (walk mockPrimitives e₀ calls).snapshot.voteSet := by
  obtain ⟨other, hother⟩ := exists_other_address
  obtain ⟨vals, hvals⟩ : ∃ vals : List SealingValidator, vals =
      [⟨(mockKey 1).address, .repeated 48 1⟩, ⟨other, .repeated 48 2⟩] := ⟨_, rfl⟩
  have hne : vals ≠ [] := by simp [hvals]
  have hcount : vals.length = 2 := by simp [hvals]
  have haddrs : (vals.map SealingValidator.address).Nodup := by simpa [hvals] using hother.symm
  have hkeys : (vals.map SealingValidator.voteKey).Nodup := by
    have hdistinct : [(FixedBytes.repeated 48 1 : VoteKey), .repeated 48 2].Nodup := by decide
    rw [hvals]
    exact hdistinct
  have hsize : (epochPart vals 8 []).length ≤ 100000 := by
    rw [length_epochPart, hcount]
    decide
  obtain ⟨cp, header, now, e₀, calls, -, -, h, -, -, hsteady, -, -, -, -, -, hvotes, -⟩ :=
    exists_switched (.repeated 48 1) hne (by omega) haddrs hsize
  obtain ⟨block, tip, hlast, hstored, saved, hsaved, hbasic, s, hs, -, -, -, hrestored⟩ :=
    persist_restore h (distinctEpochs_of_steady hsteady haddrs hkeys)
  exact ⟨cp, header, now, e₀, calls, vals, block, tip, saved, s, h, hcount, hvotes, hlast, hstored,
    hsaved, hbasic, hs, hrestored⟩

/-- An epoch header with two addresses and one vote key is accepted; after its set is in force, the
checkpoint of the tip is written but does not pass `validate_basic`. -/
theorem persisted_duplicate_voteKey : ∃ cp header now e₀ calls block tip saved,
    fromCheckpointAndHeader mockPrimitives cp header now = .ok e₀ ∧
    (walk mockPrimitives e₀ calls).chain.getLast? = some block ∧ block.header = some tip ∧
    (walk mockPrimitives e₀ calls).lastVerifiedCheckpoint mockPrimitives tip = .ok saved ∧
    saved.validateBasic = .error .duplicateVoteKey := by
  obtain ⟨other, hother⟩ := exists_other_address
  let key : VoteKey := .repeated 48 1
  obtain ⟨vals, hvals⟩ : ∃ vals : List SealingValidator,
      vals = [⟨(mockKey 1).address, key⟩, ⟨other, key⟩] := ⟨_, rfl⟩
  have hne : vals ≠ [] := by simp [hvals]
  have hcount : vals.length = 2 := by simp [hvals]
  have hnodup : (vals.map SealingValidator.address).Nodup := by simpa [hvals] using hother.symm
  have hsize : (epochPart vals 8 []).length ≤ 100000 := by
    rw [length_epochPart, hcount]
    decide
  obtain ⟨cp, header, now, e₀, calls, -, -, h, -, -, -, -, -, -, -, -, hvotes, -, hset, -⟩ :=
    exists_switched key hne (by omega) hnodup hsize
  obtain ⟨block, tip, htip⟩ := exists_tipHeader h calls
  obtain ⟨saved, hsaved, hwritten⟩ := exists_lastVerifiedCheckpoint htip
  have hperm := perm_sortByAddress vals
  have hkeys : (sortByAddress vals).map SealingValidator.voteKey = [key, key] := by
    have hp : ((sortByAddress vals).map SealingValidator.voteKey).Perm (List.replicate 2 key) := by
      have hmap := hperm.map SealingValidator.voteKey
      rwa [show vals.map SealingValidator.voteKey = List.replicate 2 key by rw [hvals]; rfl] at hmap
    exact List.perm_replicate.mp hp
  have hsetNe : (walk mockPrimitives e₀ calls).snapshot.validators ≠ [] := by
    rw [hset]
    simpa using Snapshot.sortByAddress_ne_nil hne
  have hsetNodup : (walk mockPrimitives e₀ calls).snapshot.validators.Nodup := by
    rw [hset]
    exact (hperm.map _).nodup_iff.mpr hnodup
  refine ⟨cp, header, now, e₀, calls, block, tip, saved, h, htip.last, htip.stored, hsaved, ?_⟩
  rw [hwritten.validateBasic htip.hash hsetNe hsetNodup (aligned_walk h calls), hvotes, hkeys]
  simp [checkDistinct, require_of, require_of_not]

end LightEngine

end HeliosBsc
