import HeliosBsc.Consensus.Engine
import HeliosBsc.Lib.Machine

/-!
# What one header does

The inversion lemmas of `apply_verified` and `apply_header`: a refused header leaves the snapshot
as it was, up to the trimmed entry of `recents`; an accepted one passes every check and leads to
the committed state. Later invariants are proved from these and never unfold the transition.
-/

namespace HeliosBsc

open Checked

/-! ## A header that passes the seal checks -/

/-- What `verify_seal_coinbase` has checked. -/
structure SealOk (P : Primitives) (header : RpcBlockHeader) (now : ℕ) (signer : Address) :
    Prop where
  verified : verifySealCoinbase P header now = .ok signer
  unsealed : verifyUnsealedFields header now = .ok ()
  recovered : recoverSigner P header bscMainnetChainId = .ok signer
  miner : decodeHexFixed 20 header.miner = .ok signer
  hash : ∃ h, verifyHeaderHash P header = .ok h

theorem sealOk_of_verify {P : Primitives} {header : RpcBlockHeader} {now : ℕ} {signer : Address}
    (h : verifySealCoinbase P header now = .ok signer) : SealOk P header now signer := by
  have hverified := h
  simp only [verifySealCoinbase, bind_eq_ok, mapError_eq_ok, require_eq_ok, pure_eq_ok,
    Except.ok.injEq] at h
  obtain ⟨⟨⟩, hunsealed, -, -, -, -, recovered, hrec, miner, hminer, -, rfl, hash, hhash, rfl⟩ := h
  exact ⟨hverified, hunsealed, hrec, hminer, hash, hhash⟩

namespace SealOk

variable {P : Primitives} {header : RpcBlockHeader} {now : ℕ} {signer : Address}
  (h : SealOk P header now signer)
include h

theorem hash_eq : ∃ hash, headerHash P header = .ok hash ∧
    decodeHexFixed 32 header.hash = .ok hash := by
  obtain ⟨hash, hv⟩ := h.hash
  simp only [verifyHeaderHash, bind_eq_ok, mapError_eq_ok, require_eq_ok, pure_eq_ok,
    Except.ok.injEq] at hv
  obtain ⟨computed, hc, claimed, hd, -, rfl, rfl⟩ := hv
  exact ⟨computed, hc, hd⟩

theorem stateRoot_ok : ∃ root, decodeHexFixed 32 header.stateRoot = .ok root := by
  obtain ⟨hash, hc, -⟩ := h.hash_eq
  unfold headerHash at hc
  cases hp : headerPreimage header with
  | error e => simp [hp, Except.map] at hc
  | ok bytes =>
    simp only [headerPreimage, bind_eq_ok, mapError_eq_ok] at hp
    obtain ⟨-, -, -, -, -, -, root, hroot, -⟩ := hp
    exact ⟨root, hroot⟩

theorem gasLimit_ok : ∃ gas, decodeU64 header.gasLimit = .ok gas := by
  have hu := h.unsealed
  simp only [verifyUnsealedFields, bind_eq_ok, mapError_eq_ok] at hu
  obtain ⟨-, -, -, -, -, -, -, -, gas, hgas, -⟩ := hu
  exact ⟨gas, hgas⟩

theorem milli_ok : ∃ milli, milliTimestamp header = .ok milli := by
  have hu := h.unsealed
  simp only [verifyUnsealedFields, bind_eq_ok] at hu
  obtain ⟨-, -, -, -, -, -, -, -, -, -, -, -, -, -, -, -, -, -, ⟨⟩, hmix, -⟩ := hu
  simp only [verifyMixDigest, bind_eq_ok, mapError_eq_ok] at hmix
  obtain ⟨time, htime, mix, hmixd, -⟩ := hmix
  unfold milliTimestamp
  rw [htime, hmixd]
  simp only [mapError_ok, ok_bind]
  split
  · exact ⟨_, rfl⟩
  · exact ⟨_, rfl⟩

theorem extraLayout : verifyExtraLayout header = .ok () := by
  have hu := h.unsealed
  simp only [verifyUnsealedFields, bind_eq_ok] at hu
  obtain ⟨-, -, -, -, -, -, -, -, -, -, -, -, -, -, -, -, -, -, -, -, -, -, -, -, -, -, -, -, -, -,
    hl⟩ := hu
  exact hl

end SealOk

/-- The header does not claim to be block `0`, the one that an overflow would let follow the last
`u64`. -/
def RpcBlockHeader.AboveGenesis (header : RpcBlockHeader) : Prop :=
  decodeU64 header.number ≠ .ok 0

theorem RpcBlockHeader.aboveGenesis_of_number {header : RpcBlockHeader} {n : ℕ}
    (h : decodeU64 header.number = .ok n) (hn : n ≠ 0) : header.AboveGenesis := fun hzero =>
  hn (Except.ok.inj (h.symm.trans hzero))

/-- No header of the list claims to be block `0`. -/
def AboveGenesis (calls : List (RpcBlockHeader × ℕ)) : Prop :=
  ∀ call ∈ calls, call.1.AboveGenesis

namespace AboveGenesis

variable {calls more : List (RpcBlockHeader × ℕ)} {call : RpcBlockHeader × ℕ}

theorem nil : AboveGenesis [] := fun _ h => absurd h List.not_mem_nil

@[simp] theorem cons_iff : AboveGenesis (call :: calls) ↔
    call.1.AboveGenesis ∧ AboveGenesis calls := List.forall_mem_cons

@[simp] theorem append_iff : AboveGenesis (calls ++ more) ↔
    AboveGenesis calls ∧ AboveGenesis more := List.forall_mem_append

theorem of_subset (h : AboveGenesis calls) (hsub : more ⊆ calls) : AboveGenesis more :=
  fun call hc => h call (hsub hc)

theorem of_prefix (h : AboveGenesis calls) (hpre : more <+: calls) : AboveGenesis more :=
  h.of_subset hpre.subset

end AboveGenesis

namespace Snapshot

/-- On a sorted list the search of `contains` finds exactly the members. -/
theorem contains_iff {s : Snapshot} (h : s.validators.Pairwise fun a b => a.le b = true)
    {addr : Address} : s.contains addr = true ↔ addr ∈ s.validators :=
  Bisect.contains_iff (fun _ _ => FixedBytes.le_antisymm) FixedBytes.le_refl h

/-! ## The checks, one by one -/

/-- What the link checks have established. -/
structure LinkOk (s : Snapshot) (header : RpcBlockHeader) (signer : Address) (l : Link) :
    Prop where
  number : decodeU64 header.number = .ok l.number
  time : decodeU64 header.timestamp = .ok l.time
  parent : decodeHexFixed 32 header.parentHash = .ok s.hash
  hash : decodeHexFixed 32 header.hash = .ok l.hash
  follows : l.number = wrapSucc s.number
  member : s.contains signer = true
  difficulty : ∃ d, decodeU64 header.difficulty = .ok d ∧ (d = diffNoTurn ∨ d = diffInTurn) ∧
    (s.enforceInturn = true → d = s.expectedDifficulty signer)

theorem linkChecks_eq_ok {s : Snapshot} {header : RpcBlockHeader} {signer : Address} {l : Link} :
    s.linkChecks header signer = .ok l ↔ LinkOk s header signer l := by
  simp only [linkChecks, bind_eq_ok, mapError_eq_ok, require_eq_ok, pure_eq_ok, Except.ok.injEq]
  constructor
  · rintro ⟨number, hn, time, ht, parent, hp, hash, hh, -, hfollows, -, rfl, -, hmem, d, hd, -,
      hrange, -, hturn, rfl⟩
    exact ⟨hn, ht, hp, hh, hfollows, hmem, d, hd, hrange, hturn⟩
  · rintro ⟨hn, ht, hp, hh, hfollows, hmem, d, hd, hrange, hturn⟩
    exact ⟨_, hn, _, ht, _, hp, _, hh, (), hfollows, (), rfl, (), hmem, d, hd, (), hrange, (),
      hturn, rfl⟩

/-- An accepted header that is above block `0` stands one above the snapshot. -/
theorem LinkOk.number_eq {s : Snapshot} {header : RpcBlockHeader} {signer : Address} {l : Link}
    (h : LinkOk s header signer l) (habove : header.AboveGenesis) : l.number = s.number + 1 :=
  eq_succ_of_wrapSucc h.follows fun hzero => habove (hzero ▸ h.number)

theorem LinkOk.aboveGenesis {s : Snapshot} {header : RpcBlockHeader} {signer : Address} {l : Link}
    (h : LinkOk s header signer l) (hfits : s.number + 1 < u64Size) : header.AboveGenesis := by
  refine RpcBlockHeader.aboveGenesis_of_number h.number ?_
  rw [h.follows, wrapSucc_of_lt hfits]
  exact Nat.succ_ne_zero s.number

/-- What the remaining checks have established. -/
structure BodyOk (P : Primitives) (s : Snapshot) (header : RpcBlockHeader) (signer : Address)
    (l : Link) (b : Body) : Prop where
  notRecent : s.signRecently signer = false
  backoff : verifyOutOfTurnBackoff s.backoffContext header = .ok ()
  isEpoch : b.isEpoch = decide (l.number % s.epochLength = 0)
  parsed : ∃ extra, decodeHex header.extraData = .ok extra ∧
    parseExtra extra .bohr b.isEpoch = .ok b.parsed
  adopted : s.checkAttestation P b.parsed.attestation l.number l.time = .ok b.adopted
  validators : b.isEpoch = true → b.parsed.validators ≠ []

theorem bodyChecks_eq_ok {P : Primitives} {s : Snapshot} {header : RpcBlockHeader}
    {signer : Address} {l : Link} {b : Body} :
    s.bodyChecks P header signer l = .ok b ↔ BodyOk P s header signer l b := by
  simp only [bodyChecks, bind_eq_ok, mapError_eq_ok, require_eq_ok, pure_eq_ok, Except.ok.injEq]
  constructor
  · rintro ⟨-, hrecent, ⟨⟩, hback, extra, he, parsed, hp, adopted, ha, -, hv, rfl⟩
    exact ⟨hrecent, hback, rfl, ⟨extra, he, hp⟩, ha, hv⟩
  · rintro ⟨hrecent, hback, hepoch, ⟨extra, he, hp⟩, ha, hv⟩
    rw [hepoch] at hp hv
    refine ⟨(), hrecent, (), hback, extra, he, b.parsed, hp, b.adopted, ha, (), hv, ?_⟩
    rw [← hepoch]

/-- The accepted transition: every check has passed. -/
structure Accepts (P : Primitives) (s : Snapshot) (header : RpcBlockHeader) (signer : Address)
    (l : Link) (b : Body) (milli : ℕ) : Prop where
  link : LinkOk s header signer l
  body : BodyOk P (s.trimRecents l.number) header signer l b
  milli : milliTimestamp header = .ok milli

/-- The state after an accepted header. -/
def next (s : Snapshot) (signer : Address) (l : Link) (b : Body) (milli : ℕ) : Snapshot :=
  { (s.trimRecents l.number).commit signer l b with lastMilli := some milli }

/-- `apply_verified` accepts, or refuses at a link check, or refuses later. -/
theorem applyVerified_cases (P : Primitives) (s : Snapshot) (header : RpcBlockHeader)
    (signer : Address) :
    (∃ l b milli, Accepts P s header signer l b milli ∧
      s.applyVerified P header signer = (.ok (), s.next signer l b milli)) ∨
    (∃ e, s.applyVerified P header signer = (.error e, s)) ∨
    (∃ l e, LinkOk s header signer l ∧
      s.applyVerified P header signer = (.error e, s.trimRecents l.number)) ∨
    (∃ l b e, milliTimestamp header = .error e ∧ s.applyVerified P header signer =
      (.error (.sealErr e), (s.trimRecents l.number).commit signer l b)) := by
  unfold applyVerified
  cases hl : s.linkChecks header signer with
  | error e => exact .inr (.inl ⟨e, rfl⟩)
  | ok l =>
    have hlink := linkChecks_eq_ok.mp hl
    cases hb : (s.trimRecents l.number).bodyChecks P header signer l with
    | error e => exact .inr (.inr (.inl ⟨l, e, hlink, by simp only [hb]⟩))
    | ok b =>
      cases hm : milliTimestamp header with
      | error e => exact .inr (.inr (.inr ⟨l, b, e, rfl, by simp only [hb]⟩))
      | ok milli =>
        refine .inl ⟨l, b, milli, ⟨hlink, bodyChecks_eq_ok.mp hb, hm⟩, ?_⟩
        simp only [hb, next]

theorem applyHeader_of_accepts {P : Primitives} {s : Snapshot} {header : RpcBlockHeader}
    {now : ℕ} {signer : Address} {l : Link} {b : Body} {milli : ℕ}
    (hseal : verifySealCoinbase P header now = .ok signer)
    (h : Accepts P s header signer l b milli) :
    s.applyHeader P header now = (.ok signer, s.next signer l b milli) := by
  unfold applyHeader applyVerified
  simp only [hseal, linkChecks_eq_ok.mpr h.link, bodyChecks_eq_ok.mpr h.body, h.milli, next]

/-- `apply_header` accepts a sealed header that passes every check, or refuses it and leaves the
snapshot as it was, up to the trimmed entry. -/
theorem applyHeader_cases (P : Primitives) (s : Snapshot) (header : RpcBlockHeader) (now : ℕ) :
    (∃ signer l b milli, SealOk P header now signer ∧ Accepts P s header signer l b milli ∧
      s.applyHeader P header now = (.ok signer, s.next signer l b milli)) ∨
    (∃ e, s.applyHeader P header now = (.error e, s)) ∨
    (∃ signer l e, LinkOk s header signer l ∧
      s.applyHeader P header now = (.error e, s.trimRecents l.number)) := by
  unfold applyHeader
  cases hv : verifySealCoinbase P header now with
  | error e => exact .inr (.inl ⟨_, rfl⟩)
  | ok signer =>
    have hseal := sealOk_of_verify hv
    rcases s.applyVerified_cases P header signer with
      ⟨l, b, milli, hacc, hr⟩ | ⟨e, hr⟩ | ⟨l, e, hlink, hr⟩ | ⟨l, b, e, hm, hr⟩
    · exact .inl ⟨signer, l, b, milli, hseal, hacc, by simp only [hr]⟩
    · exact .inr (.inl ⟨e, by simp only [hr]⟩)
    · exact .inr (.inr ⟨signer, l, e, hlink, by simp only [hr]⟩)
    · -- the last decode repeats one of the seal checks
      obtain ⟨milli, hok⟩ := hseal.milli_ok
      rw [hm] at hok
      cases hok

/-! ## The state after an accepted header -/

section

variable (s : Snapshot) (signer : Address) (l : Link) (b : Body) (milli : ℕ)

/-- The announcement in force while the header is applied. -/
def pendingDuring : Option PendingEpoch :=
  if b.isEpoch then some (s.nextPending l.number b.parsed) else s.pending

@[simp] theorem next_number : (s.next signer l b milli).number = l.number := rfl

@[simp] theorem next_hash : (s.next signer l b milli).hash = l.hash := rfl

@[simp] theorem next_lastMilli : (s.next signer l b milli).lastMilli = some milli := rfl

/-- The set switch touches neither the attestation, nor the ancestors, nor what is fixed at the
start. -/
theorem activate_frame (t : Snapshot) (n : ℕ) :
    (t.activate n).attestation = t.attestation ∧ (t.activate n).ancestors = t.ancestors ∧
      (t.activate n).enforceInturn = t.enforceInturn ∧ (t.activate n).walkStart = t.walkStart ∧
      (t.activate n).epochLength = t.epochLength := by
  unfold activate
  split
  · exact ⟨rfl, rfl, rfl, rfl, rfl⟩
  · split <;> exact ⟨rfl, rfl, rfl, rfl, rfl⟩

theorem next_attestation : (s.next signer l b milli).attestation =
    match b.adopted with
    | some data => some (adoptAttestation s.attestation data)
    | none => s.attestation :=
  (activate_frame _ _).1

theorem next_ancestors : (s.next signer l b milli).ancestors =
    (s.ancestors ++ [(l.number, l.hash)]).drop (s.ancestors.length + 1 - 3) := by
  have h := (activate_frame ((s.trimRecents l.number).record signer l b) l.number).2.1
  simp only [next, commit, moveTo, h, kAncestorGenerationDepth, List.length_append,
    List.length_cons, List.length_nil]
  rfl

theorem next_enforceInturn : (s.next signer l b milli).enforceInturn = s.enforceInturn :=
  (activate_frame _ _).2.2.1

theorem next_walkStart : (s.next signer l b milli).walkStart = s.walkStart :=
  (activate_frame _ _).2.2.2.1

theorem next_epochLength : (s.next signer l b milli).epochLength =
    (s.advanceEpochLength l.number l.time).epochLength :=
  (activate_frame _ _).2.2.2.2

/-- The set switches to the announced one at its activation block and stays otherwise. -/
theorem next_sets :
    (∃ p, s.pendingDuring l b = some p ∧ l.number = p.activateAt ∧
      (s.next signer l b milli).voteSet = pendingVoteSet p ∧
      (s.next signer l b milli).prevVoteSet = s.voteSet ∧
      (s.next signer l b milli).setChangedAt = l.number ∧
      (s.next signer l b milli).validators = p.validators ∧
      (s.next signer l b milli).turnLength = p.turnLength ∧
      (s.next signer l b milli).pending = none) ∨
    ((∀ p, s.pendingDuring l b = some p → l.number ≠ p.activateAt) ∧
      (s.next signer l b milli).voteSet = s.voteSet ∧
      (s.next signer l b milli).prevVoteSet = s.prevVoteSet ∧
      (s.next signer l b milli).setChangedAt = s.setChangedAt ∧
      (s.next signer l b milli).validators = s.validators ∧
      (s.next signer l b milli).turnLength = s.turnLength ∧
      (s.next signer l b milli).pending = s.pendingDuring l b) := by
  have hpend : ((s.trimRecents l.number).record signer l b).pending = s.pendingDuring l b := rfl
  cases hp : s.pendingDuring l b with
  | none =>
    right
    have hact : ((s.trimRecents l.number).record signer l b).activate l.number =
        (s.trimRecents l.number).record signer l b := by
      unfold activate
      rw [hpend, hp]
    simp only [next, commit, hact]
    exact ⟨fun p h => (Option.some_ne_none p h.symm).elim, rfl, rfl, rfl, rfl, rfl, hp⟩
  | some p =>
    by_cases hn : l.number = p.activateAt
    · left
      refine ⟨p, rfl, hn, ?_⟩
      simp only [next, commit, activate, hpend, hp, if_pos hn]
      exact ⟨rfl, rfl, rfl, rfl, rfl, rfl⟩
    · right
      have hact : ((s.trimRecents l.number).record signer l b).activate l.number =
          (s.trimRecents l.number).record signer l b := by
        unfold activate
        rw [hpend, hp]
        exact if_neg hn
      simp only [next, commit, hact]
      refine ⟨fun q h => ?_, rfl, rfl, rfl, rfl, rfl, hp⟩
      rwa [← Option.some.inj h]

theorem mem_of_mem_trimRecents {s : Snapshot} {n : ℕ} {e : ℕ × Address}
    (he : e ∈ (s.trimRecents n).recents.entries) : e ∈ s.recents.entries := by
  simp only [trimRecents] at he
  split at he
  · exact Recents.mem_of_mem_retain he
  · exact he

/-- Every entry of `recents` is old, or this block's, or the mark of a set switch. -/
theorem mem_next_recents {e : ℕ × Address}
    (he : e ∈ (s.next signer l b milli).recents.entries) :
    e ∈ s.recents.entries ∨ e = (l.number, signer) ∨ e.2 = recentEpochSentinel := by
  have hrecord : ∀ e ∈ ((s.trimRecents l.number).record signer l b).recents.entries,
      e ∈ s.recents.entries ∨ e = (l.number, signer) := by
    intro e he
    have hins : e ∈ ((s.trimRecents l.number).recents.insert l.number signer).entries := by
      simp only [record, advanceEpochLength, pruneRecentsToFinalized] at he
      split at he
      · exact Recents.mem_of_mem_retain he
      · exact he
    rcases List.mem_cons.mp hins with rfl | hold
    · exact .inr rfl
    · exact .inl (mem_of_mem_trimRecents (Recents.mem_of_mem_retain hold))
  have hact : e ∈ ((s.trimRecents l.number).record signer l b).recents.entries ∨
      e.2 = recentEpochSentinel := by
    simp only [next, commit, moveTo, activate] at he
    split at he
    · exact .inl he
    · split at he
      · simp only at he
        split at he
        · cases he
        · rcases List.mem_cons.mp he with rfl | hold
          · exact .inr rfl
          · cases Recents.mem_of_mem_retain hold
      · exact .inl he
  rcases hact with hold | hmark
  · rcases hrecord e hold with h | h
    · exact .inl h
    · exact .inr (.inl h)
  · exact .inr (.inr hmark)

end

/-! ## When a set activates -/

/-- The turn length in force and the announced one fit a byte. -/
structure ByteTurns (s : Snapshot) : Prop where
  current : s.turnLength < 256
  announced : ∀ p, s.pending = some p → p.turnLength < 256

namespace ByteTurns

variable {P : Primitives} {s : Snapshot} {header : RpcBlockHeader} {signer : Address} {l : Link}
  {b : Body} {milli : ℕ}

theorem trimRecents (h : ByteTurns s) (n : ℕ) : ByteTurns (s.trimRecents n) :=
  ⟨h.current, h.announced⟩

theorem delay_lt (h : ByteTurns s) : s.delay < u64Size := by
  have hcount : s.nSeal / 2 + 1 ≤ 2 ^ 31 := by
    have hlt : s.nSeal < 2 ^ 32 := Nat.mod_lt _ (by norm_num)
    omega
  have hproduct : (s.nSeal / 2 + 1) * s.turnLength ≤ 2 ^ 31 * 256 :=
    Nat.mul_le_mul hcount h.current.le
  have hsize : 2 ^ 31 * 256 < u64Size := by
    rw [u64Size_eq]
    norm_num
  unfold delay minerHistoryCheckLen
  split
  · exact u64Size_pos
  · omega

/-- An announced set activates after the delay, unless the sum overflows: then its height is behind
the announcement. -/
theorem nextPending_activateAt (h : ByteTurns s) {number : ℕ} (hnumber : number < u64Size)
    (parsed : ParsedExtra) : (s.nextPending number parsed).activateAt = number + s.delay ∨
      (s.nextPending number parsed).activateAt < number :=
  wrapAdd_cases hnumber h.delay_lt

theorem pendingDuring (h : ByteTurns s) (hacc : Accepts P s header signer l b milli)
    {p : PendingEpoch} (hp : s.pendingDuring l b = some p) : p.turnLength < 256 := by
  unfold Snapshot.pendingDuring at hp
  split at hp
  · next hepoch =>
    obtain ⟨extra, -, hparsed⟩ := hacc.body.parsed
    rw [hepoch] at hparsed
    obtain ⟨-, -, t, ht, hle⟩ := parseExtra_bohr_true hparsed
    rw [← Option.some.inj hp, nextPending, ht]
    exact Nat.lt_succ_of_le hle
  · exact h.announced p hp

theorem next (h : ByteTurns s) (hacc : Accepts P s header signer l b milli) :
    ByteTurns (s.next signer l b milli) := by
  rcases s.next_sets signer l b milli with
    ⟨p, hp, -, -, -, -, -, hturn, hpend⟩ | ⟨-, -, -, -, -, hturn, hpend⟩
  · refine ⟨by rw [hturn]; exact h.pendingDuring hacc hp, fun q hq => ?_⟩
    rw [hpend] at hq
    cases hq
  · refine ⟨by rw [hturn]; exact h.current, fun q hq => ?_⟩
    rw [hpend] at hq
    exact h.pendingDuring hacc hq

end ByteTurns

/-! ## The attestation check -/

section

variable {P : Primitives} {s : Snapshot} {raw : Bytes} {number time : ℕ}

/-- What stands behind an adopted vote. -/
structure VoteOk (P : Primitives) (s : Snapshot) (number time : ℕ) (att : VoteAttestation) :
    Prop where
  below : att.data.sourceNumber < att.data.targetNumber
  known : s.attestationSet att.data.targetNumber ≠ []
  window : (attestationTargetWindow number time).1 ≤ att.data.targetNumber ∧
    att.data.targetNumber ≤ (attestationTargetWindow number time).2
  target : s.ancestorHash att.data.targetNumber = some att.data.targetHash
  source : ∀ j, s.attestation = some j →
    att.data.sourceNumber = j.targetNumber ∧ att.data.sourceHash = j.targetHash
  signature : verifyAttestationSignature P att (s.attestationSet att.data.targetNumber) = .ok ()

/-- Why a vote is passed over: its voters are not known here, or its target is not. -/
def Skipped (s : Snapshot) (number time : ℕ) (att : VoteAttestation) : Prop :=
  att.data.sourceNumber < att.data.targetNumber ∧
    (s.attestationSet att.data.targetNumber = [] ∨
      ((attestationTargetWindow number time).1 ≤ att.data.targetNumber ∧
        att.data.targetNumber ≤ (attestationTargetWindow number time).2) ∧
      s.ancestorHash att.data.targetNumber = none)

theorem checkSource_eq_ok {current : Option VoteData} {data : VoteData} :
    checkSource current data = .ok () ↔ ∀ j, current = some j →
      data.sourceNumber = j.targetNumber ∧ data.sourceHash = j.targetHash := by
  cases current with
  | none => simp [checkSource]
  | some j => simp [checkSource]

theorem checkVote_eq_ok {att : VoteAttestation} {adopted : Option VoteData} :
    s.checkVote P att number time = .ok adopted ↔
      (Skipped s number time att ∧ adopted = none) ∨
        (VoteOk P s number time att ∧ adopted = some att.data) := by
  unfold checkVote Skipped
  simp only [VoteData.sourceBelowTarget, bind_eq_ok, mapError_eq_ok, require_eq_ok, exists_const]
  by_cases hset : s.attestationSet att.data.targetNumber = []
  · simp only [hset, if_true, pure_eq_ok, Except.ok.injEq, true_or, and_true]
    constructor
    · rintro ⟨hlt, rfl⟩
      exact .inl ⟨hlt, rfl⟩
    · rintro (⟨hlt, rfl⟩ | ⟨hv, -⟩)
      · exact ⟨hlt, rfl⟩
      · exact absurd hset hv.known
  · simp only [hset, if_false, false_or, bind_eq_ok, require_eq_ok, exists_const]
    cases ha : s.ancestorHash att.data.targetNumber with
    | none =>
      simp only [pure_eq_ok, Except.ok.injEq, and_true]
      constructor
      · rintro ⟨hlt, hw, rfl⟩
        exact .inl ⟨⟨hlt, hw⟩, rfl⟩
      · rintro (⟨⟨hlt, hw⟩, rfl⟩ | ⟨hv, -⟩)
        · exact ⟨hlt, hw, rfl⟩
        · rw [hv.target] at ha
          cases ha
    | some h =>
      simp only [bind_eq_ok, require_eq_ok, mapError_eq_ok, pure_eq_ok, Except.ok.injEq,
        exists_const, reduceCtorEq, and_false, false_and, false_or]
      constructor
      · rintro ⟨hlt, hw, rfl, ⟨⟩, hsrc, ⟨⟩, hsig, rfl⟩
        exact ⟨⟨hlt, hset, hw, ha, checkSource_eq_ok.mp hsrc, hsig⟩, rfl⟩
      · rintro ⟨hv, rfl⟩
        have ht := hv.target
        rw [ha] at ht
        exact ⟨hv.below, hv.window, Option.some.inj ht, (), checkSource_eq_ok.mpr hv.source, (),
          hv.signature, rfl⟩

/-- The check of a header: there is no vote, or the vote is adopted or passed over. -/
theorem checkAttestation_eq_ok {adopted : Option VoteData} :
    s.checkAttestation P raw number time = .ok adopted ↔
      (decodeVoteAttestation raw = .ok none ∧ adopted = none) ∨
      ∃ att, decodeVoteAttestation raw = .ok (some att) ∧
        ((Skipped s number time att ∧ adopted = none) ∨
          (VoteOk P s number time att ∧ adopted = some att.data)) := by
  unfold checkAttestation
  cases hd : decodeVoteAttestation raw with
  | error e => simp
  | ok vote =>
    cases vote with
    | none =>
      simp [eq_comm]
    | some att => simp [checkVote_eq_ok]

end

/-! ## Walks -/

/-- One call of `Snapshot::apply_header`: a header and the clock at the call. -/
def step (P : Primitives) (s : Snapshot) (call : RpcBlockHeader × ℕ) :
    Except SnapshotError Address × Snapshot :=
  s.applyHeader P call.1 call.2

/-- The snapshot after a sequence of calls, accepted or refused. -/
def walk (P : Primitives) (s : Snapshot) (calls : List (RpcBlockHeader × ℕ)) : Snapshot :=
  Machine.run (step P) s calls

theorem step_ok {P : Primitives} {s : Snapshot} {call : RpcBlockHeader × ℕ} {signer : Address}
    (h : (step P s call).1 = .ok signer) :
    ∃ l b milli, SealOk P call.1 call.2 signer ∧ Accepts P s call.1 signer l b milli ∧
      (step P s call).2 = s.next signer l b milli := by
  unfold step at *
  rcases s.applyHeader_cases P call.1 call.2 with
    ⟨signer', l, b, milli, hseal, hacc, hr⟩ | ⟨err, hr⟩ | ⟨_, _, err, -, hr⟩
  · rw [hr] at h
    obtain rfl : signer' = signer := Except.ok.inj h
    exact ⟨l, b, milli, hseal, hacc, by rw [hr]⟩
  · rw [hr] at h
    cases h
  · rw [hr] at h
    cases h

/-- A refused call changes nothing, or trims one entry of `recents`. -/
theorem step_error {P : Primitives} {s : Snapshot} {call : RpcBlockHeader × ℕ} {err : SnapshotError}
    (h : (step P s call).1 = .error err) :
    (step P s call).2 = s ∨ (step P s call).2 = s.trimRecents (wrapSucc s.number) := by
  unfold step at *
  rcases s.applyHeader_cases P call.1 call.2 with
    ⟨_, _, _, _, -, -, hr⟩ | ⟨err, hr⟩ | ⟨signer, l, err, hlink, hr⟩
  · rw [hr] at h
    cases h
  · rw [hr]
    exact .inl rfl
  · rw [hr, hlink.follows]
    exact .inr rfl

/-- No height of the walk overflows: none of the headers that it accepts claims block `0`. -/
def Unwrapped (P : Primitives) (s : Snapshot) (calls : List (RpcBlockHeader × ℕ)) : Prop :=
  AboveGenesis (Machine.accepted (step P) s calls)

namespace Unwrapped

variable {P : Primitives} {s : Snapshot} {calls past more : List (RpcBlockHeader × ℕ)}

theorem of_prefix (h : Unwrapped P s calls) (hpast : past <+: calls) : Unwrapped P s past :=
  AboveGenesis.of_prefix h (Machine.accepted_prefix s hpast)

theorem of_append (h : Unwrapped P s (past ++ more)) : Unwrapped P (walk P s past) more := by
  unfold Unwrapped at h
  rw [Machine.accepted_append] at h
  exact (AboveGenesis.append_iff.mp h).2

theorem aboveGenesis (h : Unwrapped P s calls) {call : RpcBlockHeader × ℕ} {signer : Address}
    (hpast : past ++ [call] <+: calls) (hok : (step P (walk P s past) call).1 = .ok signer) :
    call.1.AboveGenesis :=
  h call (Machine.mem_accepted hpast hok)

theorem along (h : Unwrapped P s calls) : Machine.Along (step P)
    (fun t call => ∀ signer, (step P t call).1 = .ok signer → call.1.AboveGenesis) s calls := by
  rintro before call after rfl signer hok
  exact h.aboveGenesis ⟨after, by simp⟩ hok

theorem of_calls (h : AboveGenesis calls) : Unwrapped P s calls :=
  h.of_subset (Machine.accepted_subset s calls)

theorem of_fits (hfits : s.number + calls.length < u64Size) : Unwrapped P s calls := by
  unfold Unwrapped
  induction calls generalizing s with
  | nil => exact AboveGenesis.nil
  | cons call rest ih =>
    rw [List.length_cons] at hfits
    rw [Machine.accepted]
    cases hr : (step P s call).1 with
    | ok signer =>
      obtain ⟨l, b, milli, -, hacc, hs⟩ := step_ok hr
      have habove := hacc.link.aboveGenesis (by omega)
      refine AboveGenesis.cons_iff.mpr ⟨habove, ih ?_⟩
      rw [hs]
      change l.number + _ < _
      rw [hacc.link.number_eq habove]
      omega
    | error err =>
      refine ih ?_
      rcases step_error hr with hs | hs
      · rw [hs]
        omega
      · rw [hs]
        change s.number + _ < _
        omega

end Unwrapped

end Snapshot

end HeliosBsc
