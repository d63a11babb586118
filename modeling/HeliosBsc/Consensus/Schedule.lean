import HeliosBsc.Consensus.Restart
import HeliosBsc.Consensus.SealingRate
import HeliosBsc.Consensus.SetShape
import HeliosBsc.Lib.RoundRobin
import HeliosBsc.Mock.Pool

/-!
# The sealing schedule

The rules on who may seal leave room for the chain to go on: after any walk at most half of the
validators are held back by `sign_recently`, and on a chain that follows the schedule the validator
in turn is never held back.
-/

namespace HeliosBsc

open Checked

namespace Snapshot

/-! ## Who is held back -/

/-- Every sealer in `recents` belongs to a walked block. -/
def Dated (s : Snapshot) : Prop :=
  ∀ e ∈ s.recents.entries, e.1 ≤ s.number ∨ e.2 = recentEpochSentinel

theorem Dated.trimRecents {s : Snapshot} (h : s.Dated) (n : ℕ) : (s.trimRecents n).Dated :=
  fun e he => h e (mem_of_mem_trimRecents he)

theorem Dated.next {P : Primitives} {s : Snapshot} {header : RpcBlockHeader} {signer : Address}
    {l : Link} {b : Body} {milli : ℕ} (h : s.Dated) (habove : header.AboveGenesis)
    (hacc : Accepts P s header signer l b milli) : (s.next signer l b milli).Dated := by
  intro e he
  rw [next_number]
  rcases s.mem_next_recents signer l b milli he with hold | rfl | hmark
  · rw [hacc.link.number_eq habove]
    exact (h e hold).imp_left fun hle => hle.trans (Nat.le_succ _)
  · exact .inl le_rfl
  · exact .inr hmark

/-- The entries of the window, of whichever sealer. -/
def window (s : Snapshot) : Finset (ℕ × Address) :=
  (s.recents.entries.filter fun e =>
    s.number - s.delay < e.1 ∧ e.2 ≠ recentEpochSentinel).toFinset

theorem mem_window {s : Snapshot} {e : ℕ × Address} : e ∈ s.window ↔
    e ∈ s.recents.entries ∧ s.number - s.delay < e.1 ∧ e.2 ≠ recentEpochSentinel := by
  simp [window]

theorem card_window_le {s : Snapshot} (h : s.Dated) : s.window.card ≤ s.delay := by
  have hmaps : ∀ e ∈ s.window, e.1 ∈ Finset.Ioc (s.number - s.delay) s.number := by
    intro e he
    obtain ⟨hmem, hlow, hmark⟩ := mem_window.mp he
    exact Finset.mem_Ioc.mpr ⟨hlow, (h e hmem).resolve_right hmark⟩
  have hinj : ∀ e ∈ s.window, ∀ e' ∈ s.window, e.1 = e'.1 → e = e' := by
    intro e he e' he' heq
    exact List.inj_on_of_nodup_map s.recents.nodup (mem_window.mp he).1 (mem_window.mp he').1 heq
  refine (Finset.card_le_card_of_injOn Prod.fst hmaps hinj).trans ?_
  rw [Nat.card_Ioc]
  omega

theorem seenTimes_eq_card (s : Snapshot) (signer : Address) :
    s.seenTimes signer = (s.window.filter fun e => e.2 = signer).card := by
  have hset : s.window.filter (fun e => e.2 = signer) = (counted s signer).toFinset := by
    ext e
    rw [Finset.mem_filter, mem_window, List.mem_toFinset, mem_counted, and_assoc, and_assoc]
  rw [hset, List.toFinset_card_of_nodup (nodup_counted s signer)]
  rfl

/-- At most half of the validators are held back. -/
theorem held_back_le_half {s : Snapshot} (h : s.Dated) (hnodup : s.validators.Nodup)
    (hturn : 1 ≤ s.turnLength) :
    (s.validators.filter fun v => s.signRecently v).length ≤ s.validators.length / 2 := by
  set held := (s.validators.filter fun v => s.signRecently v).toFinset with hheld
  have hcard : held.card = (s.validators.filter fun v => s.signRecently v).length :=
    List.toFinset_card_of_nodup (hnodup.filter _)
  have hturns : ∀ v ∈ held, s.turnLength ≤ (s.window.filter fun e => e.2 = v).card := by
    intro v hv
    have hsigned := (List.mem_filter.mp (List.mem_toFinset.mp hv)).2
    rw [signRecently, decide_eq_true_iff] at hsigned
    rw [← seenTimes_eq_card]
    omega
  have htaken := (RoundRobin.card_mul_le hturns).trans (card_window_le h)
  rw [← hcard]
  rw [delay, minerHistoryCheckLen, nSeal] at htaken
  have hmod : s.validators.length % 2 ^ 32 / 2 ≤ s.validators.length / 2 :=
    Nat.div_le_div_right (Nat.mod_le _ _)
  split at htaken
  · have := Nat.le_of_mul_le_mul_right (htaken.trans (Nat.zero_le (0 * s.turnLength))) hturn
    omega
  · by_contra hlt
    have hmore : s.validators.length % 2 ^ 32 / 2 + 1 ≤ held.card := by omega
    have hpos := Nat.mul_pos (Nat.succ_pos (s.validators.length % 2 ^ 32 / 2)) hturn
    exact absurd ((Nat.mul_le_mul_right s.turnLength hmore).trans htaken)
      (Nat.not_le.mpr (Nat.sub_lt hpos Nat.one_pos))

/-! ## A chain on schedule -/

/-- Every sealer in `recents` was in turn, by the set in force. -/
def OnSchedule (s : Snapshot) : Prop :=
  ∀ e ∈ s.recents.entries, e.2 ≠ recentEpochSentinel →
    s.validators[RoundRobin.slot s.validators.length s.turnLength e.1]? = some e.2

theorem inturnValidator_eq {s : Snapshot} (hne : s.validators ≠ []) (hturn : 1 ≤ s.turnLength)
    (hroom : s.number + 1 < u64Size) : s.inturnValidator =
      s.validators[RoundRobin.slot s.validators.length s.turnLength (s.number + 1)]? := by
  have hlen : s.validators.length ≠ 0 := fun h => hne (List.length_eq_zero_iff.mp h)
  unfold inturnValidator
  simp only
  rw [if_neg (by omega), satAdd_of_lt hroom]
  rfl

/-- The one in turn has not used up a turn of the window. -/
theorem not_signRecently_inturn {s : Snapshot} (hdated : s.Dated) (hon : s.OnSchedule)
    (hnodup : s.validators.Nodup) (hne : s.validators ≠ []) (hturn : 1 ≤ s.turnLength)
    (hroom : s.number + 1 < u64Size) {v : Address} (hv : s.inturnValidator = some v) :
    s.signRecently v = false := by
  have hlen : 0 < s.validators.length := List.length_pos_iff.mpr hne
  rw [inturnValidator_eq hne hturn hroom] at hv
  have hmaps : ∀ e ∈ s.window.filter (fun e => e.2 = v), e.1 ∈
      (Finset.Ico (s.number + 1 - s.delay) (s.number + 1)).filter fun k =>
        RoundRobin.slot s.validators.length s.turnLength k =
          RoundRobin.slot s.validators.length s.turnLength (s.number + 1) := by
    intro e he
    obtain ⟨hwin, rfl⟩ := Finset.mem_filter.mp he
    obtain ⟨hmem, hlow, hmark⟩ := mem_window.mp hwin
    have hle := (hdated e hmem).resolve_right hmark
    rw [Finset.mem_filter, Finset.mem_Ico]
    refine ⟨⟨by omega, by omega⟩, ?_⟩
    have hslot := hon e hmem hmark
    rw [← hv] at hslot
    exact (List.getElem?_inj (RoundRobin.slot_lt hlen _ _) hnodup).mp hslot
  have hinj : ∀ e ∈ s.window.filter (fun e => e.2 = v),
      ∀ e' ∈ s.window.filter (fun e => e.2 = v), e.1 = e'.1 → e = e' := by
    intro e he e' he' heq
    exact List.inj_on_of_nodup_map s.recents.nodup (mem_window.mp (Finset.mem_filter.mp he).1).1
      (mem_window.mp (Finset.mem_filter.mp he').1).1 heq
  have hround : s.delay + 1 ≤ s.validators.length * s.turnLength := by
    rw [delay, minerHistoryCheckLen, nSeal]
    have hmod := Nat.mod_le s.validators.length (2 ^ 32)
    have hmul : (s.validators.length % 2 ^ 32 / 2 + 1) * s.turnLength ≤
        s.validators.length * s.turnLength := Nat.mul_le_mul_right _ (by omega)
    have hpos : 1 ≤ s.validators.length * s.turnLength := Nat.mul_pos hlen hturn
    have hpos' := Nat.mul_pos (Nat.succ_pos (s.validators.length % 2 ^ 32 / 2)) hturn
    split
    · exact hpos
    · exact (Nat.sub_add_cancel hpos').le.trans hmul
  have hbefore := RoundRobin.card_before (s.number + 1 - s.delay) hlen hturn
    (by omega : s.number + 1 < s.number + 1 - s.delay + s.validators.length * s.turnLength)
  have hseen := (Finset.card_le_card_of_injOn Prod.fst hmaps hinj).trans_lt hbefore
  rw [← seenTimes_eq_card] at hseen
  rw [signRecently, decide_eq_false_iff_not]
  omega

theorem OnSchedule.trimRecents {s : Snapshot} (h : s.OnSchedule) (n : ℕ) :
    (s.trimRecents n).OnSchedule :=
  fun e he hmark => h e (mem_of_mem_trimRecents he) hmark

/-- A header of the validator in turn keeps the chain on schedule; a set switch starts it anew. -/
theorem OnSchedule.next {P : Primitives} {s : Snapshot} {header : RpcBlockHeader}
    {signer : Address} {l : Link} {b : Body} {milli : ℕ} (h : s.OnSchedule)
    (habove : header.AboveGenesis) (hacc : Accepts P s header signer l b milli) (hne : s.validators ≠ [])
    (hturn : 1 ≤ s.turnLength) (hin : s.inturnValidator = some signer) :
    (s.next signer l b milli).OnSchedule := by
  intro e he hmark
  obtain ⟨⟨hwhich, -⟩, hstay⟩ := (mem_next_recents_iff hmark).mp he
  have hroom : s.number + 1 < u64Size := by
    rw [← hacc.link.number_eq habove]
    exact decodeU64_lt hacc.link.number
  rcases s.next_sets signer l b milli with
    ⟨p, hp, hat, -⟩ | ⟨-, -, -, -, hvals, hlength, -⟩
  · exact absurd hat (hstay p hp)
  · rw [hvals, hlength]
    rcases hwhich with rfl | ⟨hold, -⟩
    · simp only
      rw [hacc.link.number_eq habove, ← inturnValidator_eq hne hturn hroom]
      exact hin
    · exact h e (mem_of_mem_trimRecents hold) hmark

/-- What a header has to say besides who seals it: it is sealed by `v`, in turn, on top of the tip, and
its `extraData` passes. -/
structure Proposes (P : Primitives) (s : Snapshot) (v : Address) (header : RpcBlockHeader) (now : ℕ) :
    Prop where
  sealed : verifySealCoinbase P header now = .ok v
  number : decodeU64 header.number = .ok (s.number + 1)
  parent : decodeHexFixed 32 header.parentHash = .ok s.hash
  difficulty : decodeU64 header.difficulty = .ok diffInTurn
  extra : ∃ extra p time adopted, decodeHex header.extraData = .ok extra ∧
    parseExtra extra .bohr (decide ((s.number + 1) % s.epochLength = 0)) = .ok p ∧
    ((s.number + 1) % s.epochLength = 0 → p.validators ≠ []) ∧
    decodeU64 header.timestamp = .ok time ∧
    s.checkAttestation P p.attestation (s.number + 1) time = .ok adopted

theorem verifyOutOfTurnBackoff_inturn {ctx : BackoffContext} {header : RpcBlockHeader}
    (h : decodeU64 header.difficulty = .ok diffInTurn) :
    verifyOutOfTurnBackoff ctx header = .ok () := by
  unfold verifyOutOfTurnBackoff
  split
  · rfl
  · rw [h]
    rfl

/-- No rule about who may seal refuses the header of the validator in turn. -/
theorem Proposes.accepts {P : Primitives} {s : Snapshot} {v : Address} {header : RpcBlockHeader}
    {now : ℕ} (h : s.Proposes P v header now) (hmember : s.contains v = true)
    (hin : s.inturnValidator = some v)
    (hfree : (s.trimRecents (s.number + 1)).signRecently v = false) :
    ∃ l b milli, Accepts P s header v l b milli := by
  obtain ⟨extra, p, time, adopted, hextra, hparse, hvals, htime, hadopted⟩ := h.extra
  have hseal := sealOk_of_verify h.sealed
  obtain ⟨hash, -, hhash⟩ := hseal.hash_eq
  obtain ⟨milli, hmilli⟩ := hseal.milli_ok
  have hexpected : s.expectedDifficulty v = diffInTurn := if_pos hin
  have hfollows : s.number + 1 = wrapSucc s.number :=
    (wrapSucc_of_lt (decodeU64_lt h.number)).symm
  exact ⟨⟨s.number + 1, time, hash⟩, ⟨decide ((s.number + 1) % s.epochLength = 0), p, adopted⟩, milli,
    { link := ⟨h.number, htime, h.parent, hhash, hfollows, hmember, diffInTurn, h.difficulty, .inr rfl,
        fun _ => hexpected.symm⟩
      body := ⟨hfree, verifyOutOfTurnBackoff_inturn h.difficulty, rfl, ⟨extra, hextra, hparse⟩,
        hadopted, fun he => hvals (of_decide_eq_true he)⟩
      milli := hmilli }⟩

theorem Shaped.exists_inturn {s : Snapshot} (h : s.Shaped) :
    ∃ v ∈ s.validators, s.inturnValidator = some v := by
  have hlen := List.length_pos_iff.mpr h.nonempty
  have hturn := h.turn.1
  obtain ⟨v, hv⟩ : ∃ v, s.inturnValidator = some v := by
    unfold inturnValidator
    simp only
    rw [if_neg (by omega)]
    exact ⟨_, List.getElem?_eq_getElem (Nat.mod_lt _ hlen)⟩
  refine ⟨v, ?_, hv⟩
  unfold inturnValidator at hv
  simp only at hv
  rw [if_neg (by omega)] at hv
  exact List.mem_of_getElem? hv

end Snapshot

namespace LightEngine

variable {P : Primitives}

theorem dated_walk {cp : Checkpoint} {header : RpcBlockHeader} {now : ℕ} {e₀ : LightEngine}
    (h : fromCheckpointAndHeader P cp header now = .ok e₀) {calls : List (RpcBlockHeader × ℕ)}
    (hunwrapped : Unwrapped P e₀ calls) : (walk P e₀ calls).snapshot.Dated := by
  obtain ⟨-, hs, -⟩ := fromCheckpointAndHeader_ok h
  obtain ⟨-, -, -, -, -, -, hrecents, -⟩ := Snapshot.fromCheckpoint_ok hs
  refine walk_snapshot_invariant_mem (I := Snapshot.Dated) (fun _ n hi => hi.trimRecents n)
    (fun _ call hcall _ _ _ _ hacc hi => hi.next (hunwrapped call hcall) hacc) ?_
  intro e he
  rw [hrecents] at he
  cases he

/-- The chain is never stuck. An engine built from a valid checkpoint, with the checkpoint and its
header from Maxwell on and a gas limit in the header, holds after every sequence of calls at most
half of its validators back: the others, at least one, may seal the next block as far as
`sign_recently` goes. -/
theorem half_may_seal {cp : Checkpoint} {header : RpcBlockHeader} {now time gas : ℕ}
    {e₀ : LightEngine} (h : fromCheckpointAndHeader P cp header now = .ok e₀)
    (hcp : maxwellTime ≤ cp.timestamp) (htime : decodeU64 header.timestamp = .ok time)
    (hmaxwell : maxwellTime ≤ time) (hgas : decodeU64 header.gasLimit = .ok gas) (hpos : gas ≠ 0)
    {calls : List (RpcBlockHeader × ℕ)} (hunwrapped : Unwrapped P e₀ calls) :
    let s := (walk P e₀ calls).snapshot
    (s.validators.filter fun v => (s.trimRecents (s.number + 1)).signRecently v).length ≤
        s.validators.length / 2 ∧
      ∃ v ∈ s.validators, (s.trimRecents (s.number + 1)).signRecently v = false := by
  have hshaped : (walk P e₀ calls).Shaped := Machine.run_invariant (fun e call he => he.step call)
    (shaped_fromCheckpointAndHeader h hcp htime hmaxwell hgas hpos) calls
  have hdated := dated_walk h hunwrapped
  obtain ⟨hs, -⟩ := hshaped
  generalize (walk P e₀ calls).snapshot = s at hs hdated
  have hhalf := Snapshot.held_back_le_half hdated hs.nodup hs.turn.1
  have hsame : ∀ v, (s.trimRecents (s.number + 1)).signRecently v = s.signRecently v :=
    Snapshot.signRecently_trimRecents hs.turn.2
  simp only [hsame]
  refine ⟨hhalf, ?_⟩
  by_contra! hnone
  have hall : s.validators.filter (fun v => s.signRecently v) = s.validators := by
    apply List.filter_eq_self.mpr
    intro v hv
    simpa using hnone v hv
  rw [hall] at hhalf
  have := List.length_pos_iff.mpr hs.nonempty
  omega

/-- What holds along a chain on schedule. -/
structure Scheduled (e : LightEngine) : Prop where
  shaped : e.Shaped
  dated : e.snapshot.Dated
  onSchedule : e.snapshot.OnSchedule
  enforced : e.snapshot.enforceInturn = true

theorem Scheduled.accepts {e : LightEngine} (h : e.Scheduled) {v : Address}
    (hmem : v ∈ e.snapshot.validators) (hv : e.snapshot.inturnValidator = some v)
    {header : RpcBlockHeader} {now : ℕ} (hprop : e.snapshot.Proposes P v header now) :
    ∃ l b milli, Snapshot.Accepts P e.snapshot header v l b milli := by
  obtain ⟨⟨hshape, -⟩, hdated, hon, -⟩ := h
  apply hprop.accepts ((Snapshot.contains_iff hshape.aligned.ordered).mpr hmem) hv
  rw [Snapshot.signRecently_trimRecents hshape.turn.2]
  exact Snapshot.not_signRecently_inturn hdated hon hshape.nodup hshape.nonempty hshape.turn.1
    (decodeU64_lt hprop.number) hv

theorem Scheduled.step {e : LightEngine} (h : e.Scheduled) (call : RpcBlockHeader × ℕ)
    (habove : (step P e call).1 = .ok () → call.1.AboveGenesis)
    (hin : (step P e call).1 = .ok () → decodeU64 call.1.difficulty = .ok diffInTurn) :
    (step P e call).2.Scheduled := by
  have hshaped := h.shaped.step (P := P) call
  cases hr : (LightEngine.step P e call).1 with
  | ok r =>
    obtain ⟨signer, l, b, milli, block, -, hacc, -, -, hnext⟩ := step_ok hr
    obtain ⟨d, hd, -, hexpected⟩ := hacc.link.difficulty
    have hturn := hexpected h.enforced
    rw [Except.ok.inj (hd.symm.trans (hin hr))] at hturn
    have hinturn : e.snapshot.inturnValidator = some signer := by
      by_contra hne
      rw [Snapshot.expectedDifficulty, if_neg hne] at hturn
      cases hturn
    refine ⟨hshaped, ?_, ?_, ?_⟩ <;> rw [hnext]
    · exact h.dated.next (habove hr) hacc
    · exact h.onSchedule.next (habove hr) hacc h.shaped.snapshot.nonempty
        h.shaped.snapshot.turn.1 hinturn
    · exact (Snapshot.next_enforceInturn _ _ _ _ _).trans h.enforced
  | error err =>
    refine ⟨hshaped, ?_, ?_, ?_⟩ <;> rcases step_error hr with hs | ⟨-, hs⟩ <;> rw [hs]
    · exact h.dated
    · exact h.dated.trimRecents _
    · exact h.onSchedule
    · exact h.onSchedule.trimRecents _
    · exact h.enforced
    · exact h.enforced

theorem scheduled_start {cp : Checkpoint} {header : RpcBlockHeader} {now : ℕ} {e₀ : LightEngine}
    (h : fromCheckpointAndHeader P cp header now = .ok e₀) (hshaped : e₀.Shaped) :
    e₀.Scheduled := by
  obtain ⟨-, hs, -⟩ := fromCheckpointAndHeader_ok h
  obtain ⟨-, -, -, -, -, henforced, hrecents, -⟩ := Snapshot.fromCheckpoint_ok hs
  refine ⟨hshaped, dated_walk h .nil, ?_, henforced⟩
  intro e he
  rw [hrecents] at he
  cases he

/-- The schedule can be kept. Under the same conditions, along every sequence of calls of which all
accepted headers are in turn, whatever sets and turn lengths are announced and activated on the way:
one validator of the set is in turn, and `apply_header` of the snapshot accepts each header that it
seals on top of the tip with the in-turn difficulty and an `extraData` that passes. -/
theorem schedule_can_be_kept {cp : Checkpoint} {header : RpcBlockHeader} {now time gas : ℕ}
    {e₀ : LightEngine} (h : fromCheckpointAndHeader P cp header now = .ok e₀)
    (hcp : maxwellTime ≤ cp.timestamp) (htime : decodeU64 header.timestamp = .ok time)
    (hmaxwell : maxwellTime ≤ time) (hgas : decodeU64 header.gasLimit = .ok gas) (hpos : gas ≠ 0)
    {calls : List (RpcBlockHeader × ℕ)} (hunwrapped : Unwrapped P e₀ calls)
    (hin : Machine.Along (step P) (fun e call => (step P e call).1 = .ok () →
      decodeU64 call.1.difficulty = .ok diffInTurn) e₀ calls) :
    let s := (walk P e₀ calls).snapshot
    ∃ v ∈ s.validators, s.inturnValidator = some v ∧
      ∀ next clock, s.Proposes P v next clock → (s.applyHeader P next clock).1 = .ok v := by
  have hstart := scheduled_start h (shaped_fromCheckpointAndHeader h hcp htime hmaxwell hgas hpos)
  have hend : (walk P e₀ calls).Scheduled :=
    Machine.run_invariant_of (fun e call he hc => he.step call hc.1 hc.2) hstart calls
      (hunwrapped.along.and hin)
  obtain ⟨v, hmem, hv⟩ := hend.shaped.snapshot.exists_inturn
  refine ⟨v, hmem, hv, fun next clock hprop => ?_⟩
  obtain ⟨l, b, milli, hacc⟩ := hend.accepts hmem hv hprop
  rw [Snapshot.applyHeader_of_accepts hprop.sealed hacc]

theorem maxwell_of_genesis {cp : Checkpoint} {header : RpcBlockHeader} {now milli : ℕ}
    {e₀ : LightEngine} (h : fromCheckpointAndHeader P cp header now = .ok e₀)
    (htip : ∃ b, e₀.chain.getLast? = some b ∧ b.milliTimestamp = milli ∧ b.gasLimit = mockGasLimit)
    (hmilli : maxwellTime * 1000 ≤ milli) :
    ∃ time, decodeU64 header.timestamp = .ok time ∧ maxwellTime ≤ time ∧
      decodeU64 header.gasLimit = .ok mockGasLimit := by
  obtain ⟨signer, genesis, hseal, hchain, hgenesis, hgas⟩ := fromCheckpointAndHeader_genesis h
  obtain ⟨b, hb, rfl, hbgas⟩ := htip
  obtain rfl : genesis = b := by
    rw [hchain] at hb
    exact Option.some.inj hb
  obtain ⟨hash', hhash, -⟩ := hseal.hash_eq
  obtain ⟨-, -, time, htime⟩ := headerHash_reads hhash
  exact ⟨time, htime, (hseal.maxwell_iff htime hgenesis).mp hmilli, hbgas ▸ hgas⟩

theorem mockGasLimit_ne_zero : mockGasLimit ≠ 0 := by decide

/-- On the mock's chain, whatever headers come after the checkpoint, its only validator may seal. -/
theorem half_may_seal_sole : ∃ e₀ : LightEngine, ∀ calls, Unwrapped mockPrimitives e₀ calls →
    let s := (walk mockPrimitives e₀ calls).snapshot
    ∃ v ∈ s.validators, (s.trimRecents (s.number + 1)).signRecently v = false := by
  obtain ⟨header, hash, e₀, h, hsole, -⟩ := exists_start_engine (.repeated 48 1)
  obtain ⟨time, htime, hmaxwell, hgas⟩ := maxwell_of_genesis h hsole.tip (by decide)
  have hcp : maxwellTime ≤ (blankDraft sealedChainStart).time := by decide
  exact ⟨e₀, fun calls hunwrapped =>
    (half_may_seal h hcp htime hmaxwell hgas mockGasLimit_ne_zero hunwrapped).2⟩

/-- A young chain of the pool, on schedule. Its validators may seal again. -/
structure PoolScheduled (e : LightEngine) : Prop where
  scheduled : e.Scheduled
  pool : e.synced.Pool poolMembers poolMembers

namespace PoolScheduled

variable {e : LightEngine}

theorem perm_validators (h : e.PoolScheduled) : poolMembers.Perm e.snapshot.validators := by
  have hpool : e.snapshot.Pool poolMembers poolMembers := h.pool.snapshot
  have hsub : poolMembers ⊆ e.snapshot.validators := fun a ha =>
    (Snapshot.contains_iff h.scheduled.shaped.snapshot.aligned.ordered).mp (hpool.validators a ha)
  exact (List.subperm_of_subset nodup_poolMembers hsub).perm_of_length_le hpool.count.le

theorem exists_proposes (h : e.PoolScheduled) (hroom : e.snapshot.number < sealedChainStart + 24) :
    ∃ v ∈ e.snapshot.validators, e.snapshot.inturnValidator = some v ∧ ∃ header now,
      e.snapshot.Proposes mockPrimitives v header now ∧ e.parentChecks header = .ok () ∧
      milliTimestamp header = .ok (poolMilli (e.snapshot.number + 1)) ∧
      decodeU64 header.gasLimit = .ok mockGasLimit := by
  have hpool : e.snapshot.Pool poolMembers poolMembers := h.pool.snapshot
  obtain ⟨v, hmem, hv⟩ := h.scheduled.shaped.snapshot.exists_inturn
  obtain ⟨sk, -, rfl⟩ := List.mem_map.mp (h.perm_validators.mem_iff.mpr hmem)
  have hfits := hpool.poolDraft_fits hroom sk.address (.repeated 32 0)
  have hplain := hpool.plain hroom
  have hdifficulty : e.snapshot.expectedDifficulty sk.address = diffInTurn := if_pos hv
  obtain ⟨tip, htip, hmilli, hgas⟩ := h.pool.tip
  have hlater : tip.milliTimestamp + 1000 ≤
      (poolDraft e.snapshot sk.address (.repeated 32 0)).milli := by
    rw [hmilli]
    exact hpool.poolMilli_succ.ge
  obtain ⟨sealBytes, hash, -, -, -, hverified⟩ := verifySealCoinbase_sealOne sk hfits (.inl hplain)
  obtain ⟨p, hp, -, -, hpa⟩ :=
    (poolDraft e.snapshot sk.address (.repeated 32 0)).carries_plain sealBytes
  refine ⟨sk.address, hmem, hv, _, _, ⟨hverified _ le_rfl hfits.time.2, hfits.reads.number,
    decodeHexFixed_hexPrefixed _, ?_, _, p, _, none, decodeHex_hexPrefixed _, ?_, ?_,
    hfits.reads.time, ?_⟩, ?_, Draft.milliTimestamp_header _ _ _ hfits, hfits.reads.gasLimit⟩
  · rw [← hdifficulty]
    exact hfits.reads.difficulty
  · rwa [hpool.epoch, decide_eq_false hplain]
  · rw [hpool.epoch]
    exact fun hzero => absurd hzero hplain
  · rw [hpa]
    rfl
  · unfold parentChecks
    rw [show e.chain.getLast? = some tip from htip]
    simp only [hgas]
    exact Draft.verifyCascadingVsParent_header _ _ _ hfits hlater

theorem step (h : e.PoolScheduled) (hroom : e.snapshot.number < sealedChainStart + 24) :
    ∃ call, decodeU64 call.1.difficulty = .ok diffInTurn ∧
      (LightEngine.step mockPrimitives e call).1 = .ok () ∧
      (LightEngine.step mockPrimitives e call).2.PoolScheduled ∧
      (LightEngine.step mockPrimitives e call).2.snapshot.number = e.snapshot.number + 1 := by
  have hpool : e.snapshot.Pool poolMembers poolMembers := h.pool.snapshot
  obtain ⟨v, hmem, hv, header, now, hprop, hparent, hmilli, hgas⟩ := h.exists_proposes hroom
  obtain ⟨l, b, milli, hacc⟩ := h.scheduled.accepts hmem hv hprop
  obtain ⟨block, hof, hr⟩ := applyHeader_of_accepts hprop.sealed hacc hparent
  have hstep : LightEngine.step mockPrimitives e (header, now) =
      (.ok (), e.advance (e.snapshot.next v l b milli) block) := hr
  have hnumber : l.number = e.snapshot.number + 1 :=
    Except.ok.inj (hacc.link.number.symm.trans hprop.number)
  have hplain : b.isEpoch = false := by
    rw [hacc.body.isEpoch, hnumber]
    change decide ((e.snapshot.number + 1) % e.snapshot.epochLength = 0) = false
    rw [hpool.epoch]
    exact decide_eq_false (hpool.plain hroom)
  have hscheduled := h.scheduled.step (P := mockPrimitives) (header, now)
    (fun _ => RpcBlockHeader.aboveGenesis_of_number hprop.number (Nat.succ_ne_zero _))
    fun _ => hprop.difficulty
  rw [hstep] at hscheduled
  refine ⟨(header, now), hprop.difficulty, ?_⟩
  rw [hstep]
  refine ⟨rfl, ⟨hscheduled, (hpool.next hnumber hroom hplain).mono ?_, block, ?_, ?_, ?_⟩, hnumber⟩
  · exact List.cons_subset.mpr ⟨h.perm_validators.mem_iff.mpr hmem, List.Subset.refl _⟩
  · rw [synced, advance, getLast?_trimChain, List.getLast?_concat]
  · rw [hof.milli, Except.ok.inj (hacc.milli.symm.trans hmilli), ← hnumber]
    rfl
  · exact Except.ok.inj (hof.gasLimit.symm.trans hgas)

theorem run (h : e.PoolScheduled) {k : ℕ} (hroom : e.snapshot.number + k ≤ sealedChainStart + 24) :
    ∃ calls, calls.length = k ∧
      Machine.Along (LightEngine.step mockPrimitives)
        (fun e call => (LightEngine.step mockPrimitives e call).1 = .ok () ∧
          decodeU64 call.1.difficulty = .ok diffInTurn) e calls ∧
      (walk mockPrimitives e calls).PoolScheduled ∧
      (walk mockPrimitives e calls).snapshot.number = e.snapshot.number + k := by
  induction k generalizing e with
  | zero => exact ⟨[], rfl, Machine.along_nil, h, rfl⟩
  | succ k ih =>
    obtain ⟨call, hdifficulty, hok, hnext, hnumber⟩ := h.step (by omega)
    obtain ⟨calls, hlength, hall, hend, hlast⟩ := ih hnext (by omega)
    exact ⟨call :: calls, congrArg Nat.succ hlength,
      Machine.along_cons.mpr ⟨⟨hok, hdifficulty⟩, hall⟩, hend, hlast.trans (by omega)⟩

end PoolScheduled

/-- Twelve blocks of the pool's twenty-four validators on schedule, in the course of which two turns
end: the one in turn next proposes a header, and it is accepted. -/
theorem schedule_can_be_kept_pool : ∃ (e₀ : LightEngine) (calls : List (RpcBlockHeader × ℕ))
    (v : Address) (next : RpcBlockHeader) (clock : ℕ),
    let s := (walk mockPrimitives e₀ calls).snapshot
    calls.length = 12 ∧ s.number = e₀.snapshot.number + 12 ∧ s.validators.length = 24 ∧
    s.inturnValidator = some v ∧ s.Proposes mockPrimitives v next clock ∧
    (s.applyHeader mockPrimitives next clock).1 = .ok v := by
  obtain ⟨header, e₀, h, -, hpool, hnumber, -⟩ := exists_pool_engine
  obtain ⟨time, htime, hmaxwell, hgas⟩ := maxwell_of_genesis h hpool.tip (by
    change _ ≤ poolMilli e₀.snapshot.number
    rw [hnumber]
    decide)
  have hcp : maxwellTime ≤ (blankDraft sealedChainStart).time := by decide
  have hstart : e₀.PoolScheduled :=
    ⟨scheduled_start h (shaped_fromCheckpointAndHeader h hcp htime hmaxwell hgas
      mockGasLimit_ne_zero), hpool.snapshot.mono (List.nil_subset _), hpool.tip⟩
  obtain ⟨calls, hlength, hin, hend, hlast⟩ := hstart.run (k := 12) (by rw [hnumber]; omega)
  have hunwrapped : Unwrapped mockPrimitives e₀ calls := by
    refine .of_fits (Draft.small_lt_u64Size ?_)
    rw [hnumber, hlength]
    decide
  obtain ⟨v, -, hv, haccepted⟩ := schedule_can_be_kept h hcp htime hmaxwell hgas
    mockGasLimit_ne_zero hunwrapped fun before call after heq _ => (hin before call after heq).2
  obtain ⟨v', -, hv', next, clock, hprop, -⟩ :=
    hend.exists_proposes (by rw [hlast, hnumber]; omega)
  obtain rfl : v = v' := Option.some.inj (hv.symm.trans hv')
  exact ⟨e₀, calls, v, next, clock, hlength, hlast, hend.pool.snapshot.count.trans length_poolMembers, hv,
    hprop, haccepted _ _ hprop⟩

end LightEngine

end HeliosBsc
