import HeliosBsc.Consensus.SealingRate

/-!
# A refused header

`apply_verified` trims `recents` before its last checks, so a refused header may leave a trace: the
entry at the left bound of the `SignRecently` window is gone. The next header that comes as far as
the trim removes that entry anyway, so the trace shows in no answer.
-/

namespace HeliosBsc

open Checked

theorem Recents.remove_remove (r : Recents) (block : ℕ) :
    (r.remove block).remove block = r.remove block := by
  refine Recents.ext ?_
  unfold Recents.remove Recents.retain
  simp only [List.filter_filter, Bool.and_self]

namespace Snapshot

@[simp] theorem trimRecents_trimRecents (s : Snapshot) (n : ℕ) :
    (s.trimRecents n).trimRecents n = s.trimRecents n := by
  have hrecents : ((s.trimRecents n).trimRecents n).recents = (s.trimRecents n).recents := by
    change (if satAdd s.delay 1 ≤ n then _ else _) = if satAdd s.delay 1 ≤ n then _ else _
    by_cases hle : satAdd s.delay 1 ≤ n
    · simp only [if_pos hle, trimRecents]
      exact Recents.remove_remove _ _
    · simp only [if_neg hle, trimRecents]
  exact congrArg (fun r => { s with recents := r }) hrecents

/-- Trimming for the next header removes the entry at the left bound, or nothing. After the last
`u64` it removes nothing. -/
theorem trimRecents_cases (s : Snapshot) (hlt : wrapSucc s.number < u64Size) :
    s.trimRecents (wrapSucc s.number) = s ∨ s.trimRecents (wrapSucc s.number) =
      { s with recents := s.recents.remove (s.number - s.delay) } := by
  have hpos : 0 < satAdd s.delay 1 := by
    have hsize := u64Size_eq
    unfold satAdd
    omega
  by_cases hle : satAdd s.delay 1 ≤ wrapSucc s.number
  · right
    have hup : wrapSucc s.number = s.number + 1 := eq_succ_of_wrapSucc rfl (by omega)
    rw [hup] at hle hlt ⊢
    have hbound : s.number + 1 - satAdd s.delay 1 = s.number - s.delay := by
      unfold satAdd at *
      omega
    simp only [trimRecents, if_pos hle, hbound]
  · left
    simp only [trimRecents, if_neg hle]

/-- The snapshots differ at most in the entry of `recents` that the next header trims. -/
def Alike (s t : Snapshot) : Prop := s = t ∨ s = t.trimRecents (wrapSucc t.number)

namespace Alike

variable {s t u : Snapshot}

theorem refl (s : Snapshot) : Alike s s := .inl rfl

theorem number_eq (h : Alike s t) : s.number = t.number := by
  rcases h with rfl | rfl <;> rfl

theorem hash_eq (h : Alike s t) : s.hash = t.hash := by
  rcases h with rfl | rfl <;> rfl

/-- One more trim makes no difference. -/
theorem trimRecents (h : Alike s t) : Alike (s.trimRecents (wrapSucc s.number)) t := by
  rw [h.number_eq]
  rcases h with rfl | rfl
  · exact .inr rfl
  · exact .inr (trimRecents_trimRecents t _)

/-- `apply_verified` gives alike snapshots the same answer and leaves them alike: past the link
checks both have been trimmed. -/
theorem applyVerified (h : Alike s t) (P : Primitives) (header : RpcBlockHeader)
    (signer : Address) :
    (s.applyVerified P header signer).1 = (t.applyVerified P header signer).1 ∧
      Alike (s.applyVerified P header signer).2 (t.applyVerified P header signer).2 := by
  rcases h with rfl | rfl
  · exact ⟨rfl, .refl _⟩
  · have hlink : (t.trimRecents (wrapSucc t.number)).linkChecks header signer =
        t.linkChecks header signer := rfl
    unfold Snapshot.applyVerified
    rw [hlink]
    cases hl : t.linkChecks header signer with
    | error e => exact ⟨rfl, .inr rfl⟩
    | ok l =>
      simp only [(linkChecks_eq_ok.mp hl).follows, trimRecents_trimRecents]
      exact ⟨trivial, .refl _⟩

theorem applyHeader (h : Alike s t) (P : Primitives) (header : RpcBlockHeader) (now : ℕ) :
    (s.applyHeader P header now).1 = (t.applyHeader P header now).1 ∧
      Alike (s.applyHeader P header now).2 (t.applyHeader P header now).2 := by
  unfold Snapshot.applyHeader
  cases verifySealCoinbase P header now with
  | error e => exact ⟨rfl, h⟩
  | ok signer =>
    obtain ⟨hans, hnext⟩ := h.applyVerified P header signer
    simp only
    rcases hs : s.applyVerified P header signer with ⟨a, s'⟩
    rcases ht : t.applyVerified P header signer with ⟨a', t'⟩
    rw [hs, ht] at hans hnext
    simp only at hans hnext
    subst hans
    cases a with
    | error e => exact ⟨rfl, hnext⟩
    | ok u => exact ⟨rfl, hnext⟩

theorem nSeal_eq (h : Alike s t) : s.nSeal = t.nSeal := by
  rcases h with rfl | rfl <;> rfl

end Alike

end Snapshot

namespace LightEngine

/-- Engines whose snapshots are alike, and that are equal otherwise. -/
def Alike (e f : LightEngine) : Prop :=
  ∃ s, e = { f with snapshot := s } ∧ Snapshot.Alike s f.snapshot

/-- Alike engines answer every call alike and stay alike. -/
theorem Alike.step {P : Primitives} {e f : LightEngine} (h : Alike e f)
    (call : RpcBlockHeader × ℕ) :
    (LightEngine.step P e call).1 = (LightEngine.step P f call).1 ∧
      Alike (LightEngine.step P e call).2 (LightEngine.step P f call).2 := by
  obtain ⟨s, rfl, hs⟩ := h
  have hpre : ({ f with snapshot := s } : LightEngine).preChecks call.1 = f.preChecks call.1 := rfl
  obtain ⟨hans, hnext⟩ := hs.applyHeader P call.1 call.2
  unfold LightEngine.step applyHeader
  rw [hpre]
  cases f.preChecks call.1 with
  | error err => exact ⟨rfl, s, rfl, hs⟩
  | ok number =>
    simp only
    rcases hr : s.applyHeader P call.1 call.2 with ⟨a, s'⟩
    rcases hr' : f.snapshot.applyHeader P call.1 call.2 with ⟨a', t'⟩
    rw [hr, hr'] at hans hnext
    simp only at hans hnext
    subst hans
    cases a with
    | error err => exact ⟨rfl, s', rfl, hnext⟩
    | ok signer =>
      simp only
      cases verifiedBlock call.1 number signer with
      | error err => exact ⟨rfl, s', rfl, hnext⟩
      | ok block =>
        refine ⟨rfl, s', ?_, hnext⟩
        simp only [hnext.nSeal_eq]

/-- A refused header leaves any engine where it was: everything but `recents` is unchanged, `recents`
loses at most the entry at the left bound of its window, and every later sequence of calls is
answered as without the refused one and leads to the same chain, Safe head, justified and finalized
blocks. -/
theorem refused_header_leaves_engine {P : Primitives} {e : LightEngine} {header : RpcBlockHeader}
    {now : ℕ} {err : ConsensusError} (hrefused : (e.applyHeader P header now).1 = .error err) :
    let e' := (e.applyHeader P header now).2
    e'.chain = e.chain ∧ e'.safe = e.safe ∧ e'.checkpoint = e.checkpoint ∧
    e'.proofLookback = e.proofLookback ∧
    e'.snapshot = { e.snapshot with recents := e'.snapshot.recents } ∧
    (e'.snapshot.recents = e.snapshot.recents ∨
      e'.snapshot.recents = e.snapshot.recents.remove (e.snapshot.number - e.snapshot.delay)) ∧
    ∀ later, Machine.answers (step P) e' later = Machine.answers (step P) e later ∧
      (walk P e' later).chain = (walk P e later).chain ∧
      (walk P e' later).safe = (walk P e later).safe ∧
      (walk P e' later).snapshot.justified = (walk P e later).snapshot.justified ∧
      (walk P e' later).snapshot.finalized = (walk P e later).snapshot.finalized := by
  intro e'
  have hsame : e' = e ∨ (wrapSucc e.snapshot.number < u64Size ∧
      e' = { e with snapshot := e.snapshot.trimRecents (wrapSucc e.snapshot.number) }) :=
    @step_error P e (header, now) err hrefused
  have halike : Alike e' e := by
    rcases hsame with h | ⟨-, h⟩
    · rw [h]
      exact ⟨e.snapshot, rfl, .refl _⟩
    · rw [h]
      exact ⟨_, rfl, .inr rfl⟩
  have hrecents : e'.snapshot.recents = e.snapshot.recents ∨
      e'.snapshot.recents = e.snapshot.recents.remove (e.snapshot.number - e.snapshot.delay) := by
    rcases hsame with h | ⟨hlt, h⟩
    · rw [h]
      exact .inl rfl
    · rw [h]
      rcases e.snapshot.trimRecents_cases hlt with ht | ht
      · rw [ht]
        exact .inl rfl
      · rw [ht]
        exact .inr rfl
  have hrest : ∀ {f g : LightEngine}, Alike f g → f.chain = g.chain ∧ f.safe = g.safe ∧
      f.checkpoint = g.checkpoint ∧ f.proofLookback = g.proofLookback ∧
      f.snapshot = { g.snapshot with recents := f.snapshot.recents } ∧
      f.snapshot.justified = g.snapshot.justified ∧ f.snapshot.finalized = g.snapshot.finalized := by
    rintro f g ⟨s, rfl, rfl | rfl⟩ <;> exact ⟨rfl, rfl, rfl, rfl, rfl, rfl, rfl⟩
  have hlater : ∀ later, Machine.answers (step P) e' later = Machine.answers (step P) e later ∧
      Alike (walk P e' later) (walk P e later) := fun later =>
    Machine.run_bisim (R := Alike) (fun _ _ c hr => hr.step c) halike later
  obtain ⟨hchain, hsafe, hcheckpoint, hlookback, hsnapshot, -⟩ := hrest halike
  refine ⟨hchain, hsafe, hcheckpoint, hlookback, hsnapshot, hrecents, fun later => ?_⟩
  obtain ⟨hans, hend⟩ := hlater later
  obtain ⟨hchain', hsafe', -, -, -, hjustified, hfinalized⟩ := hrest hend
  exact ⟨hans, hchain', hsafe', hjustified, hfinalized⟩

section

variable {P : Primitives} {sk : SecretKey P} {votes : List SealingValidator} {number milli : ℕ}
  {e : LightEngine}

/-- A header whose vote cannot be read is refused after the trim. -/
theorem Waits.refuses {p : Option PendingEpoch} (h : Waits sk p votes number milli e)
    (hrange : InRange number milli) (hplain : ¬ (number + 1) % maxwellEpochLength = 0) :
    ∃ header now err, e.applyHeader P header now =
      (.error err, { e with snapshot := e.snapshot.trimRecents (number + 1) }) := by
  have hfits : (e.nextDraft (milli + 1000) [0]).Fits := hrange.nextDraft_fits h.number (by decide)
  have hs := h.sole.snapshot
  rw [← h.number] at hplain
  obtain ⟨sealBytes, hash, -, -, -, hverified⟩ := verifySealCoinbase_sealOne sk hfits (.inl hplain)
  have hverify := hverified _ le_rfl hfits.time.2
  have hlink : e.snapshot.LinkOk ((e.nextDraft (milli + 1000) [0]).header sk.address sealBytes hash)
      sk.address ⟨e.snapshot.number + 1, (e.nextDraft (milli + 1000) [0]).time, hash⟩ :=
    linkOk_header hfits.reads hfits.bounded.difficulty (wrapSucc_of_lt hfits.number.2).symm rfl
      hs.contains_self fun _ => hs.expectedDifficulty_eq.symm
  obtain ⟨err, hrefused⟩ : ∃ err, (e.snapshot.trimRecents (e.snapshot.number + 1)).bodyChecks P
      ((e.nextDraft (milli + 1000) [0]).header sk.address sealBytes hash) sk.address
      ⟨e.snapshot.number + 1, (e.nextDraft (milli + 1000) [0]).time, hash⟩ = .error err := by
    rcases hb : (e.snapshot.trimRecents (e.snapshot.number + 1)).bodyChecks P _ _ _ with err | b
    · exact ⟨err, rfl⟩
    have hok := Snapshot.bodyChecks_eq_ok.mp hb
    obtain ⟨extra, hextra, hparsed⟩ := hok.parsed
    cases (decodeHex_hexPrefixed _).symm.trans hextra
    have hepoch : b.isEpoch = false := by
      rw [hok.isEpoch]
      exact decide_eq_false (hs.epoch.symm ▸ hplain)
    obtain ⟨p, hp, -, -, hraw⟩ := e.nextDraft_carries (milli + 1000) [0] sealBytes
    rw [hepoch] at hparsed
    have hsame : p = b.parsed := Except.ok.inj (hp.symm.trans hparsed)
    obtain ⟨verr, hvote⟩ : ∃ verr, decodeVoteAttestation [0] = .error verr := ⟨_, rfl⟩
    rw [← hraw, hsame] at hvote
    rcases Snapshot.checkAttestation_eq_ok.mp hok.adopted with ⟨hnone, -⟩ | ⟨att, hsome, -⟩
    · cases hvote.symm.trans hnone
    · cases hvote.symm.trans hsome
  refine ⟨(e.nextDraft (milli + 1000) [0]).header sk.address sealBytes hash,
    (e.nextDraft (milli + 1000) [0]).time, .snapshot err, ?_⟩
  unfold applyHeader preChecks Snapshot.applyHeader Snapshot.applyVerified
  rw [hlink.number, parentChecks_header h.sole hfits le_rfl, ← h.number]
  simp only [mapError_ok, ok_bind, pure_eq_ok, hverify, Snapshot.linkChecks_eq_ok.mpr hlink, hrefused]

theorem Waits.fills (h : Waits sk none votes number milli e) (hrange : InRange number milli)
    (hplain : ¬ (number + 1) % maxwellEpochLength = 0) (hsealer : sk.address ≠ recentEpochSentinel) :
    ∃ call, (step P e call).1 = .ok () ∧
      Waits sk none votes (number + 1) (milli + 1000) (step P e call).2 ∧
      ∀ r, r = (number + 1, sk.address) ∨
        (r ∈ e.snapshot.recents.entries ∧ number < r.1 + 7 ∧ r.1 ≤ number) →
        r ∈ (step P e call).2.snapshot.recents.entries := by
  obtain ⟨call, hsteady, ⟨l, b, hl, hb, hnone, hsnapshot⟩, -, -, hnext⟩ :=
    h.wait hrange hplain (by rintro q ⟨⟩)
  refine ⟨call, (hsteady []).accepted, hnext, fun r hr => ?_⟩
  have hs := h.sole.snapshot
  have hregular : e.snapshot.Regular := by
    refine ⟨by rw [hs.turn]; norm_num, ?_⟩
    rw [hs.validators, List.mem_singleton]
    exact hsealer.symm
  have hpending : e.snapshot.pendingDuring l b = none := by
    rw [Snapshot.pendingDuring, hb]
    exact h.pending
  have hfinal : (e.snapshot.next sk.address l b (milli + 1000)).finalizedNumber = 0 := by
    rw [Snapshot.finalizedNumber, Snapshot.next_attestation, hnone, h.attestation]
    rfl
  rw [hsnapshot]
  refine Snapshot.mem_next_recents_of (by rw [hpending]; rintro q ⟨⟩) ?_ ?_
  · rw [hl]
    refine hr.imp_right fun hmem => ?_
    obtain ⟨hold, hnew, hle⟩ := hmem
    refine ⟨Snapshot.mem_trimRecents hregular hold ?_ (by rw [h.number]), by omega⟩
    rwa [h.number, hs.delay_eq]
  · rw [hfinal]
    have hlow : 7 ≤ londonBlock := by decide
    have hfrom := hrange.1
    rcases hr with rfl | ⟨-, hnew, -⟩
    · exact Nat.succ_pos number
    · omega

/-- After a first plain header and up to seven more, its sealer is still in `recents`. -/
theorem Waits.filled (h : Waits sk none votes number milli e) (k : ℕ)
    (hk : k ≤ 7) (hsealer : sk.address ≠ recentEpochSentinel)
    (hrange : ∀ j ≤ k, InRange (number + j) (milli + 1000 * j))
    (hplain : ∀ j ≤ k, ¬ (number + j + 1) % maxwellEpochLength = 0) :
    ∃ calls, calls.length = k + 1 ∧
      Waits sk none votes (number + (k + 1)) (milli + 1000 * (k + 1)) (walk P e calls) ∧
      (number + 1, sk.address) ∈ (walk P e calls).snapshot.recents.entries := by
  induction k with
  | zero =>
    obtain ⟨call, -, hnext, hmem⟩ := h.fills (hrange 0 le_rfl) (hplain 0 le_rfl) hsealer
    exact ⟨[call], rfl, hnext, hmem _ (.inl rfl)⟩
  | succ k ih =>
    obtain ⟨calls, hlength, hw, hmem⟩ := ih (by omega) (fun j hj => hrange j (by omega))
      fun j hj => hplain j (by omega)
    obtain ⟨call, -, hnext, hkept⟩ := hw.fills (hrange (k + 1) le_rfl) (hplain (k + 1) le_rfl) hsealer
    have hmilli : milli + 1000 * (k + 1) + 1000 = milli + 1000 * (k + 1 + 1) := by ring
    refine ⟨calls ++ [call], by rw [List.length_append, hlength, List.length_singleton], ?_, ?_⟩
    · rw [walk_concat, ← hmilli]
      exact hnext
    · rw [walk_concat]
      exact hkept _ (.inr ⟨hmem, by omega, by omega⟩)

end

/-- After eight blocks a header whose vote cannot be read is refused: the first sealer has left
`recents`, and every later call is answered as before. -/
theorem refused_header_leaves_engine_unreadable : ∃ (e : LightEngine) (header : RpcBlockHeader)
    (now : ℕ) (err : ConsensusError) (r : ℕ × Address),
    (e.applyHeader mockPrimitives header now).1 = .error err ∧ r ∈ e.snapshot.recents.entries ∧
    r ∉ (e.applyHeader mockPrimitives header now).2.snapshot.recents.entries ∧
    ∀ later, Machine.answers (step mockPrimitives) (e.applyHeader mockPrimitives header now).2 later =
      Machine.answers (step mockPrimitives) e later := by
  obtain ⟨-, -, e₀, -, hsole, hnumber, -, hvotes, hpending, hatt, -⟩ :=
    exists_start_engine (.repeated 48 1)
  have hlow : londonBlock ≤ sealedChainStart := by decide
  have hhigh : sealedChainStart + 20 < 2 ^ 32 := by decide
  have hrange : ∀ j ≤ 8, InRange (sealedChainStart + j) (1770000000000 + 1000 * j) :=
    fun j hj => ⟨by omega, by omega, by omega, by omega⟩
  have hplain : ∀ j ≤ 8, ¬ (sealedChainStart + j + 1) % maxwellEpochLength = 0 := by decide
  generalize sealedChainStart = start at hnumber hrange hplain
  obtain ⟨calls, -, hw, hmem⟩ := Waits.filled ⟨hsole, hpending, hvotes, hatt, hnumber⟩ 7 le_rfl
    mockKey_address_ne (fun j hj => hrange j (by omega)) fun j hj => hplain j (by omega)
  obtain ⟨header, now, err, hrefused⟩ := hw.refuses (hrange 8 le_rfl) (hplain 8 le_rfl)
  refine ⟨walk mockPrimitives e₀ calls, header, now, err, _, congrArg Prod.fst hrefused, hmem, ?_,
    fun later => ((refused_header_leaves_engine (congrArg Prod.fst hrefused)).2.2.2.2.2.2 later).1⟩
  have hlimit : satAdd (walk mockPrimitives e₀ calls).snapshot.delay 1 = 8 := by
    rw [hw.sole.snapshot.delay_eq]
    exact satAdd_of_lt (Draft.small_lt_u64Size (by norm_num))
  have htrim : ((walk mockPrimitives e₀ calls).snapshot.trimRecents (start + 8 + 1)).recents =
      (walk mockPrimitives e₀ calls).snapshot.recents.remove (start + 1) := by
    simp only [Snapshot.trimRecents, hlimit, if_pos (show 8 ≤ start + 8 + 1 by omega),
      show start + 8 + 1 - 8 = start + 1 by omega]
  simp [hrefused, htrim, Recents.remove, Recents.retain]

end LightEngine

end HeliosBsc
