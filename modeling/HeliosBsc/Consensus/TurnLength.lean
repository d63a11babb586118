import HeliosBsc.Consensus.Persist
import HeliosBsc.Mock.Pool

/-!
# The turn length at the start

A checkpoint does not carry the turn length; `seed_turn_length` sets it from a header that nobody
has verified. The first header of the walk is checked against it by its difficulty alone, so a wrong
value shows only if the sealer of that header is in turn under one of the two values and not under
the other.
-/

namespace HeliosBsc

open Checked

variable {P : Primitives}

namespace Snapshot

variable {s st st' : Snapshot} {t t' : ℕ}

/-- A snapshot that no header has been applied to. -/
structure Unwalked (s : Snapshot) : Prop where
  recents : s.recents = .empty
  lastMilli : s.lastMilli = none
  enforceInturn : s.enforceInturn = true
  ordered : s.validators.Pairwise fun a b => a.le b = true

theorem unwalked_fromCheckpoint {cp : Checkpoint} (h : fromCheckpoint cp = .ok s) : Unwalked s := by
  obtain ⟨-, -, -, -, -, henforce, hrecents, -, -, -, hmilli, -⟩ := fromCheckpoint_ok h
  exact ⟨hrecents, hmilli, henforce, (aligned_fromCheckpoint h).ordered⟩

/-- Seeding sets the turn length and nothing else, and only before the walk. -/
theorem seedTurnLength_ok (h : s.seedTurnLength t = .ok st) (hpos : 0 < t) :
    s.number < s.walkStart ∧ st = { s with turnLength := t } := by
  simp only [seedTurnLength, if_pos hpos, bind_eq_ok, require_eq_ok, pure_eq_ok,
    Except.ok.injEq] at h
  obtain ⟨-, hbefore, rfl⟩ := h
  exact ⟨hbefore, rfl⟩

theorem seedTurnLength_eq (hbefore : s.number < s.walkStart) (hpos : 0 < t) :
    s.seedTurnLength t = .ok { s with turnLength := t } := by
  unfold seedTurnLength
  rw [require_of hbefore, ok_bind, if_pos hpos, pure_eq_ok]

theorem Unwalked.seeded (h : Unwalked s) (t : ℕ) : Unwalked { s with turnLength := t } :=
  ⟨h.recents, h.lastMilli, h.enforceInturn, h.ordered⟩

/-! ## What the first header depends on -/

theorem Unwalked.not_signRecently (h : Unwalked s) (n : ℕ) (signer : Address) :
    (s.trimRecents n).signRecently signer = false := by
  have hempty : ((s.trimRecents n).recents).entries = [] := by
    unfold trimRecents
    simp only [h.recents]
    split <;> rfl
  simp [signRecently, seenTimes, hempty]

theorem Unwalked.known_eq_false (h : Unwalked s) (n : ℕ) :
    (s.trimRecents n).backoffContext.known = false := by
  have hmilli : (s.trimRecents n).lastMilli = none := h.lastMilli
  simp [backoffContext, hmilli]

/-- Two expectations agree when the sealer is in turn under both or under neither. -/
theorem expectedDifficulty_eq_iff (signer : Address) :
    st.expectedDifficulty signer = st'.expectedDifficulty signer ↔
      (st.inturnValidator = some signer ↔ st'.inturnValidator = some signer) := by
  have hne : diffInTurn ≠ diffNoTurn := by decide
  unfold expectedDifficulty
  by_cases hin : st.inturnValidator = some signer
  · by_cases hin' : st'.inturnValidator = some signer
    · simp [hin, hin']
    · simp [hin, hin', hne]
  · by_cases hin' : st'.inturnValidator = some signer
    · simp [hin, hin', hne.symm]
    · simp [hin, hin']

theorem Unwalked.of_accepted (h : Unwalked s) {header : RpcBlockHeader} {signer : Address}
    (hok : (s.applyVerified P header signer).1 = .ok ()) :
    signer ∈ s.validators ∧ decodeU64 header.difficulty = .ok (s.expectedDifficulty signer) := by
  rcases s.applyVerified_cases P header signer with
    ⟨l, b, milli, hacc, -⟩ | ⟨e, hr⟩ | ⟨l, e, -, hr⟩ | ⟨l, b, e, -, hr⟩
  · obtain ⟨d, hd, -, henforced⟩ := hacc.link.difficulty
    rw [← henforced h.enforceInturn]
    exact ⟨(contains_iff h.ordered).mp hacc.link.member, hd⟩
  all_goals
    rw [hr] at hok
    cases hok

/-- For a validator and a difficulty there is a header that every turn length accepts under which
the difficulty is the expected one. -/
theorem Unwalked.exists_accepted (h : Unwalked s) (P : Primitives) (hnumber : s.number + 1 < u64Size)
    {signer : Address} (hmember : signer ∈ s.validators) {difficulty : ℕ}
    (hdifficulty : difficulty = diffNoTurn ∨ difficulty = diffInTurn) :
    ∃ header, ∀ t, difficulty = ({ s with turnLength := t } : Snapshot).expectedDifficulty signer →
      (({ s with turnLength := t } : Snapshot).applyVerified P header signer).1 = .ok () := by
  -- an epoch header has to announce somebody
  obtain ⟨mid, hcarries⟩ : ∃ mid, ∀ d : Draft, d.mid = mid →
      ∃ vals turn, d.Carries (decide ((s.number + 1) % s.epochLength = 0)) vals turn [] ∧
        ((s.number + 1) % s.epochLength = 0 → vals ≠ []) := by
    by_cases hepoch : (s.number + 1) % s.epochLength = 0
    · refine ⟨epochPart [⟨signer, .repeated 48 0⟩] 1 [],
        fun d hmid => ⟨[⟨signer, .repeated 48 0⟩], some 1, ?_, fun _ => ?_⟩⟩
      · rw [decide_eq_true hepoch]
        exact Draft.carries_epoch hmid (List.cons_ne_nil _ _) (by simp) (by norm_num)
      · exact List.cons_ne_nil _ _
    · refine ⟨[], fun d hmid => ⟨[], none, ?_, fun hz => absurd hz hepoch⟩⟩
      rw [decide_eq_false hepoch, ← hmid]
      exact d.carries_plain
  obtain ⟨d, hd⟩ : ∃ d : Draft, d = ⟨s.number + 1, s.hash, 1770000000000, .repeated 32 0,
    difficulty, mid⟩ := ⟨_, rfl⟩
  have hmilli : lorentzTime * 1000 ≤ d.milli ∧ d.milli < u64Size := by
    rw [hd, u64Size_eq]
    change lorentzTime * 1000 ≤ 1770000000000 ∧ 1770000000000 < 2 ^ 64
    decide
  have hreads : d.Reads := by
    refine ⟨decodeU64_hexQuantity ?_, decodeU64_hexQuantity ?_, decodeU64_hexQuantity ?_,
      decodeU64_hexQuantity (Draft.small_lt_u64Size (by decide)),
      decodeU64_hexQuantity u64Size_pos⟩
    · rw [hd]
      exact hnumber
    · exact (Nat.div_le_self _ _).trans_lt hmilli.2
    · refine Draft.small_lt_u64Size ?_
      rw [hd]
      change difficulty < 2 ^ 32
      rcases hdifficulty with hd | hd
      · rw [hd]; decide
      · rw [hd]; decide
  obtain ⟨vals, turn, hcarry, hvals⟩ := hcarries d (by rw [hd])
  obtain ⟨p, hp, hpv, -, hpa⟩ := hcarry (.repeated 65 0)
  refine ⟨d.headerPaying (some (hexQuantity 0)) signer (.repeated 65 0) (.repeated 32 0),
    fun t hexpected => ?_⟩
  have hseeded := h.seeded t
  have hdnumber : d.number = s.number + 1 := by rw [hd]
  have hfollows : d.number = wrapSucc s.number := by
    rw [hdnumber]
    exact (wrapSucc_of_lt (hdnumber ▸ decodeU64_lt hreads.number)).symm
  have hacc := @accepts_header P { s with turnLength := t } d signer (.repeated 65 0)
    (.repeated 32 0) p none (some (hexQuantity 0)) hreads hmilli (by rw [hd]; exact hdifficulty)
    hfollows (by rw [hd])
    ((contains_iff hseeded.ordered).mpr hmember) (fun _ => by rw [hd]; exact hexpected)
    (hseeded.not_signRecently _ _) (.inr (hseeded.known_eq_false _)) (by rw [hdnumber]; exact hp)
    (fun hz => by rw [hpv]; rw [hdnumber] at hz; exact hvals hz)
    (checkAttestation_eq_ok.mpr (.inl ⟨by rw [hpa]; rfl, rfl⟩))
  unfold applyVerified
  simp only [linkChecks_eq_ok.mpr hacc.link, bodyChecks_eq_ok.mpr hacc.body, hacc.milli]

/-- A validator that is in turn under both turn lengths or under neither can seal a header that
both accept. -/
theorem Unwalked.exists_shared (h : Unwalked s) (P : Primitives) (hnumber : s.number + 1 < u64Size)
    {signer : Address} (hmember : signer ∈ s.validators)
    (hsame : ({ s with turnLength := t } : Snapshot).inturnValidator = some signer ↔
      ({ s with turnLength := t' } : Snapshot).inturnValidator = some signer) :
    ∃ header, (({ s with turnLength := t } : Snapshot).applyVerified P header signer).1 = .ok () ∧
      (({ s with turnLength := t' } : Snapshot).applyVerified P header signer).1 = .ok () := by
  have hdifficulty : ({ s with turnLength := t } : Snapshot).expectedDifficulty signer = diffNoTurn ∨
      ({ s with turnLength := t } : Snapshot).expectedDifficulty signer = diffInTurn := by
    unfold expectedDifficulty
    split
    · exact .inr rfl
    · exact .inl rfl
  obtain ⟨header, hheader⟩ := h.exists_accepted P hnumber hmember hdifficulty
  exact ⟨header, hheader t rfl, hheader t' ((expectedDifficulty_eq_iff signer).mpr hsame)⟩

/-- A header that two turn lengths accept is sealed by a validator that is in turn under both or
under neither. -/
theorem Unwalked.of_shared (h : Unwalked s) {header : RpcBlockHeader} {signer : Address}
    (hok : (({ s with turnLength := t } : Snapshot).applyVerified P header signer).1 = .ok ())
    (hok' : (({ s with turnLength := t' } : Snapshot).applyVerified P header signer).1 = .ok ()) :
    signer ∈ s.validators ∧
      (({ s with turnLength := t } : Snapshot).inturnValidator = some signer ↔
        ({ s with turnLength := t' } : Snapshot).inturnValidator = some signer) := by
  obtain ⟨hmember, hd⟩ := (h.seeded t).of_accepted hok
  obtain ⟨-, hd'⟩ := (h.seeded t').of_accepted hok'
  exact ⟨hmember, (expectedDifficulty_eq_iff signer).mp (Except.ok.inj (hd.symm.trans hd'))⟩

/-- Two turn lengths share no first header exactly when they put different validators in turn and
these two are the whole set. -/
theorem no_shared_header_iff (P : Primitives) {cp : Checkpoint} (hcp : fromCheckpoint cp = .ok s)
    (htwo : 2 ≤ s.validators.length) (ht : 1 ≤ t ∧ t ≤ 255) (ht' : 1 ≤ t' ∧ t' ≤ 255)
    (hseed : s.seedTurnLength t = .ok st) (hseed' : s.seedTurnLength t' = .ok st') :
    (∀ header signer, (st.applyVerified P header signer).1 = .ok () →
        (st'.applyVerified P header signer).1 ≠ .ok ()) ↔
      st.inturnValidator ≠ st'.inturnValidator ∧
        ∀ v ∈ s.validators, st.inturnValidator = some v ∨ st'.inturnValidator = some v := by
  have hunwalked := unwalked_fromCheckpoint hcp
  obtain ⟨hbefore, rfl⟩ := seedTurnLength_ok hseed ht.1
  obtain ⟨-, rfl⟩ := seedTurnLength_ok hseed' ht'.1
  have hnumber : s.number + 1 < u64Size := by
    obtain ⟨hn, -, -, -, -, -, -, -, -, -, -, hwalk, -⟩ := fromCheckpoint_ok hcp
    rw [hwalk, ← hn] at hbefore
    unfold satAdd at hbefore
    omega
  constructor
  · intro hnone
    have hdiffer : ∀ v ∈ s.validators,
        ¬ (({ s with turnLength := t } : Snapshot).inturnValidator = some v ↔
          ({ s with turnLength := t' } : Snapshot).inturnValidator = some v) := by
      intro v hv hsame
      obtain ⟨header, hok, hok'⟩ := hunwalked.exists_shared P hnumber hv hsame
      exact hnone header v hok hok'
    constructor
    · intro hequal
      obtain ⟨v, hv⟩ := List.exists_mem_of_length_pos (Nat.lt_of_lt_of_le Nat.zero_lt_two htwo)
      exact hdiffer v hv (by rw [hequal])
    · intro v hv
      have := hdiffer v hv
      tauto
  · rintro ⟨hne, hboth⟩ header signer hok hok'
    obtain ⟨hmember, hsame⟩ := hunwalked.of_shared hok hok'
    apply hne
    rcases hboth signer hmember with hin | hin
    · rw [hin, hsame.mp hin]
    · rw [hin, hsame.mpr hin]

theorem exists_pool_snapshot :
    ∃ cp s, cp.validateBasic = .ok () ∧ fromCheckpoint cp = .ok s ∧ s.number + 1 < u64Size ∧
      s.number < s.walkStart ∧ 2 ≤ s.validators.length ∧ ∀ v ∈ poolMembers, v ∈ s.validators := by
  obtain ⟨header, e, he, -, hpool, hnumber, -⟩ := exists_pool_engine
  obtain ⟨hbasic, hcp, -⟩ := LightEngine.fromCheckpointAndHeader_ok he
  have hsnapshot : e.snapshot.Pool poolMembers [] := hpool.snapshot
  have hlast : e.snapshot.number + 1 < u64Size := by
    rw [hnumber]
    exact Draft.small_lt_u64Size (by decide)
  have hbefore : e.snapshot.number < e.snapshot.walkStart := by
    rw [hsnapshot.walkStart, hnumber]
    exact Nat.lt_succ_self _
  have hlength : 2 ≤ e.snapshot.validators.length := by
    rw [hsnapshot.count, length_poolMembers]
    norm_num
  exact ⟨_, e.snapshot, hbasic, hcp, hlast, hbefore, hlength, fun v hv =>
    (contains_iff (aligned_fromCheckpoint hcp).ordered).mp (hsnapshot.validators v hv)⟩

/-- The pool of the mock, seeded with two values. -/
theorem no_shared_header_iff_pool :
    ∃ cp s st st', fromCheckpoint cp = .ok s ∧ s.seedTurnLength 8 = .ok st ∧
      s.seedTurnLength 16 = .ok st' ∧
      ((∀ header signer, (st.applyVerified mockPrimitives header signer).1 = .ok () →
          (st'.applyVerified mockPrimitives header signer).1 ≠ .ok ()) ↔
        st.inturnValidator ≠ st'.inturnValidator ∧
          ∀ v ∈ s.validators, st.inturnValidator = some v ∨ st'.inturnValidator = some v) := by
  obtain ⟨cp, s, -, hcp, -, hbefore, hlength, -⟩ := exists_pool_snapshot
  have hseed := seedTurnLength_eq hbefore (show 0 < 8 by norm_num)
  have hseed' := seedTurnLength_eq hbefore (show 0 < 16 by norm_num)
  exact ⟨_, _, _, _, hcp, hseed, hseed', no_shared_header_iff mockPrimitives hcp hlength
    (by norm_num) (by norm_num) hseed hseed'⟩

/-- Three distinct validators are not all in turn under one of two turn lengths. -/
theorem exists_outOfTurn {l : List Address} (hnodup : l.Nodup) (hthree : 3 ≤ l.length)
    (a b : Option Address) : ∃ v ∈ l, a ≠ some v ∧ b ≠ some v := by
  by_contra hall
  have hsub : l.map some ⊆ [a, b] := by
    intro o ho
    obtain ⟨v, hv, rfl⟩ := List.mem_map.mp ho
    by_contra hmem
    refine hall ⟨v, hv, ?_, ?_⟩
    · rintro rfl
      simp at hmem
    · rintro rfl
      simp at hmem
  have hle := (hnodup.map (Option.some_injective _)).subperm hsub |>.length_le
  rw [List.length_map] at hle
  exact absurd (hthree.trans hle) (by simp)

/-- A header of the pool that a validator seals out of turn is accepted with turn length 8 and with
turn length 16. -/
theorem shared_header :
    ¬ ∀ (P : Primitives) (cp : Checkpoint) s st st' t t', cp.validateBasic = .ok () →
      fromCheckpoint cp = .ok s → 2 ≤ s.validators.length → t ≠ t' → (1 ≤ t ∧ t ≤ 255) →
      (1 ≤ t' ∧ t' ≤ 255) → s.seedTurnLength t = .ok st → s.seedTurnLength t' = .ok st' →
      ∀ header signer, (st.applyVerified P header signer).1 = .ok () →
        (st'.applyVerified P header signer).1 ≠ .ok () := by
  intro hall
  obtain ⟨cp, s, hbasic, hcp, hlast, hbefore, hlength, hmembers⟩ := exists_pool_snapshot
  obtain ⟨v, hv, hout, hout'⟩ := exists_outOfTurn nodup_poolMembers
    (by rw [length_poolMembers]; norm_num)
    ({ s with turnLength := 8 } : Snapshot).inturnValidator
    ({ s with turnLength := 16 } : Snapshot).inturnValidator
  obtain ⟨header, hok, hok'⟩ := @Unwalked.exists_shared s 8 16 (unwalked_fromCheckpoint hcp)
    mockPrimitives hlast v (hmembers v hv) (by simp [hout, hout'])
  exact hall mockPrimitives _ _ _ _ 8 16 hbasic hcp hlength (by norm_num) (by norm_num)
    (by norm_num) (seedTurnLength_eq hbefore (by norm_num))
    (seedTurnLength_eq hbefore (by norm_num)) header v hok hok'

end Snapshot

end HeliosBsc
