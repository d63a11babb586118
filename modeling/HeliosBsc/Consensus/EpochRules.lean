import HeliosBsc.Consensus.EpochSeed
import HeliosBsc.Consensus.SetShape
import HeliosBsc.Consensus.TurnLength

/-!
# Two rules for epoch blocks

`apply_verified` finds epoch blocks by the epoch length of the snapshot, which climbs a ladder: it
changes only below a block where the old and the new boundaries coincide. `verify_extra_layout`
finds them by the table of forks, at the timestamp of the header. Between the timestamp of a fork
and the step of the ladder the two lengths differ, and a block that is a multiple of only one of
them is an epoch block under one rule and not under the other.
-/

namespace HeliosBsc

open Checked

namespace Snapshot

variable {P : Primitives} {s : Snapshot} {number time : ℕ}

/-! ## The ladder -/

/-- A header below which a fork's step may be taken: in the era of the fork, with a multiple of its
epoch length next. -/
def Climbs (forkTime epochLength : ℕ) (header : RpcBlockHeader) : Prop :=
  ∃ number time, decodeU64 header.number = .ok number ∧ decodeU64 header.timestamp = .ok time ∧
    forkTime ≤ time ∧ (number + 1) % epochLength = 0

/-- The step of a fork has been taken: at the checkpoint or below one of the accepted headers. -/
def Reached (forkTime epochLength cpTime : ℕ) (past : List (RpcBlockHeader × ℕ)) : Prop :=
  forkTime ≤ cpTime ∨ ∃ call ∈ past, Climbs forkTime epochLength call.1

def LorentzReached (cpTime : ℕ) (past : List (RpcBlockHeader × ℕ)) : Prop :=
  Reached lorentzTime lorentzEpochLength cpTime past

def MaxwellReached (cpTime : ℕ) (past : List (RpcBlockHeader × ℕ)) : Prop :=
  Reached maxwellTime maxwellEpochLength cpTime past

/-- The length is the one that the steps taken lead to. -/
structure OnLadder (cpTime : ℕ) (past : List (RpcBlockHeader × ℕ)) (epochLength : ℕ) : Prop where
  rung : epochLength = 200 ∨ epochLength = 500 ∨ epochLength = 1000
  bottom : epochLength = 200 ↔ ¬ LorentzReached cpTime past
  top : epochLength = 1000 ↔ MaxwellReached cpTime past

theorem reached_nil (forkTime epochLength cpTime : ℕ) :
    Reached forkTime epochLength cpTime [] ↔ forkTime ≤ cpTime := by
  simp [Reached]

theorem reached_concat {forkTime epochLength cpTime : ℕ} {past : List (RpcBlockHeader × ℕ)}
    {call : RpcBlockHeader × ℕ} (hnumber : decodeU64 call.1.number = .ok number)
    (htime : decodeU64 call.1.timestamp = .ok time) :
    Reached forkTime epochLength cpTime (past ++ [call]) ↔
      Reached forkTime epochLength cpTime past ∨
        forkTime ≤ time ∧ (number + 1) % epochLength = 0 := by
  have hclimbs : Climbs forkTime epochLength call.1 ↔
      forkTime ≤ time ∧ (number + 1) % epochLength = 0 := by
    simp [Climbs, hnumber, htime]
  unfold Reached
  rw [← hclimbs, or_assoc]
  simp [or_and_right, exists_or]

theorem onLadder_fromCheckpoint {cp : Checkpoint} (h : fromCheckpoint cp = .ok s) :
    OnLadder cp.timestamp [] s.epochLength := by
  obtain ⟨-, -, hlength, -⟩ := fromCheckpoint_ok h
  have horder : lorentzTime ≤ maxwellTime := by decide
  have h200 : defaultEpochLength = 200 := rfl
  have h500 : lorentzEpochLength = 500 := rfl
  have h1000 : maxwellEpochLength = 1000 := rfl
  rw [hlength, epochLength_paramsAt_eq]
  constructor
  · split_ifs <;> omega
  · rw [LorentzReached, reached_nil]
    split_ifs <;> omega
  · rw [MaxwellReached, reached_nil]
    split_ifs <;> omega

/-- No boundary is at the end of the numbers, where the next number is cut off. -/
theorem satAdd_one_mod (hnumber : number < u64Size) {epochLength : ℕ}
    (hlength : epochLength = 500 ∨ epochLength = 1000) :
    satAdd number 1 % epochLength = 0 ↔ (number + 1) % epochLength = 0 := by
  have hsize := u64Size_eq
  unfold satAdd
  rcases hlength with rfl | rfl
  · omega
  · omega

theorem OnLadder.advance {cpTime : ℕ} {past : List (RpcBlockHeader × ℕ)}
    (h : OnLadder cpTime past s.epochLength) {call : RpcBlockHeader × ℕ}
    (hnumber : decodeU64 call.1.number = .ok number)
    (htime : decodeU64 call.1.timestamp = .ok time) :
    OnLadder cpTime (past ++ [call]) (s.advanceEpochLength number time).epochLength := by
  have horder : lorentzTime ≤ maxwellTime := by decide
  have hlorentz := satAdd_one_mod (decodeU64_lt hnumber) (.inl rfl)
  have hmaxwell := satAdd_one_mod (decodeU64_lt hnumber) (.inr rfl)
  have h200 : defaultEpochLength = 200 := rfl
  have h500 : lorentzEpochLength = 500 := rfl
  have h1000 : maxwellEpochLength = 1000 := rfl
  obtain ⟨hrung, hbottom, htop⟩ := h
  simp only [advanceEpochLength, h200, h500, h1000, hlorentz, hmaxwell]
  constructor
  · split_ifs <;> omega
  · rw [LorentzReached, reached_concat hnumber htime, ← LorentzReached, not_or, ← hbottom, h500]
    split_ifs <;> omega
  · rw [MaxwellReached, reached_concat hnumber htime, ← MaxwellReached, ← htop, h1000]
    split_ifs <;> omega

/-- The length after a walk is a matter of the checkpoint and of the accepted headers. -/
theorem onLadder_walk {cp : Checkpoint} (hcp : fromCheckpoint cp = .ok s)
    (calls : List (RpcBlockHeader × ℕ)) :
    OnLadder cp.timestamp (Machine.accepted (step P) s calls) (walk P s calls).epochLength := by
  apply Machine.run_accepted_invariant
    (I := fun past (s : Snapshot) => OnLadder cp.timestamp past s.epochLength)
  · intro past s call signer h hok
    obtain ⟨l, b, milli, -, hacc, hnext⟩ := step_ok hok
    rw [hnext, next_epochLength]
    exact h.advance hacc.link.number hacc.link.time
  · intro past s call err h herror
    rcases step_error herror with hsame | htrimmed
    · rwa [hsame]
    · rw [htrimmed]
      exact h
  · exact onLadder_fromCheckpoint hcp

/-! ## When the rules agree -/

/-- A header keeps step with the ladder: its number is a multiple of the longest epoch; or if it is
one of the shortest, its time is before Lorentz as long as the step of Lorentz has not been taken,
and if it is one of the middle epoch, its time is between Lorentz and Maxwell as long as the first
step has been taken and the second has not. -/
def InStep (cpTime : ℕ) (past : List (RpcBlockHeader × ℕ)) (number time : ℕ) : Prop :=
  number % 1000 = 0 ∨
    (number % 200 = 0 → (time < lorentzTime ↔ ¬ LorentzReached cpTime past)) ∧
    (number % 500 = 0 → (lorentzTime ≤ time ∧ time < maxwellTime ↔
      LorentzReached cpTime past ∧ ¬ MaxwellReached cpTime past))

theorem OnLadder.inStep_iff {cpTime epochLength : ℕ} {past : List (RpcBlockHeader × ℕ)}
    (h : OnLadder cpTime past epochLength) (number time : ℕ) :
    (number % epochLength = 0 ↔ number % (paramsAt number time).epochLength = 0) ↔
      InStep cpTime past number time := by
  have horder : lorentzTime ≤ maxwellTime := by decide
  have hlength := epochLength_paramsAt_eq number time
  simp only [show defaultEpochLength = 200 from rfl, show lorentzEpochLength = 500 from rfl,
    show maxwellEpochLength = 1000 from rfl] at hlength
  obtain ⟨hrung, hbottom, htop⟩ := h
  unfold InStep
  rw [← hbottom, ← htop, hlength, ← not_iff_comm.mp hbottom.symm]
  rcases hrung with rfl | rfl | rfl
  · split_ifs <;> omega
  · split_ifs <;> omega
  · split_ifs <;> omega

/-- The records of an epoch header name distinct validators and a turn length in range. -/
def RecordsChecked (header : RpcBlockHeader) : Prop :=
  ∃ extra parsed turn, decodeHex header.extraData = .ok extra ∧
    parseExtra extra .bohr true = .ok parsed ∧
    (parsed.validators.map SealingValidator.address).Nodup ∧
    parsed.turnLength = some turn ∧ 0 < turn ∧ turn ≤ maxTurnLength

/-- After some calls a walk accepts a header of this number and time. -/
structure AcceptsAt (P : Primitives) (s : Snapshot) (before : List (RpcBlockHeader × ℕ))
    (call : RpcBlockHeader × ℕ) (number time : ℕ) : Prop where
  accepted : ∃ signer, (step P (walk P s before) call).1 = .ok signer
  number : decodeU64 call.1.number = .ok number
  time : decodeU64 call.1.timestamp = .ok time

/-- The condition on an accepted header: it keeps step with the ladder, and is in the Bohr layout
where the shortest epochs start. -/
def Aligns (P : Primitives) (s : Snapshot) (cpTime : ℕ) (before : List (RpcBlockHeader × ℕ))
    (call : RpcBlockHeader × ℕ) : Prop :=
  ∀ number time, AcceptsAt P s before call number time →
    InStep cpTime (Machine.accepted (step P) s before) number time ∧
      (number % 200 = 0 → bohrTime ≤ time)

/-- The announced set names distinct validators and a turn length in range. -/
def PendingChecked (s : Snapshot) : Prop :=
  ∀ p, s.pending = some p → p.validators.Nodup ∧ 0 < p.turnLength ∧ p.turnLength ≤ maxTurnLength

theorem bohrTime_le_of_epoch (hbohr : number % 200 = 0 → bohrTime ≤ time)
    (hepoch : number % (paramsAt number time).epochLength = 0) : bohrTime ≤ time := by
  have horder : bohrTime ≤ lorentzTime ∧ lorentzTime ≤ maxwellTime := by decide
  rw [epochLength_paramsAt_eq] at hepoch
  split_ifs at hepoch
  · omega
  · omega
  · exact hbohr hepoch

section

variable {call : RpcBlockHeader × ℕ} {signer : Address} {l : Link} {b : Body} {milli : ℕ}

theorem recordsChecked_of_accepts (hseal : SealOk P call.1 call.2 signer)
    (hacc : Accepts P s call.1 signer l b milli) (hbohr : bohrTime ≤ l.time)
    (hepoch : l.number % s.epochLength = 0)
    (htable : l.number % (paramsAt l.number l.time).epochLength = 0) :
    ∃ turn, (b.parsed.validators.map SealingValidator.address).Nodup ∧
      b.parsed.turnLength = some turn ∧ 0 < turn ∧ turn ≤ maxTurnLength ∧
      RecordsChecked call.1 := by
  have hflag : b.isEpoch = decide (l.number % s.epochLength = 0) := hacc.body.isEpoch
  obtain ⟨extra, hextra, hparsed⟩ := hacc.body.parsed
  rw [hflag, decide_eq_true hepoch] at hparsed
  have hlayout : epochByLayout l.number l.time = true := decide_eq_true htable
  obtain ⟨hnodup, turn, hturn, hpos, hmax⟩ := verifyExtraLayout_epoch hseal.extraLayout
    hacc.link.number hacc.link.time hextra (extraDataVersion_of_bohr l.number hbohr) hlayout hparsed
  exact ⟨turn, hnodup, hturn, hpos, hmax, extra, b.parsed, turn, hextra, hparsed, hnodup, hturn,
    hpos, hmax⟩

theorem pendingChecked_next (hpending : PendingChecked s) (hseal : SealOk P call.1 call.2 signer)
    (hacc : Accepts P s call.1 signer l b milli)
    (hagree : l.number % s.epochLength = 0 →
      l.number % (paramsAt l.number l.time).epochLength = 0 ∧ bohrTime ≤ l.time) :
    PendingChecked (s.next signer l b milli) := by
  have hduring : ∀ p, s.pendingDuring l b = some p →
      p.validators.Nodup ∧ 0 < p.turnLength ∧ p.turnLength ≤ maxTurnLength := by
    intro p hp
    unfold pendingDuring at hp
    split at hp
    · next hflag =>
      have hepoch : l.number % s.epochLength = 0 := by
        rw [show b.isEpoch = decide (l.number % s.epochLength = 0) from hacc.body.isEpoch] at hflag
        exact of_decide_eq_true hflag
      obtain ⟨htable, hbohr⟩ := hagree hepoch
      obtain ⟨turn, hnodup, hturn, hpos, hmax, -⟩ :=
        recordsChecked_of_accepts hseal hacc hbohr hepoch htable
      rw [← Option.some.inj hp]
      refine ⟨((perm_sortByAddress _).map _).nodup_iff.mpr hnodup, ?_⟩
      simp only [nextPending, hturn, Option.getD_some]
      exact ⟨hpos, hmax⟩
    · exact hpending p hp
  intro p hp
  rcases s.next_sets signer l b milli with
    ⟨_, _, _, _, _, _, _, _, hnone⟩ | ⟨_, _, _, _, _, _, hsame⟩
  · rw [hnone] at hp
    cases hp
  · rw [hsame] at hp
    exact hduring p hp

end

section

variable {cp : Checkpoint} {before : List (RpcBlockHeader × ℕ)} {call : RpcBlockHeader × ℕ}

/-- An epoch header that meets the condition is one by its time too, in the Bohr layout. -/
theorem Aligns.layout (hcp : fromCheckpoint cp = .ok s) (h : Aligns P s cp.timestamp before call)
    (hat : AcceptsAt P s before call number time)
    (hepoch : number % (walk P s before).epochLength = 0) :
    number % (paramsAt number time).epochLength = 0 ∧ bohrTime ≤ time := by
  obtain ⟨hstep, hbohr⟩ := h number time hat
  have htable := (((onLadder_walk hcp before).inStep_iff number time).mpr hstep).mp hepoch
  exact ⟨htable, bohrTime_le_of_epoch hbohr htable⟩

/-- The step lemma. -/
theorem pendingChecked_step (hcp : fromCheckpoint cp = .ok s)
    (hpending : PendingChecked (walk P s before)) (haligns : Aligns P s cp.timestamp before call) :
    PendingChecked (step P (walk P s before) call).2 := by
  cases hr : (step P (walk P s before) call).1 with
  | ok signer =>
    obtain ⟨l, b, milli, hseal, hacc, hnext⟩ := step_ok hr
    rw [hnext]
    exact pendingChecked_next hpending hseal hacc fun hepoch =>
      haligns.layout hcp ⟨⟨signer, hr⟩, hacc.link.number, hacc.link.time⟩ hepoch
  | error err =>
    rcases step_error hr with hsame | htrimmed
    · rwa [hsame]
    · rw [htrimmed]
      exact hpending

end

/-- The run lemma. -/
theorem pendingChecked_walk {cp : Checkpoint} (hcp : fromCheckpoint cp = .ok s)
    (calls : List (RpcBlockHeader × ℕ))
    (hall : ∀ before call after, calls = before ++ call :: after →
      Aligns P s cp.timestamp before call) : PendingChecked (walk P s calls) := by
  induction calls using List.reverseRecOn with
  | nil =>
    intro p hp
    obtain ⟨-, -, -, -, hnone, -⟩ := fromCheckpoint_ok hcp
    change s.pending = some p at hp
    rw [hnone] at hp
    cases hp
  | append_singleton past last ih =>
    have hpast := ih fun before call after hsplit =>
      hall before call (after ++ [last]) (by rw [hsplit]; simp)
    rw [walk, Machine.run_concat]
    exact pendingChecked_step hcp hpast (hall past last [] rfl)

/-- After every walk the two rules agree on the next header if and only if it keeps step with the
ladder. In a walk whose accepted headers all meet the condition, they find the same epoch blocks,
the records of each of them have been checked, and so has every set that is announced. -/
theorem epoch_rules_agree {cp : Checkpoint} (hcp : fromCheckpoint cp = .ok s)
    (calls : List (RpcBlockHeader × ℕ)) :
    (∀ number time, (number % (walk P s calls).epochLength = 0 ↔
        number % (paramsAt number time).epochLength = 0) ↔
      InStep cp.timestamp (Machine.accepted (step P) s calls) number time) ∧
    ((∀ before call after, calls = before ++ call :: after →
        Aligns P s cp.timestamp before call) →
      (∀ before call after, calls = before ++ call :: after → ∀ number time,
        AcceptsAt P s before call number time →
        (number % (walk P s before).epochLength = 0 ↔
          number % (paramsAt number time).epochLength = 0) ∧
        (number % (walk P s before).epochLength = 0 → RecordsChecked call.1)) ∧
      PendingChecked (walk P s calls)) := by
  refine ⟨(onLadder_walk hcp calls).inStep_iff, fun hall => ⟨?_, pendingChecked_walk hcp calls hall⟩⟩
  intro before call after hsplit number time hat
  have haligns := hall before call after hsplit
  refine ⟨((onLadder_walk hcp before).inStep_iff number time).mpr (haligns number time hat).1,
    fun hepoch => ?_⟩
  obtain ⟨htable, hlate⟩ := haligns.layout hcp hat hepoch
  obtain ⟨⟨signer, hok⟩, hnumber, htime⟩ := hat
  obtain ⟨l, b, milli, hseal, hacc, -⟩ := step_ok hok
  obtain rfl : l.number = number := Except.ok.inj (hacc.link.number.symm.trans hnumber)
  obtain rfl : l.time = time := Except.ok.inj (hacc.link.time.symm.trans htime)
  obtain ⟨-, -, -, -, -, hchecked⟩ := recordsChecked_of_accepts hseal hacc hlate hepoch htable
  exact hchecked

/-! ## One validator on the ladder -/

theorem Ready.step {sk : SecretKey P} {d : Draft} {fee : Option String}
    {vals : List SealingValidator} {turn : Option ℕ} (h : Ready sk s d fee vals turn) :
    ∃ call l b milli, Snapshot.step P s call = (.ok sk.address, s.next sk.address l b milli) ∧
      decodeU64 call.1.number = .ok d.number ∧ decodeU64 call.1.timestamp = .ok d.time ∧
      l.number = d.number ∧ l.time = d.time ∧
      b.isEpoch = decide (d.number % s.epochLength = 0) := by
  obtain ⟨sealBytes, hash, p, hverify, hacc, -⟩ := h.accepts
  exact ⟨(_, d.time), _, _, _, applyHeader_of_accepts hverify hacc, hacc.link.number,
    hacc.link.time, rfl, rfl, rfl⟩

/-- A checkpoint before Lorentz, below a block. -/
def bohrCheckpoint (number : ℕ) : Checkpoint :=
  { soleCheckpoint (mockKey 1) (.repeated 48 1) (blankDraft (number - 1)) (.repeated 32 0) with
    timestamp := bohrTime }

theorem exists_bohr_start (number : ℕ) : ∃ s : Snapshot,
    (bohrCheckpoint number).validateBasic = .ok () ∧
      fromCheckpoint (bohrCheckpoint number) = .ok s ∧ Single (mockKey 1) 4 s ∧
      s.number = number - 1 ∧ s.epochLength = 200 ∧ s.pending = none := by
  have hbasic : (bohrCheckpoint number).validateBasic = .ok () := by
    simp [bohrCheckpoint, Checkpoint.validateBasic, soleCheckpoint, checkDistinct, formatAddress,
      require_of]
  obtain ⟨s, hs, hset⟩ : ∃ s, fromCheckpoint (bohrCheckpoint number) = .ok s ∧
      s.validators = [(mockKey 1).address] := by
    simp [bohrCheckpoint, fromCheckpoint, soleCheckpoint, formatAddress, checkpointVoteSet,
      decodePairs]
  obtain ⟨hnumber, -, hlength, hturn, hpending, -, hrecents, -⟩ := fromCheckpoint_ok hs
  refine ⟨s, hbasic, hs, ⟨hset, hturn, by norm_num, ?_⟩, hnumber, ?_, hpending⟩
  · rw [hrecents]
    rintro r ⟨⟩
  · rw [hlength, epochLength_paramsAt_eq]
    rfl

/-- A block in the middle of a Maxwell epoch, and a multiple of the middle epoch. -/
def halfEpoch : ℕ := 116664500

/-- A time between Lorentz and Maxwell. -/
def climbMilli : ℕ := 1750000000000

theorem climbMilli_era : lorentzTime * 1000 ≤ climbMilli ∧ climbMilli < 1780000000000 ∧
    lorentzTime ≤ climbMilli / 1000 ∧ climbMilli / 1000 < maxwellTime := by
  decide

theorem paramsAt_climb (number : ℕ) :
    (paramsAt number (climbMilli / 1000)).epochLength = lorentzEpochLength := by
  obtain ⟨-, -, hlorentz, hmaxwell⟩ := climbMilli_era
  rw [epochLength_paramsAt_eq, if_neg (by omega), if_pos hlorentz]

/-- Below the boundary a plain header is accepted, and the ladder takes its first step. -/
theorem exists_climb : ∃ s first s₁, fromCheckpoint (bohrCheckpoint (halfEpoch - 1)) = .ok s ∧
    s.epochLength = 200 ∧ step mockPrimitives s first = (.ok (mockKey 1).address, s₁) ∧
    decodeU64 first.1.number = .ok (halfEpoch - 1) ∧
    decodeU64 first.1.timestamp = .ok (climbMilli / 1000) ∧
    Single (mockKey 1) 4 s₁ ∧ s₁.number = halfEpoch - 1 ∧ s₁.epochLength = lorentzEpochLength := by
  obtain ⟨s, -, hcp, hsingle, hnumber, hlength, hpending⟩ := exists_bohr_start (halfEpoch - 1)
  obtain ⟨hstart, hend, hlorentz, hmaxwell⟩ := climbMilli_era
  have hhalf : halfEpoch = 116664500 := rfl
  have hlow : londonBlock ≤ halfEpoch - 1 := by decide
  have hnext : wrapSucc s.number = halfEpoch - 1 := by
    rw [hnumber, wrapSucc_of_lt (Draft.small_lt_u64Size (by decide))]
    rfl
  have hready : Ready (mockKey 1) s (s.singleDraft climbMilli []) (some (hexQuantity 0)) [] none := by
    refine hsingle.ready_plain hnext ⟨hlow, Draft.small_lt_u64Size (by decide)⟩ ⟨hstart, hend⟩ ?_ ?_
    · rw [paramsAt_climb]
      decide
    · rw [hlength]
      decide
  obtain ⟨first, l, b, milli, hstep, hread, htime, hl, hlt, hplain⟩ := hready.step
  have hdraft : (s.singleDraft climbMilli []).number = halfEpoch - 1 := hnext
  rw [hdraft] at hread hl hplain
  change l.time = climbMilli / 1000 at hlt
  refine ⟨s, first, _, hcp, hlength, hstep, hread, htime, ?_, by rw [next_number, hl], ?_⟩
  · refine hsingle.next_plain hpending (hplain.trans (decide_eq_false ?_)) (by omega)
    rw [hlength]
    decide
  · have hboundary : satAdd (halfEpoch - 1) 1 = halfEpoch :=
      satAdd_of_lt (Draft.small_lt_u64Size (by decide))
    have hearly : ¬ maxwellTime ≤ climbMilli / 1000 := by omega
    have hmod : halfEpoch % 500 = 0 := by decide
    rw [next_epochLength, hl, hlt]
    simp [advanceEpochLength, hlength, hboundary, hlorentz, hearly, hmod, defaultEpochLength,
      lorentzEpochLength]

/-- At the boundary a set is announced, and is not active yet. -/
theorem Single.exists_announced {s : Snapshot} (h : Single (mockKey 1) 4 s)
    (hnumber : s.number = halfEpoch - 1) (hlength : s.epochLength = lorentzEpochLength) :
    ∃ second s₂, step mockPrimitives s second = (.ok (mockKey 1).address, s₂) ∧
      decodeU64 second.1.number = .ok halfEpoch ∧
      decodeU64 second.1.timestamp = .ok (climbMilli / 1000) ∧ s₂.pending ≠ none := by
  obtain ⟨hstart, hend, -⟩ := climbMilli_era
  have hnext : wrapSucc s.number = halfEpoch := by
    rw [hnumber, wrapSucc_of_lt (Draft.small_lt_u64Size (by decide))]
    rfl
  have hepoch : halfEpoch % s.epochLength = 0 := by
    rw [hlength]
    decide
  have hready : Ready (mockKey 1) s (s.singleDraft climbMilli (soleRecords 1 8))
      (some (hexQuantity 0)) [⟨(mockKey 1).address, .repeated 48 1⟩] (some 8) := by
    refine h.ready_epoch hnext (Draft.small_lt_u64Size (by decide)) ⟨hstart, hend⟩
      (length_soleRecords (by norm_num) 8)
      (.inr ⟨_, _, _, rfl, by simp, by simp, by simp, by norm_num, by decide⟩) (.inl ⟨rfl, ?_⟩)
      (by simp) (by simp) (by norm_num) hepoch
    change londonBlock ≤ wrapSucc s.number
    rw [hnext]
    decide
  obtain ⟨second, l, b, milli, hstep, hread, htime, hl, -, hflag⟩ := hready.step
  have hdraft : (s.singleDraft climbMilli (soleRecords 1 8)).number = halfEpoch := hnext
  rw [hdraft] at hread hl hflag
  refine ⟨second, _, hstep, hread, htime, ?_⟩
  have hduring : s.pendingDuring l b = some (s.nextPending l.number b.parsed) := by
    rw [pendingDuring, hflag, decide_eq_true hepoch]
    rfl
  have hdelay : minerHistoryCheckLen s.nSeal s.turnLength = 3 := by
    refine (delay_of_single (congrArg List.length h.validators) ?_).trans ?_
    · rw [h.turn]
      norm_num
    · rw [h.turn]
  have hsets := s.next_sets (mockKey 1).address l b milli
  rw [hduring] at hsets
  obtain ⟨q, hq, hnow, -⟩ | ⟨-, -, -, -, -, -, hpend⟩ := hsets
  · have hlater : q.activateAt = halfEpoch + 3 := by
      rw [← Option.some.inj hq]
      change wrapAdd l.number (minerHistoryCheckLen s.nSeal s.turnLength) = halfEpoch + 3
      rw [hdelay, hl, wrapAdd_of_lt (Draft.small_lt_u64Size (by decide))]
    omega
  · rw [hpend]
    exact Option.some_ne_none _

theorem aligns_climb {s : Snapshot} {first second : RpcBlockHeader × ℕ}
    (haccepted : Machine.accepted (step mockPrimitives) s [first] = [first])
    (hread : decodeU64 first.1.number = .ok (halfEpoch - 1))
    (htime : decodeU64 first.1.timestamp = .ok (climbMilli / 1000))
    (hread₂ : decodeU64 second.1.number = .ok halfEpoch)
    (htime₂ : decodeU64 second.1.timestamp = .ok (climbMilli / 1000))
    {before after : List (RpcBlockHeader × ℕ)} {call : RpcBlockHeader × ℕ}
    (hsplit : [first, second] = before ++ call :: after) :
    Aligns mockPrimitives s (bohrCheckpoint (halfEpoch - 1)).timestamp before call := by
  obtain ⟨-, -, hera, hearly⟩ := climbMilli_era
  have hhalf : halfEpoch = 116664500 := rfl
  have hclimbs : Climbs lorentzTime lorentzEpochLength first.1 :=
    ⟨_, _, hread, htime, hera, by decide⟩
  have hlorentz : LorentzReached (bohrCheckpoint (halfEpoch - 1)).timestamp [first] :=
    .inr ⟨first, List.mem_singleton_self _, hclimbs⟩
  have hmaxwell : ¬ MaxwellReached (bohrCheckpoint (halfEpoch - 1)).timestamp [first] := by
    rintro (hle | ⟨call, hmem, number, time, -, hcall, hle, -⟩)
    · exact absurd hle (show ¬ maxwellTime ≤ bohrTime by decide)
    · rw [List.mem_singleton.mp hmem, htime] at hcall
      obtain rfl : climbMilli / 1000 = time := Except.ok.inj hcall
      omega
  intro number time hat
  rcases before with _ | ⟨_, _ | ⟨_, before⟩⟩
  · obtain ⟨rfl, -⟩ := List.cons.inj hsplit
    obtain rfl : halfEpoch - 1 = number := Except.ok.inj (hread.symm.trans hat.number)
    exact ⟨.inr ⟨fun hz => by omega, fun hz => by omega⟩, fun hz => by omega⟩
  · obtain ⟨rfl, hrest⟩ := List.cons.inj hsplit
    obtain ⟨rfl, -⟩ := List.cons.inj hrest
    obtain rfl : halfEpoch = number := Except.ok.inj (hread₂.symm.trans hat.number)
    obtain rfl : climbMilli / 1000 = time := Except.ok.inj (htime₂.symm.trans hat.time)
    rw [haccepted]
    exact ⟨.inr ⟨fun hz => by omega,
      fun _ => iff_of_true ⟨hera, hearly⟩ ⟨hlorentz, hmaxwell⟩⟩, fun hz => by omega⟩
  · have hlong := congrArg List.length hsplit
    simp at hlong

/-- A checkpoint before Lorentz and two headers of the time between Lorentz and Maxwell: below the
first boundary the ladder takes its first step, and at the boundary a set is announced. -/
theorem epoch_rules_agree_climbing :
    ∃ cp s first second time, fromCheckpoint cp = .ok s ∧ s.epochLength = 200 ∧
      AcceptsAt mockPrimitives s [first] second halfEpoch time ∧
      (walk mockPrimitives s [first]).epochLength = 500 ∧
      (paramsAt halfEpoch time).epochLength = 500 ∧ RecordsChecked second.1 ∧
      (walk mockPrimitives s [first, second]).pending ≠ none ∧
      PendingChecked (walk mockPrimitives s [first, second]) := by
  obtain ⟨s, first, s₁, hcp, hlength, hstep, hread, htime, hsingle, hnumber, hlength₁⟩ := exists_climb
  obtain ⟨second, s₂, hstep₂, hread₂, htime₂, hpending⟩ :=
    hsingle.exists_announced hnumber hlength₁
  have hwalk₁ : walk mockPrimitives s [first] = s₁ := congrArg Prod.snd hstep
  have hwalk₂ : walk mockPrimitives s [first, second] = s₂ := by
    rw [show [first, second] = [first] ++ [second] from rfl, walk, Machine.run_concat]
    rw [show Machine.run (step mockPrimitives) s [first] = s₁ from hwalk₁, hstep₂]
  have hat : AcceptsAt mockPrimitives s [first] second halfEpoch (climbMilli / 1000) := by
    refine ⟨⟨(mockKey 1).address, ?_⟩, hread₂, htime₂⟩
    rw [hwalk₁, hstep₂]
  have haccepted : Machine.accepted (step mockPrimitives) s [first] = [first] := by
    rw [Machine.accepted, hstep]
    rfl
  obtain ⟨hrules, hchecked⟩ := (epoch_rules_agree hcp [first, second]).2
    fun _ _ _ hsplit => aligns_climb haccepted hread htime hread₂ htime₂ hsplit
  have hepoch : halfEpoch % (walk mockPrimitives s [first]).epochLength = 0 := by
    rw [hwalk₁, hlength₁]
    decide
  refine ⟨_, s, first, second, climbMilli / 1000, hcp, hlength, hat, ?_, paramsAt_climb _,
    (hrules [first] second [] rfl _ _ hat).2 hepoch, ?_, hchecked⟩
  · rw [hwalk₁]
    exact hlength₁
  · rw [hwalk₂]
    exact hpending

/-- A block in the middle of a Maxwell epoch, and a multiple of the shortest epoch. -/
def midEpoch : ℕ := 116664200

/-- A checkpoint before Lorentz, and a header after Maxwell at a multiple of 200: the snapshot
takes it for an epoch block and the layout check does not. Its records name one validator twice and
a turn length of zero. -/
theorem epoch_rules_differ :
    ¬ ∀ (P : Primitives) (cp : Checkpoint) s (calls : List (RpcBlockHeader × ℕ)),
      cp.validateBasic = .ok () → fromCheckpoint cp = .ok s → bohrTime ≤ cp.timestamp →
      ∀ before call after, calls = before ++ call :: after → ∀ signer number time,
        (step P (walk P s before) call).1 = .ok signer →
        decodeU64 call.1.number = .ok number → decodeU64 call.1.timestamp = .ok time →
        (number % (walk P s before).epochLength = 0 ↔
          number % (paramsAt number time).epochLength = 0) := by
  intro hall
  obtain ⟨s, hbasic, hcp, hsingle, hnumber, hlength, -⟩ := exists_bohr_start midEpoch
  have hmid : midEpoch = 116664200 := rfl
  obtain ⟨milli, hmilli⟩ : ∃ milli, milli = 1770000000000 := ⟨_, rfl⟩
  have hera : lorentzTime * 1000 ≤ milli ∧ milli < 1780000000000 ∧ maxwellTime ≤ milli / 1000 := by
    rw [hmilli]
    decide
  have htable : (paramsAt midEpoch (milli / 1000)).epochLength = 1000 :=
    (paramsAt_of_maxwell _ hera.2.2).1
  have hfollows : wrapSucc s.number = midEpoch := by
    rw [hnumber, wrapSucc_of_lt (Draft.small_lt_u64Size (by decide))]
    rfl
  have hnext : Ready (mockKey 1) s (s.singleDraft milli (soleRecords 2 0)) (some (hexQuantity 0))
      (List.replicate 2 ⟨(mockKey 1).address, .repeated 48 1⟩) (some 0) := by
    refine hsingle.ready_epoch hfollows (Draft.small_lt_u64Size (by decide)) ⟨hera.1, hera.2.1⟩
      (length_soleRecords le_rfl 0) (.inl ?_) (.inl ⟨rfl, ?_⟩) (by simp) (by simp) (by norm_num) ?_
    · rw [htable]
      change wrapSucc s.number % 1000 ≠ 0
      omega
    · change londonBlock ≤ wrapSucc s.number
      rw [hfollows]
      decide
    · rw [hlength]
      decide
  obtain ⟨call, l, b, milli', hstep, hread, htime, -⟩ := hnext.step
  have hdraft : (s.singleDraft milli (soleRecords 2 0)).number = midEpoch := hfollows
  rw [hdraft] at hread
  have hagree := hall mockPrimitives _ s [call] hbasic hcp le_rfl [] call [] rfl _ _ _
    (congrArg Prod.fst hstep) hread htime
  change midEpoch % s.epochLength = 0 ↔ midEpoch % (paramsAt midEpoch (milli / 1000)).epochLength = 0
    at hagree
  rw [hlength, htable] at hagree
  omega

end Snapshot

end HeliosBsc
