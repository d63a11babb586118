import HeliosBsc.Consensus.Seal

/-!
# The out-of-turn floor

The doc comment of `verify_out_of_turn_backoff` quotes the rule of geth that it stands for. That rule
has a shuffled term that is not reproduced, and its block interval is the one of the parent's fork.
The floor that is checked leaves the first out and takes the interval of the header's fork, so it is
never above the quoted one.
-/

namespace HeliosBsc

open Checked

/-- `WIGGLE_TIME_MS`. -/
def wiggleTimeMs : ℕ := 1000

/-! ## The rule as quoted -/

/-- The end of `backOffTime`, for a sealer that is out of turn and has not signed recently. `step` is
its entry in `backOffSteps`, and `signedRecently` says whether the in-turn validator has. -/
def backOffTime (parentTime : ℕ) (signedRecently : Bool) (step : ℕ) : ℕ :=
  let isParentLorentz := decide (lorentzTime ≤ parentTime)
  let delay := if isParentLorentz then lorentzInitialBackoffMs else defaultInitialBackoffMs
  let delay := if signedRecently then 0 else delay
  if delay = 0 ∧ isParentLorentz = true then
    if step = 0 then 0 else lorentzInitialBackoffMs + (step - 1) * wiggleTimeMs
  else delay + step * wiggleTimeMs

/-- A header and the numbers that its fields spell. -/
structure ReadHeader where
  header : RpcBlockHeader
  number : ℕ
  time : ℕ
  milli : ℕ
  difficulty : ℕ
  number_eq : decodeU64 header.number = .ok number
  time_eq : decodeU64 header.timestamp = .ok time
  milli_eq : milliTimestamp header = .ok milli
  difficulty_eq : decodeU64 header.difficulty = .ok difficulty

/-- `blockTimeVerifyForRamanujanFork` lets an out-of-turn header through. -/
def BlockTimeVerified (parent header : ReadHeader) (signedRecently : Bool) (step : ℕ) : Prop :=
  parent.milli + (paramsAt parent.number parent.time).blockIntervalMs +
    backOffTime parent.time signedRecently step ≤ header.milli

/-! ## The floor -/

theorem ReadHeader.milli_cases (h : ReadHeader) :
    h.time < lorentzTime ∧ h.milli = satMul h.time 1000 ∨
      lorentzTime ≤ h.time ∧ ∃ ms, h.milli = satAdd (satMul h.time 1000) ms := by
  have hread := h.milli_eq
  unfold milliTimestamp at hread
  rw [h.time_eq, mapError_ok, ok_bind] at hread
  obtain ⟨mix, -, hmilli⟩ := bind_eq_ok.mp hread
  split at hmilli
  · next hbefore => exact .inl ⟨hbefore, (Except.ok.inj hmilli).symm⟩
  · next hfrom => exact .inr ⟨Nat.not_lt.mp hfrom, _, (Except.ok.inj hmilli).symm⟩

/-- The milliseconds of a header tell the same fork as its time, also where they saturate. -/
theorem ReadHeader.lorentz_iff (h : ReadHeader) :
    lorentzTime ≤ h.milli / 1000 ↔ lorentzTime ≤ h.time := by
  have hsize : lorentzTime * 1000 < u64Size := by
    unfold lorentzTime u64Size
    norm_num
  rcases h.milli_cases with ⟨hbefore, hmilli⟩ | ⟨hfrom, ms, hmilli⟩
  · rw [hmilli]
    unfold satMul
    omega
  · rw [hmilli]
    unfold satAdd satMul
    omega

theorem satAdd_le (a b : ℕ) : satAdd a b ≤ a + b := Nat.min_le_left _ _

/-- Whatever the step of the shuffle, the quoted time is at least the initial delay. -/
theorem initial_le_backOffTime (parentTime step : ℕ) :
    (if lorentzTime ≤ parentTime then lorentzInitialBackoffMs else defaultInitialBackoffMs) ≤
      backOffTime parentTime false step := by
  unfold backOffTime
  by_cases h : lorentzTime ≤ parentTime
  · simp [h, lorentzInitialBackoffMs]
  · simp [h, defaultInitialBackoffMs]

theorem verifyOutOfTurnBackoff_of_floor {ctx : BackoffContext} {h : ReadHeader}
    (hfloor : satAdd (satAdd ctx.parentMilli (paramsAt h.number h.time).blockIntervalMs)
      (if lorentzTime ≤ ctx.parentMilli / 1000 then lorentzInitialBackoffMs
        else defaultInitialBackoffMs) ≤ h.milli) :
    verifyOutOfTurnBackoff ctx h.header = .ok () := by
  unfold verifyOutOfTurnBackoff
  simp only [h.number_eq, h.time_eq, h.milli_eq, h.difficulty_eq, mapError_ok, ok_bind]
  split
  · rfl
  · split
    · rfl
    · exact require_of hfloor _

/-- For any parent and any header not before it, any steps of the shuffle and any index into them: a
header that the quoted rule lets through passes the check, as long as the context owns up to an
in-turn validator that has signed recently. And the check passes every header when the context is
unknown or says so, and every in-turn header. -/
theorem backoff_accepts (ctx : BackoffContext) :
    (∀ parent header : ReadHeader, parent.time ≤ header.time → ctx.parentMilli = parent.milli →
      ∀ signedRecently : Bool, (signedRecently = true → ctx.inTurnSignedRecently = true) →
      ∀ (backOffSteps : List ℕ) (idx : Fin backOffSteps.length),
        BlockTimeVerified parent header signedRecently (backOffSteps.get idx) →
        verifyOutOfTurnBackoff ctx header.header = .ok ()) ∧
    ∀ header : RpcBlockHeader,
      ctx.known = false ∨ ctx.inTurnSignedRecently = true ∨
        decodeU64 header.difficulty = .ok diffInTurn →
      verifyOutOfTurnBackoff ctx header = .ok () := by
  have hgated : ∀ header : RpcBlockHeader,
      ctx.known = false ∨ ctx.inTurnSignedRecently = true ∨
        decodeU64 header.difficulty = .ok diffInTurn →
      verifyOutOfTurnBackoff ctx header = .ok () := by
    intro header hgate
    unfold verifyOutOfTurnBackoff
    rcases hgate with hunknown | hsigned | hinturn
    · rw [hunknown]
      rfl
    · rw [hsigned, Bool.or_true]
      rfl
    · split
      · rfl
      · rw [hinturn, mapError_ok, ok_bind, if_pos (by decide)]
        rfl
  refine ⟨?_, hgated⟩
  intro parent header htime hctx signedRecently hsigned backOffSteps idx hverified
  cases signedRecently with
  | true => exact hgated header.header (.inr (.inl (hsigned rfl)))
  | false =>
    apply verifyOutOfTurnBackoff_of_floor
    have hinterval := blockIntervalMs_anti parent.number header.number htime
    have hdelay := initial_le_backOffTime parent.time (backOffSteps.get idx)
    unfold BlockTimeVerified at hverified
    rw [hctx]
    simp only [parent.lorentz_iff]
    calc satAdd (satAdd parent.milli (paramsAt header.number header.time).blockIntervalMs) _
        ≤ parent.milli + (paramsAt header.number header.time).blockIntervalMs + _ :=
          (satAdd_le _ _).trans (Nat.add_le_add_right (satAdd_le _ _) _)
      _ ≤ parent.milli + (paramsAt parent.number parent.time).blockIntervalMs + _ :=
          Nat.add_le_add (Nat.add_le_add_left hinterval _) hdelay
      _ ≤ header.milli := hverified

/-- An out-of-turn header of the sample. -/
def backoffSample (number time : String) : RpcBlockHeader where
  hash := ""
  parentHash := ""
  sha3Uncles := ""
  miner := ""
  stateRoot := ""
  transactionsRoot := ""
  receiptsRoot := ""
  logsBloom := ""
  difficulty := "0x1"
  number := number
  gasLimit := ""
  gasUsed := ""
  timestamp := time
  extraData := ""
  mixHash := hexPrefixed (FixedBytes.repeated 32 0).val
  nonce := ""
  baseFeePerGas := none
  withdrawalsRoot := none
  blobGasUsed := none
  excessBlobGas := none
  parentBeaconBlockRoot := none
  requestsHash := none

theorem milliTimestamp_backoffSample {number time : String} {t : ℕ} (ht : decodeU64 time = .ok t)
    (hlorentz : lorentzTime ≤ t) :
    milliTimestamp (backoffSample number time) = .ok (satAdd (satMul t 1000) 0) := by
  have hmix : decodeHexFixed 32 (backoffSample number time).mixHash = .ok (.repeated 32 0) :=
    decodeHexFixed_hexPrefixed _
  unfold milliTimestamp
  rw [hmix]
  simp only [backoffSample, ht, mapError_ok, ok_bind]
  rw [if_neg (Nat.not_lt.mpr hlorentz)]
  rfl

/-- In the Fermi era, a header five seconds after its parent, at the second step of a shuffle. -/
theorem backoff_accepts_sample :
    ∃ parent header : ReadHeader, fermiTime ≤ parent.time ∧ header.time = parent.time + 5 ∧
      BlockTimeVerified parent header false ([2, 1, 0].get ⟨1, by decide⟩) ∧
      verifyOutOfTurnBackoff ⟨1770000000000, true, false⟩ header.header = .ok () := by
  have hparent : decodeU64 "0x69800e80" = .ok 1770000000 := by decide +kernel
  have hheader : decodeU64 "0x69800e85" = .ok 1770000005 := by decide +kernel
  let parent : ReadHeader := {
    header := backoffSample "0x1" "0x69800e80"
    number := 1
    time := 1770000000
    milli := satAdd (satMul 1770000000 1000) 0
    difficulty := diffNoTurn
    number_eq := by decide +kernel
    time_eq := hparent
    milli_eq := milliTimestamp_backoffSample hparent (by decide +kernel)
    difficulty_eq := by decide +kernel }
  let header : ReadHeader := {
    header := backoffSample "0x2" "0x69800e85"
    number := 2
    time := 1770000005
    milli := satAdd (satMul 1770000005 1000) 0
    difficulty := diffNoTurn
    number_eq := by decide +kernel
    time_eq := hheader
    milli_eq := milliTimestamp_backoffSample hheader (by decide +kernel)
    difficulty_eq := by decide +kernel }
  have hverified : BlockTimeVerified parent header false ([2, 1, 0].get ⟨1, by decide⟩) := by
    show satAdd (satMul 1770000000 1000) 0 + (paramsAt 1 1770000000).blockIntervalMs +
      backOffTime 1770000000 false 1 ≤ satAdd (satMul 1770000005 1000) 0
    decide +kernel
  have htime : (1770000000 : ℕ) ≤ 1770000005 := by norm_num
  have hctx : 1770000000000 = satAdd (satMul 1770000000 1000) 0 := by decide +kernel
  have hfermi : fermiTime ≤ 1770000000 := by decide +kernel
  refine ⟨parent, header, hfermi, rfl, hverified, ?_⟩
  exact (backoff_accepts ⟨1770000000000, true, false⟩).1 parent header htime hctx false nofun
    [2, 1, 0] ⟨1, by decide⟩ hverified

end HeliosBsc
