import HeliosBsc.Execution.CallRounds
import HeliosBsc.Lib.Bisect

/-!
# Gas estimates

`execution/src/call.rs`: `estimate_gas_search` runs the call at its whole budget and then halves the
interval between a limit that is too low and one that succeeded. A success may bring the lower end
up as well, to just below the gas that was used.
-/

namespace HeliosBsc

open Checked

/-- `TX_GAS`. -/
def txGas : ℕ := 21000

/-- `MAX_ESTIMATE_ITERS`. -/
def maxEstimateIters : ℕ := 64

/-- `MAX_TX_GAS`. -/
def maxTxGas : ℕ := 16777216

/-- `CallTx`, as far as the functions below read it. -/
structure CallTx where
  gas : Option ℕ

/-- `call_gas`. -/
def callGas (tx : CallTx) (block : CallBlock) : ℕ :=
  let user := tx.gas.getD callGasCap
  let cap := min callGasCap block.gasLimit
  let cap := if evmSpecAt block.timestamp = .osaka then min cap maxTxGas else cap
  min user cap

theorem callGas_le_cap (tx : CallTx) (block : CallBlock) : callGas tx block ≤ callGasCap := by
  unfold callGas
  simp only
  split <;> omega

/-- `HaltReason`, as far as `halt_str` names it. -/
inductive HaltReason where
  | outOfGas
  | opcodeNotFound
  | invalidFEOpcode
  | notActivated
  | stackUnderflow
  | stackOverflow
  | outOfOffset
  | createCollision
  | overflowPayment
  | precompileError
  | nonceOverflow
  | createContractSizeLimit
  | createContractStartingWithEF
  | stateChangeDuringStaticCall
  | callNotAllowedInsideStatic
  | outOfFunds
  | callTooDeep
  | other
  deriving DecidableEq, Repr

/-- `halt_str`. -/
def haltStr : HaltReason → String
  | .outOfGas => "out of gas"
  | .opcodeNotFound => "invalid opcode"
  | .invalidFEOpcode => "invalid fe opcode"
  | .notActivated => "not activated"
  | .stackUnderflow => "stack underflow"
  | .stackOverflow => "stack overflow"
  | .outOfOffset => "out of offset"
  | .createCollision => "create collision"
  | .overflowPayment => "overflow payment"
  | .precompileError => "precompile"
  | .nonceOverflow => "nonce overflow"
  | .createContractSizeLimit => "code size"
  | .createContractStartingWithEF => "code starts with 0xef"
  | .stateChangeDuringStaticCall => "state change"
  | .callNotAllowedInsideStatic => "static call"
  | .outOfFunds => "out of funds"
  | .callTooDeep => "call too deep"
  | .other => "halt"

/-- `ExecutionResult`, as far as the search reads it. -/
inductive ExecutionResult where
  | success (txGasUsed : ℕ)
  | revert (output : Bytes)
  | halt (reason : HaltReason)
  deriving DecidableEq, Repr

/-- The bounds after an execution at `mid`, or the error that ends the search. -/
def nextBounds (lo hi mid : ℕ) : Except CallError ExecutionResult → Except CallError (ℕ × ℕ)
  | .ok (.success gasUsed) =>
    let hint := gasUsed - 1
    .ok (if lo < hint ∧ hint < mid then hint else lo, mid)
  | .ok (.revert _) | .ok (.halt _) | .error (.invalid "transaction") | .error (.halt _) =>
    .ok (mid, hi)
  | .error e => .error e

/-- A call of `transact_call_proven`: the state before it, and the gas. -/
structure Attempt where
  call : CallState
  gas : ℕ

/-- The state of the search where the condition of its loop is tested, with the attempts so far. -/
structure EstimateState where
  lo : ℕ
  hi : ℕ
  iters : ℕ
  call : CallState
  runs : List Attempt

/-- What a search ends with. -/
structure Estimate where
  result : Except CallError ℕ
  call : CallState
  runs : List Attempt

/-- The condition of the loop. -/
def EstimateState.Open (s : EstimateState) : Prop :=
  satAdd s.lo 1 < s.hi ∧ s.iters < maxEstimateIters

instance (s : EstimateState) : Decidable s.Open :=
  inferInstanceAs (Decidable (_ ∧ _))

section

variable (keccak256 : Bytes → Hash) (prover : ℕ → Prover) (evm : Evm ExecutionResult)
  (block : CallBlock)

/-- What an attempt returns. -/
def Attempt.outcome (a : Attempt) : Except CallError ExecutionResult :=
  (a.call.attempt keccak256 prover block (evm, a.gas)).1

/-- The state after an attempt. -/
def Attempt.after (a : Attempt) : CallState :=
  (a.call.attempt keccak256 prover block (evm, a.gas)).2

def Attempt.Succeeds (a : Attempt) : Prop :=
  ∃ gasUsed, a.outcome keccak256 prover evm block = .ok (.success gasUsed)

namespace EstimateState

/-- The attempt of the next iteration. -/
def attempt (s : EstimateState) : Attempt := ⟨s.call, s.lo + (s.hi - s.lo) / 2⟩

/-- The body of the loop. -/
def body (s : EstimateState) : Except CallError Unit × EstimateState :=
  let a := s.attempt
  let bounds := nextBounds s.lo s.hi a.gas (a.outcome keccak256 prover evm block)
  let s := { s with
    iters := s.iters + 1
    call := a.after keccak256 prover evm block
    runs := s.runs ++ [a] }
  match bounds with
  | .error e => (.error e, s)
  | .ok (lo, hi) => (.ok (), { s with lo := lo, hi := hi })

theorem body_iters (s : EstimateState) :
    (s.body keccak256 prover evm block).2.iters = s.iters + 1 := by
  unfold body
  simp only
  split <;> rfl

/-- The loop of `estimate_gas_search`. -/
def loop (s : EstimateState) : Estimate :=
  if _h : s.Open then
    let r := s.body keccak256 prover evm block
    match r.1 with
    | .error e => ⟨.error e, r.2.call, r.2.runs⟩
    | .ok _ => loop r.2
  else ⟨.ok s.hi, s.call, s.runs⟩
termination_by maxEstimateIters - s.iters
decreasing_by
  rw [body_iters]
  have := _h.2
  omega

/-- The state before the loop, after the call has used `gasUsed` at its whole budget. -/
def start (a : Attempt) (gasUsed : ℕ) : EstimateState :=
  ⟨gasUsed - 1, a.gas, 0, a.after keccak256 prover evm block, [a]⟩

end EstimateState

/-- `estimate_gas_search`. -/
def estimateGasSearch (tx : CallTx) (call : CallState) : Estimate :=
  let hiCap := callGas tx block
  if hiCap < txGas then ⟨.error (.halt "out of gas"), call, []⟩
  else
    let a : Attempt := ⟨call, hiCap⟩
    match a.outcome keccak256 prover evm block with
    | .error e => ⟨.error e, a.after keccak256 prover evm block, [a]⟩
    | .ok (.revert output) => ⟨.error (.revert output), a.after keccak256 prover evm block, [a]⟩
    | .ok (.halt reason) =>
      ⟨.error (.halt (haltStr reason)), a.after keccak256 prover evm block, [a]⟩
    | .ok (.success gasUsed) => (EstimateState.start keccak256 prover evm block a gasUsed).loop
        keccak256 prover evm block

/-! ## What a search keeps -/

/-- The states in which the loop of a search tests its condition. -/
inductive EstimateState.Reached (tx : CallTx) (call : CallState) : EstimateState → Prop
  | start {gasUsed : ℕ} : txGas ≤ callGas tx block →
      Attempt.outcome keccak256 prover evm block ⟨call, callGas tx block⟩ = .ok (.success gasUsed) →
      Reached tx call (.start keccak256 prover evm block ⟨call, callGas tx block⟩ gasUsed)
  | next {s : EstimateState} : Reached tx call s → s.Open →
      (s.body keccak256 prover evm block).1 = .ok () →
      Reached tx call (s.body keccak256 prover evm block).2

/-- The invariant of the loop. The lower end is a limit that was run in vain, or one below what a
success has used; the width halves with each iteration. -/
structure EstimateState.Inv (cap : ℕ) (s : EstimateState) : Prop where
  below : s.lo < s.hi
  capped : s.hi ≤ cap
  executed : ∃ a ∈ s.runs, a.gas = s.hi ∧ a.Succeeds keccak256 prover evm block
  tight : (∃ a ∈ s.runs, a.gas = s.lo ∧ ¬ a.Succeeds keccak256 prover evm block) ∨
    ∃ a ∈ s.runs, a.outcome keccak256 prover evm block = .ok (.success (s.lo + 1))
  width : ∃ m, s.iters + m ≤ 26 ∧ s.hi - s.lo ≤ 2 ^ m

end

section

variable {lo hi mid : ℕ}

/-- How the bounds move: to the middle on a failure, and on a success to the middle with the lower
end staying or going to just below the gas used. -/
theorem nextBounds_eq_ok {out : Except CallError ExecutionResult} {bounds : ℕ × ℕ}
    (h : nextBounds lo hi mid out = .ok bounds) :
    (∃ gasUsed, out = .ok (.success gasUsed) ∧ bounds.2 = mid ∧
      (bounds.1 = lo ∨ lo < gasUsed - 1 ∧ gasUsed - 1 < mid ∧ bounds.1 = gasUsed - 1)) ∨
    (∀ gasUsed, out ≠ .ok (.success gasUsed)) ∧ bounds = (mid, hi) := by
  unfold nextBounds at h
  split at h
  · next gasUsed =>
    rw [Except.ok.injEq] at h
    subst h
    refine .inl ⟨gasUsed, rfl, rfl, ?_⟩
    simp only
    split
    · next hhint => exact .inr ⟨hhint.1, hhint.2, rfl⟩
    · exact .inl rfl
  · exact .inr ⟨nofun, (Except.ok.inj h).symm⟩
  · exact .inr ⟨nofun, (Except.ok.inj h).symm⟩
  · exact .inr ⟨nofun, (Except.ok.inj h).symm⟩
  · exact .inr ⟨nofun, (Except.ok.inj h).symm⟩
  · cases h

end

section

variable {keccak256 : Bytes → Hash} {prover : ℕ → Prover} {evm : Evm ExecutionResult}
  {block : CallBlock}

theorem transactCallProven_eq_ok {ρ : Type} {evm : Evm ρ} {db : ProofDb} {gas rounds : ℕ} {res : ρ}
    (h : (transactCallProven keccak256 prover evm db block gas rounds).result = .ok res) :
    ∃ db', evm db' gas = .ok res := by
  fun_induction transactCallProven keccak256 prover evm db block gas rounds with
  | case1 db rounds out db' hrun =>
    obtain rfl : out = res := Except.ok.inj h
    unfold transactCall at hrun
    have hevm := (Prod.mk.inj hrun).1
    rw [mapError_eq_ok] at hevm
    exact ⟨_, hevm⟩
  | case5 db rounds miss db' hrun address slots hrequest hrounds done db'' hload hproven ih =>
    exact ih h
  | case2 | case3 | case4 | case6 | case7 => cases h

/-- A successful attempt used what the EVM says, at the attempt's gas. -/
theorem Attempt.exists_evm {a : Attempt} {gasUsed : ℕ}
    (h : a.outcome keccak256 prover evm block = .ok (.success gasUsed)) :
    ∃ db, evm db a.gas = .ok (.success gasUsed) :=
  transactCallProven_eq_ok h

namespace EstimateState

variable {s : EstimateState} {tx : CallTx} {call : CallState} {cap : ℕ}

theorem body_eq_ok (h : (s.body keccak256 prover evm block).1 = .ok ()) :
    ∃ bounds, nextBounds s.lo s.hi s.attempt.gas (s.attempt.outcome keccak256 prover evm block) =
        .ok bounds ∧
      (s.body keccak256 prover evm block).2 = { s with
        lo := bounds.1
        hi := bounds.2
        iters := s.iters + 1
        call := s.attempt.after keccak256 prover evm block
        runs := s.runs ++ [s.attempt] } := by
  unfold body at h ⊢
  simp only at h ⊢
  split at h
  · cases h
  · next lo hi hbounds =>
    exact ⟨(lo, hi), hbounds, rfl⟩

theorem satAdd_one_lt_iff (hcap : s.hi ≤ callGasCap) : satAdd s.lo 1 < s.hi ↔ s.lo + 1 < s.hi := by
  have hsmall : callGasCap < u64Size := by
    unfold callGasCap u64Size
    norm_num
  unfold satAdd
  omega

/-- The step lemma of the loop. -/
theorem Inv.body (hcap : cap ≤ callGasCap) (h : s.Inv keccak256 prover evm block cap)
    (hopen : s.Open) (hbody : (s.body keccak256 prover evm block).1 = .ok ()) :
    (s.body keccak256 prover evm block).2.Inv keccak256 prover evm block cap := by
  obtain ⟨bounds, hbounds, hs⟩ := body_eq_ok hbody
  obtain ⟨hbelow, hcapped, ⟨top, htop, hgas, hsucceeds⟩, htight, m, hm, hwidth⟩ := h
  have hgap := (satAdd_one_lt_iff (hcapped.trans hcap)).mp hopen.1
  have hmem : s.attempt ∈ s.runs ++ [s.attempt] := List.mem_append_right _ List.mem_cons_self
  have hmid : s.attempt.gas = s.lo + (s.hi - s.lo) / 2 := rfl
  -- an interval that the loop halves has a width of at least two
  obtain ⟨m, rfl⟩ : ∃ k, m = k + 1 := by
    apply Nat.exists_eq_add_one.mpr
    rw [Nat.pos_iff_ne_zero]
    rintro rfl
    omega
  rw [hs]
  rcases nextBounds_eq_ok hbounds with ⟨gasUsed, hout, hhi, hlo⟩ | ⟨hfailed, rfl⟩
  · have hhalves : Bisect.Halves s.lo s.hi bounds.1 bounds.2 := by
      constructor
      · omega
      · exact .inr ⟨by omega, hhi.trans hmid⟩
    refine ⟨hhalves.apart, ?_, ⟨s.attempt, hmem, hhi.symm, gasUsed, hout⟩, ?_, m, ?_,
      hhalves.width hwidth⟩
    · show bounds.2 ≤ cap
      omega
    · rcases hlo with hlo | ⟨hhint, -, hlo⟩
      · rw [hlo]
        rcases htight with ⟨a, ha, htight⟩ | ⟨a, ha, htight⟩
        · exact .inl ⟨a, List.mem_append_left _ ha, htight⟩
        · exact .inr ⟨a, List.mem_append_left _ ha, htight⟩
      · refine .inr ⟨s.attempt, hmem, ?_⟩
        rw [hout]
        show _ = Except.ok (ExecutionResult.success (bounds.1 + 1))
        rw [hlo, Nat.sub_add_cancel (by omega)]
    · show s.iters + 1 + m ≤ 26
      omega
  · have hhalves : Bisect.Halves s.lo s.hi s.attempt.gas s.hi := by
      constructor
      · omega
      · exact .inl ⟨hmid, rfl⟩
    refine ⟨hhalves.apart, hcapped, ⟨top, List.mem_append_left _ htop, hgas, hsucceeds⟩,
      .inl ⟨s.attempt, hmem, rfl, ?_⟩, m, ?_, hhalves.width hwidth⟩
    · rintro ⟨gasUsed, hout⟩
      exact hfailed gasUsed hout
    · show s.iters + 1 + m ≤ 26
      omega

/-- A success at the cap that used some gas, and no more than it had, opens the search. -/
theorem Inv.start {a : Attempt} {gasUsed : ℕ} (hcap : a.gas ≤ callGasCap)
    (hout : a.outcome keccak256 prover evm block = .ok (.success gasUsed)) (hpos : 1 ≤ gasUsed)
    (hle : gasUsed ≤ a.gas) : (EstimateState.start keccak256 prover evm block a gasUsed).Inv
      keccak256 prover evm block a.gas := by
  constructor
  · show gasUsed - 1 < a.gas
    omega
  · exact le_rfl
  · exact ⟨a, List.mem_cons_self, rfl, gasUsed, hout⟩
  · refine .inr ⟨a, List.mem_cons_self, ?_⟩
    rw [hout]
    show _ = Except.ok (ExecutionResult.success (gasUsed - 1 + 1))
    rw [Nat.sub_add_cancel hpos]
  · refine ⟨26, le_rfl, ?_⟩
    show a.gas - (gasUsed - 1) ≤ 2 ^ 26
    unfold callGasCap at hcap
    omega

/-- The run lemma: in every state that a search reaches the invariant holds. -/
theorem Reached.inv (hgas : ∀ db gas gasUsed, evm db gas = .ok (.success gasUsed) →
      1 ≤ gasUsed ∧ gasUsed ≤ gas) (h : s.Reached keccak256 prover evm block tx call) :
    s.Inv keccak256 prover evm block (callGas tx block) := by
  induction h with
  | start _ hout =>
    obtain ⟨db, hevm⟩ := Attempt.exists_evm hout
    obtain ⟨hpos, hle⟩ := hgas _ _ _ hevm
    exact Inv.start (callGas_le_cap tx block) hout hpos hle
  | next _ hopen hbody ih => exact ih.body (callGas_le_cap tx block) hopen hbody

theorem exists_reached_of_loop (h : s.Reached keccak256 prover evm block tx call) {g : ℕ}
    (hg : (s.loop keccak256 prover evm block).result = .ok g) :
    ∃ last : EstimateState, last.Reached keccak256 prover evm block tx call ∧ ¬ last.Open ∧
      g = last.hi ∧ (s.loop keccak256 prover evm block).runs = last.runs := by
  fun_induction EstimateState.loop keccak256 prover evm block s with
  | case1 s hopen r e herror => cases hg
  | case2 s hopen r done hbody ih => exact ih (h.next hopen hbody) hg
  | case3 s hclosed => exact ⟨s, h, hclosed, (Except.ok.inj hg).symm, rfl⟩

end EstimateState

end

/-- Whatever the contract does, as long as a success uses some gas and no more than its limit: at
every iteration the ends are apart, the upper one has been run and succeeded, and the cap on the
iterations is far. What the search returns is within the budget, has been run and succeeded, and is
tight: one less has been run in vain, or it is what a success of the search has used. -/
theorem estimateGasSearch_tight (keccak256 : Bytes → Hash) (prover : ℕ → Prover)
    (evm : Evm ExecutionResult) (hgas : ∀ db gas gasUsed, evm db gas = .ok (.success gasUsed) →
      1 ≤ gasUsed ∧ gasUsed ≤ gas) (block : CallBlock) (tx : CallTx) (call : CallState) :
    (∀ s : EstimateState, s.Reached keccak256 prover evm block tx call →
      s.lo < s.hi ∧ (∃ a ∈ s.runs, a.gas = s.hi ∧ a.Succeeds keccak256 prover evm block) ∧
        s.iters < maxEstimateIters) ∧
    let search := estimateGasSearch keccak256 prover evm block tx call
    ∀ g, search.result = .ok g →
      g ≤ callGas tx block ∧
      (∃ a ∈ search.runs, a.gas = g ∧ a.Succeeds keccak256 prover evm block) ∧
      ((∃ a ∈ search.runs, a.gas = g - 1 ∧ ¬ a.Succeeds keccak256 prover evm block) ∨
        ∃ a ∈ search.runs, a.outcome keccak256 prover evm block = .ok (.success g)) ∧
      ∃ last : EstimateState, last.Reached keccak256 prover evm block tx call ∧ g = last.hi ∧
        last.hi ≤ satAdd last.lo 1 := by
  have hiters : ∀ s : EstimateState, s.Inv keccak256 prover evm block (callGas tx block) →
      s.iters < maxEstimateIters := by
    intro s hs
    obtain ⟨m, hm, -⟩ := hs.width
    unfold maxEstimateIters
    omega
  refine ⟨?_, ?_⟩
  · intro s hs
    have hinv := hs.inv hgas
    exact ⟨hinv.below, hinv.executed, hiters s hinv⟩
  · intro search g hg
    have hsearch : search = estimateGasSearch keccak256 prover evm block tx call := rfl
    unfold estimateGasSearch at hsearch
    simp only at hsearch
    split at hsearch
    · rw [hsearch] at hg
      cases hg
    · next hcap =>
      split at hsearch
      · rw [hsearch] at hg
        cases hg
      · rw [hsearch] at hg
        cases hg
      · rw [hsearch] at hg
        cases hg
      · next gasUsed hout =>
        rw [hsearch] at hg
        obtain ⟨last, hreached, hclosed, rfl, hruns⟩ := EstimateState.exists_reached_of_loop
          (EstimateState.Reached.start (Nat.not_lt.mp hcap) hout) hg
        have hinv := hreached.inv hgas
        have hend : last.hi ≤ satAdd last.lo 1 := by
          by_contra hlt
          exact hclosed ⟨Nat.not_le.mp hlt, hiters last hinv⟩
        have hlo : last.hi = last.lo + 1 := by
          have hbelow := hinv.below
          have hiff := EstimateState.satAdd_one_lt_iff (hinv.capped.trans (callGas_le_cap tx block))
          omega
        rw [hsearch, hruns]
        refine ⟨hinv.capped, hinv.executed, ?_, last, hreached, rfl, hend⟩
        rw [hlo, Nat.add_sub_cancel]
        exact hinv.tight

/-- A contract that needs more gas than it uses, as one does that passes gas on. -/
def sampleEvm : Evm ExecutionResult := fun _ gas =>
  if 21001 ≤ gas then .ok (.success 21000) else .ok (.halt .outOfGas)

/-- A block of the sample search. -/
def sampleCallBlock : CallBlock where
  number := 0
  hash := .repeated 32 0
  stateRoot := .repeated 32 0
  timestamp := 0
  beneficiary := .repeated 20 0
  gasLimit := callGasCap
  difficulty := .repeated 32 0
  prevrandao := .repeated 32 0
  basefee := 0
  excessBlobGas := 0
  historicalHashes := []

theorem sampleEvm_outcome (keccak256 : Bytes → Hash) (prover : ℕ → Prover) (a : Attempt) :
    a.outcome keccak256 prover sampleEvm sampleCallBlock =
      if 21001 ≤ a.gas then .ok (.success 21000) else .ok (.halt .outOfGas) := by
  unfold Attempt.outcome CallState.attempt
  simp only
  rw [transactCallProven]
  unfold transactCall sampleEvm
  by_cases h : 21001 ≤ a.gas
  · simp only [if_pos h, mapError_ok]
  · simp only [if_neg h, mapError_ok]

/-- The search for the sample contract tries 21000 in vain and then 21001. -/
theorem sampleEvm_search (keccak256 : Bytes → Hash) (prover : ℕ → Prover) (call : CallState) :
    (estimateGasSearch keccak256 prover sampleEvm sampleCallBlock ⟨some 21002⟩ call).result =
      .ok 21001 := by
  have hcap : callGas ⟨some 21002⟩ sampleCallBlock = 21002 := by decide +kernel
  unfold estimateGasSearch
  simp only [hcap, sampleEvm_outcome]
  norm_num [txGas]
  unfold EstimateState.start
  rw [EstimateState.loop, dif_pos (by simp [EstimateState.Open, satAdd, u64Size, maxEstimateIters])]
  simp only [EstimateState.body, EstimateState.attempt, sampleEvm_outcome]
  norm_num [nextBounds]
  rw [EstimateState.loop, dif_pos (by simp [EstimateState.Open, satAdd, u64Size, maxEstimateIters])]
  simp only [EstimateState.body, EstimateState.attempt, sampleEvm_outcome]
  norm_num [nextBounds]
  rw [EstimateState.loop, dif_neg (by simp [EstimateState.Open, satAdd, u64Size])]

/-- The limit that is found for it has been run, and so has one less. -/
theorem estimateGasSearch_tight_sample :
    ∃ (keccak256 : Bytes → Hash) (prover : ℕ → Prover) (call : CallState),
    let search := estimateGasSearch keccak256 prover sampleEvm sampleCallBlock ⟨some 21002⟩ call
    search.result = .ok 21001 ∧
      (∃ a ∈ search.runs, a.gas = 21001 ∧
        a.Succeeds keccak256 prover sampleEvm sampleCallBlock) ∧
      ∃ a ∈ search.runs, a.gas = 21000 ∧
        ¬ a.Succeeds keccak256 prover sampleEvm sampleCallBlock := by
  have hgas : ∀ db gas gasUsed, sampleEvm db gas = .ok (.success gasUsed) →
      1 ≤ gasUsed ∧ gasUsed ≤ gas := by
    intro db gas gasUsed h
    unfold sampleEvm at h
    split at h
    · cases h
      omega
    · cases h
  let keccak256 : Bytes → Hash := Types.keccak256
  let prover : ℕ → Prover := fun _ => ⟨fun _ _ _ _ => .error .budget, fun _ _ _ => .error .budget⟩
  let call : CallState := ⟨.new .shanghai, 0⟩
  refine ⟨keccak256, prover, call, ?_⟩
  intro search
  have hresult : search.result = .ok 21001 := sampleEvm_search keccak256 prover call
  obtain ⟨-, hsearch⟩ := estimateGasSearch_tight keccak256 prover sampleEvm hgas sampleCallBlock
    ⟨some 21002⟩ call
  obtain ⟨-, hexecuted, htight, -⟩ := hsearch 21001 hresult
  refine ⟨hresult, hexecuted, ?_⟩
  rcases htight with hbelow | ⟨a, -, hused⟩
  · exact hbelow
  · rw [sampleEvm_outcome] at hused
    split at hused <;> cases hused

end HeliosBsc
