import Mathlib.Data.Nat.Basic
import Mathlib.Order.Basic
import Mathlib.Tactic.SplitIfs
import Mathlib.Tactic.NormNum

/-!
# Fork parameters

`config/src/lib.rs`: the Parlia parameters in force at a header's number and timestamp, the window
of targets an attestation may name, and the delay between an epoch block and the activation of
its validator set.
-/

namespace HeliosBsc

def londonBlock : ℕ := 31302048
def lubanBlock : ℕ := 29020050
def platoBlock : ℕ := 30720096
def cancunTime : ℕ := 1718863500
def bohrTime : ℕ := 1727317200
def pragueTime : ℕ := 1742436600
def lorentzTime : ℕ := 1745903100
def maxwellTime : ℕ := 1751250600
def fermiTime : ℕ := 1768357800
def osakaMendelTime : ℕ := 1777343400
def pasteurTime : ℕ := 1787625000

def defaultEpochLength : ℕ := 200
def lorentzEpochLength : ℕ := 500
def maxwellEpochLength : ℕ := 1000

def defaultBlockIntervalMs : ℕ := 3000
def lorentzBlockIntervalMs : ℕ := 1500
def maxwellBlockIntervalMs : ℕ := 750
def fermiBlockIntervalMs : ℕ := 450

def extraVanity : ℕ := 32
def extraSeal : ℕ := 65
def nextForkHashSize : ℕ := 4
def validatorBytes : ℕ := 68
def validatorNumberSize : ℕ := 1
def maxTurnLength : ℕ := 64

def diffInTurn : ℕ := 2
def diffNoTurn : ℕ := 1

/-- `ExtraDataVersion`: layouts of `extraData`. -/
inductive ExtraDataVersion where
  | preLuban
  | luban
  | bohr
  deriving DecidableEq, Repr

/-- `ForkParams`. -/
structure ForkParams where
  name : String
  activationBlock : Option ℕ
  activationTime : Option ℕ
  epochLength : ℕ
  turnLength : ℕ
  blockIntervalMs : ℕ
  extraDataVersion : ExtraDataVersion
  deriving DecidableEq, Repr

/-- `fermi_family`. -/
def fermiFamily (name : String) (activationTime : ℕ) : ForkParams where
  name := name
  activationBlock := none
  activationTime := some activationTime
  epochLength := maxwellEpochLength
  turnLength := 8
  blockIntervalMs := fermiBlockIntervalMs
  extraDataVersion := .bohr

/-- `params_at`. -/
def paramsAt (number timestamp : ℕ) : ForkParams :=
  if pasteurTime ≤ timestamp then fermiFamily "pasteur" pasteurTime
  else if fermiTime ≤ timestamp then fermiFamily "fermi" fermiTime
  else if maxwellTime ≤ timestamp then
    { name := "maxwell"
      activationBlock := none
      activationTime := some maxwellTime
      epochLength := maxwellEpochLength
      turnLength := 8
      blockIntervalMs := maxwellBlockIntervalMs
      extraDataVersion := .bohr }
  else if lorentzTime ≤ timestamp then
    { name := "lorentz"
      activationBlock := none
      activationTime := some lorentzTime
      epochLength := lorentzEpochLength
      turnLength := 8
      blockIntervalMs := lorentzBlockIntervalMs
      extraDataVersion := .bohr }
  else if bohrTime ≤ timestamp then
    { name := "bohr"
      activationBlock := none
      activationTime := some bohrTime
      epochLength := defaultEpochLength
      turnLength := 4
      blockIntervalMs := defaultBlockIntervalMs
      extraDataVersion := .bohr }
  else if lubanBlock ≤ number then
    { name := if platoBlock ≤ number then "plato" else "luban"
      activationBlock := some (if platoBlock ≤ number then platoBlock else lubanBlock)
      activationTime := none
      epochLength := defaultEpochLength
      turnLength := 1
      blockIntervalMs := defaultBlockIntervalMs
      extraDataVersion := .luban }
  else
    { name := "legacy"
      activationBlock := some 0
      activationTime := none
      epochLength := defaultEpochLength
      turnLength := 1
      blockIntervalMs := defaultBlockIntervalMs
      extraDataVersion := .preLuban }

/-- `K_ANCESTOR_GENERATION_DEPTH`. -/
def kAncestorGenerationDepth : ℕ := 3

/-- `ancestor_generation_depth`. -/
def ancestorGenerationDepth (number timestamp : ℕ) : ℕ :=
  if londonBlock ≤ number ∧ fermiTime ≤ timestamp then kAncestorGenerationDepth else 1

/-- `attestation_target_window`: both ends inclusive. -/
def attestationTargetWindow (number timestamp : ℕ) : ℕ × ℕ :=
  let parent := number - 1
  let depth := ancestorGenerationDepth number timestamp
  (parent - (depth - 1), parent)

/-- `mainnet_n_seal`. -/
def mainnetNSeal : ℕ := 21

/-- `max_reorg_depth`. -/
def maxReorgDepth : ℕ := mainnetNSeal

/-- `miner_history_check_len`. -/
def minerHistoryCheckLen (nSeal turnLength : ℕ) : ℕ :=
  if nSeal = 0 ∨ turnLength = 0 then 0 else (nSeal / 2 + 1) * turnLength - 1

/-- `PROVIDER_PROOF_LOOKBACK`. -/
def providerProofLookback : ℕ := 112

/-! ## Facts about the table -/

theorem paramsAt_turnLength_lt (number timestamp : ℕ) :
    (paramsAt number timestamp).turnLength < 256 := by
  unfold paramsAt fermiFamily
  split_ifs <;> norm_num

theorem epochLength_paramsAt_eq (number timestamp : ℕ) :
    (paramsAt number timestamp).epochLength =
      if maxwellTime ≤ timestamp then maxwellEpochLength
      else if lorentzTime ≤ timestamp then lorentzEpochLength
      else defaultEpochLength := by
  have hpasteur : fermiTime ≤ pasteurTime ∧ maxwellTime ≤ fermiTime := by
    unfold fermiTime pasteurTime maxwellTime
    norm_num
  unfold paramsAt fermiFamily
  split_ifs <;> first | rfl | omega

theorem epochLength_paramsAt (number timestamp : ℕ) :
    (paramsAt number timestamp).epochLength = defaultEpochLength ∨
      (paramsAt number timestamp).epochLength = lorentzEpochLength ∨
      (paramsAt number timestamp).epochLength = maxwellEpochLength := by
  rw [epochLength_paramsAt_eq]
  split_ifs <;> simp

theorem paramsAt_of_maxwell (number : ℕ) {timestamp : ℕ} (h : maxwellTime ≤ timestamp) :
    (paramsAt number timestamp).epochLength = maxwellEpochLength ∧
      (paramsAt number timestamp).extraDataVersion = .bohr ∧
      (paramsAt number timestamp).turnLength = 8 ∧
      (paramsAt number timestamp).blockIntervalMs ≤ maxwellBlockIntervalMs := by
  unfold paramsAt fermiFamily
  split_ifs <;> exact ⟨rfl, rfl, rfl, by decide⟩

theorem blockIntervalMs_paramsAt (number timestamp : ℕ) :
    (paramsAt number timestamp).blockIntervalMs =
      if fermiTime ≤ timestamp then fermiBlockIntervalMs
      else if maxwellTime ≤ timestamp then maxwellBlockIntervalMs
      else if lorentzTime ≤ timestamp then lorentzBlockIntervalMs
      else defaultBlockIntervalMs := by
  have hpasteur : fermiTime ≤ pasteurTime := by
    unfold fermiTime pasteurTime
    norm_num
  unfold paramsAt fermiFamily
  split_ifs <;> first | rfl | omega

theorem blockIntervalMs_anti (number number' : ℕ) {timestamp timestamp' : ℕ}
    (h : timestamp ≤ timestamp') : (paramsAt number' timestamp').blockIntervalMs ≤
      (paramsAt number timestamp).blockIntervalMs := by
  rw [blockIntervalMs_paramsAt, blockIntervalMs_paramsAt]
  unfold fermiBlockIntervalMs maxwellBlockIntervalMs lorentzBlockIntervalMs defaultBlockIntervalMs
  have hmaxwell : maxwellTime ≤ fermiTime := by
    unfold maxwellTime fermiTime
    norm_num
  have hlorentz : lorentzTime ≤ maxwellTime := by
    unfold lorentzTime maxwellTime
    norm_num
  split_ifs <;> omega

theorem extraDataVersion_of_bohr (number : ℕ) {timestamp : ℕ} (h : bohrTime ≤ timestamp) :
    (paramsAt number timestamp).extraDataVersion = .bohr := by
  unfold paramsAt fermiFamily
  split_ifs <;> rfl

theorem epochLength_dvd (number timestamp : ℕ) :
    (paramsAt number timestamp).epochLength ∣ maxwellEpochLength := by
  rcases epochLength_paramsAt number timestamp with h | h | h
  · rw [h]; decide
  · rw [h]; decide
  · rw [h]

/-- The window ends at the parent and reaches at most two blocks further down. -/
theorem le_of_mem_window {number timestamp t : ℕ}
    (h : (attestationTargetWindow number timestamp).1 ≤ t ∧
      t ≤ (attestationTargetWindow number timestamp).2) :
    number ≤ t + 3 ∧ t ≤ number - 1 := by
  simp only [attestationTargetWindow, ancestorGenerationDepth, kAncestorGenerationDepth] at h
  split_ifs at h <;> omega

end HeliosBsc
