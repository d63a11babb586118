import HeliosBsc.Consensus.History
import HeliosBsc.Mock.Activation

/-!
# The validator generation of an attestation

The snapshot keeps the vote set in force and the one before it. Two set switches are at least three
blocks apart when every announcement is at least two blocks ahead, so one previous generation is
enough: for each target the fork rules allow, `attestation_set` is the vote set that was in force at
the block before the target.
-/

namespace HeliosBsc

open Checked

namespace Snapshot

variable {P : Primitives}

theorem step_number (s : Snapshot) {call : RpcBlockHeader × ℕ}
    (habove : ∀ signer, (step P s call).1 = .ok signer → call.1.AboveGenesis) :
    (step P s call).2.number = s.number ∨ (step P s call).2.number = s.number + 1 := by
  cases hr : (step P s call).1 with
  | ok signer =>
    obtain ⟨l, b, milli, -, hacc, hs⟩ := step_ok hr
    rw [hs, next_number]
    exact .inr (hacc.link.number_eq (habove signer hr))
  | error err =>
    rcases step_error hr with hs | hs
    · rw [hs]
      exact .inl rfl
    · rw [hs]
      exact .inl rfl

theorem exists_walk_number (s : Snapshot) {calls : List (RpcBlockHeader × ℕ)} {m : ℕ}
    (hunwrapped : Unwrapped P s calls)
    (hlow : s.number ≤ m) (hhigh : m ≤ (walk P s calls).number) :
    ∃ past, past <+: calls ∧ (walk P s past).number = m := by
  induction calls using List.reverseRecOn with
  | nil => exact ⟨[], List.prefix_rfl, Nat.le_antisymm hlow hhigh⟩
  | append_singleton calls call ih =>
    rcases Nat.lt_or_ge (walk P s calls).number m with hlt | hge
    · refine ⟨calls ++ [call], List.prefix_rfl, ?_⟩
      have hstep := step_number (P := P) (walk P s calls) fun signer hok =>
        hunwrapped.aboveGenesis List.prefix_rfl hok
      have hend : walk P s (calls ++ [call]) = (step P (walk P s calls) call).2 :=
        Machine.run_concat s calls call
      rw [hend] at hhigh ⊢
      omega
    · have hbefore := hunwrapped.of_prefix (List.prefix_append calls [call])
      obtain ⟨past, hpast, hnumber⟩ := ih hbefore hge
      exact ⟨past, hpast.trans (List.prefix_append calls [call]), hnumber⟩

/-! ## Two switches are three blocks apart -/

/-- Whenever the walk accepts an epoch header, the announced set activates at least two blocks
later. -/
def EpochDelays (P : Primitives) (s : Snapshot) (calls : List (RpcBlockHeader × ℕ)) : Prop :=
  ∀ past call signer, past ++ [call] <+: calls → (step P (walk P s past) call).1 = .ok signer →
    ((walk P s past).number + 1) % (walk P s past).epochLength = 0 →
    2 ≤ minerHistoryCheckLen (walk P s past).nSeal (walk P s past).turnLength

/-- The switch to come, if its height is not behind the tip, is three blocks after the last one. -/
structure Spaced (s : Snapshot) : Prop where
  turns : ByteTurns s
  past : s.setChangedAt ≤ s.number
  apart : ∀ p, s.pending = some p →
    s.setChangedAt = 0 ∨ s.setChangedAt + 3 ≤ p.activateAt ∨ p.activateAt ≤ s.number

section

variable {s : Snapshot} {header : RpcBlockHeader} {signer : Address} {l : Link} {b : Body}
  {milli : ℕ}

/-- The announcement in force while a header is applied keeps the distance, whether it is an old one
or the header's own. -/
theorem pendingDuring_apart (h : Accepts P s header signer l b milli) (hs : Spaced s)
    (habove : header.AboveGenesis)
    (hdelay : (s.number + 1) % s.epochLength = 0 → 2 ≤ minerHistoryCheckLen s.nSeal s.turnLength)
    {p : PendingEpoch} (hp : s.pendingDuring l b = some p) :
    s.setChangedAt = 0 ∨ s.setChangedAt + 3 ≤ p.activateAt ∨ p.activateAt ≤ s.number := by
  have hfollows := h.link.number_eq habove
  have hpast := hs.past
  have hepoch : b.isEpoch = decide (l.number % s.epochLength = 0) := h.body.isEpoch
  unfold pendingDuring at hp
  split at hp
  · next hb =>
    rw [hepoch, decide_eq_true_eq, hfollows] at hb
    have hd := hdelay hb
    have hact := hs.turns.nextPending_activateAt (decodeU64_lt h.link.number) b.parsed
    rw [Option.some.inj hp, delay] at hact
    exact .inr (by omega)
  · exact hs.apart p hp

theorem Spaced.next (h : Accepts P s header signer l b milli) (hs : Spaced s)
    (habove : header.AboveGenesis)
    (hdelay : (s.number + 1) % s.epochLength = 0 → 2 ≤ minerHistoryCheckLen s.nSeal s.turnLength) :
    Spaced (s.next signer l b milli) := by
  have hfollows := h.link.number_eq habove
  have hpast := hs.past
  have hturns := hs.turns.next h
  rcases s.next_sets signer l b milli with
    ⟨p, hp, -, -, -, hchanged, -, -, hpend⟩ | ⟨-, -, -, hchanged, -, -, hpend⟩
  · refine ⟨hturns, by rw [hchanged, next_number], fun q hq => ?_⟩
    rw [hpend] at hq
    cases hq
  · refine ⟨hturns, by rw [hchanged, next_number]; omega, fun q hq => ?_⟩
    rw [hpend] at hq
    have hapart := pendingDuring_apart h hs habove hdelay hq
    rw [hchanged, next_number]
    omega

end

/-- What a later snapshot of a walk still knows of the vote set at an earlier one. -/
structure Remembers (old s : Snapshot) : Prop where
  later : old.number ≤ s.number
  unchanged : s.setChangedAt ≤ old.number → s.voteSet = old.voteSet
  switched : old.number < s.setChangedAt → s.number ≤ old.number + 3 →
    s.prevVoteSet = old.voteSet

theorem Remembers.next {old s : Snapshot} {header : RpcBlockHeader} {signer : Address} {l : Link}
    {b : Body} {milli : ℕ} (hr : Remembers old s) (h : Accepts P s header signer l b milli)
    (hs : Spaced s) (habove : header.AboveGenesis)
    (hdelay : (s.number + 1) % s.epochLength = 0 → 2 ≤ minerHistoryCheckLen s.nSeal s.turnLength) :
    Remembers old (s.next signer l b milli) := by
  have hfollows := h.link.number_eq habove
  have hlater := hr.later
  rcases s.next_sets signer l b milli with
    ⟨p, hp, hdue, hvote, hprev, hchanged, -⟩ | ⟨-, hvote, hprev, hchanged, -⟩
  · refine ⟨by rw [next_number]; omega, fun hle => ?_, fun _ hnear => ?_⟩
    · rw [hchanged] at hle
      omega
    · -- a second switch this close would be less than three blocks after the first
      have hapart := pendingDuring_apart h hs habove hdelay hp
      rw [next_number] at hnear
      rw [hprev]
      exact hr.unchanged (by omega)
  · refine ⟨by rw [next_number]; omega, ?_, fun hlt hnear => ?_⟩
    · rw [hchanged, hvote]
      exact hr.unchanged
    · rw [hchanged] at hlt
      rw [next_number] at hnear
      rw [hprev]
      exact hr.switched hlt (by omega)

/-! ## Whole walks -/

theorem spaced_walk {s : Snapshot} (h : Spaced s) {calls : List (RpcBlockHeader × ℕ)}
    (hunwrapped : Unwrapped P s calls) (hdelays : EpochDelays P s calls) :
    Spaced (walk P s calls) := by
  induction calls using List.reverseRecOn with
  | nil => exact h
  | append_singleton calls call ih =>
    have hpre := List.prefix_append calls [call]
    have hi : Spaced (walk P s calls) := ih (hunwrapped.of_prefix hpre)
      fun past c signer hp => hdelays past c signer (hp.trans hpre)
    have hend : walk P s (calls ++ [call]) = (step P (walk P s calls) call).2 :=
      Machine.run_concat s calls call
    rw [hend]
    cases hr : (step P (walk P s calls) call).1 with
    | ok signer =>
      obtain ⟨l, b, milli, -, hacc, hs⟩ := step_ok hr
      rw [hs]
      exact hi.next hacc (hunwrapped.aboveGenesis List.prefix_rfl hr)
        (hdelays calls call signer List.prefix_rfl hr)
    | error err =>
      rcases step_error hr with hs | hs
      · rw [hs]
        exact hi
      · rw [hs]
        exact ⟨hi.turns.trimRecents _, hi.past, hi.apart⟩

theorem remembers_walk {s : Snapshot} (h : Spaced s) (past after : List (RpcBlockHeader × ℕ))
    (hunwrapped : Unwrapped P s (past ++ after))
    (hdelays : EpochDelays P s (past ++ after)) :
    Remembers (walk P s past) (walk P s (past ++ after)) := by
  refine Machine.run_later (R := Remembers) past after ?_ ?_
  · have hpast : EpochDelays P s past := fun p c signer hp =>
      hdelays p c signer (hp.trans (List.prefix_append past after))
    have hle := (spaced_walk h (hunwrapped.of_prefix (List.prefix_append past after)) hpast).past
    exact ⟨le_rfl, fun _ => rfl, fun hlt => absurd hlt (Nat.not_lt.mpr hle)⟩
  · intro mid call hmid hr
    have hpre : past ++ mid ++ [call] <+: past ++ after := by
      rw [List.append_assoc]
      exact (List.prefix_append_right_inj past).mpr hmid
    have hshorter := (List.prefix_append (past ++ mid) [call]).trans hpre
    have hsp : Spaced (walk P s (past ++ mid)) :=
      spaced_walk h (hunwrapped.of_prefix hshorter)
        fun p c signer hp => hdelays p c signer (hp.trans hshorter)
    rw [Machine.run_concat]
    change Remembers (walk P s past) (step P (walk P s (past ++ mid)) call).2
    cases hok : (step P (walk P s (past ++ mid)) call).1 with
    | ok signer =>
      obtain ⟨l, b, milli, -, hacc, hs⟩ := step_ok hok
      rw [hs]
      exact hr.next hacc hsp (hunwrapped.aboveGenesis hpre hok)
        (hdelays (past ++ mid) call signer hpre hok)
    | error err =>
      rcases step_error hok with hs | hs
      · rw [hs]
        exact hr
      · rw [hs]
        exact ⟨hr.later, hr.unchanged, hr.switched⟩

/-- For a walk from a checkpoint in which every accepted epoch header announces a set for at least
two blocks later, and every target above the checkpoint that the next header's attestation may name:
the walk has passed the block before the target, and `attestation_set` is the vote set that was in
force then. -/
theorem attestationSet_eq_voteSet_before_target {cp : Checkpoint} {s₀ : Snapshot}
    (h : fromCheckpoint cp = .ok s₀) {calls : List (RpcBlockHeader × ℕ)}
    (hunwrapped : Unwrapped P s₀ calls)
    (hdelays : EpochDelays P s₀ calls) {time target : ℕ}
    (hwindow : (attestationTargetWindow ((walk P s₀ calls).number + 1) time).1 ≤ target ∧
      target ≤ (attestationTargetWindow ((walk P s₀ calls).number + 1) time).2)
    (htarget : cp.number < target) :
    (∃ past, past <+: calls ∧ (walk P s₀ past).number = target - 1) ∧
    ∀ past, past <+: calls → (walk P s₀ past).number = target - 1 →
      (walk P s₀ calls).attestationSet target = (walk P s₀ past).voteSet := by
  obtain ⟨hnum, -, -, -, hpend, -, -, -, hchanged, -⟩ := fromCheckpoint_ok h
  obtain ⟨hlow, hhigh⟩ := le_of_mem_window hwindow
  have hspaced : Spaced s₀ := ⟨byteTurns_fromCheckpoint h, by rw [hchanged]; exact Nat.zero_le _,
    by rw [hpend]; rintro p ⟨⟩⟩
  refine ⟨exists_walk_number s₀ hunwrapped (by omega) (by omega), ?_⟩
  rintro past ⟨after, rfl⟩ hpast
  have hmem := remembers_walk hspaced past after hunwrapped hdelays
  unfold attestationSet
  split
  · next hlt => exact hmem.switched (by omega) (by omega)
  · next hge => exact hmem.unchanged (by omega)

/-- Every announcement of a steady walk is seven blocks ahead. -/
theorem epochDelays_of_steady {e : LightEngine} {vals : List SealingValidator}
    {calls : List (RpcBlockHeader × ℕ)} (h : LightEngine.Steady P vals e calls) :
    EpochDelays P e.snapshot calls := by
  rintro past call signer ⟨rest, rfl⟩ - -
  rw [List.append_assoc] at h
  obtain ⟨hpast, hcalls⟩ := Machine.along_append.mp h
  have hdelay := (Machine.along_cons.mp hcalls).1.delay
  have hsnapshot : (LightEngine.walk P e past).snapshot = walk P e.snapshot past :=
    LightEngine.Steady.snapshot hpast
  rw [LightEngine.walk] at hsnapshot
  rw [hsnapshot, delay] at hdelay
  rw [hdelay]
  norm_num

/-- One block after a switch, for targets on both sides of it: the vote for the block of the switch
is checked against the set before it, the vote for the block after it against the new one. -/
theorem attestationSet_eq_voteSet_before_target_switched : ∃ cp s₀ calls old new,
    fromCheckpoint cp = .ok s₀ ∧
    old <+: calls ∧ (walk mockPrimitives s₀ old).number = beforeEpoch + 7 ∧
    new <+: calls ∧ (walk mockPrimitives s₀ new).number = beforeEpoch + 8 ∧
    (walk mockPrimitives s₀ calls).attestationSet (beforeEpoch + 8) =
      (walk mockPrimitives s₀ old).voteSet ∧
    (walk mockPrimitives s₀ calls).attestationSet (beforeEpoch + 9) =
      (walk mockPrimitives s₀ new).voteSet ∧
    (walk mockPrimitives s₀ old).voteSet ≠ (walk mockPrimitives s₀ new).voteSet := by
  let v : SealingValidator := ⟨(mockKey 1).address, .repeated 48 2⟩
  have hsize : (epochPart [v] 8 []).length ≤ 100000 := by
    rw [length_epochPart, List.length_singleton, List.length_nil]
    decide
  have hsorted : sortByAddress [v] = [v] := by simp [sortByAddress]
  obtain ⟨cp, header₀, now, e₀, calls, epochHeader, milli, he, hcp, hlength, hsteady, -, -, hrange, -,
    hchanged, -, hprev, hvals, -, -, -, hwaits⟩ := exists_switched (.repeated 48 1)
      (List.cons_ne_nil v []) (by simp) (by simp) hsize
  rw [hsorted] at hvals hwaits
  have hswitched := hwaits hvals
  have hplain : ¬ (beforeEpoch + 8 + 1) % maxwellEpochLength = 0 := by decide
  obtain ⟨call, hcall, -, hprev', hchanged', hlast⟩ := hswitched.wait hrange hplain (by rintro q ⟨⟩)
  have hall : LightEngine.Steady mockPrimitives [v] e₀ (calls ++ [call]) :=
    Machine.along_concat.mpr ⟨hsteady, hcall [v]⟩
  rw [← LightEngine.walk_concat] at hprev' hchanged' hlast
  obtain ⟨-, h, -⟩ := LightEngine.fromCheckpointAndHeader_ok he
  have hnumber : (walk mockPrimitives e₀.snapshot (calls ++ [call])).number = beforeEpoch + 9 := by
    rw [← hall.snapshot]
    exact hlast.number
  have hunwrapped : Unwrapped mockPrimitives e₀.snapshot (calls ++ [call]) := by
    refine Unwrapped.of_fits ?_
    rw [(fromCheckpoint_ok h).1, hcp, List.length_append, hlength, List.length_singleton]
    exact Draft.small_lt_u64Size (by decide)
  have hset := fun target => @attestationSet_eq_voteSet_before_target mockPrimitives cp e₀.snapshot h
    (calls ++ [call]) hunwrapped (epochDelays_of_steady hall) fermiTime target
  rw [hnumber, hcp] at hset
  obtain ⟨⟨old, hold, holdNumber⟩, hbefore⟩ := hset (beforeEpoch + 8) (by decide) (by decide)
  obtain ⟨⟨new, hnew, hnewNumber⟩, hafter⟩ := hset (beforeEpoch + 9) (by decide) (by decide)
  have holdSet := hbefore old hold holdNumber
  have hnewSet := hafter new hnew hnewNumber
  refine ⟨cp, e₀.snapshot, calls ++ [call], old, new, h, hold, holdNumber, hnew, hnewNumber, holdSet,
    hnewSet, ?_⟩
  rw [← holdSet, ← hnewSet, ← hall.snapshot, attestationSet, attestationSet, hchanged', hchanged,
    hprev', hprev, hlast.votes, if_pos (by decide), if_neg (by decide)]
  have hkeys : (FixedBytes.repeated 48 1 : VoteKey) ≠ .repeated 48 2 := by decide
  exact fun heq => hkeys (congrArg SealingValidator.voteKey (List.head_eq_of_cons_eq heq))

end Snapshot

end HeliosBsc
