import HeliosBsc.Consensus.EpochSeed

/-!
# A walk through two epochs

An epoch block announces a set; the set comes into force `delay` blocks later, unless the next epoch
block comes first. `Since` is what the walk keeps from the announcement on. With it the answer of
`epoch_seed_at`, which is computed from two headers, is compared with the snapshot that walked
through them.
-/

namespace HeliosBsc

open Checked

namespace Snapshot

variable {P : Primitives}

/-! ## Set switches -/

/-- The set switch that a call makes: the epoch block whose set comes into force, and the height. -/
def switchOf (P : Primitives) (s : Snapshot) (call : RpcBlockHeader × ℕ) : Option (ℕ × ℕ) := do
  let signer ← (verifySealCoinbase P call.1 call.2).toOption
  let l ← (s.linkChecks call.1 signer).toOption
  let b ← ((s.trimRecents l.number).bodyChecks P call.1 signer l).toOption
  let p ← s.pendingDuring l b
  if l.number = p.activateAt then some (p.epochBlock, l.number) else none

/-- The set switches of a walk, in order. -/
def switches (P : Primitives) (s : Snapshot) (calls : List (RpcBlockHeader × ℕ)) : List (ℕ × ℕ) :=
  Machine.history (fun s call => (switchOf P s call).toList) (step P) s calls

section

variable {s : Snapshot} {call : RpcBlockHeader × ℕ} {signer : Address} {l : Link} {b : Body}
  {milli : ℕ}

theorem switchOf_of_accepts (hseal : SealOk P call.1 call.2 signer)
    (hacc : Accepts P s call.1 signer l b milli) :
    switchOf P s call = (s.pendingDuring l b).bind fun p =>
      if l.number = p.activateAt then some (p.epochBlock, l.number) else none := by
  simp only [switchOf, hseal.verified, linkChecks_eq_ok.mpr hacc.link,
    bodyChecks_eq_ok.mpr hacc.body, Except.toOption, Option.bind_eq_bind, Option.bind_some]

theorem switchOf_of_error {err : SnapshotError} (h : (step P s call).1 = .error err) :
    switchOf P s call = none := by
  unfold step applyHeader applyVerified at h
  unfold switchOf
  cases hv : verifySealCoinbase P call.1 call.2 with
  | error e => rfl
  | ok signer =>
    rw [hv] at h
    cases hl : s.linkChecks call.1 signer with
    | error e =>
      change (s.linkChecks call.1 signer).toOption.bind _ = none
      rw [hl]
      rfl
    | ok l =>
      change ((s.linkChecks call.1 signer).toOption.bind fun l => _) = none
      rw [hl]
      change (((s.trimRecents l.number).bodyChecks P call.1 signer l).toOption.bind fun b => _) =
        none
      cases hb : (s.trimRecents l.number).bodyChecks P call.1 signer l with
      | error e => rfl
      | ok b =>
        -- all that is left to fail is a decode that the seal check has made
        obtain ⟨milli, hmilli⟩ := (sealOk_of_verify hv).milli_ok
        simp only [hl, hb, hmilli] at h
        cases h

end

/-! ## From an announcement on -/

/-- Within the epoch, `q` is due `delay` blocks after the epoch block and at no other height. -/
def Due (q : PendingEpoch) (epoch delay : ℕ) : Prop :=
  ∀ n, epoch ≤ n → n < epoch + maxwellEpochLength → (n = q.activateAt ↔ n = epoch + delay)

/-- Whatever height an announcement names, it is due after some delay or not in this epoch. -/
theorem exists_due (q : PendingEpoch) (epoch : ℕ) : ∃ delay, Due q epoch delay := by
  rcases Nat.lt_or_ge q.activateAt epoch with hpast | hahead
  · exact ⟨maxwellEpochLength, fun n _ _ => by omega⟩
  · exact ⟨q.activateAt - epoch, fun n _ _ => by omega⟩

/-- What the walk keeps of the announcement `q` of an epoch block: it stands until its activation,
the set is in force from then to the end of the epoch, and it is switched to once. -/
structure Since (epoch delay : ℕ) (q : PendingEpoch) (log : List (ℕ × ℕ)) (s : Snapshot) :
    Prop where
  length : s.epochLength = maxwellEpochLength
  reached : epoch ≤ s.number
  waiting : s.number < epoch + delay → s.number < epoch + maxwellEpochLength → s.pending = some q
  active : epoch + delay ≤ s.number → s.number < epoch + maxwellEpochLength →
    s.pending = none ∧ s.validators = q.validators ∧ s.turnLength = q.turnLength
  stale : ∀ p, s.pending = some p → p.epochBlock = epoch →
    s.number < epoch + delay ∧ s.number < epoch + maxwellEpochLength
  log : log.filter (fun e => e.1 = epoch) =
    if delay < maxwellEpochLength ∧ epoch + delay ≤ s.number then [(epoch, epoch + delay)] else []

theorem next_epochLength_maxwell {s : Snapshot} (h : s.epochLength = maxwellEpochLength)
    (signer : Address) (l : Link) (b : Body) (milli : ℕ) :
    (s.next signer l b milli).epochLength = maxwellEpochLength := by
  rw [next_epochLength, advanceEpochLength, h]
  simp [maxwellEpochLength, lorentzEpochLength, defaultEpochLength]

theorem epoch_add_le {epoch n : ℕ} (hepoch : epoch % maxwellEpochLength = 0)
    (hn : n % maxwellEpochLength = 0) (hlt : epoch < n) : epoch + maxwellEpochLength ≤ n := by
  unfold maxwellEpochLength at *
  omega

theorem lt_epoch_add {epoch n : ℕ} (hepoch : epoch % maxwellEpochLength = 0)
    (hn : ¬ n % maxwellEpochLength = 0) (hle : n ≤ epoch + maxwellEpochLength) :
    n < epoch + maxwellEpochLength := by
  rcases hle.lt_or_eq with hlt | rfl
  · exact hlt
  · rw [Nat.add_mod_right] at hn
    exact absurd hepoch hn

section

variable {s : Snapshot} {call : RpcBlockHeader × ℕ} {signer : Address} {l : Link} {b : Body}
  {milli : ℕ}

theorem isEpoch_eq_true (h : s.epochLength = maxwellEpochLength)
    (hacc : Accepts P s call.1 signer l b milli) :
    b.isEpoch = true ↔ l.number % maxwellEpochLength = 0 := by
  have hepoch : b.isEpoch = decide (l.number % s.epochLength = 0) := hacc.body.isEpoch
  rw [hepoch, h, decide_eq_true_iff]

theorem Since.announced (h : s.epochLength = maxwellEpochLength)
    (hseal : SealOk P call.1 call.2 signer) (hacc : Accepts P s call.1 signer l b milli)
    (hboundary : l.number % maxwellEpochLength = 0) {delay : ℕ}
    (hat : Due (s.nextPending l.number b.parsed) l.number delay) :
    Since l.number delay (s.nextPending l.number b.parsed) (switchOf P s call).toList
      (s.next signer l b milli) := by
  have hduring : s.pendingDuring l b = some (s.nextPending l.number b.parsed) := by
    unfold pendingDuring
    rw [if_pos ((isEpoch_eq_true h hacc).mpr hboundary)]
  have hblock : (s.nextPending l.number b.parsed).epochBlock = l.number := rfl
  have hpos : 0 < maxwellEpochLength := by decide
  have hnow := hat l.number le_rfl (Nat.lt_add_of_pos_right hpos)
  have hswitch := switchOf_of_accepts hseal hacc
  rw [hduring, Option.bind_some, hblock] at hswitch
  have hnumber := s.next_number signer l b milli
  rcases s.next_sets signer l b milli with
    ⟨p, hp, hdue, -, -, -, hvals, hturn, hpend⟩ | ⟨hearly, -, -, -, -, -, hpend⟩
  · obtain rfl : s.nextPending l.number b.parsed = p := Option.some.inj (hduring.symm.trans hp)
    rw [if_pos hdue] at hswitch
    have hzero := hnow.mp hdue
    refine ⟨next_epochLength_maxwell h _ _ _ _, hnumber.ge, ?_, fun _ _ => ⟨hpend, hvals, hturn⟩, ?_,
      ?_⟩
    · rw [hnumber]
      omega
    · intro p hp'
      rw [hpend] at hp'
      cases hp'
    · rw [hswitch, if_pos ⟨by omega, by rw [hnumber]; omega⟩]
      simpa using hzero
  · have hlate := hearly _ hduring
    rw [if_neg hlate] at hswitch
    rw [Ne, hnow] at hlate
    refine ⟨next_epochLength_maxwell h _ _ _ _, hnumber.ge, fun _ _ => hpend.trans hduring, ?_, ?_,
      ?_⟩
    · rw [hnumber]
      omega
    · intro p hp' _
      rw [hnumber]
      omega
    · rw [hswitch, if_neg (by rw [hnumber]; omega)]
      rfl

variable {epoch delay : ℕ} {q : PendingEpoch} {log : List (ℕ × ℕ)}

theorem Since.trimRecents (h : Since epoch delay q log s) (n : ℕ) :
    Since epoch delay q log (s.trimRecents n) :=
  ⟨h.length, h.reached, h.waiting, h.active, h.stale, h.log⟩

/-- The next epoch block overwrites what is still announced. -/
theorem Since.boundary (h : Since epoch delay q log s) (hepoch : epoch % maxwellEpochLength = 0)
    (habove : call.1.AboveGenesis)
    (hseal : SealOk P call.1 call.2 signer) (hacc : Accepts P s call.1 signer l b milli)
    (hboundary : l.number % maxwellEpochLength = 0) :
    Since epoch delay q (log ++ (switchOf P s call).toList) (s.next signer l b milli) := by
  have hnumber := s.next_number signer l b milli
  have hfollows := hacc.link.number_eq habove
  have hreached := h.reached
  have hpast : epoch + maxwellEpochLength ≤ l.number :=
    epoch_add_le hepoch hboundary (by omega)
  have hduring : s.pendingDuring l b = some (s.nextPending l.number b.parsed) := by
    unfold pendingDuring
    rw [if_pos ((isEpoch_eq_true h.length hacc).mpr hboundary)]
  have hother : ¬ l.number = epoch := by omega
  have hblock : (s.nextPending l.number b.parsed).epochBlock = l.number := rfl
  have hswitch : (switchOf P s call).toList.filter (fun e => e.1 = epoch) = [] := by
    rw [switchOf_of_accepts hseal hacc, hduring, Option.bind_some]
    split
    · simpa [hblock] using hother
    · rfl
  refine ⟨next_epochLength_maxwell h.length _ _ _ _, by omega, by omega, by omega, ?_, ?_⟩
  · intro p hp hpe
    have hp' : p.epochBlock = l.number := by
      rcases s.next_sets signer l b milli with
        ⟨_, _, _, _, _, _, _, _, hpend⟩ | ⟨_, _, _, _, _, _, hpend⟩
      · rw [hpend] at hp
        cases hp
      · rw [hpend, hduring] at hp
        rw [← Option.some.inj hp, hblock]
    omega
  · rw [List.filter_append, hswitch, List.append_nil, h.log, hnumber]
    apply if_congr _ rfl rfl
    omega

/-- Within the epoch the announcement stands until it is due. -/
theorem Since.inside (h : Since epoch delay q log s) (hepoch : epoch % maxwellEpochLength = 0)
    (hq : q.epochBlock = epoch ∧ Due q epoch delay) (habove : call.1.AboveGenesis)
    (hseal : SealOk P call.1 call.2 signer) (hacc : Accepts P s call.1 signer l b milli)
    (hinside : ¬ l.number % maxwellEpochLength = 0) :
    Since epoch delay q (log ++ (switchOf P s call).toList) (s.next signer l b milli) := by
  have hnumber := s.next_number signer l b milli
  have hfollows := hacc.link.number_eq habove
  have hreached := h.reached
  have hduring : s.pendingDuring l b = s.pending := by
    unfold pendingDuring
    rw [if_neg (by rwa [isEpoch_eq_true h.length hacc])]
  have hbelow : s.number < epoch + maxwellEpochLength → l.number < epoch + maxwellEpochLength :=
    fun hlt => lt_epoch_add hepoch hinside (by omega)
  have hlength := next_epochLength_maxwell h.length signer l b milli
  have hswitch := switchOf_of_accepts hseal hacc
  rw [hduring] at hswitch
  rcases s.next_sets signer l b milli with
    ⟨p, hp, hdue, -, -, -, hvals, hturn, hpend⟩ | ⟨hearly, -, -, -, hvals, hturn, hpend⟩
  · rw [hduring] at hp
    rw [hp, Option.bind_some, if_pos hdue] at hswitch
    have hnone : ∀ p', (s.next signer l b milli).pending = some p' → p'.epochBlock = epoch →
        (s.next signer l b milli).number < epoch + delay ∧
          (s.next signer l b milli).number < epoch + maxwellEpochLength := by
      intro p' hp'
      rw [hpend] at hp'
      cases hp'
    by_cases hown : p.epochBlock = epoch
    · obtain ⟨hwait, hlt⟩ := h.stale p hp hown
      obtain rfl : p = q := Option.some.inj (hp.symm.trans (h.waiting hwait hlt))
      have hlt' := hbelow hlt
      rw [hq.2 _ (by omega) hlt'] at hdue
      refine ⟨hlength, by omega, by omega, fun _ _ => ⟨hpend, hvals, hturn⟩, hnone, ?_⟩
      rw [hswitch, List.filter_append, h.log, if_neg (by omega), if_pos (by omega), hown, hdue]
      simp
    · -- another announcement: the epoch is over
      have hover : epoch + maxwellEpochLength ≤ s.number := by
        by_contra hlt
        rw [not_le] at hlt
        by_cases hwait : s.number < epoch + delay
        · have hsame := h.waiting hwait hlt
          rw [hp] at hsame
          rw [Option.some.inj hsame] at hown
          exact hown hq.1
        · have hnone := (h.active (not_lt.mp hwait) hlt).1
          rw [hp] at hnone
          cases hnone
      refine ⟨hlength, by omega, by omega, by omega, hnone, ?_⟩
      rw [hswitch, List.filter_append, h.log, hnumber]
      simp only [Option.toList_some, List.filter_cons, hown, decide_false, Bool.false_eq_true,
        if_false, List.filter_nil, List.append_nil]
      apply if_congr _ rfl rfl
      omega
  · rw [hduring] at hpend hearly
    have hnot : s.number < epoch + delay → s.number < epoch + maxwellEpochLength →
        l.number ≠ epoch + delay := by
      intro hwait hlt
      rw [Ne, ← hq.2 _ (by omega) (hbelow hlt)]
      exact hearly q (h.waiting hwait hlt)
    have hnone : switchOf P s call = none := by
      rw [hswitch]
      cases hp : s.pending with
      | none => rfl
      | some p =>
        rw [Option.bind_some, if_neg (hearly p hp)]
    refine ⟨hlength, by omega, ?_, ?_, ?_, ?_⟩
    · intro hwait hlt
      rw [hpend]
      exact h.waiting (by omega) (by omega)
    · intro hle hlt
      rw [hpend, hvals, hturn]
      refine h.active ?_ (by omega)
      by_contra hwait
      exact hnot (by omega) (by omega) (by omega)
    · intro p hp hpe
      rw [hpend] at hp
      obtain ⟨hwait, hlt⟩ := h.stale p hp hpe
      have hne := hnot hwait hlt
      have hlt' := hbelow hlt
      omega
    · rw [hnone, Option.toList_none, List.append_nil, h.log, hnumber]
      apply if_congr _ rfl rfl
      by_cases hlt : s.number < epoch + maxwellEpochLength
      · by_cases hwait : s.number < epoch + delay
        · have hne := hnot hwait hlt
          omega
        · omega
      · omega

/-- The step lemma. -/
theorem Since.step (h : Since epoch delay q log s) (hepoch : epoch % maxwellEpochLength = 0)
    (hq : q.epochBlock = epoch ∧ Due q epoch delay)
    (habove : ∀ signer, (Snapshot.step P s call).1 = .ok signer → call.1.AboveGenesis) :
    Since epoch delay q (log ++ (switchOf P s call).toList) (Snapshot.step P s call).2 := by
  cases hr : (Snapshot.step P s call).1 with
  | ok signer =>
    obtain ⟨l, b, milli, hseal, hacc, hnext⟩ := step_ok hr
    rw [hnext]
    by_cases hboundary : l.number % maxwellEpochLength = 0
    · exact h.boundary hepoch (habove signer hr) hseal hacc hboundary
    · exact h.inside hepoch hq (habove signer hr) hseal hacc hboundary
  | error err =>
    rw [switchOf_of_error hr, Option.toList_none, List.append_nil]
    rcases step_error hr with hsame | htrimmed
    · rwa [hsame]
    · rw [htrimmed]
      exact h.trimRecents _

/-- The run lemma. -/
theorem Since.walk (h : Since epoch delay q log s) (hepoch : epoch % maxwellEpochLength = 0)
    (hq : q.epochBlock = epoch ∧ Due q epoch delay) {calls : List (RpcBlockHeader × ℕ)}
    (hunwrapped : Unwrapped P s calls) :
    Since epoch delay q (log ++ switches P s calls) (Snapshot.walk P s calls) := by
  induction calls using List.reverseRecOn with
  | nil => simpa [switches, Machine.history, Snapshot.walk] using h
  | append_singleton calls call ih =>
    have hcalls := ih (hunwrapped.of_prefix (List.prefix_append calls [call]))
    have hend : Snapshot.walk P s (calls ++ [call]) =
        (Snapshot.step P (Snapshot.walk P s calls) call).2 := Machine.run_concat s calls call
    have hlog : switches P s (calls ++ [call]) =
        switches P s calls ++ (switchOf P (Snapshot.walk P s calls) call).toList := by
      unfold switches
      rw [Machine.history_append, Machine.history_cons, Machine.history, List.append_nil]
      rfl
    rw [hend, hlog, ← List.append_assoc]
    exact hcalls.step hepoch hq fun signer => hunwrapped.aboveGenesis List.prefix_rfl

theorem epochRecords_of_accepts (h : s.epochLength = maxwellEpochLength)
    (hacc : Accepts P s call.1 signer l b milli) (hboundary : l.number % maxwellEpochLength = 0)
    (htime : bohrTime ≤ l.time) :
    ∃ vals turn, epochRecords call.1 = .ok (vals, turn) ∧
      (s.nextPending l.number b.parsed).validators = vals.map SealingValidator.address ∧
      (s.nextPending l.number b.parsed).turnLength = turn := by
  have hepoch : b.isEpoch = true := (isEpoch_eq_true h hacc).mpr hboundary
  obtain ⟨extra, hextra, hparsed⟩ := hacc.body.parsed
  rw [hepoch] at hparsed
  obtain ⟨hne, -, t, ht, -⟩ := parseExtra_bohr_true hparsed
  have hdvd := epochLength_dvd l.number l.time
  have hmultiple : ¬ ((paramsAt l.number l.time).epochLength = 0 ∨
      l.number % (paramsAt l.number l.time).epochLength ≠ 0) := by
    rw [not_or, not_not]
    refine ⟨fun hzero => ?_, Nat.mod_eq_zero_of_dvd (hdvd.trans (Nat.dvd_of_mod_eq_zero hboundary))⟩
    rw [hzero, Nat.zero_dvd] at hdvd
    cases hdvd
  refine ⟨sortByAddress b.parsed.validators, t, ?_, rfl, ?_⟩
  · simp only [epochRecords, hacc.link.number, hacc.link.time, hextra, mapError_ok, ok_bind,
      require_of hmultiple, extraDataVersion_of_bohr l.number htime, hparsed, require_of hne, ht,
      Option.getD_some, pure_eq_ok]
  · change b.parsed.turnLength.getD s.turnLength = t
    rw [ht, Option.getD_some]

end

/-! ## Two adjacent epochs -/

/-- From the state `s` the walk applies the epoch header of `p` and reaches the next epoch header,
with the set of `p` in force: its announcement no longer stands. -/
structure ThroughEpochs (P : Primitives) (s : Snapshot) (prev : RpcBlockHeader × ℕ)
    (mid : List (RpcBlockHeader × ℕ)) (epoch : RpcBlockHeader × ℕ) (p : ℕ) : Prop where
  length : s.epochLength = 1000
  boundary : p % 1000 = 0
  prevNumber : decodeU64 prev.1.number = .ok p
  prevTime : ∃ t, decodeU64 prev.1.timestamp = .ok t ∧ bohrTime ≤ t
  prevAccepted : ∃ signer, (step P s prev).1 = .ok signer
  activated : (walk P s (prev :: mid)).pending = none
  epochNumber : decodeU64 epoch.1.number = .ok (p + 1000)
  epochTime : ∃ t, decodeU64 epoch.1.timestamp = .ok t ∧ bohrTime ≤ t
  epochAccepted : ∃ signer, (step P (walk P s (prev :: mid)) epoch).1 = .ok signer

section

variable {s : Snapshot} {prev epoch : RpcBlockHeader × ℕ} {mid : List (RpcBlockHeader × ℕ)} {p : ℕ}

/-- An accepted epoch header: what it announces, and what the walk keeps of it. -/
theorem exists_since {call : RpcBlockHeader × ℕ} {number : ℕ} (hlength : s.epochLength = 1000)
    (hboundary : number % 1000 = 0) (hnumber : decodeU64 call.1.number = .ok number)
    (htime : ∃ t, decodeU64 call.1.timestamp = .ok t ∧ bohrTime ≤ t)
    (hok : ∃ signer, (step P s call).1 = .ok signer) :
    ∃ vals turn q, epochRecords call.1 = .ok (vals, turn) ∧
      q.validators = vals.map SealingValidator.address ∧ q.turnLength = turn ∧
      q.activateAt = wrapAdd number s.delay ∧
      ∀ after delay, Unwrapped P s (call :: after) → Due q number delay →
        Since number delay q (switches P s (call :: after)) (walk P s (call :: after)) := by
  obtain ⟨signer, hsigner⟩ := hok
  obtain ⟨l, b, milli, hseal, hacc, hnext⟩ := step_ok hsigner
  obtain ⟨t, ht, hbohr⟩ := htime
  obtain rfl : l.number = number := Except.ok.inj (hacc.link.number.symm.trans hnumber)
  obtain rfl : l.time = t := Except.ok.inj (hacc.link.time.symm.trans ht)
  obtain ⟨vals, turn, hrecords, hvals, hturn⟩ :=
    epochRecords_of_accepts hlength hacc hboundary hbohr
  refine ⟨vals, turn, _, hrecords, hvals, hturn, rfl, fun after delay hunwrapped hdue => ?_⟩
  have hstart := Since.announced hlength hseal hacc hboundary hdue
  rw [← hnext] at hstart
  exact hstart.walk hboundary ⟨rfl, hdue⟩ (@Unwrapped.of_append P s [call] after hunwrapped)

/-- Before the second epoch block the set of the first is in force. -/
theorem ThroughEpochs.inForce (h : ThroughEpochs P s prev mid epoch p)
    (hunwrapped : Unwrapped P s (prev :: mid)) :
    (walk P s (prev :: mid)).epochLength = 1000 ∧ ∃ vals turn,
      epochRecords prev.1 = .ok (vals, turn) ∧
      (walk P s (prev :: mid)).delay = switchDelay vals turn := by
  obtain ⟨vals, turn, q, hrecords, hvals, hturn, -, hsince⟩ :=
    exists_since h.length h.boundary h.prevNumber h.prevTime h.prevAccepted
  obtain ⟨delay, hdelay⟩ := exists_due q p
  have hmid := hsince mid delay hunwrapped hdelay
  obtain ⟨signer, hsigner⟩ := h.epochAccepted
  obtain ⟨l, b, milli, -, hacc, -⟩ := step_ok hsigner
  have hnumber : (walk P s (prev :: mid)).number + 1 = p + 1000 := by
    have hl : l.number = p + 1000 := Except.ok.inj (hacc.link.number.symm.trans h.epochNumber)
    rw [← hl]
    exact (eq_succ_of_wrapSucc hacc.link.follows (by omega)).symm
  have hbelow : (walk P s (prev :: mid)).number < p + maxwellEpochLength := by
    rw [maxwellEpochLength, ← hnumber]
    exact Nat.lt_succ_self _
  have hdue : p + delay ≤ (walk P s (prev :: mid)).number := by
    by_contra hearly
    have hpending := hmid.waiting (not_le.mp hearly) hbelow
    rw [h.activated] at hpending
    cases hpending
  obtain ⟨-, hset, hlength⟩ := hmid.active hdue hbelow
  refine ⟨hmid.length, vals, turn, hrecords, ?_⟩
  rw [Snapshot.delay, nSeal, hset, hlength, hvals, hturn, List.length_map, switchDelay]

/-- The seed computed from two epoch headers is the state of the snapshot that has walked through
them, at every block of the second epoch; and the set of the second epoch is switched to once, at
the height of the seed, or never if the epoch is over by then. -/
theorem epoch_seed_agrees (h : ThroughEpochs P s prev mid epoch p)
    (hfits : p + 1000 + (walk P s (prev :: mid)).delay < u64Size)
    {after : List (RpcBlockHeader × ℕ)}
    (hunwrapped : Unwrapped P s (prev :: mid ++ epoch :: after)) :
    let before := walk P s (prev :: mid)
    let final := walk P before (epoch :: after)
    let seed := epochSeedAt final.number 1000 epoch.1 prev.1
    let activateAt := p + 1000 + before.delay
    ∃ vals turn, epochRecords epoch.1 = .ok (vals, turn) ∧
      (final.number < p + 1000 + 1000 →
        (∀ t, seed = .ok (.active (p + 1000) t) ↔ final.pending = none ∧
          final.validators = vals.map SealingValidator.address ∧ final.turnLength = t) ∧
        ((∀ block t, seed ≠ .ok (.active block t)) → ∃ q, final.pending = some q ∧
          q.activateAt = activateAt ∧ seed = .ok (.pendingActivation (p + 1000) q.activateAt))) ∧
      (switches P before (epoch :: after)).filter (fun e => e.1 = p + 1000) =
        if before.delay < 1000 ∧ activateAt ≤ final.number then [(p + 1000, activateAt)] else [] := by
  intro before final seed activateAt
  have hafterUnwrapped : Unwrapped P before (epoch :: after) := hunwrapped.of_append
  obtain ⟨hlength, prevVals, prevTurn, hprevRecords, hdelay⟩ :=
    h.inForce (hunwrapped.of_prefix (List.prefix_append _ _))
  have hboundary : (p + 1000) % 1000 = 0 := by
    rw [Nat.add_mod_right]
    exact h.boundary
  obtain ⟨vals, turn, q, hrecords, hvals, hturn, hwrap, hsince⟩ :=
    exists_since hlength hboundary h.epochNumber h.epochTime h.epochAccepted
  have hat : q.activateAt = p + 1000 + before.delay := hwrap.trans (wrapAdd_of_lt hfits)
  have hafter := hsince after before.delay hafterUnwrapped fun n _ _ => by rw [hat]
  refine ⟨vals, turn, hrecords, fun hc => ?_, hafter.log⟩
  have hprevNumber : decodeU64 prev.1.number = .ok (p + 1000 - maxwellEpochLength) := by
    rw [h.prevNumber, maxwellEpochLength, Nat.add_sub_cancel]
  have hfrom : maxwellEpochLength ≤ p + 1000 := Nat.le_add_left _ _
  have hseed := epochSeedAt_eq h.epochNumber hrecords hprevNumber hprevRecords hfrom
    ⟨hafter.reached, hc⟩
  rw [maxwellEpochLength, ← hdelay, satAdd_of_lt hfits] at hseed
  by_cases hdue : p + 1000 + before.delay ≤ final.number
  · obtain ⟨hpending, hset, hlen⟩ := hafter.active hdue hc
    have hactive : seed = .ok (.active (p + 1000) turn) := hseed.trans (if_pos hdue)
    refine ⟨fun t => ?_, fun hnot => absurd hactive (hnot _ _)⟩
    rw [hactive]
    constructor
    · rintro ⟨⟩
      exact ⟨hpending, hset.trans hvals, hlen.trans hturn⟩
    · rintro ⟨-, -, ht⟩
      rw [← ht, hlen.trans hturn]
  · have hpending := hafter.waiting (not_le.mp hdue) hc
    have hwaits : seed = .ok (.pendingActivation (p + 1000) q.activateAt) := by
      rw [hat]
      exact hseed.trans (if_neg hdue)
    refine ⟨fun t => ?_, fun _ => ⟨q, hpending, hat, hwaits⟩⟩
    rw [hwaits, hpending]
    constructor
    · rintro ⟨⟩
    · rintro ⟨⟨⟩, -⟩

end

/-- The chain of one validator from one epoch block to the next. -/
theorem exists_throughEpochs :
    ∃ s prev mid epoch, ThroughEpochs mockPrimitives s prev mid epoch (beforeEpoch + 1) ∧
      (walk mockPrimitives s (prev :: mid)).delay = 7 ∧ s.number = beforeEpoch ∧
      mid.length = 999 := by
  obtain ⟨vals, hvals⟩ : ∃ vals : List SealingValidator,
      vals = [⟨(mockKey 1).address, .repeated 48 1⟩] := ⟨_, rfl⟩
  have hne : vals ≠ [] := by simp [hvals]
  have hcount : vals.length < 256 := by simp [hvals]
  have hnodup : (vals.map SealingValidator.address).Nodup := by simp [hvals]
  have hsize : (epochPart vals 8 []).length ≤ 100000 := by
    rw [length_epochPart, hvals, List.length_singleton, List.length_nil]
    decide
  have haddress : (sortByAddress vals).map SealingValidator.address = [(mockKey 1).address] := by
    simp [hvals, sortByAddress]
  have hlaid : (blankDraft beforeEpoch).LaidOut := .inl (by decide)
  obtain ⟨-, -, e₀, -, hsole, hnumber, -, hvotes, hpending, hatt, -⟩ :=
    exists_sole_engine (mockKey 1) (.repeated 48 1) (blankDraft_fits (by decide) (by decide)) hlaid
  have hrange₀ : 1770000000000 ≤ (blankDraft beforeEpoch).milli ∧
      (blankDraft beforeEpoch).milli + 2000000 < 1780000000000 := by decide
  generalize (blankDraft beforeEpoch).milli = milli at hsole hrange₀
  have hstart : e₀.Waits (mockKey 1) none _ beforeEpoch milli :=
    ⟨hsole, hpending, hvotes, hatt, hnumber⟩
  have hlow : londonBlock ≤ beforeEpoch := by decide
  have hhigh : beforeEpoch + 2000 < 2 ^ 32 := by decide
  have hepoch : (beforeEpoch + 1) % maxwellEpochLength = 0 := by decide
  have hrange : ∀ j ≤ 1000, LightEngine.InRange (beforeEpoch + j) (milli + 1000 * j) :=
    fun j hj => ⟨by omega, by omega, by omega, by omega⟩
  have hplain : ∀ j, 8 ≤ j → j < 1000 → ¬ (beforeEpoch + j + 1) % maxwellEpochLength = 0 := by
    intro j hpos hj
    unfold maxwellEpochLength at hepoch ⊢
    omega
  -- the first epoch block, and the blocks up to the switch
  obtain ⟨prev, prevNow, calls, hseven, hcalls, hprevNumber, hprevTime, -, hswitched⟩ :=
    hstart.throughSwitch (fun j hj => hrange j (by omega)) hepoch hne hcount hnodup hsize
  have hprev := LightEngine.step_snapshot (Machine.along_cons.mp hcalls).1.accepted
  have height := hswitched.waits (hswitched.validators.trans haddress)
  -- the rest of the epoch, and the second epoch block
  obtain ⟨rest, hrestLength, hrest, -, hlast⟩ := height.waits 992 (fun j _ hj => hrange j (by omega))
    (fun j hj hlt => hplain j hj hlt) (by rintro p ⟨⟩)
  obtain ⟨epoch, epochNow, -, -, -, -, -, hepochNumber, hepochTime, -, hepochOk, -⟩ :=
    hlast.announce (hrange 1000 le_rfl) (by decide) hne hcount hnodup hsize
  have hepochSnapshot := LightEngine.step_snapshot hepochOk.accepted
  have hbefore : walk mockPrimitives e₀.snapshot ((prev, prevNow) :: (calls ++ rest)) =
      (LightEngine.walk mockPrimitives (LightEngine.walk mockPrimitives e₀
        ((prev, prevNow) :: calls)) rest).snapshot := by
    rw [(hrest []).snapshot, hcalls.snapshot]
    exact Machine.run_append _ ((prev, prevNow) :: calls) rest
  have hmaxwell : bohrTime ≤ maxwellTime := by decide
  obtain ⟨prevTime, hprevRead, hprevLate⟩ := hprevTime
  obtain ⟨epochTime, hepochRead, hepochLate⟩ := hepochTime
  refine ⟨e₀.snapshot, (prev, prevNow), calls ++ rest, (epoch, epochNow),
    ⟨hsole.snapshot.epoch, hepoch, hprevNumber, ⟨_, hprevRead, hmaxwell.trans hprevLate⟩, hprev.1,
      ?_, hepochNumber, ⟨_, hepochRead, hmaxwell.trans hepochLate⟩, ?_⟩, ?_, hnumber, ?_⟩
  · rw [hbefore]
    exact hlast.pending
  · rw [hbefore]
    exact hepochSnapshot.1
  · rw [hbefore]
    exact hlast.sole.snapshot.delay_eq
  · rw [List.length_append, hseven, hrestLength]

/-- At the second epoch block of that chain. -/
theorem epoch_seed_agrees_sole :
    ∃ s prev mid epoch, ThroughEpochs mockPrimitives s prev mid epoch (beforeEpoch + 1) ∧
      let before := walk mockPrimitives s (prev :: mid)
      let final := walk mockPrimitives before [epoch]
      ∃ vals turn, epochRecords epoch.1 = .ok (vals, turn) ∧
        (final.number < beforeEpoch + 1 + 1000 + 1000 →
          (∀ t, epochSeedAt final.number 1000 epoch.1 prev.1 =
              .ok (.active (beforeEpoch + 1 + 1000) t) ↔ final.pending = none ∧
            final.validators = vals.map SealingValidator.address ∧ final.turnLength = t) ∧
          ((∀ block t, epochSeedAt final.number 1000 epoch.1 prev.1 ≠ .ok (.active block t)) →
            ∃ q, final.pending = some q ∧
              q.activateAt = beforeEpoch + 1 + 1000 + before.delay ∧
              epochSeedAt final.number 1000 epoch.1 prev.1 =
                .ok (.pendingActivation (beforeEpoch + 1 + 1000) q.activateAt))) ∧
        (switches mockPrimitives before [epoch]).filter (fun e => e.1 = beforeEpoch + 1 + 1000) =
          if before.delay < 1000 ∧ beforeEpoch + 1 + 1000 + before.delay ≤ final.number then
            [(beforeEpoch + 1 + 1000, beforeEpoch + 1 + 1000 + before.delay)] else [] := by
  obtain ⟨s, prev, mid, epoch, h, hdelay, hnumber, hlength⟩ := exists_throughEpochs
  have hfits : beforeEpoch + 1 + 1000 + (walk mockPrimitives s (prev :: mid)).delay < u64Size := by
    rw [hdelay]
    exact Draft.small_lt_u64Size (by decide)
  have hunwrapped : Unwrapped mockPrimitives s (prev :: mid ++ [epoch]) := by
    refine Unwrapped.of_fits ?_
    rw [hnumber, List.length_append, List.length_cons, hlength, List.length_singleton]
    exact Draft.small_lt_u64Size (by decide)
  exact ⟨s, prev, mid, epoch, h, epoch_seed_agrees h hfits hunwrapped⟩

end Snapshot

end HeliosBsc
