import HeliosBsc.Consensus.SignRecently
import HeliosBsc.Mock.Activation
import Mathlib.Algebra.BigOperators.Group.Finset.Basic
import Mathlib.Algebra.Order.BigOperators.Group.Finset

/-!
# The sealing rate

`sign_recently` counts the blocks of a sealer in `recents`, which is trimmed by one entry a block,
pruned to the finalized block and cleared when the set switches. As long as none of the newest
blocks has been pruned or cleared away, the map holds all of them, and so `turnLength` is the most
that one address seals of any `(N / 2 + 1) * turnLength` blocks in a row.
-/

namespace HeliosBsc

open Checked

namespace Snapshot

/-- The signers of the accepted headers of a walk, in order. -/
def sealers (P : Primitives) (s : Snapshot) (calls : List (RpcBlockHeader × ℕ)) : List Address :=
  (Machine.answers (step P) s calls).filterMap Except.toOption

/-- The turn length fits the counter, and the mark of a set switch is no validator. -/
structure Regular (s : Snapshot) : Prop where
  turn : 1 ≤ s.turnLength ∧ s.turnLength ≤ 255
  sentinel : recentEpochSentinel ∉ s.validators

/-- The newest `k` blocks are above the last set switch and above the finalized block. -/
structure Clear (s : Snapshot) (k : ℕ) : Prop where
  switched : s.setChangedAt + k ≤ s.number
  finalized : s.finalizedNumber + k ≤ s.number

/-! ## The window -/

theorem delay_succ {s : Snapshot} (h : s.Regular) (hn : s.nSeal ≠ 0) :
    s.delay + 1 = (s.nSeal / 2 + 1) * s.turnLength := by
  have hturn := h.turn.1
  have hpos : 0 < (s.nSeal / 2 + 1) * s.turnLength := Nat.mul_pos (Nat.succ_pos _) hturn
  rw [delay, minerHistoryCheckLen, if_neg (by omega)]
  omega

theorem delay_lt {s : Snapshot} (h : s.Regular) : s.delay + 1 < u64Size :=
  delay_lt_of_turn h.turn.2

theorem mem_trimRecents {s : Snapshot} (h : s.Regular) {e : ℕ × Address}
    (he : e ∈ s.recents.entries) (hnew : s.number < e.1 + s.delay) {n : ℕ}
    (hn : n ≤ s.number + 1) : e ∈ (s.trimRecents n).recents.entries := by
  have hlimit : satAdd s.delay 1 = s.delay + 1 := satAdd_of_lt (delay_lt h)
  rw [trimRecents]
  simp only [hlimit]
  split
  · apply List.mem_filter.mpr ⟨he, ?_⟩
    rw [bne_iff_ne]
    omega
  · exact he

theorem seenTimes_lt {s : Snapshot} (h : s.Regular) {signer : Address}
    (hs : s.signRecently signer = false) : s.seenTimes signer < s.turnLength := by
  have hturn := h.turn
  simp only [signRecently, decide_eq_false_iff_not] at hs
  omega

/-- An entry survives an accepted header if it was in the window, is not finalized, and the set does
not switch. -/
theorem mem_next_recents_of {s : Snapshot} {signer : Address} {l : Link} {b : Body} {milli : ℕ}
    (hnot : ∀ p, s.pendingDuring l b = some p → l.number ≠ p.activateAt) {e : ℕ × Address}
    (he : e = (l.number, signer) ∨
      e ∈ (s.trimRecents l.number).recents.entries ∧ e.1 ≠ l.number)
    (hfinal : (s.next signer l b milli).finalizedNumber < e.1) :
    e ∈ (s.next signer l b milli).recents.entries := by
  have hpend : ((s.trimRecents l.number).record signer l b).pending = s.pendingDuring l b := rfl
  have hact : ((s.trimRecents l.number).record signer l b).activate l.number =
      (s.trimRecents l.number).record signer l b := by
    unfold activate
    rw [hpend]
    split
    · rfl
    · next p hp => exact if_neg (hnot p hp)
  have hins : e ∈ ((s.trimRecents l.number).recents.insert l.number signer).entries := by
    rcases he with rfl | ⟨he, hne⟩
    · exact List.mem_cons_self
    · apply List.mem_cons_of_mem
      exact List.mem_filter.mpr ⟨he, bne_iff_ne.mpr hne⟩
  have hatt : (s.next signer l b milli).finalizedNumber =
      ((s.trimRecents l.number).record signer l b).finalizedNumber := by
    rw [next, commit, hact]
    rfl
  have hrecents : (s.next signer l b milli).recents =
      ((s.trimRecents l.number).record signer l b).recents := by
    rw [next, commit, hact]
    rfl
  rw [hatt] at hfinal
  rw [hrecents, record]
  simp only [advanceEpochLength]
  split
  · exact List.mem_filter.mpr ⟨hins, decide_eq_true hfinal⟩
  · exact hins

/-! ## The invariant -/

/-- `blocks` are the numbered signers so far. The map holds those of the window that are clear, and
no address has more than its turn of them. -/
structure Rate (start : ℕ) (blocks : List (ℕ × Address)) (s : Snapshot) : Prop where
  number : s.number = start + blocks.length
  numbers : blocks.map Prod.fst = List.range' (start + 1) blocks.length
  below : ∀ a, s.attestation = some a → a.sourceNumber < a.targetNumber
  kept : s.Regular → ∀ k ≤ s.delay, s.Clear k → ∀ e ∈ newest k blocks, e ∈ s.recents.entries
  bounded : s.Regular → ∀ k ≤ s.delay + 1, s.Clear k →
    ∀ a, (newest k blocks).countP (fun e => e.2 = a) ≤ s.turnLength

namespace Rate

variable {P : Primitives} {start : ℕ} {blocks : List (ℕ × Address)} {s : Snapshot}

theorem number_of_mem (h : Rate start blocks s) {k : ℕ} {e : ℕ × Address}
    (he : e ∈ newest k blocks) : s.number < e.1 + k ∧ start < e.1 ∧ e.1 ≤ s.number := by
  have hmem : e.1 ∈ newest k (blocks.map Prod.fst) := by
    rw [newest_map]
    exact List.mem_map_of_mem he
  rw [h.numbers, newest, List.length_range', List.drop_range', List.mem_range'_1] at hmem
  have hnumber := h.number
  omega

theorem trimRecents (h : Rate start blocks s) {n : ℕ} (hn : n ≤ s.number + 1) :
    Rate start blocks (s.trimRecents n) where
  number := h.number
  numbers := h.numbers
  below := h.below
  kept hr k hk hclear e he := by
    have hregular : s.Regular := ⟨hr.turn, hr.sentinel⟩
    have hold := h.kept hregular k hk ⟨hclear.switched, hclear.finalized⟩ e he
    have hnew := h.number_of_mem he
    have hk' : k ≤ s.delay := hk
    exact mem_trimRecents hregular hold (by omega) hn
  bounded hr k hk hclear a :=
    h.bounded ⟨hr.turn, hr.sentinel⟩ k hk ⟨hclear.switched, hclear.finalized⟩ a

/-- The counter of `sign_recently` sees every block of the window. -/
theorem count_le_seenTimes (h : Rate start blocks s) (hr : s.Regular) {k : ℕ} (hk : k ≤ s.delay)
    (hclear : s.Clear k) {a : Address} (ha : a ≠ recentEpochSentinel) :
    (newest k blocks).countP (fun e => e.2 = a) ≤ s.seenTimes a := by
  have hnodup : (newest k blocks).Nodup := by
    have hall : (blocks.map Prod.fst).Nodup := by
      rw [h.numbers]
      exact List.nodup_range'
    exact (List.drop_sublist _ _).nodup (List.Nodup.of_map _ hall)
  have hsub : (newest k blocks).filter (fun e => e.2 = a) ⊆ s.recents.entries.filter fun e =>
      s.number - s.delay < e.1 ∧ e.2 ≠ recentEpochSentinel ∧ e.2 = a := by
    intro e he
    obtain ⟨he, hea⟩ := List.mem_filter.mp he
    have hea := of_decide_eq_true hea
    have hnumber := h.number_of_mem he
    refine List.mem_filter.mpr ⟨h.kept hr k hk hclear e he, decide_eq_true ⟨by omega, ?_, hea⟩⟩
    rwa [hea]
  rw [List.countP_eq_length_filter, seenTimes]
  exact (List.subperm_of_subset (hnodup.filter _) hsub).length_le

theorem finalizedNumber_le_next (h : Rate start blocks s) {header : RpcBlockHeader}
    {signer : Address} {l : Link} {b : Body} {milli : ℕ}
    (hacc : Accepts P s header signer l b milli) :
    s.finalizedNumber ≤ (s.next signer l b milli).finalizedNumber ∧
      ∀ a, (s.next signer l b milli).attestation = some a → a.sourceNumber < a.targetNumber := by
  cases hb : b.adopted with
  | none =>
    have hsame : (s.next signer l b milli).attestation = s.attestation :=
      next_attestation_of_none hb
    rw [finalizedNumber, finalizedNumber, hsame]
    exact ⟨le_rfl, h.below⟩
  | some data =>
    have hadv := advances_of_accepts hacc hb h.below
    refine ⟨?_, hadv.below⟩
    cases hcur : s.attestation with
    | none =>
      rw [finalizedNumber, hcur]
      exact Nat.zero_le _
    | some cur =>
      obtain ⟨f, hf, hle, -⟩ := hadv.finalized (cur.sourceNumber, cur.sourceHash)
        (by rw [Snapshot.finalized, hcur, Option.map_some])
      obtain ⟨new, hnew, rfl⟩ := Option.map_eq_some_iff.mp hf
      rw [finalizedNumber, finalizedNumber, hcur, hnew]
      exact hle

/-- The step lemma. The signer of the new block is bounded by `sign_recently`, every other address
by the window before it; a set switch leaves no block clear. -/
theorem next (h : Rate start blocks s) {header : RpcBlockHeader} {signer : Address} {l : Link}
    {b : Body} {milli : ℕ} (hacc : Accepts P s header signer l b milli)
    (habove : header.AboveGenesis) :
    Rate start (blocks ++ [(l.number, signer)]) (s.next signer l b milli) := by
  have hfollows := hacc.link.number_eq habove
  have hnumber := h.number
  obtain ⟨hfinal, hbelow⟩ := h.finalizedNumber_le_next hacc
  have htrim := h.trimRecents hfollows.le
  have hcount : (s.next signer l b milli).number =
      start + (blocks ++ [(l.number, signer)]).length := by
    rw [next_number, List.length_append, List.length_singleton]
    omega
  have hnumbers : (blocks ++ [(l.number, signer)]).map Prod.fst =
      List.range' (start + 1) (blocks ++ [(l.number, signer)]).length := by
    rw [List.map_append, h.numbers, List.length_append, List.length_singleton, List.range'_concat,
      List.map_singleton]
    congr 2
    omega
  rcases s.next_sets signer l b milli with
    ⟨p, -, -, -, -, hswitch, -⟩ | ⟨hnot, -, -, hchanged, hvals, hturn, -⟩
  · -- the switch is at this block, so that the clear window is empty
    have hzero : ∀ k, (s.next signer l b milli).Clear k → k = 0 := by
      intro k hclear
      have := hclear.switched
      rw [hswitch, next_number] at this
      omega
    refine ⟨hcount, hnumbers, hbelow, fun _ k _ hclear e he => ?_, fun _ k _ hclear a => ?_⟩
    · rw [hzero k hclear, newest_zero] at he
      cases he
    · rw [hzero k hclear, newest_zero]
      exact Nat.zero_le _
  · have hdelay : (s.next signer l b milli).delay = s.delay := by
      rw [delay, delay, nSeal, nSeal, hvals, hturn]
    have hregular : (s.next signer l b milli).Regular → s.Regular := by
      rintro ⟨h₁, h₂⟩
      rw [hturn] at h₁
      rw [hvals] at h₂
      exact ⟨h₁, h₂⟩
    have hbefore : ∀ j, (s.next signer l b milli).Clear (j + 1) → s.Clear j := by
      rintro j ⟨h₁, h₂⟩
      rw [hchanged, next_number] at h₁
      rw [next_number] at h₂
      exact ⟨by omega, by omega⟩
    refine ⟨hcount, hnumbers, hbelow, fun hr k hk hclear e he => ?_, fun hr k hk hclear a => ?_⟩
    · rw [hdelay] at hk
      cases k with
      | zero =>
        rw [newest_zero] at he
        cases he
      | succ j =>
        have hnew := hclear.finalized
        rw [next_number] at hnew
        rw [newest_succ_concat] at he
        rcases List.mem_append.mp he with he | he
        · have hrange := h.number_of_mem he
          have hold := htrim.kept ⟨(hregular hr).turn, (hregular hr).sentinel⟩ j
            (Nat.le_of_succ_le hk) ⟨(hbefore j hclear).switched, (hbefore j hclear).finalized⟩ e he
          exact mem_next_recents_of hnot (.inr ⟨hold, by omega⟩) (by omega)
        · obtain rfl := List.mem_singleton.mp he
          exact mem_next_recents_of hnot (.inl rfl) (by simp only; omega)
    · rw [hdelay] at hk
      rw [hturn]
      cases k with
      | zero =>
        rw [newest_zero]
        exact Nat.zero_le _
      | succ j =>
        have hj := Nat.le_of_succ_le_succ hk
        rw [newest_succ_concat, List.countP_append]
        by_cases ha : signer = a
        · subst ha
          have hsealer : signer ≠ recentEpochSentinel := by
            rintro rfl
            exact (hregular hr).sentinel (Bisect.mem_of_contains hacc.link.member)
          have hseen := htrim.count_le_seenTimes ⟨(hregular hr).turn, (hregular hr).sentinel⟩ hj
            ⟨(hbefore j hclear).switched, (hbefore j hclear).finalized⟩ hsealer
          have hlt := seenTimes_lt (s := s.trimRecents l.number)
            ⟨(hregular hr).turn, (hregular hr).sentinel⟩ hacc.body.notRecent
          have hsame : (s.trimRecents l.number).turnLength = s.turnLength := rfl
          have hone : ([(l.number, signer)].countP fun e => decide (e.2 = signer)) ≤ 1 :=
            List.countP_le_length
          omega
        · have hold := h.bounded (hregular hr) j (hj.trans (Nat.le_succ _)) (hbefore j hclear) a
          rw [List.countP_singleton]
          simp only [ha, decide_false, Bool.false_eq_true, if_false, Nat.add_zero]
          exact hold

/-- If no element occurs more than `t` times, `m * t` places need `m` elements. -/
theorem le_card_of_count_le {α : Type*} [DecidableEq α] {l : List α} {m t : ℕ} (ht : 1 ≤ t)
    (hlen : l.length = m * t) (h : ∀ a, l.count a ≤ t) : m ≤ l.toFinset.card := by
  have hsum : l.length ≤ l.toFinset.card * t := by
    rw [← List.sum_toFinset_count_eq_length l]
    exact Finset.sum_le_card_nsmul _ _ _ fun a _ => h a
  rw [hlen] at hsum
  exact Nat.le_of_mul_le_mul_right hsum ht

/-- No address has more than its turn of a whole window. -/
theorem window (h : Rate start blocks s) (hr : s.Regular) {first W : ℕ}
    (hW : W = (s.nSeal / 2 + 1) * s.turnLength) (hfirst : first + W = s.number + 1)
    (hstart : start < first) (hswitch : s.setChangedAt < first)
    (hfinal : s.finalizedNumber < first) :
    (newest W (blocks.map Prod.snd)).length = W ∧
      (∀ a, (newest W (blocks.map Prod.snd)).count a ≤ s.turnLength) ∧
      s.nSeal / 2 + 1 ≤ (newest W (blocks.map Prod.snd)).toFinset.card := by
  have hnumber := h.number
  have hlen : (newest W (blocks.map Prod.snd)).length = W := by
    rw [length_newest, List.length_map]
    omega
  have hcount : ∀ a, (newest W (blocks.map Prod.snd)).count a ≤ s.turnLength := by
    intro a
    by_cases hn : s.nSeal = 0
    · -- no more blocks than one turn
      rw [hn, Nat.zero_div, Nat.zero_add, Nat.one_mul] at hW
      exact List.count_le_length.trans (by omega)
    · have hdelay := delay_succ hr hn
      have hbound := h.bounded hr W (by omega) ⟨by omega, by omega⟩ a
      rw [newest_map, List.count, List.countP_map]
      refine le_trans (List.countP_mono_left fun e _ he => ?_) hbound
      exact decide_eq_true (eq_of_beq he)
  exact ⟨hlen, hcount, le_card_of_count_le hr.turn.1 (hlen.trans hW) hcount⟩

end Rate

theorem rate_walk {P : Primitives} {s₀ : Snapshot} (hatt : s₀.attestation = none)
    {calls : List (RpcBlockHeader × ℕ)} (hunwrapped : Unwrapped P s₀ calls) :
    ∃ blocks, blocks.map Prod.snd = sealers P s₀ calls ∧
      Rate s₀.number blocks (walk P s₀ calls) := by
  induction calls using List.reverseRecOn with
  | nil =>
    refine ⟨[], rfl, rfl, rfl, ?_, ?_, ?_⟩
    · intro a ha
      rw [walk, Machine.run_nil, hatt] at ha
      cases ha
    · intro _ k _ _ e he
      rw [newest, List.drop_nil] at he
      cases he
    · intro _ k _ _ a
      rw [newest, List.drop_nil]
      exact Nat.zero_le _
  | append_singleton calls call ih =>
    obtain ⟨blocks, hsealers, hrate⟩ := ih (hunwrapped.of_prefix (List.prefix_append calls [call]))
    have hrun : walk P s₀ (calls ++ [call]) = (step P (walk P s₀ calls) call).2 :=
      Machine.run_concat s₀ calls call
    have hanswers : sealers P s₀ (calls ++ [call]) = sealers P s₀ calls ++
        (step P (walk P s₀ calls) call).1.toOption.toList := by
      rw [sealers, Machine.answers_concat, List.filterMap_append, sealers]
      congr 1
    rw [hrun, hanswers]
    cases hr : (step P (walk P s₀ calls) call).1 with
    | ok signer =>
      obtain ⟨l, b, milli, -, hacc, hnext⟩ := step_ok hr
      have habove := hunwrapped.aboveGenesis List.prefix_rfl hr
      refine ⟨blocks ++ [(l.number, signer)], ?_, hnext ▸ hrate.next hacc habove⟩
      rw [List.map_append, hsealers]
      rfl
    | error err =>
      refine ⟨blocks, ?_, ?_⟩
      · rw [hsealers]
        exact (List.append_nil _).symm
      · rcases step_error hr with hsame | htrimmed
        · rw [hsame]
          exact hrate
        · rw [htrimmed]
          exact hrate.trimRecents (wrapSucc_le _)

/-- The sealing rate. Along every walk from a checkpoint, with any turn length seeded before it: let
`N` validators and the turn length `T` be in force at the end, `T` from 1 to 255 and no validator
the epoch sentinel. If the last `W = (N / 2 + 1) * T` accepted blocks, from `first` on, are above
the checkpoint, above the last set switch and above the finalized block, then no address has sealed
more than `T` of them, so that at least `N / 2 + 1` addresses have. -/
theorem sealing_rate {P : Primitives} {cp : Checkpoint} {base : Snapshot}
    (h : fromCheckpoint cp = .ok base) (turnLength : ℕ) (enforceInturn : Bool)
    {calls : List (RpcBlockHeader × ℕ)} (hunwrapped : Unwrapped P
      { base with turnLength := turnLength, enforceInturn := enforceInturn } calls) :
    let s₀ := { base with turnLength := turnLength, enforceInturn := enforceInturn }
    let s := walk P s₀ calls
    let sealed := sealers P s₀ calls
    let N := s.nSeal
    let T := s.turnLength
    let W := (N / 2 + 1) * T
    s.number = cp.number + sealed.length ∧
    (1 ≤ T → T ≤ 255 → recentEpochSentinel ∉ s.validators →
      ∀ first, first + W = s.number + 1 → cp.number < first → s.setChangedAt < first →
        s.finalizedNumber < first →
        (newest W sealed).length = W ∧ (∀ a, (newest W sealed).count a ≤ T) ∧
          N / 2 + 1 ≤ (newest W sealed).toFinset.card) := by
  intro s₀ s sealed N T W
  obtain ⟨hnumber₀, -, -, -, -, -, -, -, -, hatt, -⟩ := fromCheckpoint_ok h
  obtain ⟨blocks, hsealers, hrate⟩ := @rate_walk P s₀ hatt calls hunwrapped
  have hstart : s₀.number = cp.number := hnumber₀
  have hsealed : blocks.map Prod.snd = sealed := hsealers
  refine ⟨?_, fun hlow hhigh hsentinel first hfirst hcp hswitch hfinal => ?_⟩
  · rw [← hsealed, List.length_map, ← hstart]
    exact hrate.number
  · rw [← hstart] at hcp
    rw [← hsealed]
    exact hrate.window ⟨⟨hlow, hhigh⟩, hsentinel⟩ rfl hfirst hcp hswitch hfinal

/-- Eight blocks in a row by the mock's validator, whose turn they are, are a whole window. -/
theorem sealing_rate_turn : ∃ (cp : Checkpoint) (s₀ : Snapshot) (calls : List (RpcBlockHeader × ℕ)),
    fromCheckpoint cp = .ok s₀ ∧
    let s := walk mockPrimitives s₀ calls
    let sealed := sealers mockPrimitives s₀ calls
    s.number = cp.number + 8 ∧ (s.nSeal / 2 + 1) * s.turnLength = 8 ∧ sealed.length = 8 ∧
      (∀ a, (newest 8 sealed).count a ≤ 8) ∧ 1 ≤ (newest 8 sealed).toFinset.card := by
  obtain ⟨header₀, hash, e, he, hsole, hnumber, -, hvotes, hpending, hatt, hchanged₀, -⟩ :=
    exists_start_engine (.repeated 48 1)
  obtain ⟨-, h, -⟩ := LightEngine.fromCheckpointAndHeader_ok he
  have hplace : sealedChainStart = 116664100 := rfl
  have hrange : ∀ j, 0 ≤ j → j < 0 + 8 →
      LightEngine.InRange (sealedChainStart + j) (1770000000000 + 1000 * j) := by
    intro j _ hj
    have hlow : londonBlock ≤ sealedChainStart := by decide
    exact ⟨by omega, by omega, by omega, by omega⟩
  have hplain : ∀ j, 0 ≤ j → j < 0 + 8 → ¬ (sealedChainStart + j + 1) % maxwellEpochLength = 0 := by
    intro j _ hj
    unfold maxwellEpochLength
    omega
  obtain ⟨calls, hlength, hsteady, hchanged, hlast⟩ := LightEngine.Waits.waits (a := 0)
    ⟨hsole, hpending, hvotes, hatt, hnumber⟩ 8 hrange hplain (by rintro q ⟨⟩)
  have hend := hlast.sole.snapshot
  have hnumber' := hlast.number
  have hatt' := hlast.attestation
  rw [(hsteady []).snapshot] at hchanged hend hnumber' hatt'
  have hcount : (walk mockPrimitives e.snapshot calls).nSeal = 1 := by
    rw [nSeal, hend.validators]
    rfl
  have hsentinel : recentEpochSentinel ∉ (walk mockPrimitives e.snapshot calls).validators := by
    rw [hend.validators, List.mem_singleton]
    exact mockKey_address_ne.symm
  have hstart : e.snapshot.number = _ := (fromCheckpoint_ok h).1
  have hunwrapped : Unwrapped mockPrimitives e.snapshot calls := by
    refine Unwrapped.of_fits ?_
    rw [hnumber, hlength]
    exact Draft.small_lt_u64Size (by decide)
  have hrate := sealing_rate h e.snapshot.turnLength e.snapshot.enforceInturn hunwrapped
  have hsame : ({ e.snapshot with
      turnLength := e.snapshot.turnLength, enforceInturn := e.snapshot.enforceInturn } : Snapshot) =
      e.snapshot := rfl
  rw [hsame] at hrate
  simp only [hcount, hend.turn, hnumber', ← hstart, hnumber] at hrate
  obtain ⟨htotal, hrate⟩ := hrate
  obtain ⟨-, hcounts, hcard⟩ := hrate (by norm_num) (by norm_num) hsentinel (sealedChainStart + 1) rfl
    (Nat.lt_succ_self _) (by rw [hchanged, hchanged₀]; exact Nat.succ_pos _)
    (by rw [finalizedNumber, hatt']; exact Nat.succ_pos _)
  refine ⟨_, e.snapshot, calls, h, hnumber'.trans (by rw [← hstart, hnumber, hplace]), ?_, ?_, hcounts,
    hcard⟩
  · rw [hcount, hend.turn]
  · omega

end Snapshot

end HeliosBsc
