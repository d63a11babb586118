import HeliosBsc.Consensus.Snapshot

/-!
# The count of recent blocks

`sign_recently` goes over a hash map in an order nobody chooses, counts in a `u8` that saturates and
leaves as soon as the count reaches `turnLength`. All the same it answers whether the window holds
`turnLength` entries of the signer, and the entry that `apply_verified` removes before is not in the
window.
-/

namespace HeliosBsc

namespace Snapshot

/-- The loop of `sign_recently` over the entries in some order, after `seen` matches. -/
def signRecentlyLoop (leftBound turnLength : ℕ) (signer : Address) :
    List (ℕ × Address) → (seen : ℕ) → Bool
  | [], _ => false
  | (block, recent) :: rest, seen =>
    if block ≤ leftBound ∨ recent = recentEpochSentinel then
      signRecentlyLoop leftBound turnLength signer rest seen
    else if recent = signer then
      -- `seen.saturating_add(1)` of a `u8`
      if turnLength ≤ min (seen + 1) 255 then true
      else signRecentlyLoop leftBound turnLength signer rest (min (seen + 1) 255)
    else signRecentlyLoop leftBound turnLength signer rest seen

/-- `Snapshot::sign_recently`, when the map is iterated in this order. -/
def signRecentlyOver (s : Snapshot) (order : List (ℕ × Address)) (signer : Address) : Bool :=
  signRecentlyLoop (s.number - s.delay) s.turnLength signer order 0

/-- The entries of the window that name the signer. -/
def windowCount (s : Snapshot) (signer : Address) : ℕ :=
  (s.recents.entries.filter fun e => s.number - s.delay < e.1 ∧ e.2 = signer).length

/-- How many of the entries the loop counts. -/
def seenIn (leftBound : ℕ) (signer : Address) (l : List (ℕ × Address)) : ℕ :=
  (l.filter fun e => leftBound < e.1 ∧ e.2 ≠ recentEpochSentinel ∧ e.2 = signer).length

theorem seenIn_cons_of {leftBound : ℕ} {signer : Address} {e : ℕ × Address}
    (h : leftBound < e.1 ∧ e.2 ≠ recentEpochSentinel ∧ e.2 = signer) (l : List (ℕ × Address)) :
    seenIn leftBound signer (e :: l) = seenIn leftBound signer l + 1 := by
  unfold seenIn
  rw [List.filter_cons_of_pos (by rwa [decide_eq_true_iff]), List.length_cons]

theorem seenIn_cons_of_not {leftBound : ℕ} {signer : Address} {e : ℕ × Address}
    (h : ¬ (leftBound < e.1 ∧ e.2 ≠ recentEpochSentinel ∧ e.2 = signer))
    (l : List (ℕ × Address)) : seenIn leftBound signer (e :: l) = seenIn leftBound signer l := by
  unfold seenIn
  rw [List.filter_cons_of_neg (by rwa [decide_eq_true_iff])]

/-- The loop finds out whether the counter reaches the limit at one of the entries that it counts. -/
theorem signRecentlyLoop_eq (leftBound turnLength : ℕ) (signer : Address)
    (l : List (ℕ × Address)) (seen : ℕ) :
    signRecentlyLoop leftBound turnLength signer l seen =
      decide (0 < seenIn leftBound signer l ∧
        turnLength ≤ min (seen + seenIn leftBound signer l) 255) := by
  induction l generalizing seen with
  | nil => simp [signRecentlyLoop, seenIn]
  | cons e rest ih =>
    obtain ⟨block, recent⟩ := e
    rw [signRecentlyLoop]
    by_cases hskip : block ≤ leftBound ∨ recent = recentEpochSentinel
    · rw [if_pos hskip, ih, seenIn_cons_of_not]
      rintro ⟨hblock, hsentinel, -⟩
      exact hskip.elim (Nat.not_le.mpr hblock) hsentinel
    · obtain ⟨hblock, hsentinel⟩ := not_or.mp hskip
      rw [if_neg hskip]
      by_cases hmatch : recent = signer
      · rw [if_pos hmatch, seenIn_cons_of ⟨Nat.lt_of_not_le hblock, hsentinel, hmatch⟩]
        split
        · next hexit => exact (decide_eq_true ⟨by omega, by omega⟩).symm
        · next hexit =>
          rw [ih, decide_eq_decide]
          omega
      · rw [if_neg hmatch, ih, seenIn_cons_of_not]
        rintro ⟨-, -, heq⟩
        exact hmatch heq

/-- The order of the entries does not matter. -/
theorem signRecentlyOver_eq {s : Snapshot} {order : List (ℕ × Address)}
    (h : order.Perm s.recents.entries) (signer : Address) :
    s.signRecentlyOver order signer = s.signRecently signer := by
  have hseen : seenIn (s.number - s.delay) signer order = s.seenTimes signer :=
    (h.filter _).length_eq
  rw [signRecentlyOver, signRecentlyLoop_eq, hseen, Nat.zero_add]
  rfl

theorem seenTimes_eq_windowCount (s : Snapshot) {signer : Address}
    (h : signer ≠ recentEpochSentinel) : s.seenTimes signer = s.windowCount signer := by
  unfold seenTimes windowCount
  refine congrArg List.length (List.filter_congr fun e _ => ?_)
  rw [decide_eq_decide]
  constructor
  · rintro ⟨hblock, -, heq⟩
    exact ⟨hblock, heq⟩
  · rintro ⟨hblock, heq⟩
    exact ⟨hblock, heq ▸ h, heq⟩

theorem signRecently_eq_true {s : Snapshot} (hturn : 1 ≤ s.turnLength ∧ s.turnLength ≤ 255)
    {signer : Address} (h : signer ≠ recentEpochSentinel) :
    s.signRecently signer = true ↔ s.turnLength ≤ s.windowCount signer := by
  unfold signRecently
  rw [decide_eq_true_iff, seenTimes_eq_windowCount s h]
  omega

theorem delay_lt_of_turn {s : Snapshot} (h : s.turnLength ≤ 255) : s.delay + 1 < u64Size := by
  have hn : s.nSeal < 2 ^ 32 := Nat.mod_lt _ (by norm_num)
  have hsize : (2 ^ 31 + 1) * 255 + 1 < u64Size := by
    rw [u64Size_eq]
    norm_num
  have hmul : (s.nSeal / 2 + 1) * s.turnLength ≤ (2 ^ 31 + 1) * 255 :=
    Nat.mul_le_mul (by omega) h
  rw [delay, minerHistoryCheckLen]
  split
  · omega
  · omega

theorem seenTimes_remove (s : Snapshot) (signer : Address) :
    seenTimes { s with recents := s.recents.remove (s.number - s.delay) } signer =
      s.seenTimes signer := by
  show ((s.recents.entries.filter fun e => e.1 != s.number - s.delay).filter fun e =>
    s.number - s.delay < e.1 ∧ e.2 ≠ recentEpochSentinel ∧ e.2 = signer).length = _
  rw [List.filter_filter]
  refine congrArg List.length (List.filter_congr fun e _ => ?_)
  by_cases hcount : s.number - s.delay < e.1 ∧ e.2 ≠ recentEpochSentinel ∧ e.2 = signer
  · have hne : (e.1 != s.number - s.delay) = true := bne_iff_ne.mpr hcount.1.ne'
    rw [hne, Bool.and_true]
  · rw [decide_eq_false hcount, Bool.false_and]

/-- `apply_verified` trims the entry at the left bound, if there can be one. -/
theorem trimRecents_succ {s : Snapshot} (h : s.turnLength ≤ 255) :
    s.trimRecents (s.number + 1) = s ∨
      s.trimRecents (s.number + 1) =
        { s with recents := s.recents.remove (s.number - s.delay) } := by
  have hlimit : satAdd s.delay 1 = s.delay + 1 := satAdd_of_lt (delay_lt_of_turn h)
  unfold trimRecents
  simp only [hlimit, Nat.add_sub_add_right]
  split
  · exact .inr rfl
  · exact .inl rfl

theorem signRecently_remove (s : Snapshot) (signer : Address) :
    signRecently { s with recents := s.recents.remove (s.number - s.delay) } signer =
      s.signRecently signer := by
  unfold signRecently
  rw [seenTimes_remove]

theorem signRecently_trimRecents {s : Snapshot} (h : s.turnLength ≤ 255) (signer : Address) :
    (s.trimRecents (s.number + 1)).signRecently signer = s.signRecently signer := by
  rcases trimRecents_succ h with htrim | htrim
  · rw [htrim]
  · rw [htrim, signRecently_remove]

/-- Whatever the order of the map, `sign_recently` answers whether `turnLength` entries of the window
name the signer, and the entry that is removed at its left bound changes no answer. -/
theorem signRecently_exact {s : Snapshot} (hturn : 1 ≤ s.turnLength ∧ s.turnLength ≤ 255)
    {signer : Address} (hsigner : signer ≠ recentEpochSentinel) {order : List (ℕ × Address)}
    (horder : order.Perm s.recents.entries) :
    (s.signRecentlyOver order signer = true ↔ s.turnLength ≤ s.windowCount signer) ∧
      (∀ rest, rest.Perm (s.recents.remove (s.number - s.delay)).entries →
        signRecentlyOver { s with recents := s.recents.remove (s.number - s.delay) } rest signer =
          s.signRecentlyOver order signer) ∧
      ∀ rest, rest.Perm (s.trimRecents (s.number + 1)).recents.entries →
        (s.trimRecents (s.number + 1)).signRecentlyOver rest signer =
          s.signRecentlyOver order signer := by
  rw [signRecentlyOver_eq horder]
  refine ⟨signRecently_eq_true hturn hsigner, fun rest hrest => ?_, fun rest hrest => ?_⟩
  · rw [signRecentlyOver_eq hrest, signRecently_remove]
  · rw [signRecentlyOver_eq hrest, signRecently_trimRecents hturn.2]

/-- Two validators that seal two blocks a turn. The last block and the one before are by the first of
them, and a set switch has left its mark. -/
def windowSample : Snapshot where
  number := 20
  hash := .repeated 32 0
  epochLength := 1000
  turnLength := 2
  validators := [.repeated 20 1, .repeated 20 2]
  pending := none
  enforceInturn := true
  recents := (((Recents.empty.insert 18 (.repeated 20 2)).insert 19 (.repeated 20 1)).insert 20
    (.repeated 20 1)).insert 18446744073709551615 recentEpochSentinel
  voteSet := []
  prevVoteSet := []
  setChangedAt := 0
  attestation := none
  lastMilli := none
  walkStart := 0
  ancestors := []

theorem signRecently_exact_sample :
    windowSample.signRecentlyOver windowSample.recents.entries.reverse (.repeated 20 1) = true :=
  (signRecently_exact ⟨by decide, by decide⟩ (by decide) (List.reverse_perm _)).1.mpr (by decide)

end Snapshot

end HeliosBsc
