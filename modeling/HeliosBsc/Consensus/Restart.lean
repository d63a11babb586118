import HeliosBsc.Consensus.Persist
import Mathlib.Data.List.Nodup
import Mathlib.Data.List.Perm.Subperm

/-!
# Restart from the last verified checkpoint

A checkpoint drops `recents`, `pending`, the previous vote set, the ancestors, the attestation and
the last time. The rebuilt engine knows less than the running one, and each thing it does not know
takes a check away, with one exception: with the previous vote set it also forgets that there was
one. At the block of a set switch the vote for that block is still due from the old set.
-/

namespace HeliosBsc

open Checked

namespace Snapshot

/-! ## Recent sealers after a header -/

theorem mem_record_recents {s : Snapshot} {signer : Address} {l : Link} {b : Body}
    {e : ℕ × Address} : e ∈ (s.record signer l b).recents.entries ↔
      (e = (l.number, signer) ∨ e ∈ s.recents.entries ∧ e.1 ≠ l.number) ∧
        (maxwellTime ≤ l.time → (s.record signer l b).finalizedNumber < e.1) := by
  have hins : e ∈ (s.recents.insert l.number signer).entries ↔
      e = (l.number, signer) ∨ e ∈ s.recents.entries ∧ e.1 ≠ l.number := by
    simp [Recents.insert, Recents.remove, Recents.retain]
  by_cases htime : maxwellTime ≤ l.time
  · have hrec : (s.record signer l b).recents = (s.recents.insert l.number signer).retain
        fun block => (s.record signer l b).finalizedNumber < block := by
      simp only [record, advanceEpochLength, if_pos htime]
      rfl
    rw [hrec, Recents.retain]
    simp [hins, htime]
  · have hrec : (s.record signer l b).recents = s.recents.insert l.number signer := by
      simp only [record, advanceEpochLength, if_neg htime]
    rw [hrec, hins]
    simp [htime]

theorem mem_activate_recents {s : Snapshot} {n : ℕ} {e : ℕ × Address}
    (he : e.2 ≠ recentEpochSentinel) : e ∈ (s.activate n).recents.entries ↔
      e ∈ s.recents.entries ∧ ∀ p, s.pending = some p → n ≠ p.activateAt := by
  unfold activate
  cases hp : s.pending with
  | none => simp
  | some p =>
    by_cases hn : n = p.activateAt
    · have hgone : ¬ ∀ q, some p = some q → n ≠ q.activateAt := fun h => h p rfl hn
      simp only [if_pos hn, hgone, and_false, iff_false]
      split
      · simp [Recents.empty]
      · simp only [Recents.insert, Recents.remove, Recents.retain, Recents.empty,
          List.filter_nil, List.mem_singleton]
        rintro rfl
        exact he rfl
    · have hkept : ∀ q, some p = some q → n ≠ q.activateAt := by
        intro q hq
        rwa [← Option.some.inj hq]
      simp only [if_neg hn]
      exact ⟨fun h => ⟨h, hkept⟩, And.left⟩

/-- Every sealer in `recents` after a header is this block's or an old one, is not yet final, and
survives only where the set stays. -/
theorem mem_next_recents_iff {s : Snapshot} {signer : Address} {l : Link} {b : Body} {milli : ℕ}
    {e : ℕ × Address} (he : e.2 ≠ recentEpochSentinel) :
    e ∈ (s.next signer l b milli).recents.entries ↔
      ((e = (l.number, signer) ∨
          e ∈ (s.trimRecents l.number).recents.entries ∧ e.1 ≠ l.number) ∧
        (maxwellTime ≤ l.time → (s.next signer l b milli).finalizedNumber < e.1)) ∧
      ∀ p, s.pendingDuring l b = some p → l.number ≠ p.activateAt := by
  have hfinal : (s.next signer l b milli).finalizedNumber =
      ((s.trimRecents l.number).record signer l b).finalizedNumber := by
    unfold finalizedNumber
    rw [next_attestation]
    rfl
  rw [hfinal, ← mem_record_recents]
  exact mem_activate_recents he

/-- The entries that `sign_recently` counts. -/
def counted (s : Snapshot) (signer : Address) : List (ℕ × Address) :=
  s.recents.entries.filter fun e =>
    s.number - s.delay < e.1 ∧ e.2 ≠ recentEpochSentinel ∧ e.2 = signer

theorem nodup_counted (s : Snapshot) (signer : Address) : (counted s signer).Nodup :=
  List.Nodup.of_map Prod.fst ((List.filter_sublist.map Prod.fst).nodup s.recents.nodup)

theorem mem_counted {s : Snapshot} {signer : Address} {e : ℕ × Address} :
    e ∈ counted s signer ↔ e ∈ s.recents.entries ∧
      s.number - s.delay < e.1 ∧ e.2 ≠ recentEpochSentinel ∧ e.2 = signer := by
  simp [counted]

/-! ## The running snapshot and the rebuilt one -/

/-- How far the attestation of a snapshot that was rebuilt at `start` can be from the running one:
it knows no vote for an earlier block, and for the others at most its source differs, below the
start. -/
inductive VotesSince (start : ℕ) : Option VoteData → Option VoteData → Prop
  | forgot {running : Option VoteData} (h : ∀ a, running = some a → a.targetNumber < start) :
    VotesSince start running none
  | caught {a a' : VoteData} (number : a'.targetNumber = a.targetNumber)
    (hash : a'.targetHash = a.targetHash) (later : start ≤ a.targetNumber)
    (source : a'.sourceNumber = a.sourceNumber ∨ a.sourceNumber < start ∧ a'.sourceNumber < start) :
    VotesSince start (some a) (some a')

/-- `s` is the running snapshot and `t` the one that was rebuilt at block `start`. -/
structure Resumes (start : ℕ) (s t : Snapshot) : Prop where
  number : t.number = s.number
  hash : t.hash = s.hash
  epochLength : t.epochLength = s.epochLength
  turnLength : t.turnLength = s.turnLength
  validators : t.validators = s.validators
  pending : t.pending = s.pending
  enforceInturn : t.enforceInturn = s.enforceInturn
  voteSet : t.voteSet = s.voteSet
  reached : start ≤ s.number
  recents : ∀ e : ℕ × Address, e.2 ≠ recentEpochSentinel →
    (e ∈ t.recents.entries ↔ e ∈ s.recents.entries ∧ start < e.1)
  later : ∀ n, start ≤ n → t.attestationSet n = s.attestationSet n
  unknown : ∀ n, s.attestationSet n = [] → t.attestationSet n = []
  ancestors : ∃ older, s.ancestors = older ++ t.ancestors ∧ (∀ a ∈ older, a.1 < start) ∧
    ∀ a ∈ t.ancestors, start ≤ a.1
  window : s.ancestors.length ≤ 3
  below : ∀ a, s.attestation = some a → a.sourceNumber < a.targetNumber
  attestation : VotesSince start s.attestation t.attestation
  lastMilli : t.lastMilli = none ∨ t.lastMilli = s.lastMilli
  walkStart : t.walkStart = satAdd start 1 ∧ s.walkStart ≤ t.walkStart

namespace Resumes

variable {start : ℕ} {s t : Snapshot}

theorem nSeal_eq (h : Resumes start s t) : t.nSeal = s.nSeal := by
  unfold nSeal
  rw [h.validators]

theorem delay_eq (h : Resumes start s t) : t.delay = s.delay := by
  unfold delay
  rw [h.nSeal_eq, h.turnLength]

theorem inturnValidator_eq (h : Resumes start s t) : t.inturnValidator = s.inturnValidator := by
  unfold inturnValidator
  rw [h.validators, h.turnLength, h.number]

theorem expectedDifficulty_eq (h : Resumes start s t) (signer : Address) :
    t.expectedDifficulty signer = s.expectedDifficulty signer := by
  unfold expectedDifficulty
  rw [h.inturnValidator_eq]

theorem linkOk (h : Resumes start s t) {header : RpcBlockHeader} {signer : Address} {l : Link}
    (hl : LinkOk s header signer l) : LinkOk t header signer l where
  number := hl.number
  time := hl.time
  parent := by
    rw [h.hash]
    exact hl.parent
  hash := hl.hash
  follows := by
    rw [h.number]
    exact hl.follows
  member := by
    rw [contains, h.validators]
    exact hl.member
  difficulty := by
    rw [h.enforceInturn, h.expectedDifficulty_eq]
    exact hl.difficulty

theorem trimRecents (h : Resumes start s t) (n : ℕ) :
    Resumes start (s.trimRecents n) (t.trimRecents n) where
  number := h.number
  hash := h.hash
  epochLength := h.epochLength
  turnLength := h.turnLength
  validators := h.validators
  pending := h.pending
  enforceInturn := h.enforceInturn
  voteSet := h.voteSet
  reached := h.reached
  recents := by
    intro e he
    have hiff := h.recents e he
    simp only [Snapshot.trimRecents, h.delay_eq]
    split
    · simp only [Recents.remove, Recents.retain, List.mem_filter, hiff]
      tauto
    · exact hiff
  later := h.later
  unknown := h.unknown
  ancestors := h.ancestors
  window := h.window
  below := h.below
  attestation := h.attestation
  lastMilli := h.lastMilli
  walkStart := h.walkStart

/-! ### The window of recent sealers -/

theorem counted_subset (h : Resumes start s t) (signer : Address) :
    counted t signer ⊆ counted s signer := by
  intro e he
  obtain ⟨hmem, hbound, hmark, hsigner⟩ := mem_counted.mp he
  rw [h.number, h.delay_eq] at hbound
  exact mem_counted.mpr ⟨((h.recents e hmark).mp hmem).1, hbound, hmark, hsigner⟩

/-- A sealer that the running snapshot lets through, the rebuilt one lets through. -/
theorem signRecently_of (h : Resumes start s t) {signer : Address}
    (hs : s.signRecently signer = false) : t.signRecently signer = false := by
  have hle : t.seenTimes signer ≤ s.seenTimes signer :=
    (List.subperm_of_subset (nodup_counted t signer) (h.counted_subset signer)).length_le
  unfold signRecently at *
  rw [decide_eq_false_iff_not] at *
  rw [h.turnLength]
  omega

/-- With the whole window walked since the start, both count the same. -/
theorem signRecently_eq (h : Resumes start s t) (hroom : start + 1 < u64Size)
    (hwalked : t.recentsWindowWalked = true) (signer : Address) :
    t.signRecently signer = s.signRecently signer := by
  have hbound : start ≤ s.number - s.delay := by
    unfold recentsWindowWalked at hwalked
    rw [decide_eq_true_eq, h.walkStart.1, h.number, h.delay_eq] at hwalked
    unfold satAdd at hwalked
    omega
  have hback : counted s signer ⊆ counted t signer := by
    intro e he
    obtain ⟨hmem, hlow, hmark, hsigner⟩ := mem_counted.mp he
    refine mem_counted.mpr ⟨(h.recents e hmark).mpr ⟨hmem, by omega⟩, ?_, hmark, hsigner⟩
    rw [h.number, h.delay_eq]
    exact hlow
  have hseen : t.seenTimes signer = s.seenTimes signer :=
    Nat.le_antisymm
      (List.subperm_of_subset (nodup_counted t signer) (h.counted_subset signer)).length_le
      (List.subperm_of_subset (nodup_counted s signer) hback).length_le
  unfold signRecently
  rw [hseen, h.turnLength]

/-- The rebuilt snapshot asks for a back-off only where the running one asks for the same. -/
theorem backoff_of (h : Resumes start s t) (hroom : start + 1 < u64Size) {header : RpcBlockHeader}
    (hs : verifyOutOfTurnBackoff s.backoffContext header = .ok ()) :
    verifyOutOfTurnBackoff t.backoffContext header = .ok () := by
  by_cases hknown : t.backoffContext.known = true
  · have heq : t.backoffContext = s.backoffContext := by
      simp only [backoffContext, Bool.and_eq_true, decide_eq_true_eq] at hknown
      obtain ⟨⟨⟨⟨henforce, hturn⟩, hvals⟩, hmilli⟩, hwalked⟩ := hknown
      have hlast : t.lastMilli = s.lastMilli := by
        rcases h.lastMilli with hnone | heq
        · rw [hnone] at hmilli
          cases hmilli
        · exact heq
      have hwalked' : s.recentsWindowWalked = t.recentsWindowWalked := by
        rw [hwalked]
        unfold recentsWindowWalked at *
        rw [decide_eq_true_eq] at *
        rw [h.number, h.delay_eq] at hwalked
        exact h.walkStart.2.trans hwalked
      have hsign : t.signRecently = s.signRecently :=
        funext fun signer => h.signRecently_eq hroom hwalked signer
      unfold backoffContext
      rw [hlast, h.enforceInturn, h.turnLength, h.validators, hwalked', h.inturnValidator_eq, hsign]
    rw [heq]
    exact hs
  · unfold verifyOutOfTurnBackoff
    rw [Bool.not_eq_true] at hknown
    rw [hknown]
    rfl

/-! ### The attestation -/

theorem ancestorHash_eq (h : Resumes start s t) {n : ℕ} (hn : start ≤ n) :
    t.ancestorHash n = s.ancestorHash n := by
  obtain ⟨older, hsplit, hold, -⟩ := h.ancestors
  have hnone : older.reverse.find? (fun a => decide (a.1 = n)) = none := by
    rw [List.find?_eq_none]
    intro a ha hdec
    have hlt := hold a (List.mem_reverse.mp ha)
    rw [of_decide_eq_true hdec] at hlt
    omega
  unfold ancestorHash
  rw [hsplit, List.reverse_append, List.find?_append, hnone, Option.or_none]

theorem ancestorHash_eq_none (h : Resumes start s t) {n : ℕ} (hn : n < start) :
    t.ancestorHash n = none := by
  obtain ⟨older, -, -, hnew⟩ := h.ancestors
  unfold ancestorHash
  rw [Option.map_eq_none_iff, List.find?_eq_none]
  intro a ha hdec
  have hle := hnew a (List.mem_reverse.mp ha)
  rw [of_decide_eq_true hdec] at hle
  omega

/-- What the two snapshots adopt from the same header: the same vote, unless its target is before
the start. -/
inductive Adopted (start : ℕ) : Option VoteData → Option VoteData → Prop
  | none : Adopted start none none
  | both {data : VoteData} (h : start ≤ data.targetNumber) : Adopted start (some data) (some data)
  | earlier {data : VoteData} (h : data.targetNumber < start) : Adopted start (some data) none

/-- An attestation that the running snapshot takes or passes over does not make the rebuilt one
refuse the header. -/
theorem checkAttestation_of (h : Resumes start s t) {P : Primitives} {raw : Bytes}
    {number time : ℕ} {adopted : Option VoteData}
    (hs : s.checkAttestation P raw number time = .ok adopted) :
    ∃ adopted', t.checkAttestation P raw number time = .ok adopted' ∧
      Adopted start adopted adopted' := by
  rcases checkAttestation_eq_ok.mp hs with ⟨hnone, rfl⟩ | ⟨att, hdec, hcase⟩
  · exact ⟨none, checkAttestation_eq_ok.mpr (.inl ⟨hnone, rfl⟩), .none⟩
  rcases hcase with ⟨⟨hbelow, hskip⟩, rfl⟩ | ⟨hvote, rfl⟩
  · -- passed over by the running snapshot
    refine ⟨none, checkAttestation_eq_ok.mpr (.inr ⟨att, hdec, .inl ⟨⟨hbelow, ?_⟩, rfl⟩⟩), .none⟩
    rcases hskip with hempty | ⟨hwindow, hmissing⟩
    · exact .inl (h.unknown _ hempty)
    · refine .inr ⟨hwindow, ?_⟩
      rcases Nat.lt_or_ge att.data.targetNumber start with hlt | hge
      · exact h.ancestorHash_eq_none hlt
      · rw [h.ancestorHash_eq hge]
        exact hmissing
  · rcases Nat.lt_or_ge att.data.targetNumber start with hlt | hge
    · -- a target before the start is not among the rebuilt snapshot's ancestors
      exact ⟨none, checkAttestation_eq_ok.mpr (.inr ⟨att, hdec, .inl ⟨⟨hvote.below,
        .inr ⟨hvote.window, h.ancestorHash_eq_none hlt⟩⟩, rfl⟩⟩), .earlier hlt⟩
    · have hset := h.later _ hge
      refine ⟨some att.data, checkAttestation_eq_ok.mpr (.inr ⟨att, hdec, .inr ⟨?_, rfl⟩⟩),
        .both hge⟩
      refine ⟨hvote.below, ?_, hvote.window, ?_, ?_, ?_⟩
      · rw [hset]
        exact hvote.known
      · rw [h.ancestorHash_eq hge]
        exact hvote.target
      · intro j hj
        have hatt := h.attestation
        rw [hj] at hatt
        generalize hrun : s.attestation = running at hatt
        cases hatt with
        | caught hnumber hhash _ _ =>
          rw [hnumber, hhash]
          exact hvote.source _ hrun
      · rw [hset]
        exact hvote.signature

/-! ### One header -/

section

variable {P : Primitives} {header : RpcBlockHeader} {signer : Address} {l : Link} {b b' : Body}
  {milli : ℕ}

theorem votesSince_next (h : Resumes start s t) (hacc : Accepts P s header signer l b milli)
    (hadopted : Adopted start b.adopted b'.adopted) :
    VotesSince start (s.next signer l b milli).attestation (t.next signer l b' milli).attestation := by
  rw [next_attestation, next_attestation]
  have hvotes := h.attestation
  generalize hb : b.adopted = adopted at hadopted
  generalize b'.adopted = adopted' at hadopted
  cases hadopted with
  | none => exact hvotes
  | both hge =>
    next data =>
    simp only
    obtain ⟨att, rfl, hvote⟩ := hacc.voteOk hb
    have hsource : ∀ j, s.attestation = some j → att.data.sourceNumber = j.targetNumber :=
      fun j hj => (hvote.source j hj).1
    generalize ht : t.attestation = rebuilt at hvotes
    generalize hrun : s.attestation = running at hvotes hsource
    have hbelow := h.below
    rw [hrun] at hbelow
    cases hvotes with
    | forgot hearlier =>
      cases running with
      | none => exact .caught rfl rfl hge (.inl rfl)
      | some cur =>
        obtain ⟨hn, hh⟩ := adoptAttestation_target (some cur) att.data
        refine .caught hn.symm hh.symm (by rw [hn]; exact hge) ?_
        have hcur := hearlier cur rfl
        rcases adoptAttestation_source cur att.data with ⟨hs, -⟩ | ⟨hs, -⟩
        · right
          have hb := hbelow cur rfl
          have hsrc := hsource cur rfl
          rw [hs]
          exact ⟨hb.trans hcur, lt_of_eq_of_lt hsrc hcur⟩
        · exact .inl hs.symm
    | caught hnumber hhash hlater hsrc =>
      next cur cur' =>
      obtain ⟨hn, hh⟩ := adoptAttestation_target (some cur) att.data
      obtain ⟨hn', hh'⟩ := adoptAttestation_target (some cur') att.data
      refine .caught (hn'.trans hn.symm) (hh'.trans hh.symm) (by rw [hn]; exact hge) ?_
      unfold adoptAttestation
      simp only
      split
      · exact hsrc
      · exact .inl rfl
  | earlier hlt =>
    next data =>
    simp only
    obtain ⟨att, rfl, hvote⟩ := hacc.voteOk hb
    generalize t.attestation = rebuilt at hvotes
    generalize hrun : s.attestation = running at hvotes
    cases hvotes with
    | forgot _ =>
      refine .forgot fun a ha => ?_
      rw [← Option.some.inj ha, (adoptAttestation_target running att.data).1]
      exact hlt
    | caught hnumber hhash hlater hsource =>
      next cur cur' =>
      -- the source is the justified block, which is not before the start
      have hsrc : att.data.sourceNumber = cur.targetNumber := (hvote.source cur hrun).1
      have hbelow := hvote.below
      omega

/-- Above the start both snapshots agree on what is not yet final. -/
theorem finalizedNumber_lt_iff {s' t' : Snapshot}
    (hvotes : VotesSince start s'.attestation t'.attestation)
    (hbelow : ∀ a, s'.attestation = some a → a.sourceNumber < a.targetNumber) {n : ℕ}
    (hn : start < n) : t'.finalizedNumber < n ↔ s'.finalizedNumber < n := by
  unfold finalizedNumber
  generalize s'.attestation = running at hvotes hbelow
  generalize t'.attestation = rebuilt at hvotes
  cases hvotes with
  | forgot hearlier =>
    cases running with
    | none => rfl
    | some a =>
      have hlt := (hbelow a rfl).trans (hearlier a rfl)
      simp only [Option.map_none, Option.getD_none, Option.map_some, Option.getD_some]
      omega
  | caught _ _ _ hsource =>
    simp only [Option.map_some, Option.getD_some]
    omega

theorem ancestors_next (h : Resumes start s t) (hl : start ≤ l.number) :
    ∃ older, (s.next signer l b milli).ancestors =
        older ++ (t.next signer l b' milli).ancestors ∧ (∀ a ∈ older, a.1 < start) ∧
      ∀ a ∈ (t.next signer l b' milli).ancestors, start ≤ a.1 := by
  obtain ⟨older, hsplit, hold, hnew⟩ := h.ancestors
  have hwindow := h.window
  rw [next_ancestors, next_ancestors]
  have hconcat : ∀ a ∈ t.ancestors ++ [(l.number, l.hash)], start ≤ a.1 := by
    intro a ha
    rcases List.mem_append.mp ha with ha | ha
    · exact hnew a ha
    · rw [List.mem_singleton.mp ha]
      exact hl
  rw [hsplit, List.length_append] at hwindow ⊢
  rw [List.append_assoc]
  cases older with
  | nil =>
    refine ⟨[], by simp, by simp, fun a ha => hconcat a (List.mem_of_mem_drop ha)⟩
  | cons o older =>
    rw [List.length_cons] at hwindow ⊢
    -- there is room for the new block only after the oldest one
    have hshort : t.ancestors.length + 1 - 3 = 0 := by omega
    rw [hshort, List.drop_zero, List.drop_append_of_le_length (by rw [List.length_cons]; omega)]
    exact ⟨_, rfl, fun a ha => hold a (List.mem_of_mem_drop ha), hconcat⟩

theorem length_ancestors_next (s : Snapshot) :
    (s.next signer l b milli).ancestors.length ≤ 3 := by
  rw [next_ancestors, List.length_drop, List.length_append, List.length_singleton]
  omega

theorem pendingDuring_eq (h : Resumes start s t) (hepoch : b'.isEpoch = b.isEpoch)
    (hparsed : b'.parsed = b.parsed) : t.pendingDuring l b' = s.pendingDuring l b := by
  unfold pendingDuring nextPending
  rw [hepoch, hparsed, h.nSeal_eq, h.turnLength, h.pending]

theorem attestationSet_next (h : Resumes start s t) (hepoch : b'.isEpoch = b.isEpoch)
    (hparsed : b'.parsed = b.parsed) :
    (t.next signer l b' milli).voteSet = (s.next signer l b milli).voteSet ∧
      (t.next signer l b' milli).validators = (s.next signer l b milli).validators ∧
      (t.next signer l b' milli).turnLength = (s.next signer l b milli).turnLength ∧
      (t.next signer l b' milli).pending = (s.next signer l b milli).pending ∧
      (∀ n, start ≤ n → (t.next signer l b' milli).attestationSet n =
        (s.next signer l b milli).attestationSet n) ∧
      ∀ n, (s.next signer l b milli).attestationSet n = [] →
        (t.next signer l b' milli).attestationSet n = [] := by
  have hduring : t.pendingDuring l b' = s.pendingDuring l b := h.pendingDuring_eq hepoch hparsed
  unfold attestationSet
  rcases s.next_sets signer l b milli with
    ⟨p, hp, hat, hv, hprev, hc, hvals, hturn, hpend⟩ | ⟨hnot, hv, hprev, hc, hvals, hturn, hpend⟩
  · rcases t.next_sets signer l b' milli with
      ⟨q, hq, -, hv', hprev', hc', hvals', hturn', hpend'⟩ | ⟨hnot', -⟩
    · -- both switch, from the same set to the same set
      obtain rfl : p = q := Option.some.inj (hp.symm.trans (hduring.symm.trans hq))
      rw [hv, hv', hprev, hprev', hc, hc', hvals, hvals', hturn, hturn', hpend, hpend', h.voteSet]
      exact ⟨rfl, rfl, rfl, rfl, fun _ _ => rfl, fun _ hn => hn⟩
    · exact absurd hat (hnot' p (hduring.trans hp))
  · rcases t.next_sets signer l b' milli with
      ⟨q, hq, hat, -⟩ | ⟨-, hv', hprev', hc', hvals', hturn', hpend'⟩
    · exact absurd hat (hnot q (hduring.symm.trans hq))
    · have hlater := h.later
      have hunknown := h.unknown
      unfold attestationSet at hlater hunknown
      rw [hv, hv', hprev, hprev', hc, hc', hvals, hvals', hturn, hturn', hpend, hpend', h.voteSet,
        h.validators, h.turnLength, hduring]
      rw [h.voteSet] at hlater hunknown
      exact ⟨rfl, rfl, rfl, rfl, hlater, hunknown⟩

/-- The two snapshots stay related under a header that both accept. -/
theorem next (h : Resumes start s t) (habove : header.AboveGenesis)
    (hacc : Accepts P s header signer l b milli)
    (hepoch : b'.isEpoch = b.isEpoch) (hparsed : b'.parsed = b.parsed)
    (hadopted : Adopted start b.adopted b'.adopted) :
    Resumes start (s.next signer l b milli) (t.next signer l b' milli) := by
  have hreached : start < l.number := by
    rw [hacc.link.number_eq habove]
    exact Nat.lt_succ_of_le h.reached
  have hbelow : ∀ a, (s.next signer l b milli).attestation = some a →
      a.sourceNumber < a.targetNumber := by
    cases hb : b.adopted with
    | none =>
      rw [next_attestation_of_none hb]
      exact h.below
    | some data => exact (advances_of_accepts hacc hb h.below).below
  have hvotes := h.votesSince_next hacc hadopted
  obtain ⟨hvoteSet, hvals, hturn, hpend, hlater, hunknown⟩ :=
    @attestationSet_next start s t signer l b b' milli h hepoch hparsed
  exact {
    number := rfl
    hash := rfl
    epochLength := by
      rw [next_epochLength, next_epochLength]
      unfold advanceEpochLength
      rw [h.epochLength]
    turnLength := hturn
    validators := hvals
    pending := hpend
    enforceInturn := by
      rw [next_enforceInturn, next_enforceInturn]
      exact h.enforceInturn
    voteSet := hvoteSet
    reached := hreached.le
    recents := by
      intro e he
      have htrim := (h.trimRecents l.number).recents e he
      have hduring : t.pendingDuring l b' = s.pendingDuring l b := h.pendingDuring_eq hepoch hparsed
      rw [mem_next_recents_iff he, mem_next_recents_iff he, hduring, htrim]
      constructor
      · rintro ⟨⟨hmem, hfinal⟩, hstay⟩
        have hstart : start < e.1 := by
          rcases hmem with rfl | ⟨⟨-, hlt⟩, -⟩
          · exact hreached
          · exact hlt
        refine ⟨⟨⟨?_, fun ht => (finalizedNumber_lt_iff hvotes hbelow hstart).mp (hfinal ht)⟩,
          hstay⟩, hstart⟩
        rcases hmem with hnew | ⟨⟨hold, -⟩, hne⟩
        · exact .inl hnew
        · exact .inr ⟨hold, hne⟩
      · rintro ⟨⟨⟨hmem, hfinal⟩, hstay⟩, hstart⟩
        refine ⟨⟨?_, fun ht => (finalizedNumber_lt_iff hvotes hbelow hstart).mpr (hfinal ht)⟩,
          hstay⟩
        rcases hmem with hnew | ⟨hold, hne⟩
        · exact .inl hnew
        · exact .inr ⟨⟨hold, hstart⟩, hne⟩
    later := hlater
    unknown := hunknown
    ancestors := h.ancestors_next hreached.le
    window := length_ancestors_next s
    below := hbelow
    attestation := hvotes
    lastMilli := .inr rfl
    walkStart := by
      rw [next_walkStart, next_walkStart]
      exact h.walkStart }

/-- A header that the running snapshot accepts, the rebuilt one accepts. -/
theorem accepts (h : Resumes start s t) (habove : header.AboveGenesis)
    (hacc : Accepts P s header signer l b milli) :
    ∃ b', Accepts P t header signer l b' milli ∧
      Resumes start (s.next signer l b milli) (t.next signer l b' milli) := by
  have htrim := h.trimRecents l.number
  have hroom : start + 1 < u64Size := by
    have hlt := decodeU64_lt hacc.link.number
    have hnumber := hacc.link.number_eq habove
    have hreached := h.reached
    omega
  obtain ⟨adopted', hcheck, hadopted⟩ := htrim.checkAttestation_of hacc.body.adopted
  refine ⟨⟨b.isEpoch, b.parsed, adopted'⟩, ⟨h.linkOk hacc.link, ?_, hacc.milli⟩,
    h.next habove hacc rfl rfl hadopted⟩
  exact {
    notRecent := htrim.signRecently_of hacc.body.notRecent
    backoff := htrim.backoff_of hroom hacc.body.backoff
    isEpoch := by
      rw [htrim.epochLength]
      exact hacc.body.isEpoch
    parsed := hacc.body.parsed
    adopted := hcheck
    validators := hacc.body.validators }

end

end Resumes

/-! ## What holds of every running snapshot -/

/-- Nothing in the snapshot is ahead of its block, and the in-turn rule is on. -/
structure Settled (s : Snapshot) : Prop where
  recents : ∀ r ∈ s.recents.entries, r.1 ≤ s.number ∨ r.2 = recentEpochSentinel
  changed : s.setChangedAt ≤ s.number
  justified : ∀ a, s.attestation = some a → a.targetNumber < s.number
  enforced : s.enforceInturn = true
  walkStart : s.walkStart ≤ satAdd s.number 1

theorem settled_fromCheckpoint {cp : Checkpoint} {s : Snapshot} (h : fromCheckpoint cp = .ok s) :
    Settled s := by
  obtain ⟨hnumber, -, -, -, -, henforce, hrecents, -, hchanged, hatt, -, hstart, -⟩ :=
    fromCheckpoint_ok h
  refine ⟨?_, by rw [hchanged]; exact Nat.zero_le _, ?_, henforce, by rw [hstart, hnumber]⟩
  · rw [hrecents]
    rintro r ⟨⟩
  · rw [hatt]
    rintro a ⟨⟩

namespace Settled

variable {s : Snapshot}

theorem trimRecents (h : Settled s) (n : ℕ) : Settled (s.trimRecents n) where
  recents := fun r hr => h.recents r (mem_of_mem_trimRecents hr)
  changed := h.changed
  justified := h.justified
  enforced := h.enforced
  walkStart := h.walkStart

theorem next {P : Primitives} {header : RpcBlockHeader} {signer : Address} {l : Link} {b : Body}
    {milli : ℕ} (h : Settled s) (habove : header.AboveGenesis)
    (hacc : Accepts P s header signer l b milli) : Settled (s.next signer l b milli) := by
  have hnumber := hacc.link.number_eq habove
  have hchanged := h.changed
  refine ⟨?_, ?_, ?_, ?_, ?_⟩
  · intro r hr
    rw [next_number]
    rcases s.mem_next_recents signer l b milli hr with hold | rfl | hmark
    · rcases h.recents r hold with hle | hmark
      · exact .inl (by omega)
      · exact .inr hmark
    · exact .inl le_rfl
    · exact .inr hmark
  · rw [next_number]
    rcases s.next_sets signer l b milli with ⟨-, -, -, -, -, hc, -⟩ | ⟨-, -, -, hc, -⟩
    · exact hc.le
    · rw [hc]
      omega
  · intro a ha
    rw [next_number]
    cases hb : b.adopted with
    | none =>
      rw [next_attestation_of_none hb] at ha
      have hlt := h.justified a ha
      omega
    | some data =>
      obtain ⟨att, rfl, hvote⟩ := hacc.voteOk hb
      rw [next_attestation, hb] at ha
      rw [← Option.some.inj ha, (adoptAttestation_target _ _).1]
      have hhigh := (le_of_mem_window hvote.window).2
      omega
  · rw [next_enforceInturn]
    exact h.enforced
  · rw [next_walkStart, next_number]
    refine h.walkStart.trans ?_
    unfold satAdd
    omega

end Settled

end Snapshot

theorem Snapshot.WalkedFrom.ancestors_eq {start : ℕ} {blocks : List (ℕ × Hash)} {s : Snapshot}
    (h : Snapshot.WalkedFrom start blocks s) :
    ∃ older, s.ancestors = older ++ [(s.number, s.hash)] ∧ ∀ a ∈ older, a.1 < s.number := by
  have hlen := h.number_add_one
  obtain ⟨past, hpast⟩ : ∃ past, blocks = past ++ [(s.number, s.hash)] :=
    List.getLast?_eq_some_iff.mp h.tip
  have hnumbers := h.numbers
  rw [hpast, List.map_append, List.length_append, List.length_singleton,
    List.range'_concat, List.map_singleton] at hnumbers
  obtain ⟨hfirst, -⟩ := List.append_inj' hnumbers rfl
  have hbound : ∀ a ∈ past, a.1 < s.number := by
    intro a ha
    have hmem : a.1 ∈ past.map Prod.fst := List.mem_map_of_mem ha
    rw [hfirst, List.mem_range'_1] at hmem
    rw [hpast, List.length_append, List.length_singleton] at hlen
    omega
  refine ⟨past.drop (blocks.length - 3), ?_, fun a ha => hbound a (List.mem_of_mem_drop ha)⟩
  rw [h.ancestors, newest, hpast]
  refine List.drop_append_of_le_length ?_
  rw [List.length_append, List.length_singleton]
  omega

theorem Snapshot.WalkedFrom.ancestorHash_tip {start : ℕ} {blocks : List (ℕ × Hash)}
    {s : Snapshot} (h : Snapshot.WalkedFrom start blocks s) : s.ancestorHash s.number = some s.hash := by
  obtain ⟨older, hancestors, -⟩ := h.ancestors_eq
  simp [Snapshot.ancestorHash, hancestors]

theorem Snapshot.checkAttestation_soleVote_ne {s : Snapshot} {key key' : VoteKey}
    {address : Address} {data : VoteData} {number time : ℕ} {adopted : Option VoteData}
    (hfits : data.Fits) (hset : s.attestationSet data.targetNumber = [⟨address, key'⟩])
    (hhash : s.ancestorHash data.targetNumber ≠ none) (hne : key' ≠ key) :
    s.checkAttestation mockPrimitives (soleVote key data).encode number time ≠ .ok adopted := by
  intro hok
  have hdecoded := decodeVoteAttestation_encode (@soleVote_fits key data hfits).typed
  rcases checkAttestation_eq_ok.mp hok with ⟨hnone, -⟩ | ⟨att, hatt, hcase⟩
  · rw [hdecoded] at hnone
    cases hnone
  obtain rfl : soleVote key data = att :=
    Option.some.inj (Except.ok.inj (hdecoded.symm.trans hatt))
  rcases hcase with ⟨⟨-, hempty | ⟨-, hmissing⟩⟩, -⟩ | ⟨hvote, -⟩
  · exact absurd (hset.symm.trans hempty) (List.cons_ne_nil _ _)
  · exact hhash hmissing
  · have hsig := hvote.signature
    change verifyAttestationSignature _ _ (s.attestationSet data.targetNumber) = _ at hsig
    rw [hset, verify_soleVote, if_neg hne] at hsig
    cases hsig

namespace LightEngine

variable {P : Primitives}

/-- The engine rebuilt from the checkpoint that `e` writes at its tip, with the turn length of an
epoch whose set is active there. -/
def Rebuilt (P : Primitives) (e : LightEngine) (tip : RpcBlockHeader) (turnLength : ℕ)
    (e' : LightEngine) : Prop :=
  ∃ block saved now fresh epochHeader prevEpochHeader epochBlock seeded,
    e.chain.getLast? = some block ∧ block.header = some tip ∧
    e.lastVerifiedCheckpoint P tip = .ok saved ∧
    fromCheckpointAndHeader P saved tip now = .ok fresh ∧
    epochSeedAt saved.number fresh.snapshot.epochLength epochHeader prevEpochHeader =
      .ok (.active epochBlock turnLength) ∧
    fresh.snapshot.seedTurnLength turnLength = .ok seeded ∧
    e' = { fresh with snapshot := seeded }

theorem exists_fresh {e : LightEngine} {block : VerifiedBlock} {tip : RpcBlockHeader}
    {saved : Checkpoint} (h : TipHeader P e block tip) (hwritten : Written e.snapshot tip saved)
    (ha : e.snapshot.Aligned) (hbasic : saved.validateBasic = .ok ()) :
    ∃ now fresh, fromCheckpointAndHeader P saved tip now = .ok fresh := by
  obtain ⟨now, signer, hverified⟩ := h.verified
  obtain ⟨-, ⟨root, hroot⟩, -⟩ := headerHash_reads h.hash
  obtain ⟨s, hs, -⟩ := hwritten.fromCheckpoint ha
  have heq : ∀ text, hexEq text text = true := fun text => by simp [hexEq]
  have hmatch : headerMatchesCheckpoint P saved tip = .ok () := by
    unfold headerMatchesCheckpoint
    rw [h.number, h.hash, hwritten.number, hwritten.hash, hwritten.parentHash, hwritten.stateRoot,
      decodeHexFixed_hexPrefixed]
    simp [require_of, heq]
  refine ⟨now, ?_⟩
  unfold fromCheckpointAndHeader
  rw [hbasic, hmatch, hverified, hs, hwritten.hash, hwritten.stateRoot, hroot,
    decodeHexFixed_hexPrefixed, h.milli, h.gasLimit]
  exact ⟨_, rfl⟩

/-- What a restart at the tip needs: no vote is due from a set that is no longer in force, the keys
of the set before the last switch were known, no announced set is waiting, and turn length and epoch
length are the ones the restart will read. -/
structure Resumable (e : LightEngine) (tip : RpcBlockHeader) (turnLength : ℕ) : Prop where
  switch : e.snapshot.setChangedAt = e.snapshot.number →
    e.snapshot.prevVoteSet = e.snapshot.voteSet
  keys : e.snapshot.setChangedAt ≠ 0 → e.snapshot.prevVoteSet ≠ []
  pending : e.snapshot.pending = none
  turn : 0 < turnLength ∧ turnLength = e.snapshot.turnLength
  epoch : ∀ time, decodeU64 tip.timestamp = .ok time →
    (paramsAt e.snapshot.number time).epochLength = e.snapshot.epochLength

/-- The rebuilt engine relaxes the running one, and the next header has the same parent for both. -/
structure Resumes (start : ℕ) (e e' : LightEngine) : Prop where
  snapshot : Snapshot.Resumes start e.snapshot e'.snapshot
  tip : ∃ b b', e.chain.getLast? = some b ∧ e'.chain.getLast? = some b' ∧
    b'.milliTimestamp = b.milliTimestamp ∧ b'.gasLimit = b.gasLimit

/-- A call that the running engine accepts, the rebuilt one accepts. -/
theorem Resumes.step {start : ℕ} {e e' : LightEngine} (h : Resumes start e e')
    {call : RpcBlockHeader × ℕ} (habove : call.1.AboveGenesis)
    (hok : (LightEngine.step P e call).1 = .ok ()) :
    (LightEngine.step P e' call).1 = .ok () ∧
      Resumes start (LightEngine.step P e call).2 (LightEngine.step P e' call).2 := by
  obtain ⟨signer, l, b, milli, block, hseal, hacc, hpre, hof, hnext⟩ := step_ok hok
  obtain ⟨last, last', hlast, hlast', hmilli, hgas⟩ := h.tip
  have hparent : e'.parentChecks call.1 = .ok () := by
    simp only [preChecks, bind_eq_ok, mapError_eq_ok] at hpre
    obtain ⟨-, -, ⟨⟩, hchecks, -⟩ := hpre
    unfold parentChecks at hchecks ⊢
    rw [hlast] at hchecks
    rw [hlast']
    simp only [hmilli, hgas]
    exact hchecks
  obtain ⟨b', hacc', hresumes⟩ := h.snapshot.accepts habove hacc
  obtain ⟨block', hof', hstep'⟩ := applyHeader_of_accepts hseal.verified hacc' hparent
  unfold LightEngine.step at *
  rw [hstep', hnext]
  refine ⟨rfl, hresumes, block, block', ?_, ?_, hof'.milli.trans hof.milli.symm, ?_⟩
  · rw [advance, getLast?_trimChain, List.getLast?_concat]
  · rw [advance, getLast?_trimChain, List.getLast?_concat]
  · exact Except.ok.inj (hof'.gasLimit.symm.trans hof.gasLimit)

theorem settled_walk {cp : Checkpoint} {header : RpcBlockHeader} {now : ℕ} {e : LightEngine}
    (h : fromCheckpointAndHeader P cp header now = .ok e) {calls : List (RpcBlockHeader × ℕ)}
    (hunwrapped : Unwrapped P e calls) : (walk P e calls).snapshot.Settled := by
  obtain ⟨-, hs, -⟩ := fromCheckpointAndHeader_ok h
  exact walk_snapshot_invariant_mem (I := Snapshot.Settled) (fun _ n hi => hi.trimRecents n)
    (fun _ call hcall _ _ _ _ hacc hi => hi.next (hunwrapped call hcall) hacc)
    (Snapshot.settled_fromCheckpoint hs)

theorem seedTurnLength_ok {s s' : Snapshot} {turnLength : ℕ} (hpos : 0 < turnLength)
    (h : s.seedTurnLength turnLength = .ok s') : s' = { s with turnLength := turnLength } := by
  simp only [Snapshot.seedTurnLength, bind_eq_ok, if_pos hpos, pure_eq_ok, Except.ok.injEq] at h
  obtain ⟨-, -, rfl⟩ := h
  rfl

/-- At the restart itself the two engines are related. -/
theorem resumes_of_rebuilt {cp : Checkpoint} {header : RpcBlockHeader} {now : ℕ} {e₀ : LightEngine}
    (h : fromCheckpointAndHeader P cp header now = .ok e₀) {calls : List (RpcBlockHeader × ℕ)}
    (hunwrapped : Unwrapped P e₀ calls) {tip : RpcBlockHeader} {turnLength : ℕ} {e' : LightEngine}
    (hrebuilt : Rebuilt P (walk P e₀ calls) tip turnLength e')
    (hresumable : Resumable (walk P e₀ calls) tip turnLength) :
    Resumes (walk P e₀ calls).snapshot.number (walk P e₀ calls) e' := by
  obtain ⟨block, tip', htip⟩ := exists_tipHeader h calls
  have hsettled := settled_walk h hunwrapped
  have haligned := aligned_walk h calls
  have hwalked := walkedFrom_of_checkpoint h hunwrapped
  have hbelow := (sound_of_checkpoint h calls).below
  obtain ⟨block', saved, now', fresh, -, -, -, seeded, hlast, hstored, hsaved, hfresh, -, hseed,
    rfl⟩ := hrebuilt
  generalize walk P e₀ calls = e at *
  obtain rfl : block = block' := Option.some.inj (htip.last.symm.trans hlast)
  obtain rfl : tip' = tip := Option.some.inj (htip.stored.symm.trans hstored)
  obtain ⟨saved', hsaved', hwritten⟩ := exists_lastVerifiedCheckpoint htip
  obtain rfl : saved' = saved := Except.ok.inj (hsaved'.symm.trans hsaved)
  obtain rfl := seedTurnLength_ok hresumable.turn.1 hseed
  obtain ⟨-, hs, -⟩ := fromCheckpointAndHeader_ok hfresh
  obtain ⟨s', hs', hnumber, hhash, hvals, hvotes⟩ := hwritten.fromCheckpoint haligned
  obtain rfl : s' = fresh.snapshot := Except.ok.inj (hs'.symm.trans hs)
  obtain ⟨-, -, hepoch, -, hpend, henforce, hrecents, -, hchanged, hatt, hmilli, hstart, hanc⟩ :=
    Snapshot.fromCheckpoint_ok hs
  obtain ⟨genesis, hgenesis⟩ := tipHeader_fromCheckpoint hfresh
  obtain ⟨older, hancestors, hold⟩ := hwalked.ancestors_eq
  have hset : ∀ n, Snapshot.attestationSet { fresh.snapshot with turnLength := turnLength } n =
      e.snapshot.voteSet := by
    intro n
    unfold Snapshot.attestationSet
    simp only [hchanged, hvotes]
    rw [if_neg (Nat.not_lt_zero _)]
  refine ⟨?_, block, genesis, htip.last, hgenesis.last,
    Except.ok.inj (hgenesis.milli.symm.trans htip.milli),
    Except.ok.inj (hgenesis.gasLimit.symm.trans htip.gasLimit)⟩
  exact {
    number := hnumber
    hash := hhash
    epochLength := by
      change fresh.snapshot.epochLength = _
      rw [hepoch, hwritten.number]
      exact hresumable.epoch _ hwritten.timestamp
    turnLength := hresumable.turn.2
    validators := hvals
    pending := by
      rw [hresumable.pending]
      exact hpend
    enforceInturn := by
      rw [hsettled.enforced]
      exact henforce
    voteSet := hvotes
    reached := le_rfl
    recents := by
      intro r hr
      change r ∈ fresh.snapshot.recents.entries ↔ _
      rw [hrecents]
      refine ⟨fun hmem => absurd hmem List.not_mem_nil, ?_⟩
      rintro ⟨hmem, hlt⟩
      rcases hsettled.recents r hmem with hle | hmark
      · omega
      · exact absurd hmark hr
    later := by
      intro n hn
      rw [hset]
      unfold Snapshot.attestationSet
      split
      · next hlt =>
        refine (hresumable.switch ?_).symm
        have hle := hsettled.changed
        omega
      · rfl
    unknown := by
      intro n hn
      rw [hset]
      unfold Snapshot.attestationSet at hn
      split at hn
      · next hlt => exact absurd hn (hresumable.keys (by omega))
      · exact hn
    ancestors := by
      have hrebuilt : fresh.snapshot.ancestors = [(e.snapshot.number, e.snapshot.hash)] := by
        rw [hanc, hnumber, hhash]
      refine ⟨older, ?_, hold, ?_⟩
      · change _ = older ++ fresh.snapshot.ancestors
        rw [hrebuilt, hancestors]
      · change ∀ a ∈ fresh.snapshot.ancestors, _
        rw [hrebuilt]
        intro a ha
        rw [List.mem_singleton.mp ha]
    window := by
      rw [hwalked.ancestors, length_newest]
      exact Nat.min_le_right _ _
    below := hbelow
    attestation := by
      change Snapshot.VotesSince _ _ fresh.snapshot.attestation
      rw [hatt]
      exact .forgot hsettled.justified
    lastMilli := .inl hmilli
    walkStart := by
      change fresh.snapshot.walkStart = _ ∧ _ ≤ fresh.snapshot.walkStart
      rw [hstart, hwritten.number]
      exact ⟨rfl, hsettled.walkStart⟩ }

/-! ## A restart at the block of a set switch -/

/-- The engine of the mock's chain at the block where the set with key `k₂` replaces the one with
key `k₁`. -/
structure Switched (k₁ k₂ : VoteKey) (milli : ℕ) (e : LightEngine) : Prop where
  sole : e.Sole (mockKey 1) milli
  range : InRange (beforeEpoch + 8) milli
  number : e.snapshot.number = beforeEpoch + 8
  changed : e.snapshot.setChangedAt = beforeEpoch + 8
  votes : e.snapshot.voteSet = [⟨(mockKey 1).address, k₂⟩]
  previous : e.snapshot.prevVoteSet = [⟨(mockKey 1).address, k₁⟩]
  attestation : e.snapshot.attestation = none
  aligned : e.snapshot.Aligned
  known : e.snapshot.ancestorHash e.snapshot.number = some e.snapshot.hash

namespace Switched

variable {k₁ k₂ : VoteKey} {milli : ℕ} {e : LightEngine}

/-- The engine can be rebuilt there, and knows only the new set. -/
theorem exists_rebuilt (h : Switched k₁ k₂ milli e) {block : VerifiedBlock} {tip : RpcBlockHeader}
    {epochHeader : RpcBlockHeader} {time : ℕ} {vals : List SealingValidator}
    (htip : TipHeader mockPrimitives e block tip) (htime : decodeU64 tip.timestamp = .ok time)
    (hmaxwell : maxwellTime ≤ time)
    (hnumber : decodeU64 epochHeader.number = .ok (beforeEpoch + 1))
    (hrecords : epochRecords epochHeader = .ok (vals, 8)) :
    ∃ e', Rebuilt mockPrimitives e tip 8 e' ∧ e'.snapshot.epochLength = maxwellEpochLength ∧
      e'.snapshot.attestationSet (beforeEpoch + 8) = [⟨(mockKey 1).address, k₂⟩] ∧
      e'.snapshot.ancestorHash (beforeEpoch + 8) ≠ none := by
  obtain ⟨saved, hsaved, hwritten⟩ := exists_lastVerifiedCheckpoint htip
  have hvals := h.sole.snapshot.validators
  have hbasic : saved.validateBasic = .ok () := by
    rw [hwritten.validateBasic htip.hash (by rw [hvals]; simp) (by rw [hvals]; simp) h.aligned,
      h.votes]
    exact checkDistinct_hexPrefixed.mpr ⟨by simp, by simp⟩
  obtain ⟨now, fresh, hfresh⟩ := exists_fresh htip hwritten h.aligned hbasic
  obtain ⟨-, hs, -⟩ := fromCheckpointAndHeader_ok hfresh
  obtain ⟨s', hs', hnumber', hhash', -, hvotes'⟩ := hwritten.fromCheckpoint h.aligned
  obtain rfl : s' = fresh.snapshot := Except.ok.inj (hs'.symm.trans hs)
  obtain ⟨-, -, hepoch', -, -, -, -, -, hchanged', -, -, hstart', hanc'⟩ :=
    Snapshot.fromCheckpoint_ok hs
  obtain rfl : time = saved.timestamp := Except.ok.inj (htime.symm.trans hwritten.timestamp)
  have hlength : fresh.snapshot.epochLength = maxwellEpochLength :=
    hepoch'.trans (paramsAt_of_maxwell _ hmaxwell).1
  obtain ⟨prevEpochHeader, hseed⟩ :=
    @epochSeedAt_switched (beforeEpoch + 1) (beforeEpoch + 8) (by decide) (by decide) le_rfl
      (by decide) _ _ ⟨(mockKey 1).address, k₁⟩ hnumber hrecords
  rw [← h.number, ← hwritten.number, ← hlength] at hseed
  have hroom : fresh.snapshot.number < fresh.snapshot.walkStart := by
    have hbound : e.snapshot.number + 1 < u64Size := by
      rw [h.number]
      exact Draft.small_lt_u64Size (by decide)
    rw [hstart', hwritten.number, hnumber', satAdd_of_lt hbound]
    exact Nat.lt_succ_self _
  have hseeded : fresh.snapshot.seedTurnLength 8 = .ok { fresh.snapshot with turnLength := 8 } := by
    unfold Snapshot.seedTurnLength
    rw [require_of hroom]
    rfl
  refine ⟨{ fresh with snapshot := { fresh.snapshot with turnLength := 8 } },
    ⟨block, saved, now, fresh, epochHeader, prevEpochHeader, _, _, htip.last, htip.stored, hsaved,
      hfresh, hseed, hseeded, rfl⟩, hlength, ?_, ?_⟩
  · unfold Snapshot.attestationSet
    simp only [hchanged']
    rw [if_neg (Nat.not_lt_zero _), hvotes', h.votes]
  · rw [hnumber', h.number] at hanc'
    simp [Snapshot.ancestorHash, hanc']

theorem exists_vote (h : Switched k₁ k₂ milli e) : ∃ header now data,
    data.targetNumber = beforeEpoch + 8 ∧ data.Fits ∧
    (step mockPrimitives e (header, now)).1 = .ok () ∧
    ∀ s : Snapshot, s.epochLength = maxwellEpochLength →
      s.attestationRegion header = some (soleVote k₁ data).encode := by
  obtain ⟨data, hdata⟩ : ∃ data : VoteData, data =
      ⟨beforeEpoch + 7, .repeated 32 0, e.snapshot.number, e.snapshot.hash⟩ := ⟨_, rfl⟩
  have htarget : data.targetNumber = e.snapshot.number := by rw [hdata]
  have hsource : data.sourceNumber = beforeEpoch + 7 := by rw [hdata]
  have hfits : data.Fits := by
    refine ⟨?_, ?_⟩
    · rw [hsource]
      exact Draft.small_lt_u64Size (by decide)
    · rw [htarget, h.number]
      exact Draft.small_lt_u64Size (by decide)
  have hset : e.snapshot.attestationSet data.targetNumber = [⟨(mockKey 1).address, k₁⟩] := by
    rw [Snapshot.attestationSet, htarget, h.changed, h.number, if_pos (by decide), h.previous]
  have hvote := fun t => @checkAttestation_soleVote e.snapshot k₁ (mockKey 1).address data t
    hfits hset (by rw [hsource, htarget, h.number]; decide) htarget
    (by rw [htarget, h.known, hdata]) (by rw [h.attestation]; rintro a ⟨⟩)
  have hplain : ¬ (e.snapshot.number + 1) % maxwellEpochLength = 0 := by
    rw [h.number]
    decide
  have hdraft : (e.nextDraft (milli + 1000) (soleVote k₁ data).encode).Fits :=
    h.range.nextDraft_fits h.number ((length_encode_soleVote_le hfits).trans (by decide))
  have hcarries : (e.nextDraft (milli + 1000) (soleVote k₁ data).encode).Carries
      (decide ((e.snapshot.number + 1) % maxwellEpochLength = 0)) [] none
      (soleVote k₁ data).encode := by
    rw [decide_eq_false hplain]
    exact e.nextDraft_carries _ _
  obtain ⟨header, p, hash, block, -, -, -, -, hp, -, -, -, -, hacc, hstep⟩ :=
    h.sole.step hdraft (.inl hplain) le_rfl hcarries (fun hz => absurd hz hplain) (hvote _)
  refine ⟨header, _, data, htarget.trans h.number, hfits, congrArg Prod.fst hstep,
    fun s hs => ?_⟩
  have hregion := hacc.attestationRegion_eq
  rw [hp] at hregion
  unfold Snapshot.attestationRegion at hregion ⊢
  rw [hs, ← h.sole.snapshot.epoch]
  exact hregion

end Switched

/-- On the mock's chain: the engine walks to the block where the set with key `k₂` replaces the one
with key `k₁`, is rebuilt there, and is given a header with the vote of `k₁` for that block. -/
theorem exists_restart_at_switch (k₁ k₂ : VoteKey) : ∃ cp header now e₀ calls tip e' call,
    fromCheckpointAndHeader mockPrimitives cp header now = .ok e₀ ∧
    Rebuilt mockPrimitives (walk mockPrimitives e₀ calls) tip 8 e' ∧
    Unwrapped mockPrimitives e₀ (calls ++ [call]) ∧
    (step mockPrimitives (walk mockPrimitives e₀ calls) call).1 = .ok () ∧
    (k₂ = k₁ → Resumable (walk mockPrimitives e₀ calls) tip 8) ∧
    (k₂ ≠ k₁ → (step mockPrimitives e' call).1 ≠ .ok ()) := by
  let v : SealingValidator := ⟨(mockKey 1).address, k₂⟩
  have hsize : (epochPart [v] 8 []).length ≤ 100000 := by
    rw [length_epochPart, List.length_singleton, List.length_nil]
    decide
  obtain ⟨cp, header, now, e₀, calls, epochHeader, milli, h, hcp, hcount, -, hepochNumber, hrecords,
    hrange, hnumber, hchanged, hvotes, hprev, hvals, hpending, hatt, ⟨block, tip, time, hlast,
    hstored, htime, hmaxwell⟩, hwaits⟩ :=
    exists_switched k₁ (List.cons_ne_nil v []) (by simp) (by simp) hsize
  have hsorted : sortByAddress [v] = [v] := sortByAddress_of_ordered (by simp)
  rw [hsorted] at hvotes hvals
  have hsole := (hwaits hvals).sole
  have hunwrapped (call : RpcBlockHeader × ℕ) : Unwrapped mockPrimitives e₀ (calls ++ [call]) := by
    obtain ⟨-, hs, -⟩ := fromCheckpointAndHeader_ok h
    refine .of_fits ?_
    rw [List.length_append, List.length_singleton, hcount, (Snapshot.fromCheckpoint_ok hs).1, hcp]
    exact Draft.small_lt_u64Size (by decide)
  have hcalls := (Unwrapped.append_iff.mp (hunwrapped (tip, 0))).1
  obtain ⟨block', tip', htip⟩ := exists_tipHeader h calls
  obtain rfl : block' = block := Option.some.inj (htip.last.symm.trans hlast)
  obtain rfl : tip' = tip := Option.some.inj (htip.stored.symm.trans hstored)
  have hswitched : Switched k₁ k₂ milli (walk mockPrimitives e₀ calls) :=
    ⟨hsole, hrange, hnumber, hchanged, hvotes, hprev, hatt, aligned_walk h calls,
      (walkedFrom_of_checkpoint h hcalls).ancestorHash_tip⟩
  obtain ⟨e', hrebuilt, hlength, hset, hknown⟩ :=
    hswitched.exists_rebuilt htip htime hmaxwell hepochNumber hrecords
  obtain ⟨next, clock, data, htarget, hfits, hok, hregion⟩ := hswitched.exists_vote
  refine ⟨cp, header, now, e₀, calls, tip', e', (next, clock), h, hrebuilt, hunwrapped _, hok,
    ?_, ?_⟩
  · rintro rfl
    refine ⟨fun _ => by rw [hprev, hvotes], fun _ => by rw [hprev]; simp, hpending,
      ⟨by norm_num, hsole.snapshot.turn.symm⟩, fun time' htime' => ?_⟩
    obtain rfl : time = time' := Except.ok.inj (htime.symm.trans htime')
    rw [(paramsAt_of_maxwell _ hmaxwell).1, hsole.snapshot.epoch]
  · intro hne hok'
    obtain ⟨signer, l, b, milli', nextBlock, -, hacc, -⟩ := step_ok hok'
    have hparsed : b.parsed.attestation = (soleVote k₁ data).encode :=
      Option.some.inj (hacc.attestationRegion_eq.symm.trans (hregion _ hlength))
    have hcheck := hacc.body.adopted
    rw [hparsed] at hcheck
    rw [← htarget] at hset hknown
    exact Snapshot.checkAttestation_soleVote_ne hfits hset hknown hne hcheck

/-- A restart where nothing is lost that a check still needs: every sequence of headers that the
running engine accepts from its tip on, the rebuilt engine accepts. -/
theorem restart_accepts {cp : Checkpoint} {header : RpcBlockHeader} {now : ℕ} {e₀ : LightEngine}
    (h : fromCheckpointAndHeader P cp header now = .ok e₀) {calls : List (RpcBlockHeader × ℕ)}
    {tip : RpcBlockHeader} {turnLength : ℕ} {e' : LightEngine}
    (hrebuilt : Rebuilt P (walk P e₀ calls) tip turnLength e')
    (hresumable : Resumable (walk P e₀ calls) tip turnLength)
    {later : List (RpcBlockHeader × ℕ)} (hunwrapped : Unwrapped P e₀ (calls ++ later))
    (haccepted : ∀ r ∈ Machine.answers (step P) (walk P e₀ calls) later, r = .ok ()) :
    ∀ r ∈ Machine.answers (step P) e' later, r = .ok () := by
  obtain ⟨hcalls, hlater⟩ := Unwrapped.append_iff.mp hunwrapped
  unfold Unwrapped at hlater
  rw [Machine.accepted_eq_self haccepted] at hlater
  refine Machine.answers_simulation (R := Resumes (walk P e₀ calls).snapshot.number) ?_
    (resumes_of_rebuilt h hcalls hrebuilt hresumable) haccepted
  intro e e' call hcall hr hok
  exact hr.step (hlater call hcall) hok

/-- Where the switch keeps the key, the rebuilt engine accepts the vote too. -/
theorem restart_accepts_same_key : ∃ e tip e' call,
    Rebuilt mockPrimitives e tip 8 e' ∧ Resumable e tip 8 ∧
    (step mockPrimitives e call).1 = .ok () ∧ (step mockPrimitives e' call).1 = .ok () := by
  obtain ⟨cp, header, now, e₀, calls, tip, e', call, h, hrebuilt, hunwrapped, hok, hresumable, -⟩ :=
    exists_restart_at_switch (.repeated 48 1) (.repeated 48 1)
  have hanswers : ∀ r ∈ Machine.answers (step mockPrimitives) (walk mockPrimitives e₀ calls) [call],
      r = .ok () := by
    intro r hr
    rw [List.mem_singleton.mp hr]
    exact hok
  have hall := restart_accepts h hrebuilt (hresumable rfl) hunwrapped hanswers
  exact ⟨_, tip, e', call, hrebuilt, hresumable rfl, hok, hall _ (List.mem_singleton_self _)⟩

/-- Where the switch changes the key, the rebuilt engine refuses a header that the running one
accepts. -/
theorem restart_refuses_at_switch : ∃ cp header now e₀ calls tip turnLength e' later,
    fromCheckpointAndHeader mockPrimitives cp header now = .ok e₀ ∧
    Rebuilt mockPrimitives (walk mockPrimitives e₀ calls) tip turnLength e' ∧
    (∀ r ∈ Machine.answers (step mockPrimitives) (walk mockPrimitives e₀ calls) later,
      r = .ok ()) ∧
    ¬ ∀ r ∈ Machine.answers (step mockPrimitives) e' later, r = .ok () := by
  obtain ⟨cp, header, now, e₀, calls, tip, e', call, h, hrebuilt, -, hok, -, hrefused⟩ :=
    exists_restart_at_switch (.repeated 48 1) (.repeated 48 2)
  refine ⟨cp, header, now, e₀, calls, tip, 8, e', [call], h, hrebuilt, ?_, ?_⟩
  · intro r hr
    rw [List.mem_singleton.mp hr]
    exact hok
  · intro hall
    exact hrefused (by decide) (hall _ (List.mem_singleton_self _))

end LightEngine

end HeliosBsc
