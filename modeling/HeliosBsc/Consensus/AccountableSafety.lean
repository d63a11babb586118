import HeliosBsc.Consensus.Branches
import HeliosBsc.Consensus.Quorum
import HeliosBsc.Lib.Justification
import HeliosBsc.Mock.VotingChain

/-!
# Accountable safety of fast finality

The votes that a walk adopts form a chain: each starts at the block that the one before it has
justified. When two walks from one checkpoint go different ways at a block that one of them has
finalized, two of their votes break a rule for voters, and the validators that cast both are a third
of the set.
-/

namespace HeliosBsc

open Checked

/-- The vote as a link between two blocks. -/
def VoteData.link (d : VoteData) : Justification.Link Hash where
  source := (d.sourceNumber, d.sourceHash)
  target := (d.targetNumber, d.targetHash)

/-- A vote that a walk has adopted, with the set it was checked against. -/
structure Cast where
  set : List SealingValidator
  att : VoteAttestation

/-- The vote as a link between two blocks. -/
def Cast.link (c : Cast) : Justification.Link Hash := c.att.data.link

namespace Snapshot

variable {P : Primitives}

/-! ## The votes of a walk -/

/-- The vote that a call has made the snapshot adopt: one that was passed over leaves the justified
block where it was. -/
def castVote (P : Primitives) (s : Snapshot) (call : RpcBlockHeader × ℕ) : List Cast :=
  match (step P s call).1, (s.attestationRegion call.1).map decodeVoteAttestation with
  | .ok _, some (.ok (some att)) =>
    if (step P s call).2.justified = s.justified then []
    else [⟨s.attestationSet att.data.targetNumber, att⟩]
  | _, _ => []

/-- The votes of a walk, in order. -/
def votes (P : Primitives) (s : Snapshot) (calls : List (RpcBlockHeader × ℕ)) : List Cast :=
  Machine.history (castVote P) (step P) s calls

theorem castVote_cases (s : Snapshot) (call : RpcBlockHeader × ℕ) :
    (castVote P s call = [] ∧ (step P s call).2.attestation = s.attestation) ∨
    ∃ (c : Cast) (l : Link), castVote P s call = [c] ∧ c.set = s.attestationSet c.att.data.targetNumber ∧
      c.att.voteAddressSet < u64Size ∧ VoteOk P (s.trimRecents l.number) l.number l.time c.att ∧
      (step P s call).2.attestation = some (adoptAttestation s.attestation c.att.data) := by
  cases hok : (step P s call).1 with
  | error err =>
    left
    refine ⟨by simp only [castVote, hok], ?_⟩
    rcases step_error hok with hr | hr <;> rw [hr]
    rfl
  | ok signer =>
    obtain ⟨l, b, milli, -, hacc, hr⟩ := step_ok hok
    have hregion := hacc.attestationRegion_eq
    rcases checkAttestation_eq_ok.mp hacc.body.adopted with
      ⟨hdec, hnone⟩ | ⟨att, hdec, ⟨-, hnone⟩ | ⟨hvote, hsome⟩⟩
    · left
      have hatt : (step P s call).2.attestation = s.attestation := by
        rw [hr, next_attestation_of_none hnone]
      refine ⟨?_, hatt⟩
      simp only [castVote, hok, hregion, Option.map_some, hdec]
    · left
      have hatt : (step P s call).2.attestation = s.attestation := by
        rw [hr, next_attestation_of_none hnone]
      refine ⟨?_, hatt⟩
      simp only [castVote, hok, hregion, Option.map_some, hdec, Snapshot.justified, hatt, if_true]
    · right
      have hatt : (step P s call).2.attestation =
          some (adoptAttestation s.attestation att.data) := by
        rw [hr, next_attestation, hsome]
      have hmoved : (step P s call).2.justified ≠ s.justified := by
        obtain ⟨htn, -⟩ := adoptAttestation_target s.attestation att.data
        rw [Snapshot.justified, hatt, Option.map_some, htn]
        intro heq
        obtain ⟨j, hj, hpair⟩ := Option.map_eq_some_iff.mp heq.symm
        have hsame : j.targetNumber = att.data.targetNumber := congrArg Prod.fst hpair
        have hbelow := hvote.below
        rw [(hvote.source j hj).1, hsame] at hbelow
        exact Nat.lt_irrefl _ hbelow
      refine ⟨⟨s.attestationSet att.data.targetNumber, att⟩, l, ?_, rfl, voteAddressSet_lt hdec,
        hvote, hatt⟩
      simp only [castVote, hok, hregion, Option.map_some, hdec, if_neg hmoved]

/-- What stands behind a vote of a walk. -/
theorem exists_of_mem_votes {s : Snapshot} {calls : List (RpcBlockHeader × ℕ)} {c : Cast}
    (h : c ∈ s.votes P calls) : ∃ past, past <+: calls ∧
      c.set = (s.walk P past).attestationSet c.att.data.targetNumber ∧
      (s.walk P past).ancestorHash c.att.data.targetNumber = some c.att.data.targetHash ∧
      ∃ voters, Certified P c.set c.att voters := by
  obtain ⟨before, call, after, rfl, hc⟩ := Machine.exists_of_mem_history _ h
  change c ∈ castVote P (s.walk P before) call at hc
  rcases castVote_cases (P := P) (s.walk P before) call with
    ⟨hnil, -⟩ | ⟨c', l, hone, hset, hbits, hvote, -⟩
  · rw [hnil] at hc
    cases hc
  · rw [hone] at hc
    obtain rfl := List.mem_singleton.mp hc
    refine ⟨before, List.prefix_append before _, hset, hvote.target, certified_of_verify hbits ?_⟩
    rw [hset]
    exact hvote.signature

/-- The votes of a walk form a chain. The last one has justified the justified block; the finalized
block is the source of one of them, which is for the next height or the first of all. -/
structure VotesSo (past : List Cast) (s : Snapshot) : Prop where
  chained : Justification.Chained (past.map Cast.link)
  justified : s.justified = past.getLast?.map fun c => c.link.target
  finalized : ∀ f, s.finalized = some f → ∃ c ∈ past, c.link.source = f ∧
    (c.link.target.1 = f.1 + 1 ∨ past.head? = some c)

theorem VotesSo.step {past : List Cast} {s : Snapshot} (call : RpcBlockHeader × ℕ)
    (h : VotesSo past s) : VotesSo (past ++ castVote P s call) (step P s call).2 := by
  rcases castVote_cases (P := P) s call with ⟨hnil, hatt⟩ | ⟨c, l, hone, -, -, hvote, hatt⟩
  · rw [hnil, List.append_nil]
    refine ⟨h.chained, ?_, ?_⟩
    · rw [Snapshot.justified, hatt]
      exact h.justified
    · rw [Snapshot.finalized, hatt]
      exact h.finalized
  · have hsource : ∀ j, s.attestation = some j → c.link.source = (j.targetNumber, j.targetHash) :=
      fun j hj => Prod.ext (hvote.source j hj).1 (hvote.source j hj).2
    rw [hone]
    refine ⟨?_, ?_, ?_⟩
    · rw [List.map_append, List.map_singleton]
      refine h.chained.concat hvote.below ?_
      intro u hu
      rw [List.getLast?_map, Option.mem_def, Option.map_eq_some_iff] at hu
      obtain ⟨last, hlast, rfl⟩ := hu
      have hjust := h.justified
      rw [hlast, Option.map_some] at hjust
      obtain ⟨j, hj, hpair⟩ := Option.map_eq_some_iff.mp hjust
      rw [hsource j hj, hpair]
    · obtain ⟨htn, hth⟩ := adoptAttestation_target s.attestation c.att.data
      rw [Snapshot.justified, hatt, List.getLast?_concat, Option.map_some, Option.map_some, htn,
        hth]
      rfl
    · intro f hf
      rw [Snapshot.finalized, hatt, Option.map_some, Option.some.injEq] at hf
      have hmem : c ∈ past ++ [c] := List.mem_append_right past (List.mem_singleton_self c)
      cases hcur : s.attestation with
      | none =>
        -- nothing was adopted before this vote
        have hjust := h.justified
        rw [Snapshot.justified, hcur, Option.map_none, eq_comm, Option.map_eq_none_iff,
          List.getLast?_eq_none_iff] at hjust
        subst hjust
        rw [hcur] at hf
        exact ⟨c, hmem, hf, .inr rfl⟩
      | some cur =>
        rw [hcur] at hf
        unfold adoptAttestation at hf
        simp only at hf
        split at hf
        · obtain ⟨old, hold, hsrc, hkind⟩ := h.finalized f (by
            rw [Snapshot.finalized, hcur]
            exact congrArg some hf)
          refine ⟨old, List.mem_append_left _ hold, hsrc, hkind.imp_right fun hhead => ?_⟩
          rw [List.head?_append, hhead, Option.some_or]
        · rename_i hnext
          refine ⟨c, hmem, hf, .inl ?_⟩
          have hup := hvote.below
          rw [← hf]
          change c.att.data.targetNumber = c.att.data.sourceNumber + 1
          unfold satAdd at hnext
          omega

theorem votesSo_walk {cp : Checkpoint} {s : Snapshot} (h : fromCheckpoint cp = .ok s)
    (calls : List (RpcBlockHeader × ℕ)) : VotesSo (s.votes P calls) (s.walk P calls) := by
  obtain ⟨-, -, -, -, -, -, -, -, -, hatt, -⟩ := fromCheckpoint_ok h
  have hstart : VotesSo [] s := by
    refine ⟨Justification.chained_nil, ?_, ?_⟩
    · rw [Snapshot.justified, hatt]
      rfl
    · rw [Snapshot.finalized, hatt]
      rintro f ⟨⟩
  exact Machine.run_history_invariant (castVote P) (fun _ s call hi => hi.step call) hstart calls

theorem votes_subset {s : Snapshot} {past calls : List (RpcBlockHeader × ℕ)}
    (h : past <+: calls) : s.votes P past ⊆ s.votes P calls := by
  obtain ⟨more, rfl⟩ := h
  rw [votes, votes, Machine.history_append]
  exact List.subset_append_left _ _

/-! ## One set of voters -/

/-- A switch of sets leaves its mark: without one, the vote set is that of the start. -/
theorem voteSet_of_unchanged {s : Snapshot} {calls : List (RpcBlockHeader × ℕ)}
    (hunwrapped : Unwrapped P s calls) (hend : (s.walk P calls).setChangedAt = 0)
    {past : List (RpcBlockHeader × ℕ)} (hpast : past <+: calls) :
    (s.walk P past).setChangedAt = 0 ∧ (s.walk P past).voteSet = s.voteSet := by
  have hstep : ∀ (t : Snapshot) (call : RpcBlockHeader × ℕ),
      (∀ signer, (step P t call).1 = .ok signer → call.1.AboveGenesis) →
      (step P t call).2.setChangedAt = 0 →
      t.setChangedAt = 0 ∧ (step P t call).2.voteSet = t.voteSet := by
    intro t call habove hzero
    cases hr : (step P t call).1 with
    | ok signer =>
      obtain ⟨l, b, milli, -, hacc, hs⟩ := step_ok hr
      rw [hs] at hzero ⊢
      rcases t.next_sets signer l b milli with
        ⟨p, -, -, -, -, hchanged, -⟩ | ⟨-, hvotes, -, hchanged, -⟩
      · rw [hchanged, hacc.link.number_eq (habove signer hr)] at hzero
        exact absurd hzero (Nat.succ_ne_zero _)
      · exact ⟨hchanged.symm.trans hzero, hvotes⟩
    | error err =>
      rcases step_error hr with hs | hs <;> rw [hs] at hzero ⊢ <;> exact ⟨hzero, rfl⟩
  obtain ⟨more, rfl⟩ := hpast
  obtain ⟨hbefore, hafter⟩ := Machine.along_append.mp hunwrapped.along
  have hsame : (s.walk P past).setChangedAt = 0 := by
    by_contra hne
    have hlater : (Machine.run (step P) (s.walk P past) more).setChangedAt ≠ 0 :=
      Machine.run_invariant_of (I := fun t : Snapshot => t.setChangedAt ≠ 0)
        (fun t call ht habove hzero => ht (hstep t call habove hzero).1) hne more hafter
    apply hlater
    rw [← hend]
    exact congrArg Snapshot.setChangedAt (Machine.run_append s past more).symm
  refine ⟨hsame, ?_⟩
  exact Machine.run_invariant_of
    (I := fun t : Snapshot => t.setChangedAt = 0 → t.voteSet = s.voteSet)
    (fun t call ht habove hzero =>
      (hstep t call habove hzero).2.trans (ht (hstep t call habove hzero).1))
    (fun _ => rfl) past hbefore hsame

theorem Cast.set_of_unchanged {s : Snapshot} {calls : List (RpcBlockHeader × ℕ)} {c : Cast}
    (hunwrapped : Unwrapped P s calls) (h : c ∈ s.votes P calls)
    (hend : (s.walk P calls).setChangedAt = 0) : c.set = s.voteSet := by
  obtain ⟨past, hpast, hset, -⟩ := exists_of_mem_votes h
  obtain ⟨hzero, hvotes⟩ := voteSet_of_unchanged hunwrapped hend hpast
  rw [hset, attestationSet, hzero, if_neg (Nat.not_lt_zero _), hvotes]

/-! ## Two walks that finalize differently -/

/-- The finality of a block: it was justified, and a later vote leads from it to the next height. -/
theorem exists_finalizes {cp : Checkpoint} {s : Snapshot} (h : fromCheckpoint cp = .ok s)
    {calls past : List (RpcBlockHeader × ℕ)} {final : ℕ × Hash}
    (hfinal : (s.walk P calls).finalized = some final) (hpast : past <+: calls)
    (hjust : (s.walk P past).justified = some final) :
    ∃ reach ∈ s.votes P calls, ∃ leave ∈ s.votes P calls,
      Justification.Finalizes final reach.link leave.link := by
  have hso := votesSo_walk (P := P) h calls
  have hearlier := (votesSo_walk (P := P) h past).justified
  rw [hjust, eq_comm, Option.map_eq_some_iff] at hearlier
  obtain ⟨reach, hlast, hreach⟩ := hearlier
  have hmem : reach ∈ s.votes P calls := votes_subset hpast (List.mem_of_getLast? hlast)
  obtain ⟨leave, hleave, hsource, hkind⟩ := hso.finalized final hfinal
  refine ⟨reach, hmem, leave, hleave, hreach, hsource, hkind.resolve_right fun hhead => ?_⟩
  -- the first vote ends above its source, and no vote ends below that
  obtain ⟨rest, hvotes⟩ := List.head?_eq_some_iff.mp hhead
  have hchained := hso.chained
  rw [hvotes, List.map_cons] at hchained
  have hle := hchained.head_le reach.link (by
    rw [← List.map_cons, ← hvotes]
    exact List.mem_map_of_mem hmem)
  have hup := hchained.upward leave.link List.mem_cons_self
  rw [hreach] at hle
  rw [hsource] at hup
  exact absurd hle hup.not_ge

theorem visits_target {cp : Checkpoint} {s : Snapshot} (h : fromCheckpoint cp = .ok s)
    {calls : List (RpcBlockHeader × ℕ)} {c : Cast} (hc : c ∈ s.votes P calls) :
    s.Visits P calls c.link.target.1 c.link.target.2 := by
  obtain ⟨past, hpast, -, hancestor, -⟩ := exists_of_mem_votes hc
  exact (visits_of_ancestorHash h hancestor).mono hpast

/-- The votes of a walk that has finalized a block below a height and justifies one above it lead
across the height. -/
theorem exists_votes_across {cp : Checkpoint} {s : Snapshot} (h : fromCheckpoint cp = .ok s)
    {calls : List (RpcBlockHeader × ℕ)} {n : ℕ}
    (hlow : ∃ past f, past <+: calls ∧ (s.walk P past).finalized = some f ∧ f.1 < n)
    (hhigh : ∃ j, (s.walk P calls).justified = some j ∧ n < j.1) :
    ∃ first votes, Justification.Chained (first :: votes) ∧ first.source.1 < n ∧
      (∃ v ∈ first :: votes, n < v.target.1) ∧
      ∀ v ∈ first :: votes, ∃ c ∈ s.votes P calls, c.link = v := by
  obtain ⟨past, f, hpast, hf, hbelow⟩ := hlow
  obtain ⟨first, hfirst, hsource, -⟩ := (votesSo_walk (P := P) h past).finalized f hf
  obtain ⟨before, after, hvotes⟩ := List.append_of_mem (votes_subset hpast hfirst)
  have hso := votesSo_walk (P := P) h calls
  refine ⟨first.link, after.map Cast.link, ?_, by rw [hsource]; exact hbelow, ?_, fun v hv => ?_⟩
  · have hchained := hso.chained
    rw [hvotes, List.map_append, List.map_cons] at hchained
    exact hchained.drop
  · obtain ⟨j, hj, hlt⟩ := hhigh
    have hlast := hso.justified
    rw [hj, hvotes, List.getLast?_append_of_ne_nil _ (List.cons_ne_nil first after), eq_comm,
      Option.map_eq_some_iff] at hlast
    obtain ⟨last, hlast, rfl⟩ := hlast
    refine ⟨last.link, ?_, hlt⟩
    rw [← List.map_cons]
    exact List.mem_map_of_mem (List.mem_of_getLast? hlast)
  · rw [← List.map_cons] at hv
    obtain ⟨c, hc, rfl⟩ := List.mem_map.mp hv
    exact ⟨c, hvotes ▸ List.mem_append_right before hc, rfl⟩

/-- A walk with another block at the height of a finalized one has no vote for it, and none for the
block that finalizes it, unless headers collide. -/
theorem target_ne_of_other {cp : Checkpoint} {s : Snapshot} (h : fromCheckpoint cp = .ok s)
    {calls calls' : List (RpcBlockHeader × ℕ)} (hunwrapped : Unwrapped P s calls)
    (hunwrapped' : Unwrapped P s calls') {n : ℕ} {final other : Hash}
    (hcollide : ¬ HeadersCollide P calls calls') (hvisit : s.Visits P calls' n other)
    (hne : other ≠ final) {reach leave c : Cast} (hreach : reach ∈ s.votes P calls)
    (hleave : leave ∈ s.votes P calls) (hc : c ∈ s.votes P calls')
    (hfinal : Justification.Finalizes (n, final) reach.link leave.link) :
    c.link.target ≠ (n, final) ∧ c.link.target ≠ leave.link.target := by
  have hthere := visits_target h hc
  constructor
  · intro heq
    rw [heq] at hthere
    exact hne (hvisit.unique hunwrapped' hthere)
  · intro heq
    have hhere := visits_target h hleave
    have hfinalHere := visits_target h hreach
    rw [heq] at hthere
    rw [hfinal.target] at hthere hhere
    rw [hfinal.reach] at hfinalHere
    have hstart : s.number ≤ n := hvisit.start_le hunwrapped'
    rcases parent_agree hunwrapped hunwrapped' hstart hstart hhere hthere hfinalHere hvisit with
      heq | hcoll
    · exact hne heq.symm
    · exact hcollide hcoll

/-- Accountable safety. From one checkpoint, one walk has justified and then finalized a block; the
other has another block at that height, had its finalized block below it and justifies a block above
it. Then two headers with one hash have different preimages, or the walks have each adopted a vote
such that no validator may cast both. The two votes were checked against the checkpoint's set when
neither walk has switched sets; and when they were checked against one set, a third of its
validators have their keys in both aggregates. -/
theorem accountable_safety {cp : Checkpoint} {s : Snapshot} (h : fromCheckpoint cp = .ok s)
    {calls calls' : List (RpcBlockHeader × ℕ)} (hunwrapped : Unwrapped P s calls)
    (hunwrapped' : Unwrapped P s calls') {n : ℕ} {final other : Hash}
    (hfinal : (s.walk P calls).finalized = some (n, final))
    (hjust : ∃ past, past <+: calls ∧ (s.walk P past).justified = some (n, final))
    (hvisit : s.Visits P calls' n other) (hne : other ≠ final)
    (hlow : ∃ past f, past <+: calls' ∧ (s.walk P past).finalized = some f ∧ f.1 < n)
    (hhigh : ∃ j, (s.walk P calls').justified = some j ∧ n < j.1) :
    HeadersCollide P calls calls' ∨
    ∃ a ∈ s.votes P calls, ∃ b ∈ s.votes P calls', b.link.Slashable a.link ∧
      ((s.walk P calls).setChangedAt = 0 → (s.walk P calls').setChangedAt = 0 →
        a.set = s.voteSet ∧ b.set = s.voteSet) ∧
      (a.set = b.set → ∃ va vb, Certified P a.set a.att va ∧ Certified P b.set b.att vb ∧
        1 ≤ ceilThird a.set.length ∧
        ceilThird a.set.length ≤ (va.toFinset ∩ vb.toFinset).card) := by
  by_cases hcollide : HeadersCollide P calls calls'
  · exact .inl hcollide
  right
  obtain ⟨past, hpast, hj⟩ := hjust
  obtain ⟨reach, hreach, leave, hleave, hfinalizes⟩ := exists_finalizes h hfinal hpast hj
  -- the votes of the other walk from one below the block on
  obtain ⟨first, votes, hchained, hbelow, hend, hmem⟩ := exists_votes_across h hlow hhigh
  have hbranch : ∀ v ∈ first :: votes, v.target ≠ (n, final) ∧ v.target ≠ leave.link.target := by
    intro v hv
    obtain ⟨c, hc, rfl⟩ := hmem v hv
    exact target_ne_of_other h hunwrapped hunwrapped' hcollide hvisit hne hreach hleave hc
      hfinalizes
  obtain ⟨v, hv, hslash⟩ := hchained.exists_slashable hfinalizes hbelow hend hbranch
  obtain ⟨b, hb, rfl⟩ := hmem v hv
  obtain ⟨a, ha, hslash⟩ : ∃ a ∈ s.votes P calls, b.link.Slashable a.link :=
    hslash.elim (fun h => ⟨reach, hreach, h⟩) fun h => ⟨leave, hleave, h⟩
  refine ⟨a, ha, b, hb, hslash, fun hzero hzero' =>
    ⟨Cast.set_of_unchanged hunwrapped ha hzero, Cast.set_of_unchanged hunwrapped' hb hzero'⟩,
    fun hset => ?_⟩
  obtain ⟨-, -, -, -, va, hca⟩ := exists_of_mem_votes ha
  obtain ⟨-, -, -, -, vb, hcb⟩ := exists_of_mem_votes hb
  refine ⟨va, vb, hca, hcb, ?_⟩
  rw [← hset] at hcb
  exact hca.shared hcb

/-- On the mock's chain the only validator votes on two branches, and is caught. -/
theorem accountable_safety_branches : ∃ (s : Snapshot) (calls calls' : List (RpcBlockHeader × ℕ)),
    HeadersCollide mockPrimitives calls calls' ∨
    ∃ a ∈ s.votes mockPrimitives calls, ∃ b ∈ s.votes mockPrimitives calls',
      b.link.Slashable a.link := by
  obtain ⟨s, hs, hvoting, hnumber, hhash, hnone⟩ := exists_voting (.repeated 48 1) (.repeated 32 7)
  have hera : ∀ milli, 1770000000000 ≤ milli → milli < 1780000000000 → Voting.InEra s milli := by
    intro milli hfrom hto
    exact ⟨by omega, hfrom, hto⟩
  have hroom : s.number < sealedChainStart + 4 := by omega
  obtain ⟨c₁, c₂, c₃, -, -, -, hj, hf, -⟩ := hvoting.exists_branch
    (hera 1770000001000 (by norm_num) (by norm_num)) hroom hnone
  obtain ⟨d₁, d₂, d₃, hn', hh', hf', -, -, hend⟩ := hvoting.exists_branch
    (hera 1770000002000 (by norm_num) (by norm_num)) hroom hnone
  have hne : Voting.nextHash s 1770000002000 [] ≠ Voting.nextHash s 1770000001000 [] := by
    rw [nextHash_eq_firstRows hnumber hhash, nextHash_eq_firstRows hnumber hhash]
    exact firstRows_ne
  have hunwrapped : ∀ calls : List (RpcBlockHeader × ℕ), calls.length ≤ 8 →
      Unwrapped mockPrimitives s calls := by
    intro calls hcalls
    have hstart : sealedChainStart + 8 < u64Size := Draft.small_lt_u64Size (by decide)
    exact .of_fits (by omega)
  have hsafe := accountable_safety hs (hunwrapped _ (by simp)) (hunwrapped _ (by simp)) hf
    ⟨[c₁, c₂], ⟨[c₃], rfl⟩, hj⟩ ⟨[d₁], ⟨[d₂, d₃], rfl⟩, hn', hh'⟩ hne
    ⟨[d₁, d₂], _, ⟨[d₃], rfl⟩, hf', Nat.lt_succ_self _⟩ hend
  exact ⟨s, _, _, hsafe.imp_right fun ⟨a, ha, b, hb, hslash, _⟩ => ⟨a, ha, b, hb, hslash⟩⟩

end Snapshot

end HeliosBsc
