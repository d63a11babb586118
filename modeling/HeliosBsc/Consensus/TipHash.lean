import HeliosBsc.Consensus.Branches
import HeliosBsc.Consensus.Rejection
import HeliosBsc.Mock.VotingChain

/-!
# The tip determines the state

What a snapshot holds after a walk, validator sets, announcements, recent sealers and the
attestation, follows from the block it is at. However two walks from one start were fed, with
refused headers between the accepted ones and at other times of the clock, if they are at one block
then every later header gets the same answer from both.
-/

namespace HeliosBsc

open Checked

namespace Snapshot

variable {P : Primitives}

/-! ## Without the refused headers -/

/-- Every call of the walk is accepted. -/
def AllAccepted (P : Primitives) (s : Snapshot) (calls : List (RpcBlockHeader × ℕ)) : Prop :=
  Machine.Along (step P) (fun t call => ∃ signer, (step P t call).1 = .ok signer) s calls

/-- A walk is at the same state, up to what the next header trims, when the refused headers are left
out. -/
theorem alike_walk_accepted (s : Snapshot) (calls : List (RpcBlockHeader × ℕ)) :
    AllAccepted P s (Machine.accepted (step P) s calls) ∧
      Alike (s.walk P calls) (s.walk P (Machine.accepted (step P) s calls)) := by
  refine Machine.run_accepted_invariant
    (I := fun past t => AllAccepted P s past ∧ Alike t (s.walk P past)) ?_ ?_
    ⟨Machine.along_nil, .refl s⟩ calls
  · rintro past t call signer ⟨hall, halike⟩ hok
    obtain ⟨hans, hnext⟩ := halike.applyHeader P call.1 call.2
    change (step P t call).1 = (step P (s.walk P past) call).1 at hans
    refine ⟨Machine.along_concat.mpr ⟨hall, signer, hans.symm.trans hok⟩, ?_⟩
    rw [walk_concat]
    exact hnext
  · rintro past t call err ⟨hall, halike⟩ herr
    refine ⟨hall, ?_⟩
    unfold step at herr ⊢
    rcases t.applyHeader_cases P call.1 call.2 with
      ⟨signer, l, b, milli, -, -, hr⟩ | ⟨e, hr⟩ | ⟨signer, l, e, hlink, hr⟩
    · rw [hr] at herr
      cases herr
    · rw [hr]
      exact halike
    · rw [hr, hlink.follows]
      exact halike.trimRecents

theorem AllAccepted.last {s : Snapshot} {calls : List (RpcBlockHeader × ℕ)}
    {call : RpcBlockHeader × ℕ} (h : AllAccepted P s (calls ++ [call])) :
    AllAccepted P s calls ∧ ∃ l b milli signer, SealOk P call.1 call.2 signer ∧
      Accepts P (s.walk P calls) call.1 signer l b milli ∧
      (step P (s.walk P calls) call).2 = (s.walk P calls).next signer l b milli := by
  obtain ⟨hall, signer, hok⟩ := Machine.along_concat.mp h
  obtain ⟨l, b, milli, hseal, hacc, hs⟩ := step_ok hok
  exact ⟨hall, l, b, milli, signer, hseal, hacc, hs⟩

theorem AllAccepted.number {s : Snapshot} {calls : List (RpcBlockHeader × ℕ)}
    (h : AllAccepted P s calls) (habove : AboveGenesis calls) :
    (s.walk P calls).number = s.number + calls.length := by
  induction calls using List.reverseRecOn with
  | nil => rfl
  | append_singleton calls call ih =>
    obtain ⟨hall, l, b, milli, signer, -, hacc, hs⟩ := h.last
    obtain ⟨hcalls, hcall⟩ := AboveGenesis.append_iff.mp habove
    have hl := hacc.link.number_eq (hcall call (List.mem_singleton_self call))
    rw [walk_concat, hs, next_number, hl, ih hall hcalls, List.length_append, List.length_singleton,
      Nat.add_assoc]

/-! ## Two branches with one tip -/

/-- Two accepted headers of which one string is hashed lead to one state. -/
theorem next_eq_of_headerPreimage {s : Snapshot} {header header' : RpcBlockHeader} {now now' : ℕ}
    {signer signer' : Address} {l l' : Link} {b b' : Body} {milli milli' : ℕ} {bytes : Bytes}
    (hextra : utf8Length header.extraData.toList ≤ isizeMax)
    (hextra' : utf8Length header'.extraData.toList ≤ isizeMax)
    (hb : headerPreimage header = .ok bytes) (hb' : headerPreimage header' = .ok bytes)
    (hseal : SealOk P header now signer) (hseal' : SealOk P header' now' signer')
    (hacc : Accepts P s header signer l b milli) (hacc' : Accepts P s header' signer' l' b' milli')
    (hhash : l.hash = l'.hash) : s.next signer l b milli = s.next signer' l' b' milli' := by
  obtain ⟨f, hf, rfl⟩ := headerPreimage_eq_ok hb
  obtain ⟨g, hg, heq⟩ := headerPreimage_eq_ok hb'
  have hagree : f.Agree g := HeaderFields.agree_of_items_eq hf hg
    (eq_of_encodeList_eq (hf.length_encodeList_lt hextra) (hg.length_encodeList_lt hextra') heq)
  have hfields := hagree.mandatory
  have hsigner : signer = signer' := by
    have h₁ := Except.ok.inj (hf.coinbase.symm.trans hseal.miner)
    have h₂ := Except.ok.inj (hg.coinbase.symm.trans hseal'.miner)
    rw [← h₁, ← h₂]
    exact congrArg MandatoryFields.coinbase hfields
  have hnumber : l.number = l'.number := by
    rw [hacc.link.follows, hacc'.link.follows]
  have htime : l.time = l'.time := by
    have h₁ := Except.ok.inj (hf.time.symm.trans hacc.link.time)
    have h₂ := Except.ok.inj (hg.time.symm.trans hacc'.link.time)
    rw [← h₁, ← h₂]
    exact congrArg MandatoryFields.time hfields
  have hmilli : milli = milli' := by
    have h₁ := hacc.milli
    have h₂ := hacc'.milli
    have hmix : f.mix = g.mix := congrArg MandatoryFields.mix hfields
    have htimes : f.time = g.time := congrArg MandatoryFields.time hfields
    unfold milliTimestamp at h₁ h₂
    rw [hf.time, hf.mix, htimes, hmix] at h₁
    rw [hg.time, hg.mix] at h₂
    exact Except.ok.inj (h₁.symm.trans h₂)
  obtain ⟨number, time, hash⟩ := l
  obtain ⟨number', time', hash'⟩ := l'
  simp only at hnumber htime hhash
  subst hsigner hnumber htime hhash hmilli
  have hbody : b = b' := by
    have hepoch : b.isEpoch = b'.isEpoch := hacc.body.isEpoch.trans hacc'.body.isEpoch.symm
    obtain ⟨extra, hx, hp⟩ := hacc.body.parsed
    obtain ⟨extra', hx', hp'⟩ := hacc'.body.parsed
    have h₁ := Except.ok.inj (hf.extra.symm.trans hx)
    have h₂ := Except.ok.inj (hg.extra.symm.trans hx')
    have hsame : extra = extra' := by
      rw [← h₁, ← h₂]
      exact congrArg MandatoryFields.extra hfields
    rw [hsame, hepoch, hp', Except.ok.injEq] at hp
    have hadopted := hacc.body.adopted
    rw [← hp, hacc'.body.adopted, Except.ok.injEq] at hadopted
    obtain ⟨isEpoch, parsed, adopted⟩ := b
    obtain ⟨isEpoch', parsed', adopted'⟩ := b'
    simp only at hepoch hp hadopted
    subst hepoch hp hadopted
    rfl
  rw [hbody]

/-- The `extraData` strings of the calls are no longer than a `String` can be. -/
def Allocated (calls : List (RpcBlockHeader × ℕ)) : Prop :=
  ∀ call ∈ calls, utf8Length call.1.extraData.toList ≤ isizeMax

/-- Two accepted walks that end at one block end in one state, or two of their headers collide. -/
theorem AllAccepted.walk_eq {s : Snapshot} {calls calls' : List (RpcBlockHeader × ℕ)}
    (h : AllAccepted P s calls) (h' : AllAccepted P s calls') (habove : AboveGenesis calls)
    (habove' : AboveGenesis calls') (hsize : Allocated calls) (hsize' : Allocated calls')
    (hnumber : (s.walk P calls).number = (s.walk P calls').number)
    (hhash : (s.walk P calls).hash = (s.walk P calls').hash) :
    s.walk P calls = s.walk P calls' ∨ HeadersCollide P calls calls' := by
  induction calls using List.reverseRecOn generalizing calls' with
  | nil =>
    rw [h'.number habove'] at hnumber
    change s.number = _ at hnumber
    have hnil : calls' = [] := List.length_eq_zero_iff.mp (by omega)
    rw [hnil]
    exact .inl rfl
  | append_singleton calls call ih =>
    rcases List.eq_nil_or_concat calls' with rfl | ⟨calls', call', rfl⟩
    · rw [h.number habove, List.length_append, List.length_singleton] at hnumber
      change _ = s.number at hnumber
      omega
    rw [List.concat_eq_append] at h' habove' hsize' hnumber hhash ⊢
    obtain ⟨hcalls, hcall⟩ := AboveGenesis.append_iff.mp habove
    obtain ⟨hcalls', hcall'⟩ := AboveGenesis.append_iff.mp habove'
    obtain ⟨hall, l, b, milli, signer, hseal, hacc, hs⟩ := h.last
    obtain ⟨hall', l', b', milli', signer', hseal', hacc', hs'⟩ := h'.last
    have hmem : call ∈ calls ++ [call] := List.mem_append_right _ (List.mem_singleton_self _)
    have hmem' : call' ∈ calls' ++ [call'] := List.mem_append_right _ (List.mem_singleton_self _)
    rw [walk_concat, walk_concat, hs, hs'] at hnumber hhash
    rw [walk_concat, walk_concat, hs, hs']
    rw [next_number, next_number] at hnumber
    rw [next_hash, next_hash] at hhash
    obtain ⟨own, hown, hclaimed⟩ := hseal.hash_eq
    obtain ⟨own', hown', hclaimed'⟩ := hseal'.hash_eq
    obtain rfl : own = l.hash := Except.ok.inj (hclaimed.symm.trans hacc.link.hash)
    obtain rfl : own' = l'.hash := Except.ok.inj (hclaimed'.symm.trans hacc'.link.hash)
    obtain ⟨bytes, hb, hk⟩ := map_eq_ok.mp hown
    obtain ⟨bytes', hb', hk'⟩ := map_eq_ok.mp hown'
    by_cases heq : bytes = bytes'
    · subst heq
      -- one string was hashed, so the parents are one block too
      have hparent := parent_eq_of_headerPreimage_eq hb hb' hacc.link.parent hacc'.link.parent
      have hbelow : (s.walk P calls).number = (s.walk P calls').number := by
        rw [hacc.link.number_eq (hcall call (List.mem_singleton_self call)),
          hacc'.link.number_eq (hcall' call' (List.mem_singleton_self call'))] at hnumber
        exact Nat.succ.inj hnumber
      rcases ih hall hall' hcalls hcalls' (fun c hc => hsize c (List.mem_append_left _ hc))
          (fun c hc => hsize' c (List.mem_append_left _ hc)) hbelow hparent with hsame | hcollide
      · rw [← hsame] at hacc' ⊢
        exact .inl (next_eq_of_headerPreimage (hsize _ hmem) (hsize' _ hmem') hb hb' hseal hseal'
          hacc hacc' hhash)
      · exact .inr (hcollide.mono (List.subset_append_left _ _) (List.subset_append_left _ _))
    · refine .inr ⟨call, hmem, call', hmem', bytes, bytes', hb, hb', heq, ?_⟩
      rw [hk, hk', hhash]

/-- The tip determines the state. Two walks from one start, over any headers and clocks and with any
refusals, that are at one number and hash have had two different header strings with one hash, or
hold the same state up to entries of `recents` that no check counts, and give the same answers to
every further sequence of headers. -/
theorem tip_determines_state {s : Snapshot} {calls calls' : List (RpcBlockHeader × ℕ)}
    (hunwrapped : Unwrapped P s calls) (hunwrapped' : Unwrapped P s calls')
    (hsize : Allocated calls) (hsize' : Allocated calls')
    (hnumber : (s.walk P calls).number = (s.walk P calls').number)
    (hhash : (s.walk P calls).hash = (s.walk P calls').hash) :
    HeadersCollide P calls calls' ∨
    (∃ t, Alike (s.walk P calls) t ∧ Alike (s.walk P calls') t) ∧
      ∀ later, Machine.answers (step P) (s.walk P calls) later =
        Machine.answers (step P) (s.walk P calls') later := by
  obtain ⟨hall, halike⟩ := alike_walk_accepted (P := P) s calls
  obtain ⟨hall', halike'⟩ := alike_walk_accepted (P := P) s calls'
  have hsub : Machine.accepted (step P) s calls ⊆ calls := Machine.accepted_subset s calls
  have hsub' : Machine.accepted (step P) s calls' ⊆ calls' := Machine.accepted_subset s calls'
  rcases hall.walk_eq hall' hunwrapped hunwrapped' (fun c hc => hsize c (hsub hc))
      (fun c hc => hsize' c (hsub' hc))
      (halike.number_eq.symm.trans (hnumber.trans halike'.number_eq))
      (halike.hash_eq.symm.trans (hhash.trans halike'.hash_eq)) with hsame | hcollide
  · right
    rw [← hsame] at halike'
    refine ⟨⟨_, halike, halike'⟩, fun later => ?_⟩
    refine (Machine.run_bisim (R := fun t u : Snapshot => ∃ v, Alike t v ∧ Alike u v) ?_
      ⟨_, halike, halike'⟩ later).1
    rintro t u call ⟨v, ht, hu⟩
    obtain ⟨hans, hnext⟩ := ht.applyHeader P call.1 call.2
    obtain ⟨hans', hnext'⟩ := hu.applyHeader P call.1 call.2
    exact ⟨hans.trans hans'.symm, _, hnext, hnext'⟩
  · exact .inl (hcollide.mono hsub hsub')

/-- On the mock's chain: a walk that is sent its first header twice refuses it the second time, and is
in the state of the walk that was sent it once. -/
theorem tip_determines_state_twice : ∃ (s : Snapshot) (call : RpcBlockHeader × ℕ),
    (s.walk mockPrimitives [call]).number = s.number + 1 ∧
    (HeadersCollide mockPrimitives [call] [call, call] ∨
    (∃ t, Alike (s.walk mockPrimitives [call]) t ∧ Alike (s.walk mockPrimitives [call, call]) t) ∧
      ∀ later, Machine.answers (step mockPrimitives) (s.walk mockPrimitives [call]) later =
        Machine.answers (step mockPrimitives) (s.walk mockPrimitives [call, call]) later) := by
  obtain ⟨s, -, hvoting, hnumber, -, -⟩ := exists_voting (.repeated 48 1) (.repeated 32 7)
  have hera : Voting.InEra s 1770000001000 := ⟨by omega, by norm_num, by norm_num⟩
  obtain ⟨call, signer, l, b, hstep, -, -, hl, -, hread, hsize⟩ :=
    hvoting.step hera (Nat.zero_le _) (LightEngine.checkAttestation_nil s _ _)
  have habove : call.1.AboveGenesis :=
    RpcBlockHeader.aboveGenesis_of_number hread (Nat.succ_ne_zero _)
  have hone : s.walk mockPrimitives [call] = s.next signer l b 1770000001000 :=
    congrArg Prod.snd hstep
  have hup : (s.walk mockPrimitives [call]).number = s.number + 1 := by
    rw [hone, next_number, hl]
  have htwo : (s.walk mockPrimitives [call, call]).number = s.number + 1 ∧
      (s.walk mockPrimitives [call, call]).hash = (s.walk mockPrimitives [call]).hash := by
    have hrun : s.walk mockPrimitives [call, call] =
        (step mockPrimitives (s.walk mockPrimitives [call]) call).2 := walk_concat s [call] call
    rw [hrun]
    cases hr : (step mockPrimitives (s.walk mockPrimitives [call]) call).1 with
    | ok signer' =>
      obtain ⟨l', b', milli', -, hacc, -⟩ := step_ok hr
      have hsame := Except.ok.inj (hread.symm.trans hacc.link.number)
      rw [hacc.link.number_eq habove, hup] at hsame
      omega
    | error err =>
      rcases step_error hr with hs | hs <;> rw [hs] <;> exact ⟨hup, rfl⟩
  have hcalls : ∀ calls : List (RpcBlockHeader × ℕ), calls ⊆ [call] →
      Unwrapped mockPrimitives s calls ∧ Allocated calls := by
    intro calls hsub
    refine ⟨.of_calls fun c hc => ?_, fun c hc => ?_⟩ <;> rw [List.mem_singleton.mp (hsub hc)]
    · exact habove
    · exact hsize
  obtain ⟨hunwrapped, halloc⟩ := hcalls [call] (by simp)
  obtain ⟨hunwrapped', halloc'⟩ := hcalls [call, call] (by simp)
  exact ⟨s, call, hup, tip_determines_state hunwrapped hunwrapped' halloc halloc'
    (hup.trans htwo.1.symm) htwo.2.symm⟩

end Snapshot

end HeliosBsc
