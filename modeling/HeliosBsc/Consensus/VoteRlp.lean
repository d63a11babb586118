import HeliosBsc.Consensus.VoteCodec
import HeliosBsc.Execution.RlpCanonical

/-!
# The two RLP readers agree

The reader of attestations in `vote.rs` and the reader of `rlp.rs` were written apart: one checks
its length arithmetic by multiplication, the other by shifts; one refuses every leading zero, the
other only a padded one; one counts levels down, the other up. On every string the first accepts
exactly the trees of at most two list levels that the second accepts.
-/

namespace HeliosBsc

open Checked BigEndian

/-! ## One item -/

theorem splitLong_of_longLen {ll len : ℕ} {buf rest payload tail : Bytes} (hll : ll ≤ 8)
    (hlong : longLen buf ll = .ok (len, rest)) (htake : voteTake rest len = .ok (payload, tail)) :
    splitLong ll buf = .ok (payload, tail) := by
  simp only [longLen, bind_eq_ok, Prod.exists, require_eq_ok, pure_eq_ok, Except.ok.injEq,
    Prod.mk.injEq, exists_const] at hlong
  obtain ⟨raw, after, hraw, hhead, n, hfold, h55, rfl, rfl⟩ := hlong
  obtain ⟨hbuf, rfl, rfl⟩ := voteTake_eq_ok.mp hraw
  obtain ⟨hlen, rfl, rfl⟩ := voteTake_eq_ok.mp htake
  have hval := value_lt_u64Size ((List.length_take_le ll buf).trans hll)
  rw [foldlM_longLenStep _ _ (by simpa using hval), Except.ok.injEq] at hfold
  have hpre : ¬ (buf.take ll = [] ∨
      (buf.take ll).head? = some 0 ∧ 1 < (buf.take ll).length) := by
    rintro (hnil | ⟨hzero, -⟩)
    · rw [hnil] at hfold
      simp at hfold
      omega
    · exact hhead hzero
  unfold splitLong beLen
  rw [require_of hbuf, require_of hpre, ok_bind, foldlM_beLenStep _ _ (by simpa using hval), hfold]
  simp only [ok_bind, require_of h55, require_of hlen, pure_eq_ok]

theorem splitItem_of_voteSplit {buf : Bytes} {r : Chunk × Bytes} (h : voteSplit buf = .ok r) :
    splitItem buf = .ok r := by
  cases buf with
  | nil => simp [voteSplit] at h
  | cons p tail =>
    have hp := p.toNat_lt
    simp only [voteSplit] at h
    simp only [splitItem]
    split_ifs at h ⊢
    · rw [Except.ok.injEq] at h ⊢
      exact h
    · simp only [bind_eq_ok, Prod.exists, require_eq_ok, exists_const, pure_eq_ok,
        Except.ok.injEq, voteTake_eq_ok] at h
      obtain ⟨payload, rest, ⟨hlen, hpayload, hrest⟩, hone, rfl⟩ := h
      rw [hpayload] at hone
      have hcanon : ¬ (p.toNat - 0x80 = 1 ∧ ∃ x ∈ tail.head?, x.toNat < 0x80) := by
        rintro ⟨hl, x, hx, hlt⟩
        refine hone ⟨hl, x, ?_, hlt⟩
        rw [hl]
        cases tail with
        | nil => simp at hx
        | cons y t => simpa using hx
      rw [require_of hlen, ok_bind, require_of hcanon, ok_bind, pure_eq_ok, hpayload, hrest]
    · simp only [bind_eq_ok, Prod.exists, pure_eq_ok, Except.ok.injEq] at h
      obtain ⟨len, after, hlong, payload, rest, htake, rfl⟩ := h
      rw [splitLong_of_longLen (by omega) hlong htake]
      rfl
    · simp only [bind_eq_ok, Prod.exists, pure_eq_ok, Except.ok.injEq, voteTake_eq_ok] at h
      obtain ⟨payload, rest, ⟨hlen, hpayload, hrest⟩, rfl⟩ := h
      rw [require_of hlen, ok_bind, pure_eq_ok, hpayload, hrest]
    · simp only [bind_eq_ok, Prod.exists, pure_eq_ok, Except.ok.injEq] at h
      obtain ⟨len, after, hlong, payload, rest, htake, rfl⟩ := h
      rw [splitLong_of_longLen (by omega) hlong htake]
      rfl

theorem voteSplit_eq_ok_iff {buf : Bytes} {r : Chunk × Bytes} :
    voteSplit buf = .ok r ↔ splitItem buf = .ok r :=
  ⟨splitItem_of_voteSplit, voteSplit_of_splitItem⟩

/-! ## Lists -/

theorem readItems_eq_ok_iff {inner : Bytes → Except VoteError (List Rlp)} {payload : Bytes}
    {items : List Rlp} (hne : payload ≠ []) :
    readItems inner payload = .ok items ↔
      (∃ b tail rest, splitItem payload = .ok (.str b, tail) ∧ readItems inner tail = .ok rest ∧
        .bytes b :: rest = items) ∨
      ∃ p tail sub rest, splitItem payload = .ok (.list p, tail) ∧ inner p = .ok sub ∧
        readItems inner tail = .ok rest ∧ .list sub :: rest = items := by
  rw [readItems, if_neg hne]
  split
  · next e hs =>
    constructor
    · rintro ⟨⟩
    rintro (⟨b, tail, rest, hb, -⟩ | ⟨p, tail, sub, rest, hp, -⟩)
    · rw [← voteSplit_eq_ok_iff, hs] at hb
      cases hb
    · rw [← voteSplit_eq_ok_iff, hs] at hp
      cases hp
  · next b tail hs =>
    rw [voteSplit_eq_ok_iff] at hs
    simp [hs]
  · next p tail hs =>
    rw [voteSplit_eq_ok_iff] at hs
    simp [hs]

theorem decodeItems_eq_ok_iff {payload : Bytes} {depth : ℕ} {items : List Rlp}
    (hne : payload ≠ []) :
    decodeItems payload depth = .ok items ↔
      (∃ b tail rest, splitItem payload = .ok (.str b, tail) ∧ decodeItems tail depth = .ok rest ∧
        .bytes b :: rest = items) ∨
      ∃ p tail sub rest, splitItem payload = .ok (.list p, tail) ∧ depth + 1 ≤ maxRlpDepth ∧
        decodeItems p (depth + 1) = .ok sub ∧ decodeItems tail depth = .ok rest ∧
        .list sub :: rest = items := by
  rw [decodeItems_step payload depth hne]
  unfold decodeOne decodeList
  cases hs : splitItem payload with
  | error e => simp
  | ok r =>
    obtain ⟨c, tail⟩ := r
    cases c with
    | str b => simp
    | list p => simp [and_assoc]

theorem Rlp.depth_list_le_iff {items : List Rlp} {n : ℕ} :
    (Rlp.list items).depth ≤ n + 1 ↔ ∀ x ∈ items, x.depth ≤ n := by
  constructor
  · intro h x hx
    have := Rlp.depth_lt hx
    omega
  · intro h
    rw [Rlp.depth_list]
    have := foldr_max_le (l := items.map Rlp.depth) (b := n) (by simpa using h)
    omega

/-- If the readers of list payloads agree up to some nesting, so do the loops one level up. -/
theorem readItems_agree {inner : Bytes → Except VoteError (List Rlp)} {levels depth : ℕ}
    (hinner : ∀ p sub, inner p = .ok sub ↔ depth + 1 ≤ maxRlpDepth ∧
      decodeItems p (depth + 1) = .ok sub ∧ (Rlp.list sub).depth ≤ levels)
    (n : ℕ) : ∀ (payload : Bytes) (items : List Rlp), payload.length ≤ n →
      (readItems inner payload = .ok items ↔
        decodeItems payload depth = .ok items ∧ ∀ x ∈ items, x.depth ≤ levels) := by
  have hnil : ∀ items : List Rlp, readItems inner [] = .ok items ↔
      decodeItems [] depth = .ok items ∧ ∀ x ∈ items, x.depth ≤ levels := by
    intro items
    rw [readItems_nil, decodeItems_nil, Except.ok.injEq, Except.ok.injEq]
    exact ⟨fun h => ⟨h, by simp [← h]⟩, And.left⟩
  -- on the length of the payload: the rest after the first item is shorter
  induction n with
  | zero =>
    intro payload items hn
    obtain rfl := List.length_eq_zero_iff.mp (Nat.le_zero.mp hn)
    exact hnil items
  | succ n ih =>
    intro payload items hn
    by_cases hne : payload = []
    · subst hne
      exact hnil items
    rw [readItems_eq_ok_iff hne, decodeItems_eq_ok_iff hne]
    constructor
    · rintro (⟨b, tail, rest, hs, hrest, rfl⟩ | ⟨p, tail, sub, rest, hs, hsub, hrest, rfl⟩)
      · have hlt := (splitItem_length hs).2.1
        obtain ⟨hdec, hdepth⟩ := (ih tail rest (by omega)).mp hrest
        refine ⟨.inl ⟨b, tail, rest, hs, hdec, rfl⟩, List.forall_mem_cons.mpr ⟨?_, hdepth⟩⟩
        rw [Rlp.depth]
        exact Nat.zero_le _
      · have hlt := (splitItem_length hs).2.1
        obtain ⟨hdec, hdepth⟩ := (ih tail rest (by omega)).mp hrest
        obtain ⟨hcap, hdecsub, hlist⟩ := (hinner p sub).mp hsub
        exact ⟨.inr ⟨p, tail, sub, rest, hs, hcap, hdecsub, hdec, rfl⟩,
          List.forall_mem_cons.mpr ⟨hlist, hdepth⟩⟩
    · rintro ⟨⟨b, tail, rest, hs, hdec, rfl⟩ | ⟨p, tail, sub, rest, hs, hcap, hdecsub, hdec, rfl⟩,
        hdepth⟩
      · have hlt := (splitItem_length hs).2.1
        have hrest := (ih tail rest (by omega)).mpr ⟨hdec, (List.forall_mem_cons.mp hdepth).2⟩
        exact .inl ⟨b, tail, rest, hs, hrest, rfl⟩
      · have hlt := (splitItem_length hs).2.1
        obtain ⟨hlist, htail⟩ := List.forall_mem_cons.mp hdepth
        have hrest := (ih tail rest (by omega)).mpr ⟨hdec, htail⟩
        exact .inr ⟨p, tail, sub, rest, hs, (hinner p sub).mpr ⟨hcap, hdecsub, hlist⟩, hrest, rfl⟩

/-- With `levels` levels left the vote decoder reads the lists of at most that nesting. -/
theorem decodeVoteList_eq_ok_iff (levels : ℕ) : ∀ (depth : ℕ) (payload : Bytes) (items : List Rlp),
    depth + levels ≤ maxRlpDepth →
      (decodeVoteList levels payload = .ok items ↔ 0 < levels ∧
        decodeItems payload depth = .ok items ∧ (Rlp.list items).depth ≤ levels) := by
  induction levels with
  | zero => simp [decodeVoteList]
  | succ levels ih =>
    intro depth payload items hcap
    rw [decodeVoteList, Rlp.depth_list_le_iff]
    have hinner : ∀ p sub, decodeVoteList levels p = .ok sub ↔ depth + 1 ≤ maxRlpDepth ∧
        decodeItems p (depth + 1) = .ok sub ∧ (Rlp.list sub).depth ≤ levels := by
      intro p sub
      rw [ih (depth + 1) p sub (by omega)]
      constructor
      · rintro ⟨hpos, h⟩
        exact ⟨by omega, h⟩
      · rintro ⟨-, hdec, hdepth⟩
        refine ⟨?_, hdec, hdepth⟩
        rw [Rlp.depth_list] at hdepth
        omega
    rw [readItems_agree hinner payload.length payload items le_rfl]
    simp

/-- The vote decoder accepts exactly the trees of at most two list levels that `decode` accepts,
and reads them as `decode` does. -/
theorem decodeTop_eq_ok_iff_decode (b : Bytes) (x : Rlp) :
    decodeTop b = .ok x ↔ decode b = .ok x ∧ x.depth ≤ maxVoteRlpDepth := by
  unfold decodeTop decode decodeOne
  cases hs : splitItem b with
  | error e =>
    have hvote : ∀ r, voteSplit b ≠ .ok r := fun r hr => by
      rw [voteSplit_eq_ok_iff, hs] at hr
      cases hr
    cases hv : voteSplit b with
    | error e' => simp
    | ok r => exact absurd hv (hvote r)
  | ok r =>
    obtain ⟨c, tail⟩ := r
    rw [voteSplit_eq_ok_iff.mpr hs]
    cases c with
    | str payload =>
      simp only [ok_bind, pure_eq_ok, bind_eq_ok, require_eq_ok, Except.ok.injEq, exists_const]
      constructor
      · rintro ⟨htail, rfl⟩
        refine ⟨⟨htail, rfl⟩, ?_⟩
        rw [Rlp.depth]
        exact Nat.zero_le _
      · exact And.left
    | list payload =>
      have hlist := fun items =>
        decodeVoteList_eq_ok_iff maxVoteRlpDepth 1 payload items (by decide)
      have hone : 0 + 1 ≤ maxRlpDepth := by decide
      have htwo : 0 < maxVoteRlpDepth := by decide
      simp only [ok_bind, pure_eq_ok, bind_eq_ok, require_eq_ok, Except.ok.injEq, exists_const,
        map_eq_ok, hlist, decodeList, require_of hone, htwo, true_and]
      constructor
      · rintro ⟨item, ⟨items, ⟨hdec, hdepth⟩, rfl⟩, htail, rfl⟩
        exact ⟨⟨(.list items, tail), ⟨items, hdec, rfl⟩, htail, rfl⟩, hdepth⟩
      · rintro ⟨⟨pair, ⟨items, hdec, rfl⟩, htail, rfl⟩, hdepth⟩
        exact ⟨.list items, ⟨items, ⟨hdec, hdepth⟩, rfl⟩, htail, rfl⟩

end HeliosBsc
