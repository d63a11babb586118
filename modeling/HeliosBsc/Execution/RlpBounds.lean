import HeliosBsc.Execution.RlpCanonical

/-!
# The reader stays inside its input

The functions of `execution/src/rlp.rs` once more, with the two operations of the language that
can panic: `split_at` beyond the end of a slice and an index out of range. The reader guards each
of them, so it panics on no input and returns what `decode` returns.
-/

namespace HeliosBsc

open Checked

/-- A computation that returns, is refused, or panics (`none`). -/
abbrev Panicking := ExceptT RlpError Option

namespace Panicking

/-- A step that cannot panic. -/
def ofExcept {α : Type} (x : Except RlpError α) : Panicking α := ExceptT.mk (some x)

/-- `slice.split_at(n)`. -/
def splitAt (b : Bytes) (n : ℕ) : Panicking (Bytes × Bytes) :=
  ExceptT.lift (if n ≤ b.length then some (b.take n, b.drop n) else none)

/-- `slice[i]`. -/
def byteAt (b : Bytes) (i : ℕ) : Panicking UInt8 := ExceptT.lift b[i]?

/-- `be_len`. -/
def beLen (b : Bytes) : Panicking ℕ := do
  if b = [] then throw .invalid
  else
    let first ← byteAt b 0
    if first = 0 ∧ 1 < b.length then throw .invalid
    else ofExcept (b.foldlM beLenStep 0)

/-- The payload announced by a long-form prefix. -/
def splitLong (ll : ℕ) (rest : Bytes) : Panicking (Bytes × Bytes) := do
  if rest.length < ll then throw .truncated
  else
    let (lb, after) ← splitAt rest ll
    let len ← beLen lb
    if len ≤ 55 then throw .nonCanonical
    else if after.length < len then throw .truncated
    else splitAt after len

/-- The prefix dispatch of `decode_one`. -/
def splitItem : Bytes → Panicking (Chunk × Bytes)
  | [] => throw .truncated
  | p :: rest =>
    if p.toNat ≤ 0x7f then do
      let (b, _) ← splitAt (p :: rest) 1
      return (.str b, rest)
    else if p.toNat ≤ 0xb7 then do
      let len := p.toNat - 0x80
      if rest.length < len then throw .truncated
      else
        let (b, tail) ← splitAt rest len
        if len = 1 then do
          let first ← byteAt b 0
          if first.toNat < 0x80 then throw .nonCanonical else return (.str b, tail)
        else return (.str b, tail)
    else if p.toNat ≤ 0xbf then do
      let (b, tail) ← splitLong (p.toNat - 0xb7) rest
      return (.str b, tail)
    else if p.toNat ≤ 0xf7 then do
      let len := p.toNat - 0xc0
      if rest.length < len then throw .truncated
      else
        let (payload, tail) ← splitAt rest len
        return (.list payload, tail)
    else do
      let (payload, tail) ← splitLong (p.toNat - 0xf7) rest
      return (.list payload, tail)

/-! ## No step panics -/

section

variable {α β : Type}

@[simp] theorem run_ofExcept (x : Except RlpError α) : (ofExcept x).run = some x := rfl

@[simp] theorem ofExcept_bind_ok (a : α) (f : α → Panicking β) : (ofExcept (.ok a) >>= f) = f a := rfl

theorem throw_eq (e : RlpError) : (throw e : Panicking α) = ofExcept (.error e) := rfl

theorem pure_eq (a : α) : (pure a : Panicking α) = ofExcept (.ok a) := ExceptT.ext rfl

theorem splitAt_of_le {b : Bytes} {n : ℕ} (h : n ≤ b.length) :
    splitAt b n = ofExcept (.ok (b.take n, b.drop n)) := by
  unfold splitAt
  rw [if_pos h]
  rfl

theorem byteAt_cons (x : UInt8) (b : Bytes) : byteAt (x :: b) 0 = ofExcept (.ok x) := rfl

end

theorem beLen_eq (b : Bytes) : beLen b = ofExcept (HeliosBsc.beLen b) := by
  unfold beLen HeliosBsc.beLen
  cases b with
  | nil => rfl
  | cons x t =>
    rw [if_neg (by simp), byteAt_cons, ofExcept_bind_ok]
    have hpad : (x :: t = [] ∨ (x :: t).head? = some 0 ∧ 1 < (x :: t).length) ↔
        x = 0 ∧ 1 < (x :: t).length := by simp
    by_cases h : x = 0 ∧ 1 < (x :: t).length
    · rw [if_pos h, require_of_not (not_not.mpr (hpad.mpr h))]
      rfl
    · rw [if_neg h, require_of (mt hpad.mp h)]
      rfl

theorem splitLong_eq (ll : ℕ) (rest : Bytes) :
    splitLong ll rest = ofExcept (HeliosBsc.splitLong ll rest) := by
  unfold splitLong HeliosBsc.splitLong
  by_cases hll : rest.length < ll
  · rw [if_pos hll, require_of_not (by omega)]
    rfl
  rw [if_neg hll, require_of (by omega), splitAt_of_le (by omega), ofExcept_bind_ok]
  simp only [ok_bind, beLen_eq]
  cases HeliosBsc.beLen (rest.take ll) with
  | error e => rfl
  | ok len =>
    rw [ofExcept_bind_ok, ok_bind]
    by_cases h55 : len ≤ 55
    · rw [if_pos h55, require_of_not (by omega)]
      rfl
    rw [if_neg h55, require_of (by omega), ok_bind]
    by_cases hlen : (rest.drop ll).length < len
    · rw [if_pos hlen, require_of_not (by omega)]
      rfl
    · rw [if_neg hlen, require_of (by omega), splitAt_of_le (by omega)]
      rfl

theorem splitItem_eq (input : Bytes) :
    splitItem input = ofExcept (HeliosBsc.splitItem input) := by
  cases input with
  | nil => rfl
  | cons p rest =>
    simp only [splitItem, HeliosBsc.splitItem]
    split_ifs with h7f hb7 hlen hone hbf hf7 hlen
    · rw [splitAt_of_le (by simp), ofExcept_bind_ok]
      rfl
    · rw [require_of_not (by omega)]
      rfl
    · rw [require_of (by omega), splitAt_of_le (by omega), ofExcept_bind_ok, ok_bind]
      cases rest with
      | nil => simp [hone] at hlen
      | cons x t =>
        simp only [hone, List.take_succ_cons, byteAt_cons, ofExcept_bind_ok]
        by_cases hx : x.toNat < 0x80
        · rw [if_pos hx, require_of_not (by simpa using hx), error_bind, throw_eq]
        · rw [if_neg hx, require_of (by simpa using hx)]
          simp only [ok_bind, pure_eq_ok, pure_eq]
    · have hcanon : ¬ (p.toNat - 0x80 = 1 ∧ ∃ x ∈ rest.head?, x.toNat < 0x80) :=
        fun h => hone h.1
      rw [require_of (by omega), splitAt_of_le (by omega), ofExcept_bind_ok, require_of hcanon]
      simp only [ok_bind, pure_eq_ok, pure_eq]
    · rw [splitLong_eq]
      cases HeliosBsc.splitLong (p.toNat - 0xb7) rest <;> rfl
    · rw [require_of_not (by omega)]
      rfl
    · rw [require_of (by omega), splitAt_of_le (by omega), ofExcept_bind_ok]
      simp only [ok_bind, pure_eq_ok, pure_eq]
    · rw [splitLong_eq]
      cases HeliosBsc.splitLong (p.toNat - 0xf7) rest <;> rfl

/-! ## Lists -/

/-- The loop of `decode_list`. -/
def decodeItems (payload : Bytes) (depth : ℕ) : Panicking (List Rlp) :=
  if payload.isEmpty then pure []
  else
    match _h : (splitItem payload).run with
    | none => ExceptT.mk none
    | some (.error e) => throw e
    | some (.ok (.str b, tail)) => do
      let items ← decodeItems tail depth
      return .bytes b :: items
    | some (.ok (.list inner, tail)) => do
      if maxRlpDepth < depth + 1 then throw .tooDeep
      else
        let sub ← decodeItems inner (depth + 1)
        let items ← decodeItems tail depth
        return .list sub :: items
termination_by payload.length
decreasing_by
  · rw [splitItem_eq, run_ofExcept, Option.some.injEq] at _h
    exact (splitItem_length _h).2.1
  · rw [splitItem_eq, run_ofExcept, Option.some.injEq] at _h
    exact (splitItem_length _h).2.2 _ rfl
  · rw [splitItem_eq, run_ofExcept, Option.some.injEq] at _h
    exact (splitItem_length _h).2.1

/-- `decode_list`. -/
def decodeList (payload : Bytes) (depth : ℕ) : Panicking (List Rlp) := do
  if maxRlpDepth < depth then throw .tooDeep else decodeItems payload depth

/-- `decode_one`. -/
def decodeOne (input : Bytes) (depth : ℕ) : Panicking (Rlp × Bytes) := do
  match ← splitItem input with
  | (.str b, tail) => return (.bytes b, tail)
  | (.list payload, tail) => return (.list (← decodeList payload (depth + 1)), tail)

/-- `decode`. -/
def decode (input : Bytes) : Panicking Rlp := do
  let (item, rest) ← decodeOne input 0
  if rest = [] then return item else throw .trailing

theorem decodeItems_split {payload : Bytes} (depth : ℕ) (h : ¬ payload.isEmpty = true) :
    decodeItems payload depth =
      match HeliosBsc.splitItem payload with
      | .error e => throw e
      | .ok (.str b, tail) => do
        let items ← decodeItems tail depth
        return .bytes b :: items
      | .ok (.list inner, tail) => do
        if maxRlpDepth < depth + 1 then throw .tooDeep
        else
          let sub ← decodeItems inner (depth + 1)
          let items ← decodeItems tail depth
          return .list sub :: items := by
  have hrun : (splitItem payload).run = some (HeliosBsc.splitItem payload) := by
    rw [splitItem_eq, run_ofExcept]
  rw [decodeItems, if_neg h]
  split
  · next hs => exact absurd (hrun.symm.trans hs) (Option.some_ne_none _)
  · next e hs => rw [Option.some.inj (hrun.symm.trans hs)]
  · next b tail hs => rw [Option.some.inj (hrun.symm.trans hs)]
  · next inner tail hs => rw [Option.some.inj (hrun.symm.trans hs)]

theorem decodeItems_eq (payload : Bytes) (depth : ℕ) :
    decodeItems payload depth = ofExcept (HeliosBsc.decodeItems payload depth) := by
  induction payload, depth using HeliosBsc.decodeItems.induct with
  | case1 payload depth h =>
    rw [decodeItems, HeliosBsc.decodeItems, if_pos h, if_pos h]
    rfl
  | case2 payload depth h e hs =>
    have hstep := decodeItems_step payload depth (by simpa using h)
    rw [decodeItems_split depth h, hstep, HeliosBsc.decodeOne, hs]
    rfl
  | case3 payload depth h b tail hs ih =>
    have hstep := decodeItems_step payload depth (by simpa using h)
    rw [decodeItems_split depth h, hstep, HeliosBsc.decodeOne, hs]
    simp only [ih, ok_bind, pure_eq_ok]
    cases HeliosBsc.decodeItems tail depth <;> rfl
  | case4 payload depth h inner tail hs ih₁ ih₂ =>
    have hstep := decodeItems_step payload depth (by simpa using h)
    rw [decodeItems_split depth h, hstep, HeliosBsc.decodeOne, hs]
    simp only [HeliosBsc.decodeList, ok_bind, pure_eq_ok]
    by_cases hdeep : maxRlpDepth < depth + 1
    · rw [if_pos hdeep, require_of_not (by omega)]
      rfl
    · rw [if_neg hdeep, require_of (by omega), ok_bind, ih₁, ih₂]
      cases HeliosBsc.decodeItems inner (depth + 1) with
      | error e => rfl
      | ok sub =>
        simp only [ofExcept_bind_ok, ok_bind]
        cases HeliosBsc.decodeItems tail depth <;> rfl

theorem decodeList_eq (payload : Bytes) (depth : ℕ) :
    decodeList payload depth = ofExcept (HeliosBsc.decodeList payload depth) := by
  unfold decodeList HeliosBsc.decodeList
  by_cases hdeep : maxRlpDepth < depth
  · rw [if_pos hdeep, require_of_not (by omega)]
    rfl
  · rw [if_neg hdeep, require_of (by omega), ok_bind, decodeItems_eq]

/-- The reader panics on no input. -/
theorem decode_eq (input : Bytes) : decode input = ofExcept (HeliosBsc.decode input) := by
  unfold decode HeliosBsc.decode decodeOne HeliosBsc.decodeOne
  rw [splitItem_eq]
  cases HeliosBsc.splitItem input with
  | error e => rfl
  | ok r =>
    obtain ⟨c, tail⟩ := r
    cases c with
    | str b =>
      simp only [ofExcept_bind_ok, ok_bind, pure_eq, pure_eq_ok]
      by_cases ht : tail = []
      · rw [if_pos ht, require_of ht]
        rfl
      · rw [if_neg ht, require_of_not ht]
        rfl
    | list payload =>
      simp only [ofExcept_bind_ok, ok_bind, pure_eq, pure_eq_ok, decodeList_eq]
      cases HeliosBsc.decodeList payload (0 + 1) with
      | error e => rfl
      | ok items =>
        simp only [ofExcept_bind_ok, ok_bind]
        by_cases ht : tail = []
        · rw [if_pos ht, require_of ht]
          rfl
        · rw [if_neg ht, require_of_not ht]
          rfl

end Panicking

/-- What is accepted re-encodes to the bytes read; every tree of bounded nesting whose encoding fits
a 64-bit length is read back from its encoding; and the reader returns on every input without
leaving it. -/
theorem rlp_canonical_bijection :
    (∀ (b : Bytes) (x : Rlp), decode b = .ok x → encodeRlp x = b) ∧
    (∀ x : Rlp, x.depth ≤ maxRlpDepth → (encodeRlp x).length < u64Size →
      decode (encodeRlp x) = .ok x) ∧
    ∀ b : Bytes, (Panicking.decode b).run = some (decode b) := by
  refine ⟨fun b x h => encodeRlp_of_decode h, fun x hdepth hfit => decode_encodeRlp hfit hdepth,
    fun b => ?_⟩
  rw [Panicking.decode_eq, Panicking.run_ofExcept]

end HeliosBsc
