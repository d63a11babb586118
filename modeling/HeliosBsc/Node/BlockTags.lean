import HeliosBsc.Node.Logs
import Mathlib.Data.Nat.Digits.Defs

/-!
# Block tags

`crates/helios-bsc-rpc/src/wire.rs` reads the block tag of `eth_getBlockByNumber`;
`log_filter_block_number` reads the bounds of `eth_getLogs` and of the log filters. Both follow the
same names and the safe hash. A height is read by `parse_hex_u64` in the one and by `decode_u64`,
behind a test for 32 bytes, in the other.
-/

namespace HeliosBsc

open Checked

/-- `BlockId`. -/
inductive BlockId
  | safe
  | number (n : ℕ)
  deriving DecidableEq

/-- `parse_hex_u64`. -/
def Wire.parseHexU64 (t : String) : Option ℕ :=
  if hexMarked t then
    let digits := strip0x t.toList
    if digits.isEmpty || !digits.all fun c => (hexDigitValue c).isSome then none
    else (fromStrRadix16 digits).toOption
  else none

/-- `wallet_block_number_allowed`. -/
def walletBlockNumberAllowed (tag : Option String) (safe : SafeHead) : Option BlockId :=
  match tag with
  | none => some .safe
  | some t =>
    if t ∈ ["", "latest", "safe", "finalized"] then some .safe
    else if t ∈ ["pending", "earliest"] then none
    else if eqIgnoreAsciiCase t safe.hash then some .safe
    else if hexMarked t then
      (Wire.parseHexU64 t).bind fun n => if n ≤ safe.number then some (.number n) else none
    else none

/-- `wallet_get_block_by_number`. -/
def walletGetBlockByNumber (tag : Option String) (safe : SafeHead) (chain : List VerifiedBlock) :
    Option VerifiedBlock :=
  match walletBlockNumberAllowed tag safe with
  | none => none
  | some .safe => chain.find? fun b => b.number == safe.number
  | some (.number n) => chain.find? fun b => b.number == n

/-! ## What the hexadecimal readers accept -/

/-- The digits, at least one and nothing else among them, spell `n`. -/
def SpellsHeight (digits : List Char) (n : ℕ) : Prop :=
  digits ≠ [] ∧ ∃ ds, digits.mapM hexDigitValue = some ds ∧ Nat.ofDigits 16 ds.reverse = n

theorem mapM_hexDigitValue_cons {c : Char} {cs : List Char} {ds : List ℕ} :
    (c :: cs).mapM hexDigitValue = some ds ↔
      ∃ d ds', hexDigitValue c = some d ∧ cs.mapM hexDigitValue = some ds' ∧ ds = d :: ds' := by
  simp only [List.mapM_cons, Option.bind_eq_bind, Option.bind_eq_some_iff, Option.pure_def,
    Option.some.injEq]
  constructor
  · rintro ⟨d, hd, ds', hds, rfl⟩
    exact ⟨d, ds', hd, hds, rfl⟩
  · rintro ⟨d, ds', hd, hds, rfl⟩
    exact ⟨d, hd, ds', hds, rfl⟩

theorem mapM_hexDigitValue_isSome {cs : List Char} :
    (∃ ds, cs.mapM hexDigitValue = some ds) ↔ ∀ c ∈ cs, (hexDigitValue c).isSome = true := by
  induction cs with
  | nil => simp
  | cons c cs ih =>
    rw [List.forall_mem_cons, ← ih, Option.isSome_iff_exists]
    simp only [mapM_hexDigitValue_cons]
    constructor
    · rintro ⟨-, d, ds', hd, hds, -⟩
      exact ⟨⟨d, hd⟩, ds', hds⟩
    · rintro ⟨⟨d, hd⟩, ds', hds⟩
      exact ⟨_, d, ds', hd, hds, rfl⟩

theorem parseHexU64_eq_ok {cs : List Char} {acc n : ℕ} (hacc : acc < u64Size) :
    parseHexU64 cs acc = .ok n ↔ ∃ ds, cs.mapM hexDigitValue = some ds ∧
      acc * 16 ^ ds.length + Nat.ofDigits 16 ds.reverse = n ∧ n < u64Size := by
  induction cs generalizing acc with
  | nil =>
    simp only [parseHexU64, Except.ok.injEq, List.mapM_nil, Option.pure_def, Option.some.injEq,
      exists_eq_left', List.length_nil, pow_zero, mul_one, List.reverse_nil, Nat.ofDigits_nil,
      add_zero]
    constructor
    · rintro rfl
      exact ⟨rfl, hacc⟩
    · exact And.left
  | cons c cs ih =>
    have hvalue (d : ℕ) (ds : List ℕ) : acc * 16 ^ (d :: ds).length +
        Nat.ofDigits 16 (d :: ds).reverse =
        (16 * acc + d) * 16 ^ ds.length + Nat.ofDigits 16 ds.reverse := by
      rw [List.reverse_cons, Nat.ofDigits_append, Nat.ofDigits_singleton, List.length_reverse,
        List.length_cons]
      ring
    rw [parseHexU64]
    cases hc : hexDigitValue c with
    | none => simp [hc]
    | some d =>
      simp only
      by_cases hfits : 16 * acc + d < u64Size
      · rw [if_pos hfits, ih hfits]
        constructor
        · rintro ⟨ds, hds, hn, hlt⟩
          exact ⟨d :: ds, mapM_hexDigitValue_cons.mpr ⟨d, ds, hc, hds, rfl⟩,
            (hvalue d ds).trans hn, hlt⟩
        · rintro ⟨ds, hds, hn, hlt⟩
          obtain ⟨d', ds', hd', hds', rfl⟩ := mapM_hexDigitValue_cons.mp hds
          obtain rfl : d = d' := Option.some.inj (hc.symm.trans hd')
          exact ⟨ds', hds', (hvalue d ds').symm.trans hn, hlt⟩
      · rw [if_neg hfits]
        -- What has overflowed only grows.
        refine iff_of_false (by simp) ?_
        rintro ⟨ds, hds, hn, hlt⟩
        obtain ⟨d', ds', hd', hds', rfl⟩ := mapM_hexDigitValue_cons.mp hds
        obtain rfl : d = d' := Option.some.inj (hc.symm.trans hd')
        have hgrow : 16 * acc + d ≤ (16 * acc + d) * 16 ^ ds'.length :=
          Nat.le_mul_of_pos_right _ (by positivity)
        have hn' := (hvalue d ds').symm.trans hn
        omega

theorem hexDigitValue_plus : hexDigitValue '+' = none := by decide

theorem SpellsHeight.head_ne_plus {rest : List Char} {n : ℕ} : ¬ SpellsHeight ('+' :: rest) n := by
  rintro ⟨-, ds, hds, -⟩
  obtain ⟨d, -, hd, -⟩ := mapM_hexDigitValue_cons.mp hds
  rw [hexDigitValue_plus] at hd
  cases hd

theorem parseHexU64_zero_eq_ok {cs : List Char} {n : ℕ} (hcs : cs ≠ []) :
    parseHexU64 cs 0 = .ok n ↔ SpellsHeight cs n ∧ n < u64Size := by
  rw [parseHexU64_eq_ok u64Size_pos]
  simp only [zero_mul, zero_add, SpellsHeight, hcs, ne_eq, not_false_eq_true, true_and]
  constructor
  · rintro ⟨ds, hds, hn, hlt⟩
    exact ⟨⟨ds, hds, hn⟩, hlt⟩
  · rintro ⟨⟨ds, hds, hn⟩, hlt⟩
    exact ⟨ds, hds, hn, hlt⟩

theorem SpellsHeight.isSome {cs : List Char} {n : ℕ} (h : SpellsHeight cs n) :
    ∀ c ∈ cs, (hexDigitValue c).isSome = true := by
  obtain ⟨-, ds, hds, -⟩ := h
  exact mapM_hexDigitValue_isSome.mp ⟨ds, hds⟩

theorem SpellsHeight.exists_of_isSome {cs : List Char} (hcs : cs ≠ [])
    (h : ∀ c ∈ cs, (hexDigitValue c).isSome = true) : ∃ n, SpellsHeight cs n := by
  obtain ⟨ds, hds⟩ := mapM_hexDigitValue_isSome.mpr h
  exact ⟨_, hcs, ds, hds, rfl⟩

theorem SpellsHeight.unique {cs : List Char} {n m : ℕ} (hn : SpellsHeight cs n)
    (hm : SpellsHeight cs m) : n = m := by
  obtain ⟨-, ds, hds, rfl⟩ := hn
  obtain ⟨-, ds', hds', rfl⟩ := hm
  obtain rfl : ds = ds' := Option.some.inj (hds.symm.trans hds')
  rfl

theorem fromStrRadix16_of_spells {cs : List Char} {n m : ℕ} (hm : SpellsHeight cs m) :
    fromStrRadix16 cs = .ok n ↔ m = n ∧ n < u64Size := by
  have hplus : ∀ rest, cs ≠ '+' :: rest := by
    rintro rest rfl
    exact SpellsHeight.head_ne_plus hm
  rw [fromStrRadix16_of_head_ne_plus hplus, parseHexU64_zero_eq_ok hm.1]
  constructor
  · rintro ⟨hn, hlt⟩
    exact ⟨hm.unique hn, hlt⟩
  · rintro ⟨rfl, hlt⟩
    exact ⟨hm, hlt⟩

/-- What the radix reader accepts: digits, with or without a `+` before them. -/
theorem fromStrRadix16_eq_ok {cs : List Char} {n : ℕ} (hcs : cs ≠ []) :
    fromStrRadix16 cs = .ok n ↔
      (SpellsHeight cs n ∨ ∃ rest, cs = '+' :: rest ∧ SpellsHeight rest n) ∧ n < u64Size := by
  by_cases hplus : ∃ rest, cs = '+' :: rest
  · obtain ⟨rest, rfl⟩ := hplus
    simp only [SpellsHeight.head_ne_plus, false_or, List.cons.injEq, true_and, exists_eq_left']
    by_cases hrest : rest = []
    · subst hrest
      refine iff_of_false ?_ fun h => h.1.1 rfl
      rw [fromStrRadix16]
      exact nofun
    · rw [show fromStrRadix16 ('+' :: rest) = parseHexU64 rest 0 by
        cases rest with
        | nil => exact absurd rfl hrest
        | cons c cs => rfl]
      exact parseHexU64_zero_eq_ok hrest
  · rw [fromStrRadix16_of_head_ne_plus fun rest h => hplus ⟨rest, h⟩, parseHexU64_zero_eq_ok hcs]
    have hno : ¬ ∃ rest, cs = '+' :: rest ∧ SpellsHeight rest n :=
      fun ⟨rest, h, _⟩ => hplus ⟨rest, h⟩
    simp only [hno, or_false]

theorem toOption_eq_some {ε α : Type} {x : Except ε α} {a : α} :
    x.toOption = some a ↔ x = .ok a := by
  cases x <;> simp [Except.toOption]

theorem Wire.parseHexU64_eq_some {t : String} {n : ℕ} (ht : hexMarked t = true) :
    Wire.parseHexU64 t = some n ↔ SpellsHeight (strip0x t.toList) n ∧ n < u64Size := by
  unfold Wire.parseHexU64
  simp only [ht, if_true]
  split_ifs with hbad
  · refine iff_of_false nofun ?_
    rintro ⟨h, -⟩
    rw [Bool.or_eq_true, List.isEmpty_iff, Bool.not_eq_true', List.all_eq_false] at hbad
    rcases hbad with hnil | ⟨c, hc, hdigit⟩
    · exact h.1 hnil
    · exact hdigit (h.isSome c hc)
  · rw [Bool.or_eq_true, List.isEmpty_iff, Bool.not_eq_true', not_or, Bool.not_eq_false,
      List.all_eq_true] at hbad
    obtain ⟨m, hm⟩ := SpellsHeight.exists_of_isSome hbad.1 hbad.2
    rw [toOption_eq_some, fromStrRadix16_of_spells hm]
    constructor
    · rintro ⟨rfl, hlt⟩
      exact ⟨hm, hlt⟩
    · rintro ⟨hn, hlt⟩
      exact ⟨hm.unique hn, hlt⟩

/-- `decode_u64` also reads no digits at all, as zero, and digits after a `+`. -/
theorem decodeU64_eq_ok {t : String} {n : ℕ} :
    decodeU64 t = .ok n ↔ strip0x t.toList = [] ∧ n = 0 ∨
      (SpellsHeight (strip0x t.toList) n ∨
        ∃ rest, strip0x t.toList = '+' :: rest ∧ SpellsHeight rest n) ∧ n < u64Size := by
  unfold decodeU64
  generalize strip0x t.toList = raw
  cases raw with
  | nil => simp [SpellsHeight, eq_comm]
  | cons c cs =>
    rw [← fromStrRadix16_eq_ok (List.cons_ne_nil c cs)]
    simp

theorem decodeHexDigits_isOk {k : ℕ} {cs : List Char} {i : ℕ}
    (hdigits : ∀ c ∈ cs, (hexDigitValue c).isSome = true) (hlength : cs.length = 2 * k) :
    ∃ b, decodeHexDigits cs i = .ok b := by
  induction cs, i using decodeHexDigits.induct generalizing k with
  | case1 i => exact ⟨[], rfl⟩
  | case2 c i =>
    rw [List.length_singleton] at hlength
    omega
  | case3 hi lo rest i ih =>
    simp only [List.forall_mem_cons, Option.isSome_iff_exists] at hdigits
    obtain ⟨⟨x, hx⟩, ⟨y, hy⟩, hrest⟩ := hdigits
    simp only [List.length_cons] at hlength
    obtain ⟨tail, htail⟩ := ih (k := k - 1)
      (fun c hc => Option.isSome_iff_exists.mpr (hrest c hc)) (by omega)
    refine ⟨UInt8.ofNat (16 * x + y) :: tail, ?_⟩
    simp only [decodeHexDigits, hexDigitAt_eq_ok.mpr hx, hexDigitAt_eq_ok.mpr hy, htail, ok_bind,
      pure_eq_ok]

theorem utf8Length_of_digits {cs : List Char}
    (h : ∀ c ∈ cs, (hexDigitValue c).isSome = true) : utf8Length cs = cs.length := by
  induction cs with
  | nil => rfl
  | cons c cs ih =>
    rw [List.forall_mem_cons, Option.isSome_iff_exists] at h
    obtain ⟨⟨d, hd⟩, hrest⟩ := h
    unfold utf8Length at ih ⊢
    rw [List.map_cons, List.sum_cons, utf8Size_of_hexDigit hd, ih hrest, List.length_cons]
    ring

theorem decodeHexFixed_isOk {k : ℕ} {t : String} :
    (∃ v, decodeHexFixed k t = .ok v) ↔ (strip0x t.toList).length = 2 * k ∧
      ∀ c ∈ strip0x t.toList, (hexDigitValue c).isSome = true := by
  constructor
  · rintro ⟨v, hv⟩
    unfold decodeHexFixed at hv
    obtain ⟨bytes, hbytes, hv⟩ := bind_eq_ok.mp hv
    simp only [decodeHex, bind_eq_ok] at hbytes
    obtain ⟨-, -, hbytes⟩ := hbytes
    split at hv
    · next hlength =>
      exact ⟨(length_decodeHexDigits hbytes).symm.trans (congrArg _ hlength),
        (digits_of_decodeHexDigits hbytes).1⟩
    · cases hv
  · rintro ⟨hlength, hdigits⟩
    obtain ⟨b, hb⟩ := decodeHexDigits_isOk (i := 0) hdigits hlength
    have hread : decodeHex t = .ok b := by
      unfold decodeHex
      simp only
      rw [require_of (by rw [utf8Length_of_digits hdigits]; omega), ok_bind, hb]
    have hk : b.length = k := by
      have := length_decodeHexDigits hb
      omega
    refine ⟨⟨b, hk⟩, ?_⟩
    unfold decodeHexFixed
    rw [hread, ok_bind, dif_pos hk]
    rfl

/-! ## The two readers -/

/-- Both readers take the tag for a height: it carries the mark and is not the safe hash. -/
def HeightTag (t : String) (safe : SafeHead) : Prop :=
  hexMarked t = true ∧ eqIgnoreAsciiCase t safe.hash = false

/-- The height tags that the two read apart: no digits, a `+` before the digits of a height that is
safe, and a height that is safe in the 64 digits of a hash. -/
def ReadApart (t : String) (safe : SafeHead) : Prop :=
  HeightTag t safe ∧ (strip0x t.toList = [] ∨
    (∃ rest n, strip0x t.toList = '+' :: rest ∧ SpellsHeight rest n ∧ n ≤ safe.number) ∨
    ∃ n, (strip0x t.toList).length = 64 ∧ SpellsHeight (strip0x t.toList) n ∧ n ≤ safe.number)

section

variable {t : String} {safe : SafeHead}

theorem HeightTag.notMem (h : HeightTag t safe) {tags : List String}
    (htags : ∀ s ∈ tags, hexMarked s = false) : t ∉ tags := by
  intro hmem
  have hmark := htags t hmem
  rw [h.1] at hmark
  cases hmark

theorem HeightTag.logFilterBlockNumber_eq_some (h : HeightTag t safe) {n : ℕ} :
    logFilterBlockNumber (some t) safe = some n ↔
      (¬ ∃ v, decodeHexFixed 32 t = .ok v) ∧ decodeU64 t = .ok n := by
  unfold logFilterBlockNumber
  simp only
  rw [if_neg (h.notMem (by decide)), if_neg (h.notMem (by decide)),
    if_neg (Bool.eq_false_iff.mp h.2), if_pos h.1]
  cases hv : decodeHexFixed 32 t with
  | ok v => simp
  | error e => simp [toOption_eq_some]

theorem HeightTag.walletBlockNumberAllowed_ne_safe (h : HeightTag t safe) :
    walletBlockNumberAllowed (some t) safe ≠ some .safe := by
  unfold walletBlockNumberAllowed
  simp only
  rw [if_neg (h.notMem (by decide)), if_neg (h.notMem (by decide)),
    if_neg (Bool.eq_false_iff.mp h.2), if_pos h.1]
  cases Wire.parseHexU64 t with
  | none => exact nofun
  | some n =>
    rw [Option.bind_some]
    split_ifs <;> exact nofun

theorem HeightTag.walletBlockNumberAllowed_eq_number (h : HeightTag t safe) {n : ℕ} :
    walletBlockNumberAllowed (some t) safe = some (.number n) ↔
      (SpellsHeight (strip0x t.toList) n ∧ n < u64Size) ∧ n ≤ safe.number := by
  rw [← Wire.parseHexU64_eq_some h.1]
  unfold walletBlockNumberAllowed
  simp only
  rw [if_neg (h.notMem (by decide)), if_neg (h.notMem (by decide)),
    if_neg (Bool.eq_false_iff.mp h.2), if_pos h.1]
  cases Wire.parseHexU64 t with
  | none => simp
  | some m =>
    simp only [Option.bind_some, Option.some.injEq]
    split_ifs with hm
    · simp only [Option.some.injEq, BlockId.number.injEq]
      constructor
      · rintro rfl
        exact ⟨rfl, hm⟩
      · exact And.left
    · refine iff_of_false nofun ?_
      rintro ⟨rfl, hn⟩
      exact hm hn

end

/-- At a height `n`: the log filter reads it, at or below the safe head, exactly when the wallet
does. -/
def TagsAgreeAt (tag : Option String) (safe : SafeHead) (n : ℕ) : Prop :=
  logFilterBlockNumber tag safe = some n ∧ n ≤ safe.number ↔
    walletBlockNumberAllowed tag safe = some .safe ∧ n = safe.number ∨
      walletBlockNumberAllowed tag safe = some (.number n)

/-- Tags that are not heights go through the same tests in both readers. -/
theorem tagsAgreeAt_of_not_heightTag {tag : Option String} {safe : SafeHead}
    (h : ∀ t, tag = some t → ¬ HeightTag t safe) (n : ℕ) : TagsAgreeAt tag safe n := by
  have hsafe : (some safe.number = some n ∧ n ≤ safe.number ↔
      some BlockId.safe = some BlockId.safe ∧ n = safe.number ∨
        some BlockId.safe = some (BlockId.number n)) := by
    constructor
    · rintro ⟨hn, -⟩
      exact .inl ⟨rfl, (Option.some.inj hn).symm⟩
    · rintro (⟨-, rfl⟩ | hn)
      · exact ⟨rfl, le_rfl⟩
      · cases hn
  unfold TagsAgreeAt logFilterBlockNumber walletBlockNumberAllowed
  cases tag with
  | none => exact hsafe
  | some t =>
    simp only
    split_ifs with hnamed hrefused hhash hmark
    · exact hsafe
    · simp
    · exact hsafe
    · exact absurd ⟨hmark, Bool.eq_false_iff.mpr hhash⟩ (h t rfl)
    · simp

section

variable {t : String} {safe : SafeHead}

/-- On a height tag the two agree on what is spelled, and differ by the sign, the empty spelling and
the hash length. -/
theorem HeightTag.tagsAgreeAt_iff (ht : HeightTag t safe) (hsafe : safe.number < u64Size) {n : ℕ} :
    TagsAgreeAt (some t) safe n ↔
      (((¬ ∃ v, decodeHexFixed 32 t = .ok v) ∧ decodeU64 t = .ok n) ∧ n ≤ safe.number ↔
        SpellsHeight (strip0x t.toList) n ∧ n ≤ safe.number) := by
  unfold TagsAgreeAt
  rw [ht.logFilterBlockNumber_eq_some, ht.walletBlockNumberAllowed_eq_number]
  simp only [ht.walletBlockNumberAllowed_ne_safe, false_and, false_or]
  have hfits : (SpellsHeight (strip0x t.toList) n ∧ n < u64Size) ∧ n ≤ safe.number ↔
      SpellsHeight (strip0x t.toList) n ∧ n ≤ safe.number := by
    constructor
    · rintro ⟨⟨hn, -⟩, hle⟩
      exact ⟨hn, hle⟩
    · rintro ⟨hn, hle⟩
      exact ⟨⟨hn, hle.trans_lt hsafe⟩, hle⟩
  rw [hfits]

theorem tagsAgreeAt_of_not_readApart (hsafe : safe.number < u64Size) (happart : ¬ ReadApart t safe)
    (n : ℕ) : TagsAgreeAt (some t) safe n := by
  by_cases ht : HeightTag t safe
  · rw [ht.tagsAgreeAt_iff hsafe]
    constructor
    · rintro ⟨⟨-, hn⟩, hle⟩
      rcases decodeU64_eq_ok.mp hn with ⟨hnil, -⟩ | ⟨hspelled | ⟨rest, hplus, hrest⟩, -⟩
      · exact absurd ⟨ht, .inl hnil⟩ happart
      · exact ⟨hspelled, hle⟩
      · exact absurd ⟨ht, .inr (.inl ⟨rest, n, hplus, hrest, hle⟩)⟩ happart
    · rintro ⟨hspelled, hle⟩
      have hread : decodeU64 t = .ok n :=
        decodeU64_eq_ok.mpr (.inr ⟨.inl hspelled, hle.trans_lt hsafe⟩)
      refine ⟨⟨fun hbytes => ?_, hread⟩, hle⟩
      have hlength := (decodeHexFixed_isOk.mp hbytes).1
      exact happart ⟨ht, .inr (.inr ⟨n, hlength, hspelled, hle⟩)⟩
  · exact tagsAgreeAt_of_not_heightTag (fun t' h => Option.some.inj h ▸ ht) n

/-- Each way of reading a tag apart shows at one height. -/
theorem exists_not_tagsAgreeAt (hsafe : safe.number < u64Size) (happart : ReadApart t safe) :
    ∃ n, ¬ TagsAgreeAt (some t) safe n := by
  obtain ⟨ht, hnil | ⟨rest, n, hplus, hrest, hle⟩ | ⟨n, hlength, hspelled, hle⟩⟩ := happart
  · refine ⟨0, fun hagree => ?_⟩
    rw [ht.tagsAgreeAt_iff hsafe, decodeHexFixed_isOk, decodeU64_eq_ok, hnil] at hagree
    exact (hagree.mp ⟨⟨fun h => absurd h.1 (by simp), .inl ⟨rfl, rfl⟩⟩, Nat.zero_le _⟩).1.1 rfl
  · refine ⟨n, fun hagree => ?_⟩
    rw [ht.tagsAgreeAt_iff hsafe, decodeHexFixed_isOk, decodeU64_eq_ok, hplus] at hagree
    refine SpellsHeight.head_ne_plus (hagree.mp ⟨⟨fun h => ?_, ?_⟩, hle⟩).1
    · have hsign := h.2 '+' List.mem_cons_self
      rw [hexDigitValue_plus] at hsign
      cases hsign
    · exact .inr ⟨.inr ⟨rest, rfl, hrest⟩, hle.trans_lt hsafe⟩
  · refine ⟨n, fun hagree => ?_⟩
    rw [ht.tagsAgreeAt_iff hsafe, decodeHexFixed_isOk] at hagree
    exact (hagree.mpr ⟨hspelled, hle⟩).1.1 ⟨hlength, hspelled.isSome⟩

end

/-- Where the readers agree, `eth_getBlockByNumber` looks for the height that a log filter starts
at, and for none where the filter is refused or starts above the safe head. -/
theorem walletGetBlockByNumber_of_tagsAgreeAt {tag : Option String} {safe : SafeHead}
    (h : ∀ n, TagsAgreeAt tag safe n) (chain : List VerifiedBlock) :
    walletGetBlockByNumber tag safe chain =
      ((logFilterBlockNumber tag safe).filter fun n => n ≤ safe.number).bind
        fun n => chain.find? fun b => b.number == n := by
  unfold walletGetBlockByNumber
  cases hid : walletBlockNumberAllowed tag safe with
  | none =>
    cases hn : logFilterBlockNumber tag safe with
    | none => rfl
    | some n =>
      have habove : ¬ n ≤ safe.number := by
        intro hle
        rcases (h n).mp ⟨hn, hle⟩ with ⟨hs, -⟩ | hs
        · cases hid.symm.trans hs
        · cases hid.symm.trans hs
      rw [Option.filter_some, if_neg (by simpa using habove)]
      rfl
  | some id =>
    cases id with
    | safe =>
      obtain ⟨hn, hle⟩ := (h safe.number).mpr (.inl ⟨hid, rfl⟩)
      rw [hn, Option.filter_some, if_pos (by simp)]
      rfl
    | number n =>
      obtain ⟨hn, hle⟩ := (h n).mpr (.inr hid)
      rw [hn, Option.filter_some, if_pos (by simpa using hle)]
      rfl

/-- The readers of block tags agree, and the methods look for the same block, on exactly the tags
that are not read apart. -/
theorem block_tags_agree_iff {safe : SafeHead} (hsafe : safe.number < u64Size)
    (tag : Option String) :
    ((∀ n, logFilterBlockNumber tag safe = some n ∧ n ≤ safe.number ↔
        walletBlockNumberAllowed tag safe = some .safe ∧ n = safe.number ∨
          walletBlockNumberAllowed tag safe = some (.number n)) ∧
      ∀ chain, walletGetBlockByNumber tag safe chain =
        ((logFilterBlockNumber tag safe).filter fun n => n ≤ safe.number).bind
          fun n => chain.find? fun b => b.number == n) ↔
      ∀ t, tag = some t → ¬ ReadApart t safe := by
  constructor
  · rintro ⟨hagree, -⟩ t rfl happart
    obtain ⟨n, hn⟩ := exists_not_tagsAgreeAt hsafe happart
    exact hn (hagree n)
  · intro h
    have hagree (n : ℕ) : TagsAgreeAt tag safe n := by
      cases tag with
      | none => exact tagsAgreeAt_of_not_heightTag (fun t ht => by cases ht) n
      | some t => exact tagsAgreeAt_of_not_readApart hsafe (h t rfl) n
    exact ⟨hagree, walletGetBlockByNumber_of_tagsAgreeAt hagree⟩

/-- A safe head at height 100. -/
def tagSample : SafeHead where
  number := 100
  hash := hexPrefixed (List.replicate 32 0xab)
  stateRoot := hexPrefixed (List.replicate 32 0xcd)
  distinctSealers := 8
  requiredSealers := 8

theorem tagSample_lt : tagSample.number < u64Size := by
  rw [u64Size_eq]
  decide

theorem eqIgnoreAsciiCase_tagSample {t : String} (h : t.toList.length ≠ 66) :
    eqIgnoreAsciiCase t tagSample.hash = false := by
  rw [Bool.eq_false_iff]
  intro heq
  unfold eqIgnoreAsciiCase tagSample hexPrefixed at heq
  have hlength := congrArg List.length (beq_iff_eq.mp heq)
  rw [List.length_map, List.length_map, String.toList_ofList, List.length_cons, List.length_cons,
    length_hexChars, List.length_replicate] at hlength
  exact h hlength

theorem block_tags_agree_iff_sample : tagSample.number < u64Size ∧
    ∀ chain, walletGetBlockByNumber (some "0x0000000a") tagSample chain =
      chain.find? fun b => b.number == 10 := by
  refine ⟨tagSample_lt, fun chain => ?_⟩
  have hdigits : strip0x "0x0000000a".toList = ['0', '0', '0', '0', '0', '0', '0', 'a'] := by decide
  have happart : ¬ ReadApart "0x0000000a" tagSample := by
    rintro ⟨-, h | ⟨rest, n, h, -⟩ | ⟨n, h, -⟩⟩
    · rw [hdigits] at h
      cases h
    · rw [hdigits] at h
      cases h
    · rw [hdigits] at h
      cases h
  have hread : logFilterBlockNumber (some "0x0000000a") tagSample = some 10 := by
    have ht : HeightTag "0x0000000a" tagSample :=
      ⟨by decide, eqIgnoreAsciiCase_tagSample (by decide)⟩
    have hspelled : SpellsHeight ['0', '0', '0', '0', '0', '0', '0', 'a'] 10 :=
      ⟨List.cons_ne_nil _ _, [0, 0, 0, 0, 0, 0, 0, 10], by decide, by decide⟩
    rw [ht.logFilterBlockNumber_eq_some, decodeHexFixed_isOk, decodeU64_eq_ok, hdigits, u64Size_eq]
    exact ⟨fun h => absurd h.1 (by decide), .inr ⟨.inl hspelled, by decide⟩⟩
  have hagree := (block_tags_agree_iff tagSample_lt (some "0x0000000a")).mpr
    fun t ht => Option.some.inj ht ▸ happart
  rw [hagree.2 chain, hread]
  rfl

/-- A bare mark is height zero to the log filters and malformed to `eth_getBlockByNumber`. -/
theorem block_tags_disagree : logFilterBlockNumber (some "0x") tagSample = some 0 ∧
    walletBlockNumberAllowed (some "0x") tagSample = none ∧
    ¬ ∀ n, logFilterBlockNumber (some "0x") tagSample = some n ∧ n ≤ tagSample.number ↔
      walletBlockNumberAllowed (some "0x") tagSample = some .safe ∧ n = tagSample.number ∨
        walletBlockNumberAllowed (some "0x") tagSample = some (.number n) := by
  have ht : HeightTag "0x" tagSample := ⟨by decide, eqIgnoreAsciiCase_tagSample (by decide)⟩
  have hread : logFilterBlockNumber (some "0x") tagSample = some 0 := by
    rw [ht.logFilterBlockNumber_eq_some, decodeHexFixed_isOk]
    exact ⟨fun h => absurd h.1 (by decide), by decide⟩
  have hrefused : walletBlockNumberAllowed (some "0x") tagSample = none := by
    unfold walletBlockNumberAllowed
    simp only
    rw [if_neg (ht.notMem (by decide)), if_neg (ht.notMem (by decide)),
      if_neg (Bool.eq_false_iff.mp ht.2), if_pos ht.1, show Wire.parseHexU64 "0x" = none by decide]
    rfl
  refine ⟨hread, hrefused, fun hagree => ?_⟩
  rcases (hagree 0).mp ⟨hread, Nat.zero_le _⟩ with ⟨h, -⟩ | h
  · cases hrefused.symm.trans h
  · cases hrefused.symm.trans h

end HeliosBsc
