import HeliosBsc.Execution.RlpRoundTrip

/-!
# No value has two accepted spellings

Whatever the reader accepts is what the encoder writes for the value it returns
(`encodeRlp_of_decode`). Each branch of `splitItem` refuses the second spelling of its payload:
the wrapped single byte, the long form of a short payload, the padded length prefix.
-/

namespace HeliosBsc

open Checked BigEndian

/-! ## Length prefixes -/

theorem foldlM_beLenStep_of_ok {b : Bytes} {n m : ℕ} (hb : n * 256 ^ b.length + value b < u64Size)
    (h : b.foldlM beLenStep n = .ok m) : m = n * 256 ^ b.length + value b := by
  rw [foldlM_beLenStep b n hb] at h
  exact (Except.ok.inj h).symm

theorem lenBe_of_beLen {b : Bytes} {len : ℕ} (hlen : b.length ≤ 8) (h0 : 0 < len)
    (h : beLen b = .ok len) : lenBe len = b ∧ len < u64Size := by
  simp only [beLen, bind_eq_ok, require_eq_ok, not_or, not_and, not_lt] at h
  obtain ⟨-, ⟨hne, hpad⟩, hfold⟩ := h
  have hv : value b < u64Size := by
    rw [u64Size_eq_pow]
    exact (value_lt b).trans_le (Nat.pow_le_pow_right (by norm_num) hlen)
  have hval : len = value b := by
    have := foldlM_beLenStep_of_ok (by simpa using hv) hfold
    simpa using this
  have hhead : b.head? ≠ some 0 := by
    intro hz
    -- a zero head is allowed on one byte only, and then the length is zero
    have h1 := hpad hz
    cases b with
    | nil => exact hne rfl
    | cons x t =>
      obtain rfl : x = 0 := by simpa using hz
      obtain rfl : t = [] := by simpa using h1
      simp [value] at hval
      omega
  subst hval
  exact ⟨by rw [lenBe_eq_strip h0 hv, strip_bytes_value hlen hhead], hv⟩

theorem splitLong_eq {ll : ℕ} {rest b tail : Bytes} (hll : ll ≤ 8)
    (h : splitLong ll rest = .ok (b, tail)) :
    55 < b.length ∧ b.length < u64Size ∧ (lenBe b.length).length = ll ∧
      rest = lenBe b.length ++ b ++ tail := by
  simp only [splitLong, bind_eq_ok, require_eq_ok, pure_eq_ok, Except.ok.injEq, Prod.mk.injEq]
    at h
  obtain ⟨-, hlen, len, hbe, -, h55, -, hle, rfl, rfl⟩ := h
  have htake : ((rest.drop ll).take len).length = len := by
    rw [List.length_take]
    omega
  obtain ⟨hpre, hfit⟩ := lenBe_of_beLen (by rw [List.length_take]; omega) (by omega) hbe
  rw [htake, hpre]
  refine ⟨h55, hfit, by rw [List.length_take]; omega, ?_⟩
  rw [List.append_assoc, List.take_append_drop, List.take_append_drop]

/-! ## One item -/

theorem ofNat_eq_of_toNat {p : UInt8} {n : ℕ} (h : p.toNat = n) : UInt8.ofNat n = p := by
  rw [← h, UInt8.ofNat_toNat]

theorem encodeBytes_of_short {p : UInt8} {b : Bytes} (hp : p.toNat = 0x80 + b.length)
    (hb : b.length ≤ 55) (h1 : ∀ x, b = [x] → 0x80 ≤ x.toNat) : encodeBytes b = p :: b := by
  have hs : encodeString b = p :: b := by
    unfold encodeString
    rw [if_pos hb, ofNat_eq_of_toNat hp]
  unfold encodeBytes
  split
  · next x => rw [if_neg (by have := h1 x rfl; omega), hs]
  · exact hs

theorem encodeBytes_of_long {p : UInt8} {b : Bytes} (hb : 55 < b.length)
    (hp : p.toNat = 0xb7 + (lenBe b.length).length) :
    encodeBytes b = p :: (lenBe b.length ++ b) := by
  unfold encodeBytes
  split
  · simp at hb
  · unfold encodeString
    rw [if_neg (by omega)]
    simp only [ofNat_eq_of_toNat hp]

theorem encodeList_singleton_of_short {p : UInt8} {b : Bytes} (hp : p.toNat = 0xc0 + b.length)
    (hb : b.length ≤ 55) : encodeList [b] = p :: b := by
  simp only [encodeList, List.flatten_singleton, if_pos hb, ofNat_eq_of_toNat hp]

theorem encodeList_singleton_of_long {p : UInt8} {b : Bytes} (hb : 55 < b.length)
    (hp : p.toNat = 0xf7 + (lenBe b.length).length) :
    encodeList [b] = p :: (lenBe b.length ++ b) := by
  simp only [encodeList, List.flatten_singleton, if_neg (Nat.not_le.mpr hb),
    ofNat_eq_of_toNat hp]

/-- The bytes `splitItem` accepts for one item, as the encoder writes them. -/
def Chunk.encode : Chunk → Bytes
  | str b => encodeBytes b
  | list payload => encodeList [payload]

/-- An accepted item is the encoding of its payload. -/
theorem splitItem_eq {input tail : Bytes} {c : Chunk} (h : splitItem input = .ok (c, tail)) :
    input = c.encode ++ tail ∧ c.data.length < u64Size := by
  have h55 : 55 < u64Size := by rw [u64Size_eq]; norm_num
  cases input with
  | nil => simp [splitItem] at h
  | cons p rest =>
    have hp := p.toNat_lt
    cases itemForm_of_splitItem h with
    | single hlow =>
      simp only [Chunk.encode, Chunk.data, encodeBytes, if_pos (show p.toNat < 0x80 by omega),
        List.cons_append, List.nil_append, List.length_singleton, true_and]
      omega
    | short hlow hhigh hl hcanon =>
      have hlen : (rest.take (p.toNat - 0x80)).length = p.toNat - 0x80 := by
        rw [List.length_take]
        omega
      refine ⟨?_, by simp only [Chunk.data]; omega⟩
      rw [Chunk.encode, encodeBytes_of_short (p := p) (by omega) (by omega), List.cons_append,
        List.take_append_drop]
      intro x hx
      by_contra hlt
      refine hcanon ⟨by rw [← hlen, hx]; rfl, x, ?_, by omega⟩
      cases rest with
      | nil => simp at hx
      | cons y rest =>
        cases hk : p.toNat - 0x80 with
        | zero => simp [hk] at hx
        | succ k =>
          rw [hk, List.take_succ_cons, List.cons.injEq] at hx
          simp [hx.1]
    | long hlow hhigh hs =>
      obtain ⟨hb, hfit, hll, hrest⟩ := splitLong_eq (by omega) hs
      refine ⟨?_, hfit⟩
      rw [Chunk.encode, encodeBytes_of_long (p := p) hb (by omega), hrest, List.cons_append]
    | shortList hlow hhigh hl =>
      have hlen : (rest.take (p.toNat - 0xc0)).length = p.toNat - 0xc0 := by
        rw [List.length_take]
        omega
      refine ⟨?_, by simp only [Chunk.data]; omega⟩
      rw [Chunk.encode, encodeList_singleton_of_short (p := p) (by omega) (by omega),
        List.cons_append, List.take_append_drop]
    | longList hlow hs =>
      obtain ⟨hb, hfit, hll, hrest⟩ := splitLong_eq (by omega) hs
      refine ⟨?_, hfit⟩
      rw [Chunk.encode, encodeList_singleton_of_long (p := p) hb (by omega), hrest,
        List.cons_append]

/-! ## Trees -/

theorem encodeList_flatten (items : List Bytes) : encodeList items = encodeList [items.flatten] := by
  simp only [encodeList, List.flatten_singleton]

theorem decodeOne_eq {input rest : Bytes} {depth : ℕ} {x : Rlp}
    (h : decodeOne input depth = .ok (x, rest)) :
    (∃ b, splitItem input = .ok (.str b, rest) ∧ x = .bytes b) ∨
      ∃ payload items, splitItem input = .ok (.list payload, rest) ∧
        decodeList payload (depth + 1) = .ok items ∧ x = .list items := by
  simp only [decodeOne, bind_eq_ok, Prod.exists] at h
  obtain ⟨c, tail, hs, h⟩ := h
  cases c with
  | str b =>
    simp only [pure_eq_ok, Except.ok.injEq, Prod.mk.injEq] at h
    obtain ⟨rfl, rfl⟩ := h
    exact .inl ⟨b, hs, rfl⟩
  | list payload =>
    simp only [bind_eq_ok, pure_eq_ok, Except.ok.injEq, Prod.mk.injEq] at h
    obtain ⟨items, hd, rfl, rfl⟩ := h
    exact .inr ⟨payload, items, hs, hd, rfl⟩

theorem decodeItems_canonical (n : ℕ) : ∀ (payload : Bytes) (depth : ℕ) (items : List Rlp),
    payload.length ≤ n → decodeItems payload depth = .ok items →
      (items.map encodeRlp).flatten = payload := by
  -- on the length of the payload, as in the reader
  induction n with
  | zero =>
    intro payload depth items hn h
    obtain rfl := List.length_eq_zero_iff.mp (Nat.le_zero.mp hn)
    rw [decodeItems_nil] at h
    obtain rfl := Except.ok.inj h
    rfl
  | succ n ih =>
    intro payload depth items hn h
    by_cases hp : payload = []
    · subst hp
      rw [decodeItems_nil] at h
      obtain rfl := Except.ok.inj h
      rfl
    · rw [decodeItems_step _ _ hp] at h
      simp only [bind_eq_ok, pure_eq_ok, Except.ok.injEq, Prod.exists] at h
      obtain ⟨x, rest, hone, tail, htail, rfl⟩ := h
      rw [List.map_cons, List.flatten_cons]
      rcases decodeOne_eq hone with ⟨b, hs, rfl⟩ | ⟨inner, sub, hs, hsub, rfl⟩
      · have hlt := (splitItem_length hs).2.1
        rw [ih rest depth tail (by omega) htail, (splitItem_eq hs).1, encodeRlp]
        rfl
      · have hlt := splitItem_length hs
        have hinner := hlt.2.2 inner rfl
        simp only [decodeList, bind_eq_ok] at hsub
        obtain ⟨-, -, hsub⟩ := hsub
        rw [ih rest depth tail (by omega) htail, (splitItem_eq hs).1, encodeRlp_list,
          encodeList_flatten, ih inner _ sub (by omega) hsub]
        rfl

theorem encodeRlp_of_decode {b : Bytes} {x : Rlp} (h : decode b = .ok x) : encodeRlp x = b := by
  simp only [decode, bind_eq_ok, require_eq_ok, pure_eq_ok, Except.ok.injEq, Prod.exists] at h
  obtain ⟨y, rest, hone, -, rfl, rfl⟩ := h
  rcases decodeOne_eq hone with ⟨b', hs, rfl⟩ | ⟨inner, sub, hs, hsub, rfl⟩
  · rw [(splitItem_eq hs).1, encodeRlp, List.append_nil]
    rfl
  · simp only [decodeList, bind_eq_ok] at hsub
    obtain ⟨-, -, hsub⟩ := hsub
    rw [(splitItem_eq hs).1, encodeRlp_list, encodeList_flatten,
      decodeItems_canonical _ inner _ sub le_rfl hsub, List.append_nil]
    rfl

end HeliosBsc
