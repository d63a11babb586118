import HeliosBsc.Execution.Rlp

/-!
# What the encoder writes, the reader reads

`splitItem` cuts an encoded item off whatever follows it, so an encoding is self-delimiting
(`eq_of_encodeBytes_start`), and `decode` rebuilds every tree whose encoding fits a 64-bit length and
whose lists are nested at most `maxRlpDepth` deep.
-/

namespace HeliosBsc

open Checked BigEndian

theorem u64Size_eq_pow : u64Size = 256 ^ 8 := by rw [u64Size_eq]; norm_num

theorem value_lt_u64Size {b : Bytes} (h : b.length ≤ 8) : value b < u64Size :=
  (value_lt b).trans_le (by rw [u64Size_eq_pow]; exact Nat.pow_le_pow_right (by norm_num) h)

/-! ## Length prefixes -/

theorem strip_bytes_ne_nil {len : ℕ} (h0 : 0 < len) (h : len < u64Size) :
    strip (BigEndian.bytes 8 len) ≠ [] := by
  intro he
  have hv := value_strip (BigEndian.bytes 8 len)
  rw [he, value_bytes_of_lt (by rwa [← u64Size_eq_pow])] at hv
  simp at hv
  omega

theorem lenBe_eq_strip {len : ℕ} (h0 : 0 < len) (h : len < u64Size) :
    lenBe len = strip (BigEndian.bytes 8 len) := by
  unfold lenBe
  split
  · next he => exact absurd he (strip_bytes_ne_nil h0 h)
  · rfl

theorem value_lenBe {len : ℕ} (h0 : 0 < len) (h : len < u64Size) : value (lenBe len) = len := by
  rw [lenBe_eq_strip h0 h, value_strip, value_bytes_of_lt (by rwa [← u64Size_eq_pow])]

theorem length_lenBe_pos {len : ℕ} (h0 : 0 < len) (h : len < u64Size) :
    0 < (lenBe len).length := by
  rw [lenBe_eq_strip h0 h]
  exact List.length_pos_of_ne_nil (strip_bytes_ne_nil h0 h)

theorem length_lenBe_le (len : ℕ) : (lenBe len).length ≤ 8 := by
  unfold lenBe
  split
  · simp
  · exact (length_strip_le _).trans (length_bytes 8 len).le

theorem beLenStep_eq {n : ℕ} {x : UInt8} (h : n * 256 + x.toNat < u64Size) :
    beLenStep n x = .ok (n * 256 + x.toNat) := by
  have hmod : n * 256 % u64Size = n * 256 :=
    Nat.mod_eq_of_lt ((Nat.le_add_right _ _).trans_lt h)
  simp only [beLenStep, hmod, require_of h, ok_bind, pure_eq_ok]

theorem foldlM_beLenStep (b : Bytes) (n : ℕ) (h : n * 256 ^ b.length + value b < u64Size) :
    b.foldlM beLenStep n = .ok (n * 256 ^ b.length + value b) :=
  foldlM_eq_value (fun _ _ => beLenStep_eq) b n h

theorem beLen_lenBe {len : ℕ} (h0 : 0 < len) (h : len < u64Size) :
    beLen (lenBe len) = .ok len := by
  have hne : lenBe len ≠ [] := List.ne_nil_of_length_pos (length_lenBe_pos h0 h)
  have hhead : (lenBe len).head? ≠ some 0 := by
    rw [lenBe_eq_strip h0 h]
    cases hs : strip (BigEndian.bytes 8 len) with
    | nil => simp
    | cons x t => simpa using strip_head_ne_zero hs
  unfold beLen
  rw [require_of (by simp [hne, hhead]), ok_bind, foldlM_beLenStep _ _ (by
    simpa [value_lenBe h0 h] using h), value_lenBe h0 h]
  simp

/-! ## One item -/

theorem splitLong_append {data : Bytes} (tail : Bytes) (h55 : 55 < data.length)
    (h : data.length < u64Size) :
    splitLong (lenBe data.length).length (lenBe data.length ++ data ++ tail) =
      .ok (data, tail) := by
  have h0 : 0 < data.length := by omega
  unfold splitLong
  rw [require_of (by simp only [List.length_append]; omega)]
  simp only [ok_bind, List.append_assoc, List.take_left, List.drop_left, beLen_lenBe h0 h]
  rw [require_of h55, ok_bind, require_of (by simp)]
  rfl

theorem toNat_ofNat_of_lt {n : ℕ} (h : n < 256) : (UInt8.ofNat n).toNat = n := by
  simpa using h

theorem splitItem_encodeString {data : Bytes} (tail : Bytes) (h : data.length < u64Size)
    (h1 : ∀ x, data = [x] → 0x80 ≤ x.toNat) :
    splitItem (encodeString data ++ tail) = .ok (.str data, tail) := by
  unfold encodeString
  split
  · next hlen =>
    have hp : (UInt8.ofNat (0x80 + data.length)).toNat = 0x80 + data.length :=
      toNat_ofNat_of_lt (by omega)
    simp only [List.cons_append, splitItem, hp]
    rw [if_neg (by omega), if_pos (by omega), Nat.add_sub_cancel_left,
      require_of (by simp), ok_bind, require_of, ok_bind]
    · simp
    · rintro ⟨hl, x, hx, hlt⟩
      obtain ⟨y, rfl⟩ := List.length_eq_one_iff.mp hl
      simp only [List.cons_append, List.head?_cons, Option.mem_def, Option.some.injEq] at hx
      subst hx
      have := h1 _ rfl
      omega
  · next hlen =>
    have h0 : 0 < data.length := by omega
    have hpos := length_lenBe_pos h0 h
    have hle := length_lenBe_le data.length
    have hp : (UInt8.ofNat (0xb7 + (lenBe data.length).length)).toNat =
        0xb7 + (lenBe data.length).length := toNat_ofNat_of_lt (by omega)
    simp only [List.cons_append, splitItem, hp]
    rw [if_neg (by omega), if_neg (by omega), if_pos (by omega), Nat.add_sub_cancel_left,
      splitLong_append tail (by omega) h]
    rfl

theorem splitItem_encodeBytes {data : Bytes} (tail : Bytes) (h : data.length < u64Size) :
    splitItem (encodeBytes data ++ tail) = .ok (.str data, tail) := by
  unfold encodeBytes
  split
  · next b =>
    split
    · next hb =>
      simp only [List.cons_append, List.nil_append, splitItem]
      rw [if_pos (by omega)]
    · next hb =>
      exact splitItem_encodeString tail h (fun x hx => by
        obtain rfl : b = x := by simpa using hx
        omega)
  · next hne => exact splitItem_encodeString tail h (fun x hx => absurd hx (hne x))

theorem splitItem_encodeList {items : List Bytes} (tail : Bytes)
    (h : items.flatten.length < u64Size) :
    splitItem (encodeList items ++ tail) = .ok (.list items.flatten, tail) := by
  simp only [encodeList]
  split
  · next hlen =>
    have hp : (UInt8.ofNat (0xc0 + items.flatten.length)).toNat = 0xc0 + items.flatten.length :=
      toNat_ofNat_of_lt (by omega)
    simp only [List.cons_append, splitItem, hp]
    rw [if_neg (by omega), if_neg (by omega), if_neg (by omega), if_pos (by omega),
      Nat.add_sub_cancel_left, require_of (by simp)]
    simp
  · next hlen =>
    have h0 : 0 < items.flatten.length := by omega
    have hpos := length_lenBe_pos h0 h
    have hle := length_lenBe_le items.flatten.length
    have hp : (UInt8.ofNat (0xf7 + (lenBe items.flatten.length).length)).toNat =
        0xf7 + (lenBe items.flatten.length).length := toNat_ofNat_of_lt (by omega)
    simp only [List.cons_append, splitItem, hp]
    rw [if_neg (by omega), if_neg (by omega), if_neg (by omega), if_neg (by omega),
      Nat.add_sub_cancel_left, splitLong_append tail (by omega) h]
    rfl

/-- No encoding of a string starts another one. -/
theorem eq_of_encodeBytes_start {a b : Bytes} (ha : a.length < u64Size) (hb : b.length < u64Size)
    (h : encodeBytes a <+: encodeBytes b) : a = b := by
  obtain ⟨t, ht⟩ := h
  have h₁ := splitItem_encodeBytes t ha
  have h₂ := splitItem_encodeBytes [] hb
  rw [ht] at h₁
  rw [List.append_nil, h₁] at h₂
  simpa using (congrArg Prod.fst (Except.ok.inj h₂))

/-! ## Lengths -/

theorem length_encodeString (data : Bytes) : data.length < (encodeString data).length := by
  unfold encodeString
  split <;> simp only [List.length_cons, List.length_append] <;> omega

theorem length_le_encodeBytes (data : Bytes) : data.length ≤ (encodeBytes data).length := by
  unfold encodeBytes
  split
  · split
    · rfl
    · exact (length_encodeString _).le
  · exact (length_encodeString _).le

theorem length_encodeBytes_le (data : Bytes) : (encodeBytes data).length ≤ data.length + 9 := by
  have hs : (encodeString data).length ≤ data.length + 9 := by
    have := length_lenBe_le data.length
    unfold encodeString
    split <;> simp only [List.length_cons, List.length_append] <;> omega
  unfold encodeBytes
  split
  · split
    · simp
    · exact hs
  · exact hs

theorem length_encodeList_le (items : List Bytes) :
    (encodeList items).length ≤ items.flatten.length + 9 := by
  have := length_lenBe_le items.flatten.length
  simp only [encodeList]
  split <;> simp only [List.length_cons, List.length_append] <;> omega

theorem encodeBytes_ne_nil (data : Bytes) : encodeBytes data ≠ [] := by
  unfold encodeBytes encodeString
  split
  · split_ifs <;> simp
  · split_ifs <;> simp

theorem length_encodeBytes_pos (data : Bytes) : 0 < (encodeBytes data).length :=
  List.length_pos_of_ne_nil (encodeBytes_ne_nil data)

theorem flatten_length_lt_encodeList (items : List Bytes) :
    items.flatten.length < (encodeList items).length := by
  simp only [encodeList]
  split <;> simp only [List.length_cons, List.length_append] <;> omega

theorem encodeRlp_list (items : List Rlp) :
    encodeRlp (.list items) = encodeList (items.map encodeRlp) := by
  rw [encodeRlp]

theorem length_mem_le_flatten {items : List Bytes} {x : Bytes} (h : x ∈ items) :
    x.length ≤ items.flatten.length := by
  obtain ⟨s, t, rfl⟩ := List.append_of_mem h
  simp only [List.flatten_append, List.flatten_cons, List.length_append]
  omega

theorem length_flatten_le {l : List Bytes} {n : ℕ} (h : ∀ x ∈ l, x.length ≤ n) :
    l.flatten.length ≤ l.length * n := by
  induction l with
  | nil => simp
  | cons x l ih =>
    have hx := h x List.mem_cons_self
    have hl := ih fun y hy => h y (List.mem_cons_of_mem x hy)
    simp only [List.flatten_cons, List.length_append, List.length_cons, Nat.add_mul]
    omega

theorem length_encodeRlp_lt {items : List Rlp} {x : Rlp} (h : x ∈ items) :
    (encodeRlp x).length < (encodeRlp (.list items)).length := by
  rw [encodeRlp_list]
  exact (length_mem_le_flatten (List.mem_map_of_mem h)).trans_lt
    (flatten_length_lt_encodeList _)

theorem encodeRlp_ne_nil (x : Rlp) : encodeRlp x ≠ [] := by
  cases x with
  | bytes b => rw [encodeRlp]; exact encodeBytes_ne_nil b
  | list items =>
    rw [encodeRlp_list]
    exact List.ne_nil_of_length_pos (Nat.zero_lt_of_lt (flatten_length_lt_encodeList _))

theorem le_foldr_max {l : List ℕ} {n : ℕ} (h : n ∈ l) : n ≤ l.foldr max 0 := by
  induction l with
  | nil => simp at h
  | cons m l ih =>
    rcases List.mem_cons.mp h with rfl | h
    · exact le_max_left _ _
    · exact (ih h).trans (le_max_right _ _)

theorem foldr_max_le {l : List ℕ} {b : ℕ} (h : ∀ n ∈ l, n ≤ b) : l.foldr max 0 ≤ b := by
  induction l with
  | nil => simp
  | cons m l ih =>
    exact max_le (h m List.mem_cons_self) (ih (fun n hn => h n (List.mem_cons_of_mem m hn)))

theorem Rlp.depth_list (items : List Rlp) :
    (Rlp.list items).depth = 1 + (items.map Rlp.depth).foldr max 0 := by
  rw [Rlp.depth]

theorem Rlp.depth_lt {items : List Rlp} {x : Rlp} (h : x ∈ items) :
    x.depth < (Rlp.list items).depth := by
  have := le_foldr_max (List.mem_map_of_mem (f := Rlp.depth) h)
  rw [Rlp.depth_list]
  omega

/-- Every level of nesting costs a byte. -/
theorem Rlp.depth_le_length (x : Rlp) : x.depth ≤ (encodeRlp x).length := by
  cases x with
  | bytes b => rw [Rlp.depth]; omega
  | list items =>
    have hitems : (items.map Rlp.depth).foldr max 0 ≤ (items.map encodeRlp).flatten.length := by
      refine foldr_max_le fun n hn => ?_
      obtain ⟨y, hy, rfl⟩ := List.mem_map.mp hn
      exact (Rlp.depth_le_length y).trans (length_mem_le_flatten (List.mem_map_of_mem hy))
    have := flatten_length_lt_encodeList (items.map encodeRlp)
    rw [Rlp.depth_list, encodeRlp_list]
    omega
termination_by (encodeRlp x).length
decreasing_by exact length_encodeRlp_lt hy

/-! ## The round trip -/

theorem decodeItems_nil (depth : ℕ) : decodeItems [] depth = .ok [] := by
  rw [decodeItems]
  rfl

theorem decodeItems_encode (n : ℕ) : ∀ (items : List Rlp) (depth : ℕ),
    (items.map encodeRlp).flatten.length ≤ n → (items.map encodeRlp).flatten.length < u64Size →
      (∀ x ∈ items, depth + x.depth ≤ maxRlpDepth) →
        decodeItems (items.map encodeRlp).flatten depth = .ok items := by
  -- on the length of the payload: both the payload of a first list and the rest are shorter
  induction n with
  | zero =>
    intro items depth hn _ _
    cases items with
    | nil => exact decodeItems_nil depth
    | cons x xs =>
      have := List.length_pos_of_ne_nil (encodeRlp_ne_nil x)
      simp only [List.map_cons, List.flatten_cons, List.length_append] at hn
      omega
  | succ n ih =>
    intro items depth hn hfit hdepth
    cases items with
    | nil => exact decodeItems_nil depth
    | cons x xs =>
      have hpos := List.length_pos_of_ne_nil (encodeRlp_ne_nil x)
      simp only [List.map_cons, List.flatten_cons, List.length_append] at hn hfit ⊢
      have hxs := ih xs depth (by omega) (by omega)
        (fun y hy => hdepth y (List.mem_cons_of_mem x hy))
      rw [decodeItems_step _ _ (by simp [encodeRlp_ne_nil x])]
      cases x with
      | bytes b =>
        have hb := length_le_encodeBytes b
        simp only [encodeRlp] at hpos hn hfit ⊢
        unfold decodeOne
        rw [splitItem_encodeBytes _ (by omega)]
        simp [hxs]
      | list sub =>
        have hd := hdepth (.list sub) List.mem_cons_self
        have hsub := flatten_length_lt_encodeList (sub.map encodeRlp)
        simp only [encodeRlp_list] at hpos hn hfit ⊢
        have hinner := ih sub (depth + 1) (by omega) (by omega) (fun y hy => by
          have := Rlp.depth_lt hy
          omega)
        have hlevel : depth + 1 ≤ maxRlpDepth := by
          rw [Rlp.depth_list] at hd
          omega
        unfold decodeOne decodeList
        rw [splitItem_encodeList _ (by omega)]
        simp only [ok_bind, require_of hlevel, hinner, hxs, pure_eq_ok]

/-- The round trip on one tree. -/
theorem decode_encodeRlp {x : Rlp} (hfit : (encodeRlp x).length < u64Size)
    (hdepth : x.depth ≤ maxRlpDepth) : decode (encodeRlp x) = .ok x := by
  unfold decode decodeOne
  cases x with
  | bytes b =>
    have hb := length_le_encodeBytes b
    rw [encodeRlp] at hfit ⊢
    have := splitItem_encodeBytes [] (show b.length < u64Size by omega)
    rw [List.append_nil] at this
    rw [this]
    simp [require_of]
  | list items =>
    have hflat := flatten_length_lt_encodeList (items.map encodeRlp)
    rw [encodeRlp_list] at hfit ⊢
    have hsplit := splitItem_encodeList [] (show (items.map encodeRlp).flatten.length < u64Size by
      omega)
    have hitems := decodeItems_encode _ items 1 le_rfl (by omega) (fun y hy => by
      have := Rlp.depth_lt hy
      omega)
    rw [List.append_nil] at hsplit
    rw [hsplit]
    unfold decodeList
    rw [ok_bind, require_of (show 0 + 1 ≤ maxRlpDepth by unfold maxRlpDepth; omega)]
    simp [hitems, require_of]

end HeliosBsc
