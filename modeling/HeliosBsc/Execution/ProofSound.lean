import HeliosBsc.Execution.MptSound
import HeliosBsc.Execution.Proof

/-!
# What the checks of an account proof establish

A storage slot and the entries of `storageProof` are matched twice, by two searches:
`verify_storage_slot` takes the first entry for a slot and `retain_requested_storage` keeps the
first entry for each. Both find the same one. A slot that was verified against a storage root has,
in that entry, the value of the trie with that root.
-/

namespace HeliosBsc

open Checked

/-! ## Quantities -/

/-- The number that hexadecimal digits spell. -/
def hexValue (cs : List Char) : ℕ := cs.foldl (fun n c => n * 16 + (hexDigitValue c).getD 0) 0

theorem foldl_hexChars (b : Bytes) (n : ℕ) :
    (hexChars b).foldl (fun n c => n * 16 + (hexDigitValue c).getD 0) n =
      b.foldl (fun n x => n * 256 + x.toNat) n := by
  induction b generalizing n with
  | nil => rfl
  | cons x b ih =>
    have hx := x.toNat_lt
    rw [hexChars, List.foldl_cons, List.foldl_cons, List.foldl_cons, ih,
      hexDigitValue_hexDigitChar (by omega), hexDigitValue_hexDigitChar (by omega)]
    congr 1
    show (n * 16 + x.toNat / 16) * 16 + x.toNat % 16 = n * 256 + x.toNat
    omega

theorem hexValue_hexChars (b : Bytes) : hexValue (hexChars b) = BigEndian.value b :=
  foldl_hexChars b 0

theorem hexValue_dropWhile (cs : List Char) : hexValue (cs.dropWhile (· = '0')) = hexValue cs := by
  induction cs with
  | nil => rfl
  | cons c cs ih =>
    by_cases hc : c = '0'
    · subst hc
      rw [List.dropWhile_cons_of_pos (by simp), ih]
      rfl
    · rw [List.dropWhile_cons_of_neg (by simpa using hc)]

theorem hexValue_encodeQty (b : Bytes) :
    hexValue ((encodeQty b).toList.drop 2) = BigEndian.value b := by
  have hdrop := hexValue_dropWhile (hexChars b)
  rw [hexValue_hexChars] at hdrop
  unfold encodeQty
  split
  · next hz =>
    rw [hz] at hdrop
    rw [← hdrop]
    rfl
  · rw [String.toList_ofList]
    exact hdrop

/-- The comparison of a proven and a claimed quantity is on their values. -/
theorem value_eq_of_same_qty {a b : Bytes}
    (h : ¬ (BigEndian.strip a ≠ BigEndian.strip b ∧ encodeQty a ≠ encodeQty b)) :
    BigEndian.value a = BigEndian.value b := by
  by_cases hs : BigEndian.strip a = BigEndian.strip b
  · rw [← BigEndian.value_strip a, hs, BigEndian.value_strip]
  · have hq : encodeQty a = encodeQty b := not_not.mp fun hq => h ⟨hs, hq⟩
    rw [← hexValue_encodeQty a, hq, hexValue_encodeQty]

/-! ## Keys -/

theorem utf8Size_of_hexDigit {c : Char} {d : ℕ} (h : hexDigitValue c = some d) :
    c.utf8Size = 1 := by
  have hc : c.toNat ≤ 102 := by
    unfold hexDigitValue at h
    split_ifs at h <;> omega
  rw [Char.utf8Size_eq_one_iff]
  exact UInt32.le_iff_toNat_le.mpr (le_trans hc (show 102 ≤ 127 by norm_num))

theorem hexDigitAt_eq_ok {c : Char} {i d : ℕ} :
    hexDigitAt c i = .ok d ↔ hexDigitValue c = some d := by
  unfold hexDigitAt
  cases hexDigitValue c <;> simp

theorem digits_of_decodeHexDigits {cs : List Char} {i : ℕ} {b : Bytes}
    (h : decodeHexDigits cs i = .ok b) :
    (∀ c ∈ cs, (hexDigitValue c).isSome = true) ∧ utf8Length cs = 2 * b.length := by
  induction cs, i using decodeHexDigits.induct generalizing b with
  | case1 i =>
    obtain rfl := Except.ok.inj h
    exact ⟨by simp, rfl⟩
  | case2 c i => simp [decodeHexDigits] at h
  | case3 hi lo rest i ih =>
    simp only [decodeHexDigits, bind_eq_ok, pure_eq_ok, Except.ok.injEq, hexDigitAt_eq_ok] at h
    obtain ⟨x, hx, y, hy, tail, ht, rfl⟩ := h
    obtain ⟨hdigits, hlen⟩ := ih ht
    refine ⟨?_, ?_⟩
    · simp only [List.mem_cons]
      rintro c (rfl | rfl | hc)
      · rw [hx]; rfl
      · rw [hy]; rfl
      · exact hdigits c hc
    · unfold utf8Length at hlen ⊢
      rw [List.map_cons, List.map_cons, List.sum_cons, List.sum_cons, utf8Size_of_hexDigit hx,
        utf8Size_of_hexDigit hy, hlen, List.length_cons]
      ring

/-- The digits of a quantity, with a zero before an odd number of them. -/
def evenDigits (raw : List Char) : List Char :=
  if utf8Length raw % 2 = 1 then '0' :: raw else raw

theorem decodeQty_ok {s : String} {b : Bytes} (h : decodeQty s = .ok b) :
    decodeHexDigits (evenDigits (strip0x s.toList)) 0 = .ok b := by
  unfold decodeQty at h
  simp only at h
  unfold evenDigits
  split_ifs at h with hnil hodd
  · rw [hnil]
    exact h
  · rw [if_pos hodd]
    unfold decodeHex at h
    simp only [String.toList_ofList, strip0x, bind_eq_ok] at h
    exact h.choose_spec.2
  · rw [if_neg hodd]
    unfold decodeHex at h
    simp only [bind_eq_ok] at h
    exact h.choose_spec.2

theorem pad32_val (b : Hash) : pad32 b.val = b := by
  refine FixedBytes.ext ?_
  unfold pad32
  simp [b.len]

theorem toNat_toLower (c : Char) :
    c.toLower.toNat = if 65 ≤ c.toNat ∧ c.toNat ≤ 90 then c.toNat + 32 else c.toNat := by
  unfold Char.toLower
  simp only [ge_iff_le, UInt32.le_iff_toNat_le]
  show (if h : 65 ≤ c.toNat ∧ c.toNat ≤ 90 then _ else c : Char).toNat = _
  split_ifs with h
  · show (c.val + 32).toNat = c.toNat + 32
    rw [UInt32.toNat_add]
    show (c.toNat + 32) % 2 ^ 32 = c.toNat + 32
    omega
  · rfl

theorem hexDigitValue_toLower (c : Char) : hexDigitValue c.toLower = hexDigitValue c := by
  unfold hexDigitValue
  rw [toNat_toLower]
  split_ifs <;> first | rfl | omega

theorem toLower_hexDigitChar {d : ℕ} (h : d < 16) : (hexDigitChar d).toLower = hexDigitChar d := by
  interval_cases d <;> decide

theorem map_toLower_hexChars (b : Bytes) : (hexChars b).map Char.toLower = hexChars b := by
  induction b with
  | nil => rfl
  | cons x b ih =>
    have hx := x.toNat_lt
    rw [hexChars, List.map_cons, List.map_cons, ih, toLower_hexDigitChar (by omega),
      toLower_hexDigitChar (by omega)]

theorem decodeHexDigits_of_map_toLower {cs : List Char} {i : ℕ} {b : Bytes}
    (h : decodeHexDigits (cs.map Char.toLower) i = .ok b) : decodeHexDigits cs i = .ok b := by
  induction cs, i using decodeHexDigits.induct generalizing b with
  | case1 i => exact h
  | case2 c i => simp [decodeHexDigits] at h
  | case3 hi lo rest i ih =>
    simp only [List.map_cons, decodeHexDigits, bind_eq_ok, pure_eq_ok, hexDigitAt_eq_ok,
      hexDigitValue_toLower] at h ⊢
    obtain ⟨x, hx, y, hy, tail, ht, hb⟩ := h
    exact ⟨x, hx, y, hy, tail, ih ht, hb⟩

theorem eq_zero_of_toLower {c : Char} (h : c.toLower = '0') : c = '0' := by
  have hn := toNat_toLower c
  rw [h] at hn
  refine Char.toNat_inj.mp ?_
  show c.toNat = 48
  replace hn : 48 = if 65 ≤ c.toNat ∧ c.toNat ≤ 90 then c.toNat + 32 else c.toNat := hn
  split_ifs at hn with hu <;> omega

theorem eq_x_of_toLower {c : Char} (h : c.toLower = 'x') : c = 'x' ∨ c = 'X' := by
  have hn := toNat_toLower c
  rw [h] at hn
  replace hn : 120 = if 65 ≤ c.toNat ∧ c.toNat ≤ 90 then c.toNat + 32 else c.toNat := hn
  split_ifs at hn with hu
  · exact .inr (Char.toNat_inj.mp (show c.toNat = 88 by omega))
  · exact .inl (Char.toNat_inj.mp (show c.toNat = 120 from hn.symm))

theorem slotOfKey_of_eqIgnoreAsciiCase {key : String} {slot : Hash}
    (h : eqIgnoreAsciiCase key (hexPrefixed slot.val) = true) : slotOfKey key = some slot := by
  have hmap : key.toList.map Char.toLower = '0' :: 'x' :: hexChars slot.val := by
    have he := beq_iff_eq.mp h
    rw [hexPrefixed, String.toList_ofList, List.map_cons, List.map_cons,
      map_toLower_hexChars] at he
    exact he
  obtain ⟨z, cs, hcs, hz, hmap⟩ := List.map_eq_cons_iff.mp hmap
  obtain ⟨m, raw, rfl, hm, hmap⟩ := List.map_eq_cons_iff.mp hmap
  have hstrip : strip0x key.toList = raw := by
    rw [hcs, eq_zero_of_toLower hz]
    rcases eq_x_of_toLower hm with rfl | rfl <;> rfl
  have hdec : decodeHexDigits raw 0 = .ok slot.val := by
    apply decodeHexDigits_of_map_toLower
    rw [hmap]
    exact decodeHexDigits_hexChars slot.val 0
  have hlen := (digits_of_decodeHexDigits hdec).2
  rw [slot.len] at hlen
  have hne : raw ≠ [] := by
    rintro rfl
    simp [utf8Length] at hlen
  have hqty : decodeQty key = .ok slot.val := by
    unfold decodeQty decodeHex
    simp only [hstrip]
    rw [if_neg hne, if_neg (by omega), require_of (by omega), ok_bind, hdec]
  unfold slotOfKey
  rw [hqty]
  show (if 32 < slot.val.length then none else some (pad32 slot.val)) = some slot
  rw [if_neg (by rw [slot.len]; omega), pad32_val]

/-! ## Entries -/

/-- The first entry whose key denotes the slot. -/
def EthAccountProof.firstEntry (proof : EthAccountProof) (slot : Hash) : Option StorageProofEntry :=
  proof.storageProof.find? fun e => slotOfKey e.key = some slot

section

variable {want : List Hash} {taken : List Bool}

/-- No entry for this wanted slot was met so far. -/
def Open (want : List Hash) (taken : List Bool) (slot : Hash) : Prop :=
  ∃ i, want.findIdx? (· = slot) = some i ∧ taken.getD i false = false

theorem retainLoop_skip {e : StorageProofEntry} (rest : List StorageProofEntry)
    (h : ∀ slot, slotOfKey e.key = some slot → ¬ Open want taken slot) :
    retainLoop want taken (e :: rest) = retainLoop want taken rest := by
  rw [retainLoop]
  split
  · rfl
  · next slot hslot =>
    split
    · rfl
    · next i hi =>
      refine if_pos ?_
      by_contra hn
      exact h slot hslot ⟨i, hi, by simpa using hn⟩

theorem retainLoop_keep {e : StorageProofEntry} (rest : List StorageProofEntry) {slot : Hash}
    {i : ℕ} (hslot : slotOfKey e.key = some slot) (hi : want.findIdx? (· = slot) = some i)
    (ht : taken.getD i false = false) :
    retainLoop want taken (e :: rest) = e :: retainLoop want (taken.set i true) rest := by
  rw [retainLoop]
  simp only [hslot, hi, ht]
  rfl

theorem open_set_iff (hlen : taken.length = want.length) {slot : Hash} {i : ℕ}
    (hi : want.findIdx? (· = slot) = some i) (slot' : Hash) :
    Open want (taken.set i true) slot' ↔ Open want taken slot' ∧ slot' ≠ slot := by
  obtain ⟨hlt, hat, -⟩ := List.findIdx?_eq_some_iff_getElem.mp hi
  constructor
  · rintro ⟨j, hj, ht⟩
    have hne : i ≠ j := by
      rintro rfl
      rw [List.getD_eq_getElem?_getD, List.getElem?_set_self (hlen ▸ hlt)] at ht
      simp at ht
    rw [List.getD_eq_getElem?_getD, List.getElem?_set_ne hne, ← List.getD_eq_getElem?_getD] at ht
    refine ⟨⟨j, hj, ht⟩, ?_⟩
    rintro rfl
    exact hne (Option.some.inj (hi.symm.trans hj))
  · rintro ⟨⟨j, hj, ht⟩, hne⟩
    refine ⟨j, hj, ?_⟩
    have hij : i ≠ j := by
      rintro rfl
      obtain ⟨_, hat', -⟩ := List.findIdx?_eq_some_iff_getElem.mp hj
      exact hne ((of_decide_eq_true hat').symm.trans (of_decide_eq_true hat))
    rwa [List.getD_eq_getElem?_getD, List.getElem?_set_ne hij, ← List.getD_eq_getElem?_getD]

/-- The loop takes, for each open slot, its first entry. -/
theorem mem_retainLoop (hlen : taken.length = want.length) {es : List StorageProofEntry}
    {e : StorageProofEntry} :
    e ∈ retainLoop want taken es ↔ ∃ slot, slotOfKey e.key = some slot ∧ Open want taken slot ∧
      es.find? (fun e => slotOfKey e.key = some slot) = some e := by
  induction es generalizing taken with
  | nil => simp [retainLoop]
  | cons a rest ih =>
    by_cases hkept : ∃ slot, slotOfKey a.key = some slot ∧ Open want taken slot
    · obtain ⟨slot, hslot, i, hi, ht⟩ := hkept
      rw [retainLoop_keep rest hslot hi ht, List.mem_cons, ih (by simpa using hlen)]
      constructor
      · rintro (rfl | ⟨s, hs, hopen, hfind⟩)
        · refine ⟨slot, hslot, ⟨i, hi, ht⟩, List.find?_cons_of_pos (by simpa using hslot)⟩
        · obtain ⟨hopen, hne⟩ := (open_set_iff hlen hi s).mp hopen
          refine ⟨s, hs, hopen, ?_⟩
          rwa [List.find?_cons_of_neg]
          simpa [hslot] using hne.symm
      · rintro ⟨s, hs, hopen, hfind⟩
        by_cases hne : s = slot
        · subst hne
          rw [List.find?_cons_of_pos (by simpa using hslot)] at hfind
          exact .inl (Option.some.inj hfind).symm
        · rw [List.find?_cons_of_neg (by simpa [hslot] using Ne.symm hne)] at hfind
          exact .inr ⟨s, hs, (open_set_iff hlen hi s).mpr ⟨hopen, hne⟩, hfind⟩
    · have hskip : ∀ slot, slotOfKey a.key = some slot → ¬ Open want taken slot :=
        fun slot hs hopen => hkept ⟨slot, hs, hopen⟩
      rw [retainLoop_skip rest hskip, ih hlen]
      refine exists_congr fun s => and_congr_right fun _ => and_congr_right fun hopen => ?_
      rw [List.find?_cons_of_neg]
      simpa using fun hs => hskip s hs hopen

theorem pairwise_retainLoop (hlen : taken.length = want.length) (es : List StorageProofEntry) :
    (retainLoop want taken es).Pairwise fun a b => slotOfKey a.key ≠ slotOfKey b.key := by
  induction es generalizing taken with
  | nil => exact List.Pairwise.nil
  | cons a rest ih =>
    by_cases hkept : ∃ slot, slotOfKey a.key = some slot ∧ Open want taken slot
    · obtain ⟨slot, hslot, i, hi, ht⟩ := hkept
      have hlen' : (taken.set i true).length = want.length := by simpa using hlen
      rw [retainLoop_keep rest hslot hi ht]
      refine List.Pairwise.cons (fun b hb => ?_) (ih hlen')
      obtain ⟨s, hs, hopen, -⟩ := (mem_retainLoop hlen').mp hb
      rw [hslot, hs]
      exact fun he => ((open_set_iff hlen hi s).mp hopen).2 (Option.some.inj he).symm
    · rw [retainLoop_skip rest fun slot hs hopen => hkept ⟨slot, hs, hopen⟩]
      exact ih hlen

theorem open_replicate_iff {slot : Hash} :
    Open want (List.replicate want.length false) slot ↔ slot ∈ want := by
  constructor
  · rintro ⟨i, hi, -⟩
    obtain ⟨hlt, hat, -⟩ := List.findIdx?_eq_some_iff_getElem.mp hi
    exact of_decide_eq_true hat ▸ List.getElem_mem hlt
  · intro hmem
    cases hi : want.findIdx? (· = slot) with
    | none => simpa using List.findIdx?_eq_none_iff.mp hi slot hmem
    | some i =>
      refine ⟨i, hi, ?_⟩
      rw [List.getD_eq_getElem?_getD, List.getElem?_replicate]
      split_ifs <;> rfl

end

theorem mem_retainRequestedStorage {proof : EthAccountProof} {keys : List String}
    {e : StorageProofEntry} :
    e ∈ (retainRequestedStorage proof keys).storageProof ↔
      ∃ slot, slotOfKey e.key = some slot ∧ (∃ k ∈ keys, slotOfKey k = some slot) ∧
        proof.firstEntry slot = some e := by
  unfold retainRequestedStorage
  split_ifs with hk
  · simp [hk]
  · show e ∈ retainLoop _ _ _ ↔ _
    rw [mem_retainLoop (by simp)]
    simp only [open_replicate_iff, List.mem_filterMap]
    rfl

theorem pairwise_retainRequestedStorage (proof : EthAccountProof) (keys : List String) :
    (retainRequestedStorage proof keys).storageProof.Pairwise fun a b =>
      slotOfKey a.key ≠ slotOfKey b.key := by
  unfold retainRequestedStorage
  split_ifs
  · exact List.Pairwise.nil
  · exact pairwise_retainLoop (by simp) proof.storageProof

/-! ## The storage trie -/

/-- A storage trie: of no slot at all, or of the slots of a map. -/
inductive StorageTrie where
  | empty
  | ofMap (M : KeyMap)

namespace StorageTrie

variable (keccak256 : Bytes → Hash)

/-- `EMPTY_TRIE_ROOT` is the root of the empty trie and of no other. -/
def HasRoot : StorageTrie → Hash → Prop
  | empty, root => root = emptyTrieRoot
  | ofMap M, root => root = M.root keccak256 ∧ root ≠ emptyTrieRoot

/-- The leaf at a hashed slot. -/
def get : StorageTrie → Hash → Option Bytes
  | empty, _ => none
  | ofMap M, k => M.get k

/-- The encoded nodes on the way to a hashed slot. -/
def proofFor : StorageTrie → Hash → List Bytes
  | empty, _ => []
  | ofMap M, k => M.proofFor keccak256 k

/-- The slot holds `n`: its leaf is `rlp(uint256)` of `n`, or it is absent and `n` is zero. -/
def Holds (T : StorageTrie) (slot : Hash) (n : ℕ) : Prop :=
  match T.get (keccak256 slot.val) with
  | none => n = 0
  | some raw => ∃ b, decode raw = .ok (.bytes b) ∧ b.length ≤ 32 ∧ n = BigEndian.value b

end StorageTrie

section

variable {keccak256 : Bytes → Hash}

theorem decodeStorageLeaf_ok {raw v : Bytes} (h : decodeStorageLeaf raw = .ok v) :
    decode raw = .ok (.bytes v) ∧ v.length ≤ 32 := by
  unfold decodeStorageLeaf at h
  split at h
  · next b hb =>
    split_ifs at h with hlen
    obtain rfl := Except.ok.inj h
    exact ⟨hb, hlen⟩
  · cases h

theorem length_of_verifyStorageProof {root slot : Hash} {nodes : List Bytes} {v : Bytes}
    (h : verifyStorageProof keccak256 root slot nodes = .ok v) : v.length ≤ 32 := by
  unfold verifyStorageProof at h
  split_ifs at h
  · obtain rfl := Except.ok.inj h
    exact Nat.zero_le _
  · simp only [bind_eq_ok] at h
    obtain ⟨answer, -, hleaf⟩ := h
    cases answer with
    | none =>
      obtain rfl := Except.ok.inj hleaf
      exact Nat.zero_le _
    | some raw => exact (decodeStorageLeaf_ok hleaf).2

/-- A verified slot value is the one the trie with that root holds, or nodes collide. -/
theorem holds_of_verifyStorageProof {T : StorageTrie} {root slot : Hash} {nodes : List Bytes}
    {v : Bytes} (hroot : T.HasRoot keccak256 root) (hne : root ≠ emptyTrieRoot)
    (h : verifyStorageProof keccak256 root slot nodes = .ok v) :
    T.Holds keccak256 slot (BigEndian.value v) ∨
      Collision keccak256 (T.proofFor keccak256 (keccak256 slot.val)) (longNodes nodes) := by
  cases T with
  | empty => exact absurd hroot hne
  | ofMap M =>
    obtain ⟨rfl, -⟩ := hroot
    rw [verifyStorageProof, if_neg hne] at h
    simp only [bind_eq_ok] at h
    obtain ⟨answer, hwalk, hleaf⟩ := h
    refine ((verifyTrieProof_sound_and_complete keccak256 M _).1 nodes answer hwalk).imp_left
      fun hanswer => ?_
    unfold StorageTrie.Holds StorageTrie.get
    simp only
    rw [← hanswer]
    cases answer with
    | none =>
      obtain rfl := Except.ok.inj hleaf
      rfl
    | some raw =>
      obtain ⟨hdec, hlen⟩ := decodeStorageLeaf_ok hleaf
      exact ⟨v, hdec, hlen, rfl⟩

theorem find_storageEntry (proof : EthAccountProof) (slot : Hash) :
    (proof.storageProof.find? fun e =>
      decide (slotOfKey e.key = some slot) || eqIgnoreAsciiCase e.key (hexPrefixed slot.val)) =
      proof.firstEntry slot := by
  refine congrArg (proof.storageProof.find? ·) (funext fun e => ?_)
  by_cases hs : slotOfKey e.key = some slot
  · rw [decide_eq_true hs, Bool.true_or]
  · rw [decide_eq_false hs, Bool.false_or]
    exact Bool.eq_false_iff.mpr fun he => hs (slotOfKey_of_eqIgnoreAsciiCase he)

/-- What a slot verified against a non-empty trie says of its first entry. -/
theorem verifyStorageSlot_ok {account : VerifiedAccount} {slot : Hash} {proof : EthAccountProof}
    {v : Bytes} (hne : account.storageRoot ≠ emptyTrieRoot)
    (h : verifyStorageSlot keccak256 account slot proof = .ok v) :
    ∃ e nodes claimed, proof.firstEntry slot = some e ∧ decodeNodes e.proof = .ok nodes ∧
      verifyStorageProof keccak256 account.storageRoot slot nodes = .ok v ∧
      decodeQty e.value = .ok claimed ∧ BigEndian.value claimed = BigEndian.value v := by
  rw [verifyStorageSlot, if_neg hne, find_storageEntry] at h
  split at h
  · cases h
  · next e he =>
    simp only [bind_eq_ok, mapError_eq_ok, require_eq_ok, pure_eq_ok, Except.ok.injEq] at h
    obtain ⟨nodes, hnodes, v', hv, claimed, hclaimed, -, hsame, rfl⟩ := h
    exact ⟨e, nodes, claimed, he, hnodes, hv, hclaimed, (value_eq_of_same_qty hsame).symm⟩

end

end HeliosBsc
