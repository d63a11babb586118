import HeliosBsc.Execution.WorldState
import HeliosBsc.Node.BlockTags
import HeliosBsc.Node.EthProof

/-!
# The answer of a provider that has the state

What such a provider answers to `eth_getProof`, and that `proof.rs` accepts it: the texts of its
quantities are read back, its nodes prove the account and its entries prove the slots. What is proven
of an account, from whichever nodes, is what the state says of it.
-/

namespace HeliosBsc

open Checked

/-! ## Quantities are written and read back -/

theorem quantityDigits_append (n : ℕ) (acc tail : List Char) :
    quantityDigits n (acc ++ tail) = quantityDigits n acc ++ tail := by
  induction n, acc using quantityDigits.induct with
  | case1 n acc h => rw [quantityDigits, if_pos h, quantityDigits, if_pos h, List.cons_append]
  | case2 n acc h ih =>
    rw [quantityDigits, if_neg h, ← List.cons_append, ih, quantityDigits.eq_def n acc, if_neg h]

theorem quantityDigits_concat {n d : ℕ} (hn : 0 < n) (hd : d < 16) :
    quantityDigits (16 * n + d) [] = quantityDigits n [] ++ [hexDigitChar d] := by
  rw [quantityDigits, if_neg (by omega), show (16 * n + d) / 16 = n by omega,
    show (16 * n + d) % 16 = d by omega]
  exact quantityDigits_append n [] _

theorem hexChars_append (a b : Bytes) : hexChars (a ++ b) = hexChars a ++ hexChars b := by
  induction a with
  | nil => rfl
  | cons x a ih => rw [List.cons_append, hexChars, ih, hexChars, List.cons_append, List.cons_append]

theorem hexDigitChar_eq_zero {d : ℕ} (hd : d < 16) : hexDigitChar d = '0' ↔ d = 0 := by
  interval_cases d <;> decide

theorem dropWhile_two {hi lo : ℕ} (hhi : hi < 16) (hlo : lo < 16) :
    [hexDigitChar hi, hexDigitChar lo].dropWhile (· = '0') =
      if 16 * hi + lo = 0 then [] else quantityDigits (16 * hi + lo) [] := by
  by_cases hz : hi = 0
  · subst hz
    rw [List.dropWhile_cons_of_pos (by simpa using (hexDigitChar_eq_zero hhi).mpr rfl), mul_zero,
      zero_add, quantityDigits, if_pos hlo]
    split_ifs with hl
    · exact List.dropWhile_cons_of_pos (by simpa using (hexDigitChar_eq_zero hlo).mpr hl)
    · exact List.dropWhile_cons_of_neg (by simpa using fun h => hl ((hexDigitChar_eq_zero hlo).mp h))
  · rw [List.dropWhile_cons_of_neg (by simpa using fun h => hz ((hexDigitChar_eq_zero hhi).mp h)),
      if_neg (by omega), quantityDigits_concat (Nat.pos_of_ne_zero hz) hlo, quantityDigits,
      if_pos hhi]
    rfl

theorem dropWhile_hexChars (b : Bytes) :
    (hexChars b).dropWhile (· = '0') =
      if BigEndian.value b = 0 then [] else quantityDigits (BigEndian.value b) [] := by
  induction b using List.reverseRecOn with
  | nil => rfl
  | append_singleton b x ih =>
    have hx := x.toNat_lt
    have htwo := dropWhile_two (show x.toNat / 16 < 16 by omega) (show x.toNat % 16 < 16 by omega)
    rw [show 16 * (x.toNat / 16) + x.toNat % 16 = x.toNat by omega] at htwo
    rw [hexChars_append, List.dropWhile_append, ih, BigEndian.value_concat]
    change (if _ then List.dropWhile _ [hexDigitChar (x.toNat / 16), hexDigitChar (x.toNat % 16)]
      else _ ++ [hexDigitChar (x.toNat / 16), hexDigitChar (x.toNat % 16)]) = _
    by_cases hv : BigEndian.value b = 0
    · rw [hv, if_pos rfl, zero_mul, zero_add, ← htwo]
      rfl
    · have hpos := Nat.pos_of_ne_zero hv
      rw [if_neg hv, if_neg (by simpa using quantityDigits_ne_nil _ _), if_neg (by omega),
        show BigEndian.value b * 256 + x.toNat =
          16 * (16 * BigEndian.value b + x.toNat / 16) + x.toNat % 16 by omega,
        quantityDigits_concat (by omega) (by omega), quantityDigits_concat hpos (by omega),
        List.append_assoc]
      rfl

theorem encodeQty_eq (b : Bytes) : encodeQty b = hexQuantity (BigEndian.value b) := by
  have hdigits := dropWhile_hexChars b
  unfold encodeQty hexQuantity
  split_ifs at hdigits with hv
  · rw [hdigits, hv, quantityDigits, if_pos (by norm_num)]
    rfl
  · rw [hdigits]
    split
    · next h => exact absurd h (quantityDigits_ne_nil _ _)
    · rfl

theorem hexDigitValue_lt {c : Char} {d : ℕ} (h : hexDigitValue c = some d) : d < 16 := by
  unfold hexDigitValue at h
  split_ifs at h <;> simp only [Option.some.injEq] at h <;> omega

theorem foldl_of_decodeHexDigits {cs : List Char} {i : ℕ} {b : Bytes}
    (h : decodeHexDigits cs i = .ok b) (n : ℕ) :
    cs.foldl (fun n c => n * 16 + (hexDigitValue c).getD 0) n =
      b.foldl (fun n x => n * 256 + x.toNat) n := by
  induction cs, i using decodeHexDigits.induct generalizing b n with
  | case1 i =>
    obtain rfl := Except.ok.inj h
    rfl
  | case2 c i => simp [decodeHexDigits] at h
  | case3 hi lo rest i ih =>
    simp only [decodeHexDigits, bind_eq_ok, pure_eq_ok, Except.ok.injEq, hexDigitAt_eq_ok] at h
    obtain ⟨x, hx, y, hy, tail, ht, rfl⟩ := h
    have hxlt := hexDigitValue_lt hx
    have hylt := hexDigitValue_lt hy
    rw [List.foldl_cons, List.foldl_cons, List.foldl_cons, ih ht, hx, hy]
    congr 1
    simp only [Option.getD_some, UInt8.toNat_ofNat']
    omega

theorem hexDigits_quantityDigits {n : ℕ} {acc : List Char}
    (h : ∀ c ∈ acc, (hexDigitValue c).isSome = true) :
    ∀ c ∈ quantityDigits n acc, (hexDigitValue c).isSome = true := by
  induction n, acc using quantityDigits.induct with
  | case1 n acc hn =>
    rw [quantityDigits, if_pos hn, List.forall_mem_cons]
    exact ⟨by rw [hexDigitValue_hexDigitChar hn]; rfl, h⟩
  | case2 n acc hn ih =>
    rw [quantityDigits, if_neg hn]
    refine ih (List.forall_mem_cons.mpr ⟨?_, h⟩)
    rw [hexDigitValue_hexDigitChar (Nat.mod_lt _ (by norm_num))]
    rfl

theorem foldl_quantityDigits (n : ℕ) (acc : List Char) :
    (quantityDigits n acc).foldl (fun n c => n * 16 + (hexDigitValue c).getD 0) 0 =
      acc.foldl (fun n c => n * 16 + (hexDigitValue c).getD 0) n := by
  induction n, acc using quantityDigits.induct with
  | case1 n acc hn =>
    rw [quantityDigits, if_pos hn, List.foldl_cons, hexDigitValue_hexDigitChar hn]
    simp
  | case2 n acc hn ih =>
    rw [quantityDigits, if_neg hn, ih, List.foldl_cons,
      hexDigitValue_hexDigitChar (Nat.mod_lt _ (by norm_num))]
    congr 1
    simp only [Option.getD_some]
    omega

theorem decodeQty_hexQuantity (n : ℕ) : ∃ b, decodeQty (hexQuantity n) = .ok b ∧
    BigEndian.value b = n ∧ 2 * b.length ≤ (quantityDigits n []).length + 1 := by
  have hraw : strip0x (hexQuantity n).toList = quantityDigits n [] := by
    rw [hexQuantity, String.toList_ofList]
    rfl
  have hdigits : ∀ c ∈ quantityDigits n [], (hexDigitValue c).isSome = true :=
    hexDigits_quantityDigits fun c hc => (List.not_mem_nil hc).elim
  have hlength := utf8Length_of_digits hdigits
  have hread : ∀ cs i b, decodeHexDigits cs i = .ok b → hexValue cs = BigEndian.value b :=
    fun cs i b h => foldl_of_decodeHexDigits h 0
  unfold decodeQty
  simp only [hraw, if_neg (quantityDigits_ne_nil n []), hlength]
  by_cases hodd : (quantityDigits n []).length % 2 = 1
  · rw [if_pos hodd]
    have heven : ∀ c ∈ '0' :: quantityDigits n [], (hexDigitValue c).isSome = true :=
      List.forall_mem_cons.mpr ⟨by decide, hdigits⟩
    obtain ⟨b, hb⟩ := decodeHexDigits_isOk (k := ((quantityDigits n []).length + 1) / 2) (i := 0)
      heven (by rw [List.length_cons]; omega)
    have hb' := (digits_of_decodeHexDigits hb).2
    rw [utf8Length_of_digits heven, List.length_cons] at hb'
    refine ⟨b, ?_, ?_, by omega⟩
    · unfold decodeHex
      simp only [String.toList_ofList, strip0x]
      rw [require_of (by rw [utf8Length_of_digits heven, List.length_cons]; omega), ok_bind, hb]
    · rw [← hread _ _ _ hb]
      exact foldl_quantityDigits n []
  · rw [if_neg hodd]
    obtain ⟨b, hb⟩ := decodeHexDigits_isOk (k := (quantityDigits n []).length / 2) (i := 0)
      hdigits (by omega)
    have hb' := (digits_of_decodeHexDigits hb).2
    rw [hlength] at hb'
    refine ⟨b, ?_, ?_, by omega⟩
    · unfold decodeHex
      simp only [hraw]
      rw [require_of (by rw [hlength]; omega), ok_bind, hb]
    · rw [← hread _ _ _ hb]
      exact foldl_quantityDigits n []

theorem parseQtyU64_hexQuantity {n : ℕ} (hn : n < u64Size) : parseQtyU64 (hexQuantity n) = .ok n := by
  obtain ⟨b, hb, rfl, hlen⟩ := decodeQty_hexQuantity n
  have hdigits := length_quantityDigits_le (n := BigEndian.value b) (k := 15)
    (by rw [u64Size_eq] at hn; exact hn.trans_eq (by norm_num)) []
  rw [List.length_nil] at hdigits
  unfold parseQtyU64
  rw [hb, mapError_ok, ok_bind, require_of (by omega), ok_bind]
  rfl

/-! ## Proofs of a trie -/

section

variable {keccak256 : Bytes → Hash}

/-- A proof against the root of a map follows its trie. -/
theorem verifyTrieProof_root (M : KeyMap) (k : Hash) {proof : List Bytes} (h : proof ≠ []) :
    verifyTrieProof keccak256 (M.root keccak256) k proof = followChild keccak256
      (childItem keccak256 (nodeRlp keccak256 M.trie)) proof (bytesToNibbles k.val) false := by
  rw [verifyTrieProof, verifyNibbleProof, require_of h, ok_bind,
    followChild_long keccak256 (M.long_root keccak256), M.root_eq]

theorem verifyTrieProof_proofFor (M : KeyMap) (k : Hash) :
    verifyTrieProof keccak256 (M.root keccak256) k (M.proofFor keccak256 k) = .ok (M.get k) := by
  have hproof : M.proofFor keccak256 k ≠ [] := by
    refine List.ne_nil_of_mem (a := encodeTrie keccak256 M.trie) ?_
    rw [KeyMap.proofFor, pathNodes_eq_cons keccak256 M.trie_ne_empty]
    exact mem_longNodes.mpr ⟨List.mem_cons_self, M.long_root keccak256⟩
  have hends : Trie.Ends M.trie (bytesToNibbles k.val) := by
    refine Trie.ends_of_fullDepth ?_
    rw [length_bytesToNibbles, k.len]
    exact M.fullDepth_trie
  have hfits : Fits M.trie := M.buildable.sorted.fits
  rw [verifyTrieProof_root M k hproof, ← M.lookup_trie]
  exact complete_child keccak256 hfits (fun _ => complete keccak256 hfits M.trie_ne_empty) hends

theorem accountAt_of_verifyAccountProof {M : KeyMap} {root : Hash} {address : Address}
    {nodes : List Bytes} {leaf : Account} (hroot : root = M.root keccak256)
    (h : verifyAccountProof keccak256 root address nodes = .ok leaf) :
    M.accountAt keccak256 address = .ok leaf ∨
      Collision keccak256 (M.proofFor keccak256 (keccak256 address.val)) (longNodes nodes) := by
  subst hroot
  have hfits : Fits M.trie := M.buildable.sorted.fits
  simp only [verifyAccountProof, bind_eq_ok] at h
  obtain ⟨answer, hwalk, hleaf⟩ := h
  have hnodes : nodes ≠ [] := by
    rintro rfl
    simp [verifyTrieProof, verifyNibbleProof, require] at hwalk
  rw [verifyTrieProof_root M _ hnodes] at hwalk
  refine (sound_child keccak256 hfits (fun _ => sound keccak256 hfits M.trie_ne_empty)
    hwalk).imp_left fun hanswer => ?_
  rw [M.lookup_trie] at hanswer
  unfold KeyMap.accountAt
  rw [← hanswer]
  exact hleaf

theorem verifyAccountProof_proofFor {M : KeyMap} {root : Hash} (hroot : root = M.root keccak256)
    (address : Address) :
    verifyAccountProof keccak256 root address (M.proofFor keccak256 (keccak256 address.val)) =
      M.accountAt keccak256 address := by
  rw [hroot, verifyAccountProof, verifyTrieProof_proofFor, ok_bind, KeyMap.accountAt]
  rfl

/-- The nodes of a trie prove what a slot holds. -/
theorem verifyStorageProof_proofFor {T : StorageTrie} {root slot : Hash} {n : ℕ}
    (hroot : T.HasRoot keccak256 root) (h : T.Holds keccak256 slot n) :
    ∃ v, verifyStorageProof keccak256 root slot (T.proofFor keccak256 (keccak256 slot.val)) = .ok v ∧
      BigEndian.value v = n := by
  cases T with
  | empty =>
    have hzero : n = 0 := h
    exact ⟨[], if_pos hroot, hzero.symm⟩
  | ofMap M =>
    obtain ⟨rfl, hne⟩ := hroot
    simp only [StorageTrie.Holds, StorageTrie.get] at h
    rw [verifyStorageProof, if_neg hne, StorageTrie.proofFor, verifyTrieProof_proofFor, ok_bind]
    cases hget : M.get (keccak256 slot.val) with
    | none =>
      simp only [hget] at h
      exact ⟨[], rfl, h.symm⟩
    | some raw =>
      simp only [hget] at h
      obtain ⟨b, hb, hlen, rfl⟩ := h
      refine ⟨b, ?_, rfl⟩
      simp only [decodeStorageLeaf, hb, if_pos hlen]

/-- Few nodes, none of them long: `MAX_PROOF_NODES` and `MAX_PROOF_NODE_BYTES`. -/
structure WithinProofCaps (nodes : List Bytes) : Prop where
  few : nodes.length ≤ maxProofNodes
  short : ∀ n ∈ nodes, n.length ≤ maxProofNodeBytes

theorem mapM_decodeHex_hexPrefixed (l : List Bytes) :
    (l.map hexPrefixed).mapM decodeHex = .ok l := by
  induction l with
  | nil => rfl
  | cons b l ih => simp [ih]

theorem decodeNodes_hexPrefixed {nodes : List Bytes} (h : WithinProofCaps nodes) :
    decodeNodes (nodes.map hexPrefixed) = .ok nodes := by
  unfold decodeNodes
  simp only [mapM_decodeHex_hexPrefixed, mapError_ok, ok_bind, require_of h.short, pure_eq_ok]

/-- The byte strings of the nodes in an answer. -/
def EthAccountProof.strings (proof : EthAccountProof) : List Bytes :=
  (proof.accountProof ++ proof.storageProof.flatMap (·.proof)).filterMap fun s =>
    (decodeHex s).toOption

theorem EthAccountProof.mem_strings {proof : EthAccountProof} {texts : List String}
    {nodes : List Bytes} (hnodes : decodeNodes texts = .ok nodes)
    (htexts : ∀ s ∈ texts, s ∈ proof.accountProof ++ proof.storageProof.flatMap (·.proof)) :
    ∀ n ∈ nodes, n ∈ proof.strings := by
  intro n hn
  obtain ⟨s, hs, hdec⟩ := exists_of_mapM_eq_ok (decodeNodes_ok hnodes) n hn
  refine List.mem_filterMap.mpr ⟨s, htexts s hs, ?_⟩
  rw [hdec]
  rfl

end

/-! ## Slots -/

theorem digits_hexChars (b : Bytes) : ∀ c ∈ hexChars b, (hexDigitValue c).isSome = true :=
  (digits_of_decodeHexDigits (decodeHexDigits_hexChars b 0)).1

theorem slotOfKey_hexPrefixed (slot : Hash) : slotOfKey (hexPrefixed slot.val) = some slot := by
  have hraw : strip0x (hexPrefixed slot.val).toList = hexChars slot.val := by
    rw [hexPrefixed, String.toList_ofList]
    rfl
  have hne : hexChars slot.val ≠ [] := by
    refine List.ne_nil_of_length_pos ?_
    rw [length_hexChars, slot.len]
    norm_num
  have hdec : decodeQty (hexPrefixed slot.val) = .ok slot.val := by
    unfold decodeQty
    simp only [hraw, if_neg hne, utf8Length_hexChars]
    rw [if_neg (by omega), decodeHex_hexPrefixed]
  unfold slotOfKey
  simp only [hdec, slot.len, lt_irrefl, if_false, pad32_val]

theorem parseSlot_hexPrefixed (slot : Hash) : parseSlot (hexPrefixed slot.val) = .ok slot := by
  have hraw : strip0x (hexPrefixed slot.val).toList = hexChars slot.val := by
    rw [hexPrefixed, String.toList_ofList]
    rfl
  have hstrip : ∀ c ∈ strip0x (hexPrefixed slot.val).toList, (hexDigitValue c).isSome = true := by
    rw [hraw]
    exact digits_hexChars slot.val
  have htrim := trimStartMarks_eq_strip0x hstrip
  have hne : hexPrefixed slot.val ≠ "" := by
    intro h
    have := congrArg String.toList h
    rw [hexPrefixed, String.toList_ofList] at this
    cases this
  have hall : ((hexChars slot.val).all fun c => (hexDigitValue c).isSome) = true :=
    List.all_eq_true.mpr (digits_hexChars slot.val)
  unfold parseSlot
  simp only [htrim, hraw, utf8Length_hexChars, slot.len, require_of hne, require_of hall, ok_bind]
  rw [require_of (by norm_num), if_neg (by norm_num), decodeHexDigits_hexChars]
  simp only [ok_bind, mapError_ok, slot.len, pad32_val]
  rw [require_of le_rfl]
  rfl

/-! ## The answer -/

/-- The number in a slot. -/
def StorageTrie.valueAt (keccak256 : Bytes → Hash) (T : StorageTrie) (slot : Hash) : ℕ :=
  match T.get (keccak256 slot.val) with
  | none => 0
  | some raw => match decodeStorageLeaf raw with
    | .ok b => BigEndian.value b
    | .error _ => 0

namespace World

section

variable {keccak256 : Bytes → Hash} {stateRoot : Hash}

/-- The answer of a provider that has the state, for an account and slots of it. -/
def proofOf (w : World keccak256 stateRoot) (address : Address) (leaf : Account)
    (slots : List Hash) : EthAccountProof where
  address := hexPrefixed address.val
  accountProof := (w.accounts.proofFor keccak256 (keccak256 address.val)).map hexPrefixed
  balance := hexQuantity (BigEndian.value leaf.balance)
  codeHash := hexPrefixed leaf.codeHash.val
  nonce := hexQuantity leaf.nonce
  storageHash := hexPrefixed leaf.storageRoot.val
  storageProof := slots.map fun slot => {
    key := hexPrefixed slot.val
    value := hexQuantity ((w.storage address).valueAt keccak256 slot)
    proof := ((w.storage address).proofFor keccak256 (keccak256 slot.val)).map hexPrefixed }

variable {w : World keccak256 stateRoot} {address : Address} {leaf : Account}

theorem valueAt_of_holds {T : StorageTrie} {slot : Hash} {n : ℕ} (h : T.Holds keccak256 slot n) :
    T.valueAt keccak256 slot = n := by
  unfold StorageTrie.Holds at h
  unfold StorageTrie.valueAt
  cases hget : T.get (keccak256 slot.val) with
  | none =>
    simp only [hget] at h
    exact h.symm
  | some raw =>
    simp only [hget] at h
    obtain ⟨b, hb, hlen, rfl⟩ := h
    simp only [decodeStorageLeaf, hb, if_pos hlen]

theorem decodeAccount_nonce_lt {raw : Bytes} (h : decodeAccount raw = .ok leaf) :
    leaf.nonce < u64Size := by
  unfold decodeAccount at h
  simp only [bind_eq_ok] at h
  obtain ⟨decoded, -, h⟩ := h
  split at h
  · simp only [bind_eq_ok] at h
    obtain ⟨b, -, nonce, hnonce, h⟩ := h
    simp only [rlpUint, bind_eq_ok, require_eq_ok, pure_eq_ok, Except.ok.injEq] at hnonce
    obtain ⟨-, hlen, rfl⟩ := hnonce
    obtain ⟨balance, -, -, -, storage, -, code, -, h⟩ := h
    split_ifs at h
    cases h
    refine Nat.lt_of_lt_of_le (BigEndian.value_lt b) ?_
    rw [u64Size_eq]
    exact (Nat.pow_le_pow_right (by norm_num) hlen).trans_eq (by norm_num)
  · cases h

theorem nonce_lt_of_accountAt (h : w.accounts.accountAt keccak256 address = .ok leaf) :
    leaf.nonce < u64Size := by
  unfold KeyMap.accountAt at h
  split at h
  · cases h
    exact u64Size_pos
  · exact decodeAccount_nonce_lt h

/-- The answer proves the account, whatever its entries for slots are. -/
theorem verifyEthGetProof_entries (hleaf : w.accounts.accountAt keccak256 address = .ok leaf)
    (hcaps : WithinProofCaps (w.accounts.proofFor keccak256 (keccak256 address.val)))
    {slots : List Hash} {entries : List StorageProofEntry}
    (hmany : entries.length ≤ maxProofStorageEntries)
    (hshort : ∀ sp ∈ entries, sp.proof.length ≤ maxProofNodes) :
    verifyEthGetProof keccak256 stateRoot address
        { w.proofOf address leaf slots with storageProof := entries } =
      .ok ⟨address, leaf.nonce, BigEndian.strip leaf.balance, leaf.storageRoot, leaf.codeHash⟩ := by
  have hfew : (w.proofOf address leaf slots).accountProof.length ≤ maxProofNodes := by
    rw [proofOf, List.length_map]
    exact hcaps.few
  have hproof : verifyAccountProof keccak256 stateRoot address
      (w.accounts.proofFor keccak256 (keccak256 address.val)) = .ok leaf := by
    rw [verifyAccountProof_proofFor w.root, hleaf]
  obtain ⟨b, hb, hvalue, -⟩ := decodeQty_hexQuantity (BigEndian.value leaf.balance)
  have hbalance : encodeQty b = encodeQty leaf.balance := by rw [encodeQty_eq, hvalue, encodeQty_eq]
  have hnonce := parseQtyU64_hexQuantity (nonce_lt_of_accountAt hleaf)
  have hnodes := decodeNodes_hexPrefixed hcaps
  have hsame (h : Hash) (absent : Bool) : claimedHashOk h h absent = true := by
    simp [claimedHashOk]
  unfold verifyEthGetProof
  rw [require_of hfew, require_of hmany, require_of hshort]
  simp only [proofOf, decodeHexFixed_hexPrefixed, mapError_ok, ok_bind, require_of, hnodes, hproof,
    hb, hbalance, hnonce, hsame, pure_eq_ok]

theorem verifyEthGetProof_proofOf (hleaf : w.accounts.accountAt keccak256 address = .ok leaf)
    {slots : List Hash} (hmany : slots.length ≤ maxProofStorageEntries)
    (hcaps : WithinProofCaps (w.accounts.proofFor keccak256 (keccak256 address.val)))
    (hslots : ∀ slot ∈ slots,
      WithinProofCaps ((w.storage address).proofFor keccak256 (keccak256 slot.val))) :
    verifyEthGetProof keccak256 stateRoot address (w.proofOf address leaf slots) =
      .ok ⟨address, leaf.nonce, BigEndian.strip leaf.balance, leaf.storageRoot, leaf.codeHash⟩ := by
  have hentries : (w.proofOf address leaf slots).storageProof.length ≤ maxProofStorageEntries := by
    rw [proofOf, List.length_map]
    exact hmany
  have hshort : ∀ sp ∈ (w.proofOf address leaf slots).storageProof,
      sp.proof.length ≤ maxProofNodes := by
    intro sp hsp
    obtain ⟨slot, hslot, rfl⟩ := List.mem_map.mp hsp
    rw [List.length_map]
    exact (hslots slot hslot).few
  exact @verifyEthGetProof_entries _ _ w address leaf hleaf hcaps slots _ hentries hshort

theorem firstEntry_proofOf {slots : List Hash} {slot : Hash} (h : slot ∈ slots) :
    (w.proofOf address leaf slots).firstEntry slot = some {
      key := hexPrefixed slot.val
      value := hexQuantity ((w.storage address).valueAt keccak256 slot)
      proof := ((w.storage address).proofFor keccak256 (keccak256 slot.val)).map hexPrefixed } := by
  have hfind : slots.find? (fun s => decide (s = slot)) = some slot := by
    cases hs : slots.find? fun s => decide (s = slot) with
    | none => simpa using List.find?_eq_none.mp hs slot h
    | some s =>
      have := List.find?_some hs
      rw [of_decide_eq_true this]
  unfold EthAccountProof.firstEntry proofOf
  simp only [List.find?_map, Function.comp_def, slotOfKey_hexPrefixed, Option.some.injEq, hfind,
    Option.map_some]

theorem verifyStorageSlot_proofOf (hleaf : w.accounts.accountAt keccak256 address = .ok leaf)
    {slots : List Hash} {slot : Hash} {n : ℕ} (hmem : slot ∈ slots)
    (hcaps : WithinProofCaps ((w.storage address).proofFor keccak256 (keccak256 slot.val)))
    (hn : (w.storage address).Holds keccak256 slot n) :
    ∃ v, verifyStorageSlot keccak256
        ⟨address, leaf.nonce, BigEndian.strip leaf.balance, leaf.storageRoot, leaf.codeHash⟩ slot
        (w.proofOf address leaf slots) = .ok v ∧ v.length ≤ 32 ∧ BigEndian.value v = n := by
  have hroot := w.storageRoot address leaf hleaf
  by_cases hempty : leaf.storageRoot = emptyTrieRoot
  · refine ⟨[], if_pos hempty, Nat.zero_le _, ?_⟩
    rw [hempty] at hroot
    exact holds_value (holds_zero hroot slot) hn
  · obtain ⟨v, hv, rfl⟩ := verifyStorageProof_proofFor hroot hn
    have hlen := length_of_verifyStorageProof hv
    obtain ⟨b, hb, hvalue, -⟩ := decodeQty_hexQuantity (BigEndian.value v)
    have hclaim : ¬ (BigEndian.strip v ≠ BigEndian.strip b ∧ encodeQty v ≠ encodeQty b) := by
      rw [encodeQty_eq v, encodeQty_eq b, hvalue]
      exact fun h => h.2 rfl
    refine ⟨v, ?_, hlen, rfl⟩
    rw [verifyStorageSlot, if_neg hempty, find_storageEntry, firstEntry_proofOf hmem]
    simp only [decodeNodes_hexPrefixed hcaps, ok_bind, hv, mapError_ok, valueAt_of_holds hn, hb]
    rw [require_of hclaim]
    rfl

end

end World

end HeliosBsc
