import HeliosBsc.Execution.MptSound

/-!
# An ordered-trie root binds its list

Two lists with one root are equal, or the two computations of the root have hashed two different
strings to one value. The argument runs a proof of the first trie through the walk of the second:
the root bytes agree, so the walk answers with the first trie's value (completeness) and with the
second trie's value (soundness).
-/

namespace HeliosBsc

open Checked Trie BigEndian

/-- Every node of a trie, from the root down. -/
def trieNodes : HexTrie → List HexTrie
  | .empty => []
  | .leaf p v => [.leaf p v]
  | .ext p c => .ext p c :: trieNodes c
  | .branch c => .branch c :: (List.finRange 16).flatMap fun x => trieNodes (c x)

theorem mem_trieNodes_of_mem_path {t : HexTrie} {k : List Nibble} {n : HexTrie}
    (h : n ∈ path t k) : n ∈ trieNodes t := by
  induction t generalizing k with
  | empty => simp [path] at h
  | leaf p v => simpa [path, trieNodes] using h
  | ext p c ih =>
    simp only [path, List.mem_cons] at h
    rcases h with rfl | h
    · exact List.mem_cons_self
    · split at h
      · exact List.mem_cons_of_mem _ (ih h)
      · simp at h
  | branch c ih =>
    cases k with
    | nil =>
      obtain rfl : n = .branch c := by simpa [path] using h
      exact List.mem_cons_self
    | cons x k =>
      simp only [path, List.mem_cons] at h
      rcases h with rfl | h
      · exact List.mem_cons_self
      · exact List.mem_cons_of_mem _
          (List.mem_flatMap.mpr ⟨x, List.mem_finRange x, ih x h⟩)

section

variable (keccak256 : Bytes → Hash)

/-- The strings that are hashed on the way to the root hash of a trie: the root node, whatever its
length, and every node below it that is too long to be inlined. -/
def hashedStrings (t : HexTrie) : List Bytes :=
  encodeTrie keccak256 t :: longNodes ((trieNodes t).map (encodeTrie keccak256))

theorem mem_hashedStrings_of_mem_path {t : HexTrie} {k : List Nibble} {x : Bytes}
    (h : x ∈ longNodes (pathNodes keccak256 t k)) : x ∈ hashedStrings keccak256 t := by
  rw [mem_longNodes] at h
  obtain ⟨n, hn, rfl⟩ := List.mem_map.mp h.1
  refine List.mem_cons_of_mem _ (mem_longNodes.mpr ⟨?_, h.2⟩)
  exact List.mem_map_of_mem (mem_trieNodes_of_mem_path hn)

theorem Collision.symm {xs ys : List Bytes} (h : Collision keccak256 xs ys) :
    Collision keccak256 ys xs := by
  obtain ⟨x, hx, y, hy, hne, he⟩ := h
  exact ⟨y, hy, x, hx, hne.symm, he.symm⟩

theorem trieItems_eq_of_encodeTrie_eq {s t : HexTrie} (hs : Fits s) (ht : Fits t)
    (hne : s ≠ .empty) (h : encodeTrie keccak256 s = encodeTrie keccak256 t) :
    t ≠ .empty ∧ trieItems keccak256 s = trieItems keccak256 t := by
  have hrlp : nodeRlp keccak256 s = nodeRlp keccak256 t := by
    have hdec := decode_encodeTrie keccak256 hs
    rw [h, decode_encodeTrie keccak256 ht] at hdec
    exact (Except.ok.inj hdec).symm
  refine ⟨?_, by rw [trieItems, hrlp, trieItems]⟩
  rintro rfl
  rw [nodeRlp_eq_list keccak256 hne] at hrlp
  simp [nodeRlp] at hrlp

/-- Whatever one trie holds at a key, a trie with the same root hash holds too. -/
theorem lookup_of_root_eq {s t : HexTrie} (hs : Fits s) (ht : Fits t)
    (hroot : keccak256 (encodeTrie keccak256 s) = keccak256 (encodeTrie keccak256 t))
    {k : List Nibble} {v : Bytes} (hv : lookup s k = some v) :
    lookup t k = some v ∨ Collision keccak256 (hashedStrings keccak256 s)
      (hashedStrings keccak256 t) := by
  by_cases henc : encodeTrie keccak256 s = encodeTrie keccak256 t
  · have hne : s ≠ .empty := by
      rintro rfl
      simp [lookup] at hv
    obtain ⟨hne', hitems⟩ := trieItems_eq_of_encodeTrie_eq keccak256 hs ht hne henc
    have hwalk := complete keccak256 hs hne k (ends_of_lookup hv)
    rw [hitems] at hwalk
    rcases sound keccak256 ht hne' _ _ _ hwalk with hl | hcol
    · exact .inl (by rw [← hl, hv])
    · refine .inr (Collision.symm keccak256 (hcol.mono keccak256
        (fun x hx => mem_hashedStrings_of_mem_path keccak256 hx) fun y hy => ?_))
      obtain ⟨hy, hlong⟩ := mem_longNodes.mp hy
      refine mem_hashedStrings_of_mem_path keccak256 (k := k) (mem_longNodes.mpr ⟨?_, hlong⟩)
      exact List.mem_of_mem_tail (mem_longNodes.mp hy).1
  · exact .inr ⟨_, List.mem_cons_self, _, List.mem_cons_self, henc, hroot⟩

end

/-! ## Keys of a list -/

theorem encodeUint_eq (n : ℕ) : encodeUint n = encodeBytes (strip (BigEndian.bytes 8 n)) := by
  unfold encodeUint encodeUintOfWidth
  split
  · next h0 =>
    subst h0
    rfl
  · rfl

theorem length_strip_bytes_le (n : ℕ) : (strip (BigEndian.bytes 8 n)).length ≤ 8 :=
  (length_strip_le _).trans (length_bytes 8 n).le

/-- No index's key starts another's. -/
theorem eq_of_encodeUint_start {m n : ℕ} (hm : m < u64Size) (hn : n < u64Size)
    (h : encodeUint m <+: encodeUint n) : m = n := by
  have hlen : ∀ i, (strip (BigEndian.bytes 8 i)).length < u64Size := by
    intro i
    have := length_strip_bytes_le i
    rw [u64Size_eq]
    omega
  rw [encodeUint_eq, encodeUint_eq] at h
  rw [u64Size_eq_pow] at hm hn
  exact strip_bytes_injective hm hn (eq_of_encodeBytes_start (hlen m) (hlen n) h)

theorem mem_indexedPairs {items : List Bytes} {k : List Nibble} {v : Bytes} :
    (k, v) ∈ indexedPairs items ↔ ∃ i, items[i]? = some v ∧ bytesToNibbles (encodeUint i) = k := by
  simp only [indexedPairs, List.mem_map, List.mem_zipIdx_iff_getElem?, Prod.mk.injEq]
  constructor
  · rintro ⟨p, hp, rfl, rfl⟩
    exact ⟨p.2, hp, rfl⟩
  · rintro ⟨i, hi, rfl⟩
    exact ⟨(v, i), hi, rfl, rfl⟩

theorem buildable_indexedPairs {items : List ByteVec} (hlen : items.length ≤ maxOrderedTrieItems) :
    Buildable (indexedPairs (items.map ByteVec.val)) where
  free := by
    have hlt : ((items.map ByteVec.val).zipIdx.map Prod.snd).Pairwise (· < ·) := by
      rw [List.zipIdx_map_snd]
      exact List.pairwise_lt_range'
    refine List.pairwise_map.mpr ((List.pairwise_map.mp hlt).imp_of_mem
      fun {p q} hp hq hpq => ?_)
    have hbound : ∀ r ∈ (items.map ByteVec.val).zipIdx, r.2 < u64Size := by
      intro r hr
      have := (List.getElem?_eq_some_iff.mp (List.mem_zipIdx_iff_getElem?.mp hr)).1
      rw [List.length_map] at this
      rw [maxOrderedTrieItems] at hlen
      rw [u64Size_eq]
      omega
    have hp := hbound p hp
    have hq := hbound q hq
    exact ⟨fun h => hpq.ne (eq_of_encodeUint_start hp hq (start_of_bytesToNibbles_start h)),
      fun h => hpq.ne' (eq_of_encodeUint_start hq hp (start_of_bytesToNibbles_start h))⟩
  short := by
    rintro ⟨k, v⟩ hp
    obtain ⟨i, hi, rfl⟩ := mem_indexedPairs.mp hp
    obtain ⟨item, -, rfl⟩ := List.mem_map.mp (List.mem_of_getElem? hi)
    refine ⟨?_, item.bound⟩
    rw [length_bytesToNibbles, encodeUint_eq]
    have h₁ := length_encodeBytes_le (strip (BigEndian.bytes 8 i))
    have h₂ := length_strip_bytes_le i
    omega

/-- The trie of a list. -/
def listTrie (items : List Bytes) : HexTrie := ofPairs ((indexedPairs items).mergeSort pairLe) 0

theorem lookup_listTrie {items : List ByteVec} (hlen : items.length ≤ maxOrderedTrieItems)
    {i : ℕ} (hi : i < u64Size) {v : Bytes} :
    lookup (listTrie (items.map ByteVec.val)) (bytesToNibbles (encodeUint i)) = some v ↔
      (items.map ByteVec.val)[i]? = some v := by
  have hbuild := buildable_indexedPairs hlen
  rw [listTrie, hbuild.sorted.lookup_ofPairs_eq_some, List.mem_mergeSort, mem_indexedPairs]
  constructor
  · rintro ⟨j, hj, he⟩
    have hj' := (List.getElem?_eq_some_iff.mp hj).1
    rw [List.length_map] at hj'
    rw [maxOrderedTrieItems] at hlen
    have hij : j = i := eq_of_encodeUint_start (by rw [u64Size_eq]; omega) hi
      (bytesToNibbles_injective he ▸ List.prefix_rfl)
    rwa [← hij]
  · exact fun h => ⟨i, h, rfl⟩

section

variable (keccak256 : Bytes → Hash)

/-- The root of a list is the hash of the root node of its trie, also for the empty list. -/
theorem orderedTrieRoot_eq (hempty : keccak256 [0x80] = emptyTrieRoot) {items : List ByteVec}
    (hlen : items.length ≤ maxOrderedTrieItems) :
    orderedTrieRoot keccak256 (items.map ByteVec.val) =
      keccak256 (encodeTrie keccak256 (listTrie (items.map ByteVec.val))) := by
  have htake : (items.map ByteVec.val).take (min (items.map ByteVec.val).length
      maxOrderedTrieItems) = items.map ByteVec.val := by
    rw [List.length_map, min_eq_left hlen, ← List.length_map (f := ByteVec.val), List.take_length]
  simp only [orderedTrieRoot, htake]
  split
  · next hnil =>
    rw [hnil, ← hempty, listTrie]
    simp [indexedPairs, ofPairs_nil, encodeTrie, nodeRlp, encodeRlp, encodeBytes, encodeString]
  · rw [(buildable_indexedPairs hlen).encodeNode_sorted, listTrie]

theorem eq_or_collision_of_root_eq (hempty : keccak256 [0x80] = emptyTrieRoot)
    {a b : List ByteVec} (ha : a.length ≤ maxOrderedTrieItems) (hb : b.length ≤ maxOrderedTrieItems)
    (hroot : orderedTrieRoot keccak256 (a.map ByteVec.val) =
      orderedTrieRoot keccak256 (b.map ByteVec.val)) :
    a = b ∨ Collision keccak256 (hashedStrings keccak256 (listTrie (a.map ByteVec.val)))
      (hashedStrings keccak256 (listTrie (b.map ByteVec.val))) := by
  rw [orderedTrieRoot_eq keccak256 hempty ha, orderedTrieRoot_eq keccak256 hempty hb] at hroot
  have hfits : ∀ {l : List ByteVec}, l.length ≤ maxOrderedTrieItems →
      Fits (listTrie (l.map ByteVec.val)) := fun hl => (buildable_indexedPairs hl).sorted.fits
  by_cases hcol : Collision keccak256 (hashedStrings keccak256 (listTrie (a.map ByteVec.val)))
      (hashedStrings keccak256 (listTrie (b.map ByteVec.val)))
  · exact .inr hcol
  left
  have hlt : ∀ {l : List ByteVec} {i : ℕ} {v : Bytes}, l.length ≤ maxOrderedTrieItems →
      (l.map ByteVec.val)[i]? = some v → i < u64Size := by
    intro l i v hl hi
    have := (List.getElem?_eq_some_iff.mp hi).1
    rw [List.length_map] at this
    rw [maxOrderedTrieItems] at hl
    rw [u64Size_eq]
    omega
  refine List.map_injective_iff.mpr (fun _ _ => ByteVec.ext) (List.ext_getElem? fun i => ?_)
  refine Option.ext fun v => ⟨fun hi => ?_, fun hi => ?_⟩
  · have hv := (lookup_listTrie ha (hlt ha hi)).mpr hi
    rcases lookup_of_root_eq keccak256 (hfits ha) (hfits hb) hroot hv with h | h
    · exact (lookup_listTrie hb (hlt ha hi)).mp h
    · exact absurd h hcol
  · have hv := (lookup_listTrie hb (hlt hb hi)).mpr hi
    rcases lookup_of_root_eq keccak256 (hfits hb) (hfits ha) hroot.symm hv with h | h
    · exact (lookup_listTrie ha (hlt hb hi)).mp h
    · exact absurd (Collision.symm keccak256 h) hcol

/-- Lists with one root are equal or exhibit a collision among the strings hashed for the two
roots; so the transaction and the receipt check accept one list per root, up to a collision. -/
theorem orderedTrieRoot_binds_list (hempty : keccak256 [0x80] = emptyTrieRoot)
    (a b : List ByteVec) (ha : a.length ≤ maxOrderedTrieItems)
    (hb : b.length ≤ maxOrderedTrieItems) :
    let same := a = b ∨
      Collision keccak256 (hashedStrings keccak256 (listTrie (a.map ByteVec.val)))
        (hashedStrings keccak256 (listTrie (b.map ByteVec.val)))
    (orderedTrieRoot keccak256 (a.map ByteVec.val) =
        orderedTrieRoot keccak256 (b.map ByteVec.val) → same) ∧
      (∀ (root : Hash) (hashesA hashesB : List Hash),
        verifyTxList keccak256 (a.map ByteVec.val) root = .ok hashesA →
        verifyTxList keccak256 (b.map ByteVec.val) root = .ok hashesB → same) ∧
      (∀ root : Hash, verifyReceiptList keccak256 (a.map ByteVec.val) root = .ok () →
        verifyReceiptList keccak256 (b.map ByteVec.val) root = .ok () → same) := by
  refine ⟨eq_or_collision_of_root_eq keccak256 hempty ha hb, ?_, ?_⟩
  · intro root hashesA hashesB hA hB
    simp only [verifyTxList, bind_eq_ok, require_eq_ok] at hA hB
    obtain ⟨-, -, -, hA, -⟩ := hA
    obtain ⟨-, -, -, hB, -⟩ := hB
    exact eq_or_collision_of_root_eq keccak256 hempty ha hb (hA.trans hB.symm)
  · intro root hA hB
    simp only [verifyReceiptList, bind_eq_ok, require_eq_ok] at hA hB
    obtain ⟨-, -, hA⟩ := hA
    obtain ⟨-, -, hB⟩ := hB
    exact eq_or_collision_of_root_eq keccak256 hempty ha hb (hA.trans hB.symm)

end

/-- The two lists `[01]` and `[01], []` under Keccak-256. -/
theorem orderedTrieRoot_binds_list_keccak :
    let a : List ByteVec := [⟨[1], by decide⟩]
    let b : List ByteVec := [⟨[1], by decide⟩, ⟨[], by decide⟩]
    Types.keccak256 [0x80] = emptyTrieRoot ∧
      (orderedTrieRoot Types.keccak256 (a.map ByteVec.val) =
          orderedTrieRoot Types.keccak256 (b.map ByteVec.val) →
        a = b ∨ Collision Types.keccak256
          (hashedStrings Types.keccak256 (listTrie (a.map ByteVec.val)))
          (hashedStrings Types.keccak256 (listTrie (b.map ByteVec.val)))) := by
  intro a b
  have hempty : Types.keccak256 [0x80] = emptyTrieRoot := by decide +kernel
  exact ⟨hempty, (orderedTrieRoot_binds_list Types.keccak256 hempty a b (by decide)
    (by decide)).1⟩

end HeliosBsc
