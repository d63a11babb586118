import HeliosBsc.Execution.NodeEncoding

/-!
# Proofs against the trie of a map

What the walk of `mpt.rs` returns on a trie written by `ordered_trie.rs`. Soundness: whatever list
of nodes is offered, an answer is the trie's own, or the walk has hashed a node that collides with
one on the key's path. Completeness: the long nodes of the path are accepted. Both follow the
trie down, one step per node shape, with the child either inlined or the next node of the list.
-/

namespace HeliosBsc

open Checked Trie

/-- The nodes that are referred to by their hash. -/
def longNodes (l : List Bytes) : List Bytes := l.filter fun node => 32 ≤ node.length

section

variable (keccak256 : Bytes → Hash)

/-- Two different strings, one of each list, have the same hash. -/
def Collision (xs ys : List Bytes) : Prop :=
  ∃ x ∈ xs, ∃ y ∈ ys, x ≠ y ∧ keccak256 x = keccak256 y

theorem Collision.mono {xs xs' ys ys' : List Bytes} (h : Collision keccak256 xs ys)
    (hx : ∀ x ∈ xs, x ∈ xs') (hy : ∀ y ∈ ys, y ∈ ys') : Collision keccak256 xs' ys' := by
  obtain ⟨x, hxs, y, hys, hne, he⟩ := h
  exact ⟨x, hx x hxs, y, hy y hys, hne, he⟩

/-- The encoded nodes met on the way of a key down from the root. -/
def pathNodes (t : HexTrie) (k : List Nibble) : List Bytes := (path t k).map (encodeTrie keccak256)

/-! ## One step of the walk, by node shape -/

theorem path_differs_iff {p k : List Nibble} :
    (k.length < p.length ∨ k.take p.length ≠ p) ↔ ¬ p <+: k := by
  rw [List.prefix_iff_eq_take]
  constructor
  · rintro (h | h) he
    · have := congrArg List.length he
      rw [List.length_take] at this
      omega
    · exact h he.symm
  · intro h
    exact .inr fun he => h he.symm

/-- A leaf or an extension whose path leaves the key proves its absence. -/
theorem walkItems_off_path {p k : List Nibble} {leaf : Bool} {child : Rlp} {rest : List Bytes}
    (h : ¬ p <+: k) :
    walkItems keccak256 [.bytes (hexPrefixEncode p leaf), child] rest k =
      if rest = [] then .ok none else .error (.pathMismatch 0 k.length p.length) := by
  rw [walkItems, dif_neg (by simp)]
  simp only [Rlp.asBytes, mapError_ok, ok_bind, hexPrefixDecode_encode]
  rw [if_pos (path_differs_iff.mpr h)]

theorem walkItems_leaf (p r : List Nibble) (v : Bytes) (rest : List Bytes) :
    walkItems keccak256 [.bytes (hexPrefixEncode p true), .bytes v] rest (p ++ r) = do
      require (r = []) .keyLeftover
      require (rest = []) .extraNodes
      return some v := by
  rw [walkItems, dif_neg (by simp)]
  simp only [Rlp.asBytes, mapError_ok, ok_bind, hexPrefixDecode_encode]
  rw [if_neg (fun h => path_differs_iff.mp h (List.prefix_append p r)), if_pos trivial,
    List.drop_left]

theorem walkItems_ext (p r : List Nibble) (child : Rlp) (rest : List Bytes) :
    walkItems keccak256 [.bytes (hexPrefixEncode p false), child] rest (p ++ r) =
      followChild keccak256 child rest r false := by
  rw [walkItems, dif_neg (by simp)]
  simp only [Rlp.asBytes, mapError_ok, ok_bind, hexPrefixDecode_encode]
  rw [if_neg (fun h => path_differs_iff.mp h (List.prefix_append p r)), if_neg (by simp),
    List.drop_left]

theorem followChild_nil (rest : List Bytes) (k : List Nibble) (b : Bool) :
    followChild keccak256 (.bytes []) rest k b =
      if rest = [] then .ok none else .error .emptyChild := by
  rw [followChild]

theorem length_trieItems_branch (c : Nibble → HexTrie) :
    (trieItems keccak256 (.branch c)).length = 17 := by
  simp [trieItems, nodeRlp]

theorem walkItems_branch_nil (c : Nibble → HexTrie) (rest : List Bytes) :
    walkItems keccak256 (trieItems keccak256 (.branch c)) rest [] =
      if rest = [] then .ok none else .error .emptyChild := by
  rw [walkItems, dif_pos (length_trieItems_branch keccak256 c),
    ← followChild_nil keccak256 rest [] true]
  congr 1

theorem walkItems_branch_cons (c : Nibble → HexTrie) (rest : List Bytes) (x : Nibble)
    (k : List Nibble) :
    walkItems keccak256 (trieItems keccak256 (.branch c)) rest (x :: k) =
      followChild keccak256 (childItem keccak256 (nodeRlp keccak256 (c x))) rest k false := by
  rw [walkItems, dif_pos (length_trieItems_branch keccak256 c)]
  simp [trieItems, nodeRlp]

/-! ## From a node to its child -/

theorem followChild_short {c : HexTrie} (hne : c ≠ .empty)
    (hshort : (encodeTrie keccak256 c).length < 32) (rest : List Bytes) (k : List Nibble) :
    followChild keccak256 (childItem keccak256 (nodeRlp keccak256 c)) rest k false =
      walkItems keccak256 (trieItems keccak256 c) rest k := by
  unfold encodeTrie at hshort
  rw [childItem, if_pos hshort, nodeRlp_eq_list keccak256 hne, followChild]

theorem followChild_long {c : HexTrie} (hlong : 32 ≤ (encodeTrie keccak256 c).length)
    (rest : List Bytes) (k : List Nibble) :
    followChild keccak256 (childItem keccak256 (nodeRlp keccak256 c)) rest k false =
      consumeHashed keccak256 rest (keccak256 (encodeTrie keccak256 c)).val k := by
  unfold encodeTrie at hlong
  rw [childItem, if_neg (Nat.not_lt.mpr hlong)]
  have hlen := (keccak256 (encodeRlp (nodeRlp keccak256 c))).len
  cases hh : (keccak256 (encodeRlp (nodeRlp keccak256 c))).val with
  | nil =>
    rw [hh] at hlen
    simp at hlen
  | cons y b =>
    rw [hh] at hlen
    rw [followChild, if_neg (by simp), if_pos (by omega), encodeTrie, hh]

theorem consumeHashed_eq_ok {rest : List Bytes} {h : Hash} {k : List Nibble} {r : Option Bytes}
    (hok : consumeHashed keccak256 rest h.val k = .ok r) :
    ∃ raw tail items, rest = raw :: tail ∧ 32 ≤ raw.length ∧ keccak256 raw = h ∧
      nodeItems raw = .ok items ∧ walkItems keccak256 items tail k = .ok r := by
  cases rest with
  | nil => simp [consumeHashed] at hok
  | cons raw tail =>
    rw [consumeHashed] at hok
    simp only [bind_eq_ok, require_eq_ok] at hok
    obtain ⟨-, href, items, hitems, hwalk⟩ := hok
    unfold nodeRef at href
    split at href
    · next hlt =>
      have hlen := h.len
      rw [← href] at hlen
      omega
    · next hge =>
      exact ⟨raw, tail, items, rfl, Nat.not_lt.mp hge, FixedBytes.ext href, hitems, hwalk⟩

theorem consumeHashed_encodeTrie {c : HexTrie} (hfits : Fits c) (hne : c ≠ .empty)
    (hlong : 32 ≤ (encodeTrie keccak256 c).length) (rest : List Bytes) (k : List Nibble) :
    consumeHashed keccak256 (encodeTrie keccak256 c :: rest)
        (keccak256 (encodeTrie keccak256 c)).val k =
      walkItems keccak256 (trieItems keccak256 c) rest k := by
  rw [consumeHashed]
  have href : nodeRef keccak256 (encodeTrie keccak256 c) =
      (keccak256 (encodeTrie keccak256 c)).val := if_neg (Nat.not_lt.mpr hlong)
  rw [require_of href, nodeItems_encodeTrie keccak256 hfits hne]
  rfl

theorem mem_longNodes {l : List Bytes} {x : Bytes} :
    x ∈ longNodes l ↔ x ∈ l ∧ 32 ≤ x.length := by
  simp [longNodes]

theorem eq_or_collision {c : HexTrie} {raw : Bytes} {nodes rest : List Bytes}
    (hc : encodeTrie keccak256 c ∈ nodes) (hraw : raw ∈ rest)
    (h : keccak256 raw = keccak256 (encodeTrie keccak256 c)) :
    raw = encodeTrie keccak256 c ∨ Collision keccak256 nodes rest := by
  by_cases he : raw = encodeTrie keccak256 c
  · exact .inl he
  · exact .inr ⟨_, hc, raw, hraw, Ne.symm he, h.symm⟩

/-! ## Soundness -/

/-- What the walk answers below a node: the trie's own answer, or a collision on the way. -/
def Sound (t : HexTrie) : Prop :=
  ∀ rest k r, walkItems keccak256 (trieItems keccak256 t) rest k = .ok r →
    r = lookup t k ∨
      Collision keccak256 (longNodes (pathNodes keccak256 t k)) (longNodes rest)

theorem pathNodes_eq_cons {t : HexTrie} (h : t ≠ .empty) (k : List Nibble) :
    pathNodes keccak256 t k = encodeTrie keccak256 t :: (pathNodes keccak256 t k).tail := by
  cases t with
  | empty => exact absurd rfl h
  | leaf p v => rfl
  | ext p c => rfl
  | branch c => cases k <;> rfl

theorem sound_child {c : HexTrie} (hfits : Fits c) (hc : c ≠ .empty → Sound keccak256 c)
    {rest : List Bytes} {k : List Nibble} {r : Option Bytes}
    (h : followChild keccak256 (childItem keccak256 (nodeRlp keccak256 c)) rest k false = .ok r) :
    r = lookup c k ∨
      Collision keccak256 (longNodes (pathNodes keccak256 c k)) (longNodes rest) := by
  by_cases hne : c = .empty
  · subst hne
    rw [nodeRlp, childItem_empty, followChild_nil] at h
    split_ifs at h
    · exact .inl (Except.ok.inj h).symm
  by_cases hlong : (encodeTrie keccak256 c).length < 32
  · rw [followChild_short keccak256 hne hlong] at h
    exact hc hne rest k r h
  rw [Nat.not_lt] at hlong
  rw [followChild_long keccak256 hlong] at h
  obtain ⟨raw, tail, items, rfl, hraw, hhash, hitems, hwalk⟩ := consumeHashed_eq_ok keccak256 h
  have hhead : encodeTrie keccak256 c ∈ longNodes (pathNodes keccak256 c k) := by
    rw [pathNodes_eq_cons keccak256 hne]
    exact mem_longNodes.mpr ⟨List.mem_cons_self, hlong⟩
  have hmem : raw ∈ longNodes (raw :: tail) := mem_longNodes.mpr ⟨List.mem_cons_self, hraw⟩
  rcases eq_or_collision keccak256 hhead hmem hhash with rfl | hcol
  · rw [nodeItems_encodeTrie keccak256 hfits hne] at hitems
    obtain rfl := Except.ok.inj hitems
    refine (hc hne tail k r hwalk).imp_right fun hcol =>
      hcol.mono keccak256 (fun _ hx => hx) fun y hy => ?_
    rw [mem_longNodes] at hy ⊢
    exact ⟨List.mem_cons_of_mem _ hy.1, hy.2⟩
  · exact .inr hcol

theorem Collision.of_tail {t : HexTrie} {k : List Nibble} {nodes rest : List Bytes}
    (h : Collision keccak256 (longNodes nodes) rest)
    (hsub : nodes = (pathNodes keccak256 t k).tail) :
    Collision keccak256 (longNodes (pathNodes keccak256 t k)) rest := by
  refine h.mono keccak256 (fun x hx => ?_) fun _ hy => hy
  rw [mem_longNodes] at hx ⊢
  rw [hsub] at hx
  exact ⟨List.mem_of_mem_tail hx.1, hx.2⟩

/-- Every answer of the walk is the trie's own, or there is a collision. -/
theorem sound {t : HexTrie} (hfits : Fits t) (hne : t ≠ .empty) : Sound keccak256 t := by
  induction t with
  | empty => exact absurd rfl hne
  | leaf p v =>
    intro rest k r h
    left
    by_cases hp : p <+: k
    · obtain ⟨s, rfl⟩ := hp
      have := walkItems_leaf keccak256 p s v rest
      rw [trieItems, nodeRlp, this] at h
      simp only [bind_eq_ok, require_eq_ok, pure_eq_ok, Except.ok.injEq] at h
      obtain ⟨-, rfl, -, -, rfl⟩ := h
      simp [lookup]
    · rw [trieItems, nodeRlp, walkItems_off_path keccak256 hp] at h
      split_ifs at h
      have hk : k ≠ p := fun he => hp (he ▸ List.prefix_rfl)
      rw [lookup, if_neg hk]
      exact (Except.ok.inj h).symm
  | ext p c ih =>
    intro rest k r h
    by_cases hp : p <+: k
    · obtain ⟨s, rfl⟩ := hp
      rw [trieItems, nodeRlp, walkItems_ext keccak256] at h
      refine (sound_child keccak256 hfits.2 (ih hfits.2) h).imp (fun hr => ?_) fun hcol => ?_
      · rw [hr, lookup, stripPrefix_append]
      · refine hcol.of_tail keccak256 ?_
        simp [pathNodes, path]
    · rw [trieItems, nodeRlp, walkItems_off_path keccak256 hp] at h
      split_ifs at h
      left
      rw [lookup, stripPrefix_eq_none.mpr hp]
      exact (Except.ok.inj h).symm
  | branch c ih =>
    intro rest k r h
    cases k with
    | nil =>
      rw [walkItems_branch_nil] at h
      split_ifs at h
      exact .inl (Except.ok.inj h).symm
    | cons x k =>
      rw [walkItems_branch_cons] at h
      refine (sound_child keccak256 (hfits x) (ih x (hfits x)) h).imp_right fun hcol => ?_
      exact hcol.of_tail keccak256 rfl

/-! ## Completeness -/

/-- The long nodes below a node on the key's path are accepted. -/
def Complete (t : HexTrie) : Prop :=
  ∀ k, Ends t k →
    walkItems keccak256 (trieItems keccak256 t) (longNodes (pathNodes keccak256 t k).tail) k =
      .ok (lookup t k)

theorem complete_child {c : HexTrie} (hfits : Fits c) (hc : c ≠ .empty → Complete keccak256 c)
    {k : List Nibble} (hends : Ends c k) :
    followChild keccak256 (childItem keccak256 (nodeRlp keccak256 c))
      (longNodes (pathNodes keccak256 c k)) k false = .ok (lookup c k) := by
  by_cases hne : c = .empty
  · subst hne
    rw [nodeRlp, childItem_empty, followChild_nil]
    rfl
  rw [pathNodes_eq_cons keccak256 hne]
  by_cases hlong : (encodeTrie keccak256 c).length < 32
  · rw [followChild_short keccak256 hne hlong, longNodes,
      List.filter_cons_of_neg (by simpa using hlong)]
    exact hc hne k hends
  · rw [Nat.not_lt] at hlong
    rw [followChild_long keccak256 hlong, longNodes,
      List.filter_cons_of_pos (by simpa using hlong),
      consumeHashed_encodeTrie keccak256 hfits hne hlong]
    exact hc hne k hends

theorem complete {t : HexTrie} (hfits : Fits t) (hne : t ≠ .empty) : Complete keccak256 t := by
  induction t with
  | empty => exact absurd rfl hne
  | leaf p v =>
    intro k hends
    show walkItems keccak256 [.bytes (hexPrefixEncode p true), .bytes v] [] k = _
    by_cases hp : p <+: k
    · obtain rfl : k = p := hends hp
      have := walkItems_leaf keccak256 k [] v []
      rw [List.append_nil] at this
      simp [this, lookup, require_of]
    · have hk : k ≠ p := fun he => hp (he ▸ List.prefix_rfl)
      rw [walkItems_off_path keccak256 hp, if_pos rfl, lookup, if_neg hk]
  | ext p c ih =>
    intro k hends
    by_cases hp : p <+: k
    · obtain ⟨s, rfl⟩ := hp
      have htail : (pathNodes keccak256 (.ext p c) (p ++ s)).tail = pathNodes keccak256 c s := by
        simp [pathNodes, path]
      rw [htail, trieItems, nodeRlp, walkItems_ext keccak256, lookup, stripPrefix_append]
      exact complete_child keccak256 hfits.2 (ih hfits.2) (hends s rfl)
    · have htail : (pathNodes keccak256 (.ext p c) k).tail = [] := by
        simp [pathNodes, path, stripPrefix_eq_none.mpr hp]
      rw [htail, trieItems, nodeRlp, walkItems_off_path keccak256 hp, lookup,
        stripPrefix_eq_none.mpr hp]
      rfl
  | branch c ih =>
    intro k hends
    cases k with
    | nil =>
      rw [walkItems_branch_nil]
      rfl
    | cons x k =>
      rw [walkItems_branch_cons]
      exact complete_child keccak256 (hfits x) (ih x (hfits x)) hends

end

/-! ## The trie of sorted pairs -/

theorem pairLe_trans (a b c : Pair) (hab : pairLe a b = true) (hbc : pairLe b c = true) :
    pairLe a c = true := by
  simp only [pairLe, decide_eq_true_eq] at *
  exact hab.trans hbc

theorem pairLe_total (a b : Pair) : (pairLe a b || pairLe b a) = true := by
  simp only [pairLe, Bool.or_eq_true, decide_eq_true_eq]
  exact le_total a.1 b.1

theorem pairwise_pairLe_mergeSort (l : List Pair) :
    (l.mergeSort pairLe).Pairwise fun a b => a.1 ≤ b.1 :=
  (List.pairwise_mergeSort pairLe_trans pairLe_total l).imp fun hab => by
    simpa [pairLe] using hab

/-- Pairs that can be built: no key starts another, keys of at most 64 nibbles, values no longer
than a `Vec<u8>` can be. -/
structure Buildable (pairs : List Pair) : Prop where
  free : pairs.Pairwise fun p q => Incomparable p.1 q.1
  short : ∀ p ∈ pairs, p.1.length ≤ 64 ∧ p.2.length ≤ isizeMax

theorem Incomparable.symm {a b : List Nibble} (h : Incomparable a b) : Incomparable b a :=
  ⟨h.2, h.1⟩

namespace Buildable

variable {pairs : List Pair} (h : Buildable pairs)
include h

theorem sorted : Buildable (pairs.mergeSort pairLe) where
  free := (List.Perm.pairwise_iff (fun hab => Incomparable.symm hab)
    (List.mergeSort_perm pairs pairLe)).mpr h.free
  short := fun p hp => h.short p (List.mem_mergeSort.mp hp)

theorem fits : Fits (ofPairs pairs 0) := within_ofPairs pairs 0 h.short

theorem lookup_ofPairs_eq_some {k : List Nibble} {v : Bytes} :
    lookup (ofPairs pairs 0) k = some v ↔ (k, v) ∈ pairs := by
  rw [lookup_ofPairs pairs 0 k (Good.root h.free), find_eq_some_iff h.free]

theorem encodeNode_sorted (keccak256 : Bytes → Hash) :
    encodeNode keccak256 (pairs.mergeSort pairLe) 0 =
      encodeTrie keccak256 (ofPairs (pairs.mergeSort pairLe) 0) :=
  encodeNode_eq_encodeTrie keccak256 _ 0 (Good.root h.sorted.free) (pairwise_pairLe_mergeSort pairs)

end Buildable

/-! ## Maps from 32-byte keys -/

/-- A non-empty finite map from 32-byte keys to byte strings. -/
structure KeyMap where
  entries : List (Hash × ByteVec)
  nodup : (entries.map Prod.fst).Nodup
  nonempty : entries ≠ []

namespace KeyMap

variable (M : KeyMap)

/-- The value at a key. -/
def get (k : Hash) : Option Bytes := (M.entries.find? fun e => e.1 = k).map fun e => e.2.val

/-- The pairs of the map, in the order of `entries`. -/
def pairs : List Pair := M.entries.map fun e => (bytesToNibbles e.1.val, e.2.val)

/-- The pairs sorted by nibble key. -/
def sortedPairs : List Pair := M.pairs.mergeSort pairLe

/-- The hash of the root node that `encode_node` builds. -/
def root (keccak256 : Bytes → Hash) : Hash := keccak256 (encodeNode keccak256 M.sortedPairs 0)

/-- The trie that `encode_node` writes. -/
def trie : HexTrie := ofPairs M.sortedPairs 0

/-- The encoded nodes of at least 32 bytes on the way of a key down from the root. -/
def proofFor (keccak256 : Bytes → Hash) (k : Hash) : List Bytes :=
  longNodes (pathNodes keccak256 M.trie (bytesToNibbles k.val))

theorem buildable : Buildable M.pairs where
  free := by
    refine List.pairwise_map.mpr ((List.pairwise_map.mp M.nodup).imp fun {a b} hab => ?_)
    have hkeys : a.1.val ≠ b.1.val := fun he => hab (FixedBytes.ext he)
    have hlen : a.1.val.length = b.1.val.length := by rw [a.1.len, b.1.len]
    exact ⟨fun hp => hkeys ((start_of_bytesToNibbles_start hp).eq_of_length hlen),
      fun hp => hkeys ((start_of_bytesToNibbles_start hp).eq_of_length hlen.symm).symm⟩
  short := by
    intro p hp
    obtain ⟨e, -, rfl⟩ := List.mem_map.mp hp
    refine ⟨?_, e.2.bound⟩
    rw [length_bytesToNibbles, e.1.len]

theorem get_eq_some_iff {k : Hash} {v : Bytes} :
    M.get k = some v ↔ (bytesToNibbles k.val, v) ∈ M.sortedPairs := by
  have hmem : (bytesToNibbles k.val, v) ∈ M.sortedPairs ↔ ∃ e ∈ M.entries, e.1 = k ∧ e.2.val = v := by
    simp only [sortedPairs, pairs, List.mem_mergeSort, List.mem_map, Prod.mk.injEq,
      bytesToNibbles_injective.eq_iff, FixedBytes.val_injective.eq_iff]
  rw [hmem]
  constructor
  · intro h
    obtain ⟨e, he, hv⟩ := Option.map_eq_some_iff.mp h
    exact ⟨e, List.mem_of_find?_eq_some he, by simpa using List.find?_some he, hv⟩
  · rintro ⟨e, he, rfl, rfl⟩
    -- the entry that is found has the same key, hence is the same entry
    have hfind : (M.entries.find? fun e' => e'.1 = e.1) = some e := by
      cases hf : M.entries.find? fun e' => e'.1 = e.1 with
      | none => simpa using List.find?_eq_none.mp hf e he
      | some e' =>
        have hkey : e'.1 = e.1 := by simpa using List.find?_some hf
        rw [List.inj_on_of_nodup_map M.nodup (List.mem_of_find?_eq_some hf) he hkey]
    rw [get, hfind, Option.map_some]

theorem lookup_trie (k : Hash) : lookup M.trie (bytesToNibbles k.val) = M.get k := by
  refine Option.ext fun v => ?_
  rw [M.get_eq_some_iff]
  exact M.buildable.sorted.lookup_ofPairs_eq_some

theorem fullDepth_trie : FullDepth M.trie 64 := by
  have hne : M.sortedPairs ≠ [] := by
    refine List.ne_nil_of_length_pos ?_
    rw [sortedPairs, List.length_mergeSort, pairs, List.length_map]
    exact List.length_pos_of_ne_nil M.nonempty
  refine fullDepth_ofPairs (n := 64) M.sortedPairs 0 (Good.root M.buildable.sorted.free) hne
    fun p hp => ?_
  obtain ⟨e, -, rfl⟩ := List.mem_map.mp (List.mem_mergeSort.mp hp)
  rw [length_bytesToNibbles, e.1.len]

theorem trie_ne_empty : M.trie ≠ .empty := by
  intro h
  have := M.fullDepth_trie
  rw [h] at this
  exact this

theorem root_eq (keccak256 : Bytes → Hash) :
    M.root keccak256 = keccak256 (encodeTrie keccak256 M.trie) := by
  rw [root, sortedPairs, M.buildable.encodeNode_sorted]
  rfl

theorem long_root (keccak256 : Bytes → Hash) : 32 ≤ (encodeTrie keccak256 M.trie).length := by
  have := le_length_encodeTrie keccak256 M.fullDepth_trie
  omega

end KeyMap

/-- A proof against the root of a map is answered with the map's value at the key, or exhibits a
collision between a node on the key's path and a node of the proof; and the path's long nodes are
a proof. -/
theorem verifyTrieProof_sound_and_complete (keccak256 : Bytes → Hash) (M : KeyMap) (k : Hash) :
    (∀ (proof : List Bytes) (answer : Option Bytes),
      verifyTrieProof keccak256 (M.root keccak256) k proof = .ok answer →
        answer = M.get k ∨
          Collision keccak256 (M.proofFor keccak256 k) (longNodes proof)) ∧
      verifyTrieProof keccak256 (M.root keccak256) k (M.proofFor keccak256 k) =
        .ok (M.get k) := by
  have hfits : Fits M.trie := M.buildable.sorted.fits
  have hne := M.trie_ne_empty
  have hlong := M.long_root keccak256
  -- the root is a hashed child of the caller, so the child lemmas apply to it
  have hroot : ∀ proof, consumeHashed keccak256 proof (M.root keccak256).val
      (bytesToNibbles k.val) = followChild keccak256
        (childItem keccak256 (nodeRlp keccak256 M.trie)) proof (bytesToNibbles k.val) false := by
    intro proof
    rw [followChild_long keccak256 hlong, M.root_eq]
  constructor
  · intro proof answer h
    simp only [verifyTrieProof, verifyNibbleProof, bind_eq_ok, require_eq_ok] at h
    obtain ⟨-, -, h⟩ := h
    rw [hroot] at h
    rw [← M.lookup_trie]
    exact sound_child keccak256 hfits (fun _ => sound keccak256 hfits hne) h
  · have hends : Ends M.trie (bytesToNibbles k.val) := by
      refine ends_of_fullDepth ?_
      rw [length_bytesToNibbles, k.len]
      exact M.fullDepth_trie
    have hproof : M.proofFor keccak256 k ≠ [] := by
      refine List.ne_nil_of_mem (a := encodeTrie keccak256 M.trie) ?_
      rw [KeyMap.proofFor, pathNodes_eq_cons keccak256 hne]
      exact mem_longNodes.mpr ⟨List.mem_cons_self, hlong⟩
    rw [verifyTrieProof, verifyNibbleProof, require_of hproof, ok_bind, hroot, ← M.lookup_trie]
    exact complete_child keccak256 hfits (fun _ => complete keccak256 hfits hne) hends

end HeliosBsc
