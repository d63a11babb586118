import HeliosBsc.Execution.OrderedTrie
import Mathlib.Data.List.GetD
import Mathlib.Data.List.FinRange

/-!
# The trie a builder's bytes stand for

`nodeRlp t` is the node of a trie as an RLP tree and `encodeTrie t` its bytes.
`encodeNode_eq_encodeTrie` says that `encode_node` writes the trie of its pairs, for sorted pairs
none of whose keys starts another, and the rest bounds the size and the nesting of a node, so that
the reader takes it back (`nodeItems_encodeTrie`).
-/

namespace HeliosBsc

open Checked Trie

/-- The trie of nibble keys. -/
abbrev HexTrie := Trie Nibble Bytes

section

variable (keccak256 : Bytes → Hash)

/-- What a parent holds for a child with this RLP tree. -/
def childItem (r : Rlp) : Rlp :=
  if (encodeRlp r).length < 32 then r else .bytes (keccak256 (encodeRlp r)).val

/-- A trie node as an RLP tree. -/
def nodeRlp : HexTrie → Rlp
  | .empty => .bytes []
  | .leaf p v => .list [.bytes (hexPrefixEncode p true), .bytes v]
  | .ext p c => .list [.bytes (hexPrefixEncode p false), childItem keccak256 (nodeRlp c)]
  | .branch c =>
    .list ((List.finRange 16).map (fun x => childItem keccak256 (nodeRlp (c x))) ++ [.bytes []])

/-- The bytes of a trie node. -/
def encodeTrie (t : HexTrie) : Bytes := encodeRlp (nodeRlp keccak256 t)

/-! ## `encode_node` writes the trie of its pairs -/

theorem childRef_encodeRlp (r : Rlp) :
    childRef keccak256 (encodeRlp r) = encodeRlp (childItem keccak256 r) := by
  unfold childRef childItem
  split
  · rfl
  · rw [encodeRlp]

theorem childItem_empty : childItem keccak256 (.bytes []) = .bytes [] := by
  unfold childItem
  rw [if_pos (by simp [encodeRlp, encodeBytes, encodeString])]

end

theorem le_of_append_cons_le {c a b : List Nibble} {x y : Nibble}
    (h : c ++ x :: a ≤ c ++ y :: b) : x ≤ y := by
  by_contra hlt
  have hless : c ++ y :: b < c ++ x :: a :=
    List.Lex.append_left (· < ·) (List.Lex.rel (Fin.not_le.mp hlt)) c
  exact absurd h (not_le.mpr hless)

/-- The nibble of a key after its first `pre`. -/
def nibbleAt (pre : ℕ) (p : Pair) : ℕ := (p.1.map Fin.val).getD pre 0

theorem nibbleAt_eq {pre : ℕ} {p : Pair} (h : pre < p.1.length) :
    nibbleAt pre p = p.1[pre].val := by
  rw [nibbleAt, List.getD_eq_getElem _ _ (by rwa [List.length_map]), List.getElem_map]

theorem hasNibble_eq {pre nibble : ℕ} {p : Pair} (h : pre < p.1.length) :
    hasNibble pre nibble p = decide (nibbleAt pre p = nibble) := by
  unfold hasNibble
  rw [List.getElem?_eq_getElem h, nibbleAt_eq h, Bool.eq_iff_iff]
  simp

/-- Along sorted keys that agree on their first `pre` nibbles the next one never falls. -/
theorem nibbleAt_mono {input : List Pair} {pre : ℕ} (hgood : Good input pre)
    (hlong : ∀ p ∈ input, pre < p.1.length) (hsorted : input.Pairwise fun a b => a.1 ≤ b.1) :
    input.Pairwise fun a b => nibbleAt pre a ≤ nibbleAt pre b := by
  refine hsorted.imp_of_mem fun {a b} ha hb hab => ?_
  have hsplit : ∀ (l : List Nibble) (hl : pre < l.length),
      l = l.take pre ++ l[pre] :: l.drop (pre + 1) := by
    intro l hl
    rw [List.cons_getElem_drop_succ, List.take_append_drop]
  rw [hsplit a.1 (hlong a ha), hsplit b.1 (hlong b hb), hgood.agree a ha b hb] at hab
  rw [nibbleAt_eq (hlong a ha), nibbleAt_eq (hlong b hb)]
  exact le_of_append_cons_le hab

/-- The slice that the builder cuts for a nibble is the group of its keys. -/
theorem slot_eq_group {p q : Pair} {rest : List Pair} {pre : ℕ}
    (hgood : Good (p :: q :: rest) pre)
    (hsorted : (p :: q :: rest).Pairwise fun a b => a.1 ≤ b.1) (x : Nibble) :
    slot (p :: q :: rest) p.1.length pre x.val = group pre x (p :: q :: rest) := by
  have hlong : ∀ r ∈ p :: q :: rest, pre < r.1.length := fun r hr => hgood.lt_length hr
  have hmono := nibbleAt_mono hgood hlong hsorted
  have hwhile : ∀ (l : List Pair) (n : ℕ), (∀ r ∈ l, r ∈ p :: q :: rest) →
      l.takeWhile (hasNibble pre n) = l.takeWhile (fun r => nibbleAt pre r = n) ∧
        l.dropWhile (hasNibble pre n) = l.dropWhile (fun r => nibbleAt pre r = n) := by
    intro l n hl
    induction l with
    | nil => simp
    | cons r l ih =>
      obtain ⟨ht, hd⟩ := ih fun s hs => hl s (List.mem_cons_of_mem r hs)
      simp only [List.takeWhile_cons, List.dropWhile_cons,
        hasNibble_eq (hlong r (hl r List.mem_cons_self)), ht, hd, and_self]
  -- the loop's slice holds the keys whose nibble is not below the loop's
  have hstart : ∀ n, slotStart (p :: q :: rest) p.1.length pre n =
      (p :: q :: rest).filter fun r => n ≤ nibbleAt pre r := by
    intro n
    induction n with
    | zero =>
      have hne : pre ≠ p.1.length := (hlong p List.mem_cons_self).ne
      simp [slotStart, hne]
    | succ n ih =>
      rw [slotStart, ih, (hwhile _ n fun r hr => List.mem_of_mem_filter hr).2,
        (takeWhile_eq_filter (hmono.filter _) fun r hr => by simpa using List.of_mem_filter hr).2,
        List.filter_filter]
      refine List.filter_congr fun r _ => ?_
      rw [← Bool.decide_and, decide_eq_decide]
      omega
  rw [slot, hstart, (hwhile _ _ fun r hr => List.mem_of_mem_filter hr).1,
    (takeWhile_eq_filter (hmono.filter _) fun r hr => by simpa using List.of_mem_filter hr).1,
    List.filter_filter]
  refine List.filter_congr fun r hr => ?_
  have hlt := hlong r hr
  rw [← Bool.decide_and, decide_eq_decide, nibbleAt_eq hlt, List.getElem?_eq_getElem hlt,
    Option.some.injEq, Fin.ext_iff]
  omega

section

variable (keccak256 : Bytes → Hash)

theorem encodeNode_eq_encodeTrie (input : List Pair) (pre : ℕ) (hgood : Good input pre)
    (hsorted : input.Pairwise fun a b => a.1 ≤ b.1) :
    encodeNode keccak256 input pre = encodeTrie keccak256 (ofPairs input pre) := by
  induction input, pre using ofPairs.induct with
  | case1 pre => rw [encodeNode, ofPairs, encodeTrie, nodeRlp, encodeRlp]
  | case2 pre key v =>
    rw [encodeNode, ofPairs, encodeTrie, nodeRlp, encodeRlp_list]
    simp [encodeRlp]
  | case3 pre key v q rest hlt ih =>
    rw [encodeNode, ofPairs, sharedOf_eq, if_pos hlt, if_pos hlt, ih hgood.shared hsorted]
    simp only [encodeTrie, nodeRlp, encodeRlp_list, childRef_encodeRlp]
    simp [encodeRlp]
  | case4 pre key v q rest hlt ih =>
    have hlong := hgood.lt_length (r := (key, v)) List.mem_cons_self
    have hne : pre ≠ key.length := hlong.ne
    rw [encodeNode, ofPairs, sharedOf_eq, if_neg hlt, if_neg hlt, if_neg hne]
    simp only [encodeTrie, nodeRlp, encodeRlp_list, List.map_append, List.map_map]
    rw [← List.map_coe_finRange_eq_range, List.map_map]
    congr 2
    · refine List.map_congr_left fun x _ => ?_
      have hslot := slot_eq_group hgood hsorted x
      dsimp only [Function.comp_apply] at hslot ⊢
      rw [hslot, ih x (hgood.group x) (hsorted.filter _), encodeTrie, childRef_encodeRlp]
      split
      · next hnil => rw [hnil, ofPairs_nil, nodeRlp, childItem_empty, encodeRlp]
      · rfl
    · simp [encodeRlp]

/-! ## Size and nesting of a node -/

/-- The items of a node that is not empty. -/
def trieItems (t : HexTrie) : List Rlp :=
  match nodeRlp keccak256 t with
  | .list items => items
  | .bytes _ => []

theorem nodeRlp_eq_list {t : HexTrie} (h : t ≠ .empty) :
    nodeRlp keccak256 t = .list (trieItems keccak256 t) := by
  cases t with
  | empty => exact absurd rfl h
  | leaf p v => rfl
  | ext p c => rfl
  | branch c => rfl

theorem length_childItem_le (r : Rlp) : (encodeRlp (childItem keccak256 r)).length ≤ 41 := by
  unfold childItem
  split
  · omega
  · have := length_encodeBytes_le (keccak256 (encodeRlp r)).val
    rw [(keccak256 (encodeRlp r)).len] at this
    rwa [encodeRlp]

/-- Tries that fit: keys of at most 64 nibbles, values no longer than a `Vec<u8>` can be. -/
abbrev Fits (t : HexTrie) : Prop := Within 64 (fun v : Bytes => v.length ≤ isizeMax) t

theorem length_encodeTrie_lt {t : HexTrie} (h : Fits t) :
    (encodeTrie keccak256 t).length < u64Size := by
  have hpath : ∀ (p : List Nibble) (leaf : Bool), p.length ≤ 64 →
      (encodeBytes (hexPrefixEncode p leaf)).length ≤ 42 := by
    intro p leaf hp
    have := length_encodeBytes_le (hexPrefixEncode p leaf)
    rw [length_hexPrefixEncode] at this
    omega
  rw [u64Size_eq]
  cases t with
  | empty => simp [encodeTrie, nodeRlp, encodeRlp, encodeBytes, encodeString]
  | leaf p v =>
    have hv : v.length ≤ isizeMax := h.2
    have h₁ := hpath p true h.1
    have h₂ := length_encodeBytes_le v
    have h₃ := length_encodeList_le [encodeBytes (hexPrefixEncode p true), encodeBytes v]
    simp only [List.flatten_cons, List.flatten_nil, List.length_append, List.length_nil] at h₃
    simp only [encodeTrie, nodeRlp, encodeRlp_list, List.map_cons, List.map_nil, encodeRlp]
    unfold isizeMax at hv
    omega
  | ext p c =>
    have h₁ := hpath p false h.1
    have h₂ := length_childItem_le keccak256 (nodeRlp keccak256 c)
    have h₃ := length_encodeList_le [encodeBytes (hexPrefixEncode p false),
      encodeRlp (childItem keccak256 (nodeRlp keccak256 c))]
    simp only [List.flatten_cons, List.flatten_nil, List.length_append, List.length_nil] at h₃
    rw [encodeTrie, nodeRlp, encodeRlp_list, List.map_cons, List.map_cons, List.map_nil, encodeRlp]
    omega
  | branch c =>
    have h₂ : ∀ x ∈ (List.finRange 16).map
        (fun x => encodeRlp (childItem keccak256 (nodeRlp keccak256 (c x)))), x.length ≤ 41 := by
      intro x hx
      obtain ⟨y, -, rfl⟩ := List.mem_map.mp hx
      exact length_childItem_le keccak256 _
    have h₃ := length_flatten_le h₂
    have h₄ := length_encodeBytes_le []
    rw [List.length_map, List.length_finRange] at h₃
    rw [encodeTrie, nodeRlp, encodeRlp_list]
    refine (length_encodeList_le _).trans_lt ?_
    simp only [List.map_append, List.map_map, List.map_cons, List.map_nil, encodeRlp,
      List.flatten_append, List.flatten_cons, List.flatten_nil, List.length_append,
      List.length_nil, Function.comp_def] at h₃ h₄ ⊢
    omega

theorem depth_childItem_le (r : Rlp) : (childItem keccak256 r).depth ≤ 31 := by
  unfold childItem
  split
  · have := r.depth_le_length
    omega
  · rw [Rlp.depth]
    omega

theorem depth_nodeRlp_le (t : HexTrie) : (nodeRlp keccak256 t).depth ≤ maxRlpDepth := by
  have key : ∀ items : List Rlp, (∀ x ∈ items, x.depth ≤ 31) →
      (Rlp.list items).depth ≤ maxRlpDepth := by
    intro items hi
    have : (items.map Rlp.depth).foldr max 0 ≤ 31 := foldr_max_le fun n hn => by
      obtain ⟨x, hx, rfl⟩ := List.mem_map.mp hn
      exact hi x hx
    rw [Rlp.depth_list, maxRlpDepth]
    omega
  have hb : ∀ b : Bytes, (Rlp.bytes b).depth ≤ 31 := fun b => by rw [Rlp.depth]; omega
  cases t with
  | empty => exact (hb []).trans (by unfold maxRlpDepth; omega)
  | leaf p v =>
    refine key _ fun x hx => ?_
    simp only [List.mem_cons, List.not_mem_nil, or_false] at hx
    rcases hx with rfl | rfl <;> exact hb _
  | ext p c =>
    refine key _ fun x hx => ?_
    simp only [List.mem_cons, List.not_mem_nil, or_false] at hx
    rcases hx with rfl | rfl
    · exact hb _
    · exact depth_childItem_le keccak256 _
  | branch c =>
    refine key _ fun x hx => ?_
    rcases List.mem_append.mp hx with hx | hx
    · obtain ⟨y, -, rfl⟩ := List.mem_map.mp hx
      exact depth_childItem_le keccak256 _
    · obtain rfl := List.mem_singleton.mp hx
      exact hb _

theorem decode_encodeTrie {t : HexTrie} (h : Fits t) :
    decode (encodeTrie keccak256 t) = .ok (nodeRlp keccak256 t) :=
  decode_encodeRlp (length_encodeTrie_lt keccak256 h) (depth_nodeRlp_le keccak256 t)

theorem nodeItems_encodeTrie {t : HexTrie} (h : Fits t) (hne : t ≠ .empty) :
    nodeItems (encodeTrie keccak256 t) = .ok (trieItems keccak256 t) := by
  unfold nodeItems
  rw [decode_encodeTrie keccak256 h, nodeRlp_eq_list keccak256 hne]
  rfl

/-- A trie over long keys has a root of at least 32 bytes, and so have its upper levels. -/
theorem le_length_encodeTrie {t : HexTrie} {d : ℕ} (h : FullDepth t d) :
    min 32 (d / 2 + 3) ≤ (encodeTrie keccak256 t).length := by
  have hchild : ∀ (c : HexTrie) (n : ℕ), min 32 n ≤ (encodeTrie keccak256 c).length →
      min 32 n ≤ (encodeRlp (childItem keccak256 (nodeRlp keccak256 c))).length := by
    intro c n hn
    unfold childItem
    split
    · exact hn
    · have := length_le_encodeBytes (keccak256 (encodeRlp (nodeRlp keccak256 c))).val
      rw [(keccak256 _).len] at this
      rw [encodeRlp]
      omega
  induction t generalizing d with
  | empty => exact h.elim
  | leaf p v =>
    obtain rfl : p.length = d := h
    have h₁ := length_le_encodeBytes (hexPrefixEncode p true)
    have h₂ := length_encodeBytes_pos v
    have h₃ := flatten_length_lt_encodeList [encodeBytes (hexPrefixEncode p true), encodeBytes v]
    rw [length_hexPrefixEncode] at h₁
    simp only [List.flatten_cons, List.flatten_nil, List.length_append, List.length_nil] at h₃
    simp only [encodeTrie, nodeRlp, encodeRlp_list, List.map_cons, List.map_nil, encodeRlp]
    omega
  | ext p c ih =>
    obtain ⟨d', rfl, hc⟩ := h
    have h₁ := length_le_encodeBytes (hexPrefixEncode p false)
    have h₂ := hchild c _ (ih hc)
    have h₃ := flatten_length_lt_encodeList [encodeBytes (hexPrefixEncode p false),
      encodeRlp (childItem keccak256 (nodeRlp keccak256 c))]
    rw [length_hexPrefixEncode] at h₁
    simp only [List.flatten_cons, List.flatten_nil, List.length_append, List.length_nil] at h₃
    rw [encodeTrie, nodeRlp, encodeRlp_list, List.map_cons, List.map_cons, List.map_nil, encodeRlp]
    omega
  | branch c ih =>
    obtain ⟨d', rfl, ⟨x, hx⟩, -⟩ := h
    have h₁ := hchild (c x) _ (ih x hx)
    have hmem : encodeRlp (childItem keccak256 (nodeRlp keccak256 (c x))) ∈ (List.finRange 16).map
        fun y => encodeRlp (childItem keccak256 (nodeRlp keccak256 (c y))) :=
      List.mem_map_of_mem (List.mem_finRange x)
    have h₂ := length_mem_le_flatten hmem
    have h₃ := length_encodeBytes_pos []
    rw [encodeTrie, nodeRlp, encodeRlp_list]
    refine le_trans ?_ (flatten_length_lt_encodeList _)
    simp only [List.map_append, List.map_map, List.map_cons, List.map_nil, encodeRlp,
      List.flatten_append, List.flatten_cons, List.flatten_nil, List.length_append,
      List.length_nil, Function.comp_def] at h₂ ⊢
    omega

end

end HeliosBsc
