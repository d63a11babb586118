import HeliosBsc.Types.Bytes

/-!
# Nibbles and compact paths

`bytes_to_nibbles` and the hex-prefix code of the paths in trie nodes, decoded by
`mpt.rs::hex_prefix_decode` and written by `ordered_trie.rs::hex_prefix_encode`. The decoder takes
canonical spellings only: it reads back every path, and it accepts nothing that the encoder does not
write.
-/

namespace HeliosBsc

open Checked

/-- Half a byte; the source keeps nibbles in a `Vec<u8>`. -/
abbrev Nibble := Fin 16

def hiNibble (x : UInt8) : Nibble := ⟨x.toNat / 16, by have := x.toNat_lt; omega⟩

def loNibble (x : UInt8) : Nibble := ⟨x.toNat % 16, by omega⟩

/-- `bytes_to_nibbles`. -/
def bytesToNibbles : Bytes → List Nibble
  | [] => []
  | x :: b => hiNibble x :: loNibble x :: bytesToNibbles b

/-- `(a << 4) | b`. -/
def packNibbles (a b : Nibble) : UInt8 := UInt8.ofNat (16 * a.val + b.val)

/-- The loop over `rest.chunks(2)`; the source only runs it on an even number of nibbles. -/
def packPairs : List Nibble → Bytes
  | a :: b :: rest => packNibbles a b :: packPairs rest
  | _ => []

/-- The flag nibble: oddness in bit 0, leaf in bit 1. -/
def hexPrefixFlag (odd leaf : Bool) : Nibble :=
  match odd, leaf with
  | false, false => 0
  | true, false => 1
  | false, true => 2
  | true, true => 3

/-- `hex_prefix_encode`. -/
def hexPrefixEncode (nibbles : List Nibble) (leaf : Bool) : Bytes :=
  let odd := nibbles.length % 2
  packNibbles (hexPrefixFlag (odd == 1) leaf) (if odd = 1 then nibbles.headD 0 else 0) ::
    packPairs (nibbles.drop odd)

/-- `hex_prefix_decode`; `none` stands for the error value `bad()`. -/
def hexPrefixDecode (path : Bytes) : Option (List Nibble × Bool) :=
  match path with
  | [] => none
  | first :: _ =>
    let flag := first.toNat / 16
    if 3 < flag then none
    else
      let isLeaf := decide (flag / 2 % 2 = 1)
      let nibs := bytesToNibbles path
      if flag % 2 = 1 then some (nibs.drop 1, isLeaf)
      else if nibs.length < 2 then none
      -- even length: the low nibble of the first byte is padding and must be zero
      else if nibs[1]? ≠ some 0 then none
      else some (nibs.drop 2, isLeaf)

/-! ## Packing and unpacking -/

theorem toNat_packNibbles (a b : Nibble) : (packNibbles a b).toNat = 16 * a.val + b.val := by
  have := a.isLt
  have := b.isLt
  rw [packNibbles, UInt8.toNat_ofNat']
  omega

@[simp] theorem hiNibble_packNibbles (a b : Nibble) : hiNibble (packNibbles a b) = a := by
  have := b.isLt
  refine Fin.ext ?_
  show (packNibbles a b).toNat / 16 = a.val
  rw [toNat_packNibbles]
  omega

@[simp] theorem loNibble_packNibbles (a b : Nibble) : loNibble (packNibbles a b) = b := by
  have := b.isLt
  refine Fin.ext ?_
  show (packNibbles a b).toNat % 16 = b.val
  rw [toNat_packNibbles]
  omega

theorem packNibbles_nibbles (x : UInt8) : packNibbles (hiNibble x) (loNibble x) = x := by
  refine UInt8.toNat_inj.mp ?_
  rw [toNat_packNibbles]
  show 16 * (x.toNat / 16) + x.toNat % 16 = x.toNat
  omega

@[simp] theorem length_bytesToNibbles (b : Bytes) : (bytesToNibbles b).length = 2 * b.length := by
  induction b with
  | nil => rfl
  | cons x b ih =>
    simp only [bytesToNibbles, List.length_cons, ih]
    omega

theorem packPairs_bytesToNibbles (b : Bytes) : packPairs (bytesToNibbles b) = b := by
  induction b with
  | nil => rfl
  | cons x b ih => rw [bytesToNibbles, packPairs, packNibbles_nibbles, ih]

theorem bytesToNibbles_injective : Function.Injective bytesToNibbles :=
  Function.LeftInverse.injective packPairs_bytesToNibbles

theorem start_of_bytesToNibbles_start {a b : Bytes}
    (h : bytesToNibbles a <+: bytesToNibbles b) : a <+: b := by
  induction a generalizing b with
  | nil => exact List.nil_prefix
  | cons x a ih =>
    cases b with
    | nil => simp [bytesToNibbles] at h
    | cons y b =>
      simp only [bytesToNibbles, List.cons_prefix_cons] at h
      obtain ⟨hhi, hlo, hrest⟩ := h
      rw [List.cons_prefix_cons, ← packNibbles_nibbles x, hhi, hlo, packNibbles_nibbles]
      exact ⟨rfl, ih hrest⟩

theorem bytesToNibbles_packPairs (n : List Nibble) (h : n.length % 2 = 0) :
    bytesToNibbles (packPairs n) = n := by
  induction n using packPairs.induct with
  | case1 a b rest ih =>
    simp only [List.length_cons] at h
    rw [packPairs, bytesToNibbles, ih (by omega)]
    simp
  | case2 n hn =>
    rcases n with _ | ⟨a, _ | ⟨b, rest⟩⟩
    · rfl
    · simp at h
    · exact absurd rfl (hn a b rest)

theorem length_packPairs (n : List Nibble) : (packPairs n).length = n.length / 2 := by
  induction n using packPairs.induct with
  | case1 a b rest ih =>
    simp only [packPairs, List.length_cons, ih]
    omega
  | case2 n hn =>
    rcases n with _ | ⟨a, _ | ⟨b, rest⟩⟩
    · rfl
    · simp [packPairs]
    · exact absurd rfl (hn a b rest)

/-! ## The round trip -/

theorem hexPrefixEncode_even {n : List Nibble} (h : n.length % 2 = 0) (leaf : Bool) :
    hexPrefixEncode n leaf = packNibbles (hexPrefixFlag false leaf) 0 :: packPairs n := by
  unfold hexPrefixEncode
  simp [h]

theorem hexPrefixEncode_odd {x : Nibble} {n : List Nibble} (h : n.length % 2 = 0) (leaf : Bool) :
    hexPrefixEncode (x :: n) leaf = packNibbles (hexPrefixFlag true leaf) x :: packPairs n := by
  have h1 : (x :: n).length % 2 = 1 := by
    rw [List.length_cons]
    omega
  unfold hexPrefixEncode
  rw [h1]
  simp

theorem exists_cons_of_odd {n : List Nibble} (h : n.length % 2 = 1) :
    ∃ x m, n = x :: m ∧ m.length % 2 = 0 := by
  obtain ⟨x, m, rfl⟩ := List.exists_cons_of_length_pos (show 0 < n.length by omega)
  refine ⟨x, m, rfl, ?_⟩
  rw [List.length_cons] at h
  omega

theorem length_hexPrefixEncode (n : List Nibble) (leaf : Bool) :
    (hexPrefixEncode n leaf).length = n.length / 2 + 1 := by
  rcases Nat.mod_two_eq_zero_or_one n.length with h | h
  · rw [hexPrefixEncode_even h, List.length_cons, length_packPairs]
  · obtain ⟨x, m, rfl, hm⟩ := exists_cons_of_odd h
    rw [hexPrefixEncode_odd hm, List.length_cons, length_packPairs, List.length_cons]
    omega

theorem val_hexPrefixFlag (odd leaf : Bool) :
    (hexPrefixFlag odd leaf).val = odd.toNat + 2 * leaf.toNat := by
  cases odd <;> cases leaf <;> rfl

/-- The decoder reads back every path and the leaf flag. -/
theorem hexPrefixDecode_encode (n : List Nibble) (leaf : Bool) :
    hexPrefixDecode (hexPrefixEncode n leaf) = some (n, leaf) := by
  have hflag : ∀ (odd : Bool) (x : Nibble),
      (packNibbles (hexPrefixFlag odd leaf) x).toNat / 16 = odd.toNat + 2 * leaf.toNat := by
    intro odd x
    have hval := val_hexPrefixFlag odd leaf
    have := x.isLt
    rw [toNat_packNibbles]
    omega
  rcases Nat.mod_two_eq_zero_or_one n.length with h | h
  · rw [hexPrefixEncode_even h, hexPrefixDecode, hflag]
    simp only [bytesToNibbles, bytesToNibbles_packPairs n h]
    cases leaf <;> simp
  · obtain ⟨x, m, rfl, hm⟩ := exists_cons_of_odd h
    rw [hexPrefixEncode_odd hm, hexPrefixDecode, hflag]
    simp only [bytesToNibbles, bytesToNibbles_packPairs m hm]
    cases leaf <;> simp

theorem packNibbles_flag {x : UInt8} (h : x.toNat / 16 ≤ 3) :
    packNibbles (hexPrefixFlag (decide (x.toNat / 16 % 2 = 1)) (decide (x.toNat / 16 / 2 % 2 = 1)))
      (loNibble x) = x := by
  have hflag : hexPrefixFlag (decide (x.toNat / 16 % 2 = 1)) (decide (x.toNat / 16 / 2 % 2 = 1)) =
      hiNibble x := by
    have hbit : ∀ a, (decide (a % 2 = 1)).toNat = a % 2 := by
      intro a
      rcases Nat.mod_two_eq_zero_or_one a with ha | ha <;> rw [ha] <;> rfl
    refine Fin.ext ?_
    rw [val_hexPrefixFlag, hbit, hbit]
    show x.toNat / 16 % 2 + 2 * (x.toNat / 16 / 2 % 2) = x.toNat / 16
    omega
  rw [hflag, packNibbles_nibbles]

/-- An accepted spelling is the one that the encoder writes. -/
theorem hexPrefixEncode_of_decode {p : Bytes} {n : List Nibble} {leaf : Bool}
    (h : hexPrefixDecode p = some (n, leaf)) : hexPrefixEncode n leaf = p := by
  cases p with
  | nil => cases h
  | cons first rest =>
    have heven : (bytesToNibbles rest).length % 2 = 0 := by
      rw [length_bytesToNibbles, Nat.mul_mod_right]
    by_cases hflag : 3 < first.toNat / 16
    · rw [hexPrefixDecode, if_pos hflag] at h
      cases h
    · have hfirst := packNibbles_flag (Nat.le_of_not_lt hflag)
      rw [hexPrefixDecode, if_neg hflag] at h
      by_cases hodd : first.toNat / 16 % 2 = 1
      · rw [if_pos hodd] at h
        obtain ⟨rfl, rfl⟩ := Prod.mk.inj (Option.some.inj h)
        rw [decide_eq_true hodd] at hfirst
        show hexPrefixEncode (loNibble first :: bytesToNibbles rest) _ = first :: rest
        rw [hexPrefixEncode_odd heven, hfirst, packPairs_bytesToNibbles]
      · have hlong : ¬ (bytesToNibbles (first :: rest)).length < 2 := by
          rw [length_bytesToNibbles, List.length_cons]
          omega
        rw [if_neg hodd, if_neg hlong] at h
        by_cases hpad : (bytesToNibbles (first :: rest))[1]? = some 0
        · rw [if_neg (not_not_intro hpad)] at h
          obtain ⟨rfl, rfl⟩ := Prod.mk.inj (Option.some.inj h)
          have hlow : loNibble first = 0 := Option.some.inj hpad
          rw [decide_eq_false hodd, hlow] at hfirst
          show hexPrefixEncode (bytesToNibbles rest) _ = first :: rest
          rw [hexPrefixEncode_even heven, hfirst, packPairs_bytesToNibbles]
        · rw [if_pos hpad] at h
          cases h

/-- The decoder accepts exactly what the encoder writes, so a path has one accepted spelling. -/
theorem hexPrefixDecode_eq_some_iff (p : Bytes) (n : List Nibble) (leaf : Bool) :
    hexPrefixDecode p = some (n, leaf) ↔ hexPrefixEncode n leaf = p := by
  constructor
  · intro h
    exact hexPrefixEncode_of_decode h
  · intro h
    rw [← h, hexPrefixDecode_encode]

end HeliosBsc
