import HeliosBsc.Lib.Result
import HeliosBsc.Lib.Keccak
import Mathlib.Data.List.Basic
import Mathlib.Tactic.IntervalCases
import Mathlib.Tactic.NormNum

/-!
# Bytes and hexadecimal strings

`types/src/hexutil.rs` and the machine types every other module uses: byte strings, fixed-size
byte arrays `[u8; N]`, and the hexadecimal spelling in which RPC headers and checkpoints carry
them. `decodeHex`, `decodeHexFixed` and `decodeU64` are the three readers; `hexPrefixed` and
`hexQuantity` are the two writers (`format!("0x{}", hex::encode(..))` and `format!("0x{:x}", ..)`),
and each reader inverts its writer.
-/

namespace HeliosBsc

open Checked

/-- A byte string (`Vec<u8>` or `&[u8]`). -/
abbrev Bytes := List UInt8

/-- `u64::MAX + 1`. -/
@[irreducible] def u64Size : ℕ := 2 ^ 64

theorem u64Size_eq : u64Size = 2 ^ 64 := by unfold u64Size; rfl

theorem u64Size_pos : 0 < u64Size := by rw [u64Size_eq]; norm_num

/-- `u64::saturating_add`. -/
def satAdd (a b : ℕ) : ℕ := min (a + b) (u64Size - 1)

theorem satAdd_of_lt {a b : ℕ} (h : a + b < u64Size) : satAdd a b = a + b := by
  unfold satAdd
  omega

/-- `a + b` on `u64` where nothing checks it: a release build wraps around, a debug build panics. -/
def wrapAdd (a b : ℕ) : ℕ := (a + b) % u64Size

theorem wrapAdd_of_lt {a b : ℕ} (h : a + b < u64Size) : wrapAdd a b = a + b := Nat.mod_eq_of_lt h

/-- A sum that wraps around is below either summand. -/
theorem wrapAdd_cases {a b : ℕ} (ha : a < u64Size) (hb : b < u64Size) :
    wrapAdd a b = a + b ∨ wrapAdd a b < a := by
  rcases Nat.lt_or_ge (a + b) u64Size with h | h
  · exact .inl (wrapAdd_of_lt h)
  · right
    have hwrapped : wrapAdd a b = a + b - u64Size := by
      rw [wrapAdd, Nat.mod_eq_sub_mod h, Nat.mod_eq_of_lt (by omega)]
    omega

/-- `n + 1` on `u64` where nothing checks it: after the last `u64` comes `0`. -/
def wrapSucc (n : ℕ) : ℕ := if n = u64Size - 1 then 0 else n + 1

theorem eq_succ_of_wrapSucc {m n : ℕ} (h : m = wrapSucc n) (hm : m ≠ 0) : m = n + 1 := by
  unfold wrapSucc at h
  split at h
  · exact absurd h hm
  · exact h

theorem wrapSucc_le (n : ℕ) : wrapSucc n ≤ n + 1 := by
  unfold wrapSucc
  split
  · exact Nat.zero_le _
  · exact le_rfl

theorem wrapSucc_of_lt {n : ℕ} (h : n + 1 < u64Size) : wrapSucc n = n + 1 :=
  if_neg (by omega)

/-- `u64::saturating_mul`. -/
def satMul (a b : ℕ) : ℕ := min (a * b) (u64Size - 1)

/-- `isize::MAX`, the most bytes a Rust allocation can hold. -/
def isizeMax : ℕ := 2 ^ 63 - 1

theorem lt_u64Size_of_le_isizeMax {n : ℕ} (h : n ≤ isizeMax) : n < u64Size := by
  rw [u64Size_eq]
  unfold isizeMax at h
  omega

/-- The byte array `[u8; n]`. -/
structure FixedBytes (n : ℕ) where
  val : Bytes
  len : val.length = n
  deriving DecidableEq, Repr

namespace FixedBytes

variable {n : ℕ}

@[ext] theorem ext {a b : FixedBytes n} (h : a.val = b.val) : a = b := by
  cases a
  cases b
  simpa using h

theorem val_injective : Function.Injective (val : FixedBytes n → Bytes) :=
  fun _ _ => FixedBytes.ext

/-- The array whose bytes are all `b`. -/
def repeated (n : ℕ) (b : UInt8) : FixedBytes n := ⟨List.replicate n b, List.length_replicate⟩

/-- Arrays compare lexicographically (`Ord` for `[u8; N]`). -/
def le (a b : FixedBytes n) : Bool := decide (a.val ≤ b.val)

theorem le_trans (a b c : FixedBytes n) (h₁ : a.le b = true) (h₂ : b.le c = true) :
    a.le c = true := by
  simp only [le, decide_eq_true_eq] at *
  exact Std.le_trans h₁ h₂

theorem le_total (a b : FixedBytes n) : (a.le b || b.le a) = true := by
  simp only [le, Bool.or_eq_true, decide_eq_true_eq]
  exact Std.le_total

theorem le_refl (a : FixedBytes n) : a.le a = true := by
  simpa using le_total a a

theorem le_antisymm {a b : FixedBytes n} (h₁ : a.le b = true) (h₂ : b.le a = true) : a = b := by
  simp only [le, decide_eq_true_eq] at *
  exact FixedBytes.ext (Std.le_antisymm h₁ h₂)

end FixedBytes

/-- `Vec<u8>`: no allocation is larger than `isize::MAX` bytes. -/
structure ByteVec where
  val : Bytes
  bound : val.length ≤ isizeMax

@[ext] theorem ByteVec.ext {a b : ByteVec} (h : a.val = b.val) : a = b := by
  cases a
  cases b
  congr

/-- A 20-byte account address. -/
abbrev Address := FixedBytes 20

/-- A 32-byte hash. -/
abbrev Hash := FixedBytes 32

/-- A 48-byte BLS12-381 vote key. -/
abbrev VoteKey := FixedBytes 48

instance : Inhabited Address := ⟨.repeated 20 0⟩
instance : Inhabited Hash := ⟨.repeated 32 0⟩

/-- `helios_bsc_types::keccak256`. The other modules take the hash as a parameter and are
instantiated with this one. -/
def Types.keccak256 (b : Bytes) : Hash := ⟨Keccak.digest b, Keccak.length_digest b⟩

/-! ## Errors of the shared types -/

/-- `TypesError`. -/
inductive TypesError where
  | unsupportedChainId (id : ℕ)
  | emptySealingSet
  | badSealingAddress
  | duplicateSealingAddress
  | badCheckpointHash (field : String)
  | voteKeyCountMismatch (keys validators : ℕ)
  | badVoteKey
  | duplicateVoteKey
  | invalidHex (reason : String)
  | invalidHexLength (expected got : ℕ)
  deriving DecidableEq, Repr

/-- The `Display` text of an error. -/
def TypesError.message : TypesError → String
  | unsupportedChainId id => s!"unsupported chain id {id} (expected BSC mainnet 56)"
  | emptySealingSet => "checkpoint sealing set is empty"
  | badSealingAddress => "checkpoint sealing set address is not 20 bytes"
  | duplicateSealingAddress => "checkpoint sealing set has a duplicate address"
  | badCheckpointHash field => s!"checkpoint {field} is not a 32-byte hash"
  | voteKeyCountMismatch keys validators =>
    s!"checkpoint has {keys} BLS vote keys for {validators} sealing addresses"
  | badVoteKey => "checkpoint BLS vote key is not 48 bytes"
  | duplicateVoteKey => "checkpoint has a duplicate BLS vote key"
  | invalidHex reason => s!"invalid hex: {reason}"
  | invalidHexLength expected got =>
    s!"invalid hex length: expected {expected} bytes, got {got}"

/-! ## Reading hexadecimal -/

/-- The value of a hexadecimal digit, in either case. -/
def hexDigitValue (c : Char) : Option ℕ :=
  if 48 ≤ c.toNat ∧ c.toNat ≤ 57 then some (c.toNat - 48)
  else if 97 ≤ c.toNat ∧ c.toNat ≤ 102 then some (c.toNat - 87)
  else if 65 ≤ c.toNat ∧ c.toNat ≤ 70 then some (c.toNat - 55)
  else none

/-- `strip_0x`: the digits after an optional `0x` or `0X`. -/
def strip0x : List Char → List Char
  | '0' :: 'x' :: rest => rest
  | '0' :: 'X' :: rest => rest
  | cs => cs

/-- `s.trim_start_matches("0x").trim_start_matches("0X")`, on one spelling of the mark. -/
def trimStartMarks (x : Char) : List Char → List Char
  | '0' :: c :: rest => if c = x then trimStartMarks x rest else '0' :: c :: rest
  | cs => cs

/-- `{:?}` of a `char` below `U+0100`, as far as bytes that start a character are concerned. -/
def debugChar (n : ℕ) : String :=
  if n = 0 then "'\\0'"
  else if n = 9 then "'\\t'"
  else if n = 10 then "'\\n'"
  else if n = 13 then "'\\r'"
  else if n = 39 then "'\\''"
  else if n = 92 then "'\\\\'"
  else if n < 32 ∨ n = 127 then "'\\u\x7b" ++ String.ofList (Nat.toDigits 16 n) ++ "\x7d'"
  else "'" ++ String.singleton (Char.ofNat n) ++ "'"

/-- The digit at position `i` of a `hex::decode` input. The text of an error shows the first byte of
the character. -/
def hexDigitAt (c : Char) (i : ℕ) : Except TypesError ℕ :=
  match hexDigitValue c with
  | some d => .ok d
  | none =>
    let byte := (String.utf8EncodeChar c).headD 0
    .error (.invalidHex s!"Invalid character {debugChar byte.toNat} at position {i}")

/-- `hex::decode`, reading from position `i`. -/
def decodeHexDigits : List Char → ℕ → Except TypesError Bytes
  | [], _ => .ok []
  | [c], i => do
    let _ ← hexDigitAt c i
    throw (.invalidHex "Odd number of digits")
  | hi :: lo :: rest, i => do
    let x ← hexDigitAt hi i
    let y ← hexDigitAt lo (i + 1)
    let tail ← decodeHexDigits rest (i + 2)
    return UInt8.ofNat (16 * x + y) :: tail

/-- The length in bytes of the UTF-8 spelling of `cs` (`str::len`). -/
def utf8Length (cs : List Char) : ℕ := (cs.map Char.utf8Size).sum

/-- `decode_hex`. -/
def decodeHex (s : String) : Except TypesError Bytes := do
  let raw := strip0x s.toList
  require (utf8Length raw % 2 = 0) (.invalidHex s!"odd-length hex ({utf8Length raw})")
  decodeHexDigits raw 0

/-- `decode_hex_fixed::<N>`. -/
def decodeHexFixed (n : ℕ) (s : String) : Except TypesError (FixedBytes n) := do
  let v ← decodeHex s
  if h : v.length = n then return ⟨v, h⟩
  else throw (.invalidHexLength n v.length)

/-- The digits of `u64::from_str_radix(_, 16)` after `acc`. -/
def parseHexU64 : List Char → ℕ → Except TypesError ℕ
  | [], acc => .ok acc
  | c :: cs, acc =>
    match hexDigitValue c with
    | none => .error (.invalidHex "invalid digit found in string")
    | some d =>
      if 16 * acc + d < u64Size then parseHexU64 cs (16 * acc + d)
      else .error (.invalidHex "number too large to fit in target type")

/-- `u64::from_str_radix(_, 16)` on a non-empty string: one leading `+` is allowed. -/
def fromStrRadix16 : List Char → Except TypesError ℕ
  | ['+'] => .error (.invalidHex "invalid digit found in string")
  | '+' :: cs => parseHexU64 cs 0
  | cs => parseHexU64 cs 0

/-- `decode_u64`. -/
def decodeU64 (s : String) : Except TypesError ℕ :=
  match strip0x s.toList with
  | [] => .ok 0
  | raw => fromStrRadix16 raw

/-! ## Writing hexadecimal -/

/-- The lower-case hexadecimal digit of a value below 16. -/
def hexDigitChar (d : ℕ) : Char := Char.ofNat (if d < 10 then 48 + d else 87 + d)

/-- `hex::encode`. -/
def hexChars : Bytes → List Char
  | [] => []
  | b :: bs => hexDigitChar (b.toNat / 16) :: hexDigitChar (b.toNat % 16) :: hexChars bs

/-- `format!("0x{}", hex::encode(b))`. -/
def hexPrefixed (b : Bytes) : String := String.ofList ('0' :: 'x' :: hexChars b)

/-- `format_address`. -/
def formatAddress (a : Address) : String := hexPrefixed a.val

/-- The hexadecimal digits of `n`, most significant first, before `acc`. -/
def quantityDigits (n : ℕ) (acc : List Char) : List Char :=
  if n < 16 then hexDigitChar n :: acc
  else quantityDigits (n / 16) (hexDigitChar (n % 16) :: acc)
termination_by n

/-- `format!("0x{n:x}")`. -/
def hexQuantity (n : ℕ) : String := String.ofList ('0' :: 'x' :: quantityDigits n [])

/-! ## Each reader inverts its writer -/

theorem hexDigitValue_hexDigitChar {d : ℕ} (h : d < 16) :
    hexDigitValue (hexDigitChar d) = some d := by
  interval_cases d <;> decide

theorem utf8Size_hexDigitChar {d : ℕ} (h : d < 16) : (hexDigitChar d).utf8Size = 1 := by
  interval_cases d <;> decide

theorem hexDigitChar_ne_plus {d : ℕ} (h : d < 16) : hexDigitChar d ≠ '+' := by
  interval_cases d <;> decide

theorem hexDigitAt_hexDigitChar {d : ℕ} (h : d < 16) (i : ℕ) :
    hexDigitAt (hexDigitChar d) i = .ok d := by
  unfold hexDigitAt
  rw [hexDigitValue_hexDigitChar h]

theorem utf8Length_hexChars (b : Bytes) : utf8Length (hexChars b) = 2 * b.length := by
  induction b with
  | nil => rfl
  | cons x xs ih =>
    have hx := x.toNat_lt
    unfold utf8Length at *
    simp only [hexChars, List.map_cons, List.sum_cons, ih, List.length_cons]
    rw [utf8Size_hexDigitChar (by omega), utf8Size_hexDigitChar (by omega)]
    omega

theorem length_hexChars (b : Bytes) : (hexChars b).length = 2 * b.length := by
  induction b with
  | nil => rfl
  | cons x xs ih =>
    rw [hexChars, List.length_cons, List.length_cons, List.length_cons, ih]
    omega

theorem decodeHexDigits_hexChars (b : Bytes) (i : ℕ) :
    decodeHexDigits (hexChars b) i = .ok b := by
  induction b generalizing i with
  | nil => rfl
  | cons x xs ih =>
    have hx := x.toNat_lt
    simp only [hexChars, decodeHexDigits, hexDigitAt_hexDigitChar (show x.toNat / 16 < 16 by omega),
      hexDigitAt_hexDigitChar (show x.toNat % 16 < 16 by omega), ih, ok_bind, pure_eq_ok]
    rw [show 16 * (x.toNat / 16) + x.toNat % 16 = x.toNat by omega, UInt8.ofNat_toNat]

@[simp] theorem decodeHex_hexPrefixed (b : Bytes) : decodeHex (hexPrefixed b) = .ok b := by
  unfold decodeHex hexPrefixed
  simp only [String.toList_ofList, strip0x, utf8Length_hexChars, decodeHexDigits_hexChars]
  rw [require_of (by omega)]
  rfl

@[simp] theorem decodeHexFixed_hexPrefixed {n : ℕ} (b : FixedBytes n) :
    decodeHexFixed n (hexPrefixed b.val) = .ok b := by
  unfold decodeHexFixed
  simp [b.len]

theorem quantityDigits_ne_nil (n : ℕ) (acc : List Char) : quantityDigits n acc ≠ [] := by
  induction n, acc using quantityDigits.induct with
  | case1 n acc h => rw [quantityDigits, if_pos h]; simp
  | case2 n acc h ih => rw [quantityDigits, if_neg h]; exact ih

theorem length_quantityDigits_le {n k : ℕ} (hn : n < 16 ^ (k + 1)) (acc : List Char) :
    (quantityDigits n acc).length ≤ acc.length + (k + 1) := by
  induction k generalizing n acc with
  | zero =>
    rw [quantityDigits, if_pos (by simpa using hn), List.length_cons]
  | succ k ih =>
    by_cases h : n < 16
    · rw [quantityDigits, if_pos h, List.length_cons]
      omega
    · have hdiv : n / 16 < 16 ^ (k + 1) := by
        rw [Nat.div_lt_iff_lt_mul (by norm_num), ← pow_succ]
        exact hn
      have hrest := ih hdiv (hexDigitChar (n % 16) :: acc)
      rw [quantityDigits, if_neg h]
      rw [List.length_cons] at hrest
      omega

/-- Reading the digits of `n` and then `tail` is reading `tail` after `n`. -/
theorem parseHexU64_quantityDigits (n : ℕ) (tail : List Char) (hn : n < u64Size) :
    parseHexU64 (quantityDigits n tail) 0 = parseHexU64 tail n := by
  induction n, tail using quantityDigits.induct with
  | case1 n tail h =>
    rw [quantityDigits, if_pos h, parseHexU64, hexDigitValue_hexDigitChar h]
    simp [hn]
  | case2 n tail h ih =>
    rw [quantityDigits, if_neg h, ih (by omega), parseHexU64,
      hexDigitValue_hexDigitChar (Nat.mod_lt n (by norm_num))]
    simp only [show 16 * (n / 16) + n % 16 = n by omega, hn, if_true]

theorem quantityDigits_head_ne_plus (n : ℕ) (tail rest : List Char) :
    quantityDigits n tail ≠ '+' :: rest := by
  induction n, tail using quantityDigits.induct with
  | case1 n tail h =>
    rw [quantityDigits, if_pos h]
    intro he
    exact hexDigitChar_ne_plus h (List.cons.inj he).1
  | case2 n tail h ih => rwa [quantityDigits, if_neg h]

theorem fromStrRadix16_of_head_ne_plus {cs : List Char} (h : ∀ rest, cs ≠ '+' :: rest) :
    fromStrRadix16 cs = parseHexU64 cs 0 := by
  unfold fromStrRadix16
  split
  · exact absurd rfl (h _)
  · exact absurd rfl (h _)
  · rfl

theorem decodeU64_hexQuantity {n : ℕ} (hn : n < u64Size) : decodeU64 (hexQuantity n) = .ok n := by
  unfold decodeU64 hexQuantity
  simp only [String.toList_ofList, strip0x]
  rw [← show fromStrRadix16 (quantityDigits n []) = .ok n by
    rw [fromStrRadix16_of_head_ne_plus (fun rest => quantityDigits_head_ne_plus n [] rest),
      parseHexU64_quantityDigits n [] hn]
    rfl]
  split
  · next h => exact absurd h (quantityDigits_ne_nil n [])
  · rfl

/-! ## What a successful read establishes -/

theorem parseHexU64_lt {cs : List Char} {acc n : ℕ} (ha : acc < u64Size)
    (h : parseHexU64 cs acc = .ok n) : n < u64Size := by
  induction cs generalizing acc with
  | nil => simp only [parseHexU64, Except.ok.injEq] at h; omega
  | cons c cs ih =>
    unfold parseHexU64 at h
    split at h
    · simp at h
    · split at h
      · next hlt => exact ih hlt h
      · simp at h

theorem decodeU64_lt {s : String} {n : ℕ} (h : decodeU64 s = .ok n) : n < u64Size := by
  unfold decodeU64 at h
  split at h
  · simp only [Except.ok.injEq] at h
    exact h ▸ u64Size_pos
  · unfold fromStrRadix16 at h
    split at h
    · simp at h
    · exact parseHexU64_lt u64Size_pos h
    · exact parseHexU64_lt u64Size_pos h

end HeliosBsc
