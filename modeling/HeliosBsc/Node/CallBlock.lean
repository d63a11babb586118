import HeliosBsc.Consensus.SafeSpec
import HeliosBsc.Execution.Call
import Mathlib.Order.Interval.Finset.Nat

/-!
# The block of a call

`rpc_server/calls.rs`: the block that a call is executed at is a verified one, and the hashes of the
chain that `BLOCKHASH` may ask for go with it. The window of the collection has 257 heights, both
caps are 256, and the lookup refuses the height of the block itself: what the first cap drops is the
one hash that is never asked for.
-/

namespace HeliosBsc

open Checked

/-! ## Collecting the hashes -/

/-- The loop of `historical_hashes_at_safe`. -/
def historicalHashesLoop (safeNumber : ℕ) :
    List VerifiedBlock → List (ℕ × Hash) → List (ℕ × Hash)
  | [], out => out
  | b :: rest, out =>
    if safeNumber < b.number then historicalHashesLoop safeNumber rest out
    else if satAdd b.number 256 < safeNumber then historicalHashesLoop safeNumber rest out
    else
      let out := out ++ [(b.number, b.hash)]
      if 256 ≤ out.length then out else historicalHashesLoop safeNumber rest out

/-- `historical_hashes_at_safe`. -/
def historicalHashesAtSafe (chain : List VerifiedBlock) (safeNumber : ℕ) : List (ℕ × Hash) :=
  historicalHashesLoop safeNumber chain []

/-- `nonzero_gas_limit`. -/
def nonzeroGasLimit (n : ℕ) : ℕ := if n = 0 then callGasCap else n

/-- `decode_qty_pad32`. -/
def decodeQtyPad32 (s : String) : Except String Hash := do
  let raw := trimStartMarks 'X' (trimStartMarks 'x' s.toList)
  if raw = [] then return .repeated 32 0
  require (raw.all (fun c => (hexDigitValue c).isSome) = true) "value is not hex"
  require (utf8Length raw ≤ 64) "value too large"
  let even := if utf8Length raw % 2 = 1 then '0' :: raw else raw
  let b ← (decodeHexDigits even 0).mapError fun e => s!"invalid value: {hexErrorText e}"
  return pad32 b

/-- The value that is read, where it reads at all. -/
def orKeep {ε α : Type} (old : α) : Except ε α → α
  | .ok v => v
  | .error _ => old

/-- What the sealed header has to say on the block. -/
def CallBlock.withHeader (block : CallBlock) (h : RpcBlockHeader) : CallBlock :=
  { block with
    timestamp := orKeep block.timestamp (decodeU64 h.timestamp)
    gasLimit := orKeep block.gasLimit ((decodeU64 h.gasLimit).map nonzeroGasLimit)
    beneficiary := orKeep block.beneficiary (decodeHexFixed 20 h.miner)
    prevrandao := orKeep block.prevrandao (decodeHexFixed 32 h.mixHash)
    difficulty := orKeep block.difficulty (decodeQtyPad32 h.difficulty)
    basefee := match h.baseFeePerGas with
      | some bf => orKeep block.basefee (decodeU64 bf)
      | none => block.basefee
    excessBlobGas := match h.excessBlobGas with
      | some eb => orKeep block.excessBlobGas (decodeU64 eb)
      | none => block.excessBlobGas }

/-- `call_block_from_verified`. -/
def callBlockFromVerified (local_ : VerifiedBlock) (chain : List VerifiedBlock) : CallBlock :=
  let block : CallBlock :=
    { number := local_.number
      hash := local_.hash
      stateRoot := local_.stateRoot
      timestamp := local_.milliTimestamp / 1000
      beneficiary := local_.miner
      gasLimit := nonzeroGasLimit local_.gasLimit
      difficulty := .repeated 32 0
      prevrandao := .repeated 32 0
      basefee := 0
      excessBlobGas := 0
      historicalHashes := historicalHashesAtSafe chain local_.number }
  match local_.header with
  | some h => block.withHeader h
  | none => block

@[simp] theorem callBlockFromVerified_number (local_ : VerifiedBlock)
    (chain : List VerifiedBlock) : (callBlockFromVerified local_ chain).number = local_.number := by
  unfold callBlockFromVerified
  cases local_.header <;> rfl

@[simp] theorem callBlockFromVerified_historicalHashes (local_ : VerifiedBlock)
    (chain : List VerifiedBlock) : (callBlockFromVerified local_ chain).historicalHashes =
      historicalHashesAtSafe chain local_.number := by
  unfold callBlockFromVerified
  cases local_.header <;> rfl

/-- Whether a block is in the window that is collected. -/
def inHashWindow (safeNumber : ℕ) (b : VerifiedBlock) : Bool :=
  decide (b.number ≤ safeNumber) && decide (safeNumber ≤ satAdd b.number 256)

theorem historicalHashesLoop_eq (safeNumber : ℕ) (chain : List VerifiedBlock)
    (out : List (ℕ × Hash)) (hout : out.length < 256) :
    historicalHashesLoop safeNumber chain out =
      (out ++ (chain.filter (inHashWindow safeNumber)).map fun b => (b.number, b.hash)).take 256 := by
  induction chain generalizing out with
  | nil =>
    rw [historicalHashesLoop, List.filter_nil, List.map_nil, List.append_nil,
      List.take_of_length_le hout.le]
  | cons b rest ih =>
    rw [historicalHashesLoop]
    split
    · next hhigh =>
      have hskip : ¬ inHashWindow safeNumber b = true := by
        simp [inHashWindow, Nat.not_le.mpr hhigh]
      rw [List.filter_cons_of_neg hskip]
      exact ih out hout
    · next hhigh =>
      split
      · next hlow =>
        have hskip : ¬ inHashWindow safeNumber b = true := by
          simp [inHashWindow, Nat.not_le.mpr hlow]
        rw [List.filter_cons_of_neg hskip]
        exact ih out hout
      · next hlow =>
        have htake : inHashWindow safeNumber b = true := by
          simp [inHashWindow, Nat.not_lt.mp hhigh, Nat.not_lt.mp hlow]
        have hlength : (out ++ [(b.number, b.hash)]).length = out.length + 1 := List.length_append
        rw [List.filter_cons_of_pos htake, List.map_cons,
          List.append_cons out _ (List.map _ _)]
        simp only
        split
        · next hfull =>
          rw [List.take_append_of_le_length (by omega), List.take_of_length_le (by omega)]
        · next hroom => exact ih _ (by omega)

theorem historicalHashesAtSafe_eq (chain : List VerifiedBlock) (safeNumber : ℕ) :
    historicalHashesAtSafe chain safeNumber =
      ((chain.filter (inHashWindow safeNumber)).map fun b => (b.number, b.hash)).take 256 :=
  historicalHashesLoop_eq safeNumber chain [] (by decide)

/-! ## Looking a hash up -/

section

variable {κ β : Type} [DecidableEq κ]

theorem lookup_foldl_insert_of_notMem {entries : List (κ × β)} {k : κ}
    (h : k ∉ entries.map Prod.fst) (m : AList fun _ : κ => β) :
    (entries.foldl (fun m e => m.insert e.1 e.2) m).lookup k = m.lookup k := by
  induction entries generalizing m with
  | nil => rfl
  | cons e rest ih =>
    rw [List.map_cons, List.mem_cons, not_or] at h
    rw [List.foldl_cons, ih h.2, AList.lookup_insert_ne h.1]

theorem lookup_foldl_insert_of_mem {entries : List (κ × β)}
    (hnodup : (entries.map Prod.fst).Nodup) {k : κ} {v : β} (h : (k, v) ∈ entries)
    (m : AList fun _ : κ => β) :
    (entries.foldl (fun m e => m.insert e.1 e.2) m).lookup k = some v := by
  induction entries generalizing m with
  | nil => cases h
  | cons e rest ih =>
    rw [List.map_cons, List.nodup_cons] at hnodup
    rw [List.foldl_cons]
    rcases List.mem_cons.mp h with rfl | hrest
    · rw [lookup_foldl_insert_of_notMem hnodup.1, AList.lookup_insert]
    · exact ih hnodup.2 hrest _

end

section

variable {chain : List VerifiedBlock} {N : ℕ}

theorem mem_hashWindow {b : VerifiedBlock} (hN : N < u64Size) :
    b ∈ chain.filter (inHashWindow N) ↔ b ∈ chain ∧ b.number ≤ N ∧ N ≤ b.number + 256 := by
  have hsat : N ≤ satAdd b.number 256 ↔ N ≤ b.number + 256 := by
    unfold satAdd
    omega
  rw [List.mem_filter, inHashWindow, Bool.and_eq_true, decide_eq_true_eq, decide_eq_true_eq, hsat]

theorem hashWindow_numbers_nodup (hchain : Consecutive chain) :
    ((chain.filter (inHashWindow N)).map VerifiedBlock.number).Nodup := by
  have hwindow := hchain.pairwise_number.filter (inHashWindow N)
  rw [List.Nodup, List.pairwise_map]
  exact hwindow.imp fun hlt => hlt.ne

/-- The cap drops no block below the height of the call. -/
theorem mem_historicalHashes {b : VerifiedBlock} (hchain : Consecutive chain) (hN : N < u64Size)
    (hb : b ∈ chain) (hbelow : b.number < N) (hnear : N ≤ b.number + 256) :
    (b.number, b.hash) ∈ historicalHashesAtSafe chain N := by
  have hmem : b ∈ chain.filter (inHashWindow N) := (mem_hashWindow hN).mpr ⟨hb, hbelow.le, hnear⟩
  obtain ⟨before, after, hsplit⟩ := List.append_of_mem hmem
  have hsorted := hchain.pairwise_number.filter (inHashWindow N)
  have hnodup := hashWindow_numbers_nodup (N := N) hchain
  rw [hsplit] at hsorted hnodup
  -- what is collected before the block has distinct heights in the 255 below it
  have hcount : before.length ≤ (Finset.Ico (N - 256) b.number).card := by
    rw [List.map_append] at hnodup
    rw [← List.length_map VerifiedBlock.number,
      ← List.toFinset_card_of_nodup hnodup.of_append_left]
    apply Finset.card_le_card
    intro n hn
    obtain ⟨c, hc, rfl⟩ := List.mem_map.mp (List.mem_toFinset.mp hn)
    have hlt := (List.pairwise_append.mp hsorted).2.2 c hc b List.mem_cons_self
    have hcmem : c ∈ chain.filter (inHashWindow N) := by
      rw [hsplit]
      exact List.mem_append_left _ hc
    obtain ⟨-, -, hnear'⟩ := (mem_hashWindow hN).mp hcmem
    rw [Finset.mem_Ico]
    omega
  rw [Nat.card_Ico] at hcount
  rw [historicalHashesAtSafe_eq, hsplit, List.map_append, List.map_cons]
  apply List.mem_of_getElem? (i := before.length)
  rw [List.getElem?_take_of_lt (by omega), List.getElem?_append_right (by rw [List.length_map]),
    List.length_map, Nat.sub_self, List.getElem?_cons_zero]

theorem take_historicalHashesAtSafe :
    (historicalHashesAtSafe chain N).take blockhashWindow = historicalHashesAtSafe chain N := by
  rw [historicalHashesAtSafe_eq]
  exact List.take_of_length_le (List.length_take_le _ _)

theorem exists_of_mem_historicalHashes {n : ℕ}
    (h : n ∈ (historicalHashesAtSafe chain N).map Prod.fst) : ∃ b ∈ chain, b.number = n := by
  rw [historicalHashesAtSafe_eq, List.map_take] at h
  have hmem := List.mem_of_mem_take h
  rw [List.map_map] at hmem
  obtain ⟨b, hb, hn⟩ := List.mem_map.mp hmem
  exact ⟨b, (List.mem_filter.mp hb).1, hn⟩

theorem historicalHashes_keys_nodup (hchain : Consecutive chain) :
    ((historicalHashesAtSafe chain N).map Prod.fst).Nodup := by
  rw [historicalHashesAtSafe_eq, List.map_take, List.map_map]
  exact (hashWindow_numbers_nodup hchain).sublist (List.take_sublist _ _)

end

/-- For a chain of consecutive blocks, any block of a call and any height that `BLOCKHASH` asks for,
with `N` the height of the block: from `N` on and more than 256 below it the answer is zero, and
unless the chain has a zero hash only there. In between it is the hash of the chain's block at that
height, and the miss of that height where the chain has none. -/
theorem blockHash_answers {chain : List VerifiedBlock} (hchain : Consecutive chain)
    (local_ : VerifiedBlock) (hN : local_.number < u64Size) (db : ProofDb) (n : ℕ) :
    let answer := (db.seedBlockHashes (callBlockFromVerified local_ chain)).blockHash n
    let N := local_.number
    (N ≤ n ∨ n + 256 < N → answer = .ok (.repeated 32 0)) ∧
      ((∀ b ∈ chain, b.hash ≠ .repeated 32 0) → answer = .ok (.repeated 32 0) →
        N ≤ n ∨ n + 256 < N) ∧
      (∀ b ∈ chain, b.number = n → n < N → N ≤ n + 256 → answer = .ok b.hash) ∧
      ((∀ b ∈ chain, b.number ≠ n) → n < N → N ≤ n + 256 →
        answer = .error (.missing (.blockHash n))) := by
  intro answer N
  have hanswer : answer = (db.seedBlockHashes (callBlockFromVerified local_ chain)).blockHash n :=
    rfl
  unfold ProofDb.blockHash ProofDb.seedBlockHashes at hanswer
  rw [callBlockFromVerified_number, callBlockFromVerified_historicalHashes,
    take_historicalHashesAtSafe] at hanswer
  change _ = if N ≤ n ∨ satAdd n blockhashWindow < N then _ else _ at hanswer
  have hsat : N ≤ n ∨ satAdd n blockhashWindow < N ↔ N ≤ n ∨ n + 256 < N := by
    have hbound : N < u64Size := hN
    unfold satAdd blockhashWindow
    omega
  have hfound : ∀ b ∈ chain, b.number = n → n < N → N ≤ n + 256 → answer = .ok b.hash := by
    rintro b hb rfl hbelow hnear
    have hentry := mem_historicalHashes hchain hN hb hbelow hnear
    rw [if_neg (by rw [hsat]; omega),
      lookup_foldl_insert_of_mem (historicalHashes_keys_nodup hchain) hentry] at hanswer
    exact hanswer
  have hmissing : (∀ b ∈ chain, b.number ≠ n) → n < N → N ≤ n + 256 →
      answer = .error (.missing (.blockHash n)) := by
    intro hnone hbelow hnear
    have habsent : n ∉ (historicalHashesAtSafe chain N).map Prod.fst := by
      intro hmem
      obtain ⟨b, hb, hbn⟩ := exists_of_mem_historicalHashes hmem
      exact hnone b hb hbn
    rw [if_neg (by rw [hsat]; omega), lookup_foldl_insert_of_notMem habsent,
      AList.lookup_empty] at hanswer
    exact hanswer
  refine ⟨?_, ?_, hfound, hmissing⟩
  · intro hout
    rwa [if_pos (hsat.mpr hout)] at hanswer
  · intro hnonzero hzero
    by_contra hin
    by_cases hexists : ∃ b ∈ chain, b.number = n
    · obtain ⟨b, hb, hbn⟩ := hexists
      have hok := (hfound b hb hbn (by omega) (by omega)).symm.trans hzero
      exact hnonzero b hb (Except.ok.inj hok)
    · have herror := (hmissing (by simpa using hexists) (by omega) (by omega)).symm.trans hzero
      cases herror

/-- At the second of two blocks `BLOCKHASH` knows the first, answers zero for the second and misses
what came before. -/
theorem blockHash_answers_sample :
    let block := fun number : ℕ => { safeSampleBlock number 1 with hash := .repeated 32 7 }
    let db := (ProofDb.new .shanghai).seedBlockHashes
      (callBlockFromVerified (block 11) [block 10, block 11])
    db.blockHash 10 = .ok (.repeated 32 7) ∧ db.blockHash 11 = .ok (.repeated 32 0) ∧
      db.blockHash 9 = .error (.missing (.blockHash 9)) := by
  intro block db
  have hchain : Consecutive [block 10, block 11] := by
    simp [block, Consecutive, safeSampleBlock]
  have hN : (block 11).number < u64Size := by
    show 11 < u64Size
    unfold u64Size
    norm_num
  have hanswers := blockHash_answers hchain (block 11) hN (ProofDb.new .shanghai)
  refine ⟨?_, (hanswers 11).1 (.inl le_rfl), ?_⟩
  · apply (hanswers 10).2.2.1 (block 10) List.mem_cons_self rfl
    · show 10 < 11
      norm_num
    · show 11 ≤ 10 + 256
      norm_num
  · apply (hanswers 9).2.2.2
    · simp [block, safeSampleBlock]
    · show 9 < 11
      norm_num
    · show 11 ≤ 9 + 256
      norm_num

end HeliosBsc
