import HeliosBsc.Consensus.EngineStep

/-!
# The blocks behind a walk

The checkpoint block and the blocks of the accepted headers, in order. The snapshot is always at the
last of them, their numbers are consecutive, and `ancestors` holds the newest three.
-/

namespace HeliosBsc

open Checked

/-- Number and hash that a header claims. -/
def headerBlock (header : RpcBlockHeader) : Option (ℕ × Hash) :=
  match decodeU64 header.number, decodeHexFixed 32 header.hash with
  | .ok number, .ok hash => some (number, hash)
  | _, _ => none

/-- Number and hash of the block a checkpoint trusts. -/
def checkpointBlock (cp : Checkpoint) : Option (ℕ × Hash) :=
  match decodeHexFixed 32 cp.hash with
  | .ok hash => some (cp.number, hash)
  | .error _ => none

theorem Snapshot.LinkOk.headerBlock_eq {s : Snapshot} {header : RpcBlockHeader} {signer : Address}
    {l : Snapshot.Link} (h : Snapshot.LinkOk s header signer l) :
    headerBlock header = some (l.number, l.hash) := by
  unfold headerBlock
  rw [h.number, h.hash]

/-! ## The newest blocks of a list -/

/-- The newest `k` elements. -/
def newest {α : Type*} (k : ℕ) (l : List α) : List α := l.drop (l.length - k)

section

variable {α : Type*} {k : ℕ} (l : List α)

@[simp] theorem length_newest : (newest k l).length = min l.length k := by
  rw [newest, List.length_drop]
  omega

theorem mem_of_mem_newest {l : List α} {a : α} (h : a ∈ newest k l) : a ∈ l :=
  List.mem_of_mem_drop h

theorem newest_of_le (h : l.length ≤ k) : newest k l = l := by
  rw [newest, Nat.sub_eq_zero_of_le h, List.drop_zero]

theorem newest_zero : newest 0 l = [] := by
  rw [newest, Nat.sub_zero, List.drop_length]

theorem newest_succ_concat (a : α) : newest (k + 1) (l ++ [a]) = newest k l ++ [a] := by
  rw [newest, newest, List.length_append, List.length_singleton, Nat.add_sub_add_right,
    List.drop_append_of_le_length (Nat.sub_le _ _)]

theorem newest_map {β : Type*} (f : α → β) : newest k (l.map f) = (newest k l).map f := by
  rw [newest, newest, List.length_map, List.map_drop]

/-- Dropping the older ones early changes nothing. -/
theorem newest_newest_concat (hk : 0 < k) (a : α) :
    newest k (newest k l ++ [a]) = newest k (l ++ [a]) := by
  rcases Nat.le_total l.length k with h | h
  · rw [newest_of_le l h]
  · have hlen : (newest k l ++ [a]).length - k = 1 := by
      simp only [List.length_append, length_newest, List.length_singleton]
      omega
    have hdrop : (l ++ [a]).length - k = l.length - k + 1 := by
      simp only [List.length_append, List.length_singleton]
      omega
    rw [newest, hlen, newest, newest, hdrop, ← List.drop_drop,
      List.drop_append_of_le_length (by omega : l.length - k ≤ l.length)]

end

/-! ## The invariant -/

namespace Snapshot

/-- The snapshot has walked `blocks`. -/
structure Walked (blocks : List (ℕ × Hash)) (s : Snapshot) : Prop where
  tip : blocks.getLast? = some (s.number, s.hash)
  ancestors : s.ancestors = newest 3 blocks

/-- The snapshot has walked `blocks`, the first of which is the block `start`, one by one. -/
structure WalkedFrom (start : ℕ) (blocks : List (ℕ × Hash)) (s : Snapshot) : Prop
    extends Walked blocks s where
  numbers : blocks.map Prod.fst = List.range' start blocks.length

namespace Walked

variable {blocks : List (ℕ × Hash)} {s : Snapshot}

theorem trimRecents (h : Walked blocks s) (n : ℕ) : Walked blocks (s.trimRecents n) :=
  ⟨h.tip, h.ancestors⟩

theorem next {P : Primitives} {header : RpcBlockHeader} {signer : Address} {l : Link} {b : Body}
    {milli : ℕ} (h : Walked blocks s) (_ : Accepts P s header signer l b milli) :
    Walked (blocks ++ [(l.number, l.hash)]) (s.next signer l b milli) where
  tip := by rw [List.getLast?_concat, next_number, next_hash]
  ancestors := by
    rw [next_ancestors, ← newest_newest_concat blocks (by norm_num), ← h.ancestors]
    rw [newest, List.length_append, List.length_singleton]

theorem mem_of_ancestorHash (h : Walked blocks s) {number : ℕ} {hash : Hash}
    (ha : s.ancestorHash number = some hash) : (number, hash) ∈ blocks := by
  simp only [ancestorHash, Option.map_eq_some_iff, Prod.exists] at ha
  obtain ⟨n, hash', hfind, rfl⟩ := ha
  have hn : n = number := by simpa using List.find?_some hfind
  have hmem := List.mem_reverse.mp (List.mem_of_find?_eq_some hfind)
  rw [h.ancestors] at hmem
  exact hn ▸ mem_of_mem_newest hmem

end Walked

namespace WalkedFrom

variable {start : ℕ} {blocks : List (ℕ × Hash)} {s : Snapshot}

theorem number_add_one (h : WalkedFrom start blocks s) : s.number + 1 = start + blocks.length := by
  have hlast := congrArg (Option.map Prod.fst) h.tip
  rw [← List.getLast?_map, h.numbers, List.getLast?_range'] at hlast
  split at hlast
  · simp at hlast
  · simp only [Option.map_some, Option.some.injEq] at hlast
    omega

theorem trimRecents (h : WalkedFrom start blocks s) (n : ℕ) :
    WalkedFrom start blocks (s.trimRecents n) :=
  ⟨h.toWalked.trimRecents n, h.numbers⟩

theorem next {P : Primitives} {header : RpcBlockHeader} {signer : Address} {l : Link} {b : Body}
    {milli : ℕ} (h : WalkedFrom start blocks s) (habove : header.AboveGenesis)
    (hacc : Accepts P s header signer l b milli) :
    WalkedFrom start (blocks ++ [(l.number, l.hash)]) (s.next signer l b milli) where
  toWalked := h.toWalked.next hacc
  numbers := by
    rw [List.map_append, h.numbers, List.length_append, List.length_singleton, List.range'_concat,
      List.map_singleton, hacc.link.number_eq habove, h.number_add_one, Nat.one_mul]

theorem ancestorHash_isSome (h : WalkedFrom start blocks s) {number : ℕ} (hstart : start ≤ number)
    (hlow : s.number ≤ number + 2) (hhigh : number ≤ s.number) :
    ∃ hash, s.ancestorHash number = some hash := by
  have hlen := h.number_add_one
  have hmem : number ∈ s.ancestors.map Prod.fst := by
    rw [h.ancestors, newest, List.map_drop, h.numbers, List.drop_range', List.mem_range'_1]
    omega
  obtain ⟨a, ha, rfl⟩ := List.mem_map.mp hmem
  unfold ancestorHash
  cases hf : s.ancestors.reverse.find? fun x => x.1 = a.1 with
  | none =>
    have hnone := List.find?_eq_none.mp hf a (List.mem_reverse.mpr ha)
    simp at hnone
  | some x => exact ⟨x.2, rfl⟩

end WalkedFrom

theorem walked_fromCheckpoint {cp : Checkpoint} {s : Snapshot} (h : fromCheckpoint cp = .ok s) :
    checkpointBlock cp = some (s.number, s.hash) ∧
      WalkedFrom cp.number [(s.number, s.hash)] s := by
  obtain ⟨hn, hh, -, -, -, -, -, -, -, -, -, -, hanc⟩ := fromCheckpoint_ok h
  refine ⟨?_, ?_⟩
  · unfold checkpointBlock
    rw [hh, hn]
  · exact ⟨⟨rfl, by rw [hanc]; rfl⟩, by simp [hn]⟩

end Snapshot

namespace LightEngine

/-- The checkpoint block and the blocks of some calls. -/
def blocksOf (cp : Checkpoint) (calls : List (RpcBlockHeader × ℕ)) : List (ℕ × Hash) :=
  (checkpointBlock cp).toList ++ calls.filterMap fun call => headerBlock call.1

theorem blocksOf_concat {cp : Checkpoint} {calls : List (RpcBlockHeader × ℕ)}
    {call : RpcBlockHeader × ℕ} {block : ℕ × Hash} (h : headerBlock call.1 = some block) :
    blocksOf cp (calls ++ [call]) = blocksOf cp calls ++ [block] := by
  rw [blocksOf, List.filterMap_append, ← List.append_assoc]
  simp [blocksOf, h]

/-- The checkpoint block and the blocks of the accepted headers. -/
def blocks (P : Primitives) (e : LightEngine) (calls : List (RpcBlockHeader × ℕ)) :
    List (ℕ × Hash) :=
  blocksOf e.checkpoint (Machine.accepted (step P) e calls)

/-- An invariant between the walked blocks and the snapshot, over the accepted headers of one
walk. -/
theorem blocks_invariant_mem {P : Primitives} {I : List (ℕ × Hash) → Snapshot → Prop}
    {e : LightEngine} {calls : List (RpcBlockHeader × ℕ)}
    (htrim : ∀ past s n, I past s → I past (s.trimRecents n))
    (hnext : ∀ past s, ∀ call ∈ Machine.accepted (step P) e calls, ∀ signer l b milli,
      Snapshot.Accepts P s call.1 signer l b milli → I past s →
      I (past ++ [(l.number, l.hash)]) (s.next signer l b milli))
    (h : I (checkpointBlock e.checkpoint).toList e.snapshot) :
    I (e.blocks P calls) (walk P e calls).snapshot := by
  let J (past : List (RpcBlockHeader × ℕ)) (e' : LightEngine) : Prop :=
    I (blocksOf e.checkpoint past) e'.snapshot
  have h₀ : J [] e := by simpa [J, blocksOf] using h
  refine Machine.run_accepted_invariant_mem (I := J) ?_ ?_ h₀
  · intro past e' call hcall r hi hok
    obtain ⟨signer, l, b, milli, block, -, hacc, -, -, hr⟩ := step_ok hok
    change I _ _
    rw [hr, blocksOf_concat hacc.link.headerBlock_eq]
    exact hnext _ _ call hcall _ _ _ _ hacc hi
  · intro past e' call err hi herr
    rcases step_error herr with hr | ⟨-, hr⟩
    · rw [hr]
      exact hi
    · rw [hr]
      exact htrim _ _ _ hi

/-- An invariant between the walked blocks and the snapshot. -/
theorem blocks_invariant {P : Primitives} {I : List (ℕ × Hash) → Snapshot → Prop}
    (htrim : ∀ past s n, I past s → I past (s.trimRecents n))
    (hnext : ∀ past s header signer l b milli, Snapshot.Accepts P s header signer l b milli →
      I past s → I (past ++ [(l.number, l.hash)]) (s.next signer l b milli))
    {e : LightEngine} (h : I (checkpointBlock e.checkpoint).toList e.snapshot)
    (calls : List (RpcBlockHeader × ℕ)) : I (e.blocks P calls) (walk P e calls).snapshot :=
  blocks_invariant_mem htrim (fun past s call _ => hnext past s call.1) h

section

variable {P : Primitives} {cp : Checkpoint} {header : RpcBlockHeader} {now : ℕ} {e : LightEngine}
  {calls : List (RpcBlockHeader × ℕ)}

/-- The snapshot of a walk is at the last of the walked blocks, which count up from the
checkpoint. -/
theorem walkedFrom_of_checkpoint (h : fromCheckpointAndHeader P cp header now = .ok e)
    (habove : Unwrapped P e calls) :
    Snapshot.WalkedFrom cp.number (e.blocks P calls) (walk P e calls).snapshot := by
  obtain ⟨-, hs, rfl, -⟩ := fromCheckpointAndHeader_ok h
  obtain ⟨hblock, hwalked⟩ := Snapshot.walked_fromCheckpoint hs
  refine blocks_invariant_mem (I := Snapshot.WalkedFrom e.checkpoint.number)
    (fun _ _ n hi => hi.trimRecents n)
    (fun _ _ call hcall _ _ _ _ hacc hi => hi.next (habove call hcall) hacc) ?_
  rw [hblock]
  exact hwalked

end

end LightEngine

end HeliosBsc
