import HeliosBsc.Execution.MptSound

/-!
# Two walks from the same reference

Two lists of nodes that are both accepted under one root say the same of a key, or two of their
nodes collide. Nothing is known of the root: it may be the root of no map at all. The induction is
that of the walk itself; at each hashed node both lists offer a string with the same hash, and from
there on the two walks follow the same items with the same key.
-/

namespace HeliosBsc

open Checked

section

variable (keccak256 : Bytes → Hash)

/-- What `consume_hashed` answers on one list it answers on every other that it accepts. -/
def ConsumeAgrees (rest : List Bytes) (expected : Bytes) (nibbles : List Nibble) : Prop :=
  ∀ rest' r r', consumeHashed keccak256 rest expected nibbles = .ok r →
    consumeHashed keccak256 rest' expected nibbles = .ok r' →
      r = r' ∨ Collision keccak256 rest rest'

/-- The same of `walk_items`. -/
def WalkAgrees (items : List Rlp) (rest : List Bytes) (nibbles : List Nibble) : Prop :=
  ∀ rest' r r', walkItems keccak256 items rest nibbles = .ok r →
    walkItems keccak256 items rest' nibbles = .ok r' → r = r' ∨ Collision keccak256 rest rest'

/-- The same of `follow_child`. -/
def FollowAgrees (item : Rlp) (rest : List Bytes) (nibbles : List Nibble) (branchValue : Bool) :
    Prop :=
  ∀ rest' r r', followChild keccak256 item rest nibbles branchValue = .ok r →
    followChild keccak256 item rest' nibbles branchValue = .ok r' →
      r = r' ∨ Collision keccak256 rest rest'

variable {keccak256}

theorem nodeRef_eq {raw raw' : Bytes} (h : nodeRef keccak256 raw = nodeRef keccak256 raw') :
    raw = raw' ∨ keccak256 raw = keccak256 raw' := by
  unfold nodeRef at h
  split_ifs at h with hshort hshort'
  · exact .inl h
  · rw [h, (keccak256 raw').len] at hshort
    exact absurd hshort (lt_irrefl 32)
  · rename_i hshort'
    rw [← h, (keccak256 raw).len] at hshort'
    exact absurd hshort' (lt_irrefl 32)
  · exact .inr (FixedBytes.ext h)

theorem consumeHashed_cons_eq_ok {raw expected : Bytes} {rest : List Bytes}
    {nibbles : List Nibble} {r : Option Bytes}
    (h : consumeHashed keccak256 (raw :: rest) expected nibbles = .ok r) :
    nodeRef keccak256 raw = expected ∧
      ∃ items, nodeItems raw = .ok items ∧ walkItems keccak256 items rest nibbles = .ok r := by
  rw [consumeHashed] at h
  simp only [bind_eq_ok, require_eq_ok] at h
  obtain ⟨-, href, items, hitems, hwalk⟩ := h
  exact ⟨href, items, hitems, hwalk⟩

theorem consumeAgrees_cons {raw expected : Bytes} {rest : List Bytes} {nibbles : List Nibble}
    (ih : ∀ items, WalkAgrees keccak256 items rest nibbles) :
    ConsumeAgrees keccak256 (raw :: rest) expected nibbles := by
  intro rest' r r' h h'
  cases rest' with
  | nil => simp [consumeHashed] at h'
  | cons raw' rest' =>
    obtain ⟨href, items, hitems, hwalk⟩ := consumeHashed_cons_eq_ok h
    obtain ⟨href', items', hitems', hwalk'⟩ := consumeHashed_cons_eq_ok h'
    by_cases hraw : raw = raw'
    · subst hraw
      obtain rfl := Except.ok.inj (hitems.symm.trans hitems')
      refine (ih items rest' r r' hwalk hwalk').imp_right fun hcol => ?_
      exact Collision.mono keccak256 hcol (fun _ => List.mem_cons_of_mem raw)
        fun _ => List.mem_cons_of_mem raw
    · have hhash := (nodeRef_eq (href.trans href'.symm)).resolve_left hraw
      exact .inr ⟨raw, List.mem_cons_self, raw', List.mem_cons_self, hraw, hhash⟩

theorem eq_of_ended {rest rest' : List Bytes} {answer r r' : Option Bytes} {e e' : MptError}
    (h : (if rest = [] then .ok answer else .error e) = (.ok r : Except MptError (Option Bytes)))
    (h' : (if rest' = [] then .ok answer else .error e') = (.ok r' : Except MptError _)) :
    r = r' := by
  split_ifs at h h'
  exact (Except.ok.inj h).symm.trans (Except.ok.inj h')

/-- A leaf or an extension: whether the key leaves its path does not depend on the list. -/
theorem walkAgrees_pair {pathItem child : Rlp} {rest : List Bytes} {nibbles : List Nibble}
    (ih : ∀ path : List Nibble,
      FollowAgrees keccak256 child rest (nibbles.drop path.length) false) :
    WalkAgrees keccak256 [pathItem, child] rest nibbles := by
  intro rest' r r' h h'
  rw [walkItems, dif_neg (by simp)] at h h'
  simp only [bind_eq_ok, mapError_eq_ok] at h h'
  obtain ⟨pathBytes, hpath, h⟩ := h
  obtain ⟨pathBytes', hpath', h'⟩ := h'
  obtain rfl := Except.ok.inj (hpath.symm.trans hpath')
  cases hdec : hexPrefixDecode pathBytes with
  | none => simp [hdec] at h
  | some decoded =>
    obtain ⟨path, isLeaf⟩ := decoded
    simp only [hdec] at h h'
    by_cases hoff : nibbles.length < path.length ∨ nibbles.take path.length ≠ path
    · rw [if_pos hoff] at h h'
      exact .inl (eq_of_ended h h')
    · rw [if_neg hoff] at h h'
      cases isLeaf with
      | true =>
        simp only [if_true, bind_eq_ok, require_eq_ok, mapError_eq_ok, pure_eq_ok,
          Except.ok.injEq] at h h'
        obtain ⟨-, -, -, -, value, hvalue, rfl⟩ := h
        obtain ⟨-, -, -, -, value', hvalue', rfl⟩ := h'
        rw [Except.ok.inj (hvalue.symm.trans hvalue')]
        exact .inl rfl
      | false => exact ih path rest' r r' h h'

theorem followAgrees_nil {rest : List Bytes} {nibbles : List Nibble} {branchValue : Bool} :
    FollowAgrees keccak256 (.bytes []) rest nibbles branchValue := by
  intro rest' r r' h h'
  rw [followChild] at h h'
  exact .inl (eq_of_ended h h')

theorem followAgrees_value {rest : List Bytes} {nibbles : List Nibble} {x : UInt8} {b : Bytes} :
    FollowAgrees keccak256 (.bytes (x :: b)) rest nibbles true := by
  intro rest' r r' h h'
  rw [followChild, if_pos rfl] at h h'
  exact .inl (eq_of_ended h h')

theorem followAgrees_hashed {rest : List Bytes} {nibbles : List Nibble} {x : UInt8} {b : Bytes}
    (hlong : 32 ≤ (x :: b).length) (ih : ConsumeAgrees keccak256 rest (x :: b) nibbles) :
    FollowAgrees keccak256 (.bytes (x :: b)) rest nibbles false := by
  intro rest' r r' h h'
  rw [followChild, if_neg (by simp), if_pos hlong] at h h'
  exact ih rest' r r' h h'

theorem followAgrees_inlined {rest : List Bytes} {nibbles : List Nibble} {x : UInt8} {b : Bytes}
    (hshort : ¬ 32 ≤ (x :: b).length)
    (ih : ∀ items, nodeItems (x :: b) = .ok items → WalkAgrees keccak256 items rest nibbles) :
    FollowAgrees keccak256 (.bytes (x :: b)) rest nibbles false := by
  intro rest' r r' h h'
  rw [followChild, if_neg (by simp), if_neg hshort] at h h'
  cases hitems : nodeItems (x :: b) with
  | error e =>
    split at h
    · cases h
    · next items hok => rw [hitems] at hok; cases hok
  | ok items =>
    split at h
    · cases h
    · next items₁ hok =>
      split at h'
      · cases h'
      · next items₂ hok' =>
        obtain rfl := Except.ok.inj (hok.symm.trans hok')
        exact ih items₁ hok rest' r r' h h'

/-- Whatever is accepted below one reference agrees, or two of the nodes collide. -/
theorem consumeAgrees (rest : List Bytes) (expected : Bytes) (nibbles : List Nibble) :
    ConsumeAgrees keccak256 rest expected nibbles := by
  refine (consumeHashed.mutual_induct (ConsumeAgrees keccak256) (WalkAgrees keccak256)
    (FollowAgrees keccak256) ?nil ?cons ?branchEnd ?branch ?pair ?other ?emptyLast ?emptyMore
    ?valueLast ?valueMore ?hashed ?refused ?inlined ?list).1 rest expected nibbles
  case nil =>
    intro expected nibbles rest' r r' h
    simp [consumeHashed] at h
  case cons => exact fun expected nibbles raw rest ih => consumeAgrees_cons ih
  case branchEnd =>
    intro items rest h17 ih rest' r r' h h'
    rw [walkItems, dif_pos h17] at h h'
    exact ih rest' r r' h h'
  case branch =>
    intro items rest h17 nibble nibbles ih rest' r r' h h'
    rw [walkItems, dif_pos h17] at h h'
    exact ih rest' r r' h h'
  case pair => exact fun rest nibbles pathItem child _ ih => walkAgrees_pair ih
  case other =>
    intro items rest nibbles h17 hpair rest' r r' h
    rw [walkItems, dif_neg h17] at h
    split at h
    · exact (hpair _ _ _ rfl HEq.rfl).elim
    · cases h
  case emptyLast => exact fun nibbles branchValue => followAgrees_nil
  case emptyMore => exact fun rest nibbles branchValue _ => followAgrees_nil
  case valueLast => exact fun nibbles x b => followAgrees_value
  case valueMore => exact fun rest nibbles x b _ => followAgrees_value
  case hashed =>
    intro rest nibbles branchValue x b hvalue hlong ih
    obtain rfl := Bool.eq_false_iff.mpr hvalue
    exact followAgrees_hashed hlong ih
  case refused =>
    intro rest nibbles branchValue x b hvalue hshort e he
    obtain rfl := Bool.eq_false_iff.mpr hvalue
    exact followAgrees_inlined hshort fun items hok => by rw [he] at hok; cases hok
  case inlined =>
    intro rest nibbles branchValue x b hvalue hshort items hitems ih
    obtain rfl := Bool.eq_false_iff.mpr hvalue
    refine followAgrees_inlined hshort fun items' hok => ?_
    obtain rfl := Except.ok.inj (hitems.symm.trans hok)
    exact ih
  case list =>
    intro rest nibbles branchValue v ih rest' r r' h h'
    rw [followChild] at h h'
    exact ih rest' r r' h h'

theorem verifyTrieProof_agree {root hashedKey : Hash} {proof proof' : List Bytes}
    {r r' : Option Bytes} (h : verifyTrieProof keccak256 root hashedKey proof = .ok r)
    (h' : verifyTrieProof keccak256 root hashedKey proof' = .ok r') :
    r = r' ∨ Collision keccak256 proof proof' := by
  simp only [verifyTrieProof, verifyNibbleProof, bind_eq_ok] at h h'
  obtain ⟨-, -, h⟩ := h
  obtain ⟨-, -, h'⟩ := h'
  exact consumeAgrees proof root.val _ proof' r r' h h'

end

end HeliosBsc
