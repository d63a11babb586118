import Mathlib.Data.List.AList
import Mathlib.Data.List.MinMax
import Mathlib.Data.Finset.Card

/-!
# Tables that drop what was used longest ago

A table whose entries have a time drops an entry with the least of them to make room. A hash table
lists its entries in an order of its own, which decides between entries of one time, so the order is
an argument. An entry is dropped only when every other one has its time or a later one.
-/

namespace LruTable

variable {κ α : Type*}

/-- An order in which a hash table may list its entries. -/
structure Listing (κ α : Type*) where
  list : List (Σ _ : κ, α) → List (Σ _ : κ, α)
  perm : ∀ l, (list l).Perm l

/-- The order of the entries as they are. -/
def Listing.id : Listing κ α where
  list := fun l => l
  perm := fun _ => .rfl

theorem nodupKeys_filter (p : α → Bool) (t : AList fun _ : κ => α) :
    (t.entries.filter fun e => p e.2).NodupKeys :=
  t.nodupKeys.sublist List.filter_sublist

/-- The entries with a property. -/
def retain (p : α → Bool) (t : AList fun _ : κ => α) : AList fun _ : κ => α :=
  ⟨t.entries.filter fun e => p e.2, nodupKeys_filter p t⟩

section

variable (time : α → ℕ) (order : Listing κ α)

/-- The key of the first entry, in the order, of those with the least time. -/
def oldest (t : AList fun _ : κ => α) : Option κ :=
  ((order.list t.entries).argmin fun e => time e.2).map Sigma.fst

/-- Drops the oldest entry. -/
def dropOldest [DecidableEq κ] (t : AList fun _ : κ => α) : AList fun _ : κ => α :=
  match oldest time order t with
  | some k => t.erase k
  | none => t

end

variable {time : α → ℕ} {order : Listing κ α} {t : AList fun _ : κ => α} {k : κ} {a : α}

theorem length_retain_le (p : α → Bool) :
    (retain p t).entries.length ≤ t.entries.length :=
  List.length_filter_le _ _

variable (time order) in
theorem exists_oldest (h : 0 < t.entries.length) : ∃ k, oldest time order t = some k := by
  unfold oldest
  cases hmin : (order.list t.entries).argmin fun e => time e.2 with
  | some e => exact ⟨e.1, rfl⟩
  | none =>
    have hnil := List.argmin_eq_none.mp hmin
    rw [← (order.perm t.entries).length_eq, hnil] at h
    exact absurd h (lt_irrefl 0)

variable [DecidableEq κ]

theorem lookup_retain (p : α → Bool) : (retain p t).lookup k = (t.lookup k).filter p := by
  ext a
  rw [Option.filter_eq_some_iff, ← Option.mem_def, ← Option.mem_def, AList.mem_lookup_iff,
    AList.mem_lookup_iff, retain, List.mem_filter]

theorem length_erase_of_mem (h : k ∈ t) :
    (t.erase k).entries.length + 1 = t.entries.length := by
  have hkeys : (t.erase k).keys.length = t.keys.length - 1 := by
    rw [AList.keys_erase, List.length_erase_of_mem (AList.mem_keys.mp h)]
  have hpos := List.length_pos_of_mem (AList.mem_keys.mp h)
  unfold AList.keys List.keys at hkeys hpos
  rw [List.length_map] at hkeys hpos
  rw [List.length_map] at hkeys
  omega

theorem oldest_spec (h : oldest time order t = some k) :
    ∃ a, t.lookup k = some a ∧ ∀ k' a', t.lookup k' = some a' → time a ≤ time a' := by
  obtain ⟨⟨k₀, a⟩, hmin, rfl⟩ := Option.map_eq_some_iff.mp h
  have hmem : ∀ e, e ∈ order.list t.entries ↔ e ∈ t.entries := fun e => (order.perm _).mem_iff
  refine ⟨a, AList.mem_lookup_iff.mpr ((hmem _).mp (List.argmin_mem hmin)), fun k' a' h' => ?_⟩
  exact List.le_of_mem_argmin (f := fun e : Σ _ : κ, α => time e.2)
    ((hmem ⟨k', a'⟩).mpr (AList.mem_lookup_iff.mp h')) hmin

variable (time order) in
theorem length_dropOldest (h : 0 < t.entries.length) :
    (dropOldest time order t).entries.length + 1 = t.entries.length := by
  obtain ⟨k, hk⟩ := exists_oldest time order h
  obtain ⟨a, ha, -⟩ := oldest_spec hk
  unfold dropOldest
  rw [hk]
  exact length_erase_of_mem (AList.lookup_isSome.mp (by rw [ha]; rfl))

theorem lookup_dropOldest :
    (dropOldest time order t).lookup k = none ∨ (dropOldest time order t).lookup k = t.lookup k := by
  unfold dropOldest
  cases oldest time order t with
  | none => exact .inr rfl
  | some k' =>
    by_cases h : k = k'
    · rw [h]
      exact .inl (AList.lookup_erase k' t)
    · exact .inr (AList.lookup_erase_ne h)

/-- An entry stays when too few others have its time or a later one to fill the table with it. -/
theorem lookup_dropOldest_of_few (h : t.lookup k = some a) {others : Finset κ}
    (hothers : ∀ k' a', t.lookup k' = some a' → k' ≠ k → time a ≤ time a' → k' ∈ others)
    (hfew : others.card + 1 < t.entries.length) :
    (dropOldest time order t).lookup k = some a := by
  obtain ⟨k₀, hk₀⟩ := exists_oldest time order (t := t) (by omega)
  have hne : k ≠ k₀ := by
    rintro rfl
    obtain ⟨a', ha', hmin⟩ := oldest_spec hk₀
    obtain rfl : a' = a := Option.some.inj (ha'.symm.trans h)
    -- every key but this one is among the others
    have hsub : t.keys.toFinset ⊆ insert k others := by
      intro k' hk'
      obtain ⟨b, hb⟩ := Option.isSome_iff_exists.mp
        (AList.lookup_isSome.mpr (AList.mem_keys.mpr (List.mem_toFinset.mp hk')))
      by_cases hkk : k' = k
      · rw [hkk]
        exact Finset.mem_insert_self _ _
      · exact Finset.mem_insert_of_mem (hothers k' b hb hkk (hmin k' b hb))
    have hcard := (Finset.card_le_card hsub).trans (Finset.card_insert_le k others)
    rw [List.toFinset_card_of_nodup t.keys_nodup] at hcard
    unfold AList.keys List.keys at hcard
    rw [List.length_map] at hcard
    omega
  unfold dropOldest
  rw [hk₀]
  exact (AList.lookup_erase_ne hne).trans h

end LruTable
