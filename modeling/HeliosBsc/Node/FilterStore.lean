import HeliosBsc.Lib.LruTable
import HeliosBsc.Lib.Machine
import HeliosBsc.Node.BlockTags
import HeliosBsc.Node.LogFilter

/-!
# The filter store

`rpc_server/logs.rs` keeps log filters and block filters under ids in a hash map. Every call on a
filter first sweeps those that were idle for 300 seconds; an insert into a full store drops the filter
that was used longest ago, where the order of the map decides between filters of one time. A call
holds the lock of the store and reads the clock once.
-/

namespace HeliosBsc

open LruTable

/-- `FilterKind`. -/
inductive FilterKind where
  | logs (f : LogFilter)
  | blocks (cursor : ℕ)

/-- `StoredFilter`. -/
structure StoredFilter where
  kind : FilterKind
  touched : ℕ

/-- `FilterStore`. -/
structure FilterStore where
  nextId : ℕ
  map : AList fun _ : ℕ => StoredFilter

/-- `MAX_FILTERS`. -/
def maxFilters : ℕ := 64

/-- `FILTER_TTL`, in nanoseconds. -/
def filterTtl : ℕ := 300000000000

theorem filterTtl_pos : 0 < filterTtl := by decide

/-- The last step of a poll of a log filter. -/
def FilterKind.setLogCursor (c : ℕ) : FilterKind → FilterKind
  | .logs f => .logs { f with cursor := c }
  | .blocks cursor => .blocks cursor

/-- The last step of a poll of a block filter. -/
def FilterKind.setBlockCursor (c : ℕ) : FilterKind → FilterKind
  | .logs f => .logs f
  | .blocks _ => .blocks c

namespace FilterStore

/-- `FilterStore::default`. -/
def new : FilterStore where
  nextId := 0
  map := ∅

/-- `FilterStore::sweep`. -/
def sweep (s : FilterStore) (now : ℕ) : FilterStore :=
  { s with map := retain (fun f => decide (now - f.touched < filterTtl)) s.map }

/-- The least recently polled filter makes room in a full store. -/
def makeRoom (s : FilterStore) (order : Listing ℕ StoredFilter) : FilterStore :=
  if maxFilters ≤ s.map.entries.length then
    { s with map := dropOldest StoredFilter.touched order s.map }
  else s

/-- `FilterStore::insert`. -/
def insert (s : FilterStore) (now : ℕ) (order : Listing ℕ StoredFilter) (kind : FilterKind) :
    Except String ℕ × FilterStore :=
  let s := (s.sweep now).makeRoom order
  if maxFilters ≤ s.map.entries.length then (.error "too many filters", s)
  else
    let id := satAdd s.nextId 1
    (.ok id, ⟨id, s.map.insert id ⟨kind, now⟩⟩)

/-- `Node::uninstall_filter`, its id parsed. -/
def uninstall (s : FilterStore) (now id : ℕ) : Bool × FilterStore :=
  let s := s.sweep now
  ((s.map.lookup id).isSome, { s with map := s.map.erase id })

/-- The section of `get_filter_changes` and of `get_filter_logs` that finds the filter. -/
def touch (s : FilterStore) (now id : ℕ) : Option FilterKind × FilterStore :=
  let s := s.sweep now
  match s.map.lookup id with
  | none => (none, s)
  | some f => (some f.kind, { s with map := s.map.insert id { f with touched := now } })

/-- The section of `get_filter_changes` that writes the cursor, if the filter is still there. -/
def update (s : FilterStore) (id : ℕ) (write : FilterKind → FilterKind) : FilterStore :=
  match s.map.lookup id with
  | none => s
  | some f => { s with map := s.map.insert id { f with kind := write f.kind } }

/-- The filter under an id. -/
def find (s : FilterStore) (id : ℕ) : Option FilterKind := (s.map.lookup id).map StoredFilter.kind

end FilterStore

/-- A call that takes the lock of the store. -/
inductive FilterCall where
  | insert (order : Listing ℕ StoredFilter) (kind : FilterKind)
  | uninstall (id : ℕ)
  | touch (id : ℕ)
  | writeLogs (id cursor : ℕ)
  | writeBlocks (id cursor : ℕ)

/-- What a call learns under the lock. -/
inductive FilterAnswer where
  | inserted (r : Except String ℕ)
  | uninstalled (found : Bool)
  | touched (found : Option FilterKind)
  | written

/-- What the call does to the filter under `id` when it writes. -/
def FilterCall.write (id : ℕ) : FilterCall → FilterKind → FilterKind
  | .writeLogs id' c, kind => if id' = id then kind.setLogCursor c else kind
  | .writeBlocks id' c, kind => if id' = id then kind.setBlockCursor c else kind
  | _, kind => kind

/-- The call inserts a filter. -/
def FilterCall.isInsert : FilterCall → Bool
  | .insert _ _ => true
  | _ => false

/-- The store and the clock. -/
structure ClockedStore where
  now : ℕ
  store : FilterStore

namespace ClockedStore

/-- One call, at a time. -/
def call (s : FilterStore) (now : ℕ) : FilterCall → FilterAnswer × FilterStore
  | .insert order kind => (.inserted (s.insert now order kind).1, (s.insert now order kind).2)
  | .uninstall id => (.uninstalled (s.uninstall now id).1, (s.uninstall now id).2)
  | .touch id => (.touched (s.touch now id).1, (s.touch now id).2)
  | .writeLogs id c => (.written, s.update id (.setLogCursor c))
  | .writeBlocks id c => (.written, s.update id (.setBlockCursor c))

/-- A call some time after the one before. -/
def step (s : ClockedStore) (input : ℕ × FilterCall) : FilterAnswer × ClockedStore :=
  let now := s.now + input.1
  ((call s.store now input.2).1, ⟨now, (call s.store now input.2).2⟩)

/-- A store without filters. -/
def new (now : ℕ) : ClockedStore := ⟨now, .new⟩

/-- The ids that the call uses: it inserts the filter or finds it. -/
def uses (s : ClockedStore) (input : ℕ × FilterCall) : List (ℕ × ℕ) :=
  match (s.step input).1, input.2 with
  | .inserted (.ok id), _ => [(id, s.now + input.1)]
  | .touched (some _), .touch id => [(id, s.now + input.1)]
  | _, _ => []

end ClockedStore

/-! ## What one call does -/

namespace FilterStore

variable {s : FilterStore} {now id : ℕ} {order : Listing ℕ StoredFilter} {kind : FilterKind}

@[simp] theorem nextId_makeRoom : (s.makeRoom order).nextId = s.nextId := by
  unfold makeRoom
  split <;> rfl

theorem lookup_sweep : (s.sweep now).map.lookup id =
    (s.map.lookup id).filter fun f => decide (now - f.touched < filterTtl) :=
  lookup_retain _

theorem lookup_sweep_eq_some {f : StoredFilter} : (s.sweep now).map.lookup id = some f ↔
    s.map.lookup id = some f ∧ now - f.touched < filterTtl := by
  rw [lookup_sweep, Option.filter_eq_some_iff, decide_eq_true_iff]

theorem length_sweep_le : (s.sweep now).map.entries.length ≤ s.map.entries.length :=
  length_retain_le _

theorem length_makeRoom (h : s.map.entries.length ≤ maxFilters) :
    (s.makeRoom order).map.entries.length < maxFilters := by
  unfold makeRoom
  split
  · next hfull =>
    have hpos : 0 < s.map.entries.length := lt_of_lt_of_le (by decide) hfull
    have hdrop := length_dropOldest StoredFilter.touched order hpos
    simp only
    omega
  · omega

variable (s order id) in
theorem lookup_makeRoom : (s.makeRoom order).map.lookup id = none ∨
    (s.makeRoom order).map.lookup id = s.map.lookup id := by
  unfold makeRoom
  split
  · exact lookup_dropOldest
  · exact .inr rfl

/-- A filter is not dropped while fewer than 63 others were used at its time or later. -/
theorem lookup_makeRoom_of_few {f : StoredFilter} (h : s.map.lookup id = some f)
    {others : Finset ℕ} (hothers : ∀ id' f', s.map.lookup id' = some f' → id' ≠ id →
      f.touched ≤ f'.touched → id' ∈ others) (hfew : others.card + 1 < maxFilters) :
    (s.makeRoom order).map.lookup id = some f := by
  unfold makeRoom
  split
  · next hfull => exact lookup_dropOldest_of_few h hothers (lt_of_lt_of_le hfew hfull)
  · exact h

theorem insert_eq (h : s.map.entries.length ≤ maxFilters) : s.insert now order kind =
    (.ok (satAdd s.nextId 1), ⟨satAdd s.nextId 1,
      ((s.sweep now).makeRoom order).map.insert (satAdd s.nextId 1) ⟨kind, now⟩⟩) := by
  have hroom : ((s.sweep now).makeRoom order).map.entries.length < maxFilters :=
    length_makeRoom (length_sweep_le.trans h)
  unfold insert
  simp only
  rw [if_neg (Nat.not_le.mpr hroom), nextId_makeRoom]
  rfl

theorem length_insert_le {t : AList fun _ : ℕ => StoredFilter} {f : StoredFilter} :
    (t.insert id f).entries.length ≤ t.entries.length + 1 := by
  rw [AList.entries_insert, List.length_cons]
  exact Nat.succ_le_succ (List.kerase_sublist id t.entries).length_le

theorem length_insert_of_lookup {t : AList fun _ : ℕ => StoredFilter} {f f' : StoredFilter}
    (h : t.lookup id = some f) : (t.insert id f').entries.length = t.entries.length := by
  have hmem : id ∈ t := AList.lookup_isSome.mp (by rw [h]; rfl)
  rw [AList.entries_insert, List.length_cons]
  exact length_erase_of_mem hmem

end FilterStore

namespace ClockedStore

open FilterStore

variable {s : FilterStore} {now id : ℕ} {c : FilterCall}

theorem lookup_update {write : FilterKind → FilterKind} {id' : ℕ} :
    (s.update id' write).map.lookup id = (s.map.lookup id).map fun f =>
      ⟨if id' = id then write f.kind else f.kind, f.touched⟩ := by
  unfold update
  by_cases hid : id' = id
  · subst hid
    cases hf : s.map.lookup id' with
    | none => exact hf
    | some f =>
      simp only [if_true, Option.map_some]
      exact AList.lookup_insert s.map
  · simp only [if_neg hid, Option.map_id']
    cases s.map.lookup id' with
    | none => rfl
    | some f => exact AList.lookup_insert_ne (Ne.symm hid)

/-- What is under an id after a call: the filter that was inserted, or the one that was there with
the write of the call and, if the call has found it, the time of the call. -/
theorem lookup_call (hfull : s.map.entries.length ≤ maxFilters) {f' : StoredFilter}
    (h : (call s now c).2.map.lookup id = some f') :
    (∃ order kind, c = .insert order kind ∧ id = satAdd s.nextId 1 ∧ f' = ⟨kind, now⟩) ∨
    ∃ f, s.map.lookup id = some f ∧
      (f' = ⟨c.write id f.kind, f.touched⟩ ∨ c = .touch id ∧ f' = ⟨f.kind, now⟩) := by
  cases c with
  | insert order kind =>
    rw [call, insert_eq hfull] at h
    by_cases hid : id = satAdd s.nextId 1
    · subst hid
      rw [AList.lookup_insert] at h
      exact .inl ⟨order, kind, rfl, rfl, (Option.some.inj h).symm⟩
    · rw [AList.lookup_insert_ne hid] at h
      rcases lookup_makeRoom (s.sweep now) id order with hnone | hsame
      · rw [hnone] at h
        cases h
      · rw [hsame] at h
        exact .inr ⟨f', (lookup_sweep_eq_some.mp h).1, .inl rfl⟩
  | uninstall id' =>
    have hne : id ≠ id' := by
      rintro rfl
      rw [call, uninstall, AList.lookup_erase] at h
      cases h
    rw [call, uninstall, AList.lookup_erase_ne hne] at h
    exact .inr ⟨f', (lookup_sweep_eq_some.mp h).1, .inl rfl⟩
  | touch id' =>
    simp only [call, touch] at h
    split at h
    · exact .inr ⟨f', (lookup_sweep_eq_some.mp h).1, .inl rfl⟩
    · next f hf =>
      by_cases hid : id = id'
      · subst hid
        rw [AList.lookup_insert] at h
        exact .inr ⟨f, (lookup_sweep_eq_some.mp hf).1, .inr ⟨rfl, (Option.some.inj h).symm⟩⟩
      · rw [AList.lookup_insert_ne hid] at h
        exact .inr ⟨f', (lookup_sweep_eq_some.mp h).1, .inl rfl⟩
  | writeLogs id' cursor =>
    rw [call, lookup_update] at h
    obtain ⟨f, hf, rfl⟩ := Option.map_eq_some_iff.mp h
    exact .inr ⟨f, hf, .inl rfl⟩
  | writeBlocks id' cursor =>
    rw [call, lookup_update] at h
    obtain ⟨f, hf, rfl⟩ := Option.map_eq_some_iff.mp h
    exact .inr ⟨f, hf, .inl rfl⟩

theorem nextId_call (hfull : s.map.entries.length ≤ maxFilters) :
    (call s now c).2.nextId = if c.isInsert then satAdd s.nextId 1 else s.nextId := by
  cases c with
  | insert order kind =>
    rw [call, insert_eq hfull]
    rfl
  | uninstall id => rfl
  | touch id =>
    rw [call, touch]
    split <;> rfl
  | writeLogs id cursor =>
    rw [call, update]
    split <;> rfl
  | writeBlocks id cursor =>
    rw [call, update]
    split <;> rfl

theorem length_update {write : FilterKind → FilterKind} :
    (s.update id write).map.entries.length = s.map.entries.length := by
  unfold update
  split
  · rfl
  · next f hf => exact length_insert_of_lookup hf

theorem length_call (hfull : s.map.entries.length ≤ maxFilters) :
    (call s now c).2.map.entries.length ≤ maxFilters := by
  have hswept : (s.sweep now).map.entries.length ≤ maxFilters := length_sweep_le.trans hfull
  cases c with
  | insert order kind =>
    rw [call, insert_eq hfull]
    exact length_insert_le.trans (length_makeRoom hswept)
  | uninstall id => exact (List.kerase_sublist id _).length_le.trans hswept
  | touch id =>
    rw [call, touch]
    split
    · exact hswept
    · next f hf =>
      simp only
      rwa [length_insert_of_lookup hf]
  | writeLogs id cursor =>
    rw [call, length_update]
    exact hfull
  | writeBlocks id cursor =>
    rw [call, length_update]
    exact hfull

/-! ## What holds between a store and the uses so far -/

/-- The filters that the calls insert. -/
def inserts (calls : List (ℕ × FilterCall)) : ℕ := calls.countP fun c => c.2.isInsert

/-- What the calls write to the filter under `id`. -/
def written (id : ℕ) (calls : List (ℕ × FilterCall)) (kind : FilterKind) : FilterKind :=
  calls.foldl (fun kind c => c.2.write id kind) kind

/-- The other ids that were used at `t` or later. -/
def usedSince (id t : ℕ) (past : List (ℕ × ℕ)) : Finset ℕ :=
  ((past.filter fun u => decide (t ≤ u.2 ∧ u.1 ≠ id)).map Prod.fst).toFinset

/-- `k` filters were inserted, every filter in the store was used at its time, and there are not too
many. -/
structure Sound (k : ℕ) (past : List (ℕ × ℕ)) (s : ClockedStore) : Prop where
  nextId : s.store.nextId = k
  full : s.store.map.entries.length ≤ maxFilters
  used : ∀ u ∈ past, u.1 ≤ k
  entries : ∀ id f, s.store.map.lookup id = some f → (id, f.touched) ∈ past ∧ f.touched ≤ s.now

theorem mem_usedSince {id t id' : ℕ} {past : List (ℕ × ℕ)} :
    id' ∈ usedSince id t past ↔ id' ≠ id ∧ ∃ t', t ≤ t' ∧ (id', t') ∈ past := by
  unfold usedSince
  rw [List.mem_toFinset, List.mem_map]
  constructor
  · rintro ⟨⟨id₀, t'⟩, hu, rfl⟩
    obtain ⟨hmem, hcond⟩ := List.mem_filter.mp hu
    obtain ⟨hle, hne⟩ := of_decide_eq_true hcond
    exact ⟨hne, t', hle, hmem⟩
  · rintro ⟨hne, t', hle, hmem⟩
    exact ⟨(id', t'), List.mem_filter.mpr ⟨hmem, decide_eq_true ⟨hle, hne⟩⟩, rfl⟩

theorem usedSince_mono {id t : ℕ} {past past' : List (ℕ × ℕ)} (h : past ⊆ past') :
    usedSince id t past ⊆ usedSince id t past' := by
  intro id' h'
  obtain ⟨hne, t', hle, hmem⟩ := mem_usedSince.mp h'
  exact mem_usedSince.mpr ⟨hne, t', hle, h hmem⟩

section

variable {st : ClockedStore} {input : ℕ × FilterCall} {k : ℕ} {past : List (ℕ × ℕ)}

theorem uses_insert {wait : ℕ} {order : Listing ℕ StoredFilter} {kind : FilterKind}
    (hfull : st.store.map.entries.length ≤ maxFilters) :
    st.uses (wait, .insert order kind) = [(satAdd st.store.nextId 1, st.now + wait)] := by
  unfold uses step
  simp only [call, insert_eq hfull]

theorem uses_touch {wait id : ℕ} {f : StoredFilter}
    (h : (st.store.sweep (st.now + wait)).map.lookup id = some f) :
    st.uses (wait, .touch id) = [(id, st.now + wait)] := by
  unfold uses step
  simp only [call, touch, h]

theorem mem_uses (hfull : st.store.map.entries.length ≤ maxFilters) {u : ℕ × ℕ}
    (h : u ∈ st.uses input) : u.2 = st.now + input.1 ∧
      (input.2.isInsert = true ∧ u.1 = satAdd st.store.nextId 1 ∨
        input.2 = .touch u.1 ∧ ∃ f, st.store.map.lookup u.1 = some f) := by
  obtain ⟨wait, c⟩ := input
  cases c with
  | insert order kind =>
    rw [uses_insert hfull] at h
    obtain rfl := List.mem_singleton.mp h
    exact ⟨rfl, .inl ⟨rfl, rfl⟩⟩
  | touch id =>
    cases hf : (st.store.sweep (st.now + wait)).map.lookup id with
    | none =>
      unfold uses step at h
      simp only [call, touch, hf] at h
      cases h
    | some f =>
      rw [uses_touch hf] at h
      obtain rfl := List.mem_singleton.mp h
      exact ⟨rfl, .inr ⟨rfl, f, (lookup_sweep_eq_some.mp hf).1⟩⟩
  | uninstall id => cases h
  | writeLogs id cursor => cases h
  | writeBlocks id cursor => cases h

/-- What is under an id after a step was used by it, or was there with the same time. -/
theorem lookup_step (hfull : st.store.map.entries.length ≤ maxFilters) {id : ℕ} {f' : StoredFilter}
    (h : (st.step input).2.store.map.lookup id = some f') :
    (id, f'.touched) ∈ st.uses input ∧ f'.touched = st.now + input.1 ∨
      ∃ f, st.store.map.lookup id = some f ∧ f' = ⟨input.2.write id f.kind, f.touched⟩ := by
  obtain ⟨wait, c⟩ := input
  rcases lookup_call hfull h with ⟨order, kind, rfl, rfl, rfl⟩ | ⟨f, hf, rfl | ⟨rfl, rfl⟩⟩
  · refine .inl ⟨?_, rfl⟩
    rw [uses_insert hfull]
    exact List.mem_singleton_self _
  · exact .inr ⟨f, hf, rfl⟩
  · refine .inl ⟨?_, rfl⟩
    cases hswept : (st.store.sweep (st.now + wait)).map.lookup id with
    | some g =>
      rw [uses_touch hswept]
      exact List.mem_singleton_self _
    | none =>
      change (call st.store (st.now + wait) (.touch id)).2.map.lookup id = _ at h
      simp only [call, touch, hswept] at h
      cases h

/-- One call keeps the store sound, as long as there are ids. -/
theorem Sound.step_call (h : Sound k past st) (input : ℕ × FilterCall)
    (hids : k + inserts [input] < u64Size) :
    Sound (k + inserts [input]) (past ++ st.uses input) (st.step input).2 := by
  obtain ⟨wait, c⟩ := input
  have hcount : inserts [(wait, c)] = if c.isInsert then 1 else 0 := by
    unfold inserts
    rw [List.countP_singleton]
  have hnext : (call st.store (st.now + wait) c).2.nextId = k + inserts [(wait, c)] := by
    rw [nextId_call h.full, hcount, h.nextId]
    rw [hcount] at hids
    split
    · next hinsert =>
      rw [if_pos hinsert] at hids
      exact satAdd_of_lt hids
    · rfl
  refine ⟨hnext, length_call h.full, ?_, ?_⟩
  · intro u hu
    rcases List.mem_append.mp hu with hu | hu
    · exact (h.used u hu).trans (Nat.le_add_right _ _)
    · rcases (mem_uses h.full hu).2 with ⟨hinsert, hid⟩ | ⟨-, f, hf⟩
      · rw [hid, ← hnext, nextId_call h.full, if_pos hinsert]
      · exact (h.used _ (h.entries _ f hf).1).trans (Nat.le_add_right _ _)
  · intro id f' hf'
    rcases lookup_step h.full hf' with ⟨hused, htime⟩ | ⟨f, hf, rfl⟩
    · exact ⟨List.mem_append_right _ hused, htime.le⟩
    · obtain ⟨hmem, hle⟩ := h.entries id f hf
      exact ⟨List.mem_append_left _ hmem, hle.trans (Nat.le_add_right _ _)⟩

end

theorem sound_run (start : ℕ) {calls : List (ℕ × FilterCall)} (hids : inserts calls < u64Size) :
    Sound (inserts calls) (Machine.history uses step (new start) calls)
      (Machine.run step (new start) calls) := by
  induction calls using List.reverseRecOn with
  | nil =>
    refine ⟨rfl, Nat.zero_le _, ?_, ?_⟩
    · intro u hu
      cases hu
    · intro id f hf
      cases hf
  | append_singleton l c ih =>
    have hsplit : inserts (l ++ [c]) = inserts l + inserts [c] := List.countP_append
    rw [hsplit] at hids ⊢
    have hnext := (ih (Nat.lt_of_le_of_lt (Nat.le_add_right _ _) hids)).step_call c hids
    rw [Machine.history_append, Machine.run_concat]
    simpa only [Machine.history, List.append_nil] using hnext

/-! ## One id, one filter -/

section

variable {st : ClockedStore} {input : ℕ × FilterCall} {k id : ℕ} {past : List (ℕ × ℕ)}

/-- A call leaves the filter of an id handed out before as it was, up to its own write, or drops
it. -/
theorem find_step (h : Sound k past st) (hids : k + inserts [input] < u64Size) (hid : id ≤ k) :
    (st.step input).2.store.find id = none ∨
      (st.step input).2.store.find id = (st.store.find id).map (input.2.write id) := by
  unfold find
  cases hf' : (st.step input).2.store.map.lookup id with
  | none => exact .inl rfl
  | some f' =>
    right
    rcases lookup_call h.full hf' with ⟨order, kind, hc, hnew, -⟩ | ⟨f, hf, rfl | ⟨hc, rfl⟩⟩
    · -- the id of an insert is a new one
      have hcount : inserts [input] = 1 := by
        unfold inserts
        rw [List.countP_singleton, hc]
        rfl
      rw [h.nextId, satAdd_of_lt (by omega)] at hnew
      omega
    · rw [hf]
      rfl
    · rw [hf, hc]
      rfl

theorem find_run (start : ℕ) {before mid : List (ℕ × FilterCall)}
    (hids : inserts (before ++ mid) < u64Size) (hid : id ≤ inserts before) :
    (Machine.run step (new start) (before ++ mid)).store.find id = none ∨
      (Machine.run step (new start) (before ++ mid)).store.find id =
        ((Machine.run step (new start) before).store.find id).map (written id mid) := by
  induction mid using List.reverseRecOn with
  | nil =>
    right
    rw [List.append_nil]
    exact Option.map_id'.symm
  | append_singleton l c ih =>
    rw [← List.append_assoc] at hids ⊢
    have hsplit : inserts (before ++ l ++ [c]) = inserts (before ++ l) + inserts [c] :=
      List.countP_append
    rw [hsplit] at hids
    have hfewer := Nat.lt_of_le_of_lt (Nat.le_add_right _ _) hids
    have hid' : id ≤ inserts (before ++ l) := hid.trans (by
      unfold inserts
      rw [List.countP_append]
      exact Nat.le_add_right _ _)
    rw [Machine.run_concat]
    rcases find_step (sound_run start hfewer) hids hid' with hnone | hsame
    · exact .inl hnone
    · rw [hsame]
      rcases ih hfewer with hnone | heq
      · rw [hnone]
        exact .inl rfl
      · rw [heq, Option.map_map]
        right
        congr 1
        funext kind
        unfold written
        rw [List.foldl_concat]
        rfl

end

end ClockedStore

/-- `parse_filter_id` on its text, which it reads as `parse_hex_u64` does. -/
def parseFilterId (s : String) : Option ℕ := Wire.parseHexU64 s

theorem isSome_of_mem_quantityDigits {n : ℕ} {acc : List Char}
    (hacc : ∀ c ∈ acc, (hexDigitValue c).isSome = true) :
    ∀ c ∈ quantityDigits n acc, (hexDigitValue c).isSome = true := by
  induction n, acc using quantityDigits.induct with
  | case1 n acc h =>
    rw [quantityDigits, if_pos h]
    refine List.forall_mem_cons.mpr ⟨?_, hacc⟩
    rw [hexDigitValue_hexDigitChar h]
    rfl
  | case2 n acc h ih =>
    rw [quantityDigits, if_neg h]
    refine ih (List.forall_mem_cons.mpr ⟨?_, hacc⟩)
    rw [hexDigitValue_hexDigitChar (Nat.mod_lt n (by norm_num))]
    rfl

theorem parseFilterId_hexQuantity {n : ℕ} (hn : n < u64Size) :
    parseFilterId (hexQuantity n) = some n := by
  have hdigits : (quantityDigits n []).all (fun c => (hexDigitValue c).isSome) = true :=
    List.all_eq_true.mpr (isSome_of_mem_quantityDigits nofun)
  have hread : fromStrRadix16 (quantityDigits n []) = .ok n := by
    rw [fromStrRadix16_of_head_ne_plus fun rest => quantityDigits_head_ne_plus n [] rest,
      parseHexU64_quantityDigits n [] hn]
    rfl
  unfold parseFilterId Wire.parseHexU64
  rw [if_pos (hexMarked_hexQuantity n)]
  unfold hexQuantity
  simp only [String.toList_ofList, strip0x, hdigits, hread, Bool.not_true, Bool.or_false,
    List.isEmpty_iff, quantityDigits_ne_nil, if_false]
  rfl

namespace ClockedStore

open FilterStore

/-- Over every run of calls with fewer inserts than there are ids: the n-th insert is answered by the
id n, whose text is read back as n, and none is refused; at most 64 filters are in the store; and the
filter of an id that was handed out is later the one it was, with the writes of its own polls, or it is
gone for good. -/
theorem filter_ids (start : ℕ) (calls : List (ℕ × FilterCall)) (hids : inserts calls < u64Size) :
    let run := Machine.run step (new start)
    (∀ before wait order kind after, calls = before ++ (wait, .insert order kind) :: after →
      ((run before).step (wait, .insert order kind)).1 = .inserted (.ok (inserts before + 1)) ∧
      parseFilterId (hexQuantity (inserts before + 1)) = some (inserts before + 1)) ∧
    (∀ before after, calls = before ++ after →
      (run before).store.map.entries.length ≤ maxFilters) ∧
    (∀ before mid after id, calls = before ++ mid ++ after → id ≤ inserts before →
      (run (before ++ mid)).store.find id = none ∨
        (run (before ++ mid)).store.find id = ((run before).store.find id).map (written id mid)) := by
  intro run
  have hfewer : ∀ before after, calls = before ++ after → inserts before < u64Size := by
    rintro before after rfl
    refine Nat.lt_of_le_of_lt ?_ hids
    unfold inserts
    rw [List.countP_append]
    exact Nat.le_add_right _ _
  refine ⟨?_, fun before after h => (sound_run start (hfewer before after h)).full, ?_⟩
  · intro before wait order kind after h
    have hnext : inserts before + 1 < u64Size := by
      have hconcat := hfewer (before ++ [(wait, .insert order kind)]) after (by rw [h]; simp)
      unfold inserts at hconcat ⊢
      rwa [List.countP_append, List.countP_singleton] at hconcat
    have hsound := sound_run start (hfewer before _ h)
    refine ⟨?_, parseFilterId_hexQuantity hnext⟩
    change FilterAnswer.inserted ((run before).store.insert _ order kind).1 = _
    rw [insert_eq hsound.full, hsound.nextId, satAdd_of_lt hnext]
  · rintro before mid after id h hid
    exact find_run start (hfewer (before ++ mid) after h) hid

/-- The second filter gets the id 2. -/
theorem filter_ids_second :
    ((Machine.run step (new 0) [(0, .insert .id (.blocks 5))]).step (7, .insert .id (.blocks 9))).1 =
      .inserted (.ok 2) := by
  have hids : inserts [((0 : ℕ), FilterCall.insert .id (.blocks 5)), (7, .insert .id (.blocks 9))] <
      u64Size := by
    rw [u64Size_eq]
    norm_num [inserts, FilterCall.isInsert]
  exact ((filter_ids 0 _ hids).1 [(0, .insert .id (.blocks 5))] 7 .id (.blocks 9) [] rfl).1

/-! ## How long a filter is kept -/

section

variable {s : FilterStore} {now id : ℕ} {f : StoredFilter}

/-- A filter that is neither idle for too long nor uninstalled is still there after a call, if an
insert finds fewer than 63 others that were used at its time or later. -/
theorem lookup_call_of_few {c : FilterCall} (hfull : s.map.entries.length ≤ maxFilters)
    (hf : s.map.lookup id = some f) (hle : f.touched ≤ now) (hfresh : now < f.touched + filterTtl)
    (hstay : c ≠ .uninstall id) (hnew : c.isInsert = true → id ≠ satAdd s.nextId 1)
    {others : Finset ℕ} (hothers : ∀ id' f', s.map.lookup id' = some f' → id' ≠ id →
      f.touched ≤ f'.touched → id' ∈ others)
    (hfew : c.isInsert = true → others.card + 1 < maxFilters) :
    ∃ f', (call s now c).2.map.lookup id = some f' ∧ f'.kind = c.write id f.kind ∧
      f.touched ≤ f'.touched := by
  have hswept : (s.sweep now).map.lookup id = some f :=
    lookup_sweep_eq_some.mpr ⟨hf, by omega⟩
  cases c with
  | insert order kind =>
    refine ⟨f, ?_, rfl, le_rfl⟩
    rw [call, insert_eq hfull, AList.lookup_insert_ne (hnew rfl)]
    exact lookup_makeRoom_of_few hswept
      (fun id' f' h' => hothers id' f' (lookup_sweep_eq_some.mp h').1) (hfew rfl)
  | uninstall id' =>
    have hne : id ≠ id' := by
      rintro rfl
      exact hstay rfl
    refine ⟨f, ?_, rfl, le_rfl⟩
    rw [call, uninstall, AList.lookup_erase_ne hne]
    exact hswept
  | touch id' =>
    simp only [call, touch]
    by_cases hid : id = id'
    · subst hid
      rw [hswept]
      exact ⟨⟨f.kind, now⟩, AList.lookup_insert _, rfl, hle⟩
    · refine ⟨f, ?_, rfl, le_rfl⟩
      cases (s.sweep now).map.lookup id' with
      | none => exact hswept
      | some g => exact (AList.lookup_insert_ne hid).trans hswept
  | writeLogs id' cursor =>
    rw [call, lookup_update, hf]
    exact ⟨_, rfl, rfl, le_rfl⟩
  | writeBlocks id' cursor =>
    rw [call, lookup_update, hf]
    exact ⟨_, rfl, rfl, le_rfl⟩

end

/-- The filter was used at `t` or later and holds `kind`. -/
def Holds (id t : ℕ) (kind : FilterKind) (st : ClockedStore) : Prop :=
  ∃ f, st.store.map.lookup id = some f ∧ f.kind = kind ∧ t ≤ f.touched

section

variable {st : ClockedStore} {input : ℕ × FilterCall} {k id t : ℕ} {past : List (ℕ × ℕ)}

theorem holds_of_uses (hfull : st.store.map.entries.length ≤ maxFilters)
    (h : (id, t) ∈ st.uses input) : t = st.now + input.1 ∧
      ∃ kind, (st.step input).2.Holds id t kind := by
  obtain ⟨wait, c⟩ := input
  obtain ⟨rfl, hcase⟩ := mem_uses hfull h
  refine ⟨rfl, ?_⟩
  rcases hcase with ⟨hinsert, hid⟩ | ⟨hc, -⟩
  · cases c with
    | insert order kind =>
      refine ⟨kind, ⟨kind, st.now + wait⟩, ?_, rfl, le_rfl⟩
      change (call st.store (st.now + wait) (.insert order kind)).2.map.lookup id = _
      change id = satAdd st.store.nextId 1 at hid
      subst hid
      simp only [call, insert_eq hfull]
      exact AList.lookup_insert _
    | _ => cases hinsert
  · change c = .touch id at hc
    subst hc
    change ∃ kind f, (call st.store (st.now + wait) (.touch id)).2.map.lookup id = some f ∧ _
    simp only [call, touch]
    cases hf : (st.store.sweep (st.now + wait)).map.lookup id with
    | none =>
      unfold uses step at h
      simp only [call, touch, hf] at h
      cases h
    | some f => exact ⟨f.kind, ⟨f.kind, st.now + wait⟩, AList.lookup_insert _, rfl, le_rfl⟩

theorem Holds.step {kind : FilterKind} (h : st.Holds id t kind) (hsound : Sound k past st)
    (hids : k + inserts [input] < u64Size) (hstay : input.2 ≠ .uninstall id)
    (htime : st.now + input.1 < t + filterTtl)
    (hothers : (usedSince id t (past ++ st.uses input)).card < maxFilters) :
    (st.step input).2.Holds id t (input.2.write id kind) := by
  obtain ⟨f, hf, rfl, ht⟩ := h
  obtain ⟨hmem, hle⟩ := hsound.entries id f hf
  have hid : id ≤ k := hsound.used _ hmem
  have hcount : input.2.isInsert = true → inserts [input] = 1 := by
    intro hinsert
    unfold inserts
    rw [List.countP_singleton, if_pos hinsert]
  have hnext : input.2.isInsert = true → satAdd st.store.nextId 1 = k + 1 := by
    intro hinsert
    rw [hsound.nextId, satAdd_of_lt (by rw [hcount hinsert] at hids; exact hids)]
  -- the filter that an insert adds is one more that was used since
  have hfew : input.2.isInsert = true → (usedSince id t past).card + 1 < maxFilters := by
    intro hinsert
    obtain ⟨wait, c⟩ := input
    have hnew : k + 1 ∉ usedSince id t past := by
      intro hold
      obtain ⟨-, t', -, hmem'⟩ := mem_usedSince.mp hold
      exact absurd (hsound.used _ hmem') (by simp)
    have hused : (k + 1, st.now + wait) ∈ st.uses (wait, c) := by
      cases c with
      | insert order kind =>
        rw [uses_insert hsound.full, hnext rfl]
        exact List.mem_singleton_self _
      | _ => cases hinsert
    have hsub : insert (k + 1) (usedSince id t past) ⊆
        usedSince id t (past ++ st.uses (wait, c)) := by
      refine Finset.insert_subset (mem_usedSince.mpr ⟨by omega, st.now + wait, by omega, ?_⟩)
        (usedSince_mono (List.subset_append_left _ _))
      exact List.mem_append_right _ hused
    have hcard := Finset.card_le_card hsub
    rw [Finset.card_insert_of_notMem hnew] at hcard
    omega
  have hnow : f.touched ≤ st.now + input.1 := hle.trans (Nat.le_add_right _ _)
  obtain ⟨f', hf', hkind, hle'⟩ := lookup_call_of_few hsound.full hf hnow (by omega) hstay
    (fun hinsert => by rw [hnext hinsert]; omega)
    (fun id' f' h' hne hle' => mem_usedSince.mpr
      ⟨hne, f'.touched, ht.trans hle', (hsound.entries id' f' h').1⟩) hfew
  exact ⟨f', hf', hkind, ht.trans hle'⟩

end

/-- Among few filters, and before the first can be idle for too long, a filter that is not uninstalled
is found after a call. -/
theorem find_step_of_few {st : ClockedStore} {input : ℕ × FilterCall} {k id : ℕ}
    {past : List (ℕ × ℕ)} {kind : FilterKind} (hsound : Sound k past st) (hfew : k + 2 < maxFilters)
    (h : st.store.find id = some kind) (htime : st.now + input.1 < filterTtl)
    (hstay : input.2 ≠ .uninstall id) :
    (st.step input).2.store.find id = some (input.2.write id kind) := by
  obtain ⟨f, hf, rfl⟩ := Option.map_eq_some_iff.mp h
  obtain ⟨hmem, hle⟩ := hsound.entries id f hf
  have hid : id ≤ k := hsound.used _ hmem
  have hnew : id ≠ satAdd st.store.nextId 1 := by
    have hsize := u64Size_eq
    have hmany : maxFilters = 64 := rfl
    rw [hsound.nextId, satAdd_of_lt (by omega)]
    omega
  obtain ⟨f', hf', hkind, -⟩ := lookup_call_of_few hsound.full hf (hle.trans (Nat.le_add_right _ _))
    (htime.trans_le (Nat.le_add_left _ _)) hstay (fun _ => hnew)
    (fun id' f' h' _ _ => Finset.mem_range.mpr
      (Nat.lt_succ_of_le (hsound.used _ (hsound.entries id' f' h').1)))
    (fun _ => by rw [Finset.card_range]; omega)
  exact Option.map_eq_some_iff.mpr ⟨f', hf', hkind⟩

theorem inserts_append (l m : List (ℕ × FilterCall)) :
    inserts (l ++ m) = inserts l + inserts m := List.countP_append

section

variable {start id t : ℕ} {before mid : List (ℕ × FilterCall)} {kind : FilterKind}

theorem holds_run (h : (Machine.run step (new start) before).Holds id t kind)
    (hids : inserts (before ++ mid) < u64Size) (hstay : ∀ c ∈ mid, c.2 ≠ .uninstall id)
    (htime : (Machine.run step (new start) (before ++ mid)).now < t + filterTtl)
    (hothers : (usedSince id t
      (Machine.history uses step (new start) (before ++ mid))).card < maxFilters) :
    (Machine.run step (new start) (before ++ mid)).Holds id t (written id mid kind) := by
  induction mid using List.reverseRecOn with
  | nil =>
    rw [List.append_nil]
    exact h
  | append_singleton l c ih =>
    have hhistory : Machine.history uses step (new start) (before ++ l ++ [c]) =
        Machine.history uses step (new start) (before ++ l) ++
          (Machine.run step (new start) (before ++ l)).uses c := by
      rw [Machine.history_append, Machine.history, Machine.history, List.append_nil]
    rw [← List.append_assoc] at hids hothers htime ⊢
    rw [inserts_append] at hids
    rw [Machine.run_concat] at htime ⊢
    rw [hhistory] at hothers
    have hfewer := Nat.lt_of_le_of_lt (Nat.le_add_right _ _) hids
    have hkept := ih hfewer (fun c' hc' => hstay c' (List.mem_append_left _ hc'))
      (Nat.lt_of_le_of_lt (Nat.le_add_right _ _) htime)
      (Nat.lt_of_le_of_lt (Finset.card_le_card (usedSince_mono (List.subset_append_left _ _)))
        hothers)
    have hnext := hkept.step (sound_run start hfewer) hids
      (hstay c (List.mem_append_right _ (List.mem_singleton_self c))) htime hothers
    unfold written at hnext ⊢
    rwa [List.foldl_concat]

theorem touched_le_run (h : ∀ f, (Machine.run step (new start) before).store.map.lookup id = some f →
      f.touched ≤ t) (hids : inserts (before ++ mid) < u64Size)
    (hidle : ∀ u ∈ Machine.history uses step (Machine.run step (new start) before) mid, u.1 ≠ id) :
    ∀ f, (Machine.run step (new start) (before ++ mid)).store.map.lookup id = some f →
      f.touched ≤ t := by
  induction mid using List.reverseRecOn with
  | nil =>
    rw [List.append_nil]
    exact h
  | append_singleton l c ih =>
    rw [Machine.history_append, List.forall_mem_append] at hidle
    rw [← List.append_assoc] at hids ⊢
    rw [inserts_append] at hids
    have hfewer := Nat.lt_of_le_of_lt (Nat.le_add_right _ _) hids
    intro f' hf'
    rw [Machine.run_concat] at hf'
    rcases lookup_step (sound_run start hfewer).full hf' with ⟨hused, -⟩ | ⟨f, hf, rfl⟩
    · refine absurd rfl (hidle.2 (id, f'.touched) ?_)
      rw [Machine.run_append] at hused
      simpa only [Machine.history, List.append_nil] using hused
    · exact ih hfewer hidle.1 f hf

end

/-- After a use of a filter at the time `t`, in every run with fewer inserts than there are ids: it is
found, with all that was written to it, at any time before `t` plus 300 seconds, unless it was
uninstalled or 64 other filters were used at `t` or later; and it is not found from then on, if it was
not used in between. -/
theorem filter_lifetime (start : ℕ) (before mid : List (ℕ × FilterCall)) (use : ℕ × FilterCall)
    (id t wait : ℕ) (hids : inserts (before ++ [use] ++ mid) < u64Size)
    (huse : (id, t) ∈ (Machine.run step (new start) before).uses use) :
    let run := Machine.run step (new start)
    let s := run (before ++ [use] ++ mid)
    ((∀ c ∈ mid, c.2 ≠ .uninstall id) →
      (usedSince id t (Machine.history uses step (new start) (before ++ [use] ++ mid))).card <
        maxFilters →
      s.now + wait < t + filterTtl →
      ∃ kind, (run (before ++ [use])).store.find id = some kind ∧
        (s.step (wait, .touch id)).1 = .touched (some (written id mid kind))) ∧
    ((∀ u ∈ Machine.history uses step (run (before ++ [use])) mid, u.1 ≠ id) →
      t + filterTtl ≤ s.now + wait → (s.step (wait, .touch id)).1 = .touched none) := by
  intro run s
  have hids' := hids
  rw [inserts_append] at hids'
  have hfirst := Nat.lt_of_le_of_lt (Nat.le_add_right _ _) hids'
  have hbefore : inserts before < u64Size := by
    rw [inserts_append] at hfirst
    exact Nat.lt_of_le_of_lt (Nat.le_add_right _ _) hfirst
  obtain ⟨ht, kind, hholds⟩ := holds_of_uses (sound_run start hbefore).full huse
  rw [← Machine.run_concat] at hholds
  constructor
  · intro hstay hothers htime
    obtain ⟨f₀, hf₀, hkind₀, hle₀⟩ := hholds
    obtain ⟨f, hf, hkind, hle⟩ := holds_run ⟨f₀, hf₀, hkind₀, hle₀⟩ hids hstay
      (Nat.lt_of_le_of_lt (Nat.le_add_right _ _) htime) hothers
    have httl := filterTtl_pos
    have hswept : (s.store.sweep (s.now + wait)).map.lookup id = some f :=
      lookup_sweep_eq_some.mpr ⟨hf, by omega⟩
    refine ⟨kind, ?_, ?_⟩
    · unfold find
      rw [hf₀, ← hkind₀]
      rfl
    · simp only [step, call, touch, hswept, hkind]
  · intro hidle htime
    have hswept : (s.store.sweep (s.now + wait)).map.lookup id = none := by
      refine Option.eq_none_iff_forall_ne_some.mpr fun f hf => ?_
      obtain ⟨hlookup, hfresh⟩ := lookup_sweep_eq_some.mp hf
      have hle := touched_le_run (t := t) ?_ hids hidle f hlookup
      · omega
      · intro g hg
        exact (((sound_run start hfirst).entries id g hg).2).trans (by
          rw [Machine.run_concat]
          exact ht.ge)
    simp only [step, call, touch, hswept]

theorem uses_first (kind : FilterKind) : (new 0).uses (0, .insert .id kind) = [(1, 0)] := by
  rw [uses_insert (Nat.zero_le _)]
  change [(satAdd 0 1, 0)] = _
  rw [satAdd_of_lt (by rw [u64Size_eq]; norm_num)]

theorem find_first (kind : FilterKind) :
    (Machine.run step (new 0) [(0, .insert .id kind)]).store.find 1 = some kind := by
  obtain ⟨-, k, f, hf, hkind, -⟩ := holds_of_uses (Nat.zero_le _)
    (show (1, 0) ∈ (new 0).uses (0, .insert .id kind) by
      rw [uses_first kind]
      exact List.mem_singleton_self _)
  rcases lookup_call (Nat.zero_le _) hf with ⟨order, kind', hc, -, rfl⟩ | ⟨g, hg, -⟩
  · cases hc
    change ((Machine.run step (new 0) _).store.map.lookup 1).map StoredFilter.kind = _
    rw [Machine.run_cons, Machine.run_nil, hf]
    rfl
  · cases hg

/-- A block filter is found up to 300 seconds after it was installed. -/
theorem filter_lifetime_first :
    ((Machine.run step (new 0) [(0, .insert .id (.blocks 5))]).step (filterTtl - 1, .touch 1)).1 =
        .touched (some (.blocks 5)) ∧
      ((Machine.run step (new 0) [(0, .insert .id (.blocks 5))]).step (filterTtl, .touch 1)).1 =
        .touched none := by
  have hids : inserts ([] ++ [((0 : ℕ), FilterCall.insert .id (.blocks 5))] ++ []) < u64Size := by
    rw [u64Size_eq]
    norm_num [inserts, FilterCall.isInsert]
  have huse : (1, 0) ∈ (Machine.run step (new 0) []).uses (0, .insert .id (.blocks 5)) := by
    rw [Machine.run_nil, uses_first]
    exact List.mem_singleton_self _
  constructor
  · obtain ⟨kind, hkind, hfound⟩ := (filter_lifetime 0 [] [] _ 1 0 (filterTtl - 1) hids huse).1
      (fun _ h => (List.not_mem_nil h).elim) (by
        simp only [List.nil_append, List.append_nil, Machine.history, uses_first]
        decide) (by
        change 0 + 0 + (filterTtl - 1) < 0 + filterTtl
        have := filterTtl_pos
        omega)
    rw [List.nil_append, find_first] at hkind
    cases hkind
    exact hfound
  · exact (filter_lifetime 0 [] [] _ 1 0 filterTtl hids huse).2
      (fun _ h => (List.not_mem_nil h).elim) (Nat.le_add_left _ _)

end ClockedStore

end HeliosBsc
