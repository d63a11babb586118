import HeliosBsc.Node.BlockFilter
import HeliosBsc.Node.FilterStore

/-!
# Filters of a node

The requests on all filters of a node, in any number and any order of their critical sections:
`eth_newFilter`, `eth_newBlockFilter`, `eth_uninstallFilter`, `eth_getFilterChanges` and
`eth_getFilterLogs`. They share the filter store, whose calls sweep idle filters and make room for new
ones. To the polls of one log filter, as long as it is stored, the others are not there: what they do
is a run of the filter alone.
-/

namespace HeliosBsc

open Checked LruTable

/-- Where a request stands. A poll of a filter that was not found yet is a poll of its id. -/
inductive FilterRequest where
  | fresh
  | installing (kind : FilterKind)
  | installed (r : Except String ℕ)
  | uninstalled (found : Bool)
  | polling (id : ℕ) (poll : Poll)
  | passing (id lo hi : ℕ)
  | passed (id hi : ℕ) (hashes : List String)
  | listed (hashes : List String)
  | recalling (id head : ℕ)
  | spanning (f : LogFilter) (stop : ℕ)
  | recalled (f : LogFilter) (r : SpanRead)
  | empty
  | failed (e : RpcFailure)

/-- The verified chain, the head that reads resolve to, the store with its clock, and the requests by
number. -/
structure Filters where
  synced : Synced
  head : SafeHead
  filters : ClockedStore
  requests : ℕ → FilterRequest

/-- A step of a request or an advance of the chain. The first step of a request refreshes; a step
that takes the lock of the store comes some time after the one before. -/
inductive FiltersEvent where
  | advance (call : AppendCall) (head : SafeHead)
  | newFilter (p : ℕ) (q : LogQuery) (fromTag toTag : Option String) (outage : Option String)
  | newBlockFilter (p : ℕ) (outage : Option String)
  | install (p wait : ℕ) (order : Listing ℕ StoredFilter)
  | uninstall (p wait id : ℕ)
  | poll (p id : ℕ) (outage : Option String)
  | startRecall (p id : ℕ) (outage : Option String)
  | find (p wait : ℕ)
  | readSpan (p : ℕ) (outage : Option String) (fetch : Fetch)
  | readChain (p : ℕ)
  | writeCursor (p wait : ℕ)

/-- The request that takes the step. -/
def FiltersEvent.request : FiltersEvent → Option ℕ
  | .advance _ _ => none
  | .newFilter p _ _ _ _ | .newBlockFilter p _ | .install p _ _ | .uninstall p _ _ | .poll p _ _
  | .startRecall p _ _ | .find p _ | .readSpan p _ _ | .readChain p | .writeCursor p _ => some p

/-- An explicit `toBlock` closes a new filter there. -/
def closingBlock (toTag : Option String) (safe : SafeHead) : Except RpcFailure (Option ℕ) :=
  match toTag with
  | some t => if hexMarked t then (rangeBound toTag safe).map some else .ok none
  | none => .ok none

/-- `Node::new_filter` up to its insert, its filter object parsed. -/
def newFilterKind (q : LogQuery) (fromTag toTag : Option String) (refreshed : Except String SafeHead) :
    Except RpcFailure FilterKind := do
  let safe ← refreshed.mapError fun e => ⟨errNotSynced, s!"not_synced: {e}"⟩
  let cursor ← rangeBound fromTag safe
  let toBlock ← closingBlock toTag safe
  return .logs ⟨q, cursor, toBlock, cursor⟩

/-- `Node::new_block_filter` up to its insert. -/
def newBlockFilterKind (refreshed : Except String SafeHead) : Except RpcFailure FilterKind := do
  let safe ← refreshed.mapError fun e => ⟨errNotSynced, s!"not_synced: {e}"⟩
  return .blocks (satAdd safe.number 1)

/-- What follows in `get_filter_changes` when the lock has found `found`. -/
def pollFound (id head : ℕ) (found : Option FilterKind) : FilterRequest :=
  match found with
  | none => .polling id (readCursor none head)
  | some (.logs f) => .polling id (readCursor (some f) head)
  | some (.blocks cursor) =>
    if head < cursor then .empty
    else .passing id cursor (min head (satAdd cursor (maxGetLogsRange - 1)))

/-- What follows in `get_filter_logs` when the lock has found `found`. -/
def recallFound (head : ℕ) (found : Option FilterKind) : FilterRequest :=
  match found with
  | none => .failed ⟨errParams, filterNotFound⟩
  | some (.logs f) =>
    let stop := min (f.toBlock.getD head) head
    if stop < f.fromBlock then .empty else .spanning f stop
  | some (.blocks _) => .failed ⟨errParams, "eth_getFilterLogs needs a log filter"⟩

/-- The read of `get_filter_logs`, over the whole range of the filter. -/
def recallSpan (f : LogFilter) (refreshed : Except String SafeHead) (chain : List VerifiedBlock)
    (fetch : Fetch) (stop : ℕ) : FilterRequest :=
  match logsForSpan f.query refreshed chain fetch f.fromBlock stop with
  | .ok logs => .recalled f ⟨f.fromBlock, stop, fetch, logs⟩
  | .error (.rpc e) => .failed e
  | .error .capped => .failed ⟨errParams, s!"filter matched more than {maxGetLogs} logs over its " ++
      "own range; eth_getFilterLogs always answers the whole range, so install a new filter with a " ++
      "narrower fromBlock/toBlock or a tighter address/topic filter"⟩

namespace Filters

/-- The answer of `Node::refresh`. -/
def refreshed (s : Filters) (outage : Option String) : Except String SafeHead :=
  match outage with
  | some e => .error e
  | none => .ok s.head

/-- The call on the store that a step makes, if it takes its lock. -/
def call (s : Filters) : FiltersEvent → Option (ℕ × FilterCall)
  | .install p wait order =>
    match s.requests p with
    | .installing kind => some (wait, .insert order kind)
    | _ => none
  | .uninstall p wait id =>
    match s.requests p with
    | .fresh => some (wait, .uninstall id)
    | _ => none
  | .find p wait =>
    match s.requests p with
    | .polling id (.refreshed _) => some (wait, .touch id)
    | .recalling id _ => some (wait, .touch id)
    | _ => none
  | .writeCursor p wait =>
    match s.requests p with
    | .polling id (.writing r) => some (wait, .writeLogs id (satAdd r.hi 1))
    | .passed id hi _ => some (wait, .writeBlocks id (satAdd hi 1))
    | _ => none
  | _ => none

/-- What the call of the step learns. -/
def callAnswer (s : Filters) (e : FiltersEvent) : FilterAnswer :=
  match s.call e with
  | some input => (s.filters.step input).1
  | none => .written

/-- The next position of the request that takes the step. -/
def next (s : Filters) : FiltersEvent → FilterRequest → FilterRequest
  | .newFilter _ q fromTag toTag outage, .fresh =>
    match newFilterKind q fromTag toTag (s.refreshed outage) with
    | .ok kind => .installing kind
    | .error e => .failed e
  | .newBlockFilter _ outage, .fresh =>
    match newBlockFilterKind (s.refreshed outage) with
    | .ok kind => .installing kind
    | .error e => .failed e
  | .install p wait order, .installing kind =>
    match s.callAnswer (.install p wait order) with
    | .inserted r => .installed r
    | _ => .installing kind
  | .uninstall p wait id, .fresh =>
    match s.callAnswer (.uninstall p wait id) with
    | .uninstalled found => .uninstalled found
    | _ => .fresh
  | .poll _ id outage, .fresh =>
    match s.refreshed outage with
    | .ok head => .polling id (.refreshed head.number)
    | .error e => .polling id (.failed ⟨errNotSynced, s!"not_synced: {e}"⟩)
  | .startRecall _ id outage, .fresh =>
    match s.refreshed outage with
    | .ok head => .recalling id head.number
    | .error e => .failed ⟨errNotSynced, s!"not_synced: {e}"⟩
  | .find p wait, .polling id (.refreshed head) =>
    match s.callAnswer (.find p wait) with
    | .touched found => pollFound id head found
    | _ => .polling id (.refreshed head)
  | .find p wait, .recalling id head =>
    match s.callAnswer (.find p wait) with
    | .touched found => recallFound head found
    | _ => .recalling id head
  | .readSpan _ outage fetch, .polling id (.reading q cursor stop) =>
    .polling id (readSpan q (s.refreshed outage) s.synced.chain fetch cursor stop)
  | .readSpan _ outage fetch, .spanning f stop =>
    recallSpan f (s.refreshed outage) s.synced.chain fetch stop
  | .readChain _, .passing id lo hi => .passed id hi (blockHashes s.synced.chain lo hi)
  | .writeCursor _ _, .polling id (.writing r) => .polling id (.delivered r)
  | .writeCursor _ _, .passed _ _ hashes => .listed hashes
  | _, request => request

section

variable (P : Primitives)

/-- The state after the step. -/
def move (s : Filters) (e : FiltersEvent) : Filters where
  synced :=
    match e with
    | .advance call _ => (appendStep P s.synced call).2
    | _ => s.synced
  head :=
    match e with
    | .advance _ head => head
    | _ => s.head
  filters :=
    match s.call e with
    | some input => (s.filters.step input).2
    | none => s.filters
  requests :=
    match e.request with
    | some p => Function.update s.requests p (s.next e (s.requests p))
    | none => s.requests

/-- A step, with the position that its request comes to. -/
def step (s : Filters) (e : FiltersEvent) : Option FilterRequest × Filters :=
  (e.request.map (s.move P e).requests, s.move P e)

end

/-- The calls that a step makes on the store. -/
def calls (s : Filters) (e : FiltersEvent) : List (ℕ × FilterCall) := (s.call e).toList

/-- The log filter under an id. -/
def logFilter (s : Filters) (id : ℕ) : Option LogFilter :=
  match s.filters.store.find id with
  | some (.logs f) => some f
  | _ => none

end Filters

/-- The poll of the filter under `id` that the request is, if it is one. -/
def FilterRequest.pollOf (id : ℕ) : FilterRequest → Poll
  | .polling id' poll => if id' = id then poll else .idle
  | _ => .idle

/-- The filter under `id` and its polls. -/
def Filters.alone (s : Filters) (id : ℕ) : FilterState where
  synced := s.synced
  head := s.head
  stored := s.logFilter id
  polls := fun p => (s.requests p).pollOf id

/-- What a step is to the filter under `id`. -/
def Filters.aloneEvent (s : Filters) (id : ℕ) : FiltersEvent → Option FilterEvent
  | .advance call head => some (.advance call head)
  | .poll p id' outage =>
    match s.requests p with
    | .fresh => if id' = id then some (.refresh p outage) else none
    | _ => none
  | .find p _ =>
    match s.requests p with
    | .polling id' (.refreshed _) => if id' = id then some (.readCursor p) else none
    | _ => none
  | .readSpan p outage fetch =>
    match s.requests p with
    | .polling id' (.reading _ _ _) => if id' = id then some (.readSpan p outage fetch) else none
    | _ => none
  | .writeCursor p _ =>
    match s.requests p with
    | .polling id' (.writing _) => if id' = id then some (.writeCursor p) else none
    | _ => none
  | _ => none

namespace Filters

/-! ## A stored filter and its polls move alone -/

section

variable {P : Primitives} {s : Filters} {id p : ℕ} {e : FiltersEvent} {f f' : LogFilter}

theorem logFilter_eq_some : s.logFilter id = some f ↔ s.filters.store.find id = some (.logs f) := by
  unfold logFilter
  cases s.filters.store.find id with
  | none => exact ⟨nofun, nofun⟩
  | some kind =>
    cases kind with
    | logs g => simp
    | blocks cursor => simp

theorem requests_move_self (h : e.request = some p) :
    (s.move P e).requests p = s.next e (s.requests p) := by
  simp only [move, h, Function.update_self]

theorem requests_move_of_ne (h : e.request ≠ some p) :
    (s.move P e).requests p = s.requests p := by
  unfold move
  cases he : e.request with
  | none => rfl
  | some p' =>
    have hne : p ≠ p' := by
      rintro rfl
      exact h he
    exact Function.update_of_ne hne _ _

theorem filters_move_of_call {input : ℕ × FilterCall} (h : s.call e = some input) :
    (s.move P e).filters = (s.filters.step input).2 := by
  simp only [move, h]

theorem filters_move_of_none (h : s.call e = none) : (s.move P e).filters = s.filters := by
  simp only [move, h]

theorem pollOf_pollFound_of_ne {id' head : ℕ} (h : id' ≠ id) (found : Option FilterKind) :
    (pollFound id' head found).pollOf id = .idle := by
  unfold pollFound
  split
  · exact if_neg h
  · exact if_neg h
  · split
    · rfl
    · rfl

theorem pollOf_recallFound {head : ℕ} (found : Option FilterKind) :
    (recallFound head found).pollOf id = .idle := by
  unfold recallFound
  split
  · rfl
  · simp only
    split <;> rfl
  · rfl

theorem pollOf_recallSpan {f : LogFilter} {refreshed : Except String SafeHead}
    {chain : List VerifiedBlock} {fetch : Fetch} {stop : ℕ} :
    (recallSpan f refreshed chain fetch stop).pollOf id = .idle := by
  unfold recallSpan
  split <;> rfl

/-- The poll of the filter under `id` that takes a step, after it. -/
def aloneNext (s : Filters) (id : ℕ) (e : FiltersEvent) (poll : Poll) : Poll :=
  match s.aloneEvent id e with
  | some e' => poll.next (s.alone id) e'
  | none => poll

theorem pollOf_next_poll {outage : Option String} {id' : ℕ} :
    (s.next (.poll p id' outage) (s.requests p)).pollOf id =
      s.aloneNext id (.poll p id' outage) ((s.requests p).pollOf id) := by
  unfold aloneNext
  cases hreq : s.requests p with
  | fresh =>
    simp only [next, aloneEvent, hreq]
    by_cases hid : id' = id
    · subst hid
      simp only [if_true, FilterRequest.pollOf, Poll.next]
      cases outage <;> simp [refreshed, FilterState.refreshed, alone, FilterRequest.pollOf]
    · simp only [if_neg hid]
      split <;> simp [FilterRequest.pollOf, hid]
  | _ => simp only [next, aloneEvent, hreq]

theorem pollOf_next_find {wait : ℕ}
    (hfind : ∀ head, s.requests p = .polling id (.refreshed head) →
      ∃ f, s.logFilter id = some f ∧ s.callAnswer (.find p wait) = .touched (some (.logs f))) :
    (s.next (.find p wait) (s.requests p)).pollOf id =
      s.aloneNext id (.find p wait) ((s.requests p).pollOf id) := by
  unfold aloneNext
  cases hreq : s.requests p with
  | polling id' poll =>
    cases poll with
    | refreshed head =>
      by_cases hid : id' = id
      · subst hid
        obtain ⟨f, hf, hanswer⟩ := hfind head hreq
        simp only [next, aloneEvent, hreq, hanswer, pollFound, FilterRequest.pollOf, if_true,
          Poll.next]
        change readCursor (some f) head = readCursor (s.logFilter id') head
        rw [hf]
      · simp only [next, aloneEvent, hreq, if_neg hid]
        split
        · rw [pollOf_pollFound_of_ne hid]
          exact (if_neg hid).symm
        · rfl
    | _ => simp only [next, aloneEvent, hreq]
  | recalling id' head =>
    simp only [next, aloneEvent, hreq]
    split
    · exact pollOf_recallFound _
    · rfl
  | _ => simp only [next, aloneEvent, hreq]

theorem pollOf_next_readSpan {outage : Option String} {fetch : Fetch} :
    (s.next (.readSpan p outage fetch) (s.requests p)).pollOf id =
      s.aloneNext id (.readSpan p outage fetch) ((s.requests p).pollOf id) := by
  unfold aloneNext
  cases hreq : s.requests p with
  | polling id' poll =>
    cases poll with
    | reading q cursor stop =>
      simp only [next, aloneEvent, hreq]
      by_cases hid : id' = id
      · subst hid
        simp only [if_true, FilterRequest.pollOf, Poll.next]
        rfl
      · simp [FilterRequest.pollOf, hid]
    | _ => simp only [next, aloneEvent, hreq]
  | spanning f stop =>
    simp only [next, aloneEvent, hreq]
    exact pollOf_recallSpan
  | _ => simp only [next, aloneEvent, hreq]

theorem pollOf_next_writeCursor {wait : ℕ} :
    (s.next (.writeCursor p wait) (s.requests p)).pollOf id =
      s.aloneNext id (.writeCursor p wait) ((s.requests p).pollOf id) := by
  unfold aloneNext
  cases hreq : s.requests p with
  | polling id' poll =>
    cases poll with
    | writing r =>
      simp only [next, aloneEvent, hreq]
      by_cases hid : id' = id
      · subst hid
        simp only [if_true, FilterRequest.pollOf, Poll.next]
      · simp [FilterRequest.pollOf, hid]
    | _ => simp only [next, aloneEvent, hreq]
  | passed id' hi hashes =>
    simp only [next, aloneEvent, hreq]
    rfl
  | _ => simp only [next, aloneEvent, hreq]

/-- The position of a request, as a poll of `id`, moves as the poll does alone. -/
theorem pollOf_next (he : e.request = some p)
    (hfind : ∀ wait head, e = .find p wait → s.requests p = .polling id (.refreshed head) →
      ∃ f, s.logFilter id = some f ∧ s.callAnswer e = .touched (some (.logs f))) :
    (s.next e (s.requests p)).pollOf id = s.aloneNext id e ((s.requests p).pollOf id) := by
  cases e with
  | advance call head => cases he
  | poll p' id' outage =>
    cases he
    exact pollOf_next_poll
  | find p' wait =>
    cases he
    exact pollOf_next_find fun head hreq => hfind wait head rfl hreq
  | readSpan p' outage fetch =>
    cases he
    exact pollOf_next_readSpan
  | writeCursor p' wait =>
    cases he
    exact pollOf_next_writeCursor
  | newFilter _ _ _ _ _ | newBlockFilter _ _ | startRecall _ _ _ | uninstall _ _ _ =>
    simp only [aloneNext, aloneEvent]
    cases s.requests p with
    | fresh => simp only [next]; split <;> rfl
    | _ => rfl
  | install p' wait order =>
    simp only [aloneNext, aloneEvent]
    cases s.requests p with
    | installing kind => simp only [next]; split <;> rfl
    | _ => rfl
  | readChain p' =>
    simp only [aloneNext, aloneEvent]
    cases s.requests p <;> rfl

theorem find_touch {st : FilterStore} {now : ℕ} : (st.touch now id).2.find id = (st.touch now id).1 := by
  unfold FilterStore.touch FilterStore.find
  cases hf : (st.sweep now).map.lookup id with
  | none =>
    simp only [hf]
    rfl
  | some g =>
    simp only [hf, AList.lookup_insert, Option.map_some]

theorem logFilter_move {k : ℕ} {past : List (ℕ × ℕ)} (hsound : ClockedStore.Sound k past s.filters)
    (hids : k + ClockedStore.inserts (s.calls e) < u64Size) (hf : s.logFilter id = some f)
    (hf' : (s.move P e).logFilter id = some f') :
    .logs f' = (s.calls e).foldl (fun kind c => c.2.write id kind) (.logs f) := by
  rw [logFilter_eq_some] at hf hf'
  have hid : id ≤ k := by
    obtain ⟨g, hg, -⟩ := Option.map_eq_some_iff.mp hf
    exact hsound.used _ (hsound.entries id g hg).1
  unfold calls at hids ⊢
  cases hc : s.call e with
  | none =>
    rw [filters_move_of_none hc, hf] at hf'
    exact (Option.some.inj hf').symm
  | some input =>
    rw [hc] at hids
    rw [filters_move_of_call hc] at hf'
    rcases ClockedStore.find_step hsound hids hid with hnone | hsame
    · rw [hnone] at hf'
      cases hf'
    · rw [hsame, hf] at hf'
      exact (Option.some.inj hf').symm

theorem poll_aloneEvent {e' : FilterEvent} (h : s.aloneEvent id e = some e') :
    e'.poll = e.request := by
  cases e with
  | advance call head =>
    cases h
    rfl
  | poll p _ _ | find p _ | readSpan p _ _ | writeCursor p _ =>
    simp only [aloneEvent] at h
    split at h
    · split at h
      · cases h
        rfl
      · cases h
    · cases h
  | _ => cases h

theorem storedAfter_aloneEvent (hne : ∀ p wait, e ≠ .writeCursor p wait) :
    (match s.aloneEvent id e with
      | some e' => (s.alone id).storedAfter e'
      | none => s.logFilter id) = s.logFilter id := by
  cases e with
  | writeCursor p wait => exact absurd rfl (hne p wait)
  | poll p _ _ | readSpan p _ _ | find p _ =>
    simp only [aloneEvent]
    split
    · next e' heq =>
      split at heq
      · split at heq
        · cases heq
          rfl
        · cases heq
      · cases heq
    · rfl
  | _ => rfl

theorem eq_of_calls_write (hne : ∀ p wait, e ≠ .writeCursor p wait)
    (h : .logs f' = (s.calls e).foldl (fun kind c => c.2.write id kind) (.logs f)) : f' = f := by
  cases e with
  | writeCursor p wait => exact absurd rfl (hne p wait)
  | install p _ _ | uninstall p _ _ | find p _ =>
    simp only [calls, call] at h
    split at h <;> cases h <;> rfl
  | _ =>
    cases h
    rfl

theorem stored_alone_writeCursor {wait : ℕ} (hf : s.logFilter id = some f)
    (h : .logs f' = (s.calls (.writeCursor p wait)).foldl (fun kind c => c.2.write id kind)
      (.logs f)) :
    (match s.aloneEvent id (.writeCursor p wait) with
      | some e' => (s.alone id).storedAfter e'
      | none => s.logFilter id) = some f' := by
  cases hreq : s.requests p with
  | polling id' poll =>
    cases poll with
    | writing r =>
      simp only [calls, call, hreq, Option.toList_some, List.foldl_cons, List.foldl_nil,
        FilterCall.write] at h
      simp only [aloneEvent, hreq]
      by_cases hid : id' = id
      · subst hid
        rw [if_pos rfl] at h
        cases h
        simp [FilterState.storedAfter, alone, hreq, FilterRequest.pollOf, hf]
      · rw [if_neg hid] at h
        cases h
        rw [if_neg hid]
        exact hf
    | _ =>
      simp only [calls, call, hreq] at h
      cases h
      simp only [aloneEvent, hreq]
      exact hf
  | passed id' hi hashes =>
    simp only [calls, call, hreq, Option.toList_some, List.foldl_cons, List.foldl_nil,
      FilterCall.write] at h
    have hsame : f' = f := by
      split at h <;> cases h <;> rfl
    simp only [aloneEvent, hreq, hsame]
    exact hf
  | _ =>
    simp only [calls, call, hreq] at h
    cases h
    simp only [aloneEvent, hreq]
    exact hf

/-- The filter that stays stored is changed by the writes of its own polls. -/
theorem stored_alone (hf : s.logFilter id = some f)
    (h : .logs f' = (s.calls e).foldl (fun kind c => c.2.write id kind) (.logs f)) :
    (match s.aloneEvent id e with
      | some e' => (s.alone id).storedAfter e'
      | none => s.logFilter id) = some f' := by
  by_cases hwrite : ∃ p wait, e = .writeCursor p wait
  · obtain ⟨p, wait, rfl⟩ := hwrite
    exact stored_alone_writeCursor hf h
  · have hne : ∀ p wait, e ≠ .writeCursor p wait := fun p wait he => hwrite ⟨p, wait, he⟩
    rw [storedAfter_aloneEvent hne, hf, eq_of_calls_write hne h]

theorem alone_eq {t : FilterState} (hsynced : s.synced = t.synced) (hhead : s.head = t.head)
    (hstored : s.logFilter id = t.stored) (hpolls : ∀ p, (s.requests p).pollOf id = t.polls p) :
    s.alone id = t := by
  cases t
  cases hsynced
  cases hhead
  cases hstored
  unfold alone
  congr 1
  funext p
  exact hpolls p

theorem callAnswer_find {wait head : ℕ} (hf' : (s.move P e).logFilter id = some f')
    (he : e = .find p wait) (hreq : s.requests p = .polling id (.refreshed head)) :
    s.callAnswer e = .touched (some (.logs f')) := by
  have hcall : s.call e = some (wait, .touch id) := by
    rw [he]
    simp only [call, hreq]
  rw [logFilter_eq_some, filters_move_of_call hcall] at hf'
  have hanswer : (s.filters.step (wait, .touch id)).1 =
      .touched ((s.filters.step (wait, .touch id)).2.store.find id) :=
    congrArg FilterAnswer.touched find_touch.symm
  unfold callAnswer
  rw [hcall]
  simp only
  rw [hanswer, hf']

theorem published_move {e' : FilterEvent} (h : s.aloneEvent id e = some e') :
    (s.move P e).synced = ((s.alone id).move P e').synced ∧
      (s.move P e).head = ((s.alone id).move P e').head := by
  have hpoll := poll_aloneEvent h
  cases e' with
  | advance call head =>
    cases e with
    | advance call' head' =>
      cases h
      exact ⟨rfl, rfl⟩
    | _ => cases hpoll
  | forget =>
    cases e with
    | advance call' head' => cases h
    | _ => cases hpoll
  | refresh _ _ | readCursor _ | readSpan _ _ _ | writeCursor _ =>
    cases e with
    | advance call' head' => cases hpoll
    | _ => exact ⟨rfl, rfl⟩

theorem published_move_of_none (h : s.aloneEvent id e = none) :
    (s.move P e).synced = s.synced ∧ (s.move P e).head = s.head := by
  cases e with
  | advance call head => cases h
  | _ => exact ⟨rfl, rfl⟩

/-- A step is one of the filter alone, or nothing to it, as long as the filter stays stored. -/
theorem alone_move {k : ℕ} {past : List (ℕ × ℕ)} (hsound : ClockedStore.Sound k past s.filters)
    (hids : k + ClockedStore.inserts (s.calls e) < u64Size) (hf : s.logFilter id = some f)
    (hf' : (s.move P e).logFilter id = some f') :
    (s.move P e).alone id = Machine.run (FilterState.step P) (s.alone id)
      (s.aloneEvent id e).toList := by
  have hwrites := logFilter_move hsound hids hf hf'
  have hstored := stored_alone hf hwrites
  have hfind : ∀ p wait head, e = .find p wait → s.requests p = .polling id (.refreshed head) →
      ∃ f, s.logFilter id = some f ∧ s.callAnswer e = .touched (some (.logs f)) := by
    intro p wait head he hreq
    have hsame : f' = f := by
      simp only [calls, he, call, hreq] at hwrites
      cases hwrites
      rfl
    rw [callAnswer_find hf' he hreq, hsame]
    exact ⟨f, hf, rfl⟩
  have hpolls : ∀ p, ((s.move P e).requests p).pollOf id =
      if e.request = some p then s.aloneNext id e ((s.requests p).pollOf id)
      else (s.requests p).pollOf id := by
    intro p
    split
    · next he => rw [requests_move_self he, pollOf_next he (hfind p)]
    · next he => rw [requests_move_of_ne he]
  cases hal : s.aloneEvent id e with
  | none =>
    rw [hal] at hstored
    obtain ⟨hsynced, hhead⟩ := published_move_of_none (P := P) hal
    refine alone_eq hsynced hhead (hf'.trans hstored.symm) fun p => ?_
    rw [hpolls, aloneNext, hal]
    split <;> rfl
  | some e' =>
    rw [hal] at hstored
    obtain ⟨hsynced, hhead⟩ := published_move (P := P) hal
    have hpoll := poll_aloneEvent hal
    refine alone_eq hsynced hhead (hf'.trans hstored.symm) fun p => ?_
    change _ = ((s.alone id).move P e').polls p
    rw [hpolls, aloneNext, hal]
    split
    · next he => exact (FilterState.polls_move_self (hpoll.trans he)).symm
    · next he =>
      rw [FilterState.polls_move_of_ne (by rwa [hpoll])]
      rfl

end

/-! ## Runs of the node -/

/-- The calls that a run makes on the store. -/
def storeCalls (P : Primitives) (start : Filters) (events : List FiltersEvent) :
    List (ℕ × FilterCall) :=
  Machine.history calls (step P) start events

section

variable {P : Primitives} {start : Filters} {id : ℕ}

theorem storeCalls_append (l m : List FiltersEvent) : start.storeCalls P (l ++ m) =
    start.storeCalls P l ++ (Machine.run (step P) start l).storeCalls P m :=
  Machine.history_append calls start l m

theorem run_filters (events : List FiltersEvent) : (Machine.run (step P) start events).filters =
    Machine.run ClockedStore.step start.filters (start.storeCalls P events) := by
  induction events generalizing start with
  | nil => rfl
  | cons e rest ih =>
    have hmove : (start.move P e).filters =
        Machine.run ClockedStore.step start.filters (start.calls e) := by
      unfold calls
      cases hc : start.call e with
      | none => exact filters_move_of_none hc
      | some input => exact filters_move_of_call hc
    have hcons : start.storeCalls P (e :: rest) =
        start.calls e ++ (start.move P e).storeCalls P rest := Machine.history_cons calls start e rest
    rw [Machine.run_cons, hcons, Machine.run_append, ← hmove]
    exact ih

theorem sound_filters {now : ℕ} (hstart : start.filters = ClockedStore.new now)
    {events : List FiltersEvent}
    (hids : ClockedStore.inserts (start.storeCalls P events) < u64Size) :
    ∃ past, ClockedStore.Sound (ClockedStore.inserts (start.storeCalls P events)) past
      (Machine.run (step P) start events).filters := by
  rw [run_filters, hstart]
  exact ⟨_, ClockedStore.sound_run now hids⟩

/-- A log filter whose id was handed out before a step was there before it if it is after it. -/
theorem exists_logFilter {k : ℕ} {past : List (ℕ × ℕ)} {s : Filters} {e : FiltersEvent}
    {f' : LogFilter} (hsound : ClockedStore.Sound k past s.filters)
    (hids : k + ClockedStore.inserts (s.calls e) < u64Size) (hid : id ≤ k)
    (hf' : (s.move P e).logFilter id = some f') : ∃ f, s.logFilter id = some f := by
  rw [logFilter_eq_some] at hf'
  unfold calls at hids
  cases hc : s.call e with
  | none =>
    rw [filters_move_of_none hc] at hf'
    exact ⟨f', logFilter_eq_some.mpr hf'⟩
  | some input =>
    rw [hc] at hids
    rw [filters_move_of_call hc] at hf'
    rcases ClockedStore.find_step hsound hids hid with hnone | hsame
    · rw [hnone] at hf'
      cases hf'
    · rw [hsame] at hf'
      obtain ⟨kind, hkind, hwrite⟩ := Option.map_eq_some_iff.mp hf'
      cases kind with
      | logs f => exact ⟨f, logFilter_eq_some.mpr hkind⟩
      | blocks cursor =>
        -- no write makes a log filter of a block filter
        exfalso
        unfold FilterCall.write at hwrite
        split at hwrite
        · split at hwrite <;> cases hwrite
        · split at hwrite <;> cases hwrite
        · cases hwrite

theorem id_le_of_logFilter {k : ℕ} {past : List (ℕ × ℕ)} {s : Filters} {f : LogFilter}
    (hsound : ClockedStore.Sound k past s.filters) (hf : s.logFilter id = some f) : id ≤ k := by
  obtain ⟨g, hg, -⟩ := Option.map_eq_some_iff.mp (logFilter_eq_some.mp hf)
  exact hsound.used _ (hsound.entries id g hg).1

theorem storeCalls_concat (l : List FiltersEvent) (e : FiltersEvent) : start.storeCalls P (l ++ [e]) =
    start.storeCalls P l ++ (Machine.run (step P) start l).calls e := by
  rw [storeCalls_append]
  congr 1
  exact List.append_nil _

end

/-- In a node that starts without filters, over every run with fewer inserts than there are ids: as
long as a log filter is stored, it and its polls are a run of the one filter alone, whatever requests
on other filters, sweeps and evictions come in between. -/
theorem stored_filter_is_alone (P : Primitives) {start : Filters} {now : ℕ}
    (hstart : start.filters = ClockedStore.new now) (before mid : List FiltersEvent)
    (hids : ClockedStore.inserts (start.storeCalls P (before ++ mid)) < u64Size) {id : ℕ}
    {f f' : LogFilter} (hf : (Machine.run (step P) start before).logFilter id = some f)
    (hf' : (Machine.run (step P) start (before ++ mid)).logFilter id = some f') :
    (Machine.run (step P) start (before ++ mid)).alone id =
      Machine.run (FilterState.step P) ((Machine.run (step P) start before).alone id)
        (Machine.history (fun s e => (s.aloneEvent id e).toList) (step P)
          (Machine.run (step P) start before) mid) := by
  induction mid using List.reverseRecOn generalizing f' with
  | nil =>
    rw [List.append_nil]
    rfl
  | append_singleton l e ih =>
    rw [← List.append_assoc] at hids hf' ⊢
    rw [storeCalls_concat, ClockedStore.inserts_append] at hids
    have hprefix := Nat.lt_of_le_of_lt (Nat.le_add_right _ _) hids
    obtain ⟨past, hsound⟩ := sound_filters hstart hprefix
    rw [Machine.run_concat] at hf' ⊢
    have hid : id ≤ ClockedStore.inserts (start.storeCalls P (before ++ l)) := by
      have hle := hprefix
      rw [storeCalls_append, ClockedStore.inserts_append] at hle ⊢
      obtain ⟨past₀, hsound₀⟩ := sound_filters hstart (Nat.lt_of_le_of_lt (Nat.le_add_right _ _) hle)
      exact (id_le_of_logFilter hsound₀ hf).trans (Nat.le_add_right _ _)
    obtain ⟨g, hg⟩ := exists_logFilter hsound hids hid hf'
    have hhistory : Machine.history (fun s e => (aloneEvent s id e).toList) (step P)
          (Machine.run (step P) start before) (l ++ [e]) =
        Machine.history (fun s e => (aloneEvent s id e).toList) (step P)
          (Machine.run (step P) start before) l ++
          (aloneEvent (Machine.run (step P) start (before ++ l)) id e).toList := by
      rw [Machine.history_append, Machine.run_append]
      exact congrArg _ (List.append_nil _)
    have hstep := alone_move hsound hids hg hf'
    rw [ih hprefix hg] at hstep
    rw [hhistory]
    exact hstep.trans (Machine.run_append _ _ _).symm

/-! ## No filter loses a block -/

/-- The condition on a step that publishes a head. -/
def HeadPublished (P : Primitives) (s : Filters) : FiltersEvent → Prop
  | .advance call head => call.Publishes P head u64Size s.synced
  | _ => True

/-- A linked chain with a head on it, no filters and no requests. -/
structure Fresh (s : Filters) : Prop where
  linked : s.synced.Linked
  head : s.head.PublishedOn u64Size s.synced.chain
  filters : ∃ now, s.filters = ClockedStore.new now
  requests : ∀ p, s.requests p = .fresh

/-- The position of a request when `k` ids were handed out. -/
def RequestOk (k : ℕ) (blocks : List VerifiedBlock) : FilterRequest → Prop
  | .installing (.logs f) => f.cursor = f.fromBlock
  | .polling id poll => k < id →
      (∃ head, poll = .refreshed head ∧ head < u64Size) ∨ ∃ e, poll = .failed e
  | .recalling _ head => head < u64Size
  | .spanning f stop => f.fromBlock ≤ stop ∧ stop < u64Size
  | .recalled f r => r.lo = f.fromBlock ∧ r.Complete f.query blocks
  | _ => True

/-- Every stored log filter accounts for its blocks, and every request is in order. -/
structure InOrder (P : Primitives) (start : Synced) (k : ℕ) (s : Filters) : Prop where
  head : s.head.PublishedOn u64Size s.synced.chain
  stored : ∀ id f, s.logFilter id = some f → ∃ appended,
    (s.alone id).Accounts P u64Size start { f with cursor := f.fromBlock } appended
  requests : ∃ appended, Extends P start appended s.synced ∧
    ∀ p, RequestOk k (start.chain ++ appended) (s.requests p)

section

variable {P : Primitives} {s : Filters} {start : Synced} {k : ℕ} {past : List (ℕ × ℕ)}
  {e : FiltersEvent} {blocks : List VerifiedBlock}

theorem RequestOk.mono {request : FilterRequest} {k' : ℕ} {blocks' : List VerifiedBlock}
    (h : RequestOk k blocks request) (hk : k ≤ k') (hsub : blocks ⊆ blocks') :
    RequestOk k' blocks' request := by
  cases request with
  | installing kind =>
    cases kind with
    | logs f => exact h
    | blocks cursor => exact trivial
  | polling id poll => exact fun hid => h (hk.trans_lt hid)
  | recalled f r => exact ⟨h.1, h.2.mono hsub⟩
  | recalling id head => exact h
  | spanning f stop => exact h
  | _ => exact trivial

theorem refreshed_eq_ok {outage : Option String} {safe : SafeHead}
    (h : s.refreshed outage = .ok safe) : safe = s.head := by
  cases outage with
  | some e => cases h
  | none =>
    cases h
    rfl

theorem requestOk_installing {refreshed : Except String SafeHead} {q : LogQuery}
    {fromTag toTag : Option String} {kind : FilterKind}
    (h : newFilterKind q fromTag toTag refreshed = .ok kind) :
    RequestOk k blocks (.installing kind) := by
  unfold newFilterKind at h
  obtain ⟨safe, -, h⟩ := bind_eq_ok.mp h
  obtain ⟨cursor, -, h⟩ := bind_eq_ok.mp h
  obtain ⟨toBlock, -, h⟩ := bind_eq_ok.mp h
  cases h
  rfl

theorem requestOk_newBlockFilter {refreshed : Except String SafeHead} {kind : FilterKind}
    (h : newBlockFilterKind refreshed = .ok kind) : RequestOk k blocks (.installing kind) := by
  unfold newBlockFilterKind at h
  obtain ⟨safe, -, h⟩ := bind_eq_ok.mp h
  cases h
  exact trivial

theorem requestOk_pollFound {id head now : ℕ} (hsound : ClockedStore.Sound k past s.filters) :
    RequestOk k blocks (pollFound id head (s.filters.store.touch now id).1) := by
  unfold pollFound
  split
  · exact fun _ => .inr ⟨_, rfl⟩
  · next f hfound =>
    intro hid
    exfalso
    unfold FilterStore.touch at hfound
    cases hswept : (s.filters.store.sweep now).map.lookup id with
    | none =>
      simp only [hswept] at hfound
      cases hfound
    | some g =>
      have hlookup := (FilterStore.lookup_sweep_eq_some.mp hswept).1
      exact absurd (hsound.used _ (hsound.entries id g hlookup).1) (Nat.not_le.mpr hid)
  · split <;> exact trivial

theorem requestOk_recallFound {head : ℕ} (hhead : head < u64Size) (found : Option FilterKind) :
    RequestOk k blocks (recallFound head found) := by
  unfold recallFound
  split
  · exact trivial
  · simp only
    split
    · exact trivial
    · next hle => exact ⟨Nat.not_lt.mp hle, (min_le_right _ _).trans_lt hhead⟩
  · exact trivial

theorem requestOk_recallSpan {f : LogFilter} {stop : ℕ} {outage : Option String} {fetch : Fetch}
    (hchain : List.IsChain Follows s.synced.chain) (hsub : s.synced.chain ⊆ blocks)
    (hhead : s.head.PublishedOn u64Size s.synced.chain) (hle : f.fromBlock ≤ stop)
    (hstop : stop < u64Size) :
    RequestOk k blocks (recallSpan f (s.refreshed outage) s.synced.chain fetch stop) := by
  unfold recallSpan
  split
  · next logs hlogs =>
    have hsafe : ∀ safe, s.refreshed outage = .ok safe → ∃ b, safe.Names b := by
      intro safe h
      obtain ⟨-, b, -, hb⟩ := hhead
      rw [refreshed_eq_ok h]
      exact ⟨b, hb⟩
    exact ⟨rfl, (logsForSpan_ok (pairwise_number hchain) hsafe (hle.trans_lt hstop) hstop
      hlogs).mono hsub⟩
  · exact trivial
  · exact trivial

theorem requestOk_next (hsound : ClockedStore.Sound k past s.filters)
    (hchain : List.IsChain Follows s.synced.chain) (hsub : s.synced.chain ⊆ blocks)
    (hhead : s.head.PublishedOn u64Size s.synced.chain) {request : FilterRequest}
    (h : RequestOk k blocks request) (hrequest : ∀ p, e.request = some p → s.requests p = request) :
    RequestOk k blocks (s.next e request) := by
  unfold next
  split
  · split
    · next hkind => exact requestOk_installing hkind
    · exact trivial
  · split
    · next hkind => exact requestOk_newBlockFilter hkind
    · exact trivial
  · split
    · exact trivial
    · exact h
  · split
    · exact trivial
    · exact h
  · split
    · next head hrefreshed =>
      rw [refreshed_eq_ok hrefreshed]
      exact fun _ => .inl ⟨_, rfl, hhead.1⟩
    · exact fun _ => .inr ⟨_, rfl⟩
  · split
    · next head hrefreshed =>
      rw [refreshed_eq_ok hrefreshed]
      exact hhead.1
    · exact trivial
  · next p wait id head =>
    have hcall : s.callAnswer (.find p wait) =
        .touched (s.filters.store.touch (s.filters.now + wait) id).1 := by
      simp only [callAnswer, call, hrequest p rfl]
      rfl
    rw [hcall]
    exact requestOk_pollFound hsound
  · split
    · exact requestOk_recallFound h _
    · exact h
  · intro hid
    rcases h hid with ⟨head, hreading, -⟩ | ⟨err, hreading⟩ <;> cases hreading
  · exact requestOk_recallSpan hchain hsub hhead h.1 h.2
  · exact trivial
  · intro hid
    rcases h hid with ⟨head, hwriting, -⟩ | ⟨err, hwriting⟩ <;> cases hwriting
  · exact trivial
  · exact h

/-- A request has nothing of a filter that is not there yet. -/
theorem pollOk_of_requestOk {request : FilterRequest} {id : ℕ} (h : RequestOk k blocks request)
    (hid : k < id) (t : FilterState) (f : LogFilter) (blocks' : List VerifiedBlock) :
    t.PollOk u64Size f blocks' (request.pollOf id) := by
  cases request with
  | polling id' poll =>
    change t.PollOk u64Size f blocks' (if id' = id then poll else .idle)
    by_cases heq : id' = id
    · subst heq
      rw [if_pos rfl]
      rcases h hid with ⟨head, rfl, hhead⟩ | ⟨err, rfl⟩
      · exact hhead
      · exact trivial
    · rw [if_neg heq]
      exact trivial
  | _ => exact trivial

theorem call_eq_insert {wait : ℕ} {order : Listing ℕ StoredFilter} {kind : FilterKind}
    (h : s.call e = some (wait, .insert order kind)) :
    ∃ p, e = .install p wait order ∧ s.requests p = .installing kind := by
  cases e with
  | install p wait' order' =>
    simp only [call] at h
    split at h
    · next hreq =>
      cases h
      exact ⟨p, rfl, hreq⟩
    · cases h
  | uninstall p wait' id | find p wait' | writeCursor p wait' =>
    simp only [call] at h
    split at h <;> cases h
  | _ => cases h

/-- A log filter under a new id was just inserted. -/
theorem exists_install {id : ℕ} {f : LogFilter} (hsound : ClockedStore.Sound k past s.filters)
    (hid : k < id) (hf : (s.move P e).logFilter id = some f) : ∃ p wait order,
      e = .install p wait order ∧ s.requests p = .installing (.logs f) := by
  have hnew : ∀ g, s.filters.store.map.lookup id ≠ some g := by
    intro g hg
    exact absurd (hsound.used _ (hsound.entries id g hg).1) (Nat.not_le.mpr hid)
  obtain ⟨g, hg, hkind⟩ := Option.map_eq_some_iff.mp (logFilter_eq_some.mp hf)
  cases hc : s.call e with
  | none =>
    rw [filters_move_of_none hc] at hg
    exact absurd hg (hnew g)
  | some input =>
    rw [filters_move_of_call hc] at hg
    obtain ⟨wait, c⟩ := input
    rcases ClockedStore.lookup_call hsound.full hg with ⟨order, kind, hinsert, -, rfl⟩ | ⟨g₀, hg₀, -⟩
    · subst hinsert
      obtain ⟨p, he, hreq⟩ := call_eq_insert hc
      cases hkind
      exact ⟨p, wait, order, he, hreq⟩
    · exact absurd hg₀ (hnew g₀)

theorem InOrder.head_move (h : s.InOrder P start k) (hhead : s.HeadPublished P e) :
    (s.move P e).head.PublishedOn u64Size (s.move P e).synced.chain := by
  cases e with
  | advance call head => exact hhead.2
  | _ => exact h.head

theorem InOrder.requests_move (h : s.InOrder P start k) (hstart : start.Linked)
    (hsound : ClockedStore.Sound k past s.filters) (hhead : s.HeadPublished P e) :
    ∃ appended, Extends P start appended (s.move P e).synced ∧
      ∀ p, RequestOk (k + ClockedStore.inserts (s.calls e)) (start.chain ++ appended)
        ((s.move P e).requests p) := by
  obtain ⟨appended, hext, hok⟩ := h.requests
  have hnext : ∀ p, RequestOk k (start.chain ++ appended) ((s.move P e).requests p) := by
    intro p
    by_cases he : e.request = some p
    · rw [requests_move_self he]
      refine requestOk_next hsound (hext.isChain hstart.chain) hext.kept.subset h.head (hok p) ?_
      intro p' hp'
      cases he.symm.trans hp'
      rfl
    · rw [requests_move_of_ne he]
      exact hok p
  cases e with
  | advance call head =>
    obtain ⟨more, hmore⟩ := hext.appendSynced hhead.1
    refine ⟨appended ++ more, hmore, fun p => (hnext p).mono (Nat.le_add_right _ _) ?_⟩
    rw [← List.append_assoc]
    exact List.subset_append_left _ _
  | _ => exact ⟨appended, hext, fun p => (hnext p).mono (Nat.le_add_right _ _) (List.Subset.refl _)⟩

theorem InOrder.accounts_install (h : s.InOrder P start k) {id p wait : ℕ} {f : LogFilter}
    {order : Listing ℕ StoredFilter} (hid : k < id) (hreq : s.requests p = .installing (.logs f))
    (hf : (s.move P (.install p wait order)).logFilter id = some f) : ∃ appended,
      ((s.move P (.install p wait order)).alone id).Accounts P u64Size start
        { f with cursor := f.fromBlock } appended := by
  obtain ⟨appended, hext, hok⟩ := h.requests
  have hcursor : f.cursor = f.fromBlock := by
    have hinstalling := hok p
    rw [hreq] at hinstalling
    exact hinstalling
  refine ⟨appended, hext, h.head, ?_, ?_⟩
  · intro f' hf'
    cases hf.symm.trans hf'
    refine ⟨rfl, hcursor.ge, fun m hfrom hlt => ?_⟩
    simp only at hfrom
    omega
  · intro p'
    change FilterState.PollOk _ _ _ _ (((s.move P (.install p wait order)).requests p').pollOf id)
    by_cases hp : p' = p
    · subst hp
      rw [requests_move_self rfl, hreq]
      simp only [next]
      split <;> exact trivial
    · rw [requests_move_of_ne (by simp [FiltersEvent.request, Ne.symm hp])]
      exact pollOk_of_requestOk (hok p') hid _ _ _

theorem InOrder.accounts_move (h : s.InOrder P start k) (hstart : start.Linked)
    (hsound : ClockedStore.Sound k past s.filters)
    (hids : k + ClockedStore.inserts (s.calls e) < u64Size) (hhead : s.HeadPublished P e) {id : ℕ}
    {f f' : LogFilter} (hf : s.logFilter id = some f) (hf' : (s.move P e).logFilter id = some f') :
    ∃ appended, ((s.move P e).alone id).Accounts P u64Size start
      { f' with cursor := f'.fromBlock } appended := by
  obtain ⟨appended, hacc⟩ := h.stored id f hf
  have hmove := alone_move hsound hids hf hf'
  obtain ⟨appended', hacc'⟩ : ∃ appended, ((s.move P e).alone id).Accounts P u64Size start
      { f with cursor := f.fromBlock } appended := by
    rw [hmove]
    cases hal : s.aloneEvent id e with
    | none => exact ⟨appended, hacc⟩
    | some e' =>
      obtain ⟨more, hmore⟩ := hacc.move le_rfl hstart e' (by
        cases e' with
        | advance call head =>
          cases e with
          | advance call' head' =>
            cases hal
            exact hhead
          | _ => cases poll_aloneEvent hal
        | _ => exact trivial)
      exact ⟨appended ++ more, hmore⟩
  obtain ⟨hsame, -, -⟩ := hacc'.stored f' hf'
  have hbase : { f' with cursor := f'.fromBlock } = { f with cursor := f.fromBlock } := by
    rw [hsame]
  rw [hbase]
  exact ⟨appended', hacc'⟩

/-- Every step keeps the filters and the requests in order. -/
theorem InOrder.move (h : s.InOrder P start k) (hstart : start.Linked)
    (hsound : ClockedStore.Sound k past s.filters)
    (hids : k + ClockedStore.inserts (s.calls e) < u64Size) (hhead : s.HeadPublished P e) :
    (s.move P e).InOrder P start (k + ClockedStore.inserts (s.calls e)) := by
  refine ⟨h.head_move hhead, fun id f' hf' => ?_, h.requests_move hstart hsound hhead⟩
  by_cases hid : id ≤ k
  · obtain ⟨f, hf⟩ := exists_logFilter hsound hids hid hf'
    exact h.accounts_move hstart hsound hids hhead hf hf'
  · obtain ⟨p, wait, order, rfl, hreq⟩ := exists_install hsound (Nat.lt_of_not_le hid) hf'
    exact h.accounts_install (Nat.lt_of_not_le hid) hreq hf'

theorem Fresh.inOrder (h : s.Fresh) : s.InOrder P s.synced 0 where
  head := h.head
  stored := by
    intro id f hf
    obtain ⟨now, hnew⟩ := h.filters
    rw [logFilter_eq_some, hnew] at hf
    cases hf
  requests := by
    refine ⟨[], .refl h.linked, fun p => ?_⟩
    rw [h.requests p]
    exact trivial

theorem Fresh.run {start : Filters} (h : start.Fresh) (events : List FiltersEvent)
    (hids : ClockedStore.inserts (start.storeCalls P events) < u64Size)
    (hheads : Machine.Along (step P) (HeadPublished P) start events) :
    (Machine.run (step P) start events).InOrder P start.synced
      (ClockedStore.inserts (start.storeCalls P events)) := by
  induction events using List.reverseRecOn with
  | nil => exact h.inOrder
  | append_singleton l e ih =>
    obtain ⟨hl, he⟩ := Machine.along_concat.mp hheads
    rw [storeCalls_concat, ClockedStore.inserts_append] at hids ⊢
    have hprefix := Nat.lt_of_le_of_lt (Nat.le_add_right _ _) hids
    obtain ⟨now, hnow⟩ := h.filters
    obtain ⟨past, hsound⟩ := sound_filters hnow hprefix
    rw [Machine.run_concat]
    exact (ih hprefix hl).move h.linked hsound hids he

end

/-- Over every run of requests on any number of filters and of advances of the chain, from a node
without filters and with fewer inserts than there are ids: every block that the cursor of a stored log
filter has passed was read completely by a poll of this filter that has returned the logs of its span;
and every recall that has returned logs has read all blocks from the filter's first one on. -/
theorem no_filter_loses_a_block (P : Primitives) {start : Filters} (hstart : start.Fresh)
    (events : List FiltersEvent)
    (hids : ClockedStore.inserts (start.storeCalls P events) < u64Size)
    (hheads : Machine.Along (step P) (HeadPublished P) start events) :
    let s := Machine.run (step P) start events
    (∀ id f, s.logFilter id = some f → ∃ appended, Extends P start.synced appended s.synced ∧
      ∀ n, f.fromBlock ≤ n → n < f.cursor → ∃ p r, s.requests p = .polling id (.delivered r) ∧
        r.lo ≤ n ∧ n ≤ r.hi ∧ r.Complete f.query (start.synced.chain ++ appended)) ∧
    ∃ appended, Extends P start.synced appended s.synced ∧ ∀ p f r, s.requests p = .recalled f r →
      r.lo = f.fromBlock ∧ r.Complete f.query (start.synced.chain ++ appended) := by
  intro s
  have h := hstart.run events hids hheads
  constructor
  · intro id f hf
    obtain ⟨appended, hacc⟩ := h.stored id f hf
    refine ⟨appended, hacc.extended, fun n hfrom hlt => ?_⟩
    obtain ⟨p, r, hp, hlo, hhi⟩ := (hacc.stored f hf).2.2 n hfrom hlt
    have hpoll := hacc.polls p
    rw [hp] at hpoll
    refine ⟨p, r, ?_, hlo, hhi, hpoll⟩
    change (s.requests p).pollOf id = .delivered r at hp
    unfold FilterRequest.pollOf at hp
    split at hp
    · next id' poll hreq =>
      split at hp
      · next heq => rw [hreq, heq, hp]
      · cases hp
    · cases hp
  · obtain ⟨appended, hext, hok⟩ := h.requests
    refine ⟨appended, hext, fun p f r hp => ?_⟩
    have hrecalled := hok p
    rw [hp] at hrecalled
    exact hrecalled

/-! ## A poll that nothing disturbs -/

/-- The steps of a poll whose first read succeeds. -/
def pollSteps (p id : ℕ) (fetch : Fetch) : List FiltersEvent :=
  [.poll p id none, .find p 0, .readSpan p none fetch, .writeCursor p 0]

section

variable {P : Primitives} {s : Filters} {id p : ℕ}

theorem touch_of_lookup {st : FilterStore} {now : ℕ} {g : StoredFilter}
    (h : st.map.lookup id = some g) (hnow : now - g.touched < filterTtl) :
    (st.touch now id).1 = some g.kind := by
  unfold FilterStore.touch
  simp only [FilterStore.lookup_sweep_eq_some.mpr ⟨h, hnow⟩]

theorem readCursor_to_head {f : LogFilter} {head : ℕ} (hto : f.toBlock = none)
    (hle : f.cursor ≤ head) (hwidth : head < f.cursor + maxGetLogsRange) (hsize : head < u64Size) :
    readCursor (some f) head = .reading f.query f.cursor head := by
  have hstop : min head (satAdd f.cursor (maxGetLogsRange - 1)) = head := by
    unfold maxGetLogsRange at hwidth
    unfold satAdd maxGetLogsRange
    omega
  unfold readCursor
  simp only [hto, Option.getD_none, min_self]
  rw [if_neg (Nat.not_lt.mpr hle), hstop]

theorem poll_refreshed (hreq : s.requests p = .fresh) :
    (s.move P (.poll p id none)).requests p = .polling id (.refreshed s.head.number) := by
  rw [requests_move_self rfl, hreq]
  rfl

theorem find_reading {f : LogFilter} {head : ℕ} (wait : ℕ)
    (hreq : s.requests p = .polling id (.refreshed head))
    (hfound : (s.filters.store.touch (s.filters.now + wait) id).1 = some (.logs f))
    (hto : f.toBlock = none) (hle : f.cursor ≤ head) (hwidth : head < f.cursor + maxGetLogsRange)
    (hsize : head < u64Size) :
    s.call (.find p wait) = some (wait, .touch id) ∧
      (s.move P (.find p wait)).requests p = .polling id (.reading f.query f.cursor head) := by
  have hcall : s.call (.find p wait) = some (wait, .touch id) := by simp only [call, hreq]
  have hanswer : s.callAnswer (.find p wait) = .touched (some (.logs f)) := by
    unfold callAnswer
    rw [hcall]
    exact congrArg FilterAnswer.touched hfound
  refine ⟨hcall, ?_⟩
  rw [requests_move_self rfl, hreq]
  simp only [next, hanswer, pollFound]
  exact congrArg _ (readCursor_to_head hto hle hwidth hsize)

theorem read_writing {query : LogQuery} {lo hi : ℕ} {fetch : Fetch} {logs : List RpcLog}
    (hreq : s.requests p = .polling id (.reading query lo hi))
    (hlogs : logsForSpan query (.ok s.head) s.synced.chain fetch lo hi = .ok logs) :
    (s.move P (.readSpan p none fetch)).requests p = .polling id (.writing ⟨lo, hi, fetch, logs⟩) := by
  have hspan : readSpan query (.ok s.head) s.synced.chain fetch lo hi =
      .writing ⟨lo, hi, fetch, logs⟩ := by
    unfold readSpan
    rw [hlogs]
  rw [requests_move_self rfl, hreq, ← hspan]
  rfl

theorem write_delivered {f : LogFilter} {r : SpanRead} {wait : ℕ}
    (hreq : s.requests p = .polling id (.writing r)) (hf : s.logFilter id = some f) :
    (s.move P (.writeCursor p wait)).requests p = .polling id (.delivered r) ∧
      (s.move P (.writeCursor p wait)).logFilter id = some { f with cursor := satAdd r.hi 1 } := by
  have hcall : s.call (.writeCursor p wait) = some (wait, .writeLogs id (satAdd r.hi 1)) := by
    simp only [call, hreq]
  obtain ⟨g, hg, hkind⟩ := Option.map_eq_some_iff.mp (logFilter_eq_some.mp hf)
  constructor
  · rw [requests_move_self rfl, hreq]
    rfl
  · rw [logFilter_eq_some, filters_move_of_call hcall]
    change ((s.filters.store.update id _).map.lookup id).map StoredFilter.kind = _
    rw [ClockedStore.lookup_update, hg]
    simp only [Option.map_some, if_true, hkind, FilterKind.setLogCursor]

theorem run_pollSteps {f : LogFilter} (hreq : s.requests p = .fresh) (hf : s.logFilter id = some f)
    (hnow : s.filters.now < filterTtl) (hto : f.toBlock = none)
    (hle : f.cursor ≤ s.head.number) (hwidth : s.head.number < f.cursor + maxGetLogsRange)
    (hsize : s.head.number < u64Size) {fetch : Fetch} {logs : List RpcLog}
    (hlogs : logsForSpan f.query (.ok s.head) s.synced.chain fetch f.cursor s.head.number = .ok logs) :
    (Machine.run (step P) s (pollSteps p id fetch)).requests p =
        .polling id (.delivered ⟨f.cursor, s.head.number, fetch, logs⟩) ∧
      (Machine.run (step P) s (pollSteps p id fetch)).logFilter id =
        some { f with cursor := satAdd s.head.number 1 } := by
  obtain ⟨g, hg, hkind⟩ := Option.map_eq_some_iff.mp (logFilter_eq_some.mp hf)
  have hfound : (s.filters.store.touch s.filters.now id).1 = some (.logs f) := by
    rw [touch_of_lookup hg ((Nat.sub_le _ _).trans_lt hnow), hkind]
  obtain ⟨s₁, hs₁⟩ : ∃ s₁, s₁ = s.move P (.poll p id none) := ⟨_, rfl⟩
  have hrefreshed : s₁.requests p = .polling id (.refreshed s.head.number) := by
    rw [hs₁]
    exact poll_refreshed hreq
  have hsame₁ : s₁.filters = s.filters ∧ s₁.head = s.head ∧ s₁.synced = s.synced := by
    rw [hs₁]
    exact ⟨rfl, rfl, rfl⟩
  obtain ⟨hcall, hreading⟩ := find_reading (P := P) 0 hrefreshed
    (by rw [hsame₁.1]; exact hfound) hto hle hwidth hsize
  obtain ⟨s₂, hs₂⟩ : ∃ s₂, s₂ = s₁.move P (.find p 0) := ⟨_, rfl⟩
  have hsame₂ : s₂.head = s.head ∧ s₂.synced = s.synced := by
    rw [hs₂, ← hsame₁.2.1, ← hsame₁.2.2]
    exact ⟨rfl, rfl⟩
  have hkept : s₂.logFilter id = some f := by
    rw [logFilter_eq_some, hs₂, filters_move_of_call hcall, hsame₁.1, ← hfound]
    exact find_touch
  rw [← hs₂] at hreading
  have hwriting := read_writing (P := P) (s := s₂) hreading (by rw [hsame₂.1, hsame₂.2]; exact hlogs)
  have hrun : Machine.run (step P) s (pollSteps p id fetch) =
      (s₂.move P (.readSpan p none fetch)).move P (.writeCursor p 0) := by
    rw [hs₂, hs₁]
    rfl
  rw [hrun]
  exact write_delivered hwriting hkept

end

theorem inserts_storeCalls_le (P : Primitives) (start : Filters) (events : List FiltersEvent) :
    ClockedStore.inserts (start.storeCalls P events) ≤ events.length := by
  induction events using List.reverseRecOn with
  | nil => exact Nat.zero_le _
  | append_singleton l e ih =>
    rw [storeCalls_concat, ClockedStore.inserts_append, List.length_append]
    refine Nat.add_le_add ih (List.countP_le_length.trans ?_)
    unfold calls
    cases Filters.call _ e with
    | none => exact Nat.zero_le _
    | some input => exact le_rfl

theorem headsPublished_of_requests {P : Primitives} {start : Filters} {events : List FiltersEvent}
    (h : ∀ e ∈ events, e.request ≠ none) : Machine.Along (step P) (HeadPublished P) start events := by
  intro before e after heq
  have he : e.request ≠ none := h e (by rw [heq]; simp)
  cases e with
  | advance call head => exact absurd rfl he
  | _ => exact trivial

/-- A node whose chain is one block, without filters. -/
def nodeOn (st : Synced) (b : VerifiedBlock) : Filters where
  synced := st
  head := headOf b
  filters := .new 0
  requests := fun _ => .fresh

theorem nodeOn_fresh {st : Synced} {b : VerifiedBlock} (hlinked : st.Linked)
    (hchain : st.chain = [b]) (hsize : b.number < u64Size) : (nodeOn st b).Fresh where
  linked := hlinked
  head := (filterAt_fresh hlinked hchain hsize).head
  filters := ⟨0, rfl⟩
  requests := fun _ => rfl

/-- The steps that install a filter for all logs from the head on. -/
def installSteps : List FiltersEvent := [.newFilter 0 ⟨[], []⟩ none none none, .install 0 0 .id]

theorem logFilter_installSteps (P : Primitives) (st : Synced) (b : VerifiedBlock) :
    (Machine.run (step P) (nodeOn st b) installSteps).logFilter 1 =
      some ⟨⟨[], []⟩, b.number, none, b.number⟩ :=
  logFilter_eq_some.mpr (ClockedStore.find_first (.logs ⟨⟨[], []⟩, b.number, none, b.number⟩))

/-! ## Two polls with another filter between them -/

/-- The time that the step waits for the lock of the store. -/
def waitOf : FiltersEvent → ℕ
  | .install _ wait _ | .uninstall _ wait _ | .find _ wait | .writeCursor _ wait => wait
  | _ => 0

/-- The step does nothing to the filter under the id. -/
def Aside (id : ℕ) : FiltersEvent → Prop
  | .uninstall _ _ id' => id' ≠ id
  | .writeCursor _ _ => False
  | _ => True

section

variable {P : Primitives} {start s : Filters} {id p : ℕ} {e : FiltersEvent}

theorem calls_wait {input : ℕ × FilterCall} (h : input ∈ s.calls e) : input.1 = waitOf e := by
  unfold calls call at h
  cases e with
  | install p wait order | uninstall p wait id' | find p wait | writeCursor p wait =>
    simp only at h
    split at h <;> simp_all [waitOf]
  | _ => cases h

theorem Aside.calls {input : ℕ × FilterCall} (haside : Aside id e) (h : input ∈ s.calls e) :
    input.2 ≠ .uninstall id ∧ ∀ kind, input.2.write id kind = kind := by
  unfold Filters.calls call at h
  cases e with
  | install p wait order | uninstall p wait id' | find p wait =>
    simp only at h
    split at h <;> simp_all [Aside, FilterCall.write]
  | writeCursor p wait => cases haside
  | _ => cases h

theorem now_run {events : List FiltersEvent} (h : ∀ e ∈ events, waitOf e = 0) :
    (Machine.run (step P) start events).filters.now = start.filters.now := by
  induction events using List.reverseRecOn with
  | nil => rfl
  | append_singleton l e ih =>
    obtain ⟨hl, he⟩ := List.forall_mem_append.mp h
    rw [Machine.run_concat, ← ih hl]
    change ((Machine.run (step P) start l).move P e).filters.now = _
    cases hcall : (Machine.run (step P) start l).call e with
    | none => rw [filters_move_of_none hcall]
    | some input =>
      have hwait : input.1 = waitOf e := calls_wait (by rw [Filters.calls, hcall]; simp)
      rw [filters_move_of_call hcall]
      change _ + input.1 = _
      rw [hwait, he e (List.mem_singleton_self e), Nat.add_zero]

theorem requests_run_of_ne {events : List FiltersEvent} (h : ∀ e ∈ events, e.request ≠ some p) :
    (Machine.run (step P) start events).requests p = start.requests p :=
  Machine.run_invariant_of (I := fun s : Filters => s.requests p = start.requests p)
    (C := fun _ e => e.request ≠ some p) (fun _ _ hs he => (requests_move_of_ne he).trans hs) rfl events
    fun _ e _ heq => h e (by rw [heq]; simp)

/-- A short run of steps on other filters leaves the filter as it is. -/
theorem logFilter_run_aside (hstart : start.filters = ClockedStore.new 0)
    {before mid : List FiltersEvent} (hshort : (before ++ mid).length + 2 < maxFilters)
    (hwait : ∀ e ∈ before ++ mid, waitOf e = 0) (haside : ∀ e ∈ mid, Aside id e) {f : LogFilter}
    (hf : (Machine.run (step P) start before).logFilter id = some f) :
    (Machine.run (step P) start (before ++ mid)).logFilter id = some f := by
  induction mid using List.reverseRecOn with
  | nil => rwa [List.append_nil]
  | append_singleton l e ih =>
    rw [← List.append_assoc] at hshort hwait ⊢
    rw [List.length_append, List.length_singleton] at hshort
    obtain ⟨hwaits, hnone⟩ := List.forall_mem_append.mp hwait
    have hl := ih (by omega) hwaits fun e he => haside e (List.mem_append_left _ he)
    have hmany : maxFilters = 64 := rfl
    have hinserts := inserts_storeCalls_le P start (before ++ l)
    have hids : ClockedStore.inserts (start.storeCalls P (before ++ l)) < u64Size := by
      have hsize := u64Size_eq
      omega
    obtain ⟨past, hsound⟩ := sound_filters hstart hids
    have hnow : (Machine.run (step P) start (before ++ l)).filters.now = start.filters.now :=
      now_run hwaits
    rw [Machine.run_concat]
    generalize Machine.run (step P) start (before ++ l) = s at hl hsound hnow
    change (s.move P e).logFilter id = some f
    rw [logFilter_eq_some] at hl ⊢
    cases hcall : s.call e with
    | none => rwa [filters_move_of_none hcall]
    | some input =>
      have hmem : input ∈ s.calls e := by rw [Filters.calls, hcall]; simp
      obtain ⟨hstay, hsame⟩ := (haside e (by simp)).calls hmem
      rw [filters_move_of_call hcall, ClockedStore.find_step_of_few hsound (by omega) hl ?_ hstay,
        hsame]
      rw [hnow, hstart, calls_wait hmem, hnone e (List.mem_singleton_self e)]
      exact filterTtl_pos

end

/-- A block filter is installed, the chain grows and the block filter is uninstalled. -/
def between (call : AppendCall) (tip : VerifiedBlock) : List FiltersEvent :=
  [.newBlockFilter 2 none, .install 2 0 .id, .advance call (headOf tip), .uninstall 3 0 2]

/-- Two polls of the first filter with these steps between them. -/
def twoPolls (fetch : Fetch) (call : AppendCall) (tip : VerifiedBlock) : List FiltersEvent :=
  pollSteps 1 1 fetch ++ between call tip ++ pollSteps 4 1 fetch

theorem headsPublished_twoPolls {P : Primitives} {st : Synced} {b tip : VerifiedBlock}
    {call : AppendCall} (fetch : Fetch) (hunwrapped : call.Unwrapped) (hsize : tip.number < u64Size)
    (htip : tip ∈ (appendStep P st call).2.chain) :
    Machine.Along (step P) (HeadPublished P) (nodeOn st b)
      (installSteps ++ twoPolls fetch call tip) := by
  have hsplit : installSteps ++ twoPolls fetch call tip =
      (installSteps ++ pollSteps 1 1 fetch ++ [.newBlockFilter 2 none, .install 2 0 .id]) ++
        .advance call (headOf tip) :: (.uninstall 3 0 2 :: pollSteps 4 1 fetch) := rfl
  rw [hsplit]
  refine Machine.along_append.mpr ⟨headsPublished_of_requests ?_, Machine.along_cons.mpr
    ⟨⟨hunwrapped, hsize, tip, htip, rfl, rfl, rfl⟩, headsPublished_of_requests ?_⟩⟩
  · simp [installSteps, pollSteps, FiltersEvent.request]
  · simp [pollSteps, FiltersEvent.request]

/-- Before the second poll the request is fresh, and the filter stands where the first poll left it. -/
theorem run_between {P : Primitives} {st : Synced} {b : VerifiedBlock} (call : AppendCall)
    (tip : VerifiedBlock) {fetch : Fetch} {f : LogFilter}
    (hf : (Machine.run (step P) (nodeOn st b) (installSteps ++ pollSteps 1 1 fetch)).logFilter 1 =
      some f) :
    let s := Machine.run (step P) (nodeOn st b)
      (installSteps ++ pollSteps 1 1 fetch ++ between call tip)
    s.logFilter 1 = some f ∧ s.requests 4 = .fresh ∧ s.filters.now < filterTtl ∧
      s.head = headOf tip ∧ s.synced = (appendStep P st call).2 := by
  have hmany : maxFilters = 64 := rfl
  have hwaits : ∀ e ∈ installSteps ++ pollSteps 1 1 fetch ++ between call tip, waitOf e = 0 := by
    simp [installSteps, pollSteps, between, waitOf]
  have haside : ∀ e ∈ between call tip, Aside 1 e := by simp [between, Aside]
  refine ⟨logFilter_run_aside rfl (by simp [installSteps, pollSteps, between, hmany]) hwaits haside hf,
    ?_, ?_, rfl, rfl⟩
  · rw [requests_run_of_ne (by simp [installSteps, pollSteps, between, FiltersEvent.request])]
    rfl
  · rw [now_run hwaits]
    exact filterTtl_pos

/-- A filter on the mock's chain is installed and polled twice, and another filter comes and goes. The
two polls return the logs of four blocks. -/
theorem exists_two_polls : ∃ (start : Filters) (events : List FiltersEvent) (f f' : LogFilter)
    (r r' : SpanRead), start.Fresh ∧ start.filters = ClockedStore.new 0 ∧ events.length = 12 ∧
    Machine.Along (step mockPrimitives) (HeadPublished mockPrimitives) start
      (installSteps ++ events) ∧
    (Machine.run (step mockPrimitives) start installSteps).logFilter 1 = some f ∧
    (Machine.run (step mockPrimitives) start (installSteps ++ events)).logFilter 1 = some f' ∧
    f'.fromBlock = f.fromBlock ∧ f'.cursor = f.fromBlock + 4 ∧
    (Machine.run (step mockPrimitives) start (installSteps ++ events)).requests 1 =
      .polling 1 (.delivered r) ∧
    (Machine.run (step mockPrimitives) start (installSteps ++ events)).requests 4 =
      .polling 1 (.delivered r') ∧ r'.lo = r.hi + 1 := by
  obtain ⟨st, genesis, tip, blocks, call, s, hlinked, hchain, -, hlinked', hlast, hnumber, hsize,
    hunwrapped, happend⟩ := exists_grown (k := 3) (by norm_num) (by norm_num)
  obtain ⟨header, -, -, -⟩ := exists_start_engine (.repeated 48 1)
  have htip : tip ∈ genesis :: blocks := List.mem_of_getLast? hlast
  have hrange : maxGetLogsRange = 128 := rfl
  have hcursor : satAdd genesis.number 1 = genesis.number + 1 := satAdd_of_lt (by omega)
  have hend : satAdd tip.number 1 = genesis.number + 4 := by rw [satAdd_of_lt (by omega), hnumber]
  -- the first poll
  obtain ⟨logs, hlogs⟩ := exists_logsForSpan hlinked (a := genesis) (b := genesis) (by simp [hchain])
    (by simp [hchain]) (by omega) le_rfl le_rfl (by omega) header
  obtain ⟨hdone, hfilter⟩ := run_pollSteps (P := mockPrimitives) (p := 1)
    (s := Machine.run (step mockPrimitives) (nodeOn st genesis) installSteps)
    (requests_run_of_ne (by simp [installSteps, FiltersEvent.request]))
    (logFilter_installSteps mockPrimitives st genesis) filterTtl_pos rfl le_rfl
    (show genesis.number < genesis.number + maxGetLogsRange by omega)
    (show genesis.number < u64Size by omega) hlogs
  rw [← Machine.run_append] at hdone hfilter
  -- the second poll
  obtain ⟨hkept, hfresh, hnow, hhead, hsynced⟩ := run_between call tip hfilter
  obtain ⟨s₂, hs₂⟩ : ∃ s₂ : Filters, s₂ = Machine.run (step mockPrimitives) (nodeOn st genesis)
      (installSteps ++ pollSteps 1 1 (oneLogEach header) ++ between call tip) := ⟨_, rfl⟩
  rw [← hs₂] at hkept hfresh hnow hhead hsynced
  obtain ⟨logs', hlogs'⟩ := exists_logsForSpan hlinked' (a := genesis) (by simp) htip (by omega)
    (Nat.le_succ genesis.number) (by omega) (by omega) header
  have hread : logsForSpan ⟨[], []⟩ (.ok s₂.head) s₂.synced.chain (oneLogEach header)
      (satAdd genesis.number 1) s₂.head.number = .ok logs' := by
    rw [hhead, hsynced, happend, hcursor]
    exact hlogs'
  have htop : s₂.head.number = tip.number := congrArg SafeHead.number hhead
  obtain ⟨hdone', hfilter'⟩ := run_pollSteps (P := mockPrimitives) (s := s₂) (p := 4) hfresh hkept
    hnow rfl (show satAdd genesis.number 1 ≤ s₂.head.number by omega)
    (show s₂.head.number < satAdd genesis.number 1 + maxGetLogsRange by omega) (by omega) hread
  have hall : Machine.run (step mockPrimitives) s₂ (pollSteps 4 1 (oneLogEach header)) =
      Machine.run (step mockPrimitives) (nodeOn st genesis)
        (installSteps ++ twoPolls (oneLogEach header) call tip) := by
    rw [hs₂, ← Machine.run_append, twoPolls]
    simp only [List.append_assoc]
  have hlater : Machine.run (step mockPrimitives) s₂ (pollSteps 4 1 (oneLogEach header)) =
      Machine.run (step mockPrimitives) (Machine.run (step mockPrimitives) (nodeOn st genesis)
          (installSteps ++ pollSteps 1 1 (oneLogEach header)))
        (between call tip ++ pollSteps 4 1 (oneLogEach header)) := by
    rw [hs₂, ← Machine.run_append, ← Machine.run_append]
    simp only [List.append_assoc]
  have hothers : ∀ e ∈ between call tip ++ pollSteps 4 1 (oneLogEach header),
      e.request ≠ some 1 := by simp [pollSteps, between, FiltersEvent.request]
  have hfirst := (requests_run_of_ne (P := mockPrimitives) hothers).trans hdone
  rw [← hlater] at hfirst
  rw [hall] at hfirst hdone' hfilter'
  refine ⟨nodeOn st genesis, twoPolls (oneLogEach header) call tip, _, _, _, _,
    nodeOn_fresh hlinked hchain (by omega), rfl, rfl,
    headsPublished_twoPolls _ hunwrapped (by omega) ?_,
    logFilter_installSteps mockPrimitives st genesis, hfilter', rfl, ?_, hfirst, hdone', hcursor⟩
  · rw [happend]
    exact htip
  · rw [htop]
    exact hend

/-- The filter is alone through both polls. -/
theorem stored_filter_is_alone_poll : ∃ (start : Filters) (events : List FiltersEvent)
    (f f' : LogFilter) (r r' : SpanRead),
    (Machine.run (step mockPrimitives) start installSteps).logFilter 1 = some f ∧
    (Machine.run (step mockPrimitives) start (installSteps ++ events)).logFilter 1 = some f' ∧
    (Machine.run (step mockPrimitives) start (installSteps ++ events)).requests 1 =
      .polling 1 (.delivered r) ∧
    (Machine.run (step mockPrimitives) start (installSteps ++ events)).requests 4 =
      .polling 1 (.delivered r') ∧ r'.lo = r.hi + 1 ∧
    (Machine.run (step mockPrimitives) start (installSteps ++ events)).alone 1 =
      Machine.run (FilterState.step mockPrimitives)
        ((Machine.run (step mockPrimitives) start installSteps).alone 1)
        (Machine.history (fun s e => (s.aloneEvent 1 e).toList) (step mockPrimitives)
          (Machine.run (step mockPrimitives) start installSteps) events) := by
  obtain ⟨start, events, f, f', r, r', -, hstart, hlength, -, hf, hf', -, -, hpoll, hpoll', hnext⟩ :=
    exists_two_polls
  have hids := inserts_storeCalls_le mockPrimitives start (installSteps ++ events)
  rw [List.length_append, hlength] at hids
  exact ⟨start, events, f, f', r, r', hf, hf', hpoll, hpoll', hnext,
    stored_filter_is_alone mockPrimitives hstart installSteps events
      (hids.trans_lt (by rw [u64Size_eq]; norm_num [installSteps])) hf hf'⟩

/-- The two polls have passed four blocks and delivered them. -/
theorem no_filter_loses_a_block_poll : ∃ (start : Filters) (events : List FiltersEvent)
    (f : LogFilter) (appended : List VerifiedBlock),
    (Machine.run (step mockPrimitives) start events).logFilter 1 = some f ∧
    f.cursor = f.fromBlock + 4 ∧ ∀ n, f.fromBlock ≤ n → n < f.fromBlock + 4 → ∃ p r,
      (Machine.run (step mockPrimitives) start events).requests p = .polling 1 (.delivered r) ∧
      r.lo ≤ n ∧ n ≤ r.hi ∧ r.Complete f.query (start.synced.chain ++ appended) := by
  obtain ⟨start, events, f, f', r, r', hfresh, -, hlength, hheads, -, hf', hfrom, hcursor, -⟩ :=
    exists_two_polls
  have hids := inserts_storeCalls_le mockPrimitives start (installSteps ++ events)
  rw [List.length_append, hlength] at hids
  obtain ⟨appended, -, hall⟩ := (no_filter_loses_a_block mockPrimitives hfresh
    (installSteps ++ events) (hids.trans_lt (by rw [u64Size_eq]; norm_num [installSteps]))
    hheads).1 1 f' hf'
  rw [← hfrom] at hcursor
  exact ⟨start, _, f', appended, hf', hcursor, fun n hlo hhi => hall n hlo (hhi.trans_eq hcursor.symm)⟩

end Filters

end HeliosBsc
