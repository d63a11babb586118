import HeliosBsc.Lib.Machine
import HeliosBsc.Mock.SoleChain
import HeliosBsc.Node.Logs

/-!
# Log filters

`Node::get_filter_changes` on one log filter, polled by any number of callers. The filter lock is
taken to read the cursor and again to write it, and not held over the reads between, so a poll is
four kinds of steps: it refreshes, reads the cursor, reads spans until one is not capped, and writes
the cursor. Between any two steps other polls may take theirs, the chain may advance and the filter
may be removed or expire. Ids are never reused, so a filter that is gone does not come back.
-/

namespace HeliosBsc

open Checked

/-- `FilterKind::Logs`, its object parsed. -/
structure LogFilter where
  query : LogQuery
  fromBlock : ℕ
  toBlock : Option ℕ
  cursor : ℕ

/-- Where a poll stands. -/
inductive Poll where
  | idle
  | refreshed (head : ℕ)
  | reading (query : LogQuery) (cursor stop : ℕ)
  | writing (r : SpanRead)
  | caughtUp
  | delivered (r : SpanRead)
  | failed (e : RpcFailure)

/-- What a poll returns, once it does. -/
def Poll.answer : Poll → Option (Except RpcFailure (List RpcLog))
  | .caughtUp => some (.ok [])
  | .delivered r => some (.ok r.logs)
  | .failed e => some (.error e)
  | _ => none

/-- The verified chain, the head that reads resolve to, the filter, and its polls by number. -/
structure FilterState where
  synced : Synced
  head : SafeHead
  stored : Option LogFilter
  polls : ℕ → Poll

/-- A step of a poll, an advance of the chain or the end of the filter. A refresh gives the
published head unless there is an outage. -/
inductive FilterEvent where
  | advance (call : AppendCall) (head : SafeHead)
  | forget
  | refresh (p : ℕ) (outage : Option String)
  | readCursor (p : ℕ)
  | readSpan (p : ℕ) (outage : Option String) (fetch : Fetch)
  | writeCursor (p : ℕ)

/-- The poll that takes the step. -/
def FilterEvent.poll : FilterEvent → Option ℕ
  | .refresh p _ | .readCursor p | .readSpan p _ _ | .writeCursor p => some p
  | _ => none

/-- `FILTER_NOT_FOUND`. -/
def filterNotFound : String := "filter not found"

/-- The first critical section of `get_filter_changes`, with the head of the poll's refresh. -/
def readCursor (stored : Option LogFilter) (head : ℕ) : Poll :=
  match stored with
  | none => .failed ⟨errParams, filterNotFound⟩
  | some f =>
    let stop := min (f.toBlock.getD head) head
    if stop < f.cursor then .caughtUp
    else .reading f.query f.cursor (min stop (satAdd f.cursor (maxGetLogsRange - 1)))

/-- One round of the narrowing loop. -/
def readSpan (q : LogQuery) (refreshed : Except String SafeHead) (chain : List VerifiedBlock)
    (fetch : Fetch) (cursor stop : ℕ) : Poll :=
  match logsForSpan q refreshed chain fetch cursor stop with
  | .ok logs => .writing ⟨cursor, stop, fetch, logs⟩
  | .error (.rpc e) => .failed e
  | .error .capped =>
    if cursor < stop then .reading q cursor (satAdd cursor ((stop - cursor) / 2))
    else .failed ⟨errParams, s!"block {cursor} alone matches more than {maxGetLogs} logs; a poll " ++
      "cannot narrow past a single block, so install a filter with a tighter address/topic filter"⟩

/-- The answer of `Node::refresh`. -/
def FilterState.refreshed (s : FilterState) (outage : Option String) : Except String SafeHead :=
  match outage with
  | some e => .error e
  | none => .ok s.head

/-- The next position of the poll that takes the step. -/
def Poll.next (s : FilterState) : FilterEvent → Poll → Poll
  | .refresh _ outage, .idle =>
    match s.refreshed outage with
    | .ok head => .refreshed head.number
    | .error e => .failed ⟨errNotSynced, s!"not_synced: {e}"⟩
  | .readCursor _, .refreshed head => HeliosBsc.readCursor s.stored head
  | .readSpan _ outage fetch, .reading q cursor stop =>
    HeliosBsc.readSpan q (s.refreshed outage) s.synced.chain fetch cursor stop
  | .writeCursor _, .writing r => .delivered r
  | _, poll => poll

namespace FilterState

/-- The filter after the step: the second critical section writes the cursor. -/
def storedAfter (s : FilterState) : FilterEvent → Option LogFilter
  | .forget => none
  | .writeCursor p =>
    match s.polls p with
    | .writing r => s.stored.map fun f => { f with cursor := satAdd r.hi 1 }
    | _ => s.stored
  | _ => s.stored

section

variable (P : Primitives)

/-- The state after the step. -/
def move (s : FilterState) (e : FilterEvent) : FilterState where
  synced :=
    match e with
    | .advance call _ => (appendStep P s.synced call).2
    | _ => s.synced
  head :=
    match e with
    | .advance _ head => head
    | _ => s.head
  stored := s.storedAfter e
  polls :=
    match e.poll with
    | some p => Function.update s.polls p ((s.polls p).next s e)
    | none => s.polls

/-- A step, with what the poll returns if it is done. -/
def step (s : FilterState) (e : FilterEvent) : Option (Except RpcFailure (List RpcLog)) × FilterState :=
  (e.poll.bind fun p => ((s.move P e).polls p).answer, s.move P e)

end

/-! ## What one step does -/

variable {P : Primitives} {s : FilterState} {e : FilterEvent} {p : ℕ}

theorem step_snd : (s.step P e).2 = s.move P e := rfl

theorem polls_move_self (h : e.poll = some p) :
    (s.move P e).polls p = (s.polls p).next s e := by
  simp only [move, h, Function.update_self]

theorem polls_move_of_ne (h : e.poll ≠ some p) : (s.move P e).polls p = s.polls p := by
  unfold move
  cases he : e.poll with
  | none => rfl
  | some p' =>
    have hne : p ≠ p' := by
      rintro rfl
      exact h he
    exact Function.update_of_ne hne _ _

/-- A poll that has returned takes no more steps. -/
theorem polls_move_of_answer (h : (s.polls p).answer ≠ none) :
    (s.move P e).polls p = s.polls p := by
  by_cases he : e.poll = some p
  · rw [polls_move_self he]
    cases hp : s.polls p with
    | caughtUp => cases e <;> rfl
    | delivered r => cases e <;> rfl
    | failed err => cases e <;> rfl
    | idle => exact absurd (by rw [hp]; rfl) h
    | refreshed head => exact absurd (by rw [hp]; rfl) h
    | reading q cursor stop => exact absurd (by rw [hp]; rfl) h
    | writing r => exact absurd (by rw [hp]; rfl) h
  · exact polls_move_of_ne he

theorem delivered_move {r : SpanRead} (h : s.polls p = .delivered r) :
    (s.move P e).polls p = .delivered r := by
  rw [polls_move_of_answer (by rw [h]; exact Option.some_ne_none _), h]

theorem delivered_run {r : SpanRead} (h : s.polls p = .delivered r) (events : List FilterEvent) :
    (Machine.run (step P) s events).polls p = .delivered r :=
  Machine.run_invariant (I := fun s : FilterState => s.polls p = .delivered r)
    (fun _ _ h => delivered_move h) h events

theorem stored_move (hp : e.poll = some p) (h : ∀ r, s.polls p ≠ .writing r) :
    (s.move P e).stored = s.stored := by
  cases e with
  | advance call head => cases hp
  | forget => cases hp
  | refresh p' outage => rfl
  | readCursor p' => rfl
  | readSpan p' outage fetch => rfl
  | writeCursor p' =>
    cases hp
    change s.storedAfter (.writeCursor p) = s.stored
    unfold storedAfter
    cases hpoll : s.polls p with
    | writing r => exact absurd hpoll (h r)
    | _ => simp only [hpoll]

/-! ## What the polls have passed -/

/-- Every block of the filter below `n` is in the span of a poll that has returned its logs. -/
def Passed (s : FilterState) (f : LogFilter) (n : ℕ) : Prop :=
  ∀ m, f.fromBlock ≤ m → m < n → ∃ p r, s.polls p = .delivered r ∧ r.lo ≤ m ∧ m ≤ r.hi

theorem Passed.move {f : LogFilter} {n : ℕ} (h : s.Passed f n) : (s.move P e).Passed f n := by
  intro m hfrom hlt
  obtain ⟨p, r, hp, hspan⟩ := h m hfrom hlt
  exact ⟨p, r, delivered_move hp, hspan⟩

end FilterState

/-- A head that reads may resolve to: it names a block of the chain, and its number is below the
bound. -/
def SafeHead.PublishedOn (head : SafeHead) (bound : ℕ) (chain : List VerifiedBlock) : Prop :=
  head.number < bound ∧ ∃ b ∈ chain, head.Names b

/-- An advance whose answers do not overflow, with a head of the chain that it leaves. -/
def AppendCall.Publishes (P : Primitives) (call : AppendCall) (head : SafeHead) (bound : ℕ)
    (st : Synced) : Prop :=
  call.Unwrapped ∧ head.PublishedOn bound (appendStep P st call).2.chain

namespace FilterState

/-- A poll of the filter `f` reads a span of it behind which nothing is missing. -/
def PollOk (s : FilterState) (bound : ℕ) (f : LogFilter) (blocks : List VerifiedBlock) :
    Poll → Prop
  | .refreshed head => head < bound
  | .reading q cursor stop => q = f.query ∧ f.fromBlock ≤ cursor ∧ cursor ≤ stop ∧ stop < bound ∧
      stop ≤ cursor + 127 ∧ s.Passed f cursor
  | .writing r => r.Complete f.query blocks ∧ f.fromBlock ≤ r.lo ∧ r.lo ≤ r.hi ∧ r.hi < bound ∧
      s.Passed f r.lo
  | .delivered r => r.Complete f.query blocks
  | _ => True

/-- The node has appended `appended`, and the filter and all its polls are in order. -/
structure Accounts (P : Primitives) (bound : ℕ) (start : Synced) (f : LogFilter)
    (appended : List VerifiedBlock) (s : FilterState) : Prop where
  extended : Extends P start appended s.synced
  head : s.head.PublishedOn bound s.synced.chain
  stored : ∀ f', s.stored = some f' →
    f' = { f with cursor := f'.cursor } ∧ f.fromBlock ≤ f'.cursor ∧ s.Passed f f'.cursor
  polls : ∀ p, s.PollOk bound f (start.chain ++ appended) (s.polls p)

end FilterState

theorem SpanRead.Complete.mono {q : LogQuery} {blocks blocks' : List VerifiedBlock} {r : SpanRead}
    (h : r.Complete q blocks) (hsub : blocks ⊆ blocks') : r.Complete q blocks' := by
  obtain ⟨read, hread, hrest⟩ := h
  exact ⟨read, fun b hb => hsub (hread hb), hrest⟩

section

variable {s : FilterState} {bound : ℕ} {f : LogFilter} {blocks : List VerifiedBlock}

theorem pollOk_readCursor {head : ℕ} (hbound : bound ≤ u64Size) (hhead : head < bound)
    (hstored : ∀ f', s.stored = some f' →
      f' = { f with cursor := f'.cursor } ∧ f.fromBlock ≤ f'.cursor ∧ s.Passed f f'.cursor) :
    s.PollOk bound f blocks (readCursor s.stored head) := by
  unfold readCursor
  cases hs : s.stored with
  | none => exact trivial
  | some f' =>
    obtain ⟨hf, hfrom, hpassed⟩ := hstored f' hs
    have hquery : f'.query = f.query := by rw [hf]
    simp only
    split
    · exact trivial
    · refine ⟨hquery, hfrom, ?_, ?_, ?_, hpassed⟩
      all_goals
        unfold satAdd maxGetLogsRange
        omega

theorem pollOk_readSpan {refreshed : Except String SafeHead} {chain : List VerifiedBlock}
    {fetch : Fetch} {q : LogQuery} {cursor stop : ℕ} (hbound : bound ≤ u64Size)
    (hchain : List.IsChain Follows chain) (hsub : chain ⊆ blocks)
    (hsafe : ∀ safe, refreshed = .ok safe → ∃ b, safe.Names b)
    (h : s.PollOk bound f blocks (.reading q cursor stop)) :
    s.PollOk bound f blocks (readSpan q refreshed chain fetch cursor stop) := by
  obtain ⟨rfl, hfrom, hle, hstop, hwidth, hpassed⟩ := h
  unfold readSpan
  cases hlogs : logsForSpan f.query refreshed chain fetch cursor stop with
  | ok logs =>
    have hcomplete := logsForSpan_ok (pairwise_number hchain) hsafe (by omega) (by omega) hlogs
    exact ⟨hcomplete.mono hsub, hfrom, hle, hstop, hpassed⟩
  | error err =>
    cases err with
    | rpc e => exact trivial
    | capped =>
      simp only
      split
      · refine ⟨rfl, hfrom, ?_, ?_, ?_, hpassed⟩
        all_goals
          unfold satAdd
          omega
      · exact trivial

theorem FilterState.PollOk.mono {poll : Poll} {s' : FilterState} {blocks' : List VerifiedBlock}
    (h : s.PollOk bound f blocks poll) (hsub : blocks ⊆ blocks')
    (hpassed : ∀ n, s.Passed f n → s'.Passed f n) : s'.PollOk bound f blocks' poll := by
  cases poll with
  | refreshed head => exact h
  | reading q cursor stop =>
    obtain ⟨hq, hfrom, hle, hstop, hwidth, hp⟩ := h
    exact ⟨hq, hfrom, hle, hstop, hwidth, hpassed _ hp⟩
  | writing r =>
    obtain ⟨hcomplete, hfrom, hle, hhi, hp⟩ := h
    exact ⟨hcomplete.mono hsub, hfrom, hle, hhi, hpassed _ hp⟩
  | delivered r => exact SpanRead.Complete.mono h hsub
  | idle => exact trivial
  | caughtUp => exact trivial
  | failed e => exact trivial

end

namespace FilterState

variable {P : Primitives} {bound : ℕ} {start : Synced} {f : LogFilter}
  {appended : List VerifiedBlock} {s : FilterState}

/-- The condition on a step that publishes a head. -/
def HeadPublished (P : Primitives) (bound : ℕ) (s : FilterState) : FilterEvent → Prop
  | .advance call head => call.Publishes P head bound s.synced
  | _ => True

theorem Accounts.next (h : s.Accounts P bound start f appended) (hbound : bound ≤ u64Size)
    (hstart : start.Linked) (e : FilterEvent) (p : ℕ) :
    s.PollOk bound f (start.chain ++ appended) ((s.polls p).next s e) := by
  have hp := h.polls p
  have hsafe : ∀ outage safe, s.refreshed outage = .ok safe → ∃ b, safe.Names b := by
    intro outage safe hr
    cases outage with
    | some err => cases hr
    | none =>
      cases hr
      obtain ⟨-, b, -, hb⟩ := h.head
      exact ⟨b, hb⟩
  unfold Poll.next
  split
  · next outage _ =>
    cases outage with
    | some err => exact trivial
    | none => exact h.head.1
  · next heq =>
    rw [heq] at hp
    exact pollOk_readCursor hbound hp h.stored
  · next heq =>
    rw [heq] at hp
    exact pollOk_readSpan hbound (h.extended.isChain hstart.chain) h.extended.kept.subset
      (hsafe _) hp
  · next heq =>
    rw [heq] at hp
    exact hp.1
  · exact hp

/-- The filter after a step still has every block below its cursor delivered. -/
theorem Accounts.storedAfter (h : s.Accounts P bound start f appended) (hbound : bound ≤ u64Size)
    (e : FilterEvent) : ∀ f', s.storedAfter e = some f' →
      f' = { f with cursor := f'.cursor } ∧ f.fromBlock ≤ f'.cursor ∧
        (s.move P e).Passed f f'.cursor := by
  have hsame : ∀ f', s.stored = some f' → f' = { f with cursor := f'.cursor } ∧
      f.fromBlock ≤ f'.cursor ∧ (s.move P e).Passed f f'.cursor := by
    intro f' hf'
    obtain ⟨heq, hfrom, hpassed⟩ := h.stored f' hf'
    exact ⟨heq, hfrom, hpassed.move⟩
  intro f' hf'
  unfold FilterState.storedAfter at hf'
  split at hf'
  · cases hf'
  · next p =>
    split at hf'
    · next r hr =>
      obtain ⟨old, hold, rfl⟩ := Option.map_eq_some_iff.mp hf'
      obtain ⟨heq, -, -⟩ := h.stored old hold
      have hp := h.polls p
      rw [hr] at hp
      obtain ⟨-, hfrom, hle, hhi, hpassed⟩ := hp
      have hnext : satAdd r.hi 1 = min (r.hi + 1) (u64Size - 1) := rfl
      refine ⟨by rw [heq], by simp only; omega, ?_⟩
      -- below the span by the invariant, inside it by this very poll
      intro m hm hlt
      by_cases hlo : m < r.lo
      · exact hpassed.move m hm hlo
      · refine ⟨p, r, ?_, by omega, by simp only at hlt; omega⟩
        rw [polls_move_self rfl, hr]
        rfl
    · exact hsame f' hf'
  · exact hsame f' hf'

/-- Every step keeps the filter and its polls in order. -/
theorem Accounts.move (h : s.Accounts P bound start f appended) (hbound : bound ≤ u64Size)
    (hstart : start.Linked) (e : FilterEvent) (hhead : s.HeadPublished P bound e) :
    ∃ more, (s.move P e).Accounts P bound start f (appended ++ more) := by
  have hstay : ∀ {blocks}, start.chain ++ appended ⊆ blocks → ∀ p,
      (s.move P e).PollOk bound f blocks ((s.move P e).polls p) := by
    intro blocks hsub p
    by_cases he : e.poll = some p
    · rw [polls_move_self he]
      exact (h.next hbound hstart e p).mono hsub fun n => Passed.move
    · rw [polls_move_of_ne he]
      exact (h.polls p).mono hsub fun n => Passed.move
  have hstored := h.storedAfter hbound e
  cases e with
  | advance call head =>
    obtain ⟨hunwrapped, hpublished⟩ := hhead
    obtain ⟨more, hmore⟩ := h.extended.appendSynced hunwrapped
    refine ⟨more, hmore, hpublished, hstored, hstay ?_⟩
    rw [← List.append_assoc]
    exact List.subset_append_left _ _
  | _ =>
    refine ⟨[], ?_, h.head, hstored, hstay (by rw [List.append_nil]; exact fun b hb => hb)⟩
    rw [List.append_nil]
    exact h.extended

/-- A filter that was just installed on a linked chain, with no poll begun. -/
structure Fresh (bound : ℕ) (s : FilterState) (f : LogFilter) : Prop where
  linked : s.synced.Linked
  head : s.head.PublishedOn bound s.synced.chain
  stored : s.stored = some f
  cursor : f.cursor = f.fromBlock
  idle : ∀ p, s.polls p = .idle

theorem Fresh.accounts {P : Primitives} (h : s.Fresh bound f) :
    s.Accounts P bound s.synced f [] where
  extended := .refl h.linked
  head := h.head
  stored := by
    intro f' hf'
    cases h.stored.symm.trans hf'
    refine ⟨rfl, h.cursor.ge, ?_⟩
    intro m hfrom hlt
    rw [h.cursor] at hlt
    omega
  polls := by
    intro p
    rw [h.idle p]
    exact trivial

/-- Every head published on the way names a block of the chain and is below the bound. -/
def HeadsPublished (P : Primitives) (bound : ℕ) (start : FilterState) (events : List FilterEvent) :
    Prop :=
  Machine.Along (step P) (HeadPublished P bound) start events

theorem Fresh.run {start : FilterState} (h : start.Fresh bound f) (hbound : bound ≤ u64Size)
    (events : List FilterEvent) (hheads : start.HeadsPublished P bound events) :
    ∃ appended, (Machine.run (step P) start events).Accounts P bound start.synced f appended := by
  refine Machine.run_invariant_of
    (I := fun s : FilterState => ∃ appended, s.Accounts P bound start.synced f appended) ?_
    ⟨[], h.accounts⟩ events hheads
  rintro s e ⟨appended, hs⟩ hhead
  obtain ⟨more, hmore⟩ := hs.move hbound h.linked e hhead
  exact ⟨appended ++ more, hmore⟩

end FilterState

/-! ## The narrowing loop ends -/

/-- The poll is past its loop. -/
def Poll.ReadDone : Poll → Prop
  | .writing _ | .caughtUp | .delivered _ | .failed _ => True
  | _ => False

/-- The step is a round of the poll's loop. -/
def FilterEvent.isReadSpan (p : ℕ) : FilterEvent → Bool
  | .readSpan p' _ _ => decide (p' = p)
  | _ => false

theorem readSpan_cases (q : LogQuery) (refreshed : Except String SafeHead)
    (chain : List VerifiedBlock) (fetch : Fetch) (cursor stop : ℕ) :
    (readSpan q refreshed chain fetch cursor stop).ReadDone ∨ cursor < stop ∧
      readSpan q refreshed chain fetch cursor stop =
        .reading q cursor (satAdd cursor ((stop - cursor) / 2)) := by
  unfold readSpan
  split
  · exact .inl trivial
  · exact .inl trivial
  · by_cases h : cursor < stop
    · exact .inr ⟨h, if_pos h⟩
    · rw [if_neg h]
      exact .inl trivial

namespace FilterState

variable {P : Primitives} {s : FilterState} {p : ℕ}

theorem readDone_move (h : (s.polls p).ReadDone) (e : FilterEvent) :
    ((s.move P e).polls p).ReadDone := by
  by_cases he : e.poll = some p
  · rw [polls_move_self he]
    cases hp : s.polls p with
    | idle => rw [hp] at h; exact h.elim
    | refreshed head => rw [hp] at h; exact h.elim
    | reading q cursor stop => rw [hp] at h; exact h.elim
    | writing r => cases e <;> exact trivial
    | caughtUp => cases e <;> exact trivial
    | delivered r => cases e <;> exact trivial
    | failed err => cases e <;> exact trivial
  · rwa [polls_move_of_ne he]

theorem reading_move {q : LogQuery} {cursor stop : ℕ} (h : s.polls p = .reading q cursor stop)
    {e : FilterEvent} (he : e.isReadSpan p = false) :
    (s.move P e).polls p = .reading q cursor stop := by
  by_cases hp : e.poll = some p
  · rw [polls_move_self hp, h]
    cases e with
    | readSpan p' outage fetch =>
      cases hp
      simp [FilterEvent.isReadSpan] at he
    | _ => rfl
  · rw [polls_move_of_ne hp, h]

/-- A span of at most `2 ^ k` blocks is read in `k + 1` rounds, whatever happens between them. -/
theorem readDone_of_rounds {q : LogQuery} {cursor stop k : ℕ}
    (h : s.polls p = .reading q cursor stop) (hwidth : stop - cursor < 2 ^ k)
    {events : List FilterEvent} (hrounds : k + 1 ≤ events.countP (FilterEvent.isReadSpan p)) :
    ((Machine.run (step P) s events).polls p).ReadDone := by
  induction events generalizing s k stop with
  | nil => exact absurd hrounds (by rw [List.countP_nil]; omega)
  | cons e rest ih =>
    rw [Machine.run_cons]
    cases he : e.isReadSpan p with
    | false =>
      rw [List.countP_cons_of_neg (by rw [he]; exact Bool.false_ne_true)] at hrounds
      exact ih (reading_move h he) hwidth hrounds
    | true =>
      rw [List.countP_cons_of_pos he] at hrounds
      cases e with
      | readSpan p' outage fetch =>
        obtain rfl : p' = p := of_decide_eq_true he
        have hnext : (s.move P (.readSpan p' outage fetch)).polls p' =
            readSpan q (s.refreshed outage) s.synced.chain fetch cursor stop := by
          rw [polls_move_self rfl, h]
          rfl
        rcases readSpan_cases q (s.refreshed outage) s.synced.chain fetch cursor stop with
          hdone | ⟨hlt, hhalf⟩
        · refine Machine.run_invariant (I := fun s : FilterState => (s.polls p').ReadDone)
            (fun s e hs => readDone_move hs e) ?_ rest
          change ((s.move P (.readSpan p' outage fetch)).polls p').ReadDone
          rw [hnext]
          exact hdone
        · cases k with
          | zero => omega
          | succ k =>
            rw [pow_succ] at hwidth
            refine ih (k := k) (hnext.trans hhalf) ?_ (by omega)
            unfold satAdd
            omega
      | _ => cases he

end FilterState

/-! ## Nothing is lost -/

namespace FilterState

variable {P : Primitives} {p : ℕ}

/-- A poll that fails has not written the cursor. -/
theorem stored_of_failed {start : FilterState} {events : List FilterEvent} {err : RpcFailure}
    (h : (Machine.run (step P) start events).polls p = .failed err) {before after : List FilterEvent}
    {e : FilterEvent} (hevents : events = before ++ e :: after) (he : e.poll = some p) :
    (Machine.run (step P) start (before ++ [e])).stored =
      (Machine.run (step P) start before).stored := by
  rw [Machine.run_concat]
  by_cases hwrite : ∃ p', e = .writeCursor p'
  · obtain ⟨p', rfl⟩ := hwrite
    cases he
    refine stored_move rfl fun r hr => ?_
    -- it would have delivered its logs
    have hdelivered : ((Machine.run (step P) start before).move P (.writeCursor p)).polls p =
        .delivered r := by
      rw [polls_move_self rfl, hr]
      rfl
    have hend := delivered_run hdelivered (P := P) after
    have hsplit : Machine.run (step P) start events =
        Machine.run (step P) ((Machine.run (step P) start before).move P (.writeCursor p)) after := by
      rw [hevents, Machine.run_append, Machine.run_cons]
      rfl
    rw [hsplit, hend] at h
    cases h
  · cases e with
    | writeCursor p' => exact absurd ⟨p', rfl⟩ hwrite
    | advance call head => cases he
    | forget => cases he
    | _ => rfl

end FilterState

/-- Over every run of a log filter's polls and of advances of the chain: every block that the cursor
has passed was read completely by a poll that has returned the logs of its span; a poll that failed
has never changed the filter; and a poll that reads leaves its loop after eight rounds at most. -/
theorem log_filter_loses_nothing (P : Primitives) {start : FilterState} {f : LogFilter}
    (hstart : start.Fresh u64Size f) (events : List FilterEvent)
    (hheads : start.HeadsPublished P u64Size events) :
    let run := Machine.run (FilterState.step P) start
    (∃ appended, Extends P start.synced appended (run events).synced ∧
      ∀ f', (run events).stored = some f' → ∀ n, f.fromBlock ≤ n → n < f'.cursor →
        ∃ p r, (run events).polls p = .delivered r ∧ r.lo ≤ n ∧ n ≤ r.hi ∧
          r.Complete f.query (start.synced.chain ++ appended)) ∧
    (∀ p err, (run events).polls p = .failed err → ∀ before e after, events = before ++ e :: after →
      e.poll = some p → (run (before ++ [e])).stored = (run before).stored) ∧
    (∀ p q cursor stop before after, events = before ++ after →
      (run before).polls p = .reading q cursor stop →
      8 ≤ after.countP (FilterEvent.isReadSpan p) → ((run events).polls p).ReadDone) := by
  intro run
  refine ⟨?_, fun p err herr before e after => FilterState.stored_of_failed herr, ?_⟩
  · obtain ⟨appended, h⟩ := hstart.run le_rfl events hheads
    refine ⟨appended, h.extended, fun f' hf' n hfrom hlt => ?_⟩
    obtain ⟨p, r, hp, hlo, hhi⟩ := (h.stored f' hf').2.2 n hfrom hlt
    have hpoll := h.polls p
    rw [hp] at hpoll
    exact ⟨p, r, hp, hlo, hhi, hpoll⟩
  · intro p q cursor stop before after hevents hreading hrounds
    rw [hevents] at hheads
    obtain ⟨appended, h⟩ := hstart.run le_rfl before (Machine.along_append.mp hheads).1
    have hpoll := h.polls p
    rw [hreading] at hpoll
    obtain ⟨-, -, -, -, hwidth, -⟩ := hpoll
    change ((Machine.run (FilterState.step P) start events).polls p).ReadDone
    rw [hevents, Machine.run_append]
    exact FilterState.readDone_of_rounds (k := 7) hreading (by norm_num; omega) hrounds

/-! ## A poll that nothing disturbs -/

namespace FilterState

variable {P : Primitives} {s : FilterState}

theorem headsPublished_of_polls {bound : ℕ} {events : List FilterEvent}
    (h : ∀ e ∈ events, e.poll ≠ none) : s.HeadsPublished P bound events := by
  intro before e after heq
  have he : e.poll ≠ none := h e (by rw [heq]; simp)
  cases e with
  | advance call head => exact absurd rfl he
  | _ => exact trivial

/-- The steps of a poll up to the write, when its first read succeeds. -/
def readSteps (p : ℕ) (fetch : Fetch) : List FilterEvent :=
  [.refresh p none, .readCursor p, .readSpan p none fetch]

theorem run_readSteps {f : LogFilter} (hstored : s.stored = some f) (hto : f.toBlock = none)
    {p : ℕ} (hidle : s.polls p = .idle) (hle : f.cursor ≤ s.head.number)
    (hwidth : s.head.number < f.cursor + maxGetLogsRange) (hsize : s.head.number < u64Size)
    {fetch : Fetch} {logs : List RpcLog}
    (hlogs : logsForSpan f.query (.ok s.head) s.synced.chain fetch f.cursor s.head.number = .ok logs) :
    Machine.run (step P) s (readSteps p fetch) = { s with
      polls := Function.update s.polls p (.writing ⟨f.cursor, s.head.number, fetch, logs⟩) } := by
  have hstop : min s.head.number (satAdd f.cursor (maxGetLogsRange - 1)) = s.head.number := by
    unfold maxGetLogsRange at hwidth
    unfold satAdd maxGetLogsRange
    omega
  have hread : HeliosBsc.readCursor (some f) s.head.number =
      .reading f.query f.cursor s.head.number := by
    unfold HeliosBsc.readCursor
    simp only [hto, Option.getD_none, min_self]
    rw [if_neg (Nat.not_lt.mpr hle), hstop]
  simp only [readSteps, Machine.run_cons, Machine.run_nil, step, move, FilterEvent.poll,
    Function.update_self, Function.update_idem, storedAfter, hidle, Poll.next, refreshed, hstored,
    hread]
  unfold HeliosBsc.readSpan
  rw [hlogs]

/-- The steps of a poll whose first read succeeds. -/
def pollSteps (p : ℕ) (fetch : Fetch) : List FilterEvent := readSteps p fetch ++ [.writeCursor p]

theorem run_pollSteps {f : LogFilter} (hstored : s.stored = some f) (hto : f.toBlock = none)
    {p : ℕ} (hidle : s.polls p = .idle) (hle : f.cursor ≤ s.head.number)
    (hwidth : s.head.number < f.cursor + maxGetLogsRange) (hsize : s.head.number < u64Size)
    {fetch : Fetch} {logs : List RpcLog}
    (hlogs : logsForSpan f.query (.ok s.head) s.synced.chain fetch f.cursor s.head.number = .ok logs) :
    Machine.run (step P) s (pollSteps p fetch) = { s with
      stored := some { f with cursor := satAdd s.head.number 1 }
      polls := Function.update s.polls p (.delivered ⟨f.cursor, s.head.number, fetch, logs⟩) } := by
  rw [pollSteps, Machine.run_concat, run_readSteps hstored hto hidle hle hwidth hsize hlogs, step_snd]
  simp only [move, storedAfter, Function.update_self, hstored, Option.map_some, FilterEvent.poll,
    Poll.next, Function.update_idem]

theorem poll_of_mem_pollSteps {p : ℕ} {fetch : Fetch} :
    ∀ e ∈ pollSteps p fetch, e.poll ≠ none := by
  simp [pollSteps, readSteps, FilterEvent.poll]

end FilterState

/-- The head that names a block. -/
def headOf (b : VerifiedBlock) : SafeHead where
  number := b.number
  hash := hexPrefixed b.hash.val
  stateRoot := hexPrefixed b.stateRoot.val
  distinctSealers := 0
  requiredSealers := 0

/-- An open filter for all logs from a block on, at a node whose chain starts there. -/
def filterAt (st : Synced) (b : VerifiedBlock) : FilterState where
  synced := st
  head := headOf b
  stored := some ⟨⟨[], []⟩, b.number, none, b.number⟩
  polls := fun _ => .idle

/-- Every block has one log. -/
def oneLogEach (header : RpcBlockHeader) : Fetch := fun b =>
  .ok (b.header.getD header, .list [⟨none, [⟨.repeated 20 0, [], []⟩]⟩])

theorem filterAt_fresh {st : Synced} {b : VerifiedBlock} {bound : ℕ} (hlinked : st.Linked)
    (hchain : st.chain = [b]) (hbound : b.number < bound) :
    (filterAt st b).Fresh bound ⟨⟨[], []⟩, b.number, none, b.number⟩ where
  linked := hlinked
  head := by
    refine ⟨hbound, b, ?_, rfl, rfl, rfl⟩
    change b ∈ st.chain
    rw [hchain]
    exact List.mem_singleton_self b
  stored := rfl
  cursor := rfl
  idle := fun _ => rfl

theorem logsForSpan_chain {st : Synced} (hlinked : st.Linked) {a b : VerifiedBlock}
    (hhead : st.chain.head? = some a) (hlast : st.chain.getLast? = some b)
    (hsize : b.number < u64Size) (hwidth : b.number < a.number + maxGetLogsRange) (q : LogQuery)
    (fetch : Fetch) :
    logsForSpan q (.ok (headOf b)) st.chain fetch a.number b.number =
      collectLogs q fetch st.chain := by
  have ha : a ∈ st.chain := List.mem_of_head? hhead
  have hb : b ∈ st.chain := List.mem_of_getLast? hlast
  have hfirst : firstNumber st.chain = a.number := by
    unfold firstNumber
    rw [hhead]
    rfl
  have htip : st.snapshot.number = b.number := by
    rw [← hlinked.lastNumber_eq]
    unfold lastNumber
    rw [hlast]
    rfl
  have hbounds : ∀ c ∈ st.chain, a.number ≤ c.number ∧ c.number ≤ b.number := by
    intro c hc
    rw [← hfirst, ← htip]
    exact ⟨firstNumber_le hlinked.chain hc, hlinked.number_le hc⟩
  have hsafe : (headOf b).Names b := ⟨rfl, rfl, rfl⟩
  rw [logsForSpan_of_covered hlinked.chain ha hb hsafe hsize fetch le_rfl (hbounds a ha).2 le_rfl
    hwidth, List.filter_eq_self.mpr fun c hc => decide_eq_true (hbounds c hc)]

/-- The read of one block. -/
def readOf (header : RpcBlockHeader) (b : VerifiedBlock) : SpanRead where
  lo := b.number
  hi := b.number
  fetch := oneLogEach header
  logs := matchingLogs ⟨[], []⟩ (oneLogEach header) b

theorem run_readSteps_filterAt {P : Primitives} {st : Synced} {b : VerifiedBlock}
    (hlinked : st.Linked) (hchain : st.chain = [b]) (hsize : b.number < u64Size)
    (header : RpcBlockHeader) (p : ℕ) :
    Machine.run (FilterState.step P) (filterAt st b)
        (FilterState.readSteps p (oneLogEach header)) = { filterAt st b with
      polls := Function.update (fun _ => .idle) p (.writing (readOf header b)) } := by
  have hwidth : b.number < b.number + maxGetLogsRange := by
    unfold maxGetLogsRange
    omega
  have hread := logsForSpan_chain hlinked (by rw [hchain]; rfl) (by rw [hchain]; rfl) hsize hwidth
    ⟨[], []⟩ (oneLogEach header)
  exact FilterState.run_readSteps (s := filterAt st b) (f := ⟨⟨[], []⟩, b.number, none, b.number⟩)
    rfl rfl rfl le_rfl hwidth hsize (hread.trans (by rw [hchain]; rfl))

theorem exists_collectLogs (header : RpcBlockHeader) {blocks : List VerifiedBlock}
    (h : blocks.length ≤ maxGetLogs) :
    ∃ logs, collectLogs ⟨[], []⟩ (oneLogEach header) blocks = .ok logs := by
  suffices hone : ∃ logs, collectLogs ⟨[], []⟩ (oneLogEach header) blocks = .ok logs ∧
      logs.length = blocks.length from ⟨hone.choose, hone.choose_spec.1⟩
  induction blocks using List.reverseRecOn with
  | nil => exact ⟨[], rfl, rfl⟩
  | append_singleton l b ih =>
    rw [List.length_append, List.length_singleton] at h ⊢
    obtain ⟨logs, hlogs, hlength⟩ := ih (by omega)
    rw [collectLogs] at hlogs ⊢
    have hroom : ¬ maxGetLogs ≤ logs.length := by omega
    refine ⟨logs ++ [rpcLogJson ⟨.repeated 20 0, [], []⟩ (b.header.getD header) none 0 0], ?_, by
      rw [List.length_append, List.length_singleton, hlength]⟩
    have hblock : collectBlock ⟨[], []⟩ (oneLogEach header) logs b =
        .ok (logs ++ [rpcLogJson ⟨.repeated 20 0, [], []⟩ (b.header.getD header) none 0 0]) := by
      simp only [collectBlock, oneLogEach, mapError_ok, ok_bind, collectReceipts, List.zipIdx_cons,
        List.zipIdx_nil, List.foldlM_cons, List.foldlM_nil, collectLog]
      rw [if_pos (show logMatches ⟨.repeated 20 0, [], []⟩ ⟨[], []⟩ = true from rfl), if_neg hroom]
      rfl
    rw [List.foldlM_append, hlogs, ok_bind, List.foldlM_cons, hblock, ok_bind, List.foldlM_nil]
    rfl

theorem exists_logsForSpan {st : Synced} (hlinked : st.Linked) {a b : VerifiedBlock}
    (ha : a ∈ st.chain) (hb : b ∈ st.chain) (hsize : b.number < u64Size) {lo : ℕ}
    (hlo : a.number ≤ lo) (hle : lo ≤ b.number) (hwidth : b.number < lo + maxGetLogsRange)
    (header : RpcBlockHeader) : ∃ logs, logsForSpan ⟨[], []⟩ (.ok (headOf b)) st.chain
      (oneLogEach header) lo b.number = .ok logs := by
  have hlength := congrArg List.length
    (HashChain.map_number_filter (follows_eq ▸ hlinked.chain) ha hb hlo le_rfl)
  rw [List.length_map, List.length_range'] at hlength
  rw [logsForSpan_of_covered hlinked.chain ha hb (show (headOf b).Names b from ⟨rfl, rfl, rfl⟩) hsize
    (oneLogEach header) hlo hle le_rfl hwidth]
  refine exists_collectLogs header ?_
  unfold maxGetLogsRange at hwidth
  unfold maxGetLogs
  omega

/-- A poll of a new filter, and the read of another one after the chain has grown. -/
def pollAndRead (header : RpcBlockHeader) (call : AppendCall) (tip : VerifiedBlock) :
    List FilterEvent :=
  FilterState.pollSteps 1 (oneLogEach header) ++ .advance call (headOf tip) ::
    FilterState.readSteps 2 (oneLogEach header)

/-- The first poll has delivered the first block, and the second has read the others. -/
theorem run_pollAndRead {P : Primitives} {st st' : Synced} {genesis tip : VerifiedBlock}
    {call : AppendCall} (hlinked : st.Linked) (hchain : st.chain = [genesis])
    (hlinked' : st'.Linked) (hgenesis : genesis ∈ st'.chain) (htip : tip ∈ st'.chain)
    (hgrown : genesis.number < tip.number) (hwidth : tip.number ≤ genesis.number + maxGetLogsRange)
    (hsize : tip.number < u64Size - 1) (happend : appendStep P st call = (.ok (), st'))
    (header : RpcBlockHeader) :
    ∃ logs, Machine.run (FilterState.step P) (filterAt st genesis) (pollAndRead header call tip) =
      { synced := st'
        head := headOf tip
        stored := some ⟨⟨[], []⟩, genesis.number, none, genesis.number + 1⟩
        polls := Function.update (Function.update (fun _ => .idle) 1
          (.delivered (readOf header genesis))) 2
          (.writing ⟨genesis.number + 1, tip.number, oneLogEach header, logs⟩) } := by
  have hwidth₁ : genesis.number < genesis.number + maxGetLogsRange := by
    unfold maxGetLogsRange
    omega
  have hlogs₁ := logsForSpan_chain hlinked (by rw [hchain]; rfl) (by rw [hchain]; rfl) (by omega)
    hwidth₁ ⟨[], []⟩ (oneLogEach header)
  have hread₁ := FilterState.run_pollSteps (P := P) (s := filterAt st genesis) (p := 1)
    (f := ⟨⟨[], []⟩, genesis.number, none, genesis.number⟩) rfl rfl rfl le_rfl hwidth₁
    (show genesis.number < u64Size by omega) (hlogs₁.trans (by rw [hchain]; rfl))
  have hcursor : satAdd genesis.number 1 = genesis.number + 1 := satAdd_of_lt (by omega)
  obtain ⟨s₂, hs₂⟩ : ∃ s₂ : FilterState, s₂ =
      { synced := st'
        head := headOf tip
        stored := some ⟨⟨[], []⟩, genesis.number, none, genesis.number + 1⟩
        polls := Function.update (fun _ => .idle) 1 (.delivered (readOf header genesis)) } :=
    ⟨_, rfl⟩
  have hadvanced : (Machine.run (FilterState.step P) (filterAt st genesis)
      (FilterState.pollSteps 1 (oneLogEach header))).move P (.advance call (headOf tip)) = s₂ := by
    rw [hread₁, hs₂, ← hcursor]
    simp only [FilterState.move, filterAt, happend, FilterEvent.poll, FilterState.storedAfter]
    rfl
  have hhead₂ : s₂.head.number = tip.number := by rw [hs₂]; rfl
  have hwidth₂ : tip.number < genesis.number + 1 + maxGetLogsRange := by omega
  obtain ⟨logs, hlogs⟩ := exists_logsForSpan hlinked' hgenesis htip (by omega) (Nat.le_succ _) hgrown
    hwidth₂ header
  have hlogs₂ : logsForSpan ⟨[], []⟩ (.ok s₂.head) s₂.synced.chain (oneLogEach header)
      (genesis.number + 1) s₂.head.number = .ok logs := by
    rw [hs₂]
    exact hlogs
  have hread₂ := FilterState.run_readSteps (P := P) (s := s₂) (p := 2)
    (f := ⟨⟨[], []⟩, genesis.number, none, genesis.number + 1⟩) (by rw [hs₂]) rfl (by rw [hs₂]; rfl)
    (by rw [hhead₂]; exact hgrown) (by rw [hhead₂]; exact hwidth₂) (by rw [hhead₂]; omega) hlogs₂
  refine ⟨logs, ?_⟩
  rw [pollAndRead, Machine.run_append, Machine.run_cons, FilterState.step_snd, hadvanced, hread₂,
    hs₂]
  rfl

theorem headsPublished_pollAndRead {P : Primitives} {st st' : Synced} {genesis tip : VerifiedBlock}
    {call : AppendCall} {bound : ℕ} {header : RpcBlockHeader} (hunwrapped : call.Unwrapped)
    (htip : tip ∈ st'.chain) (hsize : tip.number < bound)
    (happend : appendStep P st call = (.ok (), st')) :
    (filterAt st genesis).HeadsPublished P bound (pollAndRead header call tip ++ [.writeCursor 2]) := by
  unfold pollAndRead
  rw [List.append_assoc, List.cons_append]
  refine Machine.along_append.mpr ⟨FilterState.headsPublished_of_polls
    FilterState.poll_of_mem_pollSteps, Machine.along_cons.mpr ⟨?_,
      FilterState.headsPublished_of_polls FilterState.poll_of_mem_pollSteps⟩⟩
  refine ⟨hunwrapped, hsize, tip, ?_, rfl, rfl, rfl⟩
  change tip ∈ (appendStep P st call).2.chain
  rw [happend]
  exact htip

/-- Two polls of a new filter, between which the mock's chain grows by three blocks, deliver all four
blocks. -/
theorem log_filter_loses_nothing_sole : ∃ (start : FilterState) (f f' : LogFilter)
    (events : List FilterEvent), start.Fresh u64Size f ∧
    (Machine.run (FilterState.step mockPrimitives) start events).stored = some f' ∧
    f'.cursor = f.fromBlock + 4 ∧ ∃ appended, ∀ n, f.fromBlock ≤ n → n < f.fromBlock + 4 →
      ∃ p r, (Machine.run (FilterState.step mockPrimitives) start events).polls p = .delivered r ∧
        r.lo ≤ n ∧ n ≤ r.hi ∧ r.Complete f.query (start.synced.chain ++ appended) := by
  obtain ⟨st, genesis, tip, blocks, call, s, hlinked, hchain, -, hlinked', hlast, hnumber, hsize,
    hunwrapped, happend⟩ := exists_grown (k := 3) (by norm_num) (by norm_num)
  obtain ⟨header, -, -, -⟩ := exists_start_engine (.repeated 48 1)
  have htip : tip ∈ genesis :: blocks := List.mem_of_getLast? hlast
  obtain ⟨logs, hread⟩ := run_pollAndRead hlinked hchain hlinked' List.mem_cons_self htip (by omega)
    (by rw [hnumber]; unfold maxGetLogsRange; omega) hsize happend header
  have hfresh : (filterAt st genesis).Fresh u64Size
      ⟨⟨[], []⟩, genesis.number, none, genesis.number⟩ := filterAt_fresh hlinked hchain (by omega)
  have hcursor : satAdd tip.number 1 = genesis.number + 4 := by rw [satAdd_of_lt (by omega), hnumber]
  have hstored : (Machine.run (FilterState.step mockPrimitives) (filterAt st genesis)
      (pollAndRead header call tip ++ [.writeCursor 2])).stored =
        some ⟨⟨[], []⟩, genesis.number, none, genesis.number + 4⟩ := by
    rw [Machine.run_concat, hread, ← hcursor]
    rfl
  obtain ⟨⟨appended, -, hall⟩, -, -⟩ := log_filter_loses_nothing mockPrimitives hfresh
    (pollAndRead header call tip ++ [.writeCursor 2])
    (headsPublished_pollAndRead hunwrapped htip (by omega) happend)
  exact ⟨filterAt st genesis, _, _, _, hfresh, hstored, rfl, appended,
    fun n hfrom hlt => hall _ hstored n hfrom hlt⟩

end HeliosBsc
