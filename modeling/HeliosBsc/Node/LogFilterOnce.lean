import HeliosBsc.Node.LogFilter

/-!
# Blocks that a log filter delivers twice

The cursor is read and written in two critical sections. Two polls that read it at the same place
both return the blocks from there on, and the later of their writes can move the cursor back. This is
the only way: as long as every write finds the cursor its poll has read, the spans of the polls are
disjoint and the cursor only grows.
-/

namespace HeliosBsc

open Checked

namespace FilterState

/-- No block is in the spans of two polls that have returned logs. -/
def Once (s : FilterState) : Prop :=
  ∀ p p' r r', p ≠ p' → s.polls p = .delivered r → s.polls p' = .delivered r' →
    ∀ n, r.lo ≤ n → n ≤ r.hi → r'.lo ≤ n → ¬ n ≤ r'.hi

/-- The cursor has not moved back, nor has a removed filter come back. -/
def CursorLe (s s' : FilterState) : Prop :=
  ∀ f', s'.stored = some f' → ∃ f, s.stored = some f ∧ f.cursor ≤ f'.cursor

/-- A poll that comes to write the cursor finds the one that it read. -/
def Undisturbed (s : FilterState) : FilterEvent → Prop
  | .writeCursor p => ∀ r, s.polls p = .writing r → ∃ f, s.stored = some f ∧ f.cursor = r.lo
  | _ => True

end FilterState

/-- What a poll has read or returned begins, or ends, below the cursor. -/
def Poll.Behind (cursor : ℕ) : Poll → Prop
  | .reading _ c _ => c ≤ cursor
  | .writing r => r.lo ≤ cursor
  | .delivered r => r.hi < cursor
  | _ => True

theorem Poll.Behind.mono {cursor cursor' : ℕ} {poll : Poll} (h : poll.Behind cursor)
    (hle : cursor ≤ cursor') : poll.Behind cursor' := by
  cases poll with
  | reading q c stop => exact le_trans h hle
  | writing r => exact le_trans h hle
  | delivered r => exact lt_of_lt_of_le h hle
  | idle => exact trivial
  | refreshed head => exact trivial
  | caughtUp => exact trivial
  | failed e => exact trivial

theorem behind_readCursor (f : LogFilter) (head : ℕ) :
    (readCursor (some f) head).Behind f.cursor := by
  unfold readCursor
  simp only
  split
  · exact trivial
  · exact le_refl f.cursor

theorem behind_readSpan {q : LogQuery} {refreshed : Except String SafeHead}
    {chain : List VerifiedBlock} {fetch : Fetch} {cursor stop n : ℕ} (h : cursor ≤ n) :
    (readSpan q refreshed chain fetch cursor stop).Behind n := by
  unfold readSpan
  split
  · exact h
  · exact trivial
  · split
    · exact h
    · exact trivial

namespace FilterState

/-- All polls are behind the cursor, and no block was delivered twice. -/
structure InOrder (s : FilterState) : Prop where
  behind : ∀ f, s.stored = some f → ∀ p, (s.polls p).Behind f.cursor
  once : s.Once

theorem CursorLe.refl (s : FilterState) : s.CursorLe s := fun f hf => ⟨f, hf, le_rfl⟩

theorem CursorLe.trans {s s' s'' : FilterState} (h : s.CursorLe s') (h' : s'.CursorLe s'') :
    s.CursorLe s'' := by
  intro f'' hf''
  obtain ⟨f', hf', hle'⟩ := h' f'' hf''
  obtain ⟨f, hf, hle⟩ := h f' hf'
  exact ⟨f, hf, hle.trans hle'⟩

variable {P : Primitives} {s : FilterState} {start : Synced} {f : LogFilter}
  {appended : List VerifiedBlock}

theorem delivered_of_move {p : ℕ} {r : SpanRead} {e : FilterEvent}
    (h : (s.move P e).polls p = .delivered r) :
    s.polls p = .delivered r ∨ e = .writeCursor p ∧ s.polls p = .writing r := by
  by_cases he : e.poll = some p
  · rw [polls_move_self he] at h
    unfold Poll.next at h
    split at h
    · split at h <;> cases h
    · unfold HeliosBsc.readCursor at h
      split at h
      · cases h
      · simp only at h
        split at h <;> cases h
    · unfold HeliosBsc.readSpan at h
      split at h
      · cases h
      · cases h
      · split at h <;> cases h
    · next hr =>
      cases h
      cases he
      exact .inr ⟨rfl, hr⟩
    · exact .inl h
  · rw [polls_move_of_ne he] at h
    exact .inl h

theorem InOrder.move_of_not_write (h : s.InOrder) {e : FilterEvent}
    (he : ∀ p r, e = .writeCursor p → s.polls p ≠ .writing r) :
    (s.move P e).InOrder ∧ s.CursorLe (s.move P e) := by
  have hstored : ∀ f, (s.move P e).stored = some f → s.stored = some f := by
    intro f hf
    cases e with
    | forget => cases hf
    | advance call head => exact hf
    | writeCursor p => rwa [stored_move rfl fun r => he p r rfl] at hf
    | _ => exact hf
  refine ⟨⟨fun f hf p => ?_, ?_⟩, fun f hf => ⟨f, hstored f hf, le_rfl⟩⟩
  · have hp := h.behind f (hstored f hf) p
    by_cases hpoll : e.poll = some p
    · rw [polls_move_self hpoll]
      unfold Poll.next
      split
      · split <;> exact trivial
      · rw [hstored f hf]
        exact behind_readCursor f _
      · next heq =>
        rw [heq] at hp
        exact behind_readSpan hp
      · next heq =>
        cases hpoll
        exact absurd heq (he _ _ rfl)
      · exact hp
    · rwa [polls_move_of_ne hpoll]
  · have hback : ∀ {p r}, (s.move P e).polls p = .delivered r → s.polls p = .delivered r := by
      intro p r hr
      rcases delivered_of_move hr with hold | ⟨rfl, hwriting⟩
      · exact hold
      · exact absurd hwriting (he p r rfl)
    intro p p' r r' hne hr hr'
    exact h.once p p' r r' hne (hback hr) (hback hr')

theorem poll_writeCursor_ne {p p' : ℕ} (h : p' ≠ p) :
    (FilterEvent.writeCursor p).poll ≠ some p' := by
  intro heq
  exact h (Option.some.inj heq).symm

/-- A write that finds the cursor its poll read keeps the polls in order. -/
theorem InOrder.move_write (h : s.InOrder)
    (hacc : s.Accounts P (u64Size - 1) start f appended) {p : ℕ} {r : SpanRead}
    (hr : s.polls p = .writing r) (hund : s.Undisturbed (.writeCursor p)) :
    (s.move P (.writeCursor p)).InOrder ∧ s.CursorLe (s.move P (.writeCursor p)) := by
  obtain ⟨f₀, hf₀, hcursor⟩ := hund r hr
  have hok := hacc.polls p
  rw [hr] at hok
  obtain ⟨-, -, hle, hhi, -⟩ := hok
  have hsat : satAdd r.hi 1 = r.hi + 1 := satAdd_of_lt (by omega)
  have hnew : (s.move P (.writeCursor p)).stored = some { f₀ with cursor := r.hi + 1 } := by
    change s.storedAfter (.writeCursor p) = _
    unfold storedAfter
    simp only [hr, hf₀, Option.map_some, hsat]
  have hdelivered : (s.move P (.writeCursor p)).polls p = .delivered r := by
    rw [polls_move_self rfl, hr]
    rfl
  refine ⟨⟨fun f' hf' p' => ?_, ?_⟩, fun f' hf' => ⟨f₀, hf₀, ?_⟩⟩
  · rw [hnew] at hf'
    cases hf'
    by_cases hp : p' = p
    · rw [hp, hdelivered]
      exact Nat.lt_succ_self r.hi
    · rw [polls_move_of_ne (poll_writeCursor_ne hp)]
      exact (h.behind f₀ hf₀ p').mono (by simp only; omega)
  · -- what was delivered before ends below the cursor, where the new span begins
    have hbelow : ∀ {p' r'}, p' ≠ p → (s.move P (.writeCursor p)).polls p' = .delivered r' →
        s.polls p' = .delivered r' ∧ r'.hi < r.lo := by
      intro p' r' hne hr'
      rw [polls_move_of_ne (poll_writeCursor_ne hne)] at hr'
      have hbehind := h.behind f₀ hf₀ p'
      rw [hr', hcursor] at hbehind
      exact ⟨hr', hbehind⟩
    intro p₁ p₂ r₁ r₂ hne hr₁ hr₂ n hlo₁ hhi₁ hlo₂ hhi₂
    by_cases hp₁ : p₁ = p
    · subst hp₁
      obtain rfl : r = r₁ := Poll.delivered.inj (hdelivered.symm.trans hr₁)
      have := (hbelow hne.symm hr₂).2
      omega
    · by_cases hp₂ : p₂ = p
      · subst hp₂
        obtain rfl : r = r₂ := Poll.delivered.inj (hdelivered.symm.trans hr₂)
        have := (hbelow hp₁ hr₁).2
        omega
      · exact h.once p₁ p₂ r₁ r₂ hne (hbelow hp₁ hr₁).1 (hbelow hp₂ hr₂).1 n hlo₁ hhi₁ hlo₂ hhi₂
  · rw [hnew] at hf'
    cases hf'
    simp only
    omega

theorem InOrder.move (h : s.InOrder) (hacc : s.Accounts P (u64Size - 1) start f appended)
    {e : FilterEvent} (hund : s.Undisturbed e) :
    (s.move P e).InOrder ∧ s.CursorLe (s.move P e) := by
  by_cases hwrite : ∃ p r, e = .writeCursor p ∧ s.polls p = .writing r
  · obtain ⟨p, r, rfl, hr⟩ := hwrite
    exact h.move_write hacc hr hund
  · exact h.move_of_not_write fun p r he hr => hwrite ⟨p, r, he, hr⟩

/-- A write that does not find the cursor its poll read delivers a block again. -/
theorem InOrder.not_once (h : s.InOrder) (hacc : s.Accounts P (u64Size - 1) start f appended)
    {f' : LogFilter} (hf' : s.stored = some f') {e : FilterEvent} (hund : ¬ s.Undisturbed e) :
    ¬ (s.move P e).Once := by
  obtain ⟨p, r, rfl, hr, hne⟩ : ∃ p r, e = .writeCursor p ∧ s.polls p = .writing r ∧
      f'.cursor ≠ r.lo := by
    cases e with
    | writeCursor p =>
      simp only [Undisturbed, not_forall] at hund
      obtain ⟨r, hr, hmoved⟩ := hund
      exact ⟨p, r, rfl, hr, fun heq => hmoved ⟨f', hf', heq⟩⟩
    | _ => exact absurd trivial hund
  have hbehind := h.behind f' hf' p
  have hok := hacc.polls p
  rw [hr] at hbehind hok
  obtain ⟨-, hfrom, hle, -, -⟩ := hok
  have hlt : r.lo < f'.cursor := lt_of_le_of_ne hbehind (Ne.symm hne)
  -- the first block of the span is below the cursor, so it was delivered already
  obtain ⟨p', r', hp', hlo, hhi⟩ := (hacc.stored f' hf').2.2 r.lo hfrom hlt
  have hother : p' ≠ p := by
    rintro rfl
    rw [hr] at hp'
    cases hp'
  intro honce
  refine honce p' p r' r hother (delivered_move hp') ?_ r.lo hlo hhi le_rfl hle
  rw [polls_move_self rfl, hr]
  rfl

theorem Fresh.inOrder {bound : ℕ} (h : s.Fresh bound f) : s.InOrder where
  behind := by
    intro f' hf' p
    rw [h.idle p]
    exact trivial
  once := by
    intro p p' r r' hne hr
    rw [h.idle p] at hr
    cases hr

theorem exists_stored {start : FilterState} (h : ∃ f, start.stored = some f)
    {events : List FilterEvent} (hinstalled : .forget ∉ events) :
    ∃ f, (Machine.run (step P) start events).stored = some f := by
  refine Machine.run_invariant_of (I := fun s : FilterState => ∃ f, s.stored = some f)
    (C := fun _ e => e ≠ .forget) ?_ h events ?_
  · rintro s e ⟨f, hf⟩ he
    cases e with
    | forget => exact absurd rfl he
    | writeCursor p =>
      change ∃ f, s.storedAfter (.writeCursor p) = some f
      unfold storedAfter
      simp only [hf]
      split <;> exact ⟨_, rfl⟩
    | _ => exact ⟨f, hf⟩
  · rintro before e after hevents rfl
    exact hinstalled (by rw [hevents]; simp)

end FilterState

section

open FilterState

variable {P : Primitives} {start : FilterState} {f : LogFilter}

theorem inOrder_run (hstart : start.Fresh (u64Size - 1) f) {events : List FilterEvent}
    (hheads : start.HeadsPublished P (u64Size - 1) events)
    (hund : Machine.Along (step P) Undisturbed start events) :
    (Machine.run (step P) start events).InOrder := by
  induction events using List.reverseRecOn with
  | nil => exact hstart.inOrder
  | append_singleton l e ih =>
    have hprefix := (Machine.along_concat.mp hheads).1
    obtain ⟨hl, he⟩ := Machine.along_concat.mp hund
    obtain ⟨appended, hacc⟩ := hstart.run (Nat.sub_le _ _) l hprefix
    rw [Machine.run_concat]
    exact ((ih hprefix hl).move hacc he).1

theorem cursorLe_run (hstart : start.Fresh (u64Size - 1) f) {before mid : List FilterEvent}
    (hheads : start.HeadsPublished P (u64Size - 1) (before ++ mid))
    (hund : Machine.Along (step P) Undisturbed start (before ++ mid)) :
    (Machine.run (step P) start before).CursorLe (Machine.run (step P) start (before ++ mid)) := by
  induction mid using List.reverseRecOn with
  | nil =>
    rw [List.append_nil]
    exact .refl _
  | append_singleton l e ih =>
    rw [← List.append_assoc] at hheads hund ⊢
    have hprefix := (Machine.along_concat.mp hheads).1
    obtain ⟨hl, he⟩ := Machine.along_concat.mp hund
    obtain ⟨appended, hacc⟩ := hstart.run (Nat.sub_le _ _) (before ++ l) hprefix
    refine (ih hprefix hl).trans ?_
    rw [Machine.run_concat]
    exact ((inOrder_run hstart hprefix hl).move hacc he).2

theorem undisturbed_of_no_write {s : FilterState} {events : List FilterEvent}
    (h : ∀ e ∈ events, ∀ p, e ≠ .writeCursor p) : Machine.Along (step P) Undisturbed s events := by
  intro before e after heq
  cases e with
  | writeCursor p => exact absurd rfl (h _ (by rw [heq]; simp) p)
  | _ => exact trivial

/-- A run in which no block is delivered twice is undisturbed. -/
theorem undisturbed_of_once (hstart : start.Fresh (u64Size - 1) f) {events : List FilterEvent}
    (hinstalled : .forget ∉ events) (hheads : start.HeadsPublished P (u64Size - 1) events)
    (honce : ∀ before after, events = before ++ after → (Machine.run (step P) start before).Once) :
    Machine.Along (step P) Undisturbed start events := by
  induction events using List.reverseRecOn with
  | nil => exact Machine.along_nil
  | append_singleton l e ih =>
    have hprefix := (Machine.along_concat.mp hheads).1
    have hl := ih (fun hmem => hinstalled (List.mem_append_left _ hmem)) hprefix
      fun before after heq => honce before (after ++ [e]) (by rw [heq, List.append_assoc])
    obtain ⟨appended, hacc⟩ := hstart.run (Nat.sub_le _ _) l hprefix
    obtain ⟨f', hf'⟩ := exists_stored (P := P) ⟨f, hstart.stored⟩
      fun hmem => hinstalled (List.mem_append_left [e] hmem)
    refine Machine.along_concat.mpr ⟨hl, ?_⟩
    by_contra hnot
    refine (inOrder_run hstart hprefix hl).not_once (P := P) hacc hf' hnot ?_
    have hstep := honce (l ++ [e]) [] (by rw [List.append_nil])
    rwa [Machine.run_concat] at hstep

/-- In a run of polls and advances whose heads stay below the last number: the cursor never moves
back and no block is delivered by two polls, if and only if every poll that comes to write the cursor
finds the one that it read. -/
theorem log_filter_once_iff (P : Primitives) {start : FilterState} {f : LogFilter}
    (hstart : start.Fresh (u64Size - 1) f) (events : List FilterEvent)
    (hinstalled : .forget ∉ events) (hheads : start.HeadsPublished P (u64Size - 1) events) :
    let run := Machine.run (step P) start
    (∀ before mid after, events = before ++ mid ++ after →
      (run before).Once ∧ (run before).CursorLe (run (before ++ mid))) ↔
    (∀ before e after, events = before ++ e :: after → (run before).Undisturbed e) := by
  intro run
  constructor
  · intro h
    refine undisturbed_of_once hstart hinstalled hheads fun before after heq => ?_
    exact (h before [] after (by rw [heq, List.append_nil])).1
  · rintro h before mid after rfl
    have hheads' := (Machine.along_append.mp hheads).1
    have hund := (Machine.along_append.mp (show Machine.Along (step P) Undisturbed start _ from h)).1
    exact ⟨(inOrder_run hstart (Machine.along_append.mp hheads').1
      (Machine.along_append.mp hund).1).once, cursorLe_run hstart hheads' hund⟩

end

/-- Two polls of the mock's filter, one after the other: each write finds the cursor of its poll. -/
theorem log_filter_once_iff_sole : ∃ (start : FilterState) (f : LogFilter)
    (events : List FilterEvent), start.Fresh (u64Size - 1) f ∧
    (∃ r r', (Machine.run (FilterState.step mockPrimitives) start events).polls 1 = .delivered r ∧
      (Machine.run (FilterState.step mockPrimitives) start events).polls 2 = .delivered r' ∧
      r'.lo = r.hi + 1 ∧ r'.hi = r.hi + 3) ∧
    ∀ before mid after, events = before ++ mid ++ after →
      (Machine.run (FilterState.step mockPrimitives) start before).Once ∧
        (Machine.run (FilterState.step mockPrimitives) start before).CursorLe
          (Machine.run (FilterState.step mockPrimitives) start (before ++ mid)) := by
  obtain ⟨st, genesis, tip, blocks, call, s, hlinked, hchain, -, hlinked', hlast, hnumber, hsize,
    hunwrapped, happend⟩ := exists_grown (k := 3) (by norm_num) (by norm_num)
  obtain ⟨header, -, -, -⟩ := exists_start_engine (.repeated 48 1)
  have htip : tip ∈ genesis :: blocks := List.mem_of_getLast? hlast
  have hread₁ := run_readSteps_filterAt (P := mockPrimitives) hlinked hchain (by omega) header 1
  obtain ⟨logs, hread₂⟩ := run_pollAndRead hlinked hchain hlinked' List.mem_cons_self htip (by omega)
    (by rw [hnumber]; unfold maxGetLogsRange; omega) hsize happend header
  have hfresh : (filterAt st genesis).Fresh (u64Size - 1)
      ⟨⟨[], []⟩, genesis.number, none, genesis.number⟩ := filterAt_fresh hlinked hchain (by omega)
  refine ⟨filterAt st genesis, _, pollAndRead header call tip ++ [.writeCursor 2], hfresh,
    ⟨readOf header genesis, ⟨genesis.number + 1, tip.number, oneLogEach header, logs⟩, ?_, ?_, rfl,
      hnumber⟩, ?_⟩
  · rw [Machine.run_concat, hread₂]
    rfl
  · rw [Machine.run_concat, hread₂]
    rfl
  · refine (log_filter_once_iff mockPrimitives hfresh _ ?_
      (headsPublished_pollAndRead hunwrapped htip hsize happend)).mpr ?_
    · simp [pollAndRead, FilterState.pollSteps, FilterState.readSteps]
    · -- only the two writes have to be looked at
      have hsplit : pollAndRead header call tip = FilterState.readSteps 1 (oneLogEach header) ++
          .writeCursor 1 :: .advance call (headOf tip) ::
            FilterState.readSteps 2 (oneLogEach header) := rfl
      refine Machine.along_concat.mpr ⟨?_, fun r hr => ?_⟩
      · rw [hsplit]
        refine Machine.along_append.mpr
          ⟨undisturbed_of_no_write (by simp [FilterState.readSteps]), Machine.along_cons.mpr
            ⟨fun r hr => ?_, undisturbed_of_no_write (by simp [FilterState.readSteps])⟩⟩
        rw [hread₁] at hr ⊢
        cases hr
        exact ⟨_, rfl, rfl⟩
      · rw [hread₂] at hr ⊢
        cases hr
        exact ⟨_, rfl, rfl⟩

/-- The second poll's read, when the first has read one block and the chain has grown by another. -/
def overlapRead (header : RpcBlockHeader) (genesis block : VerifiedBlock) : SpanRead where
  lo := genesis.number
  hi := block.number
  fetch := oneLogEach header
  logs := matchingLogs ⟨[], []⟩ (oneLogEach header) genesis ++
    matchingLogs ⟨[], []⟩ (oneLogEach header) block

/-- Two polls read, and the second writes the cursor. -/
def overlapEvents (header : RpcBlockHeader) (call : AppendCall) (block : VerifiedBlock) :
    List FilterEvent :=
  FilterState.readSteps 1 (oneLogEach header) ++ .advance call (headOf block) ::
    (FilterState.readSteps 2 (oneLogEach header) ++ [.writeCursor 2])

theorem run_overlapEvents {P : Primitives} {st : Synced} {genesis block : VerifiedBlock}
    {call : AppendCall} {s : Snapshot} (hlinked : st.Linked) (hchain : st.chain = [genesis])
    (hlinked' : Synced.Linked ⟨[genesis, block], s⟩) (hblock : block.number = genesis.number + 1)
    (hsize : block.number < u64Size - 1)
    (happend : appendStep P st call = (.ok (), ⟨[genesis, block], s⟩)) (header : RpcBlockHeader) :
    Machine.run (FilterState.step P) (filterAt st genesis) (overlapEvents header call block) =
      { synced := ⟨[genesis, block], s⟩
        head := headOf block
        stored := some ⟨⟨[], []⟩, genesis.number, none, block.number + 1⟩
        polls := Function.update (Function.update (fun _ => .idle) 1 (.writing (readOf header genesis)))
          2 (.delivered (overlapRead header genesis block)) } := by
  have hread₁ := run_readSteps_filterAt (P := P) hlinked hchain (by omega) header 1
  -- the first poll has read, and the chain has advanced
  obtain ⟨s₂, hs₂⟩ : ∃ s₂ : FilterState, s₂ = { filterAt st genesis with
    synced := ⟨[genesis, block], s⟩
    head := headOf block
    polls := Function.update (fun _ => .idle) 1 (.writing (readOf header genesis)) } := ⟨_, rfl⟩
  have hadvanced : (Machine.run (FilterState.step P) (filterAt st genesis)
      (FilterState.readSteps 1 (oneLogEach header))).move P (.advance call (headOf block)) = s₂ := by
    rw [hread₁, hs₂]
    simp only [FilterState.move, filterAt, happend, FilterEvent.poll, FilterState.storedAfter]
  have hlt : block.number < u64Size := by omega
  have hwidth : block.number < genesis.number + maxGetLogsRange := by
    unfold maxGetLogsRange
    omega
  have hlogs : logsForSpan ⟨[], []⟩ (.ok s₂.head) s₂.synced.chain (oneLogEach header) genesis.number
      s₂.head.number = .ok (overlapRead header genesis block).logs := by
    rw [hs₂]
    exact logsForSpan_chain hlinked' rfl rfl hlt hwidth ⟨[], []⟩ (oneLogEach header)
  have hhead₂ : s₂.head.number = block.number := by rw [hs₂]; rfl
  have hread₂ := FilterState.run_readSteps (P := P) (s := s₂) (p := 2)
    (f := ⟨⟨[], []⟩, genesis.number, none, genesis.number⟩) (by rw [hs₂]; rfl) rfl
    (by rw [hs₂]; rfl) (by rw [hhead₂]; exact hblock.ge.trans' (Nat.le_succ _))
    (by rw [hhead₂]; exact hwidth) (by rw [hhead₂]; omega) hlogs
  have hwritten : satAdd block.number 1 = block.number + 1 := satAdd_of_lt (by omega)
  rw [overlapEvents, Machine.run_append, Machine.run_cons, FilterState.step_snd, hadvanced,
    Machine.run_concat, FilterState.step_snd, hread₂, hs₂]
  simp only [FilterState.move, FilterState.storedAfter, filterAt, Function.update_self,
    Function.update_idem, FilterEvent.poll, Poll.next, Option.map_some]
  rw [← hwritten]
  rfl

/-- Two polls read the cursor at the same place; the head, which only grows, is one block higher for
the second. It writes first. Both return the log of the first block, and the cursor moves back. -/
theorem log_filter_delivers_twice : ∃ (start : FilterState) (f : LogFilter)
    (before after : List FilterEvent), start.Fresh (u64Size - 1) f ∧ .forget ∉ before ++ after ∧
    start.HeadsPublished mockPrimitives (u64Size - 1) (before ++ after) ∧
    (∀ call head, .advance call head ∈ before ++ after → start.head.number ≤ head.number) ∧
    let run := Machine.run (FilterState.step mockPrimitives) start
    (∃ p p' r r' log, p ≠ p' ∧ (run (before ++ after)).polls p = .delivered r ∧
      (run (before ++ after)).polls p' = .delivered r' ∧ log ∈ r.logs ∧ log ∈ r'.logs) ∧
    ∃ f₁ f₂, (run before).stored = some f₁ ∧ (run (before ++ after)).stored = some f₂ ∧
      f₂.cursor < f₁.cursor := by
  obtain ⟨st, genesis, block, call, s, hlinked, hchain, hlinked', hblock, hsize, hunwrapped,
    happend⟩ := exists_two_blocks
  obtain ⟨header, -, -, -⟩ := exists_start_engine (.repeated 48 1)
  have hfresh : (filterAt st genesis).Fresh (u64Size - 1)
      ⟨⟨[], []⟩, genesis.number, none, genesis.number⟩ := filterAt_fresh hlinked hchain (by omega)
  have hread₁ := run_readSteps_filterAt (P := mockPrimitives) hlinked hchain (by omega) header 1
  have hbefore := run_overlapEvents hlinked hchain hlinked' hblock hsize happend header
  have hafter : Machine.run (FilterState.step mockPrimitives) (filterAt st genesis)
      (overlapEvents header call block ++ [.writeCursor 1]) = FilterState.move mockPrimitives
        { synced := ⟨[genesis, block], s⟩
          head := headOf block
          stored := some ⟨⟨[], []⟩, genesis.number, none, block.number + 1⟩
          polls := Function.update (Function.update (fun _ => .idle) 1
            (.writing (readOf header genesis))) 2 (.delivered (overlapRead header genesis block)) }
        (.writeCursor 1) := by
    rw [Machine.run_concat, hbefore, FilterState.step_snd]
  refine ⟨filterAt st genesis, _, overlapEvents header call block, [.writeCursor 1], hfresh, ?_, ?_,
    ?_, ⟨1, 2, readOf header genesis, overlapRead header genesis block,
      rpcLogJson ⟨.repeated 20 0, [], []⟩ (genesis.header.getD header) none 0 0, by norm_num, ?_, ?_,
      ?_, ?_⟩, _, _, congrArg FilterState.stored hbefore, congrArg FilterState.stored hafter, ?_⟩
  · simp [overlapEvents, FilterState.readSteps]
  · -- the only head published is the one of the second block
    unfold overlapEvents
    rw [List.append_assoc, List.cons_append]
    refine Machine.along_append.mpr ⟨FilterState.headsPublished_of_polls ?_, Machine.along_cons.mpr
      ⟨?_, FilterState.headsPublished_of_polls ?_⟩⟩
    · simp [FilterState.readSteps, FilterEvent.poll]
    · rw [hread₁]
      refine ⟨hunwrapped, hsize, block, ?_, rfl, rfl, rfl⟩
      change block ∈ (appendStep mockPrimitives st call).2.chain
      rw [happend]
      exact List.mem_cons_of_mem _ (List.mem_singleton_self block)
    · simp [FilterState.readSteps, FilterEvent.poll]
  · intro call' head hmem
    simp only [overlapEvents, FilterState.readSteps, List.mem_append, List.mem_cons,
      List.not_mem_nil, or_false, reduceCtorEq, false_or, FilterEvent.advance.injEq] at hmem
    obtain ⟨-, rfl⟩ := hmem
    change genesis.number ≤ block.number
    omega
  · rw [hafter]
    rfl
  · rw [hafter]
    rfl
  · exact List.mem_singleton_self _
  · exact List.mem_append_left _ (List.mem_singleton_self _)
  · change satAdd genesis.number 1 < block.number + 1
    unfold satAdd
    omega

end HeliosBsc
