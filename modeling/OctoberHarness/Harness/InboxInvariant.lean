import OctoberHarness.Harness.Inbox

/-! Submissions and inboxes agree: what a transaction would commit, and that every write
of it keeps them in agreement. -/
namespace OctoberHarness.Inbox

open Function List Option OrderedMap

open Storage (SubmissionStatus)

/-- The submissions that a transaction would leave, as it is. -/
def Tx.At (tx : Tx) (view : Nat → Option SubmissionRecord) : Prop :=
  ∃ staged, tx.assemble = .ok staged ∧ view = fun id => (staged.lookup id).or (tx.base.submissions.lookup id)

/-- Every record is under its own id, and no two of a conversation have one request. -/
structure Identified (view : Nat → Option SubmissionRecord) : Prop where
  own : ∀ id record, view id = some record → record.id = id
  requests : ∀ id other record second, view id = some record → view other = some second →
    record.conversationId = second.conversationId → record.requestId = second.requestId → record.requestId ≠ none →
    id = other

/-- Every queued submission is in the inbox of its conversation, and nothing else is. -/
structure Conserved (view : Nat → Option SubmissionRecord) (inbox : Nat → List InboxItem) (run : Nat → Option LiveRun) :
    Prop extends Identified view where
  queued : ∀ conversationId, ∀ item ∈ inbox conversationId, ∃ record, view item.id = some record ∧
    record.conversationId = conversationId ∧ record.status = .queued
  listed : ∀ id record, view id = some record → record.status = .queued →
    ∃ item ∈ inbox record.conversationId, item.id = id
  inputs : ∀ conversationId live, run conversationId = some live → ∀ id ∈ live.inputs,
    ∃ record, view id = some record ∧ record.status ≠ .queued

/-- What a later view keeps of a submission. -/
structure Kept (record later : SubmissionRecord) : Prop where
  conversationId : later.conversationId = record.conversationId
  requestId : later.requestId = record.requestId
  type : later.type = record.type
  settled : record.isSettled = true → later = record
  queued : later.status = .queued → record.status = .queued

theorem Kept.refl (record : SubmissionRecord) : Kept record record :=
  ⟨rfl, rfl, rfl, fun _ => rfl, id⟩

theorem Kept.trans {first second third : SubmissionRecord} (hFirst : Kept first second) (hSecond : Kept second third) :
    Kept first third where
  conversationId := hSecond.conversationId.trans hFirst.conversationId
  requestId := hSecond.requestId.trans hFirst.requestId
  type := hSecond.type.trans hFirst.type
  settled hSettled := by
    have hSame := hFirst.settled hSettled
    rw [hSecond.settled (hSame ▸ hSettled), hSame]
  queued hQueued := hFirst.queued (hSecond.queued hQueued)

theorem applySubmissionChange_spec {current next : SubmissionRecord} {change : SubmissionChange}
    (hChange : applySubmissionChange current change = .ok next) :
    Kept current next ∧ next.id = current.id ∧ next.status ≠ .queued := by
  rw [applySubmissionChange.eq_def] at hChange
  by_cases hSettled : current.isSettled = true
  · rw [if_pos hSettled] at hChange
    obtain rfl := Except.ok.inj hChange
    refine ⟨Kept.refl _, rfl, fun hQueued => ?_⟩
    simp [SubmissionRecord.isSettled, hQueued] at hSettled
  · rw [if_neg hSettled] at hChange
    cases change with
    | placed entry =>
      by_cases hQueued : current.status = .queued
      · simp only [hQueued, ne_eq, not_true_eq_false, if_false] at hChange
        obtain rfl := Except.ok.inj hChange
        refine ⟨⟨rfl, rfl, rfl, fun h => absurd h hSettled, fun _ => hQueued⟩, rfl, ?_⟩
        show (if _ then SubmissionStatus.placed else SubmissionStatus.done) ≠ .queued
        split_ifs <;> simp
      · simp only [ne_eq, hQueued, not_false_eq_true, if_true] at hChange
        cases hChange
    | settled settlement =>
      cases settlement with
      | done answer =>
        by_cases hPlaced : current.status = .placed
        · simp only [hPlaced, ne_eq, not_true_eq_false, if_false] at hChange
          obtain rfl := Except.ok.inj hChange
          exact ⟨⟨rfl, rfl, rfl, fun h => absurd h hSettled, fun h => by simp at h⟩, rfl, by simp⟩
        · simp only [ne_eq, hPlaced, not_false_eq_true, if_true] at hChange
          cases hChange
      | unanswered reason detail =>
        obtain rfl := Except.ok.inj hChange
        exact ⟨⟨rfl, rfl, rfl, fun h => absurd h hSettled, fun h => by simp at h⟩, rfl, by simp⟩

/-- A transaction whose ids are below its next one, with its items in the order of ids. -/
structure Bounded (tx : Tx) : Prop where
  table : (tx.base.submissions.map Prod.fst).Nodup
  base : ∀ id, tx.nextId ≤ id → tx.base.submissions.lookup id = none
  staged : ∀ id, tx.nextId ≤ id → tx.submissions.lookup id = none
  nodup : (tx.submissions.map Prod.fst).Nodup
  changes : ∀ change ∈ tx.changes, change.1 < tx.nextId
  items : ∀ conversationId, ∀ item ∈ tx.inbox conversationId, item.id < tx.nextId
  ordered : ∀ conversationId, (tx.inbox conversationId).Pairwise fun first second => first.id < second.id
  inputs : ∀ conversationId live, tx.run conversationId = some live → ∀ id ∈ live.inputs, id < tx.nextId
  quiet : tx.hasTableWrite = false → tx.submissions = [] ∧ tx.changes = []

/-- A transaction, begun with some submissions, in which submissions and inboxes agree. -/
structure Good (start : List (Nat × SubmissionRecord)) (tx : Tx) : Prop where
  bounded : Bounded tx
  conserved : ∀ view, tx.At view → Conserved view tx.inbox tx.run
  kept : ∀ view, tx.At view → ∀ id record, start.lookup id = some record →
    ∃ later, view id = some later ∧ Kept record later

variable {tx : Tx} {view : Nat → Option SubmissionRecord} {id : Nat}

theorem Tx.At.of_change {change : SubmissionChange} (hAt : (tx.changeSubmission id change).At view) :
    ∃ before record next, tx.At before ∧ before id = some record ∧ applySubmissionChange record change = .ok next ∧
      view = update before id (some next) := by
  obtain ⟨staged, hAssemble, rfl⟩ := hAt
  rw [Tx.assemble, Tx.changeSubmission] at hAssemble
  simp only at hAssemble
  rw [foldlM_append, Outcome.bind_eq_ok] at hAssemble
  obtain ⟨first, hFirst, hLast⟩ := hAssemble
  rw [foldlM_cons, Outcome.bind_eq_ok] at hLast
  obtain ⟨second, hSecond, hEnd⟩ := hLast
  obtain rfl : second = staged := by simpa [pure, Except.pure] using hEnd
  rw [Tx.resolve] at hSecond
  cases hRecord : (first.lookup id).or (tx.base.submissions.lookup id) with
  | none =>
    simp only [hRecord] at hSecond
    cases hSecond
  | some record =>
    simp only [hRecord, Outcome.bind_eq_ok] at hSecond
    obtain ⟨next, hNext, hStaged⟩ := hSecond
    refine ⟨_, record, next, ⟨first, hFirst, rfl⟩, hRecord, hNext, ?_⟩
    obtain rfl := Except.ok.inj hStaged
    funext other
    rw [update_apply]
    show (lookup other (if _ then _ else _)).or _ = _
    by_cases hSame : next = record
    · rw [if_pos hSame]
      split_ifs with hOther
      · rw [hOther, hSame]
        exact hRecord
      · rfl
    · rw [if_neg hSame, lookup_set]
      split_ifs with hOther <;> rfl

variable {record : SubmissionRecord}

/-- The changes of earlier submissions do not see a new one. -/
theorem resolve_create {base : List (Nat × SubmissionRecord)} (changes : List (Nat × SubmissionChange))
    (hOld : ∀ change ∈ changes, change.1 ≠ id) {staged grown result : List (Nat × SubmissionRecord)}
    (hGrown : ∀ other, grown.lookup other = if other = id then some record else staged.lookup other)
    (hRun : changes.foldlM (Tx.resolve base) grown = .ok result) :
    ∃ last, changes.foldlM (Tx.resolve base) staged = .ok last ∧
      ∀ other, result.lookup other = if other = id then some record else last.lookup other := by
  induction changes generalizing staged grown with
  | nil =>
    obtain rfl : grown = result := by simpa [pure, Except.pure] using hRun
    exact ⟨staged, rfl, hGrown⟩
  | cons change rest ih =>
    have hNe : change.1 ≠ id := hOld change mem_cons_self
    rw [foldlM_cons, Outcome.bind_eq_ok] at hRun
    obtain ⟨next, hNext, hRest⟩ := hRun
    rw [Tx.resolve, hGrown, if_neg hNe] at hNext
    cases hCurrent : (staged.lookup change.1).or (base.lookup change.1) with
    | none =>
      simp only [hCurrent] at hNext
      cases hNext
    | some current =>
      simp only [hCurrent, Outcome.bind_eq_ok] at hNext
      obtain ⟨changed, hChanged, hStaged⟩ := hNext
      have hResult : ∀ other, next.lookup other =
          if other = id then some record
          else (if changed = current then staged else set staged change.1 changed).lookup other := by
        intro other
        obtain rfl := Except.ok.inj hStaged
        by_cases hSame : changed = current
        · rw [if_pos hSame, if_pos hSame, hGrown]
        · rw [if_neg hSame, if_neg hSame, lookup_set, lookup_set, hGrown]
          by_cases hOther : other = change.1
          · rw [if_pos hOther, if_pos hOther, if_neg (hOther ▸ hNe)]
          · rw [if_neg hOther, if_neg hOther]
      obtain ⟨last, hLast, hView⟩ := ih (fun c hc => hOld c (mem_cons_of_mem _ hc)) hResult hRest
      refine ⟨last, ?_, hView⟩
      rw [foldlM_cons, Outcome.bind_eq_ok]
      refine ⟨_, ?_, hLast⟩
      rw [Tx.resolve]
      simp only [hCurrent, Outcome.bind_eq_ok]
      exact ⟨changed, hChanged, rfl⟩

theorem Tx.At.of_create {grown : Tx} (hAt : grown.At view) (hBounded : Bounded tx) (hBase : grown.base = tx.base)
    (hStaged : grown.submissions = tx.submissions ++ [(tx.nextId, record)]) (hChanges : grown.changes = tx.changes) :
    ∃ before, tx.At before ∧ view = update before tx.nextId (some record) := by
  obtain ⟨staged, hAssemble, rfl⟩ := hAt
  rw [Tx.assemble, hBase, hStaged, hChanges] at hAssemble
  have hGrown : ∀ other, (tx.submissions ++ [(tx.nextId, record)]).lookup other =
      if other = tx.nextId then some record else tx.submissions.lookup other := by
    intro other
    rw [OrderedMap.lookup_append, OrderedMap.lookup_cons]
    split_ifs with hOther
    · rw [hOther, hBounded.staged _ le_rfl]
      rfl
    · simp
  obtain ⟨last, hLast, hView⟩ := resolve_create tx.changes (fun change hChange => (hBounded.changes change hChange).ne)
    hGrown hAssemble
  refine ⟨_, ⟨last, hLast, rfl⟩, ?_⟩
  funext other
  rw [update_apply, hView, hBase]
  split_ifs with hOther
  · rfl
  · rfl

theorem Tx.At.congr {other : Tx} (hBase : other.base = tx.base) (hStaged : other.submissions = tx.submissions)
    (hChanges : other.changes = tx.changes) : other.At view ↔ tx.At view := by
  rw [Tx.At, Tx.At, Tx.assemble, Tx.assemble, hBase, hStaged, hChanges]

theorem Tx.At.none_of_le (hAt : tx.At view) (hBounded : Bounded tx) (hId : tx.nextId ≤ id) : view id = none := by
  obtain ⟨staged, hAssemble, rfl⟩ := hAt
  -- every change is of an earlier submission
  have hStaged : ∀ (changes : List (Nat × SubmissionChange)) (first last : List (Nat × SubmissionRecord)),
      (∀ change ∈ changes, change.1 ≠ id) → first.lookup id = none →
      changes.foldlM (Tx.resolve tx.base.submissions) first = .ok last → last.lookup id = none := by
    intro changes
    induction changes with
    | nil =>
      intro first last _ hFirst hRun
      obtain rfl : first = last := by simpa [pure, Except.pure] using hRun
      exact hFirst
    | cons change rest ih =>
      intro first last hOld hFirst hRun
      rw [foldlM_cons, Outcome.bind_eq_ok] at hRun
      obtain ⟨next, hNext, hRest⟩ := hRun
      refine ih next last (fun c hc => hOld c (mem_cons_of_mem _ hc)) ?_ hRest
      rw [Tx.resolve] at hNext
      split at hNext
      · cases hNext
      · obtain ⟨changed, -, hSet⟩ := Outcome.bind_eq_ok.mp hNext
        obtain rfl := Except.ok.inj hSet
        split_ifs
        · exact hFirst
        · rw [lookup_set, if_neg (hOld change mem_cons_self).symm]
          exact hFirst
  have hNone := hStaged tx.changes tx.submissions staged
    (fun change hChange => ((hBounded.changes change hChange).trans_le hId).ne) (hBounded.staged id hId) hAssemble
  show (staged.lookup id).or (tx.base.submissions.lookup id) = none
  rw [hNone, hBounded.base id hId]
  rfl

/-! What a view keeps. -/

section Views

variable {view : Nat → Option SubmissionRecord} {inbox : Nat → List InboxItem} {run : Nat → Option LiveRun}

variable {next record : SubmissionRecord} {id : Nat}

theorem Identified.update (hIdentified : Identified view)
    (hRecord : view id = some record) (hKept : Kept record next) (hId : next.id = record.id) :
    Identified (Function.update view id (some next)) := by
  -- every record of the new view comes from one with the same request
  have hOld : ∀ item found, Function.update view id (some next) item = some found →
      ∃ before, view item = some before ∧ found.id = before.id ∧ Kept before found := by
    intro item found hFound
    rw [update_apply] at hFound
    split_ifs at hFound with hItem
    · obtain rfl := some.inj hFound
      exact ⟨record, hItem ▸ hRecord, hId, hKept⟩
    · exact ⟨found, hFound, rfl, Kept.refl found⟩
  constructor
  · intro item found hFound
    obtain ⟨before, hBefore, hSame, -⟩ := hOld item found hFound
    rw [hSame, hIdentified.own item before hBefore]
  · intro first second one two hOne hTwo hConversation hRequest hSome
    obtain ⟨before, hBefore, -, hKeptOne⟩ := hOld first one hOne
    obtain ⟨other, hBeforeTwo, -, hKeptTwo⟩ := hOld second two hTwo
    rw [hKeptOne.conversationId, hKeptTwo.conversationId] at hConversation
    rw [hKeptOne.requestId] at hRequest hSome
    rw [hKeptTwo.requestId] at hRequest
    exact hIdentified.requests first second before other hBefore hBeforeTwo hConversation hRequest hSome

section

variable (hConserved : Conserved view inbox run)

include hConserved

theorem Conserved.inputs_update
    (hNext : next.status ≠ .queued) : ∀ conversationId live, run conversationId = some live → ∀ input ∈ live.inputs,
      ∃ record, update view id (some next) input = some record ∧ record.status ≠ .queued := by
  intro conversationId live hLive input hInput
  obtain ⟨found, hFound, hStatus⟩ := hConserved.inputs conversationId live hLive input hInput
  rw [update_apply]
  split_ifs
  · exact ⟨next, rfl, hNext⟩
  · exact ⟨found, hFound, hStatus⟩

theorem Conserved.change (hRecord : view id = some record)
    (hPlaced : record.status ≠ .queued) (hKept : Kept record next) (hId : next.id = record.id) (hNext : next.status ≠ .queued) :
    Conserved (update view id (some next)) inbox run := by
  have hOther : ∀ item, (∃ found, view item = some found ∧ found.status = .queued) → item ≠ id := by
    rintro item ⟨found, hFound, hQueued⟩ rfl
    rw [hRecord] at hFound
    obtain rfl := some.inj hFound
    exact hPlaced hQueued
  exact {
    toIdentified := hConserved.toIdentified.update hRecord hKept hId
    queued := by
      intro conversationId item hItem
      obtain ⟨found, hFound, hConversation, hQueued⟩ := hConserved.queued conversationId item hItem
      rw [update_of_ne (hOther item.id ⟨found, hFound, hQueued⟩)]
      exact ⟨found, hFound, hConversation, hQueued⟩
    listed := by
      intro item found hFound hQueued
      rw [update_apply] at hFound
      split_ifs at hFound with hItem
      · obtain rfl := some.inj hFound
        exact absurd hQueued hNext
      · exact hConserved.listed item found hFound hQueued
    inputs := hConserved.inputs_update hNext }

/-- A queued submission changes and leaves the inbox. -/
theorem Conserved.take {conversationId : Nat} {item : InboxItem}
    (hItem : item ∈ inbox conversationId) (hRecord : view item.id = some record)
    (hKept : Kept record next) (hId : next.id = record.id) (hNext : next.status ≠ .queued) :
    Conserved (update view item.id (some next))
      (update inbox conversationId ((inbox conversationId).filter fun other => decide (other.id ≠ item.id))) run := by
  obtain ⟨found, hFound, hConversation, hQueued⟩ := hConserved.queued conversationId item hItem
  obtain rfl : found = record := some.inj (hFound.symm.trans hRecord)
  exact {
    toIdentified := hConserved.toIdentified.update hRecord hKept hId
    queued := by
      intro other kept hIn
      rw [update_apply] at hIn
      have hRest : kept ∈ inbox other ∧ kept.id ≠ item.id := by
        split_ifs at hIn with hSame
        · obtain ⟨hIn, hNe⟩ := List.mem_filter.mp hIn
          exact ⟨hSame ▸ hIn, of_decide_eq_true hNe⟩
        · refine ⟨hIn, fun hEq => hSame ?_⟩
          obtain ⟨again, hAgain, hOwner, -⟩ := hConserved.queued other kept hIn
          rw [hEq, hFound] at hAgain
          obtain rfl := some.inj hAgain
          exact hOwner.symm.trans hConversation
      rw [update_of_ne hRest.2]
      exact hConserved.queued other kept hRest.1
    listed := by
      intro id other hOther hStatus
      rw [update_apply] at hOther
      split_ifs at hOther with hSame
      · obtain rfl := some.inj hOther
        exact absurd hStatus hNext
      · obtain ⟨kept, hKeptIn, hKeptId⟩ := hConserved.listed id other hOther hStatus
        refine ⟨kept, ?_, hKeptId⟩
        rw [update_apply]
        split_ifs with hConversationSame
        · rw [mem_filter]
          exact ⟨hConversationSame ▸ hKeptIn, decide_eq_true (hKeptId ▸ hSame)⟩
        · exact hKeptIn
    inputs := hConserved.inputs_update hNext }

/-- A new submission; when it queues, its item goes last. -/
theorem Conserved.create (hNew : view id = none) (hId : record.id = id)
    (hFree : record.requestId ≠ none → ∀ other found, view other = some found →
      found.conversationId = record.conversationId → found.requestId ≠ record.requestId)
    {items : List InboxItem} (hItems : ∀ item ∈ items, item.id = id)
    (hQueued : items ≠ [] ↔ record.status = .queued) :
    Conserved (update view id (some record))
      (update inbox record.conversationId (inbox record.conversationId ++ items)) run := by
  have hOther : ∀ item found, view item = some found → item ≠ id := by
    rintro item found hFound rfl
    rw [hNew] at hFound
    cases hFound
  exact {
    own := by
      intro item found hFound
      rw [update_apply] at hFound
      split_ifs at hFound with hSame
      · rw [← some.inj hFound, hId, hSame]
      · exact hConserved.own item found hFound
    queued := by
      intro other item hIn
      rw [update_apply] at hIn
      have hOld : item ∈ inbox other ∨ (other = record.conversationId ∧ item ∈ items) := by
        split_ifs at hIn with hSame
        · rcases List.mem_append.mp hIn with hIn | hIn
          · exact Or.inl (hSame ▸ hIn)
          · exact Or.inr ⟨hSame, hIn⟩
        · exact Or.inl hIn
      rcases hOld with hOld | ⟨hSame, hItem⟩
      · obtain ⟨found, hFound, hConversation, hStatus⟩ := hConserved.queued other item hOld
        rw [update_of_ne (hOther item.id found hFound)]
        exact ⟨found, hFound, hConversation, hStatus⟩
      · rw [hItems item hItem, update_self]
        exact ⟨record, rfl, hSame.symm, hQueued.mp (ne_nil_of_mem hItem)⟩
    listed := by
      intro item found hFound hStatus
      rw [update_apply] at hFound
      split_ifs at hFound with hSame
      · obtain rfl := some.inj hFound
        obtain ⟨new, hNewItem⟩ := exists_mem_of_ne_nil _ (hQueued.mpr hStatus)
        rw [update_self]
        exact ⟨new, mem_append_right _ hNewItem, (hItems new hNewItem).trans hSame.symm⟩
      · obtain ⟨old, hOld, hOldId⟩ := hConserved.listed item found hFound hStatus
        refine ⟨old, ?_, hOldId⟩
        rw [update_apply]
        split_ifs with hConversation
        · exact mem_append_left _ (hConversation ▸ hOld)
        · exact hOld
    inputs := by
      intro other live hLive input hInput
      obtain ⟨found, hFound, hStatus⟩ := hConserved.inputs other live hLive input hInput
      rw [update_of_ne (hOther input found hFound)]
      exact ⟨found, hFound, hStatus⟩
    requests := by
      intro first second one two hFirst hSecond hConversation hRequest hSome
      rw [update_apply] at hFirst hSecond
      split_ifs at hFirst hSecond with hOne hTwo hTwo
      · rw [hOne, hTwo]
      · obtain rfl := some.inj hFirst
        exact absurd hRequest.symm (hFree hSome second two hSecond hConversation.symm)
      · obtain rfl := some.inj hSecond
        rw [hRequest] at hSome
        exact absurd hRequest (hFree hSome first one hFirst hConversation)
      · exact hConserved.requests first second one two hFirst hSecond hConversation hRequest hSome }

end

end Views

end OctoberHarness.Inbox
