import OctoberHarness.Harness.InboxAdmission

/-! Conservation of inboxes: along every run of commits, the queued submissions are the
items of the inboxes. -/
namespace OctoberHarness.Inbox

open OrderedMap

open Storage (SubmissionStatus)

section Commits

variable {start : List (Nat × SubmissionRecord)} {tx grown : Tx}

theorem Good.body (hGood : Good start tx) {commit : Commit} (hBody : commit.body tx = .ok grown) : Good start grown := by
  cases commit with
  | createConversation =>
    obtain rfl := Except.ok.inj hBody
    exact (Sound.createConversation tx hGood).1
  | submit admissions entries =>
    simp only [Commit.body, Outcome.bind_eq_ok] at hBody
    obtain ⟨admitted, hAdmit, hAppend⟩ := hBody
    exact (Sound.appendAll hAppend (hGood.admitAll hAdmit)).1
  | abort id conversationId =>
    simp only [Commit.body, Outcome.bind_eq_ok] at hBody
    obtain ⟨⟨result, aborted⟩, hAbort, hSame⟩ := hBody
    obtain rfl := Except.ok.inj hSame
    exact hGood.abort hAbort
  | reconcile withdrawn ended =>
    have hWithdrawn : ∀ (ids : List Nat) (tx : Tx), Good start tx →
        Good start (ids.foldl (fun tx id => withdrawQueuedInputs tx id (js "aborted")) tx) := by
      intro ids
      induction ids with
      | nil => exact fun _ h => h
      | cons id rest ih => exact fun tx h => ih _ (Sound.withdraw tx id (js "aborted") h).1
    exact (Sound.endTasks hBody (hWithdrawn withdrawn tx hGood)).1
  | failRun conversationId taskId entries policy runEnd modes head now =>
    simp only [Commit.body, Outcome.bind_eq_ok] at hBody
    obtain ⟨boundary, -, appended, hAppend, hEnd⟩ := hBody
    exact (Sound.appendAll hAppend hGood).1.endFailedRun hEnd
  | answer conversationId taskId message continuation afterRun modes head now => exact hGood.answer hBody
  | endAnsweredRun conversationId taskId answered modes head now => exact hGood.endAnsweredRun hBody
  | finishToolRound conversationId taskId round policy modes head now => exact hGood.finishToolRound hBody

theorem At.of_commit {next : Session} (hBounded : Bounded tx) (hCommit : tx.commit = .ok next) :
    tx.At fun id => next.submissions.lookup id := by
  rw [Tx.commit, Outcome.bind_eq_ok] at hCommit
  obtain ⟨staged, hAssemble, hNext⟩ := hCommit
  obtain rfl := Except.ok.inj hNext
  refine ⟨staged, hAssemble, funext fun id => ?_⟩
  apply lookup_foldl_set
  -- every change keeps one record for an id
  have hNodup : ∀ (changes : List (Nat × SubmissionChange)) (first last : List (Nat × SubmissionRecord)),
      (first.map Prod.fst).Nodup → changes.foldlM (Tx.resolve tx.base.submissions) first = .ok last →
        (last.map Prod.fst).Nodup := by
    intro changes
    induction changes with
    | nil =>
      intro first last hFirst hRun
      obtain rfl : first = last := by simpa [pure, Except.pure] using hRun
      exact hFirst
    | cons change rest ih =>
      intro first last hFirst hRun
      rw [List.foldlM_cons, Outcome.bind_eq_ok] at hRun
      obtain ⟨middle, hMiddle, hRest⟩ := hRun
      refine ih middle last ?_ hRest
      rw [Tx.resolve] at hMiddle
      split at hMiddle
      · cases hMiddle
      · obtain ⟨changed, -, hSet⟩ := Outcome.bind_eq_ok.mp hMiddle
        obtain rfl := Except.ok.inj hSet
        split_ifs
        · exact hFirst
        · exact nodup_keys_set first change.1 changed hFirst
  exact hNodup tx.changes tx.submissions staged hBounded.nodup hAssemble

end Commits

namespace Session

/-- A state in which submissions and inboxes agree, and whose commits keep it so. -/
def Agrees (session : Session) : Prop :=
  Good session.submissions session.begin

/-- What a later state keeps of the submissions of an earlier one. -/
def Extends (session later : Session) : Prop :=
  ∀ id record, session.submissions.lookup id = some record →
    ∃ kept, later.submissions.lookup id = some kept ∧ Kept record kept

theorem Extends.refl (session : Session) : Extends session session :=
  fun _ record hRecord => ⟨record, hRecord, Kept.refl record⟩

theorem Extends.trans {first second third : Session} (hFirst : Extends first second) (hSecond : Extends second third) :
    Extends first third := by
  intro id record hRecord
  obtain ⟨middle, hMiddle, hOne⟩ := hFirst id record hRecord
  obtain ⟨last, hLast, hTwo⟩ := hSecond id middle hMiddle
  exact ⟨last, hLast, hOne.trans hTwo⟩

variable {session next : Session}

theorem begin_at {view : Nat → Option SubmissionRecord} (hAt : session.begin.At view) :
    view = fun id => session.submissions.lookup id := by
  obtain ⟨staged, hAssemble, rfl⟩ := hAt
  obtain rfl : [] = staged := by simpa [Tx.assemble, begin, pure, Except.pure] using hAssemble
  rfl

theorem at_begin (session : Session) : session.begin.At fun id => session.submissions.lookup id :=
  ⟨[], rfl, rfl⟩

theorem agrees_start : Agrees {} where
  bounded := {
    table := List.nodup_nil
    base := fun _ _ => rfl
    staged := fun _ _ => rfl
    nodup := List.nodup_nil
    changes := by
      intro change hChange
      cases hChange
    items := by
      intro conversationId item hItem
      cases hItem
    ordered := fun _ => List.Pairwise.nil
    inputs := by
      intro conversationId live hLive
      cases hLive
    quiet := fun _ => ⟨rfl, rfl⟩ }
  conserved := by
    intro view hAt
    rw [begin_at hAt]
    constructor
    · constructor
      · intro id record hRecord
        cases hRecord
      · intro id other record second hRecord
        cases hRecord
    · intro conversationId item hItem
      cases hItem
    · intro id record hRecord
      cases hRecord
    · intro conversationId live hLive
      cases hLive
  kept := by
    intro view hAt id record hRecord
    cases hRecord

theorem Agrees.apply (hAgrees : session.Agrees) {commit : Commit} (hApply : session.apply commit = .ok next) :
    next.Agrees ∧ Extends session next := by
  rw [Session.apply, Outcome.bind_eq_ok] at hApply
  obtain ⟨tx, hBody, hCommit⟩ := hApply
  have hGood := Good.body hAgrees hBody
  have hAt := At.of_commit hGood.bounded hCommit
  rw [Tx.commit, Outcome.bind_eq_ok] at hCommit
  obtain ⟨staged, -, hNext⟩ := hCommit
  have hTable : ∀ (rows table : List (Nat × SubmissionRecord)), (table.map Prod.fst).Nodup →
      ((rows.foldl (fun table row => OrderedMap.set table row.1 row.2) table).map Prod.fst).Nodup := by
    intro rows
    induction rows with
    | nil => exact fun _ h => h
    | cons row rest ih => exact fun table h => ih _ (nodup_keys_set table row.1 row.2 h)
  constructor
  · obtain rfl := Except.ok.inj hNext
    exact {
      bounded := {
        table := hTable staged tx.base.submissions hGood.bounded.table
        base := fun id hId => hAt.none_of_le hGood.bounded hId
        staged := fun _ _ => rfl
        nodup := List.nodup_nil
        changes := by
          intro change hChange
          cases hChange
        items := hGood.bounded.items
        ordered := hGood.bounded.ordered
        inputs := hGood.bounded.inputs
        quiet := fun _ => ⟨rfl, rfl⟩ }
      conserved := by
        intro view hView
        rw [begin_at hView]
        exact hGood.conserved _ hAt
      kept := by
        intro view hView id record hRecord
        rw [begin_at hView]
        exact ⟨record, hRecord, Kept.refl record⟩ }
  · exact hGood.kept _ hAt

theorem Agrees.step (hAgrees : session.Agrees) (commit : Commit) :
    (session.step commit).Agrees ∧ Extends session (session.step commit) := by
  rw [Session.step]
  cases hApply : session.apply commit with
  | ok next => exact hAgrees.apply hApply
  | error error => exact ⟨hAgrees, Extends.refl session⟩

theorem Agrees.run (hAgrees : session.Agrees) (commits : List Commit) :
    (session.run commits).Agrees ∧ Extends session (session.run commits) := by
  induction commits generalizing session with
  | nil => exact ⟨hAgrees, Extends.refl session⟩
  | cons commit rest ih =>
    obtain ⟨hNext, hOne⟩ := hAgrees.step commit
    obtain ⟨hLast, hTwo⟩ := ih hNext
    exact ⟨hLast, hOne.trans hTwo⟩

end Session

/-! Boundaries of any transaction. -/

/-- The items at the positions that a boundary selects leave, the others keep their order,
and the submissions of the former, and no others, are placed or settled. -/
structure TakesSelected (tx grown : Tx) (boundary : Boundary) (kind : BoundaryKind) (indexes : List Nat) : Prop where
  once : indexes.Nodup
  within : ∀ index ∈ indexes, index < (tx.inbox boundary.conversationId).length
  inbox : grown.inbox = Function.update tx.inbox boundary.conversationId
    (((tx.inbox boundary.conversationId).zipIdx.filter fun item => decide (item.2 ∉ indexes)).map Prod.fst)
  changes : ∃ changes, grown.changes = tx.changes ++ changes ∧ (∀ change ∈ changes, PlacedOrStale change.2) ∧
    changes.map Prod.fst = (itemsAt (tx.inbox boundary.conversationId) indexes).map InboxItem.id
  created : grown.submissions = tx.submissions
  views : ∀ after, grown.At after → ∃ before, tx.At before ∧
    (∀ id, id ∉ (itemsAt (tx.inbox boundary.conversationId) indexes).map InboxItem.id → after id = before id) ∧
    ∀ item ∈ itemsAt (tx.inbox boundary.conversationId) indexes,
      ∃ record, after item.id = some record ∧ record.status ≠ .queued

theorem applyBoundary_takes {tx grown : Tx} {boundary : Boundary} {kind : BoundaryKind} {now : Nat} {result : BoundaryResult}
    (hApply : applyBoundary tx boundary kind now = .ok (result, grown)) :
    TakesSelected tx grown boundary kind
      ((selected boundary kind (tx.inbox boundary.conversationId)).1 ++
        (selected boundary kind (tx.inbox boundary.conversationId)).2) := by
  obtain ⟨placed, changes, hApplied⟩ := applyBoundary_spec hApply
  have hIds : changes.map Prod.fst = (itemsAt (tx.inbox boundary.conversationId)
      ((selected boundary kind (tx.inbox boundary.conversationId)).1 ++
        (selected boundary kind (tx.inbox boundary.conversationId)).2)).map InboxItem.id := by
    rw [hApplied.submissions, chosen, itemsAt_append]
  exact {
    once := nodup_selected boundary kind _
    within := fun index hIndex => lt_length_of_selected hIndex
    inbox := by
      rw [hApplied.inbox, inbox_setInbox, removeAt_positions, hApplied.grows.inbox]
    changes := by
      refine ⟨changes, ?_, hApplied.settled, hIds⟩
      rw [hApplied.inbox]
      exact hApplied.grows.changes
    created := by
      rw [hApplied.inbox]
      exact hApplied.grows.submissions
    views := by
      intro after hAfter
      rw [hApplied.inbox] at hAfter
      have hPlaced : placed.At after := hAfter
      obtain ⟨before, hBefore, hOther, hChosen⟩ := at_changeAll (hApplied.grows.sameAll.at_iff.mp hPlaced)
      rw [hIds] at hOther hChosen
      exact ⟨before, hBefore, hOther, fun item hItem => hChosen item.id (List.mem_map_of_mem hItem)⟩ }

/-! Repeated requests. -/

namespace Session

/-- The items of the committed inbox of a conversation. -/
def inbox (session : Session) (conversationId : Nat) : List InboxItem :=
  session.begin.inbox conversationId

/-- The admission that a known submission gets. -/
def known (record : SubmissionRecord) : Admission :=
  { id := record.id, status := if record.status = .unanswered then .done else record.status }

variable {session : Session} {conversationId : Nat} {draft : SubmissionDraft} {requestId : JsString}

section

variable {id : Nat} {record : SubmissionRecord} (hAgrees : session.Agrees)
    (hRecord : session.submissions.lookup id = some record) (hRequest : record.requestId = some requestId)

include hAgrees hRecord hRequest

theorem Agrees.submissionByRequest
    :
    session.begin.submissionByRequest record.conversationId requestId = .ok (some record) := by
  show Except.ok _ = _
  congr 1
  rw [Option.map_eq_some_iff]
  have hMem := mem_of_lookup hRecord
  cases hFind : session.submissions.find? fun row =>
      decide (row.2.conversationId = record.conversationId ∧ row.2.requestId = some requestId) with
  | none =>
    have hNot := List.find?_eq_none.mp hFind (id, record) hMem
    exact absurd (decide_eq_true ⟨rfl, hRequest⟩) hNot
  | some row =>
    have hHolds := List.find?_some hFind
    obtain ⟨hConversation, hSame⟩ := of_decide_eq_true hHolds
    have hRow : session.submissions.lookup row.1 = some row.2 :=
      (lookup_eq_some_iff hAgrees.bounded.table row.1 row.2).mpr (List.mem_of_find?_eq_some hFind)
    have hConserved := hAgrees.conserved _ (at_begin session)
    have hOne : id = row.1 := hConserved.requests id row.1 record row.2 hRecord hRow hConversation.symm
      (hRequest.trans hSame.symm) (by simp [hRequest])
    rw [← hOne, hRecord] at hRow
    exact ⟨row, hFind, (Option.some.inj hRow).symm⟩

theorem Agrees.repeated (hDraft : draft.requestId = some requestId) (hCheck : checkDraft draft = .ok ())
    (hType : record.type = draft.type) (now : Nat) (modes : QueueModes) (head : Option Nat) :
    admitOne session.begin record.conversationId draft now modes head = .ok (known record, session.begin) := by
  have hFind : findRequest session.begin record.conversationId draft = .ok (some (known record)) := by
    rw [findRequest, Outcome.bind_eq_ok]
    refine ⟨(), hCheck, ?_⟩
    simp only [hDraft, Outcome.bind_eq_ok]
    refine ⟨some record, hAgrees.submissionByRequest hRecord hRequest, ?_⟩
    simp only [hType, ne_eq, not_true_eq_false, if_false]
    rfl
  rw [admitOne, if_neg (by simp [Session.begin]), admitSubmission, Outcome.bind_eq_ok]
  exact ⟨_, hFind, rfl⟩

theorem Agrees.mistyped (hDraft : draft.requestId = some requestId) (hCheck : checkDraft draft = .ok ())
    (hType : record.type ≠ draft.type) (now : Nat) (modes : QueueModes) (head : Option Nat) :
    admitOne session.begin record.conversationId draft now modes head = .error (.requestType requestId record.type) := by
  have hFind : findRequest session.begin record.conversationId draft = .error (.requestType requestId record.type) := by
    rw [findRequest, hCheck]
    simp only [hDraft, hAgrees.submissionByRequest hRecord hRequest]
    exact if_pos hType
  rw [admitOne, if_neg (by simp [Session.begin]), admitSubmission, hFind]
  rfl

end

/-- What holds of the submissions and inboxes of a committed state. -/
structure Conserves (session : Session) : Prop where
  /-- A submission is queued exactly when its item is in the inbox of its conversation. -/
  queued_iff : ∀ id record, session.submissions.lookup id = some record →
    (record.status = .queued ↔ ∃ item ∈ session.inbox record.conversationId, item.id = id)
  /-- An item is there for a submission of the conversation. -/
  items : ∀ conversationId, ∀ item ∈ session.inbox conversationId,
    ∃ record, session.submissions.lookup item.id = some record ∧ record.conversationId = conversationId
  /-- Items are in the order of ids, so none is there twice. -/
  ordered : ∀ conversationId, (session.inbox conversationId).Pairwise fun first second => first.id < second.id
  /-- A settled submission stays what it is. -/
  settled : ∀ commits id record, session.submissions.lookup id = some record → record.isSettled = true →
    (session.run commits).submissions.lookup id = some record
  /-- A conversation has at most one submission for a request. -/
  requests : ∀ id other record second, session.submissions.lookup id = some record →
    session.submissions.lookup other = some second → record.conversationId = second.conversationId →
    record.requestId = second.requestId → record.requestId ≠ none → id = other
  /-- A repeated request gets the submission it made and writes nothing, or is refused for its type. -/
  repeated : ∀ id record requestId draft now modes head, session.submissions.lookup id = some record →
    record.requestId = some requestId → draft.requestId = some requestId → checkDraft draft = .ok () →
    admitOne session.begin record.conversationId draft now modes head =
      if record.type = draft.type then .ok ({ known record with id }, session.begin)
      else .error (.requestType requestId record.type)

theorem Agrees.conserves (hAgrees : session.Agrees) : session.Conserves := by
  have hConserved := hAgrees.conserved _ (at_begin session)
  exact {
    queued_iff := by
      intro id record hRecord
      constructor
      · exact hConserved.listed id record hRecord
      · rintro ⟨item, hItem, rfl⟩
        obtain ⟨found, hFound, -, hQueued⟩ := hConserved.queued record.conversationId item hItem
        rw [hRecord] at hFound
        rw [Option.some.inj hFound]
        exact hQueued
    items := by
      intro conversationId item hItem
      obtain ⟨found, hFound, hConversation, -⟩ := hConserved.queued conversationId item hItem
      exact ⟨found, hFound, hConversation⟩
    ordered := hAgrees.bounded.ordered
    settled := by
      intro commits id record hRecord hSettled
      obtain ⟨kept, hKept, hSame⟩ := (hAgrees.run commits).2 id record hRecord
      rw [hKept, hSame.settled hSettled]
    requests := hConserved.requests
    repeated := by
      intro id record requestId draft now modes head hRecord hRequest hDraft hCheck
      have hId : record.id = id := hConserved.own id record hRecord
      by_cases hType : record.type = draft.type
      · rw [if_pos hType, hAgrees.repeated hRecord hRequest hDraft hCheck hType, ← hId]
        rfl
      · rw [if_neg hType]
        exact hAgrees.mistyped hRecord hRequest hDraft hCheck hType now modes head }

end Session

/-- An input with a request, and then a write with the same one. -/
def reusedRequest : List Commit :=
  [.createConversation,
   .submit [{ conversationId := 1, draft := .input (.str (js "hi")) none .followUp false (some (js "r")), now := 0,
              modes := { steeringMode := .all, followUpMode := .all }, head := none }] []]

/-- A second input waits for the run of the first. -/
def queuedInput : List Commit :=
  reusedRequest ++
    [.submit [{ conversationId := 1, draft := .input (.str (js "more")) none .steer false none, now := 1,
                modes := { steeringMode := .all, followUpMode := .all }, head := none }] []]

end OctoberHarness.Inbox
