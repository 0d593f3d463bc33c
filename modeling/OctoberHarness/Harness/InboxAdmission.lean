import OctoberHarness.Harness.InboxRuns

/-! Admissions and aborts keep submissions and inboxes in agreement. -/
namespace OctoberHarness.Inbox

open Option

open Storage (SubmissionStatus)

theorem removeInboxItem_eq (tx : Tx) {conversationId : Nat} {item : InboxItem} (hItem : item ∈ tx.inbox conversationId)
    (hOrdered : (tx.inbox conversationId).Pairwise fun first second => first.id < second.id) :
    removeInboxItem tx conversationId item.id =
      tx.setInbox conversationId ((tx.inbox conversationId).filter fun other => decide (other.id ≠ item.id)) := by
  rw [removeInboxItem]
  cases hFind : (tx.inbox conversationId).findIdx? fun other => decide (other.id = item.id) with
  | none =>
    have hNot := List.findIdx?_eq_none_iff.mp hFind item hItem
    simp at hNot
  | some index =>
    obtain ⟨hBound, hSame, -⟩ := List.findIdx?_eq_some_iff_getElem.mp hFind
    have hAt : (tx.inbox conversationId)[index]? = some (tx.inbox conversationId)[index] := List.getElem?_eq_getElem hBound
    have hErase := Positions.eraseIdx_eq_filter (hOrdered.imp ne_of_lt) hAt
    rw [of_decide_eq_true hSame] at hErase
    simp only
    rw [hErase]

section Admission

variable {start : List (Nat × SubmissionRecord)} {tx grown : Tx} {conversationId now : Nat}

theorem Tx.At.of_quiet {view : Nat → Option SubmissionRecord} (hAt : tx.At view) (hBounded : Bounded tx)
    (hQuiet : tx.hasTableWrite = false) : view = fun id => tx.base.submissions.lookup id := by
  obtain ⟨hStaged, hChanges⟩ := hBounded.quiet hQuiet
  obtain ⟨staged, hAssemble, rfl⟩ := hAt
  rw [Tx.assemble, hStaged, hChanges] at hAssemble
  obtain rfl : [] = staged := by simpa [pure, Except.pure] using hAssemble
  rfl

theorem Tx.at_quiet (hBounded : Bounded tx) (hQuiet : tx.hasTableWrite = false) :
    tx.At fun id => tx.base.submissions.lookup id := by
  obtain ⟨hStaged, hChanges⟩ := hBounded.quiet hQuiet
  exact ⟨[], by rw [Tx.assemble, hStaged, hChanges]; rfl, rfl⟩

theorem Free.of_unknown (hBounded : Bounded tx) {requestId : JsString}
    (hFind : tx.submissionByRequest conversationId requestId = .ok none) : Free tx conversationId (some requestId) := by
  intro _ view hAt id record hRecord hConversation hRequest
  have hQuiet : tx.hasTableWrite = false := by
    by_contra hWrite
    rw [Tx.submissionByRequest, Tx.read, if_pos (by simpa using hWrite)] at hFind
    cases hFind
  rw [Tx.submissionByRequest, Tx.read, if_neg (by simp [hQuiet])] at hFind
  have hNone := map_eq_none_iff.mp (Except.ok.inj hFind)
  rw [hAt.of_quiet hBounded hQuiet] at hRecord
  have hMem := OrderedMap.mem_of_lookup hRecord
  have hNot := List.find?_eq_none.mp hNone (id, record) hMem
  exact hNot (decide_eq_true ⟨hConversation, hRequest⟩)

variable {draft : SubmissionDraft} {admission : Admission}

theorem Free.of_findRequest (hBounded : Bounded tx)
    (hFind : findRequest tx conversationId draft = .ok none) : Free tx conversationId draft.requestId := by
  rw [findRequest, Outcome.bind_eq_ok] at hFind
  obtain ⟨-, -, hFind⟩ := hFind
  cases hRequest : draft.requestId with
  | none => exact fun hSome => absurd rfl hSome
  | some requestId =>
    simp only [hRequest, Outcome.bind_eq_ok] at hFind
    obtain ⟨existing, hRead, hFind⟩ := hFind
    cases existing with
    | none => exact Free.of_unknown hBounded hRead
    | some existing =>
      by_cases hType : existing.type ≠ draft.type
      · simp only [if_pos hType] at hFind
        cases hFind
      · simp only [if_neg hType] at hFind
        cases Except.ok.inj hFind

variable {requestId : Option JsString}

theorem Good.admitWrite (hGood : Good start tx) {entry : EntryDraft} (hFree : Free tx conversationId requestId)
    (hAdmit : Inbox.admitWrite tx conversationId entry requestId = .ok (admission, grown)) : Good start grown := by
  rw [Inbox.admitWrite, Outcome.bind_eq_ok] at hAdmit
  obtain ⟨⟨entryId, next⟩, hAppend, hAdmit⟩ := hAdmit
  rw [Outcome.bind_eq_ok] at hAdmit
  obtain ⟨⟨id, created⟩, hCreate, hAdmit⟩ := hAdmit
  obtain ⟨-, rfl⟩ := Prod.mk.inj (Except.ok.inj hAdmit)
  have hNext := (Sound.appendEntry hAppend hGood).1
  apply hNext.create_placed hCreate (fun _ => rfl) _ fun _ => by simp
  exact hFree.same (Changes.appendEntry hAppend).sameSubmissions

theorem Good.admitQueued (hGood : Good start tx) {boundary : Option Boundary}
    (hFree : Free tx conversationId draft.requestId) (hQueues : ∀ id, (itemOf id draft).isSome)
    (hAdmit : Inbox.admitQueued tx conversationId draft boundary now = .ok (admission, grown)) : Good start grown := by
  rw [Inbox.admitQueued, Outcome.bind_eq_ok] at hAdmit
  obtain ⟨⟨id, created⟩, hCreate, hAdmit⟩ := hAdmit
  obtain rfl : id = tx.nextId := by
    rw [Tx.createSubmission] at hCreate
    simp only [Outcome.bind_eq_ok, Except.ok.injEq, Prod.mk.injEq] at hCreate
    exact hCreate.choose_spec.2.1.symm
  have hItem : ∀ item ∈ (itemOf tx.nextId draft).toList, item.id = tx.nextId := by
    intro item hItem
    rw [mem_toList] at hItem
    cases draft with
    | input content entry whenBusy rejectIdle requestId =>
      cases whenBusy <;> (rw [itemOf] at hItem; rw [← some.inj hItem]) <;> simp
    | write entry requestId => rw [← some.inj hItem]
    | «continue» requestId => cases hItem
  have hSome : (itemOf tx.nextId draft).toList ≠ [] := by
    obtain ⟨item, hSome⟩ := isSome_iff_exists.mp (hQueues tx.nextId)
    rw [hSome]
    exact List.cons_ne_nil _ _
  obtain ⟨-, hQueued⟩ := hGood.create hCreate (fun _ => rfl) hFree hItem (length_toList_le) ⟨fun _ => rfl, fun _ => hSome⟩
  cases boundary with
  | none =>
    obtain ⟨-, rfl⟩ := Prod.mk.inj (Except.ok.inj hAdmit)
    exact hQueued
  | some boundary =>
    simp only [Outcome.bind_eq_ok] at hAdmit
    obtain ⟨⟨result, last⟩, hApply, hAdmit⟩ := hAdmit
    obtain ⟨-, rfl⟩ := Prod.mk.inj (Except.ok.inj hAdmit)
    obtain ⟨hDone, hUsers, -⟩ := hQueued.boundary hApply
    exact hDone.startNext conversationId hUsers

theorem Good.admitContinue (hGood : Good start tx) {id : Nat} {created : Tx} {boundary : Boundary}
    {result : BoundaryResult} (hFree : Free tx conversationId requestId)
    (hCreate : tx.createSubmission (fun id =>
      { id, conversationId, requestId, type := .continue, status := .placed }) = .ok (id, created))
    (hApply : Inbox.applyBoundary created boundary .final now = .ok (result, grown)) :
    Good start (Inbox.startRun grown conversationId (result.users ++ [id])) := by
  have hCreated := hGood.create_placed hCreate (fun _ => rfl) hFree fun _ => by simp
  have hPlaced := hGood.bounded.placed_create hCreate (by simp)
  obtain ⟨hDone, hUsers, hKeep⟩ := hCreated.boundary hApply
  refine (hDone.startRun conversationId fun input hInput => ?_).1
  rcases List.mem_append.mp hInput with hUser | hSelf
  · exact hUsers input hUser
  · rw [List.mem_singleton.mp hSelf]
    exact hKeep id hPlaced

variable {modes : QueueModes}

theorem Good.admitSubmission (hGood : Good start tx) {head : Option Nat}
    (hAdmit : Inbox.admitSubmission tx conversationId draft now modes head = .ok (admission, grown)) : Good start grown := by
  rw [Inbox.admitSubmission, Outcome.bind_eq_ok] at hAdmit
  obtain ⟨found, hFind, hAdmit⟩ := hAdmit
  cases found with
  | some known =>
    obtain ⟨-, rfl⟩ := Prod.mk.inj (Except.ok.inj hAdmit)
    exact hGood
  | none =>
    have hFree := Free.of_findRequest hGood.bounded hFind
    simp only at hAdmit
    generalize hBusy : (tx.run conversationId).isSome = busy at hAdmit
    cases draft with
    | «continue» requestId =>
      simp only at hAdmit
      by_cases h : busy = true
      · rw [if_pos h] at hAdmit
        cases hAdmit
      · simp only [if_neg h, Outcome.bind_eq_ok] at hAdmit
        obtain ⟨boundary, -, ⟨id, created⟩, hCreate, ⟨result, last⟩, hApply, hAdmit⟩ := hAdmit
        obtain ⟨-, rfl⟩ := Prod.mk.inj (Except.ok.inj hAdmit)
        exact hGood.admitContinue hFree hCreate hApply
    | write entry requestId =>
      simp only at hAdmit
      by_cases hDisplay : isDisplayOnly entry = true ∧ hasQueuedReset (tx.inbox conversationId) = false
      · rw [if_pos hDisplay] at hAdmit
        exact hGood.admitWrite hFree hAdmit
      · rw [if_neg hDisplay] at hAdmit
        by_cases h : busy = true
        · rw [if_pos h] at hAdmit
          exact hGood.admitQueued hFree (fun _ => rfl) hAdmit
        · simp only [if_neg h, Outcome.bind_eq_ok] at hAdmit
          obtain ⟨boundary, -, hAdmit⟩ := hAdmit
          by_cases hItems : tx.inbox conversationId ≠ []
          · rw [if_pos hItems] at hAdmit
            exact hGood.admitQueued hFree (fun _ => rfl) hAdmit
          · rw [if_neg hItems] at hAdmit
            by_cases hStale : isStale boundary entry = true
            · simp only [if_pos hStale, Outcome.bind_eq_ok] at hAdmit
              obtain ⟨⟨id, created⟩, hCreate, hAdmit⟩ := hAdmit
              obtain ⟨-, rfl⟩ := Prod.mk.inj (Except.ok.inj hAdmit)
              exact hGood.create_placed hCreate (fun _ => rfl) hFree fun _ => by simp
            · rw [if_neg hStale] at hAdmit
              exact hGood.admitWrite hFree hAdmit
    | input content entry whenBusy rejectIdle requestId =>
      simp only at hAdmit
      by_cases hReject : busy = true ∧ whenBusy = .reject
      · rw [if_pos hReject] at hAdmit
        cases hAdmit
      · rw [if_neg hReject] at hAdmit
        by_cases hIdle : ¬busy = true ∧ rejectIdle = true
        · rw [if_pos hIdle] at hAdmit
          cases hAdmit
        · rw [if_neg hIdle] at hAdmit
          have hQueues : ∀ id, (itemOf id (.input content entry whenBusy rejectIdle requestId)).isSome := by
            intro id
            cases whenBusy <;> rfl
          by_cases h : busy = true
          · rw [if_pos h] at hAdmit
            exact hGood.admitQueued hFree hQueues hAdmit
          · simp only [if_neg h, Outcome.bind_eq_ok] at hAdmit
            obtain ⟨boundary, -, hAdmit⟩ := hAdmit
            by_cases hItems : tx.inbox conversationId ≠ []
            · rw [if_pos hItems] at hAdmit
              exact hGood.admitQueued hFree hQueues hAdmit
            · simp only [if_neg hItems, Outcome.bind_eq_ok] at hAdmit
              obtain ⟨⟨entryId, next⟩, hAppend, ⟨id, created⟩, hCreate, hAdmit⟩ := hAdmit
              obtain ⟨-, rfl⟩ := Prod.mk.inj (Except.ok.inj hAdmit)
              have hSame := (Changes.appendInput hAppend).sameSubmissions
              have hNext := (Sound.of_changes (Changes.appendInput hAppend) hGood).1
              have hPlaced := hNext.bounded.placed_create hCreate (by simp)
              have hCreated := hNext.create_placed hCreate (fun _ => rfl) (hFree.same hSame) fun _ => by simp
              refine (hCreated.startRun conversationId fun input hInput => ?_).1
              rw [List.mem_singleton.mp hInput]
              exact hPlaced

theorem Good.admitOne (hGood : Good start tx) {head : Option Nat}
    (hAdmit : Inbox.admitOne tx conversationId draft now modes head = .ok (admission, grown)) :
    Good start grown := by
  rw [Inbox.admitOne] at hAdmit
  split_ifs at hAdmit
  exact hGood.admitSubmission hAdmit

theorem Good.admitAll (hGood : Good start tx) {admissions : List Admit} (hAdmit : Inbox.admitAll tx admissions = .ok grown) :
    Good start grown := by
  induction admissions generalizing tx with
  | nil =>
    obtain rfl := Except.ok.inj hAdmit
    exact hGood
  | cons next rest ih =>
    rw [Inbox.admitAll, Outcome.bind_eq_ok] at hAdmit
    obtain ⟨⟨admission, admitted⟩, hOne, hRest⟩ := hAdmit
    exact ih (hGood.admitOne hOne) hRest

theorem Good.abort (hGood : Good start tx) {id : Nat} {expected : Option Nat} {result : AbortResult}
    (hAbort : Inbox.abort tx id expected = .ok (result, grown)) : Good start grown := by
  rw [Inbox.abort, Outcome.bind_eq_ok] at hAbort
  obtain ⟨found, hRead, hAbort⟩ := hAbort
  cases found with
  | none =>
    obtain ⟨-, rfl⟩ := Prod.mk.inj (Except.ok.inj hAbort)
    exact hGood
  | some record =>
    simp only at hAbort
    by_cases hOther : (expected.any fun expected => decide (record.conversationId ≠ expected)) = true
    · rw [if_pos hOther] at hAbort
      obtain ⟨-, rfl⟩ := Prod.mk.inj (Except.ok.inj hAbort)
      exact hGood
    · rw [if_neg hOther] at hAbort
      by_cases hQueued : record.status = .queued
      · rw [if_pos hQueued] at hAbort
        obtain ⟨-, rfl⟩ := Prod.mk.inj (Except.ok.inj hAbort)
        have hQuiet : tx.hasTableWrite = false := by
          by_contra hWrite
          rw [Tx.submission, Tx.read, if_pos (by simpa using hWrite)] at hRead
          cases hRead
        rw [Tx.submission, Tx.read, if_neg (by simp [hQuiet])] at hRead
        obtain ⟨item, hItem, hId⟩ := (hGood.conserved _ (Tx.at_quiet hGood.bounded hQuiet)).listed id record
          (Except.ok.inj hRead) hQueued
        have hTaken := hGood.take hItem (.settled (.unanswered (js "aborted")))
        have hRemoved := removeInboxItem_eq (tx.settleSubmission id (.unanswered (js "aborted"))) hItem
          (hGood.bounded.ordered record.conversationId)
        rw [hId] at hTaken hRemoved
        rw [hRemoved]
        exact hTaken
      · rw [if_neg hQueued] at hAbort
        obtain ⟨-, rfl⟩ := Prod.mk.inj (Except.ok.inj hAbort)
        exact hGood

end Admission

end OctoberHarness.Inbox
