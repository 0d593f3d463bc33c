import OctoberHarness.Harness.InboxBoundary

/-! Every part of a commit keeps submissions and inboxes in agreement. -/
namespace OctoberHarness.Inbox

open List

open Storage (SubmissionStatus)

/-- From a good transaction to a good one, in which what was placed stays so. -/
def Sound (tx grown : Tx) : Prop :=
  ∀ ⦃start⦄, Good start tx → Good start grown ∧ ∀ id, Placed tx id → Placed grown id

theorem Sound.refl (tx : Tx) : Sound tx tx :=
  fun _ hGood => ⟨hGood, fun _ hPlaced => hPlaced⟩

theorem Sound.trans {first second third : Tx} (hFirst : Sound first second) (hSecond : Sound second third) :
    Sound first third := by
  intro start hGood
  obtain ⟨hMiddle, hOne⟩ := hFirst hGood
  obtain ⟨hLast, hTwo⟩ := hSecond hMiddle
  exact ⟨hLast, fun id hPlaced => hTwo id (hOne id hPlaced)⟩

section Frames

variable {start : List (Nat × SubmissionRecord)} {tx grown : Tx}

theorem Sound.frame (hSame : SameSubmissions tx grown) (hInbox : grown.inbox = tx.inbox) (hRun : grown.run = tx.run) :
    Sound tx grown :=
  fun _ hGood => ⟨hGood.frame hSame hInbox hRun, fun _ hPlaced => hPlaced.same hSame⟩

theorem Changes.sameSubmissions (hChanges : Changes tx grown []) : SameSubmissions tx grown :=
  ⟨hChanges.base, hChanges.submissions, hChanges.changes.trans (append_nil _), hChanges.nextId,
    fun hQuiet => (hChanges.hasTableWrite hQuiet).1⟩

theorem Sound.of_changes (hChanges : Changes tx grown []) : Sound tx grown :=
  Sound.frame hChanges.sameSubmissions hChanges.inbox hChanges.run

theorem Sound.appendEntry {conversationId entry : Nat} {draft : EntryDraft}
    (hAppend : tx.appendEntry conversationId draft = .ok (entry, grown)) : Sound tx grown :=
  Sound.of_changes (Changes.appendEntry hAppend)

theorem Sound.appendAll {drafts : List (Nat × EntryDraft)} (hAppend : appendAll tx drafts = .ok grown) : Sound tx grown := by
  induction drafts generalizing tx with
  | nil =>
    obtain rfl := Except.ok.inj hAppend
    exact Sound.refl tx
  | cons draft rest ih =>
    rw [Inbox.appendAll, Outcome.bind_eq_ok] at hAppend
    obtain ⟨⟨entry, next⟩, hFirst, hRest⟩ := hAppend
    exact (Sound.appendEntry hFirst).trans (ih hRest)

end Frames

section Operations

variable {start : List (Nat × SubmissionRecord)} (tx : Tx) (conversationId taskId : Nat)

theorem Sound.createConversation : Sound tx tx.createConversation :=
  Sound.frame ⟨rfl, rfl, rfl, Nat.le_succ _, fun h => by cases h⟩ rfl rfl

theorem Sound.createTask : Sound tx tx.createTask.2 :=
  Sound.frame ⟨rfl, rfl, rfl, Nat.le_succ _, fun h => by cases h⟩ rfl rfl

theorem Sound.deleteRun : Sound tx (tx.deleteRun conversationId) :=
  fun _ hGood => ⟨hGood.deleteRun conversationId, fun _ hPlaced => hPlaced.same (SameSubmissions.deleteRun tx conversationId)⟩

variable {tx conversationId taskId}

theorem Good.setRun_sound (hGood : Good start tx) (conversationId : Nat) (live : LiveRun) (hInputs : ∀ id ∈ live.inputs, Placed tx id) :
    Good start (tx.setRun conversationId live) ∧ ∀ id, Placed tx id → Placed (tx.setRun conversationId live) id :=
  ⟨hGood.setRun conversationId hInputs, fun _ hPlaced => hPlaced.same (SameSubmissions.setRun tx conversationId live)⟩

theorem Good.settleAll (ids : List Nat) (hGood : Good start tx) (hPlaced : ∀ id ∈ ids, Placed tx id) (settlement : SubmissionSettlement) :
    Good start (settleAll tx ids settlement) ∧ ∀ id, Placed tx id → Placed (Inbox.settleAll tx ids settlement) id := by
  induction ids generalizing tx with
  | nil => exact ⟨hGood, fun _ h => h⟩
  | cons id rest ih =>
    have hNext := hGood.change (hPlaced id mem_cons_self) (.settled settlement)
    have hKeep := fun other (hOther : Placed tx other) => hOther.change id (.settled settlement)
    obtain ⟨hLast, hAll⟩ := ih hNext fun other hOther => hKeep other (hPlaced other (mem_cons_of_mem _ hOther))
    exact ⟨hLast, fun other hOther => hAll other (hKeep other hOther)⟩

theorem Sound.endRun (tx : Tx) (conversationId taskId : Nat) (runEnd : RunEnd) :
    Sound tx (endRun tx conversationId taskId runEnd) := by
  intro start hGood
  rw [Inbox.endRun]
  cases hLive : tx.run conversationId with
  | none => exact ⟨hGood, fun _ h => h⟩
  | some live =>
    by_cases hTask : live.taskId ≠ taskId
    · simp only [if_pos hTask]
      exact ⟨hGood, fun _ h => h⟩
    · simp only [if_neg hTask]
      have hInputs : ∀ id ∈ live.inputs, Placed tx id := fun id hId => hGood.placed_inputs hLive hId
      obtain ⟨hSettled, hKeep⟩ := hGood.settleAll live.inputs hInputs runEnd.settlement
      have hStep : ∀ settles : Bool, Good start
          ((if settles then settleAll tx live.inputs runEnd.settlement else tx).deleteRun conversationId) ∧
          ∀ id, Placed tx id → Placed
            ((if settles then settleAll tx live.inputs runEnd.settlement else tx).deleteRun conversationId) id := by
        intro settles
        cases settles with
        | false => exact Sound.deleteRun tx conversationId hGood
        | true =>
          obtain ⟨hDone, hAll⟩ := Sound.deleteRun _ conversationId hSettled
          exact ⟨hDone, fun id h => hAll id (hKeep id h)⟩
      exact hStep _

theorem Sound.holdRun {answer : Nat} {held : Tx} (hHold : holdRun tx conversationId taskId answer = some held) :
    Sound tx held := by
  intro start hGood
  rw [Inbox.holdRun] at hHold
  cases hLive : tx.run conversationId with
  | none =>
    simp only [hLive] at hHold
    cases hHold
  | some live =>
    simp only [hLive] at hHold
    by_cases hTask : live.taskId ≠ taskId
    · rw [if_pos hTask] at hHold
      cases hHold
    · rw [if_neg hTask] at hHold
      obtain rfl := Option.some.inj hHold
      have hInputs : ∀ id ∈ live.inputs, Placed tx id := fun id hId => hGood.placed_inputs hLive hId
      obtain ⟨hSettled, hKeep⟩ := hGood.settleAll live.inputs hInputs (.done answer)
      have hNone : ∀ id ∈ ({ live with inputs := [], afterRun := true } : LiveRun).inputs,
          Placed (settleAll tx live.inputs (.done answer)) id := by simp
      obtain ⟨hDone, hAll⟩ := hSettled.setRun_sound conversationId _ hNone
      exact ⟨hDone, fun id h => hAll id (hKeep id h)⟩

theorem Good.startRun (hGood : Good start tx) (conversationId : Nat) {inputs : List Nat} (hInputs : ∀ id ∈ inputs, Placed tx id) :
    Good start (startRun tx conversationId inputs) ∧ ∀ id, Placed tx id → Placed (Inbox.startRun tx conversationId inputs) id := by
  obtain ⟨hTask, hKeep⟩ := Sound.createTask tx hGood
  obtain ⟨hDone, hAll⟩ := hTask.setRun_sound conversationId { taskId := tx.createTask.1, inputs }
    fun id hId => hKeep id (hInputs id hId)
  exact ⟨hDone, fun id h => hAll id (hKeep id h)⟩

theorem Good.startNext (hGood : Good start tx) (conversationId : Nat) {users : List Nat} (hUsers : ∀ id ∈ users, Placed tx id) :
    Good start (startNext tx conversationId users) := by
  rw [Inbox.startNext]
  split_ifs
  · exact hGood
  · exact (hGood.startRun conversationId hUsers).1

theorem Sound.handOver (tx : Tx) (conversationId taskId : Nat) : Sound tx (handOver tx conversationId taskId) := by
  intro start hGood
  obtain ⟨hTask, hKeep⟩ := Sound.createTask tx hGood
  rw [Inbox.handOver]
  cases hLive : tx.createTask.2.run conversationId with
  | none =>
    simp only [hLive]
    exact ⟨hTask, hKeep⟩
  | some live =>
    simp only [hLive]
    by_cases hSame : live.taskId = taskId
    · rw [if_pos hSame]
      obtain ⟨hDone, hAll⟩ := hTask.setRun_sound conversationId
        { live with taskId := tx.createTask.1 } fun id hId => hTask.placed_inputs hLive hId
      exact ⟨hDone, fun id h => hAll id (hKeep id h)⟩
    · rw [if_neg hSame]
      exact ⟨hTask, hKeep⟩

theorem Good.pushInputs (hGood : Good start tx) (conversationId taskId : Nat) {users : List Nat}
    (hUsers : ∀ id ∈ users, Placed tx id) : Good start (pushInputs tx conversationId taskId users) := by
  rw [Inbox.pushInputs]
  cases hLive : tx.run conversationId with
  | none => exact hGood
  | some live =>
    simp only
    by_cases hSame : live.taskId = taskId
    · rw [if_pos hSame]
      apply hGood.setRun
      intro id hId
      rcases List.mem_append.mp hId with hOld | hNew
      · exact hGood.placed_inputs hLive hOld
      · exact hUsers id hNew
    · rw [if_neg hSame]
      exact hGood

end Operations

theorem withdrawItems_spec (tx : Tx) (reason : JsString) (items : List InboxItem) :
    ∃ changes, Changes tx (withdrawItems tx reason items).1 changes ∧
      changes.map Prod.fst = ((items.filter fun item => !item.isWrite).map InboxItem.id).reverse ∧
      (withdrawItems tx reason items).2 = items.filter InboxItem.isWrite := by
  induction items with
  | nil => exact ⟨[], Changes.refl tx, rfl, rfl⟩
  | cons item rest ih =>
    obtain ⟨changes, hChanges, hIds, hKept⟩ := ih
    simp only [withdrawItems]
    by_cases hWrite : item.isWrite = true
    · rw [if_pos hWrite, filter_cons_of_pos hWrite, filter_cons_of_neg (by simp [hWrite])]
      exact ⟨changes, hChanges, hIds, congrArg (item :: ·) hKept⟩
    · rw [if_neg hWrite, filter_cons_of_neg hWrite, filter_cons_of_pos (by simp [hWrite])]
      refine ⟨_, hChanges.trans (Changes.change _ item.id _), ?_, hKept⟩
      rw [map_append, hIds]
      simp

theorem filter_inputs {items : List InboxItem} (hOrdered : items.Pairwise fun first second => first.id < second.id) :
    (items.filter fun item => decide (item.id ∉ ((items.filter fun other => !other.isWrite).map InboxItem.id).reverse)) =
      items.filter InboxItem.isWrite := by
  have hInjective : ∀ item ∈ items, ∀ other ∈ items, item.id = other.id → item = other := by
    have hKeys : (items.map InboxItem.id).Nodup := List.pairwise_map.mpr (hOrdered.imp ne_of_lt)
    exact fun item hItem other hOther hSame => inj_on_of_nodup_map hKeys hItem hOther hSame
  refine filter_congr fun item hItem => ?_
  rw [Bool.eq_iff_iff, decide_eq_true_eq, mem_reverse, mem_map]
  constructor
  · intro hKept
    by_contra hInput
    exact hKept ⟨item, List.mem_filter.mpr ⟨hItem, by simpa using hInput⟩, rfl⟩
  · rintro hWrite ⟨other, hOther, hSame⟩
    obtain ⟨hIn, hInput⟩ := List.mem_filter.mp hOther
    rw [hInjective other hIn item hItem hSame, hWrite] at hInput
    cases hInput

theorem Sound.withdraw (tx : Tx) (conversationId : Nat) (reason : JsString) :
    Sound tx (withdrawQueuedInputs tx conversationId reason) := by
  intro start hGood
  have hOrdered := hGood.bounded.ordered conversationId
  obtain ⟨changes, hChanges, hIds, hKept⟩ := withdrawItems_spec tx reason (tx.inbox conversationId)
  have hItems : ∀ change ∈ changes, ∃ item ∈ tx.inbox conversationId, item.id = change.1 := by
    intro change hChange
    have hMem : change.1 ∈ changes.map Prod.fst := mem_map_of_mem hChange
    rw [hIds, mem_reverse] at hMem
    obtain ⟨item, hItem, hId⟩ := List.mem_map.mp hMem
    exact ⟨item, (List.mem_filter.mp hItem).1, hId⟩
  have hNodup : (changes.map Prod.fst).Nodup := by
    rw [hIds, nodup_reverse]
    exact List.pairwise_map.mpr ((hOrdered.filter _).imp ne_of_lt)
  obtain ⟨hDone, -⟩ := hGood.takeChanges hChanges hItems hNodup
  rw [hIds, filter_inputs hOrdered, ← hKept] at hDone
  exact ⟨hDone, fun id hPlaced => (hPlaced.grow hChanges).same (SameSubmissions.setInbox ..)⟩

/-! The ends of runs. -/

section Ends

variable {start : List (Nat × SubmissionRecord)} {tx grown : Tx} {conversationId taskId now : Nat}

variable {result : BoundaryResult} {kind : BoundaryKind}

theorem Good.boundary (hGood : Good start tx) {boundary : Boundary}
    (hApply : Inbox.applyBoundary tx boundary kind now = .ok (result, grown)) :
    Good start grown ∧ (∀ id ∈ result.users, Placed grown id) ∧ ∀ id, Placed tx id → Placed grown id := by
  obtain ⟨hDone, hUsers⟩ := hGood.applyBoundary hApply
  exact ⟨hDone, hUsers, fun id hPlaced => hPlaced.applyBoundary hApply⟩

theorem Good.next (hGood : Good start tx) {boundary : Boundary} {runEnd : RunEnd}
    (hApply : Inbox.applyBoundary tx boundary kind now = .ok (result, grown)) :
    Good start (Inbox.startNext (endRun grown conversationId taskId runEnd) conversationId result.users) := by
  obtain ⟨hDone, hUsers, -⟩ := hGood.boundary hApply
  obtain ⟨hEnded, hKeep⟩ := Sound.endRun grown conversationId taskId runEnd hDone
  exact hEnded.startNext conversationId fun id hId => hKeep id (hUsers id hId)

variable {policy : AfterFailedRun}

theorem Good.endFailedRun (hGood : Good start tx) {boundary : Option Boundary} {runEnd : RunEnd}
    (hEnd : Inbox.endFailedRun tx conversationId taskId policy boundary runEnd now = .ok grown) : Good start grown := by
  rw [Inbox.endFailedRun.eq_def] at hEnd
  obtain ⟨hEnded, -⟩ := Sound.endRun tx conversationId taskId runEnd hGood
  have hWithdrawn : Good start (if policy = .withdraw then
      withdrawQueuedInputs (endRun tx conversationId taskId runEnd) conversationId (js "run_failed")
      else endRun tx conversationId taskId runEnd) := by
    split_ifs
    · exact (Sound.withdraw _ conversationId _ hEnded).1
    · exact hEnded
  cases boundary with
  | none =>
    obtain rfl := Except.ok.inj hEnd
    exact hWithdrawn
  | some boundary =>
    simp only [Outcome.bind_eq_ok] at hEnd
    obtain ⟨⟨result, next⟩, hApply, hGrown⟩ := hEnd
    obtain rfl := Except.ok.inj hGrown
    obtain ⟨hDone, hUsers, -⟩ := hWithdrawn.boundary hApply
    exact hDone.startNext conversationId hUsers

variable {modes : QueueModes} {head : Option Nat}

theorem Good.answer (hGood : Good start tx) {message : EntryDraft} {continuation : Option EntryDraft} {afterRun : Bool}
    (hAnswer : Inbox.answer tx conversationId taskId message continuation afterRun modes head now = .ok grown) : Good start grown := by
  rw [Inbox.answer, Outcome.bind_eq_ok] at hAnswer
  obtain ⟨boundary, -, hAnswer⟩ := hAnswer
  rw [Outcome.bind_eq_ok] at hAnswer
  obtain ⟨⟨entry, next⟩, hAppend, hAnswer⟩ := hAnswer
  have hNext := (Sound.appendEntry hAppend hGood).1
  simp only at hAnswer
  generalize (if takesContinuation (next.inbox conversationId) = true then continuation else none) = continues at hAnswer
  by_cases hHeld : ∃ held, (if continues.isNone ∧ afterRun then holdRun next conversationId taskId entry else none) = some held
  · obtain ⟨held, hHeld⟩ := hHeld
    rw [hHeld] at hAnswer
    obtain rfl := Except.ok.inj hAnswer
    split_ifs at hHeld
    exact (Sound.holdRun hHeld hNext).1
  · rw [not_exists] at hHeld
    rw [Option.eq_none_iff_forall_ne_some.mpr hHeld] at hAnswer
    simp only [Outcome.bind_eq_ok] at hAnswer
    obtain ⟨⟨result, last⟩, hApply, hAnswer⟩ := hAnswer
    cases continues with
    | none =>
      obtain rfl := Except.ok.inj hAnswer
      exact hNext.next hApply
    | some user =>
      simp only [Outcome.bind_eq_ok] at hAnswer
      obtain ⟨⟨id, appended⟩, hUser, hGrown⟩ := hAnswer
      obtain rfl := Except.ok.inj hGrown
      have hLast := (hNext.boundary hApply).1
      exact (Sound.handOver appended conversationId taskId (Sound.appendEntry hUser hLast).1).1

theorem Good.endAnsweredRun (hGood : Good start tx) {answer : Nat}
    (hEnd : Inbox.endAnsweredRun tx conversationId taskId answer modes head now = .ok grown) : Good start grown := by
  rw [Inbox.endAnsweredRun] at hEnd
  simp only [Outcome.bind_eq_ok] at hEnd
  obtain ⟨boundary, -, ⟨result, last⟩, hApply, hGrown⟩ := hEnd
  obtain rfl := Except.ok.inj hGrown
  exact hGood.next hApply

theorem Good.finishRound (hGood : Good start tx) {round : ToolRound} {boundary : Boundary}
    (hFinish : Inbox.finishRound tx conversationId taskId round policy boundary now = .ok grown) : Good start grown := by
  rw [Inbox.finishRound] at hFinish
  cases hHeld : if round.afterRun then holdRun tx conversationId taskId round.assistant else none with
  | some held =>
    rw [hHeld] at hFinish
    obtain rfl := Except.ok.inj hFinish
    split_ifs at hHeld
    exact (Sound.holdRun hHeld hGood).1
  | none =>
    rw [hHeld] at hFinish
    by_cases hTerminate : round.terminate = true
    · simp only [if_pos hTerminate, Outcome.bind_eq_ok] at hFinish
      obtain ⟨⟨result, last⟩, hApply, hGrown⟩ := hFinish
      obtain rfl := Except.ok.inj hGrown
      exact hGood.next hApply
    · simp only [if_neg hTerminate] at hFinish
      by_cases hLimit : round.turnLimit.isSome = true
      · rw [if_pos hLimit] at hFinish
        exact hGood.endFailedRun hFinish
      · simp only [if_neg hLimit, Outcome.bind_eq_ok] at hFinish
        obtain ⟨⟨result, last⟩, hApply, hGrown⟩ := hFinish
        obtain ⟨hDone, hUsers, -⟩ := hGood.boundary hApply
        by_cases hReset : result.reset = true
        · rw [if_pos hReset] at hGrown
          obtain rfl := Except.ok.inj hGrown
          exact hGood.next hApply
        · rw [if_neg hReset] at hGrown
          obtain rfl := Except.ok.inj hGrown
          exact (Sound.handOver _ conversationId taskId (hDone.pushInputs conversationId taskId hUsers)).1

theorem Good.finishToolRound (hGood : Good start tx) {round : ToolRound}
    (hFinish : Inbox.finishToolRound tx conversationId taskId round policy modes head now = .ok grown) :
    Good start grown := by
  rw [Inbox.finishToolRound, Outcome.bind_eq_ok] at hFinish
  obtain ⟨boundary, -, hFinish⟩ := hFinish
  cases hHandoff : round.handoff with
  | none =>
    simp only [hHandoff] at hFinish
    exact hGood.finishRound hFinish
  | some message =>
    simp only [hHandoff, Outcome.bind_eq_ok] at hFinish
    obtain ⟨⟨entry, appended⟩, hAppend, hFinish⟩ := hFinish
    exact (Sound.appendEntry hAppend hGood).1.finishRound hFinish

theorem Sound.endTasks {tasks : List EndedTask} (hEnd : Inbox.endTasks tx tasks = .ok grown) : Sound tx grown := by
  induction tasks generalizing tx with
  | nil =>
    obtain rfl := Except.ok.inj hEnd
    exact Sound.refl tx
  | cons task rest ih =>
    rw [Inbox.endTasks, Outcome.bind_eq_ok] at hEnd
    obtain ⟨next, hAppend, hRest⟩ := hEnd
    exact (Sound.appendAll hAppend).trans ((Sound.endRun next _ _ _).trans (ih hRest))

end Ends

end OctoberHarness.Inbox
