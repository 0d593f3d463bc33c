import OctoberHarness.Harness.InboxInvariant

/-! The writes of a transaction keep submissions and inboxes in agreement. -/
namespace OctoberHarness.Inbox

open Function OrderedMap

open Storage (SubmissionStatus)

/-- A submission that the transaction has placed or settled, whatever else it does. -/
structure Placed (tx : Tx) (id : Nat) : Prop where
  below : id < tx.nextId
  placed : ∀ view, tx.At view → ∃ record, view id = some record ∧ record.status ≠ .queued

/-- No submission has the request. -/
def Free (tx : Tx) (conversationId : Nat) (requestId : Option JsString) : Prop :=
  requestId ≠ none → ∀ view, tx.At view → ∀ id record, view id = some record →
    record.conversationId = conversationId → record.requestId ≠ requestId

section Fields

variable (tx : Tx) (conversationId : Nat)

@[simp] theorem inbox_setInbox (items : List InboxItem) :
    (tx.setInbox conversationId items).inbox = update tx.inbox conversationId items := by
  funext other
  rw [update_apply]
  show ((OrderedMap.set tx.inboxes conversationId items).lookup other).getD [] = _
  rw [lookup_set]
  split_ifs <;> rfl

@[simp] theorem run_setRun (live : LiveRun) :
    (tx.setRun conversationId live).run = update tx.run conversationId (some live) := by
  funext other
  rw [update_apply]
  exact lookup_set tx.runs conversationId live other

@[simp] theorem run_deleteRun :
    (tx.deleteRun conversationId).run = update tx.run conversationId none := by
  funext other
  rw [update_apply]
  exact lookup_erase tx.runs conversationId other

end Fields

structure SameSubmissions (tx grown : Tx) : Prop where
  base : grown.base = tx.base
  submissions : grown.submissions = tx.submissions
  changes : grown.changes = tx.changes
  nextId : tx.nextId ≤ grown.nextId
  hasTableWrite : grown.hasTableWrite = false → tx.hasTableWrite = false

theorem SameSubmissions.refl (tx : Tx) : SameSubmissions tx tx :=
  ⟨rfl, rfl, rfl, le_rfl, id⟩

theorem SameSubmissions.setInbox (tx : Tx) (conversationId : Nat) (items : List InboxItem) :
    SameSubmissions tx (tx.setInbox conversationId items) :=
  ⟨rfl, rfl, rfl, le_rfl, id⟩

theorem SameSubmissions.setRun (tx : Tx) (conversationId : Nat) (live : LiveRun) :
    SameSubmissions tx (tx.setRun conversationId live) :=
  ⟨rfl, rfl, rfl, le_rfl, id⟩

theorem SameSubmissions.deleteRun (tx : Tx) (conversationId : Nat) : SameSubmissions tx (tx.deleteRun conversationId) :=
  ⟨rfl, rfl, rfl, le_rfl, id⟩

section Writes

variable {start : List (Nat × SubmissionRecord)} {tx grown : Tx}

theorem SameSubmissions.at_iff (hSame : SameSubmissions tx grown) {view : Nat → Option SubmissionRecord} :
    grown.At view ↔ tx.At view :=
  Tx.At.congr hSame.base hSame.submissions hSame.changes

variable {id conversationId : Nat} {make : Nat → SubmissionRecord}

theorem Placed.same (hSame : SameSubmissions tx grown) (hPlaced : Placed tx id) : Placed grown id where
  below := hPlaced.below.trans_le hSame.nextId
  placed := fun view hAt => hPlaced.placed view (hSame.at_iff.mp hAt)

theorem Free.same (hSame : SameSubmissions tx grown) {requestId : Option JsString}
    (hFree : Free tx conversationId requestId) : Free grown conversationId requestId :=
  fun hSome view hAt => hFree hSome view (hSame.at_iff.mp hAt)

section

variable (hGood : Good start tx)

include hGood

/-- Documents may change where their items and inputs stay in agreement. -/
theorem Good.same (hSame : SameSubmissions tx grown) (hInbox : grown.inbox = tx.inbox)
    (hRun : ∀ conversationId live, grown.run conversationId = some live → ∀ id ∈ live.inputs, Placed tx id) :
    Good start grown where
  bounded := {
    table := by
      rw [hSame.base]
      exact hGood.bounded.table
    base := by
      intro id hId
      rw [hSame.base]
      exact hGood.bounded.base id (hSame.nextId.trans hId)
    staged := by
      intro id hId
      rw [hSame.submissions]
      exact hGood.bounded.staged id (hSame.nextId.trans hId)
    nodup := by
      rw [hSame.submissions]
      exact hGood.bounded.nodup
    changes := by
      intro change hChange
      rw [hSame.changes] at hChange
      exact (hGood.bounded.changes change hChange).trans_le hSame.nextId
    items := by
      intro conversationId item hItem
      rw [hInbox] at hItem
      exact (hGood.bounded.items conversationId item hItem).trans_le hSame.nextId
    ordered := by
      rw [hInbox]
      exact hGood.bounded.ordered
    inputs := fun conversationId live hLive id hId => (hRun conversationId live hLive id hId).below.trans_le hSame.nextId
    quiet := by
      intro hQuiet
      rw [hSame.submissions, hSame.changes]
      exact hGood.bounded.quiet (hSame.hasTableWrite hQuiet) }
  conserved := by
    intro view hAt
    have hOld := hSame.at_iff.mp hAt
    have hConserved := hGood.conserved view hOld
    rw [hInbox]
    exact ⟨hConserved.toIdentified, hConserved.queued, hConserved.listed,
      fun conversationId live hLive id hId => (hRun conversationId live hLive id hId).placed view hOld⟩
  kept := by
    intro view hAt
    exact hGood.kept view (hSame.at_iff.mp hAt)

theorem Good.placed_inputs {live : LiveRun} (hLive : tx.run conversationId = some live) (hId : id ∈ live.inputs) : Placed tx id
    where
  below := hGood.bounded.inputs conversationId live hLive id hId
  placed := fun view hAt => (hGood.conserved view hAt).inputs conversationId live hLive id hId

theorem Good.frame (hSame : SameSubmissions tx grown) (hInbox : grown.inbox = tx.inbox)
    (hRun : grown.run = tx.run) : Good start grown := by
  refine hGood.same hSame hInbox fun conversationId live hLive id hId => ?_
  rw [hRun] at hLive
  exact hGood.placed_inputs hLive hId

theorem Good.setRun (conversationId : Nat) {live : LiveRun} (hInputs : ∀ id ∈ live.inputs, Placed tx id) :
    Good start (tx.setRun conversationId live) := by
  refine hGood.same (SameSubmissions.setRun tx conversationId live) rfl fun other found hFound id hId => ?_
  rw [run_setRun, update_apply] at hFound
  split_ifs at hFound
  · obtain rfl := Option.some.inj hFound
    exact hInputs id hId
  · exact hGood.placed_inputs hFound hId

theorem Good.deleteRun (conversationId : Nat) : Good start (tx.deleteRun conversationId) := by
  refine hGood.same (SameSubmissions.deleteRun tx conversationId) rfl fun other found hFound id hId => ?_
  rw [run_deleteRun, update_apply] at hFound
  split_ifs at hFound
  exact hGood.placed_inputs hFound hId

end

theorem Placed.change (hPlaced : Placed tx id) (other : Nat) (change : SubmissionChange) :
    Placed (tx.changeSubmission other change) id where
  below := hPlaced.below
  placed := by
    intro view hAt
    obtain ⟨before, record, next, hBefore, -, hNext, rfl⟩ := hAt.of_change
    rw [update_apply]
    split_ifs
    · exact ⟨next, rfl, (applySubmissionChange_spec hNext).2.2⟩
    · exact hPlaced.placed before hBefore

theorem Good.kept_change (hGood : Good start tx) {change : SubmissionChange} :
    ∀ view, (tx.changeSubmission id change).At view → ∀ other record, start.lookup other = some record →
      ∃ later, view other = some later ∧ Kept record later := by
  intro view hAt other record hRecord
  obtain ⟨before, current, next, hBefore, hCurrent, hNext, rfl⟩ := hAt.of_change
  obtain ⟨later, hLater, hKept⟩ := hGood.kept before hBefore other record hRecord
  rw [update_apply]
  split_ifs with hSame
  · rw [hSame, hCurrent] at hLater
    obtain rfl := Option.some.inj hLater
    exact ⟨next, rfl, hKept.trans (applySubmissionChange_spec hNext).1⟩
  · exact ⟨later, hLater, hKept⟩

theorem Bounded.change (hBounded : Bounded tx) (hId : id < tx.nextId) (change : SubmissionChange) :
    Bounded (tx.changeSubmission id change) where
  table := hBounded.table
  base := hBounded.base
  staged := hBounded.staged
  nodup := hBounded.nodup
  changes := by
    intro other hOther
    rcases List.mem_append.mp hOther with hOther | hOther
    · exact hBounded.changes other hOther
    · rw [List.mem_singleton.mp hOther]
      exact hId
  items := hBounded.items
  ordered := hBounded.ordered
  inputs := hBounded.inputs
  quiet := fun hQuiet => by cases hQuiet

theorem Good.change (hGood : Good start tx) (hPlaced : Placed tx id) (change : SubmissionChange) :
    Good start (tx.changeSubmission id change) where
  bounded := hGood.bounded.change hPlaced.below change
  conserved := by
    intro view hAt
    obtain ⟨before, record, next, hBefore, hRecord, hNext, rfl⟩ := hAt.of_change
    obtain ⟨found, hFound, hStatus⟩ := hPlaced.placed before hBefore
    obtain rfl : found = record := Option.some.inj (hFound.symm.trans hRecord)
    obtain ⟨hKept, hId, hNotQueued⟩ := applySubmissionChange_spec hNext
    exact (hGood.conserved before hBefore).change hRecord hStatus hKept hId hNotQueued
  kept := hGood.kept_change

/-- The item of a submission that changes leaves the inbox. -/
theorem Good.take (hGood : Good start tx) {item : InboxItem} (hItem : item ∈ tx.inbox conversationId)
    (change : SubmissionChange) :
    Good start ((tx.changeSubmission item.id change).setInbox conversationId
      ((tx.inbox conversationId).filter fun other => decide (other.id ≠ item.id))) := by
  have hBounded := hGood.bounded.change (hGood.bounded.items conversationId item hItem) change
  exact {
    bounded := {
      table := hBounded.table
      base := hBounded.base
      staged := hBounded.staged
      nodup := hBounded.nodup
      changes := hBounded.changes
      items := by
        intro other kept hKept
        rw [inbox_setInbox, update_apply] at hKept
        split_ifs at hKept
        · exact hBounded.items conversationId kept (List.mem_filter.mp hKept).1
        · exact hBounded.items other kept hKept
      ordered := by
        intro other
        rw [inbox_setInbox, update_apply]
        split_ifs
        · exact (hBounded.ordered conversationId).filter _
        · exact hBounded.ordered other
      inputs := hBounded.inputs
      quiet := hBounded.quiet }
    conserved := by
      intro view hAt
      have hAt : (tx.changeSubmission item.id change).At view := hAt
      obtain ⟨before, record, next, hBefore, hRecord, hNext, rfl⟩ := hAt.of_change
      obtain ⟨hKept, hId, hNotQueued⟩ := applySubmissionChange_spec hNext
      have hTaken := (hGood.conserved before hBefore).take hItem hRecord hKept hId hNotQueued
      rw [inbox_setInbox]
      exact hTaken
    kept := hGood.kept_change }

theorem Good.placed_take (hGood : Good start tx) {item : InboxItem}
    (hItem : item ∈ tx.inbox conversationId) (change : SubmissionChange) :
    Placed (tx.changeSubmission item.id change) item.id where
  below := hGood.bounded.items conversationId item hItem
  placed := by
    intro view hAt
    obtain ⟨before, record, next, -, -, hNext, rfl⟩ := hAt.of_change
    exact ⟨next, update_self .., (applySubmissionChange_spec hNext).2.2⟩

/-! New submissions. -/

/-- A new submission, with its item when it queues. -/
theorem Good.create (hGood : Good start tx) (hCreate : tx.createSubmission make = .ok (id, grown)) (hId : ∀ n, (make n).id = n)
    (hFree : Free tx (make tx.nextId).conversationId (make tx.nextId).requestId) {items : List InboxItem}
    (hItems : ∀ item ∈ items, item.id = tx.nextId) (hOne : items.length ≤ 1)
    (hQueued : items ≠ [] ↔ (make tx.nextId).status = .queued) :
    id = tx.nextId ∧ Good start (grown.setInbox (make tx.nextId).conversationId
      (grown.inbox (make tx.nextId).conversationId ++ items)) := by
  rw [Tx.createSubmission] at hCreate
  simp only [Outcome.bind_eq_ok, Except.ok.injEq, Prod.mk.injEq] at hCreate
  obtain ⟨-, -, rfl, rfl⟩ := hCreate
  refine ⟨rfl, ?_⟩
  have hBounded := hGood.bounded
  exact {
    bounded := {
      table := hBounded.table
      base := fun other hOther => hBounded.base other (Nat.le_of_succ_le hOther)
      staged := by
        intro other hOther
        have hOther : tx.nextId + 1 ≤ other := hOther
        show (tx.submissions ++ [(tx.nextId, make tx.nextId)]).lookup other = none
        rw [lookup_append, hBounded.staged other (by omega), lookup_cons, if_neg (by omega)]
        rfl
      nodup := by
        show ((tx.submissions ++ [(tx.nextId, make tx.nextId)]).map Prod.fst).Nodup
        have hNew := (lookup_eq_none_iff tx.submissions tx.nextId).mp (hBounded.staged _ le_rfl)
        rw [List.map_append, List.nodup_append]
        refine ⟨hBounded.nodup, List.nodup_singleton _, fun other hOther id hId hSame => hNew ?_⟩
        have hNew : id = tx.nextId := List.mem_singleton.mp hId
        rwa [← hNew, ← hSame]
      changes := fun change hChange => Nat.lt_succ_of_lt (hBounded.changes change hChange)
      items := by
        intro other item hItem
        rw [inbox_setInbox, update_apply] at hItem
        show item.id < tx.nextId + 1
        split_ifs at hItem
        · rcases List.mem_append.mp hItem with hItem | hItem
          · exact Nat.lt_succ_of_lt (hBounded.items _ item hItem)
          · rw [hItems item hItem]
            exact Nat.lt_succ_self _
        · exact Nat.lt_succ_of_lt (hBounded.items other item hItem)
      ordered := by
        intro other
        rw [inbox_setInbox, update_apply]
        split_ifs
        · rw [List.pairwise_append]
          refine ⟨hBounded.ordered _, ?_, fun item hItem new hNewItem => ?_⟩
          · match items, hOne with
            | [], _ => exact List.Pairwise.nil
            | [item], _ => exact List.pairwise_singleton _ _
          · rw [hItems new hNewItem]
            exact hBounded.items _ item hItem
        · exact hBounded.ordered other
      inputs := fun other live hLive input hInput => Nat.lt_succ_of_lt (hBounded.inputs other live hLive input hInput)
      quiet := fun hQuiet => by cases hQuiet }
    conserved := by
      intro view hAt
      obtain ⟨before, hBefore, rfl⟩ := hAt.of_create hBounded rfl rfl rfl
      have hNew := hBefore.none_of_le hBounded le_rfl
      have hCreated := (hGood.conserved before hBefore).create hNew (hId tx.nextId)
        (fun hSome => hFree hSome before hBefore) hItems hQueued
      rw [inbox_setInbox]
      exact hCreated
    kept := by
      intro view hAt other record hRecord
      obtain ⟨before, hBefore, rfl⟩ := hAt.of_create hBounded rfl rfl rfl
      obtain ⟨later, hLater, hKept⟩ := hGood.kept before hBefore other record hRecord
      have hNe : other ≠ tx.nextId := by
        rintro rfl
        rw [hBefore.none_of_le hBounded le_rfl] at hLater
        cases hLater
      exact ⟨later, by rw [update_of_ne hNe]; exact hLater, hKept⟩ }

theorem Bounded.placed_create (hBounded : Bounded tx)
    (hCreate : tx.createSubmission make = .ok (id, grown)) (hStatus : (make id).status ≠ .queued) : Placed grown id := by
  rw [Tx.createSubmission] at hCreate
  simp only [Outcome.bind_eq_ok, Except.ok.injEq, Prod.mk.injEq] at hCreate
  obtain ⟨-, -, rfl, rfl⟩ := hCreate
  refine ⟨Nat.lt_succ_self _, fun view hAt => ?_⟩
  obtain ⟨before, hBefore, rfl⟩ := hAt.of_create hBounded rfl rfl rfl
  exact ⟨make tx.nextId, update_self .., hStatus⟩

theorem Good.create_placed (hGood : Good start tx) (hCreate : tx.createSubmission make = .ok (id, grown))
    (hId : ∀ n, (make n).id = n) (hFree : Free tx (make tx.nextId).conversationId (make tx.nextId).requestId)
    (hStatus : ∀ n, (make n).status ≠ .queued) : Good start grown := by
  have hNone : ([] : List InboxItem) ≠ [] ↔ (make tx.nextId).status = .queued := by
    simp [hStatus tx.nextId]
  have hItems : ∀ item ∈ ([] : List InboxItem), item.id = tx.nextId := by simp
  obtain ⟨-, hGrown⟩ := hGood.create hCreate hId hFree hItems (by simp) hNone
  refine hGrown.frame ⟨rfl, rfl, rfl, le_rfl, fun h => h⟩ ?_ rfl
  rw [inbox_setInbox, List.append_nil, update_eq_self]

end Writes

end OctoberHarness.Inbox
