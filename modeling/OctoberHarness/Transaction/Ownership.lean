import OctoberHarness.Transaction.Gates
import OctoberHarness.Transaction.Scoped

/-! Owners of what transactions create: tasks that are terminal are left alone, and
their documents are retired. -/
namespace OctoberHarness.Transaction

open OrderedMap

open Storage hiding scopeKey

open List Option

/-- The documents a session knows of a task are all that are alive. -/
def Complete (m : Memory) (taskDocuments : Nat → Option (List DocumentRecord)) : Prop :=
  ∀ taskId records, taskDocuments taskId = some records → ∀ id state, m.documents.lookup id = some state →
    state.record.scope = .task taskId → state.record.retiredAt = none → ∃ record ∈ records, record.id = id

/-- A new document of a task: the task is open, and the document has a value. -/
def Founded (m : Memory) (tx : Staged) (plan : DocumentPlan) : Prop :=
  ∀ record taskId, plan.record = .created record → record.scope = .task taskId → Open m tx taskId ∧ plan.change ≠ none

/-- What the settlement of a transaction has checked of its batch. -/
structure Judged (m : Memory) (tx : Staged) (batch : Staged.Assembled) : Prop where
  tasks : ∀ value, Write.task value ∈ batch.writes ↔ value ∈ tx.taskRecords
  conversations : ∀ record, Write.conversation record ∈ batch.writes ↔ Write.conversation record ∈ tx.writes
  submissions : ∀ value, Write.submission value ∈ batch.writes → m.submissions.lookup value.id = none →
    Placed m tx value.conversationId
  owners : ∀ id ∈ tx.owners, tx.checkOwner m id = .ok ()
  replaced : ∀ entry ∈ tx.tasksById, Staged.checkReplaced m entry = .ok ()
  plans : ∀ plan ∈ batch.plans, Staged.ofTask tx.terminalTaskIds plan.scope = true → plan.retire = true
  founded : ∀ plan ∈ batch.plans, Founded m tx plan
  retired : ∀ taskId ∈ tx.terminalTaskIds, (∀ write, tx.taskWrite taskId = some write → write.kind ≠ .create) →
    ∀ id state, m.documents.lookup id = some state → state.record.scope = .task taskId → state.record.retiredAt = none →
      ∃ plan ∈ batch.plans, plan.id = id ∧ plan.retire = true

/-- The plans while the documents of terminal tasks are retired. -/
structure Retiring (m : Memory) (tx : Staged) (state : List DocumentPlan × List Nat) : Prop where
  listed : ∀ id ∈ state.2, ∃ plan ∈ state.1, plan.id = id ∧ plan.retire = true
  owned : ∀ plan ∈ state.1, Staged.ofTask tx.terminalTaskIds plan.scope = true → plan.retire = true
  founded : ∀ plan ∈ state.1, Founded m tx plan

section Assembly

variable {m : Memory} {d : Sqlite} {base : Nat} {tx : Staged} {taskDocuments : Nat → Option (List DocumentRecord)}

theorem documentsOf_complete (hAgree : Agree m d) (hIds : m.IdsBelow (MAX_SAFE_INTEGER + 1))
    (hComplete : Complete m taskDocuments) {taskId : Nat} {records : List DocumentRecord}
    (hRecords : Staged.documentsOf m taskDocuments taskId = .ok records) {id : Nat} {state : DocumentState}
    (hState : m.documents.lookup id = some state) (hScope : state.record.scope = .task taskId)
    (hAlive : state.record.retiredAt = none) : ∃ record ∈ records, record.id = id := by
  rw [Staged.documentsOf] at hRecords
  cases hTask : taskDocuments taskId with
  | some known =>
    simp only [hTask] at hRecords
    rw [← Except.ok.inj hRecords]
    exact hComplete taskId known hTask id state hState hScope hAlive
  | none =>
    simp only [hTask] at hRecords
    have hId : state.record.id = id := by
      rw [hAgree.mirror.documents, map_eq_some_iff] at hState
      obtain ⟨record, hRecord, rfl⟩ := hState
      exact hAgree.stored.kept.documents.2 id record hRecord
    refine ⟨state.record, (mem_scanAll hAgree hIds hRecords state.record).mpr ⟨⟨state.revisions, hId ▸ hState⟩, ?_⟩, hId⟩
    simp [View.keepsDocument, hScope, isAliveAt, hAlive]

theorem Retiring.retireDocument {state : List DocumentPlan × List Nat} (h : Retiring m tx state) (record : DocumentRecord) :
    Retiring m tx (Staged.retireDocument state.1 state.2 record) ∧
      record.id ∈ (Staged.retireDocument state.1 state.2 record).2 ∧
        ∀ id ∈ state.2, id ∈ (Staged.retireDocument state.1 state.2 record).2 := by
  simp only [Staged.retireDocument]
  split_ifs with hListed
  · exact ⟨h, hListed, fun _ hId => hId⟩
  · refine ⟨⟨fun id hId => ?_, fun plan hPlan hOwned => ?_, fun plan hPlan => ?_⟩,
      mem_append_right _ (mem_singleton_self _), fun id hId => mem_append_left _ hId⟩
    · rcases List.mem_append.mp hId with hOld | hNew
      · obtain ⟨plan, hPlan, hSame⟩ := h.listed id hOld
        exact ⟨plan, mem_append_left _ hPlan, hSame⟩
      · exact ⟨_, mem_append_right _ (mem_singleton_self _), (mem_singleton.mp hNew).symm, rfl⟩
    · rcases List.mem_append.mp hPlan with hOld | hNew
      · exact h.owned plan hOld hOwned
      · exact mem_singleton.mp hNew ▸ rfl
    · rcases List.mem_append.mp hPlan with hOld | hNew
      · exact h.founded plan hOld
      · rw [mem_singleton.mp hNew]
        exact fun record taskId hRecord => by cases hRecord

theorem Retiring.retireTask (hAgree : Agree m d) (hIds : m.IdsBelow (MAX_SAFE_INTEGER + 1))
    (hComplete : Complete m taskDocuments) {state next : List DocumentPlan × List Nat} (h : Retiring m tx state) {taskId : Nat}
    (hRetire : tx.retireTask m taskDocuments state taskId = .ok next) :
    Retiring m tx next ∧ (∀ id ∈ state.2, id ∈ next.2) ∧
      ((∀ write, tx.taskWrite taskId = some write → write.kind ≠ .create) → ∀ id found, m.documents.lookup id = some found →
        found.record.scope = .task taskId → found.record.retiredAt = none → id ∈ next.2) := by
  rw [Staged.retireTask] at hRetire
  split_ifs at hRetire with hCreated
  · rw [← Except.ok.inj hRetire]
    refine ⟨h, fun _ hId => hId, fun hKind => ?_⟩
    rw [Option.any_eq_true] at hCreated
    obtain ⟨write, hWrite, hCreate⟩ := hCreated
    exact absurd (of_decide_eq_true hCreate) (hKind write hWrite)
  · rw [Outcome.bind_eq_ok] at hRetire
    obtain ⟨records, hRecords, hRetire⟩ := hRetire
    have hFold : ∀ (records : List DocumentRecord) (state : List DocumentPlan × List Nat), Retiring m tx state →
        Retiring m tx (records.foldl (fun state record => Staged.retireDocument state.1 state.2 record) state) ∧
          (∀ id ∈ state.2, id ∈ (records.foldl (fun state record => Staged.retireDocument state.1 state.2 record) state).2) ∧
          ∀ record ∈ records,
            record.id ∈ (records.foldl (fun state record => Staged.retireDocument state.1 state.2 record) state).2 := by
      intro records
      induction records with
      | nil => exact fun state hState => ⟨hState, fun _ hId => hId, by simp⟩
      | cons record rest ih =>
        intro state hState
        obtain ⟨hNext, hListed, hKept⟩ := hState.retireDocument record
        obtain ⟨hLast, hLater, hRest⟩ := ih _ hNext
        exact ⟨hLast, fun id hId => hLater id (hKept id hId), forall_mem_cons.mpr ⟨hLater _ hListed, hRest⟩⟩
    obtain ⟨hNext, hKept, hListed⟩ := hFold records state h
    rw [← Except.ok.inj hRetire]
    refine ⟨hNext, hKept, fun _ id found hFound hScope hAlive => ?_⟩
    obtain ⟨record, hRecord, rfl⟩ := documentsOf_complete hAgree hIds hComplete hRecords hFound hScope hAlive
    exact hListed record hRecord

theorem retireTasks_retired (hAgree : Agree m d) (hIds : m.IdsBelow (MAX_SAFE_INTEGER + 1))
    (hComplete : Complete m taskDocuments) {plans next : List DocumentPlan} (hFounded : ∀ plan ∈ plans, Founded m tx plan)
    (hRetire : tx.retireTasks m taskDocuments plans = .ok next) : ∃ ids, Retiring m tx (next, ids) ∧
      ∀ taskId ∈ tx.terminalTaskIds, (∀ write, tx.taskWrite taskId = some write → write.kind ≠ .create) →
        ∀ id found, m.documents.lookup id = some found → found.record.scope = .task taskId →
          found.record.retiredAt = none → id ∈ ids := by
  rw [Staged.retireTasks, Outcome.bind_eq_ok] at hRetire
  obtain ⟨state, hRun, hRetire⟩ := hRetire
  obtain rfl : state.1 = next := Except.ok.inj hRetire
  have hStart : Retiring m tx (plans.map (fun plan => if Staged.ofTask tx.terminalTaskIds plan.scope then
      { plan with retire := true } else plan),
      (plans.filter fun plan => Staged.ofTask tx.terminalTaskIds plan.scope).map DocumentPlan.id) := by
    refine ⟨fun id hId => ?_, fun plan hPlan hOwned => ?_, fun plan hPlan => ?_⟩
    · obtain ⟨plan, hPlan, rfl⟩ := List.mem_map.mp hId
      obtain ⟨hMem, hOwned⟩ := mem_filter.mp hPlan
      exact ⟨_, List.mem_map.mpr ⟨plan, hMem, if_pos hOwned⟩, rfl, rfl⟩
    · obtain ⟨old, hOld, rfl⟩ := List.mem_map.mp hPlan
      split_ifs at hOwned ⊢ with hTerminal
      · rfl
      · exact absurd hOwned hTerminal
    · obtain ⟨old, hOld, rfl⟩ := List.mem_map.mp hPlan
      split_ifs
      · exact hFounded old hOld
      · exact hFounded old hOld
  have hRetired := @Outcome.foldlM_invariant _ _ _ (tx.retireTask m taskDocuments)
    (fun done state => Retiring m tx state ∧ ∀ taskId ∈ done, (∀ write, tx.taskWrite taskId = some write →
      write.kind ≠ .create) → ∀ id found, m.documents.lookup id = some found → found.record.scope = .task taskId →
        found.record.retiredAt = none → id ∈ state.2)
    (fun done state taskId next hState hStep => ?_) tx.terminalTaskIds [] _ state ⟨hStart, by simp⟩ hRun
  · exact ⟨state.2, hRetired⟩
  · obtain ⟨hRetiring, hDone⟩ := hState
    obtain ⟨hNext, hKept, hListed⟩ := hRetiring.retireTask hAgree hIds hComplete hStep
    refine ⟨hNext, fun other hOther => ?_⟩
    rcases List.mem_append.mp hOther with hEarlier | hLast
    · exact fun hKind id found hFound hScope hAlive => hKept id (hDone other hEarlier hKind id found hFound hScope hAlive)
    · exact mem_singleton.mp hLast ▸ hListed

theorem Founded.of_planDocument {entry : DocumentEntry} {plan : DocumentPlan} (hHoused : Housed m tx entry)
    {top : Nat} (hEntry : ∀ target, entry.target = some target → StagedTarget m base top entry.address target)
    (hPlan : planDocument entry = some plan) : Founded m tx plan := by
  intro record taskId hRecord hScope
  rw [planDocument] at hPlan
  cases hTarget : entry.target with
  | none => simp [hTarget] at hPlan
  | some target =>
    have hStaged := hEntry target hTarget
    simp only [hTarget] at hPlan
    cases target with
    | loaded document ops value =>
      obtain ⟨definition, -, rfl⟩ := map_eq_some_iff.mp hPlan
      cases hRecord
    | created created version value =>
      obtain rfl := some.inj hPlan
      obtain rfl := PlanRecord.created.inj hRecord
      have hAddress : entry.address.scope = .task taskId := by rw [← hStaged.1]; exact hScope
      exact ⟨(hHoused taskId hAddress).2 (Or.inr ⟨_, _, _, hTarget⟩), some_ne_none _⟩
    | forkCopy created source =>
      obtain rfl := some.inj hPlan
      obtain rfl := PlanRecord.created.inj hRecord
      have hAddress : entry.address.scope = .task taskId := by rw [← hStaged.1]; exact hScope
      exact absurd hTarget ((hHoused taskId hAddress).1 _ _)
    | retireOnly committed =>
      obtain rfl := some.inj hPlan
      cases hRecord

theorem Founded.same {old new : DocumentPlan} (h : Founded m tx old) (hRecord : new.record = old.record)
    (hChange : new.change = old.change) : Founded m tx new := by
  intro record taskId hCreated hScope
  rw [hChange]
  exact h record taskId (hRecord ▸ hCreated) hScope

theorem checkpoint_same (plan : DocumentPlan) : (Staged.checkpoint plan).record = plan.record ∧
    (Staged.checkpoint plan).retire = plan.retire ∧ (Staged.checkpoint plan).change = plan.change := by
  rw [Staged.checkpoint]
  split
  · split_ifs <;> exact ⟨rfl, rfl, rfl⟩
  · exact ⟨rfl, rfl, rfl⟩

/-- The submissions after the staged changes: new ones keep their conversation. -/
theorem resolveChange_placed {submissions next : List (Nat × SubmissionRecord)} {entry : Nat × SubmissionChange}
    (h : ∀ id value, (id, value) ∈ submissions → m.submissions.lookup id = none → Placed m tx value.conversationId)
    (hResolve : Staged.resolveChange m submissions entry = .ok next) :
    ∀ id value, (id, value) ∈ next → m.submissions.lookup id = none → Placed m tx value.conversationId := by
  rw [Staged.resolveChange] at hResolve
  cases hCurrent : (submissions.lookup entry.1).or (m.submissions.lookup entry.1) with
  | none => simp [hCurrent] at hResolve
  | some current =>
    simp only [hCurrent] at hResolve
    rw [Outcome.bind_eq_ok] at hResolve
    obtain ⟨changed, hApply, hResolve⟩ := hResolve
    rw [← Except.ok.inj hResolve]
    split_ifs
    · exact h
    · intro id value hValue hNew
      rcases mem_set hValue with hLast | hEarlier
      · obtain ⟨rfl, rfl⟩ := Prod.mk.inj hLast
        rw [(applySubmissionChange_same hApply).2.1]
        rcases or_eq_some_iff.mp hCurrent with hStaged | ⟨-, hCommitted⟩
        · exact h _ _ (mem_of_lookup hStaged) hNew
        · rw [hNew] at hCommitted
          cases hCommitted
      · exact h id value hEarlier hNew

theorem Scoped.assemble (h : Scoped m tx) (hSane : Sane m base tx) (hAgree : Agree m d)
    (hIds : m.IdsBelow (MAX_SAFE_INTEGER + 1)) (hComplete : Complete m taskDocuments) {batch : Staged.Assembled}
    (hAssemble : tx.assemble m taskDocuments = .ok batch) : Judged m tx batch := by
  rw [Staged.assemble, Outcome.bind_eq_ok] at hAssemble
  obtain ⟨⟨⟩, -, hAssemble⟩ := hAssemble
  obtain ⟨⟨⟩, hOwners, hAssemble⟩ := Outcome.bind_eq_ok.mp hAssemble
  obtain ⟨⟨⟩, hReplaced, hAssemble⟩ := Outcome.bind_eq_ok.mp hAssemble
  obtain ⟨plans, hRetire, hAssemble⟩ := Outcome.bind_eq_ok.mp hAssemble
  obtain ⟨submissions, hResolve, hAssemble⟩ := Outcome.bind_eq_ok.mp hAssemble
  have hFounded : ∀ plan ∈ tx.documents.filterMap planDocument, Founded m tx plan := by
    intro plan hPlan
    obtain ⟨entry, hEntry, hPlanned⟩ := mem_filterMap.mp hPlan
    exact .of_planDocument (h.documents entry hEntry) (hSane.documents entry hEntry) hPlanned
  obtain ⟨ids, hRetiring, hListed⟩ := retireTasks_retired hAgree hIds hComplete hFounded hRetire
  have hPlaced := @Outcome.foldlM_invariant _ _ _ (Staged.resolveChange m)
    (fun _ found => ∀ id value, (id, value) ∈ found → m.submissions.lookup id = none → Placed m tx value.conversationId)
    (fun _ _ _ _ hFound hStep => resolveChange_placed hFound hStep) _ [] _ _
    (fun id value hValue _ => h.submissions id value hValue) hResolve
  obtain rfl := Except.ok.inj hAssemble
  have hPlanWrite : ∀ plan write, write ∈ Staged.planWrites plan → Memory.documentOf write ≠ none :=
    fun plan write hWrite => planWrites_document hWrite
  have hMem : ∀ write, write ∈ tx.writes ++ submissions.map (fun entry => Write.submission entry.2) ++
      tx.taskRecords.map .task ++ (plans.map Staged.checkpoint).flatMap Staged.planWrites →
      Memory.documentOf write = none → StagedWrite m base tx.nextId write ∧ write ∈ tx.writes ∨
        (∃ id value, (id, value) ∈ submissions ∧ write = .submission value) ∨ ∃ value ∈ tx.taskRecords, write = .task value := by
    intro write hWrite hNone
    simp only [mem_append, List.mem_map, mem_flatMap] at hWrite
    rcases hWrite with ((hStaged | ⟨⟨id, value⟩, hValue, rfl⟩) | ⟨value, hValue, rfl⟩) | ⟨plan, -, hWrite⟩
    · exact Or.inl ⟨hSane.writes write hStaged, hStaged⟩
    · exact Or.inr (Or.inl ⟨id, value, hValue, rfl⟩)
    · exact Or.inr (Or.inr ⟨value, hValue, rfl⟩)
    · exact absurd hNone (hPlanWrite plan write hWrite)
  refine ⟨fun value => ⟨fun hWrite => ?_, fun hTask => ?_⟩, fun record => ⟨fun hWrite => ?_, fun hStaged => ?_⟩,
    fun value hWrite hNew => ?_, Outcome.forM_eq_ok.mp hOwners, Outcome.forM_eq_ok.mp hReplaced, fun plan hPlan hOwned => ?_,
    fun plan hPlan => ?_, fun taskId hTerminal hKind id found hFound hScope hAlive => ?_⟩
  · rcases hMem _ hWrite rfl with ⟨hStaged, -⟩ | ⟨id, found, -, hSame⟩ | ⟨found, hFound, hSame⟩
    · exact hStaged.elim
    · cases hSame
    · exact Write.task.inj hSame ▸ hFound
  · exact mem_append_left _ (mem_append_right _ (List.mem_map.mpr ⟨value, hTask, rfl⟩))
  · rcases hMem _ hWrite rfl with ⟨-, hStaged⟩ | ⟨id, found, -, hSame⟩ | ⟨found, -, hSame⟩
    · exact hStaged
    · cases hSame
    · cases hSame
  · exact mem_append_left _ (mem_append_left _ (mem_append_left _ hStaged))
  · rcases hMem _ hWrite rfl with ⟨hStaged, -⟩ | ⟨id, found, hFound, hSame⟩ | ⟨found, -, hSame⟩
    · exact hStaged.elim
    · obtain rfl := Write.submission.inj hSame
      have hId := (hSane.resolveChanges hAgree hResolve id value hFound).1
      exact hPlaced id value hFound (hId ▸ hNew)
    · cases hSame
  · obtain ⟨old, hOld, rfl⟩ := List.mem_map.mp hPlan
    obtain ⟨hRecord, hRetired, -⟩ := checkpoint_same old
    rw [DocumentPlan.scope, hRecord] at hOwned
    rw [hRetired]
    exact hRetiring.owned old hOld hOwned
  · obtain ⟨old, hOld, rfl⟩ := List.mem_map.mp hPlan
    obtain ⟨hRecord, -, hChange⟩ := checkpoint_same old
    exact (hRetiring.founded old hOld).same hRecord hChange
  · obtain ⟨plan, hPlan, hId, hRetired⟩ := hRetiring.listed id (hListed taskId hTerminal hKind id found hFound hScope hAlive)
    obtain ⟨hRecord, hSame, -⟩ := checkpoint_same plan
    refine ⟨_, List.mem_map.mpr ⟨plan, hPlan, rfl⟩, ?_, hSame.trans hRetired⟩
    rw [DocumentPlan.id, hRecord]
    exact hId

end Assembly

theorem Judged.takeHeld {m : Memory} {tx : Staged} {batch : Staged.Assembled} (h : Judged m tx batch)
    (held : Nat → Option HeldDocument) : Judged m tx (takeHeld held batch) := by
  obtain ⟨hPlans, hWrites, hKept⟩ := takeHeldPlans_holding held batch.writes batch.plans
  obtain ⟨hForward, hBack⟩ := exists_right hPlans
  have hSame : ∀ write, (∀ id content, write ≠ .documentChange id content) →
      (write ∈ (takeHeldPlans held batch.writes batch.plans).writes ↔ write ∈ batch.writes) := by
    refine fun write hNot => ⟨fun hWrite => ?_, fun hWrite => hKept write hWrite hNot⟩
    rcases hWrites write hWrite with hOld | ⟨-, id, content, hChange⟩
    · exact hOld
    · exact absurd hChange (hNot id content)
  refine ⟨fun value => (hSame _ (by simp)).trans (h.tasks value), fun record => (hSame _ (by simp)).trans (h.conversations record),
    fun value hWrite => h.submissions value ((hSame _ (by simp)).mp hWrite), h.owners, h.replaced, fun plan hPlan hOwned => ?_,
    fun plan hPlan => ?_, fun taskId hTerminal hKind id found hFound hScope hAlive => ?_⟩
  · obtain ⟨old, hOld, hHolding⟩ := hBack plan hPlan
    rw [DocumentPlan.scope, hHolding.record] at hOwned
    exact hHolding.retire.trans (h.plans old hOld hOwned)
  · obtain ⟨old, hOld, hHolding⟩ := hBack plan hPlan
    exact (h.founded old hOld).same hHolding.record hHolding.change
  · obtain ⟨plan, hPlan, hId, hRetired⟩ := h.retired taskId hTerminal hKind id found hFound hScope hAlive
    obtain ⟨new, hNew, hHolding⟩ := hForward plan hPlan
    refine ⟨new, hNew, ?_, hHolding.retire.trans hRetired⟩
    rw [DocumentPlan.id, hHolding.record]
    exact hId

/-- Who owns the documents of the storage, and which of them a session knows. -/
structure Owned (m : Memory) (taskDocuments : Nat → Option (List DocumentRecord)) : Prop where
  housed : ∀ id state taskId, m.documents.lookup id = some state → state.record.scope = .task taskId →
    m.tasks.lookup taskId ≠ none
  retired : ∀ id state taskId task, m.documents.lookup id = some state → state.record.scope = .task taskId →
    m.tasks.lookup taskId = some task → task.status = .terminal → state.record.retiredAt ≠ none
  complete : Complete m taskDocuments

section Batch

variable {m next : Memory} {d d' : Sqlite} {base : Nat} {tx : Staged} {batch : Staged.Assembled}
  {actions : Sqlite.DocumentActions} {taskDocuments : Nat → Option (List DocumentRecord)}

theorem mem_taskRecords (hSane : Sane m base tx) {value : TaskRecord} : value ∈ tx.taskRecords ↔
    ∃ write, (value.id, some write) ∈ tx.tasksById ∧ write.record = value := by
  refine ⟨fun hValue => ?_, fun ⟨write, hEntry, hRecord⟩ => ?_⟩
  · obtain ⟨⟨id, write⟩, hEntry, hRecord⟩ := mem_filterMap.mp hValue
    obtain ⟨write, rfl, rfl⟩ := map_eq_some_iff.mp hRecord
    exact ⟨write, (hSane.tasks id write hEntry).1 ▸ hEntry, rfl⟩
  · exact mem_filterMap.mpr ⟨_, hEntry, congrArg some hRecord⟩

variable {id taskId : Nat} {state : DocumentState}

theorem Scoped.taskWrite (h : Scoped m tx) {write : TaskWrite} :
    tx.taskWrite id = some write ↔ (id, some write) ∈ tx.tasksById := by
  rw [Staged.taskWrite, join_eq_some_iff, lookup_eq_some_iff h.keys]

theorem Judged.finalTask (h : Judged m tx batch) (hScoped : Scoped m tx) (hSane : Sane m base tx) (hAgree : Agree m d)
    (hNext : Agree next d') (hEffect : BatchEffect batch.writes (resolvedActions d actions) d d') (id : Nat) :
    next.tasks.lookup id = tx.currentTask m id := by
  rw [hNext.mirror.tasks, Staged.currentTask]
  cases hWrite : tx.taskWrite id with
  | none =>
    rw [map_none, none_or, hAgree.mirror.tasks]
    refine (hEffect.tasks id).same fun value ⟨hId, hValue⟩ => ?_
    obtain ⟨write, hEntry, -⟩ := (mem_taskRecords hSane).mp ((h.tasks value).mp hValue)
    rw [hId, ← hScoped.taskWrite, hWrite] at hEntry
    cases hEntry
  | some write =>
    have hEntry := hScoped.taskWrite.mp hWrite
    have hId := (hSane.tasks id write hEntry).1
    have hRecord : write.record ∈ tx.taskRecords := (mem_taskRecords hSane).mpr ⟨write, hId.symm ▸ hEntry, rfl⟩
    obtain ⟨value, hLookup, hValue⟩ := hEffect.putTask write.record ((h.tasks _).mpr hRecord)
    rw [hId] at hLookup
    have hValueId := hNext.stored.kept.tasks.2 id value hLookup
    obtain ⟨other, hOther, rfl⟩ := (mem_taskRecords hSane).mp ((h.tasks value).mp hValue)
    rw [hValueId, ← hScoped.taskWrite, hWrite] at hOther
    rw [hLookup, some.inj hOther]
    rfl

theorem Judged.terminal (h : Judged m tx batch) (hScoped : Scoped m tx) (hSane : Sane m base tx) (hAgree : Agree m d)
    (hIds : m.IdsBelow base) {task : TaskRecord} (hTask : m.tasks.lookup id = some task)
    (hTerminal : task.status = .terminal) : tx.taskWrite id = none := by
  by_contra hSome
  obtain ⟨write, hWrite⟩ := ne_none_iff_exists'.mp hSome
  have hEntry := hScoped.taskWrite.mp hWrite
  have hChecked := h.replaced _ hEntry
  obtain ⟨-, hCreated⟩ := hSane.tasks id write hEntry
  obtain ⟨kind, record⟩ := write
  cases kind with
  | create =>
    have hHolds : m.Holds id .task := by simp [Memory.Holds, hTask]
    exact absurd (holds_below hAgree hIds hHolds) (Nat.not_lt.mpr (hCreated rfl).1)
  | replace => simp [Staged.checkReplaced, hTask, hTerminal] at hChecked

theorem mem_terminalTaskIds (hScoped : Scoped m tx) (hSane : Sane m base tx) {write : TaskWrite}
    (hWrite : tx.taskWrite id = some write) (hTerminal : write.record.status = .terminal) : id ∈ tx.terminalTaskIds := by
  have hEntry := hScoped.taskWrite.mp hWrite
  have hId := (hSane.tasks id write hEntry).1
  rw [Staged.terminalTaskIds, mem_dedup]
  refine List.mem_map.mpr ⟨write.record, mem_filter.mpr ⟨?_, decide_eq_true hTerminal⟩, hId⟩
  exact (mem_taskRecords hSane).mpr ⟨write, hId.symm ▸ hEntry, rfl⟩

/-- A document of a task that is alive after a batch: stored before and alive, or
created by a plan that does not retire it. -/
theorem Judged.alive_cases (hProduced : Produced m base tx.nextId batch) (hAgree : Agree m d) (hNext : Agree next d')
    (hPasses : Passes m d batch.writes actions) (hEffect : BatchEffect batch.writes (resolvedActions d actions) d d')
    (hState : next.documents.lookup id = some state) (hAlive : state.record.retiredAt = none) :
    (∀ plan ∈ batch.plans, plan.id = id → plan.retire ≠ true) ∧
    ((∃ old, m.documents.lookup id = some old ∧ old.record.scope = state.record.scope ∧ old.record.retiredAt = none) ∨
      ∃ plan ∈ batch.plans, plan.record = .created state.record.toDocumentCreate ∧ plan.id = id ∧
        state.record.createdAt = d.nextSeq) := by
  rw [hNext.mirror.documents, map_eq_some_iff] at hState
  obtain ⟨record, hRecord, rfl⟩ := hState
  have hNot : Write.documentRetire id ∉ batch.writes := by
    intro hRetire
    obtain ⟨record', hLookup, hRetired⟩ := document_retired hPasses hEffect hRetire
    obtain rfl := some.inj (hLookup.symm.trans hRecord)
    rw [hRetired] at hAlive
    cases hAlive
  refine ⟨fun plan hPlan hId hRetire => hNot (hId ▸ hProduced.retired plan hPlan hRetire), ?_⟩
  have hOld : ∀ old, d.documents.lookup id = some old → m.documents.lookup id = some
      { record := old, revisions := View.revisions d id } := fun old hLookup => by
    rw [hAgree.mirror.documents, hLookup, map_some]
  by_cases hWritten : id ∈ batch.writes.filterMap Memory.documentOf
  · obtain ⟨record', hAfter, hCases⟩ := document_changed hAgree hPasses hEffect hWritten
    obtain rfl := some.inj (hAfter.symm.trans hRecord)
    rcases hCases with ⟨-, hCreated⟩ | ⟨old, hLookup, hSame, hKept⟩
    · obtain ⟨plan, hPlan, hPlanned, -⟩ := hProduced.created_plan hCreated
      obtain ⟨found, hFound, -, hSeq, -⟩ := document_created hPasses hEffect hCreated
      have hId := hNext.stored.kept.documents.2 id record' hRecord
      rw [show record'.toDocumentCreate.id = id from hId] at hFound
      obtain rfl := some.inj (hFound.symm.trans hRecord)
      refine Or.inr ⟨plan, hPlan, hPlanned, ?_, hSeq⟩
      rw [DocumentPlan.id, hPlanned]
      exact hId
    · obtain rfl := hKept.resolve_right hNot
      exact Or.inl ⟨_, hOld record' hLookup, rfl, hAlive⟩
  · have hSame := (document_kept hPasses hEffect hWritten).1
    exact Or.inl ⟨_, hOld record (hSame ▸ hRecord), rfl, hAlive⟩

variable (hJudged : Judged m tx batch) (hProduced : Produced m base tx.nextId batch) (hScoped : Scoped m tx)
  (hSane : Sane m base tx) (hAgree : Agree m d) (hNext : Agree next d') (hIds : m.IdsBelow base)
  (hPasses : Passes m d batch.writes actions) (hEffect : BatchEffect batch.writes (resolvedActions d actions) d d')

include hJudged hScoped hSane hAgree hNext hEffect

theorem Judged.founder {plan : DocumentPlan} (hPlan : plan ∈ batch.plans) {record : DocumentCreate}
    (hRecord : plan.record = .created record) (hScope : record.scope = .task taskId) :
    ∃ task, next.tasks.lookup taskId = some task ∧ (task.status = .terminal → plan.retire = true) := by
  obtain ⟨hOpen, -⟩ := hJudged.founded plan hPlan record taskId hRecord hScope
  rw [hJudged.finalTask hScoped hSane hAgree hNext hEffect, Staged.currentTask]
  cases hWrite : tx.taskWrite taskId with
  | some write =>
    refine ⟨write.record, rfl, fun hTerminal => hJudged.plans plan hPlan ?_⟩
    rw [DocumentPlan.scope, hRecord, PlanRecord.toCreate, hScope]
    exact decide_eq_true (mem_terminalTaskIds hScoped hSane hWrite hTerminal)
  | none =>
    obtain ⟨task, hTask, hStatus⟩ := hOpen.resolve_left fun hSome => hSome hWrite
    exact ⟨task, by rw [map_none, none_or, hTask], fun hTerminal => absurd hTerminal hStatus⟩

include hProduced hPasses hIds

omit hIds in
theorem Owned.housed_after (h : Owned m taskDocuments)
    (hState : next.documents.lookup id = some state) (hScope : state.record.scope = .task taskId) :
    next.tasks.lookup taskId ≠ none := by
  have hStays : m.tasks.lookup taskId ≠ none → next.tasks.lookup taskId ≠ none := by
    intro hStored hNone
    rw [hJudged.finalTask hScoped hSane hAgree hNext hEffect, Staged.currentTask, or_eq_none_iff] at hNone
    exact hStored hNone.2
  have hFound := hState
  rw [hNext.mirror.documents, map_eq_some_iff] at hState
  obtain ⟨record, hRecord, rfl⟩ := hState
  have hOld : ∀ old, d.documents.lookup id = some old → old.scope = record.scope → m.tasks.lookup taskId ≠ none := by
    intro old hLookup hSame
    refine h.housed id { record := old, revisions := View.revisions d id } taskId ?_ (hSame.trans hScope)
    rw [hAgree.mirror.documents, hLookup, map_some]
  by_cases hWritten : id ∈ batch.writes.filterMap Memory.documentOf
  · obtain ⟨record', hAfter, hCases⟩ := document_changed hAgree hPasses hEffect hWritten
    obtain rfl := some.inj (hAfter.symm.trans hRecord)
    rcases hCases with ⟨-, hCreated⟩ | ⟨old, hLookup, hSame, -⟩
    · obtain ⟨plan, hPlan, hPlanned, -⟩ := hProduced.created_plan hCreated
      obtain ⟨task, hTask, -⟩ := hJudged.founder hScoped hSane hAgree hNext hEffect hPlan hPlanned hScope
      rw [hTask]
      exact some_ne_none _
    · exact hStays (hOld old hLookup (congrArg DocumentCreate.scope hSame).symm)
  · have hSame := (document_kept hPasses hEffect hWritten).1
    exact hStays (hOld record (hSame ▸ hRecord) rfl)

theorem Owned.retired_after (h : Owned m taskDocuments) {task : TaskRecord}
    (hState : next.documents.lookup id = some state) (hScope : state.record.scope = .task taskId)
    (hTask : next.tasks.lookup taskId = some task) (hTerminal : task.status = .terminal) :
    state.record.retiredAt ≠ none := by
  intro hAlive
  obtain ⟨hRetires, hCases⟩ := Judged.alive_cases hProduced hAgree hNext hPasses hEffect hState hAlive
  rcases hCases with ⟨old, hOld, hOldScope, hOldAlive⟩ | ⟨plan, hPlan, hRecord, hId, -⟩
  · rw [hScope] at hOldScope
    obtain ⟨committed, hCommitted⟩ := ne_none_iff_exists'.mp (h.housed id old taskId hOld hOldScope)
    have hFinal := hJudged.finalTask hScoped hSane hAgree hNext hEffect taskId
    rw [hTask, Staged.currentTask] at hFinal
    cases hWrite : tx.taskWrite taskId with
    | none =>
      rw [hWrite, map_none, none_or, hCommitted] at hFinal
      obtain rfl := some.inj hFinal
      exact h.retired id old taskId task hOld hOldScope hCommitted hTerminal hOldAlive
    | some write =>
      rw [hWrite] at hFinal
      obtain rfl : task = write.record := some.inj hFinal
      have hListed := mem_terminalTaskIds hScoped hSane hWrite hTerminal
      have hKind : ∀ write, tx.taskWrite taskId = some write → write.kind ≠ .create := by
        intro other hOther hCreate
        have hNew := (hSane.tasks taskId other (hScoped.taskWrite.mp hOther)).2 hCreate
        have hHolds : m.Holds taskId .task := by simp [Memory.Holds, hCommitted]
        exact absurd (holds_below hAgree hIds hHolds) (Nat.not_lt.mpr hNew.1)
      obtain ⟨plan, hPlan, hId, hRetire⟩ := hJudged.retired taskId hListed hKind id old hOld hOldScope hOldAlive
      exact hRetires plan hPlan hId hRetire
  · obtain ⟨found, hFound, hRetire⟩ := hJudged.founder hScoped hSane hAgree hNext hEffect hPlan hRecord hScope
    obtain rfl := some.inj (hFound.symm.trans hTask)
    exact hRetires plan hPlan hId (hRetire hTerminal)

omit hScoped in
/-- What the session knows of a task after a batch are all its documents. -/
theorem Owned.complete_after {known : List (Nat × List DocumentRecord)} (h : Owned m fun taskId => known.lookup taskId)
    (seq : Nat) : Complete next fun taskId => (Line.indexTaskDocuments known tx batch seq).lookup taskId := by
  intro taskId records hRecords id state hState hScope hAlive
  obtain ⟨hRetires, hCases⟩ := Judged.alive_cases hProduced hAgree hNext hPasses hEffect hState hAlive
  -- the document is among those known of its task
  let Has (known : List (Nat × List DocumentRecord)) : Prop :=
    ∀ records, known.lookup taskId = some records → ∃ record ∈ records, record.id = id
  have hSet : ∀ (known : List (Nat × List DocumentRecord)) (other : Nat) (records : List DocumentRecord), Has known →
      (other = taskId → ∃ record ∈ records, record.id = id) → Has (set known other records) := by
    intro known other records hHas hRecords found hFound
    rw [lookup_set] at hFound
    split_ifs at hFound with hSame
    · exact some.inj hFound ▸ hRecords hSame.symm
    · exact hHas found hFound
  have hIndex : ∀ known, Has known → ∀ plan ∈ batch.plans, Has (Line.indexPlan seq known plan) := by
    intro known hHas plan hPlan
    rw [Line.indexPlan]
    split
    · rename_i other hOther
      split
      · exact hHas
      · rename_i records hRecords
        split_ifs with hRetire
        · refine hSet known other _ hHas fun hSame => ?_
          obtain ⟨record, hRecord, hId⟩ := hHas records (hSame ▸ hRecords)
          refine ⟨record, mem_filter.mpr ⟨hRecord, decide_eq_true fun hPlanId => ?_⟩, hId⟩
          exact hRetires plan hPlan (hPlanId.symm.trans hId) hRetire
        · split
          · refine hSet known other _ hHas fun hSame => ?_
            obtain ⟨record, hRecord, hId⟩ := hHas records (hSame ▸ hRecords)
            exact ⟨record, mem_append_left _ hRecord, hId⟩
          · exact hHas
    · exact hHas
  have hFold : ∀ {α : Type} (step : List (Nat × List DocumentRecord) → α → List (Nat × List DocumentRecord)) (list : List α)
      (known : List (Nat × List DocumentRecord)), (∀ known, ∀ x ∈ list, Has known → Has (step known x)) → Has known →
      Has (list.foldl step known) := by
    intro α step list
    induction list with
    | nil => exact fun known _ hHas => hHas
    | cons head tail ih =>
      intro known hStep hHas
      exact ih (step known head) (fun known x hx => hStep known x (mem_cons_of_mem head hx))
        (hStep known head mem_cons_self hHas)
  refine hFold _ batch.writes _ (fun known write _ hHas => ?_) ?_ records hRecords
  · cases write with
    | task value =>
      dsimp only
      split_ifs
      · intro found hFound
        rw [lookup_erase] at hFound
        split_ifs at hFound
        exact hHas found hFound
      · exact hHas
    | _ => exact hHas
  · rcases hCases with ⟨old, hOld, hOldScope, hOldAlive⟩ | ⟨plan, hPlan, hRecord, hId, -⟩
    · -- a document that was there: its task is not new
      refine hFold _ batch.plans _ (fun known plan hPlan hHas => hIndex known hHas plan hPlan) (hFold _ _ _
        (fun known other hOther hHas => hSet known other [] hHas fun hSame => ?_) fun found hFound => ?_)
      · obtain ⟨⟨key, write⟩, hEntry, hCreated⟩ := mem_filterMap.mp hOther
        split_ifs at hCreated with hKind
        rw [Option.any_eq_true] at hKind
        obtain ⟨write, rfl, hCreate⟩ := hKind
        have hNew := (hSane.tasks key write hEntry).2 (of_decide_eq_true hCreate)
        have hHolds : m.Holds taskId .task := h.housed id old taskId hOld (hOldScope.trans hScope)
        have hBelow := holds_below hAgree hIds hHolds
        rw [← hSame, ← some.inj hCreated] at hBelow
        exact absurd hBelow (Nat.not_lt.mpr hNew.1)
      · exact h.complete taskId found hFound id old hOld (hOldScope.trans hScope) hOldAlive
    · -- a new document: its plan adds it
      obtain ⟨first, rest, hSplit⟩ := append_of_mem hPlan
      rw [hSplit, foldl_append, foldl_cons]
      refine hFold _ rest _ (fun known other hOther hHas => hIndex known hHas other ?_) ?_
      · rw [hSplit]
        exact mem_append_right _ (mem_cons_of_mem _ hOther)
      · have hPlanScope : plan.scope = .task taskId := by
          rw [DocumentPlan.scope, hRecord]
          exact hScope
        obtain ⟨-, hChange⟩ := hJudged.founded plan hPlan _ taskId hRecord hScope
        obtain ⟨change, hSome⟩ := ne_none_iff_exists'.mp hChange
        have hKept : plan.retire = false := Bool.eq_false_iff.mpr (hRetires plan hPlan hId)
        intro found hFound
        rw [Line.indexPlan, hPlanScope] at hFound
        simp only [hKept, hRecord, hSome] at hFound
        split at hFound
        · rename_i hNone
          rw [hNone] at hFound
          cases hFound
        · rw [if_neg (by simp), lookup_set, if_pos rfl] at hFound
          rw [← some.inj hFound]
          refine ⟨_, mem_append_right _ (mem_singleton_self _), ?_⟩
          rw [DocumentPlan.id, hRecord] at hId
          exact hId

end Batch

namespace Line

variable {line : Line} {d : Sqlite}

/-- The owners of the line. -/
def Owned (line : Line) : Prop :=
  Transaction.Owned line.storage fun taskId => line.taskDocuments.lookup taskId

theorem scoped_transaction (line : Line) (commit : Commit) : Scoped line.storage (line.transaction commit) := by
  apply Scoped.run
  constructor
  · exact nodup_nil
  all_goals simp

theorem Sound.judged (h : Sound line d) (hOwned : line.Owned) {commit : Commit} {batch : Staged.Assembled}
    (hSettle : line.settle commit = .ok batch) : Judged line.storage (line.transaction commit) batch := by
  rw [Line.settle] at hSettle
  cases hSuccess : (line.transaction commit).settleSuccess line.storage fun taskId =>
      if taskId ∈ commit.published then line.taskDocuments.lookup taskId else none with
  | error error =>
    rw [hSuccess] at hSettle
    cases hSettle
  | ok assembled =>
    rw [hSuccess] at hSettle
    rw [← Except.ok.inj hSettle]
    rw [Staged.settleSuccess] at hSuccess
    split_ifs at hSuccess
    have hRange : line.storage.IdsBelow (MAX_SAFE_INTEGER + 1) := fun id hId => Nat.lt_of_lt_of_le (h.ids id hId) h.range
    refine ((line.scoped_transaction commit).assemble (h.transaction commit) h.agree hRange
      (fun taskId records hRecords => ?_) hSuccess).takeHeld commit.held
    split_ifs at hRecords
    exact hOwned.complete taskId records hRecords

theorem Owned.commit (h : line.Owned) (hSound : Sound line d) (commit : Commit) : (line.commit commit).Owned := by
  rcases commit_cases line commit with hSame | ⟨batch, next, hSettle, -, hStore, hNext⟩
  · rw [hSame]
    exact h
  · have hProduced := hSound.settle hSettle
    have hJudged := hSound.judged h hSettle
    have hScoped := line.scoped_transaction commit
    have hSane := hSound.transaction commit
    obtain ⟨d', actions, -, hAgree, hPasses, rfl⟩ := hSound.agree.commitBatch hStore
    have hEffect := hSound.agree.effect hPasses
    rw [hNext]
    exact
      { housed := fun id state taskId hState hScope =>
          Owned.housed_after hJudged hProduced hScoped hSane hSound.agree hAgree hPasses hEffect h hState hScope
        retired := fun id state taskId task hState hScope hTask hTerminal =>
          Owned.retired_after hJudged hProduced hScoped hSane hSound.agree hAgree hSound.ids hPasses hEffect h hState hScope
            hTask hTerminal
        complete :=
          Owned.complete_after hJudged hProduced hSane hSound.agree hAgree hSound.ids hPasses hEffect h line.storage.nextSeq }

theorem Owned.step (h : line.Owned) (hSound : Sound line d) (event : Event) : (line.step event).Owned := by
  cases event with
  | commit commit => exact h.commit hSound commit
  | restart => exact ⟨h.housed, h.retired, fun _ _ hNone => by cases hNone⟩

theorem foldl_invariant {P : Line → Prop} (hStep : ∀ line d event, Sound line d → line.Owned → P line → P (line.step event))
    (events : List Event) {line : Line} (hSound : ∃ d, Sound line d) (hOwned : line.Owned) (hP : P line) :
    (∃ d, Sound (events.foldl Line.step line) d) ∧ (events.foldl Line.step line).Owned ∧ P (events.foldl Line.step line) := by
  induction events generalizing line with
  | nil => exact ⟨hSound, hOwned, hP⟩
  | cons event rest ih =>
    obtain ⟨d, hSound⟩ := hSound
    exact ih (hSound.step event) (hOwned.step hSound event) (hStep line d event hSound hOwned hP)

theorem Owned.run (events : List Event) : (∃ d, Sound (Line.run events) d) ∧ (Line.run events).Owned := by
  have hStart : Line.Owned {} := by
    refine ⟨fun _ _ _ h => ?_, fun _ _ _ _ h => ?_, fun _ _ h => ?_⟩
    all_goals cases h
  obtain ⟨hSound, hOwned, -⟩ := @foldl_invariant (fun _ => True) (fun _ _ _ _ _ _ => trivial) events {} ⟨{}, .empty⟩ hStart
    trivial
  exact ⟨hSound, hOwned⟩

theorem Owned.terminal_kept (h : line.Owned) (hSound : Sound line d) {id : Nat} {task : TaskRecord}
    (hTask : line.storage.tasks.lookup id = some task) (hTerminal : task.status = .terminal) (event : Event) :
    (line.step event).storage.tasks.lookup id = some task := by
  cases event with
  | restart => exact hTask
  | commit commit =>
    change (line.commit commit).storage.tasks.lookup id = some task
    rcases commit_cases line commit with hSame | ⟨batch, next, hSettle, -, hStore, hNext⟩
    · rw [hSame]
      exact hTask
    · have hJudged := hSound.judged h hSettle
      have hScoped := line.scoped_transaction commit
      have hSane := hSound.transaction commit
      obtain ⟨d', actions, -, hAgree, hPasses, rfl⟩ := hSound.agree.commitBatch hStore
      rw [hNext, hJudged.finalTask hScoped hSane hSound.agree hAgree (hSound.agree.effect hPasses) id, Staged.currentTask,
        hJudged.terminal hScoped hSane hSound.agree hSound.ids hTask hTerminal, map_none, none_or]
      exact hTask

/-- A task that can own new work. -/
def LiveOwner (m : Memory) (id : Nat) : Prop :=
  ∃ task, m.tasks.lookup id = some task ∧ task.status ≠ .terminal ∧ task.status ≠ .completing ∧ task.abortRequested = false

theorem liveOwner_of_check {m next : Memory} {tx : Staged} {id : Nat} (hFinal : next.tasks.lookup id = tx.currentTask m id)
    (hCheck : tx.checkOwner m id = .ok ()) : LiveOwner next id := by
  rw [Staged.checkOwner] at hCheck
  cases hTask : tx.currentTask m id with
  | none => simp [hTask] at hCheck
  | some task =>
    simp only [hTask] at hCheck
    split_ifs at hCheck with hEnded hMarked
    obtain ⟨hTerminal, hCompleting⟩ := not_or.mp hEnded
    exact ⟨task, hFinal.trans hTask, hTerminal, hCompleting, Bool.eq_false_iff.mpr hMarked⟩

/-- Terminal tasks have no live documents and are never written again; what a
transaction creates below a task has a live owner as the transaction leaves it, and
a document it creates of a task that is terminal then is retired with it. -/
theorem owners_live (events : List Event) :
    (∀ id state taskId task, (run events).storage.documents.lookup id = some state → state.record.scope = .task taskId →
      (run events).storage.tasks.lookup taskId = some task → task.status = .terminal → state.record.retiredAt ≠ none) ∧
    (∀ later id task, (run events).storage.tasks.lookup id = some task → task.status = .terminal →
      (run (events ++ later)).storage.tasks.lookup id = some task) ∧
    ∀ commit batch next, (run events).settle commit = .ok batch →
      (run events).storage.commitBatch batch.writes = .ok next →
        (∀ value task, Write.task value ∈ batch.writes → (run events).storage.tasks.lookup value.id = some task →
          task.status ≠ .terminal) ∧
        (∀ value owner, Write.task value ∈ batch.writes → (run events).storage.tasks.lookup value.id = none →
          ownerOf value = some owner → LiveOwner next owner) ∧
        (∀ value owner, Write.conversation value ∈ batch.writes → value.owner = some owner → LiveOwner next owner.taskId) ∧
        (∀ record taskId, record ∈ batch.writes.filterMap creates → record.scope = .task taskId →
          ∃ task, next.tasks.lookup taskId = some task ∧
            (task.status = .terminal → Write.documentRetire record.id ∈ batch.writes)) ∧
        ∀ value, Write.submission value ∈ batch.writes → (run events).storage.submissions.lookup value.id = none →
          next.conversations.lookup value.conversationId ≠ none := by
  obtain ⟨⟨d, hSound⟩, hOwned⟩ := Owned.run events
  refine ⟨hOwned.retired, fun later id task hTask hTerminal => ?_, fun commit batch next hSettle hStore => ?_⟩
  · rw [run, foldl_append]
    refine (@foldl_invariant (fun line => line.storage.tasks.lookup id = some task) (fun line d event hSound hOwned hKept => ?_)
      later (run events) ⟨d, hSound⟩ hOwned hTask).2.2
    exact hOwned.terminal_kept hSound hKept hTerminal event
  have hProduced := hSound.settle hSettle
  have hJudged := hSound.judged hOwned hSettle
  have hScoped := (run events).scoped_transaction commit
  have hSane := hSound.transaction commit
  obtain ⟨d', actions, -, hAgree, hPasses, rfl⟩ := hSound.agree.commitBatch hStore
  have hEffect := hSound.agree.effect hPasses
  have hFinal := hJudged.finalTask hScoped hSane hSound.agree hAgree hEffect
  refine ⟨fun value task hWrite hTask hTerminal => ?_, fun value owner hWrite hNew hOwner => ?_,
    fun value owner hWrite hOwner => ?_, fun record taskId hRecord hScope => ?_, fun value hWrite hNew => ?_⟩
  · obtain ⟨write, hEntry, -⟩ := (mem_taskRecords hSane).mp ((hJudged.tasks value).mp hWrite)
    have hNone := hJudged.terminal hScoped hSane hSound.agree hSound.ids hTask hTerminal
    rw [hScoped.taskWrite.mpr hEntry] at hNone
    cases hNone
  · obtain ⟨write, hEntry, hRecord⟩ := (mem_taskRecords hSane).mp ((hJudged.tasks value).mp hWrite)
    refine liveOwner_of_check (hFinal owner) (hJudged.owners owner ?_)
    -- a task that is not stored is a created one
    have hKind : write.kind = .create := by
      have hChecked := hJudged.replaced _ hEntry
      obtain ⟨kind, record⟩ := write
      cases kind with
      | create => rfl
      | replace => simp [Staged.checkReplaced, hNew] at hChecked
    refine mem_append_right _ (mem_filterMap.mpr ⟨_, hEntry, ?_⟩)
    rw [bind_some, if_pos hKind, hRecord, hOwner]
  · refine liveOwner_of_check (hFinal owner.taskId) (hJudged.owners owner.taskId ?_)
    refine mem_append_left _ (mem_filterMap.mpr ⟨_, (hJudged.conversations value).mp hWrite, ?_⟩)
    exact congrArg (Option.map Owner.taskId) hOwner
  · obtain ⟨plan, hPlan, hPlanned, -⟩ := hProduced.created_plan hRecord
    obtain ⟨task, hTask, hRetire⟩ := hJudged.founder hScoped hSane hSound.agree hAgree hEffect hPlan hPlanned hScope
    refine ⟨task, hTask, fun hTerminal => ?_⟩
    have hRetired := hProduced.retired plan hPlan (hRetire hTerminal)
    rwa [DocumentPlan.id, hPlanned] at hRetired
  · rw [hAgree.mirror.conversations]
    rcases hJudged.submissions value hWrite hNew with hCreated | hStored
    · obtain ⟨record, hStaged, hId⟩ := hScoped.conversations _ hCreated
      rw [← hId]
      exact hEffect.putConversation record ((hJudged.conversations record).mpr hStaged)
    · rw [hSound.agree.mirror.conversations] at hStored
      exact (hEffect.conversations _).kept hStored

/-- A task of the first conversation. -/
def toolTask : TaskRecord where
  id := 2
  conversationId := 1
  kind := js "tool"
  status := .pending

/-- A session with a task. -/
def started : List Event :=
  opened ++ [.commit creating]

/-- A document of a task. -/
def notes : DocDefinition where
  kind := js "notes"
  version := 1
  scope := .task
  initial := fun _ => .null
  checkpointWhen := fun _ _ _ => false

/-- A commit that creates a document of the task. -/
def drafting : Commit where
  events := [.mint, .doc notes 2 [] none, .advance 0 3, .advance 0 3, .advance 0 3]

/-- The task ends, with a document. -/
def finished : List Event :=
  started ++ [.commit drafting, .commit { events := [.setTask { toolTask with status := .terminal } .null] }]

/-- A commit that creates a task below the task. -/
def branching : Commit where
  events := [.mint, .createTask 3 { kind := js "tool", owner := some 2 }]

theorem owners_live_finished :
    (∃ state, (run finished).storage.documents.lookup 3 = some state ∧ state.record.retiredAt ≠ none) ∧
    ∃ batch next, (run started).settle branching = .ok batch ∧ (run started).storage.commitBatch batch.writes = .ok next ∧
      LiveOwner next 2 :=
  ⟨⟨_, rfl, (owners_live finished).1 3 _ 2 _ rfl rfl rfl rfl⟩, _, _, rfl, rfl,
    ((owners_live started).2.2 branching _ _ rfl rfl).2.1 _ 2 (mem_singleton_self _) rfl rfl⟩

/-- The task is marked for abort. -/
def marked : List Event :=
  started ++ [.commit { events := [.setTask { toolTask with abortRequested := true } .null] }]

/-- A task that is marked still gets a document. -/
theorem marked_owner_gets_document : ∃ batch next, (run marked).settle drafting = .ok batch ∧
    (run marked).storage.commitBatch batch.writes = .ok next ∧ ∃ record ∈ batch.writes.filterMap creates,
      record.scope = .task 2 ∧ ∃ task, next.tasks.lookup 2 = some task ∧ task.abortRequested = true :=
  ⟨_, _, rfl, rfl, _, mem_singleton_self _, rfl, _, rfl, rfl⟩

end Line

end OctoberHarness.Transaction
