import OctoberHarness.Transaction.Batches

/-! The owners of what a transaction has staged: conversations that are there and
tasks that were not terminal. -/
namespace OctoberHarness.Transaction

open List OrderedMap

open Storage hiding scopeKey

/-- A conversation that a transaction created or the storage has. -/
def Placed (m : Memory) (tx : Staged) (id : Nat) : Prop :=
  id ∈ tx.createdConversationIds ∨ m.conversations.lookup id ≠ none

/-- A task that has a candidate, or is stored and not terminal. -/
def Open (m : Memory) (tx : Staged) (id : Nat) : Prop :=
  tx.taskWrite id ≠ none ∨ ∃ task, m.tasks.lookup id = some task ∧ task.status ≠ .terminal

/-- An entry in the scope of a task: no copy, and a new document only of an open task. -/
def Housed (m : Memory) (tx : Staged) (entry : DocumentEntry) : Prop :=
  ∀ taskId, entry.address.scope = .task taskId → (∀ record source, entry.target ≠ some (.forkCopy record source)) ∧
    ((entry.draft = .minting ∨ ∃ record version value, entry.target = some (.created record version value)) →
      Open m tx taskId)

/-- The owners of the state of a transaction. -/
structure Scoped (m : Memory) (tx : Staged) : Prop where
  keys : (tx.tasksById.map Prod.fst).Nodup
  conversations : ∀ id ∈ tx.createdConversationIds, ∃ record, Write.conversation record ∈ tx.writes ∧ record.id = id
  submissions : ∀ id value, (id, value) ∈ tx.submissions → Placed m tx value.conversationId
  documents : ∀ entry ∈ tx.documents, Housed m tx entry

/-- The candidates stay, and conversations are only added. -/
structure Widens (tx next : Staged) : Prop where
  created : ∀ id ∈ tx.createdConversationIds, id ∈ next.createdConversationIds
  tasks : ∀ id, tx.taskWrite id ≠ none → next.taskWrite id ≠ none

section Steps

variable {m : Memory} {tx next : Staged}

variable {id : Nat} {entry : DocumentEntry} {definition : DocDefinition}

theorem Placed.widen (h : Placed m tx id) (hWidens : Widens tx next) : Placed m next id :=
  h.imp_left (hWidens.created id)

theorem Housed.widen (h : Housed m tx entry) (hWidens : Widens tx next) : Housed m next entry :=
  fun taskId hScope => ⟨(h taskId hScope).1, fun hNew => ((h taskId hScope).2 hNew).imp_left (hWidens.tasks taskId)⟩

theorem Housed.empty {entry : DocumentEntry} (hTarget : entry.target = none) (hDraft : entry.draft ≠ .minting) :
    Housed m tx entry := by
  refine fun taskId _ => ⟨by simp [hTarget], fun hNew => ?_⟩
  rcases hNew with hMinting | ⟨record, version, value, hCreated⟩
  · exact absurd hMinting hDraft
  · rw [hTarget] at hCreated
    cases hCreated

namespace Scoped

theorem setEntry (h : Scoped m tx) (index : Nat) (hEntry : Housed m tx entry) :
    Scoped m (tx.setEntry index entry) where
  keys := h.keys
  conversations := h.conversations
  submissions := h.submissions
  documents found hFound := by
    rcases mem_or_eq_of_mem_set hFound with hOld | rfl
    · exact h.documents found hOld
    · exact hEntry

theorem pushEntry (h : Scoped m tx) (hEntry : Housed m tx entry) :
    Scoped m (tx.pushEntry entry) where
  keys := h.keys
  conversations := h.conversations
  submissions := h.submissions
  documents found hFound := by
    rcases mem_append.mp hFound with hOld | hNew
    · exact h.documents found hOld
    · exact mem_singleton.mp hNew ▸ hEntry

theorem mint (h : Scoped m tx) (hMint : tx.mint = .ok next) : Scoped m next ∧ Widens tx next := by
  rw [Staged.mint] at hMint
  split_ifs at hMint
  rw [← Except.ok.inj hMint]
  exact ⟨⟨h.keys, h.conversations, h.submissions, h.documents⟩, ⟨fun _ hId => hId, fun _ hTask => hTask⟩⟩

theorem take (h : Scoped m tx) (hTake : tx.take id = .ok next) : Scoped m next ∧ Widens tx next := by
  rw [Staged.take] at hTake
  split_ifs at hTake
  rw [← Except.ok.inj hTake]
  exact ⟨⟨h.keys, h.conversations, h.submissions, h.documents⟩, ⟨fun _ hId => hId, fun _ hTask => hTask⟩⟩

theorem keep {entry entry' : DocumentEntry} (h : Housed m tx entry) (hAddress : entry'.address = entry.address)
    (hTarget : entry'.target = entry.target) (hDraft : entry'.draft = .minting → entry.draft = .minting) :
    Housed m tx entry' := by
  intro taskId hScope
  rw [hAddress] at hScope
  rw [hTarget]
  exact ⟨(h taskId hScope).1, fun hNew => (h taskId hScope).2 (hNew.imp_left hDraft)⟩

theorem renew (h : Scoped m tx) (hNext : Renewed tx next) : Scoped m next := by
  rcases hNext with rfl | ⟨entry, hTarget, hDraft, rfl⟩ | ⟨index, old, entry, hOld, hAddress, hTarget, hDraft, rfl⟩
  · exact h
  · exact h.pushEntry (.empty hTarget hDraft)
  · exact h.setEntry index (keep (h.documents old (mem_of_getElem? hOld)) hAddress hTarget hDraft)

theorem edit (h : Scoped m tx) (index : Nat) (ops : List Delta.Op) (value : JsonValue) :
    Scoped m (tx.edit index ops value) := by
  rw [Staged.edit]
  cases hEntry : tx.documents[index]? with
  | none => exact h
  | some entry =>
    have hHoused := h.documents entry (mem_of_getElem? hEntry)
    simp only
    split
    · refine h.setEntry index fun taskId hScope => ⟨by simp, fun hNew => (hHoused taskId hScope).2 ?_⟩
      refine hNew.imp_right ?_
      rintro ⟨record, version, value, hCreated⟩
      cases hCreated
    · rename_i record version old hCreated
      exact h.setEntry index fun taskId hScope =>
        ⟨by simp, fun _ => (hHoused taskId hScope).2 (Or.inr ⟨record, version, old, hCreated⟩)⟩
    · exact h

theorem requireConversation (hRequire : tx.requireConversation m id = .ok ()) : Placed m tx id := by
  rw [Staged.requireConversation] at hRequire
  split_ifs at hRequire with hCreated hNone
  · exact Or.inl hCreated
  · exact Or.inr fun hMissing => hNone (Option.isNone_iff_eq_none.mpr hMissing)

theorem appendEntry (h : Scoped m tx) {id conversationId : Nat} {head : Option Staged.HeadDraft} {body : JsonValue}
    (hAppend : tx.appendEntry m id conversationId head body = .ok next) : Scoped m next := by
  rw [Staged.appendEntry, Outcome.bind_eq_ok] at hAppend
  obtain ⟨⟨⟩, -, hAppend⟩ := hAppend
  obtain ⟨taken, hTake, hAppend⟩ := Outcome.bind_eq_ok.mp hAppend
  obtain ⟨hTaken, -⟩ := h.take hTake
  rw [← Except.ok.inj hAppend]
  refine ⟨hTaken.keys, fun id hId => ?_, hTaken.submissions, hTaken.documents⟩
  obtain ⟨record, hWrite, hRecord⟩ := hTaken.conversations id hId
  exact ⟨record, mem_append_left _ hWrite, hRecord⟩

theorem setWrite (h : Scoped m tx) (id : Nat) (write : Option TaskWrite) (hKeeps : tx.taskWrite id ≠ none → write ≠ none) :
    Scoped m { tx with tasksById := set tx.tasksById id write } := by
  have hWidens : Widens tx { tx with tasksById := set tx.tasksById id write } := by
    refine ⟨fun _ hId => hId, fun other hOther => ?_⟩
    rw [Sane.taskWrite_set]
    split_ifs with hSame
    · exact hKeeps (hSame ▸ hOther)
    · exact hOther
  exact ⟨nodup_keys_set _ _ _ h.keys, h.conversations,
    fun other value hValue => (h.submissions other value hValue).widen hWidens,
    fun entry hEntry => (h.documents entry hEntry).widen hWidens⟩

theorem touchTask (h : Scoped m tx) (id : Nat) : Scoped m (tx.touchTask id) := by
  rw [Staged.touchTask]
  split_ifs with hTouched
  · exact h
  · refine h.setWrite id none fun hWrite => ?_
    rw [Staged.taskWrite, Option.not_isSome_iff_eq_none.mp hTouched] at hWrite
    exact absurd rfl hWrite

theorem createTask (h : Scoped m tx) {options : Staged.TaskOptions}
    (hCreate : tx.createTask m id options = .ok next) : Scoped m next := by
  rw [Staged.createTask, Outcome.bind_eq_ok] at hCreate
  obtain ⟨conversationId, -, hCreate⟩ := hCreate
  obtain ⟨⟨⟩, -, hCreate⟩ := Outcome.bind_eq_ok.mp hCreate
  obtain ⟨taken, hTake, hCreate⟩ := Outcome.bind_eq_ok.mp hCreate
  rw [← Except.ok.inj hCreate]
  exact (h.take hTake).1.setWrite id _ (by simp)

theorem setTask (h : Scoped m tx) {value : TaskRecord} {now : JsonValue} (hSet : tx.setTask value now = .ok next) :
    Scoped m next := by
  rw [Staged.setTask] at hSet
  split_ifs at hSet
  all_goals
    rw [← Except.ok.inj hSet]
    exact (h.touchTask value.id).setWrite value.id _ (by simp)

theorem createSubmission (h : Scoped m tx) {create : SubmissionRecord}
    (hCreate : tx.createSubmission m id create = .ok next) : Scoped m next := by
  rw [Staged.createSubmission, Outcome.bind_eq_ok] at hCreate
  obtain ⟨⟨⟩, hRequire, hCreate⟩ := hCreate
  obtain ⟨taken, hTake, hCreate⟩ := Outcome.bind_eq_ok.mp hCreate
  obtain ⟨hTaken, hWidens⟩ := h.take hTake
  have hPlaced := (requireConversation hRequire).widen hWidens
  rw [← Except.ok.inj hCreate]
  refine ⟨hTaken.keys, hTaken.conversations, fun other value hValue => ?_, hTaken.documents⟩
  rcases mem_set hValue with hLast | hOld
  · obtain ⟨rfl, rfl⟩ := Prod.mk.inj hLast
    exact hPlaced
  · exact hTaken.submissions other value hOld

/-- Copies of documents of conversations. -/
def Conversational (copies : List (DocumentCreate × DocumentCopySource)) : Prop :=
  ∀ copy ∈ copies, ∀ taskId, copy.1.scope ≠ .task taskId

theorem collectCopies {state last : Staged × List (DocumentCreate × DocumentCopySource)} {scope : Scope}
    {policy : ForkPolicy} {point : DocumentPoint} {child : Nat} (h : Scoped m state.1) (hCopies : Conversational state.2)
    (hCollect : Staged.collectCopies m scope point policy child state = .ok last) :
    Scoped m last.1 ∧ Conversational last.2 := by
  rw [Staged.collectCopies, Outcome.bind_eq_ok] at hCollect
  obtain ⟨sources, -, hCollect⟩ := hCollect
  refine @Outcome.foldlM_invariant _ _ _ (Staged.collectCopy policy point child)
    (fun _ found => Scoped m found.1 ∧ Conversational found.2) (fun _ found source next hFound hStep => ?_) sources [] state
    last ⟨h, hCopies⟩ hCollect
  obtain ⟨hScoped, hOld⟩ := hFound
  rw [Staged.collectCopy] at hStep
  split_ifs at hStep
  · exact Except.ok.inj hStep ▸ ⟨hScoped, hOld⟩
  · obtain ⟨minted, hMint, hStep⟩ := Outcome.bind_eq_ok.mp hStep
    obtain ⟨taken, hTake, hStep⟩ := Outcome.bind_eq_ok.mp hStep
    simp only at hStep
    split_ifs at hStep
    rw [← Except.ok.inj hStep]
    refine ⟨((hScoped.mint hMint).1.take hTake).1, fun copy hCopy => ?_⟩
    rcases mem_append.mp hCopy with hEarlier | hLast
    · exact hOld copy hEarlier
    · rw [mem_singleton.mp hLast]
      exact fun taskId hScope => by cases hScope

theorem pushConversation (h : Scoped m tx) (record : ConversationRecord)
    {copies : List (DocumentCreate × DocumentCopySource)} (hCopies : Conversational copies) :
    Scoped m (tx.pushConversation record copies) := by
  have hStaged : Scoped m (copies.foldl Staged.stageCopy tx) := by
    induction copies generalizing tx with
    | nil => exact h
    | cons copy rest ih =>
      obtain ⟨hFirst, hRest⟩ := forall_mem_cons.mp hCopies
      refine @ih (tx.stageCopy copy) ⟨h.keys, h.conversations, h.submissions, fun entry hEntry => ?_⟩ hRest
      rcases mem_append.mp hEntry with hOld | hNew
      · exact h.documents entry hOld
      · rw [mem_singleton.mp hNew]
        exact fun taskId hScope => absurd hScope (hFirst taskId)
  rw [Staged.pushConversation]
  generalize copies.foldl Staged.stageCopy tx = staged at hStaged
  have hWidens : Widens staged
      { staged with
        forkSourceConversationIds := staged.forkSourceConversationIds ++ (record.parent.map Parent.conversationId).toList
        createdConversationIds := staged.createdConversationIds ++ [record.id]
        writes := staged.writes ++ [.conversation record] } :=
    ⟨fun id hId => mem_append_left _ hId, fun _ hTask => hTask⟩
  refine ⟨hStaged.keys, fun id hId => ?_, fun id value hValue => (hStaged.submissions id value hValue).widen hWidens,
    fun entry hEntry => (hStaged.documents entry hEntry).widen hWidens⟩
  rcases mem_append.mp hId with hOld | hNew
  · obtain ⟨found, hWrite, hFound⟩ := hStaged.conversations id hOld
    exact ⟨found, mem_append_left _ hWrite, hFound⟩
  · exact ⟨record, mem_append_right _ (mem_singleton_self _), (mem_singleton.mp hNew).symm⟩

theorem stageConversation (h : Scoped m tx) {parent : Option Parent} {ownerTaskId : Option Nat}
    (hStage : tx.stageConversation m id parent ownerTaskId = .ok next) : Scoped m next := by
  rw [Staged.stageConversation, Outcome.bind_eq_ok] at hStage
  obtain ⟨taken, hTake, hStage⟩ := hStage
  obtain ⟨owner, -, hStage⟩ := Outcome.bind_eq_ok.mp hStage
  obtain ⟨⟨after, copies⟩, hCopies, hStage⟩ := Outcome.bind_eq_ok.mp hStage
  obtain ⟨hTaken, -⟩ := h.take hTake
  rw [← Except.ok.inj hStage]
  cases parent with
  | none =>
    obtain ⟨rfl, rfl⟩ := Prod.mk.inj (Except.ok.inj hCopies)
    exact hTaken.pushConversation _ fun copy hCopy => by simp at hCopy
  | some parent =>
    rw [Staged.conversationCopies, Staged.prepareForkDocumentCopies] at hCopies
    split at hCopies
    · simp at hCopies
    · simp at hCopies
    · obtain ⟨first, hFirst, hSecond⟩ := Outcome.bind_eq_ok.mp hCopies
      obtain ⟨hMiddle, hCopied⟩ := hTaken.collectCopies (fun copy hCopy => by simp at hCopy) hFirst
      obtain ⟨hAfter, hCopied⟩ := hMiddle.collectCopies hCopied hSecond
      exact hAfter.pushConversation _ hCopied

theorem checkScope {entry next : DocumentEntry} (h : Housed m tx entry) (hCheck : tx.checkScope m entry = .ok next) :
    Housed m tx next := by
  rw [checkScope_target hCheck]
  intro taskId hScope
  refine ⟨(h taskId hScope).1, fun _ => ?_⟩
  rw [Staged.checkScope, show entry.address.scope = .task taskId from hScope] at hCheck
  simp only at hCheck
  split at hCheck
  · simp at hCheck
  · rename_i task hCurrent
    split_ifs at hCheck with hTerminal
    rcases Option.or_eq_some_iff.mp hCurrent with hStaged | ⟨-, hStored⟩
    · exact Or.inl fun hNone => by simp [hNone] at hStaged
    · exact Or.inr ⟨task, hStored, hTerminal⟩

theorem of_target {target : DocumentTarget} (hTarget : entry.target = some target)
    (hDraft : entry.draft ≠ .minting) (hCopy : ∀ record source, target ≠ .forkCopy record source)
    (hCreated : ∀ record version value, target ≠ .created record version value) : Housed m tx entry := by
  intro taskId _
  refine ⟨fun record source hSame => hCopy record source (Option.some.inj (hTarget.symm.trans hSame)), fun hNew => ?_⟩
  rcases hNew with hMinting | ⟨record, version, value, hSame⟩
  · exact absurd hMinting hDraft
  · exact absurd (Option.some.inj (hTarget.symm.trans hSame)) (hCreated record version value)

theorem advanceEntry {entry entry' : DocumentEntry} (h : Scoped m tx)
    (hHoused : Housed m tx entry) (hAdvance : tx.advanceEntry m entry definition id = .ok (next, entry')) :
    Scoped m next ∧ Housed m next entry' := by
  have hMap : ∀ {result : Except TxError DocumentEntry}, (tx, ·) <$> result = .ok (next, entry') →
      next = tx ∧ result = .ok entry' := by
    intro result hResult
    cases result with
    | error error => exact absurd hResult (by simp [Functor.map, Except.map])
    | ok value =>
      obtain ⟨hSame, hEntry⟩ := Prod.mk.inj (Except.ok.inj hResult)
      exact ⟨hSame.symm, congrArg _ hEntry⟩
  rw [Staged.advanceEntry] at hAdvance
  split at hAdvance
  · obtain ⟨rfl, hLoad⟩ := hMap hAdvance
    refine ⟨h, ?_⟩
    rw [Staged.load] at hLoad
    split at hLoad
    · simp at hLoad
    · rw [← Except.ok.inj hLoad]
      exact keep hHoused rfl rfl (by simp)
    · split at hLoad
      · simp at hLoad
      · simp at hLoad
      · obtain ⟨value, -, hLoad⟩ := Outcome.bind_eq_ok.mp hLoad
        rw [← Except.ok.inj hLoad]
        exact of_target rfl (by simp) (by simp) (by simp)
  · obtain ⟨rfl, hCheck⟩ := hMap hAdvance
    exact ⟨h, checkScope hHoused hCheck⟩
  · rename_i hMinting
    obtain ⟨taken, hTake, hAdvance⟩ := Outcome.bind_eq_ok.mp hAdvance
    obtain ⟨rfl, rfl⟩ := Prod.mk.inj (Except.ok.inj hAdvance)
    obtain ⟨hTaken, hWidens⟩ := h.take hTake
    exact ⟨hTaken, fun taskId hScope =>
      ⟨by simp, fun _ => ((hHoused taskId hScope).2 (Or.inl hMinting)).imp_left (hWidens.tasks taskId)⟩⟩
  · split at hAdvance
    · rename_i record source hCopy
      obtain ⟨rfl, hAcquire⟩ := hMap hAdvance
      refine ⟨h, fun taskId hScope => ?_⟩
      -- a copy is not in the scope of a task
      have hAddress : entry'.address = entry.address := by
        rw [Staged.acquireForkCopy] at hAcquire
        split at hAcquire
        · simp at hAcquire
        · simp at hAcquire
        · split_ifs at hAcquire
          obtain ⟨value, -, hAcquire⟩ := Outcome.bind_eq_ok.mp hAcquire
          rw [← Except.ok.inj hAcquire]
      exact absurd hCopy ((hHoused taskId (hAddress ▸ hScope)).1 record source)
    · obtain ⟨rfl, rfl⟩ := Prod.mk.inj (Except.ok.inj hAdvance)
      exact ⟨h, hHoused⟩
  · obtain ⟨rfl, hFind⟩ := hMap hAdvance
    refine ⟨h, ?_⟩
    rw [Staged.findRetirement] at hFind
    split at hFind
    · simp at hFind
    · rw [← Except.ok.inj hFind]
      exact keep hHoused rfl rfl (by simp)
    · obtain ⟨⟨⟩, -, hFind⟩ := Outcome.bind_eq_ok.mp hFind
      rw [← Except.ok.inj hFind]
      exact of_target rfl (by simp) (by simp) (by simp)
  · obtain ⟨rfl, rfl⟩ := Prod.mk.inj (Except.ok.inj hAdvance)
    exact ⟨h, hHoused⟩

theorem advance (h : Scoped m tx) (index id : Nat) : Scoped m (tx.advance m index id).1 := by
  rw [Staged.advance]
  split
  · exact h
  · rename_i entry hEntry
    have hHoused := h.documents entry (mem_of_getElem? hEntry)
    split
    · exact h
    · split
      · rename_i hAdvance
        obtain ⟨hNext, hTarget⟩ := h.advanceEntry hHoused hAdvance
        exact hNext.setEntry index hTarget
      · refine h.setEntry index (keep hHoused rfl rfl fun hDraft => ?_)
        dsimp only at hDraft
        split_ifs at hDraft

theorem step (h : Scoped m tx) (event : Staged.Event) : Scoped m (Staged.step m tx event).1 := by
  have hOrElse : ∀ {result : Except TxError Staged}, (∀ next, result = .ok next → Scoped m next) →
      Scoped m (tx.orElse result).1 := by
    intro result hResult
    cases result with
    | error error => exact h
    | ok next => exact hResult next rfl
  cases event with
  | mint => exact hOrElse fun next hNext => (h.mint hNext).1
  | createRootConversation => exact h.pushConversation _ fun copy hCopy => by simp at hCopy
  | stageConversation id parent ownerTaskId => exact hOrElse fun next hNext => h.stageConversation hNext
  | appendEntry id conversationId head body => exact hOrElse fun next hNext => h.appendEntry hNext
  | createTask id options => exact hOrElse fun next hNext => h.createTask hNext
  | createSubmission id create => exact hOrElse fun next hNext => h.createSubmission hNext
  | changeSubmission id change => exact ⟨h.keys, h.conversations, h.submissions, h.documents⟩
  | setTask value now => exact hOrElse fun next hNext => h.setTask hNext
  | doc definition owner key seed => exact hOrElse fun next hNext => h.renew (doc_renewed hNext)
  | retireDoc definition owner key => exact hOrElse fun next hNext => h.renew (retireDoc_renewed hNext)
  | advance index id => exact h.advance index id
  | edit index ops value => exact h.edit index ops value

theorem run (h : Scoped m tx) (events : List Staged.Event) : Scoped m (Staged.run m tx events) := by
  induction events generalizing tx with
  | nil => exact h
  | cons event rest ih => exact ih (h.step event)

end Scoped

end Steps

end OctoberHarness.Transaction
