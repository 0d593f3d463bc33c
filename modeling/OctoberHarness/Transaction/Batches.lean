import OctoberHarness.Storage.EntryScans
import OctoberHarness.Transaction.Staged

/-! The batches that transactions produce: where their writes come from, and the
plans and keys behind the writes of documents. -/
namespace OctoberHarness.Transaction

open List

open Storage hiding scopeKey

open Option

def Incarnates (m : Memory) (record : DocumentCreate) : Prop :=
  ∃ state, m.documents.lookup record.id = some state ∧ state.record.toDocumentCreate = record

/-- A plan of a new document, or of one that is stored. -/
def Planned (m : Memory) (base top : Nat) : PlanRecord → Prop
  | .created record => New base top record.id
  | .committed record => Incarnates m record.toDocumentCreate

/-- The content of a plan is about its record. -/
def Fitting (plan : DocumentPlan) : PlanContent → Prop
  | .create record _ _ | .copy record _ => plan.record = .created record
  | .change id _ => plan.id = id

structure SanePlan (m : Memory) (base top : Nat) (plan : DocumentPlan) : Prop where
  addressId : plan.addressId = addressId plan.record.toCreate.address
  record : Planned m base top plan.record
  content : ∀ content, plan.content = some content → Fitting plan content
  written : ∀ record, plan.record = .created record → ∃ content, plan.content = some content ∧
    creates content.write = some record

variable {m : Memory} {base top : Nat} {plan : DocumentPlan}

theorem Current.planned {address : DocumentAddress} {record : DocumentRecord} (h : Current m address record)
    (base top : Nat) : Planned m base top (.committed record) := by
  obtain ⟨revisions, hLookup⟩ := h.stored
  exact ⟨_, hLookup, rfl⟩

theorem SanePlan.of_planDocument {entry : DocumentEntry}
    (hEntry : ∀ target, entry.target = some target → StagedTarget m base top entry.address target)
    (hPlan : planDocument entry = some plan) : SanePlan m base top plan := by
  rw [planDocument] at hPlan
  cases hTarget : entry.target with
  | none => simp [hTarget] at hPlan
  | some target =>
    have hStaged := hEntry target hTarget
    simp only [hTarget] at hPlan
    cases target with
    | loaded document ops value =>
      obtain ⟨definition, -, rfl⟩ := map_eq_some_iff.mp hPlan
      have hCurrent : Current m entry.address document.record := hStaged
      refine ⟨congrArg Transaction.addressId hCurrent.address.symm, hCurrent.planned base top, fun content hContent => ?_,
        fun created hCreated => by cases hCreated⟩
      simp only [loadedContent] at hContent
      split_ifs at hContent
      · rw [← some.inj hContent]
        rfl
      · rw [← some.inj hContent]
        rfl
    | created record version value =>
      obtain ⟨hAddress, hNew⟩ := hStaged
      rw [← some.inj hPlan]
      refine ⟨congrArg Transaction.addressId hAddress.symm, hNew, fun content hContent => ?_,
        fun created hCreated => ⟨_, rfl, congrArg some (PlanRecord.created.inj hCreated)⟩⟩
      rw [← some.inj hContent]
      rfl
    | forkCopy record source =>
      obtain ⟨hAddress, hNew⟩ := hStaged
      rw [← some.inj hPlan]
      refine ⟨congrArg Transaction.addressId hAddress.symm, hNew, fun content hContent => ?_,
        fun created hCreated => ⟨_, rfl, congrArg some (PlanRecord.created.inj hCreated)⟩⟩
      rw [← some.inj hContent]
      rfl
    | retireOnly record =>
      have hCurrent : Current m entry.address record := hStaged
      rw [← some.inj hPlan]
      exact ⟨congrArg Transaction.addressId hCurrent.address.symm, hCurrent.planned base top,
        fun content hContent => by simp at hContent, fun created hCreated => by cases hCreated⟩

theorem SanePlan.retire (h : SanePlan m base top plan) (retire : Bool) :
    SanePlan m base top { plan with retire } := by
  refine ⟨h.addressId, h.record, fun content hContent => ?_, h.written⟩
  have hFitting := h.content content hContent
  cases content <;> exact hFitting

theorem SanePlan.checkpoint (h : SanePlan m base top plan) :
    SanePlan m base top (Staged.checkpoint plan) := by
  rw [Staged.checkpoint]
  split
  · rename_i hContent _
    split_ifs
    · refine ⟨h.addressId, h.record, fun content hSame => ?_, fun record hRecord => ?_⟩
      · have hFitting : plan.id = _ := h.content _ hContent
        rw [← some.inj hSame]
        exact hFitting
      · -- a new document has no change
        obtain ⟨content, hSome, hCreates⟩ := h.written record hRecord
        rw [hContent] at hSome
        rw [← some.inj hSome] at hCreates
        cases hCreates
    · exact h
  · exact h

/-! Scans of all pages. -/

variable {query : DocumentQuery} {found : List DocumentRecord}

theorem scanAll_followed {fuel : Nat} {cursor : Option Cursor} (h : Staged.scanAll m query fuel cursor = .ok found) :
    Paging.Followed (pages (m.scanDocuments query 256)) cursor found := by
  induction fuel generalizing cursor found with
  | zero => simp [Staged.scanAll] at h
  | succ fuel ih =>
    rw [Staged.scanAll] at h
    cases hPage : m.scanDocuments query 256 cursor with
    | error error => simp [hPage] at h
    | ok page =>
      simp only [hPage] at h
      cases hNext : page.next with
      | none =>
        simp only [hNext] at h
        rw [← Except.ok.inj h]
        exact .last (by rw [pages, hPage, ← hNext]; rfl)
      | some next =>
        simp only [hNext] at h
        obtain ⟨rest, hRest, h⟩ := Outcome.bind_eq_ok.mp h
        rw [← Except.ok.inj h]
        exact .more (by rw [pages, hPage, ← hNext]; rfl) (ih hRest)

theorem mem_scanAll {d : Sqlite} (h : Agree m d) (hIds : m.IdsBelow (MAX_SAFE_INTEGER + 1)) {fuel : Nat}
    (hScan : Staged.scanAll m query fuel none = .ok found)
    (record : DocumentRecord) : record ∈ found ↔
      (∃ revisions, m.documents.lookup record.id = some { record, revisions }) ∧ View.keepsDocument query record = true := by
  obtain ⟨items, -, hItems, hFollowed⟩ := h.exact_documents hIds query
  rw [(scanAll_followed hScan).unique (hFollowed 256 (by decide)), hItems]
  refine and_congr_left fun _ => ⟨?_, ?_⟩
  · rintro ⟨⟨record', revisions⟩, hLookup, rfl⟩
    exact ⟨revisions, hLookup⟩
  · rintro ⟨revisions, hLookup⟩
    exact ⟨_, hLookup, rfl⟩

/-! Assembled batches. -/

/-- A plan behind a write of a document. -/
def Backs (plan : DocumentPlan) : Write → Prop
  | .documentCreate record _ _ | .documentCopy record _ => plan.record = .created record ∧ plan.content ≠ none
  | .documentChange id _ => plan.id = id ∧ plan.content ≠ none
  | .documentRetire id => plan.id = id ∧ plan.retire = true
  | _ => True

/-- What holds of a batch that a transaction produced. -/
structure Produced (m : Memory) (base top : Nat) (batch : Staged.Assembled) : Prop where
  conversations : ∀ record, Write.conversation record ∈ batch.writes → record.id < top ∧ Inherits m base record
  entries : ∀ value, Write.entry value ∈ batch.writes → New base top value.id
  tasks : ∀ value, Write.task value ∈ batch.writes → value.id < top
  submissions : ∀ value, Write.submission value ∈ batch.writes → value.id < top ∧
    ∀ old, m.submissions.lookup value.id = some old → Memory.requestOf old = Memory.requestOf value
  plans : ∀ plan ∈ batch.plans, SanePlan m base top plan
  documents : ∀ write ∈ batch.writes, Memory.documentOf write ≠ none → ∃ plan ∈ batch.plans, Backs plan write
  created : ∀ plan ∈ batch.plans, ∀ record, plan.record = .created record → record ∈ batch.writes.filterMap creates
  retired : ∀ plan ∈ batch.plans, plan.retire = true → Write.documentRetire plan.id ∈ batch.writes

/-- The documents a session knows of a task are stored. -/
def Known (m : Memory) (taskDocuments : Nat → Option (List DocumentRecord)) : Prop :=
  ∀ taskId records, taskDocuments taskId = some records → ∀ record ∈ records,
    Incarnates m record.toDocumentCreate ∧ record.scope = .task taskId

section Assembly

variable {m : Memory} {d : Sqlite} {base : Nat} {tx : Staged} {taskDocuments : Nat → Option (List DocumentRecord)}

theorem documentsOf_stored (hAgree : Agree m d) (hIds : m.IdsBelow (MAX_SAFE_INTEGER + 1)) (hKnown : Known m taskDocuments)
    {taskId : Nat} {records : List DocumentRecord} (hRecords : Staged.documentsOf m taskDocuments taskId = .ok records)
    {record : DocumentRecord} (hRecord : record ∈ records) :
    Incarnates m record.toDocumentCreate ∧ record.scope = .task taskId := by
  rw [Staged.documentsOf] at hRecords
  cases hTask : taskDocuments taskId with
  | some known =>
    simp only [hTask] at hRecords
    rw [← Except.ok.inj hRecords] at hRecord
    exact hKnown taskId known hTask record hRecord
  | none =>
    simp only [hTask] at hRecords
    obtain ⟨⟨revisions, hLookup⟩, hKeeps⟩ := (mem_scanAll hAgree hIds hRecords record).mp hRecord
    refine ⟨⟨_, hLookup, rfl⟩, ?_⟩
    rw [View.keepsDocument, Bool.and_eq_true, Bool.and_eq_true] at hKeeps
    exact of_decide_eq_true hKeeps.1.1

variable {top : Nat}

/-- The plans after the documents of terminal tasks are retired: the earlier ones
with more retirements, and new ones of stored documents. -/
theorem retireTask_sane (hAgree : Agree m d) (hIds : m.IdsBelow (MAX_SAFE_INTEGER + 1)) (hKnown : Known m taskDocuments) {state next : List DocumentPlan × List Nat} {taskId : Nat}
    (hPlans : ∀ plan ∈ state.1, SanePlan m base top plan)
    (hRetire : tx.retireTask m taskDocuments state taskId = .ok next) : ∀ plan ∈ next.1, SanePlan m base top plan := by
  rw [Staged.retireTask] at hRetire
  split_ifs at hRetire
  · exact Except.ok.inj hRetire ▸ hPlans
  · rw [Outcome.bind_eq_ok] at hRetire
    obtain ⟨records, hRecords, hRetire⟩ := hRetire
    rw [← Except.ok.inj hRetire]
    have hStored : ∀ record ∈ records, Incarnates m record.toDocumentCreate :=
      fun record hMem => (documentsOf_stored hAgree hIds hKnown hRecords hMem).1
    clear hRecords hRetire
    induction records generalizing state with
    | nil => exact hPlans
    | cons record rest ih =>
      obtain ⟨hFirst, hRest⟩ := forall_mem_cons.mp hStored
      refine ih (fun plan hPlan => ?_) hRest
      simp only [Staged.retireDocument] at hPlan
      split_ifs at hPlan
      · exact hPlans plan hPlan
      · rcases List.mem_append.mp hPlan with hOld | hNew
        · exact hPlans plan hOld
        · rw [mem_singleton.mp hNew]
          exact ⟨rfl, hFirst, fun content hContent => by simp at hContent, fun record hRecord => by cases hRecord⟩

theorem retireTasks_sane (hAgree : Agree m d) (hIds : m.IdsBelow (MAX_SAFE_INTEGER + 1)) (hKnown : Known m taskDocuments) {plans next : List DocumentPlan} (hPlans : ∀ plan ∈ plans, SanePlan m base top plan)
    (hRetire : tx.retireTasks m taskDocuments plans = .ok next) : ∀ plan ∈ next, SanePlan m base top plan := by
  rw [Staged.retireTasks, Outcome.bind_eq_ok] at hRetire
  obtain ⟨state, hRun, hRetire⟩ := hRetire
  rw [← Except.ok.inj hRetire]
  refine @Outcome.foldlM_invariant _ _ _ (tx.retireTask m taskDocuments)
    (fun _ state => ∀ plan ∈ state.1, SanePlan m base top plan)
    (fun _ state taskId next hState hStep => retireTask_sane hAgree hIds hKnown hState hStep) _ [] _ state
    (fun plan hPlan => ?_) hRun
  obtain ⟨old, hOld, rfl⟩ := List.mem_map.mp hPlan
  split_ifs
  · exact (hPlans old hOld).retire true
  · exact hPlans old hOld

variable {plan : DocumentPlan}

theorem planWrites_document {write : Write} (hWrite : write ∈ Staged.planWrites plan) :
    Memory.documentOf write ≠ none := by
  rw [Staged.planWrites, List.mem_append] at hWrite
  rcases hWrite with hContent | hRetire
  · obtain ⟨content, -, rfl⟩ := map_eq_some_iff.mp (mem_toList.mp hContent)
    cases content <;> exact some_ne_none _
  · split_ifs at hRetire
    · rw [mem_singleton.mp hRetire]
      exact some_ne_none _
    · simp at hRetire

theorem planWrites_backed (h : SanePlan m base top plan) {write : Write}
    (hWrite : write ∈ Staged.planWrites plan) : Backs plan write := by
  rw [Staged.planWrites, List.mem_append] at hWrite
  rcases hWrite with hContent | hRetire
  · obtain ⟨content, hSome, rfl⟩ := map_eq_some_iff.mp (mem_toList.mp hContent)
    have hFitting := h.content content hSome
    have hPresent : plan.content ≠ none := by simp [hSome]
    cases content <;> exact ⟨hFitting, hPresent⟩
  · split_ifs at hRetire with hRetired
    · rw [mem_singleton.mp hRetire]
      exact ⟨rfl, hRetired⟩
    · simp at hRetire

theorem applySubmissionChange_same {current next : SubmissionRecord} {change : SubmissionChange}
    (h : applySubmissionChange current change = .ok next) :
    next.id = current.id ∧ next.conversationId = current.conversationId ∧ next.requestId = current.requestId := by
  rw [applySubmissionChange] at h
  split at h
  · exact Except.ok.inj h ▸ ⟨rfl, rfl, rfl⟩
  · exact Except.ok.inj h ▸ ⟨rfl, rfl, rfl⟩
  · cases change with
    | placed entry =>
      simp only at h
      split_ifs at h <;> exact Except.ok.inj h ▸ ⟨rfl, rfl, rfl⟩
    | done answer =>
      simp only at h
      split_ifs at h
      exact Except.ok.inj h ▸ ⟨rfl, rfl, rfl⟩
    | unanswered reason detail => exact Except.ok.inj h ▸ ⟨rfl, rfl, rfl⟩

variable {submissions : List (Nat × SubmissionRecord)}

theorem resolveChange_sane {next : List (Nat × SubmissionRecord)} {entry : Nat × SubmissionChange}
    (hStored : ∀ id value, m.submissions.lookup id = some value → value.id = id)
    (h : ∀ id value, (id, value) ∈ submissions → StagedSubmission m base top id value)
    (hResolve : Staged.resolveChange m submissions entry = .ok next) :
    ∀ id value, (id, value) ∈ next → StagedSubmission m base top id value := by
  rw [Staged.resolveChange] at hResolve
  cases hCurrent : (submissions.lookup entry.1).or (m.submissions.lookup entry.1) with
  | none => simp [hCurrent] at hResolve
  | some current =>
    simp only [hCurrent] at hResolve
    rw [Outcome.bind_eq_ok] at hResolve
    obtain ⟨changed, hApply, hResolve⟩ := hResolve
    have hSame := applySubmissionChange_same hApply
    have hOld : StagedSubmission m base top entry.1 current := by
      rcases or_eq_some_iff.mp hCurrent with hStaged | ⟨-, hCommitted⟩
      · exact h _ _ (OrderedMap.mem_of_lookup hStaged)
      · exact ⟨hStored _ _ hCommitted, Or.inr ⟨current, hCommitted, rfl⟩⟩
    rw [← Except.ok.inj hResolve]
    split_ifs
    · exact h
    · intro id value hValue
      rcases OrderedMap.mem_set hValue with hLast | hEarlier
      · obtain ⟨rfl, rfl⟩ := Prod.mk.inj hLast
        refine ⟨hSame.1.trans hOld.1, hOld.2.imp_right ?_⟩
        rintro ⟨old, hLookup, hRequest⟩
        refine ⟨old, hLookup, hRequest.trans ?_⟩
        rw [Memory.requestOf, Memory.requestOf, hSame.2.1, hSame.2.2]
      · exact h id value hEarlier

theorem Sane.resolveChanges (h : Sane m base tx) (hAgree : Agree m d)
    (hResolve : tx.submissionChanges.foldlM (Staged.resolveChange m) tx.submissions = .ok submissions) :
    ∀ id value, (id, value) ∈ submissions → StagedSubmission m base tx.nextId id value := by
  have hStored : ∀ id value, m.submissions.lookup id = some value → value.id = id := fun id value hLookup =>
    hAgree.stored.kept.submissions.2 id value (hAgree.mirror.submissions id ▸ hLookup)
  exact @Outcome.foldlM_invariant _ _ _ (Staged.resolveChange m)
    (fun _ found => ∀ id value, (id, value) ∈ found → StagedSubmission m base tx.nextId id value)
    (fun _ _ _ _ hFound hStep => resolveChange_sane hStored hFound hStep) _ [] _ _ h.submissions hResolve

/-- The batch of a transaction. -/
theorem Sane.assemble (h : Sane m base tx) (hAgree : Agree m d) (hIds : m.IdsBelow base)
    (hBase : base ≤ MAX_SAFE_INTEGER + 1) (hKnown : Known m taskDocuments) {batch : Staged.Assembled}
    (hAssemble : tx.assemble m taskDocuments = .ok batch) : Produced m base tx.nextId batch := by
  have hRange : m.IdsBelow (MAX_SAFE_INTEGER + 1) := fun id hId => Nat.lt_of_lt_of_le (hIds id hId) hBase
  rw [Staged.assemble, Outcome.bind_eq_ok] at hAssemble
  obtain ⟨⟨⟩, -, hAssemble⟩ := hAssemble
  obtain ⟨⟨⟩, -, hAssemble⟩ := Outcome.bind_eq_ok.mp hAssemble
  obtain ⟨⟨⟩, hReplaced, hAssemble⟩ := Outcome.bind_eq_ok.mp hAssemble
  obtain ⟨plans, hRetire, hAssemble⟩ := Outcome.bind_eq_ok.mp hAssemble
  obtain ⟨submissions, hResolve, hAssemble⟩ := Outcome.bind_eq_ok.mp hAssemble
  have hPlans : ∀ plan ∈ plans, SanePlan m base tx.nextId plan := by
    refine retireTasks_sane hAgree hRange hKnown (fun plan hPlan => ?_) hRetire
    obtain ⟨entry, hEntry, hPlanned⟩ := mem_filterMap.mp hPlan
    exact .of_planDocument (h.documents entry hEntry) hPlanned
  have hSubmissions := h.resolveChanges hAgree hResolve
  rw [← Except.ok.inj hAssemble]
  have hWrite : ∀ write, write ∈ tx.writes ++ submissions.map (fun entry => Write.submission entry.2) ++
      tx.taskRecords.map .task ++ (plans.map Staged.checkpoint).flatMap Staged.planWrites →
      StagedWrite m base tx.nextId write ∨ (∃ id value, (id, value) ∈ submissions ∧ write = .submission value) ∨
        (∃ value ∈ tx.taskRecords, write = .task value) ∨
          ∃ plan ∈ plans.map Staged.checkpoint, write ∈ Staged.planWrites plan := by
    intro write hMem
    simp only [List.mem_append, List.mem_map, List.mem_flatMap] at hMem
    rcases hMem with ((hStaged | ⟨⟨id, value⟩, hValue, rfl⟩) | ⟨value, hValue, rfl⟩) | ⟨plan, hPlan, hMem⟩
    · exact Or.inl (h.writes write hStaged)
    · exact Or.inr (Or.inl ⟨id, value, hValue, rfl⟩)
    · exact Or.inr (Or.inr (Or.inl ⟨value, hValue, rfl⟩))
    · exact Or.inr (Or.inr (Or.inr ⟨plan, List.mem_map.mpr hPlan, hMem⟩))
  have hChecked : ∀ plan ∈ plans.map Staged.checkpoint, SanePlan m base tx.nextId plan := by
    intro plan hPlan
    obtain ⟨old, hOld, rfl⟩ := List.mem_map.mp hPlan
    exact (hPlans old hOld).checkpoint
  have hDocument : ∀ write, (∃ plan ∈ plans.map Staged.checkpoint, write ∈ Staged.planWrites plan) →
      Memory.documentOf write ≠ none := by
    rintro write ⟨plan, -, hMem⟩
    exact planWrites_document hMem
  constructor
  · intro record hMem
    rcases hWrite _ hMem with hStaged | ⟨id, value, -, hSame⟩ | ⟨value, -, hSame⟩ | hPlan
    · exact hStaged
    · cases hSame
    · cases hSame
    · exact absurd rfl (hDocument _ hPlan)
  · intro value hMem
    rcases hWrite _ hMem with hStaged | ⟨id, value, -, hSame⟩ | ⟨value, -, hSame⟩ | hPlan
    · exact hStaged
    · cases hSame
    · cases hSame
    · exact absurd rfl (hDocument _ hPlan)
  · intro value hMem
    rcases hWrite _ hMem with hStaged | ⟨id, value, -, hSame⟩ | ⟨found, hFound, hSame⟩ | hPlan
    · exact hStaged.elim
    · cases hSame
    · obtain rfl := Write.task.inj hSame
      obtain ⟨⟨id, write⟩, hEntry, hRecord⟩ := mem_filterMap.mp hFound
      obtain ⟨write, rfl, rfl⟩ := map_eq_some_iff.mp hRecord
      obtain ⟨hId, hCreated⟩ := h.tasks id write hEntry
      rw [hId]
      obtain ⟨kind, record⟩ := write
      cases kind with
      | create => exact (hCreated rfl).2
      | replace =>
        have hCheck := Outcome.forM_eq_ok.mp hReplaced _ hEntry
        simp only [Staged.checkReplaced] at hCheck
        cases hLookup : m.tasks.lookup id with
        | none => simp [hLookup] at hCheck
        | some committed =>
          have hHolds : m.Holds id .task := by simp [Memory.Holds, hLookup]
          exact Nat.lt_of_lt_of_le (holds_below hAgree hIds hHolds) h.next.1
    · exact absurd rfl (hDocument _ hPlan)
  · intro value hMem
    rcases hWrite _ hMem with hStaged | ⟨id, found, hFound, hSame⟩ | ⟨value, -, hSame⟩ | hPlan
    · exact hStaged.elim
    · obtain rfl := Write.submission.inj hSame
      obtain ⟨hId, hOrigin⟩ := hSubmissions id value hFound
      have hBelow : ∀ old, m.submissions.lookup id = some old → id < base := by
        intro old hOld
        have hHolds : m.Holds id .submission := by simp [Memory.Holds, hOld]
        exact holds_below hAgree hIds hHolds
      rw [hId]
      rcases hOrigin with hNew | ⟨old, hOld, hRequest⟩
      · exact ⟨hNew.2, fun old hOld => absurd (hBelow old hOld) (Nat.not_lt.mpr hNew.1)⟩
      · refine ⟨Nat.lt_of_lt_of_le (hBelow old hOld) h.next.1, fun other hOther => ?_⟩
        rw [hOld] at hOther
        rw [← some.inj hOther]
        exact hRequest
    · cases hSame
    · exact absurd rfl (hDocument _ hPlan)
  · exact hChecked
  · intro write hMem hDocumentOf
    rcases hWrite _ hMem with hStaged | ⟨id, value, -, rfl⟩ | ⟨value, -, rfl⟩ | ⟨plan, hPlan, hMem⟩
    · cases write <;> first | exact hStaged.elim | exact absurd rfl hDocumentOf
    · exact absurd rfl hDocumentOf
    · exact absurd rfl hDocumentOf
    · exact ⟨plan, hPlan, planWrites_backed (hChecked plan hPlan) hMem⟩
  · intro plan hPlan record hRecord
    obtain ⟨content, hContent, hCreates⟩ := (hChecked plan hPlan).written record hRecord
    refine mem_filterMap.mpr ⟨content.write, mem_append_right _ ?_, hCreates⟩
    refine List.mem_flatMap.mpr ⟨plan, hPlan, ?_⟩
    rw [Staged.planWrites, hContent]
    exact mem_append_left _ (mem_singleton_self _)
  · intro plan hPlan hRetired
    refine mem_append_right _ (List.mem_flatMap.mpr ⟨plan, hPlan, ?_⟩)
    rw [Staged.planWrites, if_pos hRetired]
    exact mem_append_right _ (mem_singleton_self _)

end Assembly

variable {write : Write} {α : Type} {writes : List Write}

theorem mem_insertBeforeRetirement {id : Nat} {found : Write}
    (h : found ∈ insertBeforeRetirement id write writes) : found = write ∨ found ∈ writes := by
  induction writes with
  | nil => exact Or.inl (mem_singleton.mp h)
  | cons head tail ih =>
    rw [insertBeforeRetirement] at h
    split_ifs at h
    · exact mem_cons.mp h
    · rcases mem_cons.mp h with rfl | hTail
      · exact Or.inr mem_cons_self
      · exact (ih hTail).imp_right (mem_cons_of_mem head)

theorem mem_replace [DecidableEq α] {old new found : α} {list : List α} (h : found ∈ list.replace old new) :
    found = new ∨ found ∈ list := by
  induction list with
  | nil => exact Or.inr h
  | cons head tail ih =>
    rw [replace_cons] at h
    split at h
    · exact (mem_cons.mp h).imp_right (mem_cons_of_mem head)
    · rcases mem_cons.mp h with rfl | hTail
      · exact Or.inr mem_cons_self
      · exact (ih hTail).imp_right (mem_cons_of_mem head)

theorem mem_insertBeforeRetirement_of_mem {id : Nat} {found : Write} (h : found ∈ writes) :
    found ∈ insertBeforeRetirement id write writes := by
  induction writes with
  | nil => exact absurd h not_mem_nil
  | cons head tail ih =>
    rw [insertBeforeRetirement]
    split_ifs
    · exact mem_cons_of_mem write h
    · rcases mem_cons.mp h with rfl | hTail
      · exact mem_cons_self
      · exact mem_cons_of_mem head (ih hTail)

theorem mem_replace_of_ne [DecidableEq α] {old new found : α} {list : List α} (h : found ∈ list)
    (hNe : found ≠ old) : found ∈ list.replace old new := by
  induction list with
  | nil => exact absurd h not_mem_nil
  | cons head tail ih =>
    rw [replace_cons]
    split
    · rename_i hHead
      rcases mem_cons.mp h with rfl | hTail
      · exact absurd (beq_iff_eq.mp hHead).symm hNe
      · exact mem_cons_of_mem new hTail
    · rcases mem_cons.mp h with rfl | hTail
      · exact mem_cons_self
      · exact mem_cons_of_mem head (ih hTail)

/-- A plan that also stores what was held. -/
structure Holding (old new : DocumentPlan) : Prop where
  addressId : new.addressId = old.addressId
  record : new.record = old.record
  retire : new.retire = old.retire
  change : new.change = old.change
  content : new.content = old.content ∨ (∃ record, old.record = .committed record) ∧
    ∃ content, new.content = some (.change old.id content)

theorem Holding.backs {old new : DocumentPlan} (h : Holding old new) (hBacks : Backs old write) :
    Backs new write := by
  have hId : new.id = old.id := by rw [DocumentPlan.id, DocumentPlan.id, h.record]
  have hContent : old.content ≠ none → new.content ≠ none := by
    intro hOld
    rcases h.content with hSame | ⟨-, content, hNew⟩
    · rwa [hSame]
    · simp [hNew]
  cases write with
  | documentCreate record version value => exact ⟨h.record.trans hBacks.1, hContent hBacks.2⟩
  | documentCopy record source => exact ⟨h.record.trans hBacks.1, hContent hBacks.2⟩
  | documentChange id content => exact ⟨hId.trans hBacks.1, hContent hBacks.2⟩
  | documentRetire id => exact ⟨hId.trans hBacks.1, h.retire.trans hBacks.2⟩
  | _ => trivial

theorem Holding.sane {m : Memory} {base top : Nat} {old new : DocumentPlan} (h : Holding old new)
    (hOld : SanePlan m base top old) : SanePlan m base top new := by
  refine ⟨by rw [h.addressId, h.record, hOld.addressId], h.record ▸ hOld.record, fun content hContent => ?_,
    fun record hRecord => ?_⟩
  swap
  · rw [h.record] at hRecord
    rcases h.content with hSame | ⟨⟨committed, hCommitted⟩, -⟩
    · rw [hSame]
      exact hOld.written record hRecord
    · rw [hCommitted] at hRecord
      cases hRecord
  rcases h.content with hSame | ⟨-, changed, hNew⟩
  · have hFitting := hOld.content content (hSame ▸ hContent)
    cases content with
    | create record version value => exact h.record.trans hFitting
    | copy record source => exact h.record.trans hFitting
    | change id content =>
      change new.record.toCreate.id = id
      rw [h.record]
      exact hFitting
  · rw [hNew] at hContent
    rw [← some.inj hContent]
    change new.record.toCreate.id = old.record.toCreate.id
    rw [h.record]

theorem takeHeldPlan_holding (held : Nat → Option HeldDocument) (writes : List Write) (plan : DocumentPlan) :
    Holding plan (takeHeldPlan held writes plan).2 ∧
      (∀ write ∈ (takeHeldPlan held writes plan).1, write ∈ writes ∨
        Backs (takeHeldPlan held writes plan).2 write ∧ ∃ id content, write = .documentChange id content) ∧
      ∀ write ∈ writes, (∀ id content, write ≠ .documentChange id content) → write ∈ (takeHeldPlan held writes plan).1 := by
  rw [takeHeldPlan]
  split
  · rename_i record hold hRecord hHeld
    refine ⟨⟨rfl, rfl, rfl, rfl, Or.inr ⟨⟨record, hRecord⟩, _, rfl⟩⟩, fun write hWrite => ?_, fun write hWrite hNot => ?_⟩
    · have hNew : write = .documentChange plan.id (heldContent plan hold) ∨ write ∈ writes := by
        dsimp only at hWrite
        split at hWrite
        · exact mem_replace hWrite
        · exact mem_insertBeforeRetirement hWrite
      rcases hNew with rfl | hOld
      · exact Or.inr ⟨⟨rfl, by simp⟩, _, _, rfl⟩
      · exact Or.inl hOld
    · dsimp only
      split
      · exact mem_replace_of_ne hWrite (hNot _ _)
      · exact mem_insertBeforeRetirement_of_mem hWrite
  · exact ⟨⟨rfl, rfl, rfl, rfl, Or.inl rfl⟩, fun write hWrite => Or.inl hWrite, fun write hWrite _ => hWrite⟩

/-- What held changes add to a batch: contents of stored documents. -/
theorem takeHeldPlans_holding (held : Nat → Option HeldDocument) (writes : List Write) (plans : List DocumentPlan) :
    List.Forall₂ Holding plans (takeHeldPlans held writes plans).plans ∧
      (∀ write ∈ (takeHeldPlans held writes plans).writes, write ∈ writes ∨
        (∃ plan ∈ (takeHeldPlans held writes plans).plans, Backs plan write) ∧
          ∃ id content, write = .documentChange id content) ∧
      ∀ write ∈ writes, (∀ id content, write ≠ .documentChange id content) →
        write ∈ (takeHeldPlans held writes plans).writes := by
  induction plans generalizing writes with
  | nil => exact ⟨.nil, fun write hWrite => Or.inl hWrite, fun write hWrite _ => hWrite⟩
  | cons plan rest ih =>
    obtain ⟨hFirst, hWritten, hKept⟩ := takeHeldPlan_holding held writes plan
    obtain ⟨hRest, hLater, hLast⟩ := ih (takeHeldPlan held writes plan).1
    refine ⟨.cons hFirst hRest, fun write hWrite => ?_, fun write hWrite hNot => hLast write (hKept write hWrite hNot) hNot⟩
    rcases hLater write hWrite with hEarlier | ⟨⟨found, hFound, hBacks⟩, hChange⟩
    · rcases hWritten write hEarlier with hOld | ⟨hBacks, hChange⟩
      · exact Or.inl hOld
      · exact Or.inr ⟨⟨_, mem_cons_self, hBacks⟩, hChange⟩
    · exact Or.inr ⟨⟨found, mem_cons_of_mem _ hFound, hBacks⟩, hChange⟩

theorem exists_right {β : Type} {R : α → β → Prop} {first : List α} {second : List β} (h : List.Forall₂ R first second) :
    (∀ x ∈ first, ∃ y ∈ second, R x y) ∧ ∀ y ∈ second, ∃ x ∈ first, R x y := by
  induction h with
  | nil => simp
  | cons hHead _ ih =>
    refine ⟨forall_mem_cons.mpr ⟨⟨_, mem_cons_self, hHead⟩, fun x hx => ?_⟩,
      forall_mem_cons.mpr ⟨⟨_, mem_cons_self, hHead⟩, fun y hy => ?_⟩⟩
    · obtain ⟨y, hy, hRelated⟩ := ih.1 x hx
      exact ⟨y, mem_cons_of_mem _ hy, hRelated⟩
    · obtain ⟨x, hx, hRelated⟩ := ih.2 y hy
      exact ⟨x, mem_cons_of_mem _ hx, hRelated⟩

theorem Produced.takeHeld {m : Memory} {base top : Nat} {batch : Staged.Assembled} (h : Produced m base top batch)
    (held : Nat → Option HeldDocument) : Produced m base top (takeHeld held batch) := by
  obtain ⟨hPlans, hWrites, hKept⟩ := takeHeldPlans_holding held batch.writes batch.plans
  obtain ⟨hForward, hBack⟩ := exists_right hPlans
  have hOld : ∀ write ∈ (takeHeldPlans held batch.writes batch.plans).writes,
      (∀ id content, write ≠ .documentChange id content) → write ∈ batch.writes := by
    intro write hWrite hNot
    rcases hWrites write hWrite with hOld | ⟨-, id, content, hChange⟩
    · exact hOld
    · exact absurd hChange (hNot id content)
  refine ⟨fun record hMem => h.conversations record (hOld _ hMem (by simp)),
    fun value hMem => h.entries value (hOld _ hMem (by simp)), fun value hMem => h.tasks value (hOld _ hMem (by simp)),
    fun value hMem => h.submissions value (hOld _ hMem (by simp)), fun plan hPlan => ?_, fun write hMem hDocument => ?_,
    fun plan hPlan record hRecord => ?_, fun plan hPlan hRetired => ?_⟩
  · obtain ⟨old, hOld, hHolding⟩ := hBack plan hPlan
    exact hHolding.sane (h.plans old hOld)
  · rcases hWrites write hMem with hOld | ⟨hBacked, -⟩
    · obtain ⟨plan, hPlan, hBacks⟩ := h.documents write hOld hDocument
      obtain ⟨new, hNew, hHolding⟩ := hForward plan hPlan
      exact ⟨new, hNew, hHolding.backs hBacks⟩
    · exact hBacked
  · obtain ⟨old, hOld, hHolding⟩ := hBack plan hPlan
    obtain ⟨write, hWrite, hCreates⟩ := mem_filterMap.mp (h.created old hOld record (hHolding.record ▸ hRecord))
    refine mem_filterMap.mpr ⟨write, hKept write hWrite fun id content hChange => ?_, hCreates⟩
    rw [hChange] at hCreates
    cases hCreates
  · obtain ⟨old, hOld, hHolding⟩ := hBack plan hPlan
    have hId : plan.id = old.id := by rw [DocumentPlan.id, DocumentPlan.id, hHolding.record]
    rw [hId]
    exact hKept _ (h.retired old hOld (hHolding.retire ▸ hRetired)) (by simp)

end OctoberHarness.Transaction
