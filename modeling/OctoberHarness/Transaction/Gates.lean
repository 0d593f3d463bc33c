import OctoberHarness.Transaction.Batches

/-! The session line: what its commits keep, and that a commit changes no read
whose keys it does not register. -/
namespace OctoberHarness.Transaction

open OrderedMap

open Storage hiding scopeKey

open List Option

/-- What holds of the line of a session. -/
structure Line.Sound (line : Line) (d : Sqlite) : Prop where
  agree : Agree line.storage d
  ids : line.storage.IdsBelow line.nextId
  root : Staged.ROOT_CONVERSATION_ID < line.nextId
  range : line.nextId ≤ MAX_SAFE_INTEGER + 1
  names : line.storage.Names
  grounded : Grounded line.storage.conversations
  points : ∀ id record parent, line.storage.conversations.lookup id = some record → record.parent = some parent →
    parent.atEntry < line.nextId
  known : Known line.storage fun taskId => line.taskDocuments.lookup taskId

section Batch

variable {m next : Memory} {d d' : Sqlite} {base top : Nat} {batch : Staged.Assembled} {actions : Sqlite.DocumentActions}

variable {record : DocumentCreate} {write : Write} {plan : DocumentPlan}

theorem Incarnates.kept (hAgree : Agree m d) (hNext : Agree next d') (hPasses : Passes m d batch.writes actions)
    (hEffect : BatchEffect batch.writes (resolvedActions d actions) d d')
    (h : Incarnates m record) : Incarnates next record := by
  obtain ⟨state, hState, hSame⟩ := h
  rw [hAgree.mirror.documents, map_eq_some_iff] at hState
  obtain ⟨old, hOld, rfl⟩ := hState
  have hFound : ∃ record', d'.documents.lookup record.id = some record' ∧ record'.toDocumentCreate = record := by
    by_cases hWritten : record.id ∈ batch.writes.filterMap Memory.documentOf
    · obtain ⟨record', hLookup, hCases⟩ := document_changed hAgree hPasses hEffect hWritten
      rcases hCases with ⟨hNone, -⟩ | ⟨found, hFound, hCreate, -⟩
      · rw [hOld] at hNone
        cases hNone
      · obtain rfl := some.inj (hOld.symm.trans hFound)
        exact ⟨record', hLookup, hCreate.trans hSame⟩
    · exact ⟨old, (document_kept hPasses hEffect hWritten).1.trans hOld, hSame⟩
  obtain ⟨record', hLookup, hCreate⟩ := hFound
  exact ⟨_, by rw [hNext.mirror.documents, hLookup, map_some], hCreate⟩

theorem Incarnates.created (hNext : Agree next d') (hPasses : Passes m d batch.writes actions)
    (hEffect : BatchEffect batch.writes (resolvedActions d actions) d d')
    (hRecord : record ∈ batch.writes.filterMap creates) : Incarnates next record := by
  obtain ⟨record', hLookup, hCreate, -⟩ := document_created hPasses hEffect hRecord
  exact ⟨_, by rw [hNext.mirror.documents, hLookup, map_some], hCreate⟩

section

variable (h : Produced m base top batch)

include h

theorem Produced.grounded (hAgree : Agree m d) (hNext : Agree next d')
    (hEffect : BatchEffect batch.writes (resolvedActions d actions) d d') (hGrounded : Grounded m.conversations) :
    Grounded next.conversations := by
  have hStays : ∀ id record, m.conversations.lookup id = some record → next.conversations.lookup id = some record := by
    intro id record hLookup
    rw [hAgree.mirror.conversations] at hLookup
    rw [hNext.mirror.conversations]
    exact (hEffect.conversations id).stays hLookup
  intro id hStored
  rw [hNext.mirror.conversations] at hStored
  rcases hEffect.conversations id with hSame | ⟨-, record, hLookup, hId, hWrite⟩
  · rw [hSame, ← hAgree.mirror.conversations] at hStored
    obtain ⟨steps, hRooted⟩ := hGrounded id hStored
    exact ⟨steps, View.Rooted.grow hStays hRooted⟩
  · rw [← hNext.mirror.conversations] at hLookup
    cases hParent : record.parent with
    | none => exact ⟨0, record, hLookup, hParent⟩
    | some parent =>
      obtain ⟨steps, hRooted⟩ := hGrounded parent.conversationId ((h.conversations record hWrite).2 parent hParent).1
      exact ⟨steps + 1, record, parent, hLookup, hParent, View.Rooted.grow hStays hRooted⟩

theorem Produced.points (hTop : base ≤ top) (hAgree : Agree m d) (hNext : Agree next d')
    (hEffect : BatchEffect batch.writes (resolvedActions d actions) d d')
    (hPoints : ∀ id record parent, m.conversations.lookup id = some record → record.parent = some parent →
      parent.atEntry < base) {id : Nat} {record : ConversationRecord} {parent : Parent}
    (hLookup : next.conversations.lookup id = some record) (hParent : record.parent = some parent) :
    parent.atEntry < top := by
  rw [hNext.mirror.conversations] at hLookup
  rcases hEffect.conversations id with hSame | ⟨-, found, hFound, -, hWrite⟩
  · rw [hSame, ← hAgree.mirror.conversations] at hLookup
    exact Nat.lt_of_lt_of_le (hPoints id record parent hLookup hParent) hTop
  · obtain rfl := some.inj (hFound.symm.trans hLookup)
    exact Nat.lt_of_lt_of_le ((h.conversations found hWrite).2 parent hParent).2 hTop

theorem Produced.writeId (hWrite : write ∈ batch.writes) {id : Nat} (hId : Sqlite.writeId write = some id) : id < top := by
  have hDocument : ∀ record, Memory.documentOf write ≠ none → creates write = some record → record.id < top := by
    intro record hSome hCreates
    obtain ⟨plan, hPlan, hBacks⟩ := h.documents write hWrite hSome
    have hRecord : plan.record = .created record := by
      cases write with
      | documentCreate found version value => exact some.inj hCreates ▸ hBacks.1
      | documentCopy found source => exact some.inj hCreates ▸ hBacks.1
      | _ => cases hCreates
    have hPlanned := (h.plans plan hPlan).record
    rw [hRecord] at hPlanned
    exact hPlanned.2
  cases write with
  | conversation value => exact some.inj hId ▸ (h.conversations value hWrite).1
  | entry value => exact some.inj hId ▸ (h.entries value hWrite).2
  | task value => exact some.inj hId ▸ h.tasks value hWrite
  | submission value => exact some.inj hId ▸ (h.submissions value hWrite).1
  | documentCreate record version value => exact some.inj hId ▸ hDocument record (by simp [Memory.documentOf]) rfl
  | documentCopy record source => exact some.inj hId ▸ hDocument record (by simp [Memory.documentOf]) rfl
  | documentChange found content => cases hId
  | documentRetire found => cases hId

theorem Produced.newer
    (hPoints : ∀ id record parent, m.conversations.lookup id = some record → record.parent = some parent →
      parent.atEntry < base) : Newer m base batch.writes :=
  ⟨hPoints, fun value hMem => (h.entries value hMem).1, fun value hMem => (h.submissions value hMem).2⟩

end

theorem mem_tableKeys {writes : List Write} (hWrite : write ∈ writes) {key : Key} (hKey : key ∈ tableKey write) :
    key ∈ tableKeys writes :=
  List.mem_flatMap.mpr ⟨write, hWrite, hKey⟩

theorem mem_planKeys (hWrites : plan.content ≠ none ∨ plan.retire = true) :
    documentKey plan.addressId ∈ planKeys plan ∧ incarnationKey plan.id ∈ planKeys plan ∧
      ((∃ record, plan.record = .created record) ∨ plan.retire = true → scopeKey plan.scope ∈ planKeys plan) := by
  have hSkip : ¬ (plan.content.isNone ∧ plan.retire = false) := by
    rintro ⟨hContent, hRetire⟩
    rcases hWrites with hSome | hRetired
    · exact hSome (Option.isNone_iff_eq_none.mp hContent)
    · exact absurd (hRetire.symm.trans hRetired) (by simp)
  rw [planKeys, if_neg hSkip]
  refine ⟨mem_cons_self, mem_cons_of_mem _ mem_cons_self, fun hScope => ?_⟩
  refine mem_cons_of_mem _ (mem_cons_of_mem _ ?_)
  rw [DocumentPlan.scope]
  cases hRecord : plan.record with
  | created record => exact mem_singleton_self _
  | committed record =>
    rcases hScope with ⟨created, hCreated⟩ | hRetire
    · rw [hRecord] at hCreated
      cases hCreated
    · simp only [if_pos hRetire]
      exact mem_singleton_self _

theorem mem_writeKeys (hPlan : plan ∈ batch.plans) {key : Key} (hKey : key ∈ planKeys plan) :
    key ∈ writeKeys batch :=
  mem_append_right _ (List.mem_flatMap.mpr ⟨plan, hPlan, hKey⟩)

theorem Backs.writes (h : Backs plan write) (hDocument : Memory.documentOf write ≠ none) :
    (plan.content ≠ none ∨ plan.retire = true) ∧ Memory.documentOf write = some plan.id := by
  cases write with
  | documentCreate record version value =>
    refine ⟨Or.inl h.2, ?_⟩
    rw [DocumentPlan.id, h.1]
    rfl
  | documentCopy record source =>
    refine ⟨Or.inl h.2, ?_⟩
    rw [DocumentPlan.id, h.1]
    rfl
  | documentChange id content => exact ⟨Or.inl h.2, congrArg some h.1.symm⟩
  | documentRetire id => exact ⟨Or.inr h.2, congrArg some h.1.symm⟩
  | _ => exact absurd rfl hDocument

theorem Produced.created_plan (h : Produced m base top batch)
    (hRecord : record ∈ batch.writes.filterMap creates) : ∃ plan ∈ batch.plans, plan.record = .created record ∧
      plan.content ≠ none := by
  obtain ⟨write, hWrite, hCreates⟩ := List.mem_filterMap.mp hRecord
  cases write with
  | documentCreate found version value =>
    obtain ⟨plan, hPlan, hBacks⟩ := h.documents _ hWrite (by simp [Memory.documentOf])
    exact ⟨plan, hPlan, some.inj hCreates ▸ hBacks.1, hBacks.2⟩
  | documentCopy found source =>
    obtain ⟨plan, hPlan, hBacks⟩ := h.documents _ hWrite (by simp [Memory.documentOf])
    exact ⟨plan, hPlan, some.inj hCreates ▸ hBacks.1, hBacks.2⟩
  | _ => cases hCreates

theorem SanePlan.of_stored (h : SanePlan m base top plan) (hAgree : Agree m d)
    (hIds : m.IdsBelow base) {record : DocumentRecord} (hRecord : d.documents.lookup plan.id = some record) :
    plan.record.toCreate = record.toDocumentCreate := by
  have hLookup : m.documents.lookup plan.id = some { record, revisions := View.revisions d plan.id } := by
    rw [hAgree.mirror.documents, hRecord, map_some]
  have hPlanned := h.record
  cases hPlan : plan.record with
  | created created =>
    rw [hPlan] at hPlanned
    have hId : plan.id = created.id := by rw [DocumentPlan.id, hPlan, PlanRecord.toCreate]
    have hHolds : m.Holds plan.id .document := by simp [Memory.Holds, hLookup]
    have hBelow := holds_below hAgree hIds hHolds
    rw [hId] at hBelow
    exact absurd hBelow (Nat.not_lt.mpr hPlanned.1)
  | committed committed =>
    rw [hPlan] at hPlanned
    obtain ⟨state, hState, hSame⟩ := hPlanned
    have hId : plan.id = committed.id := by rw [DocumentPlan.id, hPlan, PlanRecord.toCreate]
    rw [← hId, hLookup] at hState
    rw [PlanRecord.toCreate, ← hSame, ← some.inj hState]

theorem Produced.touches_key (h : Produced m base top batch) (hAgree : Agree m d) (hIds : m.IdsBelow base)
    (hNext : Agree next d') (hPasses : Passes m d batch.writes actions)
    (hEffect : BatchEffect batch.writes (resolvedActions d actions) d d') {read : Read}
    (hTouches : Touches batch.writes d' read) :
    ALL_KEYS ∈ readKeys read ∨ ∃ key ∈ readKeys read, key ∈ writeKeys batch := by
  have hTable : ∀ {write key}, write ∈ batch.writes → key ∈ tableKey write → key ∈ writeKeys batch :=
    fun hWrite hKey => mem_append_left _ (mem_tableKeys hWrite hKey)
  -- the plan behind a document that a write is about, with what the document is after the batch
  have hPlanOf : ∀ id ∈ batch.writes.filterMap Memory.documentOf, ∀ record, d'.documents.lookup id = some record →
      ∃ plan ∈ batch.plans, plan.id = id ∧ plan.record.toCreate = record.toDocumentCreate ∧
        (plan.content ≠ none ∨ plan.retire = true) := by
    intro id hId record hRecord
    obtain ⟨record', hAfter, hCases⟩ := document_changed hAgree hPasses hEffect hId
    obtain rfl := some.inj (hAfter.symm.trans hRecord)
    rcases hCases with ⟨-, hCreated⟩ | ⟨old, hOld, hSame, -⟩
    · obtain ⟨plan, hPlan, hPlanned, hContent⟩ := h.created_plan hCreated
      have hRecordId := hNext.stored.kept.documents.2 id record' hAfter
      refine ⟨plan, hPlan, ?_, ?_, Or.inl hContent⟩
      · rw [DocumentPlan.id, hPlanned]
        exact hRecordId
      · rw [hPlanned]
        rfl
    · obtain ⟨write, hWrite, hDocument⟩ := List.mem_filterMap.mp hId
      have hSome : Memory.documentOf write ≠ none := by simp [hDocument]
      obtain ⟨plan, hPlan, hBacks⟩ := h.documents write hWrite hSome
      obtain ⟨hWrites, hPlanId⟩ := hBacks.writes hSome
      have hSameId : plan.id = id := some.inj (hPlanId.symm.trans hDocument)
      refine ⟨plan, hPlan, hSameId, ?_, hWrites⟩
      rw [hSame]
      exact (h.plans plan hPlan).of_stored hAgree hIds (hSameId ▸ hOld)
  cases read with
  | conversation id =>
    obtain ⟨value, hWrite, rfl⟩ := hTouches
    exact Or.inr ⟨_, mem_cons_self, hTable hWrite mem_cons_self⟩
  | scanConversations query limit cursor => exact Or.inl mem_cons_self
  | entry id =>
    obtain ⟨value, hWrite, rfl⟩ := hTouches
    exact Or.inr ⟨_, mem_cons_self, hTable hWrite mem_cons_self⟩
  | visibleEntry conversationId id =>
    rcases hTouches with ⟨value, hWrite, rfl⟩ | ⟨value, hWrite, rfl⟩
    · exact Or.inr ⟨_, mem_cons_self, hTable hWrite mem_cons_self⟩
    · exact Or.inr ⟨_, mem_cons_of_mem _ mem_cons_self, hTable hWrite mem_cons_self⟩
  | findLatestHeadMarker conversationId atOrBefore =>
    rcases hTouches with ⟨value, hWrite, rfl⟩ | ⟨value, hWrite, rfl⟩
    · exact Or.inr ⟨_, mem_cons_self, hTable hWrite mem_cons_self⟩
    · exact Or.inr ⟨_, mem_cons_of_mem _ mem_cons_self,
        hTable hWrite (mem_cons_of_mem _ mem_cons_self)⟩
  | scanEntries query limit cursor =>
    rcases hTouches with ⟨value, hWrite, hId⟩ | ⟨value, hWrite, hId⟩
    · exact Or.inr ⟨_, mem_cons_self, hId ▸ hTable hWrite mem_cons_self⟩
    · exact Or.inr ⟨_, mem_cons_of_mem _ mem_cons_self,
        hId ▸ hTable hWrite (mem_cons_of_mem _ mem_cons_self)⟩
  | task id =>
    obtain ⟨value, hWrite, rfl⟩ := hTouches
    exact Or.inr ⟨_, mem_cons_self, hTable hWrite mem_cons_self⟩
  | scanTasks query limit cursor => exact Or.inl mem_cons_self
  | submission id =>
    obtain ⟨value, hWrite, rfl⟩ := hTouches
    exact Or.inr ⟨_, mem_cons_self, hTable hWrite mem_cons_self⟩
  | scanSubmissions query limit cursor => exact Or.inl mem_cons_self
  | submissionByRequest conversationId requestId =>
    obtain ⟨value, hWrite, hRequest⟩ := hTouches
    refine Or.inr ⟨_, mem_cons_self, hTable hWrite (mem_cons_of_mem _ ?_)⟩
    obtain ⟨request, hSome, hSame⟩ := Option.map_eq_some_iff.mp hRequest
    obtain ⟨rfl, rfl⟩ := Prod.mk.inj hSame
    rw [hSome]
    exact mem_singleton_self _
  | findDocument address point =>
    obtain ⟨id, hId, record, hRecord, hAddress⟩ := hTouches
    obtain ⟨plan, hPlan, -, hSame, hWrites⟩ := hPlanOf id hId record hRecord
    refine Or.inr ⟨_, mem_cons_self, mem_writeKeys hPlan ?_⟩
    have hKey := (mem_planKeys hWrites).1
    rwa [(h.plans plan hPlan).addressId, hSame, hAddress] at hKey
  | document id point =>
    obtain ⟨write, hWrite, hDocument⟩ := List.mem_filterMap.mp hTouches
    have hSome : Memory.documentOf write ≠ none := by simp [hDocument]
    obtain ⟨plan, hPlan, hBacks⟩ := h.documents write hWrite hSome
    obtain ⟨hWrites, hPlanId⟩ := hBacks.writes hSome
    refine Or.inr ⟨_, mem_cons_self, mem_writeKeys hPlan ?_⟩
    rw [← some.inj (hPlanId.symm.trans hDocument)]
    exact (mem_planKeys hWrites).2.1
  | scanDocuments query limit cursor =>
    obtain ⟨id, record, hRecord, hScope, hWrite⟩ := hTouches
    have hFound : ∃ plan ∈ batch.plans, plan.scope = query.scope ∧ (plan.content ≠ none ∨ plan.retire = true) ∧
        ((∃ created, plan.record = .created created) ∨ plan.retire = true) := by
      rcases hWrite with hCreated | hRetired
      · obtain ⟨plan, hPlan, hPlanned, hContent⟩ := h.created_plan hCreated
        refine ⟨plan, hPlan, ?_, Or.inl hContent, Or.inl ⟨_, hPlanned⟩⟩
        rw [DocumentPlan.scope, hPlanned]
        exact hScope
      · obtain ⟨plan, hPlan, hBacks⟩ := h.documents _ hRetired (by simp [Memory.documentOf])
        have hId : id ∈ batch.writes.filterMap Memory.documentOf := List.mem_filterMap.mpr ⟨_, hRetired, rfl⟩
        obtain ⟨record', hAfter, hCases⟩ := document_changed hAgree hPasses hEffect hId
        obtain rfl := some.inj (hAfter.symm.trans hRecord)
        rcases hCases with ⟨-, hCreated⟩ | ⟨old, hOld, hSame, -⟩
        · obtain ⟨other, hOther, hPlanned, hContent⟩ := h.created_plan hCreated
          refine ⟨other, hOther, ?_, Or.inl hContent, Or.inl ⟨_, hPlanned⟩⟩
          rw [DocumentPlan.scope, hPlanned]
          exact hScope
        · refine ⟨plan, hPlan, ?_, Or.inr hBacks.2, Or.inr hBacks.2⟩
          have hStored := (h.plans plan hPlan).of_stored hAgree hIds (hBacks.1.symm ▸ hOld)
          rw [DocumentPlan.scope, hStored, ← hSame]
          exact hScope
    obtain ⟨plan, hPlan, hSame, hWrites, hCreatedOrRetired⟩ := hFound
    refine Or.inr ⟨_, mem_cons_self, mem_writeKeys hPlan ?_⟩
    rw [← hSame]
    exact (mem_planKeys hWrites).2.2 hCreatedOrRetired

end Batch

namespace Line

theorem Sound.empty : Sound {} {} where
  agree := .empty
  ids := fun _ h => absurd rfl h
  root := by decide
  range := by decide
  names := fun _ _ h => by cases h
  grounded := fun _ h => absurd rfl h
  points := fun _ _ _ h => by cases h
  known := fun _ _ h => by cases h

variable {line : Line} {d : Sqlite}

theorem Sound.transaction (h : Sound line d) (commit : Commit) :
    Sane line.storage line.nextId (line.transaction commit) := by
  refine Sane.run h.agree h.ids h.root ⟨⟨Nat.le_refl _, h.range⟩, ?_, ?_, ?_, ?_, ?_⟩ commit.events
  all_goals simp

variable {batch : Staged.Assembled}

theorem Sound.settle (h : Sound line d) {commit : Commit} (hSettle : line.settle commit = .ok batch) :
    Produced line.storage line.nextId (line.transaction commit).nextId batch := by
  rw [Line.settle] at hSettle
  cases hSuccess : (line.transaction commit).settleSuccess line.storage fun taskId =>
      if taskId ∈ commit.published then line.taskDocuments.lookup taskId else none with
  | error error =>
    rw [hSuccess] at hSettle
    cases hSettle
  | ok assembled =>
    rw [hSuccess] at hSettle
    rw [← Except.ok.inj hSettle]
    rw [Staged.settleSuccess] at hSuccess
    split_ifs at hSuccess
    refine ((h.transaction commit).assemble h.agree h.ids h.range (fun taskId records hRecords => ?_) hSuccess).takeHeld
      commit.held
    split_ifs at hRecords
    exact h.known taskId records hRecords

theorem known_indexed {m next : Memory} {seq : Nat} {known : List (Nat × List DocumentRecord)} {tx : Staged}
    (hKept : ∀ record : DocumentCreate, Incarnates m record → Incarnates next record)
    (hCreated : ∀ plan ∈ batch.plans, ∀ record, plan.record = .created record → Incarnates next record)
    (hKnown : Known m fun taskId => known.lookup taskId) :
    Known next fun taskId => (indexTaskDocuments known tx batch seq).lookup taskId := by
  have hFold : ∀ {α : Type} (step : List (Nat × List DocumentRecord) → α → List (Nat × List DocumentRecord))
      (list : List α) (known : List (Nat × List DocumentRecord)),
      (∀ known, ∀ x ∈ list, (Known next fun taskId => known.lookup taskId) →
        Known next fun taskId => (step known x).lookup taskId) →
      (Known next fun taskId => known.lookup taskId) → Known next fun taskId => (list.foldl step known).lookup taskId := by
    intro α step list
    induction list with
    | nil => exact fun known _ hKnown => hKnown
    | cons head tail ih =>
      intro known hStep hKnown
      exact ih (step known head) (fun known x hx => hStep known x (mem_cons_of_mem head hx))
        (hStep known head mem_cons_self hKnown)
  have hSet : ∀ (known : List (Nat × List DocumentRecord)) (taskId : Nat) (records : List DocumentRecord),
      (Known next fun taskId => known.lookup taskId) →
      (∀ record ∈ records, Incarnates next record.toDocumentCreate ∧ record.scope = .task taskId) →
      Known next fun id => (set known taskId records).lookup id := by
    intro known taskId records hKnown hRecords other found hFound
    dsimp only at hFound
    rw [lookup_set] at hFound
    split_ifs at hFound with hSame
    · rw [hSame, ← some.inj hFound]
      exact hRecords
    · exact hKnown other found hFound
  refine hFold _ batch.writes _ (fun known write hWrite hKnown => ?_) (hFold _ batch.plans _
    (fun known plan hPlan hKnown => ?_) (hFold _ _ _ (fun known taskId _ hKnown => ?_) fun taskId records hRecords record
      hRecord => ?_))
  · cases write with
    | task value =>
      dsimp only
      split_ifs
      · intro taskId records hRecords
        dsimp only at hRecords
        rw [lookup_erase] at hRecords
        split_ifs at hRecords
        exact hKnown taskId records hRecords
      · exact hKnown
    | _ => exact hKnown
  · rw [indexPlan]
    split
    · rename_i taskId hScope
      split
      · exact hKnown
      · rename_i records hRecords
        have hOld := hKnown taskId records hRecords
        split_ifs
        · exact hSet known taskId _ hKnown fun record hRecord => hOld record (mem_of_mem_filter hRecord)
        · split
          · rename_i record change hPlanned hChange
            refine hSet known taskId _ hKnown fun found hFound => ?_
            rcases List.mem_append.mp hFound with hBefore | hNew
            · exact hOld found hBefore
            · rw [List.mem_singleton.mp hNew]
              refine ⟨hCreated plan hPlan record hPlanned, ?_⟩
              rw [DocumentPlan.scope, hPlanned] at hScope
              exact hScope
          · exact hKnown
    · exact hKnown
  · exact hSet known taskId [] hKnown (by simp)
  · obtain ⟨hStored, hScope⟩ := hKnown taskId records hRecords record hRecord
    exact ⟨hKept _ hStored, hScope⟩

/-- A commit whose batch is stored: the line stays sound, and no other read changes. -/
theorem Sound.store (h : Sound line d) {commit : Commit} {next : Memory}
    (hSettle : line.settle commit = .ok batch) (hStore : line.storage.commitBatch batch.writes = .ok next) :
    (∃ d', Sound
      { storage := next
        nextId := (line.transaction commit).nextId
        taskDocuments :=
          indexTaskDocuments line.taskDocuments (line.transaction commit) batch line.storage.nextSeq } d') ∧
      ∀ read, next.read read ≠ line.storage.read read →
        ALL_KEYS ∈ readKeys read ∨ ∃ key ∈ readKeys read, key ∈ writeKeys batch := by
  have hProduced := h.settle hSettle
  have hTop := (h.transaction commit).next
  have hGrounded : Grounded next.conversations := by
    obtain ⟨d', actions, -, hAgree, hPasses, rfl⟩ := h.agree.commitBatch hStore
    exact hProduced.grounded h.agree hAgree (h.agree.effect hPasses) h.grounded
  obtain ⟨d', actions', hAgree', hNames, hPasses', hEffect', hKept⟩ :=
    h.agree.read_kept h.names hStore (hProduced.newer h.points) h.grounded hGrounded
  refine ⟨⟨d', ⟨hAgree', ?_, Nat.lt_of_lt_of_le h.root hTop.1, hTop.2, hNames, hGrounded, ?_, ?_⟩⟩, fun read hChanged => ?_⟩
  · exact Memory.IdsBelow.commitBatch (fun id hId => Nat.lt_of_lt_of_le (h.ids id hId) hTop.1) h.agree
      (fun write hWrite id hId => hProduced.writeId hWrite hId) hStore
  · exact fun id record parent => hProduced.points hTop.1 h.agree hAgree' hEffect' h.points
  · exact known_indexed (fun record hRecord => hRecord.kept h.agree hAgree' hPasses' hEffect')
      (fun plan hPlan record hRecord => .created hAgree' hPasses' hEffect' (hProduced.created plan hPlan record hRecord))
      h.known
  · by_contra hKeys
    refine hChanged (hKept read fun hTouches => hKeys ?_)
    exact hProduced.touches_key h.agree h.ids hAgree' hPasses' hEffect' hTouches

theorem Sound.grow (h : Sound line d) {nextId : Nat} (hTop : line.nextId ≤ nextId) (hRange : nextId ≤ MAX_SAFE_INTEGER + 1) :
    Sound { line with nextId } d where
  agree := h.agree
  ids := fun id hId => Nat.lt_of_lt_of_le (h.ids id hId) hTop
  root := Nat.lt_of_lt_of_le h.root hTop
  range := hRange
  names := h.names
  grounded := h.grounded
  points := fun id record parent hLookup hParent => Nat.lt_of_lt_of_le (h.points id record parent hLookup hParent) hTop
  known := h.known

theorem commit_cases (line : Line) (commit : Commit) :
    line.commit commit = { line with nextId := (line.transaction commit).nextId } ∨
      ∃ batch next, line.settle commit = .ok batch ∧ batch.writes ≠ [] ∧
        line.storage.commitBatch batch.writes = .ok next ∧ line.commit commit =
          { storage := next
            nextId := (line.transaction commit).nextId
            taskDocuments :=
              indexTaskDocuments line.taskDocuments (line.transaction commit) batch line.storage.nextSeq } := by
  rw [Line.commit]
  cases hSettle : line.settle commit with
  | error error => exact Or.inl rfl
  | ok batch =>
    dsimp only
    split_ifs with hEmpty
    · exact Or.inl rfl
    · cases hStore : line.storage.commitBatch batch.writes with
      | error error => exact Or.inl rfl
      | ok next => exact Or.inr ⟨batch, next, rfl, hEmpty, hStore, rfl⟩

theorem Sound.commit (h : Sound line d) (commit : Commit) : ∃ d', Sound (line.commit commit) d' := by
  have hTop := (h.transaction commit).next
  rcases commit_cases line commit with hSame | ⟨batch, next, hSettle, -, hStore, hNext⟩
  · exact ⟨d, hSame ▸ h.grow hTop.1 hTop.2⟩
  · obtain ⟨d', hSound⟩ := (h.store hSettle hStore).1
    exact ⟨d', hNext ▸ hSound⟩

theorem Sound.step (h : Sound line d) (event : Event) : ∃ d', Sound (line.step event) d' := by
  cases event with
  | commit commit => exact h.commit commit
  | restart => exact ⟨d, ⟨h.agree, h.ids, h.root, h.range, h.names, h.grounded, h.points, fun _ _ hNone => by cases hNone⟩⟩

theorem Sound.run (events : List Event) : ∃ d, Sound (Line.run events) d := by
  have hFrom : ∀ (events : List Event) (line : Line) (d : Sqlite), Sound line d →
      ∃ d', Sound (events.foldl Line.step line) d' := by
    intro events
    induction events with
    | nil => exact fun line d h => ⟨d, h⟩
    | cons event rest ih =>
      intro line d h
      obtain ⟨d', hNext⟩ := h.step event
      exact ih _ d' hNext
  exact hFrom events {} {} .empty

/-- A read that no key of a batch holds back. -/
def Passes (read : Read) (batch : Staged.Assembled) : Prop :=
  ALL_KEYS ∉ readKeys read ∧ ∀ key ∈ readKeys read, key ∉ writeKeys batch

/-- A read that no commit of a list, admitted one after the other, holds back. -/
def PassesAll (read : Read) (line : Line) : List Commit → Prop
  | [] => True
  | commit :: rest => (∀ batch, line.settle commit = .ok batch → batch.writes ≠ [] → Passes read batch) ∧
      PassesAll read (line.commit commit) rest

/-- A stored batch that changes a read registers one of the keys the read waits
for, or the read waits for all; so a read that passes its gate returns what it
returns after every commit that is admitted and not yet published. -/
theorem gates_sound (events : List Event) (read : Read) :
    (∀ commit batch next, (run events).settle commit = .ok batch →
      (run events).storage.commitBatch batch.writes = .ok next → next.read read ≠ (run events).storage.read read →
        ALL_KEYS ∈ readKeys read ∨ ∃ key ∈ readKeys read, key ∈ writeKeys batch) ∧
    ∀ pending, PassesAll read (run events) pending →
      (pending.foldl Line.commit (run events)).storage.read read = (run events).storage.read read := by
  obtain ⟨d, hSound⟩ := Sound.run events
  refine ⟨fun commit batch next hSettle hStore => (hSound.store hSettle hStore).2 read, fun pending => ?_⟩
  generalize run events = line at hSound
  induction pending generalizing line d with
  | nil => exact fun _ => rfl
  | cons commit rest ih =>
    rintro ⟨hFirst, hRest⟩
    obtain ⟨d', hNext⟩ := hSound.commit commit
    rw [foldl_cons, ih d' (line.commit commit) hNext hRest]
    rcases commit_cases line commit with hSame | ⟨batch, next, hSettle, hWrites, hStore, hCommit⟩
    · rw [hSame]
    · rw [hCommit]
      obtain ⟨hAll, hKeys⟩ := hFirst batch hSettle hWrites
      by_contra hChanged
      rcases (hSound.store hSettle hStore).2 read hChanged with hEvery | ⟨key, hRead, hWrite⟩
      · exact hAll hEvery
      · exact hKeys key hRead hWrite

/-- A session with its first conversation. -/
def opened : List Event :=
  [.commit { events := [.createRootConversation] }]

/-- A commit that creates a task. -/
def creating : Commit where
  events := [.mint, .createTask 2 { kind := js "tool", conversationId := some 1 }]

theorem gates_sound_task :
    (∃ batch next, (run opened).settle creating = .ok batch ∧ (run opened).storage.commitBatch batch.writes = .ok next ∧
      next.read (.task 2) ≠ (run opened).storage.read (.task 2) ∧
        (ALL_KEYS ∈ readKeys (.task 2) ∨ ∃ key ∈ readKeys (.task 2), key ∈ writeKeys batch)) ∧
    ([creating].foldl Line.commit (run opened)).storage.read (.conversation 1) = (run opened).storage.read (.conversation 1) := by
  refine ⟨⟨_, _, rfl, rfl, by decide, (gates_sound opened (.task 2)).1 creating _ _ rfl rfl (by decide)⟩,
    (gates_sound opened (.conversation 1)).2 [creating] ⟨fun batch hSettle _ => ?_, trivial⟩⟩
  obtain rfl := Except.ok.inj hSettle
  exact ⟨by decide, by decide⟩

end Line

end OctoberHarness.Transaction
