import OctoberHarness.Harness.TaskGraph

/-! The task graph advanced by every publication is the one built from the storage behind
them. -/
namespace OctoberHarness.TaskGraph

open Option OrderedMap

open Delta (applyOp)

theorem keyOf_injective : Function.Injective keyOf :=
  JsonText.decimalText_injective

theorem keyOf_safe (id : Nat) : keyOf id ∉ Delta.RESERVED_SEGMENTS := by
  have hLetters : (Delta.RESERVED_SEGMENTS.all fun name => !name.all JsonText.isDigit) = true := by decide
  intro hReserved
  have hLetter := List.all_eq_true.mp hLetters _ hReserved
  rw [show (keyOf id).all JsonText.isDigit = true from List.all_eq_true.mpr (JsonText.isDigit_decimalText id)] at hLetter
  cases hLetter

variable (ids : List Nat) (record : TaskRecord)

theorem idsOf_idsJson : idsOf (idsJson ids) = ids := by
  induction ids with
  | nil => rfl
  | cons id rest ih =>
    have hItems : (idsOf (idsJson (id :: rest))) = id :: idsOf (idsJson rest) := by
      simp [idsOf, idsJson, idJson]
    rw [hItems, ih]

/-! Operations on the graph. -/

def graphJson (fields : Fields) : JsonValue :=
  .obj [(js "tasks", .obj fields)]

variable {key : JsString} {storage : Storage}

theorem applyOp_set (fields : Fields) (hSafe : key ∉ Delta.RESERVED_SEGMENTS) (node : JsonValue) :
    applyOp (graphJson fields) (.s (taskPath key) node) = .ok (graphJson (fields.define key node)) := by
  have hValid : Delta.assertValidOp (.s (taskPath key) node) = .ok () := by
    have hTasks : js "tasks" ∉ Delta.RESERVED_SEGMENTS := by decide
    simp [Delta.assertValidOp, Delta.assertPathArg, taskPath, Delta.assertSafePath, Delta.Seg.safe, hSafe, hTasks]
  rw [applyOp, hValid]
  rfl

theorem applyOp_delete (fields : Fields) (hSafe : key ∉ Delta.RESERVED_SEGMENTS) :
    applyOp (graphJson fields) (.d (taskPath key)) = .ok (graphJson (fields.delete key)) := by
  have hValid : Delta.assertValidOp (.d (taskPath key)) = .ok () := by
    have hTasks : js "tasks" ∉ Delta.RESERVED_SEGMENTS := by decide
    simp [Delta.assertValidOp, Delta.assertPathArg, taskPath, Delta.assertSafePath, Delta.Seg.safe, hSafe, hTasks]
  rw [applyOp, hValid]
  rfl

theorem applyOp_field (fields node : Fields) (hSafe : key ∉ Delta.RESERVED_SEGMENTS)
    (hNode : fields.lookup key = some (.obj node)) (value : JsonValue) :
    applyOp (graphJson fields) (.s (taskPath key ++ [.key (js "conversations")]) value) =
      .ok (graphJson (fields.define key (.obj (node.define (js "conversations") value)))) := by
  have hValid : Delta.assertValidOp (.s (taskPath key ++ [.key (js "conversations")]) value) = .ok () := by
    have hTasks : js "tasks" ∉ Delta.RESERVED_SEGMENTS := by decide
    have hConversations : js "conversations" ∉ Delta.RESERVED_SEGMENTS := by decide
    simp [Delta.assertValidOp, Delta.assertPathArg, taskPath, Delta.assertSafePath, Delta.Seg.safe, hSafe, hTasks,
      hConversations]
  have hRead : Delta.read (.obj fields) (.key key) = some (.obj node) := hNode
  have hTasks : Delta.read (graphJson fields) (.key (js "tasks")) = some (.obj fields) := rfl
  rw [applyOp, hValid]
  change Delta.modifyAt [.key (js "tasks"), .key key] _ (graphJson fields) [.key (js "tasks"), .key key] = _
  rw [Delta.modifyAt_cons hTasks, Delta.modifyAt_cons hRead]
  rfl

theorem conversationsOf_nodeOf (conversations : JsonValue) (blocked : Option BlockedReason) :
    conversationsOf (nodeOf record conversations blocked) = conversations := by
  cases hOwner : record.owner <;> cases blocked <;> simp only [nodeOf, hOwner] <;> rfl

theorem define_nodeOf (conversations : JsonValue) (blocked : Option BlockedReason) :
    ∃ fields : Fields, nodeOf record conversations blocked = .obj fields ∧
      ∀ value, .obj (fields.define (js "conversations") value) = nodeOf record value blocked := by
  refine ⟨_, rfl, fun value => ?_⟩
  cases hOwner : record.owner <;> cases blocked <;> simp only [nodeOf, hOwner] <;> rfl

theorem strict_ids : (idsJson ids).Strict := by
  rw [idsJson, JsonValue.strict_arr]
  intro item hItem
  obtain ⟨id, -, rfl⟩ := List.mem_map.mp hItem
  trivial

variable {keys : List JsString}

theorem ownKeys_of_plain (hNodup : keys.Nodup) (hPlain : ∀ key ∈ keys, arrayIndex key = none) :
    OwnKeys keys := by
  refine ⟨hNodup, List.Pairwise.imp_of_mem (fun _ hLater _ => ?_) hNodup⟩
  simp [precedes, hPlain _ hLater]

theorem strict_plain {fields : Fields} (hKeys : fields.map Prod.fst = keys) (hNodup : keys.Nodup)
    (hPlain : ∀ key ∈ keys, arrayIndex key = none) (hStrict : ∀ field ∈ fields, field.2.Strict) :
    (JsonValue.obj fields).Strict :=
  (JsonValue.strict_obj fields).mpr ⟨hKeys ▸ ownKeys_of_plain hNodup hPlain, hStrict⟩

theorem strict_stateOf (state : TaskState) : (stateOf state).Strict := by
  have hText : ∀ text, (JsonValue.str text).Strict := fun _ => trivial
  have hPolicy : ∀ policy : JoinPolicy, policy.json.Strict := fun policy => by cases policy <;> trivial
  have hOutcome : ∀ outcome : OutcomeStatus, outcome.json.Strict := fun outcome => by cases outcome <;> trivial
  have hNumber : ∀ number, (JsonValue.num number).Strict := fun _ => trivial
  have hRun : [js "status", js "phase"].Nodup ∧ ∀ key ∈ [js "status", js "phase"], arrayIndex key = none := by decide
  have hWait : [js "status", js "phase", js "on", js "policy"].Nodup ∧
      ∀ key ∈ [js "status", js "phase", js "on", js "policy"], arrayIndex key = none := by decide
  have hSleep : [js "status", js "phase", js "until"].Nodup ∧
      ∀ key ∈ [js "status", js "phase", js "until"], arrayIndex key = none := by decide
  have hEnd : [js "status", js "outcome"].Nodup ∧ ∀ key ∈ [js "status", js "outcome"], arrayIndex key = none := by decide
  cases state with
  | pending phase => exact strict_plain rfl hRun.1 hRun.2 (by simp [hText])
  | running phase => exact strict_plain rfl hRun.1 hRun.2 (by simp [hText])
  | waiting phase on policy => exact strict_plain rfl hWait.1 hWait.2 (by simp [hText, hPolicy, strict_ids])
  | sleeping phase wake => exact strict_plain rfl hSleep.1 hSleep.2 (by simp [hText, hNumber])
  | completing outcome => exact strict_plain rfl hEnd.1 hEnd.2 (by simp [hText, hOutcome])
  | terminal outcome => exact strict_plain rfl hEnd.1 hEnd.2 (by simp [hText, hOutcome])

/-- The keys of a node, all of them. -/
def nodeKeys : List JsString :=
  [js "id", js "kind", js "conversationId", js "owner", js "background", js "abortRequested", js "state",
    js "conversations", js "blocked"]

theorem nodeKeys_plain : nodeKeys.Nodup ∧ ∀ key ∈ nodeKeys, arrayIndex key = none := by decide

theorem strict_nodeOf {conversations : JsonValue} (hStrict : conversations.Strict)
    (blocked : Option BlockedReason) : (nodeOf record conversations blocked).Strict := by
  have hText : ∀ text, (JsonValue.str text).Strict := fun _ => trivial
  have hNumber : ∀ id, (idJson id).Strict := fun _ => trivial
  have hBool : ∀ value, (JsonValue.bool value).Strict := fun _ => trivial
  have hReason : ∀ reason : BlockedReason, reason.json.Strict := fun reason => by cases reason <;> trivial
  have hSub : ∀ {keys : List JsString}, keys.Sublist nodeKeys → keys.Nodup ∧ ∀ key ∈ keys, arrayIndex key = none :=
    fun hKeys => ⟨nodeKeys_plain.1.sublist hKeys, fun key hKey => nodeKeys_plain.2 key (hKeys.subset hKey)⟩
  cases hOwner : record.owner with
  | none =>
    cases blocked with
    | none =>
      have hKeys := hSub ((List.dropLast_sublist (nodeKeys.eraseIdx 3)).trans (List.eraseIdx_sublist nodeKeys 3))
      simp only [nodeOf, hOwner]
      exact strict_plain rfl hKeys.1 hKeys.2 (by simp [hText, hNumber, hBool, hStrict, strict_stateOf])
    | some reason =>
      have hKeys := hSub (List.eraseIdx_sublist nodeKeys 3)
      simp only [nodeOf, hOwner]
      exact strict_plain rfl hKeys.1 hKeys.2 (by simp [hText, hNumber, hBool, hReason, hStrict, strict_stateOf])
  | some owner =>
    cases blocked with
    | none =>
      have hKeys := hSub (List.dropLast_sublist nodeKeys)
      simp only [nodeOf, hOwner]
      exact strict_plain rfl hKeys.1 hKeys.2 (by simp [hText, hNumber, hBool, hStrict, strict_stateOf])
    | some reason =>
      simp only [nodeOf, hOwner]
      exact strict_plain rfl nodeKeys_plain.1 nodeKeys_plain.2
        (by simp [hText, hNumber, hBool, hReason, hStrict, strict_stateOf])

/-! The records of a storage. -/

structure Storage.Good (storage : Storage) : Prop where
  tasks : Table.Keyed storage.tasks
  taskIds : ∀ id record, storage.tasks.lookup id = some record → record.id = id
  conversations : Table.Keyed storage.conversations
  conversationIds : ∀ id record, storage.conversations.lookup id = some record → record.id = id
  owners : ∀ id record owner, storage.conversations.lookup id = some record → record.owner = some owner →
    storage.tasks.lookup owner ≠ none

/-- The record of a live task. -/
def live (storage : Storage) (id : Nat) : Option TaskRecord :=
  (storage.tasks.lookup id).filter fun record => record.state.status ≠ .terminal

theorem mem_scanTasks (h : storage.Good) (status : Status) (record : TaskRecord) :
    record ∈ storage.scanTasks status ↔
      storage.tasks.lookup record.id = some record ∧ record.state.status = status := by
  rw [Storage.scanTasks, List.mem_filter, List.mem_map, decide_eq_true_eq]
  refine and_congr_left fun _ => ⟨?_, fun hRecord => ?_⟩
  · rintro ⟨⟨id, found⟩, hMem, rfl⟩
    have hFound := (Table.mem_rows_iff h.tasks id found).mp hMem
    rw [h.taskIds id found hFound]
    exact hFound
  · exact ⟨(record.id, record), (Table.mem_rows_iff h.tasks _ _).mpr hRecord, rfl⟩

theorem mem_liveRecords (h : storage.Good) (record : TaskRecord) :
    record ∈ liveRecords storage ↔ live storage record.id = some record := by
  rw [liveRecords, List.mem_insertionSort, List.mem_flatMap, live, filter_eq_some_iff]
  simp only [mem_scanTasks h, decide_eq_true_eq, ne_eq]
  constructor
  · rintro ⟨status, hStatus, hRecord, rfl⟩
    refine ⟨hRecord, fun hTerminal => ?_⟩
    rw [hTerminal] at hStatus
    exact absurd hStatus (by decide)
  · rintro ⟨hRecord, hLive⟩
    refine ⟨record.state.status, ?_, hRecord, rfl⟩
    cases hStatus : record.state.status <;> first | exact absurd hStatus hLive | decide

theorem mem_ownedIds (h : storage.Good) (taskId id : Nat) :
    id ∈ ownedIds storage taskId ↔
      ∃ record, storage.conversations.lookup id = some record ∧ record.owner = some taskId := by
  rw [ownedIds, sortIds, List.mem_insertionSort, List.mem_map]
  simp only [Storage.scanConversations, List.mem_filter, List.mem_map, decide_eq_true_eq]
  constructor
  · rintro ⟨record, ⟨⟨⟨key, found⟩, hMem, rfl⟩, hOwner⟩, rfl⟩
    have hFound := (Table.mem_rows_iff h.conversations key found).mp hMem
    rw [h.conversationIds key found hFound]
    exact ⟨found, hFound, hOwner⟩
  · rintro ⟨record, hRecord, hOwner⟩
    exact ⟨record, ⟨⟨(id, record), (Table.mem_rows_iff h.conversations _ _).mpr hRecord, rfl⟩, hOwner⟩,
      h.conversationIds id record hRecord⟩

theorem nodup_ownedIds (h : storage.Good) (taskId : Nat) : (ownedIds storage taskId).Nodup := by
  rw [ownedIds, sortIds, (List.perm_insertionSort _ _).nodup_iff, Storage.scanConversations, List.filter_map, List.map_map]
  have hIds : (storage.conversations.filter
      ((fun record : ConversationRecord => decide (record.owner = some taskId)) ∘ Prod.snd)).map
        (ConversationRecord.id ∘ Prod.snd) =
      (storage.conversations.filter
        ((fun record : ConversationRecord => decide (record.owner = some taskId)) ∘ Prod.snd)).map Prod.fst := by
    refine List.map_congr_left fun row hRow => ?_
    obtain ⟨key, record⟩ := row
    exact h.conversationIds key record ((Table.mem_rows_iff h.conversations key record).mp (List.mem_filter.mp hRow).1)
  rw [hIds]
  have hKeys : (storage.conversations.map Prod.fst).Nodup := h.conversations.imp fun hLess => Nat.ne_of_lt hLess
  exact hKeys.sublist (List.filter_sublist.map Prod.fst)

theorem sortIds_congr {first second : List Nat} (hFirst : first.Nodup) (hSecond : second.Nodup)
    (hMem : ∀ id, id ∈ first ↔ id ∈ second) : sortIds first = sortIds second := by
  have hPerm : first.Perm second := (List.perm_ext_iff_of_nodup hFirst hSecond).mpr hMem
  exact List.Perm.eq_of_pairwise (fun _ _ _ _ => Nat.le_antisymm)
    (List.pairwise_insertionSort (· ≤ ·) first) (List.pairwise_insertionSort (· ≤ ·) second)
    ((List.perm_insertionSort _ _).trans (hPerm.trans (List.perm_insertionSort _ _).symm))

theorem sortIds_sortIds : sortIds (sortIds ids) = sortIds ids :=
  List.Perm.eq_of_pairwise (fun _ _ _ _ => Nat.le_antisymm)
    (List.pairwise_insertionSort (· ≤ ·) (sortIds ids)) (List.pairwise_insertionSort (· ≤ ·) ids)
    (List.perm_insertionSort _ _)

theorem Storage.commit_tasks (h : Table.Keyed storage.tasks) (writes : List Change) :
    Table.Keyed (storage.commit writes).tasks ∧ ∀ id, (storage.commit writes).tasks.lookup id =
      (((writes.filterMap Change.task?).filter fun record => record.id = id).getLast?).or (storage.tasks.lookup id) := by
  induction writes using List.reverseRecOn with
  | nil => exact ⟨h, fun id => rfl⟩
  | append_singleton writes write ih =>
    have hCommit : storage.commit (writes ++ [write]) = (storage.commit writes).apply write := by
      rw [Storage.commit, List.foldl_append]
      rfl
    rw [hCommit]
    cases write with
    | task value =>
      refine ⟨ih.1.put value.id value, fun id => ?_⟩
      rw [Storage.apply, Table.lookup_put ih.1, ih.2, List.filterMap_append, List.filter_append]
      by_cases hId : id = value.id
      · subst hId
        simp [Change.task?]
      · simp [Change.task?, hId, Ne.symm hId]
    | conversation value =>
      rw [List.filterMap_append, List.filterMap_cons_none rfl, List.filterMap_nil, List.append_nil]
      exact ih
    | other =>
      rw [List.filterMap_append, List.filterMap_cons_none rfl, List.filterMap_nil, List.append_nil]
      exact ih

theorem Storage.commit_conversations (h : Table.Keyed storage.conversations) (writes : List Change) :
    Table.Keyed (storage.commit writes).conversations ∧ ∀ id, (storage.commit writes).conversations.lookup id =
      (((writes.filterMap Change.conversation?).filter fun record => record.id = id).getLast?).or
        (storage.conversations.lookup id) := by
  induction writes using List.reverseRecOn with
  | nil => exact ⟨h, fun id => rfl⟩
  | append_singleton writes write ih =>
    have hCommit : storage.commit (writes ++ [write]) = (storage.commit writes).apply write := by
      rw [Storage.commit, List.foldl_append]
      rfl
    rw [hCommit]
    cases write with
    | conversation value =>
      refine ⟨ih.1.put value.id value, fun id => ?_⟩
      rw [Storage.apply, Table.lookup_put ih.1, ih.2, List.filterMap_append, List.filter_append]
      by_cases hId : id = value.id
      · subst hId
        simp [Change.conversation?]
      · simp [Change.conversation?, hId, Ne.symm hId]
    | task value =>
      rw [List.filterMap_append, List.filterMap_cons_none rfl, List.filterMap_nil, List.append_nil]
      exact ih
    | other =>
      rw [List.filterMap_append, List.filterMap_cons_none rfl, List.filterMap_nil, List.append_nil]
      exact ih

/-- What a transaction makes sure of: a task that has ended is not written again, a new
conversation has a new id, and its owner task exists. -/
structure Allowed (storage : Storage) (writes : List Change) : Prop where
  tasks : (writes.filterMap Change.task?).Pairwise fun earlier later =>
    earlier.id = later.id → earlier.state.status ≠ .terminal
  stored : ∀ record, Change.task record ∈ writes → ∀ old, storage.tasks.lookup record.id = some old →
    old.state.status ≠ .terminal
  nodup : ((writes.filterMap Change.conversation?).map ConversationRecord.id).Nodup
  fresh : ∀ record, Change.conversation record ∈ writes → storage.conversations.lookup record.id = none
  owners : ∀ record owner, Change.conversation record ∈ writes → record.owner = some owner →
    storage.tasks.lookup owner ≠ none ∨ ∃ task, Change.task task ∈ writes ∧ task.id = owner

/-- The changes of a publication: the writes of its commit in another order, those of one
task in theirs. -/
structure Publishes (writes changes : List Change) : Prop where
  tasks : ∀ id, ((changes.filterMap Change.task?).filter fun record => record.id = id) =
    (writes.filterMap Change.task?).filter fun record => record.id = id
  conversations : (changes.filterMap Change.conversation?).Perm (writes.filterMap Change.conversation?)

variable {writes : List Change}

theorem mem_tasks {record : TaskRecord} :
    record ∈ writes.filterMap Change.task? ↔ Change.task record ∈ writes := by
  rw [List.mem_filterMap]
  constructor
  · rintro ⟨change, hChange, hTask⟩
    cases change with
    | task value => exact some.inj hTask ▸ hChange
    | conversation value => cases hTask
    | other => cases hTask
  · exact fun hChange => ⟨_, hChange, rfl⟩

variable {record : ConversationRecord}

theorem mem_conversations :
    record ∈ writes.filterMap Change.conversation? ↔ Change.conversation record ∈ writes := by
  rw [List.mem_filterMap]
  constructor
  · rintro ⟨change, hChange, hConversation⟩
    cases change with
    | conversation value => exact some.inj hConversation ▸ hChange
    | task value => cases hConversation
    | other => cases hConversation
  · exact fun hChange => ⟨_, hChange, rfl⟩

theorem getLast_of_nodup {records : List ConversationRecord} (hNodup : (records.map ConversationRecord.id).Nodup)
    (hRecord : record ∈ records) :
    (records.filter fun other => other.id = record.id).getLast? = some record := by
  have hAll : ∀ other ∈ records.filter fun other => other.id = record.id, other = record := by
    intro other hOther
    obtain ⟨hMem, hId⟩ := List.mem_filter.mp hOther
    exact List.inj_on_of_nodup_map hNodup hMem hRecord (by simpa using hId)
  cases hLast : (records.filter fun other => other.id = record.id).getLast? with
  | none =>
    rw [List.getLast?_eq_none_iff] at hLast
    have hNone : record ∈ ([] : List ConversationRecord) := hLast ▸ List.mem_filter.mpr ⟨hRecord, by simp⟩
    cases hNone
  | some last => rw [hAll last (List.mem_of_getLast? hLast)]

section Commit

variable {storage : Storage} {writes : List Change} (h : storage.Good) (hAllowed : Allowed storage writes)

include h hAllowed

theorem commit_conversation (id : Nat) (record : ConversationRecord) :
    (storage.commit writes).conversations.lookup id = some record ↔
      storage.conversations.lookup id = some record ∨ Change.conversation record ∈ writes ∧ record.id = id := by
  rw [(Storage.commit_conversations h.conversations writes).2, or_eq_some_iff]
  constructor
  · rintro (hLast | ⟨-, hOld⟩)
    · obtain ⟨hMem, hId⟩ := List.mem_filter.mp (List.mem_of_getLast? hLast)
      exact .inr ⟨mem_conversations.mp hMem, by simpa using hId⟩
    · exact .inl hOld
  · rintro (hOld | ⟨hMem, rfl⟩)
    · refine .inr ⟨?_, hOld⟩
      rw [List.getLast?_eq_none_iff, List.filter_eq_nil_iff]
      intro other hOther hId
      have hFresh := hAllowed.fresh other (mem_conversations.mp hOther)
      rw [of_decide_eq_true hId, hOld] at hFresh
      cases hFresh
    · exact .inl (getLast_of_nodup hAllowed.nodup (mem_conversations.mpr hMem))

omit hAllowed in
theorem commit_task_ne_none {id : Nat} :
    (storage.commit writes).tasks.lookup id ≠ none ↔
      storage.tasks.lookup id ≠ none ∨ ∃ task, Change.task task ∈ writes ∧ task.id = id := by
  rw [(Storage.commit_tasks h.tasks writes).2, ne_eq, or_eq_none_iff, List.getLast?_eq_none_iff,
    List.filter_eq_nil_iff, not_and_or, or_comm]
  refine or_congr Iff.rfl ?_
  constructor
  · intro hSome
    by_contra hNone
    refine hSome fun task hTask hId => hNone ⟨task, mem_tasks.mp hTask, by simpa using hId⟩
  · rintro ⟨task, hTask, rfl⟩ hNone
    exact hNone task (mem_tasks.mpr hTask) (by simp)

theorem good_commit : (storage.commit writes).Good where
  tasks := (Storage.commit_tasks h.tasks writes).1
  conversations := (Storage.commit_conversations h.conversations writes).1
  taskIds id record hRecord := by
    rw [(Storage.commit_tasks h.tasks writes).2, or_eq_some_iff] at hRecord
    rcases hRecord with hLast | ⟨-, hOld⟩
    · simpa using (List.mem_filter.mp (List.mem_of_getLast? hLast)).2
    · exact h.taskIds id record hOld
  conversationIds id record hRecord := by
    rcases (commit_conversation h hAllowed id record).mp hRecord with hOld | ⟨-, hId⟩
    · exact h.conversationIds id record hOld
    · exact hId
  owners id record owner hRecord hOwner := by
    rw [commit_task_ne_none h]
    rcases (commit_conversation h hAllowed id record).mp hRecord with hOld | ⟨hWrite, -⟩
    · exact .inl (h.owners id record owner hOld hOwner)
    · exact hAllowed.owners record owner hWrite hOwner

theorem ownedIds_commit {changes : List Change} (hPublishes : Publishes writes changes) (taskId : Nat) :
    ownedIds (storage.commit writes) taskId =
      sortIds (ownedIds storage taskId ++
        ((changes.filterMap Change.conversation?).filter fun record => record.owner = some taskId).map
          ConversationRecord.id) := by
  have hNodup : ((changes.filterMap Change.conversation?).map ConversationRecord.id).Nodup :=
    (hPublishes.conversations.map _).nodup_iff.mpr hAllowed.nodup
  have hMem : ∀ record, record ∈ changes.filterMap Change.conversation? ↔ Change.conversation record ∈ writes :=
    fun record => hPublishes.conversations.mem_iff.trans mem_conversations
  rw [ownedIds, ← sortIds_sortIds, ← ownedIds]
  refine sortIds_congr (nodup_ownedIds (good_commit h hAllowed) taskId) ?_ fun id => ?_
  · refine List.nodup_append.mpr ⟨nodup_ownedIds h taskId, hNodup.sublist (List.filter_sublist.map _), ?_⟩
    rintro first hFirst second hSecond rfl
    obtain ⟨old, hOld, -⟩ := (mem_ownedIds h taskId first).mp hFirst
    obtain ⟨record, hRecord, hId⟩ := List.mem_map.mp hSecond
    have hFresh := hAllowed.fresh record ((hMem record).mp (List.mem_filter.mp hRecord).1)
    rw [hId, hOld] at hFresh
    cases hFresh
  · rw [mem_ownedIds (good_commit h hAllowed), List.mem_append, mem_ownedIds h, List.mem_map]
    simp only [commit_conversation h hAllowed, List.mem_filter, hMem, decide_eq_true_eq]
    constructor
    · rintro ⟨record, hOld | ⟨hWrite, hId⟩, hOwner⟩
      · exact .inl ⟨record, hOld, hOwner⟩
      · exact .inr ⟨record, ⟨hWrite, hOwner⟩, hId⟩
    · rintro (⟨record, hOld, hOwner⟩ | ⟨record, ⟨hWrite, hOwner⟩, hId⟩)
      · exact ⟨record, .inl hOld, hOwner⟩
      · exact ⟨record, .inr ⟨hWrite, hId⟩, hOwner⟩

end Commit

/-! The first loop. -/

def IdKeys {α : Type} (entries : List (JsString × α)) : Prop :=
  ∀ key, entries.lookup key ≠ none → ∃ id, key = keyOf id

namespace IdKeys

variable {α : Type} {entries : List (JsString × α)}

theorem set (h : IdKeys entries) (id : Nat) (value : α) : IdKeys (set entries (keyOf id) value) := by
  intro key hKey
  rw [lookup_set] at hKey
  split_ifs at hKey with hId
  · exact ⟨id, hId⟩
  · exact h key hKey

theorem erase (h : IdKeys entries) (key : JsString) : IdKeys (erase entries key) := by
  intro other hOther
  rw [lookup_erase] at hOther
  split_ifs at hOther with hKey
  · exact absurd rfl hOther
  · exact h other hOther

theorem ext {other : List (JsString × α)} (h : IdKeys entries) (hOther : IdKeys other)
    (hRead : ∀ id, entries.lookup (keyOf id) = other.lookup (keyOf id)) (key : JsString) :
    entries.lookup key = other.lookup key := by
  by_cases hKey : ∃ id, key = keyOf id
  · obtain ⟨id, rfl⟩ := hKey
    exact hRead id
  · have hNone : ∀ {map : List (JsString × α)}, IdKeys map → map.lookup key = none :=
      fun hMap => of_not_not fun hSome => hKey (hMap key hSome)
    rw [hNone h, hNone hOther]

theorem define {fields : Fields} (h : IdKeys fields) (id : Nat) (value : JsonValue) :
    IdKeys (fields.define (keyOf id) value) := by
  intro key hKey
  rw [Fields.lookup_define] at hKey
  split_ifs at hKey with hId
  · exact ⟨id, hId⟩
  · exact h key hKey

end IdKeys

def Nodes (fields : Fields) : Prop :=
  ∀ key node, fields.lookup key = some node → ∃ record ids reason, node = nodeOf record (idsJson ids) reason

section Blocked

variable (blocked : BlockedSubject → Option BlockedReason)

/-- The node of a task behind a change of it. -/
def nextNode (previous : Option JsonValue) (record : TaskRecord) : Option JsonValue :=
  if record.state.status = .terminal then none
  else some (nodeOf record ((previous.map conversationsOf).getD (.arr [])) (blocked (blockedSubject record)))

/-- What is read again of a task behind a change of it. -/
def nextSubject (record : TaskRecord) : Option BlockedSubject :=
  if record.state.status = .terminal then none else some (blockedSubject record)

/-- The graph behind a change of a task. -/
def turn (fields : Fields) (record : TaskRecord) : Fields :=
  match nextNode blocked (fields.lookup (keyOf record.id)) record with
  | none => fields.delete (keyOf record.id)
  | some node => fields.define (keyOf record.id) node

theorem lookup_turn (fields : Fields) (record : TaskRecord) (key : JsString) :
    (turn blocked fields record).lookup key =
      if key = keyOf record.id then nextNode blocked (fields.lookup key) record else fields.lookup key := by
  rw [turn]
  cases hNode : nextNode blocked (fields.lookup (keyOf record.id)) record with
  | none =>
    rw [Fields.lookup_delete]
    split_ifs with hKey
    · rw [hKey, hNode]
    · rfl
  | some node =>
    rw [Fields.lookup_define]
    split_ifs with hKey
    · rw [hKey, hNode]
    · rfl

variable {fields : Fields} {value : JsonValue} {advance : Advance}

theorem nodes_turn (h : Nodes fields) (record : TaskRecord) : Nodes (turn blocked fields record) := by
  intro key node hNode
  rw [lookup_turn] at hNode
  split_ifs at hNode with hKey
  · rw [nextNode] at hNode
    split_ifs at hNode with hTerminal
    rw [← some.inj hNode]
    cases hPrevious : fields.lookup key with
    | none => exact ⟨record, [], _, rfl⟩
    | some previous =>
      obtain ⟨old, ids, reason, rfl⟩ := h key previous hPrevious
      rw [map_some, getD_some, conversationsOf_nodeOf]
      exact ⟨record, ids, _, rfl⟩
  · exact h key node hNode

/-- The operations so far make these fields, and the nodes are read off them. -/
structure Follows (start : Fields) (advance : Advance) (fields : Fields) : Prop where
  ops : Delta.apply (graphJson start) advance.ops = .ok (graphJson fields)
  node : ∀ key, advance.node (graphJson start) key = fields.lookup key

theorem apply_append {root : JsonValue} {ops : List Delta.Op} (h : Delta.apply root ops = .ok value)
    (more : List Delta.Op) : Delta.apply root (ops ++ more) = Delta.apply value more := by
  rw [Delta.apply, List.foldlM_append]
  rw [Delta.apply] at h
  rw [h]
  rfl

theorem apply_singleton (root : JsonValue) (op : Delta.Op) : Delta.apply root [op] = applyOp root op := by
  rw [Delta.apply, List.foldlM_cons]
  cases applyOp root op <;> rfl

theorem node_set (advance : Advance) (value : JsonValue) (key : JsString) (node : Option JsonValue) (other : JsString) :
    ({ advance with changed := set advance.changed key node } : Advance).node value other =
      if other = key then node else advance.node value other := by
  rw [Advance.node, lookup_set]
  split_ifs with hOther
  · rfl
  · rfl

theorem follows_advanceTask {start : Fields} (h : Follows start advance fields) (hNodes : Nodes fields) (record : TaskRecord) :
    Follows start (advanceTask blocked (graphJson start) advance record) (turn blocked fields record) := by
  have hSafe := keyOf_safe record.id
  rw [advanceTask, turn, nextNode, h.node]
  by_cases hTerminal : record.state.status = .terminal
  · rw [if_pos hTerminal, if_pos hTerminal]
    cases hPrevious : fields.lookup (keyOf record.id) with
    | none =>
      show Follows start _ (fields.delete (keyOf record.id))
      rw [Fields.delete, erase_of_lookup_eq_none hPrevious]
      exact ⟨h.ops, h.node⟩
    | some previous =>
      show Follows start _ (fields.delete (keyOf record.id))
      constructor
      · show Delta.apply _ (advance.ops ++ _) = _
        rw [apply_append h.ops, apply_singleton, applyOp_delete fields hSafe]
      · intro key
        rw [Fields.lookup_delete]
        refine (node_set _ _ _ _ _).trans ?_
        split_ifs
        · rfl
        · exact h.node key
  · rw [if_neg hTerminal, if_neg hTerminal]
    by_cases hSame : (fields.lookup (keyOf record.id)).any (fun previous =>
        (nodeOf record (((fields.lookup (keyOf record.id)).map conversationsOf).getD (.arr []))
          (blocked (blockedSubject record))).stringify = previous.stringify) = true
    · rw [if_pos hSame]
      obtain ⟨previous, hPrevious, hText⟩ := any_eq_true _ _ |>.mp hSame
      obtain ⟨old, ids, reason, rfl⟩ := hNodes _ previous hPrevious
      have hNode : nodeOf record (((fields.lookup (keyOf record.id)).map conversationsOf).getD (.arr []))
          (blocked (blockedSubject record)) = nodeOf old (idsJson ids) reason := by
        apply JsonText.stringify_injective _ _ _ (strict_nodeOf old (strict_ids ids) reason) (of_decide_eq_true hText)
        rw [hPrevious, map_some, getD_some, conversationsOf_nodeOf]
        exact strict_nodeOf record (strict_ids ids) _
      show Follows start _ (fields.define (keyOf record.id) _)
      rw [hNode, Fields.define_lookup_self hPrevious]
      exact ⟨h.ops, h.node⟩
    · rw [if_neg hSame]
      constructor
      · rw [apply_append h.ops, apply_singleton, applyOp_set fields hSafe]
      · intro key
        show _ = (fields.define (keyOf record.id) _).lookup key
        rw [Fields.lookup_define]
        refine (node_set _ _ _ _ _).trans ?_
        split_ifs
        · rfl
        · exact h.node key

theorem records_advanceTask (value : JsonValue) (advance : Advance) (record : TaskRecord) :
    (advanceTask blocked value advance record).records =
      if record.state.status = .terminal then erase advance.records (keyOf record.id)
      else set advance.records (keyOf record.id) (blockedSubject record) := by
  unfold advanceTask
  by_cases hTerminal : record.state.status = .terminal
  · rw [if_pos hTerminal, if_pos hTerminal]
    show (if _ then _ else _ : Advance).records = _
    split <;> rfl
  · rw [if_neg hTerminal, if_neg hTerminal]
    show (if _ then _ else _ : Advance).records = _
    split <;> rfl

theorem lookup_records_advanceTask (value : JsonValue) (advance : Advance) (record : TaskRecord) (key : JsString) :
    (advanceTask blocked value advance record).records.lookup key =
      if key = keyOf record.id then nextSubject record else advance.records.lookup key := by
  rw [records_advanceTask, nextSubject]
  by_cases hTerminal : record.state.status = .terminal
  · rw [if_pos hTerminal, if_pos hTerminal, lookup_erase]
  · rw [if_neg hTerminal, if_neg hTerminal, lookup_set]

theorem idKeys_advanceTask (h : IdKeys advance.records) (record : TaskRecord) :
    IdKeys (advanceTask blocked value advance record).records := by
  rw [records_advanceTask]
  split_ifs
  · exact h.erase _
  · exact h.set _ _

variable (records : List TaskRecord)

theorem follows_loop {start : Fields} (h : Follows start advance fields) (hNodes : Nodes fields) :
    Follows start (records.foldl (advanceTask blocked (graphJson start)) advance) (records.foldl (turn blocked) fields) ∧
      Nodes (records.foldl (turn blocked) fields) := by
  induction records generalizing advance fields with
  | nil => exact ⟨h, hNodes⟩
  | cons record rest ih => exact ih (follows_advanceTask blocked h hNodes record) (nodes_turn blocked hNodes record)

theorem lookup_loop (fields : Fields) (id : Nat) :
    (records.foldl (turn blocked) fields).lookup (keyOf id) =
      (records.filter fun record => record.id = id).foldl (nextNode blocked) (fields.lookup (keyOf id)) := by
  induction records generalizing fields with
  | nil => rfl
  | cons record rest ih =>
    rw [List.foldl_cons, ih, lookup_turn]
    by_cases hId : record.id = id
    · rw [if_pos (by rw [hId]), List.filter_cons_of_pos (by simpa using hId), List.foldl_cons]
    · rw [if_neg fun hKey => hId (keyOf_injective hKey).symm, List.filter_cons_of_neg (by simpa using hId)]

theorem idKeys_loop (h : IdKeys fields) :
    IdKeys (records.foldl (turn blocked) fields) := by
  induction records generalizing fields with
  | nil => exact h
  | cons record rest ih =>
    apply ih
    intro key hKey
    rw [lookup_turn] at hKey
    split_ifs at hKey with hId
    · exact ⟨record.id, hId⟩
    · exact h key hKey

theorem lookup_records_loop (value : JsonValue) (records : List TaskRecord) (advance : Advance) (id : Nat) :
    (records.foldl (advanceTask blocked value) advance).records.lookup (keyOf id) =
      match (records.filter fun record => record.id = id).getLast? with
      | some record => nextSubject record
      | none => advance.records.lookup (keyOf id) := by
  induction records using List.reverseRecOn with
  | nil => rfl
  | append_singleton records record ih =>
    rw [List.foldl_append, List.foldl_cons, List.foldl_nil, lookup_records_advanceTask, List.filter_append]
    by_cases hId : record.id = id
    · rw [if_pos (by rw [hId]), List.filter_cons_of_pos (by simpa using hId), List.filter_nil, List.getLast?_append]
      rfl
    · rw [if_neg fun hKey => hId (keyOf_injective hKey).symm, List.filter_cons_of_neg (by simpa using hId),
        List.filter_nil, List.append_nil]
      exact ih

theorem idKeys_records_loop (h : IdKeys advance.records) :
    IdKeys (records.foldl (advanceTask blocked value) advance).records := by
  induction records generalizing advance with
  | nil => exact h
  | cons record rest ih => exact ih (idKeys_advanceTask blocked h record)

theorem loop_of_id {records : List TaskRecord} (previous : Option JsonValue)
    (hOrder : records.Pairwise fun earlier _ => earlier.state.status ≠ .terminal) :
    records.foldl (nextNode blocked) previous =
      match records.getLast? with
      | some record => nextNode blocked previous record
      | none => previous := by
  induction records generalizing previous with
  | nil => rfl
  | cons record rest ih =>
    obtain ⟨hFirst, hRest⟩ := List.pairwise_cons.mp hOrder
    rw [List.foldl_cons, ih _ hRest]
    cases rest with
    | nil => rfl
    | cons second rest =>
      rw [List.getLast?_cons_cons]
      have hLive : nextNode blocked previous record = some (nodeOf record
          ((previous.map conversationsOf).getD (.arr [])) (blocked (blockedSubject record))) :=
        if_neg (hFirst second (by simp))
      cases hLast : (second :: rest).getLast? with
      | none => simp at hLast
      | some last =>
        show nextNode blocked _ last = nextNode blocked previous last
        rw [hLive, nextNode, nextNode, map_some, getD_some, conversationsOf_nodeOf]

end Blocked

/-! The second loop. -/

/-- A node with more conversations. -/
def ownedNode (ids : List Nat) (node : JsonValue) : JsonValue :=
  match node with
  | .obj fields =>
    .obj (Fields.define fields (js "conversations") (idsJson (sortIds (idsOf (conversationsOf (.obj fields)) ++ ids))))
  | other => other

theorem ownedNode_nodeOf (record : TaskRecord) (old ids : List Nat) (reason : Option BlockedReason) :
    ownedNode ids (nodeOf record (idsJson old) reason) = nodeOf record (idsJson (sortIds (old ++ ids))) reason := by
  obtain ⟨fields, hNode, hDefine⟩ := define_nodeOf record (idsJson old) reason
  have hOld : conversationsOf (.obj fields) = idsJson old := by
    rw [← hNode, conversationsOf_nodeOf]
  rw [hNode, ownedNode, hOld, idsOf_idsJson]
  exact hDefine _

/-- The owners collected so far are in the graph, each once. -/
structure Collected (node : JsString → Option JsonValue) (created : List (JsString × List Nat)) : Prop where
  nodup : (created.map Prod.fst).Nodup
  owners : ∀ key, created.lookup key ≠ none → ∃ id, key = keyOf id ∧ node key ≠ none

section Collect

variable {node : JsString → Option JsonValue} {created : List (JsString × List Nat)}

theorem collected_turn (h : Collected node created) (value : ConversationRecord) :
    Collected node (collectOwned node created value) := by
  cases hOwner : value.owner with
  | none =>
    rw [collectOwned, hOwner]
    exact h
  | some owner =>
    rw [collectOwned, hOwner]
    show Collected node (if _ then _ else _)
    by_cases hNode : (node (keyOf owner)).isSome = true
    · rw [if_pos hNode]
      constructor
      · exact nodup_keys_set _ _ _ h.nodup
      · intro key hKey
        rw [lookup_set] at hKey
        split_ifs at hKey with hId
        · exact ⟨owner, hId, hId ▸ isSome_iff_ne_none.mp hNode⟩
        · exact h.owners key hKey
    · rw [if_neg hNode]
      exact h

theorem collected_loop (h : Collected node created)
    (values : List ConversationRecord) : Collected node (values.foldl (collectOwned node) created) := by
  induction values generalizing created with
  | nil => exact h
  | cons value rest ih => exact ih (collected_turn h value)

theorem lookup_collect (values : List ConversationRecord) (created : List (JsString × List Nat)) (id : Nat)
    (hNode : node (keyOf id) ≠ none) :
    ((values.foldl (collectOwned node) created).lookup (keyOf id)).getD [] =
      (created.lookup (keyOf id)).getD [] ++
        (values.filter fun value => value.owner = some id).map ConversationRecord.id := by
  induction values generalizing created with
  | nil => simp
  | cons value rest ih =>
    rw [List.foldl_cons, ih]
    by_cases hOwner : value.owner = some id
    · have hTurn : collectOwned node created value =
          set created (keyOf id) ((created.lookup (keyOf id)).getD [] ++ [value.id]) := by
        rw [collectOwned, hOwner]
        exact if_pos (isSome_iff_ne_none.mpr hNode)
      rw [hTurn, lookup_set_self, List.filter_cons_of_pos (by simpa using hOwner)]
      simp
    · have hTurn : (collectOwned node created value).lookup (keyOf id) = created.lookup (keyOf id) := by
        cases hValue : value.owner with
        | none => rw [collectOwned, hValue]
        | some owner =>
          rw [collectOwned, hValue]
          show List.lookup (keyOf id) (if _ then _ else _) = _
          split_ifs with hIn
          · apply lookup_set_of_ne
            intro hKey
            rw [hValue, keyOf_injective hKey] at hOwner
            exact hOwner rfl
          · rfl
      rw [hTurn, List.filter_cons_of_neg (by simpa using hOwner)]

theorem apply_owned (created : List (JsString × List Nat)) (fields : Fields) (h : Collected node created)
    (hNodes : Nodes fields) (hRead : ∀ key ∈ created.map Prod.fst, node key = fields.lookup key) :
    ∃ after, Delta.apply (graphJson fields) (created.map (ownedOp node)) = .ok (graphJson after) ∧
      ∀ key, after.lookup key = (fields.lookup key).map (((created.lookup key).map ownedNode).getD id) := by
  induction created generalizing fields with
  | nil => exact ⟨fields, rfl, fun key => by simp⟩
  | cons entry rest ih =>
    obtain ⟨key, ids⟩ := entry
    have hNodup := h.nodup
    rw [List.map_cons, List.nodup_cons] at hNodup
    have hRest : Collected node rest := by
      constructor
      · exact hNodup.2
      · intro other hOther
        apply h.owners other
        rw [lookup_cons]
        split_ifs
        · simp
        · exact hOther
    obtain ⟨owner, hKey, hSome⟩ := h.owners key (by simp [lookup_cons])
    have hNode := hRead key (by simp)
    rw [hNode] at hSome
    obtain ⟨found, hFound⟩ := ne_none_iff_exists'.mp hSome
    obtain ⟨record, old, reason, rfl⟩ := hNodes key found hFound
    obtain ⟨inner, hInner, hDefine⟩ := define_nodeOf record (idsJson old) reason
    have hFirst : applyOp (graphJson fields) (ownedOp node (key, ids)) =
        .ok (graphJson (fields.define key (nodeOf record (idsJson (sortIds (old ++ ids))) reason))) := by
      rw [ownedOp, hNode, hFound, map_some, getD_some, conversationsOf_nodeOf, idsOf_idsJson,
        ← hDefine]
      exact applyOp_field fields inner (hKey ▸ keyOf_safe owner) (hInner ▸ hFound) _
    have hOther : ∀ other ∈ rest.map Prod.fst, other ≠ key := fun other hMem hSame => hNodup.1 (hSame ▸ hMem)
    obtain ⟨after, hAfter, hLookup⟩ := ih
      (fields.define key (nodeOf record (idsJson (sortIds (old ++ ids))) reason)) hRest
      (by
        intro other value hValue
        rw [Fields.lookup_define] at hValue
        split_ifs at hValue
        · exact ⟨record, _, reason, (some.inj hValue).symm⟩
        · exact hNodes other value hValue)
      (by
        intro other hMem
        rw [Fields.lookup_define, if_neg (hOther other hMem)]
        exact hRead other (List.mem_cons_of_mem _ hMem))
    use after
    constructor
    · rw [Delta.apply, List.map_cons, List.foldlM_cons, hFirst]
      exact hAfter
    · intro other
      rw [hLookup, Fields.lookup_define, lookup_cons]
      split_ifs with hSame
      · have hNone : rest.lookup other = none :=
          (lookup_eq_none_iff rest other).mpr (hSame ▸ hNodup.1)
        rw [hNone, hSame, hFound]
        simp [ownedNode_nodeOf]
      · rfl

end Collect

/-! The graph of a storage. -/

section Graph

variable (blocked : BlockedSubject → Option BlockedReason)

/-- The node of a live task. -/
def graphNode (storage : Storage) (id : Nat) : Option JsonValue :=
  (live storage id).map fun record =>
    nodeOf record (idsJson (ownedIds storage id)) (blocked (blockedSubject record))

/-- A mount that shows exactly the live tasks of a storage. -/
structure Shows (storage : Storage) (fields : Fields) (mount : Mount) : Prop where
  value : mount.value = graphJson fields
  ids : IdKeys fields
  node : ∀ id, fields.lookup (keyOf id) = graphNode blocked storage id
  recordIds : IdKeys mount.records
  records : ∀ id, mount.records.lookup (keyOf id) = (live storage id).map blockedSubject

variable {storage : Storage}

theorem live_id (h : storage.Good) {id : Nat} {record : TaskRecord} (hLive : live storage id = some record) : record.id = id :=
  h.taskIds id record (filter_eq_some_iff.mp hLive).1

theorem Shows.nodes {fields : Fields} {mount : Mount} (h : Shows blocked storage fields mount) :
    Nodes fields := by
  intro key node hNode
  obtain ⟨id, rfl⟩ := h.ids key (by rw [hNode]; simp)
  rw [h.node, graphNode, map_eq_some_iff] at hNode
  obtain ⟨record, -, rfl⟩ := hNode
  exact ⟨record, _, _, rfl⟩

theorem build_loop (records : List TaskRecord)
    (hLive : ∀ record ∈ records, live storage record.id = some record) (mount : Fields × List (JsString × BlockedSubject)) :
    (IdKeys mount.1 → IdKeys (records.foldl (buildNode blocked storage) mount).1) ∧
      (IdKeys mount.2 → IdKeys (records.foldl (buildNode blocked storage) mount).2) ∧
      ∀ id,
        (records.foldl (buildNode blocked storage) mount).1.lookup (keyOf id) =
            (if id ∈ records.map TaskRecord.id then graphNode blocked storage id else mount.1.lookup (keyOf id)) ∧
          (records.foldl (buildNode blocked storage) mount).2.lookup (keyOf id) =
            if id ∈ records.map TaskRecord.id then (live storage id).map blockedSubject
            else mount.2.lookup (keyOf id) := by
  induction records generalizing mount with
  | nil => exact ⟨id, id, fun id => by simp⟩
  | cons record rest ih =>
    obtain ⟨hNodes, hRecords, hRead⟩ := ih (fun other hOther => hLive other (List.mem_cons_of_mem _ hOther))
      (buildNode blocked storage mount record)
    have hRecord := hLive record List.mem_cons_self
    refine ⟨fun hIds => hNodes (hIds.define _ _), fun hIds => hRecords (hIds.set _ _), fun id => ?_⟩
    rw [List.foldl_cons, (hRead id).1, (hRead id).2, List.map_cons, buildNode, Fields.lookup_define,
      lookup_set]
    by_cases hRest : id ∈ rest.map TaskRecord.id
    · rw [if_pos hRest, if_pos hRest, if_pos (List.mem_cons_of_mem _ hRest), if_pos (List.mem_cons_of_mem _ hRest)]
      exact ⟨rfl, rfl⟩
    · rw [if_neg hRest, if_neg hRest]
      by_cases hId : id = record.id
      · subst hId
        rw [if_pos rfl, if_pos rfl, if_pos List.mem_cons_self, if_pos List.mem_cons_self, graphNode, hRecord]
        exact ⟨rfl, rfl⟩
      · have hKey : keyOf id ≠ keyOf record.id := fun hKey => hId (keyOf_injective hKey)
        have hOut : id ∉ record.id :: rest.map TaskRecord.id := fun hMem => (List.mem_cons.mp hMem).elim hId hRest
        rw [if_neg hKey, if_neg hKey, if_neg hOut, if_neg hOut]
        exact ⟨rfl, rfl⟩

theorem shows_build (h : storage.Good) :
    ∃ fields, Shows blocked storage fields (build blocked storage) := by
  obtain ⟨hNodes, hRecords, hRead⟩ := build_loop blocked (liveRecords storage)
    (fun record hRecord => (mem_liveRecords h record).mp hRecord) ([], [])
  have hNone : ∀ id, id ∉ (liveRecords storage).map TaskRecord.id → live storage id = none := by
    intro id hOut
    rw [eq_none_iff_forall_ne_some]
    intro record hLive
    have hId := live_id h hLive
    exact hOut (List.mem_map.mpr ⟨record, (mem_liveRecords h record).mpr (hId ▸ hLive), hId⟩)
  refine ⟨_, rfl, hNodes (fun _ hKey => absurd rfl hKey), fun id => ?_, hRecords (fun _ hKey => absurd rfl hKey), fun id => ?_⟩
  · rw [(hRead id).1]
    split_ifs with hIn
    · rfl
    · rw [graphNode, hNone id hIn]
      rfl
  · rw [build, (hRead id).2]
    split_ifs with hIn
    · rfl
    · rw [hNone id hIn]
      rfl

section Publication

variable {storage : Storage} {writes changes : List Change} (h : storage.Good) (hAllowed : Allowed storage writes)
  (hPublishes : Publishes writes changes)

include h hAllowed

omit h in
theorem allowed_order (id : Nat) : ((writes.filterMap Change.task?).filter fun record => record.id = id).Pairwise
    fun earlier _ => earlier.state.status ≠ .terminal := by
  refine (hAllowed.tasks.sublist List.filter_sublist).imp_of_mem fun {earlier later} hEarlier hLater hOrder => hOrder ?_
  rw [of_decide_eq_true (List.mem_filter.mp hEarlier).2, of_decide_eq_true (List.mem_filter.mp hLater).2]

omit hAllowed in
theorem live_commit (id : Nat) :
    live (storage.commit writes) id =
      match ((writes.filterMap Change.task?).filter fun record => record.id = id).getLast? with
      | some record => if record.state.status = .terminal then none else some record
      | none => live storage id := by
  rw [live, (Storage.commit_tasks h.tasks writes).2]
  cases hLast : ((writes.filterMap Change.task?).filter fun record => record.id = id).getLast? with
  | none => rfl
  | some record =>
    rw [some_or, filter_some]
    by_cases hTerminal : record.state.status = .terminal
    · simp [hTerminal]
    · simp [hTerminal]

theorem live_written {id : Nat} {record : TaskRecord} (hWrite : Change.task record ∈ writes) (hId : record.id = id)
    (hNone : live storage id = none) : ownedIds storage id = [] := by
  have hTask : storage.tasks.lookup id = none := by
    cases hOld : storage.tasks.lookup id with
    | none => rfl
    | some old =>
      have hStatus := hAllowed.stored record hWrite old (hId ▸ hOld)
      rw [live, hOld, filter_some, if_pos (by simpa using hStatus)] at hNone
      cases hNone
  rw [List.eq_nil_iff_forall_not_mem]
  intro owned hOwned
  obtain ⟨conversation, hConversation, hOwner⟩ := (mem_ownedIds h id owned).mp hOwned
  exact h.owners owned conversation id hConversation hOwner hTask

include hPublishes

theorem node_loop {fields : Fields} {mount : Mount} (hShows : Shows blocked storage fields mount) (id : Nat) :
    ((changes.filterMap Change.task?).foldl (turn blocked) fields).lookup (keyOf id) =
      (live (storage.commit writes) id).map fun record =>
        nodeOf record (idsJson (ownedIds storage id)) (blocked (blockedSubject record)) := by
  rw [lookup_loop, hPublishes.tasks id, loop_of_id blocked _ (allowed_order hAllowed id), live_commit h,
    hShows.node, graphNode]
  cases hLast : ((writes.filterMap Change.task?).filter fun record => record.id = id).getLast? with
  | none => rfl
  | some record =>
    show nextNode blocked _ record = Option.map _ (if _ then _ else _)
    rw [nextNode]
    split_ifs with hTerminal
    · rfl
    · obtain ⟨hMem, hId⟩ := List.mem_filter.mp (List.mem_of_getLast? hLast)
      rw [map_some]
      cases hLive : live storage id with
      | none =>
        rw [live_written h hAllowed (mem_tasks.mp hMem) (of_decide_eq_true hId) hLive]
        rfl
      | some old => rw [map_some, map_some, getD_some, conversationsOf_nodeOf]

/-- A publication makes of the graph of a storage the graph of the storage behind its commit. -/
theorem shows_advance (owned : Nat → Delta.Path → Bool) {fields : Fields} {mount : Mount}
    (hShows : Shows blocked storage fields mount) :
    ∃ after next, advance blocked owned mount changes = .ok next ∧ Shows blocked (storage.commit writes) after next := by
  have hStart : Follows fields { records := mount.records } fields := ⟨rfl, fun key => rfl⟩
  obtain ⟨hFirst, hNodes⟩ := follows_loop blocked (changes.filterMap Change.task?) hStart hShows.nodes
  have hIds := idKeys_loop blocked (changes.filterMap Change.task?) hShows.ids
  have hNode := node_loop blocked h hAllowed hPublishes hShows
  rw [advance, hShows.value]
  set first := (changes.filterMap Change.task?).foldl (advanceTask blocked (graphJson fields))
    { records := mount.records } with hFirstEq
  set looped := (changes.filterMap Change.task?).foldl (turn blocked) fields with hLooped
  set node := first.node (graphJson fields) with hNodeEq
  set created := (changes.filterMap Change.conversation?).foldl (collectOwned node) [] with hCreated
  have hRead : ∀ key, node key = looped.lookup key := hFirst.node
  have hCollected : Collected node created := by
    apply collected_loop
    exact ⟨List.nodup_nil, fun key hKey => absurd rfl hKey⟩
  obtain ⟨after, hApply, hLookup⟩ := apply_owned created looped hCollected hNodes fun key _ => hRead key
  have hAll : Delta.apply (graphJson fields) (first.ops ++ created.map (ownedOp node)) = .ok (graphJson after) := by
    rw [apply_append hFirst.ops, hApply]
  have hRecords : ∀ id, first.records.lookup (keyOf id) = (live (storage.commit writes) id).map blockedSubject := by
    intro id
    rw [hFirstEq, lookup_records_loop, hPublishes.tasks id, live_commit h, hShows.records]
    cases ((writes.filterMap Change.task?).filter fun record => record.id = id).getLast? with
    | none => rfl
    | some record =>
      show nextSubject record = Option.map _ (if _ then _ else _)
      rw [nextSubject]
      split_ifs <;> rfl
  have hRecordIds : IdKeys first.records := idKeys_records_loop blocked _ hShows.recordIds
  have hAfterIds : IdKeys after := by
    intro key hKey
    rw [hLookup, ne_eq, map_eq_none_iff] at hKey
    exact hIds key hKey
  have hAfter : ∀ id, after.lookup (keyOf id) = graphNode blocked (storage.commit writes) id := by
    intro id
    rw [hLookup, hNode, graphNode, map_map]
    cases hLive : live (storage.commit writes) id with
    | none => rfl
    | some record =>
      have hPresent : node (keyOf id) ≠ none := by
        rw [hRead, hNode, hLive]
        simp
      have hIdsOf := lookup_collect (changes.filterMap Change.conversation?) [] id hPresent
      rw [← hCreated, List.lookup_nil, getD_none, List.nil_append] at hIdsOf
      rw [map_some, map_some, Function.comp_apply, ownedIds_commit h hAllowed hPublishes, ← hIdsOf]
      cases created.lookup (keyOf id) with
      | none =>
        rw [map_none, getD_none, getD_none, List.append_nil, ownedIds, sortIds_sortIds]
        rfl
      | some ids =>
        rw [map_some, getD_some, getD_some, ownedNode_nodeOf]
  by_cases hOps : first.ops ++ created.map (ownedOp node) = []
  · refine ⟨after, _, if_pos hOps, ?_, hAfterIds, hAfter, hRecordIds, hRecords⟩
    rw [hOps] at hAll
    exact Except.ok.inj hAll
  · have hSame := Delta.applyImmutableBatches_same owned (graphJson fields) [first.ops ++ created.map (ownedOp node)]
    rw [List.flatten_singleton, hAll, ← Delta.applyImmutable] at hSame
    cases hValue : Delta.applyImmutable owned (graphJson fields) (first.ops ++ created.map (ownedOp node)) with
    | error error =>
      rw [hValue] at hSame
      cases hSame
    | ok value =>
      rw [hValue] at hSame
      refine ⟨after, { value, records := first.records }, (if_neg hOps).trans ?_, ?_, hAfterIds, hAfter, hRecordIds,
        hRecords⟩
      · rfl
      · exact some.inj hSame

end Publication

theorem Shows.agree {storage : Storage} {fields other : Fields} {first second : Mount}
    (hFirst : Shows blocked storage fields first) (hSecond : Shows blocked storage other second) (key : JsString) :
    (tasksOf first.value).lookup key = (tasksOf second.value).lookup key ∧
      first.records.lookup key = second.records.lookup key := by
  rw [hFirst.value, hSecond.value]
  constructor
  · apply hFirst.ids.ext hSecond.ids
    intro id
    rw [hFirst.node, hSecond.node]
  · apply hFirst.recordIds.ext hSecond.recordIds
    intro id
    rw [hFirst.records, hSecond.records]

end Graph

/-- A commit: its writes, the changes of its publication, and which containers the mount may
change in place while it applies them. -/
structure Commit where
  writes : List Change
  changes : List Change
  owned : Nat → Delta.Path → Bool

def Storage.commits (storage : Storage) (commits : List Commit) : Storage :=
  commits.foldl (fun storage commit => storage.commit commit.writes) storage

/-- Every commit is allowed where it is made, and published. -/
def Commits (storage : Storage) : List Commit → Prop
  | [] => True
  | commit :: rest =>
    Allowed storage commit.writes ∧ Publishes commit.writes commit.changes ∧ Commits (storage.commit commit.writes) rest

/-- A mount behind the publications of these commits. -/
def advanceAll (blocked : BlockedSubject → Option BlockedReason) (mount : Mount) (commits : List Commit) :
    Except Delta.DeltaError Mount :=
  commits.foldlM (fun mount commit => advance blocked commit.owned mount commit.changes) mount

theorem good_empty : (Storage.mk [] []).Good where
  tasks := List.Pairwise.nil
  taskIds id record hRecord := by cases hRecord
  conversations := List.Pairwise.nil
  conversationIds id record hRecord := by cases hRecord
  owners id record owner hRecord := by cases hRecord

variable {storage : Storage} {commits : List Commit}

theorem good_commits (h : storage.Good) (hCommits : Commits storage commits) :
    (storage.commits commits).Good := by
  induction commits generalizing storage with
  | nil => exact h
  | cons commit rest ih => exact ih (good_commit h hCommits.1) hCommits.2.2

theorem commits_append {first second : List Commit} :
    Commits storage (first ++ second) ↔ Commits storage first ∧ Commits (storage.commits first) second := by
  induction first generalizing storage with
  | nil => exact iff_of_eq (true_and _).symm
  | cons commit rest ih =>
    rw [List.cons_append, Commits, Commits, ih, and_assoc, and_assoc]
    rfl

theorem shows_commits (blocked : BlockedSubject → Option BlockedReason) (h : storage.Good)
    (hCommits : Commits storage commits) {fields : Fields} {mount : Mount} (hShows : Shows blocked storage fields mount) :
    ∃ after next, advanceAll blocked mount commits = .ok next ∧ Shows blocked (storage.commits commits) after next := by
  induction commits generalizing storage fields mount with
  | nil => exact ⟨fields, mount, rfl, hShows⟩
  | cons commit rest ih =>
    obtain ⟨hAllowed, hPublishes, hRest⟩ := hCommits
    obtain ⟨after, next, hNext, hAfter⟩ := shows_advance blocked h hAllowed hPublishes commit.owned hShows
    obtain ⟨last, final, hFinal, hLast⟩ := ih (good_commit h hAllowed) hRest hAfter
    refine ⟨last, final, ?_, hLast⟩
    rw [advanceAll, List.foldlM_cons, hNext]
    exact hFinal

/-- A mount made at any time and advanced by every publication since has, for each key, the
node and the record of one made now. -/
theorem graph_agrees (blocked : BlockedSubject → Option BlockedReason) (earlier later : List Commit)
    (hCommits : Commits ⟨[], []⟩ (earlier ++ later)) :
    ∃ mount, advanceAll blocked (build blocked (Storage.commits ⟨[], []⟩ earlier)) later = .ok mount ∧
      ∀ key,
        (tasksOf mount.value).lookup key =
            (tasksOf (build blocked (Storage.commits ⟨[], []⟩ (earlier ++ later))).value).lookup key ∧
          mount.records.lookup key =
            (build blocked (Storage.commits ⟨[], []⟩ (earlier ++ later))).records.lookup key := by
  obtain ⟨hEarlier, hLater⟩ := commits_append.mp hCommits
  have hGood := good_commits good_empty hEarlier
  obtain ⟨fields, hShows⟩ := shows_build blocked hGood
  obtain ⟨after, mount, hMount, hAfter⟩ := shows_commits blocked hGood hLater hShows
  obtain ⟨built, hBuilt⟩ := shows_build blocked (good_commits good_empty hCommits)
  refine ⟨mount, hMount, fun key => ?_⟩
  have hAppend : Storage.commits ⟨[], []⟩ (earlier ++ later) = (Storage.commits ⟨[], []⟩ earlier).commits later :=
    List.foldl_append
  rw [hAppend] at hBuilt ⊢
  exact hAfter.agree blocked hBuilt key

/-- A turn with a conversation of its own. -/
def startTurn : Commit where
  writes := [.task ⟨1, 7, js "turn", 1, none, false, false, false, .pending (js "start")⟩, .conversation ⟨8, some 1⟩]
  changes := [.conversation ⟨8, some 1⟩, .task ⟨1, 7, js "turn", 1, none, false, false, false, .pending (js "start")⟩]
  owned _ _ := false

/-- The turn ends, and hands over to a tool with its conversation. -/
def endTurn : Commit where
  writes :=
    [.conversation ⟨9, some 2⟩, .task ⟨2, 7, js "tool", 1, some 1, false, false, false, .running (js "start")⟩,
      .task ⟨1, 7, js "turn", 1, none, false, false, false, .terminal .completed⟩]
  changes :=
    [.task ⟨1, 7, js "turn", 1, none, false, false, false, .terminal .completed⟩,
      .task ⟨2, 7, js "tool", 1, some 1, false, false, false, .running (js "start")⟩, .conversation ⟨9, some 2⟩]
  owned _ _ := false

theorem graph_agrees_handover :
    ∃ mount, advanceAll (fun _ => none) (build (fun _ => none) (Storage.commits ⟨[], []⟩ [startTurn])) [endTurn] = .ok mount ∧
      ∀ key,
        (tasksOf mount.value).lookup key =
            (tasksOf (build (fun _ => none) (Storage.commits ⟨[], []⟩ [startTurn, endTurn])).value).lookup key ∧
          mount.records.lookup key =
            (build (fun _ => none) (Storage.commits ⟨[], []⟩ [startTurn, endTurn])).records.lookup key := by
  apply graph_agrees (fun _ => none) [startTurn] [endTurn]
  have hEmpty : ∀ {α : Type} {id : Nat} {old : α}, ([] : List (Nat × α)).lookup id ≠ some old := fun hOld => by cases hOld
  have hStart : Allowed ⟨[], []⟩ startTurn.writes := by
    refine ⟨by decide, fun record _ old hOld => absurd hOld hEmpty, by decide, fun record _ => rfl, ?_⟩
    intro record owner hWrite hOwner
    simp only [startTurn, List.mem_cons, Change.conversation.injEq, reduceCtorEq, List.not_mem_nil, or_false,
      false_or] at hWrite
    subst hWrite
    obtain rfl := some.inj hOwner
    exact .inr ⟨_, List.mem_cons_self, rfl⟩
  have hEnd : Allowed (Storage.commit ⟨[], []⟩ startTurn.writes) endTurn.writes := by
    refine ⟨by decide, ?_, by decide, ?_, ?_⟩
    · intro record hWrite old hOld
      simp only [endTurn, List.mem_cons, Change.task.injEq, reduceCtorEq, List.not_mem_nil, or_false, false_or] at hWrite
      rcases hWrite with rfl | rfl
      · cases hOld
      · obtain rfl := some.inj hOld
        decide
    · intro record hWrite
      simp only [endTurn, List.mem_cons, Change.conversation.injEq, reduceCtorEq, List.not_mem_nil, or_false] at hWrite
      subst hWrite
      rfl
    · intro record owner hWrite hOwner
      simp only [endTurn, List.mem_cons, Change.conversation.injEq, reduceCtorEq, List.not_mem_nil, or_false] at hWrite
      subst hWrite
      obtain rfl := some.inj hOwner
      exact .inr ⟨_, List.mem_cons_of_mem _ List.mem_cons_self, rfl⟩
  have hPublished : Publishes endTurn.writes endTurn.changes := by
    constructor
    · intro id
      by_cases hFirst : 1 = id
      · subst hFirst
        rfl
      · by_cases hSecond : 2 = id
        · subst hSecond
          rfl
        · show List.filter _ [_, _] = List.filter _ [_, _]
          simp [hFirst, hSecond]
    · exact List.Perm.refl _
  exact ⟨hStart, ⟨fun id => rfl, List.Perm.refl _⟩, hEnd, hPublished, trivial⟩

end OctoberHarness.TaskGraph
