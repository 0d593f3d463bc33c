import OctoberHarness.Storage.MemoryView

/-! Records of every kind but documents, written by both storages: the indexes in
memory keep to the rows of the tables. -/
namespace OctoberHarness.Storage

open View SortedIds Option OrderedMap

section Index

variable {κ α : Type} [DecidableEq κ] {index : List (κ × List Nat)} {rows : List (Nat × α)}

theorem idsAt_set (index : List (κ × List Nat)) (key other : κ) (ids : List Nat) :
    idsAt (OrderedMap.set index key ids) other = if other = key then ids else idsAt index other := by
  rw [idsAt, lookup_set]
  split_ifs <;> rfl

variable {condition : κ → α → Bool}

theorem insertMapId_eq (h : ∀ key, idsAt index key = Table.select (condition key) rows)
    (hKeyed : Table.Keyed rows) {id : Nat} (hNew : rows.lookup id = none) {value : α} {key : κ}
    (hKey : ∀ other, condition other value = decide (other = key)) (other : κ) :
    idsAt (insertMapId index key id) other = Table.select (condition other) (Table.put id value rows) := by
  rw [insertMapId, idsAt_set, Table.select_put_new hKeyed hNew, hKey, h, h]
  by_cases hOther : other = key
  · rw [if_pos hOther, hOther, if_pos (decide_eq_true rfl)]
  · rw [if_neg hOther, if_neg (by simp [hOther])]

theorem index_unchanged (h : ∀ key, idsAt index key = Table.select (condition key) rows) (hKeyed : Table.Keyed rows) {id : Nat}
    (hNew : rows.lookup id = none) {value : α} (hKey : ∀ other, condition other value = false) (other : κ) :
    idsAt index other = Table.select (condition other) (Table.put id value rows) := by
  rw [Table.select_put_new hKeyed hNew, hKey, h]
  rfl

theorem moveMapId_eq {map : List (Nat × α)} (field : α → κ) (hCopies : ∀ id, map.lookup id = rows.lookup id)
    (h : ∀ key, idsAt index key = Table.select (fun value => decide (key = field value)) rows)
    (hKeyed : Table.Keyed rows) (id : Nat) (value : α) (other : κ) :
    idsAt (moveMapId index ((map.lookup id).map field) (field value) id) other =
      Table.select (fun value => decide (other = field value)) (Table.put id value rows) := by
  rw [hCopies id]
  cases hOld : rows.lookup id with
  | none => exact insertMapId_eq h hKeyed hOld (fun _ => rfl) other
  | some old =>
    simp only [map_some, moveMapId]
    split_ifs with hSame
    · rw [Table.select_put_same hKeyed hOld value _ (by rw [hSame]), h]
    · rw [insertMapId, idsAt_set, removeMapId, idsAt_set, idsAt_set, h, h, h, if_neg (Ne.symm hSame)]
      by_cases hInto : other = field value
      · rw [if_pos hInto, hInto, Table.select_put_enter hKeyed hOld value _ (by simp) (by simp [Ne.symm hSame])]
      · rw [if_neg hInto]
        by_cases hFrom : other = field old
        · rw [if_pos hFrom, Table.select_put_leave hKeyed id value _ (by simp [hInto]), hFrom]
        · rw [if_neg hFrom, Table.select_put_same hKeyed hOld value _ (by simp [hInto, hFrom])]

end Index

variable {α : Type} {rows : List (Nat × α)} {id : Nat} {ids : List (Nat × TableName)} {table : TableName} {d : Sqlite}
    {m : Memory} {value : SubmissionRecord}

variable {map : List (Nat × α)}

theorem Copies.put (h : Copies map rows) (hKeyed : Table.Keyed rows)
    (id : Nat) (value : α) : Copies (OrderedMap.set map id value) (Table.put id value rows) := by
  intro other
  rw [lookup_set, Table.lookup_put hKeyed, h]

theorem Named.put {idOf : α → Nat} (h : Named idOf rows) (value : α) :
    Named idOf (Table.put (idOf value) value rows) := by
  refine ⟨h.1.put _ _, fun key found hLookup => ?_⟩
  rw [Table.lookup_put h.1] at hLookup
  split_ifs at hLookup with hKey
  · rw [← some.inj hLookup, hKey]
  · exact h.2 key found hLookup

theorem length_set_new {entries : List (Nat × α)} (hNew : entries.lookup id = none)
    (value : α) : (OrderedMap.set entries id value).length = entries.length + 1 := by
  rw [OrderedMap.set, hNew]
  simp

/-- Every stored id is claimed for its table. -/
structure Filed (d : Sqlite) : Prop where
  ids : Table.Keyed d.recordIds
  conversations : ∀ id, d.conversations.lookup id ≠ none → d.recordIds.lookup id = some .conversation
  entries : ∀ id, d.entries.lookup id ≠ none → d.recordIds.lookup id = some .entry
  tasks : ∀ id, d.tasks.lookup id ≠ none → d.recordIds.lookup id = some .task
  submissions : ∀ id, d.submissions.lookup id ≠ none → d.recordIds.lookup id = some .submission
  documents : ∀ id, d.documents.lookup id ≠ none → d.recordIds.lookup id = some .document

def claimed (ids : List (Nat × TableName)) (id : Nat) (table : TableName) : List (Nat × TableName) :=
  if (ids.lookup id).isSome then ids else Table.put id table ids

theorem Sqlite.claimId_eq (d : Sqlite) (id : Nat) (table : TableName) :
    d.claimId id table = { d with recordIds := claimed d.recordIds id table } := by
  rw [Sqlite.claimId, claimed]
  split_ifs <;> rfl

theorem keyed_claimed (h : Table.Keyed ids) (id : Nat) (table : TableName) :
    Table.Keyed (claimed ids id table) := by
  rw [claimed]
  split_ifs
  · exact h
  · exact h.put id table

theorem lookup_claimed (h : Table.Keyed ids) (hFree : ids.lookup id = none ∨ ids.lookup id = some table) (other : Nat) :
    (claimed ids id table).lookup other = if other = id then some table else ids.lookup other := by
  rw [claimed]
  rcases hFree with hNone | hSome
  · simp only [hNone, isSome_none, Bool.false_eq_true, if_false]
    exact Table.lookup_put h id table other
  · simp only [hSome, isSome_some, if_true]
    split_ifs with hOther
    · rw [hOther, hSome]
    · rfl

theorem Copies.claim {map : List (Nat × TableName)} (h : Copies map ids) (hKeyed : Table.Keyed ids) (hFree : ids.lookup id = none ∨ ids.lookup id = some table) :
    Copies (OrderedMap.set map id table) (claimed ids id table) := by
  intro other
  rw [lookup_set, lookup_claimed hKeyed hFree, h]

theorem claim_keeps (hKeyed : Table.Keyed ids) {own : TableName} (hFree : ids.lookup id = none ∨ ids.lookup id = some table)
    (h : ∀ id, rows.lookup id ≠ none → ids.lookup id = some own) (other : Nat) (hStored : rows.lookup other ≠ none) :
    (claimed ids id table).lookup other = some own := by
  have hOwn := h other hStored
  rw [lookup_claimed hKeyed hFree]
  split_ifs with hOther
  · rw [← hOther, hOwn] at hFree
    rcases hFree with hNone | hSome
    · exact absurd hNone (some_ne_none _)
    · exact hSome.symm
  · exact hOwn

theorem claim_put (hKeyed : Table.Keyed ids) (hRows : Table.Keyed rows)
    (hFree : ids.lookup id = none ∨ ids.lookup id = some table) (h : ∀ id, rows.lookup id ≠ none → ids.lookup id = some table)
    (value : α) (other : Nat) (hStored : (Table.put id value rows).lookup other ≠ none)
    : (claimed ids id table).lookup other = some table := by
  rw [Table.lookup_put hRows] at hStored
  rw [lookup_claimed hKeyed hFree]
  split_ifs with hOther
  · rfl
  · rw [if_neg hOther] at hStored
    exact h other hStored

theorem lookup_none_of_free (h : ∀ id, rows.lookup id ≠ none → ids.lookup id = some table) (hFree : ids.lookup id = none) :
    rows.lookup id = none := by
  by_contra hStored
  rw [h id hStored] at hFree
  exact some_ne_none _ hFree

/-- What the checks of a commit promise of one write: a free id, or one of its own
table. -/
def Allowed (d : Sqlite) : Write → Prop
  | .conversation value => d.recordIds.lookup value.id = none
  | .entry value => d.recordIds.lookup value.id = none
  | .task value => d.recordIds.lookup value.id = none ∨ d.recordIds.lookup value.id = some .task
  | .submission value => d.recordIds.lookup value.id = none ∨ d.recordIds.lookup value.id = some .submission
  | _ => True

/-- What holds of the tables between the writes of a commit, but for documents. -/
structure Stored (d : Sqlite) : Prop where
  kept : d.Kept
  filed : Filed d

theorem Stored.conversation (h : Stored d) {value : ConversationRecord} (seq : Nat)
    (hAllowed : Allowed d (.conversation value)) : Stored (d.applyTableWrite seq (.conversation value)) := by
  have hFree : d.recordIds.lookup value.id = none := hAllowed
  have hClaim : d.recordIds.lookup value.id = none ∨ d.recordIds.lookup value.id = some .conversation := Or.inl hFree
  simp only [Sqlite.applyTableWrite, Sqlite.claimId_eq]
  refine ⟨?_, ?_⟩
  · exact { h.kept with conversations := h.kept.conversations.put value }
  · exact {
      ids := keyed_claimed h.filed.ids _ _
      conversations := claim_put h.filed.ids h.kept.conversations.1 hClaim h.filed.conversations value
      entries := claim_keeps h.filed.ids hClaim h.filed.entries
      tasks := claim_keeps h.filed.ids hClaim h.filed.tasks
      submissions := claim_keeps h.filed.ids hClaim h.filed.submissions
      documents := claim_keeps h.filed.ids hClaim h.filed.documents }

theorem Mirror.conversation (h : Mirror m d) (hStored : Stored d)
    {value : ConversationRecord} (seq : Nat) (hAllowed : Allowed d (.conversation value)) :
    Mirror (m.applyWrite seq (.conversation value)) (d.applyTableWrite seq (.conversation value)) := by
  have hFree : d.recordIds.lookup value.id = none := hAllowed
  have hNew := lookup_none_of_free hStored.filed.conversations hFree
  have hKeyed := hStored.kept.conversations.1
  have hClaim : d.recordIds.lookup value.id = none ∨ d.recordIds.lookup value.id = some .conversation := Or.inl hFree
  have hTypes := h.recordTypes.claim hStored.filed.ids hClaim
  have hCount : (OrderedMap.set m.conversations value.id value).length =
      (Table.put value.id value d.conversations).length := by
    rw [length_set_new (by rw [h.conversations, hNew]), Table.length_put_new hKeyed hNew, h.conversationCount]
  have hIds : insertSorted m.conversationIds value.id =
      Table.select (fun _ => true) (Table.put value.id value d.conversations) := by
    rw [Table.select_put_new hKeyed hNew, h.conversationIds]
    rfl
  simp only [Memory.applyWrite, Sqlite.applyTableWrite, Sqlite.claimId_eq]
  cases hOwner : value.owner with
  | none =>
    exact { h with
      recordTypes := hTypes
      conversations := h.conversations.put hKeyed value.id value
      conversationCount := hCount
      conversationIds := hIds
      ownerConversations := index_unchanged h.ownerConversations hKeyed hNew (by simp [hOwner])
      ownerTasks := index_unchanged h.ownerTasks hKeyed hNew (by simp [hOwner]) }
  | some owner =>
    exact { h with
      recordTypes := hTypes
      conversations := h.conversations.put hKeyed value.id value
      conversationCount := hCount
      conversationIds := hIds
      ownerConversations := insertMapId_eq h.ownerConversations hKeyed hNew (by simp [hOwner, eq_comm])
      ownerTasks := insertMapId_eq h.ownerTasks hKeyed hNew (by simp [hOwner, eq_comm]) }

theorem Stored.entry (h : Stored d) {value : EntryRecord} (seq : Nat)
    (hFree : Allowed d (.entry value)) : Stored (d.applyTableWrite seq (.entry value)) := by
  have hClaim : d.recordIds.lookup value.id = none ∨ d.recordIds.lookup value.id = some .entry := Or.inl hFree
  simp only [Sqlite.applyTableWrite, Sqlite.claimId_eq]
  refine ⟨?_, ?_⟩
  · exact { h.kept with
      entries := h.kept.entries.put { entry := value, commitSeq := seq } }
  · exact {
      ids := keyed_claimed h.filed.ids _ _
      conversations := claim_keeps h.filed.ids hClaim h.filed.conversations
      entries := claim_put h.filed.ids h.kept.entries.1 hClaim h.filed.entries _
      tasks := claim_keeps h.filed.ids hClaim h.filed.tasks
      submissions := claim_keeps h.filed.ids hClaim h.filed.submissions
      documents := claim_keeps h.filed.ids hClaim h.filed.documents }

theorem Mirror.entry (h : Mirror m d) (hStored : Stored d)
    {value : EntryRecord} (seq : Nat) (hFree : Allowed d (.entry value)) :
    Mirror (m.applyWrite seq (.entry value)) (d.applyTableWrite seq (.entry value)) := by
  have hClaim : d.recordIds.lookup value.id = none ∨ d.recordIds.lookup value.id = some .entry := Or.inl hFree
  have hNew := lookup_none_of_free hStored.filed.entries hFree
  have hKeyed := hStored.kept.entries.1
  simp only [Memory.applyWrite, Sqlite.applyTableWrite, Sqlite.claimId_eq]
  exact { h with
    recordTypes := h.recordTypes.claim hStored.filed.ids hClaim
    entries := by
      intro id
      rw [lookup_set, Table.lookup_put hKeyed, h.entries]
      split_ifs <;> rfl
    entryCommitSeqs := by
      intro id
      rw [lookup_set, Table.lookup_put hKeyed, h.entryCommitSeqs]
      split_ifs <;> rfl
    entryIds := insertMapId_eq h.entryIds hKeyed hNew (by simp [eq_comm])
    headEntryIds := by
      intro id
      cases hHead : value.head with
      | none =>
        exact index_unchanged h.headEntryIds hKeyed hNew (by simp [hHead]) id
      | some head => exact insertMapId_eq h.headEntryIds hKeyed hNew (by simp [hHead, eq_comm]) id }

theorem Stored.task (h : Stored d) {value : TaskRecord} (seq : Nat)
    (hClaim : Allowed d (.task value)) : Stored (d.applyTableWrite seq (.task value)) := by
  simp only [Sqlite.applyTableWrite, Sqlite.claimId_eq]
  refine ⟨?_, ?_⟩
  · exact { h.kept with tasks := h.kept.tasks.put value }
  · exact {
      ids := keyed_claimed h.filed.ids _ _
      conversations := claim_keeps h.filed.ids hClaim h.filed.conversations
      entries := claim_keeps h.filed.ids hClaim h.filed.entries
      tasks := claim_put h.filed.ids h.kept.tasks.1 hClaim h.filed.tasks _
      submissions := claim_keeps h.filed.ids hClaim h.filed.submissions
      documents := claim_keeps h.filed.ids hClaim h.filed.documents }

theorem ids_put (hCopies : Copies map rows) (hKeyed : Table.Keyed rows)
    (id : Nat) (value : α) : (if (map.lookup id).isNone then insertSorted (Table.select (fun _ => true) rows) id
      else Table.select (fun _ => true) rows) = Table.select (fun _ => true) (Table.put id value rows) := by
  rw [hCopies id]
  cases hOld : rows.lookup id with
  | none =>
    rw [Table.select_put_new hKeyed hOld]
    rfl
  | some old =>
    rw [Table.select_put_same hKeyed hOld value _ rfl]
    rfl

theorem Mirror.task (h : Mirror m d) (hStored : Stored d) {value : TaskRecord} (seq : Nat) (hClaim : Allowed d (.task value)) :
    Mirror (m.applyWrite seq (.task value)) (d.applyTableWrite seq (.task value)) := by
  have hKeyed := hStored.kept.tasks.1
  simp only [Memory.applyWrite, Sqlite.applyTableWrite, Sqlite.claimId_eq]
  exact { h with
    recordTypes := h.recordTypes.claim hStored.filed.ids hClaim
    tasks := h.tasks.put hKeyed value.id value
    taskIds := by
      rw [h.taskIds]
      exact ids_put h.tasks hKeyed value.id value
    taskIdsByStatus := moveMapId_eq TaskRecord.status h.tasks h.taskIdsByStatus hKeyed value.id value }

/-! Submissions, and the index of their requests. -/

theorem isRequest_iff (conversationId : Nat) (requestId : JsString) (value : SubmissionRecord) :
    isRequest conversationId requestId value = true ↔
      Memory.requestOf value = some (conversationId, requestId) := by
  rw [isRequest, Memory.requestOf]
  cases value.requestId <;> simp

variable {rows : List (Nat × SubmissionRecord)}

theorem head_select_request (hKeyed : Table.Keyed rows)
    (hUnique : UniqueRequests rows) (conversationId : Nat) (requestId : JsString) (id : Nat) :
    (Table.select (isRequest conversationId requestId) rows).head? = some id ↔
      ∃ value, rows.lookup id = some value ∧ isRequest conversationId requestId value = true := by
  rw [← Table.mem_select hKeyed]
  refine ⟨List.mem_of_head?, fun hMem => ?_⟩
  cases hHead : (Table.select (isRequest conversationId requestId) rows).head? with
  | none =>
    rw [List.head?_eq_none_iff] at hHead
    rw [hHead] at hMem
    exact absurd hMem List.not_mem_nil
  | some first =>
    obtain ⟨a, ha, haRequest⟩ := (Table.mem_select hKeyed _ _).mp (List.mem_of_head? hHead)
    obtain ⟨b, hb, hbRequest⟩ := (Table.mem_select hKeyed _ _).mp hMem
    rw [hUnique conversationId requestId first id a b ha hb haRequest hbRequest]

theorem lookup_dropRequest (index : List ((Nat × JsString) × Nat)) (previous : Option (Nat × JsString)) (id : Nat)
    (request : Nat × JsString) : (Memory.dropRequest index previous id).lookup request =
      if previous = some request ∧ index.lookup request = some id then none else index.lookup request := by
  cases previous with
  | none => simp [Memory.dropRequest]
  | some dropped =>
    rw [Memory.dropRequest]
    by_cases hSame : dropped = request
    · rw [hSame]
      split_ifs <;> simp_all [lookup_erase]
    · have hNot : ¬(some dropped = some request ∧ index.lookup request = some id) :=
        fun h => hSame (some.inj h.1)
      rw [if_neg hNot]
      split_ifs
      · rw [lookup_erase, if_neg (Ne.symm hSame)]
      · rfl

theorem lookup_setRequest (index : List ((Nat × JsString) × Nat)) (current : Option (Nat × JsString)) (id : Nat)
    (request : Nat × JsString) : (Memory.setRequest index current id).lookup request =
      if current = some request then some id else index.lookup request := by
  cases current with
  | none => simp [Memory.setRequest]
  | some set =>
    rw [Memory.setRequest, lookup_set]
    simp only [some.injEq, eq_comm]

theorem UniqueRequests.put (h : UniqueRequests rows)
    (hKeyed : Table.Keyed rows)
    (hOwn : ∀ requestId, value.requestId = some requestId → ∀ id other, rows.lookup id = some other →
      isRequest value.conversationId requestId other = true → id = value.id) :
    UniqueRequests (Table.put value.id value rows) := by
  have hOther : ∀ conversationId requestId id other, rows.lookup id = some other →
      isRequest conversationId requestId value = true → isRequest conversationId requestId other = true →
      id = value.id := by
    intro conversationId requestId id other hLookup hValue hIs
    simp only [isRequest, Bool.and_eq_true, decide_eq_true_eq] at hValue
    exact hOwn requestId hValue.2 id other hLookup (hValue.1 ▸ hIs)
  intro conversationId requestId a b first second ha hb hFirst hSecond
  rw [Table.lookup_put hKeyed] at ha hb
  split_ifs at ha hb with hA hB hB
  · rw [hA, hB]
  · rw [← some.inj ha] at hFirst
    rw [hA, hOther conversationId requestId b second hb hFirst hSecond]
  · rw [← some.inj hb] at hSecond
    rw [hB, hOther conversationId requestId a first ha hSecond hFirst]
  · exact h conversationId requestId a b first second ha hb hFirst hSecond

theorem Stored.submission (h : Stored d) (seq : Nat)
    (hClaim : Allowed d (.submission value)) : Stored (d.applyTableWrite seq (.submission value)) := by
  simp only [Sqlite.applyTableWrite, Sqlite.claimId_eq]
  refine ⟨?_, ?_⟩
  · exact { h.kept with submissions := h.kept.submissions.put value }
  · exact {
      ids := keyed_claimed h.filed.ids _ _
      conversations := claim_keeps h.filed.ids hClaim h.filed.conversations
      entries := claim_keeps h.filed.ids hClaim h.filed.entries
      tasks := claim_keeps h.filed.ids hClaim h.filed.tasks
      submissions := claim_put h.filed.ids h.kept.submissions.1 hClaim h.filed.submissions _
      documents := claim_keeps h.filed.ids hClaim h.filed.documents }

theorem Mirror.submission (h : Mirror m d) (hStored : Stored d) (seq : Nat) (hClaim : Allowed d (.submission value)) :
    Mirror (m.applyWrite seq (.submission value)) (d.applyTableWrite seq (.submission value)) := by
  have hKeyed := hStored.kept.submissions.1
  simp only [Memory.applyWrite, Sqlite.applyTableWrite, Sqlite.claimId_eq]
  exact { h with
    recordTypes := h.recordTypes.claim hStored.filed.ids hClaim
    submissions := h.submissions.put hKeyed value.id value
    submissionIds := by
      rw [h.submissionIds]
      exact ids_put h.submissions hKeyed value.id value
    submissionIdsByStatus :=
      moveMapId_eq SubmissionRecord.status h.submissions h.submissionIdsByStatus hKeyed value.id value }

theorem Requested.submission (h : Requested m d) (hMirror : Mirror m d) (hStored : Stored d) (seq : Nat)
    (hOwn : ∀ requestId, value.requestId = some requestId → ∀ id other, d.submissions.lookup id = some other →
      isRequest value.conversationId requestId other = true → id = value.id) :
    Requested (m.applyWrite seq (.submission value)) (d.applyTableWrite seq (.submission value)) := by
  have hKeyed := hStored.kept.submissions.1
  have hUnique := h.unique.put hKeyed hOwn
  simp only [Memory.applyWrite, Sqlite.applyTableWrite, Sqlite.claimId_eq]
  refine ⟨?_, hUnique⟩
  intro conversationId requestId
  refine ext fun id => ?_
  have hBefore : ∀ id, m.submissionIdsByRequest.lookup (conversationId, requestId) = some id ↔
      ∃ other, d.submissions.lookup id = some other ∧ isRequest conversationId requestId other = true := by
    intro id
    rw [h.index, head_select_request hKeyed h.unique]
  rw [head_select_request (hKeyed.put _ _) hUnique, lookup_setRequest, lookup_dropRequest,
    hMirror.submissions, Table.lookup_put hKeyed]
  simp only [← isRequest_iff]
  by_cases hIs : isRequest conversationId requestId value = true
  · -- the request now names the record, and no other one has it
    rw [if_pos hIs]
    constructor
    · intro hId
      exact ⟨value, by rw [if_pos (some.inj hId).symm], hIs⟩
    · rintro ⟨other, hOther, hOtherIs⟩
      split_ifs at hOther with hId
      · rw [hId]
      · simp only [isRequest, Bool.and_eq_true, decide_eq_true_eq] at hIs
        exact absurd (hOwn requestId hIs.2 id other hOther (hIs.1 ▸ hOtherIs)) hId
  · rw [if_neg hIs]
    by_cases hId : id = value.id
    · -- the record no longer has the request
      rw [if_pos hId]
      refine iff_of_false (fun hLookup => ?_) ?_
      · split_ifs at hLookup with hDropped
        obtain ⟨previous, hPrevious, hPreviousIs⟩ := (hBefore id).mp hLookup
        rw [hId] at hPrevious hLookup
        refine hDropped ⟨?_, hLookup⟩
        rw [hPrevious]
        exact (isRequest_iff _ _ _).mp hPreviousIs
      · rintro ⟨other, hOther, hOtherIs⟩
        rw [some.inj hOther] at hIs
        exact hIs hOtherIs
    · rw [if_neg hId, ← hBefore]
      split_ifs with hDropped
      · rw [hDropped.2]
        simp [Ne.symm hId]
      · rfl

theorem Requested.write (h : Requested m d) (hMirror : Mirror m d) (hStored : Stored d)
    (seq : Nat) {write : Write} (hOwn : ∀ value, write = .submission value → ∀ requestId,
      value.requestId = some requestId → ∀ id other, d.submissions.lookup id = some other →
        isRequest value.conversationId requestId other = true → id = value.id) :
    Requested (m.applyWrite seq write) (d.applyTableWrite seq write) := by
  cases write with
  | conversation value =>
    simp only [Memory.applyWrite, Sqlite.applyTableWrite, Sqlite.claimId_eq]
    cases value.owner <;> exact ⟨h.index, h.unique⟩
  | entry value =>
    simp only [Sqlite.applyTableWrite, Sqlite.claimId_eq]
    exact ⟨h.index, h.unique⟩
  | task value =>
    simp only [Sqlite.applyTableWrite, Sqlite.claimId_eq]
    exact ⟨h.index, h.unique⟩
  | submission value => exact h.submission hMirror hStored seq (hOwn value rfl)
  | documentCreate record version value => exact h
  | documentCopy record source => exact h
  | documentChange id content => exact h
  | documentRetire id => exact h

theorem Mirror.write (h : Mirror m d) (hStored : Stored d) (seq : Nat) {write : Write} (hAllowed : Allowed d write) :
    Mirror (m.applyWrite seq write) (d.applyTableWrite seq write) ∧ Stored (d.applyTableWrite seq write) := by
  cases write with
  | conversation value => exact ⟨h.conversation hStored seq hAllowed, hStored.conversation seq hAllowed⟩
  | entry value => exact ⟨h.entry hStored seq hAllowed, hStored.entry seq hAllowed⟩
  | task value => exact ⟨h.task hStored seq hAllowed, hStored.task seq hAllowed⟩
  | submission value => exact ⟨h.submission hStored seq hAllowed, hStored.submission seq hAllowed⟩
  | documentCreate record version value => exact ⟨h, hStored⟩
  | documentCopy record source => exact ⟨h, hStored⟩
  | documentChange id content => exact ⟨h, hStored⟩
  | documentRetire id => exact ⟨h, hStored⟩

/-- Every write is allowed when its turn comes. -/
def AllowedRun (seq : Nat) : Sqlite → List Write → Prop
  | _, [] => True
  | d, write :: rest => Allowed d write ∧ AllowedRun seq (d.applyTableWrite seq write) rest

theorem Mirror.writes (h : Mirror m d) (hStored : Stored d) (seq : Nat) {writes : List Write}
    (hAllowed : AllowedRun seq d writes) :
    Mirror (writes.foldl (fun m write => m.applyWrite seq write) m)
        (writes.foldl (fun d write => d.applyTableWrite seq write) d) ∧
      Stored (writes.foldl (fun d write => d.applyTableWrite seq write) d) := by
  induction writes generalizing m d with
  | nil => exact ⟨h, hStored⟩
  | cons write rest ih =>
    obtain ⟨hFirst, hRest⟩ := hAllowed
    obtain ⟨hMirror, hNext⟩ := h.write hStored seq hFirst
    exact ih hMirror hNext hRest

end OctoberHarness.Storage
