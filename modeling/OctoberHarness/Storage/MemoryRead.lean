import OctoberHarness.Storage.Memory

/-! The reads of the in-memory storage. A loop over a fork chain has as many
turns as there are conversations and one more; a chain that is longer goes round
in a cycle, and the loop does not end. -/
namespace OctoberHarness.Storage

open SortedIds

namespace Memory

/-- `scanIndexes`, as the ids at the indexes. -/
def scanIds (ids : List Nat) (start : ScanStart) : List Nat :=
  match start.order, start.after with
  | .ascending, none => ids
  | .ascending, some after => ids.drop (upperBound ids after)
  | .descending, none => ids.reverse
  | .descending, some after => (ids.take (lowerBound ids after)).reverse

/-- The loop of a scan: the records that pass its filter, until there are
`count`. -/
def collect {α : Type} (get : Nat → Option α) (keep : α → Bool) : Nat → List Nat → Except ReadError (List α)
  | 0, _ => .ok []
  | _ + 1, [] => .ok []
  | count + 1, id :: rest =>
    match get id with
    | none => .error .type
    | some value =>
      if keep value then do
        let values ← collect get keep count rest
        .ok (value :: values)
      else collect get keep (count + 1) rest

def scanConversations (m : Memory) (query : ConversationQuery) (limit : Nat) (cursor : Option Cursor) :
    Except ReadError (Page ConversationRecord) := do
  let ids :=
    match query.ownerTaskId, query.ownerConversationId with
    | some task, _ => idsAt m.conversationIdsByOwnerTask task
    | none, some conversation => idsAt m.conversationIdsByOwnerConversation conversation
    | none, none => m.conversationIds
  let start ← scanStart query.order cursor .ascending
  let keep (value : ConversationRecord) : Bool :=
    query.ownerConversationId.all fun id => decide (value.owner.map Owner.conversationId = some id)
  let values ← collect (List.lookup · m.conversations) keep (limit + 1) (scanIds ids start)
  page ConversationRecord.id values limit start.order

/-- The ids of one conversation that `visibleEntries` yields. -/
def segmentIds (m : Memory) (id : Nat) (lower upper : Option Int) : List Nat :=
  let ids := idsAt m.entryIds id
  let last := match upper with
    | none => ids.length
    | some upper => upperBound ids upper
  (ids.take last).reverse.takeWhile fun (id : Nat) => lower.all fun lower => decide (lower ≤ (id : Int))

/-- `visibleEntries` from one conversation on, for a consumer of `count`
entries. -/
def visibleFrom (m : Memory) (lower : Option Int) : Nat → Nat → Option Int → Nat → Except ReadError (List EntryRecord)
  | 0, _, _, _ => .error .diverges
  | fuel + 1, id, upper, count => do
    let found ← collect (List.lookup · m.entries) (fun _ => true) count (m.segmentIds id lower upper)
    if found.length = count then .ok found
    else
      match m.conversations.lookup id with
      | none => .error .type
      | some conversation =>
        match conversation.parent with
        | none => .ok found
        | some parent =>
          let upper := narrowUpper upper parent.atEntry
          if isEmptyRange lower upper then .ok found
          else do
            let rest ← m.visibleFrom lower fuel parent.conversationId upper (count - found.length)
            .ok (found ++ rest)

/-- The turns a loop over a fork chain may take. -/
def chainFuel (m : Memory) : Nat :=
  m.conversations.length + 1

def visibleEntries (m : Memory) (id : Nat) (lower upper : Option Int) (count : Nat) :
    Except ReadError (List EntryRecord) :=
  if (m.conversations.lookup id).isNone then .error (.unknownConversation id)
  else m.visibleFrom lower m.chainFuel id upper count

/-- The segments of `visibleEntriesAscending`, newest first. -/
def segments (m : Memory) (lower : Option Int) : Nat → Nat → Option Int → Except ReadError (List (Nat × Option Int))
  | 0, _, _ => .error .diverges
  | fuel + 1, id, upper =>
    match m.conversations.lookup id with
    | none => .error .type
    | some conversation =>
      match conversation.parent with
      | none => .ok [(id, upper)]
      | some parent =>
        let next := narrowUpper upper parent.atEntry
        if isEmptyRange lower next then .ok [(id, upper)]
        else do
          let rest ← m.segments lower fuel parent.conversationId next
          .ok ((id, upper) :: rest)

/-- The ids of a segment, oldest first. -/
def ascendingIds (m : Memory) (lower : Option Int) (segment : Nat × Option Int) : List Nat :=
  let ids := idsAt m.entryIds segment.1
  let first := match lower with
    | none => 0
    | some lower => lowerBound ids lower
  (ids.drop first).takeWhile fun (id : Nat) => segment.2.all fun upper => decide ((id : Int) ≤ upper)

/-- `visibleEntriesAscending`, for a consumer of `count` entries. -/
def visibleEntriesAscending (m : Memory) (id : Nat) (lower upper : Option Int) (count : Nat) :
    Except ReadError (List EntryRecord) :=
  if (m.conversations.lookup id).isNone then .error (.unknownConversation id)
  else do
    let segments ← m.segments lower m.chainFuel id upper
    collect (List.lookup · m.entries) (fun _ => true) count (segments.reverse.flatMap (m.ascendingIds lower))

/-- `entry` without a conversation. -/
def entry (m : Memory) (id : Nat) : Except ReadError (Option StoredEntry) :=
  match m.entries.lookup id with
  | none => .ok none
  | some entry =>
    match m.entryCommitSeqs.lookup id with
    | none => .error .type
    | some commitSeq => .ok (some { entry, commitSeq })

/-- `entry` with a conversation. -/
def visibleEntry (m : Memory) (conversationId id : Nat) : Except ReadError (Option StoredEntry) := do
  let found ← m.visibleEntries conversationId (some id) (some id) 1
  match found.head? with
  | none => .ok none
  | some entry =>
    match m.entryCommitSeqs.lookup id with
    | none => .error .type
    | some commitSeq => .ok (some { entry, commitSeq })

/-- The head markers of one conversation up to a bound. -/
def headIds (m : Memory) (id : Nat) (upper : Option Int) : List Nat :=
  let ids := idsAt m.headEntryIds id
  match upper with
  | none => ids
  | some upper => ids.take (upperBound ids upper)

/-- The loop of `findLatestHeadMarker`. -/
def headFrom (m : Memory) : Nat → Nat → Option Int → Except ReadError (Option EntryRecord)
  | 0, _, _ => .error .diverges
  | fuel + 1, id, upper =>
    match (m.headIds id upper).getLast? with
    | some last =>
      match m.entries.lookup last with
      | none => .error .type
      | some entry => .ok (some entry)
    | none =>
      match m.conversations.lookup id with
      | none => .error .type
      | some conversation =>
        match conversation.parent with
        | none => .ok none
        | some parent => m.headFrom fuel parent.conversationId (narrowUpper upper parent.atEntry)

def findLatestHeadMarker (m : Memory) (id : Nat) (atOrBeforeEntryId : Option Nat) :
    Except ReadError (Option EntryRecord) :=
  if (m.conversations.lookup id).isNone then .error (.unknownConversation id)
  else m.headFrom m.chainFuel id (atOrBeforeEntryId.map Int.ofNat)

def scanEntries (m : Memory) (query : EntryQuery) (limit : Nat) (cursor : Option Cursor) :
    Except ReadError (Page EntryRecord) := do
  let start ← scanStart query.order cursor .descending
  let visible ←
    match start.order with
    | .descending =>
      let upper := match start.after with
        | none => query.maxEntryId
        | some after => some (min (query.maxEntryId.getD after) (after - 1))
      m.visibleEntries query.conversationId query.minEntryId upper (limit + 1)
    | .ascending =>
      let lower := match start.after with
        | none => query.minEntryId
        | some after => some (max (query.minEntryId.getD after) (after + 1))
      m.visibleEntriesAscending query.conversationId lower query.maxEntryId (limit + 1)
  page EntryRecord.id visible limit start.order

/-- The filter of a task scan that no index serves. -/
def TaskQuery.keeps (query : TaskQuery) (value : TaskRecord) : Bool :=
  query.conversationId.all (· = value.conversationId) && query.kind.all (· = value.kind) &&
    query.abortRequested.all (· = value.abortRequested) && query.background.all (· = value.background)

def scanTasks (m : Memory) (query : TaskQuery) (limit : Nat) (cursor : Option Cursor) :
    Except ReadError (Page TaskRecord) := do
  let start ← scanStart query.order cursor .ascending
  let ids := match query.status with
    | none => m.taskIds
    | some status => idsAt m.taskIdsByStatus status
  let values ← collect (List.lookup · m.tasks) (TaskQuery.keeps query) (limit + 1) (scanIds ids start)
  page TaskRecord.id values limit start.order

def scanSubmissions (m : Memory) (query : SubmissionQuery) (limit : Nat) (cursor : Option Cursor) :
    Except ReadError (Page SubmissionRecord) := do
  let start ← scanStart query.order cursor .ascending
  let ids := match query.status with
    | none => m.submissionIds
    | some status => idsAt m.submissionIdsByStatus status
  let keep (value : SubmissionRecord) : Bool := query.conversationId.all (· = value.conversationId)
  let values ← collect (List.lookup · m.submissions) keep (limit + 1) (scanIds ids start)
  page SubmissionRecord.id values limit start.order

def submissionByRequest (m : Memory) (conversationId : Nat) (requestId : JsString) :
    Except ReadError (Option SubmissionRecord) :=
  match m.submissionIdsByRequest.lookup (conversationId, requestId) with
  | none => .ok none
  | some id =>
    match m.submissions.lookup id with
    | none => .error .type
    | some value => .ok (some value)

/-- The loop of `findDocument` over the incarnations of an address. -/
def firstAlive (m : Memory) (point : DocumentPoint) : List Nat → Except ReadError (Option DocumentRecord)
  | [] => .ok none
  | id :: rest =>
    match m.documents.lookup id with
    | none => .error .type
    | some stored => if isAliveAt stored.record point then .ok (some stored.record) else m.firstAlive point rest

def findDocument (m : Memory) (address : DocumentAddress) (point : DocumentPoint) :
    Except ReadError (Option DocumentRecord) :=
  let index := m.documentAddresses.lookup (addressKey address)
  match point with
  | .current =>
    match index.bind AddressIndex.currentId with
    | none => .ok none
    | some id =>
      match m.documents.lookup id with
      | none => .error .type
      | some stored => .ok (some stored.record)
  | .at _ => m.firstAlive point ((index.map AddressIndex.ids).getD [])

def scanDocuments (m : Memory) (query : DocumentQuery) (limit : Nat) (cursor : Option Cursor) :
    Except ReadError (Page DocumentRecord) := do
  let ids := idsAt m.documentIdsByScope (scopeKey query.scope)
  let after ← cursorId cursor
  let keep (record : DocumentRecord) : Bool := query.kind.all (· = record.kind) && isAliveAt record query.point
  let values ←
    collect (fun id => (m.documents.lookup id).map DocumentState.record) keep (limit + 1)
      (scanIds ids { order := .ascending, after })
  page (fun record => record.id) values limit .ascending

def read (m : Memory) : Read → Except ReadError ReadResult
  | .conversation id => .ok (.conversation (m.conversations.lookup id))
  | .scanConversations query limit cursor => .conversations <$> m.scanConversations query limit cursor
  | .entry id => .entry <$> m.entry id
  | .visibleEntry conversationId id => .entry <$> m.visibleEntry conversationId id
  | .findLatestHeadMarker id atOrBefore => .head <$> m.findLatestHeadMarker id atOrBefore
  | .scanEntries query limit cursor => .entries <$> m.scanEntries query limit cursor
  | .task id => .ok (.task (m.tasks.lookup id))
  | .scanTasks query limit cursor => .tasks <$> m.scanTasks query limit cursor
  | .submission id => .ok (.submission (m.submissions.lookup id))
  | .scanSubmissions query limit cursor => .submissions <$> m.scanSubmissions query limit cursor
  | .submissionByRequest conversationId requestId => .submission <$> m.submissionByRequest conversationId requestId
  | .findDocument address point => .documentRecord <$> m.findDocument address point
  | .document id point => .document <$> m.materializeDocument id point
  | .scanDocuments query limit cursor => .documents <$> m.scanDocuments query limit cursor

end Memory

end OctoberHarness.Storage
