import OctoberHarness.Storage.Sqlite

/-! The reads of the SQLite storage. The loops over a fork chain take at most one
turn more than there are conversations, as those of the in-memory storage. -/
namespace OctoberHarness.Storage

namespace Sqlite

def scanConversations (d : Sqlite) (query : ConversationQuery) (limit : Nat) (cursor : Option Cursor) :
    Except ReadError (Page ConversationRecord) := do
  let start ← scanStart query.order cursor .ascending
  let condition (id : Nat) (value : ConversationRecord) : Bool :=
    scanSql start id &&
      (query.ownerConversationId.all fun id => decide (value.owner.map Owner.conversationId = some id)) &&
      query.ownerTaskId.all fun id => decide (value.owner.map Owner.taskId = some id)
  page ConversationRecord.id (select d.conversations condition start.order (limit + 1)) limit start.order

/-- `entry` without a conversation. -/
def entry (d : Sqlite) (id : Nat) : Option StoredEntry :=
  d.entries.lookup id

/-- The turns a loop over a fork chain may take. -/
def chainFuel (d : Sqlite) : Nat :=
  d.conversations.length + 1

/-- The loop of `readEntry`: the last entry of the owner that is visible, when
the owner is on the chain. -/
def ownerUpper (d : Sqlite) (owner : Nat) : Nat → ConversationRecord → Option Int → Except ReadError (Option (Option Int))
  | 0, _, _ => .error .diverges
  | fuel + 1, conversation, upper =>
    if conversation.id = owner then .ok (some upper)
    else
      match conversation.parent with
      | none => .ok none
      | some parent =>
        match d.conversations.lookup parent.conversationId with
        | none => .error .type
        | some next => d.ownerUpper owner fuel next (narrowUpper upper parent.atEntry)

/-- `entry` with a conversation. -/
def visibleEntry (d : Sqlite) (conversationId id : Nat) : Except ReadError (Option StoredEntry) :=
  match d.conversations.lookup conversationId with
  | none => .error (.unknownConversation conversationId)
  | some conversation =>
    match d.entries.lookup id with
    | none => .ok none
    | some row => do
      match ← d.ownerUpper row.entry.conversationId d.chainFuel conversation none with
      | none => .ok none
      | some upper =>
        if upper.any fun upper => decide (upper < (row.entry.id : Int)) then .ok none else .ok (some row)

/-- The entries of one conversation in a range. -/
def inSegment (conversationId : Nat) (lower upper : Option Int) (id : Nat) (row : StoredEntry) : Bool :=
  decide (row.entry.conversationId = conversationId) && (lower.all fun lower => decide (lower ≤ (id : Int))) &&
    upper.all fun upper => decide ((id : Int) ≤ upper)

/-- The loop of `readLatestHeadMarker`. -/
def headFrom (d : Sqlite) : Nat → ConversationRecord → Option Int → Except ReadError (Option EntryRecord)
  | 0, _, _ => .error .diverges
  | fuel + 1, conversation, upper =>
    let condition (id : Nat) (row : StoredEntry) : Bool :=
      inSegment conversation.id none upper id row && row.entry.head.isSome
    match (select d.entries condition .descending 1).head? with
    | some row => .ok (some row.entry)
    | none =>
      match conversation.parent with
      | none => .ok none
      | some parent =>
        match d.conversations.lookup parent.conversationId with
        | none => .error .type
        | some next => d.headFrom fuel next (narrowUpper upper parent.atEntry)

def findLatestHeadMarker (d : Sqlite) (id : Nat) (atOrBeforeEntryId : Option Nat) :
    Except ReadError (Option EntryRecord) :=
  match d.conversations.lookup id with
  | none => .error (.unknownConversation id)
  | some conversation => d.headFrom d.chainFuel conversation (atOrBeforeEntryId.map Int.ofNat)

/-- The loop of `readEntries`, with room for `count` entries. -/
def entriesFrom (d : Sqlite) (lower : Option Int) :
    Nat → ConversationRecord → Option Int → Nat → Except ReadError (List EntryRecord)
  | 0, _, _, _ => .error .diverges
  | fuel + 1, conversation, upper, count =>
    let found :=
      (select d.entries (inSegment conversation.id lower upper) .descending count).map StoredEntry.entry
    if found.length = count then .ok found
    else
      match conversation.parent with
      | none => .ok found
      | some parent =>
        let upper := narrowUpper upper parent.atEntry
        if isEmptyRange lower upper then .ok found
        else
          match d.conversations.lookup parent.conversationId with
          | none => .error .type
          | some next => do
            let rest ← d.entriesFrom lower fuel next upper (count - found.length)
            .ok (found ++ rest)

/-- The segments of `readEntriesAscending`, newest first. -/
def segments (d : Sqlite) (lower : Option Int) :
    Nat → ConversationRecord → Option Int → Except ReadError (List (Nat × Option Int))
  | 0, _, _ => .error .diverges
  | fuel + 1, conversation, upper =>
    match conversation.parent with
    | none => .ok [(conversation.id, upper)]
    | some parent =>
      let next := narrowUpper upper parent.atEntry
      if isEmptyRange lower next then .ok [(conversation.id, upper)]
      else
        match d.conversations.lookup parent.conversationId with
        | none => .error .type
        | some record => do
          let rest ← d.segments lower fuel record next
          .ok ((conversation.id, upper) :: rest)

/-- The loop of `readEntriesAscending` over the segments, oldest first. -/
def ascendingFrom (d : Sqlite) (lower : Option Int) : List (Nat × Option Int) → Nat → List EntryRecord
  | [], _ => []
  | segment :: rest, count =>
    let found :=
      (select d.entries (inSegment segment.1 lower segment.2) .ascending count).map StoredEntry.entry
    if found.length = count then found else found ++ d.ascendingFrom lower rest (count - found.length)

def scanEntries (d : Sqlite) (query : EntryQuery) (limit : Nat) (cursor : Option Cursor) :
    Except ReadError (Page EntryRecord) := do
  let start ← scanStart query.order cursor .descending
  match d.conversations.lookup query.conversationId with
  | none => .error (.unknownConversation query.conversationId)
  | some conversation => do
    let values ←
      match start.order with
      | .descending =>
        let upper := match start.after with
          | none => query.maxEntryId
          | some after => some (min (query.maxEntryId.getD MAX_SAFE_INTEGER) (after - 1))
        d.entriesFrom query.minEntryId d.chainFuel conversation upper (limit + 1)
      | .ascending => do
        let segments ← d.segments query.minEntryId d.chainFuel conversation query.maxEntryId
        let lower := match start.after with
          | none => query.minEntryId
          | some after => some (max (query.minEntryId.getD (after + 1)) (after + 1))
        .ok (d.ascendingFrom lower segments.reverse (limit + 1))
    page EntryRecord.id values limit start.order

def scanTasks (d : Sqlite) (query : TaskQuery) (limit : Nat) (cursor : Option Cursor) :
    Except ReadError (Page TaskRecord) := do
  let start ← scanStart query.order cursor .ascending
  let condition (id : Nat) (value : TaskRecord) : Bool :=
    scanSql start id && query.conversationId.all (· = value.conversationId) &&
      (query.kind.all fun kind => decide (encodeIndexedString value.kind = encodeIndexedString kind)) &&
      query.status.all (· = value.status) && query.abortRequested.all (· = value.abortRequested) &&
      query.background.all (· = value.background)
  page TaskRecord.id (select d.tasks condition start.order (limit + 1)) limit start.order

def scanSubmissions (d : Sqlite) (query : SubmissionQuery) (limit : Nat) (cursor : Option Cursor) :
    Except ReadError (Page SubmissionRecord) := do
  let start ← scanStart query.order cursor .ascending
  let condition (id : Nat) (value : SubmissionRecord) : Bool :=
    scanSql start id && query.conversationId.all (· = value.conversationId) && query.status.all (· = value.status)
  page SubmissionRecord.id (select d.submissions condition start.order (limit + 1)) limit start.order

def submissionByRequest (d : Sqlite) (conversationId : Nat) (requestId : JsString) : Option SubmissionRecord :=
  let condition (_ : Nat) (value : SubmissionRecord) : Bool :=
    decide (value.conversationId = conversationId) &&
      decide (value.requestId.map encodeIndexedString = some (encodeIndexedString requestId))
  (select d.submissions condition .ascending 1).head?

/-- `findDocument`: the newest of the incarnations alive. -/
def findDocument (d : Sqlite) (address : DocumentAddress) (point : DocumentPoint) : Option DocumentRecord :=
  let found := (d.documents.map Prod.snd).filter fun record =>
    decide (addressParts record.address = addressParts address) && isAliveAt record point
  (found.mergeSort fun a b => decide (b.createdAt ≤ a.createdAt)).head?

def scanDocuments (d : Sqlite) (query : DocumentQuery) (limit : Nat) (cursor : Option Cursor) :
    Except ReadError (Page DocumentRecord) := do
  let after ← cursorId cursor
  let condition (id : Nat) (record : DocumentRecord) : Bool :=
    decide (scopeColumns record.scope = scopeColumns query.scope) && decide (after.getD (-1) < (id : Int)) &&
      (query.kind.all fun kind => decide (encodeIndexedString record.kind = encodeIndexedString kind)) &&
      isAliveAt record query.point
  page (fun record => record.id) (select d.documents condition .ascending (limit + 1)) limit .ascending

def read (d : Sqlite) : Read → Except ReadError ReadResult
  | .conversation id => .ok (.conversation (d.conversations.lookup id))
  | .scanConversations query limit cursor => .conversations <$> d.scanConversations query limit cursor
  | .entry id => .ok (.entry (d.entry id))
  | .visibleEntry conversationId id => .entry <$> d.visibleEntry conversationId id
  | .findLatestHeadMarker id atOrBefore => .head <$> d.findLatestHeadMarker id atOrBefore
  | .scanEntries query limit cursor => .entries <$> d.scanEntries query limit cursor
  | .task id => .ok (.task (d.tasks.lookup id))
  | .scanTasks query limit cursor => .tasks <$> d.scanTasks query limit cursor
  | .submission id => .ok (.submission (d.submissions.lookup id))
  | .scanSubmissions query limit cursor => .submissions <$> d.scanSubmissions query limit cursor
  | .submissionByRequest conversationId requestId => .ok (.submission (d.submissionByRequest conversationId requestId))
  | .findDocument address point => .ok (.documentRecord (d.findDocument address point))
  | .document id point => .document <$> d.materializeDocument id point
  | .scanDocuments query limit cursor => .documents <$> d.scanDocuments query limit cursor

end Sqlite

end OctoberHarness.Storage
