import OctoberHarness.Storage.Record
import OctoberHarness.Json.Text

/-! The in-memory reference storage: maps of records, sorted arrays of ids as
its indexes, and reads over both. -/
namespace OctoberHarness.Storage

open SortedIds OrderedMap

/-- `StoredDocumentState`. -/
structure DocumentState where
  record : DocumentRecord
  revisions : List Revision
deriving DecidableEq, Repr

/-- `DocumentAddressIndex`. -/
structure AddressIndex where
  ids : List Nat := []
  currentId : Option Nat := none
deriving DecidableEq, Repr

/-- `State` of `MemoryStorage`, with its two counters. -/
structure Memory where
  recordTypes : List (Nat × TableName) := []
  conversations : List (Nat × ConversationRecord) := []
  conversationIds : List Nat := []
  conversationIdsByOwnerConversation : List (Nat × List Nat) := []
  conversationIdsByOwnerTask : List (Nat × List Nat) := []
  entries : List (Nat × EntryRecord) := []
  entryIds : List (Nat × List Nat) := []
  headEntryIds : List (Nat × List Nat) := []
  entryCommitSeqs : List (Nat × Nat) := []
  tasks : List (Nat × TaskRecord) := []
  taskIds : List Nat := []
  taskIdsByStatus : List (TaskStatus × List Nat) := []
  submissions : List (Nat × SubmissionRecord) := []
  submissionIds : List Nat := []
  submissionIdsByStatus : List (SubmissionStatus × List Nat) := []
  submissionIdsByRequest : List ((Nat × JsString) × Nat) := []
  documents : List (Nat × DocumentState) := []
  documentAddresses : List (JsString × AddressIndex) := []
  documentIdsByScope : List (JsString × List Nat) := []
  nextId : Nat := 2
  nextSeq : Nat := 1
deriving DecidableEq, Repr

def scopeKey : Scope → JsString
  | .session => (JsonValue.arr [.str (js "session")]).stringify
  | .conversation id => (JsonValue.arr [.str (js "conversation"), .num (.ofNat id)]).stringify
  | .task id => (JsonValue.arr [.str (js "task"), .num (.ofNat id)]).stringify

def addressKey (address : DocumentAddress) : JsString :=
  (JsonValue.arr [.str address.kind, .str (scopeKey address.scope),
    match address.key with
    | none => .arr [.str (js "singleton")]
    | some key => .arr [.str (js "family"), .str key]]).stringify

/-- The ids an index map holds for a key. -/
def idsAt {κ : Type} [DecidableEq κ] (index : List (κ × List Nat)) (key : κ) : List Nat :=
  (index.lookup key).getD []

def insertMapId {κ : Type} [DecidableEq κ] (index : List (κ × List Nat)) (key : κ) (id : Nat) :
    List (κ × List Nat) :=
  set index key (insertSorted (idsAt index key) id)

/-- An id leaves the ids of a key. -/
def removeMapId {κ : Type} [DecidableEq κ] (index : List (κ × List Nat)) (key : κ) (id : Nat) :
    List (κ × List Nat) :=
  set index key (removeSorted (idsAt index key) id)

/-- An id goes to the list of its status, out of the list of the previous one. -/
def moveMapId {κ : Type} [DecidableEq κ] (index : List (κ × List Nat)) (previous : Option κ) (status : κ) (id : Nat) :
    List (κ × List Nat) :=
  match previous with
  | none => insertMapId index status id
  | some previous =>
    if previous = status then index else insertMapId (removeMapId index previous id) status id

namespace Memory

/-! Document reads. -/

/-- The last base among the revisions, and the revisions after it. -/
def lastBase : List Revision → Option (Nat × JsonValue × List Revision)
  | [] => none
  | revision :: rest =>
    match lastBase rest with
    | some found => some found
    | none =>
      match revision.content with
      | .base version value => some (version, value, rest)
      | .delta _ _ => none

/-- `documentDeltaBatches`: the batches it yields, and whether it then throws. -/
def documentDeltaBatches (version : Nat) : List Revision → List (List Delta.Op) × Bool
  | [] => ([], false)
  | revision :: rest =>
    match revision.content with
    | .delta found ops =>
      if found ≠ version then ([], true)
      else
        let (batches, crosses) := documentDeltaBatches version rest
        (ops :: batches, crosses)
    | .base _ _ => ([], true)

/-- The revisions up to a point. -/
def revisionsAt (revisions : List Revision) : DocumentPoint → List Revision
  | .current => revisions
  | .at seq => revisions.filter fun revision => decide (revision.seq ≤ seq)

def materializeDocument (m : Memory) (id : Nat) (point : DocumentPoint) :
    Except ReadError (Option StoredDocument) :=
  match m.documents.lookup id with
  | none => .ok none
  | some stored =>
    if point ≠ .current ∧ isCurrentOnly stored.record.toDocumentCreate then .error (.noHistory id)
    else if isAliveAt stored.record point = false then .ok none
    else
      match lastBase (revisionsAt stored.revisions point) with
      | none => .error (.missingBase id)
      | some (version, base, rest) =>
        let (batches, crosses) := documentDeltaBatches version rest
        match Delta.applyImmutableBatches (fun _ _ => false) base batches with
        | .error _ => .error (.delta id)
        | .ok value =>
          if crosses then .error (.versionBoundary id)
          else .ok (some { record := stored.record, version, value, deltasSinceBase := rest.length })

/-! Checks of a commit. -/

/-- The document a write is about. -/
def documentOf : Write → Option Nat
  | .documentCreate record _ _ | .documentCopy record _ => some record.id
  | .documentChange id _ | .documentRetire id => some id
  | _ => none

/-- Whether a source can be copied to a new record. -/
def copyMatches (source : DocumentRecord) (record : DocumentCreate) : Bool :=
  match source.scope, record.scope with
  | .conversation _, .conversation _ =>
    source.kind = record.kind ∧ source.key = record.key ∧ source.history = record.history ∧
      source.fork = record.fork
  | _, _ => false

/-- One copy of `resolveDocumentCopies`. -/
def resolveCopy (m : Memory) (changed : List Nat) : Write → Except CommitError Write
  | .documentCopy record source =>
    if source.id ∈ changed then .error (.copyRejected record.id)
    else
      match m.materializeDocument source.id source.point with
      | .ok (some stored) =>
        if copyMatches stored.record record then .ok (.documentCreate record stored.version stored.value)
        else .error (.copyRejected record.id)
      | _ => .error (.copyRejected record.id)
  | write => .ok write

def resolveDocumentCopies (m : Memory) (writes : List Write) : Except CommitError (List Write) :=
  writes.mapM (m.resolveCopy (writes.filterMap documentOf))

/-- The id a write claims, and the table it claims it for. -/
def claimOf : Write → Option (Nat × TableName)
  | .conversation value => some (value.id, .conversation)
  | .entry value => some (value.id, .entry)
  | .task value => some (value.id, .task)
  | .submission value => some (value.id, .submission)
  | .documentCreate record _ _ | .documentCopy record _ => some (record.id, .document)
  | .documentChange _ _ | .documentRetire _ => none

/-- Records that may be written again. -/
def TableName.mutable : TableName → Bool
  | .task | .submission => true
  | _ => false

/-- One turn of the loop of `checkGlobalIds`. -/
def checkClaim (existing earlier : Option TableName) (id : Nat) (table : TableName) : Except CommitError Unit :=
  if TableName.mutable table then
    match existing, earlier with
    | some found, _ =>
      if found ≠ table then .error (.idTaken id found)
      else if earlier.any (· ≠ table) then .error (.idTwoTypes id) else .ok ()
    | none, some found => if found ≠ table then .error (.idTwoTypes id) else .ok ()
    | none, none => .ok ()
  else
    match existing, earlier with
    | some found, _ => .error (.idTaken id found)
    | none, some _ => .error (.idWrittenTwice id)
    | none, none => .ok ()

/-- The loop of `checkGlobalIds`, with the ids claimed so far. -/
def checkGlobalIds.loop (types : List (Nat × TableName)) :
    List (Nat × TableName) → List Write → Except CommitError Unit
  | _, [] => .ok ()
  | claimed, write :: rest =>
    match claimOf write with
    | none => loop types claimed rest
    | some (id, table) => do
      checkClaim (types.lookup id) (claimed.lookup id) id table
      loop types (set claimed id table) rest

def checkGlobalIds (m : Memory) (writes : List Write) : Except CommitError Unit :=
  checkGlobalIds.loop m.recordTypes [] writes

structure DocumentAction where
  create : Option DocumentCreate := none
  content : Option DocumentContent := none
  retire : Bool := false
deriving DecidableEq, Repr

abbrev DocumentActions := List (Nat × DocumentAction)

/-- One turn of the loop of `prepareDocumentActions`; copies are resolved. -/
def prepareAction (actions : DocumentActions) : Write → Except CommitError DocumentActions
  | .documentCreate record version value =>
    let action := (actions.lookup record.id).getD {}
    if action.create.isSome ∨ action.content.isSome then .error (.twoContents record.id)
    else .ok (set actions record.id
      { action with create := some record, content := some (.base version value) })
  | .documentChange id content =>
    let action := (actions.lookup id).getD {}
    if action.content.isSome then .error (.twoContents id)
    else .ok (set actions id { action with content := some content })
  | .documentRetire id =>
    let action := (actions.lookup id).getD {}
    if action.retire then .error (.retiredTwice id)
    else .ok (set actions id { action with retire := true })
  | _ => .ok actions

def prepareDocumentActions (writes : List Write) : Except CommitError DocumentActions :=
  writes.foldlM prepareAction []

def checkAction (existing : Option DocumentState) (id : Nat) (action : DocumentAction) :
    Except CommitError Unit :=
  if action.create.isNone ∧ existing.isNone then .error (.unknownDocument id)
  else if action.create.isSome ∧ existing.isSome then .error (.documentExists id)
  else if (existing.bind fun state => state.record.retiredAt).isSome then .error (.documentRetired id)
  else
    match action.content with
    | some (.delta version _) =>
      match existing.bind fun state => state.revisions.getLast? with
      | none => .error (.deltaWithoutBase id)
      | some previous =>
        if previous.content.version ≠ version then .error (.versionTransition id) else .ok ()
    | _ => .ok ()

/-- The incarnations alive at the address of an action after it. -/
def liveAfter (m : Memory) (liveCounts : List (JsString × Int)) (id : Nat) (action : DocumentAction) :
    Option (JsString × Int) :=
  let record := action.create.or ((m.documents.lookup id).map fun state => state.record.toDocumentCreate)
  record.map fun record =>
    let key := addressKey record.address
    let currentId := (m.documentAddresses.lookup key).bind AddressIndex.currentId
    let live := (liveCounts.lookup key).getD (if currentId.isNone then 0 else 1)
    let live := if action.retire ∧ currentId = some id then live - 1 else live
    (key, if action.create.isSome ∧ action.retire = false then live + 1 else live)

/-- The loop of `checkDocumentActions`. -/
def checkDocumentActions.loop (m : Memory) :
    List (JsString × Int) → DocumentActions → Except CommitError (List (JsString × Int))
  | liveCounts, [] => .ok liveCounts
  | liveCounts, (id, action) :: rest => do
    checkAction (m.documents.lookup id) id action
    match m.liveAfter liveCounts id action with
    | some (key, live) => loop m (set liveCounts key live) rest
    | none => loop m liveCounts rest

def checkDocumentActions (m : Memory) (actions : DocumentActions) : Except CommitError Unit := do
  let liveCounts ← checkDocumentActions.loop m [] actions
  if liveCounts.any fun entry => decide (1 < entry.2) then .error .addressTaken else .ok ()

/-- The request id of a submission, with its conversation. -/
def requestOf (value : SubmissionRecord) : Option (Nat × JsString) :=
  value.requestId.map fun requestId => (value.conversationId, requestId)

/-- The request of the record before is forgotten, if it still names the record. -/
def dropRequest (index : List ((Nat × JsString) × Nat)) (previous : Option (Nat × JsString)) (id : Nat) :
    List ((Nat × JsString) × Nat) :=
  match previous with
  | none => index
  | some request => if index.lookup request = some id then erase index request else index

/-- The request of a record names it. -/
def setRequest (index : List ((Nat × JsString) × Nat)) (request : Option (Nat × JsString)) (id : Nat) :
    List ((Nat × JsString) × Nat) :=
  match request with
  | none => index
  | some request => set index request id

/-- `applyPreparedCommit` on one record. -/
def applyWrite (m : Memory) (seq : Nat) : Write → Memory
  | .conversation value =>
    let m := { m with
      recordTypes := set m.recordTypes value.id .conversation
      conversations := set m.conversations value.id value
      conversationIds := insertSorted m.conversationIds value.id
      nextId := max m.nextId (value.id + 1) }
    match value.owner with
    | none => m
    | some owner =>
      { m with
        conversationIdsByOwnerConversation :=
          insertMapId m.conversationIdsByOwnerConversation owner.conversationId value.id
        conversationIdsByOwnerTask := insertMapId m.conversationIdsByOwnerTask owner.taskId value.id }
  | .entry value =>
    { m with
      recordTypes := set m.recordTypes value.id .entry
      entries := set m.entries value.id value
      entryCommitSeqs := set m.entryCommitSeqs value.id seq
      entryIds := insertMapId m.entryIds value.conversationId value.id
      headEntryIds :=
        if value.head.isSome then insertMapId m.headEntryIds value.conversationId value.id
        else m.headEntryIds
      nextId := max m.nextId (value.id + 1) }
  | .task value =>
    { m with
      recordTypes := set m.recordTypes value.id .task
      tasks := set m.tasks value.id value
      taskIds := if (m.tasks.lookup value.id).isNone then insertSorted m.taskIds value.id else m.taskIds
      taskIdsByStatus := moveMapId m.taskIdsByStatus ((m.tasks.lookup value.id).map TaskRecord.status)
        value.status value.id
      nextId := max m.nextId (value.id + 1) }
  | .submission value =>
    let previous := m.submissions.lookup value.id
    { m with
      recordTypes := set m.recordTypes value.id .submission
      submissions := set m.submissions value.id value
      submissionIds := if previous.isNone then insertSorted m.submissionIds value.id else m.submissionIds
      submissionIdsByStatus := moveMapId m.submissionIdsByStatus (previous.map SubmissionRecord.status)
        value.status value.id
      submissionIdsByRequest :=
        setRequest (dropRequest m.submissionIdsByRequest (previous.bind requestOf) value.id) (requestOf value) value.id
      nextId := max m.nextId (value.id + 1) }
  | _ => m

/-- `Array.push` on the revisions, or the one base of a document that keeps no
history. -/
def addRevision (record : DocumentCreate) (revisions : List Revision) (revision : Revision) : List Revision :=
  match revision.content with
  | .base _ _ => if isCurrentOnly record then [revision] else revisions ++ [revision]
  | .delta _ _ => revisions ++ [revision]

/-- A new incarnation, indexed by its address and scope. -/
def createDocument (m : Memory) (seq : Nat) (id : Nat) (create : DocumentCreate)
    (content : Option DocumentContent) (retire : Bool) : Memory :=
  let record : DocumentRecord :=
    { toDocumentCreate := create, createdAt := seq, retiredAt := if retire then some seq else none }
  let key := addressKey create.address
  let index := (m.documentAddresses.lookup key).getD {}
  { m with
    recordTypes := set m.recordTypes id .document
    documents := set m.documents id
      { record, revisions := (content.map fun content => { content, seq }).toList }
    documentAddresses := set m.documentAddresses key { index with ids := insertSorted index.ids id }
    documentIdsByScope := insertMapId m.documentIdsByScope (scopeKey create.scope) id
    nextId := max m.nextId (id + 1) }

/-- The current incarnation of the address of a document that was created or
retired. -/
def setCurrent (m : Memory) (id : Nat) (record : DocumentCreate) (created retire : Bool) : Memory :=
  let key := addressKey record.address
  let index := (m.documentAddresses.lookup key).getD {}
  let currentId := if retire ∧ index.currentId = some id then none else index.currentId
  { m with
    documentAddresses := set m.documentAddresses key
      { index with currentId := if created ∧ retire = false then some id else currentId } }

/-- The first half of a turn of the loop of `applyDocumentActions`: a document is
created, or its content is added. -/
def storeAction (m : Memory) (seq id : Nat) (action : DocumentAction) : Memory :=
  match action.create, action.content with
  | some create, content => m.createDocument seq id create content action.retire
  | none, some content =>
    match m.documents.lookup id with
    | some stored =>
      let revisions := addRevision stored.record.toDocumentCreate stored.revisions { content, seq }
      { m with documents := set m.documents id ({ stored with revisions } : DocumentState) }
    | none => m
  | none, none => m

/-- The second half: the document is retired, and the address follows. -/
def settleAction (m : Memory) (seq id : Nat) (action : DocumentAction) (stored : DocumentState) : Memory :=
  let record :=
    if action.retire ∧ action.create.isNone then { stored.record with retiredAt := some seq } else stored.record
  let revisions := if action.retire ∧ isCurrentOnly record.toDocumentCreate then [] else stored.revisions
  let m := { m with documents := set m.documents id { record, revisions } }
  if action.create.isSome ∨ action.retire then
    m.setCurrent id record.toDocumentCreate action.create.isSome action.retire
  else m

/-- One turn of the loop of `applyDocumentActions`. -/
def applyDocumentAction (seq : Nat) (m : Memory) (entry : Nat × DocumentAction) : Memory :=
  let (id, action) := entry
  let m := m.storeAction seq id action
  match m.documents.lookup id with
  | none => m
  | some stored => m.settleAction seq id action stored

/-- `prepareCommit`, up to the application. -/
def prepareCommit (m : Memory) (writes : List Write) (seq : Nat) :
    Except CommitError (List Write × DocumentActions) := do
  if MAX_SAFE_INTEGER < seq ∨ seq < m.nextSeq then .error (.sequence seq)
  else
    let writes ← m.resolveDocumentCopies writes
    m.checkGlobalIds writes
    let actions ← prepareDocumentActions writes
    m.checkDocumentActions actions
    .ok (writes, actions)

def applyPreparedCommit (m : Memory) (writes : List Write) (actions : DocumentActions) (seq : Nat) : Memory :=
  let m := writes.foldl (fun m write => m.applyWrite seq write) m
  let m := actions.foldl (applyDocumentAction seq) m
  { m with nextSeq := seq + 1 }

/-- A batch that is prepared and applied with a given seq. -/
def commitAt (m : Memory) (writes : List Write) (seq : Nat) : Except CommitError Memory := do
  let (writes, actions) ← m.prepareCommit writes seq
  .ok (m.applyPreparedCommit writes actions seq)

/-- One batch of `commit`: it is refused, or stored with the next seq. -/
def commitBatch (m : Memory) (writes : List Write) : Except CommitError Memory :=
  m.commitAt writes m.nextSeq

end Memory

end OctoberHarness.Storage
