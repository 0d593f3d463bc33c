import OctoberHarness.Storage.MemoryRead
import OctoberHarness.Transaction.Keys

/-! The transaction of a session commit, up to its settlement: what the calls of
its callback stage, against a storage that shows every commit admitted before. A
step is what runs between two waits. -/
namespace OctoberHarness.Transaction

open OrderedMap

open Storage hiding scopeKey

/-! Document definitions. -/

inductive ScopeKind where
  | session | conversation | task
deriving DecidableEq, Repr

/-- `scope.kind`. -/
def scopeKind : Scope → ScopeKind
  | .session => .session
  | .conversation _ => .conversation
  | .task _ => .task

/-- `AnyDocDefinition`. -/
structure DocDefinition where
  kind : JsString
  version : Nat
  scope : ScopeKind
  family : Bool := false
  history : Option History := none
  fork : Option ForkPolicy := none
  initial : Option JsonValue → JsonValue
  migrate : Option (JsonValue → Nat → JsonValue) := none
  checkpointWhen : JsonValue → List Delta.Op → Nat → Bool

def resolveAddress (definition : DocDefinition) (owner : Nat) (key : JsString) : DocumentAddress where
  kind := definition.kind
  scope :=
    match definition.scope with
    | .session => .session
    | .conversation => .conversation owner
    | .task => .task owner
  key := if definition.family then some key else none

def documentCreate (definition : DocDefinition) (address : DocumentAddress) (id : Nat) : DocumentCreate :=
  match address.scope with
  | .conversation _ =>
    { id, kind := address.kind, key := address.key, scope := address.scope, history := definition.history,
      fork := definition.fork }
  | _ => { id, kind := address.kind, key := address.key, scope := address.scope }

/-- Why a call of a transaction throws. -/
inductive TxError where
  | read (error : ReadError)
  | idsExhausted
  | notMinted (id : Nat)
  | conversationMissing (id : Nat)
  | ownerMissing (taskId : Nat)
  | ownerEnded (taskId : Nat) (status : TaskStatus)
  | ownerMarked (taskId : Nat)
  | backgroundChild
  | childConversation (conversationId : Nat)
  | noConversation
  | entryNotVisible (entryId conversationId : Nat)
  | forkSelectsTwice (address : DocumentAddress)
  | forkSourceUnreadable (id : Nat)
  | forkSourceMismatch (id : Nat)
  | forkSourceChanged (id : Nat)
  | forkedWhileChanging (conversationId : Nat)
  | terminalCandidate (id : Nat)
  | taskMoves (id : Nat)
  | taskMissing (id : Nat)
  | taskTerminal (id : Nat)
  | submissionMissing (id : Nat)
  | submissionNotQueued (id : Nat)
  | submissionNotPlaced (id : Nat)
  | documentUnreadable (id : Nat)
  | semantics (id : Nat)
  | newerVersion (id version : Nat)
  | noMigration (id version : Nat)
  | pendingOperations
deriving DecidableEq, Repr

def checkRecordScope (definition : DocDefinition) (record : DocumentCreate) : Except TxError Unit :=
  if scopeKind record.scope ≠ definition.scope ∨ (scopeKind record.scope = .conversation ∧
      (record.history ≠ definition.history ∨ record.fork ≠ definition.fork)) then .error (.semantics record.id)
  else .ok ()

def checkRecordVersion (definition : DocDefinition) (record : DocumentCreate) (version : Nat) : Except TxError Unit :=
  if definition.version < version then .error (.newerVersion record.id version)
  else if version < definition.version ∧ definition.migrate.isNone then .error (.noMigration record.id version)
  else .ok ()

def materializeDocumentValue (definition : DocDefinition) (record : DocumentCreate) (version : Nat)
    (value : JsonValue) : Except TxError JsonValue := do
  checkRecordScope definition record
  checkRecordVersion definition record version
  match definition.migrate with
  | none => .ok value
  | some migrate => if version = definition.version then .ok value else .ok (migrate value version)

/-- A property of what the storage keeps of a record as one value. -/
def property (body : JsonValue) (name : JsString) : Option JsonValue :=
  match body with
  | .obj fields => fields.lookup name
  | _ => none

/-- A spread of one more property over it. -/
def withProperty (body : JsonValue) (name : JsString) (value : JsonValue) : JsonValue :=
  match body with
  | .obj fields => .obj (Fields.define fields name value)
  | _ => .obj [(name, value)]

/-- `owner` of a task record. -/
def ownerOf (record : TaskRecord) : Option Nat :=
  match property record.body (js "owner") with
  | some (.num id) => id.toNat?
  | _ => none

/-- `#stampTimes`: the time of the first change to `status`, once set. -/
def stamp (name : JsString) (status : TaskStatus) (value : TaskRecord) (candidate : Option TaskRecord) (now : JsonValue) :
    TaskRecord :=
  let before := candidate.bind fun record => property record.body name
  match before.or ((property value.body name).or (if value.status = status then some now else none)) with
  | none => value
  | some time => { value with body := withProperty value.body name time }

def stampTimes (value : TaskRecord) (candidate : Option TaskRecord) (now : JsonValue) : TaskRecord :=
  stamp (js "endedAt") .terminal (stamp (js "startedAt") .running value candidate now) candidate now

inductive SubmissionChange where
  | placed (entry : Nat)
  | done (answer : Nat)
  | unanswered (reason : JsString) (detail : Option JsonValue)
deriving DecidableEq, Repr

def applySubmissionChange (current : SubmissionRecord) (change : SubmissionChange) : Except TxError SubmissionRecord :=
  match current.status with
  | .done | .unanswered => .ok current
  | status =>
    match change with
    | .placed entry =>
      if status ≠ .queued then .error (.submissionNotQueued current.id)
      else
        .ok { current with
          status := if property current.body (js "type") = some (.str (js "input")) then .placed else .done
          body := withProperty current.body (js "entry") (.num (.ofNat entry)) }
    | .done answer =>
      if status ≠ .placed then .error (.submissionNotPlaced current.id)
      else .ok { current with
        status := .done
        body := withProperty current.body (js "answer") (.num (.ofNat answer)) }
    | .unanswered reason detail =>
      let body := withProperty current.body (js "reason") (.str reason)
      .ok { current with
        status := .unanswered
        body := match detail with
          | none => body
          | some detail => withProperty body (js "detail") detail }

inductive TaskWriteKind where
  | create | replace
deriving DecidableEq, Repr

/-- The write of a `TransactionTask`. -/
structure TaskWrite where
  kind : TaskWriteKind
  record : TaskRecord
deriving DecidableEq, Repr

structure LoadedDocument where
  record : DocumentRecord
  storedVersion : Nat
  deltasSinceBase : Nat
deriving DecidableEq, Repr

/-- `DocumentTarget`, with what its draft has prepared. -/
inductive DocumentTarget where
  | loaded (document : LoadedDocument) (ops : List Delta.Op) (value : JsonValue)
  | created (record : DocumentCreate) (version : Nat) (value : JsonValue)
  | forkCopy (record : DocumentCreate) (source : DocumentCopySource)
  | retireOnly (record : DocumentRecord)
deriving DecidableEq, Repr

/-- How far `draftPromise`, or the lookup of a retirement, is. -/
inductive Draft where
  | absent
  | loading
  | checking
  | minting
  | copying
  | ready
  | rejected
  | retiring
deriving DecidableEq, Repr

/-- Whether `draftPromise` is set. -/
def Draft.isPromised : Draft → Bool
  | .absent | .retiring => false
  | _ => true

def Draft.isPending : Draft → Bool
  | .loading | .checking | .minting | .copying | .retiring => true
  | _ => false

structure DocumentEntry where
  address : DocumentAddress
  definition : Option DocDefinition := none
  seed : Option JsonValue := none
  draft : Draft
  target : Option DocumentTarget := none
  retireOnCommit : Bool := false

def DocumentEntry.isForkCopy (entry : DocumentEntry) : Bool :=
  match entry.target with
  | some (.forkCopy _ _) => true
  | _ => false

/-- The state of a `Transaction`, with the ids the storage minted for it that no
record has yet. -/
structure Staged where
  nextId : Nat
  scopeConversationId : Option Nat := none
  scopeTaskId : Option Nat := none
  minted : List Nat := []
  writes : List Write := []
  createdConversationIds : List Nat := []
  forkSourceConversationIds : List Nat := []
  forkSourceDocumentIds : List Nat := []
  tasksById : List (Nat × Option TaskWrite) := []
  submissions : List (Nat × SubmissionRecord) := []
  submissionChanges : List (Nat × SubmissionChange) := []
  documents : List DocumentEntry := []
  latestDocumentByAddress : List (JsString × Nat) := []

namespace Staged

/-! Reads of the staged state. -/

def taskWrite (tx : Staged) (id : Nat) : Option TaskWrite :=
  (tx.tasksById.lookup id).join

def currentTask (tx : Staged) (m : Memory) (id : Nat) : Option TaskRecord :=
  ((tx.taskWrite id).map TaskWrite.record).or (m.tasks.lookup id)

/-- `#taskEntry`. -/
def touchTask (tx : Staged) (id : Nat) : Staged :=
  if (tx.tasksById.lookup id).isSome then tx else { tx with tasksById := set tx.tasksById id none }

def requireConversation (tx : Staged) (m : Memory) (id : Nat) : Except TxError Unit :=
  if id ∈ tx.createdConversationIds then .ok ()
  else if (m.conversations.lookup id).isNone then .error (.conversationMissing id)
  else .ok ()

/-- The latest entry at an address. -/
def latest (tx : Staged) (address : DocumentAddress) : Option (Nat × DocumentEntry) :=
  (tx.latestDocumentByAddress.lookup (addressId address)).bind fun index =>
    tx.documents[index]?.map fun entry => (index, entry)

/-- `mintId`. -/
def mint (tx : Staged) : Except TxError Staged :=
  if MAX_SAFE_INTEGER < tx.nextId then .error .idsExhausted
  else .ok { tx with nextId := tx.nextId + 1, minted := tx.minted ++ [tx.nextId] }

/-- A minted id is used for a record. -/
def take (tx : Staged) (id : Nat) : Except TxError Staged :=
  if id ∈ tx.minted then .ok { tx with minted := tx.minted.erase id } else .error (.notMinted id)

/-! Conversations and entries. -/

/-- The loop of `scanDocuments` over its pages. -/
def scanAll (m : Memory) (query : DocumentQuery) : Nat → Option Cursor → Except TxError (List DocumentRecord)
  | 0, _ => .error (.read .diverges)
  | fuel + 1, cursor =>
    match m.scanDocuments query 256 cursor with
    | .error error => .error (.read error)
    | .ok found =>
      match found.next with
      | none => .ok found.items
      | some next => do
        let rest ← scanAll m query fuel (some next)
        .ok (found.items ++ rest)

/-- The pages of a scan of documents: one at most for each, and an empty one. -/
def scanFuel (m : Memory) : Nat :=
  m.documents.length + 1

/-- The record of a copied document. -/
def copyRecord (source : DocumentRecord) (id child : Nat) : DocumentCreate where
  id
  kind := source.kind
  key := source.key
  scope := .conversation child
  history := some (if source.history = some .latest then .latest else .rewindable)
  fork := source.fork

/-- One turn of the loop of `collectCopies`. -/
def collectCopy (policy : ForkPolicy) (point : DocumentPoint) (child : Nat)
    (state : Staged × List (DocumentCreate × DocumentCopySource)) (source : DocumentRecord) :
    Except TxError (Staged × List (DocumentCreate × DocumentCopySource)) :=
  if scopeKind source.scope ≠ .conversation ∨ source.fork ≠ some policy then .ok state
  else do
    let tx ← state.1.mint
    let tx ← tx.take state.1.nextId
    let record := copyRecord source state.1.nextId child
    if state.2.any fun copy => decide (addressId copy.1.address = addressId record.address) then
      .error (.forkSelectsTwice record.address)
    else .ok (tx, state.2 ++ [(record, { id := source.id, point })])

def collectCopies (m : Memory) (scope : Scope) (point : DocumentPoint) (policy : ForkPolicy) (child : Nat)
    (state : Staged × List (DocumentCreate × DocumentCopySource)) :
    Except TxError (Staged × List (DocumentCreate × DocumentCopySource)) := do
  let sources ← scanAll m { scope, point } (scanFuel m) none
  sources.foldlM (collectCopy policy point child) state

def prepareForkDocumentCopies (tx : Staged) (m : Memory) (parent : Parent) (child : Nat) :
    Except TxError (Staged × List (DocumentCreate × DocumentCopySource)) :=
  match m.visibleEntry parent.conversationId parent.atEntry with
  | .error error => .error (.read error)
  | .ok none => .error (.entryNotVisible parent.atEntry parent.conversationId)
  | .ok (some found) => do
    let state ← collectCopies m (.conversation found.entry.conversationId) (.at found.commitSeq) .asOf child (tx, [])
    collectCopies m (.conversation parent.conversationId) .current .current child state

def stageCopy (tx : Staged) (copy : DocumentCreate × DocumentCopySource) : Staged :=
  { tx with
    forkSourceDocumentIds := tx.forkSourceDocumentIds ++ [copy.2.id]
    documents := tx.documents ++
      [{ address := copy.1.address, draft := .absent, target := some (.forkCopy copy.1 copy.2) }]
    latestDocumentByAddress :=
      set tx.latestDocumentByAddress (addressId copy.1.address) tx.documents.length }

def conversationOwner (tx : Staged) (m : Memory) : Option Nat → Except TxError (Option Owner)
  | none => .ok none
  | some taskId =>
    match tx.currentTask m taskId with
    | none => .error (.ownerMissing taskId)
    | some task => .ok (some { conversationId := task.conversationId, taskId })

/-- The copies of a new conversation; a conversation without a parent has none. -/
def conversationCopies (tx : Staged) (m : Memory) (id : Nat) :
    Option Parent → Except TxError (Staged × List (DocumentCreate × DocumentCopySource))
  | none => .ok (tx, [])
  | some parent => tx.prepareForkDocumentCopies m parent id

/-- A new conversation with its copies. -/
def pushConversation (tx : Staged) (record : ConversationRecord) (copies : List (DocumentCreate × DocumentCopySource)) :
    Staged :=
  let tx := copies.foldl stageCopy tx
  { tx with
    forkSourceConversationIds := tx.forkSourceConversationIds ++ (record.parent.map Parent.conversationId).toList
    createdConversationIds := tx.createdConversationIds ++ [record.id]
    writes := tx.writes ++ [.conversation record] }

def stageConversation (tx : Staged) (m : Memory) (id : Nat) (parent : Option Parent) (ownerTaskId : Option Nat) :
    Except TxError Staged := do
  let tx ← tx.take id
  let owner ← tx.conversationOwner m ownerTaskId
  let (tx, copies) ← tx.conversationCopies m id parent
  .ok (tx.pushConversation { id, parent, owner } copies)

def ROOT_CONVERSATION_ID : Nat := 1

def createRootConversation (tx : Staged) : Staged :=
  tx.pushConversation { id := ROOT_CONVERSATION_ID } []

inductive HeadDraft where
  | self
  | entry (id : Nat)
deriving DecidableEq, Repr

def appendEntry (tx : Staged) (m : Memory) (id conversationId : Nat) (head : Option HeadDraft) (body : JsonValue) :
    Except TxError Staged := do
  tx.requireConversation m conversationId
  let tx ← tx.take id
  let record : EntryRecord :=
    { id, conversationId
      head := head.map fun head =>
        match head with
        | .self => id
        | .entry target => target
      body := match tx.scopeTaskId with
        | none => body
        | some taskId => withProperty body (js "byTaskId") (.num (.ofNat taskId)) }
  .ok { tx with writes := tx.writes ++ [.entry record] }

/-! Tasks and submissions. -/

/-- The options of `createTask`; `fields` are the properties that only the task
itself reads. -/
structure TaskOptions where
  kind : JsString
  owner : Option Nat := none
  conversationId : Option Nat := none
  background : Bool := false
  fields : Fields := []
deriving DecidableEq, Repr

/-- The conversation of a new task, from its owner or its options. -/
def taskConversation (tx : Staged) (m : Memory) (options : TaskOptions) : Except TxError Nat :=
  match options.owner with
  | some ownerId =>
    match tx.currentTask m ownerId with
    | none => .error (.ownerMissing ownerId)
    | some owner =>
      if options.background then .error .backgroundChild
      else if options.conversationId.any (· ≠ owner.conversationId) then
        .error (.childConversation owner.conversationId)
      else .ok owner.conversationId
  | none =>
    match options.conversationId.or tx.scopeConversationId with
    | none => .error .noConversation
    | some id => .ok id

def createTask (tx : Staged) (m : Memory) (id : Nat) (options : TaskOptions) : Except TxError Staged := do
  let conversationId ← tx.taskConversation m options
  tx.requireConversation m conversationId
  let tx ← tx.take id
  let record : TaskRecord :=
    { id, conversationId, kind := options.kind, status := .pending, background := options.background
      body := match options.owner with
        | none => .obj options.fields
        | some ownerId => withProperty (.obj options.fields) (js "owner") (.num (.ofNat ownerId)) }
  .ok { tx with tasksById := set tx.tasksById id (some { kind := .create, record }) }

def createSubmission (tx : Staged) (m : Memory) (id : Nat) (create : SubmissionRecord) : Except TxError Staged := do
  tx.requireConversation m create.conversationId
  let tx ← tx.take id
  .ok { tx with submissions := set tx.submissions id { create with id } }

/-- `settleSubmission` and `placeSubmission`. -/
def changeSubmission (tx : Staged) (id : Nat) (change : SubmissionChange) : Staged :=
  { tx with submissionChanges := tx.submissionChanges ++ [(id, change)] }

def setTask (tx : Staged) (value : TaskRecord) (now : JsonValue) : Except TxError Staged :=
  let tx := tx.touchTask value.id
  let write := tx.taskWrite value.id
  if write.any fun write => decide (write.record.status = .terminal) then .error (.terminalCandidate value.id)
  else if write.any fun write => decide (write.record.conversationId ≠ value.conversationId) then
    .error (.taskMoves value.id)
  else
    .ok { tx with tasksById := set tx.tasksById value.id (some
      { kind := if write.any fun write => decide (write.kind = .create) then .create else .replace
        record := stampTimes value (write.map TaskWrite.record) now }) }

def assertTaskDocumentsOpen (tx : Staged) (address : DocumentAddress) : Except TxError Unit :=
  match address.scope with
  | .task id =>
    if (tx.taskWrite id).any fun write => decide (write.record.status = .terminal) then .error (.taskTerminal id)
    else .ok ()
  | _ => .ok ()

def setEntry (tx : Staged) (index : Nat) (entry : DocumentEntry) : Staged :=
  { tx with documents := tx.documents.set index entry }

/-- A new entry is the latest at its address. -/
def pushEntry (tx : Staged) (entry : DocumentEntry) : Staged :=
  { tx with
    documents := tx.documents ++ [entry]
    latestDocumentByAddress :=
      set tx.latestDocumentByAddress (addressId entry.address) tx.documents.length }

/-- `doc`, before its first wait. A replacement of a retired draft is not loaded. -/
def doc (tx : Staged) (definition : DocDefinition) (owner : Nat) (key : JsString) (seed : Option JsonValue) :
    Except TxError Staged := do
  let address := resolveAddress definition owner key
  tx.assertTaskDocumentsOpen address
  let fresh (skipLoad : Bool) : Staged :=
    tx.pushEntry { address, definition := some definition, seed := if definition.family then seed else none,
                   draft := if skipLoad then .checking else .loading }
  match tx.latest address with
  | none => .ok (fresh false)
  | some (index, entry) =>
    if entry.retireOnCommit then .ok (fresh true)
    else if entry.draft.isPromised then .ok tx
    else if entry.isForkCopy then
      .ok (tx.setEntry index { entry with draft := .copying, definition := some definition })
    else .ok (fresh false)

/-- `retireDoc`, before its first wait. -/
def retireDoc (tx : Staged) (definition : DocDefinition) (owner : Nat) (key : JsString) : Except TxError Staged :=
  let address := resolveAddress definition owner key
  let fresh : Staged :=
    tx.pushEntry { address, definition := some definition, draft := .retiring, retireOnCommit := true }
  match tx.latest address with
  | none => .ok fresh
  | some (index, entry) =>
    if entry.retireOnCommit then .ok tx
    else
      match entry.target with
      | some (.forkCopy record _) => do
        checkRecordScope definition record
        .ok (tx.setEntry index { entry with retireOnCommit := true })
      | _ =>
        if entry.draft.isPromised then .ok (tx.setEntry index { entry with retireOnCommit := true })
        else .ok fresh

/-- `load` of the host and the start of `#acquire`: the session caches what the
storage holds. -/
def load (m : Memory) (entry : DocumentEntry) (definition : DocDefinition) : Except TxError DocumentEntry :=
  match m.findDocument entry.address .current with
  | .error error => .error (.read error)
  | .ok none => .ok { entry with draft := .checking }
  | .ok (some record) =>
    match m.materializeDocument record.id .current with
    | .error error => .error (.read error)
    | .ok none => .error (.documentUnreadable record.id)
    | .ok (some stored) => do
      let value ← materializeDocumentValue definition stored.record.toDocumentCreate stored.version stored.value
      let document : LoadedDocument :=
        { record := stored.record, storedVersion := stored.version, deltasSinceBase := stored.deltasSinceBase }
      .ok { entry with draft := .ready, target := some (.loaded document [] value) }

/-- The owner of a new document exists. -/
def checkScope (tx : Staged) (m : Memory) (entry : DocumentEntry) : Except TxError DocumentEntry :=
  match entry.address.scope with
  | .session => .ok { entry with draft := .minting }
  | .conversation id => do
    tx.requireConversation m id
    .ok { entry with draft := .minting }
  | .task id =>
    match tx.currentTask m id with
    | none => .error (.taskMissing id)
    | some task =>
      if task.status = .terminal then .error (.taskTerminal id) else .ok { entry with draft := .minting }

def acquireForkCopy (m : Memory) (entry : DocumentEntry) (definition : DocDefinition) (record : DocumentCreate)
    (source : DocumentCopySource) : Except TxError DocumentEntry :=
  match m.materializeDocument source.id source.point with
  | .error error => .error (.read error)
  | .ok none => .error (.forkSourceUnreadable source.id)
  | .ok (some stored) =>
    if scopeKind stored.record.scope ≠ .conversation ∨ stored.record.kind ≠ record.kind ∨
        stored.record.key ≠ record.key ∨ stored.record.history ≠ record.history ∨
        stored.record.fork ≠ record.fork then .error (.forkSourceMismatch source.id)
    else do
      let value ← materializeDocumentValue definition record stored.version stored.value
      .ok { entry with draft := .ready, target := some (.created record definition.version value) }

def findRetirement (m : Memory) (entry : DocumentEntry) (definition : DocDefinition) : Except TxError DocumentEntry :=
  match m.findDocument entry.address .current with
  | .error error => .error (.read error)
  | .ok none => .ok { entry with draft := .absent }
  | .ok (some record) => do
    checkRecordScope definition record.toDocumentCreate
    .ok { entry with draft := .absent, target := some (.retireOnly record) }

/-- The next step of a pending acquisition; `id` is for a new document. -/
def advanceEntry (tx : Staged) (m : Memory) (entry : DocumentEntry) (definition : DocDefinition) (id : Nat) :
    Except TxError (Staged × DocumentEntry) :=
  match entry.draft with
  | .loading => (tx, ·) <$> load m entry definition
  | .checking => (tx, ·) <$> tx.checkScope m entry
  | .minting => do
    let tx ← tx.take id
    let record := documentCreate definition entry.address id
    let target := DocumentTarget.created record definition.version (definition.initial entry.seed)
    .ok (tx, { entry with draft := .ready, target := some target })
  | .copying =>
    match entry.target with
    | some (.forkCopy record source) => (tx, ·) <$> acquireForkCopy m entry definition record source
    | _ => .ok (tx, entry)
  | .retiring => (tx, ·) <$> findRetirement m entry definition
  | _ => .ok (tx, entry)

/-- A step of the operation behind an entry; where it throws, the draft is
rejected. -/
def advance (tx : Staged) (m : Memory) (index id : Nat) : Staged × Option TxError :=
  match tx.documents[index]? with
  | none => (tx, none)
  | some entry =>
    match entry.definition with
    | none => (tx, none)
    | some definition =>
      match tx.advanceEntry m entry definition id with
      | .ok (tx, entry) => (tx.setEntry index entry, none)
      | .error error =>
        (tx.setEntry index { entry with draft := if entry.draft = .retiring then .absent else .rejected },
          some error)

/-- What the draft of an entry has prepared after more edits. -/
def edit (tx : Staged) (index : Nat) (ops : List Delta.Op) (value : JsonValue) : Staged :=
  match tx.documents[index]? with
  | none => tx
  | some entry =>
    match entry.target with
    | some (.loaded document _ _) => tx.setEntry index { entry with target := some (.loaded document ops value) }
    | some (.created record version _) => tx.setEntry index { entry with target := some (.created record version value) }
    | _ => tx

/-- A step of the callback. -/
inductive Event where
  | mint
  | createRootConversation
  | stageConversation (id : Nat) (parent : Option Parent) (ownerTaskId : Option Nat)
  | appendEntry (id conversationId : Nat) (head : Option HeadDraft) (body : JsonValue)
  | createTask (id : Nat) (options : TaskOptions)
  | createSubmission (id : Nat) (create : SubmissionRecord)
  | changeSubmission (id : Nat) (change : SubmissionChange)
  | setTask (value : TaskRecord) (now : JsonValue)
  | doc (definition : DocDefinition) (owner : Nat) (key : JsString) (seed : Option JsonValue)
  | retireDoc (definition : DocDefinition) (owner : Nat) (key : JsString)
  | advance (index id : Nat)
  | edit (index : Nat) (ops : List Delta.Op) (value : JsonValue)

/-- The state after a call that throws is the one before. -/
def orElse (tx : Staged) (result : Except TxError Staged) : Staged × Option TxError :=
  match result with
  | .ok next => (next, none)
  | .error error => (tx, some error)

def step (m : Memory) (tx : Staged) : Event → Staged × Option TxError
  | .mint => tx.orElse tx.mint
  | .createRootConversation => (tx.createRootConversation, none)
  | .stageConversation id parent ownerTaskId => tx.orElse (tx.stageConversation m id parent ownerTaskId)
  | .appendEntry id conversationId head body => tx.orElse (tx.appendEntry m id conversationId head body)
  | .createTask id options => tx.orElse (tx.createTask m id options)
  | .createSubmission id create => tx.orElse (tx.createSubmission m id create)
  | .changeSubmission id change => (tx.changeSubmission id change, none)
  | .setTask value now => tx.orElse (tx.setTask value now)
  | .doc definition owner key seed => tx.orElse (tx.doc definition owner key seed)
  | .retireDoc definition owner key => tx.orElse (tx.retireDoc definition owner key)
  | .advance index id => tx.advance m index id
  | .edit index ops value => (tx.edit index ops value, none)

/-- The state after a list of steps; the callback may catch what a call throws. -/
def run (m : Memory) (tx : Staged) (events : List Event) : Staged :=
  events.foldl (fun tx event => (step m tx event).1) tx

end Staged

end OctoberHarness.Transaction
