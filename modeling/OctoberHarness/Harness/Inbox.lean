import OctoberHarness.Library.Outcome
import OctoberHarness.Library.OrderedMap
import OctoberHarness.Storage.Record
import Mathlib.Data.List.Sort

/-! Submissions of conversations and their inboxes: admission, withdrawal, boundaries and
the ends of runs, as the commits of a harness make them. -/
namespace OctoberHarness.Inbox

open OrderedMap

open Storage (SubmissionStatus)

inductive SubmissionType where
  | input | write | continue
deriving DecidableEq, Repr

/-- The fields of a record that no other function looks at are left out. -/
structure SubmissionRecord where
  id : Nat
  conversationId : Nat
  requestId : Option JsString := none
  type : SubmissionType
  status : SubmissionStatus
  entry : Option Nat := none
  answer : Option Nat := none
  reason : Option JsString := none
  detail : Option JsonValue := none
deriving DecidableEq

inductive SubmissionSettlement where
  | done (answer : Nat)
  | unanswered (reason : JsString) (detail : Option JsonValue := none)
deriving DecidableEq

inductive SubmissionChange where
  | placed (entry : Nat)
  | settled (settlement : SubmissionSettlement)
deriving DecidableEq

inductive Head where
  | self
  | entry (id : Nat)
deriving DecidableEq

structure EntryDraft where
  kind : JsString
  data : Option JsonValue := none
  model : Option JsonValue := none
  head : Option Head := none
  edits : Option JsonValue := none
deriving DecidableEq

structure InputEntry where
  kind : JsString
  data : Option JsonValue := none
deriving DecidableEq

/-- The `mode` of an item with what the mode carries. -/
inductive ItemMode where
  | steer (content : JsonValue) (entry : Option InputEntry := none)
  | followUp (content : JsonValue) (entry : Option InputEntry := none)
  | write (entry : EntryDraft)
deriving DecidableEq

structure InboxItem where
  id : Nat
  mode : ItemMode
deriving DecidableEq

def InboxItem.isSteer (item : InboxItem) : Bool :=
  match item.mode with
  | .steer _ _ => true
  | _ => false

def InboxItem.isFollowUp (item : InboxItem) : Bool :=
  match item.mode with
  | .followUp _ _ => true
  | _ => false

def InboxItem.isWrite (item : InboxItem) : Bool :=
  match item.mode with
  | .write _ => true
  | _ => false

inductive QueueMode where
  | all | oneAtATime
deriving DecidableEq, Repr

structure QueueModes where
  steeringMode : QueueMode
  followUpMode : QueueMode

/-- `LiveRun`: the run of a busy conversation. -/
structure LiveRun where
  taskId : Nat
  inputs : List Nat
  afterRun : Bool := false
deriving DecidableEq

inductive Error where
  | readAfterWrite
  | conversationMissing (id : Nat)
  | submissionMissing (id : Nat)
  | notQueued (id : Nat)
  | notPlaced (id : Nat)
  | requestType (requestId : JsString) (existing : SubmissionType)
  | inputEntryKind (kind : JsString)
  | conversationBusy (id : Nat)
  | conversationIdle (id : Nat)
deriving DecidableEq

/-! The transaction. -/

/-- What is committed: the submissions, the documents of every conversation, and the next
id. -/
structure Session where
  conversations : List Nat := []
  submissions : List (Nat × SubmissionRecord) := []
  inboxes : List (Nat × List InboxItem) := []
  runs : List (Nat × LiveRun) := []
  nextId : Nat := 1

structure Tx where
  base : Session
  conversations : List Nat
  /-- `#submissions`. -/
  submissions : List (Nat × SubmissionRecord) := []
  /-- `#submissionChanges`. -/
  changes : List (Nat × SubmissionChange) := []
  entries : List (Nat × Nat × EntryDraft) := []
  inboxes : List (Nat × List InboxItem)
  runs : List (Nat × LiveRun)
  nextId : Nat
  hasTableWrite : Bool := false

def Session.begin (session : Session) : Tx where
  base := session
  conversations := session.conversations
  inboxes := session.inboxes
  runs := session.runs
  nextId := session.nextId

def SubmissionRecord.isSettled (record : SubmissionRecord) : Bool :=
  record.status = .done ∨ record.status = .unanswered

def applySubmissionChange (current : SubmissionRecord) (change : SubmissionChange) : Except Error SubmissionRecord :=
  if current.isSettled then .ok current
  else
    match change with
    | .placed entry =>
      if current.status ≠ .queued then .error (.notQueued current.id)
      else .ok { current with status := if current.type = .input then .placed else .done, entry := some entry }
    | .settled (.done answer) =>
      if current.status ≠ .placed then .error (.notPlaced current.id)
      else .ok { current with status := .done, answer := some answer }
    | .settled (.unanswered reason detail) => .ok { current with status := .unanswered, reason := some reason, detail }

namespace Tx

/-- The items of `pi.inbox`. -/
def inbox (tx : Tx) (conversationId : Nat) : List InboxItem :=
  (tx.inboxes.lookup conversationId).getD []

def setInbox (tx : Tx) (conversationId : Nat) (items : List InboxItem) : Tx :=
  { tx with inboxes := set tx.inboxes conversationId items }

/-- The run of `pi.live`. -/
def run (tx : Tx) (conversationId : Nat) : Option LiveRun :=
  tx.runs.lookup conversationId

def setRun (tx : Tx) (conversationId : Nat) (run : LiveRun) : Tx :=
  { tx with runs := set tx.runs conversationId run }

def deleteRun (tx : Tx) (conversationId : Nat) : Tx :=
  { tx with runs := erase tx.runs conversationId }

/-- A table read, which no table write may precede. -/
def read {α : Type} (tx : Tx) (value : α) : Except Error α :=
  if tx.hasTableWrite then .error .readAfterWrite else .ok value

def submission (tx : Tx) (id : Nat) : Except Error (Option SubmissionRecord) :=
  tx.read (tx.base.submissions.lookup id)

def submissionByRequest (tx : Tx) (conversationId : Nat) (requestId : JsString) : Except Error (Option SubmissionRecord) :=
  tx.read ((tx.base.submissions.find? fun row =>
    decide (row.2.conversationId = conversationId ∧ row.2.requestId = some requestId)).map Prod.snd)

def requireConversation (tx : Tx) (id : Nat) : Except Error Unit :=
  if id ∈ tx.conversations then .ok () else .error (.conversationMissing id)

def createConversation (tx : Tx) : Tx :=
  { tx with conversations := tx.conversations ++ [tx.nextId], nextId := tx.nextId + 1, hasTableWrite := true }

def createSubmission (tx : Tx) (create : Nat → SubmissionRecord) : Except Error (Nat × Tx) := do
  let record := create tx.nextId
  tx.requireConversation record.conversationId
  .ok (tx.nextId, { tx with
    submissions := tx.submissions ++ [(tx.nextId, record)]
    nextId := tx.nextId + 1
    hasTableWrite := true })

def appendEntry (tx : Tx) (conversationId : Nat) (draft : EntryDraft) : Except Error (Nat × Tx) := do
  tx.requireConversation conversationId
  .ok (tx.nextId, { tx with
    entries := tx.entries ++ [(tx.nextId, conversationId, draft)]
    nextId := tx.nextId + 1
    hasTableWrite := true })

/-- A task with a new id. -/
def createTask (tx : Tx) : Nat × Tx :=
  (tx.nextId, { tx with nextId := tx.nextId + 1, hasTableWrite := true })

def changeSubmission (tx : Tx) (id : Nat) (change : SubmissionChange) : Tx :=
  { tx with changes := tx.changes ++ [(id, change)], hasTableWrite := true }

def settleSubmission (tx : Tx) (id : Nat) (settlement : SubmissionSettlement) : Tx :=
  tx.changeSubmission id (.settled settlement)

def placeSubmission (tx : Tx) (id entry : Nat) : Tx :=
  tx.changeSubmission id (.placed entry)

/-- One change, against the latest record of its submission. -/
def resolve (base : List (Nat × SubmissionRecord)) (staged : List (Nat × SubmissionRecord))
    (change : Nat × SubmissionChange) : Except Error (List (Nat × SubmissionRecord)) :=
  match (staged.lookup change.1).or (base.lookup change.1) with
  | none => .error (.submissionMissing change.1)
  | some current => do
    let next ← applySubmissionChange current change.2
    .ok (if next = current then staged else set staged change.1 next)

/-- The submissions that the commit writes. -/
def assemble (tx : Tx) : Except Error (List (Nat × SubmissionRecord)) :=
  tx.changes.foldlM (resolve tx.base.submissions) tx.submissions

def commit (tx : Tx) : Except Error Session := do
  let staged ← tx.assemble
  .ok {
    conversations := tx.conversations
    submissions := staged.foldl (fun rows row => set rows row.1 row.2) tx.base.submissions
    inboxes := tx.inboxes
    runs := tx.runs
    nextId := tx.nextId }

end Tx

structure Boundary where
  conversationId : Nat
  modes : QueueModes
  head : Option Nat

inductive BoundaryKind where
  | postTools | final
deriving DecidableEq, Repr

structure BoundaryResult where
  users : List Nat
  first : Option Nat
  reset : Bool

/-- `prepareBoundary`; `head` is what the newest head marker says. -/
def prepareBoundary (tx : Tx) (conversationId : Nat) (modes : QueueModes) (head : Option Nat) : Except Error Boundary := do
  let head ← tx.read head
  .ok { conversationId, modes, head }

def hasQueuedReset (items : List InboxItem) : Bool :=
  items.any fun item =>
    match item.mode with
    | .write entry => entry.head = some .self
    | _ => false

def isDisplayOnly (entry : EntryDraft) : Bool :=
  entry.model.isNone && entry.head.isNone && entry.edits.isNone

def isStale (boundary : Boundary) (entry : EntryDraft) : Bool :=
  match entry.head, boundary.head with
  | some (.entry head), some start => head < start
  | _, _ => false

def userMessage (content : JsonValue) (now : Nat) : JsonValue :=
  .arr [.obj [(js "role", .str (js "user")), (js "content", content), (js "timestamp", .num (JsNumber.ofNat now))]]

def appendInput (tx : Tx) (conversationId : Nat) (content : JsonValue) (entry : Option InputEntry) (now : Nat) :
    Except Error (Nat × Tx) :=
  match entry with
  | none => tx.appendEntry conversationId { kind := js "pi.user", model := some (userMessage content now) }
  | some entry =>
    tx.appendEntry conversationId { kind := entry.kind, data := entry.data, model := some (userMessage content now) }

/-- The positions of the items of a mode. -/
def positions (items : List InboxItem) (mode : InboxItem → Bool) : List Nat :=
  (items.zipIdx.filter fun item => mode item.1).map Prod.snd

/-- `pick`: all positions, or the first. -/
def pick (items : List InboxItem) (mode : InboxItem → Bool) (queueMode : QueueMode) : List Nat :=
  if queueMode = .all then positions items mode else (positions items mode).take 1

/-- The loop over the writes: stale ones settle, the others are placed. -/
def placeWrites (boundary : Boundary) (tx : Tx) (first : Option Nat) :
    List InboxItem → Except Error (Boundary × Tx × Option Nat)
  | [] => .ok (boundary, tx, first)
  | item :: rest =>
    match item.mode with
    | .write draft =>
      if isStale boundary draft then
        placeWrites boundary (tx.settleSubmission item.id (.unanswered (js "stale"))) first rest
      else do
        let (entry, tx) ← tx.appendEntry boundary.conversationId draft
        let boundary :=
          match draft.head with
          | none => boundary
          | some .self => { boundary with head := some entry }
          | some (.entry head) => { boundary with head := some head }
        placeWrites boundary (tx.placeSubmission item.id entry) (first.or (some entry)) rest
    | _ => placeWrites boundary tx first rest

/-- The loop over the user items. -/
def placeUsers (boundary : Boundary) (now : Nat) (tx : Tx) (first : Option Nat) (placed : List Nat) :
    List InboxItem → Except Error (Tx × Option Nat × List Nat)
  | [] => .ok (tx, first, placed)
  | item :: rest =>
    match item.mode with
    | .steer content entry | .followUp content entry => do
      let (entry, tx) ← appendInput tx boundary.conversationId content entry now
      placeUsers boundary now (tx.placeSubmission item.id entry) (first.or (some entry)) (placed ++ [item.id]) rest
    | _ => placeUsers boundary now tx first placed rest

/-- The positions a boundary selects: the writes, and the user items. -/
def selected (boundary : Boundary) (kind : BoundaryKind) (items : List InboxItem) : List Nat × List Nat :=
  let final := kind = .final ∨ hasQueuedReset items
  let users := pick items InboxItem.isSteer boundary.modes.steeringMode ++
    if final then pick items InboxItem.isFollowUp boundary.modes.followUpMode else []
  (positions items InboxItem.isWrite, users.insertionSort (· ≤ ·))

def itemsAt (items : List InboxItem) (indexes : List Nat) : List InboxItem :=
  indexes.filterMap fun index => items[index]?

/-- `items.splice(index, 1)` for every position, the last first. -/
def removeAt (items : List InboxItem) (indexes : List Nat) : List InboxItem :=
  (indexes.insertionSort (· ≥ ·)).foldl List.eraseIdx items

def applyBoundary (tx : Tx) (boundary : Boundary) (kind : BoundaryKind) (now : Nat) :
    Except Error (BoundaryResult × Tx) := do
  let items := tx.inbox boundary.conversationId
  let (writes, users) := selected boundary kind items
  let (boundary, tx, first) ← placeWrites boundary tx none (itemsAt items writes)
  let (tx, first, placed) ← placeUsers boundary now tx first [] (itemsAt items users)
  .ok ({ users := placed, first, reset := hasQueuedReset items },
    tx.setInbox boundary.conversationId (removeAt items (writes ++ users)))

def removeInboxItem (tx : Tx) (conversationId id : Nat) : Tx :=
  let items := tx.inbox conversationId
  match items.findIdx? fun item => item.id = id with
  | none => tx
  | some index => tx.setInbox conversationId (items.eraseIdx index)

/-- The loop of `withdrawQueuedInputs`, from the last item to the first. -/
def withdrawItems (tx : Tx) (reason : JsString) : List InboxItem → Tx × List InboxItem
  | [] => (tx, [])
  | item :: rest =>
    let (tx, kept) := withdrawItems tx reason rest
    if item.isWrite then (tx, item :: kept) else (tx.settleSubmission item.id (.unanswered reason), kept)

def withdrawQueuedInputs (tx : Tx) (conversationId : Nat) (reason : JsString) : Tx :=
  let (tx, kept) := withdrawItems tx reason (tx.inbox conversationId)
  tx.setInbox conversationId kept

inductive RunEnd where
  | done (answer : Nat)
  /-- With `reason` and `detail`, or the settlement the source passes. -/
  | unanswered (reason : JsString) (detail : Option JsonValue := none)

def RunEnd.settlement : RunEnd → SubmissionSettlement
  | .done answer => .done answer
  | .unanswered reason detail => .unanswered reason detail

def settleAll (tx : Tx) (ids : List Nat) (settlement : SubmissionSettlement) : Tx :=
  ids.foldl (fun tx id => tx.settleSubmission id settlement) tx

def endRun (tx : Tx) (conversationId taskId : Nat) (runEnd : RunEnd) : Tx :=
  match tx.run conversationId with
  | none => tx
  | some run =>
    if run.taskId ≠ taskId then tx
    else
      let settles := match runEnd with
        | .done _ => true
        | .unanswered _ _ => !run.afterRun
      (if settles then settleAll tx run.inputs runEnd.settlement else tx).deleteRun conversationId

/-- `holdRun`: the inputs settle, and the run stays for its `afterRun` tasks. -/
def holdRun (tx : Tx) (conversationId taskId answer : Nat) : Option Tx :=
  match tx.run conversationId with
  | none => none
  | some run =>
    if run.taskId ≠ taskId then none
    else some ((settleAll tx run.inputs (.done answer)).setRun conversationId { run with inputs := [], afterRun := true })

def startRun (tx : Tx) (conversationId : Nat) (inputs : List Nat) : Tx :=
  let (taskId, tx) := tx.createTask
  tx.setRun conversationId { taskId, inputs }

def handOver (tx : Tx) (conversationId taskId : Nat) : Tx :=
  let (next, tx) := tx.createTask
  match tx.run conversationId with
  | none => tx
  | some run => if run.taskId = taskId then tx.setRun conversationId { run with taskId := next } else tx

def pushInputs (tx : Tx) (conversationId taskId : Nat) (users : List Nat) : Tx :=
  match tx.run conversationId with
  | none => tx
  | some run =>
    if run.taskId = taskId then tx.setRun conversationId { run with inputs := run.inputs ++ users } else tx

inductive AfterFailedRun where
  | keep | continue | withdraw
deriving DecidableEq, Repr

def prepareFailure (tx : Tx) (conversationId : Nat) (policy : AfterFailedRun) (modes : QueueModes) (head : Option Nat) :
    Except Error (Option Boundary) :=
  if policy = .continue then do
    let boundary ← prepareBoundary tx conversationId modes head
    .ok (some boundary)
  else .ok none

def startNext (tx : Tx) (conversationId : Nat) (users : List Nat) : Tx :=
  if users = [] then tx else startRun tx conversationId users

def endFailedRun (tx : Tx) (conversationId taskId : Nat) (policy : AfterFailedRun) (boundary : Option Boundary) (runEnd : RunEnd)
    (now : Nat) : Except Error Tx :=
  let tx := endRun tx conversationId taskId runEnd
  let tx := if policy = .withdraw then withdrawQueuedInputs tx conversationId (js "run_failed") else tx
  match boundary with
  | none => .ok tx
  | some boundary => do
    let (result, tx) ← applyBoundary tx boundary .final now
    .ok (startNext tx conversationId result.users)

inductive WhenBusy where
  | steer | followUp | reject
deriving DecidableEq, Repr

inductive SubmissionDraft where
  | input (content : JsonValue) (entry : Option InputEntry) (whenBusy : WhenBusy) (rejectIdle : Bool)
      (requestId : Option JsString)
  | write (entry : EntryDraft) (requestId : Option JsString)
  | continue (requestId : Option JsString)

def SubmissionDraft.type : SubmissionDraft → SubmissionType
  | .input .. => .input
  | .write .. => .write
  | .continue .. => .continue

def SubmissionDraft.requestId : SubmissionDraft → Option JsString
  | .input _ _ _ _ requestId => requestId
  | .write _ requestId => requestId
  | .continue requestId => requestId

def checkInputEntry (kind : JsString) : Except Error Unit :=
  if kind = [] ∨ js "pi." <+: kind then .error (.inputEntryKind kind) else .ok ()

/-- The item of a submission that queues. -/
def itemOf (id : Nat) : SubmissionDraft → Option InboxItem
  | .input content entry .steer _ _ => some { id, mode := .steer content entry }
  | .input content entry _ _ _ => some { id, mode := .followUp content entry }
  | .write entry _ => some { id, mode := .write entry }
  | .continue _ => none

structure Admission where
  id : Nat
  status : SubmissionStatus
deriving DecidableEq

/-- The entry of an input is one of the application's. -/
def checkDraft : SubmissionDraft → Except Error Unit
  | .input _ (some entry) _ _ _ => checkInputEntry entry.kind
  | _ => .ok ()

/-- The checks before anything is written: the entry of an input, and a known request. -/
def findRequest (tx : Tx) (conversationId : Nat) (draft : SubmissionDraft) : Except Error (Option Admission) := do
  checkDraft draft
  match draft.requestId with
  | none => .ok none
  | some requestId =>
    let existing ← tx.submissionByRequest conversationId requestId
    match existing with
    | none => .ok none
    | some existing =>
      if existing.type ≠ draft.type then .error (.requestType requestId existing.type)
      else .ok (some { id := existing.id, status := if existing.status = .unanswered then .done else existing.status })

/-- A write that is placed at once, and settles. -/
def admitWrite (tx : Tx) (conversationId : Nat) (entry : EntryDraft) (requestId : Option JsString) :
    Except Error (Admission × Tx) := do
  let (entryId, tx) ← tx.appendEntry conversationId entry
  let (id, tx) ← tx.createSubmission fun id =>
    { id, conversationId, requestId, type := .write, status := .done, entry := some entryId }
  .ok ({ id, status := .done }, tx)

/-- A submission behind what is queued. -/
def admitQueued (tx : Tx) (conversationId : Nat) (draft : SubmissionDraft) (boundary : Option Boundary) (now : Nat) :
    Except Error (Admission × Tx) := do
  let (id, tx) ← tx.createSubmission fun id =>
    { id, conversationId, requestId := draft.requestId, type := draft.type, status := .queued }
  let tx := tx.setInbox conversationId (tx.inbox conversationId ++ (itemOf id draft).toList)
  match boundary with
  | none => .ok ({ id, status := .queued }, tx)
  | some boundary =>
    let (result, tx) ← applyBoundary tx boundary .final now
    let tx := startNext tx conversationId result.users
    .ok ({ id, status := if draft.type = .write then .done
                         else if result.users.getLast? = some id then .placed else .queued }, tx)

def admitSubmission (tx : Tx) (conversationId : Nat) (draft : SubmissionDraft) (now : Nat) (modes : QueueModes)
    (head : Option Nat) : Except Error (Admission × Tx) := do
  match ← findRequest tx conversationId draft with
  | some admission => .ok (admission, tx)
  | none =>
    let busy := (tx.run conversationId).isSome
    match draft with
    | .continue requestId =>
      if busy then .error (.conversationBusy conversationId)
      else
        let boundary ← prepareBoundary tx conversationId modes head
        let (id, tx) ← tx.createSubmission fun id =>
          { id, conversationId, requestId, type := .continue, status := .placed }
        let (result, tx) ← applyBoundary tx boundary .final now
        .ok ({ id, status := .placed }, startRun tx conversationId (result.users ++ [id]))
    | .write entry requestId =>
      if isDisplayOnly entry ∧ hasQueuedReset (tx.inbox conversationId) = false then
        admitWrite tx conversationId entry requestId
      else if busy then admitQueued tx conversationId draft none now
      else
        let boundary ← prepareBoundary tx conversationId modes head
        if tx.inbox conversationId ≠ [] then admitQueued tx conversationId draft (some boundary) now
        else if isStale boundary entry then
          let (id, tx) ← tx.createSubmission fun id =>
            { id, conversationId, requestId, type := .write, status := .unanswered, reason := some (js "stale") }
          .ok ({ id, status := .done }, tx)
        else admitWrite tx conversationId entry requestId
    | .input content entry whenBusy rejectIdle requestId =>
      if busy ∧ whenBusy = .reject then .error (.conversationBusy conversationId)
      else if ¬busy ∧ rejectIdle then .error (.conversationIdle conversationId)
      else if busy then admitQueued tx conversationId draft none now
      else
        let boundary ← prepareBoundary tx conversationId modes head
        if tx.inbox conversationId ≠ [] then admitQueued tx conversationId draft (some boundary) now
        else
          let (entryId, tx) ← appendInput tx conversationId content entry now
          let (id, tx) ← tx.createSubmission fun id =>
            { id, conversationId, requestId, type := .input, status := .placed, entry := some entryId }
          .ok ({ id, status := .placed }, startRun tx conversationId [id])

/-- `Submissions.admit`. -/
def admitOne (tx : Tx) (conversationId : Nat) (draft : SubmissionDraft) (now : Nat) (modes : QueueModes)
    (head : Option Nat) : Except Error (Admission × Tx) :=
  if tx.hasTableWrite then .error .readAfterWrite else admitSubmission tx conversationId draft now modes head

inductive AbortResult where
  | aborted | alreadyPlaced | settled | notFound
deriving DecidableEq, Repr

def abort (tx : Tx) (id : Nat) (conversationId : Option Nat) : Except Error (AbortResult × Tx) := do
  match ← tx.submission id with
  | none => .ok (.notFound, tx)
  | some record =>
    if conversationId.any fun expected => record.conversationId ≠ expected then .ok (.notFound, tx)
    else if record.status = .queued then
      .ok (.aborted, removeInboxItem (tx.settleSubmission id (.unanswered (js "aborted"))) record.conversationId id)
    else .ok (if record.status = .placed then .alreadyPlaced else .settled, tx)

def takesContinuation (items : List InboxItem) : Bool :=
  !(items.any fun item => item.isSteer || item.isFollowUp) && !hasQueuedReset items

def appendAll (tx : Tx) : List (Nat × EntryDraft) → Except Error Tx
  | [] => .ok tx
  | (conversationId, draft) :: rest => do
    let (_, tx) ← tx.appendEntry conversationId draft
    appendAll tx rest

def answer (tx : Tx) (conversationId taskId : Nat) (message : EntryDraft) (continuation : Option EntryDraft) (afterRun : Bool)
    (modes : QueueModes) (head : Option Nat) (now : Nat) : Except Error Tx := do
  let boundary ← prepareBoundary tx conversationId modes head
  let (entry, tx) ← tx.appendEntry conversationId message
  let continues := if takesContinuation (tx.inbox conversationId) then continuation else none
  match if continues.isNone ∧ afterRun then holdRun tx conversationId taskId entry else none with
  | some held => .ok held
  | none =>
    let (result, tx) ← applyBoundary tx boundary .final now
    match continues with
    | some user => do
      let (_, tx) ← tx.appendEntry conversationId user
      .ok (handOver tx conversationId taskId)
    | none => .ok (startNext (endRun tx conversationId taskId (.done entry)) conversationId result.users)

def endAnsweredRun (tx : Tx) (conversationId taskId answer : Nat) (modes : QueueModes) (head : Option Nat) (now : Nat) :
    Except Error Tx := do
  let boundary ← prepareBoundary tx conversationId modes head
  let (result, tx) ← applyBoundary tx boundary .final now
  .ok (startNext (endRun tx conversationId taskId (.done answer)) conversationId result.users)

structure ToolRound where
  assistant : Nat
  handoff : Option EntryDraft := none
  afterRun : Bool := false
  terminate : Bool := false
  /-- The round that reaches the turn limit, with its text. -/
  turnLimit : Option JsonValue := none

/-- A tool round after its handoff message. -/
def finishRound (tx : Tx) (conversationId taskId : Nat) (round : ToolRound) (policy : AfterFailedRun) (boundary : Boundary)
    (now : Nat) : Except Error Tx :=
  match if round.afterRun then holdRun tx conversationId taskId round.assistant else none with
  | some held => .ok held
  | none =>
    if round.terminate then do
      let (result, tx) ← applyBoundary tx boundary .final now
      .ok (startNext (endRun tx conversationId taskId (.done round.assistant)) conversationId result.users)
    else if round.turnLimit.isSome then
      endFailedRun tx conversationId taskId policy (if policy = .continue then some boundary else none)
        (.unanswered (js "turn_limit") round.turnLimit) now
    else do
      let (result, tx) ← applyBoundary tx boundary .postTools now
      if result.reset then
        .ok (startNext (endRun tx conversationId taskId (.unanswered (js "reset"))) conversationId result.users)
      else .ok (handOver (pushInputs tx conversationId taskId result.users) conversationId taskId)

def finishToolRound (tx : Tx) (conversationId taskId : Nat) (round : ToolRound) (policy : AfterFailedRun)
    (modes : QueueModes) (head : Option Nat) (now : Nat) : Except Error Tx := do
  let boundary ← prepareBoundary tx conversationId modes head
  match round.handoff with
  | none => finishRound tx conversationId taskId round policy boundary now
  | some message => do
    let (entry, tx) ← tx.appendEntry conversationId message
    finishRound tx conversationId taskId round policy { boundary with head := some entry } now

structure Admit where
  conversationId : Nat
  draft : SubmissionDraft
  now : Nat
  modes : QueueModes
  head : Option Nat

def admitAll (tx : Tx) : List Admit → Except Error Tx
  | [] => .ok tx
  | next :: rest => do
    let (_, tx) ← admitOne tx next.conversationId next.draft next.now next.modes next.head
    admitAll tx rest

/-- The end of the run of a task that the scheduler ends, after entries for its partial. -/
structure EndedTask where
  conversationId : Nat
  taskId : Nat
  entries : List EntryDraft
  runEnd : RunEnd

def endTasks (tx : Tx) : List EndedTask → Except Error Tx
  | [] => .ok tx
  | task :: rest => do
    let tx ← appendAll tx (task.entries.map fun draft => (task.conversationId, draft))
    endTasks (endRun tx task.conversationId task.taskId task.runEnd) rest

/-- The commits that touch submissions, inboxes or runs, and any other that writes entries
or creates a conversation. -/
inductive Commit where
  | createConversation
  /-- Admissions of `submit`, in their own commit or in a caller's, then its writes. -/
  | submit (admissions : List Admit) (entries : List (Nat × EntryDraft))
  | abort (id : Nat) (conversationId : Option Nat)
  /-- `Conversation.abort`, an abort cascade, and tasks that the scheduler or their abort handler ends. -/
  | reconcile (withdrawn : List Nat) (ended : List EndedTask)
  | failRun (conversationId taskId : Nat) (entries : List EntryDraft) (policy : AfterFailedRun) (runEnd : RunEnd)
      (modes : QueueModes) (head : Option Nat) (now : Nat)
  | answer (conversationId taskId : Nat) (message : EntryDraft) (continuation : Option EntryDraft) (afterRun : Bool)
      (modes : QueueModes) (head : Option Nat) (now : Nat)
  | endAnsweredRun (conversationId taskId answer : Nat) (modes : QueueModes) (head : Option Nat) (now : Nat)
  | finishToolRound (conversationId taskId : Nat) (round : ToolRound) (policy : AfterFailedRun) (modes : QueueModes)
      (head : Option Nat) (now : Nat)

def Commit.body (tx : Tx) : Commit → Except Error Tx
  | .createConversation => .ok tx.createConversation
  | .submit admissions entries => do
    let tx ← admitAll tx admissions
    appendAll tx entries
  | .abort id conversationId => do
    let (_, tx) ← Inbox.abort tx id conversationId
    .ok tx
  | .reconcile withdrawn ended =>
    endTasks (withdrawn.foldl (fun tx id => withdrawQueuedInputs tx id (js "aborted")) tx) ended
  | .failRun conversationId taskId entries policy runEnd modes head now => do
    let boundary ← prepareFailure tx conversationId policy modes head
    let tx ← appendAll tx (entries.map fun draft => (conversationId, draft))
    endFailedRun tx conversationId taskId policy boundary runEnd now
  | .answer conversationId taskId message continuation afterRun modes head now =>
    Inbox.answer tx conversationId taskId message continuation afterRun modes head now
  | .endAnsweredRun conversationId taskId answered modes head now =>
    Inbox.endAnsweredRun tx conversationId taskId answered modes head now
  | .finishToolRound conversationId taskId round policy modes head now =>
    Inbox.finishToolRound tx conversationId taskId round policy modes head now

namespace Session

def apply (session : Session) (commit : Commit) : Except Error Session := do
  let tx ← commit.body session.begin
  tx.commit

/-- A commit that fails changes nothing. -/
def step (session : Session) (commit : Commit) : Session :=
  match session.apply commit with
  | .ok next => next
  | .error _ => session

def run (session : Session) (commits : List Commit) : Session :=
  commits.foldl step session

end Session

end OctoberHarness.Inbox
