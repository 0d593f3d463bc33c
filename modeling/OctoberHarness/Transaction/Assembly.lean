import OctoberHarness.Transaction.Staging

/-! The settlement of a transaction: the plans of its documents, its checks, and
the batch and the keys it hands to the writer. -/
namespace OctoberHarness.Transaction

open OrderedMap

open Storage hiding scopeKey

/-- The record of a plan: of a new incarnation, or of a committed one. -/
inductive PlanRecord where
  | created (record : DocumentCreate)
  | committed (record : DocumentRecord)
deriving DecidableEq, Repr

def PlanRecord.toCreate : PlanRecord → DocumentCreate
  | .created record => record
  | .committed record => record.toDocumentCreate

inductive PlanContent where
  | create (record : DocumentCreate) (version : Nat) (value : JsonValue)
  | copy (record : DocumentCreate) (source : DocumentCopySource)
  | change (id : Nat) (content : DocumentContent)
deriving DecidableEq, Repr

def PlanContent.write : PlanContent → Write
  | .create record version value => .documentCreate record version value
  | .copy record source => .documentCopy record source
  | .change id content => .documentChange id content

structure PlanChange where
  ops : List Delta.Op
  value : JsonValue
  version : Nat
  loaded : Option LoadedDocument := none
  definition : Option DocDefinition := none

/-- `DocumentPlan`, without what only its publication reads. -/
structure DocumentPlan where
  addressId : JsString
  record : PlanRecord
  retire : Bool
  content : Option PlanContent := none
  change : Option PlanChange := none

def DocumentPlan.id (plan : DocumentPlan) : Nat :=
  plan.record.toCreate.id

def DocumentPlan.scope (plan : DocumentPlan) : Scope :=
  plan.record.toCreate.scope

/-- The content of a loaded document: a base of a newer version, or what changed. -/
def loadedContent (document : LoadedDocument) (version : Nat) (ops : List Delta.Op) (value : JsonValue) :
    Option PlanContent :=
  if document.storedVersion < version then some (.change document.record.id (.base version value))
  else if ops = [] then none
  else some (.change document.record.id (.delta version ops))

def planDocument (entry : DocumentEntry) : Option DocumentPlan :=
  let addressId := addressId entry.address
  match entry.target with
  | none => none
  | some (.created record version value) =>
    some { addressId, record := .created record, retire := entry.retireOnCommit,
           content := some (.create record version value), change := some { ops := [], value, version } }
  | some (.forkCopy record source) =>
    some { addressId, record := .created record, retire := entry.retireOnCommit, content := some (.copy record source) }
  | some (.retireOnly record) =>
    some { addressId, record := .committed record, retire := entry.retireOnCommit }
  | some (.loaded document ops value) =>
    entry.definition.map fun definition =>
      { addressId, record := .committed document.record, retire := entry.retireOnCommit
        content := loadedContent document definition.version ops value
        change := some
          { ops, value, version := definition.version, loaded := some document, definition := some definition } }

namespace Staged

/-- One turn of the loop of `#rejectForkSourceWrites`. -/
def checkForkSource (tx : Staged) (plan : DocumentPlan) : Except TxError Unit :=
  if plan.content.isNone ∧ plan.retire = false then .ok ()
  else if plan.id ∈ tx.forkSourceDocumentIds then .error (.forkSourceChanged plan.id)
  else
    match plan.scope with
    | .conversation id =>
      if id ∈ tx.forkSourceConversationIds ∧ plan.record.toCreate.fork = some .current then
        .error (.forkedWhileChanging id)
      else .ok ()
    | _ => .ok ()

/-- The owner tasks of the conversations and tasks of a transaction. -/
def owners (tx : Staged) : List Nat :=
  (tx.writes.filterMap fun write =>
    match write with
    | .conversation value => value.owner.map Owner.taskId
    | _ => none) ++
  tx.tasksById.filterMap fun entry =>
    entry.2.bind fun write => if write.kind = .create then ownerOf write.record else none

/-- One turn of the loop of `#validateOwners`. -/
def checkOwner (tx : Staged) (m : Memory) (taskId : Nat) : Except TxError Unit :=
  match tx.currentTask m taskId with
  | none => .error (.ownerMissing taskId)
  | some task =>
    if task.status = .terminal ∨ task.status = .completing then .error (.ownerEnded taskId task.status)
    else if task.abortRequested then .error (.ownerMarked taskId)
    else .ok ()

/-- A replaced task is stored, not terminal, and stays in its conversation. -/
def checkReplaced (m : Memory) (entry : Nat × Option TaskWrite) : Except TxError Unit :=
  match entry.2 with
  | some { kind := .replace, record } =>
    match m.tasks.lookup entry.1 with
    | none => .error (.taskMissing entry.1)
    | some committed =>
      if committed.status = .terminal then .error (.taskTerminal entry.1)
      else if committed.conversationId ≠ record.conversationId then .error (.taskMoves entry.1)
      else .ok ()
  | _ => .ok ()

/-! Documents of terminal tasks. -/

def taskRecords (tx : Staged) : List TaskRecord :=
  tx.tasksById.filterMap fun entry => entry.2.map TaskWrite.record

def terminalTaskIds (tx : Staged) : List Nat :=
  ((tx.taskRecords.filter fun record => decide (record.status = .terminal)).map TaskRecord.id).dedup

/-- Whether a scope is that of one of some tasks. -/
def ofTask (taskIds : List Nat) : Scope → Bool
  | .task id => decide (id ∈ taskIds)
  | _ => false

/-- The documents of a task: the session knows those of the tasks it created, any
other task's are scanned. -/
def documentsOf (m : Memory) (taskDocuments : Nat → Option (List DocumentRecord)) (taskId : Nat) :
    Except TxError (List DocumentRecord) :=
  match taskDocuments taskId with
  | some known => .ok known
  | none => scanAll m { scope := .task taskId, point := .current } (scanFuel m) none

/-- `retire`: a plan for a document that has none. -/
def retireDocument (plans : List DocumentPlan) (retiring : List Nat) (record : DocumentRecord) :
    List DocumentPlan × List Nat :=
  if record.id ∈ retiring then (plans, retiring)
  else (plans ++ [{ addressId := addressId record.address, record := .committed record, retire := true }],
    retiring ++ [record.id])

/-- One turn of the loop over the terminal tasks. -/
def retireTask (tx : Staged) (m : Memory) (taskDocuments : Nat → Option (List DocumentRecord))
    (state : List DocumentPlan × List Nat) (taskId : Nat) : Except TxError (List DocumentPlan × List Nat) :=
  if (tx.taskWrite taskId).any fun write => decide (write.kind = .create) then .ok state
  else do
    let records ← documentsOf m taskDocuments taskId
    .ok (records.foldl (fun state record => retireDocument state.1 state.2 record) state)

def retireTasks (tx : Staged) (m : Memory) (taskDocuments : Nat → Option (List DocumentRecord))
    (plans : List DocumentPlan) : Except TxError (List DocumentPlan) := do
  let taskIds := tx.terminalTaskIds
  let owned := plans.filter fun plan => ofTask taskIds plan.scope
  let plans := plans.map fun plan => if ofTask taskIds plan.scope then { plan with retire := true } else plan
  let state ← taskIds.foldlM (tx.retireTask m taskDocuments) (plans, owned.map DocumentPlan.id)
  .ok state.1

/-! Submissions and writes. -/

/-- One staged change of a submission. -/
def resolveChange (m : Memory) (submissions : List (Nat × SubmissionRecord)) (entry : Nat × SubmissionChange) :
    Except TxError (List (Nat × SubmissionRecord)) :=
  match (submissions.lookup entry.1).or (m.submissions.lookup entry.1) with
  | none => .error (.submissionMissing entry.1)
  | some current => do
    let next ← applySubmissionChange current entry.2
    .ok (if next = current then submissions else set submissions entry.1 next)

/-- A checkpoint that its definition asks for. -/
def checkpoint (plan : DocumentPlan) : DocumentPlan :=
  match plan.content, plan.change with
  | some (.change id (.delta _ _)), some { ops, value, version, loaded := some document, definition := some definition } =>
    if definition.checkpointWhen value ops document.deltasSinceBase then
      { plan with content := some (.change id (.base version value)) }
    else plan
  | _, _ => plan

def planWrites (plan : DocumentPlan) : List Write :=
  (plan.content.map PlanContent.write).toList ++ if plan.retire then [.documentRetire plan.id] else []

/-- The plans and the batch of a transaction. -/
structure Assembled where
  plans : List DocumentPlan
  writes : List Write

def assemble (tx : Staged) (m : Memory) (taskDocuments : Nat → Option (List DocumentRecord)) :
    Except TxError Assembled := do
  let plans := tx.documents.filterMap planDocument
  plans.forM tx.checkForkSource
  tx.owners.forM (tx.checkOwner m)
  tx.tasksById.forM (checkReplaced m)
  let plans ← tx.retireTasks m taskDocuments plans
  let submissions ← tx.submissionChanges.foldlM (resolveChange m) tx.submissions
  let plans := plans.map checkpoint
  .ok { plans
        writes := tx.writes ++ submissions.map (fun entry => .submission entry.2) ++
          tx.taskRecords.map .task ++ plans.flatMap planWrites }

def settleSuccess (tx : Staged) (m : Memory) (taskDocuments : Nat → Option (List DocumentRecord)) :
    Except TxError Assembled :=
  if tx.documents.any fun entry => entry.draft.isPending then .error .pendingOperations
  else tx.assemble m taskDocuments

end Staged

/-- `HeldDocument`: what its queue gives after the operations of a commit, or
nothing once it overflowed. -/
structure HeldDocument where
  take : List Delta.Op → Option (List Delta.Op)
  base : Bool
  value : JsonValue
  valueVersion : Nat

def storeHeld (hold : HeldDocument) (ops : List Delta.Op) (value : JsonValue) : DocumentContent :=
  match hold.take ops with
  | none => .base hold.valueVersion value
  | some taken => if hold.base then .base hold.valueVersion value else .delta hold.valueVersion taken

def insertBeforeRetirement (id : Nat) (write : Write) : List Write → List Write
  | [] => [write]
  | found :: rest => if found = .documentRetire id then write :: found :: rest else found :: insertBeforeRetirement id write rest

/-- A base that a plan selected covers what was held. -/
def heldContent (plan : DocumentPlan) (hold : HeldDocument) : DocumentContent :=
  match plan.content with
  | some (.change _ (.base version value)) => .base version value
  | _ =>
    storeHeld hold ((plan.change.map PlanChange.ops).getD []) ((plan.change.map PlanChange.value).getD hold.value)

/-- One turn of the loop of `takeHeld`. -/
def takeHeldPlan (held : Nat → Option HeldDocument) (writes : List Write) (plan : DocumentPlan) :
    List Write × DocumentPlan :=
  match plan.record, held plan.id with
  | .committed _, some hold =>
    let content := PlanContent.change plan.id (heldContent plan hold)
    let writes :=
      match plan.content with
      | some (.change id own) => writes.replace (.documentChange id own) content.write
      | _ => insertBeforeRetirement plan.id content.write writes
    (writes, { plan with content := some content })
  | _, _ => (writes, plan)

/-- The loop of `takeHeld`. -/
def takeHeldPlans (held : Nat → Option HeldDocument) (writes : List Write) : List DocumentPlan → Staged.Assembled
  | [] => { plans := [], writes }
  | plan :: rest =>
    let (writes, plan) := takeHeldPlan held writes plan
    let after := takeHeldPlans held writes rest
    { after with plans := plan :: after.plans }

def takeHeld (held : Nat → Option HeldDocument) (batch : Staged.Assembled) : Staged.Assembled :=
  takeHeldPlans held batch.writes batch.plans

/-- The keys of a plan in `writeKeys`. -/
def planKeys (plan : DocumentPlan) : List Key :=
  if plan.content.isNone ∧ plan.retire = false then []
  else
    documentKey plan.addressId :: incarnationKey plan.id ::
      match plan.record with
      | .created record => [scopeKey record.scope]
      | .committed record => if plan.retire then [scopeKey record.scope] else []

def writeKeys (batch : Staged.Assembled) : List Key :=
  tableKeys batch.writes ++ batch.plans.flatMap planKeys

/-! The session line. -/

/-- What the commits of a session have made: the storage, the next id, and the
documents of the tasks the session created. -/
structure Line where
  storage : Memory := {}
  nextId : Nat := 2
  taskDocuments : List (Nat × List DocumentRecord) := []

/-- A commit: its scope, the steps of its callback, the created tasks whose commit
is published, and the held documents. -/
structure Commit where
  scopeConversationId : Option Nat := none
  scopeTaskId : Option Nat := none
  events : List Staged.Event
  published : List Nat := []
  held : Nat → Option HeldDocument := fun _ => none

namespace Line

/-- The transaction of a commit after its callback. -/
def transaction (line : Line) (commit : Commit) : Staged :=
  Staged.run line.storage
    { nextId := line.nextId, scopeConversationId := commit.scopeConversationId, scopeTaskId := commit.scopeTaskId }
    commit.events

/-- The batch of a commit. -/
def settle (line : Line) (commit : Commit) : Except TxError Staged.Assembled :=
  takeHeld commit.held <$> (line.transaction commit).settleSuccess line.storage fun taskId =>
    if taskId ∈ commit.published then line.taskDocuments.lookup taskId else none

/-- The change of one plan in `#indexTaskDocuments`. -/
def indexPlan (seq : Nat) (known : List (Nat × List DocumentRecord)) (plan : DocumentPlan) :
    List (Nat × List DocumentRecord) :=
  match plan.scope with
  | .task taskId =>
    match known.lookup taskId with
    | none => known
    | some records =>
      if plan.retire then
        set known taskId (records.filter fun record => decide (record.id ≠ plan.id))
      else
        match plan.record, plan.change with
        | .created record, some _ =>
          set known taskId (records ++ [{ toDocumentCreate := record, createdAt := seq }])
        | _, _ => known
  | _ => known

def indexTaskDocuments (known : List (Nat × List DocumentRecord)) (tx : Staged) (batch : Staged.Assembled) (seq : Nat) :
    List (Nat × List DocumentRecord) :=
  let created := tx.tasksById.filterMap fun entry =>
    if entry.2.any fun write => decide (write.kind = .create) then some entry.1 else none
  let known := created.foldl (fun known taskId => set known taskId []) known
  let known := batch.plans.foldl (indexPlan seq) known
  batch.writes.foldl (fun known write =>
    match write with
    | .task value => if value.status = .terminal then erase known value.id else known
    | _ => known) known

/-- A commit: a transaction that fails, or has nothing to write, leaves its ids
used; a batch that the storage refuses changes nothing. -/
def commit (line : Line) (commit : Commit) : Line :=
  let tx := line.transaction commit
  match line.settle commit with
  | .error _ => { line with nextId := tx.nextId }
  | .ok batch =>
    if batch.writes = [] then { line with nextId := tx.nextId }
    else
      match line.storage.commitBatch batch.writes with
      | .error _ => { line with nextId := tx.nextId }
      | .ok storage =>
        { storage, nextId := tx.nextId
          taskDocuments := indexTaskDocuments line.taskDocuments tx batch line.storage.nextSeq }

/-- A session that is opened again knows no documents. -/
def restart (line : Line) : Line :=
  { line with taskDocuments := [] }

inductive Event where
  | commit (commit : Commit)
  | restart

def step (line : Line) : Event → Line
  | .commit commit => line.commit commit
  | .restart => line.restart

/-- The line after a list of events. -/
def run (events : List Event) : Line :=
  events.foldl step {}

end Line

end OctoberHarness.Transaction
