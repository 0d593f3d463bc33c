import OctoberHarness.Delta.Immutable
import OctoberHarness.Json.RoundTrip
import OctoberHarness.Library.Table
import OctoberHarness.Library.Transition
import Mathlib.Data.List.Sort

/-! The graph of the live tasks of a session: built from the storage once, then advanced by
the operations that each commit publication makes. -/
namespace OctoberHarness.TaskGraph

open OrderedMap

inductive JoinPolicy where
  | failFast | allSettled
deriving DecidableEq

inductive OutcomeStatus where
  | completed | failed | aborted | orphaned | faulted
deriving DecidableEq

/-- The state of a record, with the phase of its checkpoint and the status of its
outcome. -/
inductive TaskState where
  | pending (phase : JsString)
  | running (phase : JsString)
  | waiting (phase : JsString) (on : List Nat) (policy : JoinPolicy)
  | sleeping (phase : JsString) (wake : JsNumber)
  | completing (outcome : OutcomeStatus)
  | terminal (outcome : OutcomeStatus)

inductive Status where
  | pending | running | waiting | sleeping | completing | terminal
deriving DecidableEq

def TaskState.status : TaskState → Status
  | pending _ => .pending
  | running _ => .running
  | waiting .. => .waiting
  | sleeping .. => .sleeping
  | completing _ => .completing
  | terminal _ => .terminal

structure TaskRecord where
  id : Nat
  conversationId : Nat
  kind : JsString
  version : Nat
  owner : Option Nat
  background : Bool
  abortRequested : Bool
  /-- `abortReason` is `restart`. -/
  restart : Bool
  state : TaskState

/-- A conversation and the task that owns it. -/
structure ConversationRecord where
  id : Nat
  owner : Option Nat

/-- A write of a commit, and the change its publication has for it. -/
inductive Change where
  | task (value : TaskRecord)
  | conversation (value : ConversationRecord)
  /-- An entry, a submission or a document. -/
  | other

namespace Change

def task? : Change → Option TaskRecord
  | task value => some value
  | _ => none

def conversation? : Change → Option ConversationRecord
  | conversation value => some value
  | _ => none

end Change

structure Storage where
  tasks : List (Nat × TaskRecord)
  conversations : List (Nat × ConversationRecord)

namespace Storage

def apply (storage : Storage) : Change → Storage
  | .task value => { storage with tasks := Table.put value.id value storage.tasks }
  | .conversation value => { storage with conversations := Table.put value.id value storage.conversations }
  | .other => storage

def commit (storage : Storage) (writes : List Change) : Storage :=
  writes.foldl apply storage

def scanTasks (storage : Storage) (status : Status) : List TaskRecord :=
  (storage.tasks.map Prod.snd).filter fun record => record.state.status = status

def scanConversations (storage : Storage) (ownerTaskId : Nat) : List ConversationRecord :=
  (storage.conversations.map Prod.snd).filter fun record => record.owner = some ownerTaskId

end Storage

inductive BlockedReason where
  | missingTask | taskTooOld | migrationFailed
deriving DecidableEq

/-- What a blocked reason is derived from. -/
structure BlockedSubject where
  id : Nat
  kind : JsString
  version : Nat
  abortRequested : Bool
  restart : Bool
  status : Status

def blockedSubject (record : TaskRecord) : BlockedSubject where
  id := record.id
  kind := record.kind
  version := record.version
  abortRequested := record.abortRequested
  restart := record.restart
  status := record.state.status

def BlockedReason.json : BlockedReason → JsonValue
  | missingTask => .str (js "missing_task")
  | taskTooOld => .str (js "task_too_old")
  | migrationFailed => .str (js "migration_failed")

def JoinPolicy.json : JoinPolicy → JsonValue
  | failFast => .str (js "failFast")
  | allSettled => .str (js "allSettled")

def OutcomeStatus.json : OutcomeStatus → JsonValue
  | completed => .str (js "completed")
  | failed => .str (js "failed")
  | aborted => .str (js "aborted")
  | orphaned => .str (js "orphaned")
  | faulted => .str (js "faulted")

/-- An id as a number of the graph. -/
def idJson (id : Nat) : JsonValue :=
  .num (.ofNat id)

def idsJson (ids : List Nat) : JsonValue :=
  .arr (ids.map idJson)

def stateOf (state : TaskState) : JsonValue :=
  match state with
  | .pending phase => .obj [(js "status", .str (js "pending")), (js "phase", .str phase)]
  | .running phase => .obj [(js "status", .str (js "running")), (js "phase", .str phase)]
  | .waiting phase on policy =>
    .obj [(js "status", .str (js "waiting")), (js "phase", .str phase), (js "on", idsJson on), (js "policy", policy.json)]
  | .sleeping phase wake =>
    .obj [(js "status", .str (js "sleeping")), (js "phase", .str phase), (js "until", .num wake)]
  | .completing outcome | .terminal outcome =>
    .obj [(js "status", .str (js "completing")), (js "outcome", outcome.json)]

/-- `nodeOf`, with the conversations as they are in the graph. -/
def nodeOf (record : TaskRecord) (conversations : JsonValue) (blocked : Option BlockedReason) : JsonValue :=
  .obj
    ([(js "id", idJson record.id), (js "kind", .str record.kind), (js "conversationId", idJson record.conversationId)] ++
      (record.owner.map fun owner => (js "owner", idJson owner)).toList ++
      [(js "background", .bool record.background), (js "abortRequested", .bool record.abortRequested),
        (js "state", stateOf record.state), (js "conversations", conversations)] ++
      (blocked.map fun reason => (js "blocked", reason.json)).toList)

/-- `String(id)`. -/
def keyOf (id : Nat) : JsString :=
  decimalText id

structure Mount where
  value : JsonValue
  records : List (JsString × BlockedSubject)

/-- `value.tasks`. -/
def tasksOf (value : JsonValue) : Fields :=
  match value with
  | .obj fields =>
    match fields.lookup (js "tasks") with
    | some (.obj tasks) => tasks
    | _ => []
  | _ => []

/-- `node.conversations`. -/
def conversationsOf (node : JsonValue) : JsonValue :=
  match node with
  | .obj fields => (fields.lookup (js "conversations")).getD (.arr [])
  | _ => .arr []

/-- `[...conversations, ...ids].sort((a, b) => a - b)` on ids. -/
def sortIds (ids : List Nat) : List Nat :=
  ids.insertionSort (· ≤ ·)

/-- The ids in an array of the graph. -/
def idsOf (value : JsonValue) : List Nat :=
  match value with
  | .arr items => items.filterMap fun
      | .num n => n.toNat?
      | _ => none
  | _ => []

def LIVE_STATUSES : List Status :=
  [.pending, .running, .waiting, .sleeping, .completing]

section Blocked

variable (blocked : BlockedSubject → Option BlockedReason)

/-- The records of `#build`, in id order. -/
def liveRecords (storage : Storage) : List TaskRecord :=
  (LIVE_STATUSES.flatMap storage.scanTasks).insertionSort fun a b => a.id ≤ b.id

/-- The conversations that `#build` reads for a task. -/
def ownedIds (storage : Storage) (taskId : Nat) : List Nat :=
  sortIds ((storage.scanConversations taskId).map ConversationRecord.id)

/-- The turn of the loop of `#build`. -/
def buildNode (storage : Storage) (mount : Fields × List (JsString × BlockedSubject)) (record : TaskRecord) :
    Fields × List (JsString × BlockedSubject) :=
  (mount.1.define (keyOf record.id)
      (nodeOf record (idsJson (ownedIds storage record.id)) (blocked (blockedSubject record))),
    set mount.2 (keyOf record.id) (blockedSubject record))

def build (storage : Storage) : Mount :=
  let read := (liveRecords storage).foldl (buildNode blocked storage) ([], [])
  { value := .obj [(js "tasks", .obj read.1)], records := read.2 }

/-- What `advance` has of a publication so far. -/
structure Advance where
  ops : List Delta.Op := []
  /-- The nodes set or deleted, over the value of the mount. -/
  changed : List (JsString × Option JsonValue) := []
  records : List (JsString × BlockedSubject)

namespace Advance

def node (advance : Advance) (value : JsonValue) (key : JsString) : Option JsonValue :=
  match advance.changed.lookup key with
  | some node => node
  | none => (tasksOf value).lookup key

end Advance

def taskPath (key : JsString) : Delta.Path :=
  [.key (js "tasks"), .key key]

/-- The turn of the first loop, on a change of a task. -/
def advanceTask (value : JsonValue) (advance : Advance) (record : TaskRecord) : Advance :=
  let key := keyOf record.id
  let previous := advance.node value key
  if record.state.status = .terminal then
    let advance := { advance with records := erase advance.records key }
    if previous.isNone then advance
    else
      { advance with
        ops := advance.ops ++ [.d (taskPath key)]
        changed := set advance.changed key none }
  else
    let subject := blockedSubject record
    let advance := { advance with records := set advance.records key subject }
    let next := nodeOf record ((previous.map conversationsOf).getD (.arr [])) (blocked subject)
    if previous.any fun previous => next.stringify = previous.stringify then advance
    else
      { advance with
        ops := advance.ops ++ [.s (taskPath key) next]
        changed := set advance.changed key (some next) }

/-- The turn of the second loop: a conversation of a task that is in the graph. -/
def collectOwned (node : JsString → Option JsonValue) (created : List (JsString × List Nat)) (value : ConversationRecord) :
    List (JsString × List Nat) :=
  match value.owner with
  | some owner =>
    if (node (keyOf owner)).isSome then
      set created (keyOf owner) ((created.lookup (keyOf owner)).getD [] ++ [value.id])
    else created
  | none => created

/-- The operation for the conversations created with an owner. -/
def ownedOp (node : JsString → Option JsonValue) (created : JsString × List Nat) : Delta.Op :=
  .s (taskPath created.1 ++ [.key (js "conversations")])
    (idsJson (sortIds (idsOf (((node created.1).map conversationsOf).getD (.arr [])) ++ created.2)))

/-- `advance`, and `publish` of its operations. -/
def advance (owned : Nat → Delta.Path → Bool) (mount : Mount) (changes : List Change) : Except Delta.DeltaError Mount :=
  let first := (changes.filterMap Change.task?).foldl (advanceTask blocked mount.value) { records := mount.records }
  let created := (changes.filterMap Change.conversation?).foldl (collectOwned (first.node mount.value)) []
  let ops := first.ops ++ created.map (ownedOp (first.node mount.value))
  if ops = [] then .ok { mount with records := first.records }
  else (Delta.applyImmutable owned mount.value ops).map fun value => { value, records := first.records }

end Blocked

end OctoberHarness.TaskGraph
