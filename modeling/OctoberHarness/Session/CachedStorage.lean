import OctoberHarness.Library.Lru
import OctoberHarness.Library.Transition
import OctoberHarness.Json.Value

/-! A write-through cache of record reads, for the Session that owns the Storage. -/
namespace OctoberHarness.Cached

open OrderedMap

/-! Records. The fields of a record that the cache does not look at are in its body. -/

structure ConversationRecord where
  id : Nat
  body : JsonValue := .null
deriving DecidableEq

inductive TaskState where
  | pending | running | sleeping | completing | terminal
  | waiting (on : List Nat)
deriving DecidableEq, Repr

structure TaskRecord where
  id : Nat
  state : TaskState
  body : JsonValue := .null
deriving DecidableEq

structure SubmissionRecord where
  id : Nat
  body : JsonValue := .null
deriving DecidableEq

inductive StorageWrite where
  | conversation (value : ConversationRecord)
  | task (value : TaskRecord)
  | submission (value : SubmissionRecord)
  /-- A write of an entry or a document, which the cache passes through. -/
  | other
deriving DecidableEq

def StorageWrite.id : StorageWrite → Option Nat
  | .conversation value => some value.id
  | .task value => some value.id
  | .submission value => some value.id
  | .other => none

/-- How many waits name a task, and its ended record once it ended. -/
structure Awaited where
  count : Nat
  record : Option TaskRecord := none

/-- What a task waits on, or waited on until it left its wait. -/
structure Wait where
  on : List Nat
  left : Bool := false

/-- The reads of a record that are in flight, and how many published commits wrote it since
the first began. -/
structure Reads where
  count : Nat := 0
  version : Nat := 0

structure Cache where
  conversations : Lru Nat ConversationRecord := { capacity := 4096 }
  liveTasks : List (Nat × TaskRecord) := []
  awaited : List (Nat × Awaited) := []
  waits : List (Nat × Wait) := []
  tasks : Lru Nat TaskRecord := { capacity := 256 }
  submissions : Lru Nat SubmissionRecord := { capacity := 256 }
  reads : List (Nat × Reads) := []

namespace Cache

def keepTask (cache : Cache) (record : TaskRecord) : Cache :=
  if record.state = .terminal then
    match cache.awaited.lookup record.id with
    | some awaited =>
      { cache with
        liveTasks := erase cache.liveTasks record.id
        awaited := set cache.awaited record.id { awaited with record := some record } }
    | none =>
      { cache with
        liveTasks := erase cache.liveTasks record.id
        tasks := cache.tasks.set record.id record }
  else
    { cache with
      tasks := cache.tasks.delete record.id
      liveTasks := set cache.liveTasks record.id record }

/-- One round of `#release`; a task that nothing counts is an error of the source. -/
def releaseOne (cache : Cache) (id : Nat) : Option Cache :=
  match cache.awaited.lookup id with
  | none => none
  | some awaited =>
    if 0 < awaited.count - 1 then
      some { cache with awaited := set cache.awaited id { awaited with count := awaited.count - 1 } }
    else
      let cache := { cache with awaited := erase cache.awaited id }
      match awaited.record with
      | none => some cache
      | some record => some { cache with tasks := cache.tasks.set id record }

def release (cache : Cache) (on : List Nat) : Option Cache :=
  on.foldlM releaseOne cache

/-- One round of the loop over a wait's `on`: one that ended already moves over from the
bounded table. -/
def awaitOne (cache : Cache) (id : Nat) : Cache :=
  match cache.awaited.lookup id with
  | some awaited => { cache with awaited := set cache.awaited id { awaited with count := awaited.count + 1 } }
  | none =>
    { cache with
      tasks := cache.tasks.delete id
      awaited := set cache.awaited id { count := 1, record := cache.tasks.held id } }

def await (cache : Cache) (on : List Nat) : Cache :=
  on.foldl awaitOne cache

def setWait (cache : Cache) (id : Nat) (wait : Wait) : Cache :=
  { cache with waits := set cache.waits id wait }

def followWait (cache : Cache) (record : TaskRecord) : Option Cache :=
  match record.state, cache.waits.lookup record.id with
  | .waiting on, none => some ((cache.setWait record.id { on }).await on)
  | .waiting on, some wait => (cache.release wait.on).map fun cache => (cache.setWait record.id { on }).await on
  | _, none => some cache
  | state, some wait =>
    if wait.left = false ∧ state ≠ .terminal then some (cache.setWait record.id { wait with left := true })
    else release { cache with waits := erase cache.waits record.id } wait.on

def wrote (cache : Cache) (id : Nat) : Cache :=
  match cache.reads.lookup id with
  | none => cache
  | some reads => { cache with reads := set cache.reads id { reads with version := reads.version + 1 } }

/-- `published`, for one write of the batch. -/
def publishedOne (cache : Cache) : StorageWrite → Option Cache
  | .conversation value =>
    let cache := cache.wrote value.id
    some { cache with conversations := cache.conversations.set value.id value }
  | .task value => ((cache.wrote value.id).followWait value).map fun cache => cache.keepTask value
  | .submission value =>
    let cache := cache.wrote value.id
    some { cache with submissions := cache.submissions.set value.id value }
  | .other => some cache

def published (cache : Cache) (writes : List StorageWrite) : Option Cache :=
  writes.foldlM publishedOne cache

def cachedConversation (cache : Cache) (id : Nat) : Option ConversationRecord :=
  cache.conversations.held id

def cachedTask (cache : Cache) (id : Nat) : Option TaskRecord :=
  (cache.liveTasks.lookup id).or (((cache.awaited.lookup id).bind Awaited.record).or (cache.tasks.held id))

def cachedSubmission (cache : Cache) (id : Nat) : Option SubmissionRecord :=
  cache.submissions.held id

/-- `#tasks.get`, where the other two tables hold no record. -/
def touchTask (cache : Cache) (id : Nat) : Cache :=
  if ((cache.liveTasks.lookup id).or ((cache.awaited.lookup id).bind Awaited.record)).isSome then cache
  else { cache with tasks := cache.tasks.touch id }

/-- The start of `#keep`: the reads of the record, with one more. -/
def startRead (cache : Cache) (id : Nat) : Cache :=
  let reads := (cache.reads.lookup id).getD {}
  { cache with reads := set cache.reads id { reads with count := reads.count + 1 } }

/-- The version that a read that starts now remembers. -/
def version (cache : Cache) (id : Nat) : Nat :=
  ((cache.reads.lookup id).getD {}).version

/-- The end of a read in `#keep`. -/
def endRead (cache : Cache) (id : Nat) : Cache :=
  match cache.reads.lookup id with
  | none => cache
  | some reads =>
    if reads.count - 1 = 0 then { cache with reads := erase cache.reads id }
    else { cache with reads := set cache.reads id { reads with count := reads.count - 1 } }

/-- `keep`, of a conversation or of a task. -/
def keep (cache : Cache) (id : Nat) : ConversationRecord ⊕ TaskRecord → Cache
  | .inl record => { cache with conversations := cache.conversations.set id record }
  | .inr record => cache.keepTask record

/-- The rest of `#keep`, once the read of the Storage has its value. -/
def finishRead (cache : Cache) (id version : Nat) (value : Option (ConversationRecord ⊕ TaskRecord)) : Cache :=
  match value with
  | none => cache.endRead id
  | some value => if cache.version id = version then (cache.endRead id).keep id value else cache.endRead id

end Cache

/-! The cache between its Storage and its reads. -/

/-- The newest of the records that some of the writes are of. -/
def newest {α : Type} (select : StorageWrite → Option (Nat × α)) (writes : List StorageWrite) (id : Nat) : Option α :=
  (writes.filterMap select).reverse.lookup id

def ofConversation : StorageWrite → Option (Nat × ConversationRecord)
  | .conversation value => some (value.id, value)
  | _ => none

def ofTask : StorageWrite → Option (Nat × TaskRecord)
  | .task value => some (value.id, value)
  | _ => none

def ofSubmission : StorageWrite → Option (Nat × SubmissionRecord)
  | .submission value => some (value.id, value)
  | _ => none

inductive ReadKind where
  | conversation | task
deriving DecidableEq, Repr

/-- A read of the Storage that is in flight, and what was stored and published when it started. -/
structure Flight where
  kind : ReadKind
  id : Nat
  version : Nat
  stored : Nat
  published : Nat
deriving DecidableEq

/-- The cache, the batches that its Storage has stored, how many of them are published, and
the reads in flight. -/
structure World where
  cache : Cache := {}
  batches : List (List StorageWrite) := []
  published : Nat := 0
  flights : List Flight := []

namespace World

/-- A cache over a Storage that has some batches. -/
def opened (batches : List (List StorageWrite)) : World where
  batches := batches
  published := batches.length

/-- The writes of the first batches. -/
def writes (world : World) (count : Nat) : List StorageWrite :=
  (world.batches.take count).flatten

/-- What a read of the Storage finds when it has stored the first batches. -/
def found (world : World) (count : Nat) : ReadKind → Nat → Option (ConversationRecord ⊕ TaskRecord)
  | .conversation, id => (newest ofConversation (world.writes count) id).map Sum.inl
  | .task, id => (newest ofTask (world.writes count) id).map Sum.inr

def cached (world : World) (kind : ReadKind) (id : Nat) : Bool :=
  match kind with
  | .conversation => (world.cache.cachedConversation id).isSome
  | .task => (world.cache.cachedTask id).isSome

/-- The use of a cached record. -/
def touch (world : World) (kind : ReadKind) (id : Nat) : Cache :=
  match kind with
  | .conversation => { world.cache with conversations := world.cache.conversations.touch id }
  | .task => world.cache.touchTask id

end World

inductive Event where
  /-- The Storage stores a batch. -/
  | store (batch : List StorageWrite)
  /-- The Session publishes the next stored batch. -/
  | publish
  /-- A read starts: from the cache, or in flight. -/
  | read (kind : ReadKind) (id : Nat)
  | readSubmission (id : Nat)
  /-- A read ends with what the Storage had at some time since its start: the first `seen` batches. -/
  | finish (index seen : Nat)
  /-- A read fails. -/
  | fail (index : Nat)
deriving DecidableEq

namespace World

def step (world : World) : Event → Option World
  | .store batch => some { world with batches := world.batches ++ [batch] }
  | .publish => do
    let batch ← world.batches[world.published]?
    let cache ← world.cache.published batch
    some { world with cache, published := world.published + 1 }
  | .read kind id =>
    if world.cached kind id then some { world with cache := world.touch kind id }
    else
      some { world with
        cache := (world.touch kind id).startRead id
        flights := world.flights ++
          [{ kind, id, version := world.cache.version id, stored := world.batches.length, published := world.published }] }
  | .readSubmission id =>
    some { world with cache := { world.cache with submissions := world.cache.submissions.touch id } }
  | .finish index seen => do
    let flight ← world.flights[index]?
    if flight.stored ≤ seen ∧ seen ≤ world.batches.length then
      some { world with
        cache := world.cache.finishRead flight.id flight.version (world.found seen flight.kind flight.id)
        flights := world.flights.eraseIdx index }
    else none
  | .fail index => do
    let flight ← world.flights[index]?
    some { world with cache := world.cache.endRead flight.id, flights := world.flights.eraseIdx index }

end World

end OctoberHarness.Cached
