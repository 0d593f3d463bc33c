import OctoberHarness.Storage.MemoryRead

/-! The SQLite storage. A table is its rows in key order; a row is the record it
holds, and its other columns are computed from the record as the inserts compute
them. -/
namespace OctoberHarness.Storage

open OrderedMap

/-- The tables, and the metadata row. -/
structure Sqlite where
  recordIds : List (Nat × TableName) := []
  conversations : List (Nat × ConversationRecord) := []
  entries : List (Nat × StoredEntry) := []
  tasks : List (Nat × TaskRecord) := []
  submissions : List (Nat × SubmissionRecord) := []
  documents : List (Nat × DocumentRecord) := []
  documentRevisions : List (Nat × Revision) := []
  nextId : Nat := 2
  nextSeq : Nat := 1
deriving DecidableEq, Repr

def encodeIndexedString (value : JsString) : JsString :=
  (JsonValue.str value).stringify

/-- `scope_kind` and `owner_id`. -/
def scopeColumns : Scope → JsString × Nat
  | .session => (js "session", 0)
  | .conversation id => (js "conversation", id)
  | .task id => (js "task", id)

/-- The columns that index an address. -/
structure AddressParts where
  kind : JsString
  scope : JsString × Nat
  family : Nat
  keyValue : JsString
deriving DecidableEq, Repr

def addressParts (address : DocumentAddress) : AddressParts :=
  { kind := encodeIndexedString address.kind
    scope := scopeColumns address.scope
    family := if address.key.isNone then 0 else 1
    keyValue := encodeIndexedString (address.key.getD []) }

namespace Sqlite

def addressKey (address : DocumentAddress) : JsString :=
  let parts := addressParts address
  (JsonValue.arr [.str parts.kind, .str parts.scope.1, .num (.ofNat parts.scope.2),
    .num (.ofNat parts.family), .str parts.keyValue]).stringify

/-- `SELECT … WHERE … ORDER BY id … LIMIT`. -/
def select {α : Type} (rows : List (Nat × α)) (condition : Nat → α → Bool) (order : ScanOrder) (limit : Nat) :
    List α :=
  let found := (rows.filter fun row => condition row.1 row.2).map Prod.snd
  match order with
  | .ascending => found.take limit
  | .descending => found.reverse.take limit

def scanSql (start : ScanStart) (id : Nat) : Bool :=
  match start.order with
  | .ascending => decide (start.after.getD (-1) < (id : Int))
  | .descending => decide ((id : Int) < start.after.getD MAX_SAFE_INTEGER)

/-- The stored revisions of a document that pass a condition, in `seq` order. -/
def revisionsOf (d : Sqlite) (id : Nat) (condition : Revision → Bool) : List Revision :=
  ((d.documentRevisions.filter fun row => decide (row.1 = id) && condition row.2).map Prod.snd).mergeSort
    fun a b => decide (a.seq ≤ b.seq)

/-- The content of a base row. -/
def baseOf (revision : Revision) : Option (Nat × JsonValue) :=
  match revision.content with
  | .base version value => some (version, value)
  | .delta _ _ => none

/-- One turn of the loop of `materializeDocument`. -/
def applyRevision (id : Nat) (version : Nat) (value : JsonValue) (revision : Revision) :
    Except ReadError JsonValue :=
  match revision.content with
  | .delta found ops =>
    if found ≠ version then .error (.versionBoundary id)
    else
      match Delta.apply value ops with
      | .ok value => .ok value
      | .error _ => .error (.delta id)
  | .base _ _ => .error (.versionBoundary id)

/-- The last revision seq of a point. -/
def upperSeq : DocumentPoint → Nat
  | .current => MAX_SAFE_INTEGER
  | .at seq => seq

def materializeDocument (d : Sqlite) (id : Nat) (point : DocumentPoint) :
    Except ReadError (Option StoredDocument) :=
  match d.documents.lookup id with
  | none => .ok none
  | some record =>
    if point ≠ .current ∧ isCurrentOnly record.toDocumentCreate then .error (.noHistory id)
    else if isAliveAt record point = false then .ok none
    else
      let upper := upperSeq point
      let bases := d.revisionsOf id fun revision => (baseOf revision).isSome && decide (revision.seq ≤ upper)
      match bases.getLast?.bind fun revision => (baseOf revision).map (revision.seq, ·) with
      | none => .error (.missingBase id)
      | some (seq, version, base) => do
        let tail := d.revisionsOf id fun revision => decide (seq < revision.seq) && decide (revision.seq ≤ upper)
        let value ← tail.foldlM (applyRevision id version) base
        .ok (some { record, version, value, deltasSinceBase := tail.length })

def currentDocumentId (d : Sqlite) (address : DocumentAddress) : Option Nat :=
  (d.documents.find? fun row =>
    decide (addressParts row.2.address = addressParts address) && row.2.retiredAt.isNone).map Prod.fst

/-! Checks of a commit. -/

structure DocumentAction extends Memory.DocumentAction where
  copy : Option DocumentCopySource := none
deriving DecidableEq, Repr

abbrev DocumentActions := List (Nat × DocumentAction)

/-- One turn of the loop of `prepareDocumentActions`. -/
def prepareAction (actions : DocumentActions) : Write → Except CommitError DocumentActions
  | .documentCreate record version value =>
    let action := (actions.lookup record.id).getD {}
    if action.create.isSome ∨ action.content.isSome ∨ action.copy.isSome then .error (.twoContents record.id)
    else .ok (set actions record.id
      { action with create := some record, content := some (.base version value) })
  | .documentCopy record source =>
    let action := (actions.lookup record.id).getD {}
    if action.create.isSome ∨ action.content.isSome ∨ action.copy.isSome then .error (.twoContents record.id)
    else .ok (set actions record.id { action with create := some record, copy := some source })
  | .documentChange id content =>
    let action := (actions.lookup id).getD {}
    if action.content.isSome ∨ action.copy.isSome then .error (.twoContents id)
    else .ok (set actions id { action with content := some content })
  | .documentRetire id =>
    let action := (actions.lookup id).getD {}
    if action.retire then .error (.retiredTwice id)
    else .ok (set actions id { action with retire := true })
  | _ => .ok actions

def prepareDocumentActions (writes : List Write) : Except CommitError DocumentActions :=
  writes.foldlM prepareAction []

def checkGlobalIds (d : Sqlite) (writes : List Write) : Except CommitError Unit :=
  Memory.checkGlobalIds.loop d.recordIds [] writes

def checkAction (d : Sqlite) (actions : DocumentActions) (id : Nat) (action : DocumentAction) :
    Except CommitError Unit :=
  let existing := d.documents.lookup id
  if action.copy.any fun source => (actions.lookup source.id).isSome then .error (.sourceChanged id)
  else if action.create.isNone ∧ existing.isNone then .error (.unknownDocument id)
  else if action.create.isSome ∧ existing.isSome then .error (.documentExists id)
  else if (existing.bind DocumentRecord.retiredAt).isSome then .error (.documentRetired id)
  else
    match action.content with
    | some (.delta version _) =>
      match (d.revisionsOf id fun _ => true).getLast? with
      | none => .error (.deltaWithoutBase id)
      | some previous =>
        if previous.content.version ≠ version then .error (.versionTransition id) else .ok ()
    | _ => .ok ()

/-- The incarnations alive at the address of an action after it. -/
def liveAfter (d : Sqlite) (liveCounts : List (JsString × Int)) (id : Nat) (action : DocumentAction) :
    Option (JsString × Int) :=
  let existing := d.documents.lookup id
  (action.create.or (existing.map DocumentRecord.toDocumentCreate)).map fun record =>
    let key := addressKey record.address
    let live := (liveCounts.lookup key).getD (if (d.currentDocumentId record.address).isNone then 0 else 1)
    let live := if action.retire ∧ existing.isSome then live - 1 else live
    (key, if action.create.isSome ∧ action.retire = false then live + 1 else live)

/-- The loop of `checkDocumentActions`. -/
def checkDocumentActions.loop (d : Sqlite) (all : DocumentActions) :
    List (JsString × Int) → DocumentActions → Except CommitError (List (JsString × Int))
  | liveCounts, [] => .ok liveCounts
  | liveCounts, (id, action) :: rest => do
    d.checkAction all id action
    match d.liveAfter liveCounts id action with
    | some (key, live) => loop d all (set liveCounts key live) rest
    | none => loop d all liveCounts rest

def checkDocumentActions (d : Sqlite) (actions : DocumentActions) : Except CommitError Unit := do
  let liveCounts ← checkDocumentActions.loop d actions [] actions
  if liveCounts.any fun entry => decide (1 < entry.2) then .error .addressTaken else .ok ()

/-- One turn of the loop of `resolveCopies`: the action with its content. -/
def resolveCopy (d : Sqlite) (entry : Nat × DocumentAction) : Except CommitError (Nat × Memory.DocumentAction) :=
  let (id, action) := entry
  match action.copy, action.create with
  | some source, some create =>
    match d.materializeDocument source.id source.point with
    | .ok (some stored) =>
      if Memory.copyMatches stored.record create then
        .ok (id, { action.toDocumentAction with content := some (.base stored.version stored.value) })
      else .error (.copyRejected id)
    | _ => .error (.copyRejected id)
  | _, _ => .ok (id, action.toDocumentAction)

/-- `prepareDocumentActions` and `checkBatch`. -/
def checkBatch (d : Sqlite) (writes : List Write) : Except CommitError Memory.DocumentActions := do
  let actions ← prepareDocumentActions writes
  d.checkGlobalIds writes
  d.checkDocumentActions actions
  actions.mapM d.resolveCopy

/-- `claimId`: `INSERT OR IGNORE`. -/
def claimId (d : Sqlite) (id : Nat) (table : TableName) : Sqlite :=
  if (d.recordIds.lookup id).isSome then d else { d with recordIds := Table.put id table d.recordIds }

def applyTableWrite (d : Sqlite) (seq : Nat) : Write → Sqlite
  | .conversation value =>
    let d := d.claimId value.id .conversation
    { d with conversations := Table.put value.id value d.conversations }
  | .entry value =>
    let d := d.claimId value.id .entry
    { d with entries := Table.put value.id { entry := value, commitSeq := seq } d.entries }
  | .task value =>
    let d := d.claimId value.id .task
    { d with tasks := Table.put value.id value d.tasks }
  | .submission value =>
    let d := d.claimId value.id .submission
    { d with submissions := Table.put value.id value d.submissions }
  | _ => d

/-- `DELETE FROM document_revisions WHERE document_id = ?`. -/
def deleteRevisions (d : Sqlite) (id : Nat) : Sqlite :=
  { d with documentRevisions := d.documentRevisions.filter fun row => row.1 ≠ id }

def storeContent (d : Sqlite) (seq : Nat) (id : Nat) (record : DocumentCreate) : Option DocumentContent → Sqlite
  | none => d
  | some content =>
    let d :=
      match content with
      | .base _ _ => if isCurrentOnly record then d.deleteRevisions id else d
      | .delta _ _ => d
    { d with documentRevisions := d.documentRevisions ++ [(id, ({ content, seq } : Revision))] }

/-- One turn of the loop of `applyDocumentActions`. -/
def applyDocumentAction (seq : Nat) (d : Sqlite) (entry : Nat × Memory.DocumentAction) : Sqlite :=
  let (id, action) := entry
  let existing : Option (DocumentRecord × Sqlite) :=
    match action.create with
    | some create =>
      let record : DocumentRecord :=
        { toDocumentCreate := create, createdAt := seq, retiredAt := if action.retire then some seq else none }
      let d := d.claimId id .document
      some (record, { d with documents := Table.put id record d.documents })
    | none => (d.documents.lookup id).map (·, d)
  match existing with
  | none => d
  | some (record, d) =>
    let d := d.storeContent seq id record.toDocumentCreate action.content
    if action.retire then
      let d :=
        if action.create.isNone then
          { d with documents := Table.put id { record with retiredAt := some seq } d.documents }
        else d
      if isCurrentOnly record.toDocumentCreate then d.deleteRevisions id else d
    else d

def writeId : Write → Option Nat
  | .conversation value => some value.id
  | .entry value => some value.id
  | .task value => some value.id
  | .submission value => some value.id
  | .documentCreate record _ _ | .documentCopy record _ => some record.id
  | .documentChange _ _ | .documentRetire _ => none

def candidateNextId (nextId : Nat) (writes : List Write) : Nat :=
  (writes.filterMap writeId).foldl (fun next id => max next (id + 1)) nextId

/-- `applyBatch`, and the metadata after it. -/
def applyBatch (d : Sqlite) (writes : List Write) (actions : Memory.DocumentActions) : Sqlite :=
  let seq := d.nextSeq
  let nextId := candidateNextId d.nextId writes
  let d := writes.foldl (fun d write => d.applyTableWrite seq write) d
  let d := actions.foldl (applyDocumentAction seq) d
  { d with nextId, nextSeq := seq + 1 }

/-- One batch of `commit`: it is refused, or stored with the next seq. -/
def commitBatch (d : Sqlite) (writes : List Write) : Except CommitError Sqlite := do
  let actions ← d.checkBatch writes
  .ok (d.applyBatch writes actions)

end Sqlite

end OctoberHarness.Storage
