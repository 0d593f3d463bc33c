import OctoberHarness.Delta.Immutable
import OctoberHarness.Library.Table

/-! The records of a session, the writes of a commit and the queries of a
storage. What no storage looks at in a record is one JSON value of it. Ids of all
records share one namespace of numbers; a seq is the number of a commit. -/
namespace OctoberHarness.Storage

/-- The fork point of a conversation: its parent, and the last entry inherited. -/
structure Parent where
  conversationId : Nat
  atEntry : Nat
deriving DecidableEq, Repr

structure Owner where
  conversationId : Nat
  taskId : Nat
deriving DecidableEq, Repr

structure ConversationRecord where
  id : Nat
  parent : Option Parent := none
  owner : Option Owner := none
deriving DecidableEq, Repr

structure EntryRecord where
  id : Nat
  conversationId : Nat
  head : Option Nat := none
  body : JsonValue := .null
deriving DecidableEq, Repr

inductive TaskStatus where
  | pending | running | waiting | sleeping | completing | terminal
deriving DecidableEq, Repr

structure TaskRecord where
  id : Nat
  conversationId : Nat
  kind : JsString
  status : TaskStatus
  abortRequested : Bool := false
  background : Bool := false
  body : JsonValue := .null
deriving DecidableEq, Repr

inductive SubmissionStatus where
  | queued | placed | done | unanswered
deriving DecidableEq, Repr

structure SubmissionRecord where
  id : Nat
  conversationId : Nat
  requestId : Option JsString := none
  status : SubmissionStatus
  body : JsonValue := .null
deriving DecidableEq, Repr

inductive Scope where
  | session
  | conversation (id : Nat)
  | task (id : Nat)
deriving DecidableEq, Repr

inductive History where
  | latest | rewindable
deriving DecidableEq, Repr

inductive ForkPolicy where
  | asOf | current | initial
deriving DecidableEq, Repr

structure DocumentAddress where
  kind : JsString
  scope : Scope
  key : Option JsString := none
deriving DecidableEq, Repr

structure DocumentCreate where
  id : Nat
  kind : JsString
  key : Option JsString := none
  scope : Scope
  history : Option History := none
  fork : Option ForkPolicy := none
deriving DecidableEq, Repr

structure DocumentRecord extends DocumentCreate where
  createdAt : Nat
  retiredAt : Option Nat := none
deriving DecidableEq, Repr

/-- The logical address of an incarnation. -/
def DocumentCreate.address (record : DocumentCreate) : DocumentAddress :=
  { kind := record.kind, scope := record.scope, key := record.key }

inductive DocumentContent where
  | base (version : Nat) (value : JsonValue)
  | delta (version : Nat) (ops : List Delta.Op)
deriving DecidableEq, Repr

def DocumentContent.version : DocumentContent → Nat
  | .base version _ | .delta version _ => version

inductive DocumentPoint where
  | current
  | at (seq : Nat)
deriving DecidableEq, Repr

structure DocumentCopySource where
  id : Nat
  point : DocumentPoint
deriving DecidableEq, Repr

/-- `StorageWrite`. The content of a creation is a base. -/
inductive Write where
  | conversation (value : ConversationRecord)
  | entry (value : EntryRecord)
  | task (value : TaskRecord)
  | submission (value : SubmissionRecord)
  | documentCreate (record : DocumentCreate) (version : Nat) (value : JsonValue)
  | documentCopy (record : DocumentCreate) (source : DocumentCopySource)
  | documentChange (id : Nat) (content : DocumentContent)
  | documentRetire (id : Nat)
deriving DecidableEq, Repr

/-- The tables that share the id namespace. -/
inductive TableName where
  | conversation | entry | task | submission | document
deriving DecidableEq, Repr

structure StoredDocument where
  record : DocumentRecord
  version : Nat
  value : JsonValue
  deltasSinceBase : Nat
deriving DecidableEq, Repr

/-- `StoredEntry`: an entry and the commit that stored it. -/
structure StoredEntry where
  entry : EntryRecord
  commitSeq : Nat
deriving DecidableEq, Repr

/-- A stored checkpoint or operation batch. -/
structure Revision where
  content : DocumentContent
  seq : Nat
deriving DecidableEq, Repr

inductive ScanOrder where
  | ascending | descending
deriving DecidableEq, Repr

def ScanOrder.text : ScanOrder → JsString
  | .ascending => js "ascending"
  | .descending => js "descending"

/-- The two properties a scan reads of a cursor. -/
structure Cursor where
  after : Option JsonValue := none
  order : Option JsonValue := none
deriving DecidableEq, Repr

structure Page (α : Type) where
  items : List α
  next : Option Cursor := none
deriving DecidableEq, Repr

/-- What a read throws. `delta` is an operation of a stored batch that does not
apply, `type` a property of something that is missing. -/
inductive ReadError where
  | unknownConversation (id : Nat)
  | invalidCursor
  | cursorOrder (stored requested : ScanOrder)
  | noHistory (id : Nat)
  | missingBase (id : Nat)
  | versionBoundary (id : Nat)
  | delta (id : Nat)
  | type
  | diverges
deriving DecidableEq, Repr

structure ScanStart where
  order : ScanOrder
  after : Option Int
deriving DecidableEq, Repr

def MAX_SAFE_INTEGER : Nat := 2 ^ 53 - 1

/-- The value of a number for which `Number.isSafeInteger` holds. -/
def safeInteger : JsonValue → Option Int
  | .num n =>
    if 0 ≤ n.exponent ∧ (n.mantissa * 10 ^ n.exponent.toNat).natAbs ≤ MAX_SAFE_INTEGER then
      some (n.mantissa * 10 ^ n.exponent.toNat)
    else none
  | _ => none

/-- The order a cursor was created with. -/
def storedOrder (cursor : Cursor) : Except ReadError (Option ScanOrder) :=
  match cursor.order with
  | none => .ok none
  | some order =>
    if order = .str ScanOrder.ascending.text then .ok (some .ascending)
    else if order = .str ScanOrder.descending.text then .ok (some .descending)
    else .error .invalidCursor

def scanStart (requested : Option ScanOrder) (cursor : Option Cursor) (fallback : ScanOrder) :
    Except ReadError ScanStart :=
  match cursor with
  | none => .ok { order := requested.getD fallback, after := none }
  | some cursor => do
    match cursor.after.bind safeInteger with
    | none => .error .invalidCursor
    | some after =>
      let stored ← storedOrder cursor
      let order := stored.getD fallback
      match requested with
      | some wanted =>
        if wanted ≠ order then .error (.cursorOrder order wanted) else .ok { order, after := some after }
      | none => .ok { order, after := some after }

/-- `cursorId`: the position of a scan without an order. -/
def cursorId (cursor : Option Cursor) : Except ReadError (Option Int) :=
  match cursor.bind Cursor.after with
  | none => .ok none
  | some after =>
    match safeInteger after with
    | some id => .ok (some id)
    | none => .error .invalidCursor

def nextCursor (id : Nat) (order : ScanOrder) : Cursor :=
  { after := some (.num (.ofNat id)), order := some (.str order.text) }

/-- `page`: one value more than the limit means that the scan goes on. A limit
of zero leaves no last item to continue after. -/
def page {α : Type} (id : α → Nat) (values : List α) (limit : Nat) (order : ScanOrder) :
    Except ReadError (Page α) :=
  let items := values.take limit
  if values.length ≤ limit then .ok { items }
  else
    match items.getLast? with
    | some last => .ok { items, next := some (nextCursor (id last) order) }
    | none => .error .type

structure ConversationQuery where
  ownerConversationId : Option Nat := none
  ownerTaskId : Option Nat := none
  order : Option ScanOrder := none
deriving DecidableEq, Repr

structure EntryQuery where
  conversationId : Nat
  minEntryId : Option Int := none
  maxEntryId : Option Int := none
  order : Option ScanOrder := none
deriving DecidableEq, Repr

structure TaskQuery where
  conversationId : Option Nat := none
  kind : Option JsString := none
  status : Option TaskStatus := none
  abortRequested : Option Bool := none
  background : Option Bool := none
  order : Option ScanOrder := none
deriving DecidableEq, Repr

structure SubmissionQuery where
  conversationId : Option Nat := none
  status : Option SubmissionStatus := none
  order : Option ScanOrder := none
deriving DecidableEq, Repr

structure DocumentQuery where
  scope : Scope
  point : DocumentPoint
  kind : Option JsString := none
deriving DecidableEq, Repr

/-- The reads a storage offers. `visibleEntry` is `entry` with a conversation. -/
inductive Read where
  | conversation (id : Nat)
  | scanConversations (query : ConversationQuery) (limit : Nat) (cursor : Option Cursor)
  | entry (id : Nat)
  | visibleEntry (conversationId id : Nat)
  | findLatestHeadMarker (conversationId : Nat) (atOrBeforeEntryId : Option Nat)
  | scanEntries (query : EntryQuery) (limit : Nat) (cursor : Option Cursor)
  | task (id : Nat)
  | scanTasks (query : TaskQuery) (limit : Nat) (cursor : Option Cursor)
  | submission (id : Nat)
  | scanSubmissions (query : SubmissionQuery) (limit : Nat) (cursor : Option Cursor)
  | submissionByRequest (conversationId : Nat) (requestId : JsString)
  | findDocument (address : DocumentAddress) (point : DocumentPoint)
  | document (id : Nat) (point : DocumentPoint)
  | scanDocuments (query : DocumentQuery) (limit : Nat) (cursor : Option Cursor)
deriving DecidableEq, Repr

/-- The reads that follow the parents of a conversation. -/
def Read.walksForks : Read → Bool
  | .visibleEntry _ _ | .findLatestHeadMarker _ _ | .scanEntries _ _ _ => true
  | _ => false

def Read.namesRequest : Read → Bool
  | .submissionByRequest _ _ => true
  | _ => false

inductive ReadResult where
  | conversation (value : Option ConversationRecord)
  | conversations (page : Page ConversationRecord)
  | entry (value : Option StoredEntry)
  | head (value : Option EntryRecord)
  | entries (page : Page EntryRecord)
  | task (value : Option TaskRecord)
  | tasks (page : Page TaskRecord)
  | submission (value : Option SubmissionRecord)
  | submissions (page : Page SubmissionRecord)
  | documentRecord (value : Option DocumentRecord)
  | document (value : Option StoredDocument)
  | documents (page : Page DocumentRecord)
deriving DecidableEq, Repr

/-- The ids of a scan narrow the range on the side it moves away from. -/
def narrowUpper (upper : Option Int) (bound : Int) : Option Int :=
  some (match upper with
    | none => bound
    | some value => min value bound)

def narrowLower (lower : Option Int) (bound : Int) : Option Int :=
  some (match lower with
    | none => bound
    | some value => max value bound)

/-- Whether a range has no id; `none` is unbounded. -/
def isEmptyRange : Option Int → Option Int → Bool
  | some lower, some upper => decide (upper < lower)
  | _, _ => false

def isAliveAt (record : DocumentRecord) : DocumentPoint → Bool
  | .current => record.retiredAt.isNone
  | .at seq => decide (record.createdAt ≤ seq) && record.retiredAt.all fun retired => decide (seq < retired)

def isCurrentOnly (record : DocumentCreate) : Bool :=
  match record.scope with
  | .conversation _ => record.history = some .latest
  | _ => true

/-- Why a commit is refused. -/
inductive CommitError where
  | idTaken (id : Nat) (table : TableName)
  | idWrittenTwice (id : Nat)
  | idTwoTypes (id : Nat)
  | twoContents (id : Nat)
  | retiredTwice (id : Nat)
  | unknownDocument (id : Nat)
  | documentExists (id : Nat)
  | documentRetired (id : Nat)
  | deltaWithoutBase (id : Nat)
  | versionTransition (id : Nat)
  | addressTaken
  | sourceChanged (id : Nat)
  | copyRejected (id : Nat)
  | sequence (seq : Nat)
deriving DecidableEq, Repr

end OctoberHarness.Storage
