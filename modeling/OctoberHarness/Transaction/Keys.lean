import OctoberHarness.Storage.Memory

/-! The keys of the session line: what a commit writes and a read waits for. -/
namespace OctoberHarness.Transaction

open Storage hiding scopeKey

abbrev Key := JsString

def taskKey (id : Nat) : Key :=
  js "task:" ++ decimalText id

def conversationKey (id : Nat) : Key :=
  js "conv:" ++ decimalText id

def entryKey (id : Nat) : Key :=
  js "entry:" ++ decimalText id

/-- The newest entries of a conversation. -/
def appendKey (conversationId : Nat) : Key :=
  js "entry-append:" ++ decimalText conversationId

def submissionKey (id : Nat) : Key :=
  js "sub:" ++ decimalText id

/-- The submission a request id of a conversation names. -/
def requestKey (conversationId : Nat) (requestId : JsString) : Key :=
  js "req:" ++ decimalText conversationId ++ js ":" ++ requestId

def documentKey (addressId : JsString) : Key :=
  js "doc:" ++ addressId

def incarnationKey (id : Nat) : Key :=
  js "docid:" ++ decimalText id

/-- The incarnations alive in a scope. -/
def scopeKey : Scope → Key
  | .session => js "docscope:session"
  | .conversation id => js "docscope:c" ++ decimalText id
  | .task id => js "docscope:t" ++ decimalText id

/-- Every unpublished write. -/
def ALL_KEYS : Key :=
  js "*"

def addressId (address : DocumentAddress) : JsString :=
  let (kind, owner) : JsString × JsonValue :=
    match address.scope with
    | .session => (js "session", .null)
    | .conversation id => (js "conversation", .num (.ofNat id))
    | .task id => (js "task", .num (.ofNat id))
  (JsonValue.arr [.str address.kind, .str kind, owner, (address.key.map JsonValue.str).getD .null]).stringify

/-- The keys of one write in `tableKeys`. -/
def tableKey : Write → List Key
  | .conversation value => [conversationKey value.id]
  | .entry value => [entryKey value.id, appendKey value.conversationId]
  | .task value => [taskKey value.id]
  | .submission value =>
    submissionKey value.id :: (value.requestId.map (requestKey value.conversationId)).toList
  | _ => []

def tableKeys (writes : List Write) : List Key :=
  writes.flatMap tableKey

/-- The keys a read of `GatedStorage` waits for. -/
def readKeys : Read → List Key
  | .conversation id => [conversationKey id]
  | .scanConversations _ _ _ | .scanTasks _ _ _ | .scanSubmissions _ _ _ => [ALL_KEYS]
  | .entry id => [entryKey id]
  | .visibleEntry conversationId id => [conversationKey conversationId, entryKey id]
  | .findLatestHeadMarker conversationId _ => [conversationKey conversationId, appendKey conversationId]
  | .scanEntries query _ _ => [conversationKey query.conversationId, appendKey query.conversationId]
  | .task id => [taskKey id]
  | .submission id => [submissionKey id]
  | .submissionByRequest conversationId requestId => [requestKey conversationId requestId]
  | .findDocument address _ => [documentKey (addressId address)]
  | .document id _ => [incarnationKey id]
  | .scanDocuments query _ _ => [scopeKey query.scope]

end OctoberHarness.Transaction
