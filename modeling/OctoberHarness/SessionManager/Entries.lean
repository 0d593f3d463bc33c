import OctoberHarness.Json.RoundTrip

/-! The entries of a conversation session and their JSON records. -/
namespace OctoberHarness.SessionManager

/-- What each kind of entry adds to the base. Values that only travel with an entry
are strict JSON; an absent one is a property that is `undefined`. -/
inductive Body where
  | message (message : StrictJson)
  | thinkingLevelChange (thinkingLevel : JsString)
  | modelChange (provider modelId : JsString)
  | usage (kind provider model : JsString) (usage : StrictJson) (note : Option JsString)
  | compaction (summary firstKeptEntryId : JsString) (tokensBefore : JsNumber) (details usage fromHook : Option StrictJson)
      (systemMessage : Option StrictJson)
  | branchSummary (fromId summary : JsString) (details usage fromHook : Option StrictJson)
  | custom (customType : JsString) (data : Option StrictJson)
  | customMessage (customType : JsString) (content display : StrictJson) (details : Option StrictJson)
  | contextEdit (targetId : JsString) (replacement : StrictJson)
  | label (targetId : JsString) (label : Option JsString)
  | sessionInfo (name : JsString)

/-- `SessionEntry`. -/
structure Entry where
  id : JsString
  parentId : Option JsString
  timestamp : JsString
  body : Body

/-- `SessionHeader`. -/
structure Header where
  id : JsString
  timestamp : JsString
  cwd : JsString
  parentSession : Option JsString
deriving DecidableEq

def role (message : StrictJson) : Option JsString :=
  match message.val with
  | .obj fields =>
    match fields.lookup (js "role") with
    | some (.str role) => some role
    | _ => none
  | _ => none

/-- Whether the entry is a user or an assistant message. -/
def Entry.isConversation (entry : Entry) : Bool :=
  match entry.body with
  | .message message => role message = some (js "user") || role message = some (js "assistant")
  | _ => false

/-! The JSON record of an entry. -/

def text (s : JsString) : StrictJson :=
  ⟨.str s, trivial⟩

def textOrNull : Option JsString → StrictJson
  | some s => text s
  | none => ⟨.null, trivial⟩

def number (n : JsNumber) : StrictJson :=
  ⟨.num n, trivial⟩

/-- An object literal; `JSON.stringify` leaves out what is `undefined`. -/
def record (fields : List (String × Option StrictJson)) : JsonValue :=
  .obj (fields.filterMap fun field => field.2.map fun value => (js field.1, value.val))

def Entry.place (entry : Entry) : List (String × Option StrictJson) :=
  [("id", some (text entry.id)), ("parentId", some (textOrNull entry.parentId)),
    ("timestamp", some (text entry.timestamp))]

/-- The properties of an entry in the order of its literal. -/
def Entry.fields (entry : Entry) : List (String × Option StrictJson) :=
  match entry.body with
  | .message message => ("type", some (text (js "message"))) :: entry.place ++ [("message", some message)]
  | .thinkingLevelChange thinkingLevel =>
    ("type", some (text (js "thinking_level_change"))) :: entry.place ++ [("thinkingLevel", some (text thinkingLevel))]
  | .modelChange provider modelId =>
    ("type", some (text (js "model_change"))) :: entry.place ++
      [("provider", some (text provider)), ("modelId", some (text modelId))]
  | .usage kind provider model usage note =>
    ("type", some (text (js "usage"))) :: entry.place ++
      [("kind", some (text kind)), ("provider", some (text provider)), ("model", some (text model)),
        ("usage", some usage), ("note", note.map text)]
  | .compaction summary firstKeptEntryId tokensBefore details usage fromHook systemMessage =>
    ("type", some (text (js "compaction"))) :: entry.place ++
      [("summary", some (text summary)), ("firstKeptEntryId", some (text firstKeptEntryId)),
        ("tokensBefore", some (number tokensBefore)), ("details", details), ("usage", usage),
        ("fromHook", fromHook), ("systemMessage", systemMessage)]
  | .branchSummary fromId summary details usage fromHook =>
    ("type", some (text (js "branch_summary"))) :: entry.place ++
      [("fromId", some (text fromId)), ("summary", some (text summary)), ("details", details), ("usage", usage),
        ("fromHook", fromHook)]
  | .custom customType data =>
    [("type", some (text (js "custom"))), ("customType", some (text customType)), ("data", data)] ++ entry.place
  | .customMessage customType content display details =>
    [("type", some (text (js "custom_message"))), ("customType", some (text customType)), ("content", some content),
      ("display", some display), ("details", details)] ++ entry.place
  | .contextEdit targetId replacement =>
    ("type", some (text (js "context_edit"))) :: entry.place ++
      [("targetId", some (text targetId)), ("replacement", some replacement)]
  | .label targetId label =>
    ("type", some (text (js "label"))) :: entry.place ++
      [("targetId", some (text targetId)), ("label", label.map text)]
  | .sessionInfo name => ("type", some (text (js "session_info"))) :: entry.place ++ [("name", some (text name))]

def Entry.json (entry : Entry) : JsonValue :=
  record entry.fields

/-- `CURRENT_SESSION_VERSION`. -/
def currentVersion : JsNumber :=
  .ofNat 3

def Header.json (header : Header) : JsonValue :=
  record
    [("type", some (text (js "session"))), ("version", some (number currentVersion)), ("id", some (text header.id)),
      ("timestamp", some (text header.timestamp)), ("cwd", some (text header.cwd)),
      ("parentSession", header.parentSession.map text)]

/-- One line of the session file. -/
def line (json : JsonValue) : JsString :=
  json.stringify ++ [10]

/-! Records are strict JSON. -/

instance (keys : List JsString) : Decidable (OwnKeys keys) :=
  inferInstanceAs (Decidable (_ ∧ _))

theorem ownKeys_sublist {keys more : List JsString} (h : OwnKeys more) (hSublist : keys.Sublist more) : OwnKeys keys :=
  ⟨h.1.sublist hSublist, h.2.sublist hSublist⟩

theorem record_keys (fields : List (String × Option StrictJson)) :
    ((fields.filterMap fun field => field.2.map fun value => (js field.1, value.val)).map Prod.fst).Sublist
      (fields.map fun field => js field.1) := by
  induction fields with
  | nil => exact List.Sublist.refl _
  | cons field rest ih =>
    obtain ⟨key, value⟩ := field
    cases value with
    | none => exact ih.cons _
    | some value => exact ih.cons_cons _

theorem strict_record {fields : List (String × Option StrictJson)} (h : OwnKeys (fields.map fun field => js field.1)) :
    (record fields).Strict := by
  rw [record, JsonValue.strict_obj]
  refine ⟨ownKeys_sublist h (record_keys fields), ?_⟩
  intro field hField
  obtain ⟨source, -, hSource⟩ := List.mem_filterMap.mp hField
  obtain ⟨value, -, rfl⟩ := Option.map_eq_some_iff.mp hSource
  exact value.property

theorem strict_json (entry : Entry) : entry.json.Strict := by
  obtain ⟨id, parentId, timestamp, body⟩ := entry
  apply strict_record
  cases body with
  | message message =>
    show OwnKeys (["type", "id", "parentId", "timestamp", "message"].map js)
    decide
  | thinkingLevelChange thinkingLevel =>
    show OwnKeys (["type", "id", "parentId", "timestamp", "thinkingLevel"].map js)
    decide
  | modelChange provider modelId =>
    show OwnKeys (["type", "id", "parentId", "timestamp", "provider", "modelId"].map js)
    decide
  | usage kind provider model usage note =>
    show OwnKeys (["type", "id", "parentId", "timestamp", "kind", "provider", "model", "usage", "note"].map js)
    decide
  | compaction summary firstKeptEntryId tokensBefore details usage fromHook systemMessage =>
    show OwnKeys (["type", "id", "parentId", "timestamp", "summary", "firstKeptEntryId", "tokensBefore", "details",
      "usage", "fromHook", "systemMessage"].map js)
    decide
  | branchSummary fromId summary details usage fromHook =>
    show OwnKeys (["type", "id", "parentId", "timestamp", "fromId", "summary", "details", "usage", "fromHook"].map js)
    decide
  | custom customType data =>
    show OwnKeys (["type", "customType", "data", "id", "parentId", "timestamp"].map js)
    decide
  | customMessage customType content display details =>
    show OwnKeys (["type", "customType", "content", "display", "details", "id", "parentId", "timestamp"].map js)
    decide
  | contextEdit targetId replacement =>
    show OwnKeys (["type", "id", "parentId", "timestamp", "targetId", "replacement"].map js)
    decide
  | label targetId label =>
    show OwnKeys (["type", "id", "parentId", "timestamp", "targetId", "label"].map js)
    decide
  | sessionInfo name =>
    show OwnKeys (["type", "id", "parentId", "timestamp", "name"].map js)
    decide

theorem strict_header (header : Header) : header.json.Strict := by
  apply strict_record
  show OwnKeys (["type", "version", "id", "timestamp", "cwd", "parentSession"].map js)
  decide

end OctoberHarness.SessionManager
