import OctoberHarness.SessionManager.Entries

/-! `SessionManager`: a conversation session in memory with the file it is kept in.
Writes may fail; every operation reports whether it threw. -/
namespace OctoberHarness.SessionManager

open OrderedMap

/-- How a write goes: it completes, opening the file fails, or it stops with
`written` in the file. -/
inductive Write where
  | completes
  | refused
  | stops (written : JsString)

inductive Ended where
  | returned
  | threw
deriving DecidableEq

/-- What `generateId` draws: its short ids in order, and the UUID it falls back to. -/
structure Draw where
  short : List JsString
  uuid : JsString

def generateId (used : List JsString) (draw : Draw) : JsString :=
  (draw.short.find? fun id => id ∉ used).getD draw.uuid

structure Manager where
  sessionDir : JsString
  cwd : JsString
  sessionId : JsString
  sessionFile : Option JsString
  persist : Bool
  flushed : Bool
  header : Header
  entries : List Entry
  byId : List (JsString × Entry)
  labelsById : List (JsString × JsString)
  labelTimestampsById : List (JsString × JsString)
  leafId : Option JsString

/-- A session and the files of its directory. -/
structure World where
  manager : Manager
  files : List (JsString × JsString)

namespace Manager

def ids (m : Manager) : List JsString :=
  m.byId.map Prod.fst

/-- A label of an entry; an empty one clears it. -/
def setLabel (m : Manager) (targetId : JsString) (label : Option JsString) (timestamp : JsString) : Manager :=
  match label with
  | some (unit :: rest) =>
    { m with
      labelsById := set m.labelsById targetId (unit :: rest)
      labelTimestampsById := set m.labelTimestampsById targetId timestamp }
  | _ =>
    { m with
      labelsById := erase m.labelsById targetId
      labelTimestampsById := erase m.labelTimestampsById targetId }

/-- The entry becomes the leaf. -/
def indexEntry (m : Manager) (entry : Entry) : Manager :=
  { m with byId := set m.byId entry.id entry, leafId := some entry.id }

/-- One entry of `_buildIndex`. -/
def indexed (m : Manager) (entry : Entry) : Manager :=
  match entry.body with
  | .label targetId label => (m.indexEntry entry).setLabel targetId label entry.timestamp
  | _ => m.indexEntry entry

/-- `_buildIndex`. -/
def buildIndex (m : Manager) : Manager :=
  m.entries.foldl indexed { m with byId := [], labelsById := [], labelTimestampsById := [], leafId := none }

/-- The loop of `getBranch`, from an entry up; an empty id names none. -/
def walk (byId : List (JsString × Entry)) : Nat → Option JsString → List Entry
  | fuel + 1, some (unit :: rest) =>
    match byId.lookup (unit :: rest) with
    | some entry => entry :: walk byId fuel entry.parentId
    | none => []
  | _, _ => []

/-- `getBranch`: from the root. -/
def getBranch (m : Manager) (fromId : Option JsString) : List Entry :=
  (walk m.byId m.byId.length (fromId.or m.leafId)).reverse

/-- The name of a session's file. -/
def sessionPath (dir timestamp sessionId : JsString) : JsString :=
  dir ++ js "/" ++ timestamp.map (fun unit => if unit = 58 ∨ unit = 46 then 45 else unit) ++ js "_" ++ sessionId ++
    js ".jsonl"

def newSession (m : Manager) (sessionId timestamp : JsString) (parentSession : Option JsString) : Manager :=
  { m with
    sessionId
    header := ⟨sessionId, timestamp, m.cwd, parentSession⟩
    entries := [], byId := [], labelsById := [], labelTimestampsById := [], leafId := none, flushed := false
    sessionFile := if m.persist then some (sessionPath m.sessionDir timestamp sessionId) else m.sessionFile }

/-- `_hasConversation`. -/
def hasConversation (m : Manager) : Bool :=
  m.entries.any Entry.isConversation

/-- The lines of all file entries. -/
def lines (m : Manager) : JsString :=
  line m.header.json ++ m.entries.flatMap fun entry => line entry.json

end Manager

namespace World

/-- `_rewriteFile`: the file is truncated as it is opened. -/
def rewriteFile (w : World) (write : Write) : Ended × World :=
  match w.manager.persist, w.manager.sessionFile with
  | true, some file =>
    match write with
    | .completes => (.returned, { w with files := set w.files file w.manager.lines })
    | .refused => (.threw, w)
    | .stops written => (.threw, { w with files := set w.files file written })
  | _, _ => (.returned, w)

/-- The first write of `_persist`: it creates the file, so a file that exists is an error. -/
def flush (w : World) (file : JsString) (write : Write) : Ended × World :=
  match w.files.lookup file, write with
  | some _, _ => (.threw, w)
  | none, .completes =>
    (.returned,
      { manager := { w.manager with flushed := true }, files := set w.files file w.manager.lines })
  | none, .refused => (.threw, w)
  | none, .stops written => (.threw, { w with files := set w.files file written })

/-- `appendFileSync`. -/
def appendFile (w : World) (file text : JsString) (write : Write) : Ended × World :=
  match write with
  | .completes => (.returned, { w with files := set w.files file ((w.files.lookup file).getD [] ++ text) })
  | .refused => (.threw, w)
  | .stops written =>
    (.threw, { w with files := set w.files file ((w.files.lookup file).getD [] ++ written) })

/-- `_persist`. -/
def persist (w : World) (entry : Entry) (write : Write) : Ended × World :=
  match w.manager.persist, w.manager.sessionFile with
  | true, some file =>
    if w.manager.flushed then w.appendFile file (line entry.json) write
    else if w.manager.hasConversation then w.flush file write
    else (.returned, w)
  | _, _ => (.returned, w)

/-- The entry in memory. -/
def push (w : World) (entry : Entry) : World :=
  { w with manager := { w.manager with entries := w.manager.entries ++ [entry] }.indexEntry entry }

/-- The rollback of an append that was not written. -/
def pop (w : World) (entry : Entry) (previousLeafId : Option JsString) : World :=
  { w with
    manager :=
      { w.manager with
        entries := w.manager.entries.dropLast
        byId := erase w.manager.byId entry.id
        leafId := previousLeafId } }

/-- `_appendEntry`. -/
def appendEntry (w : World) (entry : Entry) (write : Write) : Ended × World :=
  match (w.push entry).persist entry write with
  | (.returned, next) => (.returned, next)
  | (.threw, next) => (.threw, next.pop entry w.manager.leafId)

def newEntry (w : World) (draw : Draw) (timestamp : JsString) (body : Body) : Entry :=
  ⟨generateId w.manager.ids draw, w.manager.leafId, timestamp, body⟩

def append (w : World) (draw : Draw) (timestamp : JsString) (write : Write) (body : Body) : Ended × World :=
  w.appendEntry (w.newEntry draw timestamp body) write

end World

/-- `name.replace(/[\r\n]+/g, " ")`. -/
def joinLines : JsString → JsString
  | [] => []
  | [unit] => if unit = 13 ∨ unit = 10 then [32] else [unit]
  | unit :: next :: rest =>
    if unit = 13 ∨ unit = 10 then
      if next = 13 ∨ next = 10 then joinLines (next :: rest) else 32 :: joinLines (next :: rest)
    else unit :: joinLines (next :: rest)

/-- Whether a replacement is `null` or has string or array content. -/
def isReplacement (replacement : StrictJson) : Bool :=
  match replacement.val with
  | .null => true
  | .obj fields =>
    match fields.lookup (js "content") with
    | some (.str _) => true
    | some (.arr _) => true
    | _ => false
  | _ => false

def Entry.isEditable (entry : Entry) : Bool :=
  match entry.body with
  | .customMessage .. => true
  | .message message =>
    role message = some (js "user") || role message = some (js "assistant") || role message = some (js "toolResult")
  | _ => false

/-- `{ content: [{ type: "text", text }] }`. -/
def textReplacement (s : JsString) : StrictJson :=
  ⟨.obj [(js "content", .arr [.obj [(js "type", .str (js "text")), (js "text", .str s)]])],
    (JsonValue.strict_obj _).mpr (by
      refine ⟨show OwnKeys [js "content"] by decide, ?_⟩
      intro field hField
      rw [List.mem_singleton.mp hField, JsonValue.strict_arr]
      intro item hItem
      rw [List.mem_singleton.mp hItem, JsonValue.strict_obj]
      refine ⟨show OwnKeys [js "type", js "text"] by decide, ?_⟩
      intro inner hInner
      rcases List.mem_cons.mp hInner with rfl | hRest
      · trivial
      · rw [List.mem_singleton.mp hRest]
        trivial)⟩

/-- The replacement as the entry keeps it: string content of a message with blocks
becomes a text block. -/
def normalizeReplacement (target : Entry) (replacement : StrictJson) : StrictJson :=
  match target.body, replacement.val with
  | .message message, .obj fields =>
    match fields.lookup (js "content") with
    | some (.str s) =>
      if role message = some (js "assistant") ∨ role message = some (js "toolResult") then textReplacement s
      else replacement
    | _ => replacement
  | _, _ => replacement

namespace World

/-! The operations. -/

def appendMessage (w : World) (draw : Draw) (timestamp : JsString) (write : Write) (message : StrictJson) :=
  w.append draw timestamp write (.message message)

def appendThinkingLevelChange (w : World) (draw : Draw) (timestamp : JsString) (write : Write) (thinkingLevel : JsString) :=
  w.append draw timestamp write (.thinkingLevelChange thinkingLevel)

def appendModelChange (w : World) (draw : Draw) (timestamp : JsString) (write : Write) (provider modelId : JsString) :=
  w.append draw timestamp write (.modelChange provider modelId)

/-- An empty note is left out. -/
def appendUsage (w : World) (draw : Draw) (timestamp : JsString) (write : Write) (kind provider model : JsString)
    (usage : StrictJson) (note : Option JsString) :=
  w.append draw timestamp write (.usage kind provider model usage (note.filter (· ≠ [])))

/-- `systemMessage` is what `getCurrentSystemMessage` finds in the projection. -/
def appendCompaction (w : World) (draw : Draw) (timestamp : JsString) (write : Write) (summary : JsString)
    (firstKeptEntryId : Option JsString) (tokensBefore : JsNumber) (details usage fromHook systemMessage : Option StrictJson) :=
  w.append draw timestamp write
    (.compaction summary (firstKeptEntryId.getD (generateId w.manager.ids draw)) tokensBefore details usage fromHook
      systemMessage)

def appendCustomEntry (w : World) (draw : Draw) (timestamp : JsString) (write : Write) (customType : JsString)
    (data : Option StrictJson) :=
  w.append draw timestamp write (.custom customType data)

def appendSessionInfo (w : World) (draw : Draw) (timestamp : JsString) (write : Write) (name : JsString) :=
  w.append draw timestamp write (.sessionInfo (trim (joinLines name)))

def appendCustomMessageEntry (w : World) (draw : Draw) (timestamp : JsString) (write : Write) (customType : JsString)
    (content display : StrictJson) (details : Option StrictJson) :=
  w.append draw timestamp write (.customMessage customType content display details)

def appendContextEdit (w : World) (draw : Draw) (timestamp : JsString) (write : Write) (targetId : JsString)
    (replacement : StrictJson) : Ended × World :=
  if isReplacement replacement then
    match w.manager.byId.lookup targetId with
    | none => (.threw, w)
    | some target =>
      if targetId ∈ (w.manager.getBranch none).map Entry.id ∧ target.isEditable then
        w.append draw timestamp write (.contextEdit targetId (normalizeReplacement target replacement))
      else (.threw, w)
  else (.threw, w)

def appendLabelChange (w : World) (draw : Draw) (timestamp : JsString) (write : Write) (targetId : JsString)
    (label : Option JsString) : Ended × World :=
  if targetId ∈ w.manager.ids then
    match w.append draw timestamp write (.label targetId label) with
    | (.returned, next) => (.returned, { next with manager := next.manager.setLabel targetId label timestamp })
    | (.threw, next) => (.threw, next)
  else (.threw, w)

def branch (w : World) (branchFromId : JsString) : Ended × World :=
  if branchFromId ∈ w.manager.ids then (.returned, { w with manager := { w.manager with leafId := some branchFromId } })
  else (.threw, w)

def resetLeaf (w : World) : Ended × World :=
  (.returned, { w with manager := { w.manager with leafId := none } })

/-- The leaf moves before the summary is appended. -/
def branchWithSummary (w : World) (draw : Draw) (timestamp : JsString) (write : Write) (branchFromId : Option JsString)
    (summary : JsString) (details usage fromHook : Option StrictJson) : Ended × World :=
  if ∀ id ∈ branchFromId, id ∈ w.manager.ids then
    ({ w with manager := { w.manager with leafId := branchFromId } } : World).append draw timestamp write
      (.branchSummary (w.manager.leafId.getD (js "root")) summary details usage fromHook)
  else (.threw, w)

end World

/-! A branch as a session of its own. -/

/-- What the loop over the path builds. -/
structure Rechain where
  kept : List Entry
  replacementByLabelId : List (JsString × JsString)
  pendingLabelIds : List JsString
  pathParentId : Option JsString

/-- A compaction whose first kept entry was a label keeps from what followed it. -/
def rekeep (replacementByLabelId : List (JsString × JsString)) (id : JsString) : Body → Body
  | .compaction summary firstKeptEntryId tokensBefore details usage fromHook systemMessage =>
    .compaction summary
      (if firstKeptEntryId = id then id else (replacementByLabelId.lookup firstKeptEntryId).getD firstKeptEntryId)
      tokensBefore details usage fromHook systemMessage
  | body => body

/-- An entry of the path that is no label. -/
def Rechain.keep (r : Rechain) (entry : Entry) : Rechain where
  kept :=
    r.kept ++ [{ entry with
      parentId := r.pathParentId
      body := rekeep (r.pendingLabelIds.foldl (fun map labelId => set map labelId entry.id)
        r.replacementByLabelId) entry.id entry.body }]
  replacementByLabelId :=
    r.pendingLabelIds.foldl (fun map labelId => set map labelId entry.id) r.replacementByLabelId
  pendingLabelIds := []
  pathParentId := some entry.id

/-- One entry of the path. -/
def Rechain.next (r : Rechain) (entry : Entry) : Rechain :=
  match entry.body with
  | .label .. => { r with pendingLabelIds := r.pendingLabelIds ++ [entry.id] }
  | _ => r.keep entry

def pathWithoutLabels (path : List Entry) : List Entry :=
  (path.foldl Rechain.next ⟨[], [], [], none⟩).kept

/-- The labels of the path's entries, as new entries below it. -/
def labelEntries (labelTimestampsById : List (JsString × JsString)) :
    List JsString → Option JsString → List (JsString × JsString) → (Nat → Draw) → List Entry
  | _, _, [], _ => []
  | used, parentId, (targetId, label) :: rest, draws =>
    ⟨generateId used (draws 0), parentId, (labelTimestampsById.lookup targetId).getD [], .label targetId (some label)⟩ ::
      labelEntries labelTimestampsById (used ++ [generateId used (draws 0)]) (some (generateId used (draws 0))) rest
        fun n => draws (n + 1)

/-- The entries of the branched session. -/
def Manager.branched (m : Manager) (path : List Entry) (draws : Nat → Draw) : List Entry :=
  pathWithoutLabels path ++
    labelEntries m.labelTimestampsById ((pathWithoutLabels path).map Entry.id)
      ((pathWithoutLabels path).getLast?.map Entry.id)
      (m.labelsById.filter fun label => label.1 ∈ (pathWithoutLabels path).map Entry.id) draws

def Manager.toBranched (m : Manager) (path : List Entry) (draws : Nat → Draw) (sessionId timestamp : JsString) : Manager :=
  ({ m with
    header := ⟨sessionId, timestamp, m.cwd, if m.persist then m.sessionFile else none⟩
    entries := m.branched path draws
    sessionId
    sessionFile := if m.persist then some (Manager.sessionPath m.sessionDir timestamp sessionId) else m.sessionFile } :
      Manager).buildIndex

def World.createBranchedSession (w : World) (draws : Nat → Draw) (sessionId timestamp : JsString) (write : Write)
    (leafId : JsString) : Ended × World :=
  match w.manager.getBranch (some leafId) with
  | [] => (.threw, w)
  | path =>
    if w.manager.persist then
      if (w.manager.toBranched path draws sessionId timestamp).hasConversation then
        match ({ w with manager := w.manager.toBranched path draws sessionId timestamp } : World).rewriteFile write with
        | (.returned, next) => (.returned, { next with manager := { next.manager with flushed := true } })
        | (.threw, next) => (.threw, next)
      else
        (.returned,
          { w with manager := { w.manager.toBranched path draws sessionId timestamp with flushed := false } })
    else (.returned, { w with manager := w.manager.toBranched path draws sessionId timestamp })

/-- The operations with what they draw and read from outside. -/
inductive Op where
  | message (message : StrictJson)
  | thinkingLevelChange (thinkingLevel : JsString)
  | modelChange (provider modelId : JsString)
  | usage (kind provider model : JsString) (usage : StrictJson) (note : Option JsString)
  | compaction (summary : JsString) (firstKeptEntryId : Option JsString) (tokensBefore : JsNumber)
      (details usage fromHook systemMessage : Option StrictJson)
  | customEntry (customType : JsString) (data : Option StrictJson)
  | sessionInfo (name : JsString)
  | customMessageEntry (customType : JsString) (content display : StrictJson) (details : Option StrictJson)
  | contextEdit (targetId : JsString) (replacement : StrictJson)
  | labelChange (targetId : JsString) (label : Option JsString)
  | branch (branchFromId : JsString)
  | resetLeaf
  | branchWithSummary (branchFromId : Option JsString) (summary : JsString) (details usage fromHook : Option StrictJson)
  | createBranchedSession (sessionId leafId : JsString)

def World.run (w : World) (draws : Nat → Draw) (timestamp : JsString) (write : Write) : Op → Ended × World
  | .message message => w.appendMessage (draws 0) timestamp write message
  | .thinkingLevelChange thinkingLevel => w.appendThinkingLevelChange (draws 0) timestamp write thinkingLevel
  | .modelChange provider modelId => w.appendModelChange (draws 0) timestamp write provider modelId
  | .usage kind provider model usage note => w.appendUsage (draws 0) timestamp write kind provider model usage note
  | .compaction summary firstKeptEntryId tokensBefore details usage fromHook systemMessage =>
    w.appendCompaction (draws 0) timestamp write summary firstKeptEntryId tokensBefore details usage fromHook
      systemMessage
  | .customEntry customType data => w.appendCustomEntry (draws 0) timestamp write customType data
  | .sessionInfo name => w.appendSessionInfo (draws 0) timestamp write name
  | .customMessageEntry customType content display details =>
    w.appendCustomMessageEntry (draws 0) timestamp write customType content display details
  | .contextEdit targetId replacement => w.appendContextEdit (draws 0) timestamp write targetId replacement
  | .labelChange targetId label => w.appendLabelChange (draws 0) timestamp write targetId label
  | .branch branchFromId => w.branch branchFromId
  | .resetLeaf => w.resetLeaf
  | .branchWithSummary branchFromId summary details usage fromHook =>
    w.branchWithSummary (draws 0) timestamp write branchFromId summary details usage fromHook
  | .createBranchedSession sessionId leafId => w.createBranchedSession draws sessionId timestamp write leafId

end OctoberHarness.SessionManager
