import Mathlib.Data.List.TakeWhile
import OctoberHarness.Json.Lines
import OctoberHarness.SessionManager.Tree

/-! The file of a session against the session in memory. -/
namespace OctoberHarness.SessionManager

open List

/-! Loading a file. -/

/-- The full lines of a text, and what stands after its last line break. -/
def splitLines (pending : JsString) : JsString → List JsString × JsString
  | [] => ([], pending)
  | unit :: rest =>
    if unit = 10 then (pending :: (splitLines [] rest).1, (splitLines [] rest).2)
    else splitLines (pending ++ [unit]) rest

/-- `parseSessionEntryLine`; a value that is not pushed is left out too. -/
def parseSessionEntryLine (line : JsString) : Option JsonValue :=
  if trim line = [] then none else (JsonText.parse line).filter truthy

def parsedLines (content : JsString) : List JsonValue :=
  ((splitLines [] content).1 ++ [(splitLines [] content).2]).filterMap parseSessionEntryLine

def isHeader : JsonValue → Bool
  | .obj fields =>
    match fields.lookup (js "type"), fields.lookup (js "id") with
    | some (.str type), some (.str _) => type = js "session"
    | _, _ => false
  | _ => false

/-- `loadEntriesFromFile`, with the file it leaves: a last line without its break gets one. -/
def loadEntries (content : JsString) : List JsonValue × JsString :=
  match parsedLines content with
  | [] => ([], content)
  | header :: entries =>
    if isHeader header then
      (header :: entries, if (splitLines [] content).2 = [] then content else content ++ [10])
    else ([], content)

/-- What loading the session's file gives. -/
def World.loaded (w : World) : List JsonValue :=
  match w.manager.sessionFile.bind fun file => w.files.lookup file with
  | some content => (loadEntries content).1
  | none => []

/-- Every line of the text is ended. -/
def Whole (content : JsString) : Prop :=
  (splitLines [] content).2 = []

theorem splitLines_append (pending first second : JsString) :
    splitLines pending (first ++ second) =
      ((splitLines pending first).1 ++ (splitLines (splitLines pending first).2 second).1,
        (splitLines (splitLines pending first).2 second).2) := by
  induction first generalizing pending with
  | nil => rfl
  | cons unit rest ih =>
    rw [cons_append, splitLines, splitLines]
    split_ifs
    · rw [ih]
      rfl
    · exact ih _

theorem splitLines_printable {s : JsString} (h : JsonText.Printable s) (pending : JsString) :
    splitLines pending (s ++ [10]) = ([pending ++ s], []) := by
  induction s generalizing pending with
  | nil =>
    rw [append_nil]
    rfl
  | cons unit rest ih =>
    have hUnit : unit ≠ 10 := by
      rintro rfl
      exact absurd (h 10 mem_cons_self) (by decide)
    rw [cons_append, splitLines, if_neg hUnit, ih fun other hOther => h other (mem_cons_of_mem _ hOther),
      append_assoc]
    rfl

theorem trim_ne_nil {unit : UInt16} (h : isBlank unit = false) (rest : JsString) : trim (unit :: rest) ≠ [] := by
  rw [trim, dropWhile_cons_of_neg (by rw [h]; exact Bool.false_ne_true), ne_eq, reverse_eq_nil_iff,
    dropWhile_eq_nil_iff]
  intro hBlank
  have hUnit := hBlank unit (List.mem_reverse.mpr mem_cons_self)
  rw [h] at hUnit
  exact Bool.false_ne_true hUnit

theorem parse_record {fields : List (String × Option StrictJson)} (hStrict : (record fields).Strict) :
    parseSessionEntryLine (record fields).stringify = some (record fields) := by
  have hText : trim (record fields).stringify ≠ [] := trim_ne_nil (by decide) _
  rw [parseSessionEntryLine, if_neg hText, JsonText.parse_stringify _ hStrict]
  rfl

variable {content : JsString} {w : World} {write : Write}

theorem parsedLines_line (hWhole : Whole content) {fields : List (String × Option StrictJson)}
    (hStrict : (record fields).Strict) :
    Whole (content ++ line (record fields)) ∧
      parsedLines (content ++ line (record fields)) = parsedLines content ++ [record fields] := by
  have hSplit : splitLines [] (content ++ line (record fields)) =
      ((splitLines [] content).1 ++ [(record fields).stringify], []) := by
    rw [splitLines_append, hWhole, line, splitLines_printable (JsonText.printable_stringify _)]
    rfl
  have hBlank : [[]].filterMap parseSessionEntryLine = [] := rfl
  refine ⟨by rw [Whole, hSplit], ?_⟩
  rw [parsedLines, parsedLines, hSplit, hWhole, filterMap_append, filterMap_append, hBlank, append_nil,
    filterMap_append, hBlank, append_nil]
  exact congrArg _ (filterMap_cons_some (parse_record hStrict))

theorem parsedLines_entries (hWhole : Whole content) (entries : List Entry) :
    Whole (content ++ entries.flatMap fun entry => line entry.json) ∧
      parsedLines (content ++ entries.flatMap fun entry => line entry.json) =
        parsedLines content ++ entries.map Entry.json := by
  induction entries generalizing content with
  | nil =>
    rw [flatMap_nil, append_nil, map_nil, append_nil]
    exact ⟨hWhole, rfl⟩
  | cons entry rest ih =>
    obtain ⟨hLine, hParsed⟩ := parsedLines_line hWhole (strict_json entry)
    obtain ⟨hRest, hParsedRest⟩ := ih hLine
    rw [flatMap_cons, ← append_assoc]
    refine ⟨hRest, hParsedRest.trans ?_⟩
    rw [hParsed, append_assoc]
    rfl

theorem parsedLines_lines (m : Manager) :
    Whole m.lines ∧ parsedLines m.lines = m.header.json :: m.entries.map Entry.json := by
  obtain ⟨hWhole, hHeader⟩ := @parsedLines_line [] rfl _ (strict_header m.header)
  obtain ⟨hLines, hParsed⟩ := parsedLines_entries hWhole m.entries
  refine ⟨hLines, hParsed.trans ?_⟩
  rw [hHeader]
  rfl

variable {entries : List JsonValue}

theorem loadEntries_header {header : Header}
    (h : parsedLines content = header.json :: entries) : (loadEntries content).1 = header.json :: entries := by
  have hHeader : isHeader header.json = true := by
    have hType : (js "id" == js "type") = false := by decide
    have hVersion : (js "id" == js "version") = false := by decide
    obtain ⟨rest, hJson⟩ : ∃ rest, header.json = .obj ((js "type", .str (js "session")) ::
        (js "version", .num currentVersion) :: (js "id", .str header.id) :: rest) := ⟨_, rfl⟩
    simp only [hJson, isHeader, lookup_cons, beq_self_eq_true, hType, hVersion, decide_true]
  rw [loadEntries, h]
  simp only [hHeader, if_true]

/-! The file and the session in memory. -/

/-- The session is persisted; it has no file before its conversation, and then its
file holds it. -/
inductive InLine (w : World) : Prop where
  | unwritten {file : JsString} (persist : w.manager.persist = true) (hFile : w.manager.sessionFile = some file)
      (hFlushed : w.manager.flushed = false) (hAbsent : w.files.lookup file = none)
      (hNone : w.manager.hasConversation = false)
  | written {file content : JsString} (persist : w.manager.persist = true) (hFile : w.manager.sessionFile = some file)
      (hFlushed : w.manager.flushed = true) (hContent : w.files.lookup file = some content) (hWhole : Whole content)
      (hParsed : parsedLines content = w.manager.header.json :: w.manager.entries.map Entry.json)

theorem InLine.of_same {next : World} (h : InLine w) (hPersist : next.manager.persist = w.manager.persist)
    (hFile : next.manager.sessionFile = w.manager.sessionFile) (hFlushed : next.manager.flushed = w.manager.flushed)
    (hHeader : next.manager.header = w.manager.header) (hEntries : next.manager.entries = w.manager.entries)
    (hFiles : next.files = w.files) : InLine next := by
  cases h with
  | unwritten persist file flushed hAbsent hNone =>
    refine .unwritten (hPersist.trans persist) (hFile.trans file) (hFlushed.trans flushed) (hFiles ▸ hAbsent) ?_
    rwa [Manager.hasConversation, hEntries]
  | written persist file flushed hContent hWhole hParsed =>
    exact .written (hPersist.trans persist) (hFile.trans file) (hFlushed.trans flushed) (hFiles ▸ hContent) hWhole
      (by rw [hHeader, hEntries, hParsed])

/-- A write that fails leaves the file as it was: it adds nothing to it, and the first
one does not create it. -/
def Leaves (w : World) : Write → Prop
  | .stops written => w.manager.flushed = true ∧ written = []
  | _ => True

/-- What an operation leaves: file and memory in line, and the session with `added`
if it returned. -/
structure Keeps (w : World) (ended : Ended) (next : World) (added : List Entry) : Prop where
  inLine : InLine next
  header : next.manager.header = w.manager.header
  returned : ended = .returned → next.manager.entries = w.manager.entries ++ added
  threw : ended = .threw → next.manager.entries = w.manager.entries

theorem Keeps.still (h : InLine w) (ended : Ended) : Keeps w ended w [] :=
  ⟨h, rfl, fun _ => (append_nil _).symm, fun _ => rfl⟩

theorem InLine.appendEntry (h : InLine w) (entry : Entry) (hLeaves : Leaves w write) :
    Keeps w (w.appendEntry entry write).1 (w.appendEntry entry write).2 [entry] ∧
      (write = .completes → (w.appendEntry entry write).1 = .returned) := by
  have hPop : (w.manager.entries ++ [entry]).dropLast = w.manager.entries := dropLast_concat
  cases h with
  | @unwritten file persist hFile hFlushed hAbsent hNone =>
    have hPush : (w.push entry).manager.hasConversation = entry.isConversation := by
      show (w.manager.entries ++ [entry]).any Entry.isConversation = entry.isConversation
      rw [any_append, show w.manager.entries.any Entry.isConversation = false from hNone]
      simp
    have hPersist : (w.push entry).persist entry write =
        if entry.isConversation then (w.push entry).flush file write else (.returned, w.push entry) := by
      rw [World.persist, show (w.push entry).manager.persist = true from persist,
        show (w.push entry).manager.sessionFile = some file from hFile]
      simp only [show (w.push entry).manager.flushed = false from hFlushed, hPush, Bool.false_eq_true, if_false]
    rw [World.appendEntry, hPersist]
    by_cases hBegins : entry.isConversation = true
    · rw [if_pos hBegins]
      have hLookup : (w.push entry).files.lookup file = none := hAbsent
      cases write with
      | completes =>
        simp only [World.flush, hLookup]
        obtain ⟨hWhole, hParsed⟩ := parsedLines_lines (w.push entry).manager
        exact ⟨⟨.written persist hFile rfl (OrderedMap.lookup_set_self _ _ _) hWhole hParsed, rfl, fun _ => rfl,
          (fun h => by cases h)⟩, fun _ => trivial⟩
      | refused =>
        simp only [World.flush, hLookup]
        refine ⟨⟨InLine.of_same (.unwritten persist hFile hFlushed hAbsent hNone) rfl rfl rfl rfl hPop rfl, rfl, (fun h => by cases h),
          fun _ => hPop⟩, (fun h => by cases h)⟩
      | stops written =>
        have hFalse := hLeaves.1
        rw [hFlushed] at hFalse
        cases hFalse
    · rw [if_neg hBegins]
      refine ⟨⟨.unwritten persist hFile hFlushed hAbsent ?_, rfl, fun _ => rfl, (fun h => by cases h)⟩, fun _ => rfl⟩
      rw [hPush]
      exact Bool.eq_false_iff.mpr hBegins
  | @written file content persist hFile hFlushed hContent hWhole hParsed =>
    have hPersist : (w.push entry).persist entry write = (w.push entry).appendFile file (line entry.json) write := by
      rw [World.persist, show (w.push entry).manager.persist = true from persist,
        show (w.push entry).manager.sessionFile = some file from hFile]
      simp only [show (w.push entry).manager.flushed = true from hFlushed, if_true]
    rw [World.appendEntry, hPersist]
    have hBefore : ((w.push entry).files.lookup file).getD [] = content := by
      rw [show (w.push entry).files.lookup file = some content from hContent]
      rfl
    cases write with
    | completes =>
      simp only [World.appendFile, hBefore]
      obtain ⟨hLine, hAdded⟩ := parsedLines_line hWhole (strict_json entry)
      refine ⟨⟨.written persist hFile hFlushed (OrderedMap.lookup_set_self _ _ _) hLine ?_, rfl, fun _ => rfl, (fun h => by cases h)⟩,
        fun _ => trivial⟩
      refine hAdded.trans ?_
      rw [hParsed]
      show _ = w.manager.header.json :: (w.manager.entries ++ [entry]).map Entry.json
      rw [map_append]
      rfl
    | refused =>
      refine ⟨⟨InLine.of_same (.written persist hFile hFlushed hContent hWhole hParsed) rfl rfl rfl rfl hPop rfl, rfl,
        (fun h => by cases h), fun _ => hPop⟩, (fun h => by cases h)⟩
    | stops written =>
      obtain ⟨-, rfl⟩ := hLeaves
      simp only [World.appendFile, hBefore, append_nil]
      refine ⟨⟨.written persist hFile hFlushed (OrderedMap.lookup_set_self _ _ _) hWhole ?_, rfl, (fun h => by cases h), fun _ => hPop⟩,
        (fun h => by cases h)⟩
      rw [hParsed]
      show _ = w.manager.header.json :: (w.manager.entries ++ [entry]).dropLast.map Entry.json
      rw [hPop]

theorem setLabel_file (m : Manager) (targetId : JsString) (label : Option JsString) (timestamp : JsString) :
    (m.setLabel targetId label timestamp).persist = m.persist ∧
      (m.setLabel targetId label timestamp).sessionFile = m.sessionFile ∧
      (m.setLabel targetId label timestamp).flushed = m.flushed := by
  cases label with
  | none => exact ⟨rfl, rfl, rfl⟩
  | some label => cases label <;> exact ⟨rfl, rfl, rfl⟩

theorem Keeps.setLabel {next : World} {ended : Ended} {added : List Entry} (h : Keeps w ended next added)
    (targetId : JsString) (label : Option JsString) (timestamp : JsString) :
    Keeps w ended { next with manager := next.manager.setLabel targetId label timestamp } added := by
  obtain ⟨hEntries, -, -, hHeader⟩ := setLabel_frame next.manager targetId label timestamp
  obtain ⟨hPersist, hFile, hFlushed⟩ := setLabel_file next.manager targetId label timestamp
  exact ⟨h.inLine.of_same hPersist hFile hFlushed hHeader hEntries rfl, hHeader.trans h.header,
    fun hReturned => hEntries.trans (h.returned hReturned), fun hThrew => hEntries.trans (h.threw hThrew)⟩

theorem InLine.append (h : InLine w) (draw : Draw) (timestamp : JsString) (hLeaves : Leaves w write) (body : Body) :
    ∃ added, Keeps w (w.append draw timestamp write body).1 (w.append draw timestamp write body).2 added :=
  ⟨_, (h.appendEntry (w.newEntry draw timestamp body) hLeaves).1⟩

/-- Every operation that stays in the session's file keeps file and memory in line. -/
theorem InLine.run (h : InLine w) (draws : Nat → Draw) (timestamp : JsString)
    (hLeaves : Leaves w write) {op : Op} (hOp : ∀ sessionId leafId, op ≠ .createBranchedSession sessionId leafId) :
    ∃ added, Keeps w (w.run draws timestamp write op).1 (w.run draws timestamp write op).2 added := by
  cases op with
  | contextEdit targetId replacement =>
    rw [World.run, World.appendContextEdit]
    split_ifs
    · cases w.manager.byId.lookup targetId with
      | none => exact ⟨[], .still h _⟩
      | some target =>
        simp only
        split_ifs
        · exact h.append _ _ hLeaves _
        · exact ⟨[], .still h _⟩
    · exact ⟨[], .still h _⟩
  | labelChange targetId label =>
    rw [World.run, World.appendLabelChange]
    split_ifs
    · obtain ⟨added, hAdded⟩ := h.append (draws 0) timestamp hLeaves (.label targetId label)
      cases hAppend : w.append (draws 0) timestamp write (.label targetId label) with
      | mk ended next =>
        rw [hAppend] at hAdded
        cases ended with
        | returned => exact ⟨added, hAdded.setLabel targetId label timestamp⟩
        | threw => exact ⟨added, hAdded⟩
    · exact ⟨[], .still h _⟩
  | branch branchFromId =>
    rw [World.run, World.branch]
    split_ifs
    · exact ⟨[], h.of_same rfl rfl rfl rfl rfl rfl, rfl, fun _ => (append_nil _).symm, fun _ => rfl⟩
    · exact ⟨[], .still h _⟩
  | resetLeaf => exact ⟨[], h.of_same rfl rfl rfl rfl rfl rfl, rfl, fun _ => (append_nil _).symm, fun _ => rfl⟩
  | branchWithSummary branchFromId summary details usage fromHook =>
    rw [World.run, World.branchWithSummary]
    split_ifs
    · have hMoved : InLine { w with manager := { w.manager with leafId := branchFromId } } :=
        h.of_same rfl rfl rfl rfl rfl rfl
      have hMovedLeaves : Leaves { w with manager := { w.manager with leafId := branchFromId } } write := by
        cases write <;> exact hLeaves
      obtain ⟨added, hAdded⟩ := hMoved.append (draws 0) timestamp hMovedLeaves
        (.branchSummary (w.manager.leafId.getD (js "root")) summary details usage fromHook)
      exact ⟨added, hAdded.inLine, hAdded.header, hAdded.returned, hAdded.threw⟩
    · exact ⟨[], .still h _⟩
  | createBranchedSession sessionId leafId => exact absurd rfl (hOp sessionId leafId)
  | _ => exact h.append _ _ hLeaves _

/-- A persisted session that has no file yet, or whose file was opened. -/
inductive Persisted : World → Prop where
  | created (m : Manager) (files : List (JsString × JsString)) (sessionId timestamp : JsString)
      (parentSession : Option JsString) (persist : m.persist = true)
      (hNew : files.lookup (Manager.sessionPath m.sessionDir timestamp sessionId) = none) :
      Persisted ⟨m.newSession sessionId timestamp parentSession, files⟩
  | opened (w : World) {file content : JsString} (persist : w.manager.persist = true)
      (hFile : w.manager.sessionFile = some file) (hFlushed : w.manager.flushed = true)
      (hContent : w.files.lookup file = some (loadEntries content).2)
      (hLoaded : (loadEntries content).1 = w.manager.header.json :: w.manager.entries.map Entry.json) : Persisted w

/-- Runs of operations in one session file, with the entries whose append returned;
`allowed` says how a write may go. -/
inductive Appending (allowed : World → Write → Prop) (start : World) : List Entry → World → Prop where
  | start : Appending allowed start [] start
  | returned {appended : List Entry} {w next : World} (earlier : Appending allowed start appended w) (draws : Nat → Draw)
      (timestamp : JsString) {write : Write} (hWrite : allowed w write) {op : Op}
      (hOp : ∀ sessionId leafId, op ≠ .createBranchedSession sessionId leafId)
      (hRun : w.run draws timestamp write op = (.returned, next)) :
      Appending allowed start (appended ++ next.manager.entries.drop w.manager.entries.length) next
  | threw {appended : List Entry} {w next : World} (earlier : Appending allowed start appended w) (draws : Nat → Draw)
      (timestamp : JsString) {write : Write} (hWrite : allowed w write) {op : Op}
      (hOp : ∀ sessionId leafId, op ≠ .createBranchedSession sessionId leafId)
      (hRun : w.run draws timestamp write op = (.threw, next)) : Appending allowed start appended next

/-- What loading should give: nothing before the conversation, then the header and the entries. -/
def World.kept (w : World) (header : Header) (entries : List Entry) : List JsonValue :=
  if w.manager.flushed || w.manager.hasConversation then header.json :: entries.map Entry.json else []

/-- The session in memory is the header with these entries, and so is what loading gives. -/
def Holds (w : World) (header : Header) (entries : List Entry) : Prop :=
  w.manager.entries = entries ∧ w.loaded = w.kept header entries

theorem loadEntries_parsed {header : Header} (h : (loadEntries content).1 = header.json :: entries) :
    Whole (loadEntries content).2 ∧ parsedLines (loadEntries content).2 = header.json :: entries := by
  rw [loadEntries] at h ⊢
  cases hParsed : parsedLines content with
  | nil =>
    rw [hParsed] at h
    exact nomatch h
  | cons first rest =>
    rw [hParsed] at h
    simp only at h ⊢
    split_ifs at h ⊢ with hHeader hWhole
    · exact ⟨hWhole, hParsed.trans h⟩
    · have hSplit : splitLines [] (content ++ [10]) =
          ((splitLines [] content).1 ++ [(splitLines [] content).2], []) := by
        rw [splitLines_append]
        rfl
      have hBlank : [[]].filterMap parseSessionEntryLine = [] := rfl
      refine ⟨by rw [Whole, hSplit], ?_⟩
      rw [parsedLines, hSplit, filterMap_append, hBlank, append_nil]
      exact hParsed.trans h

theorem Persisted.inLine (h : Persisted w) : InLine w := by
  cases h with
  | created m files sessionId timestamp parentSession persist hNew =>
    refine .unwritten persist ?_ rfl hNew rfl
    rw [Manager.newSession, persist]
    rfl
  | opened w persist hFile hFlushed hContent hLoaded =>
    obtain ⟨hWhole, hParsed⟩ := loadEntries_parsed hLoaded
    exact .written persist hFile hFlushed hContent hWhole hParsed

theorem InLine.holds (h : InLine w) : Holds w w.manager.header w.manager.entries := by
  refine ⟨rfl, ?_⟩
  rw [World.loaded, World.kept]
  cases h with
  | unwritten persist hFile hFlushed hAbsent hNone =>
    rw [hFile, Option.bind_some, hAbsent, hFlushed, hNone]
    rfl
  | written persist hFile hFlushed hContent hWhole hParsed =>
    rw [hFile, Option.bind_some, hContent, hFlushed]
    exact loadEntries_header hParsed

theorem Appending.inLine {start : World} {appended : List Entry} (hStart : Persisted start)
    (h : Appending Leaves start appended w) :
    InLine w ∧ w.manager.header = start.manager.header ∧ w.manager.entries = start.manager.entries ++ appended := by
  induction h with
  | start => exact ⟨hStart.inLine, rfl, (append_nil _).symm⟩
  | returned _ draws timestamp hWrite hOp hRun ih =>
    obtain ⟨hLine, hHeader, hEntries⟩ := ih
    obtain ⟨added, hKeeps⟩ := hLine.run draws timestamp hWrite hOp
    rw [hRun] at hKeeps
    refine ⟨hKeeps.inLine, hKeeps.header.trans hHeader, ?_⟩
    rw [hKeeps.returned rfl, drop_left, ← append_assoc, hEntries]
  | threw _ draws timestamp hWrite hOp hRun ih =>
    obtain ⟨hLine, hHeader, hEntries⟩ := ih
    obtain ⟨added, hKeeps⟩ := hLine.run draws timestamp hWrite hOp
    rw [hRun] at hKeeps
    exact ⟨hKeeps.inLine, hKeeps.header.trans hHeader, (hKeeps.threw rfl).trans hEntries⟩

/-- If writes that fail leave the file as it was, loading the file gives the header and
the entries whose append returned, and an append whose write completes is kept. -/
theorem session_file {start w : World} {appended : List Entry} (hStart : Persisted start)
    (h : Appending Leaves start appended w) :
    Holds w start.manager.header (start.manager.entries ++ appended) ∧
      ∀ draw timestamp body, (w.append draw timestamp .completes body).1 = .returned ∧
        Holds (w.append draw timestamp .completes body).2 start.manager.header
          (start.manager.entries ++ appended ++ [w.newEntry draw timestamp body]) := by
  obtain ⟨hLine, hHeader, hEntries⟩ := h.inLine hStart
  refine ⟨hHeader ▸ hEntries ▸ hLine.holds, fun draw timestamp body => ?_⟩
  have hLeaves : Leaves w .completes := trivial
  obtain ⟨hKeeps, hReturned⟩ := hLine.appendEntry (w.newEntry draw timestamp body) hLeaves
  have hAppended := hKeeps.inLine.holds
  rw [hKeeps.header, hKeeps.returned (hReturned rfl), hHeader, hEntries] at hAppended
  exact ⟨hReturned rfl, hAppended⟩

/-! Writes that stop on their way. -/

/-- A persisted session before its first entry. -/
def unasked : World :=
  ⟨blank.newSession (js "s") (js "t") none, []⟩

theorem unasked_persisted : Persisted unasked :=
  .created blank [] (js "s") (js "t") none rfl rfl

theorem question_stays (sessionId leafId : JsString) : question ≠ .createBranchedSession sessionId leafId :=
  nofun

theorem asked_appending : Appending Leaves unasked asked.manager.entries asked := by
  have hLeaves : Leaves unasked .completes := trivial
  have hRun : unasked.run drawn (js "t") .completes question = (.returned, asked) := rfl
  exact .returned .start drawn (js "t") hLeaves question_stays hRun

theorem session_file_asked :
    Holds asked unasked.manager.header (unasked.manager.entries ++ asked.manager.entries) ∧
      ∀ draw timestamp body, (asked.append draw timestamp .completes body).1 = .returned ∧
        Holds (asked.append draw timestamp .completes body).2 unasked.manager.header
          (unasked.manager.entries ++ asked.manager.entries ++ [asked.newEntry draw timestamp body]) :=
  session_file unasked_persisted asked_appending

/-- The session after a first write that created its file and stopped. -/
def stopped : World :=
  (unasked.run drawn (js "t") (.stops []) question).2

/-- The session after an append that stopped at its first unit. -/
def torn : World :=
  (asked.run drawn (js "t") (.stops (js "\x7b")) question).2

/-- No later append succeeds after a first write that created the file and stopped, and
an append after a torn line is lost with it. -/
theorem appends_lost :
    (¬∀ start appended w, Persisted start → Appending (fun _ _ => True) start appended w →
      Holds w start.manager.header (start.manager.entries ++ appended) ∧
        ∀ draw timestamp body, (w.append draw timestamp .completes body).1 = .returned ∧
          Holds (w.append draw timestamp .completes body).2 start.manager.header
            (start.manager.entries ++ appended ++ [w.newEntry draw timestamp body])) ∧
      (torn.append (drawn 0) (js "t") .completes (.sessionInfo [])).1 = .returned ∧
        (torn.append (drawn 0) (js "t") .completes (.sessionInfo [])).2.loaded.length = asked.loaded.length := by
  refine ⟨fun hAll => ?_, rfl, ?_⟩
  · have hRun : unasked.run drawn (js "t") (.stops []) question = (.threw, stopped) := rfl
    have hReturned := ((hAll unasked [] stopped unasked_persisted
      (.threw .start drawn (js "t") trivial question_stays hRun)).2 (drawn 0) (js "t") (.message ask)).1
    exact nomatch (show Ended.threw = .returned from hReturned)
  · decide +kernel

end OctoberHarness.SessionManager
