import OctoberHarness.Storage.SqliteRead

/-! What the reads of a storage are for: each one over the rows of its tables,
without indexes, loops or limits on the way. -/
namespace OctoberHarness.Storage.View

open List Option

variable {α : Type}

/-- The ids that a scan has still to visit. -/
def passes (start : ScanStart) (id : Nat) : Bool :=
  match start.order with
  | .ascending => start.after.all fun after => decide (after < (id : Int))
  | .descending => start.after.all fun after => decide ((id : Int) < after)

/-- Values in key order, in the order of a scan. -/
def ordered (order : ScanOrder) (values : List α) : List α :=
  match order with
  | .ascending => values
  | .descending => values.reverse

/-- The values of a scan, one more than the limit at most. -/
def scan (rows : List (Nat × α)) (keep : α → Bool) (start : ScanStart) (limit : Nat) : List α :=
  (ordered start.order ((rows.filter fun row => keep row.2 && passes start row.1).map Prod.snd)).take (limit + 1)

/-- A conversation whose chain reaches one without a parent in that many steps. -/
def Rooted (conversations : List (Nat × ConversationRecord)) : Nat → Nat → Prop
  | 0, id => ∃ record, conversations.lookup id = some record ∧ record.parent = none
  | steps + 1, id =>
    ∃ record parent, conversations.lookup id = some record ∧ record.parent = some parent ∧
      Rooted conversations steps parent.conversationId

/-- The conversations a conversation sees, each with the last entry seen of it. -/
def chain (conversations : List (Nat × ConversationRecord)) : Nat → Nat → Option Int → List (Nat × Option Int)
  | 0, _, _ => []
  | fuel + 1, id, upper =>
    (id, upper) ::
      match (conversations.lookup id).bind ConversationRecord.parent with
      | none => []
      | some parent => chain conversations fuel parent.conversationId (narrowUpper upper parent.atEntry)

/-- Every stored conversation has a chain, shorter than their number. -/
def Forest (conversations : List (Nat × ConversationRecord)) : Prop :=
  ∀ id, conversations.lookup id ≠ none → ∃ steps < conversations.length, Rooted conversations steps id

/-- The entries of a segment, newest first. -/
def segmentRows (entries : List (Nat × StoredEntry)) (lower : Option Int) (segment : Nat × Option Int) :
    List StoredEntry :=
  ((entries.filter fun row => Sqlite.inSegment segment.1 lower segment.2 row.1 row.2).map Prod.snd).reverse

/-- The visible entries of a conversation in a range, newest first. -/
def visible (d : Sqlite) (id : Nat) (lower upper : Option Int) : List StoredEntry :=
  (chain d.conversations d.chainFuel id upper).flatMap (segmentRows d.entries lower)

/-- The stored revisions of a document, oldest first. -/
def revisions (d : Sqlite) (id : Nat) : List Revision :=
  (d.documentRevisions.filter fun row => decide (row.1 = id)).map Prod.snd

/-- A document at a point, from its revisions. -/
def document (record : DocumentRecord) (revisions : List Revision) (id : Nat) (point : DocumentPoint) :
    Except ReadError (Option StoredDocument) :=
  if point ≠ .current ∧ isCurrentOnly record.toDocumentCreate then .error (.noHistory id)
  else if isAliveAt record point = false then .ok none
  else
    match Memory.lastBase (Memory.revisionsAt revisions point) with
    | none => .error (.missingBase id)
    | some (version, base, rest) => do
      let value ← rest.foldlM (Sqlite.applyRevision id version) base
      .ok (some { record, version, value, deltasSinceBase := rest.length })

def documentAt (d : Sqlite) (id : Nat) (point : DocumentPoint) : Except ReadError (Option StoredDocument) :=
  match d.documents.lookup id with
  | none => .ok none
  | some record => document record (revisions d id) id point

/-- Whether a record is an incarnation of an address that is alive. -/
def isIncarnation (address : DocumentAddress) (point : DocumentPoint) (record : DocumentRecord) : Bool :=
  decide (record.address = address) && isAliveAt record point

/-- The filter of a document scan. -/
def keepsDocument (query : DocumentQuery) (record : DocumentRecord) : Bool :=
  decide (record.scope = query.scope) && query.kind.all (· = record.kind) && isAliveAt record query.point

def keepsConversation (query : ConversationQuery) (value : ConversationRecord) : Bool :=
  (query.ownerConversationId.all fun id => decide (value.owner.map Owner.conversationId = some id)) &&
    query.ownerTaskId.all fun id => decide (value.owner.map Owner.taskId = some id)

def keepsTask (query : TaskQuery) (value : TaskRecord) : Bool :=
  query.status.all (· = value.status) && Memory.TaskQuery.keeps query value

def keepsSubmission (query : SubmissionQuery) (value : SubmissionRecord) : Bool :=
  query.status.all (· = value.status) && query.conversationId.all (· = value.conversationId)

/-! Reads of the visible entries of a stored conversation. -/

/-- A page of visible entries. -/
def entries (d : Sqlite) (query : EntryQuery) (limit : Nat) (start : ScanStart) :
    Except ReadError (Page EntryRecord) :=
  let found :=
    match start.order with
    | .descending =>
      visible d query.conversationId query.minEntryId
        (start.after.elim query.maxEntryId fun after => narrowUpper query.maxEntryId (after - 1))
    | .ascending =>
      (visible d query.conversationId
        (start.after.elim query.minEntryId fun after => narrowLower query.minEntryId (after + 1))
        query.maxEntryId).reverse
  page EntryRecord.id ((found.map StoredEntry.entry).take (limit + 1)) limit start.order

/-- A read of a conversation that is not stored is refused. -/
def ofConversation {β : Type} (d : Sqlite) (id : Nat) (result : Except ReadError β) : Except ReadError β :=
  if (d.conversations.lookup id).isNone then .error (.unknownConversation id) else result

def read (d : Sqlite) : Read → Except ReadError ReadResult
  | .conversation id => .ok (.conversation (d.conversations.lookup id))
  | .scanConversations query limit cursor => .conversations <$> do
      let start ← scanStart query.order cursor .ascending
      page ConversationRecord.id (scan d.conversations (keepsConversation query) start limit) limit start.order
  | .entry id => .ok (.entry (d.entries.lookup id))
  | .visibleEntry conversationId id => .entry <$> ofConversation d conversationId
      (.ok (visible d conversationId (some id) (some id)).head?)
  | .findLatestHeadMarker id atOrBefore => .head <$> ofConversation d id
      (.ok (((visible d id none (atOrBefore.map Int.ofNat)).map StoredEntry.entry).find? fun entry =>
        entry.head.isSome))
  | .scanEntries query limit cursor => .entries <$> do
      let start ← scanStart query.order cursor .descending
      ofConversation d query.conversationId (entries d query limit start)
  | .task id => .ok (.task (d.tasks.lookup id))
  | .scanTasks query limit cursor => .tasks <$> do
      let start ← scanStart query.order cursor .ascending
      page TaskRecord.id (scan d.tasks (keepsTask query) start limit) limit start.order
  | .submission id => .ok (.submission (d.submissions.lookup id))
  | .scanSubmissions query limit cursor => .submissions <$> do
      let start ← scanStart query.order cursor .ascending
      page SubmissionRecord.id (scan d.submissions (keepsSubmission query) start limit) limit start.order
  | .submissionByRequest conversationId requestId =>
    .ok (.submission ((d.submissions.map Prod.snd).find? fun value =>
      decide (value.conversationId = conversationId) && decide (value.requestId = some requestId)))
  | .findDocument address point =>
    .ok (.documentRecord ((d.documents.map Prod.snd).find? (isIncarnation address point)))
  | .document id point => .document <$> documentAt d id point
  | .scanDocuments query limit cursor => .documents <$> do
      let after ← cursorId cursor
      page (fun record => record.id)
        (scan d.documents (keepsDocument query) { order := .ascending, after } limit) limit .ascending

/-! Lemmas on chains. -/

variable {conversations : List (Nat × ConversationRecord)}

theorem Rooted.lookup {steps : Nat} {id : Nat}
    (h : Rooted conversations steps id) : ∃ record, conversations.lookup id = some record := by
  cases steps with
  | zero =>
    obtain ⟨record, hLookup, -⟩ := h
    exact ⟨record, hLookup⟩
  | succ steps =>
    obtain ⟨record, parent, hLookup, -⟩ := h
    exact ⟨record, hLookup⟩

/-- Induction along a fork chain, for a loop with enough fuel: the root of the
chain, and a conversation whose parent is next. -/
theorem Rooted.induction {conversations : List (Nat × ConversationRecord)}
    {motive : Nat → Nat → ConversationRecord → Prop}
    (hRoot : ∀ fuel id record, conversations.lookup id = some record → record.parent = none →
      motive (fuel + 1) id record)
    (hFork : ∀ fuel id record parent next, conversations.lookup id = some record →
      record.parent = some parent → conversations.lookup parent.conversationId = some next →
      motive fuel parent.conversationId next → motive (fuel + 1) id record)
    {steps fuel : Nat} {id : Nat} {record : ConversationRecord} (h : Rooted conversations steps id)
    (hFuel : steps < fuel) (hLookup : conversations.lookup id = some record) : motive fuel id record := by
  induction steps generalizing fuel id record with
  | zero =>
    obtain ⟨fuel, rfl⟩ : ∃ n, fuel = n + 1 := ⟨fuel - 1, by omega⟩
    obtain ⟨found, hFound, hParent⟩ := h
    obtain rfl : found = record := some.inj (hFound.symm.trans hLookup)
    exact hRoot fuel id found hFound hParent
  | succ steps ih =>
    obtain ⟨fuel, rfl⟩ : ∃ n, fuel = n + 1 := ⟨fuel - 1, by omega⟩
    obtain ⟨found, parent, hFound, hParent, hRest⟩ := h
    obtain rfl : found = record := some.inj (hFound.symm.trans hLookup)
    obtain ⟨next, hNext⟩ := hRest.lookup
    exact hFork fuel id found parent next hFound hParent hNext (ih hRest (by omega) hNext)

theorem chain_root {id : Nat} {record : ConversationRecord}
    (hLookup : conversations.lookup id = some record) (hParent : record.parent = none) (fuel : Nat)
    (upper : Option Int) : chain conversations (fuel + 1) id upper = [(id, upper)] := by
  simp [chain, hLookup, hParent]

theorem chain_fork {id : Nat} {record : ConversationRecord}
    {parent : Parent} (hLookup : conversations.lookup id = some record) (hParent : record.parent = some parent)
    (fuel : Nat) (upper : Option Int) : chain conversations (fuel + 1) id upper =
      (id, upper) :: chain conversations fuel parent.conversationId (narrowUpper upper parent.atEntry) := by
  simp [chain, hLookup, hParent]

theorem narrowUpper_comm (upper : Option Int) (a b : Int) :
    narrowUpper (narrowUpper upper a) b = narrowUpper (narrowUpper upper b) a := by
  cases upper <;> simp only [narrowUpper, some.injEq] <;> omega

theorem isEmptyRange_narrowUpper {lower upper : Option Int} (h : isEmptyRange lower upper = true) (bound : Int) :
    isEmptyRange lower (narrowUpper upper bound) = true := by
  cases lower with
  | none => simp [isEmptyRange] at h
  | some lower =>
    cases upper with
    | none => simp [isEmptyRange] at h
    | some upper =>
      simp only [isEmptyRange, decide_eq_true_eq, narrowUpper] at h ⊢
      omega

theorem segmentRows_empty (entries : List (Nat × StoredEntry)) {lower : Option Int} {segment : Nat × Option Int}
    (h : isEmptyRange lower segment.2 = true) : segmentRows entries lower segment = [] := by
  obtain ⟨id, upper⟩ := segment
  rw [segmentRows, reverse_eq_nil_iff, map_eq_nil_iff, filter_eq_nil_iff]
  intro row _
  cases lower with
  | none => simp [isEmptyRange] at h
  | some lower =>
    cases upper with
    | none => simp [isEmptyRange] at h
    | some upper =>
      simp only [isEmptyRange, decide_eq_true_eq] at h
      simp only [Sqlite.inSegment, all_some, Bool.and_eq_true, decide_eq_true_eq, not_and, not_le]
      omega

theorem chain_empty (conversations : List (Nat × ConversationRecord)) (entries : List (Nat × StoredEntry))
    (fuel : Nat) (id : Nat) {lower upper : Option Int} (h : isEmptyRange lower upper = true) :
    (chain conversations fuel id upper).flatMap (segmentRows entries lower) = [] := by
  induction fuel generalizing id upper with
  | zero => rfl
  | succ fuel ih =>
    rw [chain, flatMap_cons, segmentRows_empty entries h, nil_append]
    split
    · rfl
    · exact ih _ (isEmptyRange_narrowUpper h _)

theorem Rooted.grow {conversations conversations' : List (Nat × ConversationRecord)}
    (hStays : ∀ id record, conversations.lookup id = some record → conversations'.lookup id = some record)
    {steps id : Nat} (h : Rooted conversations steps id) : Rooted conversations' steps id := by
  induction steps generalizing id with
  | zero =>
    obtain ⟨record, hLookup, hParent⟩ := h
    exact ⟨record, hStays id record hLookup, hParent⟩
  | succ steps ih =>
    obtain ⟨record, parent, hLookup, hParent, hRest⟩ := h
    exact ⟨record, parent, hStays id record hLookup, hParent, ih hRest⟩

theorem chain_grow {conversations conversations' : List (Nat × ConversationRecord)}
    (hStays : ∀ id record, conversations.lookup id = some record → conversations'.lookup id = some record)
    {steps fuel fuel' id : Nat} (hRooted : Rooted conversations steps id) (hFuel : steps < fuel) (hFuel' : steps < fuel')
    (upper : Option Int) : chain conversations' fuel' id upper = chain conversations fuel id upper := by
  induction steps generalizing fuel fuel' id upper with
  | zero =>
    obtain ⟨record, hLookup, hParent⟩ := hRooted
    obtain ⟨fuel, rfl⟩ : ∃ n, fuel = n + 1 := ⟨fuel - 1, by omega⟩
    obtain ⟨fuel', rfl⟩ : ∃ n, fuel' = n + 1 := ⟨fuel' - 1, by omega⟩
    rw [chain_root hLookup hParent, chain_root (hStays id record hLookup) hParent]
  | succ steps ih =>
    obtain ⟨record, parent, hLookup, hParent, hRest⟩ := hRooted
    obtain ⟨fuel, rfl⟩ : ∃ n, fuel = n + 1 := ⟨fuel - 1, by omega⟩
    obtain ⟨fuel', rfl⟩ : ∃ n, fuel' = n + 1 := ⟨fuel' - 1, by omega⟩
    rw [chain_fork hLookup hParent, chain_fork (hStays id record hLookup) hParent,
      ih hRest (show steps < fuel by omega) (show steps < fuel' by omega)]

theorem Rooted.unique {steps steps' id : Nat}
    (h : Rooted conversations steps id) (h' : Rooted conversations steps' id) : steps = steps' := by
  induction steps generalizing id steps' with
  | zero =>
    obtain ⟨record, hLookup, hParent⟩ := h
    cases steps' with
    | zero => rfl
    | succ steps' =>
      obtain ⟨found, parent, hFound, hFork, -⟩ := h'
      rw [hLookup] at hFound
      rw [← some.inj hFound, hParent] at hFork
      exact absurd hFork (by simp)
  | succ steps ih =>
    obtain ⟨record, parent, hLookup, hFork, hRest⟩ := h
    cases steps' with
    | zero =>
      obtain ⟨found, hFound, hParent⟩ := h'
      rw [hLookup] at hFound
      rw [← some.inj hFound, hFork] at hParent
      exact absurd hParent (by simp)
    | succ steps' =>
      obtain ⟨found, parent', hFound, hFork', hRest'⟩ := h'
      rw [hLookup] at hFound
      rw [← some.inj hFound, hFork] at hFork'
      rw [← some.inj hFork'] at hRest'
      rw [ih hRest hRest']

theorem Rooted.path {steps id : Nat}
    (h : Rooted conversations steps id) : ∃ path : List Nat, path.length = steps + 1 ∧ path.Nodup ∧
      ∀ x ∈ path, x ∈ Table.ids conversations ∧ ∃ depth ≤ steps, Rooted conversations depth x := by
  induction steps generalizing id with
  | zero =>
    obtain ⟨record, hLookup⟩ := h.lookup
    refine ⟨[id], rfl, nodup_singleton id, fun x hx => ?_⟩
    rw [mem_singleton.mp hx]
    exact ⟨(Table.mem_ids id).mpr (by simp [hLookup]), 0, Nat.le_refl 0, h⟩
  | succ steps ih =>
    obtain ⟨record, hLookup⟩ := h.lookup
    have hChain := h
    obtain ⟨-, parent, -, -, hRest⟩ := hChain
    obtain ⟨path, hLength, hNodup, hPath⟩ := ih hRest
    refine ⟨id :: path, by rw [length_cons, hLength], nodup_cons.mpr ⟨fun hMem => ?_, hNodup⟩, ?_⟩
    · obtain ⟨-, depth, hDepth, hRooted⟩ := hPath id hMem
      have hSame := h.unique hRooted
      omega
    · refine forall_mem_cons.mpr ⟨⟨(Table.mem_ids id).mpr (by simp [hLookup]), steps + 1, Nat.le_refl _, h⟩,
        fun x hx => ?_⟩
      obtain ⟨hStored, depth, hDepth, hRooted⟩ := hPath x hx
      exact ⟨hStored, depth, Nat.le_succ_of_le hDepth, hRooted⟩

theorem Rooted.steps_lt {steps id : Nat}
    (h : Rooted conversations steps id) : steps < conversations.length := by
  obtain ⟨path, hLength, hNodup, hPath⟩ := h.path
  have hSubset : path ⊆ Table.ids conversations := fun x hx => (hPath x hx).1
  have hLe := (hNodup.subperm hSubset).length_le
  rw [Table.ids, length_map] at hLe
  omega

end OctoberHarness.Storage.View
