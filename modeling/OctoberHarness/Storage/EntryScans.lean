import OctoberHarness.Storage.Scans

/-! Scans of the entries a conversation sees: its own, and those of its ancestors
up to the fork points. -/
namespace OctoberHarness.Storage

open View SortedIds Paging List Option OrderedMap

/-- An entry that a conversation sees, by the conversation it is in. -/
inductive Sees (conversations : List (Nat × ConversationRecord)) : Nat → Nat → Nat → Prop where
  | own (id entryId : Nat) : Sees conversations id id entryId
  | inherited {id owner entryId : Nat} {record : ConversationRecord} {parent : Parent}
      (hLookup : conversations.lookup id = some record) (hParent : record.parent = some parent)
      (hPoint : entryId ≤ parent.atEntry) (hRest : Sees conversations parent.conversationId owner entryId) :
      Sees conversations id owner entryId

/-- Entries of a fork are newer than its fork point. -/
def ForkedBefore (conversations : List (Nat × ConversationRecord)) (entries : List (Nat × EntryRecord)) : Prop :=
  ∀ id entry record parent, entries.lookup id = some entry → conversations.lookup entry.conversationId = some record →
    record.parent = some parent → parent.atEntry < id

variable {conversations : List (Nat × ConversationRecord)} {id : Nat} {entries : List (Nat × StoredEntry)}

variable {record : ConversationRecord}

theorem sees_root (hLookup : conversations.lookup id = some record) (hParent : record.parent = none) (owner entryId : Nat) :
    Sees conversations id owner entryId ↔ owner = id := by
  constructor
  · intro h
    cases h with
    | own => rfl
    | inherited hFound hFork =>
      rw [hLookup] at hFound
      rw [← some.inj hFound, hParent] at hFork
      exact absurd hFork (by simp)
  · rintro rfl
    exact .own _ _

theorem sees_fork {parent : Parent} (hLookup : conversations.lookup id = some record)
    (hParent : record.parent = some parent) (owner entryId : Nat) : Sees conversations id owner entryId ↔
      owner = id ∨ entryId ≤ parent.atEntry ∧ Sees conversations parent.conversationId owner entryId := by
  constructor
  · intro h
    cases h with
    | own => exact Or.inl rfl
    | inherited hFound hFork hPoint hRest =>
      rw [hLookup] at hFound
      rw [← some.inj hFound, hParent] at hFork
      obtain rfl := some.inj hFork
      exact Or.inr ⟨hPoint, hRest⟩
  · rintro (rfl | ⟨hPoint, hRest⟩)
    · exact .own _ _
    · exact .inherited hLookup hParent hPoint hRest

theorem Sees.of_same {conversations' : List (Nat × ConversationRecord)}
    (hSame : ∀ id, conversations.lookup id = conversations'.lookup id) {owner entryId : Nat}
    (h : Sees conversations id owner entryId) : Sees conversations' id owner entryId := by
  induction h with
  | own id entryId => exact .own id entryId
  | inherited hLookup hParent hPoint _ ih => exact .inherited (hSame _ ▸ hLookup) hParent hPoint ih

/-- Whether an id is in a range; `none` is unbounded. -/
def inRange (lower upper : Option Int) (id : Nat) : Prop :=
  (∀ bound, lower = some bound → bound ≤ (id : Int)) ∧ ∀ bound, upper = some bound → (id : Int) ≤ bound

theorem inRange_narrowUpper (lower upper : Option Int) (bound : Int) (id : Nat) :
    inRange lower (narrowUpper upper bound) id ↔ inRange lower upper id ∧ (id : Int) ≤ bound := by
  cases upper <;> simp [inRange, narrowUpper, and_assoc]

theorem mem_segmentRows (hNamed : Named (fun row => row.entry.id) entries)
    (lower : Option Int) (segment : Nat × Option Int) (row : StoredEntry) :
    row ∈ segmentRows entries lower segment ↔ entries.lookup row.entry.id = some row ∧
      row.entry.conversationId = segment.1 ∧ inRange lower segment.2 row.entry.id := by
  have hRange : ∀ id : Nat, ((lower.all fun lower => decide (lower ≤ (id : Int))) = true ∧
      (segment.2.all fun upper => decide ((id : Int) ≤ upper)) = true) ↔ inRange lower segment.2 id := by
    intro id
    cases lower <;> cases segment.2 <;> simp [inRange]
  rw [segmentRows, mem_reverse, List.mem_map]
  constructor
  · rintro ⟨entry, hMem, rfl⟩
    obtain ⟨hEntry, hIn⟩ := mem_filter.mp hMem
    have hId := hNamed.of_mem hEntry
    simp only [Sqlite.inSegment, Bool.and_eq_true, decide_eq_true_eq] at hIn
    rw [hId]
    exact ⟨(Table.mem_rows_iff hNamed.1 _ _).mp hEntry, hIn.1.1, (hRange _).mp ⟨hIn.1.2, hIn.2⟩⟩
  · rintro ⟨hLookup, hOwner, hIn⟩
    refine ⟨(row.entry.id, row), mem_filter.mpr ⟨(Table.mem_rows_iff hNamed.1 _ _).mpr hLookup, ?_⟩, rfl⟩
    obtain ⟨hLower, hUpper⟩ := (hRange row.entry.id).mpr hIn
    simp only [Sqlite.inSegment, Bool.and_eq_true, decide_eq_true_eq]
    exact ⟨⟨hOwner, hLower⟩, hUpper⟩

/-- Newest first. -/
def Descending (rows : List StoredEntry) : Prop :=
  rows.Pairwise fun a b => b.entry.id < a.entry.id

section

variable (hNamed : Named (fun row => row.entry.id) entries)

include hNamed

theorem descending_segmentRows
    (lower : Option Int) (segment : Nat × Option Int) : Descending (segmentRows entries lower segment) := by
  rw [Descending, segmentRows, pairwise_reverse, pairwise_map]
  have hRows : entries.Pairwise fun a b => a.1 < b.1 := pairwise_map.mp hNamed.1
  refine Pairwise.imp_of_mem (fun {a b} ha hb hLess => ?_) (hRows.sublist filter_sublist)
  have hFirst : a.2.entry.id = a.1 := hNamed.of_mem (mem_filter.mp ha).1
  have hSecond : b.2.entry.id = b.1 := hNamed.of_mem (mem_filter.mp hb).1
  rw [hFirst, hSecond]
  exact hLess

theorem segmentRows_narrowUpper
    (lower upper : Option Int) (id : Nat) (bound : Int) : segmentRows entries lower (id, narrowUpper upper bound) =
      (segmentRows entries lower (id, upper)).filter fun row => decide ((row.entry.id : Int) ≤ bound) := by
  rw [segmentRows, segmentRows, filter_reverse, List.filter_map, List.filter_filter]
  refine congrArg (fun rows => (map Prod.snd rows).reverse) (filter_congr fun row hMem => ?_)
  have hId : row.2.entry.id = row.1 := hNamed.of_mem hMem
  simp only [Sqlite.inSegment, Function.comp_apply, hId]
  cases upper <;> simp [narrowUpper, Bool.and_comm, Bool.and_left_comm, Bool.and_assoc]

theorem segmentRows_narrowLower
    (lower : Option Int) (segment : Nat × Option Int) (bound : Int) : segmentRows entries (narrowLower lower bound) segment =
      (segmentRows entries lower segment).filter fun row => decide (bound ≤ (row.entry.id : Int)) := by
  rw [segmentRows, segmentRows, filter_reverse, List.filter_map, List.filter_filter]
  refine congrArg (fun rows => (map Prod.snd rows).reverse) (filter_congr fun row hMem => ?_)
  have hId : row.2.entry.id = row.1 := hNamed.of_mem hMem
  simp only [Sqlite.inSegment, Function.comp_apply, hId]
  cases lower <;> simp [narrowLower, Bool.and_comm, Bool.and_left_comm, Bool.and_assoc]

end

section Chain

variable {conversations : List (Nat × ConversationRecord)} {entries : List (Nat × StoredEntry)}
  (hNamed : Named (fun row => row.entry.id) entries)

include hNamed

theorem chain_narrowUpper (lower : Option Int) (fuel id : Nat) (upper : Option Int) (bound : Int) :
    (chain conversations fuel id (narrowUpper upper bound)).flatMap (segmentRows entries lower) =
      ((chain conversations fuel id upper).flatMap (segmentRows entries lower)).filter
        fun row => decide ((row.entry.id : Int) ≤ bound) := by
  induction fuel generalizing id upper with
  | zero => rfl
  | succ fuel ih =>
    rw [chain, chain, flatMap_cons, flatMap_cons, filter_append, segmentRows_narrowUpper hNamed]
    congr 1
    cases (conversations.lookup id).bind ConversationRecord.parent with
    | none => rfl
    | some parent =>
      dsimp only
      rw [narrowUpper_comm]
      exact ih parent.conversationId (narrowUpper upper parent.atEntry)

theorem chain_narrowLower (segments : List (Nat × Option Int)) (lower : Option Int) (bound : Int) :
    segments.flatMap (segmentRows entries (narrowLower lower bound)) =
      (segments.flatMap (segmentRows entries lower)).filter fun row => decide (bound ≤ (row.entry.id : Int)) := by
  induction segments with
  | nil => rfl
  | cons segment rest ih =>
    rw [flatMap_cons, flatMap_cons, filter_append, segmentRows_narrowLower hNamed, ih]

variable {record : ConversationRecord}

theorem mem_chain (lower : Option Int) {steps fuel id : Nat} (hRooted : Rooted conversations steps id) (hFuel : steps < fuel)
    (hLookup : conversations.lookup id = some record) (row : StoredEntry) (upper : Option Int) :
    row ∈ (chain conversations fuel id upper).flatMap (segmentRows entries lower) ↔
      entries.lookup row.entry.id = some row ∧ Sees conversations id row.entry.conversationId row.entry.id ∧
        inRange lower upper row.entry.id := by
  revert upper
  refine @Rooted.induction conversations (fun fuel id _ => ∀ upper,
    row ∈ (chain conversations fuel id upper).flatMap (segmentRows entries lower) ↔
      entries.lookup row.entry.id = some row ∧ Sees conversations id row.entry.conversationId row.entry.id ∧
        inRange lower upper row.entry.id) ?_ ?_ steps fuel id record hRooted hFuel hLookup
  · intro fuel id record hLookup hParent upper
    rw [chain_root hLookup hParent, flatMap_cons, flatMap_nil, append_nil, mem_segmentRows hNamed,
      sees_root hLookup hParent]
  · intro fuel id record parent next hLookup hParent _ ih upper
    rw [chain_fork hLookup hParent, flatMap_cons, mem_append, mem_segmentRows hNamed, ih,
      sees_fork hLookup hParent, inRange_narrowUpper, Int.ofNat_le]
    tauto

/-- Entries newer than the fork points make the rows of a chain descend. -/
theorem descending_chain (hForked : ∀ id row record parent, entries.lookup id = some row →
      conversations.lookup row.entry.conversationId = some record → record.parent = some parent → parent.atEntry < id)
    (lower : Option Int) {steps fuel id : Nat} (hRooted : Rooted conversations steps id)
    (hFuel : steps < fuel) (hLookup : conversations.lookup id = some record) (upper : Option Int) :
    Descending ((chain conversations fuel id upper).flatMap (segmentRows entries lower)) := by
  revert upper
  refine @Rooted.induction conversations (fun fuel id _ => ∀ upper,
    Descending ((chain conversations fuel id upper).flatMap (segmentRows entries lower))) ?_ ?_ steps fuel id record
      hRooted hFuel hLookup
  · intro fuel id record hLookup hParent upper
    rw [chain_root hLookup hParent, flatMap_cons, flatMap_nil, append_nil]
    exact descending_segmentRows hNamed lower _
  · intro fuel id record parent next hLookup hParent _ ih upper
    rw [chain_fork hLookup hParent, flatMap_cons, Descending, pairwise_append]
    refine ⟨descending_segmentRows hNamed lower _, ih _, fun a ha b hb => ?_⟩
    obtain ⟨hStored, hOwner, -⟩ := (mem_segmentRows hNamed _ _ _).mp ha
    have hNewer := hForked a.entry.id a record parent hStored (hOwner ▸ hLookup) hParent
    rw [chain_narrowUpper hNamed] at hb
    have hOlder := of_decide_eq_true (mem_filter.mp hb).2
    omega

end Chain

/-! Pages of entries. -/

/-- The entries a conversation sees in a range, oldest first. -/
def seen (d : Sqlite) (query : EntryQuery) : List EntryRecord :=
  ((visible d query.conversationId query.minEntryId query.maxEntryId).map StoredEntry.entry).reverse

variable {d : Sqlite}

section

variable (hNamed : Named (fun row => row.entry.id) d.entries)

include hNamed

theorem visible_narrowUpper (id : Nat) (lower upper : Option Int) (bound : Int) : visible d id lower (narrowUpper upper bound) =
      (visible d id lower upper).filter fun row => decide ((row.entry.id : Int) ≤ bound) :=
  chain_narrowUpper hNamed lower d.chainFuel id upper bound

theorem visible_narrowLower (id : Nat) (lower upper : Option Int) (bound : Int) : visible d id (narrowLower lower bound) upper =
      (visible d id lower upper).filter fun row => decide (bound ≤ (row.entry.id : Int)) :=
  chain_narrowLower hNamed (chain d.conversations d.chainFuel id upper) lower bound

theorem entries_eq (query : EntryQuery) (limit : Nat)
    (start : ScanStart) : View.entries d query limit start = page EntryRecord.id
      (((ordered start.order (seen d query)).filter fun value => passes start value.id).take (limit + 1)) limit
      start.order := by
  obtain ⟨order, after⟩ := start
  rw [View.entries, seen]
  cases order with
  | ascending =>
    cases after with
    | none => simp [ordered, passes]
    | some after =>
      simp only [elim_some, visible_narrowLower hNamed, ordered, passes, all_some]
      rw [map_reverse, filter_reverse, List.filter_map]
      refine congrArg (fun values => page EntryRecord.id (take (limit + 1) (reverse
        (map StoredEntry.entry values))) limit .ascending) (filter_congr fun row _ => ?_)
      simp only [Function.comp_apply, decide_eq_decide]
      omega
  | descending =>
    cases after with
    | none => simp [ordered, passes]
    | some after =>
      simp only [elim_some, visible_narrowUpper hNamed, ordered, passes, all_some, reverse_reverse]
      rw [List.filter_map]
      refine congrArg (fun values => page EntryRecord.id (take (limit + 1)
        (map StoredEntry.entry values)) limit .descending) (filter_congr fun row _ => ?_)
      simp only [Function.comp_apply, decide_eq_decide]
      omega

end

/-- A scan that lists the values with a property, each once, in either order and
in pages of any size. -/
def Exact {α : Type} (idOf : α → Nat) (P : α → Prop) (fallback : ScanOrder)
    (scan : Option ScanOrder → Nat → Option Cursor → Except ReadError (Page α)) : Prop :=
  ∃ items : List α, items.Pairwise (fun a b => idOf a < idOf b) ∧ (∀ value, value ∈ items ↔ P value) ∧
    ∀ order limit, 1 ≤ limit → Followed (pages (scan order limit)) none (ordered (order.getD fallback) items)

theorem map_inj {ε α β : Type} {f : α → β} (hf : Function.Injective f) {x y : Except ε α} (h : f <$> x = f <$> y) :
    x = y := by
  cases x <;> cases y <;> simp_all [Functor.map, Except.map, hf.eq_iff]

theorem exact_scan {α : Type} {idOf : α → Nat} {rows : List (Nat × α)} (h : Named idOf rows)
    (hIds : ∀ id value, rows.lookup id = some value → id ≤ MAX_SAFE_INTEGER) (keep : α → Bool)
    {scan : Option ScanOrder → Nat → Option Cursor → Except ReadError (Page α)}
    (hScan : ∀ order limit cursor, scan order limit cursor = scanStart order cursor .ascending >>= fun start =>
      page idOf (View.scan rows keep start limit) limit start.order) {P : α → Prop}
    (hP : ∀ value, rows.lookup (idOf value) = some value ∧ keep value = true ↔ P value) :
    Exact idOf P .ascending scan := by
  refine ⟨matching rows keep, sorted_matching h keep, fun value => (mem_matching h keep value).trans (hP value),
    fun order limit hLimit => ?_⟩
  refine followed_scan h hIds keep (order.getD .ascending) hLimit fun done hDone => ?_
  rw [hScan, scanStart_resume idOf rfl hDone]
  rfl

section Memory

variable {m : Memory} {d : Sqlite} (h : Agree m d) (hIds : m.IdsBelow (MAX_SAFE_INTEGER + 1))

include h hIds

theorem Agree.safe_ids {id : Nat} {table : TableName} (hHolds : m.Holds id table) : id ≤ MAX_SAFE_INTEGER := by
  have hType := h.type_of_holds hHolds
  exact Nat.le_of_lt_succ (hIds id (by rw [hType]; exact some_ne_none _))

theorem Agree.exact_conversations (query : ConversationQuery) : Exact ConversationRecord.id
    (fun value => m.conversations.lookup value.id = some value ∧ keepsConversation query value = true) .ascending
    fun order limit cursor => m.scanConversations { query with order } limit cursor := by
  refine exact_scan h.stored.kept.conversations (fun id value hLookup => ?_) (keepsConversation query)
    (fun order limit cursor => ?_) fun value => by rw [h.mirror.conversations]
  · refine @Agree.safe_ids m d h hIds id .conversation fun hNone => ?_
    rw [h.mirror.conversations, hLookup] at hNone
    exact some_ne_none _ hNone
  · exact map_inj (fun _ _ => ReadResult.conversations.inj) (Memory.read_eq_view h.mirror h.current h.stored.kept
      (.scanConversations { query with order } limit cursor) (by simp [Read.namesRequest]) (by simp [Read.walksForks]))

theorem Agree.exact_tasks (query : TaskQuery) : Exact TaskRecord.id
    (fun value => m.tasks.lookup value.id = some value ∧ keepsTask query value = true) .ascending
    fun order limit cursor => m.scanTasks { query with order } limit cursor := by
  refine exact_scan h.stored.kept.tasks (fun id value hLookup => ?_) (keepsTask query)
    (fun order limit cursor => ?_) fun value => by rw [h.mirror.tasks]
  · refine @Agree.safe_ids m d h hIds id .task fun hNone => ?_
    rw [h.mirror.tasks, hLookup] at hNone
    exact some_ne_none _ hNone
  · exact map_inj (fun _ _ => ReadResult.tasks.inj) (Memory.read_eq_view h.mirror h.current h.stored.kept
      (.scanTasks { query with order } limit cursor) (by simp [Read.namesRequest]) (by simp [Read.walksForks]))

theorem Agree.exact_submissions (query : SubmissionQuery) : Exact SubmissionRecord.id
    (fun value => m.submissions.lookup value.id = some value ∧ keepsSubmission query value = true) .ascending
    fun order limit cursor => m.scanSubmissions { query with order } limit cursor := by
  refine exact_scan h.stored.kept.submissions (fun id value hLookup => ?_) (keepsSubmission query)
    (fun order limit cursor => ?_) fun value => by rw [h.mirror.submissions]
  · refine @Agree.safe_ids m d h hIds id .submission fun hNone => ?_
    rw [h.mirror.submissions, hLookup] at hNone
    exact some_ne_none _ hNone
  · exact map_inj (fun _ _ => ReadResult.submissions.inj) (Memory.read_eq_view h.mirror h.current h.stored.kept
      (.scanSubmissions { query with order } limit cursor) (by simp [Read.namesRequest]) (by simp [Read.walksForks]))

theorem Agree.exact_documents (query : DocumentQuery) : ∃ items : List DocumentRecord,
    items.Pairwise (fun a b => a.id < b.id) ∧
    (∀ record, record ∈ items ↔ (∃ state, m.documents.lookup record.id = some state ∧ state.record = record) ∧
      keepsDocument query record = true) ∧
    ∀ limit, 1 ≤ limit → Followed (pages (m.scanDocuments query limit)) none items := by
  have hNamed := h.stored.kept.documents
  have hRows : ∀ id value, d.documents.lookup id = some value → id ≤ MAX_SAFE_INTEGER := by
    intro id value hLookup
    refine @Agree.safe_ids m d h hIds id .document fun hNone => ?_
    rw [h.mirror.documents, hLookup] at hNone
    exact some_ne_none _ hNone
  refine ⟨matching d.documents (keepsDocument query), sorted_matching hNamed _, fun record => ?_, fun limit hLimit => ?_⟩
  · rw [mem_matching hNamed, h.mirror.documents]
    simp
  · refine followed_scan hNamed hRows (keepsDocument query) .ascending hLimit fun done hDone => ?_
    refine (map_inj (fun _ _ => ReadResult.documents.inj) (Memory.read_eq_view h.mirror h.current h.stored.kept
      (.scanDocuments query limit _) (by simp [Read.namesRequest]) (by simp [Read.walksForks]))).trans ?_
    rw [cursorId_resume _ hDone]
    rfl

/-- A scan of the entries of a conversation lists what it sees in the range. -/
theorem Agree.exact_entries (hGrounded : Grounded m.conversations) (hForked : ForkedBefore m.conversations m.entries)
    (query : EntryQuery) (hStored : m.conversations.lookup query.conversationId ≠ none) : Exact EntryRecord.id
    (fun value => m.entries.lookup value.id = some value ∧
      Sees m.conversations query.conversationId value.conversationId value.id ∧
      inRange query.minEntryId query.maxEntryId value.id) .descending
    fun order limit cursor => m.scanEntries { query with order } limit cursor := by
  have hNamed := h.stored.kept.entries
  have hForest := hGrounded.forest h.mirror.conversations
  have hSame : ∀ id, m.conversations.lookup id = d.conversations.lookup id := h.mirror.conversations
  have hSees : ∀ id owner entryId, Sees m.conversations id owner entryId ↔ Sees d.conversations id owner entryId :=
    fun id owner entryId => ⟨fun hSees => hSees.of_same hSame, fun hSees => hSees.of_same fun id => (hSame id).symm⟩
  rw [hSame] at hStored
  obtain ⟨record, hRecord⟩ := Option.ne_none_iff_exists'.mp hStored
  obtain ⟨steps, hSteps, hRooted⟩ := hForest query.conversationId hStored
  have hFuel : steps < d.chainFuel := Nat.lt_succ_of_lt hSteps
  have hRows : ∀ id row record parent, d.entries.lookup id = some row →
      d.conversations.lookup row.entry.conversationId = some record → record.parent = some parent →
      parent.atEntry < id := by
    intro id row record parent hRow hOwner hParent
    refine hForked id row.entry record parent ?_ (hSame _ ▸ hOwner) hParent
    rw [h.mirror.entries, hRow]
    rfl
  have hSorted : (seen d query).Pairwise fun a b => a.id < b.id := by
    rw [seen, pairwise_reverse, pairwise_map]
    exact descending_chain hNamed hRows query.minEntryId hRooted hFuel hRecord query.maxEntryId
  have hMem : ∀ value, value ∈ seen d query ↔ m.entries.lookup value.id = some value ∧
      Sees m.conversations query.conversationId value.conversationId value.id ∧
      inRange query.minEntryId query.maxEntryId value.id := by
    intro value
    rw [seen, mem_reverse, List.mem_map, h.mirror.entries, hSees]
    constructor
    · rintro ⟨row, hRow, rfl⟩
      obtain ⟨hLookup, hRest⟩ := (mem_chain hNamed _ hRooted hFuel hRecord row _).mp hRow
      exact ⟨by rw [hLookup]; rfl, hRest⟩
    · rintro ⟨hLookup, hRest⟩
      obtain ⟨row, hRow, rfl⟩ := Option.map_eq_some_iff.mp hLookup
      exact ⟨row, (mem_chain hNamed _ hRooted hFuel hRecord row _).mpr ⟨hRow, hRest⟩, rfl⟩
  refine ⟨seen d query, hSorted, hMem, fun order limit hLimit => ?_⟩
  refine followed_of_resumes (fun value => nextCursor value.id (order.getD .descending)) hLimit
    fun done rest hAll => ?_
  have hDone : ∀ value ∈ done, value.id ≤ MAX_SAFE_INTEGER := by
    intro value hValue
    have hSeen : value ∈ ordered (order.getD .descending) (seen d query) := hAll ▸ mem_append_left rest hValue
    have hIn : value ∈ seen d query := by
      cases hOrder : order.getD .descending with
      | ascending => rwa [hOrder] at hSeen
      | descending => rw [hOrder] at hSeen; exact List.mem_reverse.mp hSeen
    refine @Agree.safe_ids m d h hIds value.id .entry fun hNone => ?_
    rw [((hMem value).mp hIn).1] at hNone
    exact some_ne_none _ hNone
  have hRead := map_inj (fun _ _ => ReadResult.entries.inj) (Memory.read_eq_view h.mirror h.current h.stored.kept
    (.scanEntries { query with order } limit (done.getLast?.map fun value => nextCursor value.id (order.getD .descending)))
    (by simp [Read.namesRequest]) fun _ => hForest)
  refine (congrArg (Except.map fun page : Page EntryRecord => (page.items, page.next)) hRead).trans ?_
  dsimp only
  rw [scanStart_resume EntryRecord.id rfl hDone]
  change ((ofConversation d query.conversationId (View.entries d { query with order } limit _)).map _) = _
  rw [ofConversation, hRecord, if_neg (by simp), entries_eq hNamed]
  change ((page EntryRecord.id (((ordered (order.getD .descending) (seen d query)).filter _).take (limit + 1)) limit
    (order.getD .descending)).map _) = _
  have hRest : ((ordered (order.getD .descending) (seen d query)).filter fun value => passes
      { order := order.getD .descending, after := done.getLast?.map fun value => (value.id : Int) } value.id) = rest := by
    rw [hAll]
    cases hLast : done.getLast? with
    | none =>
      rw [getLast?_eq_none_iff.mp hLast]
      exact filter_eq_self.mpr fun value _ => by cases order.getD .descending <;> rfl
    | some last =>
      have hOrdered := sorted_ordered hSorted (order.getD .descending)
      rw [hAll] at hOrdered
      refine Eq.trans (filter_congr fun value _ => ?_) (filter_comesAfter hOrdered hLast)
      cases order.getD .descending <;> simp [passes, comesAfter]
  rw [hRest, page_take EntryRecord.id rest hLimit]

end Memory

/-- The in-memory storage after any calls: every index holds exactly the ids that
the maps imply, and a scan in pages of any size lists exactly what matches, in id
order or in the reverse of it; for entries, where parents are stored and entries
are newer than the fork points. -/
theorem scans_exact (calls : List (List (List Write)))
    (hIds : (Memory.run {} calls).IdsBelow (MAX_SAFE_INTEGER + 1)) :
    (Memory.run {} calls).Indexed ∧
    (∀ query, Exact ConversationRecord.id
      (fun value => (Memory.run {} calls).conversations.lookup value.id = some value ∧
        keepsConversation query value = true) .ascending
      fun order limit cursor => (Memory.run {} calls).scanConversations { query with order } limit cursor) ∧
    (∀ query, Exact TaskRecord.id
      (fun value => (Memory.run {} calls).tasks.lookup value.id = some value ∧ keepsTask query value = true) .ascending
      fun order limit cursor => (Memory.run {} calls).scanTasks { query with order } limit cursor) ∧
    (∀ query, Exact SubmissionRecord.id
      (fun value => (Memory.run {} calls).submissions.lookup value.id = some value ∧
        keepsSubmission query value = true) .ascending
      fun order limit cursor => (Memory.run {} calls).scanSubmissions { query with order } limit cursor) ∧
    (∀ query, ∃ items : List DocumentRecord, items.Pairwise (fun a b => a.id < b.id) ∧
      (∀ record, record ∈ items ↔
        (∃ state, (Memory.run {} calls).documents.lookup record.id = some state ∧ state.record = record) ∧
          keepsDocument query record = true) ∧
      ∀ limit, 1 ≤ limit → Followed (pages ((Memory.run {} calls).scanDocuments query limit)) none items) ∧
    (Grounded (Memory.run {} calls).conversations →
      ForkedBefore (Memory.run {} calls).conversations (Memory.run {} calls).entries →
      ∀ query : EntryQuery, (Memory.run {} calls).conversations.lookup query.conversationId ≠ none →
        Exact EntryRecord.id
          (fun value => (Memory.run {} calls).entries.lookup value.id = some value ∧
            Sees (Memory.run {} calls).conversations query.conversationId value.conversationId value.id ∧
            inRange query.minEntryId query.maxEntryId value.id) .descending
          fun order limit cursor => (Memory.run {} calls).scanEntries { query with order } limit cursor) := by
  obtain ⟨d, hAgree⟩ := Memory.run_agree calls
  exact ⟨hAgree.indexed, hAgree.exact_conversations hIds, hAgree.exact_tasks hIds, hAgree.exact_submissions hIds,
    hAgree.exact_documents hIds, fun hGrounded hForked query hStored =>
      hAgree.exact_entries hIds hGrounded hForked query hStored⟩

theorem idsBelow_iff (m : Memory) (bound : Nat) : m.IdsBelow bound ↔ ∀ entry ∈ m.recordTypes, entry.1 < bound := by
  refine ⟨fun h entry hMem => h entry.1 fun hNone => ?_, fun h id hStored => ?_⟩
  · rw [OrderedMap.lookup_eq_none_iff] at hNone
    exact hNone (mem_map_of_mem hMem)
  · obtain ⟨table, hTable⟩ := Option.ne_none_iff_exists'.mp hStored
    exact h (id, table) (mem_of_lookup hTable)

instance (m : Memory) (bound : Nat) : Decidable (m.IdsBelow bound) :=
  decidable_of_iff _ (idsBelow_iff m bound).symm

/-- The same as a check of every entry. -/
def forkedBefore (conversations : List (Nat × ConversationRecord)) (entries : List (Nat × EntryRecord)) : Bool :=
  entries.all fun entry => (conversations.lookup entry.2.conversationId).all fun record =>
    record.parent.all fun parent => decide (parent.atEntry < entry.1)

theorem ForkedBefore.of_check {conversations : List (Nat × ConversationRecord)} {entries : List (Nat × EntryRecord)}
    (h : forkedBefore conversations entries = true) : ForkedBefore conversations entries := by
  intro id entry record parent hEntry hOwner hParent
  have hCheck := all_eq_true.mp h (id, entry) (mem_of_lookup hEntry)
  simpa [hOwner, hParent] using hCheck

/-- A fork with entries of its own. -/
def forkCalls : List (List (List Write)) :=
  [[[.conversation { id := 2 }, .entry { id := 3, conversationId := 2 }, .entry { id := 4, conversationId := 2 }],
    [.conversation { id := 5, parent := some { conversationId := 2, atEntry := 3 } },
      .entry { id := 6, conversationId := 5 }]]]

theorem scans_exact_fork : Exact EntryRecord.id
    (fun value => (Memory.run {} forkCalls).entries.lookup value.id = some value ∧
      Sees (Memory.run {} forkCalls).conversations 5 value.conversationId value.id ∧ inRange none none value.id)
    .descending
    fun order limit cursor => (Memory.run {} forkCalls).scanEntries { conversationId := 5, order } limit cursor :=
  (scans_exact forkCalls (by decide)).2.2.2.2.2 (by decide) (.of_check (by decide)) { conversationId := 5 } (by decide)

/-- An entry of a fork with an id below the fork point. -/
def oldEntryCalls : List (List (List Write)) :=
  [[[.conversation { id := 2 }, .entry { id := 10, conversationId := 2 },
    .conversation { id := 11, parent := some { conversationId := 2, atEntry := 10 } },
    .entry { id := 5, conversationId := 11 }]]]

/-- A scan in pages of one skips the entry that the fork inherits. -/
theorem scan_skips_inherited :
    Followed (pages ((Memory.run {} oldEntryCalls).scanEntries { conversationId := 11 } 1)) none
      [{ id := 5, conversationId := 11 }] ∧
    (Memory.run {} oldEntryCalls).entries.lookup 10 = some { id := 10, conversationId := 2 } ∧
    Sees (Memory.run {} oldEntryCalls).conversations 11 2 10 := by
  have hFirst : pages ((Memory.run {} oldEntryCalls).scanEntries { conversationId := 11 } 1) none =
      .ok ([{ id := 5, conversationId := 11 }], some (nextCursor 5 .descending)) := by
    decide
  have hSecond : pages ((Memory.run {} oldEntryCalls).scanEntries { conversationId := 11 } 1)
      (some (nextCursor 5 .descending)) = .ok ([], none) := by
    decide
  have hOwner : (Memory.run {} oldEntryCalls).conversations.lookup 11 =
      some { id := 11, parent := some { conversationId := 2, atEntry := 10 } } := by
    decide
  exact ⟨.more hFirst (.last hSecond), by decide, .inherited hOwner rfl (Nat.le_refl 10) (.own 2 10)⟩

end OctoberHarness.Storage
