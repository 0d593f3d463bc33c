import OctoberHarness.Storage.SqliteView

/-! The maps and indexes of the in-memory storage hold the rows of the tables,
and so its reads are the reads of the tables. -/
namespace OctoberHarness.Storage

open List View SortedIds Function

/-- A map and a table with the same values. -/
def Copies {α : Type} (map rows : List (Nat × α)) : Prop :=
  ∀ id, map.lookup id = rows.lookup id

/-- The first submission of a conversation with a request id. -/
def isRequest (conversationId : Nat) (requestId : JsString) (value : SubmissionRecord) : Bool :=
  decide (value.conversationId = conversationId) && decide (value.requestId = some requestId)

/-- The in-memory state and the tables after the same commits. -/
structure Mirror (m : Memory) (d : Sqlite) : Prop where
  recordTypes : Copies m.recordTypes d.recordIds
  conversations : Copies m.conversations d.conversations
  conversationCount : m.conversations.length = d.conversations.length
  conversationIds : m.conversationIds = Table.select (fun _ => true) d.conversations
  ownerConversations : ∀ id, idsAt m.conversationIdsByOwnerConversation id =
    Table.select (fun value => decide (value.owner.map Owner.conversationId = some id)) d.conversations
  ownerTasks : ∀ id, idsAt m.conversationIdsByOwnerTask id =
    Table.select (fun value => decide (value.owner.map Owner.taskId = some id)) d.conversations
  entries : ∀ id, m.entries.lookup id = (d.entries.lookup id).map StoredEntry.entry
  entryCommitSeqs : ∀ id, m.entryCommitSeqs.lookup id = (d.entries.lookup id).map StoredEntry.commitSeq
  entryIds : ∀ id, idsAt m.entryIds id =
    Table.select (fun row => decide (row.entry.conversationId = id)) d.entries
  headEntryIds : ∀ id, idsAt m.headEntryIds id =
    Table.select (fun row => decide (row.entry.conversationId = id) && row.entry.head.isSome) d.entries
  tasks : Copies m.tasks d.tasks
  taskIds : m.taskIds = Table.select (fun _ => true) d.tasks
  taskIdsByStatus : ∀ status, idsAt m.taskIdsByStatus status =
    Table.select (fun value => decide (status = value.status)) d.tasks
  submissions : Copies m.submissions d.submissions
  submissionIds : m.submissionIds = Table.select (fun _ => true) d.submissions
  submissionIdsByStatus : ∀ status, idsAt m.submissionIdsByStatus status =
    Table.select (fun value => decide (status = value.status)) d.submissions
  documents : ∀ id, m.documents.lookup id =
    (d.documents.lookup id).map fun record => { record, revisions := revisions d id }
  addressIds : ∀ address, ((m.documentAddresses.lookup (addressKey address)).map AddressIndex.ids).getD [] =
    Table.select (fun record => decide (record.address = address)) d.documents
  scopeIds : ∀ scope, idsAt m.documentIdsByScope (scopeKey scope) =
    Table.select (fun record => decide (record.scope = scope)) d.documents
  nextSeq : m.nextSeq = d.nextSeq

/-- The current incarnation of every address. -/
def Current (m : Memory) (d : Sqlite) : Prop :=
  ∀ address, (m.documentAddresses.lookup (addressKey address)).bind AddressIndex.currentId =
    (Table.select (isIncarnation address .current) d.documents).head?

/-- A request id names one submission of its conversation. -/
def UniqueRequests (submissions : List (Nat × SubmissionRecord)) : Prop :=
  ∀ conversationId requestId a b first second, submissions.lookup a = some first → submissions.lookup b = some second →
    isRequest conversationId requestId first = true → isRequest conversationId requestId second = true → a = b

/-- The index of the requests, while each names one submission. -/
structure Requested (m : Memory) (d : Sqlite) : Prop where
  index : ∀ conversationId requestId, m.submissionIdsByRequest.lookup (conversationId, requestId) =
    (Table.select (isRequest conversationId requestId) d.submissions).head?
  unique : UniqueRequests d.submissions

namespace Memory

variable {α : Type} {steps id fuel : Nat}

theorem collect_eq (get : Nat → Option α) (keep : α → Bool) (count : Nat) (ids : List Nat)
    (hStored : ∀ id ∈ ids, get id ≠ none) :
    collect get keep count ids = .ok (((ids.filterMap get).filter keep).take count) := by
  induction ids generalizing count with
  | nil => cases count <;> simp [collect]
  | cons id rest ih =>
    cases count with
    | zero => simp [collect]
    | succ count =>
      have hRest := fun count => ih count fun id hMem => hStored id (mem_cons_of_mem _ hMem)
      obtain ⟨value, hValue⟩ := Option.ne_none_iff_exists'.mp (hStored id mem_cons_self)
      rw [collect, hValue, filterMap_cons, hValue]
      by_cases hKeep : keep value = true
      · simp [hKeep, hRest, bind, Except.bind]
      · simp [hKeep, hRest]

theorem scanIds_eq {ids : List Nat} (h : Increasing ids) (start : ScanStart) :
    scanIds ids start = ordered start.order (ids.filter (passes start)) := by
  obtain ⟨order, after⟩ := start
  have hAll : ∀ order, ids.filter (passes { order, after := none }) = ids := by
    intro order
    refine filter_eq_self.mpr fun id _ => ?_
    cases order <;> rfl
  cases order with
  | ascending =>
    cases after with
    | none => exact (hAll _).symm
    | some after =>
      refine (h.split_upperBound after).2.trans (filter_congr fun id _ => ?_)
      simp only [upTo, passes, Option.all_some, ← decide_not, decide_eq_decide]
      omega
  | descending =>
    cases after with
    | none => exact congrArg reverse (hAll _).symm
    | some after => exact congrArg reverse (h.split_lowerBound after).1

theorem filterMap_ordered {β : Type} (order : ScanOrder) (values : List α) (f : α → Option β) :
    (ordered order values).filterMap f = ordered order (values.filterMap f) := by
  cases order with
  | ascending => rfl
  | descending => exact filterMap_reverse

theorem filter_ordered (order : ScanOrder) (values : List α) (keep : α → Bool) :
    (ordered order values).filter keep = ordered order (values.filter keep) := by
  cases order with
  | ascending => rfl
  | descending => exact filter_reverse ..

theorem collect_scanIds {rows : List (Nat × α)} (hKeyed : Table.Keyed rows) {get : Nat → Option α}
    (hGet : ∀ id, get id = rows.lookup id) (condition keep both : α → Bool)
    (hBoth : ∀ value, both value = (condition value && keep value)) (start : ScanStart) (limit : Nat) :
    collect get keep (limit + 1) (scanIds (Table.select condition rows) start) =
      .ok (scan rows both start limit) := by
  obtain rfl : get = fun id => rows.lookup id := funext hGet
  have hIds : (Table.select condition rows).filter (passes start) =
      Table.ids (rows.filter fun row => condition row.2 && passes start row.1) := by
    rw [Table.select, Table.ids, Table.ids, filter_map, filter_filter]
    simp only [comp_def, Bool.and_comm]
  rw [scanIds_eq (hKeyed.increasing_select condition), hIds, collect_eq]
  · rw [filterMap_ordered, hKeyed.filterMap_lookup fun row hRow => (mem_filter.mp hRow).1, filter_ordered,
      filter_map, filter_filter, scan]
    simp only [comp_def, hBoth]
    have hFilter : (rows.filter fun row => keep row.2 && (condition row.2 && passes start row.1)) =
        rows.filter fun row => condition row.2 && keep row.2 && passes start row.1 := by
      refine filter_congr fun row _ => ?_
      rw [← Bool.and_assoc, Bool.and_comm (keep row.2)]
    rw [hFilter]
  · intro id hMem
    have hRow : id ∈ Table.ids (rows.filter fun row => condition row.2 && passes start row.1) := by
      cases hOrder : start.order with
      | ascending => simpa [hOrder, ordered] using hMem
      | descending => simpa [hOrder, ordered] using hMem
    obtain ⟨row, hFound, rfl⟩ := mem_map.mp hRow
    rw [(Table.mem_rows_iff hKeyed row.1 row.2).mp (mem_filter.mp hFound).1]
    exact Option.some_ne_none _

variable {m : Memory} {d : Sqlite} {record : ConversationRecord}

section

variable (h : Mirror m d)

include h

theorem segmentIds_eq (hKeyed : Table.Keyed d.entries) (id : Nat) (lower upper : Option Int) : m.segmentIds id lower upper =
      (Table.ids (d.entries.filter fun row => Sqlite.inSegment id lower upper row.1 row.2)).reverse := by
  have hIncreasing := hKeyed.increasing_select fun row => decide (row.entry.conversationId = id)
  have hTake : m.segmentIds id lower upper =
      ((Table.select (fun row => decide (row.entry.conversationId = id)) d.entries).filter
        fun (id : Nat) => upper.all fun upper => decide ((id : Int) ≤ upper)).reverse.takeWhile
          fun (id : Nat) => lower.all fun lower => decide (lower ≤ (id : Int)) := by
    cases upper with
    | none => simp [segmentIds, h.entryIds]
    | some upper =>
      simp only [segmentIds, h.entryIds, (hIncreasing.split_upperBound upper).1]
      rfl
  have hBelow : Partitioned (fun (id : Nat) => lower.all fun lower => decide (lower ≤ (id : Int)))
      ((Table.select (fun row => decide (row.entry.conversationId = id)) d.entries).filter
        fun (id : Nat) => upper.all fun upper => decide ((id : Int) ≤ upper)).reverse := by
    rw [Partitioned, pairwise_reverse]
    refine (hIncreasing.filter _).imp fun hLess hBelow => ?_
    cases lower with
    | none => rfl
    | some lower =>
      simp only [Option.all_some, decide_eq_true_eq] at hBelow ⊢
      omega
  rw [hTake, hBelow.takeWhile_eq, filter_reverse, filter_filter, Table.select, Table.ids,
    filter_map, filter_filter, Table.ids]
  refine congrArg reverse (congrArg (map Prod.fst) (filter_congr fun row _ => ?_))
  simp only [comp_apply, Sqlite.inSegment]
  rw [Bool.and_comm, Bool.and_assoc]

theorem collect_entries (hKeyed : Table.Keyed d.entries)
    {rows : List (Nat × StoredEntry)} (hRows : ∀ row ∈ rows, row ∈ d.entries) (count : Nat) :
    collect (lookup · m.entries) (fun _ => true) count (Table.ids rows) =
      .ok (((rows.map Prod.snd).map StoredEntry.entry).take count) := by
  have hGet : (fun id => m.entries.lookup id) = fun id => (d.entries.lookup id).map StoredEntry.entry :=
    funext h.entries
  rw [hGet, collect_eq]
  · rw [filter_eq_self.mpr fun _ _ => rfl, ← hKeyed.filterMap_lookup hRows, map_filterMap]
  · intro id hMem
    obtain ⟨row, hRow, rfl⟩ := mem_map.mp hMem
    rw [(Table.mem_rows_iff hKeyed row.1 row.2).mp (hRows row hRow)]
    exact Option.some_ne_none _

theorem collect_segment (hKeyed : Table.Keyed d.entries) (id : Nat) (lower upper : Option Int) (count : Nat) :
    collect (lookup · m.entries) (fun _ => true) count (m.segmentIds id lower upper) =
      .ok ((Sqlite.select d.entries (Sqlite.inSegment id lower upper) .descending count).map StoredEntry.entry) := by
  have hReverse : ∀ rows : List (Nat × StoredEntry), (Table.ids rows).reverse = Table.ids rows.reverse :=
    fun rows => map_reverse.symm
  rw [segmentIds_eq h hKeyed, hReverse, collect_entries h hKeyed fun row hRow =>
    (mem_filter.mp (mem_reverse.mp hRow)).1, Sqlite.select_eq, ordered, map_take, map_reverse]

theorem visibleFrom_eq (hSound : d.Sound) (lower : Option Int) (hRooted : Rooted d.conversations steps id)
    (hFuel : steps < fuel) (hLookup : d.conversations.lookup id = some record) (upper : Option Int) (count : Nat) :
    m.visibleFrom lower fuel id upper count = d.entriesFrom lower fuel record upper count := by
  refine Rooted.induction (motive := fun fuel id record => ∀ upper count,
    m.visibleFrom lower fuel id upper count = d.entriesFrom lower fuel record upper count) ?_ ?_
    hRooted hFuel hLookup upper count
  · intro fuel id record hRecord hParent upper count
    rw [visibleFrom, Sqlite.entriesFrom, collect_segment h hSound.entries.1, hSound.conversations.2 id record hRecord,
      h.conversations id, hRecord]
    simp only [bind, Except.bind, hParent]
  · intro fuel id record parent next hRecord hParent hNext ih upper count
    rw [visibleFrom, Sqlite.entriesFrom, collect_segment h hSound.entries.1, hSound.conversations.2 id record hRecord,
      h.conversations id, hRecord]
    simp only [bind, Except.bind, hParent, hNext, ih]

theorem segments_eq (hSound : d.Sound) (lower : Option Int) (hRooted : Rooted d.conversations steps id)
    (hFuel : steps < fuel) (hLookup : d.conversations.lookup id = some record) (upper : Option Int) :
    m.segments lower fuel id upper = d.segments lower fuel record upper := by
  refine Rooted.induction (motive := fun fuel id record => ∀ upper,
    m.segments lower fuel id upper = d.segments lower fuel record upper) ?_ ?_ hRooted hFuel hLookup upper
  · intro fuel id record hRecord hParent upper
    rw [segments, Sqlite.segments, hSound.conversations.2 id record hRecord, h.conversations id, hRecord]
    simp only [hParent]
  · intro fuel id record parent next hRecord hParent hNext ih upper
    rw [segments, Sqlite.segments, hSound.conversations.2 id record hRecord, h.conversations id, hRecord]
    simp only [hParent, hNext, ih]

theorem headIds_eq (hKeyed : Table.Keyed d.entries) (id : Nat)
    (upper : Option Int) : m.headIds id upper = Table.ids (d.entries.filter fun row =>
      Sqlite.inSegment id none upper row.1 row.2 && row.2.entry.head.isSome) := by
  have hIncreasing := hKeyed.increasing_select fun row =>
    decide (row.entry.conversationId = id) && row.entry.head.isSome
  have hTake : m.headIds id upper =
      (Table.select (fun row => decide (row.entry.conversationId = id) && row.entry.head.isSome) d.entries).filter
        fun (id : Nat) => upper.all fun upper => decide ((id : Int) ≤ upper) := by
    cases upper with
    | none => simp [headIds, h.headEntryIds]
    | some upper =>
      simp only [headIds, h.headEntryIds, (hIncreasing.split_upperBound upper).1]
      rfl
  rw [hTake, Table.select, Table.ids, filter_map, filter_filter, Table.ids]
  refine congrArg (map Prod.fst) (filter_congr fun row _ => ?_)
  simp only [comp_apply, Sqlite.inSegment, Option.all_none, Bool.and_true]
  rw [Bool.and_comm, Bool.and_right_comm]

theorem headFrom_eq (hSound : d.Sound) (hRooted : Rooted d.conversations steps id) (hFuel : steps < fuel)
    (hLookup : d.conversations.lookup id = some record) (upper : Option Int) :
    m.headFrom fuel id upper = d.headFrom fuel record upper := by
  have hLast : ∀ id upper, ∃ last : Option (Nat × StoredEntry), (m.headIds id upper).getLast? = last.map Prod.fst ∧
      (Sqlite.select d.entries (fun key row => Sqlite.inSegment id none upper key row && row.entry.head.isSome)
        .descending 1).head? = last.map Prod.snd ∧ ∀ row, last = some row → d.entries.lookup row.1 = some row.2 := by
    intro id upper
    refine ⟨_, by rw [headIds_eq h hSound.entries.1, Table.ids, getLast?_map], ?_, fun row hRow => ?_⟩
    · rw [Sqlite.select_eq, head?_take, if_neg (by decide), ordered, head?_reverse, getLast?_map]
    · have hMem := mem_of_getLast? hRow
      exact (Table.mem_rows_iff hSound.entries.1 row.1 row.2).mp (mem_filter.mp hMem).1
  refine Rooted.induction (motive := fun fuel id record => ∀ upper,
    m.headFrom fuel id upper = d.headFrom fuel record upper) ?_ ?_ hRooted hFuel hLookup upper
  · intro fuel id record hRecord hParent upper
    obtain ⟨last, hIds, hSelect, hStored⟩ := hLast id upper
    rw [headFrom, Sqlite.headFrom, hSound.conversations.2 id record hRecord, h.conversations id, hRecord, hIds, hSelect]
    cases last with
    | none => simp [hParent]
    | some row => simp [h.entries, hStored row rfl]
  · intro fuel id record parent next hRecord hParent hNext ih upper
    obtain ⟨last, hIds, hSelect, hStored⟩ := hLast id upper
    rw [headFrom, Sqlite.headFrom, hSound.conversations.2 id record hRecord, h.conversations id, hRecord, hIds, hSelect]
    cases last with
    | none => simp [hParent, hNext, ih]
    | some row => simp [h.entries, hStored row rfl]

theorem ascendingIds_eq (hKeyed : Table.Keyed d.entries)
    (lower : Option Int) (segment : Nat × Option Int) : m.ascendingIds lower segment =
      Table.ids (d.entries.filter fun row => Sqlite.inSegment segment.1 lower segment.2 row.1 row.2) := by
  obtain ⟨id, upper⟩ := segment
  have hIncreasing := hKeyed.increasing_select fun row => decide (row.entry.conversationId = id)
  have hDrop : m.ascendingIds lower (id, upper) =
      ((Table.select (fun row => decide (row.entry.conversationId = id)) d.entries).filter
        fun (id : Nat) => lower.all fun lower => decide (lower ≤ (id : Int))).takeWhile
          fun (id : Nat) => upper.all fun upper => decide ((id : Int) ≤ upper) := by
    cases lower with
    | none => simp [ascendingIds, h.entryIds]
    | some lower =>
      simp only [ascendingIds, h.entryIds, (hIncreasing.split_lowerBound lower).2]
      refine congrArg (takeWhile _) (filter_congr fun id _ => ?_)
      simp only [before, Option.all_some, ← decide_not, decide_eq_decide]
      omega
  have hBelow : Partitioned (fun (id : Nat) => upper.all fun upper => decide ((id : Int) ≤ upper))
      ((Table.select (fun row => decide (row.entry.conversationId = id)) d.entries).filter
        fun (id : Nat) => lower.all fun lower => decide (lower ≤ (id : Int))) := by
    refine (hIncreasing.filter _).imp fun hLess hBelow => ?_
    cases upper with
    | none => rfl
    | some upper =>
      simp only [Option.all_some, decide_eq_true_eq] at hBelow ⊢
      omega
  rw [hDrop, hBelow.takeWhile_eq, filter_filter, Table.select, Table.ids,
    filter_map, filter_filter, Table.ids]
  refine congrArg (map Prod.fst) (filter_congr fun row _ => ?_)
  simp only [comp_apply, Sqlite.inSegment]
  rw [Bool.and_comm, ← Bool.and_assoc, Bool.and_right_comm]

theorem chainFuel_eq : m.chainFuel = d.chainFuel := by
  rw [chainFuel, Sqlite.chainFuel, h.conversationCount]

theorem visibleEntries_eq (hSound : d.Sound) (id : Nat)
    (lower upper : Option Int) (count : Nat) : m.visibleEntries id lower upper count =
      ofConversation d id (.ok (((visible d id lower upper).map StoredEntry.entry).take count)) := by
  rw [visibleEntries, ofConversation, h.conversations id]
  cases hLookup : d.conversations.lookup id with
  | none => rfl
  | some record =>
    obtain ⟨steps, hSteps, hRooted⟩ := hSound.rooted hLookup
    rw [chainFuel_eq h, visibleFrom_eq h hSound lower hRooted hSteps hLookup,
      Sqlite.entriesFrom_eq hSound.conversations lower hRooted hSteps hLookup]
    rfl

theorem visibleEntriesAscending_eq (hSound : d.Sound) (id : Nat)
    (lower upper : Option Int) (count : Nat) : m.visibleEntriesAscending id lower upper count =
      ofConversation d id (.ok (((visible d id lower upper).reverse.map StoredEntry.entry).take count)) := by
  rw [visibleEntriesAscending, ofConversation, h.conversations id]
  cases hLookup : d.conversations.lookup id with
  | none => rfl
  | some record =>
    obtain ⟨steps, hSteps, hRooted⟩ := hSound.rooted hLookup
    obtain ⟨segments, hSegments, hRows⟩ := Sqlite.segments_eq hSound.conversations
      (fun _ (hEmpty : isEmptyRange lower _ = true) => hEmpty) hRooted hSteps hLookup upper
    have hIds : segments.reverse.flatMap (m.ascendingIds lower) = Table.ids (segments.reverse.flatMap fun segment =>
        d.entries.filter fun row => Sqlite.inSegment segment.1 lower segment.2 row.1 row.2) := by
      rw [Table.ids, map_flatMap]
      exact congrArg (flatMap · _) (funext fun segment => ascendingIds_eq h hSound.entries.1 lower segment)
    rw [chainFuel_eq h, Memory.segments_eq h hSound lower hRooted hSteps hLookup, hSegments]
    simp only [Option.isNone_some, bind, Except.bind]
    rw [hIds, collect_entries h hSound.entries.1]
    · rw [visible, ← hRows, ← Sqlite.flatMap_reverse, map_flatMap]
      simp only [segmentRows, reverse_reverse]
    · intro row hRow
      obtain ⟨segment, -, hRow⟩ := mem_flatMap.mp hRow
      exact (mem_filter.mp hRow).1

end

theorem ofConversation_bind {β : Type} (d : Sqlite) (id : Nat) (result : Except ReadError α) (next : α → Except ReadError β) :
    (ofConversation d id result >>= next) = ofConversation d id (result >>= next) := by
  rw [ofConversation, ofConversation]
  split_ifs <;> rfl

theorem visibleEntry_eq (h : Mirror m d) (hSound : d.Sound) (conversationId id : Nat) :
    m.visibleEntry conversationId id =
      ofConversation d conversationId (.ok (visible d conversationId (some id) (some id)).head?) := by
  rw [visibleEntry, visibleEntries_eq h hSound, ofConversation_bind]
  refine congrArg _ ?_
  simp only [bind, Except.bind]
  rw [head?_take, if_neg (by decide), head?_map]
  cases hHead : (visible d conversationId (some id) (some id)).head? with
  | none => rfl
  | some row =>
    have hRow := Sqlite.mem_visible_point hSound.entries.1 (mem_of_head? hHead)
    simp [h.entryCommitSeqs, hRow]

theorem scanEntries_eq (h : Mirror m d) (hSound : d.Sound) (query : EntryQuery)
    (limit : Nat) (cursor : Option Cursor) : m.scanEntries query limit cursor = (do
      let start ← scanStart query.order cursor .descending
      ofConversation d query.conversationId (View.entries d query limit start)) := by
  rw [scanEntries]
  refine congrArg _ (funext fun start => ?_)
  obtain ⟨order, after⟩ := start
  cases order with
  | descending =>
    cases after with
    | none => simp only [visibleEntries_eq h hSound, ofConversation_bind]; rfl
    | some after =>
      have hUpper : some (min (query.maxEntryId.getD after) (after - 1)) =
          narrowUpper query.maxEntryId (after - 1) := by
        cases query.maxEntryId with
        | none =>
          simp only [narrowUpper, Option.getD_none, Option.some.injEq]
          omega
        | some upper => rfl
      simp only [hUpper, visibleEntries_eq h hSound, ofConversation_bind]
      rfl
  | ascending =>
    cases after with
    | none => simp only [visibleEntriesAscending_eq h hSound, ofConversation_bind]; rfl
    | some after =>
      have hLower : some (max (query.minEntryId.getD after) (after + 1)) =
          narrowLower query.minEntryId (after + 1) := by
        cases query.minEntryId with
        | none =>
          simp only [narrowLower, Option.getD_none, Option.some.injEq]
          omega
        | some lower => rfl
      simp only [hLower, visibleEntriesAscending_eq h hSound, ofConversation_bind]
      rfl

theorem findLatestHeadMarker_eq (h : Mirror m d) (hSound : d.Sound) (id : Nat)
    (atOrBefore : Option Nat) : m.findLatestHeadMarker id atOrBefore = d.findLatestHeadMarker id atOrBefore := by
  rw [findLatestHeadMarker, Sqlite.findLatestHeadMarker, h.conversations id]
  cases hLookup : d.conversations.lookup id with
  | none => rfl
  | some record =>
    obtain ⟨steps, hSteps, hRooted⟩ := hSound.rooted hLookup
    rw [chainFuel_eq h]
    exact headFrom_eq h hSound hRooted hSteps hLookup _

/-- The outcome of a replay that may end at a version boundary. -/
def outcome (id : Nat) (crosses : Bool) (result : Except Delta.DeltaError JsonValue) : Except ReadError JsonValue :=
  match result with
  | .error _ => .error (.delta id)
  | .ok value => if crosses then .error (.versionBoundary id) else .ok value

theorem outcome_same (id : Nat) (crosses : Bool) {first second : Except Delta.DeltaError JsonValue}
    (h : Delta.SameResult first second) : outcome id crosses first = outcome id crosses second := by
  cases first <;> cases second <;> simp_all [Delta.SameResult, Except.toOption, outcome]

theorem outcome_apply (id version : Nat) (base : JsonValue) (rest : List Revision) :
    outcome id (documentDeltaBatches version rest).2 (Delta.apply base (documentDeltaBatches version rest).1.flatten) =
      rest.foldlM (Sqlite.applyRevision id version) base := by
  induction rest generalizing base with
  | nil => rfl
  | cons revision rest ih =>
    rw [documentDeltaBatches, foldlM_cons, Sqlite.applyRevision]
    cases revision.content with
    | base version value => rfl
    | delta found ops =>
      simp only
      split_ifs with hVersion
      · rfl
      · simp only [flatten_cons]
        rw [Delta.apply, foldlM_append, ← Delta.apply]
        cases hOps : Delta.apply base ops with
        | error error => rfl
        | ok value => exact ih value

theorem materializeDocument_eq (h : Mirror m d) (id : Nat) (point : DocumentPoint) :
    m.materializeDocument id point = documentAt d id point := by
  rw [materializeDocument, documentAt, h.documents]
  cases d.documents.lookup id with
  | none => rfl
  | some record =>
    simp only [Option.map_some, document]
    split_ifs
    · rfl
    · rfl
    · cases lastBase (revisionsAt (revisions d id) point) with
      | none => rfl
      | some found =>
        obtain ⟨version, base, rest⟩ := found
        simp only
        rw [← outcome_apply, ← outcome_same id _ (Delta.applyImmutableBatches_same (fun _ _ => false) base _)]
        cases Delta.applyImmutableBatches (fun _ _ => false) base (documentDeltaBatches version rest).1 with
        | error error => rfl
        | ok value =>
          simp only [outcome]
          split_ifs <;> rfl

theorem firstAlive_eq (h : Mirror m d) (hKeyed : Table.Keyed d.documents)
    (point : DocumentPoint) {rows : List (Nat × DocumentRecord)} (hRows : ∀ row ∈ rows, row ∈ d.documents) :
    m.firstAlive point (Table.ids rows) = .ok ((rows.map Prod.snd).find? fun record => isAliveAt record point) := by
  induction rows with
  | nil => rfl
  | cons row rest ih =>
    have hRest := ih fun row hRow => hRows row (mem_cons_of_mem _ hRow)
    have hRow := (Table.mem_rows_iff hKeyed row.1 row.2).mp (hRows row mem_cons_self)
    rw [Table.ids, map_cons, firstAlive, h.documents, hRow, map_cons, find?_cons]
    simp only [Option.map_some]
    cases hAlive : isAliveAt row.2 point with
    | true => rfl
    | false => exact hRest

theorem findDocument_eq (h : Mirror m d) (hCurrent : Current m d) (hKept : d.Kept) (address : DocumentAddress)
    (point : DocumentPoint) :
    m.findDocument address point = .ok ((d.documents.map Prod.snd).find? (isIncarnation address point)) := by
  have hFind : ∀ (condition : DocumentRecord → Bool), (d.documents.map Prod.snd).find? condition =
      ((d.documents.filter fun row => condition row.2).head?).map Prod.snd := by
    intro condition
    rw [← head?_filter, filter_map, head?_map]
    rfl
  rw [findDocument.eq_def, hFind]
  cases point with
  | current =>
    simp only [hCurrent address, Table.select, Table.ids, head?_map]
    cases hHead : (d.documents.filter fun row => isIncarnation address .current row.2).head? with
    | none => rfl
    | some row =>
      have hMem := (mem_filter.mp (mem_of_head? hHead)).1
      have hRow := (Table.mem_rows_iff hKept.documents.1 row.1 row.2).mp hMem
      simp [h.documents, hRow]
  | «at» seq =>
    simp only [h.addressIds, Table.select]
    rw [firstAlive_eq h hKept.documents.1 (.at seq) fun row hRow => (mem_filter.mp hRow).1,
      ← head?_filter, filter_map, head?_map, filter_filter]
    simp only [comp_def, isIncarnation, Bool.and_comm]

theorem read_eq_view (h : Mirror m d) (hCurrent : Current m d)
    (hKept : d.Kept) (read : Read) (hRequested : read.namesRequest = true → Requested m d)
    (hForest : read.walksForks = true → Forest d.conversations) : m.read read = View.read d read := by
  cases read with
  | conversation id => simp only [Memory.read, View.read, h.conversations id]
  | scanConversations query limit cursor =>
    simp only [Memory.read, View.read, scanConversations]
    congr 1
    refine congrArg _ (funext fun start => ?_)
    obtain ⟨ownerConversationId, ownerTaskId, order⟩ := query
    cases ownerTaskId with
    | some task =>
      simp only [h.ownerTasks]
      rw [collect_scanIds hKept.conversations.1 h.conversations _ _ (keepsConversation _)]
      · rfl
      · exact fun value => Bool.and_comm _ _
    | none =>
      cases ownerConversationId with
      | some conversation =>
        simp only [h.ownerConversations]
        rw [collect_scanIds hKept.conversations.1 h.conversations _ _ (keepsConversation _)]
        · rfl
        · intro value
          simp [keepsConversation]
      | none =>
        simp only [h.conversationIds]
        rw [collect_scanIds hKept.conversations.1 h.conversations _ _ (keepsConversation _)]
        · rfl
        · exact fun value => rfl
  | entry id =>
    simp only [Memory.read, View.read, Memory.entry, h.entries, h.entryCommitSeqs]
    cases d.entries.lookup id <;> rfl
  | visibleEntry conversationId id => rw [Memory.read, View.read, visibleEntry_eq h { hKept with forest := hForest rfl }]
  | findLatestHeadMarker id atOrBefore =>
    have hSound : d.Sound := { hKept with forest := hForest rfl }
    rw [Memory.read, View.read, findLatestHeadMarker_eq h hSound, Sqlite.findLatestHeadMarker_eq hSound]
  | scanEntries query limit cursor => rw [Memory.read, View.read, scanEntries_eq h { hKept with forest := hForest rfl }]
  | task id => simp only [Memory.read, View.read, h.tasks id]
  | scanTasks query limit cursor =>
    simp only [Memory.read, View.read, scanTasks]
    congr 1
    refine congrArg _ (funext fun start => ?_)
    cases hStatus : query.status with
    | none =>
      simp only [h.taskIds]
      rw [collect_scanIds hKept.tasks.1 h.tasks _ _ (keepsTask query)]
      · rfl
      · intro value
        simp [keepsTask, hStatus]
    | some status =>
      simp only [h.taskIdsByStatus]
      rw [collect_scanIds hKept.tasks.1 h.tasks _ _ (keepsTask query)]
      · rfl
      · intro value
        simp [keepsTask, hStatus]
  | submission id => simp only [Memory.read, View.read, h.submissions id]
  | scanSubmissions query limit cursor =>
    simp only [Memory.read, View.read, scanSubmissions]
    congr 1
    refine congrArg _ (funext fun start => ?_)
    cases hStatus : query.status with
    | none =>
      simp only [h.submissionIds]
      rw [collect_scanIds hKept.submissions.1 h.submissions _ _ (keepsSubmission query)]
      · rfl
      · intro value
        simp [keepsSubmission, hStatus]
    | some status =>
      simp only [h.submissionIdsByStatus]
      rw [collect_scanIds hKept.submissions.1 h.submissions _ _ (keepsSubmission query)]
      · rfl
      · intro value
        simp [keepsSubmission, hStatus]
  | submissionByRequest conversationId requestId =>
    simp only [Memory.read, View.read, submissionByRequest]
    rw [(hRequested rfl).index, Table.select, Table.ids, head?_map, ← head?_filter, filter_map,
      head?_map]
    simp only [comp_def]
    change _ = Except.ok (ReadResult.submission (Option.map Prod.snd
      (d.submissions.filter fun row => isRequest conversationId requestId row.2).head?))
    cases hHead : (d.submissions.filter fun row => isRequest conversationId requestId row.2).head? with
    | none => rfl
    | some row =>
      have hMem := (mem_filter.mp (mem_of_head? hHead)).1
      have hRow := (Table.mem_rows_iff hKept.submissions.1 row.1 row.2).mp hMem
      simp only [Option.map_some, h.submissions row.1, hRow]
      rfl
  | findDocument address point => rw [Memory.read, View.read, findDocument_eq h hCurrent hKept]; rfl
  | document id point => rw [Memory.read, View.read, materializeDocument_eq h]
  | scanDocuments query limit cursor =>
    have hGet : ∀ id, (m.documents.lookup id).map DocumentState.record = d.documents.lookup id := by
      intro id
      rw [h.documents, Option.map_map]
      exact Option.map_id'
    simp only [Memory.read, View.read, scanDocuments, h.scopeIds]
    congr 1
    refine congrArg _ (funext fun after => ?_)
    rw [collect_scanIds hKept.documents.1 hGet _ _ (keepsDocument query)]
    · rfl
    · exact fun record => Bool.and_assoc _ _ _

end Memory

end OctoberHarness.Storage
