import OctoberHarness.Storage.View
import OctoberHarness.Json.RoundTrip

/-! The reads of the SQLite storage are the reads of its tables. -/
namespace OctoberHarness.Storage

open View Function List Option

/-- Rows under their own ids, in key order. -/
def Named {α : Type} (id : α → Nat) (rows : List (Nat × α)) : Prop :=
  Table.Keyed rows ∧ ∀ key value, rows.lookup key = some value → id value = key

/-- Every id is below the last one a number holds exactly. -/
def Bounded {α : Type} (rows : List (Nat × α)) : Prop :=
  ∀ id ∈ Table.ids rows, id < MAX_SAFE_INTEGER

variable {α : Type} {id : Nat} {rows : List (Nat × α)} {d : Sqlite} {conversation : ConversationRecord}

theorem Named.of_mem {id : α → Nat} (h : Named id rows) {row : Nat × α} (hMem : row ∈ rows) : id row.2 = row.1 :=
  h.2 row.1 row.2 ((Table.mem_rows_iff h.1 row.1 row.2).mp hMem)

namespace Sqlite

theorem select_eq (rows : List (Nat × α)) (condition : Nat → α → Bool) (order : ScanOrder) (limit : Nat) :
    select rows condition order limit =
      (ordered order ((rows.filter fun row => condition row.1 row.2).map Prod.snd)).take limit := by
  cases order <;> rfl

theorem scanSql_eq_passes (start : ScanStart) (id : Nat) (h : id < MAX_SAFE_INTEGER) :
    scanSql start id = passes start id := by
  obtain ⟨order, after⟩ := start
  cases order <;> cases after <;> simp [scanSql, passes] <;> omega

/-- A cursor holds an exact number. -/
theorem scanStart_after {requested : Option ScanOrder} {cursor : Option Cursor} {fallback : ScanOrder}
    {start : ScanStart} {after : Int} (h : scanStart requested cursor fallback = .ok start)
    (hAfter : start.after = some after) : after ≤ MAX_SAFE_INTEGER := by
  have hSafe : ∀ {value : JsonValue} {n : Int}, safeInteger value = some n → n ≤ MAX_SAFE_INTEGER := by
    intro value n hValue
    cases value with
    | num x =>
      simp only [safeInteger] at hValue
      split_ifs at hValue with hBound
      simp only [some.injEq] at hValue
      omega
    | null => simp [safeInteger] at hValue
    | bool b => simp [safeInteger] at hValue
    | str s => simp [safeInteger] at hValue
    | arr items => simp [safeInteger] at hValue
    | obj fields => simp [safeInteger] at hValue
  cases cursor with
  | none =>
    simp only [scanStart, Except.ok.injEq] at h
    rw [← h] at hAfter
    simp at hAfter
  | some cursor =>
    cases hFound : cursor.after.bind safeInteger with
    | none => simp [scanStart, hFound] at h
    | some found =>
      have hBound : found ≤ MAX_SAFE_INTEGER := by
        obtain ⟨value, -, hValue⟩ := Option.bind_eq_some_iff.mp hFound
        exact hSafe hValue
      simp only [scanStart, hFound, bind, Except.bind] at h
      cases hOrder : storedOrder cursor with
      | error error => simp [hOrder] at h
      | ok stored =>
        rw [hOrder] at h
        cases requested with
        | none =>
          simp only [Except.ok.injEq] at h
          rw [← h] at hAfter
          exact some.inj hAfter ▸ hBound
        | some wanted =>
          simp only at h
          split_ifs at h
          simp only [Except.ok.injEq] at h
          rw [← h] at hAfter
          exact some.inj hAfter ▸ hBound

theorem select_eq_scan (hBounded : Bounded rows) (keep : α → Bool) (start : ScanStart) (limit : Nat)
    {condition : Nat → α → Bool} (hCondition : ∀ id value, condition id value = (keep value && scanSql start id)) :
    select rows condition start.order (limit + 1) = scan rows keep start limit := by
  rw [select_eq, scan]
  have hFilter : (rows.filter fun row => condition row.1 row.2) =
      rows.filter fun row => keep row.2 && passes start row.1 := by
    refine filter_congr fun row hMem => ?_
    rw [hCondition, scanSql_eq_passes start row.1 (hBounded row.1 (mem_map_of_mem hMem))]
  rw [hFilter]

theorem select_segment (d : Sqlite) (id : Nat) (lower upper : Option Int) (count : Nat) :
    select d.entries (inSegment id lower upper) .descending count =
      (segmentRows d.entries lower (id, upper)).take count :=
  rfl

theorem take_append_parts (first second : List α) (count : Nat) (h : (first.take count).length ≠ count) :
    (first ++ second).take count = first.take count ++ second.take (count - (first.take count).length) := by
  have hLength : first.length < count := by
    rw [length_take] at h
    omega
  rw [take_append, take_of_length_le (Nat.le_of_lt hLength)]

theorem take_append_full (first second : List α) (count : Nat) (h : (first.take count).length = count) :
    (first ++ second).take count = first.take count := by
  rw [length_take] at h
  rw [take_append_of_le_length (by omega)]

variable {fuel steps : Nat} {lower : Option Int} {row : StoredEntry}

/-- The loop of `readEntries` returns the newest entries of the chain. -/
theorem entriesFrom_eq (hNamed : Named ConversationRecord.id d.conversations) (lower : Option Int)
    (hRooted : Rooted d.conversations steps id) (hFuel : steps < fuel)
    (hLookup : d.conversations.lookup id = some conversation) (upper : Option Int) (count : Nat) :
    d.entriesFrom lower fuel conversation upper count =
      .ok ((((chain d.conversations fuel id upper).flatMap (segmentRows d.entries lower)).map
        StoredEntry.entry).take count) := by
  refine Rooted.induction (motive := fun fuel id conversation => ∀ upper count,
    d.entriesFrom lower fuel conversation upper count =
      .ok ((((chain d.conversations fuel id upper).flatMap (segmentRows d.entries lower)).map
        StoredEntry.entry).take count)) ?_ ?_ hRooted hFuel hLookup upper count
  · intro fuel id record hRecord hParent upper count
    rw [entriesFrom, hNamed.2 id record hRecord, chain_root hRecord hParent, flatMap_singleton]
    simp [select_segment, hParent, map_take]
  · intro fuel id record parent next hRecord hParent hNext ih upper count
    rw [entriesFrom, hNamed.2 id record hRecord, chain_fork hRecord hParent, flatMap_cons, map_append,
      select_segment, map_take]
    simp only [hParent, hNext]
    split_ifs with hFull hEmpty
    · rw [take_append_full _ _ _ hFull]
    · rw [chain_empty _ _ _ _ hEmpty, map_nil, append_nil]
    · rw [ih, take_append_parts _ _ _ hFull]
      rfl

variable {narrower : Option Int}

/-- The segments of `readEntriesAscending` hold all entries of the chain in the
range, whatever narrower range is read of them. -/
theorem segments_eq (hNamed : Named ConversationRecord.id d.conversations)
    (hNarrower : ∀ upper, isEmptyRange lower upper = true → isEmptyRange narrower upper = true)
    (hRooted : Rooted d.conversations steps id) (hFuel : steps < fuel)
    (hLookup : d.conversations.lookup id = some conversation) (upper : Option Int) :
    ∃ segments, d.segments lower fuel conversation upper = .ok segments ∧
      segments.flatMap (segmentRows d.entries narrower) =
        (chain d.conversations fuel id upper).flatMap (segmentRows d.entries narrower) := by
  refine Rooted.induction (motive := fun fuel id conversation => ∀ upper,
    ∃ segments, d.segments lower fuel conversation upper = .ok segments ∧
      segments.flatMap (segmentRows d.entries narrower) =
        (chain d.conversations fuel id upper).flatMap (segmentRows d.entries narrower)) ?_ ?_
    hRooted hFuel hLookup upper
  · intro fuel id record hRecord hParent upper
    rw [segments, hNamed.2 id record hRecord, chain_root hRecord hParent, hParent]
    exact ⟨_, rfl, rfl⟩
  · intro fuel id record parent next hRecord hParent hNext ih upper
    rw [segments, hNamed.2 id record hRecord, chain_fork hRecord hParent]
    simp only [hParent, hNext]
    split_ifs with hEmpty
    · refine ⟨_, rfl, ?_⟩
      rw [flatMap_cons, flatMap_cons, chain_empty _ _ _ _ (hNarrower _ hEmpty)]
      rfl
    · obtain ⟨segments, hSegments, hRows⟩ := ih (narrowUpper upper parent.atEntry)
      refine ⟨(id, upper) :: segments, by rw [hSegments]; rfl, ?_⟩
      rw [flatMap_cons, flatMap_cons, hRows]

theorem ascendingFrom_eq (d : Sqlite) (lower : Option Int) (segments : List (Nat × Option Int)) (count : Nat) :
    d.ascendingFrom lower segments count =
      ((segments.flatMap fun segment => (segmentRows d.entries lower segment).reverse).map
        StoredEntry.entry).take count := by
  induction segments generalizing count with
  | nil => simp [ascendingFrom]
  | cons segment rest ih =>
    have hSelect : select d.entries (inSegment segment.1 lower segment.2) .ascending count =
        (segmentRows d.entries lower segment).reverse.take count := by
      rw [segmentRows, reverse_reverse]
      rfl
    rw [ascendingFrom, hSelect, flatMap_cons, map_append, map_take, ih]
    split_ifs with hFull
    · rw [take_append_full _ _ _ hFull]
    · rw [take_append_parts _ _ _ hFull]

theorem flatMap_reverse {α β : Type} (segments : List α) (rows : α → List β) :
    (segments.reverse.flatMap fun segment => (rows segment).reverse) = (segments.flatMap rows).reverse := by
  induction segments with
  | nil => rfl
  | cons segment rest ih => simp [ih]

/-- The loop of `readLatestHeadMarker` finds the newest head marker of the chain. -/
theorem headFrom_eq (hNamed : Named ConversationRecord.id d.conversations) (hRooted : Rooted d.conversations steps id)
    (hFuel : steps < fuel) (hLookup : d.conversations.lookup id = some conversation) (upper : Option Int) :
    d.headFrom fuel conversation upper =
      .ok ((((chain d.conversations fuel id upper).flatMap (segmentRows d.entries none)).map
        StoredEntry.entry).find? fun entry => entry.head.isSome) := by
  have hSegment : ∀ id upper, (select d.entries
      (fun key row => inSegment id none upper key row && row.entry.head.isSome) .descending 1).head? =
      (segmentRows d.entries none (id, upper)).find? fun row => row.entry.head.isSome := by
    intro id upper
    rw [← head?_filter, segmentRows, filter_reverse, List.filter_map, List.filter_filter, select_eq,
      head?_take, if_neg (by decide), ordered]
    simp only [comp_def, Bool.and_comm]
  refine Rooted.induction (motive := fun fuel id conversation => ∀ upper,
    d.headFrom fuel conversation upper =
      .ok ((((chain d.conversations fuel id upper).flatMap (segmentRows d.entries none)).map
        StoredEntry.entry).find? fun entry => entry.head.isSome)) ?_ ?_ hRooted hFuel hLookup upper
  · intro fuel id record hRecord hParent upper
    rw [headFrom, hNamed.2 id record hRecord, hSegment, chain_root hRecord hParent, flatMap_singleton,
      find?_map, hParent]
    cases hFind : (segmentRows d.entries none (id, upper)).find? fun row => row.entry.head.isSome with
    | none => simp [hFind]
    | some row => simp [hFind]
  · intro fuel id record parent next hRecord hParent hNext ih upper
    rw [headFrom, hNamed.2 id record hRecord, hSegment, chain_fork hRecord hParent, flatMap_cons,
      map_append, find?_append, find?_map, hParent]
    simp only [hNext]
    cases hFind : (segmentRows d.entries none (id, upper)).find? fun row => row.entry.head.isSome with
    | none => simp [comp_def, hFind, ih]
    | some row => simp [comp_def, hFind]

variable {entries : List (Nat × StoredEntry)}

theorem segmentRows_point (hKeyed : Table.Keyed entries) (id : Nat) (conversationId : Nat) (upper : Option Int) :
    segmentRows entries (some id) (conversationId, narrowUpper upper id) =
      (entries.lookup id).toList.filter fun row =>
        decide (row.entry.conversationId = conversationId) && upper.all fun upper => decide ((id : Int) ≤ upper) := by
  have hFilter : (entries.filter fun entry =>
      inSegment conversationId (some id) (narrowUpper upper id) entry.1 entry.2) =
      (entries.filter fun entry => decide (entry.1 = id)).filter fun entry =>
        decide (entry.2.entry.conversationId = conversationId) && upper.all fun upper => decide ((id : Int) ≤ upper) := by
    rw [List.filter_filter]
    refine filter_congr fun entry _ => ?_
    rw [Bool.eq_iff_iff]
    cases upper <;> by_cases hSame : entry.2.entry.conversationId = conversationId <;>
      simp [inSegment, narrowUpper, hSame] <;> omega
  rw [segmentRows, hFilter, hKeyed.filter_key, List.filter_map, List.map_map]
  cases entries.lookup id with
  | none => rfl
  | some row =>
    simp only [toList_some, filter_cons, filter_nil, comp_def]
    split_ifs <;> rfl

theorem mem_chain_point (hKeyed : Table.Keyed entries)
    (conversations : List (Nat × ConversationRecord)) (fuel id : Nat) (upper : Option Int) {entryId : Nat} (hMem : row ∈ (chain conversations fuel id (narrowUpper upper entryId)).flatMap
      (segmentRows entries (some entryId))) : entries.lookup entryId = some row := by
  induction fuel generalizing id upper with
  | zero => simp [chain] at hMem
  | succ fuel ih =>
    rw [chain, flatMap_cons, segmentRows_point hKeyed] at hMem
    rcases mem_append.mp hMem with hHere | hRest
    · exact Option.mem_toList.mp (mem_filter.mp hHere).1
    · split at hRest
      · simp at hRest
      · rw [narrowUpper_comm] at hRest
        exact ih _ _ hRest

theorem mem_visible_point (hKeyed : Table.Keyed d.entries) {conversationId id : Nat}
    (hMem : row ∈ visible d conversationId (some id) (some id)) : d.entries.lookup id = some row :=
  mem_chain_point hKeyed d.conversations d.chainFuel conversationId none hMem

/-- The loop of `readEntry` finds the segment an entry is visible in. -/
theorem ownerUpper_eq (hNamed : Named ConversationRecord.id d.conversations) (hKeyed : Table.Keyed d.entries) {entryId : Nat}
    (hRow : d.entries.lookup entryId = some row) (hRooted : Rooted d.conversations steps id) (hFuel : steps < fuel)
    (hLookup : d.conversations.lookup id = some conversation) (upper : Option Int) :
    ∃ found, d.ownerUpper row.entry.conversationId fuel conversation upper = .ok found ∧
      ((chain d.conversations fuel id (narrowUpper upper entryId)).flatMap
        (segmentRows d.entries (some entryId))).head? =
      found.bind fun upper =>
        if upper.any (fun upper => decide (upper < (entryId : Int))) then none else some row := by
  refine Rooted.induction (motive := fun fuel id conversation => ∀ upper,
    ∃ found, d.ownerUpper row.entry.conversationId fuel conversation upper = .ok found ∧
      ((chain d.conversations fuel id (narrowUpper upper entryId)).flatMap
        (segmentRows d.entries (some entryId))).head? =
      found.bind fun upper =>
        if upper.any (fun upper => decide (upper < (entryId : Int))) then none else some row) ?_ ?_
    hRooted hFuel hLookup upper
  · intro fuel id record hRecord hParent upper
    rw [ownerUpper, hNamed.2 id record hRecord, chain_root hRecord hParent, flatMap_singleton,
      segmentRows_point hKeyed, hRow, toList_some, hParent]
    by_cases hOwner : id = row.entry.conversationId
    · refine ⟨_, if_pos hOwner, ?_⟩
      cases upper with
      | none => simp [hOwner]
      | some upper =>
        by_cases hSeen : (entryId : Int) ≤ upper
        · simp [hOwner, hSeen, Int.not_lt.mpr hSeen]
        · simp [hOwner, hSeen, Int.not_le.mp hSeen]
    · exact ⟨_, if_neg hOwner, by simp [Ne.symm hOwner]⟩
  · intro fuel id record parent next hRecord hParent hNext ih upper
    rw [ownerUpper, hNamed.2 id record hRecord, chain_fork hRecord hParent, flatMap_cons,
      segmentRows_point hKeyed, hRow, toList_some, hParent]
    simp only [hNext]
    by_cases hOwner : id = row.entry.conversationId
    · refine ⟨_, if_pos hOwner, ?_⟩
      rw [bind_some]
      cases upper with
      | none => simp [hOwner]
      | some upper =>
        by_cases hSeen : (entryId : Int) ≤ upper
        · simp [hOwner, hSeen]
        · rw [filter_cons_of_neg (by simp [hSeen]), filter_nil, nil_append, chain_empty]
          · simp [Int.not_le.mp hSeen]
          · simp only [isEmptyRange, narrowUpper, decide_eq_true_eq]
            omega
    · rw [if_neg hOwner, filter_cons_of_neg (by simp [Ne.symm hOwner]), filter_nil, nil_append,
        narrowUpper_comm]
      exact ih _

theorem encodeIndexedString_inj (a b : JsString) : encodeIndexedString a = encodeIndexedString b ↔ a = b := by
  refine ⟨fun h => ?_, fun h => h ▸ rfl⟩
  have hValue := JsonText.stringify_injective (.str a) (.str b) trivial trivial h
  exact JsonValue.str.inj hValue

theorem scopeColumns_inj (a b : Scope) : scopeColumns a = scopeColumns b ↔ a = b := by
  refine ⟨fun h => ?_, fun h => h ▸ rfl⟩
  cases a <;> cases b <;> simp_all [scopeColumns, js]

theorem addressParts_inj (a b : DocumentAddress) : addressParts a = addressParts b ↔ a = b := by
  refine ⟨fun h => ?_, fun h => h ▸ rfl⟩
  obtain ⟨kind, scope, key⟩ := a
  obtain ⟨kind', scope', key'⟩ := b
  simp only [addressParts, AddressParts.mk.injEq, encodeIndexedString_inj, scopeColumns_inj] at h
  obtain ⟨rfl, rfl, hFamily, hKey⟩ := h
  cases key <;> cases key' <;> simp_all

/-- Two incarnations of one address are never alive at one point. -/
def Exclusive (documents : List (Nat × DocumentRecord)) : Prop :=
  ∀ a b first second, documents.lookup a = some first → documents.lookup b = some second →
    first.address = second.address → ∀ point, isAliveAt first point = true → isAliveAt second point = true → a = b

/-- Revisions of one document are stored in the order of their commits, all
before the next one. -/
def Dated (rows : List (Nat × Revision)) (nextSeq : Nat) : Prop :=
  ∀ id, (((rows.filter fun row => decide (row.1 = id)).map Prod.snd).Pairwise fun a b => a.seq < b.seq) ∧
    ∀ revision ∈ (rows.filter fun row => decide (row.1 = id)).map Prod.snd, revision.seq < nextSeq

theorem length_le_one_of_same_key (hKeyed : Table.Keyed rows)
    (hSame : ∀ a ∈ rows, ∀ b ∈ rows, a.1 = b.1) : rows.length ≤ 1 := by
  match rows with
  | [] => simp
  | [_] => simp
  | first :: second :: rest =>
    simp only [Table.Keyed, Table.ids, map_cons, SortedIds.Increasing, pairwise_cons] at hKeyed
    have hLess := hKeyed.1 second.1 mem_cons_self
    have hEq := hSame first mem_cons_self second (mem_cons_of_mem _ mem_cons_self)
    exact absurd hEq (Nat.ne_of_lt hLess)

theorem findDocument_eq (hKeyed : Table.Keyed d.documents) (hExclusive : Exclusive d.documents)
    (address : DocumentAddress) (point : DocumentPoint) :
    d.findDocument address point = (d.documents.map Prod.snd).find? (isIncarnation address point) := by
  have hFilter : ((d.documents.map Prod.snd).filter fun record =>
      decide (addressParts record.address = addressParts address) && isAliveAt record point) =
      (d.documents.filter fun row => isIncarnation address point row.2).map Prod.snd := by
    rw [List.filter_map]
    refine congrArg _ (filter_congr fun row _ => ?_)
    simp [isIncarnation, addressParts_inj]
  have hLength : (d.documents.filter fun row => isIncarnation address point row.2).length ≤ 1 := by
    refine length_le_one_of_same_key (hKeyed.sublist (filter_sublist.map Prod.fst)) fun a ha b hb => ?_
    simp only [mem_filter, isIncarnation, Bool.and_eq_true, decide_eq_true_eq] at ha hb
    exact hExclusive a.1 b.1 a.2 b.2 ((Table.mem_rows_iff hKeyed a.1 a.2).mp ha.1)
      ((Table.mem_rows_iff hKeyed b.1 b.2).mp hb.1) (ha.2.1.trans hb.2.1.symm) point ha.2.2 hb.2.2
  rw [findDocument, hFilter, ← head?_filter, List.filter_map]
  simp only [comp_def]
  generalize (d.documents.filter fun row => isIncarnation address point row.2) = rows at hLength
  match rows, hLength with
  | [], _ => simp
  | [row], _ => simp

theorem revisionsOf_eq (hDated : Dated d.documentRevisions d.nextSeq) (id : Nat)
    (condition : Revision → Bool) : d.revisionsOf id condition = (revisions d id).filter condition := by
  have hRows : ((d.documentRevisions.filter fun row => decide (row.1 = id) && condition row.2).map Prod.snd) =
      (revisions d id).filter condition := by
    rw [revisions, List.filter_map, List.filter_filter]
    simp only [comp_def, Bool.and_comm]
  rw [revisionsOf, hRows]
  refine mergeSort_of_pairwise (((hDated id).1.sublist filter_sublist).imp fun hLess => ?_)
  exact decide_eq_true (Nat.le_of_lt hLess)

/-- The last base of revisions in order, and the revisions after it. -/
theorem lastBase_eq {list : List Revision} (hSorted : list.Pairwise fun a b => a.seq < b.seq) :
    Memory.lastBase list =
      (list.filter fun revision => (baseOf revision).isSome).getLast?.bind fun revision =>
        (baseOf revision).map fun base =>
          (base.1, base.2, list.filter fun later => decide (revision.seq < later.seq)) := by
  induction list with
  | nil => rfl
  | cons revision rest ih =>
    rw [pairwise_cons] at hSorted
    have hRest := ih hSorted.2
    rw [Memory.lastBase, hRest]
    cases hLast : (rest.filter fun revision => (baseOf revision).isSome).getLast? with
    | none =>
      have hNone := List.getLast?_eq_none_iff.mp hLast
      cases hContent : revision.content with
      | delta version ops =>
        have hBase : baseOf revision = none := by rw [baseOf, hContent]
        rw [filter_cons_of_neg (by simp [hBase]), hLast]
        rfl
      | base version value =>
        have hBase : baseOf revision = some (version, value) := by rw [baseOf, hContent]
        have hAll : rest.filter (fun later => decide (revision.seq < later.seq)) = rest :=
          filter_eq_self.mpr fun later hLater => by simpa using hSorted.1 later hLater
        rw [filter_cons_of_pos (by simp [hBase]), hNone, getLast?_singleton, bind_some,
          hBase, map_some, filter_cons_of_neg (by simp), hAll]
        rfl
    | some last =>
      have hMem : last ∈ rest.filter fun revision => (baseOf revision).isSome := mem_of_getLast? hLast
      rw [mem_filter] at hMem
      obtain ⟨base, hBase⟩ := Option.isSome_iff_exists.mp hMem.2
      have hCons : ((revision :: rest).filter fun revision => (baseOf revision).isSome).getLast? = some last := by
        rw [filter_cons]
        split_ifs
        · rw [getLast?_cons, hLast]
          rfl
        · exact hLast
      have hTail : (revision :: rest).filter (fun later => decide (last.seq < later.seq)) =
          rest.filter fun later => decide (last.seq < later.seq) := by
        have hLess := hSorted.1 last hMem.1
        rw [filter_cons_of_neg]
        simp only [decide_eq_true_eq]
        omega
      rw [hCons]
      simp only [bind_some, hBase, map_some, hTail]

theorem materializeDocument_eq (hDated : Dated d.documentRevisions d.nextSeq)
    (hSeq : d.nextSeq ≤ MAX_SAFE_INTEGER + 1) (id : Nat) (point : DocumentPoint) :
    d.materializeDocument id point = documentAt d id point := by
  have hPoint : Memory.revisionsAt (revisions d id) point =
      (revisions d id).filter fun revision => decide (revision.seq ≤ upperSeq point) := by
    cases point with
    | «at» seq => rfl
    | current =>
      refine (filter_eq_self.mpr fun revision hMem => ?_).symm
      have hLess := (hDated id).2 revision hMem
      have hLe : revision.seq ≤ upperSeq .current := by
        rw [upperSeq]
        omega
      exact decide_eq_true hLe
  rw [materializeDocument, documentAt]
  cases d.documents.lookup id with
  | none => rfl
  | some record =>
    simp only [document]
    rw [hPoint, @lastBase_eq ((revisions d id).filter _) ((hDated id).1.sublist filter_sublist),
      revisionsOf_eq hDated]
    simp only [List.filter_filter, revisionsOf_eq hDated]
    split_ifs
    · rfl
    · rfl
    · cases ((revisions d id).filter fun revision =>
          (baseOf revision).isSome && decide (revision.seq ≤ upperSeq point)).getLast? with
      | none => rfl
      | some revision =>
        cases hBase : baseOf revision with
        | none => simp [hBase]
        | some base => simp [hBase]

/-- What every commit keeps of the tables. -/
structure Kept (d : Sqlite) : Prop where
  conversations : Named ConversationRecord.id d.conversations
  entries : Named (fun row => row.entry.id) d.entries
  tasks : Named TaskRecord.id d.tasks
  submissions : Named SubmissionRecord.id d.submissions
  documents : Named (fun record => record.id) d.documents
  exclusive : Exclusive d.documents
  timeline : ∀ id record, d.documents.lookup id = some record →
    record.createdAt < d.nextSeq ∧ ∀ seq, record.retiredAt = some seq → seq < d.nextSeq
  revisions : Dated d.documentRevisions d.nextSeq
  owned : ∀ id, d.documents.lookup id = none → View.revisions d id = []

/-- Tables whose conversations are forks of stored ones, down to a root. -/
structure Sound (d : Sqlite) : Prop extends Kept d where
  forest : Forest d.conversations

/-- Ids and seqs are in the range of exact numbers. -/
structure InRange (d : Sqlite) : Prop where
  conversations : Bounded d.conversations
  tasks : Bounded d.tasks
  submissions : Bounded d.submissions
  documents : Bounded d.documents
  seq : d.nextSeq ≤ MAX_SAFE_INTEGER + 1

theorem Sound.rooted (h : d.Sound) {record : ConversationRecord} (hLookup : d.conversations.lookup id = some record) :
    ∃ steps < d.chainFuel, Rooted d.conversations steps id := by
  obtain ⟨steps, hSteps, hRooted⟩ := h.forest id (by simp [hLookup])
  exact ⟨steps, Nat.lt_succ_of_lt hSteps, hRooted⟩

theorem visibleEntry_eq (h : d.Sound) (conversationId id : Nat) :
    d.visibleEntry conversationId id =
      ofConversation d conversationId (.ok (visible d conversationId (some id) (some id)).head?) := by
  rw [visibleEntry, ofConversation]
  cases hConversation : d.conversations.lookup conversationId with
  | none => rfl
  | some conversation =>
    obtain ⟨steps, hSteps, hRooted⟩ := h.rooted hConversation
    cases hRow : d.entries.lookup id with
    | none =>
      have hVisible : visible d conversationId (some id) (some id) = [] := by
        refine eq_nil_iff_forall_not_mem.mpr fun row hMem => ?_
        rw [mem_visible_point h.entries.1 hMem] at hRow
        exact some_ne_none _ hRow
      rw [hVisible]
      rfl
    | some row =>
      obtain ⟨found, hFound, hHead⟩ :=
        ownerUpper_eq h.conversations h.entries.1 hRow hRooted hSteps hConversation none
      have hVisible : (visible d conversationId (some id) (some id)).head? = _ := hHead
      have hId : row.entry.id = id := h.entries.2 id row hRow
      rw [hVisible]
      simp only [hFound, hId, bind, Except.bind]
      cases found with
      | none => rfl
      | some upper =>
        simp only [bind_some]
        split_ifs <;> first | rfl | contradiction

theorem findLatestHeadMarker_eq (h : d.Sound) (id : Nat) (atOrBefore : Option Nat) :
    d.findLatestHeadMarker id atOrBefore =
      ofConversation d id (.ok (((visible d id none (atOrBefore.map Int.ofNat)).map StoredEntry.entry).find?
        fun entry => entry.head.isSome)) := by
  rw [findLatestHeadMarker, ofConversation]
  cases hConversation : d.conversations.lookup id with
  | none => rfl
  | some conversation =>
    obtain ⟨steps, hSteps, hRooted⟩ := h.rooted hConversation
    exact headFrom_eq h.conversations hRooted hSteps hConversation _

theorem isEmptyRange_narrowLower {upper : Option Int} (h : isEmptyRange lower upper = true) (bound : Int) :
    isEmptyRange (narrowLower lower bound) upper = true := by
  cases lower with
  | none => simp [isEmptyRange] at h
  | some lower =>
    cases upper with
    | none => simp [isEmptyRange] at h
    | some upper =>
      simp only [isEmptyRange, decide_eq_true_eq, narrowLower] at h ⊢
      omega

theorem segments_ascending (h : d.Sound) (hLookup : d.conversations.lookup id = some conversation)
    (hNarrower : ∀ upper, isEmptyRange lower upper = true → isEmptyRange narrower upper = true) (upper : Option Int)
    (count : Nat) :
    ∃ segments, d.segments lower d.chainFuel conversation upper = .ok segments ∧
      d.ascendingFrom narrower segments.reverse count =
        ((visible d id narrower upper).reverse.map StoredEntry.entry).take count := by
  obtain ⟨steps, hSteps, hRooted⟩ := h.rooted hLookup
  obtain ⟨segments, hSegments, hRows⟩ := segments_eq h.conversations hNarrower hRooted hSteps hLookup upper
  refine ⟨segments, hSegments, ?_⟩
  rw [visible, ← hRows, ← flatMap_reverse, ← ascendingFrom_eq]

theorem scanEntries_eq (h : d.Sound) (query : EntryQuery) (limit : Nat) (cursor : Option Cursor) :
    d.scanEntries query limit cursor = (do
      let start ← scanStart query.order cursor .descending
      ofConversation d query.conversationId (View.entries d query limit start)) := by
  rw [scanEntries]
  cases hStart : scanStart query.order cursor .descending with
  | error error => rfl
  | ok start =>
    simp only [bind, Except.bind, ofConversation]
    cases hConversation : d.conversations.lookup query.conversationId with
    | none => rfl
    | some conversation =>
      obtain ⟨steps, hSteps, hRooted⟩ := h.rooted hConversation
      have hDescending := entriesFrom_eq h.conversations query.minEntryId hRooted hSteps hConversation
      obtain ⟨order, after⟩ := start
      cases order with
      | descending =>
        cases after with
        | none =>
          simp only [hDescending]
          rfl
        | some after =>
          have hAfter := scanStart_after hStart rfl
          have hUpper : some (min (query.maxEntryId.getD MAX_SAFE_INTEGER) (after - 1)) =
              narrowUpper query.maxEntryId (after - 1) := by
            cases query.maxEntryId with
            | none =>
              simp only [narrowUpper, getD_none, some.injEq]
              omega
            | some upper => rfl
          simp only [hUpper, hDescending]
          rfl
      | ascending =>
        cases after with
        | none =>
          obtain ⟨segments, hSegments, hValues⟩ := segments_ascending h hConversation
            (fun _ (hEmpty : isEmptyRange query.minEntryId _ = true) => hEmpty) query.maxEntryId (limit + 1)
          simp only [hSegments, hValues]
          rfl
        | some after =>
          have hLower : some (max (query.minEntryId.getD (after + 1)) (after + 1)) =
              narrowLower query.minEntryId (after + 1) := by
            cases query.minEntryId <;> simp [narrowLower]
          obtain ⟨segments, hSegments, hValues⟩ := segments_ascending h hConversation
            (fun _ (hEmpty : isEmptyRange query.minEntryId _ = true) =>
              isEmptyRange_narrowLower hEmpty (after + 1)) query.maxEntryId (limit + 1)
          simp only [hLower, hSegments, hValues]
          rfl

theorem read_eq_view (h : d.Sound) (hRange : d.InRange) (read : Read) : d.read read = View.read d read := by
  cases read with
  | conversation id => rfl
  | scanConversations query limit cursor =>
    simp only [Sqlite.read, View.read, scanConversations]
    congr 1
    refine congrArg _ (funext fun start => ?_)
    rw [select_eq_scan hRange.conversations (keepsConversation query)]
    intro id value
    rw [keepsConversation, Bool.and_assoc, Bool.and_comm]
  | entry id => rfl
  | visibleEntry conversationId id => rw [Sqlite.read, View.read, visibleEntry_eq h]
  | findLatestHeadMarker id atOrBefore => rw [Sqlite.read, View.read, findLatestHeadMarker_eq h]
  | scanEntries query limit cursor => rw [Sqlite.read, View.read, scanEntries_eq h]
  | task id => rfl
  | scanTasks query limit cursor =>
    simp only [Sqlite.read, View.read, scanTasks]
    congr 1
    refine congrArg _ (funext fun start => ?_)
    rw [select_eq_scan hRange.tasks (keepsTask query)]
    intro id value
    rw [Bool.eq_iff_iff]
    simp only [keepsTask, Memory.TaskQuery.keeps, encodeIndexedString_inj, Bool.and_eq_true, eq_comm (a := value.kind)]
    tauto
  | submission id => rfl
  | scanSubmissions query limit cursor =>
    simp only [Sqlite.read, View.read, scanSubmissions]
    congr 1
    refine congrArg _ (funext fun start => ?_)
    rw [select_eq_scan hRange.submissions (keepsSubmission query)]
    intro id value
    rw [Bool.eq_iff_iff]
    simp only [keepsSubmission, Bool.and_eq_true]
    tauto
  | submissionByRequest conversationId requestId =>
    simp only [Sqlite.read, View.read, submissionByRequest]
    rw [select_eq, head?_take, if_neg (by decide), ordered, ← head?_filter, List.filter_map]
    have hRequest : ∀ value : SubmissionRecord,
        (value.requestId.map encodeIndexedString = some (encodeIndexedString requestId)) ↔
          value.requestId = some requestId := by
      intro value
      cases value.requestId <;> simp [encodeIndexedString_inj]
    simp only [hRequest, comp_def]
  | findDocument address point =>
    simp only [Sqlite.read, View.read, findDocument_eq h.documents.1 h.exclusive]
  | document id point => rw [Sqlite.read, View.read, materializeDocument_eq h.revisions hRange.seq]
  | scanDocuments query limit cursor =>
    simp only [Sqlite.read, View.read, scanDocuments]
    congr 1
    refine congrArg _ (funext fun after => ?_)
    rw [select_eq_scan hRange.documents (keepsDocument query) { order := .ascending, after }]
    intro id record
    rw [Bool.eq_iff_iff]
    simp only [keepsDocument, scanSql, encodeIndexedString_inj, scopeColumns_inj, Bool.and_eq_true,
      eq_comm (a := record.kind)]
    tauto

end Sqlite

end OctoberHarness.Storage
