import OctoberHarness.Storage.EntryScans
import OctoberHarness.Storage.BatchEffect

/-! The history of documents: what was read at a commit is read at its seq for
ever, up to a later retirement. -/
namespace OctoberHarness.Storage

open View List Option

/-- Tables after more commits: documents are only retired, and only get newer
revisions. -/
structure Extends (d d' : Sqlite) : Prop where
  nextSeq : d.nextSeq ≤ d'.nextSeq
  created : ∀ id record, d.documents.lookup id = none → d'.documents.lookup id = some record →
    d.nextSeq ≤ record.createdAt
  stays : ∀ id record, d.documents.lookup id = some record → ∃ record', d'.documents.lookup id = some record' ∧
    record'.toDocumentCreate = record.toDocumentCreate ∧ record'.createdAt = record.createdAt ∧
      (record'.retiredAt = record.retiredAt ∨
        record.retiredAt = none ∧ ∃ retired, record'.retiredAt = some retired ∧ d.nextSeq ≤ retired)
  revisions : ∀ id record, d.documents.lookup id = some record → isCurrentOnly record.toDocumentCreate = false →
    ∃ newer, revisions d' id = revisions d id ++ newer ∧ ∀ revision ∈ newer, d.nextSeq ≤ revision.seq

theorem Extends.refl (d : Sqlite) : Extends d d where
  nextSeq := Nat.le_refl _
  created id record hNone hSome := by
    rw [hNone] at hSome
    exact absurd hSome (by simp)
  stays id record hSome := ⟨record, hSome, rfl, rfl, Or.inl rfl⟩
  revisions id record hSome hRewindable := ⟨[], by simp, by simp⟩

theorem Extends.trans {a b c : Sqlite} (h : Extends a b) (h' : Extends b c) : Extends a c where
  nextSeq := Nat.le_trans h.nextSeq h'.nextSeq
  created id record hNone hSome := by
    cases hMiddle : b.documents.lookup id with
    | none => exact Nat.le_trans h.nextSeq (h'.created id record hMiddle hSome)
    | some middle =>
      obtain ⟨found, hFound, -, hCreated, -⟩ := h'.stays id middle hMiddle
      rw [hSome] at hFound
      rw [Option.some.inj hFound, hCreated]
      exact h.created id middle hNone hMiddle
  stays id record hSome := by
    obtain ⟨middle, hMiddle, hSame, hCreated, hRetired⟩ := h.stays id record hSome
    obtain ⟨last, hLast, hSame', hCreated', hRetired'⟩ := h'.stays id middle hMiddle
    refine ⟨last, hLast, hSame'.trans hSame, hCreated'.trans hCreated, ?_⟩
    have hSeq := h.nextSeq
    rcases hRetired' with hKept | ⟨hNone, retired, hNew, hLe⟩
    · rw [hKept]
      exact hRetired
    · rcases hRetired with hKept | ⟨-, before, hBefore, -⟩
      · exact Or.inr ⟨hKept ▸ hNone, retired, hNew, Nat.le_trans hSeq hLe⟩
      · rw [hNone] at hBefore
        exact absurd hBefore (by simp)
  revisions id record hSome hRewindable := by
    obtain ⟨middle, hMiddle, hSame, -⟩ := h.stays id record hSome
    obtain ⟨first, hFirst, hFirstSeq⟩ := h.revisions id record hSome hRewindable
    obtain ⟨second, hSecond, hSecondSeq⟩ := h'.revisions id middle hMiddle (hSame ▸ hRewindable)
    refine ⟨first ++ second, by rw [hSecond, hFirst, append_assoc], fun revision hMem => ?_⟩
    rcases List.mem_append.mp hMem with hIn | hIn
    · exact hFirstSeq revision hIn
    · exact Nat.le_trans h.nextSeq (hSecondSeq revision hIn)

variable {d : Sqlite} {id : Nat} {record : ConversationRecord}

variable {m : Memory} {seq : Nat} {d' : Sqlite} {parent : Parent} {actions : Sqlite.DocumentActions} {writes : List Write}

theorem Passes.found (hMirror : Mirror m d) (h : Passes m d writes actions) {action : Memory.DocumentAction}
    (hAction : (resolvedActions d actions).lookup id = some action) :
    match action.create with
    | some _ => d.documents.lookup id = none
    | none => ∃ record, d.documents.lookup id = some record ∧ record.retiredAt = none := by
  obtain ⟨before, hBefore, hEntry⟩ := mem_resolvedActions (OrderedMap.mem_of_lookup hAction)
  have hFound := Memory.of_checkAction hMirror (h.each before hBefore)
  obtain ⟨rfl, rfl⟩ := Prod.mk.inj hEntry
  exact hFound

theorem Agree.extends (h : Agree m d)
    (hPasses : Passes m d writes actions) : Extends d (d.applyBatch writes (resolvedActions d actions)) := by
  have hEffect := h.effect hPasses
  generalize d.applyBatch writes (resolvedActions d actions) = d' at hEffect
  refine ⟨by rw [hEffect.nextSeq]; omega, fun id record hNone hSome => ?_, fun id record hSome => ?_,
    fun id record hSome hRewindable => ?_⟩
  · cases hAction : (resolvedActions d actions).lookup id with
    | none =>
      rw [(hEffect.settles.kept id hAction).1, hNone] at hSome
      exact absurd hSome (by simp)
    | some action =>
      have hFound := hPasses.found h.mirror hAction
      obtain ⟨after, hAfter, hDocument, -⟩ := hEffect.settles.changed id action hAction
      rw [hSome] at hDocument
      cases hCreate : action.create with
      | none =>
        rw [hCreate] at hFound
        obtain ⟨existing, hExisting, -⟩ := hFound
        rw [hNone] at hExisting
        exact absurd hExisting (by simp)
      | some create =>
        rw [recordAfter, hCreate] at hAfter
        rw [Option.some.inj hDocument, ← Option.some.inj hAfter]
  · cases hAction : (resolvedActions d actions).lookup id with
    | none => exact ⟨record, by rw [(hEffect.settles.kept id hAction).1, hSome], rfl, rfl, Or.inl rfl⟩
    | some action =>
      have hFound := hPasses.found h.mirror hAction
      obtain ⟨after, hAfter, hDocument, -⟩ := hEffect.settles.changed id action hAction
      cases hCreate : action.create with
      | some create =>
        rw [hCreate] at hFound
        rw [show d.documents.lookup id = none from hFound] at hSome
        exact absurd hSome (by simp)
      | none =>
        rw [hCreate] at hFound
        obtain ⟨existing, hExisting, hAlive⟩ := hFound
        obtain rfl : existing = record := Option.some.inj (hExisting.symm.trans hSome)
        rw [recordAfter, hCreate, hSome, map_some, Option.some.injEq] at hAfter
        refine ⟨after, hDocument, ?_⟩
        rw [← hAfter]
        cases action.retire with
        | false => exact ⟨rfl, rfl, Or.inl rfl⟩
        | true => exact ⟨rfl, rfl, Or.inr ⟨hAlive, d.nextSeq, rfl, Nat.le_refl _⟩⟩
  · cases hAction : (resolvedActions d actions).lookup id with
    | none => exact ⟨[], by rw [(hEffect.settles.kept id hAction).2, append_nil], by simp⟩
    | some action =>
      have hFound := hPasses.found h.mirror hAction
      obtain ⟨after, hAfter, -, hRevisions⟩ := hEffect.settles.changed id action hAction
      cases hCreate : action.create with
      | some create =>
        rw [hCreate] at hFound
        rw [show d.documents.lookup id = none from hFound] at hSome
        exact absurd hSome (by simp)
      | none =>
        rw [recordAfter, hCreate, hSome, map_some, Option.some.injEq] at hAfter
        have hSame : after.toDocumentCreate = record.toDocumentCreate := by
          rw [← hAfter]
          cases action.retire <;> rfl
        rw [hRevisions, revisionsAfter, hSame, hRewindable]
        cases hContent : action.content with
        | none => exact ⟨[], by simp, by simp⟩
        | some content =>
          refine ⟨[{ content, seq := d.nextSeq }], ?_, by simp⟩
          cases content <;> simp [Memory.addRevision, hRewindable]

theorem Agree.run_extends (h : Agree m d) (calls : List (List (List Write))) :
    ∃ d', Agree (m.run calls) d' ∧ Extends d d' := by
  refine @Memory.run_invariant (fun m => ∃ d', Agree m d' ∧ Extends d d') (fun m writes next hState hCommit => ?_) m
    ⟨d, h, .refl d⟩ calls
  obtain ⟨middle, hAgree, hExtends⟩ := hState
  obtain ⟨d', actions, -, hNext, hPasses, rfl⟩ := hAgree.commitBatch hCommit
  exact ⟨_, hNext, hExtends.trans (hAgree.extends hPasses)⟩

/-! Reads at a point. -/

variable {d : Sqlite}

theorem Extends.isAliveAt (h : Extends d d') (hKept : d.Kept) {record record' : DocumentRecord}
    (hRecord : d.documents.lookup id = some record) (hRecord' : d'.documents.lookup id = some record')
    (hSeq : d.nextSeq = seq + 1) : isAliveAt record' (.at seq) = isAliveAt record .current := by
  obtain ⟨found, hFound, -, hCreated, hRetired⟩ := h.stays id record hRecord
  rw [hRecord'] at hFound
  obtain rfl := Option.some.inj hFound
  obtain ⟨hBefore, hRetiredBefore⟩ := hKept.timeline id record hRecord
  have hLe : record'.createdAt ≤ seq := by
    rw [hCreated]
    omega
  rw [Storage.isAliveAt, Storage.isAliveAt, decide_eq_true hLe, Bool.true_and]
  rcases hRetired with hSame | ⟨hNone, retired, hNew, hLater⟩
  · rw [hSame]
    cases hOld : record.retiredAt with
    | none => rfl
    | some retired =>
      have hLess := hRetiredBefore retired hOld
      simp only [all_some, isNone_some, decide_eq_false_iff_not]
      omega
  · rw [hNew, hNone]
    simp only [all_some, isNone_none, decide_eq_true_eq]
    omega

theorem Extends.revisionsAt (h : Extends d d') (hKept : d.Kept) {record : DocumentRecord}
    (hRecord : d.documents.lookup id = some record) (hRewindable : isCurrentOnly record.toDocumentCreate = false) (hSeq : d.nextSeq = seq + 1) :
    Memory.revisionsAt (View.revisions d' id) (.at seq) = Memory.revisionsAt (View.revisions d id) .current := by
  obtain ⟨newer, hRevisions, hNewer⟩ := h.revisions id record hRecord hRewindable
  rw [hRevisions, Memory.revisionsAt, Memory.revisionsAt, filter_append]
  have hAll : (View.revisions d id).filter (fun revision => decide (revision.seq ≤ seq)) = View.revisions d id := by
    refine List.filter_eq_self.mpr fun revision hMem => decide_eq_true ?_
    have hLess := (hKept.revisions id).2 revision hMem
    omega
  have hNone : newer.filter (fun revision => decide (revision.seq ≤ seq)) = [] := by
    refine List.filter_eq_nil_iff.mpr fun revision hMem => ?_
    have hLe := hNewer revision hMem
    simp only [decide_eq_true_eq]
    omega
  rw [hAll, hNone, append_nil]

def DocumentRecord.retired (record : DocumentRecord) (retiredAt : Option Nat) : DocumentRecord :=
  { record with retiredAt }

/-- The seq that retired a document, in a state. -/
def Memory.retiredAt (m : Memory) (id : Nat) : Option Nat :=
  (m.documents.lookup id).bind fun state => state.record.retiredAt

theorem Extends.record_eq (h : Extends d d') {record record' : DocumentRecord}
    (hRecord : d.documents.lookup id = some record) (hRecord' : d'.documents.lookup id = some record') :
    record' = record.retired record'.retiredAt := by
  obtain ⟨found, hFound, hSame, hCreated, -⟩ := h.stays id record hRecord
  rw [hRecord'] at hFound
  obtain rfl := Option.some.inj hFound
  obtain ⟨create, createdAt, retiredAt⟩ := record'
  obtain ⟨create', createdAt', retiredAt'⟩ := record
  simp only at hSame hCreated
  rw [hSame, hCreated]
  rfl

/-- What the current read of a document returns is returned at its seq for ever. -/
theorem Extends.documentAt (h : Extends d d') (hKept : d.Kept)
    (hRewindable : ∀ record, d'.documents.lookup id = some record → isCurrentOnly record.toDocumentCreate = false) (hSeq : d.nextSeq = seq + 1) :
    View.documentAt d' id (.at seq) = (View.documentAt d id .current).map (Option.map fun stored =>
      { stored with record :=
          stored.record.retired ((d'.documents.lookup id).bind fun record => record.retiredAt) }) := by
  rw [View.documentAt, View.documentAt]
  cases hRecord' : d'.documents.lookup id with
  | none =>
    cases hRecord : d.documents.lookup id with
    | none => rfl
    | some record =>
      obtain ⟨found, hFound, -⟩ := h.stays id record hRecord
      rw [hRecord'] at hFound
      exact absurd hFound (by simp)
  | some record' =>
    have hHistory := hRewindable record' hRecord'
    cases hRecord : d.documents.lookup id with
    | none =>
      have hLate := h.created id record' hRecord hRecord'
      have hDead : Storage.isAliveAt record' (.at seq) = false := by
        rw [Storage.isAliveAt, decide_eq_false (by omega), Bool.false_and]
      simp only [document, hHistory, hDead]
      rfl
    | some record =>
      have hSame : record'.toDocumentCreate = record.toDocumentCreate := by
        rw [h.record_eq hRecord hRecord']
        rfl
      have hAlive := h.isAliveAt hKept hRecord hRecord' hSeq
      have hRevisions := h.revisionsAt hKept hRecord (hSame ▸ hHistory) hSeq
      simp only [document, hHistory, hAlive, hRevisions]
      cases hNow : Storage.isAliveAt record .current with
      | false => simp [Except.map]
      | true =>
        cases hBase : Memory.lastBase (Memory.revisionsAt (View.revisions d id) .current) with
        | none => simp [Except.map]
        | some found =>
          obtain ⟨version, base, rest⟩ := found
          simp only
          cases rest.foldlM (Sqlite.applyRevision id version) base with
          | error error => simp [bind, Except.bind, Except.map]
          | ok value =>
            have hRecordEq := h.record_eq hRecord hRecord'
            simpa [bind, Except.bind, Except.map] using hRecordEq

theorem find_incarnation (hKept : d.Kept) (address : DocumentAddress) (point : DocumentPoint)
    (record : DocumentRecord) : (d.documents.map Prod.snd).find? (isIncarnation address point) = some record ↔
      d.documents.lookup record.id = some record ∧ isIncarnation address point record = true := by
  have hFound : ∀ found, (d.documents.map Prod.snd).find? (isIncarnation address point) = some found →
      d.documents.lookup found.id = some found ∧ isIncarnation address point found = true := by
    intro found hFind
    obtain ⟨row, hMem, rfl⟩ := List.mem_map.mp (mem_of_find?_eq_some hFind)
    have hId : row.2.id = row.1 := hKept.documents.of_mem hMem
    exact ⟨hId ▸ (Table.mem_rows_iff hKept.documents.1 row.1 row.2).mp hMem, find?_some hFind⟩
  refine ⟨hFound record, fun ⟨hLookup, hIncarnation⟩ => ?_⟩
  have hMem : (record.id, record) ∈ d.documents := (Table.mem_rows_iff hKept.documents.1 _ _).mpr hLookup
  cases hFind : (d.documents.map Prod.snd).find? (isIncarnation address point) with
  | none => exact absurd hIncarnation (List.find?_eq_none.mp hFind record (List.mem_map.mpr ⟨_, hMem, rfl⟩))
  | some found =>
    obtain ⟨hStored, hOther⟩ := hFound found hFind
    simp only [isIncarnation, Bool.and_eq_true, decide_eq_true_eq] at hIncarnation hOther
    have hId : found.id = record.id := hKept.exclusive _ _ found record hStored hLookup
      (hOther.1.trans hIncarnation.1.symm) point hOther.2 hIncarnation.2
    rw [hId, hLookup] at hStored
    exact hStored.symm

/-- What the current read of an address returns is found at its seq for ever. -/
theorem Extends.find_incarnation (h : Extends d d') (hKept : d.Kept) (hKept' : d'.Kept)
    (hSeq : d.nextSeq = seq + 1) (address : DocumentAddress) :
    (d'.documents.map Prod.snd).find? (isIncarnation address (.at seq)) =
      ((d.documents.map Prod.snd).find? (isIncarnation address .current)).map fun record =>
        record.retired ((d'.documents.lookup record.id).bind fun record => record.retiredAt) := by
  refine ext fun record' => ?_
  rw [Storage.find_incarnation hKept', map_eq_some_iff]
  simp only [Storage.find_incarnation hKept]
  constructor
  · intro ⟨hRecord', hIncarnation⟩
    cases hRecord : d.documents.lookup record'.id with
    | none =>
      have hLate := h.created record'.id record' hRecord hRecord'
      simp only [isIncarnation, Storage.isAliveAt, Bool.and_eq_true, decide_eq_true_eq] at hIncarnation
      omega
    | some record =>
      have hEq := h.record_eq hRecord hRecord'
      have hId : record.id = record'.id := hKept.documents.2 _ _ hRecord
      refine ⟨record, ⟨hId ▸ hRecord, ?_⟩, ?_⟩
      · rw [isIncarnation, h.isAliveAt hKept hRecord hRecord' hSeq] at hIncarnation
        rw [hEq] at hIncarnation
        exact hIncarnation
      · rw [hId, hRecord', bind_some]
        exact hEq.symm
  · rintro ⟨record, ⟨hRecord, hIncarnation⟩, rfl⟩
    obtain ⟨record', hRecord', -⟩ := h.stays record.id record hRecord
    have hEq := h.record_eq hRecord hRecord'
    rw [hRecord', bind_some, ← hEq]
    have hId : record'.id = record.id := hKept'.documents.2 _ _ hRecord'
    refine ⟨hId ▸ hRecord', ?_⟩
    rw [isIncarnation, h.isAliveAt hKept hRecord hRecord' hSeq, hEq]
    exact hIncarnation

/-- Why `snapshotAsOf` fails. -/
inductive SnapshotError where
  | read (error : ReadError)
  | notVisible (conversationId entryId : Nat)
  | unreadable (id : Nat)
deriving DecidableEq, Repr

/-- The reads of `snapshotAsOf`: the document of a conversation as the commit of
one of its entries left it. -/
def Memory.snapshotAsOf (m : Memory) (kind : JsString) (key : Option JsString) (conversationId entryId : Nat) :
    Except SnapshotError (Option StoredDocument) :=
  match m.visibleEntry conversationId entryId with
  | .error error => .error (.read error)
  | .ok none => .error (.notVisible conversationId entryId)
  | .ok (some found) =>
    match m.findDocument { kind, scope := .conversation found.entry.conversationId, key } (.at found.commitSeq) with
    | .error error => .error (.read error)
    | .ok none => .ok none
    | .ok (some record) =>
      match m.materializeDocument record.id (.at found.commitSeq) with
      | .error error => .error (.read error)
      | .ok none => .error (.unreadable record.id)
      | .ok (some stored) => .ok (some stored)

theorem Rooted.of_fork {conversations : List (Nat × ConversationRecord)} {steps id : Nat} (h : Rooted conversations steps id) (hLookup : conversations.lookup id = some record)
    (hParent : record.parent = some parent) :
    ∃ depth, steps = depth + 1 ∧ Rooted conversations depth parent.conversationId := by
  cases steps with
  | zero =>
    obtain ⟨found, hFound, hRoot⟩ := h
    rw [hLookup] at hFound
    rw [← Option.some.inj hFound, hParent] at hRoot
    exact absurd hRoot (by simp)
  | succ depth =>
    obtain ⟨found, above, hFound, hAbove, hRest⟩ := h
    rw [hLookup] at hFound
    rw [← Option.some.inj hFound, hParent] at hAbove
    exact ⟨depth, rfl, Option.some.inj hAbove ▸ hRest⟩

theorem visible_fork (hForest : Forest d.conversations) (hLookup : d.conversations.lookup id = some record)
    (hParent : record.parent = some parent)
    (hForked : ∀ row ∈ d.entries, row.2.entry.conversationId = id → parent.atEntry < row.1)
    (lower : Option Int) {upper : Int} (hUpper : upper ≤ parent.atEntry) :
    visible d id lower (some upper) = visible d parent.conversationId lower (some upper) := by
  obtain ⟨steps, hSteps, hRooted⟩ := hForest id (by simp [hLookup])
  obtain ⟨fuel, hFuel⟩ : ∃ fuel, d.chainFuel = fuel + 1 := ⟨d.conversations.length, rfl⟩
  have hLength : d.conversations.length = fuel := Nat.succ.inj hFuel
  obtain ⟨depth, rfl, hRest⟩ := Rooted.of_fork hRooted hLookup hParent
  have hOwn : segmentRows d.entries lower (id, some upper) = [] := by
    rw [segmentRows, reverse_eq_nil_iff, map_eq_nil_iff, filter_eq_nil_iff]
    intro row hRow hIn
    simp only [Sqlite.inSegment, all_some, Bool.and_eq_true, decide_eq_true_eq] at hIn
    have hLess := hForked row hRow hIn.1.1
    omega
  have hNarrow : narrowUpper (some upper) parent.atEntry = some upper := by
    rw [narrowUpper, min_eq_left hUpper]
  rw [visible, visible, hFuel, chain_fork hLookup hParent, flatMap_cons, hOwn, nil_append, hNarrow,
    chain_grow (fun _ _ h => h) hRest (show depth < fuel + 1 by omega) (show depth < fuel by omega)]

/-- The same of the pages of a scan. -/
theorem entries_fork {id other : Nat} {point : Int}
    (hSame : ∀ lower upper, upper ≤ point → visible d id lower (some upper) = visible d other lower (some upper))
    (minEntryId : Option Int) {maxEntryId : Int} (hMax : maxEntryId ≤ point) (order : Option ScanOrder) (limit : Nat)
    (start : ScanStart) :
    View.entries d { conversationId := id, minEntryId, maxEntryId := some maxEntryId, order } limit start =
      View.entries d { conversationId := other, minEntryId, maxEntryId := some maxEntryId, order } limit start := by
  obtain ⟨direction, after⟩ := start
  cases direction with
  | ascending => simp only [View.entries, hSame _ _ hMax]
  | descending =>
    cases after with
    | none => simp only [View.entries, elim_none, hSame _ _ hMax]
    | some after =>
      have hNarrow : min maxEntryId (after - 1) ≤ point := le_trans (min_le_left _ _) hMax
      simp only [View.entries, elim_some, narrowUpper, hSame _ _ hNarrow]

/-- Reads of a fork that stay at or before its fork point. -/
structure ReadsParent (m : Memory) (fork : Nat) (parent : Parent) : Prop where
  visible : ∀ id ≤ parent.atEntry, m.visibleEntry fork id = m.visibleEntry parent.conversationId id
  head : ∀ id ≤ parent.atEntry,
    m.findLatestHeadMarker fork (some id) = m.findLatestHeadMarker parent.conversationId (some id)
  entries : ∀ minEntryId (maxEntryId : Int) order limit cursor, maxEntryId ≤ parent.atEntry →
    m.scanEntries { conversationId := fork, minEntryId, maxEntryId := some maxEntryId, order } limit cursor =
      m.scanEntries { conversationId := parent.conversationId, minEntryId, maxEntryId := some maxEntryId, order }
        limit cursor
  snapshot : ∀ kind key, ∀ id ≤ parent.atEntry, ∀ stored,
    m.snapshotAsOf kind key fork id = .ok stored ↔ m.snapshotAsOf kind key parent.conversationId id = .ok stored

theorem Agree.readsParent (h : Agree m d) (hGrounded : Grounded m.conversations)
    (hForked : ForkedBefore m.conversations m.entries) {fork : Nat}
    (hLookup : m.conversations.lookup fork = some record) (hParent : record.parent = some parent) :
    ReadsParent m fork parent := by
  have hForest := hGrounded.forest h.mirror.conversations
  have hSound : d.Sound := { h.stored.kept with forest := hForest }
  have hStored : d.conversations.lookup fork = some record := h.mirror.conversations fork ▸ hLookup
  have hRows : ∀ row ∈ d.entries, row.2.entry.conversationId = fork → parent.atEntry < row.1 := by
    intro row hMem hOwner
    have hRow := (Table.mem_rows_iff h.stored.kept.entries.1 row.1 row.2).mp hMem
    refine hForked row.1 row.2.entry record parent ?_ (hOwner ▸ hLookup) hParent
    rw [h.mirror.entries, hRow, map_some]
  have hSame : ∀ lower (upper : Int), upper ≤ parent.atEntry →
      View.visible d fork lower (some upper) = View.visible d parent.conversationId lower (some upper) :=
    fun lower upper hUpper => visible_fork hForest hStored hParent hRows lower hUpper
  obtain ⟨steps, -, hRooted⟩ := hForest fork (by simp [hStored])
  obtain ⟨depth, -, hRest⟩ := Rooted.of_fork hRooted hStored hParent
  obtain ⟨above, hAbove⟩ := hRest.lookup
  have hOf : ∀ {β : Type} (result : Except ReadError β),
      ofConversation d fork result = ofConversation d parent.conversationId result := by
    intro β result
    rw [ofConversation, ofConversation, hStored, hAbove]
    rfl
  have hVisible : ∀ id ≤ parent.atEntry, m.visibleEntry fork id = m.visibleEntry parent.conversationId id := by
    intro id hId
    rw [Memory.visibleEntry_eq h.mirror hSound, Memory.visibleEntry_eq h.mirror hSound, hOf, hSame _ _ (by omega)]
  refine ⟨hVisible, fun id hId => ?_, fun minEntryId maxEntryId order limit cursor hMax => ?_, fun kind key id hId stored => ?_⟩
  · rw [Memory.findLatestHeadMarker_eq h.mirror hSound, Memory.findLatestHeadMarker_eq h.mirror hSound,
      Sqlite.findLatestHeadMarker_eq hSound, Sqlite.findLatestHeadMarker_eq hSound, hOf]
    simp only [map_some, hSame none (Int.ofNat id) (by simpa using hId)]
  · rw [Memory.scanEntries_eq h.mirror hSound, Memory.scanEntries_eq h.mirror hSound]
    refine congrArg _ (funext fun start => ?_)
    simp only [hOf]
    rw [entries_fork hSame minEntryId hMax]
  · rw [Memory.snapshotAsOf, Memory.snapshotAsOf, hVisible id hId]
    cases m.visibleEntry parent.conversationId id with
    | error error => exact Iff.rfl
    | ok found =>
      cases found with
      | none => simp
      | some found => exact Iff.rfl

/-! Immutable history. -/

/-- What a read of a document that keeps its history, or of an address, returned
after the commit of a seq is returned at that seq after any later calls, with the
seq of a later retirement in the record. A fork reads up to its fork point what
its parent reads there, where parents are stored and entries are newer than the
fork points. -/
theorem history_immutable (before after : List (List (List Write))) (seq : Nat)
    (hSeq : (Memory.run {} before).nextSeq = seq + 1) :
    (∀ id, (∀ state, ((Memory.run {} before).run after).documents.lookup id = some state →
        isCurrentOnly state.record.toDocumentCreate = false) →
      ((Memory.run {} before).run after).materializeDocument id (.at seq) =
        ((Memory.run {} before).materializeDocument id .current).map (Option.map fun stored =>
          { stored with record := stored.record.retired (((Memory.run {} before).run after).retiredAt id) })) ∧
    (∀ address, ((Memory.run {} before).run after).findDocument address (.at seq) =
      ((Memory.run {} before).findDocument address .current).map (Option.map fun record =>
        record.retired (((Memory.run {} before).run after).retiredAt record.id))) ∧
    (Grounded ((Memory.run {} before).run after).conversations →
      ForkedBefore ((Memory.run {} before).run after).conversations ((Memory.run {} before).run after).entries →
      ∀ fork record parent, ((Memory.run {} before).run after).conversations.lookup fork = some record →
        record.parent = some parent → ReadsParent ((Memory.run {} before).run after) fork parent) := by
  obtain ⟨d, hAgree⟩ := Memory.run_agree before
  obtain ⟨d', hAfter, hExtends⟩ := hAgree.run_extends after
  have hSame : d.nextSeq = seq + 1 := hAgree.mirror.nextSeq ▸ hSeq
  have hRetired : ∀ id, ((Memory.run {} before).run after).retiredAt id =
      (d'.documents.lookup id).bind fun record => record.retiredAt := by
    intro id
    rw [Memory.retiredAt, hAfter.mirror.documents]
    cases d'.documents.lookup id <;> rfl
  refine ⟨fun id hRewindable => ?_, fun address => ?_, fun hGrounded hForked fork record parent hLookup hParent =>
    hAfter.readsParent hGrounded hForked hLookup hParent⟩
  · rw [Memory.materializeDocument_eq hAfter.mirror, Memory.materializeDocument_eq hAgree.mirror, hRetired]
    refine hExtends.documentAt hAgree.stored.kept (fun record hRecord => ?_) hSame
    exact hRewindable _ (by rw [hAfter.mirror.documents, hRecord, map_some])
  · rw [Memory.findDocument_eq hAfter.mirror hAfter.current hAfter.stored.kept,
      Memory.findDocument_eq hAgree.mirror hAgree.current hAgree.stored.kept,
      hExtends.find_incarnation hAgree.stored.kept hAfter.stored.kept hSame]
    simp only [Except.map, hRetired]

def documentCalls : List (List (List Write)) :=
  [[[.conversation { id := 2 }, .documentCreate { id := 3, kind := js "note", scope := .conversation 2 } 1 (.obj [])]]]

/-- It is retired, and another one is stored at its address. -/
def retireCalls : List (List (List Write)) :=
  [[[.documentRetire 3, .documentCreate { id := 4, kind := js "note", scope := .conversation 2 } 1 (.obj [])]]]

theorem history_immutable_retired :
    ((Memory.run {} documentCalls).run retireCalls).materializeDocument 3 (.at 1) =
      ((Memory.run {} documentCalls).materializeDocument 3 .current).map (Option.map fun stored =>
        { stored with record := stored.record.retired (((Memory.run {} documentCalls).run retireCalls).retiredAt 3) }) :=
  (history_immutable documentCalls retireCalls 1 (by decide)).1 3 fun state hState => by
    have hLookup : ((Memory.run {} documentCalls).run retireCalls).documents.lookup 3 =
        some { record := { id := 3, kind := js "note", scope := .conversation 2, createdAt := 1, retiredAt := some 2 },
               revisions := [{ content := .base 1 (.obj []), seq := 1 }] } := by
      decide
    rw [← Option.some.inj (hLookup.symm.trans hState)]
    decide

/-- The read at the first seq tells that the second one retired the document,
which was not so right after the first. -/
theorem history_shows_retirement :
    (Memory.run {} documentCalls).nextSeq = 2 ∧
    (Memory.run {} documentCalls).materializeDocument 3 .current =
      .ok (some { record := { id := 3, kind := js "note", scope := .conversation 2, createdAt := 1 },
                  version := 1, value := .obj [], deltasSinceBase := 0 }) ∧
    ((Memory.run {} documentCalls).run retireCalls).materializeDocument 3 (.at 1) =
      .ok (some { record := { id := 3, kind := js "note", scope := .conversation 2, createdAt := 1, retiredAt := some 2 },
                  version := 1, value := .obj [], deltasSinceBase := 0 }) := by
  decide

end OctoberHarness.Storage
