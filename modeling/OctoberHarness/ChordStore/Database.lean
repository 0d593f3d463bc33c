import OctoberHarness.Library.OrderedMap
import OctoberHarness.Storage.Record

/-! The database of a chord store: its metadata row, its catalog, its documents
with their revisions, its outbox, and the declared tables, which are left open.
The id allocator is the store's one counter for every id. -/
namespace OctoberHarness.ChordStore

open List

open Storage (MAX_SAFE_INTEGER)

/-- What the code throws: an error, or the one of a write that a batch records
and the store does not reproduce. -/
inductive Thrown where
  | error (message : String)
  | diverged (message : String)
deriving DecidableEq, Repr

/-- `error instanceof Diverged`. -/
def Thrown.isDivergence : Thrown → Bool
  | .error _ => false
  | .diverged _ => true

/-- `IdAllocator`: `next` is the next id it gives. -/
structure IdAllocator where
  next : Nat
deriving DecidableEq, Repr

namespace IdAllocator

/-- The next id `mint` gives, which each commit persists. -/
def value (ids : IdAllocator) : Nat :=
  ids.next

/-- Takes the next id; a saturated allocator gives none. -/
def mint (ids : IdAllocator) : Option (Nat × IdAllocator) :=
  if MAX_SAFE_INTEGER ≤ ids.next then none else some (ids.next, ⟨ids.next + 1⟩)

/-- Raises the counter above an explicit id, saturating. -/
def raise (ids : IdAllocator) (id : Nat) : IdAllocator :=
  if ids.next ≤ id then ⟨min (id + 1) MAX_SAFE_INTEGER⟩ else ids

/-- The allocator never mints this id: it is below the next one, or nothing is
minted any more. -/
def Covers (ids : IdAllocator) (id : Nat) : Prop :=
  id < ids.next ∨ ids.next = MAX_SAFE_INTEGER

variable {ids : IdAllocator}

theorem mint_eq_some {after : IdAllocator} {id : Nat} (h : ids.mint = some (id, after)) :
    id = ids.next ∧ after.next = ids.next + 1 ∧ ids.next < MAX_SAFE_INTEGER := by
  rw [mint] at h
  split_ifs at h with hFull
  simp only [Option.some.injEq, Prod.mk.injEq] at h
  exact ⟨h.1.symm, congrArg next h.2.symm, Nat.lt_of_not_le hFull⟩

theorem le_raise (hRange : ids.next ≤ MAX_SAFE_INTEGER) (id : Nat) :
    ids.next ≤ (ids.raise id).next := by
  rw [raise]
  split_ifs with h
  · exact le_min (Nat.le_succ_of_le h) hRange
  · exact Nat.le_refl _

theorem raise_range (hRange : ids.next ≤ MAX_SAFE_INTEGER) (id : Nat) :
    (ids.raise id).next ≤ MAX_SAFE_INTEGER := by
  rw [raise]
  split_ifs
  · exact min_le_right _ _
  · exact hRange

theorem covers_raise (ids : IdAllocator) (id : Nat) : (ids.raise id).Covers id := by
  rw [raise]
  split_ifs with h
  · rcases Nat.lt_or_ge id MAX_SAFE_INTEGER with hLess | hMore
    · left
      exact lt_min (Nat.lt_succ_self id) hLess
    · right
      exact min_eq_right (Nat.le_succ_of_le hMore)
  · left
    exact Nat.lt_of_not_le h

theorem Covers.mono {after : IdAllocator} {id : Nat} (h : ids.Covers id)
    (hGrows : ids.next ≤ after.next) (hRange : after.next ≤ MAX_SAFE_INTEGER) : after.Covers id := by
  rcases h with hLess | hFull
  · left
    exact Nat.lt_of_lt_of_le hLess hGrows
  · right
    exact Nat.le_antisymm hRange (hFull ▸ hGrows)

end IdAllocator

/-- `DocumentHistory`: what a record keeps at a new base and at retirement. -/
inductive DocumentHistory where
  | none
  | latest
  | rewindable
deriving DecidableEq, Repr

/-- `DocumentAddress`; a singleton has no key. -/
structure DocumentAddress where
  owner : String
  nameSpace : String
  kind : String
  key : Option String
deriving DecidableEq, Repr

/-- `DocumentRecord`: one incarnation of an address. -/
structure DocumentRecord extends DocumentAddress where
  id : Nat
  history : DocumentHistory
  createdAt : Nat
  retiredAt : Option Nat
  metaText : Option String
  revision : Nat
  version : Nat
  fingerprint : String
deriving DecidableEq, Repr

/-- The address columns of a record's row: a singleton has the empty key. -/
def DocumentAddress.columns (address : DocumentAddress) : String × String × String × String :=
  (address.owner, address.nameSpace, address.kind, address.key.getD "")

/-- `DocumentBase`, its value as the JSON text that is stored. -/
structure DocumentBase where
  version : Nat
  fingerprint : String
  text : String
deriving DecidableEq, Repr

/-- `DocumentContent`: a new base, or the text of a delta's ops on the current
base's version. -/
inductive DocumentContent where
  | base (base : DocumentBase)
  | delta (version : Nat) (text : String)
deriving DecidableEq, Repr

/-- A row of `chord_revisions`. -/
structure RevisionRow where
  documentId : Nat
  seq : Nat
  isBase : Bool
  version : Nat
  content : String
deriving DecidableEq, Repr

/-- What the writes of a commit read and change: the documents, their revisions,
and the declared tables. -/
structure Content (R : Type) where
  documents : List DocumentRecord
  revisions : List RevisionRow
  rows : R

/-- The ids of the existing records. -/
def Content.ids {R : Type} (content : Content R) : List Nat :=
  content.documents.map DocumentRecord.id

/-- The statements of the writes: those of the documents engine, and any
statement on the declared tables. -/
inductive Statement (R : Type) where
  | insertDocument (record : DocumentRecord)
  | insertRevision (row : RevisionRow)
  | bumpRevision (id revision version : Nat)
  | rebase (id revision version : Nat) (fingerprint : String)
  | deleteLive (id revision : Nat)
  | deleteDocument (id : Nat)
  | setRetired (id seq : Nat)
  | deleteRevisionsBelow (id seq : Nat)
  | deleteRevisions (id : Nat)
  | onRows (change : R → Except Thrown (R × Nat))

namespace Statement

variable {R : Type}

/-- The live record with this id at this revision. -/
def isLiveAt (id revision : Nat) (record : DocumentRecord) : Bool :=
  record.id == id && record.revision == revision && record.retiredAt.isNone

/-- Changes the selected records and counts them. -/
def update (content : Content R) (condition : DocumentRecord → Bool)
    (change : DocumentRecord → DocumentRecord) : Content R × Nat :=
  ({ content with documents := content.documents.map fun record =>
      if condition record then change record else record },
    content.documents.countP condition)

/-- Deletes the selected records and counts them. -/
def delete (content : Content R) (condition : DocumentRecord → Bool) : Content R × Nat :=
  ({ content with documents := content.documents.filter fun record => !condition record },
    content.documents.countP condition)

/-- What one statement does, and the rows it changed. -/
def exec (content : Content R) : Statement R → Except Thrown (Content R × Nat)
  | insertDocument record =>
    if record.id ∈ content.ids then .error (.error "UNIQUE constraint failed: chord_documents.id")
    else if record.retiredAt.isNone && content.documents.any (fun other =>
        other.retiredAt.isNone && other.columns == record.columns) then
      .error (.error "UNIQUE constraint failed: chord_documents_live")
    else .ok ({ content with documents := content.documents ++ [record] }, 1)
  | insertRevision row =>
    if content.revisions.any fun other =>
        other.documentId == row.documentId && other.seq == row.seq then
      .error (.error "UNIQUE constraint failed: chord_revisions")
    else .ok ({ content with revisions := content.revisions ++ [row] }, 1)
  | bumpRevision id revision version =>
    .ok (update content (fun record => isLiveAt id revision record && record.version == version)
      fun record => { record with revision := record.revision + 1 })
  | rebase id revision version fingerprint =>
    .ok (update content (isLiveAt id revision)
      fun record => { record with revision := record.revision + 1, version, fingerprint })
  | deleteLive id revision => .ok (delete content (isLiveAt id revision))
  | deleteDocument id => .ok (delete content fun record => record.id == id)
  | setRetired id seq =>
    .ok (update content (fun record => record.id == id) fun record => { record with retiredAt := some seq })
  | deleteRevisionsBelow id seq =>
    .ok ({ content with revisions := content.revisions.filter fun row =>
        !(row.documentId == id && row.seq < seq) },
      content.revisions.countP fun row => row.documentId == id && row.seq < seq)
  | deleteRevisions id =>
    .ok ({ content with revisions := content.revisions.filter fun row => row.documentId != id },
      content.revisions.countP fun row => row.documentId == id)
  | onRows change => (change content.rows).map fun (rows, count) => ({ content with rows }, count)

/-- The id a statement adds to the records. -/
def inserted : Statement R → Option Nat
  | insertDocument record => some record.id
  | _ => none

theorem ids_update (content : Content R) (condition : DocumentRecord → Bool)
    {change : DocumentRecord → DocumentRecord} (h : ∀ record, (change record).id = record.id) :
    (update content condition change).1.ids = content.ids := by
  simp only [Content.ids, update, map_map]
  apply map_congr_left
  intro record _
  simp only [Function.comp_apply]
  split_ifs
  · exact h record
  · rfl

theorem ids_delete (content : Content R) (condition : DocumentRecord → Bool) :
    (delete content condition).1.ids ⊆ content.ids :=
  map_subset _ (filter_subset_self _)

theorem result_eq {result : Content R × Nat} {after : Content R} {count : Nat}
    (h : (.ok result : Except Thrown (Content R × Nat)) = .ok (after, count)) : result.1 = after :=
  congrArg Prod.fst (Except.ok.inj h)

/-- A statement keeps the ids of the records, but for those it deletes and the
one it inserts. -/
theorem exec_ids {content after : Content R} {statement : Statement R} {count : Nat}
    (h : statement.exec content = .ok (after, count)) {id : Nat} (hId : id ∈ after.ids) :
    id ∈ content.ids ∨ statement.inserted = some id := by
  cases statement with
  | insertDocument record =>
    simp only [exec] at h
    split_ifs at h
    simp only [Except.ok.injEq, Prod.mk.injEq] at h
    obtain ⟨rfl, _⟩ := h
    simp only [Content.ids, map_append, map_cons, map_nil, mem_append,
      mem_singleton] at hId
    rcases hId with hOld | rfl
    · left
      exact hOld
    · right
      rfl
  | insertRevision row =>
    simp only [exec] at h
    split_ifs at h
    simp only [Except.ok.injEq, Prod.mk.injEq] at h
    obtain ⟨rfl, _⟩ := h
    left
    exact hId
  | bumpRevision _ _ _ =>
    have hAfter := result_eq h
    rw [← hAfter, ids_update] at hId
    · left
      exact hId
    · intro record
      rfl
  | rebase _ _ _ _ =>
    have hAfter := result_eq h
    rw [← hAfter, ids_update] at hId
    · left
      exact hId
    · intro record
      rfl
  | setRetired _ _ =>
    have hAfter := result_eq h
    rw [← hAfter, ids_update] at hId
    · left
      exact hId
    · intro record
      rfl
  | deleteLive _ _ =>
    have hAfter := result_eq h
    left
    exact ids_delete content _ (hAfter ▸ hId)
  | deleteDocument _ =>
    have hAfter := result_eq h
    left
    exact ids_delete content _ (hAfter ▸ hId)
  | deleteRevisionsBelow _ _ =>
    have hAfter := result_eq h
    rw [← hAfter] at hId
    left
    exact hId
  | deleteRevisions _ =>
    have hAfter := result_eq h
    rw [← hAfter] at hId
    left
    exact hId
  | onRows change =>
    simp only [exec] at h
    cases hChange : change content.rows with
    | error thrown => simp [hChange, Except.map] at h
    | ok result =>
      simp only [hChange, Except.map, Except.ok.injEq, Prod.mk.injEq] at h
      obtain ⟨rfl, _⟩ := h
      left
      exact hId

end Statement

/-- One change of the store as the outbox records it: a document's, or a
table's, which is left open. -/
inductive StoreWrite (D : Type) where
  | create (record : DocumentRecord) (base : Option DocumentBase)
  | change (id revision : Nat) (content : DocumentContent)
  | retire (id revision : Nat)
  | revision (row : RevisionRow)
  | table (write : D)
deriving DecidableEq, Repr

/-- `OutboxCommit`: a row of `chord_outbox`. -/
structure OutboxCommit (D : Type) where
  seq : Nat
  nextId : Nat
  writes : List (StoreWrite D)
deriving DecidableEq, Repr

/-- The row of `chord_meta`. -/
structure MetaRow where
  lastSeq : Nat
  nextId : Nat
  outbox : Bool
deriving DecidableEq, Repr

/-- Every table record, by SQL name. -/
abbrev Catalog (T : Type) := List (String × T)

/-- The database of a store; a table record is left open. -/
structure Database (R T D : Type) where
  row : MetaRow
  tables : Catalog T
  content : Content R
  outbox : List (OutboxCommit D)

end OctoberHarness.ChordStore
