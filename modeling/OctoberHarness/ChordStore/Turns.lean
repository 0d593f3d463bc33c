import OctoberHarness.ChordStore.Steps

/-! The turns of a chord store: what the backend transaction of a commit, of a
series and of a batch may do, and what memory takes after it. The backend may
fail in any call; between two calls other code may take ids and raise the
allocator. -/
namespace OctoberHarness.ChordStore

open Storage (MAX_SAFE_INTEGER)

variable {R T D C α : Type}

/-- An id the allocator gave, and the records that existed then. -/
structure Mint where
  id : Nat
  existing : List Nat

/-- The allocator, and the ids it gave since the store was opened. -/
structure Ids where
  allocator : IdAllocator
  minted : List Mint

/-- The ids after one more was given. -/
def Ids.take (ids : Ids) (id : Nat) (allocator : IdAllocator) (existing : List Nat) : Ids :=
  { allocator, minted := ids.minted ++ [{ id, existing }] }

/-- What other code does with the allocator during a call of the backend. No id
is taken while a batch applies: those who take ids hold a claim. -/
inductive Meanwhile (mints : Bool) (existing : List Nat) : Ids → Ids → Prop where
  | nothing (ids : Ids) : Meanwhile mints existing ids ids
  | mint {ids middle : Ids} {id : Nat} {allocator : IdAllocator}
      (earlier : Meanwhile mints existing ids middle) (hMints : mints = true)
      (hMint : middle.allocator.mint = some (id, allocator)) :
      Meanwhile mints existing ids (middle.take id allocator existing)
  | raise {ids middle : Ids} (earlier : Meanwhile mints existing ids middle) (id : Nat) :
      Meanwhile mints existing ids { middle with allocator := middle.allocator.raise id }

/-- `Step`: its seq, the ids of the documents it created, the table records it
changed, and the catalog under them. -/
structure Step (T : Type) where
  seq : Nat
  created : List Nat
  tables : Catalog T
  catalog : Catalog T

/-- The record of a table as the step leaves it so far. -/
def Step.table (step : Step T) (name : String) : Option T :=
  (step.tables.lookup name).or (step.catalog.lookup name)

def Step.start (seq : Nat) (catalog : Catalog T) : Step T :=
  { seq, created := [], tables := [], catalog }

/-- A step inside its backend transaction. -/
structure Turn (R T : Type) where
  content : Content R
  ids : Ids
  step : Step T

/-- What a program may do: every call of the backend may fail. -/
inductive Runs (mints : Bool) : Prog R T α → Turn R T → Except Thrown α → Turn R T → Prop where
  | done {turn : Turn R T} (value : α) : Runs mints (.done value) turn (.ok value) turn
  | throw {turn : Turn R T} (thrown : Thrown) : Runs mints (.throw thrown) turn (.error thrown) turn
  | query {turn after : Turn R T} {next : Content R → Prog R T α} {result : Except Thrown α} {ids : Ids}
      (call : Meanwhile mints turn.content.ids turn.ids ids)
      (rest : Runs mints (next turn.content) { turn with ids } result after) :
      Runs mints (.query next) turn result after
  | queryFailed {turn : Turn R T} {next : Content R → Prog R T α} {ids : Ids} (fault : Thrown)
      (call : Meanwhile mints turn.content.ids turn.ids ids) :
      Runs mints (.query next) turn (.error fault) { turn with ids }
  | run {turn after : Turn R T} {statement : Statement R} {next : Nat → Prog R T α}
      {result : Except Thrown α} {content : Content R} {count : Nat} {ids : Ids}
      (hExec : statement.exec turn.content = .ok (content, count))
      (call : Meanwhile mints content.ids turn.ids ids)
      (rest : Runs mints (next count) { turn with content, ids } result after) :
      Runs mints (.run statement next) turn result after
  | runFailed {turn : Turn R T} {statement : Statement R} {next : Nat → Prog R T α} {ids : Ids}
      (fault : Thrown) (call : Meanwhile mints turn.content.ids turn.ids ids) :
      Runs mints (.run statement next) turn (.error fault) { turn with ids }
  | mint {turn after : Turn R T} {next : Nat → Prog R T α} {result : Except Thrown α} {id : Nat}
      {allocator : IdAllocator} (hMint : turn.ids.allocator.mint = some (id, allocator))
      (rest : Runs mints (next id)
        { turn with ids := turn.ids.take id allocator turn.content.ids } result after) :
      Runs mints (.mint next) turn result after
  | mintFailed {turn : Turn R T} {next : Nat → Prog R T α} (hMint : turn.ids.allocator.mint = none) :
      Runs mints (.mint next) turn (.error (.error "ID space is exhausted")) turn
  | created {turn after : Turn R T} {id : Nat} {next : Prog R T α} {result : Except Thrown α}
      (rest : Runs mints next
        { turn with step := { turn.step with created := turn.step.created ++ [id] } } result after) :
      Runs mints (.created id next) turn result after
  | table {turn after : Turn R T} {name : String} {next : Option T → Prog R T α}
      {result : Except Thrown α} (rest : Runs mints (next (turn.step.table name)) turn result after) :
      Runs mints (.table name next) turn result after
  | setTable {turn after : Turn R T} {name : String} {record : T} {next : Prog R T α}
      {result : Except Thrown α}
      (rest : Runs mints next { turn with step :=
        { turn.step with tables := OrderedMap.set turn.step.tables name record } } result after) :
      Runs mints (.setTable name record next) turn result after

/-- What a check may find, and whether one of its calls failed. -/
inductive Checks (content : Content R) (step : Step T) :
    Check R T C → Bool → Ids → Except Thrown C → Bool → Ids → Prop where
  | done {failed : Bool} {ids : Ids} (found : C) :
      Checks content step (.done found) failed ids (.ok found) failed ids
  | throw {failed : Bool} {ids : Ids} (thrown : Thrown) :
      Checks content step (.throw thrown) failed ids (.error thrown) failed ids
  | query {failed after : Bool} {ids middle last : Ids} {next : Except Thrown (Content R) → Check R T C}
      {result : Except Thrown C} (call : Meanwhile true content.ids ids middle)
      (rest : Checks content step (next (.ok content)) failed middle result after last) :
      Checks content step (.query next) failed ids result after last
  | queryFailed {failed after : Bool} {ids middle last : Ids}
      {next : Except Thrown (Content R) → Check R T C} {result : Except Thrown C} (fault : Thrown)
      (call : Meanwhile true content.ids ids middle)
      (rest : Checks content step (next (.error fault)) true middle result after last) :
      Checks content step (.query next) failed ids result after last
  | table {failed after : Bool} {ids last : Ids} {name : String} {next : Option T → Check R T C}
      {result : Except Thrown C}
      (rest : Checks content step (next (step.table name)) failed ids result after last) :
      Checks content step (.table name next) failed ids result after last

/-- The table records of a step over those of a catalog. -/
def writeCatalog (catalog changed : Catalog T) : Catalog T :=
  changed.foldl (fun records entry => OrderedMap.set records entry.1 entry.2) catalog

/-- The metadata row after a commit. -/
def writeMeta (db : Database R T D) (seq nextId : Nat) : Database R T D :=
  { db with row := { db.row with lastSeq := seq, nextId } }

/-- The database after a step's writes, but for the metadata: the catalog and,
with an outbox, the commit. -/
def recordCommit (db : Database R T D) (outbox : Bool) (turn : Turn R T) (commit : OutboxCommit D) : Database R T D :=
  { db with content := turn.content, tables := writeCatalog db.tables turn.step.tables,
            outbox := if outbox then db.outbox ++ [commit] else db.outbox }

/-- A step's writes as they stand in the transaction: the step, and the
allocator's value, taken once after the writes applied. -/
structure Written (R T D : Type) where
  db : Database R T D
  step : Step T
  nextId : Nat

/-- `#write`: the writes in their order, the catalog, the outbox commit. -/
inductive Writes (outbox : Bool) (catalog : Catalog T) (db : Database R T D) (seq : Nat)
    (writes : List (StagedWrite R T D)) : Ids → Except Thrown (Written R T D) → Ids → Prop where
  | thrown {ids : Ids} {turn : Turn R T} {thrown : Thrown}
      (runs : Runs true (applyAll seq writes) ⟨db.content, ids, .start seq catalog⟩ (.error thrown) turn) :
      Writes outbox catalog db seq writes ids (.error thrown) turn.ids
  -- a statement of the catalog or of the outbox fails
  | failed {ids after : Ids} {turn : Turn R T} {recorded : List (StoreWrite D)} (fault : Thrown)
      (runs : Runs true (applyAll seq writes) ⟨db.content, ids, .start seq catalog⟩ (.ok recorded) turn)
      (calls : Meanwhile true turn.content.ids turn.ids after) :
      Writes outbox catalog db seq writes ids (.error fault) after
  | written {ids middle after : Ids} {turn : Turn R T} {recorded : List (StoreWrite D)}
      (runs : Runs true (applyAll seq writes) ⟨db.content, ids, .start seq catalog⟩ (.ok recorded) turn)
      (catalogCalls : Meanwhile true turn.content.ids turn.ids middle)
      (outboxCall : Meanwhile true turn.content.ids middle after) :
      Writes outbox catalog db seq writes ids
        (.ok { db := recordCommit db outbox turn
                 { seq, nextId := middle.allocator.value, writes := recorded }
               step := turn.step, nextId := middle.allocator.value }) after

/-- How a backend transaction ends for its caller: committed; rolled back, with
the body's own error; or with an unknown outcome. -/
inductive Ending (α : Type) where
  | committed (value : α)
  | refused (thrown : Thrown)
  | unknown (fault : Thrown)

/-- `SqliteDatabase.transaction`: the database it leaves, and how it ends. A
failed `COMMIT` may have taken effect. -/
inductive Transacts (mints : Bool) (db : Database R T D)
    (body : Ids → Except Thrown (α × Database R T D) → Ids → Prop) :
    Ids → Ending α → Database R T D → Ids → Prop where
  | beginFailed {ids after : Ids} (fault : Thrown) (call : Meanwhile mints db.content.ids ids after) :
      Transacts mints db body ids (.unknown fault) db after
  | committed {ids start middle after : Ids} {value : α} {stored : Database R T D}
      (begins : Meanwhile mints db.content.ids ids start) (hBody : body start (.ok (value, stored)) middle)
      (call : Meanwhile mints stored.content.ids middle after) :
      Transacts mints db body ids (.committed value) stored after
  | commitFailed {ids start middle after : Ids} {value : α} {stored : Database R T D} (fault : Thrown)
      (took : Bool) (begins : Meanwhile mints db.content.ids ids start)
      (hBody : body start (.ok (value, stored)) middle)
      (call : Meanwhile mints stored.content.ids middle after) :
      Transacts mints db body ids (.unknown fault) (if took then stored else db) after
  | refused {ids start middle after : Ids} {thrown : Thrown}
      (begins : Meanwhile mints db.content.ids ids start) (hBody : body start (.error thrown) middle)
      (call : Meanwhile mints db.content.ids middle after) :
      Transacts mints db body ids (.refused thrown) db after
  | rollbackFailed {ids start middle after : Ids} {thrown : Thrown} (fault : Thrown)
      (begins : Meanwhile mints db.content.ids ids start) (hBody : body start (.error thrown) middle)
      (call : Meanwhile mints db.content.ids middle after) :
      Transacts mints db body ids (.unknown fault) db after

/-- Where a store stands. -/
inductive StoreState where
  | opened
  | failed
  | closed
deriving DecidableEq, Repr

/-- `ChordStore`: its memory, over its database. -/
structure Store (R T D : Type) where
  db : Database R T D
  lastSeq : Nat
  committedNextId : Nat
  ids : Ids
  catalog : Catalog T
  state : StoreState
  diverged : Bool
  outbox : Bool

/-- `openStore`: the metadata and the catalog as the database has them. -/
def openStore (db : Database R T D) : Store R T D where
  db := db
  lastSeq := db.row.lastSeq
  committedNextId := db.row.nextId
  ids := { allocator := ⟨db.row.nextId⟩, minted := [] }
  catalog := db.tables
  state := .opened
  diverged := false
  outbox := db.row.outbox

/-- `#fail`: stops an open store. -/
def Store.fail (store : Store R T D) : Store R T D :=
  if store.state = .opened then { store with state := .failed } else store

/-- The transaction of `#step`. -/
inductive StepBody (store : Store R T D) (writes : List (StagedWrite R T D)) :
    Ids → Except Thrown (Written R T D × Database R T D) → Ids → Prop where
  | thrown {ids after : Ids} {thrown : Thrown}
      (hWrites : Writes store.outbox store.catalog store.db (store.lastSeq + 1) writes ids (.error thrown) after) :
      StepBody store writes ids (.error thrown) after
  | failed {ids middle after : Ids} {written : Written R T D} (fault : Thrown)
      (hWrites : Writes store.outbox store.catalog store.db (store.lastSeq + 1) writes ids (.ok written) middle)
      (call : Meanwhile true written.db.content.ids middle after) :
      StepBody store writes ids (.error fault) after
  | done {ids middle after : Ids} {written : Written R T D}
      (hWrites : Writes store.outbox store.catalog store.db (store.lastSeq + 1) writes ids (.ok written) middle)
      (call : Meanwhile true written.db.content.ids middle after) :
      StepBody store writes ids
        (.ok (written, writeMeta written.db (store.lastSeq + 1) written.nextId)) after

/-- Memory after the `COMMIT` of a step. -/
def Store.afterStep (store : Store R T D) (written : Written R T D) : Store R T D :=
  { store with lastSeq := store.lastSeq + 1, committedNextId := written.nextId,
               catalog := writeCatalog store.catalog written.step.tables }

/-- A stored commit of a series: its seq and its created documents. -/
structure Stored where
  seq : Nat
  created : List Nat
deriving DecidableEq, Repr

/-- `SeriesProgress`: the stored commits, the seq of the last one that wrote, the
allocator's value after it, and the copy of the catalog with the records they
changed, made once one changed. -/
structure Progress (R T D : Type) where
  db : Database R T D
  stored : List Stored
  last : Option Nat
  nextId : Nat
  changed : Option (Catalog T)

namespace Progress

def nextSeq (progress : Progress R T D) (lastSeq : Nat) : Nat :=
  progress.last.getD lastSeq + 1

/-- The catalog under the next step. -/
def catalog (progress : Progress R T D) (catalog : Catalog T) : Catalog T :=
  progress.changed.getD catalog

/-- A commit without writes takes no seq: it stands at the one before. -/
def skip (progress : Progress R T D) (lastSeq : Nat) : Progress R T D :=
  { progress with stored := progress.stored ++ [{ seq := progress.nextSeq lastSeq - 1, created := [] }] }

/-- The progress after a commit that wrote. -/
def keep (progress : Progress R T D) (catalog : Catalog T) (seq : Nat) (written : Written R T D) :
    Progress R T D where
  db := written.db
  stored := progress.stored ++ [{ seq, created := written.step.created }]
  last := some seq
  nextId := written.nextId
  changed :=
    if written.step.tables.isEmpty then progress.changed
    else some (writeCatalog (progress.catalog catalog) written.step.tables)

end Progress

/-- `#writeSeries`: per commit its check, which may refuse it, then its writes. -/
inductive Series (store : Store R T D) : Progress R T D → List (SeriesCommit R T D C) → Ids →
    Except Thrown (Progress R T D × Option Thrown) → Ids → Prop where
  | finished (progress : Progress R T D) (ids : Ids) :
      Series store progress [] ids (.ok (progress, none)) ids
  | refused {progress : Progress R T D} {commit : SeriesCommit R T D C}
      {rest : List (SeriesCommit R T D C)} {ids after : Ids} {thrown : Thrown}
      (hCheck : Checks progress.db.content (.start (progress.nextSeq store.lastSeq) (progress.catalog store.catalog))
        commit.check false ids (.error thrown) false after) :
      Series store progress (commit :: rest) ids (.ok (progress, some thrown)) after
  | checkFailed {progress : Progress R T D} {commit : SeriesCommit R T D C}
      {rest : List (SeriesCommit R T D C)} {ids after : Ids} {thrown : Thrown}
      (hCheck : Checks progress.db.content (.start (progress.nextSeq store.lastSeq) (progress.catalog store.catalog))
        commit.check false ids (.error thrown) true after) :
      Series store progress (commit :: rest) ids (.error thrown) after
  | empty {progress : Progress R T D} {commit : SeriesCommit R T D C}
      {rest : List (SeriesCommit R T D C)} {ids middle after : Ids} {found : C} {failed : Bool}
      {result : Except Thrown (Progress R T D × Option Thrown)}
      (hCheck : Checks progress.db.content (.start (progress.nextSeq store.lastSeq) (progress.catalog store.catalog))
        commit.check false ids (.ok found) failed middle)
      (hEmpty : commit.writes = [])
      (hRest : Series store (progress.skip store.lastSeq) rest middle result after) :
      Series store progress (commit :: rest) ids result after
  | thrown {progress : Progress R T D} {commit : SeriesCommit R T D C}
      {rest : List (SeriesCommit R T D C)} {ids middle after : Ids} {found : C} {failed : Bool}
      {thrown : Thrown}
      (hCheck : Checks progress.db.content (.start (progress.nextSeq store.lastSeq) (progress.catalog store.catalog))
        commit.check false ids (.ok found) failed middle)
      (hWrites : Writes store.outbox (progress.catalog store.catalog) progress.db
        (progress.nextSeq store.lastSeq) (commit.resolved found) middle (.error thrown) after) :
      Series store progress (commit :: rest) ids (.error thrown) after
  | stored {progress : Progress R T D} {commit : SeriesCommit R T D C}
      {rest : List (SeriesCommit R T D C)} {ids middle last after : Ids} {found : C} {failed : Bool}
      {written : Written R T D} {result : Except Thrown (Progress R T D × Option Thrown)}
      (hCheck : Checks progress.db.content (.start (progress.nextSeq store.lastSeq) (progress.catalog store.catalog))
        commit.check false ids (.ok found) failed middle)
      (hWritten : commit.writes ≠ [])
      (hWrites : Writes store.outbox (progress.catalog store.catalog) progress.db
        (progress.nextSeq store.lastSeq) (commit.resolved found) middle (.ok written) last)
      (hRest : Series store
        (progress.keep store.catalog (progress.nextSeq store.lastSeq) written) rest last result after) :
      Series store progress (commit :: rest) ids result after

/-- Where a series starts. -/
def Progress.start (store : Store R T D) (ids : Ids) : Progress R T D where
  db := store.db
  stored := []
  last := none
  nextId := ids.allocator.value
  changed := none

/-- `#closeSeries`: the metadata, once, when a commit wrote. -/
def Progress.close (progress : Progress R T D) : Database R T D :=
  match progress.last with
  | none => progress.db
  | some seq => writeMeta progress.db seq progress.nextId

/-- The transaction of `#series`. -/
inductive SeriesBody (store : Store R T D) (commits : List (SeriesCommit R T D C)) :
    Ids → Except Thrown ((Progress R T D × Option Thrown) × Database R T D) → Ids → Prop where
  | thrown {ids after : Ids} {thrown : Thrown}
      (series : Series store (.start store ids) commits ids (.error thrown) after) :
      SeriesBody store commits ids (.error thrown) after
  | failed {ids middle after : Ids} {progress : Progress R T D} {refusal : Option Thrown} (fault : Thrown)
      (series : Series store (.start store ids) commits ids (.ok (progress, refusal)) middle)
      (hLast : progress.last ≠ none) (call : Meanwhile true progress.db.content.ids middle after) :
      SeriesBody store commits ids (.error fault) after
  | done {ids middle after : Ids} {progress : Progress R T D} {refusal : Option Thrown}
      (series : Series store (.start store ids) commits ids (.ok (progress, refusal)) middle)
      (call : Meanwhile true progress.db.content.ids middle after) :
      SeriesBody store commits ids (.ok ((progress, refusal), progress.close)) after

/-- Memory after the `COMMIT` of a series. -/
def Store.afterSeries (store : Store R T D) (progress : Progress R T D) : Store R T D :=
  match progress.last with
  | none => store
  | some seq =>
    { store with lastSeq := seq, committedNextId := progress.nextId,
                 catalog := writeCatalog store.catalog (progress.changed.getD []) }

/-- A batch while it applies: the position its last commit leaves, the catalog
with the tables it changed, and those tables. -/
structure Replaying (R T D : Type) where
  db : Database R T D
  lastSeq : Nat
  nextId : Nat
  tables : Catalog T
  changed : Catalog T

/-- The state of a batch after one of its commits applied. -/
def Replaying.keep (state : Replaying R T D) (outbox : Bool) (commit : OutboxCommit D) (turn : Turn R T) : Replaying R T D where
  db := recordCommit state.db outbox turn commit
  lastSeq := commit.seq
  nextId := commit.nextId
  tables := writeCatalog state.tables turn.step.tables
  changed := writeCatalog state.changed turn.step.tables

/-- The commits of a batch in the store's turn: seqs that follow on, next ids
that never fall, each write by the applier. -/
inductive Replays (applyTable : D → TableProg R T Unit) (outbox : Bool) :
    Replaying R T D → List (OutboxCommit D) → Ids → Except Thrown (Replaying R T D) → Ids → Prop where
  | finished (state : Replaying R T D) (ids : Ids) : Replays applyTable outbox state [] ids (.ok state) ids
  | misplaced {state : Replaying R T D} {commit : OutboxCommit D} {rest : List (OutboxCommit D)} {ids : Ids}
      (hSeq : commit.seq ≠ state.lastSeq + 1) :
      Replays applyTable outbox state (commit :: rest) ids
        (.error (.error s!"does not follow seq {state.lastSeq}")) ids
  | lowered {state : Replaying R T D} {commit : OutboxCommit D} {rest : List (OutboxCommit D)} {ids : Ids}
      (hSeq : commit.seq = state.lastSeq + 1) (hNext : commit.nextId < state.nextId) :
      Replays applyTable outbox state (commit :: rest) ids
        (.error (.error s!"its next id {commit.nextId} is below {state.nextId}")) ids
  | thrown {state : Replaying R T D} {commit : OutboxCommit D} {rest : List (OutboxCommit D)} {ids : Ids}
      {turn : Turn R T} {thrown : Thrown}
      (hSeq : commit.seq = state.lastSeq + 1) (hNext : state.nextId ≤ commit.nextId)
      (runs : Runs false (applyBatchWrites applyTable commit.seq commit.nextId commit.writes)
        ⟨state.db.content, ids, .start commit.seq state.tables⟩ (.error thrown) turn) :
      Replays applyTable outbox state (commit :: rest) ids (.error thrown) turn.ids
  | failed {state : Replaying R T D} {commit : OutboxCommit D} {rest : List (OutboxCommit D)}
      {ids after : Ids} {turn : Turn R T} (fault : Thrown)
      (hSeq : commit.seq = state.lastSeq + 1) (hNext : state.nextId ≤ commit.nextId)
      (runs : Runs false (applyBatchWrites applyTable commit.seq commit.nextId commit.writes)
        ⟨state.db.content, ids, .start commit.seq state.tables⟩ (.ok ()) turn)
      (calls : Meanwhile false turn.content.ids turn.ids after) :
      Replays applyTable outbox state (commit :: rest) ids (.error fault) after
  | applied {state : Replaying R T D} {commit : OutboxCommit D} {rest : List (OutboxCommit D)}
      {ids middle after : Ids} {turn : Turn R T} {result : Except Thrown (Replaying R T D)}
      (hSeq : commit.seq = state.lastSeq + 1) (hNext : state.nextId ≤ commit.nextId)
      (runs : Runs false (applyBatchWrites applyTable commit.seq commit.nextId commit.writes)
        ⟨state.db.content, ids, .start commit.seq state.tables⟩ (.ok ()) turn)
      (calls : Meanwhile false turn.content.ids turn.ids middle)
      (hRest : Replays applyTable outbox (state.keep outbox commit turn) rest middle result after) :
      Replays applyTable outbox state (commit :: rest) ids result after

/-- Where a batch starts. -/
def Replaying.start (store : Store R T D) : Replaying R T D where
  db := store.db
  lastSeq := store.lastSeq
  nextId := store.committedNextId
  tables := store.catalog
  changed := []

/-- The transaction of a batch: its commits, then the metadata. -/
inductive ReplayBody (applyTable : D → TableProg R T Unit) (store : Store R T D)
    (commits : List (OutboxCommit D)) :
    Ids → Except Thrown (Replaying R T D × Database R T D) → Ids → Prop where
  | thrown {ids after : Ids} {thrown : Thrown}
      (replays : Replays applyTable store.outbox (.start store) commits ids (.error thrown) after) :
      ReplayBody applyTable store commits ids (.error thrown) after
  | failed {ids middle after : Ids} {state : Replaying R T D} (fault : Thrown)
      (replays : Replays applyTable store.outbox (.start store) commits ids (.ok state) middle)
      (call : Meanwhile false state.db.content.ids middle after) :
      ReplayBody applyTable store commits ids (.error fault) after
  | done {ids middle after : Ids} {state : Replaying R T D}
      (replays : Replays applyTable store.outbox (.start store) commits ids (.ok state) middle)
      (call : Meanwhile false state.db.content.ids middle after) :
      ReplayBody applyTable store commits ids
        (.ok (state, writeMeta state.db state.lastSeq state.nextId)) after

/-- Memory after the `COMMIT` of a batch. -/
def Store.afterReplay (store : Store R T D) (state : Replaying R T D) : Store R T D :=
  { store with
    lastSeq := state.lastSeq, committedNextId := state.nextId,
    ids := { store.ids with allocator := store.ids.allocator.raise (state.nextId - 1) },
    catalog := writeCatalog store.catalog state.changed }

end OctoberHarness.ChordStore
