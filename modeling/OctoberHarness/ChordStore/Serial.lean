import OctoberHarness.ChordStore.Accounts

/-! The turns keep memory equal to what reopening the database would read, and a
series stores what its stored commits would store one by one. -/
namespace OctoberHarness.ChordStore

open List Option

open Storage (MAX_SAFE_INTEGER)

variable {R T D C : Type}

/-- Memory has the last seq, the committed next id and the catalog that reopening
the database would read. -/
structure Store.Mirrors (store : Store R T D) : Prop where
  lastSeq : store.lastSeq = (openStore store.db).lastSeq
  nextId : store.committedNextId = (openStore store.db).committedNextId
  catalog : ∀ name, store.catalog.lookup name = (openStore store.db).catalog.lookup name

/-- Two stores with the same database, last seq, committed next id and catalog. -/
structure Store.Same (store other : Store R T D) : Prop where
  db : store.db = other.db
  lastSeq : store.lastSeq = other.lastSeq
  nextId : store.committedNextId = other.committedNextId
  catalog : ∀ name, store.catalog.lookup name = other.catalog.lookup name

/-- A store whose memory mirrors its database, and whose allocator is past it. -/
structure Store.Sound (store : Store R T D) : Prop where
  mirrors : store.Mirrors
  db : store.db.Sound
  ids : store.ids.Sound
  le : store.db.row.nextId ≤ store.ids.allocator.next
  catalog : (store.catalog.map Prod.fst).Nodup

theorem Store.Same.refl (store : Store R T D) : store.Same store :=
  ⟨rfl, rfl, rfl, fun _ => rfl⟩

variable {store other : Store R T D} {ids : Ids}

theorem Store.Same.symm (h : store.Same other) : other.Same store :=
  ⟨h.db.symm, h.lastSeq.symm, h.nextId.symm, fun name => (h.catalog name).symm⟩

theorem Store.Same.trans {middle : Store R T D} (h : store.Same middle) (hNext : middle.Same other) : store.Same other :=
  ⟨h.db.trans hNext.db, h.lastSeq.trans hNext.lastSeq, h.nextId.trans hNext.nextId,
    fun name => (h.catalog name).trans (hNext.catalog name)⟩

theorem Store.Mirrors.congr (h : store.Mirrors) (hSame : store.Same other) :
    other.Mirrors where
  lastSeq := hSame.lastSeq ▸ hSame.db ▸ h.lastSeq
  nextId := hSame.nextId ▸ hSame.db ▸ h.nextId
  catalog name := (hSame.catalog name) ▸ hSame.db ▸ h.catalog name

theorem Store.Sound.congr (h : store.Sound) (hSame : other.Same store)
    (hIds : other.ids = store.ids) (hCatalog : (other.catalog.map Prod.fst).Nodup) : other.Sound where
  mirrors := h.mirrors.congr hSame.symm
  db := hSame.db ▸ h.db
  ids := hIds ▸ h.ids
  le := hSame.db ▸ hIds ▸ h.le
  catalog := hCatalog

variable {db : Database R T D} {store : Store R T D} {writes : List (StagedWrite R T D)} {written : Written R T D}

theorem Database.Sound.covered (h : db.Sound) (hIds : ids.Sound)
    (hLe : db.row.nextId ≤ ids.allocator.next) : ids.Cover db.content.ids :=
  fun id hId => (h.cover id hId).mono hLe hIds.range

theorem Store.Sound.cover (h : store.Sound) : store.ids.Cover store.db.content.ids :=
  h.db.covered h.ids h.le

theorem Store.Sound.grow (h : store.Sound) (hGrows : store.ids.Grows ids) : { store with ids }.Sound where
  mirrors := ⟨h.mirrors.lastSeq, h.mirrors.nextId, h.mirrors.catalog⟩
  db := h.db
  ids := hGrows.sound
  le := Nat.le_trans h.le hGrows.le
  catalog := h.catalog

/-- The store after a step's writes and the metadata. -/
def Store.wrote (store : Store R T D) (ids : Ids) (written : Written R T D) : Store R T D :=
  { store.afterStep written with
    db := writeMeta written.db (store.lastSeq + 1) written.nextId, ids }

theorem Store.Sound.wrote (h : store.Sound) {outbox : Bool} (hContent : db.content = store.db.content)
    (hTables : db.tables = store.db.tables) {after : Ids} (hIds : ids.Sound) (hLe : store.db.row.nextId ≤ ids.allocator.next)
    (hExplicit : ids.Cover (explicitIds writes))
    (hWrites : Writes outbox store.catalog db (store.lastSeq + 1) writes ids (.ok written) after) :
    (store.wrote after written).Sound := by
  have hCover : ids.Cover db.content.ids := by
    rw [hContent]
    exact h.db.covered hIds hLe
  obtain ⟨hGrows, hWritten⟩ := hWrites.sound hIds hCover hExplicit
  obtain ⟨hNext, hRecords, hNodup, hRow, hCatalog⟩ := hWritten written rfl
  have hDb : (written.db.tables.map Prod.fst).Nodup := by
    rw [hCatalog, hTables]
    exact nodup_writeCatalog h.db.tables _
  refine ⟨⟨rfl, rfl, fun name => ?_⟩, ⟨Nat.le_trans hNext hGrows.sound.range, hRecords, hDb⟩, hGrows.sound, hNext,
    nodup_writeCatalog h.catalog _⟩
  change (writeCatalog store.catalog written.step.tables).lookup name = written.db.tables.lookup name
  rw [hCatalog, hTables, lookup_writeCatalog hNodup, lookup_writeCatalog hNodup, h.mirrors.catalog name]
  rfl

namespace Progress

/-- The store that a series' progress stands for: its metadata written. -/
def asStore (progress : Progress R T D) (store : Store R T D) (ids : Ids) : Store R T D :=
  { store with
    db := progress.close
    lastSeq := progress.last.getD store.lastSeq
    committedNextId := if progress.last.isSome then progress.nextId else store.committedNextId
    ids
    catalog := progress.catalog store.catalog }

variable (progress : Progress R T D)

theorem content_close : progress.close.content = progress.db.content := by
  rw [close]
  split <;> rfl

theorem tables_close : progress.close.tables = progress.db.tables := by
  rw [close]
  split <;> rfl

theorem asStore_keep (store : Store R T D) (ids after : Ids) (written : Written R T D) :
    (progress.keep store.catalog (progress.nextSeq store.lastSeq) written).asStore store after =
      (progress.asStore store ids).wrote after written := by
  have hCatalog : (progress.keep store.catalog (progress.nextSeq store.lastSeq) written).catalog store.catalog =
      writeCatalog (progress.catalog store.catalog) written.step.tables := by
    rw [keep, catalog]
    cases hTables : written.step.tables with
    | nil => rfl
    | cons entry rest => rfl
  simp only [asStore, hCatalog]
  rfl

/-- The changed records of a series are a copy of the catalog with some replaced
or added. -/
def Copies (progress : Progress R T D) (catalog : Catalog T) : Prop :=
  ∀ changed, progress.changed = some changed →
    (changed.map Prod.fst).Nodup ∧ ∀ name, changed.lookup name = none → catalog.lookup name = none

variable {progress : Progress R T D}

theorem Copies.keep {catalog : Catalog T} (h : progress.Copies catalog) (hNodup : (catalog.map Prod.fst).Nodup)
    {written : Written R T D} (hTables : (written.step.tables.map Prod.fst).Nodup) (seq : Nat) :
    (progress.keep catalog seq written).Copies catalog := by
  intro changed hChanged
  simp only [Progress.keep] at hChanged
  split_ifs at hChanged with hEmpty
  · exact h changed hChanged
  obtain rfl := some.inj hChanged
  have hBase : ((progress.catalog catalog).map Prod.fst).Nodup ∧
      ∀ name, (progress.catalog catalog).lookup name = none → catalog.lookup name = none := by
    rw [Progress.catalog]
    cases hOld : progress.changed with
    | none => exact ⟨hNodup, fun _ hNone => hNone⟩
    | some old => exact h old hOld
  refine ⟨nodup_writeCatalog hBase.1 _, fun name hNone => hBase.2 name ?_⟩
  rw [lookup_writeCatalog hTables] at hNone
  exact (or_eq_none_iff.mp hNone).2

theorem Copies.same {ids : Ids} (h : progress.Copies store.catalog) (hNone : progress.last = none → progress.changed = none) :
    Store.Same { store.afterSeries progress with db := progress.close } (progress.asStore store ids) := by
  cases hLast : progress.last with
  | none =>
    refine ⟨rfl, ?_, ?_, fun name => ?_⟩
    · simp only [Store.afterSeries, asStore, hLast, getD_none]
    · simp [Store.afterSeries, asStore, hLast]
    · simp only [Store.afterSeries, asStore, hLast, Progress.catalog, hNone hLast, getD_none]
  | some seq =>
    refine ⟨rfl, ?_, ?_, fun name => ?_⟩
    · simp only [Store.afterSeries, asStore, hLast, getD_some]
    · simp [Store.afterSeries, asStore, hLast]
    · simp only [Store.afterSeries, asStore, hLast, Progress.catalog]
      cases hChanged : progress.changed with
      | none => rfl
      | some changed =>
        obtain ⟨hNodup, hCopy⟩ := h changed hChanged
        rw [getD_some, getD_some, lookup_writeCatalog hNodup]
        cases hName : changed.lookup name with
        | none => rw [hCopy name hName]; rfl
        | some record => rfl

end Progress

variable {ids after : Ids} {commits : List (SeriesCommit R T D C)} {store : Store R T D} {state : Replaying R T D}

theorem Writes.onRow {outbox : Bool} {catalog : Catalog T} {seq : Nat}
    (h : Writes outbox catalog db seq writes ids (.ok written) after) (row : MetaRow) :
    Writes outbox catalog { db with row } seq writes ids
      (.ok { written with db := { written.db with row } }) after := by
  cases h with
  | written runs catalogCalls outboxCall => exact .written runs catalogCalls outboxCall

/-- Series commits issued one by one: each checked, then committed on its own. -/
inductive Issues : Store R T D → List (SeriesCommit R T D C) → List Stored → Store R T D → Prop where
  | finished (store : Store R T D) : Issues store [] [] store
  | skipped {store last : Store R T D} {commit : SeriesCommit R T D C} {rest : List (SeriesCommit R T D C)}
      {stored : List Stored} {ids : Ids} {found : C} {failed : Bool}
      (hCheck : Checks store.db.content (.start (store.lastSeq + 1) store.catalog) commit.check false store.ids
        (.ok found) failed ids)
      (hEmpty : commit.writes = []) (hRest : Issues { store with ids } rest stored last) :
      Issues store (commit :: rest) ({ seq := store.lastSeq, created := [] } :: stored) last
  | committed {store last : Store R T D} {commit : SeriesCommit R T D C} {rest : List (SeriesCommit R T D C)}
      {stored : List Stored} {ids after : Ids} {found : C} {failed : Bool} {written : Written R T D}
      {db : Database R T D}
      (hCheck : Checks store.db.content (.start (store.lastSeq + 1) store.catalog) commit.check false store.ids
        (.ok found) failed ids)
      (hWritten : commit.writes ≠ [])
      (transacts : Transacts true store.db (StepBody store (commit.resolved found)) ids (.committed written) db after)
      (hRest : Issues { store.afterStep written with db, ids := after } rest stored last) :
      Issues store (commit :: rest)
        ({ seq := store.lastSeq + 1, created := written.step.created } :: stored) last

/-- One commit of a series, as a commit of its own. -/
theorem Progress.transacts (progress : Progress R T D) (start : Ids)
    (hRow : written.db.row = progress.db.row)
    (h : Writes store.outbox (progress.catalog store.catalog) progress.db (progress.nextSeq store.lastSeq) writes
      ids (.ok written) after) :
    ∃ alone : Written R T D, alone.step = written.step ∧ alone.nextId = written.nextId ∧
      Transacts true (progress.asStore store start).db (StepBody (progress.asStore store start) writes) ids
        (.committed alone) ((progress.asStore store start).wrote after written).db after := by
  have hClose : { progress.db with row := progress.close.row } = progress.close := by
    rw [Progress.close]
    split <;> rfl
  have hOutbox : progress.close.row.outbox = written.db.row.outbox := by
    rw [hRow, Progress.close]
    split <;> rfl
  have hAlone := h.onRow progress.close.row
  rw [hClose] at hAlone
  refine ⟨{ written with db := { written.db with row := progress.close.row } }, rfl, rfl, ?_⟩
  have hBody : StepBody (progress.asStore store start) writes ids _ after := .done hAlone (.nothing after)
  have hStored : writeMeta { written.db with row := progress.close.row } ((progress.asStore store start).lastSeq + 1)
      written.nextId = ((progress.asStore store start).wrote after written).db := by
    simp only [Store.wrote, writeMeta, hOutbox]
  rw [hStored] at hBody
  exact Transacts.committed (.nothing ids) hBody (.nothing after)

/-- What a series' progress keeps: the store it stands for is sound. -/
structure Progress.Sound (progress : Progress R T D) (store : Store R T D) (ids : Ids) : Prop where
  stands : (progress.asStore store ids).Sound
  copies : progress.Copies store.catalog
  unchanged : progress.last = none → progress.changed = none

/-- The commits of a series that were stored, from one progress to a later one. -/
structure Progress.Stores (progress finish : Progress R T D) (store : Store R T D) (ids : Ids)
    (commits issued : List (SeriesCommit R T D C)) (refusal : Option Thrown) : Prop where
  sublist : ∃ rest, commits = issued ++ rest ∧ (refusal = none ↔ rest = [])
  issues : ∃ stored last, finish.stored = progress.stored ++ stored ∧
    Issues (progress.asStore store ids) issued stored (finish.asStore store last)

variable {issued : List (SeriesCommit R T D C)}

theorem Progress.Stores.cons {progress middle finish : Progress R T D} {next : Ids} {refusal : Option Thrown}
    {commit : SeriesCommit R T D C}
    {first : Stored} (h : middle.Stores finish store next commits issued refusal)
    (hFirst : middle.stored = progress.stored ++ [first])
    (hIssues : ∀ stored last, Issues (middle.asStore store next) issued stored last →
      Issues (progress.asStore store ids) (commit :: issued) (first :: stored) last) :
    progress.Stores finish store ids (commit :: commits) (commit :: issued) refusal := by
  obtain ⟨⟨rest, hCommits, hRest⟩, stored, last, hStored, hIssued⟩ := h
  refine ⟨⟨rest, by rw [hCommits, cons_append], hRest⟩, first :: stored, last, ?_, hIssues _ _ hIssued⟩
  rw [hStored, hFirst, append_assoc]
  rfl

/-- A series keeps the store it stands for sound, and stores what its stored
commits would store one by one. -/
theorem Series.sound {progress : Progress R T D} {result : Except Thrown (Progress R T D × Option Thrown)}
    (h : Series store progress commits ids result after) (hSound : progress.Sound store ids)
    (hCatalog : (store.catalog.map Prod.fst).Nodup) (hExplicit : ∀ commit ∈ commits, ids.Cover commit.explicit) :
    ids.Grows after ∧ ∀ finish refusal, result = .ok (finish, refusal) →
      finish.Sound store after ∧ ∃ issued, progress.Stores finish store ids commits issued refusal := by
  induction h with
  | finished progress ids =>
    refine ⟨hSound.stands.ids.refl, fun finish refusal hResult => ?_⟩
    obtain ⟨rfl, rfl⟩ := Prod.mk.inj (Except.ok.inj hResult)
    exact ⟨hSound, [], ⟨[], rfl, by simp⟩, [], ids, by simp, .finished _⟩
  | @refused progress commit rest ids after thrown hCheck =>
    have hGrows := hCheck.grows hSound.stands.ids (progress.content_close ▸ hSound.stands.cover)
    refine ⟨hGrows, fun finish refusal hResult => ?_⟩
    obtain ⟨rfl, rfl⟩ := Prod.mk.inj (Except.ok.inj hResult)
    exact ⟨⟨hSound.stands.grow hGrows, hSound.copies, hSound.unchanged⟩, [],
      ⟨commit :: rest, rfl, by simp⟩, [], ids, by simp, .finished _⟩
  | @checkFailed progress commit rest ids after thrown hCheck =>
    have hGrows := hCheck.grows hSound.stands.ids (progress.content_close ▸ hSound.stands.cover)
    exact ⟨hGrows, fun finish refusal hResult => by cases hResult⟩
  | @empty progress commit rest ids middle after found failed result hCheck hEmpty hRest ih =>
    have hGrows := hCheck.grows hSound.stands.ids (progress.content_close ▸ hSound.stands.cover)
    have hNext := ih ⟨hSound.stands.grow hGrows, hSound.copies, hSound.unchanged⟩ fun other hOther =>
      hGrows.cover (hExplicit other (mem_cons_of_mem _ hOther))
    refine ⟨hGrows.trans hNext.1, fun finish refusal hResult => ?_⟩
    obtain ⟨hFinish, issued, hStores⟩ := hNext.2 finish refusal hResult
    refine ⟨hFinish, commit :: issued, hStores.cons rfl fun stored last hIssued => ?_⟩
    exact .skipped (progress.content_close ▸ hCheck) hEmpty hIssued
  | @thrown progress commit rest ids middle after found failed thrown hCheck hWrites =>
    have hGrows := hCheck.grows hSound.stands.ids (progress.content_close ▸ hSound.stands.cover)
    have hMiddle := hSound.stands.grow hGrows
    have hResolved : middle.Cover (explicitIds (commit.resolved found)) := fun id hId =>
      hGrows.covers (hExplicit commit mem_cons_self id (commit.explicit_resolved found hId))
    have hWritten := (hWrites.sound hMiddle.ids (progress.content_close ▸ hMiddle.cover) hResolved).1
    exact ⟨hGrows.trans hWritten, fun finish refusal hResult => by cases hResult⟩
  | @stored progress commit rest ids middle last after found failed written result hCheck hWritten hWrites hRest ih =>
    have hGrows := hCheck.grows hSound.stands.ids (progress.content_close ▸ hSound.stands.cover)
    have hMiddle : (progress.asStore store middle).Sound := hSound.stands.grow hGrows
    have hResolved : middle.Cover (explicitIds (commit.resolved found)) := fun id hId =>
      hGrows.covers (hExplicit commit mem_cons_self id (commit.explicit_resolved found hId))
    obtain ⟨hLast, hFacts⟩ := hWrites.sound hMiddle.ids (progress.content_close ▸ hMiddle.cover) hResolved
    obtain ⟨_, _, hTables, hRow, _⟩ := hFacts written rfl
    have hStore : ((progress.keep store.catalog (progress.nextSeq store.lastSeq) written).asStore store last).Sound := by
      rw [progress.asStore_keep store middle last written]
      exact hMiddle.wrote progress.content_close.symm progress.tables_close.symm hMiddle.ids hMiddle.le hResolved hWrites
    have hNext := ih ⟨hStore, hSound.copies.keep hCatalog hTables _, fun hNone => by cases hNone⟩ fun other hOther =>
      (hGrows.trans hLast).cover (hExplicit other (mem_cons_of_mem _ hOther))
    refine ⟨(hGrows.trans hLast).trans hNext.1, fun finish refusal hResult => ?_⟩
    obtain ⟨hFinish, issued, hStores⟩ := hNext.2 finish refusal hResult
    obtain ⟨alone, hStep, hNextId, hAlone⟩ := progress.transacts ids hRow hWrites
    refine ⟨hFinish, commit :: issued, hStores.cons rfl fun stored finished hIssued => ?_⟩
    have hContent := progress.content_close.symm ▸ hCheck
    rw [progress.asStore_keep store ids last written] at hIssued
    have hNow : { (progress.asStore store ids).afterStep alone with
        db := ((progress.asStore store ids).wrote last written).db, ids := last } =
        (progress.asStore store ids).wrote last written := by
      simp only [Store.wrote, Store.afterStep, hStep, hNextId]
    have hCommitted := Issues.committed hContent hWritten hAlone (hNow ▸ hIssued)
    rw [hStep] at hCommitted
    exact hCommitted

/-- The seqs that commits took: each with writes takes one. -/
def takenSeqs : List (SeriesCommit R T D C) → List Stored → List Nat
  | commit :: commits, stored :: rest =>
    if commit.writes.isEmpty then takenSeqs commits rest else stored.seq :: takenSeqs commits rest
  | _, _ => []

variable {stored : List Stored}

theorem takenSeqs_append (h : stored.length = issued.length) (rest : List (SeriesCommit R T D C)) :
    takenSeqs (issued ++ rest) stored = takenSeqs issued stored := by
  induction issued generalizing stored with
  | nil =>
    obtain rfl := List.length_eq_zero_iff.mp h
    cases rest <;> rfl
  | cons commit commits ih =>
    cases stored with
    | nil => cases h
    | cons first others =>
      simp only [cons_append, takenSeqs, ih (Nat.succ.inj h)]

theorem Issues.seqs {last : Store R T D} (h : Issues store commits stored last) :
    stored.length = commits.length ∧
      last.lastSeq = store.lastSeq + (takenSeqs commits stored).length ∧
      takenSeqs commits stored = range' (store.lastSeq + 1) (takenSeqs commits stored).length := by
  induction h with
  | finished store => exact ⟨rfl, rfl, rfl⟩
  | skipped hCheck hEmpty hRest ih =>
    obtain ⟨hLength, hLast, hSeqs⟩ := ih
    simp only [takenSeqs, hEmpty, isEmpty_nil, if_true]
    exact ⟨by simpa using hLength, hLast, hSeqs⟩
  | committed hCheck hWritten transacts hRest ih =>
    obtain ⟨hLength, hLast, hSeqs⟩ := ih
    have hSome := List.isEmpty_eq_false_iff.mpr hWritten
    simp only [takenSeqs, hSome, Bool.false_eq_true, if_false, length_cons, range'_succ]
    simp only [Store.afterStep] at hLast hSeqs
    refine ⟨by simpa using hLength, by omega, ?_⟩
    rw [← hSeqs]

/-- What a batch keeps while it applies. -/
structure Replaying.Sound (state : Replaying R T D) (store : Store R T D) : Prop where
  range : state.nextId ≤ MAX_SAFE_INTEGER
  cover : ∀ id ∈ state.db.content.ids, (IdAllocator.mk state.nextId).Covers id
  tables : (state.db.tables.map Prod.fst).Nodup
  catalog : ∀ name, state.tables.lookup name = state.db.tables.lookup name
  changed : (state.changed.map Prod.fst).Nodup
  laid : ∀ name, state.tables.lookup name = (state.changed.lookup name).or (store.catalog.lookup name)

theorem Store.Sound.replaying (h : store.Sound) : (Replaying.start store).Sound store where
  range := Nat.le_trans (Nat.le_of_eq h.mirrors.nextId) h.db.range
  cover id hId := by
    have hNext : (Replaying.start store).nextId = store.db.row.nextId := h.mirrors.nextId
    rw [hNext]
    exact h.db.cover id hId
  tables := h.db.tables
  catalog := h.mirrors.catalog
  changed := nodup_nil
  laid _ := rfl

theorem covers_of_checkCreated {id nextId : Nat} (h : checkCreated id nextId = true) :
    (IdAllocator.mk nextId).Covers id := by
  simp only [checkCreated, Bool.or_eq_true, Bool.and_eq_true, decide_eq_true_eq] at h
  exact h.imp_right And.left

theorem Replaying.Sound.keep (h : state.Sound store) {commit : OutboxCommit D} (hRange : commit.nextId ≤ MAX_SAFE_INTEGER)
    (hNext : state.nextId ≤ commit.nextId) {turn : Turn R T} (hTables : (turn.step.tables.map Prod.fst).Nodup)
    (hIds : ∀ id ∈ turn.content.ids, id ∈ state.db.content.ids ∨ checkCreated id commit.nextId = true) (outbox : Bool) :
    (state.keep outbox commit turn).Sound store where
  range := hRange
  cover id hId := by
    rcases hIds id hId with hOld | hCreated
    · exact (h.cover id hOld).mono hNext hRange
    · exact covers_of_checkCreated hCreated
  tables := nodup_writeCatalog h.tables _
  catalog name := by
    simp only [Replaying.keep, recordCommit]
    rw [lookup_writeCatalog hTables, lookup_writeCatalog hTables, h.catalog name]
  changed := nodup_writeCatalog h.changed _
  laid name := by
    simp only [Replaying.keep]
    rw [lookup_writeCatalog hTables, lookup_writeCatalog hTables, h.laid name, Option.or_assoc]

/-- A batch keeps what memory will take sound, and its commits take consecutive seqs. -/
theorem Replays.sound {applyTable : D → TableProg R T Unit} {outbox : Bool} {commits : List (OutboxCommit D)}
    {result : Except Thrown (Replaying R T D)} (h : Replays applyTable outbox state commits ids result after)
    (hSound : state.Sound store) (hIds : ids.Sound) (hRange : ∀ commit ∈ commits, commit.nextId ≤ MAX_SAFE_INTEGER) :
    ids.Grows after ∧ ∀ finish, result = .ok finish → finish.Sound store ∧
      finish.lastSeq = state.lastSeq + commits.length ∧
      commits.map OutboxCommit.seq = range' (state.lastSeq + 1) commits.length := by
  induction h with
  | finished state ids =>
    refine ⟨hIds.refl, fun finish hResult => ?_⟩
    obtain rfl := Except.ok.inj hResult
    exact ⟨hSound, rfl, rfl⟩
  | misplaced hSeq => exact ⟨hIds.refl, fun finish hResult => by cases hResult⟩
  | lowered hSeq hNext => exact ⟨hIds.refl, fun finish hResult => by cases hResult⟩
  | thrown hSeq hNext runs =>
    have hRuns := runs.confined (confined_applyBatchWrites _ _ _ _) hIds nodup_nil
    exact ⟨hRuns.1, fun finish hResult => by cases hResult⟩
  | failed fault hSeq hNext runs calls =>
    have hRuns := runs.confined (confined_applyBatchWrites _ _ _ _) hIds nodup_nil
    exact ⟨hRuns.1.trans (calls.grows hRuns.1.sound (by simp)), fun finish hResult => by cases hResult⟩
  | @applied state commit rest ids middle after turn result hSeq hNext runs calls hRest ih =>
    obtain ⟨hGrows, hTables, hCreated⟩ := runs.confined (confined_applyBatchWrites _ _ _ _) hIds nodup_nil
    have hMiddle := calls.grows hGrows.sound (by simp)
    obtain ⟨hAfter, hFinish⟩ := ih
      (hSound.keep (hRange commit mem_cons_self) hNext hTables hCreated outbox) hMiddle.sound
      (fun other hOther => hRange other (mem_cons_of_mem _ hOther))
    refine ⟨(hGrows.trans hMiddle).trans hAfter, fun finish hResult => ?_⟩
    obtain ⟨hState, hLast, hSeqs⟩ := hFinish finish hResult
    simp only [Replaying.keep, hSeq] at hLast hSeqs
    refine ⟨hState, by rw [hLast, length_cons]; omega, ?_⟩
    rw [map_cons, length_cons, range'_succ, hSeqs, hSeq]

theorem Replaying.Sound.adopt (h : state.Sound store) (hIds : store.ids.Sound) (hCatalog : (store.catalog.map Prod.fst).Nodup) :
    { store.afterReplay state with db := writeMeta state.db state.lastSeq state.nextId }.Sound where
  mirrors := ⟨rfl, rfl, fun name => by
    change (writeCatalog store.catalog state.changed).lookup name = state.db.tables.lookup name
    rw [lookup_writeCatalog h.changed, ← h.laid name, h.catalog name]⟩
  db := ⟨h.range, h.cover, h.tables⟩
  ids := (hIds.raise _).sound
  le := by
    change state.nextId ≤ (store.ids.allocator.raise (state.nextId - 1)).next
    rcases IdAllocator.covers_raise store.ids.allocator (state.nextId - 1) with hLess | hFull
    · omega
    · rw [hFull]
      exact h.range
  catalog := nodup_writeCatalog hCatalog _

end OctoberHarness.ChordStore
