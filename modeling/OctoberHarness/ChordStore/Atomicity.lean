import OctoberHarness.ChordStore.StoreRuns

/-! Store commits are atomic: what holds of every state of a store, between the
turns of its queue, in a transaction, and before the store goes on from one. -/
namespace OctoberHarness.ChordStore

open List

open Storage (MAX_SAFE_INTEGER)

variable {R T D C α β : Type} {applyTable : D → TableProg R T Unit}

variable {ids middle start : Ids} {db : Database R T D} {commits : List (SeriesCommit R T D C)} {store entry : Store R T D}
    {ending : Ending (Done R T D)} {holders : Nat} {s next : System R T D C}

theorem Transacts.sound {mints : Bool} {stored : Database R T D}
    {body : Ids → Except Thrown (α × Database R T D) → Ids → Prop} {after : Ids} {ending : Ending α}
    (h : Transacts mints db body ids ending stored after) (hDb : db.Sound) (hIds : ids.Sound)
    (hLe : db.row.nextId ≤ ids.allocator.next) {leaves : α → Database R T D → Ids → Prop}
    (hBody : ∀ start result middle, Meanwhile mints db.content.ids ids start → ids.Grows start →
      body start result middle → start.Grows middle ∧
        ∀ value stored, result = .ok (value, stored) → leaves value stored middle)
    (hLeaves : ∀ value stored middle, leaves value stored middle →
      stored.Sound ∧ (mints = true → stored.row.nextId ≤ middle.allocator.next)) :
    ids.Grows after ∧ stored.Sound ∧ (mints = true → stored.row.nextId ≤ after.allocator.next) ∧
      (∀ thrown, ending = .refused thrown → stored = db) ∧
      ∀ value, ending = .committed value → ∃ middle, leaves value stored middle ∧ middle.Grows after := by
  have hOld : ∀ {start after : Ids}, ids.Grows start → Meanwhile mints db.content.ids start after → start.Grows after :=
    fun hStart call => call.grows hStart.sound fun _ => hDb.covered hStart.sound (Nat.le_trans hLe hStart.le)
  cases h with
  | beginFailed fault call =>
    have hAfter := hOld hIds.refl call
    refine ⟨hAfter, hDb, fun _ => Nat.le_trans hLe hAfter.le, fun _ _ => rfl, fun value hEnding => ?_⟩
    cases hEnding
  | @committed start middle _ value _ begins hRun call =>
    have hStart := hOld hIds.refl begins
    obtain ⟨hMiddle, hOk⟩ := hBody _ _ _ begins hStart hRun
    have hLeft := hOk value stored rfl
    obtain ⟨hStored, hNext⟩ := hLeaves _ _ _ hLeft
    have hAfter := call.grows hMiddle.sound fun hMints => hStored.covered hMiddle.sound (hNext hMints)
    refine ⟨hStart.trans (hMiddle.trans hAfter), hStored, fun hMints => Nat.le_trans (hNext hMints) hAfter.le,
      fun thrown hEnding => ?_, fun other hEnding => ?_⟩
    · cases hEnding
    · obtain rfl := Ending.committed.inj hEnding
      exact ⟨middle, hLeft, hAfter⟩
  | @commitFailed start middle _ value left fault took begins hRun call =>
    have hStart := hOld hIds.refl begins
    obtain ⟨hMiddle, hOk⟩ := hBody _ _ _ begins hStart hRun
    obtain ⟨hStored, hNext⟩ := hLeaves _ _ _ (hOk value left rfl)
    have hAfter := call.grows hMiddle.sound fun hMints => hStored.covered hMiddle.sound (hNext hMints)
    have hAll := hStart.trans (hMiddle.trans hAfter)
    refine ⟨hAll, ?_, fun hMints => ?_, fun thrown hEnding => ?_, fun other hEnding => ?_⟩
    · cases took
      · exact hDb
      · exact hStored
    · cases took
      · exact Nat.le_trans hLe hAll.le
      · exact Nat.le_trans (hNext hMints) hAfter.le
    · cases hEnding
    · cases hEnding
  | @refused start middle _ thrown begins hRun call =>
    have hStart := hOld hIds.refl begins
    have hMiddle := hStart.trans (hBody _ _ _ begins hStart hRun).1
    have hAfter := hMiddle.trans (hOld hMiddle call)
    refine ⟨hAfter, hDb, fun _ => Nat.le_trans hLe hAfter.le, fun _ _ => rfl, fun value hEnding => ?_⟩
    cases hEnding
  | @rollbackFailed start middle _ thrown fault begins hRun call =>
    have hStart := hOld hIds.refl begins
    have hMiddle := hStart.trans (hBody _ _ _ begins hStart hRun).1
    have hAfter := hMiddle.trans (hOld hMiddle call)
    refine ⟨hAfter, hDb, fun _ => Nat.le_trans hLe hAfter.le, fun _ _ => rfl, fun value hEnding => ?_⟩
    cases hEnding

/-- What memory takes after an operation's `COMMIT`, while other code adds ids. -/
structure Store.Takes (store entry : Store R T D) (op : Op R T D C) (done : Done R T D) : Prop where
  sound : ∀ ids, store.ids.Grows ids → ({ store with ids }.adopt done).Sound
  taken : op.taken entry (.committed done) =
    range' (entry.lastSeq + 1) (op.taken entry (.committed done)).length
  lastSeq : (store.adopt done).lastSeq = entry.lastSeq + (op.taken entry (.committed done)).length

/-- A series stored what its stored commits would have stored one by one. -/
def Store.OneByOne (store entry : Store R T D) (commits : List (SeriesCommit R T D C)) (stored : List Stored)
    (refusal : Option Thrown) : Prop :=
  ∃ issued rest start last, commits = issued ++ rest ∧ (refusal = none ↔ rest = []) ∧
    Meanwhile true entry.db.content.ids entry.ids start ∧
    Issues { entry with ids := start } issued stored last ∧ last.Same store

/-- Where an operation stands after its transaction. -/
structure Returned (store entry : Store R T D) (op : Op R T D C) (ending : Ending (Done R T D)) : Prop where
  begun : entry.Sound
  grows : entry.ids.Grows store.ids
  lastSeq : store.lastSeq = entry.lastSeq
  nextId : store.committedNextId = entry.committedNextId
  catalog : store.catalog = entry.catalog
  le : op.isReplay = false → store.db.row.nextId ≤ store.ids.allocator.next
  refused : ∀ thrown, ending = .refused thrown → store.db = entry.db
  takes : ∀ done, ending = .committed done → store.Takes entry op done
  series : ∀ commits progress refusal, op = .series commits → ending = .committed (.series progress refusal) →
    (store.adopt (.series progress refusal)).OneByOne entry commits progress.stored refusal

variable {ending : Ending (Done R T D)} {store : Store R T D} {op : Op R T D C}

theorem StepBody.leaves (h : store.Sound) {writes : List (StagedWrite R T D)} (hExplicit : store.ids.Cover (explicitIds writes))
    {result : Except Thrown (Written R T D × Database R T D)} (hStart : store.ids.Grows start)
    (hBody : StepBody store writes start result middle) :
    start.Grows middle ∧ ∀ written db, result = .ok (written, db) →
      db = (store.wrote middle written).db ∧ (store.wrote middle written).Sound := by
  have hStore := h.grow hStart
  have hCover := hStart.cover hExplicit
  cases hBody with
  | thrown hWrites =>
    refine ⟨(hWrites.sound hStart.sound hStore.cover hCover).1, fun written db hResult => ?_⟩
    cases hResult
  | failed fault hWrites call =>
    obtain ⟨hGrows, hFacts⟩ := hWrites.sound hStart.sound hStore.cover hCover
    obtain ⟨hNext, hRecords, _⟩ := hFacts _ rfl
    have hMiddle : Ids.Cover _ _ := fun id hId => (hRecords id hId).mono hNext hGrows.sound.range
    refine ⟨hGrows.trans (call.grows hGrows.sound fun _ => hMiddle), fun written db hResult => ?_⟩
    cases hResult
  | done hWrites call =>
    obtain ⟨hGrows, hFacts⟩ := hWrites.sound hStart.sound hStore.cover hCover
    have hWrote := h.wrote rfl rfl hStart.sound hStore.le hCover hWrites
    have hCall := call.grows hGrows.sound fun _ => hWrote.cover
    refine ⟨hGrows.trans hCall, fun other db hResult => ?_⟩
    obtain ⟨rfl, rfl⟩ := Prod.mk.inj (Except.ok.inj hResult)
    exact ⟨rfl, hWrote.grow hCall⟩

theorem SeriesBody.leaves (h : store.Sound) (hExplicit : ∀ commit ∈ commits, store.ids.Cover commit.explicit)
    {result : Except Thrown ((Progress R T D × Option Thrown) × Database R T D)} (hStart : store.ids.Grows start)
    (hBody : SeriesBody store commits start result middle) :
    start.Grows middle ∧ ∀ done db, result = .ok (done, db) →
      db = done.1.close ∧ done.1.Sound store middle ∧
        ∃ issued, (Progress.start store start).Stores done.1 store start commits issued done.2 := by
  have hSound : (Progress.start store start).Sound store start := by
    exact ⟨h.grow hStart, fun changed hChanged => (by cases hChanged), fun _ => rfl⟩
  have hCover : ∀ commit ∈ commits, start.Cover commit.explicit := fun commit hMem =>
    hStart.cover (hExplicit commit hMem)
  cases hBody with
  | thrown series =>
    refine ⟨(series.sound hSound h.catalog hCover).1, fun done db hResult => ?_⟩
    cases hResult
  | failed fault series hLast call =>
    obtain ⟨hGrows, hFacts⟩ := series.sound hSound h.catalog hCover
    have hFinish := (hFacts _ _ rfl).1.stands.cover
    rw [Progress.asStore, Progress.content_close] at hFinish
    refine ⟨hGrows.trans (call.grows hGrows.sound fun _ => hFinish), fun done db hResult => ?_⟩
    cases hResult
  | done series call =>
    obtain ⟨hGrows, hFacts⟩ := series.sound hSound h.catalog hCover
    obtain ⟨hFinish, hStores⟩ := hFacts _ _ rfl
    have hRecords := hFinish.stands.cover
    rw [Progress.asStore, Progress.content_close] at hRecords
    have hCall := call.grows hGrows.sound fun _ => hRecords
    refine ⟨hGrows.trans hCall, fun done db hResult => ?_⟩
    obtain ⟨rfl, rfl⟩ := Prod.mk.inj (Except.ok.inj hResult)
    exact ⟨rfl, ⟨hFinish.stands.grow hCall, hFinish.copies, hFinish.unchanged⟩, hStores⟩

variable {refusal : Option Thrown}

theorem SeriesBody.takes (hStore : store.Sound) {issued : List (SeriesCommit R T D C)} {progress : Progress R T D}
    (hBegins : Meanwhile true store.db.content.ids store.ids start)
    (hFinish : progress.Sound store middle)
    (hStores : (Progress.start store start).Stores progress store start commits issued refusal) (hGrows : middle.Grows ids) :
    ({ store with db := progress.close, ids }).Takes store (.series commits) (.series progress refusal) ∧
      ({ store with db := progress.close, ids }.adopt (.series progress refusal)).OneByOne store commits
        progress.stored refusal := by
  have hAdopt : ∀ later, { store with db := progress.close, ids := later }.adopt (.series progress refusal) =
      { store.afterSeries progress with db := progress.close, ids := later } := by
    intro later
    simp only [Store.adopt, Store.afterSeries]
    split <;> rfl
  have hNodup : ((store.afterSeries progress).catalog.map Prod.fst).Nodup := by
    rw [Store.afterSeries]
    split
    · exact hStore.catalog
    · exact nodup_writeCatalog hStore.catalog _
  have hSame : ∀ later other : Ids, Store.Same { store.afterSeries progress with db := progress.close, ids := later }
      (progress.asStore store other) := by
    intro later other
    have hCopies : Store.Same _ (progress.asStore store other) := hFinish.copies.same hFinish.unchanged
    exact ⟨hCopies.db, hCopies.lastSeq, hCopies.nextId, hCopies.catalog⟩
  obtain ⟨⟨rest, hCommits, hRest⟩, stored, last, hStored, hIssues⟩ := hStores
  have hAll : progress.stored = stored := hStored
  obtain ⟨hLength, hLast, hSeqs⟩ := hIssues.seqs
  have hTaken : takenSeqs commits progress.stored = takenSeqs issued stored := by
    rw [hCommits, hAll, takenSeqs_append hLength]
  refine ⟨⟨fun later hLater => ?_, ?_, ?_⟩, issued, rest, start, progress.asStore store last, hCommits, hRest, hBegins,
    hAll ▸ hIssues, ?_⟩
  · rw [hAdopt later]
    exact (hFinish.stands.grow (hGrows.trans hLater)).congr (hSame later later) rfl hNodup
  · simp only [Op.taken, hTaken]
    exact hSeqs
  · rw [hAdopt ids]
    simp only [Op.taken, hTaken]
    exact (hSame ids last).lastSeq.trans hLast
  · rw [hAdopt ids]
    exact (hSame ids last).symm

theorem ReplayBody.leaves (h : store.Sound) {commits : List (OutboxCommit D)}
    (hRange : ∀ commit ∈ commits, commit.nextId ≤ MAX_SAFE_INTEGER) {result : Except Thrown (Replaying R T D × Database R T D)}
    (hStart : store.ids.Grows start) (hBody : ReplayBody applyTable store commits start result middle) :
    start.Grows middle ∧ ∀ state db, result = .ok (state, db) →
      db = writeMeta state.db state.lastSeq state.nextId ∧ state.Sound store ∧
        state.lastSeq = store.lastSeq + commits.length ∧
        commits.map OutboxCommit.seq = range' (store.lastSeq + 1) commits.length := by
  cases hBody with
  | thrown replays =>
    refine ⟨(replays.sound h.replaying hStart.sound hRange).1, fun state db hResult => ?_⟩
    cases hResult
  | failed fault replays call =>
    have hGrows := (replays.sound h.replaying hStart.sound hRange).1
    refine ⟨hGrows.trans (call.grows hGrows.sound (by simp)), fun state db hResult => ?_⟩
    cases hResult
  | done replays call =>
    obtain ⟨hGrows, hFacts⟩ := replays.sound h.replaying hStart.sound hRange
    refine ⟨hGrows.trans (call.grows hGrows.sound (by simp)), fun state db hResult => ?_⟩
    obtain ⟨rfl, rfl⟩ := Prod.mk.inj (Except.ok.inj hResult)
    exact ⟨rfl, hFacts _ rfl⟩

/-- A transaction of any operation leaves the store as `Returned` says. -/
theorem Op.Transacts.returned (h : op.Transacts applyTable store ending db ids) (hSound : store.Sound)
    (hExplicit : store.ids.Cover op.explicit) (hChecked : op.isChecked = true) :
    store.ids.Grows ids ∧ db.Sound ∧ Returned { store with db, ids } store op ending := by
  cases h with
  | @commit writes ending _ _ transacts =>
    obtain ⟨hGrows, hDb, hLe, hRefused, hCommitted⟩ := transacts.sound hSound.db hSound.ids hSound.le
      (fun start result middle _ hStart hBody => hBody.leaves hSound hExplicit hStart)
      (fun written stored middle hLeaves => ⟨hLeaves.1 ▸ hLeaves.2.db, fun _ => hLeaves.1 ▸ hLeaves.2.le⟩)
    refine ⟨hGrows, hDb, hSound, hGrows, rfl, rfl, rfl, fun _ => hLe rfl, ?_, ?_, fun _ _ _ hOp => by cases hOp⟩
    · intro thrown hEnding
      cases ending with
      | committed _ => cases hEnding
      | unknown _ => cases hEnding
      | refused other => exact hRefused other rfl
    · intro done hEnding
      cases ending with
      | refused _ => cases hEnding
      | unknown _ => cases hEnding
      | committed written =>
        obtain rfl := Ending.committed.inj hEnding
        obtain ⟨middle, ⟨hStored, hWrote⟩, hMiddle⟩ := hCommitted written rfl
        refine ⟨fun later hLater => ?_, rfl, rfl⟩
        subst hStored
        exact hWrote.grow (hMiddle.trans hLater)
  | @series commits ending _ _ transacts =>
    have hCover : ∀ commit ∈ commits, store.ids.Cover commit.explicit := fun commit hMem id hId =>
      hExplicit id (List.mem_flatMap.mpr ⟨commit, hMem, hId⟩)
    obtain ⟨hGrows, hDb, hLe, hRefused, hCommitted⟩ := transacts.sound hSound.db hSound.ids hSound.le
      (fun start result middle hBegins hStart hBody =>
        (hBody.leaves hSound hCover hStart).imp_right fun hDone value stored hResult =>
          And.intro hBegins (hDone value stored hResult) |> Exists.intro start)
      (fun done stored middle hLeaves => by
        obtain ⟨start, hBegins, rfl, hFinish, _⟩ := hLeaves
        exact ⟨hFinish.stands.db, fun _ => hFinish.stands.le⟩)
    have hSeries : ∀ progress refusal, ending = .committed (progress, refusal) →
        ({ store with db, ids }).Takes store (.series commits) (.series progress refusal) ∧
          ({ store with db, ids }.adopt (.series progress refusal)).OneByOne store commits progress.stored refusal := by
      intro progress refusal hEnding
      obtain ⟨middle, ⟨start, hBegins, hStored, hFinish, issued, hStores⟩, hMiddle⟩ := hCommitted _ hEnding
      subst hStored
      exact SeriesBody.takes hSound hBegins hFinish hStores hMiddle
    refine ⟨hGrows, hDb, hSound, hGrows, rfl, rfl, rfl, fun _ => hLe rfl, ?_, ?_, ?_⟩
    · intro thrown hEnding
      cases ending with
      | committed _ => cases hEnding
      | unknown _ => cases hEnding
      | refused other => exact hRefused other rfl
    · intro done hEnding
      cases ending with
      | refused _ => cases hEnding
      | unknown _ => cases hEnding
      | committed value =>
        obtain rfl := Ending.committed.inj hEnding
        exact (hSeries value.1 value.2 rfl).1
    · intro others progress refusal hOp hEnding
      obtain rfl := Op.series.inj hOp
      cases ending with
      | refused _ => cases hEnding
      | unknown _ => cases hEnding
      | committed value =>
        obtain ⟨rfl, rfl⟩ := Done.series.inj (Ending.committed.inj hEnding)
        exact (hSeries value.1 value.2 rfl).2
  | @replay commits ending _ _ transacts =>
    have hRange : ∀ commit ∈ commits, commit.nextId ≤ MAX_SAFE_INTEGER := by
      simpa [Op.isChecked] using hChecked
    obtain ⟨hGrows, hDb, _, hRefused, hCommitted⟩ := transacts.sound hSound.db hSound.ids hSound.le
      (fun start result middle _ hStart hBody => hBody.leaves hSound hRange hStart)
      (fun state stored middle hLeaves => ⟨hLeaves.1 ▸ ⟨hLeaves.2.1.range, hLeaves.2.1.cover, hLeaves.2.1.tables⟩,
        fun hMints => by cases hMints⟩)
    refine ⟨hGrows, hDb, hSound, hGrows, rfl, rfl, rfl, fun hReplay => (by cases hReplay), ?_, ?_, fun _ _ _ hOp => by cases hOp⟩
    · intro thrown hEnding
      cases ending with
      | committed _ => cases hEnding
      | unknown _ => cases hEnding
      | refused other => exact hRefused other rfl
    · intro done hEnding
      cases ending with
      | refused _ => cases hEnding
      | unknown _ => cases hEnding
      | committed state =>
        obtain rfl := Ending.committed.inj hEnding
        obtain ⟨middle, ⟨hStored, hState, hLast, hSeqs⟩, hMiddle⟩ := hCommitted state rfl
        subst hStored
        refine ⟨fun later hLater => ?_, ?_, ?_⟩
        · have hLaid : state.Sound { store with db := writeMeta state.db state.lastSeq state.nextId, ids := later } :=
            ⟨hState.range, hState.cover, hState.tables, hState.catalog, hState.changed, hState.laid⟩
          exact hLaid.adopt hLater.sound hSound.catalog
        · simpa only [Op.taken, length_map] using hSeqs
        · simp only [Op.taken, length_map]
          exact hLast

/-- What holds of a store where its queue stands. -/
def Phase.Holds (store : Store R T D) (holders : Nat) : Phase R T D C → Prop
  | .idle => store.state = .opened → store.Sound
  | .running op => store.Sound ∧ store.ids.Cover op.explicit ∧ op.isChecked = true ∧
      (op.isReplay = true → holders = 0)
  | .returned op entry ending => Returned store entry op ending ∧ (op.isReplay = true → holders = 0)

/-- What holds in every state of a store. -/
structure System.Sound (s : System R T D C) : Prop where
  db : s.store.db.Sound
  ids : s.store.ids.Sound
  queued : ∀ op ∈ s.queue, s.store.ids.Cover op.explicit ∧ op.isChecked = true
  phase : s.phase.Holds s.store s.holders
  seqs : s.seqs = range' (s.since + 1) s.seqs.length
  lastSeq : s.store.lastSeq = s.since + s.seqs.length

theorem Store.fail_eq (store : Store R T D) : store.fail = { store with state := store.fail.state } := by
  rw [fail]
  split_ifs <;> rfl

theorem Store.state_fail (store : Store R T D) : store.fail.state ≠ .opened := by
  rw [fail]
  split_ifs with h
  · simp
  · exact h

theorem Store.same_adopt (store : Store R T D) (ids : Ids) (state : StoreState) (done : Done R T D) :
    Store.Same (store.adopt done) ({ store with ids, state }.adopt done) := by
  cases done with
  | step written => exact ⟨rfl, rfl, rfl, fun _ => rfl⟩
  | series progress refusal =>
    simp only [adopt, afterSeries]
    split <;> exact ⟨rfl, rfl, rfl, fun _ => rfl⟩
  | replay state => exact ⟨rfl, rfl, rfl, fun _ => rfl⟩

theorem Store.adopt_state (store : Store R T D) (state : StoreState) (done : Done R T D) :
    { store with state }.adopt done = { store.adopt done with state } := by
  cases done with
  | step written => rfl
  | series progress refusal =>
    simp only [adopt, afterSeries]
    split <;> rfl
  | replay state => rfl

theorem Store.Sound.state (h : store.Sound) (state : StoreState) : { store with state }.Sound :=
  ⟨⟨h.mirrors.lastSeq, h.mirrors.nextId, h.mirrors.catalog⟩, h.db, h.ids, h.le, h.catalog⟩

theorem Returned.move {op : Op R T D C}
    (h : Returned store entry op ending) (hGrows : store.ids.Grows ids) (state : StoreState) :
    Returned { store with ids, state } entry op ending where
  begun := h.begun
  grows := h.grows.trans hGrows
  lastSeq := h.lastSeq
  nextId := h.nextId
  catalog := h.catalog
  le hReplay := Nat.le_trans (h.le hReplay) hGrows.le
  refused := h.refused
  takes done hDone := by
    have hTakes := h.takes done hDone
    refine ⟨fun later hLater => ?_, hTakes.taken, (store.same_adopt ids state done).lastSeq ▸ hTakes.lastSeq⟩
    have hSound := (hTakes.sound later (hGrows.trans hLater)).state state
    rwa [← Store.adopt_state] at hSound
  series commits progress refusal hOp hEnding := by
    obtain ⟨issued, rest, start, last, hCommits, hRest, hBegins, hIssues, hSame⟩ :=
      h.series commits progress refusal hOp hEnding
    exact ⟨issued, rest, start, last, hCommits, hRest, hBegins, hIssues, hSame.trans (store.same_adopt ids state _)⟩

variable {state : StoreState}

theorem Phase.Holds.move {phase : Phase R T D C} (h : phase.Holds store holders) (hGrows : store.ids.Grows ids)
    (hState : state = .opened → store.state = .opened) :
    phase.Holds { store with ids, state } holders := by
  cases phase with
  | idle => exact fun hOpen => ((h (hState hOpen)).grow hGrows).state state
  | running op => exact ⟨(h.1.grow hGrows).state state, hGrows.cover h.2.1, h.2.2⟩
  | returned op entry ending => exact ⟨h.1.move hGrows state, h.2⟩

theorem System.Sound.move (h : s.Sound) (hGrows : s.store.ids.Grows ids) (hState : state = .opened → s.store.state = .opened)
    (reads : Nat) :
    { s with store := { s.store with ids, state }, reads }.Sound where
  db := h.db
  ids := hGrows.sound
  queued op hOp := ⟨hGrows.cover (h.queued op hOp).1, (h.queued op hOp).2⟩
  phase := h.phase.move hGrows hState
  seqs := h.seqs
  lastSeq := h.lastSeq

theorem raiseAll_grows (h : ids.Sound) (explicit : List Nat) :
    ids.Grows (raiseAll ids explicit) ∧ (raiseAll ids explicit).Cover explicit := by
  induction explicit generalizing ids with
  | nil => exact ⟨h.refl, fun _ hId => absurd hId not_mem_nil⟩
  | cons id rest ih =>
    have hRaise := h.raise id
    obtain ⟨hGrows, hCover⟩ := ih hRaise.sound
    refine ⟨hRaise.trans hGrows, fun other hOther => ?_⟩
    rcases List.mem_cons.mp hOther with rfl | hRest
    · exact hGrows.covers (IdAllocator.covers_raise _ _)
    · exact hCover other hRest

theorem Store.enter_settled {after : Store R T D} {admits accepts : Bool}
    {outcome : Outcome} (h : store.enter holders admits accepts op = .settled after outcome) :
    after = store ∨ after = store.fail := by
  cases op <;> simp only [enter] at h <;> split_ifs at h <;> cases h <;> simp

theorem Store.enter_transaction {admits accepts : Bool} (h : store.enter holders admits accepts op = .transaction) :
    store.state = .opened ∧ (op.isReplay = true → holders = 0) := by
  cases op with
  | commit writes =>
    simp only [enter] at h
    split_ifs at h with hShut
    simp only [ne_eq, Bool.or_eq_true, decide_eq_true_eq, not_or, not_not] at hShut
    exact ⟨hShut.1, fun hReplay => by cases hReplay⟩
  | series commits =>
    simp only [enter] at h
    split_ifs at h with hShut
    exact ⟨not_not.mp hShut, fun hReplay => by cases hReplay⟩
  | replay commits =>
    simp only [enter] at h
    split_ifs at h with hShut
    simp only [ne_eq, Bool.or_eq_true, decide_eq_true_eq, not_or, not_not] at hShut
    exact ⟨hShut.1.1, fun _ => Nat.eq_zero_of_not_pos hShut.2⟩

theorem Store.adopt_db (store : Store R T D) (done : Done R T D) : (store.adopt done).db = store.db := by
  cases done with
  | step written => rfl
  | series progress refusal =>
    simp only [adopt, afterSeries]
    split <;> rfl
  | replay state => rfl

theorem Store.adopt_grows (h : store.ids.Sound) (done : Done R T D) :
    store.ids.Grows (store.adopt done).ids := by
  cases done with
  | step written => exact h.refl
  | series progress refusal =>
    simp only [adopt, afterSeries]
    split <;> exact h.refl
  | replay state => exact h.raise _

theorem Returned.same {thrown : Thrown}
    (h : Returned store entry op ending) (hEnding : ending = .refused thrown) : entry.Same store :=
  ⟨(h.refused thrown hEnding).symm, h.lastSeq.symm, h.nextId.symm, fun name => by rw [h.catalog]⟩

/-- The store goes on from a transaction. -/
theorem Returned.resume {op : Op R T D C} (h : Returned store entry op ending) (accepts : Bool) :
    (store.resume op.isReplay accepts ending).1.db = store.db ∧
      store.ids.Grows (store.resume op.isReplay accepts ending).1.ids ∧
      (store.resume op.isReplay accepts ending).1.lastSeq = store.lastSeq + (op.taken entry ending).length ∧
      op.taken entry ending = range' (store.lastSeq + 1) (op.taken entry ending).length ∧
      ((store.resume op.isReplay accepts ending).1.state = .opened →
        (store.resume op.isReplay accepts ending).1.Sound) := by
  have hIds := h.grows.sound
  cases ending with
  | unknown fault =>
    have hTaken : op.taken entry (.unknown fault) = [] := by cases op <;> rfl
    have hFail := store.state_fail
    simp only [Store.resume, hTaken]
    rw [store.fail_eq]
    exact ⟨rfl, hIds.refl, rfl, rfl, fun hOpen => absurd hOpen hFail⟩
  | refused thrown =>
    have hTaken : op.taken entry (.refused thrown) = [] := by cases op <;> rfl
    obtain ⟨hDb, hLast, hNext, hCatalog⟩ := (h.same rfl).symm
    have hSound : { entry with ids := store.ids }.Sound := h.begun.grow h.grows
    rw [hTaken]
    refine ⟨rfl, hIds.refl, rfl, rfl, fun _ => ?_⟩
    exact hSound.congr ⟨hDb, hLast, hNext, hCatalog⟩ rfl (h.catalog ▸ h.begun.catalog)
  | committed done =>
    have hTakes := h.takes done rfl
    have hGrows := Store.adopt_grows hIds done
    have hSound := hTakes.sound store.ids hIds.refl
    have hDb := store.adopt_db done
    cases accepts with
    | true => exact ⟨hDb, hGrows, h.lastSeq ▸ hTakes.lastSeq, h.lastSeq ▸ hTakes.taken, fun _ => hSound⟩
    | false =>
      have hFail := (store.adopt done).state_fail
      simp only [Store.resume, Bool.false_eq_true, if_false]
      rw [(store.adopt done).fail_eq]
      exact ⟨hDb, hGrows, h.lastSeq ▸ hTakes.lastSeq, h.lastSeq ▸ hTakes.taken, fun hOpen => absurd hOpen hFail⟩

theorem System.Sound.opened (h : db.Sound) : (System.opened db : System R T D C).Sound where
  db := h
  ids := ⟨h.range, fun _ hMint => absurd hMint not_mem_nil, nodup_nil, fun _ hMint => absurd hMint not_mem_nil⟩
  queued _ hOp := absurd hOp not_mem_nil
  phase _ := ⟨⟨rfl, rfl, fun _ => rfl⟩, h, ⟨h.range, fun _ hMint => absurd hMint not_mem_nil, nodup_nil,
    fun _ hMint => absurd hMint not_mem_nil⟩, Nat.le_refl _, h.tables⟩
  seqs := rfl
  lastSeq := rfl

theorem System.Sound.step {event : Event} (h : s.Sound) (acts : Acts applyTable s event next) : next.Sound := by
  cases acts with
  | @call op hAccepts =>
    obtain ⟨hGrows, hCover⟩ := raiseAll_grows h.ids op.explicit
    have hMoved := h.move hGrows (fun hOpen => hOpen) s.reads
    refine ⟨hMoved.db, hMoved.ids, fun other hOther => ?_, hMoved.phase, hMoved.seqs, hMoved.lastSeq⟩
    rcases List.mem_append.mp hOther with hOld | hNew
    · exact hMoved.queued other hOld
    · rw [List.mem_singleton.mp hNew]
      simp only [accepts, Bool.and_eq_true] at hAccepts
      exact ⟨hCover, hAccepts.1.2⟩
  | callRefused hRefuses => exact h
  | @start op rest admits accepts hIdle hQueue hEnter =>
    obtain ⟨hOpen, hReplay⟩ := Store.enter_transaction hEnter
    have hPhase := h.phase
    rw [hIdle] at hPhase
    have hFirst := h.queued op (hQueue ▸ mem_cons_self)
    refine ⟨h.db, h.ids, fun other hOther => ?_, ⟨hPhase hOpen, hFirst.1, hFirst.2, hReplay⟩, h.seqs, h.lastSeq⟩
    exact h.queued other (hQueue ▸ mem_cons_of_mem _ hOther)
  | @startSettled op rest admits accepts store outcome hIdle hQueue hEnter =>
    have hRest : ∀ other ∈ rest, s.store.ids.Cover other.explicit ∧ other.isChecked = true := fun other hOther =>
      h.queued other (hQueue ▸ mem_cons_of_mem _ hOther)
    rcases Store.enter_settled hEnter with rfl | rfl
    · exact ⟨h.db, h.ids, hRest, h.phase, h.seqs, h.lastSeq⟩
    · rw [s.store.fail_eq]
      have hMoved := h.move h.ids.refl (fun hOpen => absurd hOpen s.store.state_fail) s.reads
      exact ⟨hMoved.db, hMoved.ids, hRest, hMoved.phase, hMoved.seqs, hMoved.lastSeq⟩
  | @run op ending db ids hPhase transacts =>
    have hRunning := h.phase
    rw [hPhase] at hRunning
    obtain ⟨hSound, hCover, hChecked, hReplay⟩ := hRunning
    obtain ⟨hGrows, hDb, hReturned⟩ := transacts.returned hSound hCover hChecked
    exact ⟨hDb, hGrows.sound, fun other hOther => ⟨hGrows.cover (h.queued other hOther).1, (h.queued other hOther).2⟩,
      ⟨hReturned, hReplay⟩, h.seqs, h.lastSeq⟩
  | @resume op entry ending accepts hPhase hReplay =>
    have hReturned := h.phase
    rw [hPhase] at hReturned
    obtain ⟨hDb, hGrows, hLast, hTaken, hSound⟩ := hReturned.1.resume accepts
    refine ⟨hDb ▸ h.db, hGrows.sound, fun other hOther => ?_, hSound, ?_, ?_⟩
    · exact ⟨hGrows.cover (h.queued other hOther).1, (h.queued other hOther).2⟩
    · have hSeqs := h.seqs
      have hNext : s.since + 1 + s.seqs.length = s.store.lastSeq + 1 := by
        rw [h.lastSeq]
        omega
      rw [length_append, ← range'_append_1, hNext, ← hTaken, ← hSeqs]
    · rw [hLast, h.lastSeq, length_append, Nat.add_assoc]
  | readStart hOpen => exact h.move h.ids.refl (fun hOpen => hOpen) _
  | readDone hRead => exact h.move h.ids.refl (fun hOpen => hOpen) _
  | readFailed hRead =>
    rw [s.store.fail_eq]
    exact h.move h.ids.refl (fun hOpen => absurd hOpen s.store.state_fail) _
  | @mint id allocator hOpen hHolder hMint =>
    refine h.move (h.ids.take ?_ hMint).1 (fun hOpen => hOpen) s.reads
    have hPhase := h.phase
    cases hAt : s.phase with
    | idle =>
      rw [hAt] at hPhase
      exact (hPhase hOpen).cover
    | running op =>
      rw [hAt] at hPhase
      exact hPhase.1.cover
    | returned op entry ending =>
      rw [hAt] at hPhase
      obtain ⟨hReturned, hReplay⟩ := hPhase
      have hOther : op.isReplay = false := by
        rw [← Bool.not_eq_true]
        exact fun hBatch => Nat.ne_of_gt hHolder (hReplay hBatch)
      exact h.db.covered h.ids (hReturned.le hOther)
  | raise id => exact h.move (h.ids.raise id) (fun hOpen => hOpen) s.reads
  | claim hLock =>
    refine ⟨h.db, h.ids, h.queued, ?_, h.seqs, h.lastSeq⟩
    have hPhase := h.phase
    cases hAt : s.phase with
    | idle =>
      rw [hAt] at hPhase
      exact hPhase
    | running op =>
      rw [hAt] at hPhase hLock
      exact ⟨hPhase.1, hPhase.2.1, hPhase.2.2.1, fun hReplay => absurd (hLock.symm.trans hReplay) Bool.false_ne_true⟩
    | returned op entry ending =>
      rw [hAt] at hPhase hLock
      exact ⟨hPhase.1, fun hReplay => absurd (hLock.symm.trans hReplay) Bool.false_ne_true⟩
  | release =>
    refine ⟨h.db, h.ids, h.queued, ?_, h.seqs, h.lastSeq⟩
    have hPhase := h.phase
    cases hAt : s.phase with
    | idle =>
      rw [hAt] at hPhase
      exact hPhase
    | running op =>
      rw [hAt] at hPhase
      exact ⟨hPhase.1, hPhase.2.1, hPhase.2.2.1, fun hReplay => by rw [hPhase.2.2.2 hReplay]⟩
    | returned op entry ending =>
      rw [hAt] at hPhase
      exact ⟨hPhase.1, fun hReplay => by rw [hPhase.2 hReplay]⟩
  | close => exact h.move h.ids.refl (fun hOpen => by cases hOpen) s.reads
  | reopen => exact .opened h.db

theorem sound_of_reachable (h : Reachable applyTable s) : s.Sound := by
  induction h with
  | new rows outbox =>
    apply System.Sound.opened
    have hFirst : 2 ≤ MAX_SAFE_INTEGER := by decide
    exact ⟨hFirst, fun id hId => absurd hId not_mem_nil, nodup_nil⟩
  | step earlier acts ih => exact ih.step acts

theorem System.Sound.mirrors (h : s.Sound) (hPhase : s.phase.isReturned = false)
    (hOpen : s.store.state = .opened) : s.store.Mirrors := by
  have hHolds := h.phase
  cases hAt : s.phase with
  | idle =>
    rw [hAt] at hHolds
    exact (hHolds hOpen).mirrors
  | running op =>
    rw [hAt] at hHolds
    exact hHolds.1.mirrors
  | returned op entry ending =>
    rw [hAt] at hPhase
    cases hPhase

theorem System.Sound.rejected (h : s.Sound) (hAt : s.phase = .returned op entry ending)
    (acts : Acts applyTable s (.settled .rejected) next) (hIdle : next.phase = .idle) (hOpen : next.store.state = .opened)
    : entry.Same next.store := by
  have hReturned := h.phase
  rw [hAt] at hReturned
  generalize hEvent : Event.settled .rejected = event at acts
  cases acts with
  | callRefused hRefuses =>
    rw [hAt] at hIdle
    cases hIdle
  | startSettled hStart hQueue hEnter =>
    rw [hAt] at hStart
    cases hStart
  | @resume other start result accepts hPhase hReplay =>
    rw [hAt] at hPhase
    obtain ⟨rfl, rfl, rfl⟩ := Phase.returned.inj hPhase
    cases ending with
    | unknown fault => exact absurd hOpen s.store.state_fail
    | refused thrown =>
      obtain ⟨hDb, hLast, hNext, hCatalog⟩ := hReturned.1.same rfl
      exact ⟨hDb, hLast, hNext, hCatalog⟩
    | committed done =>
      cases accepts with
      | false => exact absurd hOpen (s.store.adopt done).state_fail
      | true => cases done <;> cases hEvent
  | _ => cases hEvent

theorem System.rejected_at_start (hIdle : s.phase = .idle)
    (acts : Acts applyTable s (.settled .rejected) next) : s.store.Same next.store := by
  generalize hEvent : Event.settled .rejected = event at acts
  cases acts with
  | callRefused hRefuses => exact .refl _
  | startSettled hStart hQueue hEnter =>
    rcases Store.enter_settled hEnter with rfl | rfl
    · exact .refl _
    · rw [s.store.fail_eq]
      exact ⟨rfl, rfl, rfl, fun _ => rfl⟩
  | resume hPhase hReplay =>
    rw [hIdle] at hPhase
    cases hPhase
  | _ => cases hEvent

theorem System.Sound.series (h : s.Sound) (hAt : s.phase = .returned (.series commits) entry ending) {stored : List Stored}
    (acts : Acts applyTable s (.settled (.stored stored refusal)) next) :
    next.store.OneByOne entry commits stored refusal := by
  have hReturned := h.phase
  rw [hAt] at hReturned
  generalize hEvent : Event.settled (.stored stored refusal) = event at acts
  cases acts with
  | callRefused hRefuses => cases hEvent
  | startSettled hStart hQueue hEnter =>
    rw [hAt] at hStart
    cases hStart
  | @resume other start result accepts hPhase hReplay =>
    rw [hAt] at hPhase
    obtain ⟨rfl, rfl, rfl⟩ := Phase.returned.inj hPhase
    cases ending with
    | unknown fault => cases hEvent
    | refused thrown => cases hEvent
    | committed done =>
      cases accepts with
      | false => cases hEvent
      | true =>
        cases done with
        | step written => cases hEvent
        | replay state => cases hEvent
        | series progress other =>
          obtain ⟨rfl, rfl⟩ := Outcome.stored.inj (Event.settled.inj hEvent)
          exact hReturned.1.series commits progress refusal rfl rfl
  | _ => cases hEvent

/-- In every state of a store: when an operation settles while the store is open,
memory equals what reopening the database would read, unless a transaction ended
from which the store has not gone on yet, when memory is as it was before that
transaction; a rejected operation left the database and these values as they
were; a series stored what its commits before the refused one would store one by
one; the seqs of commits that wrote are consecutive; and no id was minted twice,
or while a record had it. -/
theorem store_commits_atomic {s : System R T D C} (h : Reachable applyTable s) :
    (∀ event next, Acts applyTable s event next → event.isSettlement = true → next.phase.isReturned = false →
      next.store.state = .opened → next.store.Mirrors) ∧
    (∀ op entry ending, s.phase = .returned op entry ending →
      entry.Mirrors ∧ s.store.lastSeq = entry.lastSeq ∧ s.store.committedNextId = entry.committedNextId ∧
        s.store.catalog = entry.catalog) ∧
    (∀ op entry ending next, s.phase = .returned op entry ending → Acts applyTable s (.settled .rejected) next →
      next.phase = .idle → next.store.state = .opened → entry.Same next.store) ∧
    (∀ next, s.phase = .idle → Acts applyTable s (.settled .rejected) next → s.store.Same next.store) ∧
    (∀ commits entry ending stored refusal next, s.phase = .returned (.series commits) entry ending →
      Acts applyTable s (.settled (.stored stored refusal)) next →
        next.store.OneByOne entry commits stored refusal) ∧
    (s.seqs = range' (s.since + 1) s.seqs.length ∧ s.store.lastSeq = s.since + s.seqs.length) ∧
    (s.store.ids.minted.map Mint.id).Nodup ∧ ∀ mint ∈ s.store.ids.minted, mint.id ∉ mint.existing := by
  have hSound := sound_of_reachable h
  refine ⟨?_, ?_, ?_, ?_, ?_, ⟨hSound.seqs, hSound.lastSeq⟩, hSound.ids.distinct, hSound.ids.fresh⟩
  · intro event next acts _ hPhase hOpen
    exact (hSound.step acts).mirrors hPhase hOpen
  · intro op entry ending hAt
    have hReturned := hSound.phase
    rw [hAt] at hReturned
    exact ⟨hReturned.1.begun.mirrors, hReturned.1.lastSeq, hReturned.1.nextId, hReturned.1.catalog⟩
  · intro op entry ending next hAt acts hIdle hOpen
    exact hSound.rejected hAt acts hIdle hOpen
  · intro next hIdle acts
    exact System.rejected_at_start hIdle acts
  · intro commits entry ending stored refusal next hAt acts
    exact hSound.series hAt acts

/-- A write that records nothing. -/
def idleWrite : StagedWrite Unit Unit Unit :=
  stageTable .write fun _ => { program := .done [], confined := trivial }

/-- An applier that does nothing. -/
def idleApplier : Unit → TableProg Unit Unit Unit :=
  fun _ => { program := .done (), confined := trivial }

def idleDatabase : Database Unit Unit Unit :=
  newDatabase () false

/-- What the step of an idle commit of a new store wrote. -/
def idleWritten : Written Unit Unit Unit where
  db := recordCommit idleDatabase false
    { content := idleDatabase.content, ids := (openStore idleDatabase).ids, step := .start 1 [] }
    { seq := 1, nextId := 2, writes := [] }
  step := .start 1 []
  nextId := 2

/-- A new store after the `COMMIT` of an idle commit, with a read underway. -/
def committedIdle : System Unit Unit Unit Unit where
  store := { openStore idleDatabase with db := writeMeta idleWritten.db 1 2 }
  queue := []
  phase := .returned (.commit [idleWrite]) (openStore idleDatabase) (.committed (.step idleWritten))
  holders := 0
  reads := 1
  since := 0
  seqs := []

theorem committedIdle_reachable : Reachable idleApplier committedIdle := by
  have hNew : Reachable idleApplier (System.opened idleDatabase : System Unit Unit Unit Unit) := .new () false
  have hRead := hNew.step (.readStart rfl)
  have hCall := hRead.step (@Acts.call _ _ _ _ _ _ (.commit [idleWrite]) rfl)
  have hStart := hCall.step (@Acts.start _ _ _ _ _ _ _ _ true true rfl rfl rfl)
  have hWrites : Writes false [] idleDatabase 1 [idleWrite] (openStore idleDatabase).ids (.ok idleWritten)
      (openStore idleDatabase).ids := .written (.done []) (.nothing _) (.nothing _)
  have hBody : StepBody (openStore idleDatabase) [idleWrite] (openStore idleDatabase).ids
      (.ok (idleWritten, writeMeta idleWritten.db 1 2)) (openStore idleDatabase).ids := .done hWrites (.nothing _)
  exact hStart.step (.run rfl (.commit (.committed (.nothing _) hBody (.nothing _))))

/-- The store goes on from the idle commit: memory has the database's values. -/
theorem store_commits_atomic_idle :
    (committedIdle.store.resume false true (.committed (.step idleWritten))).1.Mirrors :=
  (store_commits_atomic committedIdle_reachable).1 _ _
    (@Acts.resume _ _ _ _ _ committedIdle (.commit [idleWrite]) _ (.committed (.step idleWritten)) true rfl
      fun _ => rfl) rfl rfl rfl

/-- A read settles while the store has not gone on from a `COMMIT` yet: memory is
behind the database. -/
theorem read_settles_before_memory :
    ¬ ∀ (s next : System Unit Unit Unit Unit) (event : Event), Reachable idleApplier s →
      Acts idleApplier s event next → event.isSettlement = true → next.store.state = .opened →
        next.store.Mirrors := by
  intro hAll
  have hMirrors := hAll _ _ _ committedIdle_reachable (.readDone (by decide)) rfl rfl
  exact absurd hMirrors.lastSeq (by decide)

end OctoberHarness.ChordStore
