import OctoberHarness.Storage.Acceptance

/-! Runs of commits: both storages accept the same batches, and hold the same
records after them. -/
namespace OctoberHarness.Storage

open View

/-- Both storages after the same commits. -/
structure Agree (m : Memory) (d : Sqlite) : Prop where
  mirror : Mirror m d
  current : Current m d
  stored : Stored d

theorem Agree.empty : Agree {} {} := by
  have hKeyed : ∀ {α : Type}, Table.Keyed ([] : List (Nat × α)) := List.Pairwise.nil
  have hNamed : ∀ {α : Type} (idOf : α → Nat), Named idOf [] := fun idOf => ⟨hKeyed, fun _ _ h => by simp at h⟩
  refine ⟨?_, fun _ => rfl, ?_, ?_⟩
  · constructor <;> first | rfl | exact fun _ => rfl
  · exact {
      conversations := hNamed _
      entries := hNamed _
      tasks := hNamed _
      submissions := hNamed _
      documents := hNamed _
      exclusive := fun _ _ _ _ h => by simp at h
      timeline := fun _ _ h => by simp at h
      revisions := fun _ => ⟨List.Pairwise.nil, fun _ h => by simp at h⟩
      owned := fun _ _ => rfl }
  · constructor <;> first | exact hKeyed | exact fun _ h => absurd rfl h

theorem tableWrites_documents (seq : Nat) (d : Sqlite) (writes : List Write) :
    (writes.foldl (fun d write => d.applyTableWrite seq write) d).documents = d.documents ∧
      (writes.foldl (fun d write => d.applyTableWrite seq write) d).nextSeq = d.nextSeq := by
  induction writes generalizing d with
  | nil => exact ⟨rfl, rfl⟩
  | cons write rest ih =>
    obtain ⟨hDocuments, hSeq⟩ := ih (d.applyTableWrite seq write)
    rw [List.foldl_cons, hDocuments, hSeq]
    cases write <;> simp [Sqlite.applyTableWrite, Sqlite.claimId_eq]

theorem writes_addresses (seq : Nat) (m : Memory) (writes : List Write) :
    (writes.foldl (fun m write => m.applyWrite seq write) m).documentAddresses = m.documentAddresses := by
  induction writes generalizing m with
  | nil => rfl
  | cons write rest ih =>
    rw [List.foldl_cons, ih]
    cases write with
    | conversation value =>
      rw [Memory.applyWrite]
      cases value.owner <;> rfl
    | _ => rfl

theorem foldl_resolve (content : DocumentCopySource → Nat × JsonValue) (seq : Nat) (m : Memory) (writes : List Write) :
    (writes.map (resolveWrite content)).foldl (fun m write => m.applyWrite seq write) m =
      writes.foldl (fun m write => m.applyWrite seq write) m := by
  rw [List.foldl_map]
  refine congrArg (fun step => writes.foldl step m) (funext fun m => funext fun write => ?_)
  cases write <;> rfl

variable {d : Sqlite}

theorem mem_resolvedActions {actions : Sqlite.DocumentActions} {entry : Nat × Memory.DocumentAction}
    (hMem : entry ∈ resolvedActions d actions) : ∃ before ∈ actions,
      entry = (before.1, resolveAction (copied d) before.2) := by
  obtain ⟨before, hBefore, rfl⟩ := List.mem_map.mp hMem
  exact ⟨before, hBefore, rfl⟩

variable {m : Memory} {writes : List Write}

theorem Agree.fits (h : Agree m d) {actions : Sqlite.DocumentActions}
    (hPasses : Passes m d writes actions) : ((resolvedActions d actions).map Prod.fst).Nodup ∧
      ∀ entry ∈ resolvedActions d actions,
        Fits (writes.foldl (fun d' write => d'.applyTableWrite d.nextSeq write) d) entry.1 entry.2 := by
  have hCollected := Collected.of_prepare hPasses.collected
  have hStart : ClaimedSoFar d.recordIds [] d.recordIds := fun _ => rfl
  obtain ⟨-, hFree⟩ := h.mirror.allowedRun h.stored hStart d.nextSeq hPasses.ids
  refine ⟨?_, fun entry hMem => ?_⟩
  · rw [resolvedActions, List.map_map]
    exact hCollected.distinct
  · obtain ⟨before, hBefore, rfl⟩ := mem_resolvedActions hMem
    have hFound := Memory.of_checkAction h.mirror (hPasses.each before hBefore)
    rw [Fits]
    cases hCreate : (resolveAction (copied d) before.2).create with
    | some create =>
      obtain ⟨hId, hCreated⟩ := hCollected.created before.1 before.2 create (hCollected.lookup hBefore) hCreate
      exact ⟨hId, hFree before.1 (Or.inr hCreated)⟩
    | none =>
      rw [hCreate, ← (tableWrites_documents d.nextSeq d writes).1] at hFound
      exact hFound

theorem Agree.applied (h : Agree m d) {actions : Sqlite.DocumentActions} (hPasses : Passes m d writes actions) :
    Agree (m.applyPreparedCommit (writes.map (resolveWrite (copied d))) (resolvedActions d actions) d.nextSeq)
      (d.applyBatch writes (resolvedActions d actions)) := by
  have hStart : ClaimedSoFar d.recordIds [] d.recordIds := fun _ => rfl
  obtain ⟨hAllowed, -⟩ := h.mirror.allowedRun h.stored hStart d.nextSeq hPasses.ids
  obtain ⟨hMirror, hStored⟩ := h.mirror.writes h.stored d.nextSeq hAllowed
  obtain ⟨hDocuments, hSeq⟩ := tableWrites_documents d.nextSeq d writes
  obtain ⟨hDistinct, hFits⟩ := h.fits hPasses
  rw [Memory.applyPreparedCommit, Sqlite.applyBatch, foldl_resolve]
  generalize hTables : writes.foldl (fun d' write => d'.applyTableWrite d.nextSeq write) d = tables at *
  have hCurrent : Current (writes.foldl (fun m write => m.applyWrite d.nextSeq write) m) tables := by
    intro address
    rw [writes_addresses, hDocuments]
    exact h.current address
  generalize writes.foldl (fun m write => m.applyWrite d.nextSeq write) m = records at *
  have hTotal : ∀ address, aliveAfter tables (resolvedActions d actions) address ≤ 1 := by
    intro address
    have hLive := hPasses.live address
    rw [aliveAfter, alive] at hLive ⊢
    rw [hDocuments]
    exact hLive
  have hLoop := (Loop.start hMirror hCurrent hStored hDistinct hFits).run fun id record hLookup =>
    (hStored.kept.timeline id record hLookup).1
  rw [hSeq] at hLoop
  exact ⟨{ hLoop.mirror with nextSeq := rfl }, hLoop.current_eq hTotal, hLoop.stored hTotal hStored hSeq _⟩

/-! The index of the requests. -/

theorem Memory.applyDocumentAction_requests (seq : Nat) (m : Memory) (entry : Nat × Memory.DocumentAction) :
    (Memory.applyDocumentAction seq m entry).submissionIdsByRequest = m.submissionIdsByRequest := by
  obtain ⟨id, action⟩ := entry
  have hStored : (m.storeAction seq id action).submissionIdsByRequest = m.submissionIdsByRequest := by
    rw [Memory.storeAction]
    cases action.create with
    | some create => rfl
    | none =>
      cases action.content with
      | none => rfl
      | some content =>
        dsimp only
        cases m.documents.lookup id <;> rfl
  simp only [Memory.applyDocumentAction]
  cases (m.storeAction seq id action).documents.lookup id with
  | none => exact hStored
  | some state =>
    simp only [Memory.settleAction]
    split_ifs <;> exact hStored

theorem Sqlite.applyDocumentAction_submissions (seq : Nat) (d : Sqlite) (entry : Nat × Memory.DocumentAction) :
    (Sqlite.applyDocumentAction seq d entry).submissions = d.submissions := by
  obtain ⟨id, action⟩ := entry
  have hFinish : ∀ (d : Sqlite) (record : DocumentCreate), (d.finish seq id record action).submissions = d.submissions := by
    intro d record
    obtain ⟨rows, hRows⟩ := d.finish_eq seq id record action
    rw [hRows]
  cases hCreate : action.create with
  | some create =>
    have hRecord : ∃ record, recordAfter seq action (d.documents.lookup id) = some record := by
      rw [recordAfter, hCreate]
      exact ⟨_, rfl⟩
    obtain ⟨record, hRecord⟩ := hRecord
    rw [Sqlite.applyDocumentAction_create d hCreate seq hRecord, hFinish]
  | none =>
    cases hLookup : d.documents.lookup id with
    | none => simp [Sqlite.applyDocumentAction, hCreate, hLookup]
    | some existing =>
      have hRecord : ∃ record, recordAfter seq action (d.documents.lookup id) = some record := by
        rw [recordAfter, hCreate, hLookup]
        exact ⟨_, rfl⟩
      obtain ⟨record, hRecord⟩ := hRecord
      rw [Sqlite.applyDocumentAction_existing d hCreate seq hLookup hRecord, hFinish]

theorem Requested.actions (h : Requested m d) (seq : Nat) (actions : Memory.DocumentActions) :
    Requested (actions.foldl (Memory.applyDocumentAction seq) m) (actions.foldl (Sqlite.applyDocumentAction seq) d) := by
  induction actions generalizing m d with
  | nil => exact h
  | cons entry rest ih =>
    refine ih ⟨?_, ?_⟩
    · rw [Memory.applyDocumentAction_requests, Sqlite.applyDocumentAction_submissions]
      exact h.index
    · rw [Sqlite.applyDocumentAction_submissions]
      exact h.unique

theorem Requested.applied (hRequested : Requested m d) (h : Agree m d) {actions : Sqlite.DocumentActions}
    (hPasses : Passes m d writes actions) (hPromised : promisedRun d.nextSeq m writes = true) :
    Requested (m.applyPreparedCommit (writes.map (resolveWrite (copied d))) (resolvedActions d actions) d.nextSeq)
      (d.applyBatch writes (resolvedActions d actions)) := by
  have hStart : ClaimedSoFar d.recordIds [] d.recordIds := fun _ => rfl
  obtain ⟨hAllowed, -⟩ := h.mirror.allowedRun h.stored hStart d.nextSeq hPasses.ids
  have hWrites := hRequested.writes h.mirror h.stored d.nextSeq hAllowed hPromised
  obtain ⟨hIndex, hUnique⟩ := hWrites.actions d.nextSeq (resolvedActions d actions)
  rw [Memory.applyPreparedCommit, Sqlite.applyBatch, foldl_resolve]
  exact ⟨hIndex, hUnique⟩

theorem Agree.accepts (h : Agree m d) (hSeq : d.nextSeq ≤ MAX_SAFE_INTEGER) (writes : List Write) :
    (∃ m' d' actions, m.commitBatch writes = .ok m' ∧ d.commitBatch writes = .ok d' ∧ Passes m d writes actions ∧
      m' = m.applyPreparedCommit (writes.map (resolveWrite (copied d))) (resolvedActions d actions) d.nextSeq ∧
      d' = d.applyBatch writes (resolvedActions d actions)) ∨
    (∃ error error', m.commitBatch writes = .error error ∧ d.commitBatch writes = .error error') := by
  have hMemory := fun {prepared resolved} =>
    @Memory.prepareCommit_ok m d writes resolved h.mirror h.current h.stored.kept hSeq prepared
  have hSqlite := fun {resolved} => @Sqlite.checkBatch_ok m d writes resolved h.mirror h.stored.kept
  rw [Memory.commitBatch, Memory.commitAt, Sqlite.commitBatch]
  cases hCheck : d.checkBatch writes with
  | ok resolved =>
    obtain ⟨actions, hPasses, rfl⟩ := hSqlite.mp hCheck
    rw [hMemory.mpr ⟨actions, hPasses, rfl, rfl⟩]
    exact Or.inl ⟨_, _, actions, rfl, rfl, hPasses, by rw [h.mirror.nextSeq], rfl⟩
  | error error' =>
    cases hPrepare : m.prepareCommit writes m.nextSeq with
    | error error => exact Or.inr ⟨error, error', rfl, rfl⟩
    | ok result =>
      obtain ⟨actions, hPasses, -⟩ := hMemory.mp hPrepare
      rw [hSqlite.mpr ⟨actions, hPasses, rfl⟩] at hCheck
      exact absurd hCheck (by simp)

end OctoberHarness.Storage
