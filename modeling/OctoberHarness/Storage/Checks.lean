import OctoberHarness.Storage.DocumentLoop

/-! The checks of a commit. Both storages make them in a different order and on
different tables of actions, and accept the same batches. -/
namespace OctoberHarness.Storage

open View List OrderedMap

/-- The ids of the tables while a batch is applied: its records are claimed one
after the other, its documents only at the end. -/
def ClaimedSoFar (types taken ids : List (Nat × TableName)) : Prop :=
  ∀ id, ids.lookup id =
    match taken.lookup id with
    | none => types.lookup id
    | some .document => none
    | some table => some table

theorem checkClaim_document {existing earlier : Option TableName} {id : Nat} {table : TableName}
    (hMutable : Memory.TableName.mutable table = false)
    (h : Memory.checkClaim existing earlier id table = .ok ()) : existing = none ∧ earlier = none := by
  rw [Memory.checkClaim.eq_def, hMutable] at h
  cases existing <;> cases earlier <;> simp at h ⊢

theorem checkClaim_mutable {existing earlier : Option TableName} {id : Nat} {table : TableName}
    (h : Memory.checkClaim existing earlier id table = .ok ()) :
    (existing = none ∨ existing = some table) ∧ (earlier = none ∨ earlier = some table) := by
  cases hMutable : Memory.TableName.mutable table with
  | false =>
    obtain ⟨hExisting, hEarlier⟩ := checkClaim_document hMutable h
    exact ⟨Or.inl hExisting, Or.inl hEarlier⟩
  | true =>
    rw [Memory.checkClaim.eq_def, hMutable] at h
    cases existing with
    | none => cases earlier <;> simp_all
    | some found =>
      cases earlier with
      | none => simp_all
      | some before =>
        by_cases hFound : found = table <;> by_cases hBefore : before = table <;> simp_all

section

variable {types taken ids : List (Nat × TableName)} (h : ClaimedSoFar types taken ids)

include h

variable {table : TableName} {id : Nat}

theorem ClaimedSoFar.free (hTable : table ≠ .document)
    (hCheck : Memory.checkClaim (types.lookup id) (taken.lookup id) id table = .ok ()) :
    ids.lookup id = none ∨ ids.lookup id = some table := by
  obtain ⟨hExisting, hEarlier⟩ := checkClaim_mutable hCheck
  rw [h id]
  rcases hEarlier with hNone | hSome
  · rw [hNone]
    exact hExisting
  · rw [hSome]
    cases table <;> first | exact Or.inr rfl | exact absurd rfl hTable

theorem ClaimedSoFar.new (hMutable : Memory.TableName.mutable table = false)
    (hCheck : Memory.checkClaim (types.lookup id) (taken.lookup id) id table = .ok ()) : ids.lookup id = none := by
  obtain ⟨hExisting, hEarlier⟩ := checkClaim_document hMutable hCheck
  rw [h id, hEarlier]
  exact hExisting

theorem ClaimedSoFar.claim (hKeyed : Table.Keyed ids) (hTable : table ≠ .document)
    (hCheck : Memory.checkClaim (types.lookup id) (taken.lookup id) id table = .ok ()) :
    ClaimedSoFar types (set taken id table) (claimed ids id table) := by
  intro other
  rw [lookup_claimed hKeyed (h.free hTable hCheck), lookup_set]
  split_ifs with hOther
  · cases table <;> first | rfl | exact absurd rfl hTable
  · exact h other

theorem ClaimedSoFar.document (hCheck : Memory.checkClaim (types.lookup id) (taken.lookup id) id .document = .ok ()) :
    ClaimedSoFar types (set taken id .document) ids := by
  intro other
  rw [lookup_set]
  split_ifs with hOther
  · rw [hOther]
    exact h.new rfl hCheck
  · exact h other

end

theorem checkGlobalIds_cons {types taken : List (Nat × TableName)} {write : Write} {rest : List Write} {id : Nat}
    {table : TableName} (hClaim : Memory.claimOf write = some (id, table))
    (h : Memory.checkGlobalIds.loop types taken (write :: rest) = .ok ()) :
    Memory.checkClaim (types.lookup id) (taken.lookup id) id table = .ok () ∧
      Memory.checkGlobalIds.loop types (set taken id table) rest = .ok () := by
  rw [Memory.checkGlobalIds.loop, hClaim] at h
  cases hCheck : Memory.checkClaim (types.lookup id) (taken.lookup id) id table with
  | error error =>
    simp only [hCheck] at h
    exact absurd h (by simp [bind, Except.bind])
  | ok done =>
    simp only [hCheck] at h
    exact ⟨rfl, h⟩

/-- The documents a batch creates. -/
def createdBy (writes : List Write) : List Nat :=
  writes.filterMap fun write =>
    match write with
    | .documentCreate record _ _ | .documentCopy record _ => some record.id
    | _ => none

variable {m : Memory} {d : Sqlite}

/-- The records of a batch that passes the check of ids are allowed one after the
other, and the ids of its documents are still free when all are written. -/
theorem Mirror.allowedRun (hMirror : Mirror m d) (hStored : Stored d)
    {types taken : List (Nat × TableName)} (hTaken : ClaimedSoFar types taken d.recordIds) (seq : Nat)
    {writes : List Write} (hCheck : Memory.checkGlobalIds.loop types taken writes = .ok ()) : AllowedRun seq d writes ∧
      ∀ id, taken.lookup id = some .document ∨ id ∈ createdBy writes →
        (writes.foldl (fun d write => d.applyTableWrite seq write) d).recordIds.lookup id = none := by
  induction writes generalizing m d taken with
  | nil =>
    refine ⟨trivial, fun id hId => ?_⟩
    rcases hId with hTakenId | hCreated
    · rw [foldl_nil, hTaken id, hTakenId]
    · exact absurd hCreated not_mem_nil
  | cons write rest ih =>
    -- a record: it is allowed, and the rest goes on with its id taken
    have hRecord : ∀ id table, table ≠ .document → Memory.claimOf write = some (id, table) →
        createdBy (write :: rest) = createdBy rest → Allowed d write →
        (d.applyTableWrite seq write).recordIds = claimed d.recordIds id table →
        AllowedRun seq d (write :: rest) ∧ ∀ id, taken.lookup id = some .document ∨ id ∈ createdBy (write :: rest) →
          ((write :: rest).foldl (fun d write => d.applyTableWrite seq write) d).recordIds.lookup id = none := by
      intro id table hTable hClaim hCreated hAllowed hIds
      obtain ⟨hFirst, hRest⟩ := checkGlobalIds_cons hClaim hCheck
      obtain ⟨hNextMirror, hNextStored⟩ := hMirror.write hStored seq hAllowed
      have hNextTaken : ClaimedSoFar types (set taken id table) (d.applyTableWrite seq write).recordIds := by
        rw [hIds]
        exact hTaken.claim hStored.filed.ids hTable hFirst
      obtain ⟨hRun, hFree⟩ := ih hNextMirror hNextStored hNextTaken hRest
      refine ⟨⟨hAllowed, hRun⟩, fun other hOther => ?_⟩
      refine hFree other (hOther.imp (fun hDocument => ?_) fun hMem => hCreated ▸ hMem)
      have hNe : other ≠ id := by
        rintro rfl
        obtain ⟨-, hEarlier⟩ := checkClaim_mutable hFirst
        rw [hDocument] at hEarlier
        rcases hEarlier with hNone | hSame
        · exact Option.some_ne_none _ hNone
        · exact hTable (Option.some.inj hSame).symm
      rw [lookup_set_of_ne _ _ hNe]
      exact hDocument
    -- a new document: its id is taken, and the tables stay
    have hDocument : ∀ id, Memory.claimOf write = some (id, .document) →
        createdBy (write :: rest) = id :: createdBy rest → d.applyTableWrite seq write = d →
        Allowed d write →
        AllowedRun seq d (write :: rest) ∧ ∀ id, taken.lookup id = some .document ∨ id ∈ createdBy (write :: rest) →
          ((write :: rest).foldl (fun d write => d.applyTableWrite seq write) d).recordIds.lookup id = none := by
      intro id hClaim hCreated hSame hAllowed
      obtain ⟨hFirst, hRest⟩ := checkGlobalIds_cons hClaim hCheck
      obtain ⟨hRun, hFree⟩ := ih hMirror hStored (hTaken.document hFirst) hRest
      rw [AllowedRun, foldl_cons, hSame]
      refine ⟨⟨hAllowed, hRun⟩, fun other hOther => hFree other ?_⟩
      rw [lookup_set]
      split_ifs with hId
      · exact Or.inl rfl
      · rw [hCreated, mem_cons] at hOther
        tauto
    have hNothing : Memory.claimOf write = none → createdBy (write :: rest) = createdBy rest →
        d.applyTableWrite seq write = d → Allowed d write →
        AllowedRun seq d (write :: rest) ∧ ∀ id, taken.lookup id = some .document ∨ id ∈ createdBy (write :: rest) →
          ((write :: rest).foldl (fun d write => d.applyTableWrite seq write) d).recordIds.lookup id = none := by
      intro hClaim hCreated hSame hAllowed
      rw [Memory.checkGlobalIds.loop, hClaim] at hCheck
      obtain ⟨hRun, hFree⟩ := ih hMirror hStored hTaken hCheck
      rw [AllowedRun, foldl_cons, hSame, hCreated]
      exact ⟨⟨hAllowed, hRun⟩, hFree⟩
    cases write with
    | conversation value =>
      obtain ⟨hFirst, -⟩ := checkGlobalIds_cons rfl hCheck
      refine hRecord value.id .conversation (by decide) rfl rfl (hTaken.new rfl hFirst) ?_
      rw [Sqlite.applyTableWrite, Sqlite.claimId_eq]
    | entry value =>
      obtain ⟨hFirst, -⟩ := checkGlobalIds_cons rfl hCheck
      refine hRecord value.id .entry (by decide) rfl rfl (hTaken.new rfl hFirst) ?_
      rw [Sqlite.applyTableWrite, Sqlite.claimId_eq]
    | task value =>
      obtain ⟨hFirst, -⟩ := checkGlobalIds_cons rfl hCheck
      refine hRecord value.id .task (by decide) rfl rfl (hTaken.free (by decide) hFirst) ?_
      rw [Sqlite.applyTableWrite, Sqlite.claimId_eq]
    | submission value =>
      obtain ⟨hFirst, -⟩ := checkGlobalIds_cons rfl hCheck
      refine hRecord value.id .submission (by decide) rfl rfl (hTaken.free (by decide) hFirst) ?_
      rw [Sqlite.applyTableWrite, Sqlite.claimId_eq]
    | documentCreate record version value => exact hDocument record.id rfl rfl rfl trivial
    | documentCopy record source => exact hDocument record.id rfl rfl rfl trivial
    | documentChange id content => exact hNothing rfl rfl rfl trivial
    | documentRetire id => exact hNothing rfl rfl rfl trivial

/-- What the caller of a storage promises of a write: a request id is used once in
a conversation. -/
def promised (m : Memory) : Write → Bool
  | .submission value => m.submissions.all fun entry => decide (entry.1 = value.id) ||
      (Memory.requestOf value).isNone || decide (Memory.requestOf entry.2 ≠ Memory.requestOf value)
  | _ => true

/-- The promise of every write when its turn comes. -/
def promisedRun (seq : Nat) : Memory → List Write → Bool
  | _, [] => true
  | m, write :: rest => promised m write && promisedRun seq (m.applyWrite seq write) rest

theorem Mirror.request (h : Mirror m d) {value : SubmissionRecord} (hPromised : promised m (.submission value) = true)
    (requestId : JsString) (hRequest : value.requestId = some requestId) (id : Nat) (other : SubmissionRecord)
    (hLookup : d.submissions.lookup id = some other) (hIs : isRequest value.conversationId requestId other = true)
    : id = value.id := by
  rw [← h.submissions] at hLookup
  rw [promised, all_eq_true] at hPromised
  have hEntry := hPromised (id, other) (mem_of_lookup hLookup)
  have hOwn : Memory.requestOf value = some (value.conversationId, requestId) := by
    rw [Memory.requestOf, hRequest]
    rfl
  rw [isRequest_iff] at hIs
  simpa [hOwn, hIs] using hEntry

theorem Requested.writes (h : Requested m d) (hMirror : Mirror m d) (hStored : Stored d) (seq : Nat) {writes : List Write}
    (hAllowed : AllowedRun seq d writes) (hPromised : promisedRun seq m writes = true) :
    Requested (writes.foldl (fun m write => m.applyWrite seq write) m)
      (writes.foldl (fun d write => d.applyTableWrite seq write) d) := by
  induction writes generalizing m d with
  | nil => exact h
  | cons write rest ih =>
    obtain ⟨hFirst, hRest⟩ := hAllowed
    rw [promisedRun, Bool.and_eq_true] at hPromised
    obtain ⟨hNextMirror, hNextStored⟩ := hMirror.write hStored seq hFirst
    refine ih (h.write hMirror hStored seq ?_) hNextMirror hNextStored hRest hPromised.2
    rintro value rfl
    exact hMirror.request hPromised.1

/-- A copy becomes the creation of what it copies. -/
def resolveWrite (content : DocumentCopySource → Nat × JsonValue) : Write → Write
  | .documentCopy record source => .documentCreate record (content source).1 (content source).2
  | write => write

def resolveAction (content : DocumentCopySource → Nat × JsonValue) (action : Sqlite.DocumentAction) :
    Memory.DocumentAction :=
  { action.toDocumentAction with
    content := match action.copy with
      | some source => some (.base (content source).1 (content source).2)
      | none => action.content }

/-- The actions of a batch are the same whether its copies are resolved before or
after they are collected. -/
theorem prepareAction_resolve (content : DocumentCopySource → Nat × JsonValue) (actions : Sqlite.DocumentActions)
    (write : Write) :
    Memory.prepareAction (actions.map (Prod.map id (resolveAction content))) (resolveWrite content write) =
      (Sqlite.prepareAction actions write).map (map (Prod.map id (resolveAction content))) := by
  have hLookup : ∀ key, ((actions.map (Prod.map id (resolveAction content))).lookup key).getD {} =
      resolveAction content ((actions.lookup key).getD {}) := by
    intro key
    have hMap := lookup_map (resolveAction content) Function.injective_id actions key
    rw [id] at hMap
    rw [hMap]
    cases actions.lookup key <;> rfl
  have hSet : ∀ key action, set (actions.map (Prod.map id (resolveAction content))) key
      (resolveAction content action) = (set actions key action).map (Prod.map id (resolveAction content)) :=
    fun key action => set_map (resolveAction content) Function.injective_id actions key action
  cases write with
  | conversation value => rfl
  | entry value => rfl
  | task value => rfl
  | submission value => rfl
  | documentCreate record version value =>
    simp only [resolveWrite, Memory.prepareAction, Sqlite.prepareAction, hLookup]
    generalize (actions.lookup record.id).getD {} = action
    cases hCopy : action.copy with
    | some source => simp [resolveAction, hCopy, Except.map]
    | none =>
      simp only [resolveAction, hCopy, Option.isSome_none, Bool.false_eq_true, or_false]
      split_ifs with hTwo
      · rfl
      · rw [Except.map, ← hSet]
        simp [resolveAction]
  | documentCopy record source =>
    simp only [resolveWrite, Memory.prepareAction, Sqlite.prepareAction, hLookup]
    generalize (actions.lookup record.id).getD {} = action
    cases hCopy : action.copy with
    | some source => simp [resolveAction, hCopy, Except.map]
    | none =>
      simp only [resolveAction, hCopy, Option.isSome_none, Bool.false_eq_true, or_false]
      split_ifs with hTwo
      · rfl
      · rw [Except.map, ← hSet]
        simp [resolveAction]
  | documentChange id content' =>
    simp only [resolveWrite, Memory.prepareAction, Sqlite.prepareAction, hLookup]
    generalize (actions.lookup id).getD {} = action
    cases hCopy : action.copy with
    | some source => simp [resolveAction, hCopy, Except.map]
    | none =>
      simp only [resolveAction, hCopy, Option.isSome_none, Bool.false_eq_true, or_false]
      split_ifs with hTwo
      · rfl
      · rw [Except.map, ← hSet]
        simp [resolveAction]
  | documentRetire id =>
    simp only [resolveWrite, Memory.prepareAction, Sqlite.prepareAction, hLookup]
    generalize (actions.lookup id).getD {} = action
    cases hRetire : action.retire with
    | true => simp [resolveAction, hRetire, Except.map]
    | false => simp [resolveAction, hRetire, Except.map, ← hSet]

theorem prepareDocumentActions_resolve (content : DocumentCopySource → Nat × JsonValue) (writes : List Write) :
    Memory.prepareDocumentActions (writes.map (resolveWrite content)) =
      (Sqlite.prepareDocumentActions writes).map (map (Prod.map id (resolveAction content))) := by
  have hRun : ∀ actions : Sqlite.DocumentActions,
      (writes.map (resolveWrite content)).foldlM Memory.prepareAction (actions.map (Prod.map id (resolveAction content))) =
        (writes.foldlM Sqlite.prepareAction actions).map (map (Prod.map id (resolveAction content))) := by
    induction writes with
    | nil => exact fun _ => rfl
    | cons write rest ih =>
      intro actions
      rw [map_cons, foldlM_cons, foldlM_cons, prepareAction_resolve]
      cases Sqlite.prepareAction actions write with
      | error error => rfl
      | ok next => exact ih next
  exact hRun []

end OctoberHarness.Storage
