import OctoberHarness.Storage.Commits

/-! What a caller observes of a storage: which batches are stored, with which
seqs, and what every read returns. -/
namespace OctoberHarness.Storage

open View List

/-! Calls of `commit`. -/

/-- What a call of `commit` leaves: the storage after it, the receipts of the
batches it stored, and whether it refused one. -/
structure Committed (σ : Type) where
  state : σ
  seqs : List Nat
  refused : Bool

/-- `commit` of the in-memory storage: the first batch refused ends the call. -/
def Memory.commit (m : Memory) : List (List Write) → Committed Memory
  | [] => ⟨m, [], false⟩
  | writes :: rest =>
    match m.commitBatch writes with
    | .error _ => ⟨m, [], true⟩
    | .ok next => { next.commit rest with seqs := m.nextSeq :: (next.commit rest).seqs }

/-- `commit` of the SQLite storage. -/
def Sqlite.commit (d : Sqlite) : List (List Write) → Committed Sqlite
  | [] => ⟨d, [], false⟩
  | writes :: rest =>
    match d.commitBatch writes with
    | .error _ => ⟨d, [], true⟩
    | .ok next => { next.commit rest with seqs := d.nextSeq :: (next.commit rest).seqs }

/-- The storages after a list of calls. -/
def Memory.run (m : Memory) (calls : List (List (List Write))) : Memory :=
  calls.foldl (fun m batches => (m.commit batches).state) m

def Sqlite.run (d : Sqlite) (calls : List (List (List Write))) : Sqlite :=
  calls.foldl (fun d batches => (d.commit batches).state) d

/-! What the caller promises. -/

/-- The parents of a conversation are stored, down to a root. -/
def Grounded (conversations : List (Nat × ConversationRecord)) : Prop :=
  ∀ id, conversations.lookup id ≠ none → ∃ steps, Rooted conversations steps id

theorem Grounded.forest {conversations conversations' : List (Nat × ConversationRecord)} (h : Grounded conversations)
    (hSame : Copies conversations conversations') : Forest conversations' := by
  intro id hStored
  rw [← hSame] at hStored
  obtain ⟨steps, hRooted⟩ := h id hStored
  have hOther := Rooted.grow (fun other _ hLookup => (hSame other).symm.trans hLookup) hRooted
  exact ⟨steps, hOther.steps_lt, hOther⟩

/-- What a caller promises of a batch that is accepted: request ids are used once
in a conversation, ids are exact numbers with one after them, and conversations
are forks of stored ones. -/
def Promised (m : Memory) (writes : List Write) : Prop :=
  ∀ next, m.commitBatch writes = .ok next → promisedRun m.nextSeq m writes = true ∧
    (∀ write ∈ writes, ∀ id ∈ Sqlite.writeId write, id < MAX_SAFE_INTEGER) ∧ Grounded next.conversations

/-- The same of the batches of a call. -/
def PromisedCall (m : Memory) : List (List Write) → Prop
  | [] => True
  | writes :: rest => Promised m writes ∧ ∀ next, m.commitBatch writes = .ok next → PromisedCall next rest

/-- The same of a list of calls. -/
def PromisedRun (m : Memory) : List (List (List Write)) → Prop
  | [] => True
  | batches :: rest => PromisedCall m batches ∧ PromisedRun (m.commit batches).state rest

/-! The promise can be checked. -/

def Rooted.decide (conversations : List (Nat × ConversationRecord)) :
    (steps id : Nat) → Decidable (Rooted conversations steps id)
  | 0, id => decidable_of_iff ((conversations.lookup id).any fun record => record.parent.isNone) (by simp [Rooted, Option.any_eq_true])
  | steps + 1, id =>
    match hLookup : conversations.lookup id with
    | none => isFalse (by simp [Rooted, hLookup])
    | some record =>
      match hParent : record.parent with
      | none => isFalse (by simp [Rooted, hLookup, hParent])
      | some parent =>
        have := Rooted.decide conversations steps parent.conversationId
        decidable_of_iff (Rooted conversations steps parent.conversationId) (by simp [Rooted, hLookup, hParent])

instance (conversations : List (Nat × ConversationRecord)) (steps id : Nat) : Decidable (Rooted conversations steps id) :=
  Rooted.decide conversations steps id

theorem grounded_iff (conversations : List (Nat × ConversationRecord)) : Grounded conversations ↔
    ∀ id ∈ Table.ids conversations, ∃ steps < conversations.length, Rooted conversations steps id := by
  refine ⟨fun h id hMem => ?_, fun h id hStored => ?_⟩
  · obtain ⟨steps, hRooted⟩ := h id ((Table.mem_ids id).mp hMem)
    exact ⟨steps, hRooted.steps_lt, hRooted⟩
  · obtain ⟨steps, -, hRooted⟩ := h id ((Table.mem_ids id).mpr hStored)
    exact ⟨steps, hRooted⟩

instance (conversations : List (Nat × ConversationRecord)) : Decidable (Grounded conversations) :=
  decidable_of_iff _ (grounded_iff conversations).symm

instance (m : Memory) (writes : List Write) : Decidable (Promised m writes) :=
  match hNext : m.commitBatch writes with
  | .error error => isTrue fun next h => absurd (hNext.symm.trans h) (by simp)
  | .ok next =>
    decidable_of_iff (promisedRun m.nextSeq m writes = true ∧
      (∀ write ∈ writes, ∀ id ∈ Sqlite.writeId write, id < MAX_SAFE_INTEGER) ∧ Grounded next.conversations)
      ⟨fun h found hFound => Except.ok.inj (hNext.symm.trans hFound) ▸ h, fun h => h next hNext⟩

def PromisedCall.decide : (m : Memory) → (batches : List (List Write)) → Decidable (PromisedCall m batches)
  | _, [] => isTrue trivial
  | m, writes :: rest =>
    match hNext : m.commitBatch writes with
    | .error error => decidable_of_iff (Promised m writes)
        ⟨fun h => ⟨h, fun next hOk => absurd (hNext.symm.trans hOk) (by simp)⟩, fun h => h.1⟩
    | .ok next =>
      have := PromisedCall.decide next rest
      decidable_of_iff (Promised m writes ∧ PromisedCall next rest)
        ⟨fun h => ⟨h.1, fun found hFound => Except.ok.inj (hNext.symm.trans hFound) ▸ h.2⟩,
          fun h => ⟨h.1, h.2 next hNext⟩⟩

def PromisedRun.decide : (m : Memory) → (calls : List (List (List Write))) → Decidable (PromisedRun m calls)
  | _, [] => isTrue trivial
  | m, batches :: rest =>
    have := PromisedCall.decide m batches
    have := PromisedRun.decide (m.commit batches).state rest
    inferInstanceAs (Decidable (PromisedCall m batches ∧ PromisedRun (m.commit batches).state rest))

instance (m : Memory) (calls : List (List (List Write))) : Decidable (PromisedRun m calls) :=
  PromisedRun.decide m calls

/-- Every id of the storage was written. -/
def Memory.IdsBelow (m : Memory) (bound : Nat) : Prop :=
  ∀ id, m.recordTypes.lookup id ≠ none → id < bound

variable {m : Memory} {bound : Nat} {writes : List Write} {d : Sqlite}

section

variable (h : m.IdsBelow bound)

include h

theorem Memory.IdsBelow.set {id : Nat} (hId : id < bound)
    (table : TableName) {m' : Memory} (hSame : m'.recordTypes = OrderedMap.set m.recordTypes id table) :
    m'.IdsBelow bound := by
  intro other hOther
  rw [hSame, OrderedMap.lookup_set] at hOther
  split_ifs at hOther with hIs
  · rw [hIs]
    exact hId
  · exact h other hOther

theorem Memory.IdsBelow.write (seq : Nat) {write : Write}
    (hId : ∀ id, Sqlite.writeId write = some id → id < bound) : (m.applyWrite seq write).IdsBelow bound := by
  cases write with
  | conversation value =>
    refine h.set (hId value.id rfl) .conversation ?_
    rw [Memory.applyWrite]
    cases value.owner <;> rfl
  | entry value => exact h.set (hId value.id rfl) .entry rfl
  | task value => exact h.set (hId value.id rfl) .task rfl
  | submission value => exact h.set (hId value.id rfl) .submission rfl
  | documentCreate record version value => exact h
  | documentCopy record source => exact h
  | documentChange id content => exact h
  | documentRetire id => exact h

theorem Memory.IdsBelow.action (seq : Nat)
    {entry : Nat × Memory.DocumentAction} (hId : ∀ create, entry.2.create = some create → entry.1 < bound) :
    (Memory.applyDocumentAction seq m entry).IdsBelow bound := by
  obtain ⟨id, action⟩ := entry
  have hStored : (m.storeAction seq id action).IdsBelow bound := by
    rw [Memory.storeAction]
    cases hCreate : action.create with
    | some create => exact h.set (hId create hCreate) .document rfl
    | none =>
      cases action.content with
      | none => exact h
      | some content =>
        dsimp only
        cases m.documents.lookup id <;> exact h
  simp only [Memory.applyDocumentAction]
  cases (m.storeAction seq id action).documents.lookup id with
  | none => exact hStored
  | some state =>
    simp only [Memory.settleAction]
    split_ifs <;> exact hStored

theorem Memory.IdsBelow.commit (seq : Nat)
    {actions : Memory.DocumentActions} (hWrites : ∀ write ∈ writes, ∀ id, Sqlite.writeId write = some id → id < bound)
    (hActions : ∀ entry ∈ actions, ∀ create, entry.2.create = some create → entry.1 < bound) :
    (m.applyPreparedCommit writes actions seq).IdsBelow bound := by
  have hRecords : (writes.foldl (fun m write => m.applyWrite seq write) m).IdsBelow bound := by
    induction writes generalizing m with
    | nil => exact h
    | cons write rest ih =>
      rw [forall_mem_cons] at hWrites
      exact ih (h.write seq hWrites.1) hWrites.2
  have hDocuments : (actions.foldl (Memory.applyDocumentAction seq)
      (writes.foldl (fun m write => m.applyWrite seq write) m)).IdsBelow bound := by
    generalize writes.foldl (fun m write => m.applyWrite seq write) m = records at hRecords
    induction actions generalizing records with
    | nil => exact hRecords
    | cons entry rest ih =>
      rw [forall_mem_cons] at hActions
      exact ih hActions.2 _ (hRecords.action seq hActions.1)
  exact hDocuments

theorem Memory.IdsBelow.applied {actions : Sqlite.DocumentActions} (hPasses : Passes m d writes actions)
    (hIds : ∀ write ∈ writes, ∀ id, Sqlite.writeId write = some id → id < bound) :
    (m.applyPreparedCommit (writes.map (resolveWrite (copied d))) (resolvedActions d actions) d.nextSeq).IdsBelow bound := by
  have hCollected := Collected.of_prepare hPasses.collected
  refine h.commit _ (fun write hMem id hId => ?_) fun entry hMem create hCreate => ?_
  · obtain ⟨original, hOriginal, rfl⟩ := List.mem_map.mp hMem
    have hSame : Sqlite.writeId (resolveWrite (copied d) original) = Sqlite.writeId original := by
      cases original <;> rfl
    exact hIds original hOriginal id (hSame ▸ hId)
  · obtain ⟨before, hBefore, rfl⟩ := mem_resolvedActions hMem
    obtain ⟨-, hCreated⟩ := hCollected.created before.1 before.2 create (hCollected.lookup hBefore) hCreate
    obtain ⟨write, hWrite, hCreatedBy⟩ := List.mem_filterMap.mp hCreated
    refine hIds write hWrite before.1 ?_
    cases write <;> simp_all [Sqlite.writeId]

end

/-- Both storages after the same calls of a caller that keeps its promise. -/
structure Settled (m : Memory) (d : Sqlite) : Prop extends Agree m d where
  requested : Requested m d
  below : m.IdsBelow MAX_SAFE_INTEGER
  grounded : Grounded m.conversations

theorem Settled.empty : Settled {} {} :=
  { Agree.empty with
    requested := ⟨fun _ _ => rfl, fun _ _ _ _ _ _ h => by simp at h⟩
    below := fun _ h => absurd rfl h
    grounded := fun _ h => absurd rfl h }

theorem Settled.sound (h : Settled m d) : d.Sound :=
  { h.stored.kept with forest := h.grounded.forest h.mirror.conversations }

theorem Settled.inRange (h : Settled m d) (hSeq : d.nextSeq ≤ MAX_SAFE_INTEGER + 1) :
    d.InRange := by
  have hIds : ∀ {id table}, d.recordIds.lookup id = some table → id < MAX_SAFE_INTEGER := by
    intro id table hTable
    refine h.below id ?_
    rw [h.mirror.recordTypes, hTable]
    exact Option.some_ne_none _
  have hFiled := h.stored.filed
  exact {
    conversations := fun id hMem => hIds (hFiled.conversations id ((Table.mem_ids id).mp hMem))
    tasks := fun id hMem => hIds (hFiled.tasks id ((Table.mem_ids id).mp hMem))
    submissions := fun id hMem => hIds (hFiled.submissions id ((Table.mem_ids id).mp hMem))
    documents := fun id hMem => hIds (hFiled.documents id ((Table.mem_ids id).mp hMem))
    seq := hSeq }

theorem Settled.read_eq (h : Settled m d) (hSeq : d.nextSeq ≤ MAX_SAFE_INTEGER + 1) (read : Read) : m.read read = d.read read :=
  (Memory.read_eq_view h.mirror h.current h.stored.kept read (fun _ => h.requested) fun _ => h.sound.forest).trans (Sqlite.read_eq_view h.sound (h.inRange hSeq) read).symm

theorem Settled.commitBatch (h : Settled m d) (hSeq : d.nextSeq ≤ MAX_SAFE_INTEGER) (hPromised : Promised m writes) :
    (∃ m' d', m.commitBatch writes = .ok m' ∧ d.commitBatch writes = .ok d' ∧ Settled m' d' ∧
      d'.nextSeq = d.nextSeq + 1) ∨
    (∃ error error', m.commitBatch writes = .error error ∧ d.commitBatch writes = .error error') := by
  refine (h.accepts hSeq writes).imp_left ?_
  rintro ⟨m', d', actions, hMemory, hSqlite, hPasses, rfl, rfl⟩
  obtain ⟨hRequests, hIds, hGrounded⟩ := hPromised _ hMemory
  rw [h.mirror.nextSeq] at hRequests
  exact ⟨_, _, hMemory, hSqlite, { h.applied hPasses with
    requested := h.requested.applied h.toAgree hPasses hRequests
    below := h.below.applied hPasses hIds
    grounded := hGrounded }, rfl⟩

theorem Settled.commit (h : Settled m d) {batches : List (List Write)}
    (hSeq : d.nextSeq + batches.length ≤ MAX_SAFE_INTEGER + 1) (hPromised : PromisedCall m batches) :
    Settled (m.commit batches).state (d.commit batches).state ∧ (m.commit batches).seqs = (d.commit batches).seqs ∧
      (m.commit batches).refused = (d.commit batches).refused ∧
      (d.commit batches).state.nextSeq ≤ d.nextSeq + batches.length := by
  induction batches generalizing m d with
  | nil => exact ⟨h, rfl, rfl, Nat.le_refl _⟩
  | cons writes rest ih =>
    rw [length_cons] at hSeq ⊢
    obtain ⟨hFirst, hRest⟩ := hPromised
    rw [Memory.commit, Sqlite.commit]
    rcases h.commitBatch (by omega) hFirst with ⟨m', d', hMemory, hSqlite, hNext, hNextSeq⟩ | ⟨_, _, hMemory, hSqlite⟩
    · obtain ⟨hEnd, hSeqs, hRefused, hLast⟩ := ih hNext (by omega) (hRest m' hMemory)
      rw [hMemory, hSqlite]
      exact ⟨hEnd, by simp only [hSeqs, h.mirror.nextSeq], hRefused, by dsimp only; omega⟩
    · rw [hMemory, hSqlite]
      exact ⟨h, rfl, rfl, by dsimp only; omega⟩

theorem Settled.run (h : Settled m d) {calls : List (List (List Write))}
    (hSeq : d.nextSeq + (calls.map length).sum ≤ MAX_SAFE_INTEGER + 1) (hPromised : PromisedRun m calls) :
    Settled (m.run calls) (d.run calls) ∧ (d.run calls).nextSeq ≤ d.nextSeq + (calls.map length).sum := by
  induction calls generalizing m d with
  | nil => exact ⟨h, Nat.le_refl _⟩
  | cons batches rest ih =>
    rw [map_cons, sum_cons] at hSeq ⊢
    obtain ⟨hFirst, hRest⟩ := hPromised
    obtain ⟨hNext, -, -, hLast⟩ := h.commit (by omega) hFirst
    obtain ⟨hEnd, hEndSeq⟩ := ih hNext (by omega) hRest
    exact ⟨hEnd, by rw [Sqlite.run, foldl_cons] at *; omega⟩

theorem PromisedRun.append {first second : List (List (List Write))} :
    PromisedRun m (first ++ second) ↔ PromisedRun m first ∧ PromisedRun (m.run first) second := by
  induction first generalizing m with
  | nil => simp [PromisedRun, Memory.run]
  | cons batches rest ih =>
    rw [cons_append, PromisedRun, PromisedRun, ih, and_assoc]
    rfl

/-- Two calls: a fork with a document and its change, and a batch that uses an id
again, which both refuse. -/
def sampleCalls : List (List (List Write)) :=
  [[[.conversation { id := 2 }, .entry { id := 3, conversationId := 2 }],
    [.conversation { id := 4, parent := some { conversationId := 2, atEntry := 3 } },
      .submission { id := 5, conversationId := 4, requestId := some (js "first"), status := .queued },
      .documentCreate { id := 6, kind := js "notes", scope := .conversation 4 } 1 .null]],
    [[.documentChange 6 (.delta 1 [.r (.num (.ofNat 1))])], [.entry { id := 5, conversationId := 4 }]]]

/-- A conversation with a parent that is not stored. -/
def danglingCalls : List (List (List Write)) :=
  [[[.conversation { id := 2, parent := some { conversationId := 99, atEntry := 5 } }],
    [.conversation { id := 3 }, .entry { id := 10, conversationId := 3 }]]]

end OctoberHarness.Storage
