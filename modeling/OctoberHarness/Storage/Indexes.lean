import OctoberHarness.Storage.Reachable

/-! The indexes of the in-memory storage against its maps. -/
namespace OctoberHarness.Storage

open View SortedIds

/-- Ids in ascending order, of exactly the records with a property. -/
def Lists (ids : List Nat) (P : Nat → Prop) : Prop :=
  Increasing ids ∧ ∀ id, id ∈ ids ↔ P id

/-- Every index holds the ids that the maps imply. -/
structure Memory.Indexed (m : Memory) : Prop where
  conversationIds : Lists m.conversationIds fun id => m.conversations.lookup id ≠ none
  ownerConversations : ∀ owner, Lists (idsAt m.conversationIdsByOwnerConversation owner) fun id =>
    ∃ value, m.conversations.lookup id = some value ∧ value.owner.map Owner.conversationId = some owner
  ownerTasks : ∀ owner, Lists (idsAt m.conversationIdsByOwnerTask owner) fun id =>
    ∃ value, m.conversations.lookup id = some value ∧ value.owner.map Owner.taskId = some owner
  entryIds : ∀ conversationId, Lists (idsAt m.entryIds conversationId) fun id =>
    ∃ value, m.entries.lookup id = some value ∧ value.conversationId = conversationId
  headEntryIds : ∀ conversationId, Lists (idsAt m.headEntryIds conversationId) fun id =>
    ∃ value, m.entries.lookup id = some value ∧ value.conversationId = conversationId ∧ value.head ≠ none
  taskIds : Lists m.taskIds fun id => m.tasks.lookup id ≠ none
  taskIdsByStatus : ∀ status, Lists (idsAt m.taskIdsByStatus status) fun id =>
    ∃ value, m.tasks.lookup id = some value ∧ value.status = status
  submissionIds : Lists m.submissionIds fun id => m.submissions.lookup id ≠ none
  submissionIdsByStatus : ∀ status, Lists (idsAt m.submissionIdsByStatus status) fun id =>
    ∃ value, m.submissions.lookup id = some value ∧ value.status = status
  addressIds : ∀ address, Lists (m.addressIdsOf address) fun id =>
    ∃ state, m.documents.lookup id = some state ∧ state.record.address = address
  current : ∀ address id, m.currentOf address = some id ↔
    ∃ state, m.documents.lookup id = some state ∧ state.record.address = address ∧ state.record.retiredAt = none
  scopeIds : ∀ scope, Lists (idsAt m.documentIdsByScope (scopeKey scope)) fun id =>
    ∃ state, m.documents.lookup id = some state ∧ state.record.scope = scope

variable {α : Type} {ids : List Nat} {rows : List (Nat × α)}

theorem lists_select (hKeyed : Table.Keyed rows) (condition : α → Bool) (hIds : ids = Table.select condition rows) :
    Lists ids fun id => ∃ value, rows.lookup id = some value ∧ condition value = true := by
  rw [hIds]
  exact ⟨hKeyed.increasing_select condition, fun id => Table.mem_select hKeyed condition id⟩

theorem Lists.congr {P Q : Nat → Prop} (h : Lists ids P) (hSame : ∀ id, P id ↔ Q id) : Lists ids Q :=
  ⟨h.1, fun id => (h.2 id).trans (hSame id)⟩

theorem Copies.lists {map : List (Nat × α)} (h : Copies map rows) (hKeyed : Table.Keyed rows) (condition : α → Bool)
    (hIds : ids = Table.select condition rows) {P : α → Prop} (hCondition : ∀ value, condition value = true ↔ P value) :
    Lists ids fun id => ∃ value, map.lookup id = some value ∧ P value := by
  refine (lists_select hKeyed condition hIds).congr fun id => exists_congr fun value => ?_
  rw [h id, hCondition]

theorem Copies.lists_all {map : List (Nat × α)} (h : Copies map rows) (hKeyed : Table.Keyed rows) (hIds : ids = Table.select (fun _ => true) rows) : Lists ids fun id => map.lookup id ≠ none := by
  refine (lists_select hKeyed _ hIds).congr fun id => ?_
  rw [h id, ← Option.isSome_iff_ne_none, Option.isSome_iff_exists]
  simp

theorem Agree.indexed {m : Memory} {d : Sqlite} (h : Agree m d) : m.Indexed := by
  have hMirror := h.mirror
  have hKept := h.stored.kept
  have hEntries : ∀ id (P : EntryRecord → Prop), (∃ row, d.entries.lookup id = some row ∧ P row.entry) ↔
      ∃ value, m.entries.lookup id = some value ∧ P value := by
    intro id P
    rw [hMirror.entries]
    simp
  have hDocuments : ∀ id (P : DocumentRecord → Prop), (∃ record, d.documents.lookup id = some record ∧ P record) ↔
      ∃ state, m.documents.lookup id = some state ∧ P state.record := by
    intro id P
    rw [hMirror.documents]
    simp
  exact {
    conversationIds := hMirror.conversations.lists_all hKept.conversations.1 hMirror.conversationIds
    ownerConversations := fun owner =>
      hMirror.conversations.lists hKept.conversations.1 _ (hMirror.ownerConversations owner) (by simp)
    ownerTasks := fun owner =>
      hMirror.conversations.lists hKept.conversations.1 _ (hMirror.ownerTasks owner) (by simp)
    entryIds := fun conversationId => (lists_select hKept.entries.1 _ (hMirror.entryIds conversationId)).congr fun id => by
      rw [← hEntries id fun value => value.conversationId = conversationId]
      simp
    headEntryIds := fun conversationId =>
      (lists_select hKept.entries.1 _ (hMirror.headEntryIds conversationId)).congr fun id => by
        rw [← hEntries id fun value => value.conversationId = conversationId ∧ value.head ≠ none]
        simp [Option.isSome_iff_ne_none]
    taskIds := hMirror.tasks.lists_all hKept.tasks.1 hMirror.taskIds
    taskIdsByStatus := fun status =>
      hMirror.tasks.lists hKept.tasks.1 _ (hMirror.taskIdsByStatus status) (by simp [eq_comm])
    submissionIds := hMirror.submissions.lists_all hKept.submissions.1 hMirror.submissionIds
    submissionIdsByStatus := fun status =>
      hMirror.submissions.lists hKept.submissions.1 _ (hMirror.submissionIdsByStatus status) (by simp [eq_comm])
    addressIds := fun address => (lists_select hKept.documents.1 _ (hMirror.addressIds address)).congr fun id => by
      rw [← hDocuments id fun record => record.address = address]
      simp
    current := fun address id => by
      have hCurrent : m.currentOf address = (alive d address).head? := h.current address
      rw [hCurrent, ← hDocuments id fun record => record.address = address ∧ record.retiredAt = none,
        ← mem_alive hKept.documents.1]
      refine ⟨List.mem_of_head?, fun hMem => ?_⟩
      obtain ⟨record, hLookup, hAddress, hAlive⟩ := (mem_alive hKept.documents.1 address id).mp hMem
      rw [← hAddress]
      exact head_alive hKept hLookup hAlive
    scopeIds := fun scope => (lists_select hKept.documents.1 _ (hMirror.scopeIds scope)).congr fun id => by
      rw [← hDocuments id fun record => record.scope = scope]
      simp }

end OctoberHarness.Storage
