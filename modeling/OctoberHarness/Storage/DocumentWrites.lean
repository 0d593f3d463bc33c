import OctoberHarness.Storage.TableWrites

/-! Documents, created, changed and retired by both storages. Every action is
about one document; only the current incarnations of an address are settled by
all the actions of a batch together. -/
namespace OctoberHarness.Storage

open View SortedIds List Option OrderedMap

theorem ofNat_inj {a b : Nat} (h : JsNumber.ofNat a = JsNumber.ofNat b) : a = b := by
  have hNat := congrArg JsNumber.toNat? h
  simpa using hNat

theorem stringify_flat_inj {items items' : List JsonValue}
    (hFlat : ∀ x ∈ items ++ items', (∃ text, x = .str text) ∨ ∃ n, x = .num n)
    (h : (JsonValue.arr items).stringify = (JsonValue.arr items').stringify) : items = items' := by
  have hStrict : ∀ x ∈ items ++ items', x.Strict := by
    intro x hx
    rcases hFlat x hx with ⟨text, rfl⟩ | ⟨n, rfl⟩ <;> exact trivial
  refine JsonValue.arr.inj (JsonText.stringify_injective _ _ ?_ ?_ h)
  · exact (JsonValue.strict_arr _).mpr fun x hx => hStrict x (mem_append_left _ hx)
  · exact (JsonValue.strict_arr _).mpr fun x hx => hStrict x (mem_append_right _ hx)

theorem scopeKey_inj (a b : Scope) : scopeKey a = scopeKey b ↔ a = b := by
  refine ⟨fun h => ?_, fun h => h ▸ rfl⟩
  cases a with
  | session =>
    cases b with
    | session => rfl
    | conversation id => simpa using stringify_flat_inj (by simp) h
    | task id => simpa using stringify_flat_inj (by simp) h
  | conversation id =>
    cases b with
    | session => simpa using stringify_flat_inj (by simp) h
    | conversation id' =>
      have hItems := stringify_flat_inj (by simp) h
      simp only [cons.injEq, JsonValue.num.injEq, true_and, and_true] at hItems
      rw [ofNat_inj hItems]
    | task id' => simpa [js] using stringify_flat_inj (by simp) h
  | task id =>
    cases b with
    | session => simpa using stringify_flat_inj (by simp) h
    | conversation id' => simpa [js] using stringify_flat_inj (by simp) h
    | task id' =>
      have hItems := stringify_flat_inj (by simp) h
      simp only [cons.injEq, JsonValue.num.injEq, true_and, and_true] at hItems
      rw [ofNat_inj hItems]

theorem addressKey_strict (address : DocumentAddress) : (JsonValue.arr [.str address.kind, .str (scopeKey address.scope),
    match address.key with
    | none => .arr [.str (js "singleton")]
    | some key => .arr [.str (js "family"), .str key]]).Strict := by
  simp only [JsonValue.strict_arr, forall_mem_cons, not_mem_nil, false_implies, implies_true, and_true]
  refine ⟨trivial, trivial, ?_⟩
  cases address.key with
  | none => exact (JsonValue.strict_arr _).mpr (by simp [JsonValue.Strict])
  | some key => exact (JsonValue.strict_arr _).mpr (by simp [JsonValue.Strict])

theorem addressKey_inj (a b : DocumentAddress) : addressKey a = addressKey b ↔ a = b := by
  refine ⟨fun h => ?_, fun h => h ▸ rfl⟩
  obtain ⟨kind, scope, key⟩ := a
  obtain ⟨kind', scope', key'⟩ := b
  have hValue := JsonText.stringify_injective _ _ (addressKey_strict _) (addressKey_strict _) h
  simp only [JsonValue.arr.injEq, cons.injEq, JsonValue.str.injEq, scopeKey_inj, and_true] at hValue
  obtain ⟨rfl, rfl, hKey⟩ := hValue
  cases key <;> cases key' <;> simp_all [js]

/-- The record of a document after an action. -/
def recordAfter (seq : Nat) (action : Memory.DocumentAction) (existing : Option DocumentRecord) :
    Option DocumentRecord :=
  match action.create with
  | some create => some
      { toDocumentCreate := create, createdAt := seq, retiredAt := if action.retire then some seq else none }
  | none => existing.map fun record => if action.retire then { record with retiredAt := some seq } else record

/-- The revisions of a document after an action. -/
def revisionsAfter (seq : Nat) (action : Memory.DocumentAction) (record : DocumentCreate) (old : List Revision) :
    List Revision :=
  if action.retire ∧ isCurrentOnly record then []
  else
    match action.content with
    | none => old
    | some content => Memory.addRevision record old { content, seq }

/-- What the checks of a commit promise of one action: a new document has a free
id, and another one is stored and not retired. -/
def Fits (d : Sqlite) (id : Nat) (action : Memory.DocumentAction) : Prop :=
  match action.create with
  | some create => create.id = id ∧ d.recordIds.lookup id = none
  | none => ∃ record, d.documents.lookup id = some record ∧ record.retiredAt = none

variable (d : Sqlite) (seq id : Nat)

theorem revisions_deleteRevisions (other : Nat) :
    revisions (d.deleteRevisions id) other = if other = id then [] else revisions d other := by
  simp only [revisions, Sqlite.deleteRevisions, List.filter_filter]
  split_ifs with hOther
  · rw [map_eq_nil_iff, filter_eq_nil_iff]
    intro row _
    simp [hOther]
  · refine congrArg _ (filter_congr fun row _ => ?_)
    by_cases hRow : row.1 = other
    · simp [hRow, hOther]
    · simp [hRow]

variable (record : DocumentCreate) (content : Option DocumentContent)

theorem revisions_storeContent (other : Nat) : revisions (d.storeContent seq id record content) other =
      if other = id then
        match content with
        | none => revisions d id
        | some content => Memory.addRevision record (revisions d id) { content, seq }
      else revisions d other := by
  have hAppend : ∀ (d : Sqlite) revision, revisions { d with documentRevisions := d.documentRevisions ++ [(id, revision)] } other =
      if other = id then revisions d other ++ [revision] else revisions d other := by
    intro d revision
    simp only [revisions, filter_append, map_append]
    by_cases hOther : other = id
    · simp [hOther]
    · simp [hOther, Ne.symm hOther]
  cases content with
  | none =>
    rw [Sqlite.storeContent]
    split_ifs with hOther
    · rw [hOther]
    · rfl
  | some content =>
    cases content with
    | delta version ops =>
      simp only [Sqlite.storeContent, hAppend, Memory.addRevision]
      split_ifs with hOther
      · rw [hOther]
      · rfl
    | base version value =>
      simp only [Sqlite.storeContent, hAppend, Memory.addRevision]
      by_cases hOther : other = id <;> by_cases hCurrent : isCurrentOnly record = true <;>
        simp [hOther, hCurrent, revisions_deleteRevisions]

theorem Sqlite.storeContent_eq :
    ∃ rows, d.storeContent seq id record content = { d with documentRevisions := rows } := by
  cases content with
  | none => exact ⟨d.documentRevisions, rfl⟩
  | some content =>
    cases content with
    | delta version ops => exact ⟨_, rfl⟩
    | base version value =>
      simp only [Sqlite.storeContent]
      split_ifs
      · exact ⟨_, rfl⟩
      · exact ⟨_, rfl⟩

theorem Sqlite.storeContent_documents (documents : List (Nat × DocumentRecord)) :
    ({ d with documents } : Sqlite).storeContent seq id record content =
      { d.storeContent seq id record content with documents } := by
  cases content with
  | none => rfl
  | some content =>
    cases content with
    | delta version ops => rfl
    | base version value =>
      simp only [Sqlite.storeContent]
      split_ifs <;> rfl

/-- All that an action changes. -/
structure Effect (seq id : Nat) (action : Memory.DocumentAction) (d d' : Sqlite) : Prop where
  same : d' = { d with
    recordIds := d'.recordIds, documents := d'.documents, documentRevisions := d'.documentRevisions }
  keyedIds : Table.Keyed d'.recordIds
  recordIds : ∀ other, d'.recordIds.lookup other =
    if other = id ∧ action.create.isSome then some .document else d.recordIds.lookup other
  keyed : Table.Keyed d'.documents
  documents : ∀ other, d'.documents.lookup other =
    if other = id then recordAfter seq action (d.documents.lookup id) else d.documents.lookup other
  revisions : ∀ other record, recordAfter seq action (d.documents.lookup id) = some record →
    View.revisions d' other =
      if other = id then revisionsAfter seq action record.toDocumentCreate (View.revisions d id)
      else View.revisions d other

theorem revisions_retire (action : Memory.DocumentAction) (other : Nat) :
    View.revisions (if action.retire = true ∧ isCurrentOnly record = true
      then (d.storeContent seq id record action.content).deleteRevisions id
      else d.storeContent seq id record action.content) other =
      if other = id then revisionsAfter seq action record (View.revisions d id) else View.revisions d other := by
  rw [revisionsAfter]
  split_ifs with hGone hOther hOther
  · rw [revisions_deleteRevisions, if_pos hOther]
  · rw [revisions_deleteRevisions, if_neg hOther, revisions_storeContent, if_neg hOther]
  · rw [revisions_storeContent, if_pos hOther]
  · rw [revisions_storeContent, if_neg hOther]

/-- The content of an action, stored after its record. -/
def Sqlite.finish (d : Sqlite) (seq id : Nat) (record : DocumentCreate) (action : Memory.DocumentAction) : Sqlite :=
  if action.retire = true ∧ isCurrentOnly record = true
  then (d.storeContent seq id record action.content).deleteRevisions id
  else d.storeContent seq id record action.content

theorem Sqlite.finish_eq (action : Memory.DocumentAction) :
    ∃ rows, d.finish seq id record action = { d with documentRevisions := rows } := by
  obtain ⟨rows, hRows⟩ := d.storeContent_eq seq id record action.content
  rw [Sqlite.finish, hRows]
  split_ifs
  · exact ⟨_, rfl⟩
  · exact ⟨_, rfl⟩

variable {action : Memory.DocumentAction} {record : DocumentRecord} {id : Nat}

theorem Sqlite.applyDocumentAction_create {create : DocumentCreate} (hCreate : action.create = some create)
    (seq : Nat) (hRecord : recordAfter seq action (d.documents.lookup id) = some record) :
    Sqlite.applyDocumentAction seq d (id, action) =
      ({ d with
        recordIds := claimed d.recordIds id .document
        documents := Table.put id record d.documents } : Sqlite).finish seq id record.toDocumentCreate action := by
  simp only [recordAfter, hCreate, some.injEq] at hRecord
  simp only [Sqlite.applyDocumentAction, hCreate, Sqlite.claimId_eq, Sqlite.finish, ← hRecord]
  cases action.retire <;> simp

theorem Sqlite.applyDocumentAction_existing (hCreate : action.create = none) (seq : Nat) {existing : DocumentRecord}
    (hExisting : d.documents.lookup id = some existing) (hRecord : recordAfter seq action (d.documents.lookup id) = some record)
    :
    Sqlite.applyDocumentAction seq d (id, action) =
      ({ d with documents := if action.retire then Table.put id record d.documents else d.documents } : Sqlite).finish
        seq id record.toDocumentCreate action := by
  simp only [recordAfter, hCreate, hExisting, map_some, some.injEq] at hRecord
  simp only [Sqlite.applyDocumentAction, hCreate, hExisting, map_some, Sqlite.finish, ← hRecord]
  cases hRetire : action.retire with
  | false => simp
  | true =>
    have hSame : (d.storeContent seq id existing.toDocumentCreate action.content).documents = d.documents := by
      obtain ⟨rows, hRows⟩ := d.storeContent_eq seq id existing.toDocumentCreate action.content
      rw [hRows]
    simp only [if_true, isNone_none, true_and, Sqlite.storeContent_documents, hSame]

/-- What one action does to the tables. -/
theorem Sqlite.effect {d : Sqlite} (hKeyed : Table.Keyed d.documents) (hIds : Table.Keyed d.recordIds)
    (hFits : Fits d id action) (seq : Nat) :
    Effect seq id action d (Sqlite.applyDocumentAction seq d (id, action)) := by
  rw [Fits] at hFits
  cases hCreate : action.create with
  | some create =>
    rw [hCreate] at hFits
    obtain ⟨record, hRecord⟩ : ∃ record, recordAfter seq action (d.documents.lookup id) = some record := by
      rw [recordAfter, hCreate]
      exact ⟨_, rfl⟩
    have hClaim : d.recordIds.lookup id = none ∨ d.recordIds.lookup id = some .document := Or.inl hFits.2
    rw [d.applyDocumentAction_create hCreate seq hRecord]
    obtain ⟨rows, hRows⟩ := ({ d with
      recordIds := claimed d.recordIds id .document
      documents := Table.put id record d.documents } : Sqlite).finish_eq seq id record.toDocumentCreate action
    refine ⟨by rw [hRows], by rw [hRows]; exact keyed_claimed hIds id .document, ?_, by rw [hRows]; exact hKeyed.put id record,
      ?_, ?_⟩
    · intro other
      rw [hRows, lookup_claimed hIds hClaim]
      simp [hCreate]
    · intro other
      rw [hRows, Table.lookup_put hKeyed, hRecord]
    · intro other found hFound
      rw [hRecord, some.injEq] at hFound
      rw [Sqlite.finish, revisions_retire, hFound]
      rfl
  | none =>
    rw [hCreate] at hFits
    obtain ⟨existing, hExisting, -⟩ := hFits
    obtain ⟨record, hRecord⟩ : ∃ record, recordAfter seq action (d.documents.lookup id) = some record := by
      rw [recordAfter, hCreate, hExisting]
      exact ⟨_, rfl⟩
    have hLookup : ∀ other, (if action.retire then Table.put id record d.documents else d.documents).lookup other =
        if other = id then some record else d.documents.lookup other := by
      intro other
      split_ifs with hRetire hOther hOther
      · rw [Table.lookup_put hKeyed, if_pos hOther]
      · rw [Table.lookup_put hKeyed, if_neg hOther]
      · rw [hOther, ← hRecord, recordAfter, hCreate]
        simp [hRetire]
      · rfl
    rw [d.applyDocumentAction_existing hCreate seq hExisting hRecord]
    obtain ⟨rows, hRows⟩ := ({ d with
      documents := if action.retire then Table.put id record d.documents else d.documents } : Sqlite).finish_eq seq id
        record.toDocumentCreate action
    refine ⟨by rw [hRows], by rw [hRows]; exact hIds, ?_, ?_, ?_, ?_⟩
    · intro other
      rw [hRows]
      simp [hCreate]
    · rw [hRows]
      simp only
      split_ifs
      · exact hKeyed.put id record
      · exact hKeyed
    · intro other
      rw [hRows, hRecord]
      exact hLookup other
    · intro other found hFound
      rw [hRecord, some.injEq] at hFound
      rw [Sqlite.finish, revisions_retire, hFound]
      rfl

/-! The same action in memory. -/

namespace Memory

def addressIdsOf (m : Memory) (address : DocumentAddress) : List Nat :=
  ((m.documentAddresses.lookup (addressKey address)).map AddressIndex.ids).getD []

/-- The current incarnation of an address. -/
def currentOf (m : Memory) (address : DocumentAddress) : Option Nat :=
  (m.documentAddresses.lookup (addressKey address)).bind AddressIndex.currentId

/-- The current incarnation of the address of an action after it. -/
def currentAfter (id : Nat) (action : DocumentAction) (current : Option Nat) : Option Nat :=
  if action.create.isSome ∧ action.retire = false then some id
  else if action.retire ∧ current = some id then none
  else current

/-- All that an action changes. -/
structure Effect (seq id : Nat) (action : DocumentAction) (record : DocumentRecord) (old : List Revision)
    (m m' : Memory) : Prop where
  same : m' = { m with
    recordTypes := m'.recordTypes, documents := m'.documents, documentAddresses := m'.documentAddresses
    documentIdsByScope := m'.documentIdsByScope, nextId := m'.nextId }
  recordTypes : ∀ other, m'.recordTypes.lookup other =
    if other = id ∧ action.create.isSome then some .document else m.recordTypes.lookup other
  documents : ∀ other, m'.documents.lookup other =
    if other = id then some { record, revisions := revisionsAfter seq action record.toDocumentCreate old }
    else m.documents.lookup other
  addressIds : ∀ address, m'.addressIdsOf address =
    if address = record.address ∧ action.create.isSome then insertSorted (m.addressIdsOf address) id
    else m.addressIdsOf address
  current : ∀ address, m'.currentOf address =
    if address = record.address then currentAfter id action (m.currentOf address) else m.currentOf address
  scopeIds : ∀ scope, idsAt m'.documentIdsByScope (scopeKey scope) =
    if scope = record.scope ∧ action.create.isSome then insertSorted (idsAt m.documentIdsByScope (scopeKey scope)) id
    else idsAt m.documentIdsByScope (scopeKey scope)

variable (m : Memory)

theorem getD_ids (address : DocumentAddress) :
    ((m.documentAddresses.lookup (addressKey address)).getD {}).ids = m.addressIdsOf address := by
  rw [addressIdsOf]
  cases m.documentAddresses.lookup (addressKey address) <;> rfl

theorem getD_currentId (address : DocumentAddress) :
    ((m.documentAddresses.lookup (addressKey address)).getD {}).currentId = m.currentOf address := by
  rw [currentOf]
  cases m.documentAddresses.lookup (addressKey address) <;> rfl

theorem setCurrent_addressIds (id : Nat) (record : DocumentCreate) (created retire : Bool)
    (address : DocumentAddress) : (m.setCurrent id record created retire).addressIdsOf address = m.addressIdsOf address := by
  rw [addressIdsOf, setCurrent]
  simp only [lookup_set, addressKey_inj]
  by_cases hAddress : address = record.address
  · rw [if_pos hAddress, hAddress]
    exact m.getD_ids record.address
  · rw [if_neg hAddress]
    rfl

theorem setCurrent_current (id : Nat) (record : DocumentCreate) (action : DocumentAction) (address : DocumentAddress) :
    (m.setCurrent id record action.create.isSome action.retire).currentOf address =
      if address = record.address then currentAfter id action (m.currentOf address) else m.currentOf address := by
  rw [currentOf, setCurrent]
  simp only [lookup_set, addressKey_inj]
  by_cases hAddress : address = record.address
  · rw [if_pos hAddress, if_pos hAddress, hAddress, currentAfter]
    simp only [bind_some, getD_currentId]
  · rw [if_neg hAddress, if_neg hAddress]
    rfl

theorem settleAction_effect {m : Memory} {seq id : Nat} {action : DocumentAction} {stored : DocumentState}
    {record : DocumentRecord} (hRecord : record =
      if action.retire ∧ action.create.isNone then { stored.record with retiredAt := some seq } else stored.record) :
    ∃ documents addresses, m.settleAction seq id action stored =
        { m with documents, documentAddresses := addresses } ∧
      (∀ other, documents.lookup other = if other = id then some
        { record, revisions := if action.retire ∧ isCurrentOnly record.toDocumentCreate then [] else stored.revisions }
        else m.documents.lookup other) ∧
      (∀ address, (m.settleAction seq id action stored).addressIdsOf address = m.addressIdsOf address) ∧
      ∀ address, (m.settleAction seq id action stored).currentOf address =
        if address = record.address then currentAfter id action (m.currentOf address) else m.currentOf address := by
  rw [settleAction, ← hRecord]
  by_cases hAddress : action.create.isSome = true ∨ action.retire = true
  · rw [if_pos hAddress]
    exact ⟨_, _, rfl, lookup_set _ _ _, setCurrent_addressIds _ _ _ _ _, setCurrent_current _ _ _ _⟩
  · rw [if_neg hAddress]
    refine ⟨_, m.documentAddresses, rfl, lookup_set _ _ _, fun _ => rfl, fun address => ?_⟩
    rw [not_or] at hAddress
    have hSame : currentAfter id action (m.currentOf address) = m.currentOf address := by
      simp [currentAfter, hAddress.1, hAddress.2]
    rw [hSame]
    exact (ite_self _).symm

theorem effect_create {id : Nat} {action : DocumentAction} {create : DocumentCreate} (hCreate : action.create = some create)
    (seq : Nat) (hRecord : recordAfter seq action none = some record) :
    Effect seq id action record [] m (applyDocumentAction seq m (id, action)) := by
  simp only [recordAfter, hCreate, some.injEq] at hRecord
  have hStored : (m.storeAction seq id action).documents.lookup id = some
      { record, revisions := (action.content.map fun content => ({ content, seq } : Revision)).toList } := by
    simp only [storeAction, hCreate, createDocument, lookup_set_self, hRecord]
  have hStep : applyDocumentAction seq m (id, action) = (m.storeAction seq id action).settleAction seq id action
      { record, revisions := (action.content.map fun content => ({ content, seq } : Revision)).toList } := by
    simp only [applyDocumentAction, hStored]
  obtain ⟨documents, addresses, hSettle, hDocuments, hIds, hCurrent⟩ :=
    @settleAction_effect (m.storeAction seq id action) seq id action
      { record, revisions := (action.content.map fun content => ({ content, seq } : Revision)).toList } record
      (by simp [hCreate])
  have hAddress : record.address = create.address := by rw [← hRecord]
  have hScope : record.scope = create.scope := by rw [← hRecord]
  refine ⟨?_, ?_, ?_, ?_, ?_, ?_⟩
  · rw [hStep, hSettle]
    simp only [storeAction, hCreate, createDocument]
  · intro other
    rw [hStep, hSettle]
    simp only [storeAction, hCreate, createDocument, lookup_set, isSome_some, and_true]
  · intro other
    rw [hStep, hSettle]
    simp only
    rw [hDocuments, revisionsAfter]
    split_ifs with hOther hGone
    · rfl
    · cases action.content with
      | none => rfl
      | some content => cases content <;> simp [addRevision]
    · simp only [storeAction, hCreate, createDocument, lookup_set, if_neg hOther]
  · intro address
    rw [hStep, hIds, addressIdsOf]
    simp only [storeAction, hCreate, createDocument, lookup_set, addressKey_inj, isSome_some, and_true,
      hAddress]
    split_ifs with hSame
    · rw [hSame, ← getD_ids]
      rfl
    · rfl
  · intro address
    have hStart : (m.storeAction seq id action).currentOf address = m.currentOf address := by
      rw [currentOf]
      simp only [storeAction, hCreate, createDocument, lookup_set, addressKey_inj]
      split_ifs with hSame
      · rw [hSame, ← getD_currentId]
        rfl
      · rfl
    rw [hStep, hCurrent, hStart]
  · intro scope
    rw [hStep, hSettle]
    simp only [storeAction, hCreate, createDocument, insertMapId, idsAt_set, scopeKey_inj, isSome_some, and_true,
      hScope]
    split_ifs with hSame
    · rw [hSame]
    · rfl

theorem effect_existing {id : Nat} {action : DocumentAction} (hCreate : action.create = none) (seq : Nat)
    {existing : DocumentState} (hExisting : m.documents.lookup id = some existing)
    (hRecord : recordAfter seq action (some existing.record) = some record) :
    Effect seq id action record existing.revisions m (applyDocumentAction seq m (id, action)) := by
  simp only [recordAfter, hCreate, map_some, some.injEq] at hRecord
  obtain ⟨stored, documents, hStart, hStored, hLookup, hSame, hRevisions⟩ : ∃ stored documents,
      m.storeAction seq id action = { m with documents } ∧ documents.lookup id = some stored ∧
      (∀ other, other ≠ id → documents.lookup other = m.documents.lookup other) ∧ stored.record = existing.record ∧
      stored.revisions = match action.content with
        | none => existing.revisions
        | some content => addRevision existing.record.toDocumentCreate existing.revisions { content, seq } := by
    rw [storeAction, hCreate]
    cases action.content with
    | none => exact ⟨existing, m.documents, rfl, hExisting, fun _ _ => rfl, rfl, rfl⟩
    | some content =>
      simp only [hExisting]
      exact ⟨_, _, rfl, lookup_set_self _ _ _, fun other hOther => lookup_set_of_ne _ _ hOther,
        rfl, rfl⟩
  have hStep : applyDocumentAction seq m (id, action) =
      ({ m with documents } : Memory).settleAction seq id action stored := by
    simp only [applyDocumentAction, hStart, hStored]
  have hAfter : record = if action.retire ∧ action.create.isNone then { stored.record with retiredAt := some seq }
      else stored.record := by
    rw [← hRecord, hSame]
    simp [hCreate]
  have hCreateEq : existing.record.toDocumentCreate = record.toDocumentCreate := by
    rw [← hRecord]
    split_ifs <;> rfl
  obtain ⟨documents', addresses, hSettle, hDocuments, hIds, hCurrent⟩ :=
    @settleAction_effect { m with documents } seq id action stored record hAfter
  refine ⟨?_, ?_, ?_, ?_, ?_, ?_⟩
  · rw [hStep, hSettle]
  · intro other
    rw [hStep, hSettle]
    simp [hCreate]
  · intro other
    rw [hStep, hSettle]
    simp only
    rw [hDocuments, revisionsAfter, hRevisions, hCreateEq]
    split_ifs with hOther hGone
    · rfl
    · rfl
    · exact hLookup other hOther
  · intro address
    rw [hStep, hIds, hCreate]
    simp [addressIdsOf]
  · intro address
    rw [hStep, hCurrent]
    rfl
  · intro scope
    rw [hStep, hSettle, hCreate]
    simp

end Memory

end OctoberHarness.Storage
