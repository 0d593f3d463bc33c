import OctoberHarness.Storage.Reachable

/-! What an accepted batch changes in the tables, record by record. -/
namespace OctoberHarness.Storage

open View List

/-! One value before and after. -/

/-- A value that stays, or comes new with a property. -/
def Grows {α : Type} (P : α → Prop) (old new : Option α) : Prop :=
  new = old ∨ old = none ∧ ∃ value, new = some value ∧ P value

/-- A value that stays, or is replaced by one with a property. -/
def Moves {α : Type} (P : α → Prop) (old new : Option α) : Prop :=
  new = old ∨ ∃ value, new = some value ∧ P value

variable {α : Type} {P Q : α → Prop} {writes : List Write} {d : Sqlite}

theorem Grows.trans {R : α → Prop} (hP : ∀ value, P value → R value) (hQ : ∀ value, Q value → R value)
    {a b c : Option α} (hFirst : Grows P a b) (hSecond : Grows Q b c) : Grows R a c := by
  rcases hFirst with rfl | ⟨hNone, value, hNew, hValue⟩
  · exact hSecond.imp_right fun ⟨hNone, value, hNew, hValue⟩ => ⟨hNone, value, hNew, hQ value hValue⟩
  · rcases hSecond with rfl | ⟨hNext, -⟩
    · exact Or.inr ⟨hNone, value, hNew, hP value hValue⟩
    · rw [hNew] at hNext
      exact absurd hNext (Option.some_ne_none _)

theorem Moves.trans {R : α → Prop} (hP : ∀ value, P value → R value) (hQ : ∀ value, Q value → R value)
    {a b c : Option α} (hFirst : Moves P a b) (hSecond : Moves Q b c) : Moves R a c := by
  rcases hSecond with rfl | ⟨value, hNew, hValue⟩
  · exact hFirst.imp_right fun ⟨value, hNew, hValue⟩ => ⟨value, hNew, hP value hValue⟩
  · exact Or.inr ⟨value, hNew, hQ value hValue⟩

variable {rows : List (Nat × α)}

theorem grows_put (hKeyed : Table.Keyed rows) {key : Nat} (hNew : rows.lookup key = none)
    (value : α) {P : Nat → α → Prop} (hP : P key value) (id : Nat) :
    Grows (P id) (rows.lookup id) ((Table.put key value rows).lookup id) := by
  rw [Table.lookup_put hKeyed]
  split_ifs with hId
  · rw [hId]
    exact Or.inr ⟨hNew, value, rfl, hP⟩
  · exact Or.inl rfl

theorem moves_put (hKeyed : Table.Keyed rows) {key : Nat} (value : α) {P : Nat → α → Prop} (hP : P key value) (id : Nat) :
    Moves (P id) (rows.lookup id) ((Table.put key value rows).lookup id) := by
  rw [Table.lookup_put hKeyed]
  split_ifs with hId
  · rw [hId]
    exact Or.inr ⟨value, rfl, hP⟩
  · exact Or.inl rfl

theorem Moves.found {old new : Option α} (h : Moves P old new)
    (hOld : ∃ value, old = some value ∧ Q value) (hPQ : ∀ value, P value → Q value) : ∃ value, new = some value ∧ Q value := by
  rcases h with rfl | ⟨value, hNew, hValue⟩
  · exact hOld
  · exact ⟨value, hNew, hPQ value hValue⟩

theorem Grows.kept {old new : Option α} (h : Grows P old new) (hOld : old ≠ none) : new ≠ none := by
  rcases h with rfl | ⟨hNone, -⟩
  · exact hOld
  · exact absurd hNone hOld

/-- The records of a batch in the tables. -/
structure Written (seq : Nat) (writes : List Write) (d d' : Sqlite) : Prop where
  conversations : ∀ id, Grows (fun value => value.id = id ∧ Write.conversation value ∈ writes)
    (d.conversations.lookup id) (d'.conversations.lookup id)
  entries : ∀ id, Grows (fun row => row.entry.id = id ∧ row.commitSeq = seq ∧ Write.entry row.entry ∈ writes)
    (d.entries.lookup id) (d'.entries.lookup id)
  tasks : ∀ id, Moves (fun value => value.id = id ∧ Write.task value ∈ writes)
    (d.tasks.lookup id) (d'.tasks.lookup id)
  submissions : ∀ id, Moves (fun value => value.id = id ∧ Write.submission value ∈ writes)
    (d.submissions.lookup id) (d'.submissions.lookup id)
  documents : d'.documents = d.documents
  documentRevisions : d'.documentRevisions = d.documentRevisions
  putConversation : ∀ value, Write.conversation value ∈ writes → d'.conversations.lookup value.id ≠ none
  putTask : ∀ value, Write.task value ∈ writes → ∃ value', d'.tasks.lookup value.id = some value' ∧ Write.task value' ∈ writes

theorem Written.refl (seq : Nat) (d : Sqlite)
    (hNone : ∀ write ∈ writes, Memory.documentOf write ≠ none) : Written seq writes d d where
  conversations _ := Or.inl rfl
  entries _ := Or.inl rfl
  tasks _ := Or.inl rfl
  submissions _ := Or.inl rfl
  documents := rfl
  documentRevisions := rfl
  putConversation _ hMem := absurd rfl (hNone _ hMem)
  putTask _ hMem := absurd rfl (hNone _ hMem)

theorem Written.trans {seq : Nat} {first second : List Write} {a b c : Sqlite} (h : Written seq first a b)
    (h' : Written seq second b c) : Written seq (first ++ second) a c where
  conversations id := (h.conversations id).trans (fun _ hValue => ⟨hValue.1, mem_append_left _ hValue.2⟩)
    (fun _ hValue => ⟨hValue.1, mem_append_right _ hValue.2⟩) (h'.conversations id)
  entries id := (h.entries id).trans (fun _ hValue => ⟨hValue.1, hValue.2.1, mem_append_left _ hValue.2.2⟩)
    (fun _ hValue => ⟨hValue.1, hValue.2.1, mem_append_right _ hValue.2.2⟩) (h'.entries id)
  tasks id := (h.tasks id).trans (fun _ hValue => ⟨hValue.1, mem_append_left _ hValue.2⟩)
    (fun _ hValue => ⟨hValue.1, mem_append_right _ hValue.2⟩) (h'.tasks id)
  submissions id := (h.submissions id).trans (fun _ hValue => ⟨hValue.1, mem_append_left _ hValue.2⟩)
    (fun _ hValue => ⟨hValue.1, mem_append_right _ hValue.2⟩) (h'.submissions id)
  documents := h'.documents.trans h.documents
  documentRevisions := h'.documentRevisions.trans h.documentRevisions
  putConversation value hMem := by
    rcases List.mem_append.mp hMem with hFirst | hSecond
    · exact (h'.conversations value.id).kept (h.putConversation value hFirst)
    · exact h'.putConversation value hSecond
  putTask value hMem := by
    rcases List.mem_append.mp hMem with hFirst | hSecond
    · obtain ⟨value', hLookup, hWrite⟩ := h.putTask value hFirst
      exact (h'.tasks value.id).found ⟨value', hLookup, mem_append_left _ hWrite⟩
        fun _ hValue => mem_append_right _ hValue.2
    · obtain ⟨value', hLookup, hWrite⟩ := h'.putTask value hSecond
      exact ⟨value', hLookup, mem_append_right _ hWrite⟩

theorem Stored.written (h : Stored d) (seq : Nat) {write : Write} (hAllowed : Allowed d write) :
    Written seq [write] d (d.applyTableWrite seq write) := by
  have hSame : ∀ {α : Type} (P : α → Prop) (value : Option α), Grows P value value := fun _ _ => Or.inl rfl
  have hStays : ∀ {α : Type} (P : α → Prop) (value : Option α), Moves P value value := fun _ _ => Or.inl rfl
  cases write with
  | conversation value =>
    simp only [Sqlite.applyTableWrite, Sqlite.claimId_eq]
    refine ⟨grows_put h.kept.conversations.1 (lookup_none_of_free h.filed.conversations hAllowed) value
      ⟨rfl, mem_singleton_self _⟩, fun _ => hSame _ _, fun _ => hStays _ _, fun _ => hStays _ _, rfl, rfl,
      fun found hFound => ?_, by simp⟩
    obtain rfl := Write.conversation.inj (List.mem_singleton.mp hFound)
    rw [Table.lookup_put h.kept.conversations.1, if_pos rfl]
    exact Option.some_ne_none _
  | entry value =>
    simp only [Sqlite.applyTableWrite, Sqlite.claimId_eq]
    exact ⟨fun _ => hSame _ _, grows_put h.kept.entries.1 (lookup_none_of_free h.filed.entries hAllowed) _
      ⟨rfl, rfl, mem_singleton_self _⟩, fun _ => hStays _ _, fun _ => hStays _ _, rfl, rfl, by simp, by simp⟩
  | task value =>
    simp only [Sqlite.applyTableWrite, Sqlite.claimId_eq]
    refine ⟨fun _ => hSame _ _, fun _ => hSame _ _, moves_put h.kept.tasks.1 value ⟨rfl, mem_singleton_self _⟩,
      fun _ => hStays _ _, rfl, rfl, by simp, fun found hFound => ?_⟩
    obtain rfl := Write.task.inj (List.mem_singleton.mp hFound)
    exact ⟨found, by rw [Table.lookup_put h.kept.tasks.1, if_pos rfl], mem_singleton_self _⟩
  | submission value =>
    simp only [Sqlite.applyTableWrite, Sqlite.claimId_eq]
    exact ⟨fun _ => hSame _ _, fun _ => hSame _ _, fun _ => hStays _ _,
      moves_put h.kept.submissions.1 value ⟨rfl, mem_singleton_self _⟩, rfl, rfl, by simp, by simp⟩
  | documentCreate record version value => exact .refl _ _ (by simp [Memory.documentOf])
  | documentCopy record source => exact .refl _ _ (by simp [Memory.documentOf])
  | documentChange id content => exact .refl _ _ (by simp [Memory.documentOf])
  | documentRetire id => exact .refl _ _ (by simp [Memory.documentOf])

theorem Stored.writtenRun {m : Memory} (hMirror : Mirror m d) (h : Stored d) (seq : Nat) (hAllowed : AllowedRun seq d writes) :
    Written seq writes d (writes.foldl (fun d write => d.applyTableWrite seq write) d) := by
  induction writes generalizing m d with
  | nil => exact .refl _ _ (by simp)
  | cons write rest ih =>
    obtain ⟨hFirst, hRest⟩ := hAllowed
    obtain ⟨hNextMirror, hNextStored⟩ := hMirror.write h seq hFirst
    exact (h.written seq hFirst).trans (ih hNextMirror hNextStored hRest)

/-- The documents of a batch after its actions. -/
structure Settles (seq : Nat) (actions : Memory.DocumentActions) (d d' : Sqlite) : Prop where
  kept : ∀ id, actions.lookup id = none →
    d'.documents.lookup id = d.documents.lookup id ∧ revisions d' id = revisions d id
  changed : ∀ id action, actions.lookup id = some action → ∃ record,
    recordAfter seq action (d.documents.lookup id) = some record ∧ d'.documents.lookup id = some record ∧
      revisions d' id = revisionsAfter seq action record.toDocumentCreate (revisions d id)

theorem actions_same (seq : Nat) (actions : Memory.DocumentActions) (hBetween : Between d)
    (hDistinct : (actions.map Prod.fst).Nodup) (hFits : ∀ entry ∈ actions, Fits d entry.1 entry.2) :
    Settles seq actions d (actions.foldl (Sqlite.applyDocumentAction seq) d) ∧
      ∃ ids rows revisionRows, actions.foldl (Sqlite.applyDocumentAction seq) d =
        { d with recordIds := ids, documents := rows, documentRevisions := revisionRows } := by
  induction actions generalizing d with
  | nil => exact ⟨⟨fun _ _ => ⟨rfl, rfl⟩, fun _ _ h => by simp at h⟩, _, _, _, rfl⟩
  | cons entry rest ih =>
    obtain ⟨x, action⟩ := entry
    rw [map_cons, nodup_cons] at hDistinct
    obtain ⟨hFirst, hRest⟩ := List.forall_mem_cons.mp hFits
    obtain ⟨record, hAfter⟩ := recordAfter_some hFirst seq
    have hEffect := Sqlite.effect hBetween.documents.1 hBetween.keyedIds hFirst seq
    have hOther : ∀ entry ∈ rest, entry.1 ≠ x := fun entry hMem hSame =>
      hDistinct.1 (List.mem_map.mpr ⟨entry, hMem, hSame⟩)
    rw [foldl_cons]
    generalize Sqlite.applyDocumentAction seq d (x, action) = next at hEffect
    have hNext := Between.turn hBetween hFirst hAfter hEffect
    have hFitsNext : ∀ entry ∈ rest, Fits next entry.1 entry.2 := by
      intro entry hMem
      have hEntry := hRest entry hMem
      rw [Fits] at hEntry ⊢
      rw [hEffect.recordIds, if_neg fun hSame => hOther entry hMem hSame.1, hEffect.documents,
        if_neg (hOther entry hMem)]
      exact hEntry
    obtain ⟨hSettles, ids, rows, revisionRows, hSame⟩ := ih hNext hDistinct.2 hFitsNext
    refine ⟨⟨fun id hNone => ?_, fun id found hFound => ?_⟩, ids, rows, revisionRows, ?_⟩
    · rw [OrderedMap.lookup_cons] at hNone
      by_cases hId : id = x
      · simp [hId] at hNone
      · rw [if_neg hId] at hNone
        obtain ⟨hDocument, hRevisions⟩ := hSettles.kept id hNone
        rw [hDocument, hRevisions, hEffect.documents, if_neg hId, hEffect.revisions id record hAfter, if_neg hId]
        exact ⟨rfl, rfl⟩
    · rw [OrderedMap.lookup_cons] at hFound
      by_cases hId : id = x
      · -- the document of this turn: no later action is about it
        obtain rfl : action = found := by simpa [hId] using hFound
        have hNone : rest.lookup id = none := by
          rw [OrderedMap.lookup_eq_none_iff, hId]
          exact hDistinct.1
        obtain ⟨hDocument, hRevisions⟩ := hSettles.kept id hNone
        refine ⟨record, hId ▸ hAfter, ?_, ?_⟩
        · rw [hDocument, hEffect.documents, if_pos hId, hAfter]
        · rw [hRevisions, hEffect.revisions id record hAfter, if_pos hId, hId]
      · rw [if_neg hId] at hFound
        obtain ⟨after, hRecord, hDocument, hRevisions⟩ := hSettles.changed id found hFound
        rw [hEffect.documents, if_neg hId] at hRecord
        rw [hEffect.revisions id record hAfter, if_neg hId] at hRevisions
        exact ⟨after, hRecord, hDocument, hRevisions⟩
    · rw [hSame, hEffect.same]

/-- All that an accepted batch changes. -/
structure BatchEffect (writes : List Write) (actions : Memory.DocumentActions) (d d' : Sqlite) : Prop where
  conversations : ∀ id, Grows (fun value => value.id = id ∧ Write.conversation value ∈ writes)
    (d.conversations.lookup id) (d'.conversations.lookup id)
  entries : ∀ id, Grows (fun row => row.entry.id = id ∧ row.commitSeq = d.nextSeq ∧ Write.entry row.entry ∈ writes)
    (d.entries.lookup id) (d'.entries.lookup id)
  tasks : ∀ id, Moves (fun value => value.id = id ∧ Write.task value ∈ writes)
    (d.tasks.lookup id) (d'.tasks.lookup id)
  submissions : ∀ id, Moves (fun value => value.id = id ∧ Write.submission value ∈ writes)
    (d.submissions.lookup id) (d'.submissions.lookup id)
  settles : Settles d.nextSeq actions d d'
  nextSeq : d'.nextSeq = d.nextSeq + 1
  putConversation : ∀ value, Write.conversation value ∈ writes → d'.conversations.lookup value.id ≠ none
  putTask : ∀ value, Write.task value ∈ writes → ∃ value', d'.tasks.lookup value.id = some value' ∧ Write.task value' ∈ writes

theorem Agree.effect {m : Memory} (h : Agree m d) {actions : Sqlite.DocumentActions} (hPasses : Passes m d writes actions) :
    BatchEffect writes (resolvedActions d actions) d (d.applyBatch writes (resolvedActions d actions)) := by
  have hStart : ClaimedSoFar d.recordIds [] d.recordIds := fun _ => rfl
  obtain ⟨hAllowed, -⟩ := h.mirror.allowedRun h.stored hStart d.nextSeq hPasses.ids
  have hWritten := Stored.writtenRun h.mirror h.stored d.nextSeq hAllowed
  obtain ⟨-, hStored⟩ := h.mirror.writes h.stored d.nextSeq hAllowed
  have hFits := h.fits hPasses
  rw [Sqlite.applyBatch]
  generalize writes.foldl (fun d' write => d'.applyTableWrite d.nextSeq write) d = tables at hWritten hStored hFits
  obtain ⟨hSettles, ids, rows, revisionRows, hSame⟩ := actions_same d.nextSeq (resolvedActions d actions)
    ⟨hStored.filed.ids, hStored.kept.documents, hStored.filed.documents, hStored.kept.owned⟩ hFits.1 hFits.2
  have hRevisions : ∀ id, revisions tables id = revisions d id := fun id => by
    rw [revisions, revisions, hWritten.documentRevisions]
  refine ⟨?_, ?_, ?_, ?_, ⟨fun id hNone => ?_, fun id action hFound => ?_⟩, rfl, ?_, ?_⟩
  · rw [hSame]
    exact hWritten.conversations
  · rw [hSame]
    exact hWritten.entries
  · rw [hSame]
    exact hWritten.tasks
  · rw [hSame]
    exact hWritten.submissions
  · obtain ⟨hDocument, hOld⟩ := hSettles.kept id hNone
    exact ⟨hDocument.trans (by rw [hWritten.documents]), hOld.trans (hRevisions id)⟩
  · obtain ⟨record, hRecord, hDocument, hNew⟩ := hSettles.changed id action hFound
    rw [hWritten.documents] at hRecord
    rw [hRevisions] at hNew
    exact ⟨record, hRecord, hDocument, hNew⟩
  · rw [hSame]
    exact hWritten.putConversation
  · rw [hSame]
    exact hWritten.putTask

end OctoberHarness.Storage
