import OctoberHarness.Storage.Frame
import OctoberHarness.Transaction.Assembly

/-! What a transaction has staged after any steps, against the storage it reads:
new ids, fork points of stored entries, and documents at their addresses. -/
namespace OctoberHarness.Transaction

open OrderedMap

open Storage hiding scopeKey

open Option

/-- A document of the storage at an address, alive. -/
structure Current (m : Memory) (address : DocumentAddress) (record : DocumentRecord) : Prop where
  address : record.address = address
  stored : ∃ revisions, m.documents.lookup record.id = some { record, revisions }
  alive : record.retiredAt = none

/-- An id minted since a transaction began. -/
def New (base top id : Nat) : Prop :=
  base ≤ id ∧ id < top

/-- The fork point of a conversation is a stored entry. -/
def Inherits (m : Memory) (base : Nat) (record : ConversationRecord) : Prop :=
  ∀ parent, record.parent = some parent → m.conversations.lookup parent.conversationId ≠ none ∧ parent.atEntry < base

def StagedWrite (m : Memory) (base top : Nat) : Write → Prop
  | .conversation record => record.id < top ∧ Inherits m base record
  | .entry value => New base top value.id
  | _ => False

/-- A staged task: created by the transaction, or another record of a task. -/
def StagedTask (base top id : Nat) (write : TaskWrite) : Prop :=
  write.record.id = id ∧ (write.kind = .create → New base top id)

/-- A staged submission: a new one, or one with the request of the stored one. -/
def StagedSubmission (m : Memory) (base top id : Nat) (value : SubmissionRecord) : Prop :=
  value.id = id ∧ (New base top id ∨ ∃ old, m.submissions.lookup id = some old ∧ Memory.requestOf old = Memory.requestOf value)

/-- The target of an entry at its address. -/
def StagedTarget (m : Memory) (base top : Nat) (address : DocumentAddress) : DocumentTarget → Prop
  | .loaded document _ _ => Current m address document.record
  | .created record _ _ => record.address = address ∧ New base top record.id
  | .forkCopy record _ => record.address = address ∧ New base top record.id
  | .retireOnly record => Current m address record

/-- What holds of the state of a transaction that began at an id. -/
structure Sane (m : Memory) (base : Nat) (tx : Staged) : Prop where
  next : base ≤ tx.nextId ∧ tx.nextId ≤ MAX_SAFE_INTEGER + 1
  minted : ∀ id ∈ tx.minted, New base tx.nextId id
  writes : ∀ write ∈ tx.writes, StagedWrite m base tx.nextId write
  tasks : ∀ id write, (id, some write) ∈ tx.tasksById → StagedTask base tx.nextId id write
  submissions : ∀ id value, (id, value) ∈ tx.submissions → StagedSubmission m base tx.nextId id value
  documents : ∀ entry ∈ tx.documents, ∀ target, entry.target = some target →
    StagedTarget m base tx.nextId entry.address target

theorem New.mono {base top top' id : Nat} (h : New base top id) (hTop : top ≤ top') : New base top' id :=
  ⟨h.1, Nat.lt_of_lt_of_le h.2 hTop⟩

theorem StagedWrite.mono {m : Memory} {base top top' : Nat} {write : Write} (h : StagedWrite m base top write)
    (hTop : top ≤ top') : StagedWrite m base top' write := by
  cases write with
  | conversation record => exact ⟨Nat.lt_of_lt_of_le h.1 hTop, h.2⟩
  | entry value => exact New.mono h hTop
  | _ => exact h

theorem StagedTarget.mono {m : Memory} {base top top' : Nat} {address : DocumentAddress} {target : DocumentTarget}
    (h : StagedTarget m base top address target) (hTop : top ≤ top') : StagedTarget m base top' address target := by
  cases target with
  | loaded document ops value => exact h
  | created record version value => exact ⟨h.1, h.2.mono hTop⟩
  | forkCopy record source => exact ⟨h.1, h.2.mono hTop⟩
  | retireOnly record => exact h

/-! Acquiring and retiring a document. -/

/-- Nothing changes, an entry without a target is added, or one is replaced that keeps its
address and target and does not begin to mint. -/
def Renewed (tx next : Staged) : Prop :=
  next = tx ∨ (∃ entry : DocumentEntry, entry.target = none ∧ entry.draft ≠ .minting ∧ next = tx.pushEntry entry) ∨
    ∃ index old entry, tx.documents[index]? = some old ∧ entry.address = old.address ∧ entry.target = old.target ∧
      (entry.draft = .minting → old.draft = .minting) ∧ next = tx.setEntry index entry

section Renewed

variable {tx next : Staged} {definition : DocDefinition} {owner : Nat} {key : JsString}

theorem latest_entry {address : DocumentAddress} {index : Nat} {entry : DocumentEntry}
    (hLatest : tx.latest address = some (index, entry)) : tx.documents[index]? = some entry := by
  obtain ⟨found, -, hFound⟩ := Option.bind_eq_some_iff.mp hLatest
  obtain ⟨other, hEntry, hSame⟩ := Option.map_eq_some_iff.mp hFound
  obtain ⟨rfl, rfl⟩ := Prod.mk.inj hSame
  exact hEntry

theorem doc_renewed {seed : Option JsonValue} (hDoc : tx.doc definition owner key seed = .ok next) : Renewed tx next := by
  rw [Staged.doc, Outcome.bind_eq_ok] at hDoc
  obtain ⟨⟨⟩, -, hDoc⟩ := hDoc
  cases hLatest : tx.latest (resolveAddress definition owner key) with
  | none =>
    simp only [hLatest] at hDoc
    exact .inr (.inl ⟨_, rfl, by simp, (Except.ok.inj hDoc).symm⟩)
  | some found =>
    obtain ⟨index, entry⟩ := found
    simp only [hLatest, Bool.false_eq_true, if_false, if_true] at hDoc
    generalize (if definition.family = true then seed else none) = kept at hDoc
    split_ifs at hDoc
    · exact .inr (.inl ⟨_, rfl, by simp, (Except.ok.inj hDoc).symm⟩)
    · exact .inl (Except.ok.inj hDoc).symm
    · exact .inr (.inr ⟨index, entry, { entry with draft := .copying, definition := some definition }, latest_entry hLatest,
        rfl, rfl, by simp, (Except.ok.inj hDoc).symm⟩)
    · exact .inr (.inl ⟨_, rfl, by simp, (Except.ok.inj hDoc).symm⟩)

theorem retireDoc_renewed (hRetire : tx.retireDoc definition owner key = .ok next) : Renewed tx next := by
  rw [Staged.retireDoc] at hRetire
  cases hLatest : tx.latest (resolveAddress definition owner key) with
  | none =>
    simp only [hLatest] at hRetire
    exact .inr (.inl ⟨_, rfl, by simp, (Except.ok.inj hRetire).symm⟩)
  | some found =>
    obtain ⟨index, entry⟩ := found
    have hSet : Renewed tx (tx.setEntry index { entry with retireOnCommit := true }) :=
      .inr (.inr ⟨index, entry, { entry with retireOnCommit := true }, latest_entry hLatest, rfl, rfl,
        fun hDraft => hDraft, rfl⟩)
    simp only [hLatest] at hRetire
    by_cases hRetired : entry.retireOnCommit = true
    · rw [if_pos hRetired] at hRetire
      exact .inl (Except.ok.inj hRetire).symm
    · rw [if_neg hRetired] at hRetire
      split at hRetire
      · obtain ⟨⟨⟩, -, hRetire⟩ := Outcome.bind_eq_ok.mp hRetire
        exact Except.ok.inj hRetire ▸ hSet
      · split_ifs at hRetire
        · exact Except.ok.inj hRetire ▸ hSet
        · exact .inr (.inl ⟨_, rfl, by simp, (Except.ok.inj hRetire).symm⟩)

end Renewed

namespace Sane

variable {m : Memory} {base : Nat} {tx : Staged}

theorem grow (h : Sane m base tx) {nextId : Nat} {minted : List Nat} (hTop : tx.nextId ≤ nextId)
    (hRange : nextId ≤ MAX_SAFE_INTEGER + 1) (hMinted : ∀ id ∈ minted, New base nextId id) : Sane m base { tx with nextId, minted } where
  next := ⟨Nat.le_trans h.next.1 hTop, hRange⟩
  minted := hMinted
  writes write hMem := (h.writes write hMem).mono hTop
  tasks id write hWrite := ⟨(h.tasks id write hWrite).1, fun hKind => ((h.tasks id write hWrite).2 hKind).mono hTop⟩
  submissions id value hValue := ⟨(h.submissions id value hValue).1, (h.submissions id value hValue).2.imp_left (·.mono hTop)⟩
  documents entry hEntry target hTarget := (h.documents entry hEntry target hTarget).mono hTop

variable {next : Staged}

theorem mint (h : Sane m base tx) (hMint : tx.mint = .ok next) : Sane m base next := by
  rw [Staged.mint] at hMint
  split_ifs at hMint with hLast
  rw [← Except.ok.inj hMint]
  refine h.grow (Nat.le_succ _) (Nat.succ_le_succ (Nat.not_lt.mp hLast)) fun id hMem => ?_
  rcases List.mem_append.mp hMem with hOld | hNew
  · exact (h.minted id hOld).mono (Nat.le_succ _)
  · rw [List.mem_singleton.mp hNew]
    exact ⟨h.next.1, Nat.lt_succ_self _⟩

variable {id : Nat}

section

variable (h : Sane m base tx)

include h

theorem take (hTake : tx.take id = .ok next) :
    Sane m base next ∧ New base next.nextId id ∧ next.nextId = tx.nextId := by
  rw [Staged.take] at hTake
  split_ifs at hTake with hMem
  rw [← Except.ok.inj hTake]
  exact ⟨h.grow (Nat.le_refl _) h.next.2 fun id hId => h.minted id (List.mem_of_mem_erase hId), h.minted id hMem, rfl⟩

/-! Entries of documents. -/

theorem setEntry (index : Nat) {entry : DocumentEntry}
    (hEntry : ∀ target, entry.target = some target → StagedTarget m base tx.nextId entry.address target) :
    Sane m base (tx.setEntry index entry) where
  next := h.next
  minted := h.minted
  writes := h.writes
  tasks := h.tasks
  submissions := h.submissions
  documents found hFound target hTarget := by
    rcases List.mem_or_eq_of_mem_set hFound with hOld | rfl
    · exact h.documents found hOld target hTarget
    · exact hEntry target hTarget

theorem pushEntry {entry : DocumentEntry}
    (hEntry : ∀ target, entry.target = some target → StagedTarget m base tx.nextId entry.address target) :
    Sane m base (tx.pushEntry entry) where
  next := h.next
  minted := h.minted
  writes := h.writes
  tasks := h.tasks
  submissions := h.submissions
  documents found hFound target hTarget := by
    rcases List.mem_append.mp hFound with hOld | hNew
    · exact h.documents found hOld target hTarget
    · obtain rfl := List.mem_singleton.mp hNew
      exact hEntry target hTarget

theorem entry {index : Nat} {entry : DocumentEntry} (hEntry : tx.documents[index]? = some entry)
    (target : DocumentTarget) (hTarget : entry.target = some target) :
    StagedTarget m base tx.nextId entry.address target :=
  h.documents entry (List.mem_of_getElem? hEntry) target hTarget

theorem renew (hNext : Renewed tx next) : Sane m base next := by
  rcases hNext with rfl | ⟨entry, hTarget, -, rfl⟩ | ⟨index, old, entry, hOld, hAddress, hTarget, -, rfl⟩
  · exact h
  · exact h.pushEntry (by simp [hTarget])
  · refine h.setEntry index ?_
    rw [hAddress, hTarget]
    exact h.entry hOld

theorem edit (index : Nat) (ops : List Delta.Op) (value : JsonValue) :
    Sane m base (tx.edit index ops value) := by
  rw [Staged.edit]
  cases hEntry : tx.documents[index]? with
  | none => exact h
  | some entry =>
    have hTarget := h.entry hEntry
    simp only
    split
    · rename_i hLoaded
      have hOld := hTarget _ hLoaded
      refine h.setEntry index fun target hSame => ?_
      rw [← some.inj hSame]
      exact hOld
    · rename_i hCreated
      have hOld := hTarget _ hCreated
      refine h.setEntry index fun target hSame => ?_
      rw [← some.inj hSame]
      exact hOld
    · exact h

theorem push {write : Write} (hWrite : StagedWrite m base tx.nextId write) :
    Sane m base { tx with writes := tx.writes ++ [write] } where
  next := h.next
  minted := h.minted
  writes found hFound := by
    rcases List.mem_append.mp hFound with hOld | hNew
    · exact h.writes found hOld
    · exact List.mem_singleton.mp hNew ▸ hWrite
  tasks := h.tasks
  submissions := h.submissions
  documents := h.documents

theorem appendEntry {conversationId : Nat} {head : Option Staged.HeadDraft}
    {body : JsonValue} (hAppend : tx.appendEntry m id conversationId head body = .ok next) : Sane m base next := by
  rw [Staged.appendEntry, Outcome.bind_eq_ok] at hAppend
  obtain ⟨⟨⟩, -, hAppend⟩ := hAppend
  obtain ⟨taken, hTake, hAppend⟩ := Outcome.bind_eq_ok.mp hAppend
  obtain ⟨hTaken, hNew, -⟩ := h.take hTake
  rw [← Except.ok.inj hAppend]
  exact hTaken.push hNew

end

theorem taskWrite_set (tx : Staged) (id other : Nat) (write : Option TaskWrite) :
    ({ tx with tasksById := set tx.tasksById id write } : Staged).taskWrite other =
      if other = id then write else tx.taskWrite other := by
  rw [Staged.taskWrite, Staged.taskWrite, lookup_set]
  split_ifs <;> rfl

theorem setWrite (h : Sane m base tx) {write : TaskWrite} (hWrite : StagedTask base tx.nextId id write) :
    Sane m base { tx with tasksById := set tx.tasksById id (some write) } where
  next := h.next
  minted := h.minted
  writes := h.writes
  tasks other found hFound := by
    rcases mem_set hFound with hNew | hOld
    · obtain ⟨rfl, hSame⟩ := Prod.mk.inj hNew
      rw [some.inj hSame]
      exact hWrite
    · exact h.tasks other found hOld
  submissions := h.submissions
  documents := h.documents

theorem touchTask (h : Sane m base tx) (id : Nat) : Sane m base (tx.touchTask id) := by
  rw [Staged.touchTask]
  split_ifs
  · exact h
  · refine ⟨h.next, h.minted, h.writes, fun other write hWrite => ?_, h.submissions, h.documents⟩
    rcases mem_set hWrite with hNew | hOld
    · exact absurd (Prod.mk.inj hNew).2 (by simp)
    · exact h.tasks other write hOld

theorem mem_of_taskWrite {write : TaskWrite} (hWrite : tx.taskWrite id = some write) :
    (id, some write) ∈ tx.tasksById :=
  mem_of_lookup (Option.join_eq_some_iff.mp hWrite)

theorem createTask (h : Sane m base tx) {options : Staged.TaskOptions}
    (hCreate : tx.createTask m id options = .ok next) : Sane m base next := by
  rw [Staged.createTask, Outcome.bind_eq_ok] at hCreate
  obtain ⟨conversationId, -, hCreate⟩ := hCreate
  obtain ⟨⟨⟩, -, hCreate⟩ := Outcome.bind_eq_ok.mp hCreate
  obtain ⟨taken, hTake, hCreate⟩ := Outcome.bind_eq_ok.mp hCreate
  obtain ⟨hTaken, hNew, -⟩ := h.take hTake
  rw [← Except.ok.inj hCreate]
  exact hTaken.setWrite ⟨rfl, fun _ => hNew⟩

theorem stamp_id (name : JsString) (status : TaskStatus) (value : TaskRecord) (candidate : Option TaskRecord)
    (now : JsonValue) : (stamp name status value candidate now).id = value.id := by
  simp only [stamp]
  split <;> rfl

theorem setTask (h : Sane m base tx) {value : TaskRecord} {now : JsonValue}
    (hSet : tx.setTask value now = .ok next) : Sane m base next := by
  rw [Staged.setTask] at hSet
  split_ifs at hSet with hTerminal hMoves hKind
  all_goals
    rw [← Except.ok.inj hSet]
    refine (h.touchTask value.id).setWrite ⟨?_, fun hCreate => ?_⟩
    · rw [stampTimes, stamp_id, stamp_id]
  · rw [any_eq_true] at hKind
    obtain ⟨old, hOld, hOldKind⟩ := hKind
    exact ((h.touchTask value.id).tasks value.id old (mem_of_taskWrite hOld)).2 (of_decide_eq_true hOldKind)
  · exact absurd hCreate (by simp)

theorem createSubmission (h : Sane m base tx) {create : SubmissionRecord}
    (hCreate : tx.createSubmission m id create = .ok next) : Sane m base next := by
  rw [Staged.createSubmission, Outcome.bind_eq_ok] at hCreate
  obtain ⟨⟨⟩, -, hCreate⟩ := hCreate
  obtain ⟨taken, hTake, hCreate⟩ := Outcome.bind_eq_ok.mp hCreate
  obtain ⟨hTaken, hNew, -⟩ := h.take hTake
  rw [← Except.ok.inj hCreate]
  refine ⟨hTaken.next, hTaken.minted, hTaken.writes, hTaken.tasks, fun other value hValue => ?_, hTaken.documents⟩
  rcases mem_set hValue with hLast | hOld
  · obtain ⟨rfl, rfl⟩ := Prod.mk.inj hLast
    exact ⟨rfl, Or.inl hNew⟩
  · exact hTaken.submissions other value hOld

/-- Copies of documents with new ids. -/
def Copied (base : Nat) (state : Staged × List (DocumentCreate × DocumentCopySource)) : Prop :=
  ∀ copy ∈ state.2, New base state.1.nextId copy.1.id

variable {point : DocumentPoint} {policy : ForkPolicy}

theorem collectCopy {state next : Staged × List (DocumentCreate × DocumentCopySource)} {child : Nat} {source : DocumentRecord}
    (h : Sane m base state.1) (hCopied : Copied base state)
    (hCollect : Staged.collectCopy policy point child state source = .ok next) :
    Sane m base next.1 ∧ Copied base next ∧ state.1.nextId ≤ next.1.nextId := by
  rw [Staged.collectCopy] at hCollect
  split_ifs at hCollect with hSkip
  · exact Except.ok.inj hCollect ▸ ⟨h, hCopied, Nat.le_refl _⟩
  · obtain ⟨minted, hMint, hCollect⟩ := Outcome.bind_eq_ok.mp hCollect
    obtain ⟨taken, hTake, hCollect⟩ := Outcome.bind_eq_ok.mp hCollect
    have hMinted := h.mint hMint
    obtain ⟨hTaken, hNew, hNext⟩ := hMinted.take hTake
    have hTop : state.1.nextId ≤ taken.nextId := by
      rw [hNext]
      rw [Staged.mint] at hMint
      split_ifs at hMint
      rw [← Except.ok.inj hMint]
      exact Nat.le_succ _
    simp only at hCollect
    split_ifs at hCollect
    rw [← Except.ok.inj hCollect]
    refine ⟨hTaken, fun copy hCopy => ?_, hTop⟩
    rcases List.mem_append.mp hCopy with hOld | hLast
    · exact (hCopied copy hOld).mono hTop
    · rw [List.mem_singleton.mp hLast]
      exact hNew

theorem collectCopies {state next : Staged × List (DocumentCreate × DocumentCopySource)} {scope : Scope} {child : Nat}
    (h : Sane m base state.1) (hCopied : Copied base state)
    (hCollect : Staged.collectCopies m scope point policy child state = .ok next) :
    Sane m base next.1 ∧ Copied base next ∧ state.1.nextId ≤ next.1.nextId := by
  rw [Staged.collectCopies, Outcome.bind_eq_ok] at hCollect
  obtain ⟨sources, -, hCollect⟩ := hCollect
  refine @Outcome.foldlM_invariant _ _ _ (Staged.collectCopy policy point child)
    (fun _ found => Sane m base found.1 ∧ Copied base found ∧ state.1.nextId ≤ found.1.nextId)
    (fun _ found next hFound hStep => ?_) sources [] state next ⟨h, hCopied, Nat.le_refl _⟩ hCollect
  intro hRun
  obtain ⟨hSane, hNew, hTop⟩ := hStep
  obtain ⟨hNextSane, hNextNew, hNextTop⟩ := hSane.collectCopy hNew hRun
  exact ⟨hNextSane, hNextNew, Nat.le_trans hTop hNextTop⟩

theorem pushConversation (h : Sane m base tx) {record : ConversationRecord}
    {copies : List (DocumentCreate × DocumentCopySource)} (hRecord : record.id < tx.nextId) (hInherits : Inherits m base record)
    (hCopied : Copied base (tx, copies)) : Sane m base (tx.pushConversation record copies) := by
  have hCopies : Sane m base (copies.foldl Staged.stageCopy tx) ∧ (copies.foldl Staged.stageCopy tx).nextId = tx.nextId := by
    clear hRecord
    induction copies generalizing tx with
    | nil => exact ⟨h, rfl⟩
    | cons copy rest ih =>
      obtain ⟨hFirst, hRest⟩ := List.forall_mem_cons.mp hCopied
      refine @ih (tx.stageCopy copy) ⟨h.next, h.minted, h.writes, h.tasks, h.submissions, fun entry hEntry => ?_⟩ hRest
      rcases List.mem_append.mp hEntry with hOld | hNew
      · exact h.documents entry hOld
      · rw [List.mem_singleton.mp hNew]
        intro target hTarget
        rw [← some.inj hTarget]
        exact ⟨rfl, hFirst⟩
  obtain ⟨hStaged, hNext⟩ := hCopies
  have hWrite : StagedWrite m base (copies.foldl Staged.stageCopy tx).nextId (.conversation record) :=
    ⟨hNext ▸ hRecord, hInherits⟩
  have hPushed := hStaged.push hWrite
  exact ⟨hPushed.next, hPushed.minted, hPushed.writes, hPushed.tasks, hPushed.submissions, hPushed.documents⟩

end Sane

/-! Reads of the storage. -/

section Reads

variable {m : Memory} {d : Sqlite} {base : Nat} (hAgree : Agree m d) (hIds : m.IdsBelow base)

include hAgree

theorem holds_below (hIds : m.IdsBelow base) {id : Nat} {table : TableName} (hHolds : m.Holds id table) : id < base :=
  hIds id (by rw [hAgree.type_of_holds hHolds]; exact some_ne_none _)

theorem visibleEntry_stored (hIds : m.IdsBelow base) {conversationId id : Nat} {found : StoredEntry}
    (hFound : m.visibleEntry conversationId id = .ok (some found)) :
    m.conversations.lookup conversationId ≠ none ∧ id < base := by
  rw [Memory.visibleEntry, Outcome.bind_eq_ok] at hFound
  obtain ⟨entries, hVisible, hFound⟩ := hFound
  rw [Memory.visibleEntries] at hVisible
  split_ifs at hVisible with hConversation
  refine ⟨fun hNone => hConversation (by rw [hNone]; rfl), ?_⟩
  cases hHead : entries.head? with
  | none => simp [hHead] at hFound
  | some entry =>
    cases hSeq : m.entryCommitSeqs.lookup id with
    | none => simp [hHead, hSeq] at hFound
    | some seq =>
      refine @holds_below m d base hAgree hIds id .entry fun hNone => ?_
      rw [hAgree.mirror.entries, map_eq_none_iff] at hNone
      rw [hAgree.mirror.entryCommitSeqs, hNone] at hSeq
      exact absurd hSeq (by simp)

theorem findDocument_current {address : DocumentAddress} {record : DocumentRecord}
    (hFound : m.findDocument address .current = .ok (some record)) : Current m address record := by
  rw [Memory.findDocument_eq hAgree.mirror hAgree.current hAgree.stored.kept, Except.ok.injEq,
    find_incarnation hAgree.stored.kept] at hFound
  obtain ⟨hLookup, hIncarnation⟩ := hFound
  simp only [View.isIncarnation, isAliveAt, Bool.and_eq_true, decide_eq_true_eq, isNone_iff_eq_none] at hIncarnation
  exact ⟨hIncarnation.1, ⟨_, by rw [hAgree.mirror.documents, hLookup, map_some]⟩, hIncarnation.2⟩

omit hAgree in
theorem materialize_record {id : Nat} {point : DocumentPoint} {stored : StoredDocument}
    (hStored : m.materializeDocument id point = .ok (some stored)) :
    ∃ revisions, m.documents.lookup id = some { record := stored.record, revisions } := by
  rw [Memory.materializeDocument] at hStored
  cases hLookup : m.documents.lookup id with
  | none => simp [hLookup] at hStored
  | some state =>
    simp only [hLookup] at hStored
    split_ifs at hStored
    · simp at hStored
    · split at hStored
      · simp at hStored
      · split at hStored
        · simp at hStored
        · split_ifs at hStored
          rw [← some.inj (Except.ok.inj hStored)]
          exact ⟨state.revisions, rfl⟩

variable {tx : Staged}

theorem Sane.stageConversation (hIds : m.IdsBelow base) {next : Staged} (h : Sane m base tx) {id : Nat}
    {parent : Option Parent} {ownerTaskId : Option Nat} (hStage : tx.stageConversation m id parent ownerTaskId = .ok next) :
    Sane m base next := by
  rw [Staged.stageConversation, Outcome.bind_eq_ok] at hStage
  obtain ⟨taken, hTake, hStage⟩ := hStage
  obtain ⟨owner, -, hStage⟩ := Outcome.bind_eq_ok.mp hStage
  obtain ⟨⟨after, copies⟩, hCopies, hStage⟩ := Outcome.bind_eq_ok.mp hStage
  obtain ⟨hTaken, hNew, -⟩ := h.take hTake
  rw [← Except.ok.inj hStage]
  cases parent with
  | none =>
    obtain ⟨rfl, rfl⟩ := Prod.mk.inj (Except.ok.inj hCopies)
    exact hTaken.pushConversation hNew.2 (fun parent hParent => by simp at hParent) (fun copy hCopy => by simp at hCopy)
  | some parent =>
    rw [Staged.conversationCopies, Staged.prepareForkDocumentCopies] at hCopies
    split at hCopies
    · simp at hCopies
    · simp at hCopies
    · rename_i found hVisible
      obtain ⟨first, hFirst, hSecond⟩ := Outcome.bind_eq_ok.mp hCopies
      obtain ⟨hMiddle, hCopied, hTop⟩ := hTaken.collectCopies (fun copy hCopy => by simp at hCopy) hFirst
      obtain ⟨hAfter, hCopied, hTop'⟩ := hMiddle.collectCopies hCopied hSecond
      refine hAfter.pushConversation (Nat.lt_of_lt_of_le hNew.2 (Nat.le_trans hTop hTop')) (fun found hFound => ?_) hCopied
      rw [← some.inj hFound]
      exact visibleEntry_stored hAgree hIds hVisible

variable {definition : DocDefinition} {next : DocumentEntry}

theorem load_target {entry : DocumentEntry} (top : Nat)
    (hOld : ∀ target, entry.target = some target → StagedTarget m base top entry.address target)
    (hLoad : Staged.load m entry definition = .ok next) (target : DocumentTarget) (hTarget : next.target = some target) :
    StagedTarget m base top next.address target := by
  rw [Staged.load] at hLoad
  split at hLoad
  · simp at hLoad
  · rw [← Except.ok.inj hLoad] at hTarget ⊢
    exact hOld target hTarget
  · rename_i record hFound
    split at hLoad
    · simp at hLoad
    · simp at hLoad
    · rename_i stored hStored
      obtain ⟨value, -, hLoad⟩ := Outcome.bind_eq_ok.mp hLoad
      rw [← Except.ok.inj hLoad] at hTarget ⊢
      rw [← some.inj hTarget]
      have hCurrent := findDocument_current hAgree hFound
      obtain ⟨revisions, hLookup⟩ := hCurrent.stored
      obtain ⟨revisions', hSame⟩ := materialize_record hStored
      have hRecord : stored.record = record := by
        rw [hLookup, some.injEq] at hSame
        exact (congrArg DocumentState.record hSame).symm
      rw [← hRecord] at hCurrent
      exact hCurrent

theorem findRetirement_target {entry : DocumentEntry} (top : Nat)
    (hOld : ∀ target, entry.target = some target → StagedTarget m base top entry.address target)
    (hFind : Staged.findRetirement m entry definition = .ok next) (target : DocumentTarget)
    (hTarget : next.target = some target) : StagedTarget m base top next.address target := by
  rw [Staged.findRetirement] at hFind
  split at hFind
  · simp at hFind
  · rw [← Except.ok.inj hFind] at hTarget ⊢
    exact hOld target hTarget
  · rename_i record hFound
    obtain ⟨⟨⟩, -, hFind⟩ := Outcome.bind_eq_ok.mp hFind
    rw [← Except.ok.inj hFind] at hTarget ⊢
    rw [← some.inj hTarget]
    exact findDocument_current hAgree hFound

omit hAgree in
theorem acquireForkCopy_target {entry : DocumentEntry} {record : DocumentCreate}
    {source : DocumentCopySource} {top : Nat} (hRecord : record.address = entry.address ∧ New base top record.id)
    (hAcquire : Staged.acquireForkCopy m entry definition record source = .ok next) (target : DocumentTarget)
    (hTarget : next.target = some target) : StagedTarget m base top next.address target := by
  rw [Staged.acquireForkCopy] at hAcquire
  split at hAcquire
  · simp at hAcquire
  · simp at hAcquire
  · split_ifs at hAcquire
    obtain ⟨value, -, hAcquire⟩ := Outcome.bind_eq_ok.mp hAcquire
    rw [← Except.ok.inj hAcquire] at hTarget ⊢
    rw [← some.inj hTarget]
    exact hRecord

omit hAgree in
theorem checkScope_target {entry : DocumentEntry} (hCheck : tx.checkScope m entry = .ok next) :
    next = { entry with draft := .minting } := by
  rw [Staged.checkScope] at hCheck
  split at hCheck
  · exact (Except.ok.inj hCheck).symm
  · obtain ⟨⟨⟩, -, hCheck⟩ := Outcome.bind_eq_ok.mp hCheck
    exact (Except.ok.inj hCheck).symm
  · split at hCheck
    · simp at hCheck
    · split_ifs at hCheck
      exact (Except.ok.inj hCheck).symm

omit hAgree in
theorem documentCreate_address (definition : DocDefinition) (address : DocumentAddress) (id : Nat) :
    (documentCreate definition address id).address = address ∧ (documentCreate definition address id).id = id := by
  obtain ⟨kind, scope, key⟩ := address
  cases scope <;> exact ⟨rfl, rfl⟩

/-- A step of an acquisition. -/
theorem Sane.advanceEntry {next : Staged} {entry entry' : DocumentEntry} {id : Nat}
    (h : Sane m base tx) (hOld : ∀ target, entry.target = some target → StagedTarget m base tx.nextId entry.address target)
    (hAdvance : tx.advanceEntry m entry definition id = .ok (next, entry')) : Sane m base next ∧
      ∀ target, entry'.target = some target → StagedTarget m base next.nextId entry'.address target := by
  have hMap : ∀ {result : Except TxError DocumentEntry}, (tx, ·) <$> result = .ok (next, entry') →
      next = tx ∧ result = .ok entry' := by
    intro result hResult
    cases result with
    | error error => exact absurd hResult (by simp [Functor.map, Except.map])
    | ok value =>
      obtain ⟨hSame, hEntry⟩ := Prod.mk.inj (Except.ok.inj hResult)
      exact ⟨hSame.symm, congrArg _ hEntry⟩
  rw [Staged.advanceEntry] at hAdvance
  split at hAdvance
  · obtain ⟨rfl, hLoad⟩ := hMap hAdvance
    exact ⟨h, load_target hAgree _ hOld hLoad⟩
  · obtain ⟨rfl, hCheck⟩ := hMap hAdvance
    rw [checkScope_target hCheck]
    exact ⟨h, hOld⟩
  · obtain ⟨taken, hTake, hAdvance⟩ := Outcome.bind_eq_ok.mp hAdvance
    obtain ⟨rfl, rfl⟩ := Prod.mk.inj (Except.ok.inj hAdvance)
    obtain ⟨hTaken, hNew, -⟩ := h.take hTake
    obtain ⟨hAddress, hId⟩ := documentCreate_address definition entry.address id
    refine ⟨hTaken, fun target hTarget => ?_⟩
    rw [← some.inj hTarget]
    exact ⟨hAddress, hId.symm ▸ hNew⟩
  · split at hAdvance
    · rename_i record source hCopy
      obtain ⟨rfl, hAcquire⟩ := hMap hAdvance
      have hRecord := hOld _ hCopy
      exact ⟨h, acquireForkCopy_target hRecord hAcquire⟩
    · obtain ⟨rfl, rfl⟩ := Prod.mk.inj (Except.ok.inj hAdvance)
      exact ⟨h, hOld⟩
  · obtain ⟨rfl, hFind⟩ := hMap hAdvance
    exact ⟨h, findRetirement_target hAgree _ hOld hFind⟩
  · obtain ⟨rfl, rfl⟩ := Prod.mk.inj (Except.ok.inj hAdvance)
    exact ⟨h, hOld⟩

theorem Sane.advance (h : Sane m base tx) (index id : Nat) : Sane m base (tx.advance m index id).1 := by
  rw [Staged.advance]
  split
  · exact h
  · rename_i entry hEntry
    have hOld := h.entry hEntry
    split
    · exact h
    · split
      · rename_i hAdvance
        obtain ⟨hNext, hTarget⟩ := h.advanceEntry hAgree hOld hAdvance
        exact hNext.setEntry index hTarget
      · exact h.setEntry index hOld

theorem Sane.step (hIds : m.IdsBelow base) (hBase : Staged.ROOT_CONVERSATION_ID < base) (h : Sane m base tx)
    (event : Staged.Event) : Sane m base (Staged.step m tx event).1 := by
  have hOrElse : ∀ {result : Except TxError Staged}, (∀ next, result = .ok next → Sane m base next) →
      Sane m base (tx.orElse result).1 := by
    intro result hResult
    cases result with
    | error error => exact h
    | ok next => exact hResult next rfl
  cases event with
  | mint => exact hOrElse fun next hNext => h.mint hNext
  | createRootConversation =>
    exact h.pushConversation (Nat.lt_of_lt_of_le hBase h.next.1) (fun parent hParent => by simp at hParent)
      fun copy hCopy => by simp at hCopy
  | stageConversation id parent ownerTaskId => exact hOrElse fun next hNext => h.stageConversation hAgree hIds hNext
  | appendEntry id conversationId head body => exact hOrElse fun next hNext => h.appendEntry hNext
  | createTask id options => exact hOrElse fun next hNext => h.createTask hNext
  | createSubmission id create => exact hOrElse fun next hNext => h.createSubmission hNext
  | changeSubmission id change => exact ⟨h.next, h.minted, h.writes, h.tasks, h.submissions, h.documents⟩
  | setTask value now => exact hOrElse fun next hNext => h.setTask hNext
  | doc definition owner key seed => exact hOrElse fun next hNext => h.renew (doc_renewed hNext)
  | retireDoc definition owner key => exact hOrElse fun next hNext => h.renew (retireDoc_renewed hNext)
  | advance index id => exact h.advance hAgree index id
  | edit index ops value => exact h.edit index ops value

theorem Sane.run (hIds : m.IdsBelow base) (hBase : Staged.ROOT_CONVERSATION_ID < base) (h : Sane m base tx)
    (events : List Staged.Event) : Sane m base (Staged.run m tx events) := by
  induction events generalizing tx with
  | nil => exact h
  | cons event rest ih => exact ih (h.step hAgree hIds hBase event)

end Reads

end OctoberHarness.Transaction
