import OctoberHarness.ChordStore.Database

/-! The commit step and the writes that run in it. A write is a program over the
step: each query and each statement is a call of the backend, where other code
may run in between. The writes of the documents engine are programs here; those
of a table are any program that makes no document. -/
namespace OctoberHarness.ChordStore

open List

open Storage (MAX_SAFE_INTEGER)

variable {R T D α β : Type}

/-- A program over the commit step. -/
inductive Prog (R T α : Type) where
  | done (value : α)
  | throw (thrown : Thrown)
  | query (next : Content R → Prog R T α)
  | run (statement : Statement R) (next : Nat → Prog R T α)
  | mint (next : Nat → Prog R T α)
  | created (id : Nat) (next : Prog R T α)
  | table (name : String) (next : Option T → Prog R T α)
  | setTable (name : String) (record : T) (next : Prog R T α)

namespace Prog

def bind : Prog R T α → (α → Prog R T β) → Prog R T β
  | done value, f => f value
  | throw thrown, _ => throw thrown
  | query next, f => query fun content => (next content).bind f
  | run statement next, f => run statement fun count => (next count).bind f
  | mint next, f => mint fun id => (next id).bind f
  | created id next, f => created id (next.bind f)
  | table name next, f => table name fun record => (next record).bind f
  | setTable name record next, f => setTable name record (next.bind f)

instance : Monad (Prog R T) where
  pure := done
  bind := bind

/-- `step.run`. -/
def statement (statement : Statement R) : Prog R T Unit :=
  run statement fun _ => done ()

/-- `step.runCounted`. -/
def counted (statement : Statement R) : Prog R T Nat :=
  run statement done

def throwIf (condition : Bool) (thrown : Thrown) : Prog R T Unit :=
  if condition then throw thrown else done ()

def doIf (condition : Bool) (program : Prog R T Unit) : Prog R T Unit :=
  if condition then program else done ()

/-- The records a program inserts have an allowed id, or one it minted. -/
def Inserts : Prog R T α → (Nat → Prop) → Prop
  | done _, _ => True
  | throw _, _ => True
  | query next, allowed => ∀ content, (next content).Inserts allowed
  | run statement next, allowed =>
    (∀ id, statement.inserted = some id → allowed id) ∧ ∀ count, (next count).Inserts allowed
  | mint next, allowed => ∀ id, (next id).Inserts fun other => allowed other ∨ other = id
  | created _ next, allowed => next.Inserts allowed
  | table _ next, allowed => ∀ record, (next record).Inserts allowed
  | setTable _ _ next, allowed => next.Inserts allowed

/-- A program that takes no id from the allocator, and inserts records with
allowed ids only. -/
def Confined (allowed : Nat → Prop) : Prog R T α → Prop
  | done _ => True
  | throw _ => True
  | query next => ∀ content, (next content).Confined allowed
  | run statement next =>
    (∀ id, statement.inserted = some id → allowed id) ∧ ∀ count, (next count).Confined allowed
  | mint _ => False
  | created _ next => next.Confined allowed
  | table _ next => ∀ record, (next record).Confined allowed
  | setTable _ _ next => next.Confined allowed

variable {program : Prog R T α} {allowed : Nat → Prop}

theorem Inserts.mono {allowed wider : Nat → Prop} (h : program.Inserts allowed) (hWider : ∀ id, allowed id → wider id) :
    program.Inserts wider := by
  induction program generalizing allowed wider with
  | done _ => trivial
  | throw _ => trivial
  | query next ih => exact fun content => ih content (h content) hWider
  | run statement next ih =>
    exact ⟨fun id hId => hWider id (h.1 id hId), fun count => ih count (h.2 count) hWider⟩
  | mint next ih =>
    intro id
    apply ih id (h id)
    intro other hOther
    exact hOther.imp_left (hWider other)
  | created _ next ih => exact ih h hWider
  | table _ next ih => exact fun record => ih record (h record) hWider
  | setTable _ _ next ih => exact ih h hWider

theorem Inserts.bind {f : α → Prog R T β} (h : program.Inserts allowed) (hNext : ∀ value, (f value).Inserts allowed) :
    (program.bind f).Inserts allowed := by
  induction program generalizing allowed with
  | done value => exact hNext value
  | throw _ => trivial
  | query next ih => exact fun content => ih content (h content) hNext
  | run statement next ih => exact ⟨h.1, fun count => ih count (h.2 count) hNext⟩
  | mint next ih =>
    intro id
    apply ih id (h id)
    intro value
    exact (hNext value).mono fun _ => Or.inl
  | created _ next ih => exact ih h hNext
  | table _ next ih => exact fun record => ih record (h record) hNext
  | setTable _ _ next ih => exact ih h hNext

theorem Confined.inserts (h : program.Confined allowed) : program.Inserts allowed := by
  induction program with
  | done _ => trivial
  | throw _ => trivial
  | query next ih => exact fun content => ih content (h content)
  | run statement next ih => exact ⟨h.1, fun count => ih count (h.2 count)⟩
  | mint _ _ => exact h.elim
  | created _ next ih => exact ih h
  | table _ next ih => exact fun record => ih record (h record)
  | setTable _ _ next ih => exact ih h

theorem Confined.mono {allowed wider : Nat → Prop} (h : program.Confined allowed) (hWider : ∀ id, allowed id → wider id) :
    program.Confined wider := by
  induction program with
  | done _ => trivial
  | throw _ => trivial
  | query next ih => exact fun content => ih content (h content)
  | run statement next ih =>
    exact ⟨fun id hId => hWider id (h.1 id hId), fun count => ih count (h.2 count)⟩
  | mint _ _ => exact h.elim
  | created _ next ih => exact ih h
  | table _ next ih => exact fun record => ih record (h record)
  | setTable _ _ next ih => exact ih h

theorem Confined.bind {f : α → Prog R T β} (h : program.Confined allowed) (hNext : ∀ value, (f value).Confined allowed) :
    (program.bind f).Confined allowed := by
  induction program with
  | done value => exact hNext value
  | throw _ => trivial
  | query next ih => exact fun content => ih content (h content)
  | run statement next ih => exact ⟨h.1, fun count => ih count (h.2 count)⟩
  | mint _ _ => exact h.elim
  | created _ next ih => exact ih h
  | table _ next ih => exact fun record => ih record (h record)
  | setTable _ _ next ih => exact ih h

theorem confined_statement {st : Statement R} (h : ∀ id, st.inserted = some id → allowed id) :
    (statement st : Prog R T Unit).Confined allowed :=
  ⟨h, fun _ => trivial⟩

theorem confined_throwIf (condition : Bool) (thrown : Thrown) (allowed : Nat → Prop) :
    (throwIf condition thrown : Prog R T Unit).Confined allowed := by
  cases condition <;> trivial

theorem Confined.doIf {program : Prog R T Unit}
    (h : program.Confined allowed) (condition : Bool) : (doIf condition program).Confined allowed := by
  cases condition
  · trivial
  · exact h

end Prog

open Prog (statement counted throwIf doIf confined_statement confined_throwIf)

def insertRevision (documentId seq : Nat) (isBase : Bool) (version : Nat) (content : String) :
    Prog R T Unit :=
  statement (.insertRevision { documentId, seq, isBase, version, content })

/-- What a retired record drops: a `none` row too, every revision unless
`rewindable`. -/
def dropRetired (id : Nat) (history : DocumentHistory) : Prog R T Unit := do
  doIf (history = .none) (statement (.deleteDocument id))
  doIf (history ≠ .rewindable) (statement (.deleteRevisions id))

/-- Inserts a record as it is, with its base when there is one. -/
def insertDocument (record : DocumentRecord) (base : Option DocumentBase) : Prog R T Unit := do
  statement (.insertDocument record)
  doIf base.isSome
    (insertRevision record.id record.createdAt true record.version ((base.map DocumentBase.text).getD ""))
  doIf record.retiredAt.isSome (dropRetired record.id record.history)

namespace DocumentContent

def isBase : DocumentContent → Bool
  | .base _ => true
  | .delta _ _ => false

def version : DocumentContent → Nat
  | .base b => b.version
  | .delta version _ => version

def text : DocumentContent → String
  | .base b => b.text
  | .delta _ text => text

/-- The conditional `UPDATE` of the record that takes a content. -/
def advance (id revision : Nat) : DocumentContent → Statement R
  | .base b => .rebase id revision b.version b.fingerprint
  | .delta version _ => .bumpRevision id revision version

end DocumentContent

def writeContent (seq id : Nat) (history : DocumentHistory) (revision : Nat) (content : DocumentContent) : Prog R T Unit := do
  throwIf (MAX_SAFE_INTEGER ≤ revision) (.error s!"document {id}: no revision past the safe range")
  insertRevision id seq content.isBase content.version content.text
  let changed ← counted (content.advance id revision)
  throwIf (changed ≠ 1) (.error s!"document {id}: not live at revision {revision}")
  doIf (content.isBase && history ≠ .rewindable) (statement (.deleteRevisionsBelow id seq))

def retireRecord (seq : Nat) (record : DocumentRecord) : Prog R T Unit := do
  doIf (record.history ≠ .none) (statement (.setRetired record.id seq))
  dropRetired record.id record.history

theorem confined_insertRevision (documentId seq : Nat) (isBase : Bool) (version : Nat)
    (content : String) (allowed : Nat → Prop) :
    (insertRevision documentId seq isBase version content : Prog R T Unit).Confined allowed :=
  confined_statement fun _ h => by cases h

theorem confined_dropRetired (id : Nat) (history : DocumentHistory) (allowed : Nat → Prop) :
    (dropRetired id history : Prog R T Unit).Confined allowed := by
  apply Prog.Confined.bind
  · apply Prog.Confined.doIf
    exact confined_statement fun _ h => by cases h
  · intro _
    apply Prog.Confined.doIf
    exact confined_statement fun _ h => by cases h

theorem confined_insertDocument (record : DocumentRecord) (base : Option DocumentBase) (h : allowed record.id) :
    (insertDocument record base : Prog R T Unit).Confined allowed := by
  apply Prog.Confined.bind
  · apply confined_statement
    intro id hId
    exact Option.some.inj hId ▸ h
  intro _
  apply Prog.Confined.bind
  · exact (confined_insertRevision _ _ _ _ _ _).doIf _
  · intro _
    exact (confined_dropRetired _ _ _).doIf _

theorem confined_writeContent (seq id : Nat) (history : DocumentHistory) (revision : Nat)
    (content : DocumentContent) (allowed : Nat → Prop) :
    (writeContent seq id history revision content : Prog R T Unit).Confined allowed := by
  apply Prog.Confined.bind
  · exact confined_throwIf _ _ _
  intro _
  apply Prog.Confined.bind
  · exact confined_insertRevision _ _ _ _ _ _
  intro _
  apply Prog.Confined.bind
  · refine ⟨fun other hOther => ?_, fun _ => trivial⟩
    cases content <;> simp [DocumentContent.advance, Statement.inserted] at hOther
  intro changed
  apply Prog.Confined.bind
  · exact confined_throwIf _ _ _
  · intro _
    apply Prog.Confined.doIf
    exact confined_statement fun _ h => by cases h

theorem confined_retireRecord (seq : Nat) (record : DocumentRecord) (allowed : Nat → Prop) :
    (retireRecord seq record : Prog R T Unit).Confined allowed := by
  apply Prog.Confined.bind
  · apply Prog.Confined.doIf
    exact confined_statement fun _ h => by cases h
  · intro _
    exact confined_dropRetired _ _ _

/-- Where a staged write goes in its commit. -/
inductive WriteOrder where
  | retire
  | create
  | write
deriving DecidableEq, Repr

def ORDER : List WriteOrder :=
  [.retire, .create, .write]

/-- `StagedWrite`: its order, and what it does in the step at a seq, returning
the writes as recorded. The ids it inserts without minting them are the explicit
ones, above which its owner raised the allocator at staging. -/
structure StagedWrite (R T D : Type) where
  order : WriteOrder
  explicit : List Nat
  apply : Nat → Prog R T (List (StoreWrite D))
  inserts : ∀ seq, (apply seq).Inserts (· ∈ explicit)

def createDocument (address : DocumentAddress) (base : DocumentBase) : StagedWrite R T D where
  order := .create
  explicit := []
  apply seq := .mint fun id =>
    let record : DocumentRecord :=
      { address with id, history := .none, createdAt := seq, retiredAt := none, metaText := none,
                     revision := 1, version := base.version, fingerprint := base.fingerprint }
    .created id do
      insertDocument record (some base)
      return [.create record (some base)]
  inserts seq id := by
    apply Prog.Inserts.bind
    · exact (confined_insertDocument _ _ (Or.inr rfl)).inserts
    · intro _
      trivial

/-- Changes a document of history `none`. -/
def changeDocument (id revision : Nat) (content : DocumentContent) : StagedWrite R T D where
  order := .write
  explicit := []
  apply seq := do
    writeContent seq id .none revision content
    return [.change id revision content]
  inserts seq := by
    apply Prog.Inserts.bind
    · exact (confined_writeContent _ _ _ _ _ _).inserts
    · intro _
      trivial

/-- Retires a document of history `none`: its row and its revisions go. -/
def retireDocument (id revision : Nat) : StagedWrite R T D where
  order := .retire
  explicit := []
  apply _ := do
    let deleted ← counted (.deleteLive id revision)
    throwIf (deleted ≠ 1) (.error s!"document {id}: not live at revision {revision}")
    statement (.deleteRevisions id)
    return [.retire id revision]
  inserts seq := by
    apply Prog.Confined.inserts
    apply Prog.Confined.bind
    · exact ⟨fun _ h => by (cases h), fun _ => trivial⟩
    intro deleted
    apply Prog.Confined.bind
    · exact confined_throwIf _ _ _
    intro _
    apply Prog.Confined.bind
    · exact confined_statement fun _ h => by cases h
    · intro _
      trivial

/-- A program of a table's write: it takes no id and makes no document. -/
structure TableProg (R T α : Type) where
  program : Prog R T α
  confined : program.Confined fun _ => False

/-- A staged write of a table, any of them. -/
def stageTable (order : WriteOrder) (program : Nat → TableProg R T (List (StoreWrite D))) :
    StagedWrite R T D where
  order := order
  explicit := []
  apply seq := (program seq).program
  inserts seq := ((program seq).confined.mono fun _ => False.elim).inserts

/-- The writes of a commit in the order they apply. -/
def inOrder (writes : List (StagedWrite R T D)) : List (StagedWrite R T D) :=
  ORDER.flatMap fun order => writes.filter fun write => write.order = order

/-- Applies writes one after the other; what they recorded. -/
def applyEach (seq : Nat) : List (StagedWrite R T D) → Prog R T (List (StoreWrite D))
  | [] => pure []
  | write :: rest => do
    let done ← write.apply seq
    let others ← applyEach seq rest
    return done ++ others

/-- The staged writes of a commit, each in its phase. -/
def applyAll (seq : Nat) (writes : List (StagedWrite R T D)) : Prog R T (List (StoreWrite D)) :=
  applyEach seq (inOrder writes)

def explicitIds (writes : List (StagedWrite R T D)) : List Nat :=
  writes.flatMap StagedWrite.explicit

theorem inserts_applyEach (seq : Nat) (writes : List (StagedWrite R T D)) :
    (applyEach seq writes).Inserts (· ∈ explicitIds writes) := by
  induction writes with
  | nil => trivial
  | cons write rest ih =>
    apply Prog.Inserts.bind
    · apply (write.inserts seq).mono
      intro id hId
      exact mem_flatMap.mpr ⟨write, mem_cons_self, hId⟩
    intro done
    apply Prog.Inserts.bind
    · apply ih.mono
      intro id hId
      obtain ⟨other, hOther, hExplicit⟩ := mem_flatMap.mp hId
      exact mem_flatMap.mpr ⟨other, mem_cons_of_mem _ hOther, hExplicit⟩
    · intro others
      trivial

theorem inserts_applyAll (seq : Nat) (writes : List (StagedWrite R T D)) :
    (applyAll seq writes).Inserts (· ∈ explicitIds writes) := by
  apply (inserts_applyEach seq (inOrder writes)).mono
  intro id hId
  obtain ⟨write, hWrite, hExplicit⟩ := mem_flatMap.mp hId
  obtain ⟨order, _, hMem⟩ := mem_flatMap.mp hWrite
  exact mem_flatMap.mpr ⟨write, mem_of_mem_filter hMem, hExplicit⟩

/-- A check of a series' commit over its step: it reads and writes nothing. It
sees a failed call of the backend, which it may catch. -/
inductive Check (R T C : Type) where
  | done (found : C)
  | throw (thrown : Thrown)
  | query (next : Except Thrown (Content R) → Check R T C)
  | table (name : String) (next : Option T → Check R T C)

/-- `SeriesCommit`: its check, and its writes, which use what the check found. -/
structure SeriesCommit (R T D C : Type) where
  check : Check R T C
  writes : List (C → StagedWrite R T D)
  explicit : List Nat
  staged : ∀ write ∈ writes, ∀ found, (write found).explicit ⊆ explicit

/-- The writes of a commit whose check found this. -/
def SeriesCommit.resolved {C : Type} (commit : SeriesCommit R T D C) (found : C) :
    List (StagedWrite R T D) :=
  commit.writes.map fun write => write found

theorem SeriesCommit.explicit_resolved {C : Type} (commit : SeriesCommit R T D C) (found : C) :
    explicitIds (commit.resolved found) ⊆ commit.explicit := by
  intro id hId
  obtain ⟨write, hWrite, hExplicit⟩ := mem_flatMap.mp hId
  obtain ⟨staged, hStaged, rfl⟩ := mem_map.mp hWrite
  exact commit.staged staged hStaged found hExplicit

/-- The applier of one recorded write, that of a table's left open. A change or a
retirement needs its document live at the recorded revision. -/
def applyWrite (applyTable : D → TableProg R T Unit) (seq : Nat) : StoreWrite D → Prog R T Unit
  | .create record base => insertDocument record base
  | .revision row => statement (.insertRevision row)
  | .change id revision content => .query fun stored =>
    match stored.documents.find? (Statement.isLiveAt id revision) with
    | none => .throw (.diverged s!"document {id} is not live at revision {revision}")
    | some record => writeContent seq id record.history revision content
  | .retire id revision => .query fun stored =>
    match stored.documents.find? (Statement.isLiveAt id revision) with
    | none => .throw (.diverged s!"document {id} is not live at revision {revision}")
    | some record => retireRecord seq record
  | .table write => (applyTable write).program

/-- `checkCreated`: a created document's id is below its commit's next id, or the
saturated one itself. -/
def checkCreated (id nextId : Nat) : Bool :=
  id < nextId || nextId = MAX_SAFE_INTEGER && id = nextId

def applyBatchWrites (applyTable : D → TableProg R T Unit) (seq nextId : Nat) :
    List (StoreWrite D) → Prog R T Unit
  | [] => pure ()
  | .create record base :: rest => do
    throwIf (!checkCreated record.id nextId)
      (.error s!"id {record.id} is not below the commit's next id {nextId}")
    applyWrite applyTable seq (.create record base)
    applyBatchWrites applyTable seq nextId rest
  | write :: rest => do
    applyWrite applyTable seq write
    applyBatchWrites applyTable seq nextId rest

def StoreWrite.createdId : StoreWrite D → Option Nat
  | .create record _ => some record.id
  | _ => none

theorem confined_applyWrite (applyTable : D → TableProg R T Unit) (seq : Nat) (write : StoreWrite D) :
    (applyWrite applyTable seq write).Confined fun id => write.createdId = some id := by
  cases write with
  | create record base => exact confined_insertDocument record base rfl
  | revision row => exact confined_statement fun _ h => by cases h
  | change id revision content =>
    intro stored
    dsimp only
    split
    · trivial
    · exact confined_writeContent _ _ _ _ _ _
  | retire id revision =>
    intro stored
    dsimp only
    split
    · trivial
    · exact confined_retireRecord _ _ _
  | table write => exact (applyTable write).confined.mono fun _ => False.elim

/-- The writes of a batch's commit create records with checked ids only. -/
theorem confined_applyBatchWrites (applyTable : D → TableProg R T Unit) (seq nextId : Nat) (writes : List (StoreWrite D)) :
    (applyBatchWrites applyTable seq nextId writes).Confined fun id => checkCreated id nextId = true := by
  induction writes with
  | nil => trivial
  | cons write rest ih =>
    cases write with
    | create record base =>
      by_cases hCheck : checkCreated record.id nextId = true
      · apply Prog.Confined.bind
        · exact confined_throwIf _ _ _
        intro _
        apply Prog.Confined.bind
        · apply (confined_applyWrite applyTable seq _).mono
          intro id hId
          exact Option.some.inj hId ▸ hCheck
        · exact fun _ => ih
      · simp only [Bool.not_eq_true] at hCheck
        simp only [applyBatchWrites, hCheck, throwIf, Bool.not_false, if_true]
        trivial
    | revision row =>
      apply Prog.Confined.bind
      · exact (confined_applyWrite applyTable seq _).mono fun _ h => by cases h
      · exact fun _ => ih
    | change id revision content =>
      apply Prog.Confined.bind
      · exact (confined_applyWrite applyTable seq _).mono fun _ h => by cases h
      · exact fun _ => ih
    | retire id revision =>
      apply Prog.Confined.bind
      · exact (confined_applyWrite applyTable seq _).mono fun _ h => by cases h
      · exact fun _ => ih
    | table write =>
      apply Prog.Confined.bind
      · exact (confined_applyWrite applyTable seq _).mono fun _ h => by cases h
      · exact fun _ => ih

end OctoberHarness.ChordStore
