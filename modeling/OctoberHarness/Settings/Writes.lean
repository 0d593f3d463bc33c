import OctoberHarness.Library.Transition
import OctoberHarness.Settings.Setters

/-! One scope of the settings manager: setters save copies of the settings and
of the mark tables, and a queue of writes merges them into the file, which
others edit too. -/
namespace OctoberHarness.Settings

open List Option

/-- A queued write: the settings and the tables as `save` copied them. -/
structure Write where
  settings : Fields
  marks : Marks
deriving DecidableEq

/-- `persistScopedSettings`: the file afterwards; `none` where it throws. -/
def Write.persist (write : Write) (file : Content) : Option Content :=
  file.read.map fun current => .json (.obj (mergeSettings current write.settings write.marks))

/-- The scope of a manager, with its file. -/
structure Manager where
  memory : Fields
  marks : Marks
  loadError : Bool
  queue : List Write
  file : Content

/-- `save` and `saveProjectSettings`. -/
def Manager.save (manager : Manager) : Manager :=
  if manager.loadError then manager
  else { manager with queue := manager.queue ++ [⟨manager.memory, manager.marks⟩] }

/-- A setter that changed the settings: marks, then save. -/
def Manager.set (manager : Manager) (memory : Fields) (keys : List Key) : Manager :=
  { manager with memory := memory, marks := keys.foldl Marks.mark manager.marks }.save

namespace Manager

variable (manager : Manager) (memory : Fields) (keys : List Key)

@[simp] theorem set_memory : (manager.set memory keys).memory = memory := by
  unfold set save
  split_ifs <;> rfl

@[simp] theorem set_marks : (manager.set memory keys).marks = keys.foldl Marks.mark manager.marks := by
  unfold set save
  split_ifs <;> rfl

@[simp] theorem set_loadError : (manager.set memory keys).loadError = manager.loadError := by
  unfold set save
  split_ifs <;> rfl

@[simp] theorem set_file : (manager.set memory keys).file = manager.file := by
  unfold set save
  split_ifs <;> rfl

theorem set_queue :
    (manager.set memory keys).queue =
      if manager.loadError then manager.queue
      else manager.queue ++ [⟨memory, keys.foldl Marks.mark manager.marks⟩] := by
  unfold set save
  split_ifs <;> rfl

end Manager

/-- The keys a write carries that the tables no longer name. -/
def Write.unmarked (write : Write) (marks : Marks) : List Key :=
  ((write.marks.fields.filter fun field => field ∉ marks.fields).map Key.whole) ++
    (write.marks.nested.filter fun entry => entry ∉ marks.nested).map fun entry => .nested entry.1 entry.2

/-- What has happened to a scope since it was loaded. -/
inductive Entry where
  | set (keys : List Key)
  | wrote (content : Content)
  | failed (unmarked : List Key)
  | edited (content : Content)

structure Scope where
  manager : Manager
  log : List Entry

/-- A scope just after its file was loaded. -/
def loaded (memory : Fields) (loadError : Bool) (file : Content) : Scope :=
  { manager := { memory := memory, marks := Marks.cleared, loadError := loadError, queue := [], file := file }
    log := [] }

/-- What may happen next: a setter is called, the first queued write runs with
or without success, somebody else replaces the file. -/
inductive Event where
  | set (setter : Setter)
  | written
  | failed
  | edited (content : Content)

/-- One step of a scope. Writes run one after the other, in the order of
`enqueueWrite`; only a write that succeeds clears the tables. -/
def step (scope : Scope) : Event → Option Scope
  | .set setter =>
    match changeOf scope.manager.memory setter with
    | some (memory, keys) =>
      some { manager := scope.manager.set memory keys, log := scope.log ++ [.set keys] }
    | none => some scope
  | .written =>
    match scope.manager.queue with
    | write :: rest =>
      (write.persist scope.manager.file).map fun content =>
        { manager := { scope.manager with queue := rest, marks := Marks.cleared, file := content }
          log := scope.log ++ [.wrote content] }
    | [] => none
  | .failed =>
    match scope.manager.queue with
    | write :: rest =>
      some { manager := { scope.manager with queue := rest }
             log := scope.log ++ [.failed (write.unmarked scope.manager.marks)] }
    | [] => none
  | .edited content =>
    some { manager := { scope.manager with file := content }, log := scope.log ++ [.edited content] }

/-! What a history says. -/

/-- A setter set the key since the load. -/
def SetIn (log : List Entry) (key : Key) : Prop :=
  ∃ keys, .set keys ∈ log ∧ key ∈ keys

/-- The content that the last edit from outside left, or the one loaded. -/
def external (file : Content) (log : List Entry) : Content :=
  log.foldl (fun file entry => match entry with | .edited content => content | _ => file) file

/-- No failed write carried the key after its mark was cleared. -/
def NotLost (log : List Entry) (key : Key) : Prop :=
  ∀ unmarked, .failed unmarked ∈ log → key ∉ unmarked

/-- What a file holds at a key, as the manager reads it. -/
def seen (file : Content) (key : Key) : Option JsonValue :=
  file.read.bind fun settings => valueAt settings key

/-- A key that setting another leaves alone. -/
def Apart (changed : Key) : Key → Prop
  | .whole field => changed.field ≠ field
  | .nested field key => changed ≠ .whole field ∧ changed ≠ .nested field key

/-- A write stored a value at a key, and `after` is what happened since, with
no setter of the key. -/
def WrittenBefore (log : List Entry) (value : Option JsonValue) (key : Key) (after : List Entry) : Prop :=
  ∃ before content, log = before ++ .wrote content :: after ∧ seen content key = value ∧
    ∀ keys, .set keys ∈ after → key ∉ keys

/-- The latest value of a key was written, and the file was edited from outside
after that. -/
def StoredThenEdited (log : List Entry) (value : Option JsonValue) (key : Key) : Prop :=
  ∃ after, WrittenBefore log value key after ∧ ∃ edit, .edited edit ∈ after

theorem setIn_append (log : List Entry) (entry : Entry) (key : Key) :
    SetIn (log ++ [entry]) key ↔ SetIn log key ∨ ∃ keys, entry = .set keys ∧ key ∈ keys := by
  constructor
  · rintro ⟨keys, hMem, hKey⟩
    rcases mem_append.mp hMem with hMem | hMem
    · exact .inl ⟨keys, hMem, hKey⟩
    · exact .inr ⟨keys, (mem_singleton.mp hMem).symm, hKey⟩
  · rintro (⟨keys, hMem, hKey⟩ | ⟨keys, rfl, hKey⟩)
    · exact ⟨keys, mem_append_left _ hMem, hKey⟩
    · exact ⟨keys, mem_append_right _ (mem_singleton_self _), hKey⟩

theorem external_append (file : Content) (log : List Entry) (entry : Entry) :
    external file (log ++ [entry]) =
      match entry with | .edited content => content | _ => external file log := by
  rw [external, foldl_append]
  cases entry <;> rfl

theorem WrittenBefore.append {log after : List Entry} {value : Option JsonValue} {key : Key}
    (h : WrittenBefore log value key after) {entry : Entry} (hEntry : ∀ keys, entry = .set keys → key ∉ keys) :
    WrittenBefore (log ++ [entry]) value key (after ++ [entry]) := by
  obtain ⟨before, content, hLog, hContent, hLast⟩ := h
  refine ⟨before, content, ?_, hContent, ?_⟩
  · rw [hLog, append_assoc, cons_append]
  · intro keys hKeys
    rcases mem_append.mp hKeys with hOld | hNew
    · exact hLast keys hOld
    · exact hEntry keys (mem_singleton.mp hNew).symm

theorem NotLost.of_append {log : List Entry} {entry : Entry} {key : Key} (h : NotLost (log ++ [entry]) key) :
    NotLost log key :=
  fun unmarked hMem => h unmarked (mem_append_left _ hMem)

/-! What a read of a written file gives. -/

theorem migrated_read {file : Content} {settings : Fields} (h : file.read = some settings) : Migrated settings := by
  cases file with
  | empty =>
    obtain rfl := some.inj h
    constructor <;> simp
  | malformed => exact nomatch h
  | json value =>
    simp only [Content.read, ite_none_right_eq_some, some.injEq] at h
    rw [← h.2]
    exact migrated_migrateSettings _

section

variable {write : Write} {file content : Content} (hSound : Sound write.settings write.marks)
    (h : write.persist file = some content)

include hSound h

theorem Write.read_persist
    :
    ∃ current, file.read = some current ∧
      content = .json (.obj (mergeSettings current write.settings write.marks)) ∧
      content.read = some (mergeSettings current write.settings write.marks) := by
  obtain ⟨current, hRead, rfl⟩ := map_eq_some_iff.mp h
  refine ⟨current, hRead, rfl, ?_⟩
  rw [Content.read, JsonValue.isContainer, if_pos rfl, spread,
    migrateSettings_eq (hSound.migrated (migrated_read hRead))]

theorem Write.seen_marked {key : Key} (hProper : key.Proper) (hMarked : write.marks.Has key) :
    seen content key = valueAt write.settings key := by
  obtain ⟨current, _, _, hRead⟩ := Write.read_persist hSound h
  rw [seen, hRead, bind_some, hSound.valueAt_marked hProper hMarked]

theorem Write.seen_untouched {key : Key} (hKey : Untouched write.marks key) :
    seen content key = seen file key := by
  obtain ⟨current, hCurrent, _, hRead⟩ := Write.read_persist hSound h
  rw [seen, hRead, bind_some, hSound.valueAt_untouched hKey, seen, hCurrent, bind_some]

end

end OctoberHarness.Settings
