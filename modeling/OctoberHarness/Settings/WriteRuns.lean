import OctoberHarness.Settings.Writes

/-! What the file holds after any sequence of setters, writes, failures and
edits from outside. -/
namespace OctoberHarness.Settings

open List

/-! The tables and the queued copies. -/

/-- Every mark comes from a setter of this history. -/
structure Traced (log : List Entry) (marks : Marks) : Prop where
  fields : ∀ field ∈ marks.fields, ∃ key, SetIn log key ∧ key.field = field
  nested : ∀ field key, (field, key) ∈ marks.nested → SetIn log (.nested field key)

variable {marks : Marks} {key : Key} {keys : List Key} {start : Content} {scope : Scope} {memory : Fields}
    {write : Write} {rest : List Write}

theorem Traced.append {log : List Entry} (h : Traced log marks) (entry : Entry) :
    Traced (log ++ [entry]) marks := by
  constructor
  · intro field hField
    obtain ⟨key, hSet, hKey⟩ := h.fields field hField
    exact ⟨key, (setIn_append _ _ _).mpr (.inl hSet), hKey⟩
  · intro field key hKey
    exact (setIn_append _ _ _).mpr (.inl (h.nested field key hKey))

theorem traced_cleared (log : List Entry) : Traced log Marks.cleared := by
  constructor <;> simp [Marks.cleared]

theorem Traced.untouched {log : List Entry} (h : Traced log marks)
    (hProper : ∀ key, SetIn log key → key.Proper) (hApart : ∀ changed, SetIn log changed → Apart changed key) :
    Untouched marks key := by
  cases key with
  | whole field =>
    intro hField
    obtain ⟨changed, hSet, hSame⟩ := h.fields field hField
    exact hApart changed hSet hSame
  | nested field key =>
    refine ⟨fun hEntry => (hApart _ (h.nested field key hEntry)).2 rfl, fun hField => ?_⟩
    obtain ⟨changed, hSet, hSame⟩ := h.fields field hField
    cases changed with
    | whole other =>
      obtain rfl : other = field := hSame
      exact absurd rfl (hApart _ hSet).1
    | nested other inner =>
      obtain rfl : other = field := hSame
      exact (hProper _ hSet).1

/-! Marking the keys of a setter. -/

theorem mem_fields_mark (marks : Marks) (key : Key) (field : JsString) :
    field ∈ (marks.mark key).fields ↔ field ∈ marks.fields ∨ field = key.field := by
  cases key <;> simp [Marks.mark, Key.field]

theorem mem_nested_mark (marks : Marks) (hProper : key.Proper) (entry : JsString × JsString) :
    entry ∈ (marks.mark key).nested ↔ entry ∈ marks.nested ∨ key = .nested entry.1 entry.2 := by
  cases key with
  | whole field => simp [Marks.mark]
  | nested field key =>
    rw [Marks.mark, if_neg hProper.2.1, Marks.mem_addTo]
    constructor
    · rintro (hOld | rfl)
      · exact .inl hOld
      · exact .inr rfl
    · rintro (hOld | hNew)
      · exact .inl hOld
      · simp only [Key.nested.injEq] at hNew
        exact .inr (Prod.ext hNew.1.symm hNew.2.symm)

theorem mem_fields_marks (keys : List Key) (marks : Marks) (field : JsString) :
    field ∈ (keys.foldl Marks.mark marks).fields ↔ field ∈ marks.fields ∨ ∃ key ∈ keys, key.field = field := by
  induction keys generalizing marks with
  | nil => simp
  | cons first rest ih =>
    rw [foldl_cons, ih, mem_fields_mark, exists_mem_cons_iff, or_assoc, eq_comm (a := field)]

theorem mem_nested_marks (keys : List Key) (marks : Marks) (hProper : ∀ key ∈ keys, key.Proper) (entry : JsString × JsString) :
    entry ∈ (keys.foldl Marks.mark marks).nested ↔ entry ∈ marks.nested ∨ .nested entry.1 entry.2 ∈ keys := by
  induction keys generalizing marks with
  | nil => simp
  | cons first rest ih =>
    rw [foldl_cons, ih _ fun key hKey => hProper key (mem_cons_of_mem _ hKey),
      mem_nested_mark _ (hProper first mem_cons_self), mem_cons, or_assoc, eq_comm (a := first)]

theorem has_marks (keys : List Key) (marks : Marks) (hProper : ∀ key ∈ keys, key.Proper)
    (hKey : key.Proper) : (keys.foldl Marks.mark marks).Has key ↔ marks.Has key ∨ key ∈ keys := by
  cases key with
  | whole field =>
    rw [Marks.Has, mem_fields_marks, Marks.Has]
    constructor
    · rintro (hOld | ⟨changed, hMem, rfl⟩)
      · exact .inl hOld
      · cases changed with
        | whole field => exact .inr hMem
        | nested field inner => exact absurd (hProper _ hMem).1 hKey.1
    · rintro (hOld | hMem)
      · exact .inl hOld
      · exact .inr ⟨_, hMem, rfl⟩
  | nested field key => exact mem_nested_marks keys marks hProper (field, key)

theorem Sound.set {memory next : Fields} (h : Sound memory marks)
    (hChanges : Changes memory next keys) : Sound next (keys.foldl Marks.mark marks) := by
  have hProper := fun key hKey => (hChanges.proper key hKey).1
  constructor
  case whole =>
    intro field hField hWhole
    rcases (mem_fields_marks keys marks field).mp hField with hOld | ⟨key, hKey, rfl⟩
    · obtain ⟨hOldProper, hSuits⟩ := h.whole field hOld hWhole
      exact ⟨hOldProper, hChanges.suits hOldProper hSuits⟩
    · cases key with
      | whole field => exact hChanges.proper _ hKey
      | nested field inner => exact absurd (hProper _ hKey).1 hWhole
  case entry =>
    intro field hField hNested
    rcases (mem_fields_marks keys marks field).mp hField with hOld | ⟨key, hKey, rfl⟩
    · obtain ⟨inner, hInner⟩ := h.entry field hOld hNested
      exact ⟨inner, (mem_nested_marks keys marks hProper _).mpr (.inl hInner)⟩
    · cases key with
      | whole field => exact absurd hNested (hProper _ hKey).1
      | nested field inner => exact ⟨inner, (mem_nested_marks keys marks hProper _).mpr (.inr hKey)⟩
  case nested =>
    intro field key hEntry
    rcases (mem_nested_marks keys marks hProper _).mp hEntry with hOld | hNew
    · obtain ⟨hField, hOldProper, hSuits⟩ := h.nested field key hOld
      exact ⟨(mem_fields_marks keys marks field).mpr (.inl hField), hOldProper, hChanges.suits hOldProper hSuits⟩
    · exact ⟨(mem_fields_marks keys marks field).mpr (.inr ⟨_, hNew, rfl⟩), hChanges.proper _ hNew⟩

theorem Traced.set {log : List Entry} (h : Traced log marks)
    (hProper : ∀ key ∈ keys, key.Proper) : Traced (log ++ [.set keys]) (keys.foldl Marks.mark marks) := by
  have hKeys : ∀ key ∈ keys, SetIn (log ++ [.set keys]) key :=
    fun key hKey => (setIn_append _ _ _).mpr (.inr ⟨keys, rfl, hKey⟩)
  constructor
  · intro field hField
    rcases (mem_fields_marks keys marks field).mp hField with hOld | ⟨key, hKey, hSame⟩
    · exact (h.append _).fields field hOld
    · exact ⟨key, hKeys key hKey, hSame⟩
  · intro field key hEntry
    rcases (mem_nested_marks keys marks hProper _).mp hEntry with hOld | hNew
    · exact (h.append _).nested field key hOld
    · exact hKeys _ hNew

/-! What every step keeps of a scope as a whole. -/

/-- The tables and the queued copies are sound, and whatever no setter touched
is in the file as the last edit from outside left it. -/
structure Kept (start : Content) (scope : Scope) : Prop where
  proper : ∀ key, SetIn scope.log key → key.Proper
  sound : Sound scope.manager.memory scope.manager.marks
  traced : Traced scope.log scope.manager.marks
  writes : ∀ write ∈ scope.manager.queue, Sound write.settings write.marks ∧ Traced scope.log write.marks
  idle : scope.manager.loadError = true → scope.manager.queue = []
  base : ∀ key, (∀ changed, SetIn scope.log changed → Apart changed key) →
    seen scope.manager.file key = seen (external start scope.log) key
  readable : (∃ settings, scope.manager.file.read = some settings) →
    ∃ settings, (external start scope.log).read = some settings

theorem kept_loaded (memory : Fields) (loadError : Bool) (file : Content) : Kept file (loaded memory loadError file) := by
  constructor
  case sound => exact Sound.cleared memory
  case traced => exact traced_cleared []
  case readable => exact id
  case base => exact fun key _ => rfl
  case idle => exact fun _ => rfl
  case proper =>
    rintro key ⟨keys, hMem, _⟩
    exact nomatch hMem
  case writes => exact fun write hMem => nomatch hMem

theorem Kept.set (h : Kept start scope) (hChanges : Changes scope.manager.memory memory keys) :
    Kept start { manager := scope.manager.set memory keys, log := scope.log ++ [.set keys] } := by
  have hProper := fun key hKey => (hChanges.proper key hKey).1
  have hSound := h.sound.set hChanges
  have hTraced := h.traced.set hProper
  constructor
  case proper =>
    intro key hSet
    rcases (setIn_append _ _ _).mp hSet with hOld | ⟨new, hNew, hKey⟩
    · exact h.proper key hOld
    · cases hNew
      exact hProper key hKey
  case sound => simpa using hSound
  case traced => simpa using hTraced
  case writes =>
    intro write hWrite
    rw [Manager.set_queue] at hWrite
    have hOld : write ∈ scope.manager.queue → Sound write.settings write.marks ∧
        Traced (scope.log ++ [.set keys]) write.marks :=
      fun hMem => ⟨(h.writes write hMem).1, (h.writes write hMem).2.append _⟩
    split_ifs at hWrite
    · exact hOld hWrite
    · rcases mem_append.mp hWrite with hWrite | hWrite
      · exact hOld hWrite
      · obtain rfl := mem_singleton.mp hWrite
        exact ⟨hSound, hTraced⟩
  case idle =>
    intro hError
    rw [Manager.set_loadError] at hError
    rw [Manager.set_queue, if_pos hError]
    exact h.idle hError
  case base =>
    intro key hApart
    rw [Manager.set_file, external_append]
    exact h.base key fun changed hSet => hApart changed ((setIn_append _ _ _).mpr (.inl hSet))
  case readable =>
    rw [Manager.set_file, external_append]
    exact h.readable

variable {scope : Scope} {start : Content} {rest : List Write} {write : Write}

theorem Kept.tail (h : Kept start scope) (hQueue : scope.manager.queue = write :: rest) (entry : Entry) :
    ∀ later ∈ rest, Sound later.settings later.marks ∧ Traced (scope.log ++ [entry]) later.marks := by
  intro later hLater
  obtain ⟨hSound, hTraced⟩ := h.writes later (by rw [hQueue]; exact mem_cons_of_mem _ hLater)
  exact ⟨hSound, hTraced.append entry⟩

theorem Kept.loadError (h : Kept start scope)
    (hQueue : scope.manager.queue = write :: rest) : scope.manager.loadError ≠ true := by
  intro hError
  rw [h.idle hError] at hQueue
  exact nomatch hQueue

theorem setIn_append_of_ne (log : List Entry) {entry : Entry} (hEntry : ∀ keys, entry ≠ .set keys) (key : Key) :
    SetIn (log ++ [entry]) key ↔ SetIn log key := by
  rw [setIn_append]
  constructor
  · rintro (hOld | ⟨keys, hNew, _⟩)
    · exact hOld
    · exact absurd hNew (hEntry keys)
  · exact Or.inl

variable {content : Content}

theorem Kept.written (h : Kept start scope) (hQueue : scope.manager.queue = write :: rest)
    (hPersist : write.persist scope.manager.file = some content) :
    Kept start
      { manager := { scope.manager with queue := rest, marks := Marks.cleared, file := content }
        log := scope.log ++ [.wrote content] } := by
  obtain ⟨hSound, hTraced⟩ := h.writes write (by rw [hQueue]; exact mem_cons_self)
  have hLog := @setIn_append_of_ne scope.log (.wrote content) (fun keys => nofun)
  constructor
  case proper => exact fun key hSet => h.proper key ((hLog key).mp hSet)
  case sound => exact Sound.cleared _
  case traced => exact traced_cleared _
  case writes => exact h.tail hQueue _
  case idle => exact fun hError => absurd hError (h.loadError hQueue)
  case base =>
    intro key hApart
    have hOld : ∀ changed, SetIn scope.log changed → Apart changed key :=
      fun changed hSet => hApart changed ((hLog changed).mpr hSet)
    rw [external_append, Write.seen_untouched hSound hPersist (hTraced.untouched h.proper hOld)]
    exact h.base key hOld
  case readable =>
    intro _
    obtain ⟨current, hRead, _⟩ := Write.read_persist hSound hPersist
    rw [external_append]
    exact h.readable ⟨current, hRead⟩

theorem Kept.failed (h : Kept start scope) (hQueue : scope.manager.queue = write :: rest) (unmarked : List Key) :
    Kept start
      { manager := { scope.manager with queue := rest }, log := scope.log ++ [.failed unmarked] } := by
  have hLog := @setIn_append_of_ne scope.log (.failed unmarked) (fun keys => nofun)
  constructor
  case proper => exact fun key hSet => h.proper key ((hLog key).mp hSet)
  case sound => exact h.sound
  case traced => exact h.traced.append _
  case writes => exact h.tail hQueue _
  case idle => exact fun hError => absurd hError (h.loadError hQueue)
  case base =>
    intro key hApart
    rw [external_append]
    exact h.base key fun changed hSet => hApart changed ((hLog changed).mpr hSet)
  case readable =>
    rw [external_append]
    exact h.readable

theorem Kept.edited (h : Kept start scope) (content : Content) :
    Kept start
      { manager := { scope.manager with file := content }, log := scope.log ++ [.edited content] } := by
  have hLog := @setIn_append_of_ne scope.log (.edited content) (fun keys => nofun)
  constructor
  case proper => exact fun key hSet => h.proper key ((hLog key).mp hSet)
  case sound => exact h.sound
  case traced => exact h.traced.append _
  case writes => exact fun write hWrite => ⟨(h.writes write hWrite).1, (h.writes write hWrite).2.append _⟩
  case idle => exact h.idle
  case base =>
    intro key _
    rw [external_append]
  case readable =>
    rw [external_append]
    exact id

variable {event : Event} {next : Scope}

theorem step_cases (h : step scope event = some next) :
    (∃ memory keys, Changes scope.manager.memory memory keys ∧
      next = { manager := scope.manager.set memory keys, log := scope.log ++ [.set keys] }) ∨
    next = scope ∨
    (∃ write rest content, event = .written ∧ scope.manager.queue = write :: rest ∧
      write.persist scope.manager.file = some content ∧
      next = { manager := { scope.manager with queue := rest, marks := Marks.cleared, file := content }
               log := scope.log ++ [.wrote content] }) ∨
    (∃ write rest, scope.manager.queue = write :: rest ∧
      next = { manager := { scope.manager with queue := rest }
               log := scope.log ++ [.failed (write.unmarked scope.manager.marks)] }) ∨
    ∃ content, next = { manager := { scope.manager with file := content }, log := scope.log ++ [.edited content] } := by
  cases event with
  | set setter =>
    simp only [step] at h
    split at h
    next memory keys hChange =>
      obtain rfl := Option.some.inj h
      exact .inl ⟨memory, keys, changes_of_setter hChange, rfl⟩
    · obtain rfl := Option.some.inj h
      exact .inr (.inl rfl)
  | written =>
    simp only [step] at h
    split at h
    next write rest hQueue =>
      obtain ⟨content, hPersist, rfl⟩ := Option.map_eq_some_iff.mp h
      exact .inr (.inr (.inl ⟨write, rest, content, rfl, hQueue, hPersist, rfl⟩))
    · exact nomatch h
  | failed =>
    simp only [step] at h
    split at h
    next write rest hQueue =>
      obtain rfl := Option.some.inj h
      exact .inr (.inr (.inr (.inl ⟨write, rest, hQueue, rfl⟩)))
    · exact nomatch h
  | edited content =>
    obtain rfl := Option.some.inj h
    exact .inr (.inr (.inr (.inr ⟨content, rfl⟩)))

theorem Kept.step (h : Kept start scope) (hStep : Settings.step scope event = some next) : Kept start next := by
  rcases step_cases hStep with ⟨memory, keys, hChanges, rfl⟩ | rfl | ⟨write, rest, content, _, hQueue, hPersist, rfl⟩ |
    ⟨write, rest, hQueue, rfl⟩ | ⟨content, rfl⟩
  · exact h.set hChanges
  · exact h
  · exact h.written hQueue hPersist
  · exact h.failed hQueue _
  · exact h.edited content

/-! Where the latest value of a key that was set is. -/

/-- The value a queued copy has at a key is the latest one. -/
def Agrees (scope : Scope) (key : Key) (write : Write) : Prop :=
  valueAt write.settings key = valueAt scope.manager.memory key

/-- The file holds the latest value of a key, unless it was edited from outside
after that value was written. -/
def InFile (start : Content) (scope : Scope) (key : Key) (after : List Entry) : Prop :=
  seen scope.manager.file key = valueAt scope.manager.memory key ∨
    (∃ edit, .edited edit ∈ after) ∧ seen scope.manager.file key = seen (external start scope.log) key

/-- The value was written and stands in the file; every queued write that
carries the key has it. -/
def Stored (start : Content) (scope : Scope) (key : Key) : Prop :=
  (∃ after, WrittenBefore scope.log (valueAt scope.manager.memory key) key after ∧ InFile start scope key after) ∧
    ∀ write ∈ scope.manager.queue, write.marks.Has key → Agrees scope key write

/-- The key is still marked, and the writes queued since it was set carry it. -/
def Marked (scope : Scope) (key : Key) : Prop :=
  scope.manager.marks.Has key ∧ ∃ old new, scope.manager.queue = old ++ new ∧
    (∀ write ∈ new, write.marks.Has key ∧ Agrees scope key write) ∧ (old ≠ [] → new ≠ [])

/-- An earlier write cleared the mark, and a queued write carries the key. -/
def Queued (scope : Scope) (key : Key) : Prop :=
  ¬ scope.manager.marks.Has key ∧ ∃ old write rest, scope.manager.queue = old ++ write :: rest ∧
    write.marks.Has key ∧ Agrees scope key write ∧ ∀ later ∈ rest, later.marks.Has key → Agrees scope key later

/-- A key that was set is written, marked or queued, unless a failed write
lost it. -/
def Held (start : Content) (scope : Scope) (key : Key) : Prop :=
  SetIn scope.log key → NotLost scope.log key → Stored start scope key ∨ Marked scope key ∨ Queued scope key

theorem agrees_set {memory : Fields} {keys : List Key} {log : List Entry} {key : Key}
    (hChanges : Changes scope.manager.memory memory keys) (hProper : key.Proper) (hKey : key ∉ keys) (write : Write) :
    Agrees { manager := scope.manager.set memory keys, log := log } key write ↔ Agrees scope key write := by
  rw [Agrees, Manager.set_memory, hChanges.other key hProper hKey, Agrees]

theorem held_set_self (h : Kept start scope) (hChanges : Changes scope.manager.memory memory keys) (hKey : key ∈ keys) :
    Marked { manager := scope.manager.set memory keys, log := scope.log ++ [.set keys] } key := by
  have hHas : (keys.foldl Marks.mark scope.manager.marks).Has key :=
    (has_marks keys _ (fun other hOther => (hChanges.proper other hOther).1) (hChanges.proper key hKey).1).mpr
      (.inr hKey)
  refine ⟨by simpa using hHas, ?_⟩
  rw [Manager.set_queue]
  by_cases hError : scope.manager.loadError = true
  · refine ⟨[], [], ?_, fun write hWrite => (nomatch hWrite), fun hOld => absurd rfl hOld⟩
    rw [if_pos hError, h.idle hError, append_nil]
  · refine ⟨scope.manager.queue, [_], if_neg hError, ?_, fun _ => cons_ne_nil _ _⟩
    intro write hWrite
    obtain rfl := mem_singleton.mp hWrite
    refine ⟨hHas, ?_⟩
    rw [Agrees, Manager.set_memory]

theorem mem_set_queue {manager : Manager} (h : write ∈ (manager.set memory keys).queue) :
    write ∈ manager.queue ∨ write = ⟨memory, keys.foldl Marks.mark manager.marks⟩ := by
  rw [Manager.set_queue] at h
  split_ifs at h
  · exact .inl h
  · rcases mem_append.mp h with hOld | hNew
    · exact .inl hOld
    · exact .inr (mem_singleton.mp hNew)

theorem InFile.append {after : List Entry} (h : InFile start scope key after) (entry : Entry)
    (hMemory : valueAt next.manager.memory key = valueAt scope.manager.memory key)
    (hFile : seen next.manager.file key = seen scope.manager.file key)
    (hExternal : external start next.log = external start scope.log) : InFile start next key (after ++ [entry]) := by
  rw [InFile, hMemory, hFile, hExternal]
  rcases h with hSame | ⟨⟨edit, hEdit⟩, hBase⟩
  · exact .inl hSame
  · exact .inr ⟨⟨edit, mem_append_left _ hEdit⟩, hBase⟩

theorem Stored.set (h : Stored start scope key)
    (hChanges : Changes scope.manager.memory memory keys) (hProper : key.Proper) (hKey : key ∉ keys) :
    Stored start { manager := scope.manager.set memory keys, log := scope.log ++ [.set keys] } key := by
  obtain ⟨⟨after, hWritten, hFile⟩, hQueue⟩ := h
  have hMemory : valueAt (scope.manager.set memory keys).memory key = valueAt scope.manager.memory key := by
    rw [Manager.set_memory, hChanges.other key hProper hKey]
  have hEntry : ∀ other, Entry.set keys = .set other → key ∉ other := by
    intro other hSame
    cases hSame
    exact hKey
  constructor
  · rw [hMemory]
    exact ⟨_, hWritten.append hEntry, hFile.append _ hMemory (by rw [Manager.set_file]) (external_append _ _ _)⟩
  · intro write hWrite hHas
    rcases mem_set_queue hWrite with hOld | rfl
    · exact (agrees_set hChanges hProper hKey write).mpr (hQueue write hOld hHas)
    · rw [Agrees, Manager.set_memory]

theorem Marked.set (h : Marked scope key) (hChanges : Changes scope.manager.memory memory keys) (hProper : key.Proper)
    (hKey : key ∉ keys) :
    Marked { manager := scope.manager.set memory keys, log := scope.log ++ [.set keys] } key := by
  obtain ⟨hHas, old, new, hQueue, hNew, hSome⟩ := h
  have hHas' : (keys.foldl Marks.mark scope.manager.marks).Has key :=
    (has_marks keys _ (fun other hOther => (hChanges.proper other hOther).1) hProper).mpr (.inl hHas)
  refine ⟨by simpa using hHas', ?_⟩
  have hAgrees : ∀ write ∈ new, write.marks.Has key ∧
      Agrees { manager := scope.manager.set memory keys, log := scope.log ++ [.set keys] } key write :=
    fun write hWrite => ⟨(hNew write hWrite).1, (agrees_set hChanges hProper hKey write).mpr (hNew write hWrite).2⟩
  rw [Manager.set_queue]
  by_cases hError : scope.manager.loadError = true
  · rw [if_pos hError]
    exact ⟨old, new, hQueue, hAgrees, hSome⟩
  · refine ⟨old, new ++ [⟨memory, keys.foldl Marks.mark scope.manager.marks⟩], ?_, ?_, fun _ => by simp⟩
    · rw [if_neg hError, hQueue, append_assoc]
    · intro write hWrite
      rcases mem_append.mp hWrite with hOld | hLast
      · exact hAgrees write hOld
      · obtain rfl := mem_singleton.mp hLast
        refine ⟨hHas', ?_⟩
        rw [Agrees, Manager.set_memory]

theorem Queued.set (h : Queued scope key)
    (hChanges : Changes scope.manager.memory memory keys) (hProper : key.Proper) (hKey : key ∉ keys) :
    Queued { manager := scope.manager.set memory keys, log := scope.log ++ [.set keys] } key := by
  obtain ⟨hHas, old, write, rest, hQueue, hCarries, hWrite, hRest⟩ := h
  have hHas' : ¬ (keys.foldl Marks.mark scope.manager.marks).Has key := by
    rw [has_marks keys _ (fun other hOther => (hChanges.proper other hOther).1) hProper]
    exact not_or.mpr ⟨hHas, hKey⟩
  refine ⟨by simpa using hHas', ?_⟩
  have hAgrees := fun other => @agrees_set scope memory keys (scope.log ++ [.set keys]) key hChanges hProper hKey other
  rw [Manager.set_queue]
  by_cases hError : scope.manager.loadError = true
  · rw [if_pos hError]
    exact ⟨old, write, rest, hQueue, hCarries, (hAgrees write).mpr hWrite,
      fun later hLater hHas => (hAgrees later).mpr (hRest later hLater hHas)⟩
  · rw [if_neg hError]
    refine ⟨old, write, rest ++ [⟨memory, keys.foldl Marks.mark scope.manager.marks⟩], ?_, hCarries, (hAgrees write).mpr hWrite, ?_⟩
    · rw [hQueue, append_assoc, cons_append]
    · intro later hLater hHas
      rcases mem_append.mp hLater with hLater | hLater
      · exact (hAgrees later).mpr (hRest later hLater hHas)
      · obtain rfl := mem_singleton.mp hLater
        rw [Agrees, Manager.set_memory]

/-! The steps of the queue. -/

theorem stored_written (h : Kept start scope) (hQueue : scope.manager.queue = write :: rest)
    (hPersist : write.persist scope.manager.file = some content) (hProper : key.Proper) (hHas : write.marks.Has key)
    (hAgrees : Agrees scope key write) (hRest : ∀ later ∈ rest, later.marks.Has key → Agrees scope key later) :
    Stored start
      { manager := { scope.manager with queue := rest, marks := Marks.cleared, file := content }
        log := scope.log ++ [.wrote content] } key := by
  have hSound := (h.writes write (by rw [hQueue]; exact mem_cons_self)).1
  have hSeen : seen content key = valueAt scope.manager.memory key :=
    (Write.seen_marked hSound hPersist hProper hHas).trans hAgrees
  exact ⟨⟨[], ⟨scope.log, content, rfl, hSeen, fun keys hKeys => (nomatch hKeys)⟩, .inl hSeen⟩, hRest⟩

theorem Stored.written (hKept : Kept start scope) (hQueue : scope.manager.queue = write :: rest)
    (hPersist : write.persist scope.manager.file = some content) {key : Key} (hProper : key.Proper)
    (h : Stored start scope key) :
    Stored start
      { manager := { scope.manager with queue := rest, marks := Marks.cleared, file := content }
        log := scope.log ++ [.wrote content] } key := by
  have hSound := (hKept.writes write (by rw [hQueue]; exact mem_cons_self)).1
  have hRest : ∀ later ∈ rest, later.marks.Has key → Agrees scope key later :=
    fun later hLater => h.2 later (by rw [hQueue]; exact mem_cons_of_mem _ hLater)
  by_cases hHas : write.marks.Has key
  · exact stored_written hKept hQueue hPersist hProper hHas
      (h.2 write (by rw [hQueue]; exact mem_cons_self) hHas) hRest
  · have hSeen := Write.seen_untouched hSound hPersist (Sound.untouched hProper hHas)
    obtain ⟨after, hWritten, hFile⟩ := h.1
    exact ⟨⟨_, hWritten.append (fun keys => nofun), hFile.append _ rfl hSeen (external_append _ _ _)⟩, hRest⟩

/-- After an older write cleared the tables, the writes since the key was set
still carry it. -/
theorem Marked.written (hKept : Kept start scope) (hQueue : scope.manager.queue = write :: rest)
    (hPersist : write.persist scope.manager.file = some content) {key : Key} (hProper : key.Proper)
    (h : Marked scope key) (log : List Entry) :
    Stored start
      { manager := { scope.manager with queue := rest, marks := Marks.cleared, file := content }
        log := scope.log ++ [.wrote content] } key ∨
    Queued { manager := { scope.manager with queue := rest, marks := Marks.cleared, file := content }, log := log } key := by
  obtain ⟨_, old, new, hSplit, hNew, hSome⟩ := h
  rw [hQueue] at hSplit
  cases old with
  | nil =>
    rw [nil_append] at hSplit
    obtain ⟨hHas, hAgrees⟩ := hNew write (by rw [← hSplit]; exact mem_cons_self)
    exact .inl (stored_written hKept hQueue hPersist hProper hHas hAgrees fun later hLater _ =>
      (hNew later (by rw [← hSplit]; exact mem_cons_of_mem _ hLater)).2)
  | cons first old =>
    obtain ⟨rfl, rfl⟩ := cons.inj hSplit
    right
    refine ⟨by cases key <;> simp [Marks.Has, Marks.cleared], ?_⟩
    cases new with
    | nil => exact absurd rfl (hSome (cons_ne_nil _ _))
    | cons carrying new =>
      obtain ⟨hHas, hAgrees⟩ := hNew carrying mem_cons_self
      exact ⟨old, carrying, new, rfl, hHas, hAgrees,
        fun later hLater _ => (hNew later (mem_cons_of_mem _ hLater)).2⟩

theorem Queued.written (hKept : Kept start scope) (hQueue : scope.manager.queue = write :: rest)
    (hPersist : write.persist scope.manager.file = some content) {key : Key} (hProper : key.Proper)
    (h : Queued scope key) (log : List Entry) :
    Stored start
      { manager := { scope.manager with queue := rest, marks := Marks.cleared, file := content }
        log := scope.log ++ [.wrote content] } key ∨
    Queued { manager := { scope.manager with queue := rest, marks := Marks.cleared, file := content }, log := log } key := by
  obtain ⟨_, old, carrying, later, hSplit, hHas, hAgrees, hLater⟩ := h
  rw [hQueue] at hSplit
  cases old with
  | nil =>
    obtain ⟨rfl, rfl⟩ := cons.inj hSplit
    exact .inl (stored_written hKept hQueue hPersist hProper hHas hAgrees hLater)
  | cons first old =>
    obtain ⟨rfl, rfl⟩ := cons.inj hSplit
    right
    exact ⟨by cases key <;> simp [Marks.Has, Marks.cleared], old, carrying, later, rfl, hHas, hAgrees, hLater⟩

theorem Write.mem_unmarked (hHas : write.marks.Has key) (hMarks : ¬ marks.Has key) : key ∈ write.unmarked marks := by
  cases key with
  | whole field =>
    have hField : field ∉ marks.fields := hMarks
    apply mem_append_left
    exact mem_map_of_mem (mem_filter.mpr ⟨hHas, by simpa using hField⟩)
  | nested field key =>
    have hEntry : (field, key) ∉ marks.nested := hMarks
    apply mem_append_right
    rw [mem_map]
    exact ⟨(field, key), mem_filter.mpr ⟨hHas, by simpa using hEntry⟩, rfl⟩

theorem Stored.failed (h : Stored start scope key) (hQueue : scope.manager.queue = write :: rest) (unmarked : List Key) :
    Stored start
      { manager := { scope.manager with queue := rest }, log := scope.log ++ [.failed unmarked] } key := by
  obtain ⟨⟨after, hWritten, hFile⟩, hWrites⟩ := h
  exact ⟨⟨_, hWritten.append (fun keys => nofun), hFile.append _ rfl rfl (external_append _ _ _)⟩,
    fun later hLater => hWrites later (by rw [hQueue]; exact mem_cons_of_mem _ hLater)⟩

theorem Marked.failed (h : Marked scope key) (hQueue : scope.manager.queue = write :: rest) (log : List Entry) :
    Marked { manager := { scope.manager with queue := rest }, log := log } key := by
  obtain ⟨hHas, old, new, hSplit, hNew, hSome⟩ := h
  rw [hQueue] at hSplit
  refine ⟨hHas, ?_⟩
  cases old with
  | nil =>
    rw [nil_append] at hSplit
    exact ⟨[], rest, rfl, fun later hLater => hNew later (by rw [← hSplit]; exact mem_cons_of_mem _ hLater),
      fun hOld => absurd rfl hOld⟩
  | cons first old =>
    obtain ⟨rfl, rfl⟩ := cons.inj hSplit
    exact ⟨old, new, rfl, hNew, fun _ => hSome (cons_ne_nil _ _)⟩

theorem Queued.failed (h : Queued scope key)
    (hQueue : scope.manager.queue = write :: rest) (hKept : key ∉ write.unmarked scope.manager.marks)
    (log : List Entry) : Queued { manager := { scope.manager with queue := rest }, log := log } key := by
  obtain ⟨hHas, old, carrying, later, hSplit, hCarries, hAgrees, hLater⟩ := h
  rw [hQueue] at hSplit
  cases old with
  | nil =>
    obtain ⟨rfl, rfl⟩ := cons.inj hSplit
    exact absurd (Write.mem_unmarked hCarries hHas) hKept
  | cons first old =>
    obtain ⟨rfl, rfl⟩ := cons.inj hSplit
    exact ⟨hHas, old, carrying, later, rfl, hCarries, hAgrees, hLater⟩

theorem Stored.edited (h : Stored start scope key) (edit : Content) :
    Stored start { manager := { scope.manager with file := edit }, log := scope.log ++ [.edited edit] } key := by
  obtain ⟨⟨after, hWritten, _⟩, hWrites⟩ := h
  refine ⟨⟨_, hWritten.append (fun keys => nofun), .inr ⟨⟨edit, ?_⟩, ?_⟩⟩, hWrites⟩
  · exact mem_append_right _ (mem_singleton_self _)
  · rw [external_append]

theorem Held.step {key : Key} (hKept : Kept start scope)
    (h : Held start scope key) (hStep : Settings.step scope event = some next) : Held start next key := by
  rcases step_cases hStep with ⟨memory, keys, hChanges, rfl⟩ | rfl | ⟨write, rest, content, _, hQueue, hPersist, rfl⟩ |
    ⟨write, rest, hQueue, rfl⟩ | ⟨edit, rfl⟩
  · intro hSet hLost
    by_cases hKey : key ∈ keys
    · exact .inr (.inl (held_set_self hKept hChanges hKey))
    · have hOld : SetIn scope.log key := by
        rcases (setIn_append _ _ _).mp hSet with hOld | ⟨new, hNew, hMem⟩
        · exact hOld
        · cases hNew
          exact absurd hMem hKey
      have hProper := hKept.proper key hOld
      rcases h hOld hLost.of_append with hStored | hMarked | hQueued
      · exact .inl (hStored.set hChanges hProper hKey)
      · exact .inr (.inl (hMarked.set hChanges hProper hKey))
      · exact .inr (.inr (hQueued.set hChanges hProper hKey))
  · exact h
  · intro hSet hLost
    have hOld := (@setIn_append_of_ne scope.log (.wrote content) (fun keys => nofun) key).mp hSet
    have hProper := hKept.proper key hOld
    rcases h hOld hLost.of_append with hStored | hMarked | hQueued
    · exact .inl (hStored.written hKept hQueue hPersist hProper)
    · exact (hMarked.written hKept hQueue hPersist hProper _).imp_right Or.inr
    · exact (hQueued.written hKept hQueue hPersist hProper _).imp_right Or.inr
  · intro hSet hLost
    have hOld := (@setIn_append_of_ne scope.log (.failed (write.unmarked scope.manager.marks)) (fun keys => nofun) key).mp hSet
    have hNot : key ∉ write.unmarked scope.manager.marks :=
      hLost _ (mem_append_right _ (mem_singleton_self _))
    rcases h hOld hLost.of_append with hStored | hMarked | hQueued
    · exact .inl (hStored.failed hQueue _)
    · exact .inr (.inl (hMarked.failed hQueue _))
    · exact .inr (.inr (hQueued.failed hQueue hNot _))
  · intro hSet hLost
    have hOld := (@setIn_append_of_ne scope.log (.edited edit) (fun keys => nofun) key).mp hSet
    rcases h hOld hLost.of_append with hStored | hMarked | hQueued
    · exact .inl (hStored.edited edit)
    · exact .inr (.inl hMarked)
    · exact .inr (.inr hQueued)

theorem kept_held_of_run {loadError : Bool} {file : Content} {events : List Event}
    (hRun : Transition.run step (loaded memory loadError file) events = some scope) (key : Key) :
    Kept file scope ∧ Held file scope key := by
  have hStep : ∀ (scope : Scope) (event : Event) (next : Scope), True → step scope event = some next →
      Kept file scope ∧ Held file scope key → Kept file next ∧ Held file next key :=
    fun _ _ _ _ hNext h => ⟨h.1.step hNext, h.2.step h.1 hNext⟩
  refine Transition.invariant hStep (fun _ _ => trivial) hRun ⟨kept_loaded memory loadError file, ?_⟩
  rintro ⟨keys, hMem, _⟩
  exact nomatch hMem

end OctoberHarness.Settings
