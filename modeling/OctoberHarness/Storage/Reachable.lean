import OctoberHarness.Storage.Observation

/-! The states of the in-memory storage after any calls: what was accepted is
there, what was refused left no trace, and ids and addresses are unique. -/
namespace OctoberHarness.Storage

open View

/-! Reachable states. -/

variable {writes : List Write} {next : Memory}

theorem Memory.nextSeq_of_ok {m : Memory} (h : m.commitBatch writes = .ok next) :
    m.nextSeq ≤ MAX_SAFE_INTEGER := by
  rw [Memory.commitBatch, Memory.commitAt, Memory.prepareCommit] at h
  split_ifs at h with hSeq
  · exact absurd h (by simp [bind, Except.bind])
  · omega

variable {d : Sqlite}

theorem Agree.commitBatch {m : Memory} (h : Agree m d)
    (hCommit : m.commitBatch writes = .ok next) : ∃ d' actions, d.commitBatch writes = .ok d' ∧ Agree next d' ∧
      Passes m d writes actions ∧ d' = d.applyBatch writes (resolvedActions d actions) := by
  have hSeq := Memory.nextSeq_of_ok hCommit
  rw [h.mirror.nextSeq] at hSeq
  rcases h.accepts hSeq writes with ⟨m', d', actions, hMemory, hSqlite, hPasses, rfl, rfl⟩ | ⟨error, -, hError, -⟩
  · rw [hMemory] at hCommit
    obtain rfl := Except.ok.inj hCommit
    exact ⟨_, actions, hSqlite, h.applied hPasses, hPasses, rfl⟩
  · rw [hError] at hCommit
    exact absurd hCommit (by simp)

theorem Memory.IdsBelow.commitBatch {m : Memory} {bound : Nat} (h : m.IdsBelow bound) (hAgree : Agree m d)
    (hIds : ∀ write ∈ writes, ∀ id, Sqlite.writeId write = some id → id < bound)
    (hCommit : m.commitBatch writes = .ok next) : next.IdsBelow bound := by
  have hSeq := Memory.nextSeq_of_ok hCommit
  rw [hAgree.mirror.nextSeq] at hSeq
  rcases hAgree.accepts hSeq writes with ⟨m', d', actions, hMemory, -, hPasses, rfl, -⟩ | ⟨error, -, hError, -⟩
  · rw [hMemory] at hCommit
    exact Except.ok.inj hCommit ▸ h.applied hPasses hIds
  · rw [hError] at hCommit
    cases hCommit

variable {P : Memory → Prop}

theorem Memory.commit_invariant (hStep : ∀ m writes next, P m → m.commitBatch writes = .ok next → P next) {m : Memory} (h : P m)
    (batches : List (List Write)) : P (m.commit batches).state := by
  induction batches generalizing m with
  | nil => exact h
  | cons writes rest ih =>
    rw [Memory.commit]
    cases hCommit : m.commitBatch writes with
    | error error => exact h
    | ok next => exact ih (hStep m writes next h hCommit)

theorem Memory.run_invariant (hStep : ∀ m writes next, P m → m.commitBatch writes = .ok next → P next) {m : Memory} (h : P m)
    (calls : List (List (List Write))) : P (m.run calls) := by
  induction calls generalizing m with
  | nil => exact h
  | cons batches rest ih => exact ih (Memory.commit_invariant hStep h batches)

theorem Memory.run_agree (calls : List (List (List Write))) : ∃ d, Agree (Memory.run {} calls) d := by
  refine @Memory.run_invariant (fun m => ∃ d, Agree m d) (fun m writes next h hCommit => ?_) {} ⟨{}, .empty⟩ calls
  obtain ⟨d, hAgree⟩ := h
  obtain ⟨d', -, -, hNext, -⟩ := hAgree.commitBatch hCommit
  exact ⟨d', hNext⟩

/-- A record of a table of the storage. -/
def Memory.Holds (m : Memory) (id : Nat) : TableName → Prop
  | .conversation => m.conversations.lookup id ≠ none
  | .entry => m.entries.lookup id ≠ none
  | .task => m.tasks.lookup id ≠ none
  | .submission => m.submissions.lookup id ≠ none
  | .document => m.documents.lookup id ≠ none

theorem Agree.type_of_holds {m : Memory} (h : Agree m d) {id : Nat} {table : TableName}
    (hHolds : m.Holds id table) : m.recordTypes.lookup id = some table := by
  rw [h.mirror.recordTypes]
  cases table with
  | conversation => exact h.stored.filed.conversations id (h.mirror.conversations id ▸ hHolds)
  | entry =>
    refine h.stored.filed.entries id fun hNone => hHolds ?_
    rw [h.mirror.entries, hNone]
    rfl
  | task => exact h.stored.filed.tasks id (h.mirror.tasks id ▸ hHolds)
  | submission => exact h.stored.filed.submissions id (h.mirror.submissions id ▸ hHolds)
  | document =>
    refine h.stored.filed.documents id fun hNone => hHolds ?_
    rw [h.mirror.documents, hNone]
    rfl

theorem Agree.table_unique {m : Memory} (h : Agree m d) {id : Nat} {first second : TableName}
    (hFirst : m.Holds id first) (hSecond : m.Holds id second) : first = second :=
  Option.some.inj ((h.type_of_holds hFirst).symm.trans (h.type_of_holds hSecond))

theorem Agree.incarnation_unique {m : Memory} (h : Agree m d) {a b : Nat} {first second : DocumentState}
    (hFirst : m.documents.lookup a = some first) (hSecond : m.documents.lookup b = some second)
    (hAddress : first.record.address = second.record.address) (hFirstAlive : first.record.retiredAt = none)
    (hSecondAlive : second.record.retiredAt = none) : a = b := by
  rw [h.mirror.documents, Option.map_eq_some_iff] at hFirst hSecond
  obtain ⟨record, hRecord, rfl⟩ := hFirst
  obtain ⟨record', hRecord', rfl⟩ := hSecond
  exact h.stored.kept.exclusive a b record record' hRecord hRecord' hAddress .current
    (by simpa [isAliveAt] using hFirstAlive) (by simpa [isAliveAt] using hSecondAlive)

/-- Batches that are accepted one after the other. -/
def Memory.commitAll (m : Memory) (batches : List (List Write)) : Except CommitError Memory :=
  batches.foldlM Memory.commitBatch m

theorem Memory.nextSeq_commitBatch {m : Memory} (h : m.commitBatch writes = .ok next) :
    next.nextSeq = m.nextSeq + 1 := by
  rw [Memory.commitBatch, Memory.commitAt, Outcome.bind_eq_ok] at h
  obtain ⟨prepared, -, hNext⟩ := h
  rw [← Except.ok.inj hNext]
  rfl

theorem Memory.commit_split (m : Memory) (batches : List (List Write)) : ∃ applied rest next,
    batches = applied ++ rest ∧ m.commitAll applied = .ok next ∧ (m.commit batches).state = next ∧
      (m.commit batches).seqs = List.range' m.nextSeq applied.length ∧
      ((rest = [] ∧ (m.commit batches).refused = false) ∨
        ∃ writes later error, rest = writes :: later ∧ next.commitBatch writes = .error error ∧
          (m.commit batches).refused = true) := by
  induction batches generalizing m with
  | nil => exact ⟨[], [], m, rfl, rfl, rfl, rfl, Or.inl ⟨rfl, rfl⟩⟩
  | cons writes rest ih =>
    rw [Memory.commit]
    cases hCommit : m.commitBatch writes with
    | error error => exact ⟨[], writes :: rest, m, rfl, rfl, rfl, rfl, Or.inr ⟨writes, rest, error, rfl, hCommit, rfl⟩⟩
    | ok next =>
      obtain ⟨applied, remaining, last, rfl, hApplied, hState, hSeqs, hRefused⟩ := ih next
      refine ⟨writes :: applied, remaining, last, rfl, ?_, hState, ?_, hRefused⟩
      · rw [Memory.commitAll, List.foldlM_cons, hCommit]
        exact hApplied
      · change m.nextSeq :: (next.commit (applied ++ remaining)).seqs = _
        rw [hSeqs, Memory.nextSeq_commitBatch hCommit, List.length_cons, List.range'_succ]

theorem Memory.commit_accepted {m : Memory} {applied : List (List Write)} (h : m.commitAll applied = .ok next) :
    (m.commit applied).state = next ∧ (m.commit applied).refused = false := by
  induction applied generalizing m with
  | nil => exact ⟨Except.ok.inj h, rfl⟩
  | cons writes rest ih =>
    rw [Memory.commitAll, List.foldlM_cons, Outcome.bind_eq_ok] at h
    obtain ⟨middle, hMiddle, hRest⟩ := h
    rw [Memory.commit, hMiddle]
    exact ih hRest

end OctoberHarness.Storage
