import OctoberHarness.Scheduler.Cancelling
import OctoberHarness.Scheduler.WaitChecks

/-! The wait-for graph over every run of the scheduler. -/
namespace OctoberHarness.Scheduler

open OrderedMap Relation Cycles Option

inductive Mode where
  | run | abort
deriving DecidableEq, Repr

inductive NextTaskState where
  | running (checkpoint : JsonValue)
  | waiting (checkpoint : JsonValue) (on : List Nat) (policy : JoinPolicy)
  | sleeping (checkpoint : JsonValue) (wakeAt : Int)
  | terminal (outcome : TaskOutcome)
deriving DecidableEq, Repr

def progressed (record : TaskRecord) : TaskRecord := { record with restarts := none }

/-- The same checkpoint committed again is no progress. -/
def sameState (current : TaskRecord) (next : NextTaskState) : Bool :=
  match current.state, next with
  | .running checkpoint, .running again => jsonEqual checkpoint again
  | _, _ => false

namespace Memory

/-- What a running task commits for itself, or why it is refused. -/
def commitState (m : Memory) (overlay : Overlay) (storage : Nat → Option TaskRecord) (mode : Mode) (current : TaskRecord)
    (next : NextTaskState) : Except WaitError TaskRecord :=
  match next with
  | .waiting checkpoint on policy =>
    if mode = .abort then .error (.abortWaits current.id)
    else
      match m.waitRefused overlay storage current.id on policy with
      | some error => .error error
      | none => .ok ((progressed current).withState (.waiting checkpoint on policy))
  | .sleeping checkpoint wakeAt =>
    if mode = .abort then .error (.abortSleeps current.id)
    else if wakeAt < 0 then .error (.sleepTime current.id wakeAt)
    else .ok ((progressed current).withState (.sleeping checkpoint wakeAt))
  | .terminal outcome =>
    if m.hasOwnedLive overlay current.id [] then .ok ((progressed current).withState (.completing outcome))
    else .ok ((progressed current).withState (.terminal outcome))
  | .running checkpoint =>
    .ok ((if sameState current next then current else progressed current).withState (.running checkpoint))

end Memory

/-- What the scheduler changes of a live task without its code: an abort mark, a
reservation, the hand-over to another definition or the write at a close, the
restart an open counts, an outcome held for owned work, and an ended task. -/
inductive Change (before : TaskRecord) : TaskRecord → Prop where
  | mark (reason : Option AbortReason) : Change before (before.withAbortMark reason)
  | reserve (checkpoint : JsonValue) (hRuns : before.isCompleting = false) : Change before (before.withState (.running checkpoint))
  | handOver (checkpoint : JsonValue) (hRunning : before.state = .running checkpoint) :
      Change before (before.withState (.pending checkpoint))
  | restart (checkpoint : JsonValue) (hRunning : before.state = .running checkpoint) :
      Change before { before.withState (.pending checkpoint) with restarts := some (before.restarts.getD 0 + 1) }
  | hold (outcome : TaskOutcome) : Change before (before.withState (.completing outcome))
  | finish (outcome : TaskOutcome) : Change before (before.withState (.terminal outcome))

/-- Commits, one after the other; one with several changes is several steps. A
runtime commit decides over memory that mirrors the records committed before it. -/
inductive Step (s : Store) : Store → Prop where
  | create {creations : List Creation} {next : Store} (hCreate : s.createAll creations = some next) : Step s next
  | runtime {creations : List Creation} {staged : Store} {m : Memory} {mode : Mode} {current record : TaskRecord}
      {next : NextTaskState} {checkpoint : JsonValue} (hCreate : s.createAll creations = some staged) (hMirrors : m.Mirrors s)
      (hCurrent : s.tasks.lookup current.id = some current) (hRunning : current.state = .running checkpoint)
      (hMode : mode = .run → current.abortRequested = false)
      (hCommit : m.commitState (overlayOf s staged) (fun id => s.tasks.lookup id) mode current next = .ok record) :
      Step s (staged.put record)
  | change {before after : TaskRecord} (hLive : s.Live before.id before) (hChange : Change before after) : Step s (s.put after)

def Reachable (s : Store) : Prop := ReflTransGen Step {} s

variable {before after : TaskRecord}

theorem Change.id_eq (hChange : Change before after) : after.id = before.id := by
  cases hChange <;> rfl

theorem Change.node_eq (hChange : Change before after) :
    after.toTaskNode = before.toTaskNode := by
  cases hChange <;> rfl

theorem Change.waits (hChange : Change before after) : Store.waitsOf after = [] := by
  cases hChange with
  | mark reason => cases hState : before.state <;> simp [Store.waitsOf, hState, TaskRecord.withAbortMark]
  | reserve checkpoint _ => rfl
  | handOver checkpoint _ => rfl
  | restart checkpoint _ => rfl
  | hold outcome => rfl
  | finish outcome => rfl

namespace Store

variable {s staged : Store}

theorem sound_empty : Sound {} where
  named := by simp
  parents := by
    intro node above hParent
    cases node <;> cases hParent
  tree := Acyclic.of_rank (fun _ => 0) (by
    intro node above hParent
    cases node <;> cases hParent)
  children := by simp
  waits := by simp
  acyclic := Acyclic.of_rank (fun _ => 0) (by
    rintro first second ⟨⟨record, hLive, _⟩, _⟩
    cases hLive)

theorem Sound.change (h : s.Sound) {before after : TaskRecord} (hLive : s.Live before.id before) (hChange : Change before after) :
    (s.put after).Sound := by
  apply Sound.put_of_less (hChange.id_eq ▸ hLive) hChange.node_eq h
  rw [hChange.waits]
  exact fun on hOn => (List.not_mem_nil hOn).elim

section Waiting

variable {current : TaskRecord} {on : List Nat} {policy : JoinPolicy} {checkpoint : JsonValue}

def waitingRecord (current : TaskRecord) (checkpoint : JsonValue) (on : List Nat) (policy : JoinPolicy) : TaskRecord :=
  (progressed current).withState (.waiting checkpoint on policy)

theorem waitsOf_waitingRecord (hFree : current.abortRequested = false) :
    waitsOf (waitingRecord current checkpoint on policy) = on := by
  simp [waitingRecord, progressed, TaskRecord.withState, waitsOf, hFree]

theorem live_waiting_iff (hCurrent : staged.Live current.id current) {id : Nat} :
    (∃ record, (staged.put (waitingRecord current checkpoint on policy)).Live id record) ↔ ∃ record, staged.Live id record := by
  constructor
  · exact @live_of_put _ current (waitingRecord current checkpoint on policy) hCurrent _
  · rintro ⟨record, hRecord, hTerminal⟩
    by_cases hSame : id = current.id
    · refine ⟨waitingRecord current checkpoint on policy, ?_, rfl⟩
      rw [lookup_put]
      exact if_pos hSame
    · refine ⟨record, ?_, hTerminal⟩
      rw [lookup_put]
      exact (if_neg hSame).trans hRecord

theorem waitsFor_waiting_iff (hCurrent : staged.Live current.id current) (hFree : current.abortRequested = false)
    {first second : Nat} : (staged.put (waitingRecord current checkpoint on policy)).WaitsFor first second ↔
      (∃ record, staged.Live second record) ∧
        ((first = current.id ∧ second ∈ on ∨
          first ≠ current.id ∧ ∃ record, staged.tasks.lookup first = some record ∧ second ∈ waitsOf record) ∨
            staged.Owns first second) := by
  have hBefore : staged.Live (waitingRecord current checkpoint on policy).id current := hCurrent
  rw [WaitsFor, live_waiting_iff hCurrent, Owns, enters_put hBefore rfl, ← Owns]
  apply and_congr_right
  intro _
  apply or_congr_left
  rw [lookup_put]
  change (∃ record, (if first = current.id then _ else _) = some record ∧ _) ↔ _
  by_cases hSame : first = current.id
  · simp [hSame, waitsOf_waitingRecord hFree]
  · simp [hSame]

theorem waitsFor_child (h : staged.Sound) {owner id : Nat} {record : TaskRecord} (hLive : staged.Live id record)
    (hOwner : record.owner = some owner) : staged.WaitsFor owner id := by
  have hForeground : record.background = false := h.children hLive.1 (by rw [hOwner]; exact some_ne_none _)
  refine ⟨⟨record, hLive⟩, .inr (.single ⟨?_, ?_⟩)⟩
  · rw [parent, hLive.1, map_some, parentOf, parentNode, hOwner]
  · rw [isBackground, hLive.1, map_some, hForeground]
    rfl

/-- Storing a wait closes a cycle exactly when a live member that is not the
waiter's own leads back to it. -/
theorem acyclic_waiting_iff (h : staged.Sound) (hCurrent : staged.Live current.id current)
    (hFree : current.abortRequested = false) :
    ¬ Acyclic (staged.put (waitingRecord current checkpoint on policy)).WaitsFor ↔
      ∃ target ∈ on, staged.isTarget current.id target = true ∧ ReflTransGen staged.WaitsFor target current.id := by
  constructor
  · intro hCycle
    by_contra hNone
    apply hCycle
    apply @Acyclic.add _ _ _ current.id (fun second => second ∈ on ∧ ∃ record, staged.Live second record) h.acyclic
    · intro first second hEdge
      obtain ⟨hLive, (⟨rfl, hOn⟩ | ⟨_, hWaits⟩) | hOwns⟩ := (waitsFor_waiting_iff hCurrent hFree).mp hEdge
      · exact .inr ⟨rfl, hOn, hLive⟩
      · exact .inl ⟨hLive, .inl hWaits⟩
      · exact .inl ⟨hLive, .inr hOwns⟩
    · rintro second ⟨hOn, record, hLive⟩ hBack
      by_cases hOwner : record.owner = some current.id
      · exact h.acyclic _ (TransGen.head' (waitsFor_child h hLive hOwner) hBack)
      · exact hNone ⟨second, hOn, isTarget_iff.mpr ⟨record, hLive, hOwner⟩, hBack⟩
  · rintro ⟨target, hOn, hTarget, hPath⟩
    obtain ⟨record, hLive, _⟩ := isTarget_iff.mp hTarget
    apply @not_acyclic_add _ staged.WaitsFor _ current.id (fun second => second ∈ on ∧ ∃ record, staged.Live second record)
      _ _ target ⟨hOn, record, hLive⟩ hPath
    · rintro first second hNe ⟨hSecond, hWaits | hOwns⟩
      · exact (waitsFor_waiting_iff hCurrent hFree).mpr ⟨hSecond, .inl (.inr ⟨hNe, hWaits⟩)⟩
      · exact (waitsFor_waiting_iff hCurrent hFree).mpr ⟨hSecond, .inr hOwns⟩
    · rintro second ⟨hIn, hSecond⟩
      exact (waitsFor_waiting_iff hCurrent hFree).mpr ⟨hSecond, .inl (.inl ⟨rfl, hIn⟩)⟩

end Waiting

variable {m : Memory} {creations : List Creation} {current : TaskRecord}

theorem covers_of_create (h : s.Sound) (hMirrors : m.Mirrors s) (hCreate : s.createAll creations = some staged) :
    Memory.Covers m (overlayOf s staged) s staged := ⟨hMirrors, staged_of_createAll h hCreate⟩

theorem refused_iff (h : s.Sound) (hMirrors : m.Mirrors s) (hCreate : s.createAll creations = some staged)
    (hLive : s.Live current.id current) (hFree : current.abortRequested = false) (checkpoint : JsonValue) (on : List Nat)
    (policy : JoinPolicy) :
    m.waitRefused (overlayOf s staged) (fun id => s.tasks.lookup id) current.id on policy ≠ none ↔
      (∃ id ∈ on, staged.BadMember current.id policy id) ∨
        ¬ Acyclic (staged.put (waitingRecord current checkpoint on policy)).WaitsFor := by
  have hCovers := covers_of_create h hMirrors hCreate
  have hOld : s.Has (.task current.id) := by
    rw [Has, hLive.1]
    exact some_ne_none _
  have hStagedLive := (hCovers.staged.live_of_old hOld).mpr hLive
  rw [hCovers.waitRefused_iff on policy h hLive, acyclic_waiting_iff hCovers.staged.sound hStagedLive hFree]

theorem Sound.runtime (h : s.Sound) (hMirrors : m.Mirrors s) (hCreate : s.createAll creations = some staged)
    {mode : Mode} {record : TaskRecord} {next : NextTaskState} (hLive : s.Live current.id current)
    (hMode : mode = .run → current.abortRequested = false)
    (hCommit : m.commitState (overlayOf s staged) (fun id => s.tasks.lookup id) mode current next = .ok record) :
    (staged.put record).Sound := by
  have hCovers := covers_of_create h hMirrors hCreate
  have hStaged := hCovers.staged.sound
  have hOld : s.Has (.task current.id) := by
    rw [Has, hLive.1]
    exact some_ne_none _
  have hStagedLive := (hCovers.staged.live_of_old hOld).mpr hLive
  have hQuiet : ∀ {after : TaskRecord}, after.id = current.id → after.toTaskNode = current.toTaskNode → waitsOf after = [] →
      (staged.put after).Sound := by
    intro after hId hNode hWaits
    apply Sound.put_of_less (hId ▸ hStagedLive) hNode hStaged
    rw [hWaits]
    exact fun on hOn => (List.not_mem_nil hOn).elim
  cases next with
  | running checkpoint =>
    obtain rfl := Except.ok.inj hCommit
    split_ifs <;> exact hQuiet rfl rfl rfl
  | sleeping checkpoint wakeAt =>
    simp only [Memory.commitState] at hCommit
    split_ifs at hCommit
    obtain rfl := Except.ok.inj hCommit
    exact hQuiet rfl rfl rfl
  | terminal outcome =>
    simp only [Memory.commitState] at hCommit
    split_ifs at hCommit <;> obtain rfl := Except.ok.inj hCommit <;> exact hQuiet rfl rfl rfl
  | waiting checkpoint on policy =>
    simp only [Memory.commitState] at hCommit
    split_ifs at hCommit with hAbort
    have hFree : current.abortRequested = false := by
      apply hMode
      cases mode with
      | run => rfl
      | abort => exact (hAbort rfl).elim
    have hRefused := refused_iff h hMirrors hCreate hLive hFree checkpoint on policy
    cases hCheck : m.waitRefused (overlayOf s staged) (fun id => s.tasks.lookup id) current.id on policy with
    | some error => simp [hCheck] at hCommit
    | none =>
      simp only [hCheck] at hCommit
      obtain rfl := Except.ok.inj hCommit
      have hGood := not_or.mp (fun hBad => hRefused.mpr hBad hCheck)
      apply @Sound.put _ current (waitingRecord current checkpoint on policy) hStagedLive rfl hStaged
      · rw [waitsOf_waitingRecord hFree]
        exact fun id hIn hMissing => hGood.1 ⟨id, hIn, .inl hMissing⟩
      · exact not_not.mp hGood.2

theorem Sound.step (h : s.Sound) {next : Store} (hStep : Step s next) : next.Sound := by
  cases hStep with
  | create hCreate => exact h.createAll hCreate
  | runtime hCreate hMirrors hCurrent hRunning hMode hCommit =>
    apply h.runtime hMirrors hCreate ⟨hCurrent, _⟩ hMode hCommit
    rw [TaskRecord.isTerminal, hRunning]
  | change hLive hChange => exact h.change hLive hChange

theorem sound_of_reachable (hReachable : Reachable s) : s.Sound := by
  induction hReachable with
  | refl => exact sound_empty
  | tail _ hStep ih => exact ih.step hStep

end Store

/-- The wait-for graph of every committed state is acyclic, and a wait is refused
exactly when storing it, with what its commit creates, would close a cycle, or it
names a missing task or, `failFast`, one that the waiter does not own. -/
theorem wait_graph_acyclic {s : Store} (hReachable : Reachable s) :
    Acyclic s.WaitsFor ∧
    ∀ (m : Memory) (creations : List Creation) (staged : Store) (current : TaskRecord), m.Mirrors s →
      s.createAll creations = some staged → s.tasks.lookup current.id = some current →
      (∃ checkpoint, current.state = .running checkpoint) → current.abortRequested = false →
      ∀ (checkpoint : JsonValue) (on : List Nat) (policy : JoinPolicy),
        m.waitRefused (overlayOf s staged) (fun id => s.tasks.lookup id) current.id on policy ≠ none ↔
          ¬ Acyclic (staged.put ((progressed current).withState (.waiting checkpoint on policy))).WaitsFor ∨
          (∃ id ∈ on, staged.tasks.lookup id = none) ∨
          policy = .failFast ∧ ∃ id ∈ on, ∃ record, staged.tasks.lookup id = some record ∧ record.owner ≠ some current.id := by
  have hSound := Store.sound_of_reachable hReachable
  refine ⟨hSound.acyclic, ?_⟩
  rintro m creations staged current hMirrors hCreate hCurrent ⟨running, hRunning⟩ hFree checkpoint on policy
  have hLive : s.Live current.id current := ⟨hCurrent, by rw [TaskRecord.isTerminal, hRunning]⟩
  have hBad : (∃ id ∈ on, staged.BadMember current.id policy id) ↔ (∃ id ∈ on, staged.tasks.lookup id = none) ∨
      policy = .failFast ∧ ∃ id ∈ on, ∃ record, staged.tasks.lookup id = some record ∧ record.owner ≠ some current.id := by
    constructor
    · rintro ⟨id, hIn, hMissing | ⟨hPolicy, hOther⟩⟩
      · exact .inl ⟨id, hIn, hMissing⟩
      · exact .inr ⟨hPolicy, id, hIn, hOther⟩
    · rintro (⟨id, hIn, hMissing⟩ | ⟨hPolicy, id, hIn, hOther⟩)
      · exact ⟨id, hIn, .inl hMissing⟩
      · exact ⟨id, hIn, .inr ⟨hPolicy, hOther⟩⟩
  rw [Store.refused_iff hSound hMirrors hCreate hLive hFree checkpoint on policy, hBad, or_comm]
  rfl

/-! A running task with a child of its own. -/

def runningParent : TaskRecord where
  id := 2
  conversationId := 1
  state := .running .null

def pendingChild : TaskRecord where
  id := 3
  conversationId := 1
  owner := some 2
  state := .pending .null

def pairStore : Store where
  tasks := [(2, runningParent), (3, pendingChild)]
  conversations := [(1, none)]

def pairMemory : Memory where
  live := [(2, runningParent), (3, pendingChild)]
  edges := [(1, none)]
  below := [(.conversation 1, [.task 2]), (.task 2, [.task 3])]

def pairRank : Node → Nat
  | .task id => id
  | .conversation id => id

theorem pairStore_reachable : Reachable pairStore := by
  have hCreate : Store.createAll {} [.conversation 1 none, .task 2 1 false .null, .child 3 2 false .null] =
      some { tasks := [(2, { runningParent with state := .pending .null }), (3, pendingChild)], conversations := [(1, none)] } := by
    decide
  apply (ReflTransGen.single (Step.create hCreate)).tail
  exact @Step.change _ { runningParent with state := .pending .null } _ ⟨by decide, rfl⟩ (.reserve .null rfl)

theorem pairMemory_mirrors : pairMemory.Mirrors pairStore where
  live := by
    intro id
    simp only [pairMemory, pairStore, lookup_cons]
    split_ifs <;> rfl
  settled := by simp [pairMemory]
  edges := fun hEdge => hEdge
  chains := by
    intro node above _ hParent
    cases node with
    | conversation id =>
      simp only [Store.parent, pairStore, lookup_cons] at hParent
      split_ifs at hParent <;> cases hParent
    | task id =>
      simp only [Store.parent, pairStore, lookup_cons] at hParent
      split_ifs at hParent <;> cases hParent <;> exact isSome_iff_ne_none.mp rfl
  indexed := (@Memory.loaded_of_inOrder _ pairRank (by decide)).toIndexed

theorem wait_graph_acyclic_pair :
    Acyclic pairStore.WaitsFor ∧
      ¬ Acyclic (pairStore.put ((progressed runningParent).withState (.waiting .null [2] .allSettled))).WaitsFor ∧
      Acyclic (pairStore.put ((progressed runningParent).withState (.waiting .null [3] .failFast))).WaitsFor := by
  obtain ⟨hAcyclic, hRefused⟩ := wait_graph_acyclic pairStore_reachable
  have hChecked := hRefused pairMemory [] pairStore runningParent pairMemory_mirrors rfl rfl ⟨.null, rfl⟩ rfl .null
  refine ⟨hAcyclic, ?_, ?_⟩
  · rcases (hChecked [2] .allSettled).mp (by decide) with hCycle | ⟨id, hIn, hMissing⟩ | ⟨hPolicy, _⟩
    · exact hCycle
    · obtain rfl := List.mem_singleton.mp hIn
      cases hMissing
    · cases hPolicy
  · by_contra hCycle
    exact (hChecked [3] .failFast).mpr (.inl hCycle) (by decide)

end OctoberHarness.Scheduler
