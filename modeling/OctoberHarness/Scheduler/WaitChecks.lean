import OctoberHarness.Scheduler.WaitSearch

/-! A wait is refused exactly when it must be. -/
namespace OctoberHarness.Scheduler

open OrderedMap Relation Cycles Option

/-- What a transaction has created over the records it found committed. -/
def overlayOf (s staged : Store) : Overlay where
  tasks := staged.tasks.drop s.tasks.length
  edges := staged.conversations.drop s.conversations.length

namespace Store

variable {s staged : Store}

/-- Creations go to the end of both tables, under fresh ids. -/
structure Extends (s staged : Store) (tasks : List (Nat × TaskRecord)) (edges : List (Nat × Option Nat)) : Prop where
  tasks_eq : staged.tasks = s.tasks ++ tasks
  edges_eq : staged.conversations = s.conversations ++ edges
  freshTasks : ∀ {id record}, tasks.lookup id = some record → s.tasks.lookup id = none
  freshEdges : ∀ {id owner}, edges.lookup id = some owner → s.conversations.lookup id = none
  distinct : (tasks.map Prod.fst).Nodup
  waits : ∀ {id record}, tasks.lookup id = some record → waitsOf record = []

theorem Extends.refl (s : Store) : Extends s s [] [] where
  tasks_eq := (List.append_nil _).symm
  edges_eq := (List.append_nil _).symm
  freshTasks := by simp
  freshEdges := by simp
  distinct := List.nodup_nil
  waits := by simp

variable {tasks : List (Nat × TaskRecord)} {edges : List (Nat × Option Nat)}
    {ended : List (Nat × Option TaskRecord)}

theorem Extends.add_task (h : Extends s staged tasks edges)
    {id : Nat} {record : TaskRecord} (hFresh : staged.tasks.lookup id = none) (hWaits : waitsOf record = []) :
    Extends s { staged with tasks := staged.tasks ++ [(id, record)] } (tasks ++ [(id, record)]) edges := by
  rw [h.tasks_eq, lookup_append, or_eq_none_iff] at hFresh
  have hLookup : ∀ other, (tasks ++ [(id, record)]).lookup other = if other = id then some record else tasks.lookup other :=
    fun other => lookup_append_fresh tasks id record other hFresh.2
  refine { tasks_eq := ?_, edges_eq := h.edges_eq, freshTasks := ?_, freshEdges := h.freshEdges, distinct := ?_, waits := ?_ }
  · simp only [h.tasks_eq, List.append_assoc]
  · intro other found hFound
    rw [hLookup] at hFound
    split_ifs at hFound with hSame
    · rw [hSame]
      exact hFresh.1
    · exact h.freshTasks hFound
  · rw [List.map_append, List.nodup_append]
    refine ⟨h.distinct, List.nodup_singleton id, ?_⟩
    rintro other hOther _ hLast rfl
    obtain rfl := List.mem_singleton.mp hLast
    exact (lookup_eq_none_iff _ _).mp hFresh.2 hOther
  · intro other found hFound
    rw [hLookup] at hFound
    split_ifs at hFound with hSame
    · exact some.inj hFound ▸ hWaits
    · exact h.waits hFound

theorem Extends.add_edge (h : Extends s staged tasks edges)
    {id : Nat} {owner : Option Nat} (hFresh : staged.conversations.lookup id = none) :
    Extends s { staged with conversations := staged.conversations ++ [(id, owner)] } tasks (edges ++ [(id, owner)]) := by
  rw [h.edges_eq, lookup_append, or_eq_none_iff] at hFresh
  refine { tasks_eq := h.tasks_eq, edges_eq := ?_, freshTasks := h.freshTasks, freshEdges := ?_, distinct := h.distinct, waits := h.waits }
  · simp only [h.edges_eq, List.append_assoc]
  · intro other found hFound
    rw [lookup_append_fresh edges id owner other hFresh.2] at hFound
    split_ifs at hFound with hSame
    · rw [hSame]
      exact hFresh.1
    · exact h.freshEdges hFound

theorem Extends.create (h : Extends s staged tasks edges)
    {creation : Creation} {next : Store} (hCreate : staged.create creation = some next) :
    ∃ tasks edges, Extends s next tasks edges := by
  cases creation with
  | conversation id owner =>
    simp only [Store.create] at hCreate
    split_ifs at hCreate with hValid
    obtain rfl := some.inj hCreate
    exact ⟨_, _, h.add_edge hValid.1⟩
  | child id owner background checkpoint =>
    unfold Store.create at hCreate
    cases hOwner : staged.tasks.lookup owner with
    | none => simp [hOwner] at hCreate
    | some above =>
      simp only [hOwner] at hCreate
      split_ifs at hCreate with hValid
      obtain rfl := some.inj hCreate
      exact ⟨_, _, h.add_task hValid.1 rfl⟩
  | task id conversationId background checkpoint =>
    simp only [Store.create] at hCreate
    split_ifs at hCreate with hValid
    obtain rfl := some.inj hCreate
    exact ⟨_, _, h.add_task hValid.1 rfl⟩

variable {creations : List Creation}

theorem extends_of_createAll (hCreate : s.createAll creations = some staged) :
    ∃ tasks edges, Extends s staged tasks edges := by
  have hRun : ∀ (creations : List Creation) (middle : Store) {tasks edges}, Extends s middle tasks edges →
      middle.createAll creations = some staged → ∃ tasks edges, Extends s staged tasks edges := by
    intro creations
    induction creations with
    | nil =>
      intro middle tasks edges hMiddle hEnd
      obtain rfl := some.inj hEnd
      exact ⟨tasks, edges, hMiddle⟩
    | cons creation rest ih =>
      intro middle tasks edges hMiddle hEnd
      rw [createAll, List.foldlM_cons] at hEnd
      obtain ⟨next, hFirst, hRest⟩ := Option.bind_eq_some_iff.mp hEnd
      obtain ⟨_, _, hNext⟩ := hMiddle.create hFirst
      exact ih next hNext hRest
  exact hRun creations s (Extends.refl s) hCreate

theorem staged_of_createAll (h : s.Sound) (hCreate : s.createAll creations = some staged) :
    Memory.Staged (overlayOf s staged) s staged := by
  obtain ⟨tasks, edges, hExtends⟩ := extends_of_createAll hCreate
  have hTasks : (overlayOf s staged).tasks = tasks := by
    rw [overlayOf, hExtends.tasks_eq, List.drop_left]
  have hEdges : (overlayOf s staged).edges = edges := by
    rw [overlayOf, hExtends.edges_eq, List.drop_left]
  refine { sound := h.createAll hCreate, tasks := ?_, conversations := ?_, freshTasks := ?_, freshConversations := ?_,
           distinct := ?_, waits := ?_ }
  · intro id
    rw [hTasks, hExtends.tasks_eq, lookup_append]
    cases hNew : tasks.lookup id with
    | none => simp
    | some record => rw [hExtends.freshTasks hNew]; rfl
  · intro id
    rw [hEdges, hExtends.edges_eq, lookup_append]
    cases hNew : edges.lookup id with
    | none => simp
    | some owner => rw [hExtends.freshEdges hNew]; rfl
  · intro id record hRecord
    exact hExtends.freshTasks (hTasks ▸ hRecord)
  · intro id owner hOwner
    exact hExtends.freshEdges (hEdges ▸ hOwner)
  · rw [hTasks]
    exact hExtends.distinct
  · intro id record hRecord
    exact hExtends.waits (hTasks ▸ hRecord)

end Store

/-! The members of a wait. -/

namespace Store

/-- A wait names a missing task, or one that a `failFast` waiter does not own. -/
def BadMember (staged : Store) (current : Nat) (policy : JoinPolicy) (id : Nat) : Prop :=
  staged.tasks.lookup id = none ∨
    policy = .failFast ∧ ∃ record, staged.tasks.lookup id = some record ∧ record.owner ≠ some current

/-- A live task that is not the waiter's own. -/
def isTarget (staged : Store) (current : Nat) (id : Nat) : Bool :=
  ((staged.tasks.lookup id).map fun record => !record.isTerminal && record.owner ≠ some current).getD false

theorem isTarget_iff {staged : Store} {current id : Nat} :
    staged.isTarget current id = true ↔ ∃ record, staged.Live id record ∧ record.owner ≠ some current := by
  unfold isTarget Live
  cases staged.tasks.lookup id <;> simp

end Store

namespace Memory

variable {m : Memory} {overlay : Overlay} {s staged : Store}

/-- Members as far as they are known are as the records have them. -/
def Known (m : Memory) (overlay : Overlay) (staged : Store) (ended : List (Nat × Option TaskRecord)) : Prop :=
  ∀ id found, m.waitMember overlay ended id = some found → found = staged.tasks.lookup id

variable {policy : JoinPolicy}

theorem checkMembers_error (hKnown : m.Known overlay staged ended) {current : Nat} {on targets missing : List Nat}
    {error : WaitError}
    (hError : m.checkMembers overlay ended current policy on targets missing = .error error) :
    ∃ id ∈ on, staged.BadMember current policy id := by
  induction on generalizing targets missing with
  | nil => cases hError
  | cons id rest ih =>
    have hRest : (∃ id ∈ rest, staged.BadMember current policy id) → ∃ other ∈ id :: rest, staged.BadMember current policy other :=
      fun ⟨other, hOther, hBad⟩ => ⟨other, List.mem_cons_of_mem _ hOther, hBad⟩
    unfold checkMembers at hError
    cases hMember : m.waitMember overlay ended id with
    | none =>
      simp only [hMember] at hError
      exact hRest (ih hError)
    | some found =>
      have hFound := hKnown id found hMember
      cases found with
      | none => exact ⟨id, List.mem_cons_self, .inl hFound.symm⟩
      | some record =>
        simp only [hMember] at hError
        split_ifs at hError with hOwned hLive
        · exact ⟨id, List.mem_cons_self, .inr ⟨hOwned.1, record, hFound.symm, hOwned.2⟩⟩
        · exact hRest (ih hError)
        · exact hRest (ih hError)

theorem checkMembers_ok (hKnown : m.Known overlay staged ended) {current : Nat} {on targets missing : List Nat}
    {result : List Nat × List Nat}
    (hOk : m.checkMembers overlay ended current policy on targets missing = .ok result) :
    result.2 = missing ++ on.filter (fun id => (m.waitMember overlay ended id).isNone) ∧
      (on.filter (fun id => (m.waitMember overlay ended id).isNone) = [] →
        (∀ id ∈ on, ¬ staged.BadMember current policy id) ∧ result.1 = targets ++ on.filter (staged.isTarget current)) := by
  induction on generalizing targets missing with
  | nil =>
    obtain rfl := Except.ok.inj hOk
    simp
  | cons id rest ih =>
    unfold checkMembers at hOk
    cases hMember : m.waitMember overlay ended id with
    | none =>
      simp only [hMember] at hOk
      obtain ⟨hMissing, _⟩ := ih hOk
      rw [List.filter_cons_of_pos (by simp [hMember])]
      exact ⟨by rw [hMissing, List.append_assoc]; rfl, fun hNone => (List.cons_ne_nil _ _ hNone).elim⟩
    | some found =>
      have hFound := hKnown id found hMember
      rw [List.filter_cons_of_neg (by simp [hMember])]
      cases found with
      | none => simp [hMember] at hOk
      | some record =>
        simp only [hMember] at hOk
        split_ifs at hOk with hOwned hLive
        all_goals
          obtain ⟨hMissing, hRest⟩ := ih hOk
          refine ⟨hMissing, fun hNone => ?_⟩
          obtain ⟨hGood, hTargets⟩ := hRest hNone
          have hHead : ¬ staged.BadMember current policy id := by
            rintro (hAbsent | ⟨hPolicy, other, hOther, hOwner⟩)
            · rw [← hFound] at hAbsent
              cases hAbsent
            · obtain rfl := some.inj (hFound.trans hOther)
              exact hOwned ⟨hPolicy, hOwner⟩
          refine ⟨List.forall_mem_cons.mpr ⟨hHead, hGood⟩, ?_⟩
        · have hTarget : staged.isTarget current id = true :=
            Store.isTarget_iff.mpr ⟨record, ⟨hFound.symm, hLive.1⟩, hLive.2⟩
          rw [hTargets, List.filter_cons_of_pos hTarget, List.append_assoc]
          rfl
        · have hTarget : ¬ staged.isTarget current id = true := by
            intro hIs
            obtain ⟨other, ⟨hOther, hTerminal⟩, hOwner⟩ := Store.isTarget_iff.mp hIs
            obtain rfl := some.inj (hFound.trans hOther)
            exact hLive ⟨hTerminal, hOwner⟩
          rw [hTargets, List.filter_cons_of_neg hTarget]

namespace Covers

variable (h : Covers m overlay s staged)

include h

theorem known_of_read
    (hRead : ∀ id found, ended.lookup id = some found → found = s.tasks.lookup id) : m.Known overlay staged ended := by
  intro id found hFound
  rw [waitMember, or_eq_some_iff] at hFound
  rcases hFound with hMap | ⟨hNone, hEnded⟩
  · obtain ⟨record, hRecord, rfl⟩ := Option.map_eq_some_iff.mp hMap
    have hTasks := h.staged.tasks id
    rw [Memory.record, or_eq_some_iff] at hRecord
    rcases hRecord with hNew | ⟨hOld, hLive⟩
    · rw [hTasks, hNew]
      rfl
    · rw [hTasks, hOld, (h.mirrors.live_iff.mp hLive).1]
      rfl
  · rw [map_eq_none_iff, Memory.record, or_eq_none_iff] at hNone
    rw [h.staged.tasks, hNone.1, none_or]
    exact hRead id found hEnded

variable {current : TaskRecord} (on : List Nat) (policy : JoinPolicy)

/-- With every member known, a wait is refused for a bad member or for a path back. -/
theorem checkWait_iff (hSound : s.Sound) (hCurrent : s.Live current.id current) (hKnown : m.Known overlay staged ended) :
    (∃ ids, ids ≠ [] ∧ (∀ id ∈ ids, id ∈ on ∧ m.waitMember overlay ended id = none) ∧
        (∀ id ∈ on, m.waitMember overlay ended id = none → id ∈ ids) ∧ m.checkWait overlay current.id on policy ended = .missing ids) ∨
      ((∃ error, m.checkWait overlay current.id on policy ended = .refused error) ∧
        ((∃ id ∈ on, staged.BadMember current.id policy id) ∨
          ∃ target ∈ on, staged.isTarget current.id target = true ∧ ReflTransGen staged.WaitsFor target current.id)) ∨
      (m.checkWait overlay current.id on policy ended = .stored ∧ ¬ (∃ id ∈ on, staged.BadMember current.id policy id) ∧
          ¬ ∃ target ∈ on, staged.isTarget current.id target = true ∧ ReflTransGen staged.WaitsFor target current.id) := by
  unfold checkWait
  cases hMembers : m.checkMembers overlay ended current.id policy on [] [] with
  | error error => exact .inr (.inl ⟨⟨error, rfl⟩, .inl (checkMembers_error hKnown hMembers)⟩)
  | ok result =>
    obtain ⟨targets, missing⟩ := result
    obtain ⟨hMissing, hRest⟩ := checkMembers_ok hKnown hMembers
    simp only [List.nil_append] at hMissing hRest
    dsimp only
    by_cases hNone : missing = []
    · obtain ⟨hGood, rfl⟩ := hRest (hMissing.symm.trans hNone)
      right
      rw [if_neg (not_not.mpr hNone)]
      have hBad : ¬ ∃ id ∈ on, staged.BadMember current.id policy id := fun ⟨id, hIn, hIs⟩ => hGood id hIn hIs
      have hTargets : ∀ target ∈ on.filter (staged.isTarget current.id), ∃ record, staged.Live target record := by
        intro target hTarget
        obtain ⟨record, hLive, _⟩ := Store.isTarget_iff.mp (List.mem_filter.mp hTarget).2
        exact ⟨record, hLive⟩
      have hCycle := h.waitCycle_iff hSound ⟨current, hCurrent⟩ hTargets
      have hPaths : (∃ target ∈ on.filter (staged.isTarget current.id), ReflTransGen staged.WaitsFor target current.id) ↔
          ∃ target ∈ on, staged.isTarget current.id target = true ∧ ReflTransGen staged.WaitsFor target current.id := by
        simp only [List.mem_filter, and_assoc]
      rw [hPaths] at hCycle
      by_cases hEmpty : on.filter (staged.isTarget current.id) = []
      · right
        rw [if_pos hEmpty]
        refine ⟨rfl, hBad, ?_⟩
        rw [← hPaths, hEmpty]
        simp
      · rw [if_neg hEmpty]
        cases hFound : m.waitCycle overlay current.id (on.filter (staged.isTarget current.id)) with
        | none => exact .inr ⟨rfl, hBad, fun hPath => hCycle.mpr hPath hFound⟩
        | some path =>
          have hPath := hCycle.mp (by rw [hFound]; exact some_ne_none _)
          exact .inl ⟨⟨_, rfl⟩, .inr hPath⟩
    · left
      rw [if_pos hNone]
      refine ⟨missing, hNone, ?_, ?_, rfl⟩
      · intro id hIn
        rw [hMissing] at hIn
        simpa using List.mem_filter.mp hIn
      · intro id hIn hAbsent
        rw [hMissing]
        exact List.mem_filter.mpr ⟨hIn, by simp [hAbsent]⟩

theorem waitRefused_iff (hSound : s.Sound) (hCurrent : s.Live current.id current) :
    m.waitRefused overlay (fun id => s.tasks.lookup id) current.id on policy ≠ none ↔
      (∃ id ∈ on, staged.BadMember current.id policy id) ∨
        ∃ target ∈ on, staged.isTarget current.id target = true ∧ ReflTransGen staged.WaitsFor target current.id := by
  have hNothing : ∀ id found, ([] : List (Nat × Option TaskRecord)).lookup id = some found → found = s.tasks.lookup id := by
    simp
  have hFirst := h.checkWait_iff on policy hSound hCurrent (h.known_of_read hNothing)
  rw [waitRefused, validateLoop]
  rcases hFirst with ⟨ids, hNonempty, hAbsent, hAll, hCheck⟩ | ⟨⟨error, hCheck⟩, hWhy⟩ | ⟨hCheck, hGood, hPath⟩
  · rw [hCheck]
    dsimp only
    have hRead : ∀ id found, (ids.foldl (fun ended id => set ended id (s.tasks.lookup id)) []).lookup id = some found →
        found = s.tasks.lookup id := by
      intro id found hFound
      rw [lookup_foldl_read] at hFound
      split_ifs at hFound
      · exact (some.inj hFound).symm
      · cases hFound
    have hSecond := h.checkWait_iff on policy hSound hCurrent (h.known_of_read hRead)
    rw [validateLoop]
    rcases hSecond with ⟨more, hMore, hStill, hAgain, _⟩ | ⟨⟨error, hCheck⟩, hWhy⟩ | ⟨hCheck, hGood, hPath⟩
    · obtain ⟨id, hIn⟩ := List.exists_mem_of_ne_nil more hMore
      obtain ⟨hOn, hNone⟩ := hStill id hIn
      rw [waitMember, or_eq_none_iff, lookup_foldl_read] at hNone
      have hFirstNone : m.waitMember overlay [] id = none := by
        rw [waitMember, hNone.1]
        rfl
      rw [if_pos (hAll id hOn hFirstNone)] at hNone
      cases hNone.2
    · rw [hCheck]
      simp [hWhy]
    · rw [hCheck]
      simp [hGood, hPath]
  · rw [hCheck]
    simp [hWhy]
  · rw [hCheck]
    simp [hGood, hPath]

end Covers
end Memory
end OctoberHarness.Scheduler
