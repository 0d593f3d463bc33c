import OctoberHarness.Scheduler.Marks

/-! Reconcile passes: what one commits, and where repeating them leads. -/
namespace OctoberHarness.Scheduler

open OrderedMap Relation Option

namespace Memory

variable (m : Memory)

/-- What a finalize round has decided so far. -/
structure Round where
  tasks : List (Nat × TaskRecord)
  round : List Nat := []
  next : List Nat := []
deriving DecidableEq, Repr

/-- One task of a round: a `completing` one without live ordinary owned work ends,
and a holder above it is checked next. -/
def roundStep (overlay : Overlay) (finalized : List Nat) (state : Round) (id : Nat) : Round :=
  match m.record { overlay with tasks := state.tasks } id with
  | none => state
  | some record =>
    match record.state with
    | .completing outcome =>
      if id ∈ state.round ∨ id ∈ finalized then state
      else if m.hasOwnedLive { overlay with tasks := state.tasks } id (state.round ++ finalized) then state
      else
        let tasks := set state.tasks id (record.withState (.terminal outcome))
        { tasks
          round := state.round ++ [id]
          next :=
            match (m.nearestLiveAbove { overlay with tasks } (m.live.length + m.settled.length + tasks.length + 1)
                record.toTaskNode).filter TaskRecord.isCompleting with
            | none => state.next
            | some above => if above.id ∈ state.next then state.next else state.next ++ [above.id] }
    | _ => state

def planRound (ids : List Nat) (overlay : Overlay) (finalized : List Nat) : Round :=
  ids.foldl (m.roundStep overlay finalized) { tasks := overlay.tasks }

/-- The rounds of `#finalize`, as long as holders come free. -/
def finalize : Nat → List Nat → Overlay → List Nat → Overlay
  | 0, _, overlay, _ => overlay
  | fuel + 1, ids, overlay, done =>
    let plan := m.planRound ids overlay done
    if plan.next = [] then { overlay with tasks := plan.tasks }
    else finalize fuel plan.next { overlay with tasks := plan.tasks } (done ++ plan.round)

/-- The records that staged marks write. -/
def markOverlay (marks : Marks) : Overlay where
  tasks := marks.map fun entry => (entry.1, entry.2.record.withAbortMark entry.2.reason)

/-- The candidates a reconcile pass commits. -/
def reconcile (storage : Nat → Option TaskRecord) : Overlay :=
  m.finalize (m.live.length + 1) m.finalizeChecks (markOverlay (m.marks storage)) []

end Memory

/-- A pass on the line: `next` is memory once the commit of the pass is published,
with nothing else committed. What its sets of checks then hold is left open. -/
structure Pass (m : Memory) (storage : Nat → Option TaskRecord) (next : Memory) : Prop where
  before : m.Loaded
  after : next.Loaded
  live : ∀ id, next.live.lookup id = (m.record (m.reconcile storage) id).filter fun record => !record.isTerminal

namespace Memory

variable {m : Memory}

/-! What a pass changes. -/

/-- Tasks as they were, or ended with the outcome they held. -/
def Ends (m : Memory) (base : Overlay) (tasks : List (Nat × TaskRecord)) : Prop :=
  ∀ id, tasks.lookup id = base.tasks.lookup id ∨
    ∃ record outcome, m.record base id = some record ∧ tasks.lookup id = some (record.withState (.terminal outcome))

variable {overlay base : Overlay} {id : Nat}

theorem Ends.roundStep {state : Round} (hEnds : m.Ends base state.tasks) (finalized : List Nat) (id : Nat) :
    m.Ends base (m.roundStep overlay finalized state id).tasks := by
  unfold Memory.roundStep
  cases hRecord : m.record { overlay with tasks := state.tasks } id with
  | none => exact hEnds
  | some record =>
    cases hState : record.state with
    | completing outcome =>
      simp only [hState]
      split_ifs
      · exact hEnds
      · exact hEnds
      · intro other
        dsimp only
        rw [lookup_set]
        split_ifs with hSame
        · subst hSame
          right
          rcases hEnds other with hBase | ⟨before, held, hBefore, hEnded⟩
          · exact ⟨record, outcome, by rw [Memory.record, ← hBase]; exact hRecord, rfl⟩
          · rw [Memory.record, hEnded, some_or] at hRecord
            obtain rfl := some.inj hRecord
            rw [TaskRecord.state_withState] at hState
            cases hState
        · exact hEnds other
    | _ =>
      simp only [hState]
      exact hEnds

theorem Ends.planRound (hEnds : m.Ends base overlay.tasks) (ids finalized : List Nat) :
    m.Ends base (m.planRound ids overlay finalized).tasks := by
  have hRun : ∀ (ids : List Nat) (state : Round), m.Ends base state.tasks → m.Ends base (ids.foldl (m.roundStep overlay finalized) state).tasks := by
    intro ids
    induction ids with
    | nil => exact fun _ hState => hState
    | cons id rest ih => exact fun state hState => ih _ (hState.roundStep finalized id)
  exact hRun ids { tasks := overlay.tasks } hEnds

theorem Ends.finalize (fuel : Nat) {ids : List Nat} {done : List Nat}
    (hEnds : m.Ends base overlay.tasks) : m.Ends base (m.finalize fuel ids overlay done).tasks := by
  induction fuel generalizing ids overlay done with
  | zero => exact hEnds
  | succ fuel ih =>
    have hRound := hEnds.planRound ids done
    rw [Memory.finalize]
    split_ifs
    · exact hRound
    · exact ih hRound

variable {storage : Nat → Option TaskRecord}

theorem live_after_pass {next : Memory} (hPass : Pass m storage next) (id : Nat) :
    next.live.lookup id = none ∨ next.live.lookup id = m.record (markOverlay (m.marks storage)) id := by
  have hEnds : m.Ends (markOverlay (m.marks storage)) (m.reconcile storage).tasks :=
    Ends.finalize _ fun id => .inl rfl
  have hNow := hPass.live id
  rcases hEnds id with hSame | ⟨record, outcome, _, hEnded⟩
  · have hRecord : m.record (m.reconcile storage) id = m.record (markOverlay (m.marks storage)) id := by
      rw [Memory.record, hSame]
      rfl
    rw [hNow, hRecord]
    cases m.record (markOverlay (m.marks storage)) id with
    | none => exact .inl rfl
    | some record =>
      rw [filter_some]
      split_ifs
      · exact .inr rfl
      · exact .inl rfl
  · left
    rw [hNow, Memory.record, hEnded, some_or, filter_some]
    simp [TaskRecord.isTerminal]

/-! How many rounds there are. -/

theorem mem_liveIds (hLive : m.live.lookup id ≠ none) : id ∈ (m.live.map Prod.fst).toFinset := by
  by_contra hOut
  exact hLive ((lookup_eq_none_iff _ _).mpr fun hIn => hOut (List.mem_toFinset.mpr hIn))

/-! Repeating passes. -/

/-- How strongly a task is marked. -/
def strength (record : TaskRecord) : Nat :=
  if record.Requested then 2 else if record.abortRequested then 1 else 0

/-- The marks that some tasks may still get. -/
def unmarked (m : Memory) (ids : Finset Nat) : Nat :=
  ∑ id ∈ ids, ((m.live.lookup id).map fun record => 2 - strength record).getD 0

theorem lookup_markOverlay (marks : Marks) (id : Nat) :
    (markOverlay marks).tasks.lookup id = (marks.lookup id).map fun mark => mark.record.withAbortMark mark.reason := by
  unfold markOverlay
  induction marks with
  | nil => rfl
  | cons entry rest ih =>
    rw [List.map_cons, lookup_cons, lookup_cons, ih]
    split_ifs <;> rfl

theorem Loaded.strength_lt (h : m.Loaded) {staged : Mark} (hStaged : (m.marks storage).lookup id = some staged) :
    m.live.lookup id = some staged.record ∧
      strength staged.record < strength (staged.record.withAbortMark staged.reason) := by
  obtain ⟨ended, checked, hPlan⟩ := m.exists_marks storage
  obtain ⟨hLive, hReason⟩ := (h.lookup_planMarks hPlan).mp hStaged
  apply And.intro hLive
  rcases hReason with ⟨hNone, hNot, _⟩ | ⟨hRestart, hFree, _⟩
  · have hNew : (staged.record.withAbortMark staged.reason).Requested := by
      rw [hNone]
      exact ⟨rfl, rfl⟩
    unfold strength
    rw [if_neg hNot, if_pos hNew]
    split_ifs <;> decide
  · have hOld : strength staged.record = 0 := by simp [strength, TaskRecord.Requested, hFree]
    have hNew : strength (staged.record.withAbortMark staged.reason) = 1 := by
      simp [strength, TaskRecord.Requested, TaskRecord.withAbortMark, hRestart]
    omega

theorem Loaded.record_mark (h : m.Loaded) (storage : Nat → Option TaskRecord) (id : Nat) :
    ((m.marks storage).lookup id = none ∧ m.record (markOverlay (m.marks storage)) id = m.live.lookup id) ∨
      ∃ before after, m.live.lookup id = some before ∧ m.record (markOverlay (m.marks storage)) id = some after ∧
        strength before < strength after := by
  rw [record, lookup_markOverlay]
  cases hStaged : (m.marks storage).lookup id with
  | none => exact .inl ⟨rfl, rfl⟩
  | some staged =>
    obtain ⟨hLive, hLess⟩ := h.strength_lt hStaged
    exact .inr ⟨_, _, hLive, rfl, hLess⟩

variable {storage : Nat → Option TaskRecord} {next : Memory}

theorem unmarked_after (hPass : Pass m storage next) (id : Nat) :
    ((next.live.lookup id).map fun record => 2 - strength record).getD 0 ≤
      ((m.live.lookup id).map fun record => 2 - strength record).getD 0 := by
  rcases live_after_pass hPass id with hNone | hRecord
  · rw [hNone]
    exact Nat.zero_le _
  · rw [hRecord]
    rcases hPass.before.record_mark storage id with ⟨_, hSame⟩ | ⟨before, after, hBefore, hAfter, hLess⟩
    · rw [hSame]
    · rw [hBefore, hAfter]
      simp only [map_some, getD_some]
      omega

theorem strength_le (record : TaskRecord) : strength record ≤ 2 := by
  unfold strength
  split_ifs <;> decide

theorem unmarked_lt (hPass : Pass m storage next) {ids : Finset Nat} (hIds : ∀ id, m.live.lookup id ≠ none → id ∈ ids)
    (hMarks : m.marks storage ≠ []) : next.unmarked ids < m.unmarked ids := by
  obtain ⟨⟨id, staged⟩, rest, hHead⟩ := List.exists_cons_of_ne_nil hMarks
  have hStaged : (m.marks storage).lookup id = some staged := by
    rw [hHead, lookup_cons, if_pos rfl]
  obtain ⟨hLive, _⟩ := hPass.before.strength_lt hStaged
  apply Finset.sum_lt_sum (fun other _ => unmarked_after hPass other)
  refine ⟨id, hIds id (by rw [hLive]; exact some_ne_none _), ?_⟩
  rcases hPass.before.record_mark storage id with ⟨hNone, _⟩ | ⟨before, after, hBefore, hAfter, hLess⟩
  · rw [hStaged] at hNone
    cases hNone
  · have hMost := strength_le after
    rw [hBefore]
    rcases live_after_pass hPass id with hEnded | hRecord
    · rw [hEnded]
      simp only [map_some, getD_some, map_none, getD_none]
      omega
    · rw [hRecord, hAfter]
      simp only [map_some, getD_some]
      omega

theorem live_before (hPass : Pass m storage next) (hLive : next.live.lookup id ≠ none) :
    m.live.lookup id ≠ none := by
  rcases live_after_pass hPass id with hNone | hRecord
  · exact (hLive hNone).elim
  · rcases hPass.before.record_mark storage id with ⟨_, hSame⟩ | ⟨before, _, hBefore, _⟩
    · rwa [← hSame, ← hRecord]
    · rw [hBefore]
      exact some_ne_none _

theorem exists_quiet {run : Nat → Memory} {storage : Nat → Nat → Option TaskRecord}
    (hRun : ∀ n, Pass (run n) (storage n) (run (n + 1))) : ∃ n, (run n).marks (storage n) = [] := by
  by_contra hNever
  have hMarks : ∀ n, (run n).marks (storage n) ≠ [] := fun n hEmpty => hNever ⟨n, hEmpty⟩
  let ids := ((run 0).live.map Prod.fst).toFinset
  have hIds : ∀ n id, (run n).live.lookup id ≠ none → id ∈ ids := by
    intro n
    induction n with
    | zero =>
      exact fun id hLive => mem_liveIds hLive
    | succ n ih => exact fun id hLive => ih id (live_before (hRun n) hLive)
  have hLess : ∀ n, (run n).unmarked ids + n ≤ (run 0).unmarked ids := by
    intro n
    induction n with
    | zero => exact Nat.le_refl _
    | succ n ih =>
      have hStep := unmarked_lt (hRun n) (hIds n) (hMarks n)
      omega
  have hTooMany := hLess ((run 0).unmarked ids + 1)
  omega

/-! What a pass that marks nothing leaves. -/

section

variable {ended : Ended} {checked : List Nat} (h : m.Loaded) (hQuiet : m.planMarks ended = .marks [] checked)

include h hQuiet

theorem Loaded.requested_of_quiet {record owner : TaskRecord} (hLive : m.live.lookup record.id = some record)
    (hOrdinary : record.background = false) (hCancels : m.Cancels (parentOf record.toTaskNode) owner)
    (hRequest : owner.restartOnly = false) : record.Requested := by
  by_contra hNot
  have hReason : m.cascadeReason record = some none := by
    rw [cascadeReason, if_neg (by simp [hOrdinary]), h.cancellingOwner_iff.mpr hCancels]
    simp [hRequest]
  have hMark : ([] : Marks).lookup record.id = some ⟨record, none⟩ :=
    (h.lookup_planMarks hQuiet).mpr ⟨hLive, .inl ⟨rfl, hNot, .inr hReason⟩⟩
  cases hMark

/-- Below a requested or failed owner, as far as ordinary traversal goes, a
request is what reaches the next task. -/
theorem Loaded.cancels_below {id : Nat} {top : TaskRecord} (hTop : m.live.lookup id = some top)
    (hWhy : top.Requested ∨ top.failedOutcome = true) {at' : Node}
    (hReaches : Walk.Reaches (m.entered {} false fun id => id ∉ []) (.task id) at') :
    ∃ owner, m.Cancels at' owner ∧ owner.restartOnly = false := by
  induction hReaches with
  | refl =>
    refine ⟨top, .here hTop ?_, ?_⟩
    · rw [TaskRecord.cancellationIntent, h.live hTop]
      rcases hWhy with hRequested | hFailed
      · simp [hRequested.1]
      · simp [hFailed]
    · rcases hWhy with hRequested | hFailed
      · simp [TaskRecord.restartOnly, hRequested.2]
      · simp [TaskRecord.restartOnly, hFailed]
  | @tail before child _ hStep ih =>
    obtain ⟨owner, hCancels, hRequest⟩ := ih
    obtain ⟨hChild, hEnters⟩ := List.mem_filter.mp hStep
    have hParent := h.parent_of_child hChild
    cases child with
    | conversation id =>
      obtain ⟨task, hEdge, rfl⟩ := parent_conversation.mp hParent
      exact ⟨owner, .conversation hEdge hCancels, hRequest⟩
    | task id =>
      obtain ⟨known, hNode, rfl⟩ := parent_task.mp hParent
      have hOrdinary : known.background = false := by
        rw [enters, hNode] at hEnters
        simpa using hEnters
      cases hIntent : (m.live.lookup id).filter TaskRecord.cancellationIntent with
      | none => exact ⟨owner, .task hNode hIntent hOrdinary hCancels, hRequest⟩
      | some live =>
        obtain ⟨hLive, hCancelling⟩ := Option.filter_eq_some_iff.mp hIntent
        obtain rfl : live.id = id := h.named hLive
        obtain rfl := some.inj (hNode.symm.trans (node_of_record hLive))
        have hRequested := h.requested_of_quiet hQuiet hLive hOrdinary hCancels hRequest
        exact ⟨live, .here hLive hCancelling, by simp [TaskRecord.restartOnly, hRequested.2]⟩

theorem Loaded.requested_below {id : Nat} {top : TaskRecord} (hTop : m.live.lookup id = some top)
    (hWhy : top.Requested ∨ top.failedOutcome = true) {task : Nat} (hTask : task ∈ m.ownedLive {} id []) :
    ∃ record, m.live.lookup task = some record ∧ record.Requested := by
  obtain ⟨step, hStep, hOwned⟩ := List.mem_filterMap.mp hTask
  split_ifs at hOwned with hForeground
  obtain rfl := some.inj hOwned
  obtain ⟨hSome, hOrdinary⟩ := Bool.and_eq_true_iff.mp hForeground
  obtain ⟨record, hLive⟩ := Option.isSome_iff_exists.mp hSome
  obtain ⟨at', hReaches, child, hChild, hFound⟩ := h.mem_walkDown.mp hStep
  obtain ⟨rfl, hRecord, rfl⟩ := h.found_live.mp ⟨hFound, hLive⟩
  obtain ⟨owner, hCancels, hRequest⟩ := h.cancels_below hQuiet hTop hWhy hReaches
  have hParent := some.inj ((h.parent_of_child hChild).symm.trans (parent_of_record hRecord))
  subst hParent
  exact ⟨record, hRecord, h.requested_of_quiet hQuiet hRecord (by simpa using hOrdinary) hCancels hRequest⟩

end

end Memory

/-- Exactly the live tasks below cancellation that are not yet marked as strongly
are marked; the order of the owners does not matter; and passes that follow one
another come to one that marks nothing, with every ordinary live task below a
requested or failed owner requested itself. -/
theorem abort_cascades_exact :
    (∀ m : Memory, m.Loaded → ∀ ended marks checked, m.planMarks ended = .marks marks checked →
      ∀ id staged, marks.lookup id = some staged ↔ m.live.lookup id = some staged.record ∧
        (staged.reason = none ∧ ¬ staged.record.Requested ∧ (m.FailFast ended staged.record ∨
            staged.record.background = false ∧ ∃ owner,
              m.cancellingOwner (parentOf staged.record.toTaskNode) = some owner ∧ owner.restartOnly = false) ∨
          staged.reason = some .restart ∧ staged.record.abortRequested = false ∧ ¬ m.FailFast ended staged.record ∧
            staged.record.background = false ∧ ∃ owner,
              m.cancellingOwner (parentOf staged.record.toTaskNode) = some owner ∧ owner.restartOnly = true)) ∧
    (∀ m : Memory, m.Loaded → ∀ intent : List Nat, (∀ id, id ∈ intent ↔ id ∈ m.intent) → ∀ ended,
      (m.planMarks ended).Same (Memory.planMarks { m with intent } ended)) ∧
    (∀ (run : Nat → Memory) (storage : Nat → Nat → Option TaskRecord), (∀ n, Pass (run n) (storage n) (run (n + 1))) →
      ∃ n, (run n).marks (storage n) = [] ∧ ∀ id top, (run n).live.lookup id = some top →
        (top.Requested ∨ top.failedOutcome = true) → ∀ task ∈ (run n).ownedLive {} id [],
          ∃ record, (run n).live.lookup task = some record ∧ record.Requested) := by
  refine ⟨?_, fun m h intent hSame ended => h.planMarks_same hSame ended, ?_⟩
  · intro m h ended marks checked hPlan id staged
    have hReason : ∀ (record : TaskRecord) (restart : Bool),
        m.cascadeReason record = some (if restart then some .restart else none) ↔ record.background = false ∧
          ∃ owner, m.cancellingOwner (parentOf record.toTaskNode) = some owner ∧ owner.restartOnly = restart := by
      intro record restart
      unfold Memory.cascadeReason
      cases record.background with
      | true => simp
      | false =>
        simp only [Bool.false_eq_true, if_false, map_eq_some_iff, true_and]
        apply exists_congr
        intro owner
        apply and_congr_right
        intro _
        cases owner.restartOnly <;> cases restart <;> simp
    rw [h.lookup_planMarks hPlan, ← hReason _ true, ← hReason _ false]
    rfl
  · intro run storage hRun
    obtain ⟨n, hQuiet⟩ := Memory.exists_quiet hRun
    refine ⟨n, hQuiet, ?_⟩
    intro id top hTop hWhy task hTask
    obtain ⟨ended, checked, hPlan⟩ := (run n).exists_marks (storage n)
    rw [hQuiet] at hPlan
    exact (hRun n).before.requested_below hPlan hTop hWhy hTask

/-! A requested owner with a task of its own, marked or not, and background work
with a task below it. -/

def abortedOwner : TaskRecord where
  id := 2
  conversationId := 1
  abortRequested := true
  state := .running .null

def ownedTask (marked : Bool) : TaskRecord where
  id := 3
  conversationId := 1
  owner := some 2
  abortRequested := marked
  state := .pending .null

def backgroundTask : TaskRecord where
  id := 5
  conversationId := 4
  background := true
  state := .pending .null

def belowBackground : TaskRecord where
  id := 6
  conversationId := 4
  owner := some 5
  state := .pending .null

def abortedTree (marked : Bool) : Memory where
  live := [(2, abortedOwner), (3, ownedTask marked), (5, backgroundTask), (6, belowBackground)]
  edges := [(1, none), (4, some 2)]
  below := [(.conversation 1, [.task 2]), (.task 2, [.task 3, .conversation 4]), (.conversation 4, [.task 5]),
    (.task 5, [.task 6])]
  intent := if marked then [2, 3] else [2]

def abortedRank : Node → Nat
  | .task id => id
  | .conversation id => id

theorem abortedTree_loaded (marked : Bool) : (abortedTree marked).Loaded := by
  apply @Memory.loaded_of_inOrder _ abortedRank
  cases marked <;> decide

theorem abortedTree_pass (marked : Bool) : Pass (abortedTree marked) (fun _ => none) (abortedTree true) where
  before := abortedTree_loaded marked
  after := abortedTree_loaded true
  live := by
    have hStaged : ((abortedTree marked).reconcile fun _ => none).tasks = if marked then [] else [(3, ownedTask true)] := by
      cases marked <;> decide
    intro id
    rw [Memory.record, hStaged]
    by_cases hTask : id = 3
    · subst hTask
      cases marked <;> decide
    · have hOther : (if marked then [] else [(3, ownedTask true)]).lookup id = none := by
        cases marked <;> simp [OrderedMap.lookup_cons, hTask]
      rw [hOther, none_or]
      simp only [abortedTree, OrderedMap.lookup_cons, hTask, if_false]
      split_ifs <;> rfl

theorem abort_cascades_exact_aborted :
    ((abortedTree false).planMarks [] = .marks [(3, ⟨ownedTask false, none⟩)] [] ∧
      [((3 : Nat), Mark.mk (ownedTask false) none)].lookup 3 = some ⟨ownedTask false, none⟩) ∧
    ∃ n, ((fun n => abortedTree (decide (0 < n))) n).marks (fun _ => none) = [] := by
  have hPlan : (abortedTree false).planMarks [] = .marks [(3, ⟨ownedTask false, none⟩)] [] := by decide
  refine ⟨⟨hPlan, ?_⟩, ?_⟩
  · apply (abort_cascades_exact.1 _ (abortedTree_loaded false) [] _ _ hPlan 3 ⟨ownedTask false, none⟩).mpr
    refine ⟨by decide, .inl ⟨rfl, by decide, .inr ⟨rfl, abortedOwner, by decide, by decide⟩⟩⟩
  · obtain ⟨n, hQuiet, _⟩ := abort_cascades_exact.2.2 (fun n => abortedTree (decide (0 < n))) (fun _ _ => none)
      (fun n => abortedTree_pass (decide (0 < n)))
    exact ⟨n, hQuiet⟩

/-- A task that carries its request is below cancellation and not marked again,
and what is below background work is not requested though it is below a request. -/
theorem requested_not_marked_again :
    (abortedTree true).Loaded ∧ (abortedTree true).planMarks [] = .marks [] [] ∧
      (abortedTree true).cancellingOwner (parentOf (ownedTask true).toTaskNode) = some abortedOwner ∧
      (abortedTree true).live.lookup 3 = some (ownedTask true) ∧ (ownedTask true).background = false ∧
      abortedOwner.Requested ∧
      6 ∈ ((abortedTree true).walkDown {} (.task 2) true fun _ => true).map Memory.Found.id ∧
      (abortedTree true).live.lookup 6 = some belowBackground ∧ belowBackground.background = false ∧
      ¬ belowBackground.Requested := by
  refine ⟨abortedTree_loaded true, ?_⟩
  decide

end OctoberHarness.Scheduler
