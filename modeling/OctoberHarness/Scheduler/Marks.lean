import OctoberHarness.Scheduler.Cancelling

/-! The abort marks that committed records imply. -/
namespace OctoberHarness.Scheduler

open List OrderedMap Relation Option

/-- A staged mark: the record it copies, and its reason. -/
structure Mark where
  record : TaskRecord
  reason : Option AbortReason
deriving DecidableEq, Repr

abbrev Marks := List (Nat × Mark)

/-- Tasks read from Storage; `none` inside when there is none. -/
abbrev Ended := List (Nat × Option TaskRecord)

inductive MarkPlan where
  | missing (ids : List Nat)
  | marks (marks : Marks) (checked : List Nat)
deriving DecidableEq, Repr

/-- The same tasks are marked for the same reasons, or the same ones are missing. -/
def MarkPlan.Same : MarkPlan → MarkPlan → Prop
  | .missing first, .missing second => first = second
  | .marks first checked, .marks second checked' => (∀ id, first.lookup id = second.lookup id) ∧ checked = checked'
  | _, _ => False

namespace Memory

variable (m : Memory)

/-- A request wins over a `restart` mark of the same pass, and neither is staged
for a record that is marked as strongly. -/
def mark (marks : Marks) (call : TaskRecord × Option AbortReason) : Marks :=
  match m.live.lookup call.1.id with
  | none => marks
  | some record =>
    if ((marks.lookup record.id).map Mark.reason) = some none then marks
    else if record.abortRequested && (record.abortReason.isNone || call.2.isSome) then marks
    else set marks record.id { record, reason := call.2 }

/-- The calls of `mark` for what is below the owners with intent. -/
def cascadeCalls : List (TaskRecord × Option AbortReason) :=
  m.intent.flatMap fun id =>
    match m.live.lookup id with
    | none => []
    | some owner =>
      (m.walkDown {} (.task id) false fun below => below ∉ m.intent).filterMap fun step =>
        if step.node.background then none
        else step.live.map fun live => (live, if owner.restartOnly then some .restart else none)

def waitsOn (id : Nat) : List Nat :=
  match (m.live.lookup id).map TaskRecord.state with
  | some (.waiting _ on _) => on
  | _ => []

def member (ended : Ended) (id : Nat) : Option (Option TaskRecord) :=
  ((m.live.lookup id).map some).or (ended.lookup id)

def hasFailed (ended : Ended) (on : List Nat) : Bool :=
  on.any fun id => ((m.member ended id).join.map TaskRecord.failedOutcome).getD false

/-- The calls of `mark` for a `failFast` waiter: every other live task. -/
def failFastCalls (ended : Ended) (waiter : Nat) : List (TaskRecord × Option AbortReason) :=
  if m.hasFailed ended (m.waitsOn waiter) then
    (m.waitsOn waiter).filterMap fun id =>
      ((m.live.lookup id).filter fun record => !record.failedOutcome).map fun record => (record, none)
  else []

def calls (ended : Ended) : List (TaskRecord × Option AbortReason) :=
  m.cascadeCalls ++ m.failFastChecks.flatMap (m.failFastCalls ended)

/-- The `failFast` members to read from Storage first. -/
def missing (ended : Ended) : List Nat :=
  m.failFastChecks.flatMap fun waiter => (m.waitsOn waiter).filter fun id => (m.member ended id).isNone

def planMarks (ended : Ended) : MarkPlan :=
  if m.missing ended = [] then .marks ((m.calls ended).foldl m.mark []) m.failFastChecks
  else .missing (m.missing ended)

/-- The loop of `#marks`: what is missing is read from Storage, and the decision
taken again. -/
def marksLoop (storage : Nat → Option TaskRecord) : Nat → Ended → Option (Marks × List Nat)
  | 0, _ => none
  | fuel + 1, ended =>
    match m.planMarks ended with
    | .missing ids => marksLoop storage fuel (ids.foldl (fun ended id => set ended id (storage id)) ended)
    | .marks marks checked => some (marks, checked)

/-- The marks of one pass. Nothing is missing in the second round. -/
def marks (storage : Nat → Option TaskRecord) : Marks := ((m.marksLoop storage 2 []).map Prod.fst).getD []

variable {m}

variable {ended : Ended} {record : TaskRecord} {reason : Option AbortReason}

theorem planMarks_of_read (hRead : m.missing ended = []) :
    m.planMarks ended = .marks ((m.calls ended).foldl m.mark []) m.failFastChecks := if_pos hRead

theorem planMarks_of_missing (hMissing : m.missing ended ≠ []) :
    m.planMarks ended = .missing (m.missing ended) := if_neg hMissing

/-! What is marked. -/

/-- A `failFast` waiter to check has a failed task, and waits for this other live one. -/
def FailFast (m : Memory) (ended : Ended) (record : TaskRecord) : Prop :=
  record.failedOutcome = false ∧
    ∃ waiter ∈ m.failFastChecks, m.hasFailed ended (m.waitsOn waiter) = true ∧ record.id ∈ m.waitsOn waiter

/-- The reason a cascade passes on to a live foreground task. -/
def cascadeReason (m : Memory) (record : TaskRecord) : Option (Option AbortReason) :=
  if record.background then none
  else (m.cancellingOwner (parentOf record.toTaskNode)).map fun owner => if owner.restartOnly then some .restart else none

/-- The reason some calls of `mark` stage for a record. -/
def stagedReason (calls : List (TaskRecord × Option AbortReason)) (record : TaskRecord) : Option (Option AbortReason) :=
  if (record, none) ∈ calls ∧ ¬ record.Requested then some none
  else if (record, some .restart) ∈ calls ∧ record.abortRequested = false then some (some .restart)
  else none

namespace Loaded

theorem mem_cascadeCalls (h : m.Loaded) :
    (record, reason) ∈ m.cascadeCalls ↔ m.live.lookup record.id = some record ∧ m.cascadeReason record = some reason := by
  have hReason : m.cascadeReason record = some reason ↔ record.background = false ∧
      ∃ owner, m.cancellingOwner (parentOf record.toTaskNode) = some owner ∧
        (if owner.restartOnly then some AbortReason.restart else none) = reason := by
    rw [cascadeReason]
    split_ifs with hBackground
    · simp [hBackground]
    · simp [hBackground]
  rw [hReason]
  constructor
  · intro hCall
    obtain ⟨id, hIn, hCall⟩ := mem_flatMap.mp hCall
    obtain ⟨owner, hOwner, hIntent⟩ := h.intent.mp hIn
    simp only [hOwner] at hCall
    obtain ⟨step, hStep, hMark⟩ := mem_filterMap.mp hCall
    have hForeground : step.node.background = false := by
      by_contra hBackground
      simp [hBackground] at hMark
    rw [hForeground, if_neg Bool.false_ne_true] at hMark
    obtain ⟨live, hLive, hPair⟩ := map_eq_some_iff.mp hMark
    obtain ⟨rfl, rfl⟩ := Prod.mk.inj hPair
    obtain rfl := h.named hOwner
    have hDown := (h.walkDown_iff hOwner hIntent).mp ⟨step, hStep, hLive, hForeground⟩
    exact ⟨hDown.1, hDown.2.1, owner, hDown.2.2, rfl⟩
  · rintro ⟨hLive, hOrdinary, owner, hCancelling, rfl⟩
    obtain ⟨hIn, hOwner⟩ := h.intent_of_cancels (h.cancellingOwner_iff.mp hCancelling)
    obtain ⟨record', hRecord', hIntent⟩ := h.intent.mp hIn
    obtain rfl := some.inj (hOwner.symm.trans hRecord')
    obtain ⟨step, hStep, hStepLive, hForeground⟩ := (h.walkDown_iff hOwner hIntent).mpr ⟨hLive, hOrdinary, hCancelling⟩
    apply mem_flatMap.mpr ⟨owner.id, hIn, _⟩
    simp only [hOwner]
    exact mem_filterMap.mpr ⟨step, hStep, by simp [hForeground, hStepLive]⟩

theorem mem_failFastCalls (h : m.Loaded) :
    (record, reason) ∈ m.failFastChecks.flatMap (m.failFastCalls ended) ↔
      m.live.lookup record.id = some record ∧ reason = none ∧ m.FailFast ended record := by
  rw [mem_flatMap]
  constructor
  · rintro ⟨waiter, hWaiter, hCall⟩
    unfold failFastCalls at hCall
    split_ifs at hCall with hFailed
    · obtain ⟨id, hOn, hMark⟩ := mem_filterMap.mp hCall
      obtain ⟨live, hFilter, hPair⟩ := map_eq_some_iff.mp hMark
      obtain ⟨rfl, rfl⟩ := Prod.mk.inj hPair
      obtain ⟨hLive, hKept⟩ := filter_eq_some_iff.mp hFilter
      obtain rfl := h.named hLive
      exact ⟨hLive, rfl, by simpa using hKept, waiter, hWaiter, hFailed, hOn⟩
    · cases hCall
  · rintro ⟨hLive, rfl, hOther, waiter, hWaiter, hFailed, hOn⟩
    apply Exists.intro waiter
    apply And.intro hWaiter
    rw [failFastCalls, if_pos hFailed]
    apply mem_filterMap.mpr ⟨record.id, hOn, _⟩
    rw [hLive, filter_some, if_pos (by simp [hOther])]
    rfl

theorem stagedReason_append (done : List (TaskRecord × Option AbortReason)) (record : TaskRecord) (reason : Option AbortReason) :
    stagedReason (done ++ [(record, reason)]) record =
      if stagedReason done record = some none ∨
          (record.abortRequested && (record.abortReason.isNone || reason.isSome)) = true then stagedReason done record
      else some reason := by
  have hMem : ∀ why, (record, why) ∈ done ++ [(record, reason)] ↔ (record, why) ∈ done ∨ why = reason := by simp
  simp only [stagedReason, TaskRecord.Requested, hMem]
  rcases Bool.eq_false_or_eq_true record.abortRequested with hRequested | hRequested
  · by_cases hReason : record.abortReason = none
    · simp [hRequested, hReason]
    · cases reason <;> by_cases hNone : (record, none) ∈ done <;> simp [hRequested, hReason, hNone]
  · cases reason <;> by_cases hNone : (record, none) ∈ done <;> simp [hRequested, hNone]

theorem stagedReason_eq_some {calls : List (TaskRecord × Option AbortReason)} : stagedReason calls record = some reason ↔
      reason = none ∧ ¬ record.Requested ∧ (record, none) ∈ calls ∨
      reason = some .restart ∧ record.abortRequested = false ∧ (record, none) ∉ calls ∧
        (record, some AbortReason.restart) ∈ calls := by
  have hRequested : record.Requested → record.abortRequested ≠ false := by
    rintro ⟨hTrue, _⟩ hFalse
    rw [hTrue] at hFalse
    cases hFalse
  unfold stagedReason
  split_ifs with hNone hSome
  · simp only [some.injEq]
    constructor
    · rintro rfl
      exact .inl ⟨rfl, hNone.2, hNone.1⟩
    · rintro (⟨rfl, _⟩ | ⟨_, _, hNot, _⟩)
      · rfl
      · exact (hNot hNone.1).elim
  · simp only [some.injEq]
    constructor
    · rintro rfl
      exact .inr ⟨rfl, hSome.2, fun hIn => hNone ⟨hIn, fun hRequest => hRequested hRequest hSome.2⟩, hSome.1⟩
    · rintro (⟨_, hNot, hCalled⟩ | ⟨rfl, _⟩)
      · exact (hNone ⟨hCalled, hNot⟩).elim
      · rfl
  · simp only [false_iff]
    rintro (⟨_, hNot, hCalled⟩ | ⟨_, hFree, _, hCalled⟩)
    · exact hNone ⟨hCalled, hNot⟩
    · exact hSome ⟨hCalled, hFree⟩

theorem lookup_mark (h : m.Loaded) {done : List (TaskRecord × Option AbortReason)} {marks : Marks}
    (hDone : ∀ id, marks.lookup id = (m.live.lookup id).bind fun record => (stagedReason done record).map (Mark.mk record))
    {call : TaskRecord × Option AbortReason} (hCall : m.live.lookup call.1.id = some call.1) (id : Nat) :
    (m.mark marks call).lookup id =
      (m.live.lookup id).bind fun record => (stagedReason (done ++ [call]) record).map (Mark.mk record) := by
  obtain ⟨record, reason⟩ := call
  simp only at hCall
  have hStaged : (marks.lookup record.id).map Mark.reason = stagedReason done record := by
    rw [hDone, hCall, bind_some, Option.map_map]
    exact congrFun map_id _
  by_cases hSame : id = record.id
  · subst hSame
    have hBefore := hDone record.id
    rw [hCall, bind_some] at hBefore ⊢
    unfold mark
    simp only [hCall, hStaged]
    rw [stagedReason_append]
    by_cases hRequest : stagedReason done record = some none
    · rw [if_pos hRequest, if_pos (.inl hRequest)]
      exact hBefore
    · rw [if_neg hRequest]
      split_ifs with hStrong hKept hKept
      · exact hBefore
      · exact (hKept (.inr hStrong)).elim
      · exact (hKept.elim hRequest hStrong).elim
      · exact lookup_set_self marks _ _
  · have hOther : (m.mark marks (record, reason)).lookup id = marks.lookup id := by
      unfold mark
      simp only [hCall]
      split_ifs
      · rfl
      · rfl
      · exact lookup_set_of_ne marks _ hSame
    rw [hOther, hDone]
    cases hLive : m.live.lookup id with
    | none => rfl
    | some other =>
      have hNe : other ≠ record := fun hEq => hSame (by rw [← hEq, h.named hLive])
      simp [stagedReason, hNe]

theorem lookup_marks (h : m.Loaded) (ended : Ended) (id : Nat) :
    ((m.calls ended).foldl m.mark []).lookup id =
      (m.live.lookup id).bind fun record => (stagedReason (m.calls ended) record).map (Mark.mk record) := by
  have hCalls : ∀ call ∈ m.calls ended, m.live.lookup call.1.id = some call.1 := by
    rintro ⟨record, reason⟩ hCall
    rcases mem_append.mp hCall with hCascade | hFailFast
    · exact (h.mem_cascadeCalls.mp hCascade).1
    · exact (h.mem_failFastCalls.mp hFailFast).1
  have hRun : ∀ calls done marks, (∀ call ∈ calls, m.live.lookup call.1.id = some call.1) →
      (∀ id, marks.lookup id = (m.live.lookup id).bind fun record => (stagedReason done record).map (Mark.mk record)) →
      ∀ id, (calls.foldl m.mark marks).lookup id =
        (m.live.lookup id).bind fun record => (stagedReason (done ++ calls) record).map (Mark.mk record) := by
    intro calls
    induction calls with
    | nil =>
      intro done marks _ hDone id
      rw [append_nil]
      exact hDone id
    | cons call rest ih =>
      intro done marks hLive hDone id
      have hNext := h.lookup_mark hDone (hLive call mem_cons_self)
      have hRest := ih (done ++ [call]) (m.mark marks call) (fun other hOther => hLive other (mem_cons_of_mem _ hOther)) hNext id
      rwa [append_assoc] at hRest
  apply hRun _ [] [] hCalls
  intro other
  cases m.live.lookup other <;> rfl

theorem lookup_planMarks (h : m.Loaded) {marks : Marks} {checked : List Nat}
    (hPlan : m.planMarks ended = .marks marks checked) {id : Nat} {staged : Mark} :
    marks.lookup id = some staged ↔ m.live.lookup id = some staged.record ∧
      (staged.reason = none ∧ ¬ staged.record.Requested ∧
          (m.FailFast ended staged.record ∨ m.cascadeReason staged.record = some none) ∨
        staged.reason = some .restart ∧ staged.record.abortRequested = false ∧ ¬ m.FailFast ended staged.record ∧
          m.cascadeReason staged.record = some (some .restart)) := by
  have hRead : m.missing ended = [] := by
    by_contra hMissing
    rw [planMarks_of_missing hMissing] at hPlan
    cases hPlan
  rw [planMarks_of_read hRead] at hPlan
  obtain ⟨rfl, rfl⟩ := MarkPlan.marks.inj hPlan
  rw [h.lookup_marks, bind_eq_some_iff]
  obtain ⟨record, reason⟩ := staged
  have hRequest : ∀ {record}, m.live.lookup record.id = some record →
      ((record, none) ∈ m.calls ended ↔ m.FailFast ended record ∨ m.cascadeReason record = some none) := by
    intro record hLive
    rw [calls, mem_append, h.mem_cascadeCalls, h.mem_failFastCalls]
    simp [hLive, or_comm]
  have hRestart : ∀ {record}, m.live.lookup record.id = some record →
      ((record, some AbortReason.restart) ∈ m.calls ended ↔ m.cascadeReason record = some (some .restart)) := by
    intro record hLive
    rw [calls, mem_append, h.mem_cascadeCalls, h.mem_failFastCalls]
    simp [hLive]
  have hStaged : m.live.lookup record.id = some record →
      (stagedReason (m.calls ended) record = some reason ↔
        reason = none ∧ ¬ record.Requested ∧ (m.FailFast ended record ∨ m.cascadeReason record = some none) ∨
        reason = some .restart ∧ record.abortRequested = false ∧ ¬ m.FailFast ended record ∧
          m.cascadeReason record = some (some .restart)) := by
    intro hLive
    have hRequestOther : m.cascadeReason record = some (some .restart) → m.cascadeReason record ≠ some none := by
      intro hSome hNone
      rw [hSome] at hNone
      cases hNone
    rw [stagedReason_eq_some, hRequest hLive, hRestart hLive]
    tauto
  constructor
  · rintro ⟨live, hLive, hMap⟩
    obtain ⟨why, hWhy, hMark⟩ := map_eq_some_iff.mp hMap
    obtain ⟨rfl, rfl⟩ := Mark.mk.inj hMark
    have hName := h.named hLive
    exact ⟨hLive, (hStaged (hName ▸ hLive)).mp hWhy⟩
  · rintro ⟨hLive, hReason⟩
    have hName := h.named hLive
    exact ⟨record, hLive, map_eq_some_iff.mpr ⟨reason, (hStaged (hName ▸ hLive)).mpr hReason, rfl⟩⟩

theorem with_intent (h : m.Loaded) {intent : List Nat} (hSame : ∀ id, id ∈ intent ↔ id ∈ m.intent) :
    Loaded { m with intent } where
  named := h.named
  listed := h.listed
  distinct := h.distinct
  acyclic := h.acyclic
  live := h.live
  intent := fun {id} => (hSame id).trans h.intent

theorem planMarks_same (h : m.Loaded) {intent : List Nat} (hSame : ∀ id, id ∈ intent ↔ id ∈ m.intent) (ended : Ended) :
    MarkPlan.Same (m.planMarks ended) (planMarks { m with intent } ended) := by
  have hEmpty : intent = [] ↔ m.intent = [] := by
    simp only [eq_nil_iff_forall_not_mem, hSame]
  have hSteps : ∀ steps, firstCancelling { m with intent } steps = m.firstCancelling steps := by
    intro steps
    induction steps with
    | nil => rfl
    | cons step rest ih => cases step <;> simp only [firstCancelling, ih]
  have hCancelling : ∀ node, cancellingOwner { m with intent } node = m.cancellingOwner node := by
    intro node
    unfold cancellingOwner
    simp only [hEmpty, hSteps]
    rfl
  have hReason : ∀ record, cascadeReason { m with intent } record = m.cascadeReason record := by
    intro record
    unfold cascadeReason
    rw [hCancelling]
  by_cases hNone : m.missing ended = []
  · have hFirst := planMarks_of_read hNone
    have hSecond : planMarks { m with intent } ended = _ := planMarks_of_read hNone
    rw [hFirst, hSecond]
    refine ⟨fun id => ext fun staged => ?_, rfl⟩
    rw [h.lookup_planMarks hFirst, (h.with_intent hSame).lookup_planMarks hSecond, hReason]
    rfl
  · have hFirst := planMarks_of_missing hNone
    have hSecond : planMarks { m with intent } ended = _ := planMarks_of_missing hNone
    rw [hFirst, hSecond]
    rfl

end Loaded

/-! The rounds of a pass. -/

theorem exists_marks (m : Memory) (storage : Nat → Option TaskRecord) :
    ∃ ended checked, m.planMarks ended = .marks (m.marks storage) checked := by
  have hRead : m.missing ((m.missing []).foldl (fun ended id => set ended id (storage id)) []) = [] := by
    rw [eq_nil_iff_forall_not_mem]
    intro id hMissing
    obtain ⟨waiter, hWaiter, hIn⟩ := mem_flatMap.mp hMissing
    obtain ⟨hOn, hNone⟩ := mem_filter.mp hIn
    rw [member, lookup_foldl_read, isNone_iff_eq_none, or_eq_none_iff] at hNone
    have hFirst : id ∈ m.missing [] := by
      refine mem_flatMap.mpr ⟨waiter, hWaiter, mem_filter.mpr ⟨hOn, ?_⟩⟩
      rw [member, hNone.1]
      rfl
    rw [if_pos hFirst] at hNone
    cases hNone.2
  by_cases hNone : m.missing [] = []
  · have hPlan := planMarks_of_read hNone
    refine ⟨[], m.failFastChecks, ?_⟩
    rw [marks, marksLoop, hPlan]
    rfl
  · have hPlan := planMarks_of_missing hNone
    have hNext := planMarks_of_read hRead
    refine ⟨_, m.failFastChecks, hNext.trans ?_⟩
    rw [marks, marksLoop, hPlan]
    dsimp only
    rw [marksLoop, hNext]
    rfl

end Memory
end OctoberHarness.Scheduler
