import Mathlib.Tactic
import OctoberHarness.Library.Trace
import OctoberHarness.Watches.Watch

/-! What a watch delivers in every interleaving: one call at a time, each the
newest frame, with ops that lead from the value called last to its own. -/
namespace OctoberHarness.Watches

open Option

open Delta (Op PendingOps PendingTake Replays)

variable {E C : Type}

/-- A call may be made after a history: no call runs, the watch has not ended,
and the call is the newest frame, which no call covers yet. -/
def MayCall (h : History E C) (context : C) : WatchCall E → Prop
  | .value value ops retired =>
    h.calling = false ∧ h.detached = 0 ∧ h.due = true ∧ h.context = some context ∧
      h.failed = none ∧ value = h.newest ∧ Delta.apply h.shown ops = .ok value ∧ retired = h.retired ∧
      (h.replacing = true → ops = [.r value])
  | .failed error =>
    h.calling = false ∧ h.detached = 0 ∧ h.due = true ∧ h.context = some context ∧ h.failed = some error

/-- Everything a watch was handed is delivered: the listener was called with the
newest value, or with the failure that is newest. -/
def CaughtUp (h : History E C) : Prop :=
  h.due = false ∧
    ((h.failed = none ∧ h.shown = h.newest) ∨ ∃ error, h.failed = some error ∧ h.last = some (.failed error))

/-- What may come after what. -/
def Admits (initial : JsonValue) (before : List (Event E C)) : Event E C → Prop
  | .frame .. => (historyOf initial before).ending = false ∧ (historyOf initial before).detached = 0
  | .called call context => MayCall (historyOf initial before) context call
  | .returned => (historyOf initial before).calling = true
  | .ending => (historyOf initial before).ending = false ∧ (historyOf initial before).detached = 0
  | .spent =>
    (historyOf initial before).ending = true ∧ CaughtUp (historyOf initial before) ∧
      (historyOf initial before).calling = false ∧ (historyOf initial before).detached = 0
  | .detached => (historyOf initial before).detached = 0
  | .closed _ => (historyOf initial before).detached = 1 ∧ (historyOf initial before).closed = []

/-- A watch delivers a consistent history.

* `lawful`: nothing in its history came before it could: calls come one at a
  time and never after its end, each is the newest frame, and its ops lead from
  the value delivered before to its own; and after `endAfterDelivery` it ends of
  itself only when everything is delivered.
* `value`: its value is the one last delivered.
* `caughtUp`: started and at rest, it delivered the newest frame, and its source
  has not ended.
* `once`: it detaches and settles once, when it ends. -/
structure Consistent (initial : JsonValue) (w : Watch E C) : Prop where
  lawful : Trace.Lawful (Admits initial) w.log
  value : w.value = (historyOf initial w.log).shown
  caughtUp : w.finish = none → w.started = true → w.scheduled = false → w.drain = .idle →
    CaughtUp (historyOf initial w.log) ∧ w.ending = false
  once : (historyOf initial w.log).closed = w.finish.toList ∧
    (historyOf initial w.log).detached = w.finish.toList.length

/-- What the queue of a watch that has not ended holds, by its history. -/
structure Queue (h : History E C) (w : Watch E C) : Prop where
  context : w.newestContext = if h.due then h.context else none
  known : h.due = true → h.context ≠ none
  retired : w.retired = h.retired
  replace : w.replace = h.replacing
  value : h.due = true → h.failed = none → w.newestValue = some h.newest
  failure : w.failure = if h.due then h.failed else none
  plain : h.replacing = false → h.failed = none ∧ w.ops.Holds h.shown h.newest
  rested : h.replacing = false → h.due = false → w.ops = .empty ∧ h.retired = false
  lone : ∀ call, w.lone = some call →
    ∃ ops, call = .value h.newest ops h.retired ∧ Replays h.shown ops h.newest
  alone : h.replacing = true ∨ h.due = false → w.lone = none ∧ w.ops = .empty
  latest : h.due = false →
    (h.failed = none ∧ h.shown = h.newest) ∨ ∃ error, h.failed = some error ∧ h.last = some (.failed error)

/-- How a watch stands to its history. -/
structure Core (initial : JsonValue) (w : Watch E C) : Prop where
  lawful : Trace.Lawful (Admits initial) w.log
  value : w.value = (historyOf initial w.log).shown
  calling : (historyOf initial w.log).calling = true ↔ w.drain = .calling
  ending : (historyOf initial w.log).ending = w.ending
  detached : (historyOf initial w.log).detached = w.finish.toList.length
  closed : (historyOf initial w.log).closed = w.finish.toList
  live : w.finish = none → Queue (historyOf initial w.log) w

/-- A watch that has something to do is about to do it. -/
structure Awake (w : Watch E C) : Prop where
  awaited : w.finish = none → w.started = true → w.newestContext ≠ none → w.scheduled = true ∨ w.drain ≠ .idle
  ends : w.finish = none → w.ending = true → w.newestContext = none → w.drain ≠ .idle

theorem core_acquire (initial : JsonValue) : Core initial (acquire initial : Watch E C) where
  lawful := Trace.lawful_nil _
  value := rfl
  calling := by simp [acquire, History.start]
  ending := rfl
  detached := rfl
  closed := rfl
  live := fun _ =>
    { context := rfl
      known := fun h => nomatch h
      retired := rfl
      replace := rfl
      value := fun h => nomatch h
      failure := rfl
      plain := fun _ => ⟨rfl, rfl⟩
      rested := fun _ _ => ⟨rfl, rfl⟩
      lone := fun _ h => nomatch h
      alone := fun _ => ⟨rfl, rfl⟩
      latest := fun _ => .inl ⟨rfl, rfl⟩ }

variable {initial : JsonValue} {w : Watch E C}

theorem Core.schedule (h : Core initial w) : Core initial w.schedule := by
  rw [Watch.schedule]
  split_ifs
  · exact h
  · exact { h with live := fun hFinish => { h.live hFinish with } }

theorem Core.pending (h : Core initial w) : Core initial w.pending := by
  rw [Watch.pending]
  split_ifs
  · exact h.schedule
  · exact h

theorem Core.takes (h : Core initial w) (hTakes : w.takes = true) :
    w.finish = none ∧ w.ending = false ∧ (historyOf initial w.log).ending = false ∧
      (historyOf initial w.log).detached = 0 := by
  rw [Watch.takes, Bool.and_eq_true, isNone_iff_eq_none, Bool.not_eq_true'] at hTakes
  obtain ⟨hFinish, hEnding⟩ := hTakes
  refine ⟨hFinish, hEnding, h.ending.trans hEnding, ?_⟩
  rw [h.detached, hFinish]
  rfl

theorem Core.terminate (h : Core initial w) (finish : WatchEnd E) : Core initial (w.terminate finish) := by
  rw [Watch.terminate]
  split_ifs with hFinish
  · exact h
  · have hNone : w.finish = none := by simpa using hFinish
    have hDetached : (historyOf initial w.log).detached = 0 := by simpa [hNone] using h.detached
    have hClosed : (historyOf initial w.log).closed = [] := by simpa [hNone] using h.closed
    exact
      { lawful := (h.lawful.snoc (show Admits initial w.log .detached from hDetached)).snoc
          ⟨by simp [History.after, hDetached], by simpa [History.after] using hClosed⟩
        value := by simpa [Watch.record, Watch.release, History.after] using h.value
        calling := by simpa [Watch.record, Watch.release, History.after] using h.calling
        ending := by simpa [Watch.record, Watch.release, History.after] using h.ending
        detached := by simp [Watch.record, Watch.release, History.after, hDetached]
        closed := by simp [Watch.record, Watch.release, History.after, hClosed]
        live := fun hOther => nomatch hOther }

theorem terminate_finish (w : Watch E C) (finish : WatchEnd E) : (w.terminate finish).finish ≠ none := by
  rw [Watch.terminate]
  split_ifs with hFinish
  · exact Option.isSome_iff_ne_none.mp hFinish
  · exact fun h => nomatch h

theorem awake_of_finish (h : w.finish ≠ none) : Awake w :=
  ⟨fun hNone => absurd hNone h, fun hNone => absurd hNone h⟩

theorem Core.fail (h : Core initial w) (hTakes : w.takes = true) (error : E) (context : C) :
    Core initial (({ w with
      ops := .empty, lone := none, newestValue := none, failure := some error
      newestContext := some context, replace := true } : Watch E C).record (.frame (.failed error) context)) := by
  obtain ⟨hFinish, -, hEnding, hDetached⟩ := h.takes hTakes
  have hQueue := h.live hFinish
  exact
    { lawful := h.lawful.snoc ⟨hEnding, hDetached⟩
      value := by simpa [Watch.record, History.after] using h.value
      calling := by simpa [Watch.record, History.after] using h.calling
      ending := by simpa [Watch.record, History.after] using h.ending
      detached := by simpa [Watch.record, History.after] using h.detached
      closed := by simpa [Watch.record, History.after] using h.closed
      live := fun _ =>
        { context := by simp [Watch.record, History.after]
          known := by simp [Watch.record, History.after]
          retired := by simpa [Watch.record, History.after] using hQueue.retired
          replace := by simp [Watch.record, History.after]
          value := by simp [Watch.record, History.after]
          failure := by simp [Watch.record, History.after]
          plain := by simp [Watch.record, History.after]
          rested := by simp [Watch.record, History.after]
          lone := by simp [Watch.record]
          alone := fun _ => ⟨rfl, rfl⟩
          latest := by simp [Watch.record, History.after] } }

variable {h : History E C}

theorem Queue.due (hQueue : Queue h w) : h.due = w.newestContext.isSome := by
  rw [hQueue.context]
  cases hDue : h.due with
  | false => rfl
  | true => simpa using Option.isSome_iff_ne_none.mpr (hQueue.known hDue)

/-- A value joins the queue; its ops go on from the newest value, unless a failure
is newest. -/
theorem Queue.advance (hQueue : Queue h w) {value : JsonValue} {ops : List Op}
    {retired : Bool} (context : C) (hFollows : h.failed ≠ none ∨ Replays h.newest ops value) :
    Queue (h.after (.frame (.value value ops retired) context))
      (((w.queue (.value value ops retired) ops).arrive value retired context).record
        (.frame (.value value ops retired) context)) := by
  rw [Watch.queue, hQueue.replace]
  cases hReplacing : h.replacing with
  | true =>
    obtain ⟨hLone, hOps⟩ := hQueue.alone (.inl hReplacing)
    exact
      { context := by simp [Watch.record, Watch.arrive, History.after]
        known := by simp [History.after]
        retired := by simp [Watch.record, Watch.arrive, History.after, hQueue.retired]
        replace := by simp [Watch.record, Watch.arrive, History.after, hReplacing]
        value := by simp [Watch.record, Watch.arrive, History.after]
        failure := by simp [Watch.record, Watch.arrive, History.after]
        plain := by simp [History.after, hReplacing]
        rested := by simp [History.after]
        lone := by simp [Watch.record, Watch.arrive, hLone]
        alone := by simp [Watch.record, Watch.arrive, hLone, hOps]
        latest := by simp [History.after] }
  | false =>
    obtain ⟨hFailed, hHolds⟩ := hQueue.plain hReplacing
    have hReplays : Replays h.newest ops value := hFollows.resolve_left fun hNone => hNone hFailed
    have hFailure : w.failure = none := by rw [hQueue.failure, hFailed, ite_self]
    refine
      { context := by simp [Watch.record, Watch.arrive, History.after]
        known := by simp [History.after]
        retired := by simp [Watch.record, Watch.arrive, History.after, hQueue.retired]
        replace := by simp [Watch.record, Watch.arrive, History.after, hReplacing]
        value := by simp [Watch.record, Watch.arrive, History.after]
        failure := by simp [Watch.record, Watch.arrive, History.after, hFailure]
        plain := fun _ => ⟨rfl, hHolds.push hReplays⟩
        rested := by simp [History.after]
        lone := ?_
        alone := by simp [History.after, hReplacing]
        latest := by simp [History.after] }
    intro call hCall
    cases hContext : w.newestContext with
    | some other => simp [Watch.record, Watch.arrive, hContext] at hCall
    | none =>
      -- a frame delivered alone is passed on as it came
      have hDue : h.due = false := by rw [hQueue.due, hContext]; rfl
      obtain ⟨hEmpty, hRetired⟩ := hQueue.rested hReplacing hDue
      rw [hEmpty] at hHolds
      have hShown : h.shown = h.newest := hHolds
      refine ⟨ops, ?_, ?_⟩
      · simpa [Watch.record, Watch.arrive, hContext, History.after, hRetired] using hCall.symm
      · rw [← hShown] at hReplays
        exact hReplays

/-- A frame that is a value. -/
theorem Core.advance (h : Core initial w) (hTakes : w.takes = true) {value : JsonValue} {ops : List Op} {retired : Bool}
    (context : C) (hFollows : (historyOf initial w.log).failed ≠ none ∨ Replays (historyOf initial w.log).newest ops value) :
    Core initial (((w.queue (.value value ops retired) ops).arrive value retired context).record
      (.frame (.value value ops retired) context)) := by
  obtain ⟨hFinish, -, hEnding, hDetached⟩ := h.takes hTakes
  have hQueue := h.live hFinish
  have hLog : (w.queue (.value value ops retired) ops).log = w.log := by rw [Watch.queue]; split_ifs <;> rfl
  have hHistory : historyOf initial (((w.queue (.value value ops retired) ops).arrive value retired context).record
      (.frame (.value value ops retired) context)).log =
        (historyOf initial w.log).after (.frame (.value value ops retired) context) := by
    rw [Watch.record, Watch.arrive, hLog, historyOf_append]
    rfl
  exact
    { lawful := by
        rw [Watch.record, Watch.arrive, hLog]
        exact h.lawful.snoc ⟨hEnding, hDetached⟩
      value := by
        rw [hHistory, Watch.queue]
        split_ifs <;> exact h.value
      calling := by
        rw [hHistory, Watch.queue]
        split_ifs <;> exact h.calling
      ending := by
        rw [hHistory, Watch.queue]
        split_ifs <;> exact h.ending
      detached := by
        rw [hHistory, Watch.queue]
        split_ifs <;> exact h.detached
      closed := by
        rw [hHistory, Watch.queue]
        split_ifs <;> exact h.closed
      live := by
        intro _
        rw [hHistory]
        exact hQueue.advance context hFollows }

theorem Core.returned (h : Core initial w) (hDrain : w.drain = .calling) {drain : Drain E} (hNext : drain ≠ .calling) :
    Core initial (({ w with drain } : Watch E C).record .returned) where
  lawful := h.lawful.snoc (show Admits initial w.log .returned from h.calling.mpr hDrain)
  value := by simpa [Watch.record, History.after] using h.value
  calling := by simpa [Watch.record, History.after] using hNext
  ending := by simpa [Watch.record, History.after] using h.ending
  detached := by simpa [Watch.record, History.after] using h.detached
  closed := by simpa [Watch.record, History.after] using h.closed
  live hFinish := by
    rw [Watch.record, historyOf_append]
    exact { h.live hFinish with }

/-- The call of the listener is the newest frame, and leaves nothing due. -/
theorem Queue.call (hQueue : Queue h w) {context : C}
    (hContext : w.newestContext = some context) (hCalling : h.calling = false) (hDetached : h.detached = 0) :
    MayCall h context w.next.1 ∧ Queue (h.after (.called w.next.1 context)) (w.call context) := by
  have hDue : h.due = true := by rw [hQueue.due, hContext]; rfl
  have hNewest : h.context = some context := by
    rw [← hContext, hQueue.context, if_pos hDue]
  have hFailure : w.failure = h.failed := by rw [hQueue.failure, if_pos hDue]
  cases hReplacing : h.replacing with
  | true =>
    obtain ⟨hLone, hOps⟩ := hQueue.alone (.inl hReplacing)
    cases hFailed : h.failed with
    | some error =>
      have hNext : w.next = (.failed error, { w with newestContext := none, failure := none }) := by
        rw [Watch.next, if_pos (hQueue.replace.trans hReplacing), Watch.nextAfterFailure, hFailure.trans hFailed]
      rw [Watch.call, hNext]
      exact ⟨⟨hCalling, hDetached, hDue, hNewest, hFailed⟩,
        { context := rfl
          known := fun hOther => nomatch hOther
          retired := hQueue.retired
          replace := hQueue.replace
          value := fun hOther => nomatch hOther
          failure := rfl
          plain := fun hOther => nomatch hReplacing.symm.trans hOther
          rested := fun hOther => nomatch hReplacing.symm.trans hOther
          lone := fun call hCall => nomatch hLone.symm.trans hCall
          alone := fun _ => ⟨hLone, hOps⟩
          latest := fun _ => .inr ⟨error, hFailed, rfl⟩ }⟩
    | none =>
      have hNext : w.next = (.value h.newest [.r h.newest] h.retired,
          { w with newestContext := none, newestValue := none, retired := false, replace := false }) := by
        rw [Watch.next, if_pos (hQueue.replace.trans hReplacing), Watch.nextAfterFailure, hFailure.trans hFailed,
          hQueue.value hDue hFailed, hQueue.retired]
        rfl
      rw [Watch.call, hNext]
      exact ⟨⟨hCalling, hDetached, hDue, hNewest, hFailed, rfl, rfl, rfl, fun _ => rfl⟩,
        { context := rfl
          known := fun hOther => nomatch hOther
          retired := rfl
          replace := rfl
          value := fun hOther => nomatch hOther
          failure := hFailure.trans hFailed
          plain := fun _ => ⟨hFailed, by
            show w.ops.Holds h.newest h.newest
            rw [hOps]
            rfl⟩
          rested := fun _ _ => ⟨hOps, rfl⟩
          lone := fun call hCall => nomatch hLone.symm.trans hCall
          alone := fun _ => ⟨hLone, hOps⟩
          latest := fun _ => .inl ⟨hFailed, rfl⟩ }⟩
  | false =>
    obtain ⟨hFailed, hHolds⟩ := hQueue.plain hReplacing
    have hOps : ∃ ops, w.next.1 = .value h.newest ops h.retired ∧ Replays h.shown ops h.newest := by
      rw [Watch.next, if_neg (by rw [hQueue.replace, hReplacing]; exact Bool.false_ne_true)]
      cases hLone : w.lone with
      | some call =>
        obtain ⟨ops, rfl, hReplays⟩ := hQueue.lone call hLone
        exact ⟨ops, rfl, hReplays⟩
      | none =>
        rw [hQueue.value hDue hFailed, hQueue.retired]
        refine ⟨_, rfl, ?_⟩
        cases hTake : w.ops.take with
        | ops ops => exact hHolds.take hTake
        | replace => exact .cons trivial rfl (.nil _)
    obtain ⟨ops, hCall, hReplays⟩ := hOps
    have hAfter : w.next.2 = { w with
        ops := .empty, lone := none, newestValue := none, newestContext := none, retired := false } := by
      rw [Watch.next, if_neg (by rw [hQueue.replace, hReplacing]; exact Bool.false_ne_true)]
    rw [Watch.call, hCall, hAfter]
    exact ⟨⟨hCalling, hDetached, hDue, hNewest, hFailed, rfl, hReplays.apply, rfl,
        fun hOther => nomatch hReplacing.symm.trans hOther⟩,
      { context := rfl
        known := fun hOther => nomatch hOther
        retired := rfl
        replace := hQueue.replace.trans hReplacing
        value := fun hOther => nomatch hOther
        failure := hFailure.trans hFailed
        plain := fun _ => ⟨hFailed, rfl⟩
        rested := fun _ _ => ⟨rfl, rfl⟩
        lone := fun call hOther => nomatch hOther
        alone := fun _ => ⟨rfl, rfl⟩
        latest := fun _ => .inl ⟨hFailed, rfl⟩ }⟩

theorem Core.call (h : Core initial w) (hFinish : w.finish = none) (hDrain : w.drain ≠ .calling) {context : C}
    (hContext : w.newestContext = some context) : Core initial (w.call context) := by
  have hCalling : (historyOf initial w.log).calling = false := by
    rw [← Bool.not_eq_true, h.calling]
    exact hDrain
  have hDetached : (historyOf initial w.log).detached = 0 := by rw [h.detached, hFinish]; rfl
  obtain ⟨hMay, hQueue⟩ := (h.live hFinish).call hContext hCalling hDetached
  have hNext : w.next.2.ending = w.ending ∧ w.next.2.finish = w.finish ∧ w.next.2.log = w.log := by
    rw [Watch.next, Watch.nextAfterFailure]
    split_ifs
    · cases w.failure <;> exact ⟨rfl, rfl, rfl⟩
    · exact ⟨rfl, rfl, rfl⟩
  obtain ⟨hEnding, hEnd, hLog⟩ := hNext
  have hAll : (w.call context).log = w.log ++ [.called w.next.1 context] := by
    rw [Watch.call, Watch.record, hLog]
  have hHistory : historyOf initial (w.call context).log =
      (historyOf initial w.log).after (.called w.next.1 context) := by
    rw [hAll, historyOf_append]
    rfl
  have hSame : ((historyOf initial w.log).after (.called w.next.1 context)).shown = Watch.valueAfter w.value w.next.1 ∧
      ((historyOf initial w.log).after (.called w.next.1 context)).calling = true ∧
      ((historyOf initial w.log).after (.called w.next.1 context)).ending = (historyOf initial w.log).ending ∧
      ((historyOf initial w.log).after (.called w.next.1 context)).detached = (historyOf initial w.log).detached ∧
      ((historyOf initial w.log).after (.called w.next.1 context)).closed = (historyOf initial w.log).closed := by
    cases w.next.1 with
    | value value ops retired => exact ⟨rfl, rfl, rfl, rfl, rfl⟩
    | failed error => exact ⟨h.value.symm, rfl, rfl, rfl, rfl⟩
  obtain ⟨hShown, hCalls, hSource, hDetaches, hCloses⟩ := hSame
  exact
    { lawful := by
        rw [hAll]
        exact h.lawful.snoc hMay
      value := by rw [hHistory, hShown]; rfl
      calling := by rw [hHistory, hCalls]; exact ⟨fun _ => rfl, fun _ => rfl⟩
      ending := by rw [hHistory, hSource, h.ending]; exact hEnding.symm
      detached := by rw [hHistory, hDetaches, h.detached, ← hEnd]; rfl
      closed := by rw [hHistory, hCloses, h.closed, ← hEnd]; rfl
      live := fun _ => by rw [hHistory]; exact hQueue }

theorem Core.rest (h : Core initial w) (hDrain : w.drain ≠ .calling) {drain : Drain E} (hNext : drain ≠ .calling) :
    Core initial { w with drain } :=
  { h with
    calling := ⟨fun hCalling => absurd (h.calling.mp hCalling) hDrain, fun hOther => absurd hOther hNext⟩
    live := fun hFinish => { h.live hFinish with } }

theorem Core.caughtUp (h : Core initial w) (hFinish : w.finish = none) (hContext : w.newestContext = none) :
    CaughtUp (historyOf initial w.log) := by
  have hDue : (historyOf initial w.log).due = false := by
    rw [(h.live hFinish).due, hContext]
    rfl
  exact ⟨hDue, (h.live hFinish).latest hDue⟩

theorem Core.exhaust (h : Core initial w) (hFinish : w.finish = none) (hEnding : w.ending = true)
    (hContext : w.newestContext = none) (hDrain : w.drain ≠ .calling) : Core initial w.exhaust := by
  have hCalling : (historyOf initial w.log).calling = false := by
    rw [← Bool.not_eq_true, h.calling]
    exact hDrain
  have hDetached : (historyOf initial w.log).detached = 0 := by rw [h.detached, hFinish]; rfl
  have hSpent : Core initial (w.record .spent) :=
    { lawful := h.lawful.snoc ⟨h.ending.trans hEnding, h.caughtUp hFinish hContext, hCalling, hDetached⟩
      value := by simpa [Watch.record, History.after] using h.value
      calling := by simpa [Watch.record, History.after] using h.calling
      ending := by simpa [Watch.record, History.after] using h.ending
      detached := by simpa [Watch.record, History.after] using h.detached
      closed := by simpa [Watch.record, History.after] using h.closed
      live := fun _ => by
        rw [Watch.record, historyOf_append]
        exact { h.live hFinish with } }
  exact hSpent.terminate .ended

theorem Core.deliver (h : Core initial w) (hDrain : w.drain ≠ .calling) :
    Core initial w.deliver ∧ Awake w.deliver := by
  rw [Watch.deliver]
  by_cases hFinish : w.finish.isSome = true
  · rw [if_pos hFinish]
    refine ⟨h.rest hDrain (by simp), awake_of_finish ?_⟩
    exact Option.isSome_iff_ne_none.mp hFinish
  rw [if_neg hFinish]
  rw [not_isSome_iff_eq_none] at hFinish
  cases hContext : w.newestContext with
  | some context =>
    refine ⟨h.call hFinish hDrain hContext, ⟨?_, ?_⟩⟩
    · intro _ _ _
      exact .inr (by simp [Watch.call, Watch.record])
    · intro _ _ _
      simp [Watch.call, Watch.record]
  | none =>
    cases hEnding : w.ending with
    | true =>
      have hExhaust := h.exhaust hFinish hEnding hContext hDrain
      have hKept : w.exhaust.drain = w.drain := by
        rw [Watch.exhaust, Watch.terminate]
        split_ifs <;> rfl
      refine ⟨hExhaust.rest (by rw [hKept]; exact hDrain) (by simp), awake_of_finish ?_⟩
      exact terminate_finish _ _
    | false =>
      refine ⟨h.rest hDrain (by simp), ⟨?_, ?_⟩⟩
      · intro _ _ hOther
        exact absurd hContext hOther
      · intro _ hOther
        exact nomatch hEnding.symm.trans hOther

theorem deliver_drain (w : Watch E C) (drain : Drain E) : ({ w with drain } : Watch E C).deliver = w.deliver := by
  obtain ⟨value, started, scheduled, _, ending, finish, ops, lone, newestValue, newestContext, retired, failure,
    replace, log⟩ := w
  cases finish with
  | some finish => rfl
  | none =>
    cases newestContext with
    | none => cases ending <;> rfl
    | some context => cases replace <;> cases failure <;> rfl

theorem running_eq_true (w : Watch E C) : w.running = true ↔ w.drain ≠ .idle := by
  rw [Watch.running]
  cases w.drain <;> simp

theorem awake_schedule (hEnds : w.finish = none → w.ending = true → w.newestContext = none → w.drain ≠ .idle) :
    Awake w.schedule := by
  rw [Watch.schedule]
  split_ifs with hBusy
  · refine ⟨fun hFinish _ _ => ?_, hEnds⟩
    rw [Bool.or_eq_true, Bool.or_eq_true, running_eq_true, hFinish] at hBusy
    rcases hBusy with hBusy | hOther
    · exact hBusy
    · exact nomatch hOther
  · exact ⟨fun _ _ _ => .inl rfl, hEnds⟩

theorem awake_pending (hEnds : w.finish = none → w.ending = true → w.newestContext = none → w.drain ≠ .idle) :
    Awake w.pending := by
  rw [Watch.pending]
  split_ifs with hStarted
  · exact awake_schedule hEnds
  · exact ⟨fun _ hOther => absurd hOther hStarted, hEnds⟩

theorem awake_frame (hContext : w.newestContext ≠ none) : Awake w.pending :=
  awake_pending fun _ _ hNone => absurd hNone hContext

/-- What holds of a watch in every interleaving. -/
structure Inv (initial : JsonValue) (w : Watch E C) : Prop where
  core : Core initial w
  awake : Awake w

theorem Inv.terminate (h : Inv initial w) (finish : WatchEnd E) : Inv initial (w.terminate finish) :=
  ⟨h.core.terminate finish, awake_of_finish (terminate_finish w finish)⟩

theorem Inv.start (h : Inv initial w) : Inv initial w.start := by
  rw [Watch.start]
  split_ifs
  · exact h
  · have hStarted : Core initial { w with started := true } :=
      { h.core with live := fun hFinish => { h.core.live hFinish with } }
    exact ⟨hStarted.schedule, awake_schedule h.awake.ends⟩

theorem Inv.fail (h : Inv initial w) (error : E) (context : C) : Inv initial (w.fail error context) := by
  rw [Watch.fail]
  split_ifs with hTakes
  · exact ⟨(h.core.fail hTakes error context).pending, awake_frame fun hNone => nomatch hNone⟩
  · exact h

theorem Inv.advance (h : Inv initial w) (call : WatchCall E) (context : C)
    (hAllowed : Allowed Replays initial w (.advance call context)) : Inv initial (w.advance call context) := by
  cases call with
  | failed error => exact h.fail error context
  | value value ops retired =>
    rw [Watch.advance]
    split_ifs with hTakes
    · exact ⟨(h.core.advance hTakes context (hAllowed hTakes)).pending, awake_frame fun hNone => nomatch hNone⟩
    · exact h

theorem Inv.endAfterDelivery (h : Inv initial w) : Inv initial w.endAfterDelivery := by
  rw [Watch.endAfterDelivery]
  split_ifs with hOver hRest
  · exact h
  all_goals
    rw [Bool.or_eq_true, not_or, not_isSome_iff_eq_none, Bool.not_eq_true] at hOver
    obtain ⟨hFinish, hEnding⟩ := hOver
    have hDetached : (historyOf initial w.log).detached = 0 := by rw [h.core.detached, hFinish]; rfl
    have hCore : Core initial (({ w with ending := true } : Watch E C).record .ending) :=
      { lawful := h.core.lawful.snoc ⟨h.core.ending.trans hEnding, hDetached⟩
        value := by simpa [Watch.record, History.after] using h.core.value
        calling := by simpa [Watch.record, History.after] using h.core.calling
        ending := by simp [Watch.record, History.after]
        detached := by simpa [Watch.record, History.after] using h.core.detached
        closed := by simpa [Watch.record, History.after] using h.core.closed
        live := fun _ => by
          rw [Watch.record, historyOf_append]
          exact { h.core.live hFinish with } }
  · rw [Bool.and_eq_true, Bool.not_eq_true', isNone_iff_eq_none] at hRest
    obtain ⟨hRunning, hContext⟩ := hRest
    have hDrain : w.drain ≠ .calling := by
      intro hCalling
      rw [Watch.running, hCalling] at hRunning
      exact nomatch hRunning
    exact ⟨hCore.exhaust hFinish rfl hContext hDrain, awake_of_finish (terminate_finish _ _)⟩
  · refine ⟨hCore, h.awake.awaited, ?_⟩
    intro _ _ hContext hDrain
    have hIdle : w.drain = .idle := hDrain
    apply hRest
    rw [Bool.and_eq_true, Bool.not_eq_true', isNone_iff_eq_none, Watch.running, hIdle]
    exact ⟨rfl, hContext⟩

theorem Inv.microtask (h : Inv initial w) : Inv initial w.microtask := by
  have hCore : Core initial { w with scheduled := false } :=
    { h.core with live := fun hFinish => { h.core.live hFinish with } }
  rw [Watch.microtask]
  split_ifs with hBusy
  · refine ⟨hCore, ?_, h.awake.ends⟩
    intro hFinish hStarted _
    rw [Bool.or_eq_true, Bool.or_eq_true, running_eq_true, Bool.not_eq_true'] at hBusy
    rcases hBusy with (hDrain | hOther) | hOther
    · exact .inr hDrain
    · exact absurd hOther (by rw [show w.finish = none from hFinish]; exact Bool.false_ne_true)
    · exact nomatch hOther.symm.trans hStarted
  · rw [Bool.or_eq_true, Bool.or_eq_true, running_eq_true, not_or, not_or, not_not] at hBusy
    obtain ⟨hCore, hAwake⟩ := hCore.deliver (by
      rw [show ({ w with scheduled := false } : Watch E C).drain = .idle from hBusy.1.1]
      simp)
    exact ⟨hCore, hAwake⟩

theorem Inv.throws (h : Inv initial w) (hDrain : w.drain = .calling) (error : E) :
    Inv initial (w.throws error) := by
  rw [Watch.throws]
  split_ifs with hFinish
  · exact ⟨h.core.returned hDrain (by simp), awake_of_finish (Option.isSome_iff_ne_none.mp hFinish)⟩
  · exact ⟨h.core.returned hDrain (by simp),
      fun _ _ _ => .inr (by simp [Watch.record]), fun _ _ _ => by simp [Watch.record]⟩

theorem Inv.step (h : Inv initial w) {action : Action E C} {after : Watch E C}
    (hAllowed : Allowed Replays initial w action) (hStep : step w action = some after) : Inv initial after := by
  cases action with
  | advance call context =>
    obtain rfl := some.inj hStep
    exact h.advance call context hAllowed
  | fail error context =>
    obtain rfl := some.inj hStep
    exact h.fail error context
  | start =>
    obtain rfl := some.inj hStep
    exact h.start
  | stop =>
    obtain rfl := some.inj hStep
    exact h.terminate .stopped
  | abort =>
    obtain rfl := some.inj hStep
    exact h.terminate .aborted
  | finish finish =>
    obtain rfl := some.inj hStep
    exact h.terminate finish
  | endAfterDelivery =>
    obtain rfl := some.inj hStep
    exact h.endAfterDelivery
  | microtask =>
    rw [Watches.step] at hStep
    split_ifs at hStep with hScheduled
    obtain rfl := some.inj hStep
    exact h.microtask
  | returns =>
    rw [Watches.step] at hStep
    split at hStep
    next hDrain =>
      obtain rfl := some.inj hStep
      have hRest : (w.record .returned).deliver = (({ w with drain := .idle } : Watch E C).record .returned).deliver :=
        (deliver_drain (w.record .returned) .idle).symm
      have hIdle : Core initial (({ w with drain := .idle } : Watch E C).record .returned) :=
        h.core.returned hDrain (by simp)
      rw [hRest]
      obtain ⟨hCore, hAwake⟩ := hIdle.deliver (by simp [Watch.record])
      exact ⟨hCore, hAwake⟩
    next => exact nomatch hStep
  | throws error =>
    rw [Watches.step] at hStep
    split at hStep
    next hDrain =>
      obtain rfl := some.inj hStep
      exact h.throws hDrain error
    next => exact nomatch hStep
  | reported =>
    rw [Watches.step] at hStep
    split at hStep
    next error hDrain =>
      obtain rfl := some.inj hStep
      have hKept : (w.terminate (.listenerError error)).drain = w.drain := by
        rw [Watch.terminate]
        split_ifs <;> rfl
      exact ⟨(h.core.terminate _).rest (by rw [hKept, hDrain]; simp) (by simp),
        awake_of_finish (terminate_finish _ _)⟩
    next => exact nomatch hStep

theorem Reachable.inv (h : Reachable Replays initial w) : Inv initial w := by
  induction h with
  | acquired =>
    refine ⟨core_acquire initial, ?_, ?_⟩
    · intro _ hStarted
      exact nomatch hStarted
    · intro _ hEnding
      exact nomatch hEnding
  | step earlier allowed hStep ih => exact ih.step allowed hStep

/-- Whatever its source, its owner, its listener and aborts do, a watch delivers a
consistent history, as long as the ops of its frames name properties by strings
and elements by numbers. -/
theorem watch_consistent (initial : JsonValue) (w : Watch E C) (h : Reachable Replays initial w) :
    Consistent initial w := by
  obtain ⟨hCore, hAwake⟩ := h.inv
  refine ⟨hCore.lawful, hCore.value, ?_, hCore.closed, hCore.detached⟩
  intro hFinish hStarted hScheduled hDrain
  have hContext : w.newestContext = none := by
    by_contra hPending
    rcases hAwake.awaited hFinish hStarted hPending with hOther | hOther
    · exact nomatch hScheduled.symm.trans hOther
    · exact hOther hDrain
  refine ⟨hCore.caughtUp hFinish hContext, ?_⟩
  rw [← Bool.not_eq_true]
  intro hEnding
  exact hAwake.ends hFinish hEnding hContext hDrain

/-- An object with the property `1`. -/
def oneField (text : String) : JsonValue :=
  .obj [(js "1", .str (js text))]

/-- One frame, delivered to a listener that returned. -/
def delivered : Watch Unit Unit :=
  ((((acquire (oneField "")).advance (.value (oneField "a") [.s [.key (js "1")] (.str (js "a"))] true) ()).start
    ).microtask.record .returned).deliver

theorem delivered_reachable : Reachable Replays (oneField "") delivered := by
  have hFrame : Allowed Replays (oneField "") (acquire (oneField "") : Watch Unit Unit)
      (.advance (.value (oneField "a") [.s [.key (js "1")] (.str (js "a"))] true) ()) :=
    fun _ => .inr (.cons ⟨trivial, trivial⟩ rfl (.nil _))
  have hArrived := Reachable.step .acquired hFrame rfl
  have hStarted := Reachable.step hArrived (show Allowed Replays (oneField "") _ .start from trivial) rfl
  have hCalled := Reachable.step hStarted (show Allowed Replays (oneField "") _ .microtask from trivial) rfl
  exact .step hCalled (show Allowed Replays (oneField "") _ .returns from trivial) rfl

theorem watch_consistent_delivered :
    Consistent (oneField "") delivered ∧ delivered.value = oneField "a" ∧ delivered.scheduled = false :=
  ⟨watch_consistent (oneField "") delivered delivered_reachable, rfl, rfl⟩

/-- A frame that sets the property as `1`, and one that sets it as `"1"` and as
`1` again, folded and delivered. -/
def aliased : Watch Unit Unit :=
  ((((acquire (oneField "")).advance (.value (oneField "a") [.s [.index 1] (.str (js "a"))] false) ()).advance
    (.value (oneField "c") [.s [.key (js "1")] (.str (js "b")), .s [.index 1] (.str (js "c"))] false) ()).start
    ).microtask

/-- Ops that lead from one value to another, whatever segments they name. -/
def Applied (before : JsonValue) (ops : List Op) (after : JsonValue) : Prop :=
  Delta.apply before ops = .ok after

theorem aliased_reachable : Reachable Applied (oneField "") aliased := by
  have hFirst : Allowed Applied (oneField "") (acquire (oneField "") : Watch Unit Unit)
      (.advance (.value (oneField "a") [.s [.index 1] (.str (js "a"))] false) ()) :=
    fun _ => .inr (by rw [Applied]; decide)
  have hSecond : Allowed Applied (oneField "")
      ((acquire (oneField "") : Watch Unit Unit).advance
        (.value (oneField "a") [.s [.index 1] (.str (js "a"))] false) ())
      (.advance (.value (oneField "c")
        [.s [.key (js "1")] (.str (js "b")), .s [.index 1] (.str (js "c"))] false) ()) :=
    fun _ => .inr (by rw [Applied]; decide)
  have hWaits := Reachable.step (Reachable.step .acquired hFirst rfl) hSecond rfl
  have hStarted := Reachable.step hWaits (show Allowed Applied (oneField "") _ .start from trivial) rfl
  exact .step hStarted (show Allowed Applied (oneField "") _ .microtask from trivial) rfl

/-- The folded ops lead elsewhere: a property and its number are two paths of the
queue, and one property of the object. -/
theorem watch_aliased_inconsistent :
    ¬ ∀ (initial : JsonValue) (w : Watch Unit Unit), Reachable Applied initial w → Consistent initial w := by
  intro hAll
  have hCall := (hAll _ _ aliased_reachable).lawful
    [.frame (.value (oneField "a") [.s [.index 1] (.str (js "a"))] false) (),
      .frame (.value (oneField "c")
        [.s [.key (js "1")] (.str (js "b")), .s [.index 1] (.str (js "c"))] false) ()]
    (.called (.value (oneField "c") [.s [.index 1] (.str (js "c")), .s [.key (js "1")] (.str (js "b"))] false) ())
    [] (by decide)
  obtain ⟨-, -, -, -, -, -, hApply, -, -⟩ := hCall
  have hLeads : Delta.apply (oneField "") [.s [.index 1] (.str (js "c")), .s [.key (js "1")] (.str (js "b"))] =
      .ok (oneField "b") := by decide
  exact absurd (Except.ok.inj (hLeads.symm.trans hApply)) (by decide)

end OctoberHarness.Watches
