import OctoberHarness.Bus.PublicInbox

/-! What holds of the public inbox in every order of its steps, and what a
dispatch that throws breaks. -/
namespace OctoberHarness.Bus.PublicInbox

open List Option OrderedMap

/-! What a history says of a batch. -/

/-- No run settled and no process was started in this part of a history. -/
def Calm (part : List Happening) : Prop :=
  .restarted ∉ part ∧ ∀ succeeded, .settled succeeded ∉ part

/-- The prompt of the batch was handed over, and nothing settled since. -/
def Handed (history : List Happening) (id : BatchId) : Prop :=
  ∃ before after, history = before ++ .handed id :: after ∧ Calm after

/-- A run began after the prompt of the batch was handed over, and nothing
settled since. -/
def Began (history : List Happening) (id : BatchId) : Prop :=
  ∃ before between after, history = before ++ .handed id :: (between ++ .began :: after) ∧ Calm between ∧ Calm after

/-- A run that began after the prompt of the batch was handed over settled
successfully. -/
def Settled (history : List Happening) (id : BatchId) : Prop :=
  ∃ before between run after,
    history = before ++ .handed id :: (between ++ .began :: (run ++ .settled true :: after)) ∧ Calm between ∧ Calm run

/-- After every hand-over a run settled, or the process was started again. -/
def Quiet (history : List Happening) : Prop :=
  ∀ before id after, history = before ++ .handed id :: after → ¬ Calm after

/-- What may come after a history: only a batch whose run settled is
acknowledged; a batch is handed over only while no other is active, and never
after it was recorded as handled or acknowledged. -/
def Admits (history : List Happening) : Happening → Prop
  | .sent id _ => Settled history id
  | .handed id => Quiet history ∧ ∀ state, .recorded id state ∈ history → state.done = false
  | _ => True

theorem calm_append {first second : List Happening} : Calm (first ++ second) ↔ Calm first ∧ Calm second := by
  simp only [Calm, mem_append, not_or, forall_and]
  tauto

theorem calm_nil : Calm [] := ⟨nofun, fun _ => nofun⟩

variable {history : List Happening} {id : BatchId}

theorem Settled.append (h : Settled history id) (added : List Happening) :
    Settled (history ++ added) id := by
  obtain ⟨before, between, run, after, rfl, hBetween, hRun⟩ := h
  exact ⟨before, between, run, after ++ added, by simp, hBetween, hRun⟩

variable {added : List Happening}

theorem Handed.append (h : Handed history id) (hCalm : Calm added) : Handed (history ++ added) id := by
  obtain ⟨before, after, rfl, hAfter⟩ := h
  exact ⟨before, after ++ added, by simp, calm_append.mpr ⟨hAfter, hCalm⟩⟩

theorem Began.append (h : Began history id) (hCalm : Calm added) : Began (history ++ added) id := by
  obtain ⟨before, between, after, rfl, hBetween, hAfter⟩ := h
  exact ⟨before, between, after ++ added, by simp, hBetween, calm_append.mpr ⟨hAfter, hCalm⟩⟩

theorem Handed.began (h : Handed history id) : Began (history ++ [.began]) id := by
  obtain ⟨before, after, rfl, hAfter⟩ := h
  exact ⟨before, after, [], by simp, hAfter, calm_nil⟩

theorem Began.settled (h : Began history id) : Settled (history ++ [.settled true]) id := by
  obtain ⟨before, between, after, rfl, hBetween, hAfter⟩ := h
  exact ⟨before, between, after, [], by simp, hBetween, hAfter⟩

theorem Quiet.append {history : List Happening} (h : Quiet history) (hAdded : ∀ id, .handed id ∉ added) :
    Quiet (history ++ added) := by
  intro before id after hSplit hCalm
  rcases append_eq_append_iff.mp hSplit with ⟨middle, hBefore, hTail⟩ | ⟨middle, hHistory, hTail⟩
  · exact hAdded id (by rw [hTail]; simp)
  · cases middle with
    | nil =>
      rw [nil_append] at hTail
      exact hAdded id (by rw [← hTail]; exact mem_cons_self)
    | cons first rest =>
      obtain ⟨rfl, rfl⟩ := cons.inj hTail
      exact h before id rest hHistory (calm_append.mp hCalm).1

theorem quiet_snoc {last : Happening} (hLast : ¬ Calm [last])
    (hHanded : ∀ id, last ≠ .handed id) : Quiet (history ++ [last]) := by
  intro before id after hSplit hCalm
  induction after using reverseRecOn with
  | nil =>
    have hSame := (append_inj' hSplit rfl).2
    exact hHanded id (singleton_inj.mp hSame)
  | append_singleton rest end_ _ =>
    rw [← cons_append, ← append_assoc] at hSplit
    obtain rfl := singleton_inj.mp (append_inj' hSplit rfl).2
    exact hLast (calm_append.mp hCalm).2

/-! Updates of the state. -/

namespace State

variable (s : State) (id : BatchId) (state : DeliveryState) (append : Append) {batch : DeliveryBatch}

theorem appendDelivery_eq (h : s.batches.lookup id = some batch) :
    s.appendDelivery id state append =
      { s with
        batches := set s.batches id { batch with state := state }
        records := s.records ++ (if append.added then [⟨id, { batch with state := state }⟩] else [])
        history := s.history ++ (if append.added then [.recorded id state] else []) } := by
  simp only [appendDelivery, h]

theorem stateOf_eq (h : s.batches.lookup id = some batch) : s.stateOf id = some batch.state := by
  rw [stateOf, h, map_some]

theorem lookup_of_stateOf {state : DeliveryState} (h : s.stateOf id = some state) :
    ∃ batch, s.batches.lookup id = some batch ∧ batch.state = state :=
  Option.map_eq_some_iff.mp h

def activeCeiling : Option Ceiling :=
  s.active.bind fun id => (s.batches.lookup id).map DeliveryBatch.permissionCeiling

end State

/-- The bus has taken every message of the batch. -/
def Taken (s : State) (id : BatchId) : Prop :=
  ∀ message ∈ id, message ∈ s.acknowledged

instance (s : State) (id : BatchId) : Decidable (Taken s id) :=
  inferInstanceAs (Decidable (∀ message ∈ id, message ∈ s.acknowledged))

/-- A batch of this process whose turn settled. -/
def Done (s : State) (id : BatchId) : Prop :=
  ∃ state, s.stateOf id = some state ∧ state.done = true

/-- A batch of this process whose turn has not settled. -/
def Open (s : State) (id : BatchId) : Prop :=
  ∃ state, s.stateOf id = some state ∧ state.done = false

/-- The batches, the queue of deliveries and the entries fit together. -/
structure Tables (s : State) : Prop where
  ids : ∀ id batch, s.batches.lookup id = some batch → batchId batch.messages = id
  recordIds : ∀ record ∈ s.records, batchId record.batch.messages = record.batchId
  pending : ∀ id ∈ s.pending, s.stateOf id ≠ none
  known : ∀ id, s.stateOf id ≠ none → id ∈ s.pending ∨ Taken s id
  checking : s.checking = true → ∀ id ∈ s.pending, Taken s id
  acknowledged : ∀ id, s.stateOf id = some .acknowledged → Taken s id
  recordsTaken : ∀ record ∈ s.records, record.batch.state = .acknowledged →
    Taken s record.batchId ∧ .confirmed record.batchId ∈ s.history
  recordsDone : ∀ record ∈ s.records, record.batch.state.done = true →
    Done s record.batchId ∨ s.stateOf record.batchId = none ∧ Taken s record.batchId
  replayed : ∀ record ∈ s.records, record.batch.state.done = true →
    (∃ batch, (State.replay s.records).lookup record.batchId = some batch ∧ batch.state.done = true) ∨
      (State.replay s.records).lookup record.batchId = none ∧ Taken s record.batchId
  mirror : ∀ id state, .recorded id state ∈ s.history →
    ∃ record ∈ s.records, record.batchId = id ∧ record.batch.state = state
  received : ∀ id, .received id ∈ s.history → .confirmed id ∈ s.history ∨ id ∈ s.pending

/-- The turns of the batches, and what was acknowledged. -/
structure Turns (s : State) : Prop where
  settled : ∀ id, Done s id → Settled s.history id
  records : ∀ record ∈ s.records, record.batch.state.done = true → Settled s.history record.batchId
  calls : ∀ call ∈ s.calls, Done s call.batchId
  timers : ∀ id ∈ s.timers, Done s id
  active : ∀ id, s.active = some id → Open s id ∧ Handed s.history id
  running : ∀ id, s.active = some id → s.phase = .running → Began s.history id
  succeeded : ∀ id outcome, s.active = some id → s.activeSucceeded = some outcome →
    s.lastEnd = some outcome ∧ Began s.history id ∧ s.phase ≠ .idle
  ceiling : s.temporaryCeiling = s.activeCeiling
  quiet : s.active = none → Quiet s.history
  lawful : Trace.Lawful Admits s.history

/-- The invariant of every run in which dispatches do not throw. -/
structure Inv (s : State) : Prop where
  tables : Tables s
  turns : Turns s

theorem not_done_of_open {s : State} {id : BatchId} (hOpen : Open s id) : ¬ Done s id := by
  rintro ⟨state, hState, hDone⟩
  obtain ⟨other, hOther, hNot⟩ := hOpen
  rw [hState, some.injEq] at hOther
  rw [← hOther, hDone] at hNot
  exact nomatch hNot

theorem Tables.not_recorded {s : State} (h : Tables s) {id : BatchId} (hOpen : Open s id) {record : DeliveryRecord}
    (hRecord : record ∈ s.records) (hId : record.batchId = id) : record.batch.state.done = false := by
  by_contra hDone
  rw [Bool.not_eq_false] at hDone
  subst hId
  rcases h.recordsDone record hRecord hDone with hKnown | ⟨hNone, _⟩
  · exact not_done_of_open hOpen hKnown
  · obtain ⟨state, hState, _⟩ := hOpen
    rw [hNone] at hState
    exact nomatch hState

/-! Adding an entry for a batch. -/

namespace State

variable {s : State} {id : BatchId} {batch : DeliveryBatch}

theorem lookup_appendDelivery (h : s.batches.lookup id = some batch) (state : DeliveryState) (append : Append)
    (other : BatchId) :
    (s.appendDelivery id state append).batches.lookup other =
      if other = id then some { batch with state := state } else s.batches.lookup other := by
  rw [appendDelivery_eq s id state append h, lookup_set]

theorem stateOf_appendDelivery (h : s.batches.lookup id = some batch) (state : DeliveryState) (append : Append)
    (other : BatchId) :
    (s.appendDelivery id state append).stateOf other = if other = id then some state else s.stateOf other := by
  rw [stateOf, lookup_appendDelivery h, stateOf]
  split_ifs <;> rfl

theorem activeCeiling_appendDelivery (h : s.batches.lookup id = some batch) (state : DeliveryState) (append : Append) :
    (s.appendDelivery id state append).activeCeiling = s.activeCeiling := by
  have hActive : (s.appendDelivery id state append).active = s.active := by
    rw [appendDelivery_eq s id state append h]
  rw [activeCeiling, activeCeiling, hActive]
  cases s.active with
  | none => rfl
  | some other =>
    rw [bind_some, bind_some, lookup_appendDelivery h]
    split_ifs with hOther
    · rw [hOther, h]
      rfl
    · rfl

theorem replay_append (records : List DeliveryRecord) (record : DeliveryRecord) (other : BatchId) :
    (replay (records ++ [record])).lookup other =
      if other = record.batchId then if record.batch.state = .acknowledged then none else some record.batch
      else (replay records).lookup other := by
  rw [replay, foldl_append, foldl_cons, foldl_nil, ← replay]
  by_cases hState : record.batch.state = .acknowledged
  · rw [if_pos hState, lookup_erase, if_pos hState]
  · rw [if_neg hState, lookup_set, if_neg hState]

end State

variable {s : State}

theorem done_appendDelivery {id : BatchId} {batch : DeliveryBatch} (h : s.batches.lookup id = some batch)
    (state : DeliveryState) (hDone : state.done = true) (append : Append) :
    Done (s.appendDelivery id state append) id :=
  ⟨state, by rw [State.stateOf_appendDelivery h, if_pos rfl], hDone⟩

/-- A batch may get an entry with this state: its turn is open and stays so, or
it settled and the batch is no longer active. -/
def Fits (s : State) (id : BatchId) (state : DeliveryState) : Prop :=
  state.done = false ∧ Open s id ∨ state.done = true ∧ Settled s.history id ∧ s.active ≠ some id

theorem Tables.append (h : Tables s) {id : BatchId} {batch : DeliveryBatch}
    (hBatch : s.batches.lookup id = some batch) {state : DeliveryState} (hFits : Fits s id state)
    (hTaken : state = .acknowledged → Taken s id ∧ .confirmed id ∈ s.history) (append : Append) :
    Tables (s.appendDelivery id state append) := by
  have hState := State.stateOf_appendDelivery hBatch state append
  have hOld : ∀ record ∈ s.records, record.batch.state.done = true → record.batchId = id → state.done = true := by
    intro record hRecord hDone hId
    rcases hFits with ⟨_, hOpen⟩ | ⟨hNew, _⟩
    · rw [h.not_recorded hOpen hRecord hId] at hDone
      exact nomatch hDone
    · exact hNew
  have hNew : ∀ record ∈ (if append.added = true then [(⟨id, { batch with state := state }⟩ : DeliveryRecord)] else []),
      record = ⟨id, { batch with state := state }⟩ := by
    intro record hRecord
    split_ifs at hRecord
    · exact mem_singleton.mp hRecord
    · exact nomatch hRecord
  have hEq := State.appendDelivery_eq s id state append hBatch
  constructor
  case ids =>
    intro other found hFound
    rw [State.lookup_appendDelivery hBatch] at hFound
    split_ifs at hFound with hOther
    · obtain rfl := some.inj hFound
      rw [hOther]
      exact h.ids id batch hBatch
    · exact h.ids other found hFound
  case recordIds =>
    rw [hEq]
    intro record hRecord
    rcases mem_append.mp hRecord with hRecord | hRecord
    · exact h.recordIds record hRecord
    · obtain rfl := hNew record hRecord
      exact h.ids id batch hBatch
  case pending =>
    intro other hOther
    rw [hState]
    rw [hEq] at hOther
    split_ifs
    · exact some_ne_none _
    · exact h.pending other hOther
  case known =>
    intro other hOther
    rw [hState] at hOther
    have hKnown : s.stateOf other ≠ none := by
      split_ifs at hOther with hSame
      · rw [hSame, State.stateOf_eq s id hBatch]
        exact some_ne_none _
      · exact hOther
    rw [hEq]
    exact h.known other hKnown
  case checking =>
    rw [hEq]
    exact h.checking
  case acknowledged =>
    intro other hOther
    rw [hState] at hOther
    rw [hEq]
    split_ifs at hOther with hSame
    · rw [hSame]
      exact (hTaken (some.inj hOther)).1
    · exact h.acknowledged other hOther
  case recordsTaken =>
    rw [hEq]
    intro record hRecord hAcknowledged
    rcases mem_append.mp hRecord with hRecord | hRecord
    · obtain ⟨hTakenOld, hConfirmed⟩ := h.recordsTaken record hRecord hAcknowledged
      exact ⟨hTakenOld, mem_append_left _ hConfirmed⟩
    · obtain rfl := hNew record hRecord
      obtain ⟨hTakenNew, hConfirmed⟩ := hTaken hAcknowledged
      exact ⟨hTakenNew, mem_append_left _ hConfirmed⟩
  case recordsDone =>
    intro record hRecord hDone
    by_cases hSame : record.batchId = id
    · refine .inl ⟨state, by rw [hState, if_pos hSame], ?_⟩
      rw [hEq] at hRecord
      rcases mem_append.mp hRecord with hRecord | hRecord
      · exact hOld record hRecord hDone hSame
      · obtain rfl := hNew record hRecord
        exact hDone
    · have hRecord' : record ∈ s.records := by
        rw [hEq] at hRecord
        rcases mem_append.mp hRecord with hRecord | hRecord
        · exact hRecord
        · exact absurd (congrArg DeliveryRecord.batchId (hNew record hRecord)) hSame
      have hRest := h.recordsDone record hRecord' hDone
      rw [Done, hState, if_neg hSame, hEq]
      exact hRest
  case replayed =>
    rw [hEq]
    cases hAdded : append.added with
    | false =>
      simp only [Bool.false_eq_true, if_false, append_nil]
      exact h.replayed
    | true =>
      simp only [if_true]
      intro record hRecord hDone
      rw [State.replay_append]
      by_cases hSame : record.batchId = id
      · have hStateDone : state.done = true := by
          rcases mem_append.mp hRecord with hRecord | hRecord
          · exact hOld record hRecord hDone hSame
          · obtain rfl := mem_singleton.mp hRecord
            exact hDone
        rw [if_pos hSame]
        by_cases hAcknowledged : state = .acknowledged
        · rw [if_pos hAcknowledged, hSame]
          exact .inr ⟨rfl, (hTaken hAcknowledged).1⟩
        · rw [if_neg hAcknowledged]
          exact .inl ⟨_, rfl, hStateDone⟩
      · rw [if_neg hSame]
        rcases mem_append.mp hRecord with hRecord | hRecord
        · exact h.replayed record hRecord hDone
        · obtain rfl := mem_singleton.mp hRecord
          exact absurd rfl hSame
  case mirror =>
    rw [hEq]
    cases hAdded : append.added with
    | false =>
      simp only [Bool.false_eq_true, if_false, append_nil]
      exact h.mirror
    | true =>
      simp only [if_true]
      intro other found hFound
      rcases mem_append.mp hFound with hFound | hFound
      · obtain ⟨record, hRecord, hMatch⟩ := h.mirror other found hFound
        exact ⟨record, mem_append_left _ hRecord, hMatch⟩
      · obtain ⟨rfl, rfl⟩ := Happening.recorded.inj (mem_singleton.mp hFound)
        exact ⟨_, mem_append_right _ (mem_singleton_self _), rfl, rfl⟩
  case received =>
    rw [hEq]
    intro other hOther
    rcases mem_append.mp hOther with hOther | hOther
    · exact (h.received other hOther).imp_left (mem_append_left _)
    · split_ifs at hOther
      · exact nomatch mem_singleton.mp hOther
      · exact nomatch hOther

theorem calm_entry (id : BatchId) (state : DeliveryState) (added : Bool) :
    Calm (if added = true then [.recorded id state] else []) := by
  cases added <;> simp [Calm]

theorem Turns.append (h : Turns s) {id : BatchId} {batch : DeliveryBatch}
    (hBatch : s.batches.lookup id = some batch) {state : DeliveryState} (hFits : Fits s id state) (append : Append) :
    Turns (s.appendDelivery id state append) := by
  have hState := State.stateOf_appendDelivery hBatch state append
  have hEq := State.appendDelivery_eq s id state append hBatch
  have hCalm := calm_entry id state append.added
  have hOther : ∀ other, other ≠ id → (Done (s.appendDelivery id state append) other ↔ Done s other) := by
    intro other hNe
    rw [Done, hState, if_neg hNe, Done]
  -- a batch whose turn settled before keeps a state of that kind
  have hDone : ∀ other, Done s other → Done (s.appendDelivery id state append) other := by
    intro other hDoneOther
    by_cases hSame : other = id
    · subst hSame
      rcases hFits with ⟨_, hOpen⟩ | ⟨hNew, _⟩
      · exact absurd hDoneOther (not_done_of_open hOpen)
      · exact ⟨state, by rw [hState, if_pos rfl], hNew⟩
    · exact (hOther other hSame).mpr hDoneOther
  constructor
  case settled =>
    intro other hDoneOther
    have hSettled : Settled s.history other := by
      by_cases hSame : other = id
      · obtain ⟨found, hFound, hFoundDone⟩ := hDoneOther
        rw [hState, if_pos hSame, some.injEq] at hFound
        subst hFound hSame
        rcases hFits with ⟨hNew, _⟩ | ⟨_, hSettled, _⟩
        · rw [hNew] at hFoundDone
          exact nomatch hFoundDone
        · exact hSettled
      · exact h.settled other ((hOther other hSame).mp hDoneOther)
    rw [hEq]
    exact hSettled.append _
  case records =>
    rw [hEq]
    intro record hRecord hRecordDone
    have hSettled : Settled s.history record.batchId := by
      rcases mem_append.mp hRecord with hRecord | hRecord
      · exact h.records record hRecord hRecordDone
      · split_ifs at hRecord
        · obtain rfl := mem_singleton.mp hRecord
          rcases hFits with ⟨hNew, _⟩ | ⟨_, hSettled, _⟩
          · have hNot : state.done = true := hRecordDone
            rw [hNew] at hNot
            exact nomatch hNot
          · exact hSettled
        · exact nomatch hRecord
    exact hSettled.append _
  case calls =>
    intro call hCall
    rw [hEq] at hCall
    exact hDone _ (h.calls call hCall)
  case timers =>
    intro other hTimer
    rw [hEq] at hTimer
    exact hDone _ (h.timers other hTimer)
  case active =>
    intro other hActive
    rw [hEq] at hActive
    obtain ⟨hOpen, hHanded⟩ := h.active other hActive
    constructor
    · by_cases hSame : other = id
      · subst hSame
        rcases hFits with ⟨hNew, _⟩ | ⟨_, _, hNot⟩
        · exact ⟨state, by rw [hState, if_pos rfl], hNew⟩
        · exact absurd hActive hNot
      · rw [Open, hState, if_neg hSame]
        exact hOpen
    · rw [hEq]
      exact hHanded.append hCalm
  case running =>
    rw [hEq]
    exact fun other hActive hRunning => (h.running other hActive hRunning).append hCalm
  case succeeded =>
    rw [hEq]
    intro other outcome hActive hSucceeded
    obtain ⟨hLast, hBegan, hPhase⟩ := h.succeeded other outcome hActive hSucceeded
    exact ⟨hLast, hBegan.append hCalm, hPhase⟩
  case ceiling =>
    rw [State.activeCeiling_appendDelivery hBatch, hEq]
    exact h.ceiling
  case quiet =>
    rw [hEq]
    intro hActive
    apply (h.quiet hActive).append
    intro other hHanded
    split_ifs at hHanded
    · exact nomatch mem_singleton.mp hHanded
    · exact nomatch hHanded
  case lawful =>
    rw [hEq]
    apply h.lawful.append
    intro entry hEntry between
    split_ifs at hEntry
    · obtain rfl := mem_singleton.mp hEntry
      trivial
    · exact nomatch hEntry

theorem Inv.append (h : Inv s) {id : BatchId} {batch : DeliveryBatch}
    (hBatch : s.batches.lookup id = some batch) {state : DeliveryState} (hFits : Fits s id state)
    (hTaken : state = .acknowledged → Taken s id ∧ .confirmed id ∈ s.history) (append : Append) :
    Inv (s.appendDelivery id state append) :=
  ⟨h.tables.append hBatch hFits hTaken append, h.turns.append hBatch hFits append⟩

theorem Inv.reopen (h : Inv s) {id : BatchId} {batch : DeliveryBatch}
    (hBatch : s.batches.lookup id = some batch) (hOpen : batch.state.done = false) {state : DeliveryState}
    (hState : state.done = false) (append : Append) : Inv (s.appendDelivery id state append) := by
  apply h.append hBatch (.inl ⟨hState, batch.state, State.stateOf_eq s id hBatch, hOpen⟩)
  rintro rfl
  exact nomatch hState

/-! The other parts of a step. -/

theorem Tables.happened (h : Tables s) {new : Happening} (hReceived : ∀ id, new ≠ .received id)
    (hRecorded : ∀ id state, new ≠ .recorded id state) : Tables (s.happened new) :=
  { h with
    recordsTaken := by
      intro record hRecord hAcknowledged
      obtain ⟨hTaken, hConfirmed⟩ := h.recordsTaken record hRecord hAcknowledged
      exact ⟨hTaken, mem_append_left _ hConfirmed⟩
    mirror := by
      intro id state hMem
      rcases mem_append.mp hMem with hMem | hMem
      · exact h.mirror id state hMem
      · exact absurd (mem_singleton.mp hMem).symm (hRecorded id state)
    received := by
      intro id hMem
      rcases mem_append.mp hMem with hMem | hMem
      · exact (h.received id hMem).imp_left (mem_append_left _)
      · exact absurd (mem_singleton.mp hMem).symm (hReceived id) }

theorem Turns.happened (h : Turns s) {new : Happening} (hCalm : Calm [new])
    (hHanded : ∀ id, new ≠ .handed id) (hAdmits : Admits s.history new) : Turns (s.happened new) :=
  { h with
    settled := fun id hDone => (h.settled id hDone).append _
    records := fun record hRecord hDone => (h.records record hRecord hDone).append _
    active := fun id hActive => ⟨(h.active id hActive).1, (h.active id hActive).2.append hCalm⟩
    running := fun id hActive hRunning => (h.running id hActive hRunning).append hCalm
    succeeded := by
      intro id outcome hActive hSucceeded
      obtain ⟨hLast, hBegan, hPhase⟩ := h.succeeded id outcome hActive hSucceeded
      exact ⟨hLast, hBegan.append hCalm, hPhase⟩
    quiet := fun hActive => (h.quiet hActive).append fun id hMem => hHanded id (mem_singleton.mp hMem).symm
    lawful := h.lawful.snoc hAdmits }

theorem Inv.acknowledge (h : Inv s) {id : BatchId} (hDone : Done s id) (settles : Bool) :
    Inv (s.acknowledge id settles) := by
  unfold State.acknowledge
  by_cases hRuns : (s.calls.any fun call => call.batchId = id) = true
  · rw [if_pos hRuns]
    exact ⟨{ h.tables with }, { h.turns with }⟩
  · rw [if_neg hRuns]
    cases hBatch : s.batches.lookup id with
    | none => exact h
    | some batch =>
      have hCalls : ∀ call ∈ s.calls ++ [(⟨id, settles⟩ : Call)], Done s call.batchId := by
        intro call hCall
        rcases mem_append.mp hCall with hCall | hCall
        · exact h.turns.calls call hCall
        · obtain rfl := mem_singleton.mp hCall
          exact hDone
      have hTables : Tables { s with calls := s.calls ++ [⟨id, settles⟩] } := { h.tables with }
      have hTurns : Turns { s with calls := s.calls ++ [⟨id, settles⟩] } := { h.turns with calls := hCalls }
      have hAdmits : Admits s.history (.sent id (batch.messages.map BusMessage.id)) := h.turns.settled id hDone
      exact ⟨hTables.happened (fun _ => nofun) (fun _ _ => nofun),
        hTurns.happened (by simp [Calm]) (fun _ => nofun) hAdmits⟩

theorem mem_pend (s : State) (id other : BatchId) : other ∈ (s.pend id).pending ↔ other ∈ s.pending ∨ other = id := by
  unfold State.pend
  by_cases hOld : id ∈ s.pending
  · simp only [hOld, if_true]
    constructor
    · exact Or.inl
    · rintro (hOther | rfl)
      · exact hOther
      · exact hOld
  · simp [hOld]

theorem Tables.pend (h : Tables s) {id : BatchId} (hKnown : s.stateOf id ≠ none)
    (hTaken : s.checking = true → Taken s id) : Tables (s.pend id) := by
  have hMem := mem_pend s id
  exact { h with
    pending := by
      intro other hOther
      rcases (hMem other).mp hOther with hOther | rfl
      · exact h.pending other hOther
      · exact hKnown
    known := fun other hOther => (h.known other hOther).imp_left fun hOld => (hMem other).mpr (.inl hOld)
    checking := by
      intro hChecking other hOther
      rcases (hMem other).mp hOther with hOther | rfl
      · exact h.checking hChecking other hOther
      · exact hTaken hChecking
    received := fun other hOther => (h.received other hOther).imp_right fun hOld => (hMem other).mpr (.inl hOld) }

theorem Tables.taken (h : Tables s) {id : BatchId} (hKnown : s.stateOf id ≠ none)
    (hChecking : s.checking = true) : Taken s id := by
  rcases h.known id hKnown with hPending | hTaken
  · exact h.checking hChecking id hPending
  · exact hTaken

theorem Done.known {id : BatchId} (h : Done s id) : s.stateOf id ≠ none := by
  obtain ⟨state, hState, _⟩ := h
  rw [hState]
  exact some_ne_none state

theorem Done.batch {id : BatchId} (h : Done s id) : ∃ batch, s.batches.lookup id = some batch := by
  obtain ⟨state, hState, _⟩ := h
  obtain ⟨batch, hBatch, _⟩ := State.lookup_of_stateOf s id hState
  exact ⟨batch, hBatch⟩

theorem Inv.fits_done (h : Inv s) {id : BatchId} (hDone : Done s id) {state : DeliveryState}
    (hState : state.done = true) : Fits s id state :=
  .inr ⟨hState, h.turns.settled id hDone, fun hActive => not_done_of_open (h.turns.active id hActive).1 hDone⟩

theorem Inv.retrying (h : Inv s) {call : Call} (hDone : Done s call.batchId) :
    Inv (s.retrying call) := by
  have hTimers : ∀ id ∈ s.timers ++ [call.batchId], Done s id := by
    intro id hTimer
    rcases mem_append.mp hTimer with hTimer | hTimer
    · exact h.turns.timers id hTimer
    · obtain rfl := mem_singleton.mp hTimer
      exact hDone
  have hTables : Tables { s with timers := s.timers ++ [call.batchId] } := { h.tables with }
  have hPended := hTables.pend hDone.known (h.tables.taken hDone.known)
  exact ⟨{ hPended with }, { h.turns with timers := hTimers }⟩

theorem Inv.handled (h : Inv s) {id : BatchId} (hDone : Done s id) (append : Append) :
    Inv (s.appendDelivery id .handled append) ∧ Done (s.appendDelivery id .handled append) id := by
  obtain ⟨batch, hBatch⟩ := hDone.batch
  have hFits : Fits s id .handled := h.fits_done hDone rfl
  exact ⟨h.append hBatch hFits nofun append, done_appendDelivery hBatch .handled rfl append⟩

theorem Inv.acknowledgeFailed (h : Inv s) {call : Call} (hDone : Done s call.batchId) (append : Append) :
    Inv (s.acknowledgeFailed call append) := by
  have hCounted : ∀ attempts, Inv { s with acknowledgementAttempts := attempts } :=
    fun attempts => ⟨{ h.tables with }, { h.turns with }⟩
  unfold State.acknowledgeFailed
  dsimp only
  generalize set s.acknowledgementAttempts call.batchId
    ((s.acknowledgementAttempts.lookup call.batchId).getD 0 + 1) = attempts
  by_cases hFirst : (s.acknowledgementAttempts.lookup call.batchId).getD 0 + 1 = 1
  · rw [if_pos hFirst]
    cases append with
    | ok =>
      obtain ⟨hNoted, hNotedDone⟩ := @Inv.handled _ (hCounted attempts) call.batchId hDone .ok
      exact hNoted.retrying hNotedDone
    | threw added => exact (@Inv.handled _ (hCounted attempts) call.batchId hDone (.threw added)).1
  · rw [if_neg hFirst]
    exact @Inv.retrying _ (hCounted attempts) call hDone

theorem Tables.unpend (h : Tables s) {id : BatchId} (hTaken : Taken s id)
    (hConfirmed : .confirmed id ∈ s.history) : Tables { s with pending := s.pending.filter fun other => other ≠ id } := by
  have hMem : ∀ other, other ∈ s.pending.filter (fun other => other ≠ id) ↔ other ∈ s.pending ∧ other ≠ id := by
    intro other
    rw [mem_filter, decide_eq_true_iff]
  exact { h with
    pending := fun other hOther => h.pending other ((hMem other).mp hOther).1
    known := by
      intro other hOther
      by_cases hSame : other = id
      · exact .inr (hSame ▸ hTaken)
      · exact (h.known other hOther).imp_left fun hOld => (hMem other).mpr ⟨hOld, hSame⟩
    checking := fun hChecking other hOther => h.checking hChecking other ((hMem other).mp hOther).1
    received := by
      intro other hOther
      by_cases hSame : other = id
      · exact .inl (hSame ▸ hConfirmed)
      · exact (h.received other hOther).imp_right fun hOld => (hMem other).mpr ⟨hOld, hSame⟩ }

theorem Inv.acknowledgeDone (h : Inv s) {call : Call} (hDone : Done s call.batchId)
    (hTaken : Taken s call.batchId) (hConfirmed : .confirmed call.batchId ∈ s.history) (append again : Append) :
    Inv (s.acknowledgeDone call append again) := by
  obtain ⟨batch, hBatch⟩ := hDone.batch
  have hNoted := h.append hBatch (h.fits_done hDone rfl : Fits s call.batchId .acknowledged) (fun _ => ⟨hTaken, hConfirmed⟩)
  have hEq := fun append => State.appendDelivery_eq s call.batchId .acknowledged append hBatch
  cases append with
  | ok =>
    have hTaken' : Taken (s.appendDelivery call.batchId .acknowledged .ok) call.batchId := by
      rw [hEq]
      exact hTaken
    have hConfirmed' : .confirmed call.batchId ∈ (s.appendDelivery call.batchId .acknowledged .ok).history := by
      rw [hEq]
      exact mem_append_left _ hConfirmed
    have hTables := (hNoted .ok).tables.unpend hTaken' hConfirmed'
    exact ⟨{ hTables with }, { (hNoted .ok).turns with }⟩
  | threw added =>
    apply (hNoted (.threw added)).acknowledgeFailed
    exact done_appendDelivery hBatch .acknowledged rfl _

/-- A dispatch whose calls return makes the batch active, with its prompt handed
over and its ceiling set. -/
theorem Inv.dispatch (h : Inv s) {id : BatchId} (hReceived : s.stateOf id = some .received)
    {sending : Sending} (hAppend : sending.append = .ok) (hSent : sending.sent = true) : Inv (s.dispatch id sending) := by
  unfold State.dispatch
  by_cases hGuard : s.active ≠ none ∨ s.stateOf id = some .handled ∨ s.stateOf id = some .acknowledged ∨
      s.phase = .running ∨ sending.idle = false
  · rw [if_pos hGuard]
    exact h
  rw [if_neg hGuard]
  simp only [not_or, not_not] at hGuard
  obtain ⟨hActive, _, _, hPhase, _⟩ := hGuard
  obtain ⟨batch, hBatch, _⟩ := State.lookup_of_stateOf s id hReceived
  have hNoted := h.append hBatch (.inl ⟨rfl, .received, hReceived, rfl⟩ : Fits s id .processing) nofun .ok
  have hOpen : Open (s.appendDelivery id .processing .ok) id :=
    ⟨.processing, by rw [State.stateOf_appendDelivery hBatch, if_pos rfl], rfl⟩
  have hQuiet : Quiet (s.appendDelivery id .processing .ok).history := by
    apply hNoted.turns.quiet
    rw [State.appendDelivery_eq s id .processing .ok hBatch]
    exact hActive
  have hAdmits : Admits (s.appendDelivery id .processing .ok).history (.handed id) := by
    refine ⟨hQuiet, fun state hRecorded => ?_⟩
    obtain ⟨record, hRecord, hId, rfl⟩ := hNoted.tables.mirror id state hRecorded
    exact hNoted.tables.not_recorded hOpen hRecord hId
  have hTables := hNoted.tables
  have hTurns := hNoted.turns
  have hCeiling : ((s.appendDelivery id .processing .ok).batches.lookup id).map DeliveryBatch.permissionCeiling =
      some batch.permissionCeiling := by
    rw [State.lookup_appendDelivery hBatch, if_pos rfl]
    rfl
  dsimp only
  rw [hAppend, State.appendDelivery_eq ({ s with active := some id, activeSucceeded := none } : State) id .processing .ok hBatch]
  rw [State.appendDelivery_eq s id .processing .ok hBatch] at hTables hTurns hOpen hQuiet hAdmits hCeiling
  dsimp only
  rw [if_pos hSent]
  constructor
  · have hHanded := @Tables.happened _ hTables (.handed id) (fun _ => nofun) (fun _ _ => nofun)
    exact { hHanded with }
  · constructor
    case settled => exact fun other hDone => (hTurns.settled other hDone).append _
    case records => exact fun record hRecord hDone => (hTurns.records record hRecord hDone).append _
    case calls => exact hTurns.calls
    case timers => exact hTurns.timers
    case active =>
      intro other hOther
      obtain rfl := some.inj hOther
      exact ⟨hOpen, _, [], rfl, calm_nil⟩
    case running => exact fun _ _ hRunning => absurd hRunning hPhase
    case succeeded => exact fun _ _ _ hSucceeded => nomatch hSucceeded
    case ceiling => rfl
    case quiet => exact fun hNone => nomatch hNone
    case lawful => exact hTurns.lawful.snoc hAdmits

theorem Inv.dispatchNext (h : Inv s) {sending : Sending} (hAppend : sending.append = .ok)
    (hSent : sending.sent = true) : Inv (s.dispatchNext sending) := by
  unfold State.dispatchNext
  split
  next id hFound => exact h.dispatch (by simpa using find?_some hFound) hAppend hSent
  · exact h

variable {messages : List BusMessage}

theorem Tables.fresh (h : Tables s) (hChecking : s.checking = true)
    (hSome : messages ≠ []) (hNew : ∀ message ∈ messages, message.id ∉ s.acknowledged) :
    s.stateOf (batchId messages) = none ∧ ¬ Taken s (batchId messages) := by
  have hNot : ¬ Taken s (batchId messages) := by
    intro hTaken
    obtain ⟨message, hMessage⟩ := exists_mem_of_ne_nil messages hSome
    refine hNew message hMessage (hTaken message.id ?_)
    rw [batchId, mem_insertionSort]
    exact mem_map_of_mem hMessage
  refine ⟨?_, hNot⟩
  by_contra hKnown
  exact hNot (h.taken hKnown hChecking)

theorem Inv.receive (h : Inv s) (hChecking : s.checking = true)
    (hSome : messages ≠ []) (hNew : ∀ message ∈ messages, message.id ∉ s.acknowledged) (ceiling : Ceiling) :
    Inv (({ s with
      checking := false
      batches := set s.batches (batchId messages) ⟨.received, messages, ceiling⟩
      history := s.history ++ [.received (batchId messages)] } : State).pend (batchId messages)) := by
  obtain ⟨hNone, hNot⟩ := h.tables.fresh hChecking hSome hNew
  generalize hHeld : ({ s with
    checking := false
    batches := set s.batches (batchId messages) ⟨.received, messages, ceiling⟩
    history := s.history ++ [.received (batchId messages)] } : State) = held
  have hLookup : ∀ other, held.batches.lookup other =
      if other = batchId messages then some ⟨.received, messages, ceiling⟩ else s.batches.lookup other := by
    intro other
    rw [← hHeld, lookup_set]
  have hState : ∀ other, held.stateOf other =
      if other = batchId messages then some .received else s.stateOf other := by
    intro other
    rw [State.stateOf, hLookup, State.stateOf]
    split_ifs <;> rfl
  have hOther : ∀ other, s.stateOf other ≠ none → other ≠ batchId messages := by
    rintro other hKnown rfl
    exact hKnown hNone
  have hDone : ∀ other, Done held other ↔ Done s other := by
    intro other
    rw [Done, hState]
    by_cases hSame : other = batchId messages
    · rw [if_pos hSame, Done, hSame, hNone]
      simp [DeliveryState.done]
    · rw [if_neg hSame, Done]
  have hCalm : Calm [Happening.received (batchId messages)] := by simp [Calm]
  have hMem := mem_pend held (batchId messages)
  have hPending : held.pending = s.pending := by rw [← hHeld]
  have hHistory : held.history = s.history ++ [.received (batchId messages)] := by rw [← hHeld]
  have hRecords : held.records = s.records := by rw [← hHeld]
  have hAcknowledged : held.acknowledged = s.acknowledged := by rw [← hHeld]
  have hActive : held.active = s.active := by rw [← hHeld]
  constructor
  · constructor
    case ids =>
      intro other found hFound
      rw [show (held.pend (batchId messages)).batches.lookup other = _ from hLookup other] at hFound
      split_ifs at hFound with hSame
      · obtain rfl := some.inj hFound
        exact hSame.symm
      · exact h.tables.ids other found hFound
    case recordIds =>
      rw [show (held.pend (batchId messages)).records = s.records from hRecords]
      exact h.tables.recordIds
    case pending =>
      intro other hMember
      rw [show (held.pend (batchId messages)).stateOf other = _ from hState other]
      split_ifs with hSame
      · exact some_ne_none _
      · rcases (hMem other).mp hMember with hMember | hMember
        · rw [hPending] at hMember
          exact h.tables.pending other hMember
        · exact absurd hMember hSame
    case known =>
      intro other hKnown
      rw [show (held.pend (batchId messages)).stateOf other = _ from hState other] at hKnown
      by_cases hSame : other = batchId messages
      · exact .inl ((hMem other).mpr (.inr hSame))
      · rw [if_neg hSame] at hKnown
        rw [Taken, show (held.pend (batchId messages)).acknowledged = _ from hAcknowledged, hMem, hPending]
        exact (h.tables.known other hKnown).imp_left Or.inl
    case checking =>
      intro hOn
      rw [show (held.pend (batchId messages)).checking = held.checking from rfl, ← hHeld] at hOn
      exact nomatch hOn
    case acknowledged =>
      intro other hFound
      rw [show (held.pend (batchId messages)).stateOf other = _ from hState other] at hFound
      rw [Taken, show (held.pend (batchId messages)).acknowledged = _ from hAcknowledged]
      split_ifs at hFound with hSame
      · exact nomatch some.inj hFound
      · exact h.tables.acknowledged other hFound
    case recordsTaken =>
      intro record hRecord hState
      rw [show (held.pend (batchId messages)).records = s.records from hRecords] at hRecord
      obtain ⟨hTaken, hConfirmed⟩ := h.tables.recordsTaken record hRecord hState
      rw [Taken, show (held.pend (batchId messages)).acknowledged = _ from hAcknowledged,
        show (held.pend (batchId messages)).history = _ from hHistory]
      exact ⟨hTaken, mem_append_left _ hConfirmed⟩
    case recordsDone =>
      intro record hRecord hRecordDone
      rw [show (held.pend (batchId messages)).records = s.records from hRecords] at hRecord
      rw [Taken, show (held.pend (batchId messages)).acknowledged = _ from hAcknowledged,
        show (held.pend (batchId messages)).stateOf record.batchId = _ from hState _]
      rcases h.tables.recordsDone record hRecord hRecordDone with hKnown | ⟨hUnknown, hTaken⟩
      · exact .inl ((hDone record.batchId).mpr hKnown)
      · have hSame : record.batchId ≠ batchId messages := fun hSame => hNot (hSame ▸ hTaken)
        rw [if_neg hSame]
        exact .inr ⟨hUnknown, hTaken⟩
    case replayed =>
      rw [show (held.pend (batchId messages)).records = s.records from hRecords]
      simp only [Taken, show (held.pend (batchId messages)).acknowledged = _ from hAcknowledged]
      exact h.tables.replayed
    case mirror =>
      rw [show (held.pend (batchId messages)).history = _ from hHistory,
        show (held.pend (batchId messages)).records = s.records from hRecords]
      intro other state hRecorded
      rcases mem_append.mp hRecorded with hRecorded | hRecorded
      · exact h.tables.mirror other state hRecorded
      · exact nomatch mem_singleton.mp hRecorded
    case received =>
      rw [show (held.pend (batchId messages)).history = _ from hHistory]
      intro other hReceived
      rw [hMem, hPending]
      rcases mem_append.mp hReceived with hReceived | hReceived
      · exact (h.tables.received other hReceived).imp (mem_append_left _) Or.inl
      · exact .inr (.inr (Happening.received.inj (mem_singleton.mp hReceived)))
  · have hTurns : Turns held := by
      constructor
      case settled =>
        rw [hHistory]
        exact fun other hOtherDone => (h.turns.settled other ((hDone other).mp hOtherDone)).append _
      case records =>
        rw [hHistory, hRecords]
        exact fun record hRecord hRecordDone => (h.turns.records record hRecord hRecordDone).append _
      case calls =>
        rw [← hHeld]
        intro call hCall
        have hOld := (hDone call.batchId).mpr (h.turns.calls call hCall)
        rwa [← hHeld] at hOld
      case timers =>
        rw [← hHeld]
        intro other hTimer
        have hOld := (hDone other).mpr (h.turns.timers other hTimer)
        rwa [← hHeld] at hOld
      case active =>
        rw [hActive, hHistory]
        intro other hOtherActive
        obtain ⟨⟨state, hOtherState, hOpen⟩, hHanded⟩ := h.turns.active other hOtherActive
        refine ⟨⟨state, ?_, hOpen⟩, hHanded.append hCalm⟩
        rw [hState, if_neg (hOther other (by rw [hOtherState]; exact some_ne_none _))]
        exact hOtherState
      case running =>
        rw [← hHeld]
        exact fun other hOtherActive hRunning => (h.turns.running other hOtherActive hRunning).append hCalm
      case succeeded =>
        rw [← hHeld]
        intro other outcome hOtherActive hSucceeded
        obtain ⟨hLast, hBegan, hPhase⟩ := h.turns.succeeded other outcome hOtherActive hSucceeded
        exact ⟨hLast, hBegan.append hCalm, hPhase⟩
      case ceiling =>
        rw [show held.temporaryCeiling = s.temporaryCeiling by rw [← hHeld], h.turns.ceiling, State.activeCeiling,
          State.activeCeiling, hActive]
        cases hOtherActive : s.active with
        | none => rfl
        | some other =>
          obtain ⟨⟨state, hOtherState, _⟩, _⟩ := h.turns.active other hOtherActive
          have hNe := hOther other (by rw [hOtherState]; exact some_ne_none _)
          rw [bind_some, bind_some, hLookup, if_neg hNe]
      case quiet =>
        rw [hActive, hHistory]
        exact fun hOff => (h.turns.quiet hOff).append fun other hHanded => nomatch mem_singleton.mp hHanded
      case lawful =>
        rw [hHistory]
        exact h.turns.lawful.snoc trivial
    exact { hTurns with }

/-! Turns of the agent. -/

theorem Inv.began (h : Inv s) (hPhase : s.phase = .idle) :
    Inv (({ s with phase := .running, lastEnd := none } : State).happened .began) := by
  have hTables : Tables { s with phase := .running, lastEnd := none } := { h.tables with }
  refine ⟨hTables.happened (fun _ => nofun) (fun _ _ => nofun), ?_⟩
  have hCalm : Calm [Happening.began] := by simp [Calm]
  exact { h.turns with
    settled := fun id hDone => (h.turns.settled id hDone).append _
    records := fun record hRecord hDone => (h.turns.records record hRecord hDone).append _
    active := fun id hActive => ⟨(h.turns.active id hActive).1, (h.turns.active id hActive).2.append hCalm⟩
    running := fun id hActive _ => (h.turns.active id hActive).2.began
    succeeded := fun id outcome hActive hSucceeded =>
      absurd hPhase (h.turns.succeeded id outcome hActive hSucceeded).2.2
    quiet := fun hActive => (h.turns.quiet hActive).append fun id hMem => nomatch mem_singleton.mp hMem
    lawful := h.turns.lawful.snoc trivial }

theorem Inv.ended (h : Inv s) (hPhase : s.phase = .running) (outcome : Bool) :
    Inv { s with
      lastEnd := some outcome
      activeSucceeded := if s.active = none then s.activeSucceeded else some outcome } := by
  refine ⟨{ h.tables with }, { h.turns with succeeded := ?_ }⟩
  intro id found hActive hSucceeded
  have hSome : s.active = some id := hActive
  have hFound : (if s.active = none then s.activeSucceeded else some outcome) = some found := hSucceeded
  rw [if_neg (by rw [hSome]; exact some_ne_none id)] at hFound
  exact ⟨hFound, h.turns.running id hSome hPhase, by rw [hPhase]; decide⟩

theorem Inv.freed (h : Inv s) (succeeded : Bool) {active : Option BatchId} {ceiling : Option Ceiling}
    (hActive : active = none) (hCeiling : ceiling = none) :
    Inv { ({ s with phase := .idle } : State).happened (.settled succeeded) with
      active := active, temporaryCeiling := ceiling } := by
  subst hActive hCeiling
  have hTables : Tables { s with phase := .idle } := { h.tables with }
  have hSettled := @Tables.happened _ hTables (.settled succeeded) (fun _ => nofun) (fun _ _ => nofun)
  refine ⟨{ hSettled with }, ?_⟩
  have hQuiet : Quiet (s.history ++ [.settled succeeded]) :=
    quiet_snoc (fun hCalm => hCalm.2 succeeded (mem_singleton_self _)) fun id => nofun
  constructor
  case settled => exact fun id hDone => (h.turns.settled id hDone).append _
  case records => exact fun record hRecord hDone => (h.turns.records record hRecord hDone).append _
  case calls => exact h.turns.calls
  case timers => exact h.turns.timers
  case active => exact fun id hActive => nomatch hActive
  case running => exact fun id hActive => nomatch hActive
  case succeeded => exact fun id outcome hActive => nomatch hActive
  case ceiling => rfl
  case quiet => exact fun _ => hQuiet
  case lawful => exact h.turns.lawful.snoc trivial

theorem Inv.settleHandled (h : Inv s) {id : BatchId} {batch : DeliveryBatch}
    (hBatch : s.batches.lookup id = some batch) (hFits : Fits s id .handled) :
    Inv ((s.appendDelivery id .handled .ok).acknowledge id true) :=
  (h.append hBatch hFits nofun .ok).acknowledge (done_appendDelivery hBatch .handled rfl .ok) true

theorem Inv.agentSettled {next : State} (h : Inv s) {append : Append}
    (hStep : step s (.agentSettled append) = some next) : Inv next := by
  simp only [step] at hStep
  by_cases hPhase : s.phase = .settling
  · rw [if_pos hPhase] at hStep
    cases hActive : s.active with
    | none =>
      have hCeiling := h.turns.ceiling
      rw [State.activeCeiling, hActive, bind_none] at hCeiling
      have hFreed := @Inv.freed s h (s.lastEnd = some true) none s.temporaryCeiling rfl hCeiling
      simp only [hActive] at hStep
      obtain rfl := some.inj hStep
      exact ⟨{ hFreed.tables with }, { hFreed.turns with }⟩
    | some id =>
      have hFreed := @Inv.freed s h (s.lastEnd = some true) none none rfl rfl
      obtain ⟨⟨state, hState, hOpen⟩, _⟩ := h.turns.active id hActive
      obtain ⟨batch, hBatch, _⟩ := State.lookup_of_stateOf s id hState
      simp only [hActive] at hStep
      by_cases hSucceeded : s.activeSucceeded = some true
      · rw [if_pos hSucceeded] at hStep
        obtain ⟨hLast, hBegan, _⟩ := h.turns.succeeded id true hActive hSucceeded
        have hFits : Fits { ({ s with phase := .idle } : State).happened (.settled (s.lastEnd = some true)) with
            active := none, temporaryCeiling := none } id .handled := by
          refine .inr ⟨rfl, ?_, nofun⟩
          have hSettled := hBegan.settled
          rw [← decide_eq_true hLast] at hSettled
          exact hSettled
        have hNoted := fun append => hFreed.append hBatch hFits nofun append
        cases append with
        | ok =>
          obtain rfl := some.inj hStep
          exact hFreed.settleHandled hBatch hFits
        | threw added =>
          obtain rfl := some.inj hStep
          exact hNoted (.threw added)
      · rw [if_neg hSucceeded] at hStep
        have hFits : Fits { ({ s with phase := .idle } : State).happened (.settled (s.lastEnd = some true)) with
            active := none, temporaryCeiling := none } id .failed := .inl ⟨rfl, state, hState, hOpen⟩
        have hNoted := fun append => hFreed.append hBatch hFits nofun append
        cases append with
        | ok =>
          obtain rfl := some.inj hStep
          refine ⟨{ (hNoted .ok).tables with }, { (hNoted .ok).turns with succeeded := ?_ }⟩
          exact fun _ _ _ hSome => nomatch hSome
        | threw added =>
          obtain rfl := some.inj hStep
          exact hNoted (.threw added)
  · rw [if_neg hPhase] at hStep
    exact nomatch hStep

variable (records : List DeliveryRecord)

/-- What is replayed of a batch is its last entry, unless it was acknowledged. -/
theorem replay_cases (id : BatchId) :
    (∀ batch, (State.replay records).lookup id = some batch →
      ∃ record ∈ records, record.batchId = id ∧ record.batch = batch ∧ batch.state ≠ .acknowledged) ∧
    ((State.replay records).lookup id = none → ∀ record ∈ records, record.batchId = id →
      ∃ last ∈ records, last.batchId = id ∧ last.batch.state = .acknowledged) := by
  induction records using reverseRecOn with
  | nil => exact ⟨fun batch hBatch => (nomatch hBatch), fun _ record hRecord => (nomatch hRecord)⟩
  | append_singleton rest last ih =>
    rw [State.replay_append]
    by_cases hSame : id = last.batchId
    · rw [if_pos hSame]
      by_cases hState : last.batch.state = .acknowledged
      · rw [if_pos hState]
        refine ⟨nofun, fun _ _ _ _ => ⟨last, mem_append_right _ (mem_singleton_self _), hSame.symm, hState⟩⟩
      · rw [if_neg hState]
        refine ⟨fun batch hBatch => ?_, nofun⟩
        obtain rfl := some.inj hBatch
        exact ⟨last, mem_append_right _ (mem_singleton_self _), hSame.symm, rfl, hState⟩
    · rw [if_neg hSame]
      constructor
      · intro batch hBatch
        obtain ⟨record, hRecord, hMatch⟩ := ih.1 batch hBatch
        exact ⟨record, mem_append_left _ hRecord, hMatch⟩
      · intro hNone record hRecord hId
        rcases mem_append.mp hRecord with hRecord | hRecord
        · obtain ⟨found, hFound, hMatch⟩ := ih.2 hNone record hRecord hId
          exact ⟨found, mem_append_left _ hFound, hMatch⟩
        · obtain rfl := mem_singleton.mp hRecord
          exact absurd hId.symm hSame

theorem nodup_replay : ((State.replay records).map Prod.fst).Nodup := by
  induction records using reverseRecOn with
  | nil => exact nodup_nil
  | append_singleton rest last ih =>
    rw [State.replay, foldl_append, foldl_cons, foldl_nil, ← State.replay]
    split_ifs
    · exact nodup_keys_erase _ _ ih
    · exact nodup_keys_set _ _ _ ih

theorem mem_replay_keys (id : BatchId) :
    id ∈ (State.replay records).map Prod.fst ↔ (State.replay records).lookup id ≠ none := by
  rw [ne_eq, OrderedMap.lookup_eq_none_iff, not_not]

theorem Inv.restart (h : Inv s) (hRecorded : ∀ id ∈ s.pending, ∃ record ∈ s.records, record.batchId = id) : Inv s.restart := by
  have hReplay := replay_cases s.records
  have hDone : ∀ id batch, (State.replay s.records).lookup id = some batch → batch.state.done = true →
      Settled s.history id := by
    intro id batch hBatch hBatchDone
    obtain ⟨record, hRecord, rfl, rfl, _⟩ := (hReplay id).1 batch hBatch
    exact h.turns.records record hRecord hBatchDone
  have hHandled : ∀ entry ∈ (State.replay s.records).filter fun entry => entry.2.state = .handled,
      (State.replay s.records).lookup entry.1 = some entry.2 ∧ entry.2.state.done = true := by
    intro entry hEntry
    obtain ⟨hMem, hState⟩ := mem_filter.mp hEntry
    refine ⟨(lookup_eq_some_iff (nodup_replay s.records) _ _).mpr hMem, ?_⟩
    rw [of_decide_eq_true hState]
    rfl
  have hNotRecorded : ∀ happening, (∀ id messages, happening ≠ Happening.sent id messages) → happening ≠ .restarted →
      happening ∈ s.restart.history → happening ∈ s.history := by
    intro happening hSent hRestarted hMem
    rcases mem_append.mp hMem with hMem | hMem
    · exact hMem
    · rcases mem_cons.mp hMem with hMem | hMem
      · exact absurd hMem hRestarted
      · obtain ⟨entry, _, rfl⟩ := mem_map.mp hMem
        exact absurd rfl (hSent _ _)
  constructor
  · constructor
    case ids =>
      intro id batch hBatch
      obtain ⟨record, hRecord, rfl, rfl, _⟩ := (hReplay id).1 batch hBatch
      exact h.tables.recordIds record hRecord
    case recordIds => exact h.tables.recordIds
    case pending =>
      intro id hId
      obtain ⟨batch, hBatch⟩ := Option.ne_none_iff_exists'.mp ((mem_replay_keys s.records id).mp hId)
      rw [State.stateOf_eq s.restart id hBatch]
      exact some_ne_none _
    case known =>
      intro id hKnown
      left
      apply (mem_replay_keys s.records id).mpr
      intro hNone
      exact hKnown (by rw [State.stateOf, show s.restart.batches.lookup id = none from hNone]; rfl)
    case checking => exact fun hOn => nomatch hOn
    case acknowledged =>
      intro id hState
      obtain ⟨batch, hBatch, hAcknowledged⟩ := State.lookup_of_stateOf s.restart id hState
      obtain ⟨_, _, _, _, hNot⟩ := (hReplay id).1 batch hBatch
      exact absurd hAcknowledged hNot
    case recordsTaken =>
      intro record hRecord hState
      obtain ⟨hTaken, hConfirmed⟩ := h.tables.recordsTaken record hRecord hState
      exact ⟨hTaken, mem_append_left _ hConfirmed⟩
    case recordsDone =>
      intro record hRecord hRecordDone
      rcases h.tables.replayed record hRecord hRecordDone with ⟨batch, hBatch, hBatchDone⟩ | ⟨hNone, hTaken⟩
      · exact .inl ⟨batch.state, State.stateOf_eq s.restart record.batchId hBatch, hBatchDone⟩
      · refine .inr ⟨?_, hTaken⟩
        rw [State.stateOf, show s.restart.batches.lookup record.batchId = none from hNone]
        rfl
    case replayed => exact h.tables.replayed
    case mirror =>
      intro id state hMem
      exact h.tables.mirror id state (hNotRecorded _ (fun _ _ => nofun) nofun hMem)
    case received =>
      intro id hMem
      rcases h.tables.received id (hNotRecorded _ (fun _ _ => nofun) nofun hMem) with hConfirmed | hPending
      · exact .inl (mem_append_left _ hConfirmed)
      · obtain ⟨record, hRecord, hId⟩ := hRecorded id hPending
        cases hFound : (State.replay s.records).lookup id with
        | none =>
          obtain ⟨last, hLast, rfl, hState⟩ := (hReplay id).2 hFound record hRecord hId
          exact .inl (mem_append_left _ (h.tables.recordsTaken last hLast hState).2)
        | some batch =>
          right
          apply (mem_replay_keys s.records id).mpr
          rw [hFound]
          exact some_ne_none batch
  · have hQuiet : Quiet (s.history ++ [.restarted]) :=
      quiet_snoc (fun hCalm => hCalm.1 (mem_singleton_self _)) fun id => nofun
    constructor
    case settled =>
      rintro id ⟨state, hState, hStateDone⟩
      obtain ⟨batch, hBatch, rfl⟩ := State.lookup_of_stateOf s.restart id hState
      exact (hDone id batch hBatch hStateDone).append _
    case records => exact fun record hRecord hRecordDone => (h.turns.records record hRecord hRecordDone).append _
    case calls =>
      intro call hCall
      obtain ⟨entry, hEntry, rfl⟩ := mem_map.mp hCall
      obtain ⟨hBatch, hEntryDone⟩ := hHandled entry hEntry
      exact ⟨entry.2.state, State.stateOf_eq s.restart entry.1 hBatch, hEntryDone⟩
    case timers => exact fun id hTimer => nomatch hTimer
    case active => exact fun id hActive => nomatch hActive
    case running => exact fun id hActive => nomatch hActive
    case succeeded => exact fun id outcome hActive => nomatch hActive
    case ceiling => rfl
    case quiet =>
      intro _
      rw [State.restart, append_cons]
      apply hQuiet.append
      intro id hMem
      obtain ⟨entry, _, hEntry⟩ := mem_map.mp hMem
      exact nomatch hEntry
    case lawful =>
      have hRestarted : Admits s.history .restarted := trivial
      rw [State.restart, append_cons]
      apply (h.turns.lawful.snoc hRestarted).append
      intro entry hEntry between
      obtain ⟨found, hFound, rfl⟩ := mem_map.mp hEntry
      obtain ⟨hBatch, hFoundDone⟩ := hHandled found hFound
      rw [append_assoc]
      exact (hDone found.1 found.2 hBatch hFoundDone).append _

/-- Where a step would dispatch a batch, adding its entry and sending its prompt
do not throw; and a process is started only when every pending batch has an
entry to be replayed from. -/
def Meets (s : State) : Event → Prop
  | .inboxReply _ _ sending => sending.append = .ok ∧ sending.sent = true
  | .retryCommand _ sending => sending.append = .ok ∧ sending.sent = true
  | .scheduledDispatch sending => sending.append = .ok ∧ sending.sent = true
  | .restart => ∀ id ∈ s.pending, ∃ record ∈ s.records, record.batchId = id
  | _ => True

theorem inv_initial : Inv initial := by
  constructor
  · constructor <;> simp [initial, State.stateOf, State.replay]
  · constructor
    case settled =>
      rintro id ⟨state, hState, _⟩
      exact nomatch hState
    case ceiling => rfl
    case quiet =>
      intro _ before id after hSplit
      simp [initial] at hSplit
    case lawful => exact Trace.lawful_nil Admits
    all_goals simp [initial]

theorem Inv.step {next : State} {event : Event} (h : Inv s) (hMeets : Meets s event)
    (hStep : PublicInbox.step s event = some next) : Inv next := by
  cases event with
  | checkInbox =>
    simp only [PublicInbox.step] at hStep
    split_ifs at hStep with hGuard
    obtain rfl := some.inj hStep
    have hTaken : ∀ id ∈ s.pending, Taken s id :=
      fun id hId => h.tables.acknowledged id (hGuard.2.2.2 id hId)
    exact ⟨{ h.tables with checking := fun _ => hTaken }, { h.turns with }⟩
  | inboxReply messages append sending =>
    simp only [PublicInbox.step] at hStep
    split_ifs at hStep with hGuard hNone
    · obtain rfl := some.inj hStep
      exact ⟨{ h.tables with checking := fun hOn => (nomatch hOn) }, { h.turns with }⟩
    · have hHeld := h.receive hGuard.1 hNone hGuard.2 (parsePermissionCeiling messages)
      have hBatch : (set s.batches (batchId messages)
          ⟨.received, messages, parsePermissionCeiling messages⟩).lookup (batchId messages) =
          some ⟨.received, messages, parsePermissionCeiling messages⟩ := by
        rw [lookup_set, if_pos rfl]
      have hNoted := fun append => @Inv.reopen _ hHeld _ _ hBatch rfl .received rfl append
      cases append with
      | ok =>
        obtain rfl := some.inj hStep
        exact (hNoted .ok).dispatchNext hMeets.1 hMeets.2
      | threw added =>
        obtain rfl := some.inj hStep
        exact hNoted (.threw added)
  | inboxFailed =>
    simp only [PublicInbox.step] at hStep
    split_ifs at hStep with hGuard
    obtain rfl := some.inj hStep
    exact ⟨{ h.tables with checking := fun hOn => (nomatch hOn) }, { h.turns with }⟩
  | retryCommand append sending =>
    simp only [PublicInbox.step] at hStep
    split at hStep
    next id hFound =>
      have hState : s.stateOf id = some .failed ∨ s.stateOf id = some .processing := by
        simpa using find?_some hFound
      have hOpen : ∃ batch, s.batches.lookup id = some batch ∧ batch.state.done = false := by
        rcases hState with hState | hState
        · obtain ⟨batch, hBatch, hFailed⟩ := State.lookup_of_stateOf s id hState
          exact ⟨batch, hBatch, by rw [hFailed]; rfl⟩
        · obtain ⟨batch, hBatch, hProcessing⟩ := State.lookup_of_stateOf s id hState
          exact ⟨batch, hBatch, by rw [hProcessing]; rfl⟩
      obtain ⟨batch, hBatch, hNotDone⟩ := hOpen
      cases append with
      | ok =>
        obtain rfl := some.inj hStep
        exact (h.reopen hBatch hNotDone rfl .ok).dispatchNext hMeets.1 hMeets.2
      | threw added =>
        obtain rfl := some.inj hStep
        exact h.reopen hBatch hNotDone rfl (.threw added)
    · obtain rfl := some.inj hStep
      exact h
  | scheduledDispatch sending =>
    simp only [PublicInbox.step] at hStep
    split_ifs at hStep with hGuard
    obtain rfl := some.inj hStep
    have hLess : Inv { s with scheduled := s.scheduled - 1 } := ⟨{ h.tables with }, { h.turns with }⟩
    exact hLess.dispatchNext hMeets.1 hMeets.2
  | agentStart =>
    simp only [PublicInbox.step] at hStep
    split_ifs at hStep with hGuard
    obtain rfl := some.inj hStep
    exact h.began hGuard
  | agentEnd messages =>
    simp only [PublicInbox.step] at hStep
    by_cases hGuard : s.phase = .running
    · rw [if_pos hGuard] at hStep
      obtain rfl := some.inj hStep
      exact h.ended hGuard _
    · rw [if_neg hGuard] at hStep
      exact nomatch hStep
  | runOver =>
    simp only [PublicInbox.step] at hStep
    split_ifs at hStep with hGuard
    obtain rfl := some.inj hStep
    refine ⟨{ h.tables with }, { h.turns with running := fun _ _ hRunning => (nomatch hRunning), succeeded := ?_ }⟩
    intro id outcome hActive hSucceeded
    obtain ⟨hLast, hBegan, _⟩ := h.turns.succeeded id outcome hActive hSucceeded
    exact ⟨hLast, hBegan, nofun⟩
  | agentSettled append => exact h.agentSettled hStep
  | settledResumes =>
    simp only [PublicInbox.step] at hStep
    split_ifs at hStep with hGuard
    obtain rfl := some.inj hStep
    exact ⟨{ h.tables with }, { h.turns with succeeded := fun _ _ _ hSome => (nomatch hSome) }⟩
  | busAcknowledges messageIds =>
    simp only [PublicInbox.step] at hStep
    split_ifs at hStep with hGuard
    obtain rfl := some.inj hStep
    have hMore : ∀ id, Taken s id → Taken { s with acknowledged := s.acknowledged ++ messageIds } id :=
      fun id hTaken message hMessage => mem_append_left _ (hTaken message hMessage)
    refine ⟨{ h.tables with
      known := fun id hKnown => (h.tables.known id hKnown).imp_right (hMore id)
      checking := fun hOn id hId => hMore id (h.tables.checking hOn id hId)
      acknowledged := fun id hState => hMore id (h.tables.acknowledged id hState)
      recordsTaken := fun record hRecord hState =>
        ⟨hMore _ (h.tables.recordsTaken record hRecord hState).1, (h.tables.recordsTaken record hRecord hState).2⟩
      recordsDone := fun record hRecord hDone =>
        (h.tables.recordsDone record hRecord hDone).imp_right fun hGone => ⟨hGone.1, hMore _ hGone.2⟩
      replayed := fun record hRecord hDone =>
        (h.tables.replayed record hRecord hDone).imp_right fun hGone => ⟨hGone.1, hMore _ hGone.2⟩ },
      { h.turns with }⟩
  | acknowledgeReply index succeeded append again =>
    simp only [PublicInbox.step] at hStep
    split at hStep
    next call hCall =>
      have hDone := h.turns.calls call (mem_of_getElem? hCall)
      have hEnded : Inv { s with calls := s.calls.eraseIdx index } :=
        ⟨{ h.tables with },
          { h.turns with calls := fun other hOther => h.turns.calls other (mem_of_mem_eraseIdx hOther) }⟩
      by_cases hSucceeded : succeeded = true
      · rw [if_pos hSucceeded] at hStep
        by_cases hTaken : ∀ id ∈ call.batchId, id ∈ s.acknowledged
        · rw [if_pos hTaken] at hStep
          obtain rfl := some.inj hStep
          have hAdmits : Admits s.history (.confirmed call.batchId) := trivial
          have hConfirmed : Inv (({ s with calls := s.calls.eraseIdx index } : State).happened (.confirmed call.batchId)) :=
            ⟨hEnded.tables.happened (fun _ => nofun) (fun _ _ => nofun),
              hEnded.turns.happened (by simp [Calm]) (fun _ => nofun) hAdmits⟩
          exact hConfirmed.acknowledgeDone hDone hTaken (mem_append_right _ (mem_singleton_self _)) append again
        · rw [if_neg hTaken] at hStep
          exact nomatch hStep
      · rw [if_neg hSucceeded] at hStep
        obtain rfl := some.inj hStep
        exact hEnded.acknowledgeFailed hDone again
    · exact nomatch hStep
  | retryTimer index =>
    simp only [PublicInbox.step] at hStep
    split at hStep
    next id hTimer =>
      obtain rfl := some.inj hStep
      have hDone := h.turns.timers id (mem_of_getElem? hTimer)
      have hFired : Inv { s with timers := s.timers.eraseIdx index } :=
        ⟨{ h.tables with },
          { h.turns with timers := fun other hOther => h.turns.timers other (mem_of_mem_eraseIdx hOther) }⟩
      exact hFired.acknowledge hDone false
    · exact nomatch hStep
  | restart =>
    obtain rfl := some.inj hStep
    exact h.restart hMeets

/-- What the inbox promises: every acknowledgement is sent after a run that began
after the batch was handed over settled successfully, a batch is handed over
while no other is active and not after it was recorded as handled or
acknowledged; what was received is pending until the bus confirmed it; and the
temporary ceiling is that of the active batch. -/
structure Orderly (s : State) : Prop where
  lawful : Trace.Lawful Admits s.history
  pending : ∀ id, .received id ∈ s.history → .confirmed id ∈ s.history ∨ id ∈ s.pending
  idle : s.active = none → s.temporaryCeiling = none
  active : ∀ id, s.active = some id →
    ∃ batch, s.batches.lookup id = some batch ∧ s.temporaryCeiling = some batch.permissionCeiling

theorem Inv.orderly (h : Inv s) : Orderly s := by
  constructor
  case lawful => exact h.turns.lawful
  case pending => exact h.tables.received
  case idle =>
    intro hActive
    rw [h.turns.ceiling, State.activeCeiling, hActive, bind_none]
  case active =>
    intro id hActive
    obtain ⟨⟨state, hState, _⟩, _⟩ := h.turns.active id hActive
    obtain ⟨batch, hBatch, _⟩ := State.lookup_of_stateOf s id hState
    refine ⟨batch, hBatch, ?_⟩
    rw [h.turns.ceiling, State.activeCeiling, hActive, bind_some, hBatch, map_some]

theorem Orderly.handed (h : Orderly s) {id : BatchId} {messageIds : List JsString}
    (hSent : .sent id messageIds ∈ s.history) : .handed id ∈ s.history := by
  obtain ⟨before, after, hSplit⟩ := append_of_mem hSent
  obtain ⟨earlier, between, run, later, hBefore, _⟩ := h.lawful before _ after hSplit
  rw [hSplit, hBefore]
  simp

end OctoberHarness.Bus.PublicInbox
