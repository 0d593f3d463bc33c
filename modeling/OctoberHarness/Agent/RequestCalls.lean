import OctoberHarness.Agent.Calls
import OctoberHarness.Agent.Requests

/-! The messages and the tool calls of a run, as the history of the run tells of them. -/
namespace OctoberHarness.Agent

open List Effects
open Effects.Program (perform loop all)

variable {base : AgentContext} {stage : Stage} {w v : Run}

/-- Anything may be thrown at any time. -/
def Thrown (_ : JsString) (_ : Run) : Prop :=
  True

/-! Operations that a history does not tell of. -/

def Silent : {α : Type} → Op α → Prop
  | _, .emit event => event.isQuiet = true
  | _, .streamFunction _ _ _ => False
  | _, .nextEvent => False
  | _, .result => False
  | _, .execute _ _ _ => False
  | _, _ => True

/-- The history tells the same of the run. -/
structure Keeps (base : AgentContext) (w v : Run) : Prop where
  told : ∀ stage, Told base stage w → Told base stage v
  ended : v.ended = w.ended
  outcomes : v.outcomes = w.outcomes
  aborted : w.aborted = true → v.aborted = true
  started : v.started = w.started

theorem Keeps.waits (hWaits : Waits w v) : Keeps base w v where
  told _ h := h.waits hWaits
  ended := by rcases hWaits with rfl | rfl <;> rfl
  outcomes := outcomes_waits hWaits
  aborted hAborted := by
    rcases hWaits with rfl | rfl
    · exact hAborted
    · rfl
  started := by rcases hWaits with rfl | rfl <;> rfl

theorem Keeps.trans {u : Run} (hFirst : Keeps base w v) (hSecond : Keeps base v u) : Keeps base w u where
  told stage h := hSecond.told stage (hFirst.told stage h)
  ended := hSecond.ended.trans hFirst.ended
  outcomes := hSecond.outcomes.trans hFirst.outcomes
  aborted hAborted := hSecond.aborted (hFirst.aborted hAborted)
  started := hSecond.started.trans hFirst.started

theorem Keeps.quiet {event : AgentEvent} (hQuiet : event.isQuiet = true) (w : Run) : Keeps base w (w.log event) where
  told _ h := (h.quiet hQuiet).1
  ended := by
    rw [ended_log]
    cases event <;> first | exact append_nil _ | exact nomatch hQuiet
  outcomes := by
    rw [outcomes_log]
    cases event <;> first | exact append_nil _ | exact nomatch hQuiet
  aborted hAborted := hAborted
  started := rfl

variable {α : Type}

theorem keeps_of_silent {o : Op α} {answer : Except JsString α} (hSilent : Silent o)
    (hAnswer : collaborators o w answer v) : Keeps base w v := by
  cases o with
  | emit event => exact (Keeps.quiet hSilent w).trans (.waits hAnswer)
  | prepareNextTurn turn => exact .waits hAnswer.1
  | prepareRequest context config => exact .waits hAnswer.1
  | aborted => exact .waits hAnswer.1
  | streamFunction _ _ _ => exact hSilent.elim
  | nextEvent => exact hSilent.elim
  | result => exact hSilent.elim
  | execute _ _ _ => exact hSilent.elim
  | _ => exact .waits hAnswer

theorem told_silent {o : Op α} (hSilent : Silent o) (h : Told base stage w) :
    Safe collaborators (Sound base) (fun a v => Keeps base w v ∧ collaborators o w (.ok a) v) Thrown (perform o) w := by
  apply Safe.perform ⟨stage, h⟩
  intro answer v hAnswer
  have hKeeps : Keeps base w v := keeps_of_silent hSilent hAnswer
  refine ⟨⟨stage, hKeeps.told stage h⟩, fun a hSame => ⟨hKeeps, hSame ▸ hAnswer⟩, fun _ _ => trivial⟩

/-- A message starts and ends: it is the last of the segments of a later stage. -/
theorem told_emitMessage {message : AgentMessage} {later : Stage} (h : Told base stage w) (hClosed : stage.opened = none)
    (hMessages : later.segments.flatMap Segment.messages = stage.segments.flatMap Segment.messages ++ [message])
    (hResponses : later.segments.filterMap Segment.response? ++ later.fresh.toList =
      stage.segments.filterMap Segment.response? ++ stage.fresh.toList)
    (hCut : ∀ segment ∈ later.segments, segment.Cut w.outcomes)
    (hWhole : w.aborted = false → ∀ segment ∈ later.done, segment.Whole w.outcomes) (hLater : later.opened = none) :
    Safe collaborators (Sound base) (fun _ v => Told base later v ∧ v.outcomes = w.outcomes ∧ (w.aborted = true → v.aborted = true))
      Thrown (emitMessage message) w := by
  have hStart : Safe collaborators (Sound base)
      (fun _ v => Told base { stage with opened := some message } v ∧ v.outcomes = w.outcomes ∧ (w.aborted = true → v.aborted = true))
      Thrown (emit (.messageStart message)) w := by
    apply Safe.perform ⟨stage, h⟩
    intro answer v hWaits
    have hKeeps : Keeps base (w.log (.messageStart message)) v := .waits hWaits
    have hTold := hKeeps.told _ (h.messageStart hClosed message)
    exact ⟨⟨_, hTold⟩, fun _ _ => ⟨hTold, hKeeps.outcomes.trans ((outcomes_log w _).trans (append_nil _)), hKeeps.aborted⟩,
      fun _ _ => trivial⟩
  apply hStart.andThen
  rintro _ v - ⟨hTold, hOutcomes, hAborted⟩
  apply Safe.perform ⟨_, hTold⟩
  intro answer u hWaits
  have hKeeps : Keeps base (v.log (.messageEnd message)) u := .waits hWaits
  have hEnd : Told base later u := by
    have hSame : message = message ∨ message.isAssistant = true ∧ message.isAssistant = true := .inl rfl
    apply hKeeps.told
    apply hTold.messageEnd rfl hSame hMessages hResponses
    · rw [hOutcomes]
      exact hCut
    · intro hGoing
      rw [hOutcomes]
      apply hWhole
      cases hHere : w.aborted with
      | false => rfl
      | true =>
        rw [hAborted hHere] at hGoing
        exact hGoing
    · exact hLater
  refine ⟨⟨_, hEnd⟩, fun _ _ => ⟨hEnd, ?_, fun hHere => hKeeps.aborted (hAborted hHere)⟩, fun _ _ => trivial⟩
  exact (hKeeps.outcomes.trans ((outcomes_log v _).trans (append_nil _))).trans hOutcomes

variable {done : List Segment}

theorem told_emitQueued (message : AgentMessage) (h : Told base (.rest done) w) :
    Safe collaborators (Sound base) (fun _ v => Told base (.rest (done ++ [.queued message])) v) Thrown
      (emitMessage message) w := by
  have hEmit : Safe collaborators (Sound base) (fun _ v => Told base (.rest (done ++ [.queued message])) v ∧
      v.outcomes = w.outcomes ∧ (w.aborted = true → v.aborted = true)) Thrown (emitMessage message) w := by
    apply told_emitMessage h rfl
    · rw [segments_rest, segments_rest, flatMap_append]
      rfl
    · rw [segments_rest, segments_rest, filterMap_append]
      exact congrArg (· ++ []) (append_nil _)
    · rw [segments_rest]
      intro segment hSegment
      rcases mem_append.mp hSegment with hOld | hNew
      · exact h.cut segment ((segments_rest done).symm ▸ hOld)
      · rw [mem_singleton.mp hNew]
        trivial
    · intro hGoing segment hSegment
      rcases mem_append.mp hSegment with hOld | hNew
      · exact h.whole hGoing segment hOld
      · rw [mem_singleton.mp hNew]
        trivial
    · rfl
  exact hEmit.mono (fun _ hHere => hHere) (fun _ _ _ hAfter => hAfter.1) fun _ _ _ hThrown => hThrown

theorem told_emitMessages (messages : List AgentMessage) (h : Told base (.rest done) w) :
    Safe collaborators (Sound base) (fun _ v => Told base (.rest (done ++ messages.map .queued)) v) Thrown
      (emitMessages messages) w := by
  induction messages generalizing done w with
  | nil =>
    rw [map_nil, append_nil]
    exact .ret ⟨_, h⟩ h
  | cons message rest ih =>
    apply (told_emitQueued message h).andThen
    intro _ v _ hHere
    rw [map_cons, append_cons]
    exact ih hHere

/-! The calls of a response. -/

/-- The calls of a response are running. -/
def Stage.running (done : List Segment) (response : AssistantMessage) (level : JsString) (results : List ToolResultMessage) : Stage :=
  ⟨done, some (.answered response level results), none, none⟩

variable {done : List Segment} {response : AssistantMessage} {level : JsString} {results : List ToolResultMessage}

section

variable (h : Told base (.running done response level results) w)

include h

theorem Told.responses_running :
    w.responses = done.filterMap Segment.response? ++ [response] := by
  have hHere := h.responses
  rw [Stage.segments, filterMap_append] at hHere
  exact (append_nil _ ▸ hHere).symm

theorem Told.calls_running :
    w.calls = (done.filterMap Segment.response?).flatMap AssistantMessage.toolCalls ++ response.toolCalls := by
  rw [Run.calls, h.responses_running, flatMap_append, flatMap_singleton]

theorem Told.callIds : (response.toolCalls.map ToolCall.id).Nodup := by
  have hIds := h.ids
  rw [h.calls_running, map_append] at hIds
  exact (nodup_append.mp hIds).2.1

theorem Told.earlier {toolCall : ToolCall}
    (hCall : toolCall ∈ response.toolCalls) : ∀ segment ∈ done, ∀ result ∈ segment.results, result.toolCallId ≠ toolCall.id := by
  intro segment hSegment result hResult
  obtain ⟨other, hOther, hId⟩ := (h.cut segment (mem_append_left _ hSegment)).call hResult
  have hIds := h.ids
  rw [h.calls_running, map_append, nodup_append] at hIds
  refine hIds.2.2 _ ?_ _ (mem_map_of_mem hCall)
  obtain ⟨call, hMem, hSame⟩ := mem_map.mp hId
  rw [← hSame]
  apply mem_map_of_mem
  rw [mem_flatMap]
  exact ⟨other, mem_filterMap.mpr ⟨segment, hSegment, hOther⟩, hMem⟩

end

/-- The first calls have their results, the others no outcome. -/
structure Running (base : AgentContext) (done : List Segment) (response : AssistantMessage) (level : JsString)
    (calls rest : List ToolCall) (results : List ToolResultMessage) (w : Run) : Prop where
  told : Told base (.running done response level results) w
  split : calls ++ rest = response.toolCalls
  results : List.Forall₂ (ResultOf w.outcomes) calls results
  untouched : ∀ toolCall ∈ rest, outcomesOf toolCall.id w.outcomes = []

variable {calls rest : List ToolCall} {toolCall : ToolCall}

theorem Running.keeps (h : Running base done response level calls rest results w) (hKeeps : Keeps base w v) :
    Running base done response level calls rest results v where
  told := hKeeps.told _ h.told
  split := h.split
  results := hKeeps.outcomes ▸ h.results
  untouched := hKeeps.outcomes ▸ h.untouched

/-- The result of one more call is known, and to be added. -/
structure Ending (base : AgentContext) (done : List Segment) (response : AssistantMessage) (level : JsString)
    (calls : List ToolCall) (toolCall : ToolCall) (rest : List ToolCall) (results : List ToolResultMessage)
    (result : ToolResultMessage) (w : Run) : Prop where
  told : Told base (.running done response level results) w
  split : calls ++ toolCall :: rest = response.toolCalls
  results : List.Forall₂ (ResultOf w.outcomes) (calls ++ [toolCall]) (results ++ [result])
  untouched : ∀ toolCall ∈ rest, outcomesOf toolCall.id w.outcomes = []

variable {finalized : FinalizedToolCallOutcome}

/-- A call ends. -/
theorem Running.outcome (h : Running base done response level calls (toolCall :: rest) results w)
    (hCall : finalized.toolCall = toolCall) :
    Ending base done response level calls toolCall rest results (createToolResultMessage finalized)
      (w.log (.toolExecutionEnd finalized)) := by
  subst hCall
  have hMem : finalized.toolCall ∈ response.toolCalls := by
    rw [← h.split]
    exact mem_append_right _ mem_cons_self
  have hIds := h.told.callIds
  rw [← h.split, map_append, map_cons, nodup_append, nodup_cons] at hIds
  have hOutcomes : (w.log (.toolExecutionEnd finalized)).outcomes = w.outcomes ++ [finalized] := outcomes_log w _
  have hOwn : ∀ result ∈ results, result.toolCallId ≠ finalized.toolCall.id := by
    intro result hResult
    have hKnown : result.toolCallId ∈ calls.map ToolCall.id := results_ids h.results ▸ mem_map_of_mem hResult
    exact hIds.2.2 _ hKnown _ mem_cons_self
  refine ⟨?_, h.split, ?_, ?_⟩
  · apply h.told.outcome
    · rw [h.told.calls_running]
      exact mem_append_right _ hMem
    · intro segment hSegment
      rcases mem_append.mp hSegment with hOld | hNew
      · exact h.told.earlier hMem segment hOld
      · rw [Option.mem_toList.mp hNew |> Option.some.inj |>.symm]
        exact hOwn
  · rw [hOutcomes]
    apply rel_append (results_append h.results hOwn)
    exact .cons ⟨finalized, rfl, by rw [outcomesOf_append_self, h.untouched _ mem_cons_self, nil_append], rfl⟩ .nil
  · intro other hOther
    rw [hOutcomes, outcomesOf_append_ne, h.untouched other (mem_cons_of_mem _ hOther)]
    intro hSame
    exact hIds.2.1.1 (hSame ▸ mem_map_of_mem hOther)

variable {result : ToolResultMessage}

theorem Ending.keeps (h : Ending base done response level calls toolCall rest results result w)
    (hKeeps : Keeps base w v) : Ending base done response level calls toolCall rest results result v where
  told := hKeeps.told _ h.told
  split := h.split
  results := hKeeps.outcomes ▸ h.results
  untouched := hKeeps.outcomes ▸ h.untouched

theorem told_endCall (h : Running base done response level calls (toolCall :: rest) results w)
    (hCall : finalized.toolCall = toolCall) :
    Safe collaborators (Sound base)
      (fun _ v => Ending base done response level calls toolCall rest results (createToolResultMessage finalized) v) Thrown
      (emit (.toolExecutionEnd finalized)) w := by
  apply Safe.perform ⟨_, h.told⟩
  intro answer v hWaits
  have hEnding := (h.outcome hCall).keeps (.waits hWaits)
  exact ⟨⟨_, hEnding.told⟩, fun _ _ => hEnding, fun _ _ => trivial⟩

theorem told_emitResult (h : Told base (.running done response level results) w)
    (hCalls : calls <+: response.toolCalls) (hResults : List.Forall₂ (ResultOf w.outcomes) calls (results ++ [result])) :
    Safe collaborators (Sound base)
      (fun _ v => Told base (.running done response level (results ++ [result])) v ∧ v.outcomes = w.outcomes ∧
        (w.aborted = true → v.aborted = true)) Thrown
      (emitMessage (.ofToolResult result)) w := by
  apply told_emitMessage h rfl
  · show (done ++ [_]).flatMap Segment.messages = (done ++ [_]).flatMap Segment.messages ++ [_]
    rw [flatMap_append, flatMap_append, append_assoc]
    apply congrArg (done.flatMap Segment.messages ++ ·)
    rw [flatMap_singleton, flatMap_singleton, Segment.messages, Segment.messages, map_append]
    rfl
  · show (done ++ [_]).filterMap Segment.response? ++ _ = (done ++ [_]).filterMap Segment.response? ++ _
    rw [filterMap_append, filterMap_append]
    rfl
  · intro segment hSegment
    rcases mem_append.mp hSegment with hOld | hNew
    · exact h.cut segment (mem_append_left _ hOld)
    · rw [← Option.some.inj (Option.mem_toList.mp hNew)]
      exact ⟨calls, hCalls, hResults⟩
  · exact h.whole
  · rfl

theorem told_emitEnding (h : Ending base done response level calls toolCall rest results result w) :
    Safe collaborators (Sound base)
      (fun _ v => Running base done response level (calls ++ [toolCall]) rest (results ++ [result]) v) Thrown
      (emitMessage (.ofToolResult result)) w := by
  have hSplit : (calls ++ [toolCall]) ++ rest = response.toolCalls := by
    rw [append_assoc]
    exact h.split
  apply (told_emitResult h.told ⟨rest, hSplit⟩ h.results).mono (fun _ hHere => hHere) ?_ fun _ _ _ hThrown => hThrown
  rintro _ v - ⟨hTold, hOutcomes, -⟩
  exact ⟨hTold, hSplit, hOutcomes ▸ h.results, hOutcomes ▸ h.untouched⟩

/-- The calls of a response ran: all of them, or the first ones before an abort. -/
structure Ran (base : AgentContext) (done : List Segment) (response : AssistantMessage) (level : JsString)
    (results : List ToolResultMessage) (w : Run) : Prop where
  told : Told base (.running done response level results) w
  whole : w.aborted = false → (Segment.answered response level results).Whole w.outcomes

theorem Running.ran (h : Running base done response level calls [] results w) : Ran base done response level results w where
  told := h.told
  whole _ := by
    have hSplit := h.split
    rw [append_nil] at hSplit
    show List.Forall₂ _ response.toolCalls results
    exact hSplit ▸ h.results

/-! The calls of a truncated response. -/

theorem told_truncated (h : Running base done response level calls rest results w) :
    Safe collaborators (Sound base) (fun messages v => Ran base done response level (results ++ messages) v) Thrown
      (failToolCallsFromTruncatedMessage rest) w := by
  induction rest generalizing calls results w with
  | nil =>
    apply Safe.ret ⟨_, h.told⟩
    rw [append_nil]
    exact h.ran
  | cons toolCall rest ih =>
    have hStart : Silent (.emit (.toolExecutionStart toolCall)) := rfl
    apply (told_silent hStart h.told).andThen
    rintro _ v - ⟨hKeeps, -⟩
    apply (told_endCall (h.keeps hKeeps) rfl).andThen
    intro _ u _ hEnding
    apply (told_emitEnding hEnding).andThen
    intro _ x _ hRunning
    apply (ih hRunning).andThen
    intro messages y hSound hRan
    apply Safe.ret hSound
    rw [append_assoc] at hRan
    exact hRan

/-! Calls that run. -/

theorem Told.works {o : Op α} {answer : Except JsString α} (h : Told base (.running done response level results) w)
    (hStop : response.stopReason ≠ .length) (hCall : toolCall ∈ response.toolCalls) (hWorks : Works toolCall o)
    (hAnswer : collaborators o w answer v) :
    Told base (.running done response level results) v ∧ v.outcomes = w.outcomes ∧ (w.aborted = true → v.aborted = true) := by
  have hSilent : Silent o → Told base (.running done response level results) v ∧ v.outcomes = w.outcomes ∧
      (w.aborted = true → v.aborted = true) := by
    intro hSilent
    have hKeeps : Keeps base w v := keeps_of_silent hSilent hAnswer
    exact ⟨hKeeps.told _ h, hKeeps.outcomes, hKeeps.aborted⟩
  cases o with
  | emit event => cases event <;> first | exact hSilent rfl | exact hWorks.elim
  | execute tool own args =>
    obtain rfl : own = toolCall := hWorks
    have hMem : response ∈ w.responses := by
      rw [h.responses_running]
      exact mem_append_right _ mem_cons_self
    have hKeeps : Keeps base (w.execute own) v := .waits hAnswer
    exact ⟨hKeeps.told _ (h.execute ⟨response, hMem, hCall, hStop⟩), hKeeps.outcomes, hKeeps.aborted⟩
  | _ => first | exact hSilent trivial | exact hWorks.elim

theorem Running.works {o : Op α} {answer : Except JsString α}
    (h : Running base done response level calls (toolCall :: rest) results w) (hStop : response.stopReason ≠ .length)
    (hWorks : Works toolCall o) (hAnswer : collaborators o w answer v) :
    Running base done response level calls (toolCall :: rest) results v := by
  have hCall : toolCall ∈ response.toolCalls := by
    rw [← h.split]
    exact mem_append_right _ mem_cons_self
  obtain ⟨hTold, hOutcomes, -⟩ := h.told.works hStop hCall hWorks hAnswer
  exact ⟨hTold, h.split, hOutcomes ▸ h.results, hOutcomes ▸ h.untouched⟩

variable (context : AgentContext) (message : AssistantMessage)

theorem told_sequential (hStop : response.stopReason ≠ .length) (h : Running base done response level calls rest results w) :
    Safe collaborators (Sound base)
      (fun finalizedCalls v => Ran base done response level (results ++ finalizedCalls.map createToolResultMessage) v) Thrown
      (executeToolCallsSequential context message rest) w := by
  induction rest generalizing calls results w with
  | nil =>
    apply Safe.ret ⟨_, h.told⟩
    rw [map_nil, append_nil]
    exact h.ran
  | cons toolCall rest ih =>
    have hStart : Silent (.emit (.toolExecutionStart toolCall)) := rfl
    apply (told_silent hStart h.told).andThen
    rintro _ v - ⟨hKeeps, -⟩
    have hRun : Safe collaborators (Running base done response level calls (toolCall :: rest) results)
        (fun finalized u => finalized.toolCall = toolCall ∧ Running base done response level calls (toolCall :: rest) results u)
        Thrown (runSequential context message toolCall) v := by
      apply safe_runSequential
      · exact fun _ _ _ _ hWorks hHere hAnswer => hHere.works hStop hWorks hAnswer
      · exact fun _ _ _ => trivial
      · exact h.keeps hKeeps
    apply (hRun.mono (fun _ hHere => ⟨_, hHere.told⟩) (fun _ _ _ hAfter => hAfter) fun _ _ _ hThrown => hThrown).andThen
    rintro finalized u - ⟨hCall, hRunning⟩
    apply (told_endCall hRunning hCall).andThen
    intro _ x _ hEnding
    apply (told_emitEnding hEnding).andThen
    intro _ y _ hEnded
    have hAborted : Silent .aborted := trivial
    apply (told_silent hAborted hEnded.told).andThen
    rintro aborted z hSound ⟨hKeepsLast, hAnswer⟩
    have hLast := hEnded.keeps hKeepsLast
    split_ifs with hStopped
    · apply Safe.ret hSound
      refine ⟨hLast.told, fun hGoing => ?_⟩
      have hSame : aborted = z.aborted := Except.ok.inj hAnswer.2
      rw [hStopped, hGoing] at hSame
      exact nomatch hSame
    · apply (ih hLast).andThen
      intro finalizedCalls z' hSoundLast hRan
      apply Safe.ret hSoundLast
      rw [append_assoc] at hRan
      exact hRan

/-! Calls that run side by side. -/

/-- A call of a batch with its outcome, or with what it needs to run. -/
abbrev Entry : Type :=
  ToolCall × (FinalizedToolCallOutcome ⊕ (AgentTool × StrictJson))

/-- The outcome of a call that has one is logged. -/
def Entered (outcomes : List FinalizedToolCallOutcome) : Entry → Prop
  | (toolCall, .inl finalized) => finalized.toolCall = toolCall ∧ outcomesOf toolCall.id outcomes = [finalized]
  | (toolCall, .inr _) => outcomesOf toolCall.id outcomes = []

theorem Entered.congr {first second : List FinalizedToolCallOutcome} {entry : Entry} (h : Entered first entry)
    (hSame : outcomesOf entry.1.id second = outcomesOf entry.1.id first) : Entered second entry := by
  obtain ⟨toolCall, outcome⟩ := entry
  cases outcome with
  | inl finalized => exact ⟨h.1, hSame.trans h.2⟩
  | inr _ => exact hSame.trans h

theorem Told.endCall (h : Told base (.running done response level []) w) (hCall : finalized.toolCall ∈ response.toolCalls) :
    Told base (.running done response level []) (w.log (.toolExecutionEnd finalized)) := by
  apply h.outcome
  · rw [h.calls_running]
    exact mem_append_right _ hCall
  · intro segment hSegment
    rcases mem_append.mp hSegment with hOld | hNew
    · exact h.earlier hCall segment hOld
    · rw [← Option.some.inj (Option.mem_toList.mp hNew)]
      exact fun _ hResult => absurd hResult not_mem_nil

/-- What is there once a call is prepared. -/
structure Prepares (base : AgentContext) (done : List Segment) (response : AssistantMessage) (level : JsString)
    (toolCall : ToolCall) (w : Run) (outcome : FinalizedToolCallOutcome ⊕ (AgentTool × StrictJson)) (v : Run) : Prop where
  told : Told base (.running done response level []) v
  entered : Entered v.outcomes (toolCall, outcome)
  others : ∀ id, id ≠ toolCall.id → outcomesOf id v.outcomes = outcomesOf id w.outcomes

theorem told_prepareEntry (hStop : response.stopReason ≠ .length) (h : Told base (.running done response level []) w)
    (hCall : toolCall ∈ response.toolCalls) (hNone : outcomesOf toolCall.id w.outcomes = []) :
    Safe collaborators (Sound base) (fun outcome v => Prepares base done response level toolCall w outcome v) Thrown
      (prepareEntry context message toolCall) w := by
  have hPrepare : Safe collaborators (fun v => Told base (.running done response level []) v ∧ v.outcomes = w.outcomes)
      (fun _ v => Told base (.running done response level []) v ∧ v.outcomes = w.outcomes)
      (fun _ v => Told base (.running done response level []) v ∧ v.outcomes = w.outcomes)
      (prepareToolCall context message toolCall) w := by
    apply Safe.of_uses (works_prepareToolCall context message toolCall) ⟨h, rfl⟩
    rintro γ o u answer v hWorks ⟨hTold, hSame⟩ hAnswer
    obtain ⟨hAfter, hOutcomes, -⟩ := hTold.works hStop hCall hWorks hAnswer
    exact ⟨hAfter, hOutcomes.trans hSame⟩
  apply (hPrepare.mono (fun _ hHere => ⟨_, hHere.1⟩) (fun _ _ _ hAfter => hAfter) fun _ _ _ _ => trivial).andThen
  rintro preparation v hSound ⟨hTold, hOutcomes⟩
  cases preparation with
  | immediate result =>
    have hEnded : Told base (.running done response level []) (v.log (.toolExecutionEnd ⟨toolCall, result, true⟩)) :=
      hTold.endCall hCall
    apply Safe.bind
    apply Safe.perform hSound
    intro answer u hWaits
    have hKeeps : Keeps base (v.log (.toolExecutionEnd ⟨toolCall, result, true⟩)) u := .waits hWaits
    have hSame : u.outcomes = w.outcomes ++ [⟨toolCall, result, true⟩] := by
      rw [hKeeps.outcomes, outcomes_log, hOutcomes]
      rfl
    refine ⟨⟨_, hKeeps.told _ hEnded⟩, fun _ _ => .ret ⟨_, hKeeps.told _ hEnded⟩ ⟨hKeeps.told _ hEnded, ⟨rfl, ?_⟩, fun id hOther => ?_⟩,
      fun _ _ => trivial⟩
    · have hOwn := outcomesOf_append_self ⟨toolCall, result, true⟩ w.outcomes
      rw [hSame]
      exact hOwn.trans (by rw [hNone, nil_append])
    · rw [hSame, outcomesOf_append_ne (Ne.symm hOther)]
  | prepared tool args =>
    exact .ret hSound ⟨hTold, (congrArg (outcomesOf toolCall.id) hOutcomes).trans hNone, fun id _ => by rw [hOutcomes]⟩

/-- What is there once the calls of a batch are prepared. -/
structure Batch (base : AgentContext) (done : List Segment) (response : AssistantMessage) (level : JsString)
    (toolCalls : List ToolCall) (w : Run) (entries : List Entry) (v : Run) : Prop where
  told : Told base (.running done response level []) v
  calls : entries.map Prod.fst <+: toolCalls
  all : v.aborted = false → entries.map Prod.fst = toolCalls
  entered : ∀ entry ∈ entries, Entered v.outcomes entry
  others : ∀ id, id ∉ toolCalls.map ToolCall.id → outcomesOf id v.outcomes = outcomesOf id w.outcomes

theorem told_prepareParallel (hStop : response.stopReason ≠ .length) {toolCalls : List ToolCall}
    (h : Told base (.running done response level []) w) (hCalls : ∀ toolCall ∈ toolCalls, toolCall ∈ response.toolCalls)
    (hIds : (toolCalls.map ToolCall.id).Nodup) (hNone : ∀ toolCall ∈ toolCalls, outcomesOf toolCall.id w.outcomes = []) :
    Safe collaborators (Sound base) (fun entries v => Batch base done response level toolCalls w entries v) Thrown
      (prepareParallel context message toolCalls) w := by
  induction toolCalls generalizing w with
  | nil => exact .ret ⟨_, h⟩ ⟨h, nil_prefix, fun _ => rfl, fun _ hEntry => absurd hEntry not_mem_nil, fun _ _ => rfl⟩
  | cons toolCall rest ih =>
    rw [map_cons, nodup_cons] at hIds
    have hStart : Silent (.emit (.toolExecutionStart toolCall)) := rfl
    apply (told_silent hStart h).andThen
    rintro _ v - ⟨hKeeps, -⟩
    have hNoneHere : outcomesOf toolCall.id v.outcomes = [] := by
      rw [hKeeps.outcomes]
      exact hNone toolCall mem_cons_self
    apply (told_prepareEntry context message hStop (hKeeps.told _ h) (hCalls toolCall mem_cons_self) hNoneHere).andThen
    rintro outcome u - hPrepared
    have hAborted : Silent .aborted := trivial
    apply (told_silent hAborted hPrepared.told).andThen
    rintro aborted x hSound ⟨hKeepsLast, hAnswer⟩
    have hSame : ∀ id, id ≠ toolCall.id → outcomesOf id x.outcomes = outcomesOf id w.outcomes := by
      intro id hOther
      rw [hKeepsLast.outcomes, hPrepared.others id hOther, hKeeps.outcomes]
    have hEntered : Entered x.outcomes (toolCall, outcome) := hPrepared.entered.congr (by rw [hKeepsLast.outcomes])
    split_ifs with hStopped
    · apply Safe.ret hSound
      refine ⟨hKeepsLast.told _ hPrepared.told, ?_, fun hGoing => ?_, fun entry hEntry => ?_, fun id hOther => ?_⟩
      · exact cons_prefix_cons.mpr ⟨rfl, nil_prefix⟩
      · have hRead : aborted = x.aborted := Except.ok.inj hAnswer.2
        rw [hStopped, hGoing] at hRead
        exact nomatch hRead
      · rw [mem_singleton.mp hEntry]
        exact hEntered
      · exact hSame id (ne_of_not_mem_cons hOther)
    · have hRestIds : ∀ other ∈ rest, other.id ≠ toolCall.id := fun other hOther hId =>
        hIds.1 (hId ▸ mem_map_of_mem hOther)
      have hRest := ih (hKeepsLast.told _ hPrepared.told) (fun other hOther => hCalls other (mem_cons_of_mem _ hOther)) hIds.2
        fun other hOther => by
          rw [hSame other.id (hRestIds other hOther)]
          exact hNone other (mem_cons_of_mem _ hOther)
      apply hRest.andThen
      intro entries y hSoundLast hBatch
      apply Safe.ret hSoundLast
      refine ⟨hBatch.told, ?_, fun hGoing => ?_, fun entry hEntry => ?_, fun id hOther => ?_⟩
      · exact cons_prefix_cons.mpr ⟨rfl, hBatch.calls⟩
      · exact congrArg (toolCall :: ·) (hBatch.all hGoing)
      · rcases mem_cons.mp hEntry with rfl | hLater
        · exact hEntered.congr (hBatch.others _ hIds.1)
        · exact hBatch.entered entry hLater
      · rw [hBatch.others id (not_mem_of_not_mem_cons hOther)]
        exact hSame id (ne_of_not_mem_cons hOther)

/-- What a task of a batch may use: what its call uses, and the end of it. -/
def Attends (toolCall : ToolCall) : {α : Type} → Op α → Prop
  | _, .emit (.toolExecutionEnd finalized) => finalized.toolCall = toolCall
  | _, o => Works toolCall o

theorem attends_of_works (o : Op α) (h : Works toolCall o) : Attends toolCall o := by
  cases o with
  | emit event => cases event <;> first | exact h | exact h.elim
  | _ => exact h

theorem attends_entryTask (entry : Entry) :
    (entryTask context message entry).Uses (Attends entry.1) := by
  obtain ⟨toolCall, finalized | ⟨tool, args⟩⟩ := entry
  · trivial
  · apply Program.Uses.bind (.perform trivial)
    intro aborted
    split_ifs
    · exact .bind (.perform rfl) fun _ => trivial
    · apply Program.Uses.bind_of ((works_runPrepared context message toolCall tool args).mono attends_of_works)
        (returns_runPrepared context message toolCall tool args)
      intro finalized hCall
      exact .bind (.perform hCall) fun _ => trivial

/-- The calls of a batch are running, and an abort before is not forgotten. -/
def Busy (base : AgentContext) (done : List Segment) (response : AssistantMessage) (level : JsString) (aborted : Bool) (w : Run) : Prop :=
  Told base (.running done response level []) w ∧ (aborted = true → w.aborted = true)

variable {aborted : Bool}

/-- What a task relies on: no other ends its call. -/
def Apart (entry : Entry) (w v : Run) : Prop :=
  outcomesOf entry.1.id v.outcomes = outcomesOf entry.1.id w.outcomes

theorem Busy.works {o : Op α} {answer : Except JsString α} (h : Busy base done response level aborted w)
    (hStop : response.stopReason ≠ .length) (hCall : toolCall ∈ response.toolCalls) (hWorks : Works toolCall o)
    (hAnswer : collaborators o w answer v) : Busy base done response level aborted v ∧ v.outcomes = w.outcomes := by
  obtain ⟨hTold, hOutcomes, hAborted⟩ := h.1.works hStop hCall hWorks hAnswer
  exact ⟨⟨hTold, fun hBefore => hAborted (h.2 hBefore)⟩, hOutcomes⟩

theorem Busy.endCall (h : Busy base done response level aborted w)
    (hCall : finalized.toolCall ∈ response.toolCalls) (hWaits : Waits (w.log (.toolExecutionEnd finalized)) v) :
    Busy base done response level aborted v ∧ v.outcomes = w.outcomes ++ [finalized] := by
  have hKeeps : Keeps base (w.log (.toolExecutionEnd finalized)) v := .waits hWaits
  refine ⟨⟨hKeeps.told _ (h.1.endCall hCall), fun hBefore => hKeeps.aborted (h.2 hBefore)⟩, ?_⟩
  rw [hKeeps.outcomes, outcomes_log]
  rfl

theorem attends_apart {o : Op α} {answer : Except JsString α} {other : Entry} (hStop : response.stopReason ≠ .length)
    (hCall : toolCall ∈ response.toolCalls) (hOther : toolCall.id ≠ other.1.id) (hAttends : Attends toolCall o)
    (h : Busy base done response level aborted w) (hAnswer : collaborators o w answer v) : Apart other w v := by
  have hWorks : Works toolCall o → Apart other w v := fun hWorks =>
    congrArg (outcomesOf other.1.id) (h.works hStop hCall hWorks hAnswer).2
  cases o with
  | emit event =>
    cases event with
    | toolExecutionEnd finalized =>
      obtain rfl : finalized.toolCall = toolCall := hAttends
      rw [Apart, (h.endCall hCall hAnswer).2, outcomesOf_append_ne hOther]
    | _ => exact hWorks hAttends
  | _ => exact hWorks hAttends

theorem told_entryTask (hStop : response.stopReason ≠ .length) (entry : Entry)
    (hCall : entry.1 ∈ response.toolCalls) (h : Busy base done response level aborted w) (hEntered : Entered w.outcomes entry) :
    Safe (Amid collaborators (Busy base done response level aborted) (Apart entry)) (Busy base done response level aborted)
      (fun finalized v => finalized.toolCall = entry.1 ∧ outcomesOf entry.1.id v.outcomes = [finalized]) (fun _ _ => True)
      (entryTask context message entry) w := by
  obtain ⟨toolCall, finalized | ⟨tool, args⟩⟩ := entry
  · exact .ret h hEntered
  · -- The call has no outcome until the task ends it.
    have hKeeps : ∀ {γ : Type} (o : Op γ) w answer v, Works toolCall o →
        Busy base done response level aborted w ∧ outcomesOf toolCall.id w.outcomes = [] →
        Amid collaborators (Busy base done response level aborted) (Apart (toolCall, .inr (tool, args))) o w answer v →
        Busy base done response level aborted v ∧ outcomesOf toolCall.id v.outcomes = [] := by
      rintro γ o w answer v hWorks ⟨-, hNone⟩ ⟨u, hApart, hBusy, hAnswer⟩
      obtain ⟨hAfter, hOutcomes⟩ := hBusy.works hStop hCall hWorks hAnswer
      exact ⟨hAfter, (congrArg (outcomesOf toolCall.id) hOutcomes).trans (hApart.trans hNone)⟩
    have hEnd : ∀ finalized v, finalized.toolCall = toolCall → Busy base done response level aborted v →
        outcomesOf toolCall.id v.outcomes = [] →
        Safe (Amid collaborators (Busy base done response level aborted) (Apart (toolCall, .inr (tool, args))))
          (Busy base done response level aborted)
          (fun finalized v => finalized.toolCall = toolCall ∧ outcomesOf toolCall.id v.outcomes = [finalized]) (fun _ _ => True)
          (emit (.toolExecutionEnd finalized) >>= fun _ => pure finalized) v := by
      intro finalized v hOwn hBusy hNone
      subst hOwn
      apply Safe.bind
      apply Safe.perform hBusy
      rintro answer x ⟨u, hApart, hHere, hWaits⟩
      obtain ⟨hAfter, hOutcomes⟩ := hHere.endCall hCall hWaits
      refine ⟨hAfter, fun _ _ => .ret hAfter ⟨rfl, ?_⟩, fun _ _ => trivial⟩
      rw [hOutcomes, outcomesOf_append_self]
      exact (congrArg (· ++ [finalized]) (hApart.trans hNone))
    apply Safe.bind
    apply Safe.perform h
    intro answer v hAnswer
    obtain ⟨hBusy, hNone⟩ := hKeeps .aborted _ _ _ trivial ⟨h, hEntered⟩ hAnswer
    refine ⟨hBusy, fun stopped _ => ?_, fun _ _ => trivial⟩
    split_ifs
    · exact hEnd _ v rfl hBusy hNone
    · have hRun : Safe (Amid collaborators (Busy base done response level aborted) (Apart (toolCall, .inr (tool, args))))
          (fun u => Busy base done response level aborted u ∧ outcomesOf toolCall.id u.outcomes = [])
          (fun finalized u => finalized.toolCall = toolCall ∧
            (Busy base done response level aborted u ∧ outcomesOf toolCall.id u.outcomes = []))
          (fun _ _ => True) (runPrepared context message toolCall tool args) v := by
        apply safe_runPrepared
        · exact fun o _ _ _ hWorks hHere hStep => hKeeps o _ _ _ hWorks hHere hStep
        · exact fun _ _ _ => trivial
        · exact ⟨hBusy, hNone⟩
      apply (hRun.mono (fun _ hHere => hHere.1) (fun _ _ _ hAfter => hAfter) fun _ _ _ hThrown => hThrown).andThen
      rintro finalized u - ⟨hOwn, hBusyHere, hNoneHere⟩
      exact hEnd finalized u hOwn hBusyHere hNoneHere

theorem told_emitResults {finalizedCalls : List FinalizedToolCallOutcome} (h : Told base (.running done response level results) w)
    (hCalls : calls ++ rest <+: response.toolCalls) (hResults : List.Forall₂ (ResultOf w.outcomes) calls results)
    (hOutcomes : List.Forall₂ (fun toolCall finalized => finalized.toolCall = toolCall ∧
      outcomesOf toolCall.id w.outcomes = [finalized]) rest finalizedCalls) :
    Safe collaborators (Sound base)
      (fun _ v => Told base (.running done response level (results ++ finalizedCalls.map createToolResultMessage)) v ∧
        List.Forall₂ (ResultOf v.outcomes) (calls ++ rest) (results ++ finalizedCalls.map createToolResultMessage) ∧
        (w.aborted = true → v.aborted = true)) Thrown
      (emitMessages (finalizedCalls.map fun finalized => .ofToolResult (createToolResultMessage finalized))) w := by
  generalize hLogged : w.outcomes = outcomes at hResults hOutcomes
  induction hOutcomes generalizing calls results w with
  | nil =>
    apply Safe.ret ⟨_, h⟩
    rw [append_nil, map_nil, append_nil, hLogged]
    exact ⟨h, hResults, id⟩
  | @cons toolCall finalized rest finalizedCalls hFirst hRest ih =>
    have hNext : List.Forall₂ (ResultOf outcomes) (calls ++ [toolCall]) (results ++ [createToolResultMessage finalized]) :=
      rel_append hResults (.cons ⟨finalized, hFirst.1, hFirst.2, rfl⟩ .nil)
    rw [append_cons] at hCalls
    have hPrefix : calls ++ [toolCall] <+: response.toolCalls := (prefix_append _ _).trans hCalls
    apply (told_emitResult h hPrefix (hLogged ▸ hNext)).andThen
    rintro _ v - ⟨hTold, hSame, hAborted⟩
    have hLater := ih hTold hCalls (hSame.trans hLogged) hNext
    rw [map_cons, append_cons calls, append_cons results]
    exact hLater.mono (fun _ hHere => hHere) (fun _ _ _ hAfter => ⟨hAfter.1, hAfter.2.1, fun hBefore => hAfter.2.2 (hAborted hBefore)⟩)
      fun _ _ _ hThrown => hThrown

theorem told_parallel (hStop : response.stopReason ≠ .length)
    (h : Running base done response level [] response.toolCalls [] w) :
    Safe collaborators (Sound base)
      (fun finalizedCalls v => Ran base done response level (finalizedCalls.map createToolResultMessage) v) Thrown
      (executeToolCallsParallel context message response.toolCalls) w := by
  have hPrepare := told_prepareParallel context message hStop h.told (fun _ hCall => hCall) h.told.callIds h.untouched
  apply hPrepare.andThen
  rintro entries v - hBatch
  have hMem : ∀ entry ∈ entries, entry.1 ∈ response.toolCalls := fun entry hEntry =>
    hBatch.calls.subset (mem_map_of_mem hEntry)
  have hIds : (entries.map fun entry => entry.1.id).Nodup := by
    have hNodup := h.told.callIds.sublist (hBatch.calls.sublist.map ToolCall.id)
    rwa [map_map] at hNodup
  have hBusy : Busy base done response level v.aborted v := ⟨hBatch.told, id⟩
  have hAll : Safe collaborators (Busy base done response level v.aborted)
      (fun finalizedCalls u => Busy base done response level v.aborted u ∧
        List.Forall₂ (fun toolCall finalized => finalized.toolCall = toolCall ∧ outcomesOf toolCall.id u.outcomes = [finalized])
          (entries.map Prod.fst) finalizedCalls) Thrown
      (all (entries.map (entryTask context message))) v := by
    refine Safe.all_amid (P := fun entry => Attends entry.1) (G := Apart)
      (R := fun entry finalized u => finalized.toolCall = entry.1 ∧ outcomesOf entry.1.id u.outcomes = [finalized])
      (S := fun _ => True) ?_ ?_ ?_ ?_ ?_ hBusy ?_ ?_ ?_
    · exact fun _ _ => rfl
    · exact fun _ _ _ _ hFirst hSecond => hSecond.trans hFirst
    · exact fun _ _ _ _ hOwn hApart => ⟨hOwn.1, hApart.trans hOwn.2⟩
    · exact fun entry _ => attends_entryTask context message entry
    · have hPairwise := pairwise_map.mp hIds
      apply hPairwise.imp_of_mem
      intro first second hFirst hSecond hOther
      exact ⟨fun _ _ _ _ hAttends hHere hAnswer => attends_apart hStop (hMem first hFirst) hOther hAttends hHere hAnswer,
        fun _ _ _ _ hAttends hHere hAnswer => attends_apart hStop (hMem second hSecond) (Ne.symm hOther) hAttends hHere hAnswer⟩
    · exact fun entry hEntry => told_entryTask context message hStop entry (hMem entry hEntry) hBusy (hBatch.entered entry hEntry)
    · exact fun finalizedCalls u hHere hResults => ⟨hHere, forall₂_map_left_iff.mpr hResults⟩
    · exact fun _ _ _ _ => trivial
  apply (hAll.mono (fun _ hHere => ⟨_, hHere.1⟩) (fun _ _ _ hAfter => hAfter) fun _ _ _ hThrown => hThrown).andThen
  rintro finalizedCalls u - ⟨⟨hTold, hAborted⟩, hOutcomes⟩
  have hCalls : [] ++ entries.map Prod.fst <+: response.toolCalls := hBatch.calls
  have hNone : List.Forall₂ (ResultOf u.outcomes) [] [] := .nil
  apply (told_emitResults hTold hCalls hNone hOutcomes).andThen
  rintro _ x hSound ⟨hLast, hResults, hAbortedLast⟩
  apply Safe.ret hSound
  refine ⟨hLast, fun hGoing => ?_⟩
  have hBefore : v.aborted = false := by
    cases hHere : v.aborted with
    | false => rfl
    | true =>
      rw [hAbortedLast (hAborted hHere)] at hGoing
      exact nomatch hGoing
  show List.Forall₂ _ response.toolCalls _
  rw [← hBatch.all hBefore]
  exact hResults

/-- What the loop goes by when it has a response: the message it made of it. -/
def answer (response : AssistantMessage) (level : JsString) : AssistantMessage :=
  { response with thinkingLevel := some level }

theorem told_runToolCalls (config : AgentLoopConfig) (h : Running base done response level [] response.toolCalls [] w) :
    Safe collaborators (Sound base) (fun batch v => Ran base done response level batch.messages v) Thrown
      (runToolCalls context (answer response level) config) w := by
  rw [runToolCalls]
  split_ifs with hLength
  · apply (told_truncated h).andThen
    exact fun messages v hSound hRan => .ret hSound hRan
  · have hExecute : Safe collaborators (Sound base)
        (fun finalizedCalls v => Ran base done response level (finalizedCalls.map createToolResultMessage) v) Thrown
        (executeToolCalls context (answer response level) config) w := by
      rw [executeToolCalls]
      have hStop : response.stopReason ≠ .length := hLength
      split_ifs
      · exact told_sequential context (answer response level) hStop h
      · exact told_parallel context (answer response level) hStop h
    apply hExecute.andThen
    exact fun finalizedCalls v hSound hRan => .ret hSound hRan

end OctoberHarness.Agent
