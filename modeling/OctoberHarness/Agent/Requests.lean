import OctoberHarness.Agent.Declarations
import OctoberHarness.Agent.Loop

/-! What a run of the loop adds to the transcript before each of its requests. -/
namespace OctoberHarness.Agent

open Effects List

/-! Histories of runs. -/

def AgentEvent.ended? : AgentEvent → Option AgentMessage
  | .messageEnd message => some message
  | _ => none

def AgentEvent.outcome? : AgentEvent → Option FinalizedToolCallOutcome
  | .toolExecutionEnd finalized => some finalized
  | _ => none

/-- Whether the event starts or ends a message. -/
def AgentEvent.isBound : AgentEvent → Bool
  | .messageStart _ => true
  | .messageEnd _ => true
  | _ => false

/-- A call of the stream function, with what the run had done by then. -/
structure Request where
  context : AgentContext
  responses : List AssistantMessage
  outcomes : List FinalizedToolCallOutcome
  aborted : Bool

/-- What a run did so far: its events, the responses it got, the calls whose tools it
executed and its requests; whether it was aborted, and whether the stream has started. -/
structure Run where
  events : List AgentEvent
  responses : List AssistantMessage
  executed : List ToolCall
  requests : List Request
  aborted : Bool
  started : Bool

namespace Run

/-- The messages of the `message_end` events. -/
def ended (w : Run) : List AgentMessage :=
  w.events.filterMap AgentEvent.ended?

/-- The outcomes of the `tool_execution_end` events, in the order the calls finished. -/
def outcomes (w : Run) : List FinalizedToolCallOutcome :=
  w.events.filterMap AgentEvent.outcome?

/-- Every tool call of the responses. -/
def calls (w : Run) : List ToolCall :=
  w.responses.flatMap AssistantMessage.toolCalls

def log (w : Run) (event : AgentEvent) : Run :=
  { w with events := w.events ++ [event] }

def request (w : Run) (context : AgentContext) : Run :=
  { w with requests := w.requests ++ [⟨context, w.responses, w.outcomes, w.aborted⟩], started := false }

def respond (w : Run) (response : AssistantMessage) : Run :=
  { w with responses := w.responses ++ [response] }

def execute (w : Run) (toolCall : ToolCall) : Run :=
  { w with executed := w.executed ++ [toolCall] }

def abort (w : Run) : Run :=
  { w with aborted := true }

def start (w : Run) : Run :=
  { w with started := true }

end Run

/-- Before a run. -/
def idle (aborted : Bool) : Run :=
  ⟨[], [], [], [], aborted, false⟩

/-- While the run waits it may be aborted. -/
def Waits (w v : Run) : Prop :=
  v = w ∨ v = w.abort

/-- What a stream may answer next: it starts once. -/
def Streams (w : Run) (answer : Except JsString (Option StreamEvent)) (v : Run) : Prop :=
  ∃ u, Waits w u ∧
    match answer with
    | .ok (some (.start _)) => u.started = false ∧ v = u.start
    | _ => v = u

/-- A response whose tool calls have ids that no call had before. -/
def Responds (w : Run) (answer : Except JsString AssistantMessage) (v : Run) : Prop :=
  ∃ u, Waits w u ∧
    match answer with
    | .ok response => ((u.respond response).calls.map ToolCall.id).Nodup ∧ v = u.respond response
    | .error _ => v = u

/-- The surroundings of a run whose hooks replace no context. Anything may throw, and the
run may be aborted at any moment. -/
def collaborators : Environment JsString Op Run
  | _, .emit event, w, _, v => Waits (w.log event) v
  | _, .prepareNextTurn _, w, answer, v => Waits w v ∧ ∀ update, answer = .ok (some update) → update.context = none
  | _, .prepareRequest _ _, w, answer, v => Waits w v ∧ ∀ update, answer = .ok (some update) → update.context = none
  | _, .streamFunction context _ _, w, _, v => Waits (w.request context) v
  | _, .nextEvent, w, answer, v => Streams w answer v
  | _, .result, w, answer, v => Responds w answer v
  | _, .aborted, w, answer, v => Waits w v ∧ answer = .ok v.aborted
  | _, .execute _ toolCall _, w, _, v => Waits (w.execute toolCall) v
  | _, _, w, _, v => Waits w v

/-! Well-formed requests. -/

/-- A message that came in from outside, or a response with the results of its calls. -/
inductive Segment where
  | queued (message : AgentMessage)
  | answered (response : AssistantMessage) (thinkingLevel : JsString) (results : List ToolResultMessage)

namespace Segment

def messages : Segment → List AgentMessage
  | queued message => [message]
  | answered response level results =>
    .ofAssistant { response with thinkingLevel := some level } :: results.map .ofToolResult

def response? : Segment → Option AssistantMessage
  | queued _ => none
  | answered response _ _ => some response

def results : Segment → List ToolResultMessage
  | queued _ => []
  | answered _ _ results => results

end Segment

/-- The outcomes of the call with an id. -/
def outcomesOf (id : JsString) (outcomes : List FinalizedToolCallOutcome) : List FinalizedToolCallOutcome :=
  outcomes.filter fun finalized => finalized.toolCall.id = id

/-- The result of a call: that of the one outcome it had. -/
def ResultOf (outcomes : List FinalizedToolCallOutcome) (toolCall : ToolCall) (result : ToolResultMessage) : Prop :=
  ∃ finalized, finalized.toolCall = toolCall ∧ outcomesOf toolCall.id outcomes = [finalized] ∧
    result = createToolResultMessage finalized

/-- One result for each call, in call order. -/
def Segment.Whole (outcomes : List FinalizedToolCallOutcome) : Segment → Prop
  | queued _ => True
  | answered response _ results => Forall₂ (ResultOf outcomes) response.toolCalls results

/-- One result for each of the first calls, in call order. -/
def Segment.Cut (outcomes : List FinalizedToolCallOutcome) : Segment → Prop
  | queued _ => True
  | answered response _ results => ∃ calls, calls <+: response.toolCalls ∧ Forall₂ (ResultOf outcomes) calls results

/-- A request of a run that started from a context. -/
structure WellFormed (base : AgentContext) (request : Request) : Prop where
  tools : request.context.tools = base.tools
  declared : (getCurrentTools request.context.messages).Perm (request.context.tools.map toToolDeclaration)
  messages : ∃ segments : List Segment,
    request.context.messages = base.messages ++ segments.flatMap Segment.messages ∧
      segments.filterMap Segment.response? = request.responses ∧ (∀ segment ∈ segments, segment.Cut request.outcomes) ∧
      (request.aborted = false → ∀ segment ∈ segments, segment.Whole request.outcomes)

/-- Messages start and end in turn; the message that has started and not ended. Of a
response the start may have told less than the end. -/
inductive Paired : List AgentEvent → Option AgentMessage → Prop where
  | nil : Paired [] none
  | start {events : List AgentEvent} (h : Paired events none) (message : AgentMessage) :
      Paired (events ++ [.messageStart message]) (some message)
  | finish {events : List AgentEvent} {opened message : AgentMessage} (h : Paired events (some opened))
      (hSame : opened = message ∨ opened.isAssistant = true ∧ message.isAssistant = true) :
      Paired (events ++ [.messageEnd message]) none
  | other {events : List AgentEvent} {opened : Option AgentMessage} (h : Paired events opened) {event : AgentEvent}
      (hOther : event.isBound = false) : Paired (events ++ [event]) opened

/-! Where a run is. -/

/-- The segments that are done, the response whose calls are running, the message that has
started, and the response whose end is to come. -/
structure Stage where
  done : List Segment
  batch : Option Segment
  opened : Option AgentMessage
  fresh : Option AssistantMessage

def Stage.segments (stage : Stage) : List Segment :=
  stage.done ++ stage.batch.toList

/-- Between two messages, with every segment done. -/
def Stage.rest (done : List Segment) : Stage :=
  ⟨done, none, none, none⟩

theorem segments_rest (done : List Segment) : (Stage.rest done).segments = done :=
  append_nil done

/-- The history of a run tells that it is at a stage. -/
structure Told (base : AgentContext) (stage : Stage) (w : Run) : Prop where
  ended : w.ended = stage.segments.flatMap Segment.messages
  responses : stage.segments.filterMap Segment.response? ++ stage.fresh.toList = w.responses
  cut : ∀ segment ∈ stage.segments, segment.Cut w.outcomes
  whole : w.aborted = false → ∀ segment ∈ stage.done, segment.Whole w.outcomes
  paired : Paired w.events stage.opened
  known : ∀ finalized ∈ w.outcomes, finalized.toolCall ∈ w.calls
  ids : (w.calls.map ToolCall.id).Nodup
  executed : ∀ toolCall ∈ w.executed, ∃ response ∈ w.responses, toolCall ∈ response.toolCalls ∧ response.stopReason ≠ .length
  requests : ∀ request ∈ w.requests, WellFormed base request

/-- What holds at every moment of a run. -/
def Sound (base : AgentContext) (w : Run) : Prop :=
  ∃ stage, Told base stage w

theorem told_idle (base : AgentContext) (aborted : Bool) : Told base (.rest []) (idle aborted) where
  ended := rfl
  responses := rfl
  cut _ hSegment := absurd hSegment not_mem_nil
  whole _ _ hSegment := absurd hSegment not_mem_nil
  paired := .nil
  known _ hOutcome := absurd hOutcome not_mem_nil
  ids := nodup_nil
  executed _ hCall := absurd hCall not_mem_nil
  requests _ hRequest := absurd hRequest not_mem_nil

/-! What is logged. -/

theorem ended_log (w : Run) (event : AgentEvent) : (w.log event).ended = w.ended ++ event.ended?.toList := by
  show (w.events ++ [event]).filterMap AgentEvent.ended? = _
  rw [filterMap_append]
  cases event <;> rfl

theorem outcomes_log (w : Run) (event : AgentEvent) : (w.log event).outcomes = w.outcomes ++ event.outcome?.toList := by
  show (w.events ++ [event]).filterMap AgentEvent.outcome? = _
  rw [filterMap_append]
  cases event <;> rfl

/-- Events that neither bound a message nor end a call. -/
def AgentEvent.isQuiet (event : AgentEvent) : Bool :=
  !event.isBound && event.outcome?.isNone

variable {base : AgentContext} {stage : Stage} {w v : Run}

theorem Told.waits (h : Told base stage w) (hWaits : Waits w v) : Told base stage v := by
  rcases hWaits with rfl | rfl
  · exact h
  · exact { h with whole := nofun }

theorem outcomes_waits (hWaits : Waits w v) : v.outcomes = w.outcomes := by
  rcases hWaits with rfl | rfl <;> rfl

theorem Told.quiet (h : Told base stage w) {event : AgentEvent} (hQuiet : event.isQuiet = true) :
    Told base stage (w.log event) ∧ (w.log event).outcomes = w.outcomes := by
  obtain ⟨hBound, hOutcome⟩ := Bool.and_eq_true_iff.mp hQuiet
  have hEnded : (w.log event).ended = w.ended := by
    rw [ended_log]
    cases event <;> first | exact append_nil _ | exact nomatch hBound
  have hOutcomes : (w.log event).outcomes = w.outcomes := by
    rw [outcomes_log, Option.isNone_iff_eq_none.mp hOutcome]
    exact append_nil _
  refine ⟨{ h with ended := ?_, cut := ?_, whole := ?_, paired := ?_, known := ?_ }, hOutcomes⟩
  · exact hEnded.trans h.ended
  · rw [hOutcomes]
    exact h.cut
  · rw [hOutcomes]
    exact h.whole
  · exact h.paired.other (by simpa using hBound)
  · rw [hOutcomes]
    exact h.known

theorem Told.messageStart (h : Told base stage w) (hClosed : stage.opened = none) (message : AgentMessage) :
    Told base { stage with opened := some message } (w.log (.messageStart message)) := by
  have hEnded : (w.log (.messageStart message)).ended = w.ended := (ended_log w _).trans (append_nil _)
  have hOutcomes : (w.log (.messageStart message)).outcomes = w.outcomes := (outcomes_log w _).trans (append_nil _)
  refine { h with ended := ?_, cut := ?_, whole := ?_, paired := ?_, known := ?_ }
  · exact hEnded.trans h.ended
  · rw [hOutcomes]
    exact h.cut
  · rw [hOutcomes]
    exact h.whole
  · exact .start (hClosed ▸ h.paired) message
  · rw [hOutcomes]
    exact h.known

/-- A message ends: it is the last of the segments of a later stage. -/
theorem Told.messageEnd (h : Told base stage w) {opened message : AgentMessage} {later : Stage} (hOpened : stage.opened = some opened)
    (hSame : opened = message ∨ opened.isAssistant = true ∧ message.isAssistant = true)
    (hMessages : later.segments.flatMap Segment.messages = stage.segments.flatMap Segment.messages ++ [message])
    (hResponses : later.segments.filterMap Segment.response? ++ later.fresh.toList =
      stage.segments.filterMap Segment.response? ++ stage.fresh.toList)
    (hCut : ∀ segment ∈ later.segments, segment.Cut w.outcomes)
    (hWhole : w.aborted = false → ∀ segment ∈ later.done, segment.Whole w.outcomes) (hClosed : later.opened = none) :
    Told base later (w.log (.messageEnd message)) := by
  have hEnded : (w.log (.messageEnd message)).ended = w.ended ++ [message] := ended_log w _
  have hOutcomes : (w.log (.messageEnd message)).outcomes = w.outcomes := (outcomes_log w _).trans (append_nil _)
  refine { h with ended := ?_, responses := ?_, cut := ?_, whole := ?_, paired := ?_, known := ?_ }
  · rw [hEnded, hMessages, h.ended]
  · exact hResponses.trans h.responses
  · rw [hOutcomes]
    exact hCut
  · rw [hOutcomes]
    exact hWhole
  · rw [hClosed]
    exact .finish (hOpened ▸ h.paired) hSame
  · rw [hOutcomes]
    exact h.known

variable {finalized : FinalizedToolCallOutcome} {outcomes : List FinalizedToolCallOutcome} {toolCall : ToolCall}

theorem outcomesOf_append_ne {id : JsString} (h : finalized.toolCall.id ≠ id)
    (outcomes : List FinalizedToolCallOutcome) : outcomesOf id (outcomes ++ [finalized]) = outcomesOf id outcomes := by
  rw [outcomesOf, filter_append, filter_singleton, decide_eq_false h]
  exact append_nil _

theorem outcomesOf_append_self (finalized : FinalizedToolCallOutcome) (outcomes : List FinalizedToolCallOutcome) :
    outcomesOf finalized.toolCall.id (outcomes ++ [finalized]) = outcomesOf finalized.toolCall.id outcomes ++ [finalized] := by
  rw [outcomesOf, filter_append, filter_singleton, decide_eq_true rfl]
  rfl

variable {result : ToolResultMessage} {segment : Segment}

theorem ResultOf.id (h : ResultOf outcomes toolCall result) : result.toolCallId = toolCall.id := by
  obtain ⟨finalized, rfl, -, rfl⟩ := h
  rfl

theorem ResultOf.append (h : ResultOf outcomes toolCall result) (hOther : result.toolCallId ≠ finalized.toolCall.id) :
    ResultOf (outcomes ++ [finalized]) toolCall result := by
  have hId := h.id
  obtain ⟨own, hCall, hOwn, hResult⟩ := h
  refine ⟨own, hCall, ?_, hResult⟩
  rw [outcomesOf_append_ne (fun hSame => hOther (hId.trans hSame.symm)), hOwn]

theorem results_append {calls : List ToolCall} {results : List ToolResultMessage}
    (h : Forall₂ (ResultOf outcomes) calls results) (hOthers : ∀ result ∈ results, result.toolCallId ≠ finalized.toolCall.id) :
    Forall₂ (ResultOf (outcomes ++ [finalized])) calls results := by
  induction h with
  | nil => exact .nil
  | cons hFirst _ ih =>
    exact .cons (hFirst.append (hOthers _ mem_cons_self)) (ih fun result hResult => hOthers result (mem_cons_of_mem _ hResult))

theorem Segment.Cut.append (h : segment.Cut outcomes)
    (hOthers : ∀ result ∈ segment.results, result.toolCallId ≠ finalized.toolCall.id) :
    segment.Cut (outcomes ++ [finalized]) := by
  cases segment with
  | queued message => trivial
  | answered response level results =>
    obtain ⟨calls, hFirst, hResults⟩ := h
    exact ⟨calls, hFirst, results_append hResults hOthers⟩

theorem Segment.Whole.append (h : segment.Whole outcomes)
    (hOthers : ∀ result ∈ segment.results, result.toolCallId ≠ finalized.toolCall.id) :
    segment.Whole (outcomes ++ [finalized]) := by
  cases segment with
  | queued message => trivial
  | answered response level results => exact results_append h hOthers

theorem results_ids {calls : List ToolCall} {results : List ToolResultMessage} (h : Forall₂ (ResultOf outcomes) calls results) :
    results.map ToolResultMessage.toolCallId = calls.map ToolCall.id := by
  induction h with
  | nil => rfl
  | cons hHead _ ih => rw [map_cons, map_cons, ih, hHead.id]

theorem Segment.Cut.call {outcomes : List FinalizedToolCallOutcome} (h : segment.Cut outcomes) (hResult : result ∈ segment.results) :
    ∃ response, segment.response? = some response ∧ result.toolCallId ∈ response.toolCalls.map ToolCall.id := by
  cases segment with
  | queued message => exact absurd hResult not_mem_nil
  | answered response level results =>
    obtain ⟨calls, hFirst, hResults⟩ := h
    refine ⟨response, rfl, ?_⟩
    apply (hFirst.map ToolCall.id).subset
    rw [← results_ids hResults]
    exact mem_map_of_mem hResult

theorem Told.outcome (h : Told base stage w) (hCall : finalized.toolCall ∈ w.calls)
    (hOthers : ∀ segment ∈ stage.segments, ∀ result ∈ segment.results, result.toolCallId ≠ finalized.toolCall.id) :
    Told base stage (w.log (.toolExecutionEnd finalized)) := by
  have hEnded : (w.log (.toolExecutionEnd finalized)).ended = w.ended := (ended_log w _).trans (append_nil _)
  have hOutcomes : (w.log (.toolExecutionEnd finalized)).outcomes = w.outcomes ++ [finalized] := outcomes_log w _
  refine { h with ended := ?_, cut := ?_, whole := ?_, paired := ?_, known := ?_ }
  · exact hEnded.trans h.ended
  · rw [hOutcomes]
    exact fun segment hSegment => (h.cut segment hSegment).append (hOthers segment hSegment)
  · rw [hOutcomes]
    exact fun hGoing segment hSegment =>
      (h.whole hGoing segment hSegment).append (hOthers segment (mem_append_left _ hSegment))
  · exact h.paired.other rfl
  · rw [hOutcomes]
    intro other hOther
    rcases List.mem_append.mp hOther with hOld | hNew
    · exact h.known other hOld
    · rw [List.mem_singleton.mp hNew]
      exact hCall

/-! The other operations. -/

theorem Told.execute (h : Told base stage w)
    (hCall : ∃ response ∈ w.responses, toolCall ∈ response.toolCalls ∧ response.stopReason ≠ .length) :
    Told base stage (w.execute toolCall) := by
  refine { h with executed := fun other hOther => ?_ }
  rcases List.mem_append.mp hOther with hOld | hNew
  · exact h.executed other hOld
  · rw [List.mem_singleton.mp hNew]
    exact hCall

theorem Told.request (h : Told base stage w) {context : AgentContext} (hRequest : WellFormed base ⟨context, w.responses, w.outcomes, w.aborted⟩) :
    Told base stage (w.request context) := by
  refine { h with requests := fun other hOther => ?_ }
  rcases List.mem_append.mp hOther with hOld | hNew
  · exact h.requests other hOld
  · rw [List.mem_singleton.mp hNew]
    exact hRequest

theorem calls_respond (w : Run) (response : AssistantMessage) : (w.respond response).calls = w.calls ++ response.toolCalls := by
  show (w.responses ++ [response]).flatMap AssistantMessage.toolCalls = _
  rw [flatMap_append, flatMap_singleton]
  rfl

theorem Told.respond (h : Told base stage w) (hNone : stage.fresh = none) {response : AssistantMessage}
    (hIds : ((w.respond response).calls.map ToolCall.id).Nodup) :
    Told base { stage with fresh := some response } (w.respond response) := by
  refine { h with responses := ?_, known := ?_, ids := hIds, executed := ?_ }
  · show _ ++ [response] = w.responses ++ [response]
    rw [← h.responses, hNone, Option.toList_none, append_nil]
    rfl
  · intro finalized hOutcome
    rw [calls_respond]
    exact mem_append_left _ (h.known finalized hOutcome)
  · intro toolCall hCall
    obtain ⟨other, hOther, hRest⟩ := h.executed toolCall hCall
    exact ⟨other, mem_append_left _ hOther, hRest⟩

theorem Told.unfinished (h : Told base stage w) {response : AssistantMessage}
    (hIds : ((w.respond response).calls.map ToolCall.id).Nodup) :
    ∀ toolCall ∈ response.toolCalls, outcomesOf toolCall.id w.outcomes = [] := by
  intro toolCall hCall
  rw [outcomesOf, filter_eq_nil_iff]
  intro finalized hOutcome hSame
  rw [calls_respond, map_append, nodup_append] at hIds
  exact hIds.2.2 _ (mem_map_of_mem (h.known finalized hOutcome)) _ (mem_map_of_mem hCall) (of_decide_eq_true hSame)

end OctoberHarness.Agent
