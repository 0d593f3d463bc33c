import OctoberHarness.Json.Text

/-! Model messages, and the order a context gives the tool results among them. -/
namespace OctoberHarness.Context

open List OrderedMap

inductive Content where
  | text (text : JsString)
  | image (data mimeType : JsString)

inductive MessageContent where
  | string (text : JsString)
  | blocks (blocks : List Content)

structure ToolCall where
  id : JsString
  name : JsString
  arguments : JsonValue

inductive Block where
  | text (text : JsString)
  | thinking (thinking : JsString)
  | toolCall (call : ToolCall)

structure SystemMessage where
  content : MessageContent
  /-- In the order of the own keys. -/
  sections : List (JsString × Option JsString)
  toolsAdded : List JsonValue
  toolsRemoved : List JsonValue
  timestamp : JsNumber

structure UserMessage where
  content : MessageContent
  timestamp : JsNumber

/-- `rest` has the fields that no function here reads. -/
structure AssistantMessage where
  content : List Block
  timestamp : JsNumber
  rest : JsonValue

structure ToolResultMessage where
  toolCallId : JsString
  toolName : JsString
  content : List Content
  isError : Bool
  details : Option JsonValue
  timestamp : JsNumber
  rest : JsonValue

inductive Message where
  | system (message : SystemMessage)
  | user (message : UserMessage)
  | assistant (message : AssistantMessage)
  | toolResult (message : ToolResultMessage)

namespace Message

def isAssistant : Message → Bool
  | assistant _ => true
  | _ => false

def isToolResult : Message → Bool
  | toolResult _ => true
  | _ => false

def toolResult? : Message → Option ToolResultMessage
  | toolResult message => some message
  | _ => none

end Message

def AssistantMessage.calls (message : AssistantMessage) : List ToolCall :=
  message.content.filterMap fun
    | .toolCall call => some call
    | _ => none

def Message.calls : Message → List ToolCall
  | .assistant message => message.calls
  | _ => []

/-! `orderToolResults`. -/

/-- `MISSING_RESULT_TEXT`. -/
def missingResultText : JsString :=
  js "Tool result unavailable: history ends before this call completed."

def missingResult (call : ToolCall) (timestamp : JsNumber) : ToolResultMessage where
  toolCallId := call.id
  toolName := call.name
  content := [.text missingResultText]
  isError := true
  details := some (.obj [(js "reason", .str (js "missing_result"))])
  timestamp := timestamp
  rest := .obj []

/-- The messages before the next assistant. -/
def turn (messages : List Message) : List Message :=
  messages.takeWhile fun message => !message.isAssistant

/-- One turn of the loop that fills the map `results`. -/
def note (results : List (JsString × ToolResultMessage)) : Message → List (JsString × ToolResultMessage)
  | .toolResult result =>
    if (results.lookup result.toolCallId).isNone then set results result.toolCallId result else results
  | _ => results

/-- The map `results` of a turn: the first result for each id. -/
def results (turn : List Message) : List (JsString × ToolResultMessage) :=
  turn.foldl note []

/-- The result placed for a call. -/
def answer (results : List (JsString × ToolResultMessage)) (timestamp : JsNumber) (call : ToolCall) : ToolResultMessage :=
  (results.lookup call.id).getD (missingResult call timestamp)

/-- What is placed directly behind an assistant message. -/
def answers (message : AssistantMessage) (after : List Message) : List Message :=
  message.calls.map fun call => .toolResult (answer (results (turn after)) message.timestamp call)

def orderToolResults : List Message → List Message
  | [] => []
  | .toolResult _ :: rest => orderToolResults rest
  | .assistant message :: rest => .assistant message :: (answers message rest ++ orderToolResults rest)
  | .system message :: rest => .system message :: orderToolResults rest
  | .user message :: rest => .user message :: orderToolResults rest

/-! The results of a turn. -/

theorem turn_append (first second : List Message) (hSecond : second = [] ∨ ∃ message rest, second = .assistant message :: rest) :
    turn (first ++ second) = turn first := by
  obtain rfl | ⟨message, rest, rfl⟩ := hSecond
  · rw [append_nil]
  · induction first with
    | nil => rfl
    | cons first firsts ih =>
      unfold turn at ih ⊢
      rw [cons_append, takeWhile_cons, takeWhile_cons, ih]

theorem lookup_note (found : List (JsString × ToolResultMessage)) (candidate : Message) (id : JsString) :
    (note found candidate).lookup id =
      (found.lookup id).or (candidate.toolResult?.filter fun result => result.toolCallId = id) := by
  cases candidate with
  | toolResult result =>
    by_cases hId : result.toolCallId = id
    · subst hId
      cases hFound : found.lookup result.toolCallId with
      | none => simp [note, hFound, Message.toolResult?, lookup_set_self, Option.filter]
      | some value => simp [note, hFound]
    · have hSame : (note found (.toolResult result)).lookup id = found.lookup id := by
        rw [note]
        split_ifs
        · exact lookup_set_of_ne found result (Ne.symm hId)
        · rfl
      simp [hSame, Message.toolResult?, hId, Option.filter]
  | system message => simp [note, Message.toolResult?]
  | user message => simp [note, Message.toolResult?]
  | assistant message => simp [note, Message.toolResult?]

theorem lookup_results (turn : List Message) (id : JsString) :
    (results turn).lookup id = (turn.filterMap Message.toolResult?).find? fun result => result.toolCallId = id := by
  have hFold : ∀ found : List (JsString × ToolResultMessage), (turn.foldl note found).lookup id =
      (found.lookup id).or ((turn.filterMap Message.toolResult?).find? fun result => result.toolCallId = id) := by
    induction turn with
    | nil => simp
    | cons candidate rest ih =>
      intro found
      rw [foldl_cons, ih, lookup_note, Option.or_assoc]
      congr 1
      cases candidate with
      | toolResult result =>
        rw [filterMap_cons_some (show Message.toolResult? (.toolResult result) = some result from rfl), find?_cons]
        by_cases hId : result.toolCallId = id <;> simp [Message.toolResult?, hId, Option.filter]
      | system message => simp [Message.toolResult?]
      | user message => simp [Message.toolResult?]
      | assistant message => simp [Message.toolResult?]
  have hResults := hFold []
  rw [lookup_nil, Option.none_or] at hResults
  exact hResults

theorem answer_toolCallId (turn : List Message) (timestamp : JsNumber) (call : ToolCall) :
    (answer (results turn) timestamp call).toolCallId = call.id := by
  rw [answer, lookup_results]
  cases hFind : (turn.filterMap Message.toolResult?).find? fun result => result.toolCallId = call.id with
  | none => rfl
  | some result => simpa using find?_some hFind

theorem find_answers (calls : List ToolCall) (result : ToolCall → ToolResultMessage)
    (hResult : ∀ call, (result call).toolCallId = call.id) (hDistinct : (calls.map ToolCall.id).Nodup)
    {call : ToolCall} (hCall : call ∈ calls) :
    ((calls.map result).find? fun found => found.toolCallId = call.id) = some (result call) := by
  induction calls with
  | nil => cases hCall
  | cons first rest ih =>
    rw [map_cons, find?_cons, hResult]
    rw [map_cons, nodup_cons] at hDistinct
    obtain rfl | hRest := List.mem_cons.mp hCall
    · simp
    · have hOther : first.id ≠ call.id := by
        intro hSame
        exact hDistinct.1 (hSame ▸ mem_map_of_mem hRest)
      simpa [hOther] using ih hDistinct.2 hRest

theorem orderToolResults_append (first second : List Message)
    (hSecond : second = [] ∨ ∃ message rest, second = .assistant message :: rest) :
    orderToolResults (first ++ second) = orderToolResults first ++ orderToolResults second := by
  induction first with
  | nil => rfl
  | cons message rest ih =>
    cases message with
    | toolResult result => exact ih
    | system system => exact congrArg (.system system :: ·) ih
    | user user => exact congrArg (.user user :: ·) ih
    | assistant assistant =>
      rw [cons_append, orderToolResults, orderToolResults, ih, answers, answers, turn_append rest second hSecond,
        cons_append, append_assoc]

theorem orderToolResults_orphans (orphans : List ToolResultMessage) (rest : List Message) :
    orderToolResults (orphans.map Message.toolResult ++ rest) = orderToolResults rest := by
  induction orphans with
  | nil => rfl
  | cons orphan orphans ih => exact ih

variable (messages : List Message)

theorem filter_orderToolResults :
    ((orderToolResults messages).filter fun message => !message.isToolResult) =
      messages.filter fun message => !message.isToolResult := by
  induction messages with
  | nil => rfl
  | cons message rest ih =>
    cases message with
    | toolResult result => simpa [orderToolResults, Message.isToolResult] using ih
    | system system => simpa [orderToolResults, Message.isToolResult] using ih
    | user user => simpa [orderToolResults, Message.isToolResult] using ih
    | assistant assistant =>
      have hAnswers : ((answers assistant rest).filter fun message => !message.isToolResult) = [] := by
        simp [answers, Message.isToolResult]
      simp only [orderToolResults, filter_cons, filter_append, hAnswers, ih, nil_append]

theorem countP_orderToolResults :
    (orderToolResults messages).countP Message.isToolResult = (messages.map fun message => message.calls.length).sum := by
  induction messages with
  | nil => rfl
  | cons message rest ih =>
    cases message with
    | toolResult result => simpa [orderToolResults, Message.calls] using ih
    | system system => simpa [orderToolResults, Message.isToolResult, Message.calls] using ih
    | user user => simpa [orderToolResults, Message.isToolResult, Message.calls] using ih
    | assistant assistant =>
      have hAnswers : (answers assistant rest).countP Message.isToolResult = assistant.calls.length := by
        rw [answers, countP_map]
        exact List.countP_eq_length.mpr fun _ _ => rfl
      rw [orderToolResults, countP_cons, countP_append, hAnswers, ih]
      simp [Message.isToolResult, Message.calls]

theorem turn_orderToolResults :
    (turn (orderToolResults messages)).filterMap Message.toolResult? = [] := by
  induction messages with
  | nil => rfl
  | cons message rest ih =>
    cases message with
    | toolResult result => exact ih
    | system system => exact ih
    | user user => exact ih
    | assistant assistant => rfl

theorem head_orderToolResults (result : ToolResultMessage) :
    (orderToolResults messages).head? ≠ some (.toolResult result) := by
  induction messages with
  | nil => simp [orderToolResults]
  | cons message rest ih =>
    cases message with
    | toolResult result => exact ih
    | system system => simp [orderToolResults]
    | user user => simp [orderToolResults]
    | assistant assistant => simp [orderToolResults]

theorem turn_results (found : List ToolResultMessage) (rest : List Message) :
    turn (found.map Message.toolResult ++ rest) = found.map Message.toolResult ++ turn rest := by
  induction found with
  | nil => rfl
  | cons first found ih => exact congrArg (.toolResult first :: ·) ih

theorem answers_again (message : AssistantMessage) (after : List Message) (hDistinct : (message.calls.map ToolCall.id).Nodup) :
    answers message (answers message after ++ orderToolResults after) = answers message after := by
  have hPlaced : answers message after =
      (message.calls.map (answer (results (turn after)) message.timestamp)).map Message.toolResult := by
    rw [answers, map_map]
    rfl
  have hFound : (turn (answers message after ++ orderToolResults after)).filterMap Message.toolResult? =
      message.calls.map (answer (results (turn after)) message.timestamp) := by
    rw [hPlaced, turn_results, filterMap_append, turn_orderToolResults, append_nil, filterMap_map]
    exact filterMap_some
  apply map_congr_left
  intro call hCall
  have hOwn := find_answers message.calls (answer (results (turn after)) message.timestamp)
    (answer_toolCallId (turn after) message.timestamp) hDistinct hCall
  rw [answer, lookup_results, hFound, hOwn]
  rfl

theorem orderToolResults_again (hDistinct : ∀ message, .assistant message ∈ messages → (message.calls.map ToolCall.id).Nodup) :
    orderToolResults (orderToolResults messages) = orderToolResults messages := by
  induction messages with
  | nil => rfl
  | cons message rest ih =>
    have hRest := ih fun message hMessage => hDistinct message (mem_cons_of_mem _ hMessage)
    cases message with
    | toolResult result => exact hRest
    | system system => exact congrArg (.system system :: ·) hRest
    | user user => exact congrArg (.user user :: ·) hRest
    | assistant assistant =>
      have hOrphans : orderToolResults (answers assistant rest ++ orderToolResults rest) = orderToolResults rest := by
        rw [answers, ← Function.comp_def Message.toolResult, ← map_map, orderToolResults_orphans, hRest]
      rw [orderToolResults, orderToolResults, answers_again assistant rest (hDistinct assistant mem_cons_self),
        hOrphans]

theorem orderToolResults_split (before after : List Message) (message : AssistantMessage) :
    orderToolResults (before ++ .assistant message :: after) =
      orderToolResults before ++ .assistant message :: (answers message after ++ orderToolResults after) :=
  orderToolResults_append before _ (.inr ⟨message, after, rfl⟩)

/-- What `orderToolResults` makes of a list of messages: everything else stays, every call
has one result directly behind its message, and the parts between assistant messages are
ordered each by itself. -/
theorem toolResults_ordered (messages : List Message)
    (hDistinct : ∀ message, .assistant message ∈ messages → (message.calls.map ToolCall.id).Nodup) :
    ((orderToolResults messages).filter fun message => !message.isToolResult) =
        (messages.filter fun message => !message.isToolResult) ∧
      (∀ before message after, messages = before ++ .assistant message :: after →
        orderToolResults messages =
            orderToolResults before ++ .assistant message ::
              ((message.calls.map fun call =>
                Message.toolResult
                  ((((turn after).filterMap Message.toolResult?).find? fun result => result.toolCallId = call.id).getD
                    (missingResult call message.timestamp))) ++ orderToolResults after) ∧
          ∀ result, (orderToolResults after).head? ≠ some (.toolResult result)) ∧
      (orderToolResults messages).countP Message.isToolResult =
        (messages.map fun message => message.calls.length).sum ∧
      orderToolResults (orderToolResults messages) = orderToolResults messages ∧
      ∀ first second, messages = first ++ second →
        (second = [] ∨ ∃ message rest, second = .assistant message :: rest) →
        orderToolResults messages = orderToolResults first ++ orderToolResults second := by
  refine ⟨filter_orderToolResults messages, ?_, countP_orderToolResults messages, orderToolResults_again messages hDistinct, ?_⟩
  · rintro before message after rfl
    refine ⟨?_, head_orderToolResults after⟩
    rw [orderToolResults_split, answers]
    simp only [answer, lookup_results]
  · rintro first second rfl hSecond
    exact orderToolResults_append first second hSecond

/-- Two calls, one of them answered twice and behind a user message, and a result of no
call. -/
def lateResults : List Message :=
  [.assistant ⟨[.toolCall ⟨[1], [], .null⟩, .toolCall ⟨[2], [], .null⟩], .ofNat 5, .null⟩, .user ⟨.string [], .ofNat 6⟩,
    .toolResult ⟨[2], [], [], false, none, .ofNat 7, .null⟩, .toolResult ⟨[2], [], [], true, none, .ofNat 8, .null⟩,
    .toolResult ⟨[3], [], [], false, none, .ofNat 9, .null⟩]

theorem lateResults_ordered :
    (orderToolResults lateResults).countP Message.isToolResult = 2 ∧
      orderToolResults (orderToolResults lateResults) = orderToolResults lateResults ∧
      orderToolResults lateResults =
        [.assistant ⟨[.toolCall ⟨[1], [], .null⟩, .toolCall ⟨[2], [], .null⟩], .ofNat 5, .null⟩,
          .toolResult (missingResult ⟨[1], [], .null⟩ (.ofNat 5)), .toolResult ⟨[2], [], [], false, none, .ofNat 7, .null⟩,
          .user ⟨.string [], .ofNat 6⟩] := by
  have hDistinct : ∀ message, .assistant message ∈ lateResults → (message.calls.map ToolCall.id).Nodup := by
    intro message hMessage
    simp only [lateResults, mem_cons, Message.assistant.injEq, reduceCtorEq, not_mem_nil, or_false] at hMessage
    subst hMessage
    decide
  have hOrdered := toolResults_ordered lateResults hDistinct
  exact ⟨hOrdered.2.2.1, hOrdered.2.2.2.1, rfl⟩

end OctoberHarness.Context
