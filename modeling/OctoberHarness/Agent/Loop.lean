import OctoberHarness.Agent.Messages
import OctoberHarness.Library.Effects

/-! The agent loop: turns of a model response and its tool calls, with the hooks of its
configuration and everything else outside it as operations of an environment. -/
namespace OctoberHarness.Agent

open Effects
open Effects.Program (perform loop all)

/-! What passes between the loop and its surroundings. -/

structure AgentToolResult where
  content : Option StrictJson
  details : Option StrictJson
  structuredContent : Option StrictJson
  usage : Option StrictJson
  isError : Option Bool
  terminate : Option Bool

/-- `AgentToolCallOutcome`, without the duration. -/
structure FinalizedToolCallOutcome where
  toolCall : ToolCall
  result : AgentToolResult
  isError : Bool

structure BeforeToolCallResult where
  block : Bool
  reason : Option JsString
  terminate : Bool

structure AfterToolCallResult where
  content : Option StrictJson
  details : Option StrictJson
  structuredContent : Option StrictJson
  isError : Option Bool
  usage : Option StrictJson
  terminate : Option Bool

inductive AgentEvent where
  | agentStart
  | agentEnd (messages : List AgentMessage)
  | turnStart
  | turnEnd (message : AssistantMessage) (toolResults : List ToolResultMessage)
  | messageStart (message : AgentMessage)
  | messageUpdate (message : AssistantMessage)
  | messageEnd (message : AgentMessage)
  | toolExecutionStart (toolCall : ToolCall)
  | toolExecutionUpdate (toolCall : ToolCall) (partialResult : StrictJson)
  | toolExecutionEnd (finalized : FinalizedToolCallOutcome)

/-- The events of a response stream; `update` is any event between the first and the last. -/
inductive StreamEvent where
  | start (partialMessage : AssistantMessage)
  | update (partialMessage : AssistantMessage)
  | done
  | error

structure AgentTurnContext where
  message : AssistantMessage
  toolResults : List ToolResultMessage
  context : AgentContext
  newMessages : List AgentMessage

structure AgentLoopTurnUpdate where
  context : Option AgentContext
  messages : Option (List AgentMessage)
  model : Option JsString
  thinkingLevel : Option JsString

inductive AgentTurnDecision where
  | continue
  | end
deriving DecidableEq

structure AgentLoopConfig where
  model : JsString
  reasoning : Option JsString
  toolExecution : Option ExecutionMode

/-- What a running tool reports: a partial result, or its result. -/
inductive Progress where
  | update (partialResult : StrictJson)
  | settled (result : AgentToolResult)

/-- What the loop awaits or reads from outside. -/
inductive Op : Type → Type where
  | emit (event : AgentEvent) : Op Unit
  | getSteeringMessages : Op (List AgentMessage)
  | getFollowUpMessages : Op (List AgentMessage)
  | prepareNextTurn (turn : AgentTurnContext) : Op (Option AgentLoopTurnUpdate)
  | prepareRequest (context : AgentContext) (config : AgentLoopConfig) : Op (Option AgentLoopTurnUpdate)
  | finishTurn (turn : AgentTurnContext) : Op (Option AgentTurnDecision)
  | transformContext (messages : List AgentMessage) : Op (List AgentMessage)
  | convertToLlm (messages : List AgentMessage) : Op (List AgentMessage)
  | getApiKey : Op Unit
  /-- Calls the stream function; `context` is the loop's context behind the request. -/
  | streamFunction (context : AgentContext) (config : AgentLoopConfig) (llmMessages : List AgentMessage) : Op Unit
  | nextEvent : Op (Option StreamEvent)
  | result : Op AssistantMessage
  | aborted : Op Bool
  | prepareArguments (tool : AgentTool) (toolCall : ToolCall) : Op ToolCall
  | validateToolArguments (tool : AgentTool) (toolCall : ToolCall) : Op StrictJson
  | beforeToolCall (message : AssistantMessage) (toolCall : ToolCall) (args : StrictJson) (context : AgentContext) :
      Op (Option BeforeToolCallResult)
  | execute (tool : AgentTool) (toolCall : ToolCall) (args : StrictJson) : Op Unit
  | progress (toolCall : ToolCall) : Op Progress
  | afterToolCall (message : AssistantMessage) (toolCall : ToolCall) (args : StrictJson) (result : AgentToolResult)
      (isError : Bool) (context : AgentContext) : Op (Option AfterToolCallResult)
  /-- The state of the agent that a run starts from. -/
  | snapshot : Op AgentContext
  /-- Takes messages from a queue of the agent. -/
  | drain (queue : QueueName) : Op (List AgentMessage)
  /-- A run begins, its first steering poll skipped or not. -/
  | beginRun (skipInitialSteeringPoll : Bool) : Op AgentLoopConfig
  /-- The model of the agent's state, for the message of a failed run. -/
  | failureModel : Op StrictJson
  | finishRun : Op Unit

/-- A program of the agent. What is thrown is an error message. -/
abbrev Prog : Type → Type 1 :=
  Program JsString Op

def emit (event : AgentEvent) : Prog Unit :=
  perform (.emit event)

/-- `message_start` and `message_end`. -/
def emitMessage (message : AgentMessage) : Prog Unit := do
  emit (.messageStart message)
  emit (.messageEnd message)

def emitMessages : List AgentMessage → Prog Unit
  | [] => pure ()
  | message :: rest => do
    emitMessage message
    emitMessages rest

/-! Streaming a response. -/

def AgentContext.push (context : AgentContext) (message : AgentMessage) : AgentContext :=
  { context with messages := context.messages ++ [message] }

/-- `context.messages[context.messages.length - 1] = message`. -/
def AgentContext.replaceLast (context : AgentContext) (message : AgentMessage) : AgentContext :=
  { context with messages := context.messages.dropLast ++ [message] }

/-- The end of a response, after a partial message was added or not. -/
def finishResponse (context : AgentContext) (config : AgentLoopConfig) (addedPartial : Bool) :
    Prog (AgentContext × AssistantMessage) := do
  let response ← perform .result
  let finalMessage : AssistantMessage := { response with thinkingLevel := some (config.reasoning.getD (js "off")) }
  if addedPartial then
    emit (.messageEnd (.ofAssistant finalMessage))
    pure (context.replaceLast (.ofAssistant finalMessage), finalMessage)
  else
    emit (.messageStart (.ofAssistant finalMessage))
    emit (.messageEnd (.ofAssistant finalMessage))
    pure (context.push (.ofAssistant finalMessage), finalMessage)

/-- One event of the response stream. -/
def streamPass (config : AgentLoopConfig) :
    AgentContext × Bool → Prog ((AgentContext × Bool) ⊕ (AgentContext × AssistantMessage))
  | (context, addedPartial) => do
    match ← perform .nextEvent with
    | some (.start partialMessage) =>
      emit (.messageStart (.ofAssistant partialMessage))
      pure (.inl (context.push (.ofAssistant partialMessage), true))
    | some (.update partialMessage) =>
      if addedPartial then
        emit (.messageUpdate partialMessage)
        pure (.inl (context.replaceLast (.ofAssistant partialMessage), true))
      else
        pure (.inl (context, false))
    | some .done | some .error | none =>
      let finished ← finishResponse context config addedPartial
      pure (.inr finished)

def streamAssistantResponse (context : AgentContext) (config : AgentLoopConfig) : Prog (AgentContext × AssistantMessage) := do
  let messages ← perform (.transformContext context.messages)
  let llmMessages ← perform (.convertToLlm messages)
  perform .getApiKey
  perform (.streamFunction context config llmMessages)
  loop (streamPass config) (context, false)

def createErrorToolResult (message : JsString) : AgentToolResult where
  content := some ⟨.arr [.obj [(js "type", .str (js "text")), (js "text", .str message)]], by
    rw [JsonValue.strict_arr]
    intro item hItem
    rw [List.mem_singleton.mp hItem, JsonValue.strict_obj]
    refine ⟨show OwnKeys [js "type", js "text"] from ⟨by decide, by decide⟩, ?_⟩
    intro field hField
    rcases List.mem_cons.mp hField with rfl | hField
    · trivial
    · rw [List.mem_singleton.mp hField]
      trivial⟩
  details := some ⟨.obj [], (JsonValue.strict_obj _).mpr
    ⟨show OwnKeys [] from ⟨by decide, by decide⟩, fun _ hField => absurd hField List.not_mem_nil⟩⟩
  structuredContent := none
  usage := none
  isError := none
  terminate := none

def createToolResultMessage (finalized : FinalizedToolCallOutcome) : ToolResultMessage where
  toolCallId := finalized.toolCall.id
  toolName := finalized.toolCall.name
  content := finalized.result.content.getD ⟨.arr [], (JsonValue.strict_arr _).mpr fun _ hItem => absurd hItem List.not_mem_nil⟩
  details := finalized.result.details
  usage := finalized.result.usage
  isError := finalized.isError

structure ExecutedToolCallBatch where
  messages : List ToolResultMessage
  terminate : Bool

def shouldTerminateToolBatch (finalizedCalls : List FinalizedToolCallOutcome) : Bool :=
  !finalizedCalls.isEmpty && finalizedCalls.all fun finalized => finalized.result.terminate = some true

inductive Preparation where
  | immediate (result : AgentToolResult)
  | prepared (tool : AgentTool) (args : StrictJson)

/-- `prepareToolCall` from the hook on; without a hook it answers nothing. -/
def checkToolCall (context : AgentContext) (message : AssistantMessage) (toolCall : ToolCall) (tool : AgentTool)
    (args : StrictJson) : Prog Preparation := do
  let before ← perform (.beforeToolCall message toolCall args context)
  if ← perform .aborted then
    pure (.immediate (createErrorToolResult (js "Operation aborted")))
  else
    match before with
    | some ⟨true, reason, terminate⟩ =>
      pure (.immediate
        { createErrorToolResult ((reason.filter (· ≠ [])).getD (js "Tool execution was blocked")) with
          terminate := if terminate then some true else none })
    | _ =>
      if ← perform .aborted then
        pure (.immediate (createErrorToolResult (js "Operation aborted")))
      else pure (.prepared tool args)

def prepareToolCall (context : AgentContext) (message : AssistantMessage) (toolCall : ToolCall) : Prog Preparation :=
  match context.tools.find? fun tool => tool.declaration.name = toolCall.name with
  | none => pure (.immediate (createErrorToolResult (js "Tool " ++ toolCall.name ++ js " not found")))
  | some tool =>
    tryCatch
      (do
        let preparedToolCall ← perform (.prepareArguments tool toolCall)
        let validatedArgs ← perform (.validateToolArguments tool preparedToolCall)
        checkToolCall context message toolCall tool validatedArgs)
      fun error => pure (.immediate (createErrorToolResult error))

/-- What a running tool reports next. The listeners of an update are awaited when the
tool has settled; `failed` is the first of them that threw. -/
def executePass (toolCall : ToolCall) (failed : Option JsString) :
    Prog (Option JsString ⊕ (Option JsString × Except JsString AgentToolResult)) := do
  let progress ← tryCatch (Except.ok <$> perform (.progress toolCall)) fun error => pure (.error error)
  match progress with
  | .ok (.update partialResult) =>
    tryCatch
      (do
        emit (.toolExecutionUpdate toolCall partialResult)
        pure (.inl failed))
      fun error => pure (.inl (failed.or (some error)))
  | .ok (.settled result) => pure (.inr (failed, .ok result))
  | .error error => pure (.inr (failed, .error error))

def executePreparedToolCall (tool : AgentTool) (toolCall : ToolCall) (args : StrictJson) :
    Prog (AgentToolResult × Bool) := do
  let started ← tryCatch (Except.ok <$> perform (.execute tool toolCall args)) fun error => pure (.error error)
  match started with
  | .error error => pure (createErrorToolResult error, true)
  | .ok () => do
    let (failed, outcome) ← loop (executePass toolCall) none
    match failed, outcome with
    | some error, _ => throw error
    | none, .ok result => pure (result, result.isError = some true)
    | none, .error error => pure (createErrorToolResult error, true)

/-- What `afterToolCall` replaces. -/
def AfterToolCallResult.override (after : AfterToolCallResult) (result : AgentToolResult) : AgentToolResult :=
  { result with
    content := after.content.or result.content
    details := after.details.or result.details
    usage := after.usage.or result.usage
    terminate := after.terminate.or result.terminate
    structuredContent := after.structuredContent.or (if after.content.isSome then none else result.structuredContent) }

def finalizeExecutedToolCall (context : AgentContext) (message : AssistantMessage) (toolCall : ToolCall) (args : StrictJson)
    (result : AgentToolResult) (isError : Bool) : Prog FinalizedToolCallOutcome :=
  tryCatch
    (do
      match ← perform (.afterToolCall message toolCall args result isError context) with
      | some after => pure ⟨toolCall, after.override result, after.isError.getD isError⟩
      | none => pure ⟨toolCall, result, isError⟩)
    fun error => pure ⟨toolCall, createErrorToolResult error, true⟩

def runPrepared (context : AgentContext) (message : AssistantMessage) (toolCall : ToolCall) (tool : AgentTool)
    (args : StrictJson) : Prog FinalizedToolCallOutcome := do
  let (result, isError) ← executePreparedToolCall tool toolCall args
  finalizeExecutedToolCall context message toolCall args result isError

def failToolCallsFromTruncatedMessage : List ToolCall → Prog (List ToolResultMessage)
  | [] => pure []
  | toolCall :: rest => do
    emit (.toolExecutionStart toolCall)
    let finalized : FinalizedToolCallOutcome :=
      ⟨toolCall, createErrorToolResult (js "Tool call \"" ++ toolCall.name ++
        js "\" was not executed: the response hit the output token limit, so its arguments may be truncated. Re-issue the tool call with complete arguments."),
        true⟩
    emit (.toolExecutionEnd finalized)
    emitMessage (.ofToolResult (createToolResultMessage finalized))
    let messages ← failToolCallsFromTruncatedMessage rest
    pure (createToolResultMessage finalized :: messages)

/-- A call of a sequential batch, from its preparation to its outcome. -/
def runSequential (context : AgentContext) (message : AssistantMessage) (toolCall : ToolCall) :
    Prog FinalizedToolCallOutcome := do
  match ← prepareToolCall context message toolCall with
  | .immediate result => pure ⟨toolCall, result, true⟩
  | .prepared tool args => runPrepared context message toolCall tool args

/-- `executeToolCallsSequential`: an abort ends the batch after the call it came in. -/
def executeToolCallsSequential (context : AgentContext) (message : AssistantMessage) :
    List ToolCall → Prog (List FinalizedToolCallOutcome)
  | [] => pure []
  | toolCall :: rest => do
    emit (.toolExecutionStart toolCall)
    let finalized ← runSequential context message toolCall
    emit (.toolExecutionEnd finalized)
    emitMessage (.ofToolResult (createToolResultMessage finalized))
    if ← perform .aborted then pure [finalized]
    else do
      let finalizedCalls ← executeToolCallsSequential context message rest
      pure (finalized :: finalizedCalls)

/-- A prepared call of a parallel batch. -/
def parallelTask (context : AgentContext) (message : AssistantMessage) (toolCall : ToolCall) (tool : AgentTool)
    (args : StrictJson) : Prog FinalizedToolCallOutcome := do
  if ← perform .aborted then
    emit (.toolExecutionEnd ⟨toolCall, createErrorToolResult (js "Operation aborted"), true⟩)
    pure ⟨toolCall, createErrorToolResult (js "Operation aborted"), true⟩
  else do
    let finalized ← runPrepared context message toolCall tool args
    emit (.toolExecutionEnd finalized)
    pure finalized

/-- The preparation of a call of a parallel batch; an outcome that is there at once ends at
once. -/
def prepareEntry (context : AgentContext) (message : AssistantMessage) (toolCall : ToolCall) :
    Prog (FinalizedToolCallOutcome ⊕ (AgentTool × StrictJson)) := do
  match ← prepareToolCall context message toolCall with
  | .immediate result => do
    emit (.toolExecutionEnd ⟨toolCall, result, true⟩)
    pure (.inl ⟨toolCall, result, true⟩)
  | .prepared tool args => pure (.inr (tool, args))

def prepareParallel (context : AgentContext) (message : AssistantMessage) :
    List ToolCall → Prog (List (ToolCall × (FinalizedToolCallOutcome ⊕ (AgentTool × StrictJson))))
  | [] => pure []
  | toolCall :: rest => do
    emit (.toolExecutionStart toolCall)
    let entry ← prepareEntry context message toolCall
    if ← perform .aborted then pure [(toolCall, entry)]
    else do
      let entries ← prepareParallel context message rest
      pure ((toolCall, entry) :: entries)

/-- What `Promise.all` waits for. -/
def entryTask (context : AgentContext) (message : AssistantMessage) :
    ToolCall × (FinalizedToolCallOutcome ⊕ (AgentTool × StrictJson)) → Prog FinalizedToolCallOutcome
  | (_, .inl finalized) => pure finalized
  | (toolCall, .inr (tool, args)) => parallelTask context message toolCall tool args

def executeToolCallsParallel (context : AgentContext) (message : AssistantMessage) (toolCalls : List ToolCall) :
    Prog (List FinalizedToolCallOutcome) := do
  let entries ← prepareParallel context message toolCalls
  let finalizedCalls ← all (entries.map (entryTask context message))
  emitMessages (finalizedCalls.map fun finalized => .ofToolResult (createToolResultMessage finalized))
  pure finalizedCalls

/-- Whether a call names a tool that must run by itself. -/
def isSequentialCall (context : AgentContext) (toolCall : ToolCall) : Bool :=
  match context.tools.find? fun tool => tool.declaration.name = toolCall.name with
  | some tool => tool.executionMode = some .sequential
  | none => false

def executeToolCalls (context : AgentContext) (message : AssistantMessage) (config : AgentLoopConfig) :
    Prog (List FinalizedToolCallOutcome) :=
  if config.toolExecution = some .sequential ∨ message.toolCalls.any (isSequentialCall context) then
    executeToolCallsSequential context message message.toolCalls
  else executeToolCallsParallel context message message.toolCalls

/-- The tool calls of a response; those of a truncated one fail. -/
def runToolCalls (context : AgentContext) (message : AssistantMessage) (config : AgentLoopConfig) :
    Prog ExecutedToolCallBatch := do
  if message.stopReason = .length then
    let messages ← failToolCallsFromTruncatedMessage message.toolCalls
    pure ⟨messages, false⟩
  else do
    let finalizedCalls ← executeToolCalls context message config
    pure ⟨finalizedCalls.map createToolResultMessage, shouldTerminateToolBatch finalizedCalls⟩

/-- The variables of `runLoop`. -/
structure LoopState where
  context : AgentContext
  config : AgentLoopConfig
  newMessages : List AgentMessage
  lastCompletedTurn : Option AgentTurnContext
  explicitContinuation : Bool
  pendingMessages : List AgentMessage
  hasMoreToolCalls : Bool

/-- The context, the model and the thinking level a hook replaces. -/
def LoopState.update (s : LoopState) (update : AgentLoopTurnUpdate) : LoopState :=
  { s with
    context := update.context.getD s.context
    config :=
      { s.config with
        model := update.model.getD s.config.model
        reasoning :=
          match update.thinkingLevel with
          | none => s.config.reasoning
          | some level => if level = js "off" then none else some level } }

/-- Polls steering once more only if the last poll found nothing. -/
def pollUnlessPending (pendingMessages : List AgentMessage) : Prog (List AgentMessage) :=
  if pendingMessages.isEmpty then perform .getSteeringMessages else pure pendingMessages

/-- Before another turn: what the hook prepares and the messages that came in meanwhile. -/
def prepareTurn (s : LoopState) : Prog (LoopState × List AgentMessage) :=
  match s.lastCompletedTurn with
  | none => pure (s, [])
  | some turn => do
    let snapshot ← perform (.prepareNextTurn turn)
    let pendingMessages ← pollUnlessPending s.pendingMessages
    emit .turnStart
    pure
      ({ (snapshot.elim s s.update) with pendingMessages },
        (snapshot.bind AgentLoopTurnUpdate.messages).getD [])

/-- The messages that stand before the response. -/
def deliver : List AgentMessage → LoopState → Prog LoopState
  | [], s => pure s
  | message :: rest, s => do
    emitMessage message
    deliver rest { s with context := s.context.push message, newMessages := s.newMessages ++ [message] }

/-- The tool results in the transcript. -/
def LoopState.addResults (s : LoopState) (results : List ToolResultMessage) : LoopState :=
  { s with
    context := { s.context with messages := s.context.messages ++ results.map .ofToolResult }
    newMessages := s.newMessages ++ results.map .ofToolResult }

/-- How the inner loop ends: the run is over, or the agent would stop. -/
inductive InnerEnd where
  | stopped (newMessages : List AgentMessage)
  | wouldStop (s : LoopState)

/-- The end of a turn: the hook, its event and what it decided. -/
def finishTurn (s : LoopState) (message : AssistantMessage) (toolResults : List ToolResultMessage) :
    Prog (LoopState ⊕ InnerEnd) := do
  let decision ← perform (.finishTurn ⟨message, toolResults, s.context, s.newMessages⟩)
  emit (.turnEnd message toolResults)
  if message.stopReason = .error ∨ message.stopReason = .aborted ∨ decision = some .end then
    emit (.agentEnd s.newMessages)
    pure (.inr (.stopped s.newMessages))
  else do
    let pendingMessages ← perform .getSteeringMessages
    pure (.inl
      { s with
        lastCompletedTurn := some ⟨message, toolResults, s.context, s.newMessages⟩
        pendingMessages
        explicitContinuation :=
          decision = some .continue && !(s.hasMoreToolCalls || !pendingMessages.isEmpty) })

/-- The response of a turn, and its tool calls unless it failed. -/
def respond (s : LoopState) : Prog (LoopState ⊕ InnerEnd) := do
  let (context, message) ← streamAssistantResponse s.context s.config
  let s := { s with context, newMessages := s.newMessages ++ [.ofAssistant message], hasMoreToolCalls := false }
  if message.stopReason = .error ∨ message.stopReason = .aborted ∨ message.toolCalls.isEmpty then
    finishTurn s message []
  else do
    let batch ← runToolCalls s.context message s.config
    finishTurn { s.addResults batch.messages with hasMoreToolCalls := !batch.terminate } message batch.messages

def turn (s : LoopState) : Prog (LoopState ⊕ InnerEnd) := do
  let (s, preparedMessages) ← prepareTurn s
  let s ← deliver (declareToolChanges s.context (preparedMessages ++ s.pendingMessages)) s
  let s := { s with pendingMessages := [] }
  let update ← perform (.prepareRequest s.context s.config)
  respond (update.elim s s.update)

/-- The inner loop: tool calls and steering messages. -/
def innerPass (s : LoopState) : Prog (LoopState ⊕ InnerEnd) :=
  if s.hasMoreToolCalls || !s.pendingMessages.isEmpty then turn s else pure (.inr (.wouldStop s))

/-- The outer loop: follow-up messages when the agent would stop. -/
def outerPass (s : LoopState) : Prog (LoopState ⊕ List AgentMessage) := do
  match ← loop innerPass { s with hasMoreToolCalls := true } with
  | .stopped newMessages => pure (.inr newMessages)
  | .wouldStop s => do
    let followUpMessages ← perform .getFollowUpMessages
    if !followUpMessages.isEmpty then
      pure (.inl { s with explicitContinuation := false, pendingMessages := followUpMessages })
    else if s.explicitContinuation then pure (.inl { s with explicitContinuation := false })
    else do
      emit (.agentEnd s.newMessages)
      pure (.inr s.newMessages)

/-- `runLoop`; its result is what it added to the new messages. -/
def runLoop (context : AgentContext) (newMessages : List AgentMessage) (config : AgentLoopConfig) :
    Prog (List AgentMessage) := do
  let pendingMessages ← perform .getSteeringMessages
  loop outerPass
    { context, config, newMessages, lastCompletedTurn := none, explicitContinuation := false, pendingMessages,
      hasMoreToolCalls := true }

def runAgentLoop (prompts : List AgentMessage) (context : AgentContext) (config : AgentLoopConfig) :
    Prog (List AgentMessage) := do
  emit .agentStart
  emit .turnStart
  emitMessages (declareToolChanges context prompts)
  runLoop { context with messages := context.messages ++ declareToolChanges context prompts }
    (declareToolChanges context prompts) config

def runAgentLoopContinue (context : AgentContext) (config : AgentLoopConfig) : Prog (List AgentMessage) :=
  match context.messages.getLast? with
  | none => throw (js "Cannot continue: no messages in context")
  | some last =>
    if last.isAssistant then throw (js "Cannot continue from message role: assistant")
    else do
      emit .agentStart
      emit .turnStart
      runLoop context [] config

end OctoberHarness.Agent
