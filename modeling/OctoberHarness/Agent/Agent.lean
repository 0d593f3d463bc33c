import OctoberHarness.Agent.Loop

/-! The agent: its queues, its transcript, and the runs of the loop it starts. -/
namespace OctoberHarness.Agent

open Effects
open Effects.Program (perform settle)

def failureMessage (aborted : Bool) (error : JsString) (model : StrictJson) : AssistantMessage where
  content := [.other ⟨.obj [(js "type", .str (js "text")), (js "text", .str [])], by
    rw [JsonValue.strict_obj]
    refine ⟨show OwnKeys [js "type", js "text"] from ⟨by decide, by decide⟩, fun field hField => ?_⟩
    rcases List.mem_cons.mp hField with rfl | hField
    · trivial
    · rw [List.mem_singleton.mp hField]
      trivial⟩]
  stopReason := if aborted then .aborted else .error
  thinkingLevel := none
  errorMessage := some error
  rest := model

def handleRunFailure (error : JsString) : Prog Unit := do
  let aborted ← perform .aborted
  let model ← perform .failureModel
  emitMessage (.ofAssistant (failureMessage aborted error model))
  emit (.turnEnd (failureMessage aborted error model) [])
  emit (.agentEnd [.ofAssistant (failureMessage aborted error model)])

def runWithLifecycle (executor : Prog (List AgentMessage)) : Prog Unit := do
  let outcome ← tryCatch (Except.ok <$> tryCatch (do let _ ← executor; pure ()) handleRunFailure)
    fun error => pure (.error error)
  perform .finishRun
  settle outcome

def runPromptMessages (messages : List AgentMessage) (skipInitialSteeringPoll : Bool) : Prog Unit :=
  runWithLifecycle do
    let config ← perform (.beginRun skipInitialSteeringPoll)
    let context ← perform .snapshot
    runAgentLoop messages context config

def runContinuation : Prog Unit :=
  runWithLifecycle do
    let config ← perform (.beginRun false)
    let context ← perform .snapshot
    runAgentLoopContinue context config

def prompt (messages : List AgentMessage) : Prog Unit :=
  runPromptMessages messages false

/-- `Agent.continue`. -/
def continueRun : Prog Unit := do
  let context ← perform .snapshot
  match context.messages.getLast? with
  | none => throw (js "No messages to continue from")
  | some last =>
    if context.messages.all fun message => message.system?.isSome then throw (js "No messages to continue from")
    else if last.isAssistant then do
      let queuedSteering ← perform (.drain .steering)
      if !queuedSteering.isEmpty then runPromptMessages queuedSteering true
      else do
        let queuedFollowUps ← perform (.drain .followUp)
        if !queuedFollowUps.isEmpty then runPromptMessages queuedFollowUps false
        else throw (js "Cannot continue from message role: assistant")
    else runContinuation

/-! The state of an agent. -/

inductive QueueMode where
  | all
  | oneAtATime
deriving DecidableEq

/-- `PendingMessageQueue`. What is behind the messages is history: those drained so far,
whether the queue was empty at its last poll, and how many of its messages were added
since the run began or the model was last asked. -/
structure PendingMessageQueue where
  mode : QueueMode
  messages : List AgentMessage
  drained : List AgentMessage
  emptyAtPoll : Bool
  added : Nat

namespace PendingMessageQueue

/-- Every message the queue ever got. -/
def enqueued (queue : PendingMessageQueue) : List AgentMessage :=
  queue.drained ++ queue.messages

def peek (queue : PendingMessageQueue) : List AgentMessage :=
  match queue.mode with
  | .all => queue.messages
  | .oneAtATime => queue.messages.take 1

def drain (queue : PendingMessageQueue) : PendingMessageQueue :=
  { queue with
    messages := queue.messages.drop queue.peek.length
    drained := queue.drained ++ queue.peek
    emptyAtPoll := queue.messages.isEmpty }

def enqueue (queue : PendingMessageQueue) (name : QueueName) (body : Body) : PendingMessageQueue :=
  { queue with messages := queue.messages ++ [⟨some ⟨name, queue.enqueued.length⟩, body⟩] }

end PendingMessageQueue

/-- An agent. From `ended` on it is history: the messages of the `message_end` events,
whether anything threw while a drained message had none, and whether in the last run
something threw, a response failed, or a hook ended it. -/
structure World where
  queue : QueueName → PendingMessageQueue
  messages : List AgentMessage
  tools : List AgentTool
  skipInitialSteeringPoll : Bool
  aborted : Bool
  ended : List AgentMessage
  threwUndelivered : Bool
  threw : Bool
  failed : Bool
  hookEnded : Bool

/-- Whether the message came in by the queue. -/
def AgentMessage.isOf (message : AgentMessage) (name : QueueName) : Bool :=
  message.ticket.any fun ticket => ticket.queue = name

namespace World

def setQueue (w : World) (name : QueueName) (queue : PendingMessageQueue) : World :=
  { w with queue := Function.update w.queue name queue }

/-- The messages of a queue that were delivered. -/
def delivered (w : World) (name : QueueName) : List AgentMessage :=
  w.ended.filter fun message => message.isOf name

/-- Whether a drained message was not delivered. -/
def undelivered (w : World) : Bool :=
  (w.delivered .steering).length ≠ (w.queue .steering).drained.length ||
    (w.delivered .followUp).length ≠ (w.queue .followUp).drained.length

/-- `steer` and `followUp`. -/
def enqueue (w : World) (name : QueueName) (body : Body) : World :=
  w.setQueue name ((w.queue name).enqueue name body)

/-- `getSteeringMessages`. -/
def pollSteering (w : World) : List AgentMessage × World :=
  if w.skipInitialSteeringPoll then ([], { w with skipInitialSteeringPoll := false })
  else ((w.queue .steering).peek, w.setQueue .steering (w.queue .steering).drain)

/-- One more message of a queue was added to the transcript. -/
def count (w : World) (message : AgentMessage) : World :=
  match message.ticket with
  | some ticket =>
    w.setQueue ticket.queue { w.queue ticket.queue with added := (w.queue ticket.queue).added + 1 }
  | none => w

/-- `processEvents`, up to its listeners. -/
def processEvents (w : World) : AgentEvent → World
  | .messageEnd message => { w.count message with messages := w.messages ++ [message], ended := w.ended ++ [message] }
  | .turnEnd message _ =>
    { w with failed := w.failed || message.stopReason = .error || message.stopReason = .aborted }
  | _ => w

/-- Counts anew what is added. -/
def resetAdded (w : World) : World :=
  { w with queue := fun name => { w.queue name with added := 0 } }

def beginRun (w : World) (skipInitialSteeringPoll : Bool) : World :=
  { w.resetAdded with skipInitialSteeringPoll, aborted := false, threw := false, failed := false, hookEnded := false }

/-- Something threw while messages were undelivered or not. -/
def raise (w : World) : World :=
  { w with threwUndelivered := w.threwUndelivered || w.undelivered }

/-- The hook ends the run or not. -/
def decide (w : World) (ends : Bool) : World :=
  { w with hookEnded := w.hookEnded || ends }

end World

/-- What may happen while the agent waits: messages come in, and the run is aborted. -/
inductive Disturbs : World → World → Prop where
  | still (w : World) : Disturbs w w
  | enqueue {w v : World} (earlier : Disturbs w v) (name : QueueName) (body : Body) : Disturbs w (v.enqueue name body)
  | abort {w v : World} (earlier : Disturbs w v) : Disturbs w { v with aborted := true }

/-- A hook, a listener, a tool or the stream answers or throws. -/
def Reacts {α : Type} (w : World) (answer : Except JsString α) (v : World) : Prop :=
  ∃ u, Disturbs w u ∧
    match answer with
    | .ok _ => v = u
    | .error _ => v = u.raise

/-- The surroundings of a run of the agent. -/
def surroundings : Environment JsString Op World
  | _, .emit event, w, answer, v => Reacts (w.processEvents event) answer v
  | _, .getSteeringMessages, w, answer, v =>
    ∃ u, Disturbs w u ∧ answer = .ok u.pollSteering.1 ∧ v = u.pollSteering.2
  | _, .getFollowUpMessages, w, answer, v =>
    ∃ u, Disturbs w u ∧ answer = .ok (u.queue .followUp).peek ∧ v = u.setQueue .followUp (u.queue .followUp).drain
  | _, .prepareNextTurn _, w, answer, v =>
    Reacts w answer v ∧
      ∀ update, answer = .ok (some update) → ∀ message ∈ update.messages.getD [], message.ticket = none
  | _, .prepareRequest _ _, w, answer, v => Reacts w answer v
  | _, .finishTurn _, w, answer, v =>
    ∃ u, Reacts w answer u ∧ v = u.decide (answer.toOption = some (some .end))
  | _, .transformContext _, w, answer, v => Reacts w answer v
  | _, .convertToLlm _, w, answer, v => Reacts w answer v
  | _, .getApiKey, w, answer, v => Reacts w answer v
  | _, .streamFunction _ _ _, w, answer, v => Reacts w.resetAdded answer v
  | _, .nextEvent, w, answer, v => Reacts w answer v
  | _, .result, w, answer, v => Reacts w answer v
  | _, .aborted, w, answer, v => Disturbs w v ∧ answer = .ok v.aborted
  | _, .prepareArguments _ _, w, answer, v => Reacts w answer v
  | _, .validateToolArguments _ _, w, answer, v => Reacts w answer v
  | _, .beforeToolCall _ _ _ _, w, answer, v => Reacts w answer v
  | _, .execute _ _ _, w, answer, v => Reacts w answer v
  | _, .progress _, w, answer, v => Reacts w answer v
  | _, .afterToolCall _ _ _ _ _ _, w, answer, v => Reacts w answer v
  | _, .snapshot, w, answer, v => v = w ∧ answer = .ok ⟨w.messages, w.tools⟩
  | _, .drain name, w, answer, v =>
    answer = .ok (w.queue name).peek ∧ v = w.setQueue name (w.queue name).drain
  | _, .beginRun skip, w, answer, v => v = w.beginRun skip ∧ ∃ config, answer = .ok config
  | _, .failureModel, w, answer, v => v = { w with threw := true } ∧ ∃ model, answer = .ok model
  | _, .finishRun, w, answer, v => v = w ∧ answer = .ok ()

end OctoberHarness.Agent
