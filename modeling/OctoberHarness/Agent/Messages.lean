import OctoberHarness.Json.RoundTrip
import OctoberHarness.Library.OrderedMap

/-! The messages of an agent transcript, and the tools its system messages declare. -/
namespace OctoberHarness.Agent

open OrderedMap

/-- What a tool declares to the model. -/
structure Tool where
  name : JsString
  description : JsString
  parameters : StrictJson
  constrainedSampling : Option StrictJson

inductive ExecutionMode where
  | sequential
  | parallel
deriving DecidableEq

/-- A tool the runtime can execute. What it does is up to the environment. -/
structure AgentTool where
  declaration : Tool
  executionMode : Option ExecutionMode

/-- `toToolDeclaration`. Parameters are JSON already. -/
def toToolDeclaration (tool : AgentTool) : Tool :=
  tool.declaration

structure SystemMessage where
  toolsAdded : List Tool
  toolsRemoved : List JsString
  rest : StrictJson

structure ToolCall where
  id : JsString
  name : JsString
  arguments : StrictJson

inductive Block where
  | toolCall (call : ToolCall)
  | other (content : StrictJson)

inductive StopReason where
  | pending
  | stop
  | length
  | toolUse
  | error
  | aborted
  | deferred
deriving DecidableEq

structure AssistantMessage where
  content : List Block
  stopReason : StopReason
  thinkingLevel : Option JsString
  errorMessage : Option JsString
  rest : StrictJson

/-- The time and the duration are left out. -/
structure ToolResultMessage where
  toolCallId : JsString
  toolName : JsString
  content : StrictJson
  details : Option StrictJson
  usage : Option StrictJson
  isError : Bool

inductive QueueName where
  | steering
  | followUp
deriving DecidableEq

/-- Which call of `steer` or `followUp` a message came in by. -/
structure Ticket where
  queue : QueueName
  number : Nat
deriving DecidableEq

inductive Body where
  | system (message : SystemMessage)
  | assistant (message : AssistantMessage)
  | toolResult (message : ToolResultMessage)
  | other (role : JsString) (rest : StrictJson)

/-- A message object. The ticket stands for the object's identity; no code reads it. -/
structure AgentMessage where
  ticket : Option Ticket
  body : Body

namespace AgentMessage

def ofAssistant (message : AssistantMessage) : AgentMessage :=
  ⟨none, .assistant message⟩

def ofToolResult (message : ToolResultMessage) : AgentMessage :=
  ⟨none, .toolResult message⟩

def system? (message : AgentMessage) : Option SystemMessage :=
  match message.body with
  | .system message => some message
  | _ => none

/-- `message.role === "assistant"`. -/
def isAssistant (message : AgentMessage) : Bool :=
  match message.body with
  | .assistant _ => true
  | _ => false

end AgentMessage

def AssistantMessage.toolCalls (message : AssistantMessage) : List ToolCall :=
  message.content.filterMap fun
    | .toolCall call => some call
    | .other _ => none

/-! The tools of a transcript. -/

def SystemMessage.replay (message : SystemMessage) (tools : List (JsString × Tool)) : List (JsString × Tool) :=
  message.toolsAdded.foldl (fun tools tool => set tools tool.name tool)
    (message.toolsRemoved.foldl erase tools)

/-- The map of `getCurrentTools`. -/
def replayTools (messages : List AgentMessage) : List (JsString × Tool) :=
  messages.foldl (fun tools message => (message.system?.map fun system => system.replay tools).getD tools) []

def getCurrentTools (messages : List AgentMessage) : List Tool :=
  (replayTools messages).map Prod.snd

/-- The record of a declaration. -/
def Tool.json (tool : Tool) : JsonValue :=
  .obj
    ([(js "name", .str tool.name), (js "description", .str tool.description), (js "parameters", tool.parameters.val)] ++
      (tool.constrainedSampling.map fun value => (js "constrainedSampling", value.val)).toList)

def declarationsEqual (left right : Tool) : Bool :=
  left.json.stringify = right.json.stringify

structure ToolStateChanges where
  toolsAdded : List Tool
  toolsRemoved : List JsString

/-- `new Map(tools.map((tool) => [tool.name, tool]))`. -/
def byName (tools : List Tool) : List (JsString × Tool) :=
  tools.foldl (fun map tool => set map tool.name tool) []

/-- Whether a tool has no equal declaration in the map. -/
def differs (map : List (JsString × Tool)) (tool : Tool) : Bool :=
  match map.lookup tool.name with
  | some other => !declarationsEqual other tool
  | none => true

def getToolStateChanges (previous current : List Tool) : ToolStateChanges where
  toolsAdded := current.filter (differs (byName previous))
  toolsRemoved := (previous.filter (differs (byName current))).map Tool.name

def withToolChanges (message : SystemMessage) (changes : ToolStateChanges) : SystemMessage :=
  { message with toolsAdded := changes.toolsAdded, toolsRemoved := changes.toolsRemoved }

structure AgentContext where
  messages : List AgentMessage
  tools : List AgentTool

/-- The last system message with its ticket, between what is before and after it. -/
def splitLastSystem : List AgentMessage → Option (List AgentMessage × (Option Ticket × SystemMessage) × List AgentMessage)
  | [] => none
  | message :: rest =>
    match splitLastSystem rest with
    | some (before, last, after) => some (message :: before, last, after)
    | none => message.system?.map fun system => ([], (message.ticket, system), rest)

/-- What the executable tools change in a transcript that goes on with `messages`. -/
def AgentContext.changes (context : AgentContext) (messages : List AgentMessage) : ToolStateChanges :=
  getToolStateChanges (getCurrentTools (context.messages ++ messages)) (context.tools.map toToolDeclaration)

def noChanges : ToolStateChanges :=
  ⟨[], []⟩

def ToolStateChanges.unchanged (changes : ToolStateChanges) : Bool :=
  changes.toolsAdded.isEmpty && changes.toolsRemoved.isEmpty

/-- `{ role: "system", content: "" }` with tool changes. -/
def toolUpdate (changes : ToolStateChanges) : AgentMessage where
  ticket := none
  body := .system (withToolChanges
    ⟨[], [], ⟨.obj [(js "content", .str [])], (JsonValue.strict_obj _).mpr
      ⟨show OwnKeys [js "content"] from ⟨by decide, by decide⟩, fun field hField => by
        rw [List.mem_singleton.mp hField]
        trivial⟩⟩⟩ changes)

/-- `declareToolChanges`: the pending messages, with the changes that make the transcript
declare the executable tools. -/
def declareToolChanges (context : AgentContext) (pendingMessages : List AgentMessage) : List AgentMessage :=
  match splitLastSystem pendingMessages with
  | some (before, (ticket, pending), after) =>
    if (context.changes (before ++ ⟨ticket, .system (withToolChanges pending noChanges)⟩ :: after)).unchanged &&
        pending.toolsAdded.isEmpty && pending.toolsRemoved.isEmpty then
      pendingMessages
    else
      before ++
        ⟨ticket, .system (withToolChanges pending
          (context.changes (before ++ ⟨ticket, .system (withToolChanges pending noChanges)⟩ :: after)))⟩ :: after
  | none =>
    if (context.changes pendingMessages).unchanged then pendingMessages
    else
      pendingMessages.takeWhile (fun message => message.system?.isSome) ++
        toolUpdate (context.changes pendingMessages) ::
          pendingMessages.dropWhile fun message => message.system?.isSome

end OctoberHarness.Agent
