import Mathlib.Data.List.Sort
import OctoberHarness.Agent.Declarations
import OctoberHarness.Harness.Compaction

/-! Transcripts for the providers: the tools and the prompt that their system messages replay
to, and where a transport gets its tools from. -/
namespace OctoberHarness.Ai

open OrderedMap

open Agent (declarationsEqual)
open Context (MessageContent contentText)

/-- A tool with what its declaration leaves out: executable and display-only fields, and what
JSON does not write of its parameters. -/
structure Tool (α : Type) where
  declaration : Agent.Tool
  extra : Option α

def Tool.name {α : Type} (tool : Tool α) : JsString :=
  tool.declaration.name

structure SystemMessage (α : Type) where
  content : MessageContent
  /-- In the order of the own keys. -/
  sections : List (JsString × Option JsString)
  toolsAdded : List (Tool α)
  toolsRemoved : List JsString
  timestamp : JsNumber

/-- A message, `β` one that is no system message. -/
inductive Message (α β : Type) where
  | system (message : SystemMessage α)
  | other (message : β)

section Transcript

variable {α β : Type}

def Message.system? : Message α β → Option (SystemMessage α)
  | .system message => some message
  | .other _ => none

def Message.other? : Message α β → Option β
  | .system _ => none
  | .other message => some message

/-- `messages.filter(isSystemMessage)`. -/
def systemMessages (messages : List (Message α β)) : List (SystemMessage α) :=
  messages.filterMap Message.system?

def SystemMessage.replay (tools : List (JsString × Tool α)) (message : SystemMessage α) : List (JsString × Tool α) :=
  message.toolsAdded.foldl (fun tools tool => set tools tool.name tool)
    (message.toolsRemoved.foldl erase tools)

/-- The map of `getCurrentTools`. -/
def replayTools (messages : List (SystemMessage α)) : List (JsString × Tool α) :=
  messages.foldl SystemMessage.replay []

/-- `getCurrentTools`, which reads system messages only. -/
def currentTools (messages : List (SystemMessage α)) : List (Tool α) :=
  (replayTools messages).map Prod.snd

def getCurrentTools (messages : List (Message α β)) : List (Tool α) :=
  currentTools (systemMessages messages)

/-! The current system message. -/

/-- The order of the array indices among the keys of an object. -/
def indexBefore (key other : JsString) : Prop :=
  (arrayIndex key).getD 0 ≤ (arrayIndex other).getD 0

instance (key other : JsString) : Decidable (indexBefore key other) :=
  inferInstanceAs (Decidable (_ ≤ _))

/-- `Object.fromEntries` of a map: array indices in their order, then the other keys. -/
def fromEntries {γ : Type} (entries : List (JsString × γ)) : List (JsString × γ) :=
  ((entries.filter fun entry => (arrayIndex entry.1).isSome).insertionSort fun a b => indexBefore a.1 b.1) ++
    entries.filter fun entry => (arrayIndex entry.1).isNone

/-- The map of sections after one entry. -/
def setSection (sections : List (JsString × JsString)) (entry : JsString × Option JsString) : List (JsString × JsString) :=
  match entry.2 with
  | none => erase sections entry.1
  | some value => set sections entry.1 value

/-- The sections after every system message. -/
def replaySections (messages : List (SystemMessage α)) : List (JsString × JsString) :=
  messages.foldl (fun sections message => message.sections.foldl setSection sections) []

/-- The texts of the system messages that have one. -/
def contents (messages : List (SystemMessage α)) : List JsString :=
  (messages.map fun message => contentText message.content).filter fun text => 0 < text.length

/-- `getCurrentSystemMessage`. -/
def currentSystemMessage (messages : List (SystemMessage α)) : Option (SystemMessage α) :=
  messages.head?.map fun first =>
    { content := .string ((js "\n\n").intercalate (contents messages))
      sections := fromEntries ((replaySections messages).map fun entry => (entry.1, some entry.2))
      toolsAdded := currentTools messages
      toolsRemoved := []
      timestamp := first.timestamp }

def getSystemMessageText (message : SystemMessage α) : JsString :=
  (js "\n\n").intercalate
    ((contentText message.content :: message.sections.filterMap Prod.snd).filter fun part => 0 < part.length)

def getCurrentSystemPrompt (messages : List (Message α β)) : JsString :=
  match currentSystemMessage (systemMessages messages) with
  | some message => getSystemMessageText message
  | none => []

def collapseSystemMessages (messages : List (Message α β)) : List (Message α β) :=
  ((currentSystemMessage (systemMessages messages)).map .system).toList ++ (messages.filterMap Message.other?).map .other

def toToolDeclaration (tool : Tool α) : Tool α :=
  { tool with extra := none }

structure ToolStateChanges (α : Type) where
  toolsAdded : List (Tool α)
  toolsRemoved : List JsString

/-- `new Map(tools.map((tool) => [tool.name, tool]))`. -/
def byName (tools : List (Tool α)) : List (JsString × Tool α) :=
  tools.foldl (fun map tool => set map tool.name tool) []

/-- Whether a tool has no equal declaration in the map. -/
def differs (map : List (JsString × Tool α)) (tool : Tool α) : Bool :=
  match map.lookup tool.name with
  | some other => !declarationsEqual other.declaration tool.declaration
  | none => true

def getToolStateChanges (previous current : List (Tool α)) : ToolStateChanges α where
  toolsAdded := (current.filter (differs (byName previous))).map toToolDeclaration
  toolsRemoved := (previous.filter (differs (byName current))).map Tool.name

/-! Tools of a transport. -/

/-- The names added by a message after those declared before, and whether one of them was
declared already. -/
def declare (declared : List JsString) : List JsString → List JsString × Bool
  | [] => (declared, false)
  | name :: rest =>
    let after := declare (name :: declared) rest
    (after.1, decide (name ∈ declared) || after.2)

/-- The loop of `findLastNonAdditiveToolChange`, from a message on: how many messages lead up to
the last non-additive one and with it. -/
def nonAdditive (declared : List JsString) (index last : Nat) : List (SystemMessage α) → Nat
  | [] => last
  | message :: rest =>
    let next := declare declared (message.toolsAdded.map Tool.name)
    nonAdditive next.1 (index + 1) (if message.toolsRemoved ≠ [] ∨ next.2 = true then index + 1 else last) rest

inductive TranscriptToolSupport where
  | none | additions | changes

structure TranscriptTools (α : Type) where
  requestTools : List (Tool α)
  foldedSystemMessages : Nat

def getInitialSystemMessage (messages : List (Message α β)) : Option (SystemMessage α) :=
  messages.head?.bind Message.system?

def resolveTranscriptTools (messages : List (Message α β)) (support : TranscriptToolSupport) : TranscriptTools α :=
  let systems := systemMessages messages
  match support with
  | .none => ⟨currentTools systems, systems.length⟩
  | .changes => ⟨[], 0⟩
  | .additions =>
    let folded := max (if (getInitialSystemMessage messages).isSome then 1 else 0) (nonAdditive [] 0 0 systems)
    ⟨currentTools (systems.take folded), folded⟩

end Transcript

end OctoberHarness.Ai
