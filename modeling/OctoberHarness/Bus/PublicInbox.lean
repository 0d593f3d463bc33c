import Mathlib.Data.List.Sort
import OctoberHarness.Json.Text
import OctoberHarness.Library.OrderedMap
import OctoberHarness.Library.Trace
import OctoberHarness.Library.Transition

/-! The inbox of the public bus: batches are polled while the agent is idle,
handed to it one at a time, and acknowledged once its turn settled. Deliveries
are recorded in the session, which the next process replays. -/
namespace OctoberHarness.Bus.PublicInbox

open OrderedMap

/-! Messages and batches. -/

inductive Ceiling where
  | readOnly
  | acceptEdits
  | inherit
deriving DecidableEq, Repr

/-- An item of a message's context, as far as the ceiling reads it. -/
structure BusContextItem where
  title : JsString
  text : Option JsString
deriving DecidableEq

/-- A message; what only the prompt shows is one value. -/
structure BusMessage where
  id : JsString
  context : List BusContextItem
  shown : JsonValue
deriving DecidableEq

/-- The ceiling a context item asks for. -/
def policyCeiling (item : BusContextItem) : Option Ceiling :=
  if item.title ≠ js "October delegation policy" then none
  else
    match JsonText.parse (item.text.getD []) with
    | some (.obj fields) =>
      if fields.lookup (js "version") ≠ some (.num (.ofNat 1)) then none
      else if fields.lookup (js "permissionCeiling") = some (.str (js "read-only")) then some .readOnly
      else if fields.lookup (js "permissionCeiling") = some (.str (js "accept-edits")) then some .acceptEdits
      else none
    | _ => none

/-- `parsePermissionCeiling`: the strictest ceiling asked for. -/
def parsePermissionCeiling (messages : List BusMessage) : Ceiling :=
  if messages.any fun message => message.context.any fun item => policyCeiling item = some .readOnly then .readOnly
  else if messages.any fun message => message.context.any fun item => policyCeiling item = some .acceptEdits then
    .acceptEdits
  else .inherit

/-- `batchId`: the sorted ids, which the source joins with `:`. -/
abbrev BatchId := List JsString

def batchId (messages : List BusMessage) : BatchId :=
  (messages.map BusMessage.id).insertionSort (· ≤ ·)

inductive DeliveryState where
  | received
  | processing
  | handled
  | failed
  | acknowledged
deriving DecidableEq, Repr

/-- The turn of the batch settled. -/
def DeliveryState.done : DeliveryState → Bool
  | .handled => true
  | .acknowledged => true
  | _ => false

structure DeliveryBatch where
  state : DeliveryState
  messages : List BusMessage
  permissionCeiling : Ceiling
deriving DecidableEq

/-- An entry of the session, `DELIVERY_ENTRY`. -/
structure DeliveryRecord where
  batchId : BatchId
  batch : DeliveryBatch
deriving DecidableEq

/-- A message of an ended run, as far as its outcome is read. -/
inductive AgentMessage where
  | assistant (stopReason : JsString)
  | other
deriving DecidableEq

/-- `successfulAgentEnd`: the last answer was neither an error nor aborted. -/
def successfulAgentEnd (messages : List AgentMessage) : Bool :=
  match messages.reverse.find? fun message => message ≠ .other with
  | some (.assistant stopReason) => stopReason ≠ js "error" && stopReason ≠ js "aborted"
  | _ => false

/-! The state of a process, and what is outside of it. -/

/-- Where the agent session is: `settling` once it is idle again and
`agent_settled` has not been handled. -/
inductive Phase where
  | idle
  | running
  | settling
deriving DecidableEq

/-- A running `acknowledge`; `settles` where `agent_settled` waits for it. -/
structure Call where
  batchId : BatchId
  settles : Bool
deriving DecidableEq

/-- What can be seen from outside. -/
inductive Happening where
  | received (batchId : BatchId)
  | handed (batchId : BatchId)
  | began
  | settled (succeeded : Bool)
  | recorded (batchId : BatchId) (state : DeliveryState)
  | sent (batchId : BatchId) (messageIds : List JsString)
  | confirmed (batchId : BatchId)
  | restarted
deriving DecidableEq

structure State where
  /-- The batches of this process, each found by its id. -/
  batches : List (BatchId × DeliveryBatch)
  /-- The keys of `pending` in their order. -/
  pending : List BatchId
  active : Option BatchId
  activeSucceeded : Option Bool
  temporaryCeiling : Option Ceiling
  acknowledgementAttempts : List (BatchId × Nat)
  /-- The calls that run; `acknowledging` holds their ids. -/
  calls : List Call
  /-- The retry timers that are set. -/
  timers : List BatchId
  /-- Handlers of `agent_settled` that go on after their `acknowledge`. -/
  resuming : Nat
  /-- Dispatches that are scheduled. -/
  scheduled : Nat
  /-- A `check_inbox` runs. -/
  checking : Bool
  phase : Phase
  /-- The outcome of the last `agent_end` of the run. -/
  lastEnd : Option Bool
  /-- The delivery entries of the session. -/
  records : List DeliveryRecord
  /-- The messages that the bus has taken as acknowledged. -/
  acknowledged : List JsString
  history : List Happening

def initial : State where
  batches := []
  pending := []
  active := none
  activeSucceeded := none
  temporaryCeiling := none
  acknowledgementAttempts := []
  calls := []
  timers := []
  resuming := 0
  scheduled := 0
  checking := false
  phase := .idle
  lastEnd := none
  records := []
  acknowledged := []
  history := []

/-- How a call of `appendEntry` ends; where it throws, the entry may have been
added. -/
inductive Append where
  | ok
  | threw (added : Bool)
deriving DecidableEq

def Append.added : Append → Bool
  | .ok => true
  | .threw added => added

/-- How the calls of a dispatch end: `isIdle` while no run is in progress,
`appendEntry`, and whether `sendMessage` returns. -/
structure Sending where
  idle : Bool
  append : Append
  sent : Bool
deriving DecidableEq

namespace State

def happened (s : State) (happening : Happening) : State :=
  { s with history := s.history ++ [happening] }

def stateOf (s : State) (id : BatchId) : Option DeliveryState :=
  (s.batches.lookup id).map DeliveryBatch.state

/-- `appendDelivery`: the state of the batch changes before the entry is added. -/
def appendDelivery (s : State) (id : BatchId) (state : DeliveryState) (append : Append) : State :=
  match s.batches.lookup id with
  | some batch =>
    { s with
      batches := set s.batches id { batch with state := state }
      records := s.records ++ (if append.added then [⟨id, { batch with state := state }⟩] else [])
      history := s.history ++ (if append.added then [.recorded id state] else []) }
  | none => s

/-- `pending.set`. -/
def pend (s : State) (id : BatchId) : State :=
  { s with pending := if id ∈ s.pending then s.pending else s.pending ++ [id] }

/-- `acknowledge` up to its request. -/
def acknowledge (s : State) (id : BatchId) (settles : Bool) : State :=
  if (s.calls.any fun call => call.batchId = id) = true then
    { s with resuming := s.resuming + (if settles then 1 else 0) }
  else
    match s.batches.lookup id with
    | some batch =>
      { s with
        calls := s.calls ++ [⟨id, settles⟩]
        history := s.history ++ [.sent id (batch.messages.map BusMessage.id)] }
    | none => s

/-- The rest of `agent_settled` can run once its `acknowledge` has returned. -/
def returned (s : State) (call : Call) : State :=
  { s with resuming := s.resuming + (if call.settles then 1 else 0) }

/-- The batch waits for its next try. -/
def retrying (s : State) (call : Call) : State :=
  (({ s with timers := s.timers ++ [call.batchId] } : State).pend call.batchId).returned call

/-- `acknowledge` after its request failed, or its entry could not be added. -/
def acknowledgeFailed (s : State) (call : Call) (append : Append) : State :=
  have attempt := (s.acknowledgementAttempts.lookup call.batchId).getD 0 + 1
  have counted : State :=
    { s with acknowledgementAttempts := set s.acknowledgementAttempts call.batchId attempt }
  if attempt = 1 then
    match append with
    | .ok => (counted.appendDelivery call.batchId .handled .ok).retrying call
    | .threw added => counted.appendDelivery call.batchId .handled (.threw added)
  else counted.retrying call

/-- `acknowledge` after its request succeeded. -/
def acknowledgeDone (s : State) (call : Call) (append again : Append) : State :=
  match append with
  | .ok =>
    have noted := s.appendDelivery call.batchId .acknowledged .ok
    ({ noted with
        pending := noted.pending.filter fun id => id ≠ call.batchId
        acknowledgementAttempts := erase noted.acknowledgementAttempts call.batchId } : State).returned call
  | .threw added => (s.appendDelivery call.batchId .acknowledged (.threw added)).acknowledgeFailed call again

/-- `dispatch`: the batch is active before its entry is added and its prompt
sent. -/
def dispatch (s : State) (id : BatchId) (sending : Sending) : State :=
  if s.active ≠ none ∨ s.stateOf id = some .handled ∨ s.stateOf id = some .acknowledged ∨
      s.phase = .running ∨ sending.idle = false then s
  else
    have noted := ({ s with active := some id, activeSucceeded := none } : State).appendDelivery id .processing sending.append
    match sending.append with
    | .threw _ => noted
    | .ok =>
      have limited : State :=
        { noted with temporaryCeiling := (noted.batches.lookup id).map DeliveryBatch.permissionCeiling }
      if sending.sent then limited.happened (.handed id) else limited

def dispatchNext (s : State) (sending : Sending) : State :=
  match s.pending.find? fun id => s.stateOf id = some .received with
  | some id => s.dispatch id sending
  | none => s

/-- What `session_start` reads from the entries: the last state of each batch
that was not acknowledged. -/
def replay (records : List DeliveryRecord) : List (BatchId × DeliveryBatch) :=
  records.foldl (fun batches record =>
    if record.batch.state = .acknowledged then erase batches record.batchId
    else set batches record.batchId record.batch) []

/-- `session_start` of a new process. -/
def restart (s : State) : State :=
  have batches := replay s.records
  have handled := batches.filter fun entry => entry.2.state = .handled
  { initial with
    batches := batches
    pending := batches.map Prod.fst
    calls := handled.map fun entry => ⟨entry.1, false⟩
    scheduled := 1
    records := s.records
    acknowledged := s.acknowledged
    history := s.history ++ .restarted ::
      handled.map fun entry => .sent entry.1 (entry.2.messages.map BusMessage.id) }

end State

/-- What may happen next. -/
inductive Event where
  | checkInbox
  | inboxReply (messages : List BusMessage) (append : Append) (sending : Sending)
  | inboxFailed
  | retryCommand (append : Append) (sending : Sending)
  | scheduledDispatch (sending : Sending)
  | agentStart
  | agentEnd (messages : List AgentMessage)
  | runOver
  | agentSettled (append : Append)
  | settledResumes
  | busAcknowledges (messageIds : List JsString)
  | acknowledgeReply (index : Nat) (succeeded : Bool) (append again : Append)
  | retryTimer (index : Nat)
  | restart

/-- One step. The bus gives no message again that it has taken as acknowledged,
and a request succeeds only once the bus has taken its messages. -/
def step (s : State) : Event → Option State
  | .checkInbox =>
    if s.checking = false ∧ s.phase ≠ .running ∧ s.active = none ∧
        ∀ id ∈ s.pending, s.stateOf id = some .acknowledged then
      some { s with checking := true }
    else none
  | .inboxReply messages append sending =>
    if s.checking = true ∧ ∀ message ∈ messages, message.id ∉ s.acknowledged then
      have read : State := { s with checking := false }
      if messages = [] then some read
      else
        have held : State :=
          ({ read with
              batches := set read.batches (batchId messages)
                ⟨.received, messages, parsePermissionCeiling messages⟩
              history := read.history ++ [.received (batchId messages)] } : State).pend (batchId messages)
        have noted := held.appendDelivery (batchId messages) .received append
        match append with
        | .ok => some (noted.dispatchNext sending)
        | .threw _ => some noted
    else none
  | .inboxFailed => if s.checking = true then some { s with checking := false } else none
  | .retryCommand append sending =>
    match s.pending.find? fun id => s.stateOf id = some .failed ∨ s.stateOf id = some .processing with
    | some id =>
      match append with
      | .ok => some ((s.appendDelivery id .received .ok).dispatchNext sending)
      | .threw added => some (s.appendDelivery id .received (.threw added))
    | none => some s
  | .scheduledDispatch sending =>
    if 0 < s.scheduled then some (({ s with scheduled := s.scheduled - 1 } : State).dispatchNext sending) else none
  | .agentStart =>
    if s.phase = .idle then some (({ s with phase := .running, lastEnd := none } : State).happened .began) else none
  | .agentEnd messages =>
    if s.phase = .running then
      have succeeded := successfulAgentEnd messages
      some { s with
        lastEnd := some succeeded
        activeSucceeded := if s.active = none then s.activeSucceeded else some succeeded }
    else none
  | .runOver => if s.phase = .running then some { s with phase := .settling } else none
  | .agentSettled append =>
    if s.phase = .settling then
      have settled := ({ s with phase := .idle } : State).happened (.settled (s.lastEnd = some true))
      match s.active with
      | some id =>
        have freed : State := { settled with active := none, temporaryCeiling := none }
        if s.activeSucceeded = some true then
          match append with
          | .ok => some ((freed.appendDelivery id .handled .ok).acknowledge id true)
          | .threw added => some (freed.appendDelivery id .handled (.threw added))
        else
          match append with
          | .ok =>
            some { freed.appendDelivery id .failed .ok with
              activeSucceeded := none
              scheduled := s.scheduled + 1 }
          | .threw added => some (freed.appendDelivery id .failed (.threw added))
      | none => some { settled with scheduled := s.scheduled + 1 }
    else none
  | .settledResumes =>
    if 0 < s.resuming then
      some { s with resuming := s.resuming - 1, activeSucceeded := none, scheduled := s.scheduled + 1 }
    else none
  | .busAcknowledges messageIds =>
    if (s.history.any fun happening => match happening with | .sent _ ids => ids = messageIds | _ => false) = true then
      some { s with acknowledged := s.acknowledged ++ messageIds }
    else none
  | .acknowledgeReply index succeeded append again =>
    match s.calls[index]? with
    | some call =>
      have ended : State := { s with calls := s.calls.eraseIdx index }
      if succeeded = true then
        if ∀ id ∈ call.batchId, id ∈ s.acknowledged then
          some ((ended.happened (.confirmed call.batchId)).acknowledgeDone call append again)
        else none
      else some (ended.acknowledgeFailed call again)
    | none => none
  | .retryTimer index =>
    match s.timers[index]? with
    | some id => some (({ s with timers := s.timers.eraseIdx index } : State).acknowledge id false)
    | none => none
  | .restart => some s.restart

end OctoberHarness.Bus.PublicInbox
