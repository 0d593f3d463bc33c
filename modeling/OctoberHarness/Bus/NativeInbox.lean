import OctoberHarness.Json.Value
import OctoberHarness.Library.Transition

/-! The inbox of a native session: it polls for a batch, hands it to the session that is
active, and acknowledges the hand-over once that session reports it. A request that is
aborted, times out or gets an unusable response fails. -/
namespace OctoberHarness.Bus

structure OctoberDesktopBusEnv where
  launch : Option JsString
  token : Option JsString
  capability : Option JsString

/-- `!value` is false. -/
def present (value : Option JsString) : Bool :=
  value.any fun text => text ≠ []

/-- A response as far as `poll` reads it; a member of another type is none. -/
structure Batch where
  receipt : Option JsString
  text : Option JsString

/-- The receipt of a batch that can be delivered. -/
def Batch.usable (batch : Batch) : Option JsString :=
  match batch.receipt, batch.text with
  | some receipt, some text =>
    if receipt = [] ∨ 256 < receipt.length ∨ trim text = [] then none else some receipt
  | _, _ => none

namespace NativeInbox

/-- `pending`, with the number of its batch. -/
structure Pending where
  key : JsString
  receipt : JsString
  accepted : Bool
  wake : Nat

/-- What a poll waits for. -/
inductive Phase where
  | acking (wake : Nat)
  | waking (key : JsString)
  | declining
  | delivering

/-- What can be seen of the inbox. Batches are numbered in the order of their arrival. -/
inductive Event where
  | woke (wake : Nat) (receipt : JsString)
  | declineSent (wake : Nat) (receipt : JsString)
  | delivered (wake : Nat) (receipt session : JsString)
  | accepted (receipt key : JsString)
  | ackSent (wake : Nat) (receipt : JsString)
  | acked (wake : Nat)

structure State where
  /-- What `session()` and `canReceive()` answer. -/
  session : JsString
  canReceive : Bool
  stopped : Bool
  polling : Bool
  pending : Option Pending
  timer : Option Nat
  /-- Timers that are set and neither fired nor cleared. -/
  armed : List Nat
  nextTimer : Nat
  /-- The polls that run. -/
  polls : List Phase
  wakes : Nat
  log : List Event

def initial (session : JsString) (canReceive : Bool) : State :=
  ⟨session, canReceive, true, false, none, none, [], 0, [], 0, []⟩

namespace State

def record (s : State) (event : Event) : State :=
  { s with log := s.log ++ [event] }

/-- A poll up to its next wait: none when it has ended. -/
abbrev Turn := State × Option Phase

/-- The `finally` of `poll`. -/
def finish (s : State) : Turn :=
  let s := { s with polling := false }
  (if s.stopped then s
    else { s with armed := s.armed ++ [s.nextTimer], timer := some s.nextTimer, nextTimer := s.nextTimer + 1 },
    none)

/-- `poll` from `const key` on. -/
def readBatch (s : State) : Turn :=
  if s.session = [] ∨ ¬s.canReceive then s.finish else (s, some (.waking s.session))

/-- `poll` behind the acknowledgement. -/
def afterAck (s : State) (wake : Nat) (response : Option Batch) : Turn :=
  match response with
  | none => s.finish
  | some _ => readBatch { s with pending := none, log := s.log ++ [.acked wake] }

/-- `poll` behind the wake. -/
def afterWake (s : State) (key : JsString) (response : Option Batch) : Turn :=
  match response.bind Batch.usable with
  | none => s.finish
  | some receipt =>
    let wake := s.wakes
    let s := { s with wakes := wake + 1, log := s.log ++ [Event.woke wake receipt] }
    if s.stopped ∨ s.session ≠ key ∨ ¬s.canReceive then
      (s.record (.declineSent wake receipt), some .declining)
    else
      let s := { s with pending := some ⟨key, receipt, false, wake⟩ }
      (s.record (.delivered wake receipt s.session), some .delivering)

/-- A poll that has not ended waits among the others. -/
def await (turn : Turn) : State :=
  { turn.1 with polls := turn.1.polls ++ turn.2.toList }

/-- The poll at a position goes on. -/
def proceed (index : Nat) (turn : Turn) : State :=
  { turn.1 with polls := turn.1.polls.take index ++ turn.2.toList ++ turn.1.polls.drop (index + 1) }

def poll (s : State) : State :=
  if s.stopped || s.polling then s
  else
    let s := { s with polling := true }
    match s.pending with
    | some pending =>
      if pending.accepted then
        await (s.record (.ackSent pending.wake pending.receipt), some (.acking pending.wake))
      else await s.finish
    | none => await s.readBatch

def start (env : OctoberDesktopBusEnv) (s : State) : State :=
  if !s.stopped || !present env.launch || !present env.token || !present env.capability then s
  else poll { s with stopped := false }

/-- `stop`; the abort of a request is its failure. -/
def stop (s : State) : State :=
  { s with
    stopped := true
    armed := s.timer.elim s.armed fun timer => s.armed.erase timer
    timer := none }

/-- `accepted`; a receipt that is no string is none. -/
def accepted (s : State) (receipt : Option JsString) (key : JsString) : State :=
  match receipt with
  | none => s
  | some receipt =>
    { s with
      pending := s.pending.map fun pending =>
        if pending.receipt = receipt ∧ pending.key = key then { pending with accepted := true } else pending
      log := s.log ++ [.accepted receipt key] }

end State

/-- What happens to an inbox. -/
inductive Action where
  | start
  | stop
  | accepted (receipt : Option JsString) (key : JsString)
  | switch (session : JsString) (canReceive : Bool)
  | fire (timer : Nat)
  /-- The request of a poll succeeds with a response or fails. -/
  | answer (index : Nat) (response : Option Batch)
  /-- `deliver` returns or throws. -/
  | handed (index : Nat)

def step (env : OctoberDesktopBusEnv) (s : State) : Action → Option State
  | .start => some (s.start env)
  | .stop => some s.stop
  | .accepted receipt key => some (s.accepted receipt key)
  | .switch session canReceive => some { s with session, canReceive }
  | .fire timer =>
    if timer ∈ s.armed then some (State.poll { s with armed := s.armed.erase timer }) else none
  | .answer index response =>
    match s.polls[index]? with
    | some (.acking wake) => some (.proceed index (s.afterAck wake response))
    | some (.waking key) => some (.proceed index (s.afterWake key response))
    | some .declining => some (.proceed index s.finish)
    | _ => none
  | .handed index =>
    match s.polls[index]? with
    | some .delivering => some (.proceed index s.finish)
    | _ => none

end NativeInbox

end OctoberHarness.Bus
