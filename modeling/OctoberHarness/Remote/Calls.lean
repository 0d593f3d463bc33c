import Mathlib.Data.Int.Order.Basic
import OctoberHarness.Library.OrderedMap

/-! Calls over a link: the consumer side with its call window, the provider side
of its origin, and the messages between them that calls depend on. -/
namespace OctoberHarness.Remote

open OrderedMap

/-- The methods of a bound variant as the wire's indexes point into them. -/
abbrev Names := List String

/-- A call: the number it was submitted under, its hold, its method as an index
into the variant the consumer is bound to, and the method its caller named. -/
structure Call where
  key : Nat
  hold : Nat
  method : Nat
  name : String
deriving DecidableEq, Repr

/-- Messages to the provider. -/
inductive Request where
  | hold (hold : Nat)
  | release (hold : Nat)
  | call (id : Nat) (call : Call)
  | abort (id : Nat)
deriving DecidableEq, Repr

/-- Messages to the consumer; `bound` is one entry of a `bound` message, and
`reply` a `result` or an `error`. -/
inductive Notice where
  | bound (hold : Nat) (names : Names)
  | loading (hold : Nat)
  | failed (hold : Nat)
  | gone (hold : Nat)
  | reply (id : Nat)
deriving DecidableEq, Repr

/-- How a call settles: with the reply of its id; cancelled by its caller; since
its hold was released or gone; waiting, since its hold rebinds or failed; or since
the link closed. -/
inductive Settlement where
  | reply (id : Nat)
  | cancelled
  | ended (hold : Nat)
  | rebinding (hold : Nat)
  | closed
deriving DecidableEq, Repr

/-- A hold's object on the consumer: whether it is live, and its last binding. -/
structure Held where
  live : Bool
  names : Option Names
deriving DecidableEq, Repr

/-- `ConsumerSide` with its `CallWindow`. `wire` is what it sent that is not
received yet, `submitted` the holds of its calls in the order of their numbers,
`settled` how calls settled, and `sent` the calls sent, by their ids. -/
structure Consumer where
  limit : Nat
  inFlight : Int
  waiting : List Call
  calls : List (Nat × Call)
  nextCall : Nat
  entries : List (Nat × Held)
  nextHold : Nat
  isOpen : Bool
  wire : List Request
  submitted : List Nat
  settled : List (Nat × Settlement)
  sent : List Nat
deriving DecidableEq, Repr

namespace Consumer

/-- `HostLink.send`: after the close a message is dropped. -/
def send (c : Consumer) (request : Request) : Consumer :=
  if c.isOpen then { c with wire := c.wire ++ [request] } else c

/-- `#send`. -/
def transmit (c : Consumer) (call : Call) : Consumer :=
  ({ c with
    calls := c.calls ++ [(c.nextCall, call)], nextCall := c.nextCall + 1
    sent := c.sent ++ [call.key] } : Consumer).send (.call c.nextCall call)

/-- The slot of a call that is sent now, and its sending. -/
def take (c : Consumer) (call : Call) : Consumer :=
  ({ c with inFlight := c.inFlight + 1 } : Consumer).transmit call

/-- `CallWindow.submit`. -/
def submit (c : Consumer) (call : Call) : Consumer :=
  if c.waiting = [] ∧ c.inFlight < c.limit then c.take call
  else { c with waiting := c.waiting ++ [call] }

/-- The loop of `CallWindow.#drain` over the waiting calls. -/
def drainAll : List Call → Consumer → Consumer
  | [], c => { c with waiting := [] }
  | call :: rest, c =>
    if c.limit ≤ c.inFlight then { c with waiting := call :: rest } else drainAll rest (c.take call)

/-- `CallWindow.#drain`. -/
def drain (c : Consumer) : Consumer :=
  drainAll c.waiting c

/-- `CallWindow.opened`. -/
def opened (c : Consumer) (limit : Nat) : Consumer :=
  ({ c with limit } : Consumer).drain

/-- `CallWindow.freed`. -/
def freed (c : Consumer) : Consumer :=
  ({ c with inFlight := c.inFlight - 1 } : Consumer).drain

def settle (c : Consumer) (calls : List Call) (settlement : Settlement) : Consumer :=
  { c with settled := c.settled ++ calls.map fun call => (call.key, settlement) }

/-- `CallWindow.removeHold`, with the rejection of what it takes out. -/
def removeHold (c : Consumer) (hold : Nat) (settlement : Settlement) : Consumer :=
  ({ c with waiting := c.waiting.filter fun call => call.hold ≠ hold } : Consumer).settle
    (c.waiting.filter fun call => call.hold = hold) settlement

/-- The call `id` leaves the table, settled. -/
def drop (c : Consumer) (id : Nat) (settlement : Settlement) : Consumer :=
  ({ c with calls := erase c.calls id } : Consumer).settle (c.calls.lookup id).toList settlement

def attach (c : Consumer) : Consumer :=
  ({ c with
    nextHold := c.nextHold + 1, entries := c.entries ++ [(c.nextHold, ⟨false, none⟩)] } : Consumer).send
      (.hold c.nextHold)

/-- `RemoteObject.call` of a live object, then `ConsumerSide.call`: a method that
the bound variant lacks is refused here. -/
def call (c : Consumer) (hold : Nat) (name : String) : Consumer :=
  match c.entries.lookup hold with
  | some ⟨true, some names⟩ =>
    if name ∈ names then
      ({ c with submitted := c.submitted ++ [hold] } : Consumer).submit
        ⟨c.submitted.length, hold, names.idxOf name, name⟩
    else c
  | _ => c

/-- The caller's cancellation of the call submitted under `key`. -/
def cancel (c : Consumer) (key : Nat) : Consumer :=
  if c.waiting.any fun call => call.key = key then
    ({ c with waiting := c.waiting.filter fun call => call.key ≠ key } : Consumer).settle
      (c.waiting.filter fun call => call.key = key) .cancelled
  else
    match c.calls.find? fun entry => entry.2.key = key with
    | some (id, _) => ((c.drop id .cancelled).send (.abort id)).freed
    | none => c

/-- The loop of `#failCalls` over the calls in flight. -/
def failAll (c : Consumer) (hold : Nat) : List Nat → Consumer
  | [] => c
  | id :: rest => failAll (c.drop id (.ended hold)).freed hold rest

/-- `#failCalls`: waiting calls first, a freed slot must not send one of them. -/
def failCalls (c : Consumer) (hold : Nat) : Consumer :=
  (c.removeHold hold (.ended hold)).failAll hold ((c.calls.filter fun entry => entry.2.hold = hold).map Prod.fst)

def forget (c : Consumer) (hold : Nat) : Consumer :=
  ({ c with entries := erase c.entries hold } : Consumer).failCalls hold

def release (c : Consumer) (hold : Nat) : Consumer :=
  (c.send (.release hold)).forget hold

def reply (c : Consumer) (id : Nat) : Consumer :=
  if (c.calls.lookup id).isSome then (c.drop id (.reply id)).freed else c

def setHeld (c : Consumer) (hold : Nat) (held : Held) : Consumer :=
  { c with entries := OrderedMap.set c.entries hold held }

/-- `#loading` and `#failed`: the calls of the hold that wait are rejected. -/
def starts (c : Consumer) (hold : Nat) : Consumer :=
  match c.entries.lookup hold with
  | some held => (c.removeHold hold (.rebinding hold)).setHeld hold { held with live := false }
  | none => c

/-- A message from the provider. -/
def receive (c : Consumer) : Notice → Consumer
  | .bound hold names => if (c.entries.lookup hold).isSome then c.setHeld hold ⟨true, some names⟩ else c
  | .loading hold | .failed hold => c.starts hold
  | .gone hold => if (c.entries.lookup hold).isSome then c.forget hold else c
  | .reply id => c.reply id

/-- `closed`: the window keeps its count. -/
def closed (c : Consumer) : Consumer :=
  ({ c with isOpen := false, calls := [], waiting := [], entries := [] } : Consumer).settle
    (c.calls.map Prod.snd ++ c.waiting) .closed

end Consumer

/-- `HoldState` of a served hold as far as calls go: `binding` with the names it
was bound with before a swap in place; and a relayed one. -/
inductive HoldState where
  | unbound
  | binding (previous : Option Names)
  | bound (names : Names)
  | relayed
deriving DecidableEq, Repr

/-- The names calls are answered by: none when the hold is not callable. -/
def HoldState.names : HoldState → Option Names
  | .binding previous => previous
  | .bound names => some names
  | _ => none

/-- What the arguments of a call turn out to be. -/
inductive Arguments where
  | fits
  | tooLarge
  | malformed
deriving DecidableEq, Repr

/-- A protocol error of a call: its id in use, more than N calls, a method outside
the bound variant, or malformed arguments. -/
inductive CallError where
  | idInUse
  | tooMany
  | noMethod
  | malformed
deriving DecidableEq, Repr

/-- `ProviderSide` of the consumer's origin; `wire` is what it sent that is not
received yet, `runs` the calls its objects ran with the methods they ran, and
`errors` the protocol errors. -/
structure Provider where
  entries : List (Nat × HoldState)
  calls : List (Nat × Call)
  isOpen : Bool
  wire : List Notice
  runs : List (Call × String)
  errors : List CallError
deriving DecidableEq, Repr

namespace Provider

def send (p : Provider) (notice : Notice) : Provider :=
  if p.isOpen then { p with wire := p.wire ++ [notice] } else p

def closed (p : Provider) : Provider :=
  { p with isOpen := false, entries := [], calls := [] }

/-- A protocol error closes the link. -/
def fail (p : Provider) (error : CallError) : Provider :=
  ({ p with errors := p.errors ++ [error] } : Provider).closed

def admitCall (p : Provider) (id : Nat) (call : Call) : Provider :=
  { p with calls := p.calls ++ [(id, call)] }

/-- The part of `#call` that its hold decides. -/
def serve (p : Provider) (id : Nat) (call : Call) (arguments : Arguments) : HoldState → Provider
  | .relayed =>
    match arguments with
    | .tooLarge => p.send (.reply id)
    | _ => p.admitCall id call
  | state =>
    match state.names with
    | none => p.send (.reply id)
    | some names =>
      match names[call.method]?, arguments with
      | none, _ => p.fail .noMethod
      | some _, .tooLarge => p.send (.reply id)
      | some _, .malformed => p.fail .malformed
      | some name, .fits => { p.admitCall id call with runs := p.runs ++ [(call, name)] }

def call (limit : Nat) (p : Provider) (id : Nat) (call : Call) (arguments : Arguments) : Provider :=
  if (p.calls.lookup id).isSome then p.fail .idInUse
  else
    match p.entries.lookup call.hold with
    | none => p
    | some state => if limit ≤ p.calls.length then p.fail .tooMany else p.serve id call arguments state

/-- `forget`: the hold, and every call on it. -/
def forget (p : Provider) (hold : Nat) : Provider :=
  { p with
    entries := erase p.entries hold
    calls := p.calls.filter fun entry => entry.2.hold ≠ hold }

/-- A message from the consumer. -/
def receive (limit : Nat) (p : Provider) (arguments : Arguments) : Request → Provider
  | .hold hold =>
    if (p.entries.lookup hold).isSome then p.fail .idInUse
    else { p with entries := p.entries ++ [(hold, .unbound)] }
  | .release hold => p.forget hold
  | .call id call => p.call limit id call arguments
  | .abort id => { p with calls := erase p.calls id }

/-- `reply`: the answer of a call that is still in the table. -/
def reply (p : Provider) (id : Nat) : Provider :=
  if (p.calls.lookup id).isSome then
    ({ p with calls := erase p.calls id } : Provider).send (.reply id)
  else p

/-- The loop of `unbound` and `upstreamDropped`. -/
def replyAll (p : Provider) : List Nat → Provider
  | [] => p
  | id :: rest => replyAll (p.reply id) rest

/-- `unbound` and `upstreamDropped`: the calls of the hold are answered. -/
def rejectCalls (p : Provider) (hold : Nat) : Provider :=
  p.replyAll ((p.calls.filter fun entry => entry.2.hold = hold).map Prod.fst)

def setState (p : Provider) (hold : Nat) (state : HoldState) : Provider :=
  { p with entries := OrderedMap.set p.entries hold state }

/-- `Hold.boundEntry`, sent. -/
def bind (p : Provider) (hold : Nat) (names : Names) : Provider :=
  (p.setState hold (.bound names)).send (.bound hold names)

/-- `Hold.#unbind` and `Hold.removed`, with the notice. -/
def unbind (p : Provider) (hold : Nat) (notice : Notice) : Provider :=
  ((p.rejectCalls hold).setState hold .unbound).send notice

/-- `Hold.end` and the end of a relayed hold. -/
def endHold (p : Provider) (hold : Nat) : Provider :=
  (p.forget hold).send (.gone hold)

end Provider

/-- Both sides of a link, for the consumer's own origin. -/
structure World where
  consumer : Consumer
  provider : Provider
deriving DecidableEq, Repr

def World.start : World where
  consumer :=
    { limit := 0, inFlight := 0, waiting := [], calls := [], nextCall := 0, entries := [], nextHold := 0
      isOpen := true, wire := [], submitted := [], settled := [], sent := [] }
  provider := { entries := [], calls := [], isOpen := true, wire := [], runs := [], errors := [] }

inductive StartsOver (hold : Nat) : Notice → Prop where
  | loading : StartsOver hold (.loading hold)
  | failed : StartsOver hold (.failed hold)

/-- What may happen: what the consumer's owners do, the provider's `hello`, what
its objects, its handlers and its relays do, either end closing, and each
direction delivering its next message. `limit` is the provider's N. -/
inductive Step (limit : Nat) : World → World → Prop where
  | opened (w : World) (hLimit : w.consumer.limit = 0) (hOpen : w.consumer.isOpen = true) :
      Step limit w { w with consumer := w.consumer.opened limit }
  | attach (w : World) (hOpen : w.consumer.isOpen = true) : Step limit w { w with consumer := w.consumer.attach }
  | call (w : World) (hold : Nat) (name : String) : Step limit w { w with consumer := w.consumer.call hold name }
  | cancel (w : World) (key : Nat) : Step limit w { w with consumer := w.consumer.cancel key }
  | release (w : World) (hold : Nat) (hHeld : (w.consumer.entries.lookup hold).isSome = true) :
      Step limit w { w with consumer := w.consumer.release hold }
  | consumerCloses (w : World) (hOpen : w.consumer.isOpen = true) :
      Step limit w { w with consumer := w.consumer.closed }
  | toProvider (w : World) {request : Request} {rest : List Request} (arguments : Arguments)
      (hOpen : w.provider.isOpen = true) (hWire : w.consumer.wire = request :: rest) :
      Step limit w ⟨{ w.consumer with wire := rest }, w.provider.receive limit arguments request⟩
  | toConsumer (w : World) {notice : Notice} {rest : List Notice}
      (hOpen : w.consumer.isOpen = true) (hWire : w.provider.wire = notice :: rest) :
      Step limit w ⟨w.consumer.receive notice, { w.provider with wire := rest }⟩
  | providerCloses (w : World) : Step limit w { w with provider := w.provider.closed }
  | answers (w : World) (id : Nat) : Step limit w { w with provider := w.provider.reply id }
  | lives (w : World) (hold : Nat) (hState : w.provider.entries.lookup hold = some .unbound) :
      Step limit w { w with provider := w.provider.setState hold (.binding none) }
  | binds (w : World) {hold : Nat} {previous : Option Names} (names : Names)
      (hState : w.provider.entries.lookup hold = some (.binding previous)) :
      Step limit w { w with provider := w.provider.bind hold names }
  | swaps (w : World) {hold : Nat} {names : Names} (hState : w.provider.entries.lookup hold = some (.bound names)) :
      Step limit w { w with provider := w.provider.setState hold (.binding (some names)) }
  | unbinds (w : World) {hold : Nat} {notice : Notice} {state : HoldState} (hNotice : StartsOver hold notice)
      (hState : w.provider.entries.lookup hold = some state) (hServed : state ≠ .relayed) :
      Step limit w { w with provider := w.provider.unbind hold notice }
  | relays (w : World) (hold : Nat) (hState : w.provider.entries.lookup hold = some .unbound) :
      Step limit w { w with provider := w.provider.setState hold .relayed }
  | upstreamDrops (w : World) (hold : Nat) (hState : w.provider.entries.lookup hold = some .relayed) :
      Step limit w { w with provider := (w.provider.rejectCalls hold).send (.loading hold) }
  -- a failure or an attempt of an unbound hold's object, or what a relay forwards
  | notifies (w : World) {hold : Nat} {notice : Notice}
      (hState : w.provider.entries.lookup hold = some .unbound ∨ w.provider.entries.lookup hold = some .relayed)
      (hNotice : StartsOver hold notice) : Step limit w { w with provider := w.provider.send notice }
  | forwards (w : World) (hold : Nat) (names : Names) (hState : w.provider.entries.lookup hold = some .relayed) :
      Step limit w { w with provider := w.provider.send (.bound hold names) }
  | ends (w : World) (hold : Nat) (hHeld : (w.provider.entries.lookup hold).isSome = true) :
      Step limit w { w with provider := w.provider.endHold hold }

/-- The worlds that some interleaving leads to. -/
inductive Reachable (limit : Nat) : World → Prop where
  | start : Reachable limit .start
  | step {w next : World} (earlier : Reachable limit w) (hStep : Step limit w next) : Reachable limit next

end OctoberHarness.Remote
