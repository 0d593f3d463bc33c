import Mathlib.Data.List.Basic
import Mathlib.Data.Option.Basic

/-! One end of a link: the handshake, messages handled in order while one waits
for an asynchronous inflate, the heartbeat, and the close. -/
namespace OctoberHarness.Link

def PROTOCOL_VERSION : Nat := 1

/-- A message as a channel tells them apart: its own kinds, and the others,
which it passes on. -/
inductive ChannelMessage (M : Type) where
  | hello (protocol : Nat) (incarnation : String) (calls : Nat)
  | ping
  | pong
  | other (message : M)
deriving DecidableEq, Repr

/-- How a link turns messages into bytes and back. Either direction may throw;
the control messages of the link itself always have bytes. -/
structure Codec (B M : Type) where
  encode : ChannelMessage M → Option B
  decode : B → Option (ChannelMessage M)
  ping : B
  encode_ping : encode .ping = some ping
  pong : B
  encode_pong : encode .pong = some pong

/-- What a channel is made with. Its constructor encodes `hello`. -/
structure ChannelOptions (B M : Type) where
  codec : Codec B M
  checkMessage : ChannelMessage M → Bool
  incarnation : String
  calls : Nat
  trusted : Bool
  hello : B
  encode_hello : codec.encode (.hello PROTOCOL_VERSION incarnation calls) = some hello

/-- What the transport does with a sent message: takes it, or fails, which ends
the link. -/
inductive Sending where
  | leaves
  | breaks
deriving DecidableEq, Repr

/-- What the owner of a channel does with it while it is called. -/
inductive Act (M : Type) where
  | send (message : ChannelMessage M)
  | close

/-- How a call of the owner ends. Only `message` may return a promise. -/
inductive Ending where
  | returns
  | throws
  | waits
deriving DecidableEq, Repr

structure Reply (M : Type) where
  acts : List (Act M)
  ending : Ending

/-- A channel's options with its surroundings: what the transport does with the
`n`-th message sent and what the owner does in its `n`-th call. -/
structure Setup (B M : Type) extends ChannelOptions B M where
  transport : Nat → Sending
  owner : Nat → Reply M

/-- Where a channel stands. -/
inductive ChannelState (B : Type) where
  | greeting (queued : List B)
  | opened (peer : String) (calls : Nat)
  | closed
deriving DecidableEq, Repr

/-- The fields of a channel. `held` are the messages still to handle, in order,
while one is handled asynchronously. -/
structure Channel (B : Type) where
  state : ChannelState B
  lastReceived : Int
  pinged : Bool
  held : Option (List B)
  waiting : Bool
deriving DecidableEq, Repr

/-- The fields of the link's end: messages that arrived before its listener was
set wait in `queued`. -/
structure LinkEnd (B : Type) where
  closed : Bool
  listener : Bool
  queued : List B
  closeListener : Bool
deriving DecidableEq, Repr

/-- What can be seen of an end from outside: what leaves over the link, the
calls of the owner with the promise of an asynchronous one, the report of a
protocol error, and the close. -/
inductive Seen (B M : Type) where
  | hello
  | greeted (peer : String) (calls : Nat)
  | opened
  | message (message : M)
  | waits
  | settles
  | pong
  | ping
  | sent (bytes : B)
  | reported
  | ended
  | closed
deriving DecidableEq, Repr

/-- A channel on its end of a link, with its history. -/
structure System (B M : Type) where
  channel : Channel B
  link : LinkEnd B
  started : Bool
  /-- Promises of the owner that have not settled. -/
  pending : Nat
  /-- Messages sent over the transport, and calls of the owner. -/
  sends : Nat
  calls : Nat
  log : List (Seen B M)
  /-- What the owner sent before the close, in order. -/
  asked : List B
  /-- What the channel received before the close, in order. -/
  received : List B
deriving DecidableEq, Repr

namespace System

variable {B M : Type}

/-- A new channel, made at `now`. -/
def fresh (now : Int) : System B M where
  channel := ⟨.greeting [], now, false, none, false⟩
  link := ⟨false, false, [], false⟩
  started := false
  pending := 0
  sends := 0
  calls := 0
  log := []
  asked := []
  received := []

def note (s : System B M) (seen : Seen B M) : System B M :=
  { s with log := s.log ++ [seen] }

def setState (s : System B M) (state : ChannelState B) : System B M :=
  { s with channel := { s.channel with state } }

def setHeld (s : System B M) (held : Option (List B)) : System B M :=
  { s with channel := { s.channel with held } }

/-- `Channel.#closed`, the close listener. What the owner then does with the
channel is dropped: both are closed. -/
def closed (s : System B M) : System B M :=
  match s.channel.state with
  | .closed => s
  | _ => note { s with channel := { s.channel with state := .closed, held := none } } .closed

def ended (s : System B M) : System B M :=
  if s.link.closed then s
  else if s.link.closeListener then closed (note { s with link := ⟨true, false, [], false⟩ } .ended)
  else note { s with link := ⟨true, false, [], false⟩ } .ended

/-- `Link.close` on this end; `Channel.close` is this. -/
def close (s : System B M) : System B M := ended s

variable (setup : Setup B M)

/-- `Link.send`, seen as `seen` when it leaves. -/
def linkSend (s : System B M) (seen : Seen B M) : System B M :=
  if s.link.closed then s
  else
    match setup.transport s.sends with
    | .leaves => note { s with sends := s.sends + 1 } seen
    | .breaks => ended { s with sends := s.sends + 1 }

def send (s : System B M) (message : ChannelMessage M) : System B M :=
  match s.channel.state, setup.codec.encode message with
  | .closed, _ => s
  | _, none => s
  | .greeting queued, some bytes =>
    setState { s with asked := s.asked ++ [bytes] } (.greeting (queued ++ [bytes]))
  | .opened .., some bytes => linkSend setup { s with asked := s.asked ++ [bytes] } (.sent bytes)

def act (s : System B M) : Act M → System B M
  | .send message => send setup s message
  | .close => close s

/-- A call of the owner, noted as `seen`, with what it does with the channel. -/
def tell (s : System B M) (seen : Seen B M) : System B M :=
  (setup.owner s.calls).acts.foldl (act setup) (note { s with calls := s.calls + 1 } seen)

/-- How the next call of the owner ends. -/
def answer (s : System B M) : Ending :=
  (setup.owner s.calls).ending

def failed (s : System B M) : System B M :=
  match s.channel.state with
  | .closed => s
  | _ => close (tell setup s .reported)

/-- `Channel.#decode`: `none` when it throws. -/
def decode (bytes : B) : Option (ChannelMessage M) :=
  (setup.codec.decode bytes).filter fun message => setup.trusted || setup.checkMessage message

/-- `Channel.#greet`, its throws caught by `#handle`. -/
def greet (s : System B M) (bytes : B) (queued : List B) : System B M :=
  match decode setup bytes with
  | some (.hello protocol incarnation calls) =>
    if protocol ≠ PROTOCOL_VERSION then failed setup s
    else
      let flushed := queued.foldl (fun s bytes => linkSend setup s (.sent bytes))
        (note (setState s (.opened incarnation calls)) (.greeted incarnation calls))
      if answer setup flushed = .throws then failed setup (tell setup flushed .opened)
      else tell setup flushed .opened
  | _ => failed setup s

/-- `Channel.#hold`: the message waits for the owner's promise. -/
def hold (s : System B M) : System B M :=
  note { s with
    channel := { s.channel with held := some (s.channel.held.getD []), waiting := true }
    pending := s.pending + 1 } .waits

def handle (s : System B M) (bytes : B) : System B M :=
  match s.channel.state with
  | .greeting queued => greet setup s bytes queued
  | _ =>
    match decode setup bytes with
    | none => failed setup s
    | some (.hello ..) => failed setup s
    | some .ping => linkSend setup s .pong
    | some .pong => s
    | some (.other message) =>
      match answer setup s with
      | .returns => tell setup s (.message message)
      | .throws => failed setup (tell setup s (.message message))
      | .waits => hold (tell setup s (.message message))

/-- The loop of `Channel.#release` over the messages still held. -/
def drain : List B → System B M → System B M
  | [], s => setHeld s none
  | bytes :: rest, s =>
    match s.channel.state with
    | .opened .. =>
      let handled := handle setup (setHeld s (some rest)) bytes
      if handled.channel.waiting then handled else drain rest handled
    | _ => s

def release (s : System B M) : System B M :=
  match s.channel.held with
  | none => s
  | some queue => drain setup queue s

/-- A received message, stamped, before it is handled or held. -/
def receiving (s : System B M) (now : Int) (bytes : B) : System B M :=
  { s with
    channel := { s.channel with lastReceived := now, pinged := false }
    received := s.received ++ [bytes] }

/-- `Channel.#receive` at `now`. -/
def receive (now : Int) (s : System B M) (bytes : B) : System B M :=
  match s.channel.state, s.channel.held with
  | .closed, _ => s
  | _, none => handle setup (receiving s now bytes) bytes
  | _, some queue => setHeld (receiving s now bytes) (some (queue ++ [bytes]))

/-- `LinkEnd.deliver`. -/
def deliver (now : Int) (s : System B M) (bytes : B) : System B M :=
  if s.link.closed then s
  else if s.link.listener then receive setup now s bytes
  else { s with link := { s.link with queued := s.link.queued ++ [bytes] } }

/-- The loop of `LinkEnd.onMessage` over what arrived before. -/
def deliverQueued (now : Int) : List B → System B M → System B M
  | [], s => s
  | bytes :: rest, s =>
    if s.link.closed then s else deliverQueued now rest (receive setup now s bytes)

/-- The link's end passes on what arrives. -/
def listening (s : System B M) : System B M :=
  { s with link := { s.link with listener := true, queued := [] } }

/-- `LinkEnd.onMessage` with the channel as the listener. -/
def onMessage (now : Int) (s : System B M) : System B M :=
  if s.link.closed then s else deliverQueued setup now s.link.queued (listening s)

/-- `LinkEnd.onClose` with the channel as the listener. -/
def onClose (s : System B M) : System B M :=
  if s.link.closed then closed s
  else { s with link := { s.link with closeListener := true } }

def starting (s : System B M) : System B M :=
  { s with started := true }

/-- `Channel.start` at `now`. -/
def start (now : Int) (s : System B M) : System B M :=
  onClose (onMessage setup now (linkSend setup (starting s) .hello))

/-- A ping goes out. -/
def pinging (s : System B M) : System B M :=
  { s with channel := { s.channel with pinged := true } }

def tick (s : System B M) (now ping close : Int) : System B M :=
  if close ≤ now - s.channel.lastReceived then s.close
  else
    match s.channel.state with
    | .opened .. =>
      if ping ≤ now - s.channel.lastReceived ∧ s.channel.pinged = false then
        linkSend setup (pinging s) .ping
      else s
    | _ => s

/-- A promise of the owner settles. -/
def settling (s : System B M) : System B M :=
  note { s with pending := s.pending - 1 } .settles

def stopWaiting (s : System B M) : System B M :=
  { s with channel := { s.channel with waiting := false } }

/-- The callbacks of `Channel.#hold`. -/
def settle (s : System B M) (resolved : Bool) : System B M :=
  if s.pending = 0 then s
  else if resolved then release setup (stopWaiting (settling s))
  else failed setup (settling s)

end System

/-- What happens to a channel from outside its own calls. -/
inductive Event (B M : Type) where
  | start (now : Int)
  | arrives (now : Int) (bytes : B)
  | settles (resolved : Bool)
  | send (message : ChannelMessage M)
  | close
  /-- The transport ended: the peer closed, or it broke. -/
  | lost
  | tick (now ping close : Int)

namespace System

variable {B M : Type} (setup : Setup B M)

/-- Its owner starts a channel once. -/
def step (s : System B M) : Event B M → System B M
  | .start now => if s.started then s else start setup now s
  | .arrives now bytes => deliver setup now s bytes
  | .settles resolved => settle setup s resolved
  | .send message => send setup s message
  | .close => close s
  | .lost => ended s
  | .tick now ping close => tick setup s now ping close

def run (made : Int) (events : List (Event B M)) : System B M :=
  events.foldl (step setup) (fresh made)

end System

end OctoberHarness.Link
