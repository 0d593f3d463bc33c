import OctoberHarness.Delta.Pending

/-! The watch handle of a JSON source: frames wait in one queue while the
listener is busy, and its lifecycle from the acquisition to its only end. -/
namespace OctoberHarness.Watches

open Delta (Op PendingOps PendingTake)

/-- `WatchEnd`; the error of a listener is what it threw, as an `Error`. -/
inductive WatchEnd (E : Type) where
  | stopped
  | aborted
  | ended
  | listenerError (error : E)
  | failed (error : E)
deriving DecidableEq, Repr

/-- `WatchCall`: a call of the listener, or a frame of the source. -/
inductive WatchCall (E : Type) where
  | value (value : JsonValue) (ops : List Op) (retired : Bool)
  | failed (error : E)
deriving DecidableEq

/-- What happens at a watch, for its history: a frame it took, a call of the
listener and its end, `endAfterDelivery`, the watch finding after it that
nothing is left to deliver, its detaching, and its end. -/
inductive Event (E C : Type) where
  | frame (call : WatchCall E) (context : C)
  | called (call : WatchCall E) (context : C)
  | returned
  | ending
  | spent
  | detached
  | closed (finish : WatchEnd E)
deriving DecidableEq

/-- Where `#drain` stands: it does not run; it awaits the listener; or it
reports what the listener threw. -/
inductive Drain (E : Type) where
  | idle
  | calling
  | reporting (error : E)
deriving DecidableEq

/-- `Watch` with its `WatchLifecycle`; `finish` is `#end`. -/
structure Watch (E C : Type) where
  value : JsonValue
  started : Bool
  scheduled : Bool
  drain : Drain E
  ending : Bool
  finish : Option (WatchEnd E)
  ops : PendingOps
  lone : Option (WatchCall E)
  newestValue : Option JsonValue
  newestContext : Option C
  retired : Bool
  failure : Option E
  replace : Bool
  log : List (Event E C)
deriving DecidableEq

variable {E C : Type}

/-- A watch just acquired. -/
def acquire (value : JsonValue) : Watch E C where
  value := value
  started := false
  scheduled := false
  drain := .idle
  ending := false
  finish := none
  ops := .empty
  lone := none
  newestValue := none
  newestContext := none
  retired := false
  failure := none
  replace := false
  log := []

namespace Watch

def running (w : Watch E C) : Bool :=
  match w.drain with
  | .idle => false
  | _ => true

/-- `open`: the watch still takes frames. -/
def takes (w : Watch E C) : Bool :=
  w.finish.isNone && !w.ending

def record (w : Watch E C) (event : Event E C) : Watch E C :=
  { w with log := w.log ++ [event] }

def release (w : Watch E C) : Watch E C :=
  { w with
    ops := .empty, lone := none, newestValue := none, newestContext := none, retired := false
    failure := none, replace := false }

def terminate (w : Watch E C) (finish : WatchEnd E) : Watch E C :=
  if w.finish.isSome then w
  else (({ w.release with finish := some finish } : Watch E C).record .detached).record (.closed finish)

def schedule (w : Watch E C) : Watch E C :=
  if w.scheduled || w.running || w.finish.isSome then w else { w with scheduled := true }

def pending (w : Watch E C) : Watch E C :=
  if w.started then w.schedule else w

/-- `start`, which leaves the watch as it is where it throws. -/
def start (w : Watch E C) : Watch E C :=
  if w.started || w.finish.isSome then w else ({ w with started := true } : Watch E C).schedule

def fail (w : Watch E C) (error : E) (context : C) : Watch E C :=
  if w.takes then
    (({ w with
      ops := .empty, lone := none, newestValue := none, failure := some error
      newestContext := some context, replace := true } : Watch E C).record
        (.frame (.failed error) context)).pending
  else w

/-- The part of `advance` that depends on an earlier failure. -/
def queue (w : Watch E C) (call : WatchCall E) (ops : List Op) : Watch E C :=
  if w.replace then { w with failure := none }
  else { w with lone := if w.newestContext.isNone then some call else none, ops := w.ops.push ops }

/-- The rest of `advance`: the newest value and its context. -/
def arrive (w : Watch E C) (value : JsonValue) (retired : Bool) (context : C) : Watch E C :=
  { w with newestValue := some value, newestContext := some context, retired := w.retired || retired }

def advance (w : Watch E C) (call : WatchCall E) (context : C) : Watch E C :=
  match call with
  | .failed error => w.fail error context
  | .value value ops retired =>
    if w.takes then
      (((w.queue call ops).arrive value retired context).record (.frame call context)).pending
    else w

def nextAfterFailure (w : Watch E C) : WatchCall E × Watch E C :=
  match w.failure with
  | some error => (.failed error, { w with newestContext := none, failure := none })
  | none =>
    -- set with the context
    (.value (w.newestValue.getD .null) [.r (w.newestValue.getD .null)] w.retired,
      { w with newestContext := none, newestValue := none, retired := false, replace := false })

/-- The ops of a call: those taken, or a replacement with the value. -/
def callOps (value : JsonValue) : PendingTake → List Op
  | .ops ops => ops
  | .replace => [.r value]

def next (w : Watch E C) : WatchCall E × Watch E C :=
  if w.replace then w.nextAfterFailure
  else
    (w.lone.getD (.value (w.newestValue.getD .null) (callOps (w.newestValue.getD .null) w.ops.take) w.retired),
      { w with ops := .empty, lone := none, newestValue := none, newestContext := none, retired := false })

/-- The value of the watch once it makes a call. -/
def valueAfter (value : JsonValue) : WatchCall E → JsonValue
  | .value newest _ _ => newest
  | .failed _ => value

def call (w : Watch E C) (context : C) : Watch E C :=
  ({ w.next.2 with value := valueAfter w.value w.next.1, drain := .calling } : Watch E C).record
    (.called w.next.1 context)

/-- A watch that ends since its source ended and it delivered the rest. -/
def exhaust (w : Watch E C) : Watch E C :=
  (w.record .spent).terminate .ended

/-- `#drain` from the head of its loop to its next wait. -/
def deliver (w : Watch E C) : Watch E C :=
  if w.finish.isSome then { w with drain := .idle }
  else
    match w.newestContext with
    | none => { (if w.ending then w.exhaust else w) with drain := .idle }
    | some context => w.call context

def endAfterDelivery (w : Watch E C) : Watch E C :=
  if w.finish.isSome || w.ending then w
  else if !w.running && w.newestContext.isNone then
    (({ w with ending := true } : Watch E C).record .ending).exhaust
  else ({ w with ending := true } : Watch E C).record .ending

/-- The microtask that `#schedule` queued. -/
def microtask (w : Watch E C) : Watch E C :=
  if w.running || w.finish.isSome || !w.started then { w with scheduled := false }
  else ({ w with scheduled := false } : Watch E C).deliver

/-- The listener threw or rejected: the watch reports it, unless it ended. -/
def throws (w : Watch E C) (error : E) : Watch E C :=
  if w.finish.isSome then ({ w with drain := .idle } : Watch E C).record .returned
  else ({ w with drain := .reporting error } : Watch E C).record .returned

end Watch

/-- What may happen at a watch: frames and ends of its source, calls of its
owner, an abort, its microtask, its listener returning or throwing, and `report`
returning. All but the last three may come at any time, also during a call. -/
inductive Action (E C : Type) where
  | advance (call : WatchCall E) (context : C)
  | fail (error : E) (context : C)
  | start
  | stop
  | abort
  | finish (finish : WatchEnd E)
  | endAfterDelivery
  | microtask
  | returns
  | throws (error : E)
  | reported

/-- The watch after an action, where it may happen. -/
def step (w : Watch E C) : Action E C → Option (Watch E C)
  | .advance call context => some (w.advance call context)
  | .fail error context => some (w.fail error context)
  | .start => some w.start
  | .stop => some (w.terminate .stopped)
  | .abort => some (w.terminate .aborted)
  | .finish finish => some (w.terminate finish)
  | .endAfterDelivery => some w.endAfterDelivery
  | .microtask => if w.scheduled then some w.microtask else none
  | .returns =>
    match w.drain with
    | .calling => some (w.record .returned).deliver
    | _ => none
  | .throws error =>
    match w.drain with
    | .calling => some (w.throws error)
    | _ => none
  | .reported =>
    match w.drain with
    | .reporting error => some { w.terminate (.listenerError error) with drain := .idle }
    | _ => none

/-! What a history amounts to. -/

/-- What a history says: the value last delivered and the newest one; the
failure that is the newest frame; the context of the newest frame; whether a
frame came after the last call, and a failure or a retirement after the last
value call; the last call, and whether it still runs; whether the source ended;
and how often the watch detached, and what it settled with. -/
structure History (E C : Type) where
  shown : JsonValue
  newest : JsonValue
  failed : Option E
  context : Option C
  due : Bool
  replacing : Bool
  retired : Bool
  last : Option (WatchCall E)
  calling : Bool
  ending : Bool
  detached : Nat
  closed : List (WatchEnd E)

def History.start (initial : JsonValue) : History E C where
  shown := initial
  newest := initial
  failed := none
  context := none
  due := false
  replacing := false
  retired := false
  last := none
  calling := false
  ending := false
  detached := 0
  closed := []

def History.after (h : History E C) : Event E C → History E C
  | .frame (.value value _ retired) context =>
    { h with newest := value, failed := none, context := some context, due := true, retired := h.retired || retired }
  | .frame (.failed error) context =>
    { h with failed := some error, context := some context, due := true, replacing := true }
  | .called (.value value ops retired) _ =>
    { h with
      shown := value, due := false, replacing := false, retired := false, calling := true
      last := some (.value value ops retired) }
  | .called (.failed error) _ => { h with due := false, calling := true, last := some (.failed error) }
  | .returned => { h with calling := false }
  | .ending => { h with ending := true }
  | .spent => h
  | .detached => { h with detached := h.detached + 1 }
  | .closed finish => { h with closed := h.closed ++ [finish] }

def historyOf (initial : JsonValue) (log : List (Event E C)) : History E C :=
  log.foldl History.after (.start initial)

@[simp] theorem historyOf_nil (initial : JsonValue) : (historyOf initial [] : History E C) = .start initial := rfl

@[simp] theorem historyOf_append (initial : JsonValue) (log later : List (Event E C)) :
    historyOf initial (log ++ later) = later.foldl History.after (historyOf initial log) := by
  rw [historyOf, List.foldl_append, historyOf]

/-- A frame that its source may hand a watch that takes it: its ops lead from the
value before it to its own, as `Follows` has it. After a failure they may be any. -/
def Allowed (Follows : JsonValue → List Op → JsonValue → Prop) (initial : JsonValue) (w : Watch E C) :
    Action E C → Prop
  | .advance (.value value ops _) _ =>
    w.takes = true → (historyOf initial w.log).failed ≠ none ∨ Follows (historyOf initial w.log).newest ops value
  | _ => True

/-- The watches that some interleaving leads to. -/
inductive Reachable (Follows : JsonValue → List Op → JsonValue → Prop) (initial : JsonValue) :
    Watch E C → Prop where
  | acquired : Reachable Follows initial (acquire initial)
  | step {w next : Watch E C} {action : Action E C} (earlier : Reachable Follows initial w)
      (allowed : Allowed Follows initial w action) (hStep : step w action = some next) :
      Reachable Follows initial next

end OctoberHarness.Watches
