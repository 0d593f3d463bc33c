import OctoberHarness.Library.OrderedMap
import OctoberHarness.Library.Transition

/-! The writer of a session: it stores the commits that the mutation line
admitted in batches off the line and publishes them in line order. A step is
what runs between two waits or calls of the host, so everything that may happen
in between is an interleaving of steps. -/
namespace OctoberHarness.Session

variable {Write Key Seq Err : Type}

/-- One logical commit the line admitted: stored, or held in memory only when it
has no `writes`. What `publish` and `discard` do is recorded, not run. -/
structure PartSpec (Write Key : Type) where
  index : Nat
  writes : Option (List Write)
  keys : List Key
deriving DecidableEq, Repr

/-- What can be thrown: any value of a callback, or the writer's own error for
a storage that resolved without a receipt. -/
inductive Fault (Err : Type) where
  | thrown (error : Err)
  | notAdopted
deriving DecidableEq, Repr

inductive PublishFailure (Err : Type) where
  | adoption (error : Fault Err)
  | listener (error : Fault Err)
deriving DecidableEq, Repr

/-- How an outcome settled. -/
inductive Outcome (Err : Type) where
  | resolved
  | rejected (error : Fault Err)
  | sessionFailed (error : Fault Err)
deriving DecidableEq, Repr

/-- `FailedOutcome`: an error of its own, or `SessionFailed`. -/
inductive FailedOutcome (Err : Type) where
  | own (error : Fault Err)
  | failed
deriving DecidableEq, Repr

structure CommitResult (Err : Type) where
  stored : Nat
  refused : Option Err
deriving DecidableEq, Repr

/-- The failure of the session: its error, the line index at which it starts,
and the later jobs that keep their own error. -/
structure SessionFailure (Err : Type) where
  error : Fault Err
  at? : Option Nat
  own : List Nat
deriving DecidableEq, Repr

/-- Why a call stops publishing. -/
structure Stop (Err : Type) where
  error : Fault Err
  at? : Nat
  external : Bool
deriving DecidableEq, Repr

/-- A part to settle once the session failed. -/
structure Failing (Err : Type) where
  part : Nat
  outcome : FailedOutcome Err
  published : Bool
deriving DecidableEq, Repr

/-- What a storage call left: its receipts, and its result or its rejection. -/
structure Call (Seq Err : Type) where
  seqs : List Seq := []
  result : Option (CommitResult Err) := none
  rejected : Option Err := none
deriving DecidableEq, Repr

/-- The variables of the loop of `#publish`. -/
structure Loop (Err : Type) where
  rest : List Nat
  storedIndex : Nat := 0
  published : Nat := 0
  stop : Option (Stop Err) := none
  failing : List (Failing Err) := []
deriving DecidableEq, Repr

/-- Where `#flush` of a call stands. -/
inductive Phase (Seq Err : Type) where
  /-- `#send` begins. -/
  | send
  /-- Awaiting `commit`, with the receipts so far. -/
  | commit (seqs : List Seq)
  /-- The storage call settled, or there was none. -/
  | settled (call : Call Seq Err)
  /-- Unpublishing parts of a failed session, the last thing `#send` does. -/
  | refuse (parts : List Nat) (error : Fault Err)
  /-- The head of the loop of `#publish`. -/
  | publish (call : Call Seq Err) (loop : Loop Err)
  /-- Awaiting `hop` before a part. -/
  | hop (call : Call Seq Err) (loop : Loop Err) (part : Nat) (seq : Option Seq)
  /-- The publication of a part is with the scope of the storage. -/
  | scope (call : Call Seq Err) (loop : Loop Err) (part : Nat) (seq : Option Seq)
  /-- `stored` and `publish` of a part run. -/
  | running (call : Call Seq Err) (loop : Loop Err) (part : Nat)
  /-- The publication of a part ran. -/
  | ran (call : Call Seq Err) (loop : Loop Err) (part : Nat) (failure : Option (PublishFailure Err))
  /-- Awaiting the microtask before the session fails. -/
  | failing (call : Call Seq Err) (loop : Loop Err)
  /-- Settling what waited for the failure. -/
  | settling (stop : Option (Stop Err)) (failing : List (Failing Err))
  /-- The last check of `#publish`. -/
  | last
deriving DecidableEq, Repr

/-- A call in flight: the parts it took from the queue, and its phase. -/
structure Flight (Seq Err : Type) where
  parts : List Nat
  phase : Phase Seq Err
deriving DecidableEq, Repr

/-- What the writer did so far, each list in the order in which it did it. Parts
are numbered in the order of their admission. -/
structure History (Seq Err : Type) where
  receipts : List (Nat × Seq) := []
  published : List (Nat × Option Seq) := []
  settled : List (Nat × Outcome Err) := []
  discarded : List Nat := []
  opened : List Nat := []
deriving DecidableEq, Repr

/-- A writer with the failure of its session and its history. -/
structure Writer (Write Key Seq Err : Type) where
  parts : List (PartSpec Write Key) := []
  queue : List Nat := []
  flight : Option (Flight Seq Err) := none
  unpublished : List (Key × Nat) := []
  newest : Option Nat := none
  failure : Option (SessionFailure Err) := none
  history : History Seq Err := {}
deriving DecidableEq, Repr

/-- What the storage call ends with. -/
inductive CommitEnd (Err : Type) where
  | resolved (result : CommitResult Err)
  | rejected (error : Err)
deriving DecidableEq, Repr

/-- What `stored` and `publish` of a part end with. -/
inductive PublishEnd (Err : Type) where
  | returned (failure : Option (PublishFailure Err))
  | threw (error : Err)
deriving DecidableEq, Repr

/-- Everything that can happen to a writer. -/
inductive Action (Write Key Seq Err : Type) where
  /-- The line admits a part. -/
  | admitted (spec : PartSpec Write Key)
  /-- Something else fails the session. -/
  | failed (error : Err)
  /-- The writer goes on by itself. -/
  | advance
  /-- The storage gives the receipt of the next batch. -/
  | receive (seq : Seq)
  /-- The storage call settles. -/
  | settle (result : CommitEnd Err)
  /-- The publication that runs comes to its end. -/
  | ran (result : PublishEnd Err)
  /-- A host callback throws that should not. -/
  | throws (error : Err)
deriving DecidableEq, Repr

namespace Writer

variable [DecidableEq Key]

def keysOf (w : Writer Write Key Seq Err) (part : Nat) : List Key :=
  (w.parts[part]?.map PartSpec.keys).getD []

def indexOf (w : Writer Write Key Seq Err) (part : Nat) : Nat :=
  (w.parts[part]?.map PartSpec.index).getD 0

/-- Whether a part has writes. -/
def stored (w : Writer Write Key Seq Err) (part : Nat) : Bool :=
  (w.parts[part]?.bind PartSpec.writes).isSome

/-- `gate`: the part whose gate a reader of `key` waits for. -/
def gate (w : Writer Write Key Seq Err) (key : Key) : Option Nat :=
  w.unpublished.lookup key

/-- `drained`: the part whose gate opens last. -/
def drained (w : Writer Write Key Seq Err) : Option Nat :=
  w.newest

/-- The loop of `#unregister`. -/
def dropKeys (part : Nat) : List Key → List (Key × Nat) → List (Key × Nat)
  | [], unpublished => unpublished
  | key :: rest, unpublished =>
    dropKeys part rest
      (if unpublished.lookup key = some part then OrderedMap.erase unpublished key else unpublished)

def unregister (w : Writer Write Key Seq Err) (part : Nat) : Writer Write Key Seq Err :=
  { w with unpublished := dropKeys part (w.keysOf part) w.unpublished }

/-- `settle.resolve` and `settle.reject`. -/
def settle (w : Writer Write Key Seq Err) (part : Nat) (outcome : Outcome Err) :
    Writer Write Key Seq Err :=
  { w with history.settled := w.history.settled ++ [(part, outcome)] }

def discard (w : Writer Write Key Seq Err) (part : Nat) : Writer Write Key Seq Err :=
  { w with history.discarded := w.history.discarded ++ [part] }

/-- `#open`. -/
def openGate (w : Writer Write Key Seq Err) (part : Nat) : Writer Write Key Seq Err :=
  { w with
    history.opened := w.history.opened ++ [part]
    newest := if w.newest = some part then none else w.newest }

def unpublish (w : Writer Write Key Seq Err) (part : Nat) (outcome : Outcome Err) :
    Writer Write Key Seq Err :=
  (((w.discard part).settle part outcome).unregister part).openGate part

/-- `fail` of the host: the first failure wins. -/
def fail (w : Writer Write Key Seq Err) (failure : SessionFailure Err) : Writer Write Key Seq Err :=
  { w with failure := w.failure.or (some failure) }

/-- `#failed`. -/
def failedWith (w : Writer Write Key Seq Err) (error : Fault Err) : Outcome Err :=
  match w.failure with
  | some failure => .sessionFailed failure.error
  | none => .sessionFailed error

/-- `#pump` while no call is in flight. -/
def pump (w : Writer Write Key Seq Err) : Writer Write Key Seq Err :=
  if w.queue = [] then w
  else { w with flight := some { parts := w.queue, phase := .send }, queue := [] }

/-- The end of `#flush`. -/
def endFlush (w : Writer Write Key Seq Err) : Writer Write Key Seq Err :=
  { w with flight := none }.pump

/-- `admit`. -/
def admitPart (w : Writer Write Key Seq Err) (spec : PartSpec Write Key) : Writer Write Key Seq Err :=
  let part := w.parts.length
  let w := { w with
    parts := w.parts ++ [spec]
    unpublished := spec.keys.foldl (fun keys key => OrderedMap.set keys key part) w.unpublished
    newest := some part
    queue := w.queue ++ [part] }
  if w.flight.isSome then w else w.pump

def storedParts (w : Writer Write Key Seq Err) (parts : List Nat) : List Nat :=
  parts.filter w.stored

/-- Go on in another phase of the same call. -/
def enter (w : Writer Write Key Seq Err) (parts : List Nat) (phase : Phase Seq Err) :
    Writer Write Key Seq Err :=
  { w with flight := some { parts, phase } }

/-- One turn of the loop of `#publish`, up to its first wait. -/
def publishHead (w : Writer Write Key Seq Err) (call : Call Seq Err) (loop : Loop Err) (part : Nat)
    (rest : List Nat) : Phase Seq Err :=
  let index := if w.stored part then some loop.storedIndex else none
  let loop := { loop with
    rest := rest
    storedIndex := if w.stored part then loop.storedIndex + 1 else loop.storedIndex }
  match loop.stop with
  | some stop =>
    let outcome :=
      match call.rejected with
      | some error =>
        if index.isSome ∧ stop.external = false then .own (.thrown error) else .failed
      | none => .failed
    .publish call { loop with failing := loop.failing ++ [⟨part, outcome, false⟩] }
  | none =>
    let seq := index.bind fun index => call.seqs[index]?
    if index.isSome ∧ seq.isNone then
      let error :=
        match call.rejected, call.result with
        | some error, _ => .thrown error
        | none, some { stored, refused := some error } =>
          if index = some stored then .thrown error else .notAdopted
        | none, _ => .notAdopted
      .publish call { loop with
        failing := loop.failing ++ [⟨part, .own error, false⟩]
        stop := some ⟨error, w.indexOf part, false⟩ }
    else
      let next := { loop with published := loop.published + 1 }
      if 0 < loop.published then .hop call next part seq else .scope call next part seq

/-- The turn of the loop after the publication of `part` ran. -/
def afterPublication (w : Writer Write Key Seq Err) (parts : List Nat) (call : Call Seq Err)
    (loop : Loop Err) (part : Nat) (failure : Option (PublishFailure Err)) :
    Writer Write Key Seq Err :=
  match failure, call.rejected with
  | some (.adoption error), _ =>
    w.enter parts (.publish call { loop with
      failing := loop.failing ++ [⟨part, .own error, true⟩]
      stop := some ⟨error, w.indexOf part, false⟩ })
  | _, some error =>
    w.enter parts (.publish call { loop with
      failing := loop.failing ++ [⟨part, .own (.thrown error), true⟩] })
  | some (.listener error), none =>
    ((w.settle part .resolved).openGate part).enter parts
      (.publish call { loop with stop := some ⟨error, w.indexOf part, false⟩ })
  | none, none =>
    let outcome :=
      match w.failure with
      | some failed => .sessionFailed failed.error
      | none => .resolved
    ((w.settle part outcome).openGate part).enter parts (.publish call loop)

/-- `own` of the call to `fail`: the jobs that keep an error of their own. -/
def ownJobs (w : Writer Write Key Seq Err) (failing : List (Failing Err)) : List Nat :=
  failing.filterMap fun entry =>
    match entry.outcome with
    | .own _ => some (w.indexOf entry.part)
    | .failed => none

/-- The call to `fail` after the loop. -/
def failCall (w : Writer Write Key Seq Err) (call : Call Seq Err) (loop : Loop Err) :
    Writer Write Key Seq Err :=
  match call.rejected, loop.stop with
  | some error, _ =>
    w.fail { error := .thrown error, at? := (w.ownJobs loop.failing).head?, own := w.ownJobs loop.failing }
  | none, some stop =>
    w.fail { error := stop.error, at? := some stop.at?, own := w.ownJobs loop.failing }
  | none, none => w

def settleFailing (w : Writer Write Key Seq Err) (stop : Option (Stop Err)) (entry : Failing Err) :
    Writer Write Key Seq Err :=
  let outcome :=
    match entry.outcome with
    | .own error => .rejected error
    | .failed => w.failedWith ((stop.map Stop.error).getD .notAdopted)
  if entry.published then (w.settle entry.part outcome).openGate entry.part
  else w.unpublish entry.part outcome

/-- What the writer does by itself, up to the next wait or host call. -/
def advance (w : Writer Write Key Seq Err) (parts : List Nat) :
    Phase Seq Err → Option (Writer Write Key Seq Err)
  | .send =>
    match w.failure with
    | some failed => some (w.enter parts (.refuse parts failed.error))
    | none =>
      if w.storedParts parts = [] then some (w.enter parts (.settled {}))
      else some (w.enter parts (.commit []))
  | .commit _ => none
  | .settled call =>
    match w.failure with
    | some failed => some (w.enter parts (.refuse parts failed.error))
    | none => some (w.enter parts (.publish call { rest := parts }))
  | .refuse [] _ => some w.endFlush
  | .refuse (part :: rest) error =>
    some ((w.unpublish part (.sessionFailed error)).enter parts (.refuse rest error))
  | .publish call loop =>
    match loop.rest with
    | part :: rest => some (w.enter parts (w.publishHead call loop part rest))
    | [] =>
      if call.rejected.isSome ∨ loop.stop.isSome then some (w.enter parts (.failing call loop))
      else some (w.enter parts (.settling loop.stop loop.failing))
  | .hop call loop part seq => some (w.enter parts (.scope call loop part seq))
  | .scope call loop part seq =>
    match w.failure with
    | some failed =>
      some (w.enter parts (.publish call { loop with
        stop := some ⟨failed.error, w.indexOf part, true⟩
        failing := loop.failing ++ [⟨part, .failed, false⟩] }))
    | none =>
      some ({ w.unregister part with
        history.published := w.history.published ++ [(part, seq)] }.enter parts
          (.running call loop part))
  | .running _ _ _ => none
  | .ran call loop part failure => some (w.afterPublication parts call loop part failure)
  | .failing call loop => some ((w.failCall call loop).enter parts (.settling loop.stop loop.failing))
  | .settling _ [] => some (w.enter parts .last)
  | .settling stop (entry :: rest) => some ((w.settleFailing stop entry).enter parts (.settling stop rest))
  | .last =>
    match w.failure with
    | some failed => some ({ w with queue := [] }.enter parts (.refuse w.queue failed.error))
    | none => some w.endFlush

/-- One turn of the loop of `#abandon`. -/
def abandonPart (error : Fault Err) (w : Writer Write Key Seq Err) (part : Nat) :
    Writer Write Key Seq Err :=
  let settled :=
    if part ∈ w.history.settled.map Prod.fst then w else w.unpublish part (w.failedWith error)
  (settled.unregister part).openGate part

def abandon (w : Writer Write Key Seq Err) (parts : List Nat) (error : Fault Err) :
    Writer Write Key Seq Err :=
  parts.foldl (abandonPart error) (w.fail { error, at? := parts.head?.map w.indexOf, own := [] })

/-- One step; `none` when the action cannot happen now. -/
def step (w : Writer Write Key Seq Err) : Action Write Key Seq Err → Option (Writer Write Key Seq Err)
  | .admitted spec => some (w.admitPart spec)
  | .failed error => some (w.fail { error := .thrown error, at? := none, own := [] })
  | .advance =>
    match w.flight with
    | some { parts, phase } => w.advance parts phase
    | none => none
  | .receive seq =>
    match w.flight with
    | some { parts, phase := .commit seqs } =>
      match (w.storedParts parts)[seqs.length]? with
      | some part =>
        some ({ w with history.receipts := w.history.receipts ++ [(part, seq)] }.enter parts
          (.commit (seqs ++ [seq])))
      | none => none
    | _ => none
  | .settle (.resolved result) =>
    match w.flight with
    | some { parts, phase := .commit seqs } =>
      some (w.enter parts (.settled { seqs, result := some result }))
    | _ => none
  | .settle (.rejected error) =>
    match w.flight with
    | some { parts, phase := .commit seqs } =>
      some (w.enter parts (.settled { seqs, rejected := some error }))
    | _ => none
  | .ran (.returned failure) =>
    match w.flight with
    | some { parts, phase := .running call loop part } =>
      some (w.enter parts (.ran call loop part failure))
    | _ => none
  | .ran (.threw error) =>
    match w.flight with
    | some { parts, phase := .running call loop part } =>
      some (w.enter parts (.ran call loop part (some (.adoption (.thrown error)))))
    | _ => none
  | .throws error =>
    match w.flight with
    | some { parts, phase := _ } => some (w.abandon parts (.thrown error)).endFlush
    | none => none

end Writer

end OctoberHarness.Session
