import OctoberHarness.Json.Value
import OctoberHarness.Library.OrderedMap
import OctoberHarness.Library.Transition

/-! File mutations, queued by file: a call takes the key of its file, joins the queue of
that key, and runs once the queue before it is settled. -/
namespace OctoberHarness.Tools

/-- An absolute path, by its names from the root. -/
abbrev Path := List JsString

/-- A path as it is written, in a call or in a symbolic link. -/
structure FilePath where
  absolute : Bool
  names : List JsString

inductive Node where
  | directory
  | file

/-- Whether a name stays where it is. -/
def stays (name : JsString) : Bool :=
  name = [] || name = js "."

/-- `resolve`, without a look at the file system. -/
def resolve (cwd : Path) (filePath : FilePath) : Path :=
  filePath.names.foldl
    (fun path name => if stays name then path else if name = js ".." then path.dropLast else path ++ [name])
    (if filePath.absolute then [] else cwd)

/-- A file system: its symbolic links stay, files and directories come and go. `limit` is
how far it follows a path. -/
structure FileSystem where
  links : Path → Option FilePath
  limit : Nat

namespace FileSystem

/-- The file a path denotes, whether it exists or not. -/
def locate (fs : FileSystem) : (fuel : Nat) → Path → List JsString → Option Path
  | _, path, [] => some path
  | 0, _, _ :: _ => none
  | fuel + 1, path, name :: rest =>
    if stays name then fs.locate fuel path rest
    else if name = js ".." then fs.locate fuel path.dropLast rest
    else
      match fs.links (path ++ [name]) with
      | some target => fs.locate fuel (if target.absolute then [] else path) (target.names ++ rest)
      | none => fs.locate fuel (path ++ [name]) rest

def fileOf (fs : FileSystem) (path : Path) : Option Path :=
  fs.locate fs.limit [] path

/-- `isMissingPathError` on an error: `ENOENT` and `ENOTDIR`. -/
inductive PathError where
  | missing
  | other

/-- The walk of `realpath`. -/
def walk (fs : FileSystem) (nodes : Path → Option Node) : (fuel : Nat) → Path → List JsString → Except PathError Path
  | _, path, [] => .ok path
  | 0, _, _ :: _ => .error .other
  | fuel + 1, path, name :: rest =>
    if stays name then fs.walk nodes fuel path rest
    else if name = js ".." then fs.walk nodes fuel path.dropLast rest
    else
      match fs.links (path ++ [name]) with
      | some target => fs.walk nodes fuel (if target.absolute then [] else path) (target.names ++ rest)
      | none =>
        match nodes (path ++ [name]) with
        | none => .error .missing
        | some .file => if rest = [] then .ok (path ++ [name]) else .error .missing
        | some .directory => fs.walk nodes fuel (path ++ [name]) rest

/-- `realpath`; `denied` is any other failure of it. -/
def realpath (fs : FileSystem) (nodes : Path → Option Node) (denied : Bool) (path : Path) : Except PathError Path :=
  if denied then .error .other else fs.walk nodes fs.limit [] path

/-- Whether the file of a path exists. -/
def hasFile (fs : FileSystem) (nodes : Path → Option Node) (path : Path) : Bool :=
  (fs.realpath nodes false path).isOk

/-- `getMutationQueueKey`: the key, and whether it is that of a file that exists. -/
def getMutationQueueKey (fs : FileSystem) (nodes : Path → Option Node) (denied : Bool) (resolvedPath : Path) :
    Option (Path × Bool) :=
  match fs.realpath nodes denied resolvedPath with
  | .ok path => some (path, true)
  | .error .missing => some (resolvedPath, false)
  | .error .other => none

end FileSystem

/-- What a registration gave a call: its key, whether its file existed then, and the call
whose `chainedQueue` is its `currentQueue`. -/
structure Ticket where
  key : Path
  existed : Bool
  behind : Option Nat

inductive Phase where
  /-- Before or in `registrationQueue`. -/
  | waiting
  | keyed (key : Path) (existed : Bool)
  /-- Registered, and behind `currentQueue`. -/
  | queued (ticket : Ticket)
  | running (ticket : Ticket)
  /-- `fn` returned or threw, and the queue is released. -/
  | done (ticket : Ticket)
  /-- The registration failed. -/
  | failed

structure Call where
  path : Path
  phase : Phase

namespace Call

def registered (call : Call) : Bool :=
  match call.phase with
  | .waiting | .keyed .. => false
  | _ => true

def finished (call : Call) : Bool :=
  match call.phase with
  | .done _ => true
  | _ => false

def ticket (call : Call) : Option Ticket :=
  match call.phase with
  | .queued ticket | .running ticket | .done ticket => some ticket
  | _ => none

end Call

structure State where
  nodes : Path → Option Node
  /-- The calls in the order they were made. -/
  calls : List Call
  /-- `fileMutationQueues`: for each key the call whose `chainedQueue` it holds. -/
  fileMutationQueues : List (Path × Nat)

/-- Whether the `chainedQueue` of a call is settled: the call is done, and so is the queue
it was behind. The fuel is the number of calls. -/
def chainSettled (calls : List Call) : (fuel : Nat) → Nat → Bool
  | 0, _ => false
  | fuel + 1, index =>
    match calls[index]? with
    | some ⟨_, .done ticket⟩ => ticket.behind.all (chainSettled calls fuel)
    | _ => false

namespace State

def setPhase (s : State) (index : Nat) (call : Call) (phase : Phase) : State :=
  { s with calls := s.calls.set index { call with phase } }

/-- Whether the call before is through with its registration. -/
def atTurn (s : State) (index : Nat) : Bool :=
  index = 0 || s.calls[index - 1]?.any Call.registered

/-- A registration takes its key. -/
def lookup (fs : FileSystem) (s : State) (index : Nat) (denied : Bool) : Option State :=
  match s.calls[index]? with
  | some call =>
    match call.phase with
    | .waiting =>
      if s.atTurn index then
        match fs.getMutationQueueKey s.nodes denied call.path with
        | some (key, existed) => some (s.setPhase index call (.keyed key existed))
        | none => some (s.setPhase index call .failed)
      else none
    | _ => none
  | none => none

/-- A registration joins the queue of its key. -/
def register (s : State) (index : Nat) : Option State :=
  match s.calls[index]? with
  | some call =>
    match call.phase with
    | .keyed key existed =>
      some
        { s.setPhase index call (.queued ⟨key, existed, s.fileMutationQueues.lookup key⟩) with
          fileMutationQueues := OrderedMap.set s.fileMutationQueues key index }
    | _ => none
  | none => none

/-- `fn` is called behind `await currentQueue`. -/
def start (s : State) (index : Nat) : Option State :=
  match s.calls[index]? with
  | some call =>
    match call.phase with
    | .queued ticket =>
      if ticket.behind.all (chainSettled s.calls s.calls.length) then some (s.setPhase index call (.running ticket))
      else none
    | _ => none
  | none => none

/-- `fn` is through, in one way or the other; the `finally` of the call. -/
def finish (s : State) (index : Nat) : Option State :=
  match s.calls[index]? with
  | some call =>
    match call.phase with
    | .running ticket =>
      some
        { s.setPhase index call (.done ticket) with
          fileMutationQueues :=
            if s.fileMutationQueues.lookup ticket.key = some index then OrderedMap.erase s.fileMutationQueues ticket.key
            else s.fileMutationQueues }
    | _ => none
  | none => none

end State

inductive Action where
  /-- `withFileMutationQueue` is called. -/
  | call (filePath : FilePath)
  | lookup (index : Nat) (denied : Bool)
  | register (index : Nat)
  | start (index : Nat)
  /-- `fn` returns or throws. -/
  | finish (index : Nat) (threw : Bool)
  /-- A file or a directory is created, replaced or removed. -/
  | alter (path : Path) (node : Option Node)

def step (fs : FileSystem) (cwd : Path) (s : State) : Action → Option State
  | .call filePath => some { s with calls := s.calls ++ [⟨resolve cwd filePath, .waiting⟩] }
  | .lookup index denied => s.lookup fs index denied
  | .register index => s.register index
  | .start index => s.start index
  | .finish index _ => s.finish index
  | .alter path node => some { s with nodes := fun other => if other = path then node else s.nodes other }

/-- No call was made yet. -/
def initial (nodes : Path → Option Node) : State :=
  ⟨nodes, [], []⟩

end OctoberHarness.Tools
