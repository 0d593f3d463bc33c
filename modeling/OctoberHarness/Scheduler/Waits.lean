import OctoberHarness.Scheduler.Ownership
import OctoberHarness.Scheduler.WaitGraph

/-! How the scheduler checks a wait before it stores it. -/
namespace OctoberHarness.Scheduler

open OrderedMap

inductive WaitError where
  | unknown (id : Nat)
  | notOwned (task id : Nat)
  | cycle (task : Nat) (path : List Nat)
  | abortWaits (task : Nat)
  | abortSleeps (task : Nat)
  | sleepTime (task : Nat) (wakeAt : Int)
deriving DecidableEq, Repr

/-- A search along the wait-for graph: from where each task was reached, the
tasks whose owned work is reached, and the tasks still to look at. -/
structure Search where
  reached : List (Nat × Option Nat) := []
  walked : List Nat := []
  pending : List Nat := []
deriving DecidableEq, Repr

namespace Search

def reach (search : Search) (via : Option Nat) (id : Nat) : Search :=
  if (search.reached.lookup id).isSome then search
  else { search with reached := search.reached ++ [(id, via)], pending := id :: search.pending }

def reachAll (search : Search) (via : Option Nat) (ids : List Nat) : Search :=
  ids.foldl (fun search id => search.reach via id) search

/-- The steps that led to a task. -/
def path (reached : List (Nat × Option Nat)) : Nat → Option Nat → List Nat
  | 0, _ => []
  | _, none => []
  | fuel + 1, some id => path reached fuel (reached.lookup id).join ++ [id]

end Search

inductive WaitCheck where
  | missing (ids : List Nat)
  | refused (error : WaitError)
  | stored
deriving DecidableEq, Repr

namespace Memory

variable (m : Memory) (overlay : Overlay)

/-- What a task waits on, and its owned work, unless that is reached already. -/
def searchStep (search : Search) (id : Nat) : Search :=
  match (m.record overlay id).filter fun record => !record.isTerminal with
  | none => search
  | some record =>
    if id ∈ search.walked then search.reachAll (some id) (Store.waitsOf record)
    else
      { (search.reachAll (some id) (Store.waitsOf record)).reachAll (some id) (m.ownedLive overlay id (search.walked ++ [id]))
          with walked := search.walked ++ [id] ++ m.ownedLive overlay id (search.walked ++ [id]) }

def searchLoop (task : Nat) : Nat → Search → Option (List Nat)
  | 0, _ => none
  | fuel + 1, search =>
    match search.pending with
    | [] => none
    | id :: rest =>
      if id = task then some (Search.path search.reached search.reached.length (some id))
      else searchLoop task fuel (m.searchStep overlay { search with pending := rest } id)

/-- The tasks a search can come to. -/
def searchNodes (on : List Nat) : List Nat :=
  on ++ (overlay.tasks ++ m.live).flatMap fun entry => entry.1 :: Store.waitsOf entry.2

/-- The path from a member of `on` back to `task` in the wait-for graph. -/
def waitCycle (task : Nat) (on : List Nat) : Option (List Nat) :=
  m.searchLoop overlay task ((m.searchNodes overlay on).length + 1) (Search.reachAll {} none on)

/-- A task in `on`: its candidate, its live record, or what Storage was found to have. -/
def waitMember (ended : List (Nat × Option TaskRecord)) (id : Nat) : Option (Option TaskRecord) :=
  ((m.record overlay id).map some).or (ended.lookup id)

/-- The members of `on` one by one: the targets of new edges, and what is missing. -/
def checkMembers (ended : List (Nat × Option TaskRecord)) (current : Nat) (policy : JoinPolicy) :
    List Nat → List Nat → List Nat → Except WaitError (List Nat × List Nat)
  | [], targets, missing => .ok (targets, missing)
  | id :: rest, targets, missing =>
    match m.waitMember overlay ended id with
    | none => checkMembers ended current policy rest targets (missing ++ [id])
    | some none => .error (.unknown id)
    | some (some member) =>
      if policy = .failFast ∧ member.owner ≠ some current then .error (.notOwned current id)
      else if member.isTerminal = false ∧ member.owner ≠ some current then
        checkMembers ended current policy rest (targets ++ [id]) missing
      else checkMembers ended current policy rest targets missing

def checkWait (current : Nat) (on : List Nat) (policy : JoinPolicy) (ended : List (Nat × Option TaskRecord)) : WaitCheck :=
  match m.checkMembers overlay ended current policy on [] [] with
  | .error error => .refused error
  | .ok (targets, missing) =>
    if missing ≠ [] then .missing missing
    else if targets = [] then .stored
    else
      match m.waitCycle overlay current targets with
      | none => .stored
      | some cycle => .refused (.cycle current cycle)

/-- The loop of `#validateWait`: missing tasks are read from Storage. -/
def validateLoop (storage : Nat → Option TaskRecord) (current : Nat) (on : List Nat) (policy : JoinPolicy) :
    Nat → List (Nat × Option TaskRecord) → Option WaitError
  | 0, _ => none
  | fuel + 1, ended =>
    match m.checkWait overlay current on policy ended with
    | .stored => none
    | .refused error => some error
    | .missing ids =>
      validateLoop storage current on policy fuel (ids.foldl (fun ended id => set ended id (storage id)) ended)

/-- Why a wait is refused, if it is. Nothing is missing in the second round. -/
def waitRefused (storage : Nat → Option TaskRecord) (current : Nat) (on : List Nat) (policy : JoinPolicy) :
    Option WaitError := m.validateLoop overlay storage current on policy 2 []

end Memory
end OctoberHarness.Scheduler
