import OctoberHarness.Library.OrderedMap
import OctoberHarness.Library.Walk
import OctoberHarness.Scheduler.TaskRecords

/-! What the scheduler keeps of the ownership tree, and its walks up and down. -/
namespace OctoberHarness.Scheduler

open OrderedMap

/-- Scheduler memory: the live records, what it knows of ended tasks and
conversations, the tree downward around live work, and the sets that its passes
read. -/
structure Memory where
  live : List (Nat × TaskRecord) := []
  settled : List (Nat × TaskNode) := []
  edges : List (Nat × Option Nat) := []
  below : List (Node × List Node) := []
  intent : List Nat := []
  finalizeChecks : List Nat := []
  failFastChecks : List Nat := []
deriving DecidableEq, Repr

/-- Candidate records a commit staged; they override committed records. -/
structure Overlay where
  tasks : List (Nat × TaskRecord) := []
  edges : List (Nat × Option Nat) := []
deriving DecidableEq, Repr

abbrev Links := List (Node × List Node)

/-- A `Map` of sets, at a key. -/
def listed (links : Links) (node : Node) : List Node := (links.lookup node).getD []

/-- `addTo`: a `Set` keeps its members in the order they came. -/
def addTo (links : Links) (key value : Node) : Links :=
  if value ∈ listed links key then links else set links key (listed links key ++ [value])

namespace Memory

variable (m : Memory) (overlay : Overlay)

/-- A task's candidate, or its committed record if it is live. -/
def record (id : Nat) : Option TaskRecord := (overlay.tasks.lookup id).or (m.live.lookup id)

def node (id : Nat) : Option TaskNode :=
  ((m.record overlay id).map nodeOf).or (m.settled.lookup id)

/-- Owner task of a conversation, `none` inside when it has none. -/
def edge (id : Nat) : Option (Option Nat) := (overlay.edges.lookup id).or (m.edges.lookup id)

/-- Where a walk up for a link goes on from a node that `#below` may not list. -/
def linkAbove (parent : Node) : Option Node :=
  match parent with
  | .conversation id => (m.edge overlay id).join.map .task
  | .task id => (m.settled.lookup id).map parentNode

/-- Link a node under its parent, and so on up to a node that `#below` lists, a
live task, or the end of the chain. -/
def linkUp : Nat → Links → Node → Option Node → Links
  | 0, links, _, _ => links
  | _, links, _, none => links
  | fuel + 1, links, child, some parent =>
    if child ∈ listed links parent then links
    else if (match parent with
        | .task id => (m.live.lookup id).isSome || (overlay.tasks.lookup id).isSome
        | .conversation _ => false) then addTo links parent child
    else
      match m.linkAbove overlay parent with
      | none => addTo links parent child
      | some above =>
        if parent ∈ listed m.below above then addTo links parent child
        else linkUp fuel (addTo links parent child) parent (some above)

/-- The links walks down need for the commit's new tasks. -/
def links : Links :=
  overlay.tasks.foldl (fun links (id, record) =>
    if (m.live.lookup id).isSome || (m.settled.lookup id).isSome then links
    else m.linkUp overlay (m.settled.length + m.edges.length + overlay.edges.length + 1) links (.task id)
      (some (parentNode record.toTaskNode))) []

/-- The nodes below one, those `#below` lists first. -/
def children (parent : Node) : List Node := listed m.below parent ++ listed (m.links overlay) parent

structure Found where
  id : Nat
  node : TaskNode
  live : Option TaskRecord
deriving DecidableEq, Repr

/-- The task a walk down finds at a child. -/
def found (child : Node) : Option Found :=
  match child with
  | .conversation _ => none
  | .task id =>
    (m.node overlay id).map fun node =>
      { id, node, live := (m.record overlay id).filter fun record => !record.isTerminal }

/-- A walk down goes on below a child. -/
def enters (crossBackground : Bool) (enter : Nat → Bool) (child : Node) : Bool :=
  match child with
  | .conversation _ => true
  | .task id =>
    match m.node overlay id with
    | none => false
    | some node => (crossBackground || !node.background) && enter id

def entered (crossBackground : Bool) (enter : Nat → Bool) (parent : Node) : List Node :=
  (m.children overlay parent).filter (m.enters overlay crossBackground enter)

def listedNodes : List Node :=
  m.below.flatMap Prod.snd ++ (m.links overlay).flatMap Prod.snd

/-- The tasks below a node that a walk down reaches. Background tasks are
reached but not entered, unless `crossBackground`, and neither are the tasks
`enter` rejects. -/
def walkDown (start : Node) (crossBackground : Bool) (enter : Nat → Bool) : List Found :=
  ((Walk.visits (m.entered overlay crossBackground enter) ((m.listedNodes overlay).length + 1) [start]).getD []).flatMap
    fun parent => (m.children overlay parent).filterMap (m.found overlay)

/-- The live ordinary owned work of a task. The walk does not enter tasks in
`done`. -/
def ownedLive (owner : Nat) (done : List Nat) : List Nat :=
  (m.walkDown overlay (.task owner) false fun id => id ∉ done).filterMap fun step =>
    if step.live.isSome && !step.node.background then some step.id else none

def hasOwnedLive (owner : Nat) (done : List Nat) : Bool := m.ownedLive overlay owner done ≠ []

/-- What a node hangs from, as far as memory knows. -/
def parent (node : Node) : Option Node :=
  match node with
  | .task id => (m.node overlay id).map parentOf
  | .conversation id => (m.edge overlay id).join.map .task

inductive Step where
  | task (id : Nat) (node : TaskNode)
  | conversation (id : Nat)
  | unknown
deriving DecidableEq, Repr

/-- What a walk up reports of a node. -/
def steps (node : Node) : List Step :=
  match node with
  | .task id =>
    match m.node overlay id with
    | none => [.unknown]
    | some node => [.task id node]
  | .conversation id =>
    match m.edge overlay id with
    | none => [.conversation id, .unknown]
    | some _ => [.conversation id]

/-- What every known node hangs from. -/
def parents : List Node :=
  (overlay.tasks ++ m.live).map (fun entry => parentOf entry.2.toTaskNode) ++
    m.settled.map (fun entry => parentOf entry.2) ++
    (overlay.edges ++ m.edges).filterMap (fun entry => entry.2.map .task)

/-- Walk up from a node: owner tasks and conversations, ending at an ownerless
root or an edge that is not known. -/
def above (start : Node) : List Step :=
  ((Walk.visits (fun node => (m.parent overlay node).toList) ((m.parents overlay).length + 1) [start]).getD []).flatMap
    (m.steps overlay)

/-- The first owner of a walk up that has cancellation intent, before a
background one that has none. -/
def firstCancelling : List Step → Option TaskRecord
  | [] => none
  | .unknown :: _ => none
  | .conversation _ :: rest => firstCancelling rest
  | .task id node :: rest =>
    match (m.live.lookup id).filter TaskRecord.cancellationIntent with
    | some live => some live
    | none => if node.background then none else firstCancelling rest

/-- The nearest live owner above `start` whose cancellation intent reaches it. -/
def cancellingOwner (start : Node) : Option TaskRecord :=
  if m.intent = [] then none else m.firstCancelling (m.above {} start)

def belowCancelled (start : Node) : Bool := (m.cancellingOwner start).isSome

/-- The nearest live task above ended ordinary work, in the overlay's view. -/
def nearestLiveAbove : Nat → TaskNode → Option TaskRecord
  | 0, _ => none
  | fuel + 1, current =>
    if current.background then none
    else
      match current.owner.or (m.edge overlay current.conversationId).join with
      | none => none
      | some owner =>
        match (m.record overlay owner).filter fun record => !record.isTerminal with
        | some record => some record
        | none =>
          match m.node overlay owner with
          | none => none
          | some above => nearestLiveAbove fuel above

end Memory
end OctoberHarness.Scheduler
