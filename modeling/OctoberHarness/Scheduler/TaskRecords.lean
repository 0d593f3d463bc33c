import OctoberHarness.Json.Value

/-! The task records the scheduler decides over, and what their changes mean for
cancellation. -/
namespace OctoberHarness.Scheduler

mutual

/-- Structural equality of two JSON values; object key order is ignored. -/
def jsonEqual : JsonValue → JsonValue → Bool
  | .null, .null => true
  | .bool first, .bool second => first == second
  | .num first, .num second => first == second
  | .str first, .str second => first == second
  | .arr first, .arr second => jsonEqualItems first second
  | .obj first, .obj second => decide (first.length = second.length) && jsonEqualFields first second
  | _, _ => false

def jsonEqualItems : List JsonValue → List JsonValue → Bool
  | [], [] => true
  | first :: rest, second :: others => jsonEqual first second && jsonEqualItems rest others
  | _, _ => false

def jsonEqualFields : List (JsString × JsonValue) → List (JsString × JsonValue) → Bool
  | [], _ => true
  | (key, value) :: rest, others =>
    (match others.lookup key with
      | none => false
      | some other => jsonEqual value other) && jsonEqualFields rest others

end

inductive OutcomeStatus where
  | completed | failed | aborted | orphaned | faulted
deriving DecidableEq, Repr

/-- `TaskOutcome`: its status, and the rest of it. -/
structure TaskOutcome where
  status : OutcomeStatus
  body : JsonValue := .null
deriving DecidableEq, Repr

inductive JoinPolicy where
  | allSettled | failFast
deriving DecidableEq, Repr

inductive TaskState where
  | pending (checkpoint : JsonValue)
  | running (checkpoint : JsonValue)
  | waiting (checkpoint : JsonValue) (on : List Nat) (policy : JoinPolicy)
  | sleeping (checkpoint : JsonValue) (wakeAt : Int)
  | completing (outcome : TaskOutcome)
  | terminal (outcome : TaskOutcome)
deriving DecidableEq, Repr

inductive AbortReason where
  | restart
deriving DecidableEq, Repr

/-- The immutable ownership fields of a task. -/
structure TaskNode where
  conversationId : Nat
  owner : Option Nat := none
  background : Bool := false
deriving DecidableEq, Repr

structure TaskRecord extends TaskNode where
  id : Nat
  abortRequested : Bool := false
  abortReason : Option AbortReason := none
  restarts : Option Nat := none
  state : TaskState
deriving DecidableEq, Repr

/-- A node of the ownership tree, which is also where a walk up goes on. -/
inductive Node where
  | task (id : Nat)
  | conversation (id : Nat)
deriving DecidableEq, Repr

/-- The node a task hangs from: its owner task, or its conversation. -/
def parentNode (node : TaskNode) : Node :=
  match node.owner with
  | some owner => .task owner
  | none => .conversation node.conversationId

def parentOf (node : TaskNode) : Node := parentNode node

def nodeOf (record : TaskRecord) : TaskNode := record.toTaskNode

namespace TaskRecord

def isTerminal (record : TaskRecord) : Bool :=
  match record.state with
  | .terminal _ => true
  | _ => false

def isCompleting (record : TaskRecord) : Bool :=
  match record.state with
  | .completing _ => true
  | _ => false

/-- The state of a live record is replaced; the restart count goes once an
outcome is decided. -/
def withState (record : TaskRecord) (state : TaskState) : TaskRecord :=
  match state with
  | .terminal _ | .completing _ => { record with restarts := none, state }
  | _ => { record with state }

def withAbortMark (record : TaskRecord) (reason : Option AbortReason) : TaskRecord :=
  { record with abortRequested := true, abortReason := reason, restarts := none }

/-- The record holds or ends with an outcome other than `completed`. -/
def failedOutcome (record : TaskRecord) : Bool :=
  match record.state with
  | .completing outcome | .terminal outcome => outcome.status ≠ .completed
  | _ => false

/-- A live owner's abort mark, or its held outcome other than `completed`. -/
def cancellationIntent (record : TaskRecord) : Bool :=
  !record.isTerminal && (record.abortRequested || record.failedOutcome)

/-- An abort was asked for, by more than a restart. -/
def Requested (record : TaskRecord) : Prop := record.abortRequested = true ∧ record.abortReason = none

/-- Abandoned after a restart, and nothing else. -/
def restartOnly (record : TaskRecord) : Bool :=
  decide (record.abortReason = some .restart) && !record.failedOutcome

instance (record : TaskRecord) : Decidable record.Requested :=
  inferInstanceAs (Decidable (_ ∧ _))

@[simp] theorem state_withState (record : TaskRecord) (state : TaskState) : (record.withState state).state = state := by
  cases state <;> rfl

end TaskRecord
end OctoberHarness.Scheduler
