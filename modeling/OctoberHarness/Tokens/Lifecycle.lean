import OctoberHarness.Json.Value
import OctoberHarness.Library.Transition

/-! The inference tokens of one credential file: what is saved, what is journaled for
revocation, and what the operations on the file do to both. -/
namespace OctoberHarness.Tokens

abbrev Token := JsString

inductive Credential where
  | apiKey (key : Option JsString)
  | oauth (access : JsString)

def inferenceToken (credential : Option Credential) : Option Token :=
  match credential with
  | some (.apiKey key) => key.filter (js "oct_inf_").isPrefixOf
  | some (.oauth access) => some access |>.filter (js "oct_inf_").isPrefixOf
  | none => none

/-- What `recoverUntrackedToken` reports. -/
inductive Recovery where
  | revoked
  | filed
  | unretained
  /-- It was not called. -/
  | notRevoked
deriving DecidableEq

/-- What an operation returns or throws. -/
inductive Result where
  | ok
  /-- `logoutOctoberWithStore` found nothing to log out of. -/
  | nothingStored
  /-- `acquire` failed, or the caller aborted before it. -/
  | aborted
  | cleanupFailed
  | notSaved (recovery : Recovery)
  | persistenceFailed (uncertain : Bool)
  /-- Saved, with `credentialSaved` on the error. -/
  | cleanupIncomplete
  | logoutFailed
deriving DecidableEq

namespace Result

def succeeded (result : Result) : Bool :=
  result = ok || result = nothingStored

end Result

/-- What a call of `retryOctoberTokenCleanup` is for. -/
inductive Goal where
  | finish
  /-- The start of `loginOctoberWithStore`. -/
  | acquire
  /-- The end of `saveOctoberCredential`. -/
  | saved (committed : Bool)

inductive Phase where
  /-- `retryOctoberTokenCleanup` waits for the lock. -/
  | cleaning (goal : Goal)
  /-- In the loop of `cleanLocked`, the one of a logout without a goal. -/
  | revoking (active : Option Token) (todo : List Token) (goal : Option Goal)
  | acquiring
  /-- `saveOctoberCredential` waits for the lock. -/
  | saving
  | journaling (previous : Option Token)
  | committing
  /-- `recoverUntrackedToken`, before the revocation. -/
  | recovering
  /-- `recoverUntrackedToken`, before the recovery file. -/
  | filing
  /-- `logoutOctoberWithStore` waits for the lock. -/
  | removing
  | noting (active : Option Token)
  | deleting
  | leaving (result : Result)
  | ended (result : Result)
  /-- Its process stopped, and whether it had a token in its hands. -/
  | stopped (holding : Bool)

namespace Goal

/-- Behind a cleanup that went through. -/
def next : Goal → Phase
  | .finish => .leaving .ok
  | .acquire => .acquiring
  | .saved committed => .leaving (if committed then .ok else .persistenceFailed false)

/-- Behind a cleanup that threw. -/
def failure : Goal → Result
  | .finish | .acquire => .cleanupFailed
  | .saved committed => if committed then .cleanupIncomplete else .persistenceFailed true

end Goal

namespace Phase

/-- `cleanLocked` came to its end. -/
def cleaned (goal : Option Goal) : Phase :=
  goal.elim .deleting Goal.next

/-- `cleanLocked` threw. -/
def uncleaned (goal : Option Goal) : Phase :=
  .leaving (goal.elim .logoutFailed Goal.failure)

def cleanLocked (active : Option Token) (pending : List Token) (goal : Option Goal) : Phase :=
  if pending = [] then cleaned goal else .revoking active pending goal

/-- In a credential transaction. -/
def locked : Phase → Bool
  | .revoking .. | .journaling _ | .committing | .noting _ | .deleting => true
  | _ => false

/-- An issued token is nowhere but in memory. -/
def holds : Phase → Bool
  | .saving | .journaling _ | .recovering | .filing => true
  | .leaving result => result = .notSaved .unretained
  | _ => false

def finished : Phase → Bool
  | .ended _ | .stopped _ => true
  | _ => false

end Phase

inductive Request where
  | save (credential : Credential) (newlyIssued : Bool)
  | login (newlyIssued : Bool)
  | logout
  | retry

namespace Request

/-- `options.newlyIssued !== false`. -/
def newlyIssued : Request → Bool
  | .save _ newlyIssued | .login newlyIssued => newlyIssued
  | .logout | .retry => true

def isLogout : Request → Bool
  | .logout => true
  | _ => false

end Request

structure Op where
  request : Request
  /-- What it was given to save, or has acquired. -/
  credential : Option Credential
  phase : Phase
  /-- The tokens its steps have revoked. -/
  revoked : List Token

namespace Op

/-- A call is made. -/
def of (request : Request) : Op :=
  match request with
  | .save credential _ => ⟨request, some credential, .saving, []⟩
  | .login _ => ⟨request, none, .cleaning .acquire, []⟩
  | .logout => ⟨request, none, .removing, []⟩
  | .retry => ⟨request, none, .cleaning .finish, []⟩

def token (op : Op) : Option Token :=
  inferenceToken op.credential

def issued (op : Op) : Option Token :=
  if op.request.newlyIssued then op.token else none

def goTo (op : Op) (phase : Phase) : Op :=
  { op with phase }

/-- One more token it has revoked. -/
def mark (op : Op) (token : Token) : Op :=
  { op with revoked := token :: op.revoked }

/-- The `catch` of a save that has no journal entry. -/
def unjournaled (op : Op) (alreadyActive : Bool) : Phase :=
  if op.issued.isSome && !alreadyActive then .recovering else .leaving (.notSaved .notRevoked)

end Op

/-- The credential file, the files beside it, and what the service has revoked. -/
structure Store where
  stored : Option Credential
  /-- The credential file parses. -/
  readable : Bool
  journal : List Token
  /-- The tokens in recovery files. -/
  recovery : List Token
  revoked : List Token
  /-- The operation whose transaction runs. -/
  lock : Option Nat

namespace Store

def token (store : Store) : Option Token :=
  inferenceToken store.stored

/-- A transaction can begin. -/
def free (store : Store) : Bool :=
  store.lock = none && store.readable

/-- `revokeOctoberInferenceToken` reached the service. -/
def revoke (store : Store) (token : Token) : Store :=
  { store with revoked := token :: store.revoked }

def writeJournal (store : Store) (tokens : List Token) : Store :=
  { store with journal := tokens.eraseDups }

end Store

/-- How a call to the file system or to the service goes. -/
inductive Outcome where
  | ok
  | failed
  /-- It has taken effect, and is reported as a failure. -/
  | late
  /-- A write left the credential file empty. -/
  | emptied
  /-- A write left the beginning of a text in the credential file. -/
  | torn

namespace Store

/-- `writeFileSync` on the credential file. -/
def write (store : Store) (credential : Option Credential) : Outcome → Store
  | .ok | .late => { store with stored := credential }
  | .failed => store
  | .emptied => { store with stored := none }
  | .torn => { store with stored := none, readable := false }

end Store

namespace Outcome

def isOk : Outcome → Bool
  | .ok => true
  | _ => false

end Outcome

namespace Op

/-- `retryOctoberTokenCleanup` gets the lock and reads the journal, or throws. -/
def clean (op : Op) (store : Store) (goal : Goal) : Outcome → Option (Store × Op)
  | .ok =>
    if store.free then some (store, op.goTo (.cleanLocked store.token store.journal (some goal))) else none
  | .failed => some (store, op.goTo (.leaving goal.failure))
  | _ => none

/-- A turn of the loop of `cleanLocked`, and the journal behind it. -/
def revokeNext (op : Op) (store : Store) (active : Option Token) (todo : List Token) (goal : Option Goal)
    (outcome : Outcome) : Option (Store × Op) :=
  match todo with
  | [] =>
    match outcome with
    | .ok => some (store.writeJournal [], op.goTo (.cleaned goal))
    | .late => some (store.writeJournal [], op.goTo (.uncleaned goal))
    | .failed => some (store, op.goTo (.uncleaned goal))
    | _ => none
  | token :: rest =>
    if some token = active then some (store, op.goTo (.revoking active rest goal))
    else
      match outcome with
      | .ok => some (store.revoke token, (op.mark token).goTo (.revoking active rest goal))
      | .late => some (store.revoke token, (op.mark token).goTo (.uncleaned goal))
      | .failed => some (store, op.goTo (.uncleaned goal))
      | _ => none

/-- `saveOctoberCredential` gets the lock, or does not. -/
def save (op : Op) (store : Store) : Outcome → Option (Store × Op)
  | .ok => if store.free then some (store, op.goTo (.journaling store.token)) else none
  | .failed => some (store, op.goTo (op.unjournaled false))
  | _ => none

/-- The journal of a save, which has the token it replaces too. -/
def journalSave (op : Op) (store : Store) (previous : Option Token) : Outcome → Option (Store × Op)
  | .ok => some (store.writeJournal (store.journal ++ previous.toList ++ op.issued.toList), op.goTo .committing)
  | .late =>
    some (store.writeJournal (store.journal ++ previous.toList ++ op.issued.toList),
      op.goTo (op.unjournaled (op.issued.isSome && previous = op.issued)))
  | .failed => some (store, op.goTo (op.unjournaled (op.issued.isSome && previous = op.issued)))
  | _ => none

/-- The write of a save, behind the last look at its signal. -/
def commit (op : Op) (store : Store) (outcome : Outcome) : Option (Store × Op) :=
  some (store.write op.credential outcome, op.goTo (.cleaning (.saved outcome.isOk)))

/-- The two attempts of `recoverUntrackedToken`. -/
def recover (op : Op) (store : Store) (outcome : Outcome) : Option (Store × Op) :=
  match op.issued, outcome with
  | some token, .ok => some (store.revoke token, (op.mark token).goTo (.leaving (.notSaved .revoked)))
  | some token, .late => some (store.revoke token, (op.mark token).goTo .filing)
  | some _, .failed => some (store, op.goTo .filing)
  | _, _ => none

def writeRecoveryFile (op : Op) (store : Store) (outcome : Outcome) : Option (Store × Op) :=
  match op.issued, outcome with
  | some token, .ok =>
    some ({ store with recovery := token :: store.recovery }, op.goTo (.leaving (.notSaved .filed)))
  | some _, .failed => some (store, op.goTo (.leaving (.notSaved .unretained)))
  | _, _ => none

/-- `logoutOctoberWithStore` gets the lock, or does not. -/
def remove (op : Op) (store : Store) : Outcome → Option (Store × Op)
  | .ok =>
    if store.free then
      if store.stored.isNone && store.journal.isEmpty then some (store, op.goTo (.leaving .nothingStored))
      else some (store, op.goTo (.noting store.token))
    else none
  | .failed => some (store, op.goTo (.leaving .logoutFailed))
  | _ => none

/-- The journal of a logout, which has the stored token too. -/
def journalLogout (op : Op) (store : Store) (active : Option Token) : Outcome → Option (Store × Op)
  | .ok =>
    some (store.writeJournal (store.journal ++ active.toList),
      op.goTo (.cleanLocked none (store.journal ++ active.toList).eraseDups none))
  | .late => some (store.writeJournal (store.journal ++ active.toList), op.goTo (.leaving .logoutFailed))
  | .failed => some (store, op.goTo (.leaving .logoutFailed))
  | _ => none

/-- The write of a logout, behind the last look at its signal. -/
def delete (op : Op) (store : Store) (outcome : Outcome) : Option (Store × Op) :=
  some (store.write none outcome, op.goTo (.leaving (if outcome.isOk then .ok else .logoutFailed)))

/-- One step of an operation, by its phase. -/
def advance (op : Op) (store : Store) (outcome : Outcome) : Option (Store × Op) :=
  match op.phase with
  | .cleaning goal => op.clean store goal outcome
  | .revoking active todo goal => op.revokeNext store active todo goal outcome
  | .acquiring => if outcome.isOk then none else some (store, op.goTo (.leaving .aborted))
  | .saving => op.save store outcome
  | .journaling previous => op.journalSave store previous outcome
  | .committing => op.commit store outcome
  | .recovering => op.recover store outcome
  | .filing => op.writeRecoveryFile store outcome
  | .removing => op.remove store outcome
  | .noting active => op.journalLogout store active outcome
  | .deleting => op.delete store outcome
  | .leaving result => some (store, op.goTo (.ended result))
  | .ended _ | .stopped _ => none

/-- `acquire` has returned. -/
def acquired (op : Op) (credential : Credential) : Option Op :=
  match op.phase with
  | .acquiring => some { op with credential := some credential, phase := .saving }
  | _ => none

end Op

structure State where
  store : Store
  /-- The calls in the order they were made. -/
  ops : List Op

inductive Event where
  | begin (request : Request)
  | acquired (index : Nat) (credential : Credential)
  | advance (index : Nat) (outcome : Outcome)
  /-- The process of a call stops. -/
  | stop (index : Nat)

namespace State

/-- An operation and the store behind its step; the lock follows its transaction. -/
def put (s : State) (index : Nat) (store : Store) (op : Op) : State :=
  { store :=
      { store with
        lock := if op.phase.locked then some index else if store.lock = some index then none else store.lock }
    ops := s.ops.set index op }

def advance (s : State) (index : Nat) (outcome : Outcome) : Option State :=
  match s.ops[index]? with
  | some op => (op.advance s.store outcome).map fun made => s.put index made.1 made.2
  | none => none

def acquired (s : State) (index : Nat) (credential : Credential) : Option State :=
  match s.ops[index]? with
  | some op => (op.acquired credential).map fun next => s.put index s.store next
  | none => none

def stop (s : State) (index : Nat) : Option State :=
  match s.ops[index]? with
  | some op =>
    if op.phase.finished then none else some (s.put index s.store (op.goTo (.stopped op.phase.holds)))
  | none => none

def step (s : State) : Event → Option State
  | .begin request => some { s with ops := s.ops ++ [Op.of request] }
  | .acquired index credential => s.acquired index credential
  | .advance index outcome => s.advance index outcome
  | .stop index => s.stop index

def run (s : State) (events : List Event) : Option State :=
  Transition.run step s events

end State

end OctoberHarness.Tokens
