import OctoberHarness.Library.Lru
import OctoberHarness.Library.Transition
import OctoberHarness.Storage.EntryScans

/-! The newest entry and the newest head marker of each recently used conversation, kept
current from the commits of the session that owns the storage. -/
namespace OctoberHarness.Tails

open Storage (EntryRecord ConversationRecord Write Memory)

/-- `ConversationTails`. In both maps `none` stands for `null`. -/
structure ConversationTails where
  latest : Lru Nat (Option Nat) := { capacity := 4096 }
  markers : Lru Nat (Option EntryRecord) := { capacity := 256 }

namespace ConversationTails

/-- What `latest` answers without a read. -/
def latestKnown (tails : ConversationTails) (conversationId : Nat) : Option (Option Nat) :=
  tails.latest.held conversationId

/-- What `marker` answers without a read. -/
def markerKnown (tails : ConversationTails) (conversationId : Nat) (atOrBefore : Option Nat) : Option (Option EntryRecord) :=
  match tails.markers.held conversationId with
  | some none => some none
  | some (some marker) => if atOrBefore.all fun bound => marker.id ≤ bound then some (some marker) else none
  | none => none

def applyWrite (tails : ConversationTails) : Write → ConversationTails
  | .conversation value =>
    if value.parent.isSome then tails
    else { latest := tails.latest.set value.id none, markers := tails.markers.set value.id none }
  | .entry value =>
    { latest := tails.latest.set value.conversationId (some value.id)
      markers := if value.head.isSome then tails.markers.set value.conversationId (some value) else tails.markers }
  | _ => tails

/-- `apply`, at a publication. -/
def apply (tails : ConversationTails) (writes : List Write) : ConversationTails :=
  writes.foldl applyWrite tails

end ConversationTails

/-- What a read asks for. -/
inductive Query where
  | latest
  | marker (atOrBefore : Option Nat)

/-- A call of `latest` or `marker` that reads. -/
structure Load where
  conversationId : Nat
  query : Query
  /-- The entry of `#latest` when `marker` began to read. -/
  latest : Option (Option Nat)
  /-- What was read. -/
  found : Option (Option EntryRecord)

structure State where
  storage : Memory
  /-- No id from here on is stored. -/
  bound : Nat
  /-- The batches that are stored and not published yet. -/
  unpublished : List (List Write)
  tails : ConversationTails
  loads : List Load

inductive Event where
  /-- A batch is stored; the ids minted for it are below `bound`. -/
  | commit (writes : List Write) (bound : Nat)
  | publish
  | load (conversationId : Nat) (query : Query)
  | read (index : Nat)
  | keep (index : Nat)
  /-- Another session opens the storage. -/
  | reopen

/-- Whether a batch creates a conversation or appends to it. -/
def touches (writes : List Write) (conversationId : Nat) : Bool :=
  writes.any fun
    | .conversation value => value.id = conversationId
    | .entry value => value.conversationId = conversationId
    | _ => false

/-- What a transaction makes sure of for a write, behind those before it: an entry has an
id above all before, and its conversation exists; a fork is of a stored conversation, at a
stored entry. -/
def mintsWrite (storage : Memory) (bound next : Nat) (before : List Write) : Write → Bool
  | .entry value =>
    bound ≤ value.id && value.id < next &&
      (before.all fun
        | .entry earlier => earlier.id < value.id
        | _ => true) &&
      ((storage.conversations.lookup value.conversationId).isSome ||
        before.any fun
          | .conversation created => created.id = value.conversationId
          | _ => false)
  | .conversation value =>
    (before.all fun
      | .entry earlier => earlier.conversationId ≠ value.id
      | _ => true) &&
      value.parent.all fun parent =>
        (storage.conversations.lookup parent.conversationId).isSome && parent.atEntry < bound
  | _ => true

def mints (storage : Memory) (bound next : Nat) : (before : List Write) → List Write → Bool
  | _, [] => true
  | before, write :: rest => mintsWrite storage bound next before write && mints storage bound next (before ++ [write]) rest

namespace State

/-- The session line: no call reads the conversations of a batch while it is made. -/
def commit (s : State) (writes : List Write) (bound : Nat) : Option State :=
  if s.bound ≤ bound && mints s.storage s.bound bound [] writes &&
      s.loads.all fun load => !touches writes load.conversationId then
    match s.storage.commitBatch writes with
    | .ok storage => some { s with storage, bound, unpublished := s.unpublished ++ [writes] }
    | .error _ => none
  else none

def publish (s : State) : Option State :=
  match s.unpublished with
  | writes :: rest => some { s with unpublished := rest, tails := s.tails.apply writes }
  | [] => none

/-- A call that memory does not answer begins to read. It has waited for the batches of
its conversation. -/
def load (s : State) (conversationId : Nat) (query : Query) : Option State :=
  if s.unpublished.any fun writes => touches writes conversationId then none
  else
    match query with
    | .latest =>
      match s.tails.latestKnown conversationId with
      | some _ => some { s with tails := { s.tails with latest := s.tails.latest.touch conversationId } }
      | none => some { s with loads := s.loads ++ [⟨conversationId, query, none, none⟩] }
    | .marker atOrBefore =>
      let tails := { s.tails with markers := s.tails.markers.touch conversationId }
      match tails.markerKnown conversationId atOrBefore with
      | some _ => some { s with tails }
      | none =>
        some { s with tails, loads := s.loads ++ [⟨conversationId, query, tails.latestKnown conversationId, none⟩] }

/-- `read`; a storage that throws ends the call. -/
def read (s : State) (index : Nat) : Option State :=
  match s.loads[index]? with
  | some load =>
    match load.query with
    | .latest =>
      match s.storage.scanEntries { conversationId := load.conversationId } 1 none with
      | .ok page => some { s with loads := s.loads.set index { load with found := some page.items.head? } }
      | .error _ => some { s with loads := s.loads.eraseIdx index }
    | .marker atOrBefore =>
      match s.storage.findLatestHeadMarker load.conversationId atOrBefore with
      | .ok found => some { s with loads := s.loads.set index { load with found := some found } }
      | .error _ => some { s with loads := s.loads.eraseIdx index }
  | none => none

/-- What a call keeps of what it read. -/
def keptTails (tails : ConversationTails) (load : Load) (found : Option EntryRecord) : ConversationTails :=
  match load.query with
  | .latest => { tails with latest := tails.latest.set load.conversationId (found.map EntryRecord.id) }
  | .marker none => { tails with markers := tails.markers.set load.conversationId found }
  | .marker (some atOrBefore) =>
    if load.latest.any fun latest => latest.getD 0 ≤ atOrBefore then
      { tails with markers := tails.markers.set load.conversationId found }
    else tails

def keep (s : State) (index : Nat) : Option State :=
  match s.loads[index]? with
  | some load =>
    match load.found with
    | some found => some { s with loads := s.loads.eraseIdx index, tails := keptTails s.tails load found }
    | none => none
  | none => none

def step (s : State) : Event → Option State
  | .commit writes bound => s.commit writes bound
  | .publish => s.publish
  | .load conversationId query => s.load conversationId query
  | .read index => s.read index
  | .keep index => s.keep index
  | .reopen => some { s with unpublished := [], tails := {}, loads := [] }

def run (s : State) (events : List Event) : Option State :=
  Transition.run step s events

end State

/-- A session over an empty storage. -/
def opened : State :=
  { storage := {}, bound := 0, unpublished := [], tails := {}, loads := [] }

end OctoberHarness.Tails
