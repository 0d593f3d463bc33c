import OctoberHarness.ChordStore.StoreRuns

/-! Transactions of an object's documents: drafts, retirements, table writes and
staged changes, prepared together, taken through a step of the store where there
are writes for it, and adopted in one batch. -/
namespace OctoberHarness.Documents

open ChordStore (Ending Op Store StagedWrite StepBody Thrown Transacts Written)

/-- `Tracker`: a document's value in memory. -/
structure Tracker (V : Type) where
  value : V
  revision : Nat
deriving DecidableEq, Repr

/-- Where a change of a tracker stands. -/
inductive DraftStatus where
  | opened
  | prepared
  | aborted
  | consumed
deriving DecidableEq, Repr

/-- A draft: the tracker it was begun on (`fresh`: one of its own, of a document
that is absent or retired), and what preparing its edits gives: a throw, no op,
or a value. -/
structure Draft (V : Type) where
  tracker : Tracker V
  fresh : Bool
  status : DraftStatus
  edits : Except Thrown (Option V)

def Draft.abort {V : Type} (draft : Draft V) : Draft V :=
  match draft.status with
  | .opened | .prepared => { draft with status := .aborted }
  | _ => draft

/-- A document of an object: its slot, and its key there. -/
structure Address (S : Type) where
  slot : S
  key : String
deriving DecidableEq, Repr

/-- What a transaction does with one document; `found`: it is stored, and
retired without being loaded. -/
structure Entry (S V : Type) where
  address : Address S
  draft : Option (Draft V)
  retire : Bool
  found : Bool

/-- One document change that a commit adopts. -/
structure Adoption (S V : Type) where
  address : Address S
  prepared : Option V
  retires : Bool

/-- What an adoption does, in the order it does it. -/
inductive Change (S V O : Type) where
  | retired (address : Address S)
  | adopted (address : Address S) (value : V)
  | staged (owner : O)
deriving DecidableEq, Repr

inductive TransactionState where
  | opened
  | committing
  | stepping
  | committed
  | discarded
  | cut
deriving DecidableEq, Repr

/-- `Transaction`: `staged` are the owners of Chord's own staged changes, and
`writes` the store's, once there is one. -/
structure Transaction (S V O R T D : Type) where
  entries : List (Entry S V)
  staged : List O
  writes : Option (List (StagedWrite R T D))
  pending : Nat
  state : TransactionState

/-- How a transaction rejects: with what its callback threw; or its commit, with
`released`, the caller's abort, operations pending, a store that failed or
stopped, or what preparing or the store's step threw. -/
inductive Rejection where
  | callback (thrown : Thrown)
  | released
  | aborted
  | pending
  | storageFailed
  | thrown (thrown : Thrown)
deriving DecidableEq, Repr

/-- The commit in the store: not there; in its queue; in its backend transaction;
with that transaction ended; or settled. -/
inductive Turn (S V R T D : Type) where
  | absent
  | queued (adoptions : List (Adoption S V))
  | running (adoptions : List (Adoption S V))
  | returned (adoptions : List (Adoption S V)) (ending : Ending (Written R T D))
  | settled (result : Except Rejection Unit)

/-- `Documents.tx` around the transaction: in its callback; waiting for the
store's step; told how the step ended; or over. -/
inductive Caller where
  | running
  | awaiting
  | resolved (result : Except Rejection Unit)
  | finished (result : Except Rejection Unit)

/-- How a host's documents are stored: which are, and the writes that storing a
change of one takes (`PersistedSlot.stage`), which may throw. -/
structure Slots (S V R T D : Type) where
  persisted : Address S → Bool
  stage : Address S → Option V → Bool → Except Thrown (List (StagedWrite R T D))

/-- An object's documents with one transaction on the line, and the store.
`published` are the batches of its adoptions, `told` what its staged changes
were told. `adoptions`, `admitted`, `stepped` and `fenced` record what was
prepared, whether the store admitted the commit, whether the store's step
committed its writes, and whether the transaction was cut, or its token sealed,
before its admission, while its commit had not settled. -/
structure World (S V O R T D : Type) where
  docs : Address S → Option (Tracker V)
  published : List (List (Change S V O))
  isSealed : Bool
  holder : Bool
  line : Bool
  aborted : Bool
  tx : Transaction S V O R T D
  caller : Caller
  turn : Turn S V R T D
  store : Store R T D
  told : List (O × Bool)
  adoptions : List (Adoption S V)
  admitted : Bool
  stepped : Bool
  fenced : Bool

variable {S V O R T D : Type}

/-- `COMMIT` returned. -/
def isCommitted : Ending (Written R T D) → Bool
  | .committed _ => true
  | _ => false

def abortDrafts (entries : List (Entry S V)) : List (Entry S V) :=
  entries.map fun entry => { entry with draft := entry.draft.map Draft.abort }

/-- A draft prepared: one without ops is aborted. -/
def prepareDraft : Option (Draft V) → Option (Draft V) × Except Thrown (Option V)
  | none => (none, .ok none)
  | some draft =>
    match draft.edits with
    | .error thrown => (some { draft with status := .aborted }, .error thrown)
    | .ok none => (some { draft with status := .aborted }, .ok none)
    | .ok (some value) => (some { draft with status := .prepared }, .ok (some value))

/-- What preparing entries gives: what a commit adopts, and its store writes. -/
abbrev Preparation (S V R T D : Type) :=
  Except Thrown (List (Adoption S V) × Option (List (StagedWrite R T D)))

/-- One turn of the loop of `Transaction.commit`, once the draft is prepared. -/
def stageEntry (slots : Slots S V R T D) (docs : Address S → Option (Tracker V))
    (writes : Option (List (StagedWrite R T D))) (entry : Entry S V) (prepared : Option V) :
    Preparation S V R T D :=
  let retires := entry.retire && ((docs entry.address).isSome || entry.found)
  if prepared.isNone && !retires then .ok ([], writes)
  else if slots.persisted entry.address then
    match slots.stage entry.address prepared retires with
    | .error thrown => .error thrown
    | .ok more => .ok ([⟨entry.address, prepared, retires⟩], some (writes.getD [] ++ more))
  else .ok ([⟨entry.address, prepared, retires⟩], writes)

/-- The loop of `Transaction.commit` over its entries; what it throws leaves the
entries as far as it came. -/
def prepareAll (slots : Slots S V R T D) (docs : Address S → Option (Tracker V)) :
    Option (List (StagedWrite R T D)) → List (Entry S V) → List (Entry S V) × Preparation S V R T D
  | writes, [] => ([], .ok ([], writes))
  | writes, entry :: rest =>
    match prepareDraft entry.draft with
    | (draft, .error thrown) => ({ entry with draft } :: rest, .error thrown)
    | (draft, .ok prepared) =>
      match stageEntry slots docs writes entry prepared with
      | .error thrown => ({ entry with draft } :: rest, .error thrown)
      | .ok (adoption, staged) =>
        match prepareAll slots docs staged rest with
        | (entries, .error thrown) => ({ entry with draft } :: entries, .error thrown)
        | (entries, .ok (adoptions, last)) =>
          ({ entry with draft } :: entries, .ok (adoption ++ adoptions, last))

def Adoption.changes (adoption : Adoption S V) : List (Change S V O) :=
  (if adoption.retires then [.retired adoption.address] else []) ++
    (adoption.prepared.map fun value => .adopted adoption.address value).toList

/-- The batches that adopting publishes: one, or none when nothing changed. -/
def batches (adoptions : List (Adoption S V)) (staged : List O) : List (List (Change S V O)) :=
  if adoptions.isEmpty && staged.isEmpty then []
  else [adoptions.flatMap Adoption.changes ++ staged.map .staged]

variable [DecidableEq S]

/-- `Map.get` over a transaction's entries. -/
def entryAt (entries : List (Entry S V)) (address : Address S) : Option (Entry S V) :=
  entries.find? fun entry => entry.address = address

/-- `Tracker.adopt` with the checks of a prepared change: `none` when it throws. -/
def adoptDraft (docs : Address S → Option (Tracker V)) (address : Address S) (draft : Draft V) (value : V) :
    Option (Address S → Option (Tracker V)) :=
  if draft.status = .prepared ∧
      (draft.fresh = true ∨ (docs address).map Tracker.revision = some draft.tracker.revision) then
    some (Function.update docs address (some ⟨value, draft.tracker.revision + 1⟩))
  else none

/-- The body of `Transaction.#adopt` for one document. -/
def adoptOne (entries : List (Entry S V)) (docs : Address S → Option (Tracker V)) (adoption : Adoption S V) :
    Option (Address S → Option (Tracker V)) :=
  match adoption.prepared with
  | none => some (if adoption.retires then Function.update docs adoption.address none else docs)
  | some value =>
    ((entryAt entries adoption.address).bind Entry.draft).bind fun draft =>
      adoptDraft docs adoption.address draft value

/-- The documents after `Transaction.#adopt`: `none` when one throws. -/
def adoptAll (entries : List (Entry S V)) (docs : Address S → Option (Tracker V))
    (adoptions : List (Adoption S V)) : Option (Address S → Option (Tracker V)) :=
  adoptions.foldlM (adoptOne entries) docs

/-- The drafts after their adoption. -/
def consume (entries : List (Entry S V)) : List (Entry S V) :=
  entries.map fun entry => { entry with
    draft := entry.draft.map fun draft =>
      if draft.status = .prepared then { draft with status := .consumed } else draft }

namespace World

/-- `Transaction.#adopt`, a throw leaving everything as it was. -/
def adopt (w : World S V O R T D) (adoptions : List (Adoption S V)) : World S V O R T D × Bool :=
  match adoptAll w.tx.entries w.docs adoptions with
  | none => (w, false)
  | some docs =>
    ({ w with
      docs, published := w.published ++ batches adoptions w.tx.staged
      tx := { w.tx with entries := consume w.tx.entries } }, true)

/-- The commit has not settled for its caller. -/
def unsettled (w : World S V O R T D) : Bool :=
  match w.caller with
  | .running | .awaiting => true
  | _ => false

def cut (w : World S V O R T D) : World S V O R T D :=
  match w.tx.state with
  | .opened | .committing =>
    { w with
      tx := { w.tx with state := .cut, entries := abortDrafts w.tx.entries }
      line := false, fenced := w.fenced || w.unsettled }
  | _ => w

/-- `Documents.fence` of the transaction's token, and `Documents.seal`: the token
is sealed, and the transaction cut while it holds the line. -/
def fence (w : World S V O R T D) : World S V O R T D :=
  if w.holder then cut { w with isSealed := true, holder := false } else { w with isSealed := true }

def discard (w : World S V O R T D) : World S V O R T D :=
  match w.tx.state with
  | .cut => w
  | _ => { w with tx := { w.tx with state := .discarded, entries := abortDrafts w.tx.entries } }

def settle (w : World S V O R T D) : World S V O R T D :=
  { w with told := w.told ++ w.tx.staged.map fun owner => (owner, decide (w.tx.state = .committed)) }

/-- The `finally` of `Documents.tx`. -/
def release (w : World S V O R T D) : World S V O R T D :=
  { w with holder := false, line := false }

/-- The end of `Documents.tx`: a rejection discards the transaction. -/
def finish (w : World S V O R T D) : Except Rejection Unit → World S V O R T D
  | .ok done => { settle (release w) with caller := .finished (.ok done) }
  | .error rejection => { settle (release (discard w)) with caller := .finished (.error rejection) }

/-- A commit that needs no store: adopted at once. A listener called in the batch
may seal the token (`seals`), which comes after the adoption. -/
def commitInMemory (w : World S V O R T D) (adoptions : List (Adoption S V)) (seals : Bool) :
    World S V O R T D :=
  match adopt w adoptions with
  | (_, false) => finish w (.error (.thrown (.error "Prepared change is stale")))
  | (after, true) =>
    finish { after with
      tx := { after.tx with state := .committed }, isSealed := after.isSealed || seals
      adoptions } (.ok ())

/-- `Transaction.#step` up to its wait: `ChordStore.commit` takes the writes into
the store's queue, or rejects at once. -/
def commitToStore (w : World S V O R T D) (adoptions : List (Adoption S V))
    (writes : List (StagedWrite R T D)) : World S V O R T D :=
  { w with
    tx := { w.tx with writes := some writes }, adoptions, caller := .awaiting
    turn := if w.store.state = .opened then .queued adoptions else .settled (.error .storageFailed) }

/-- `Transaction.#assertOpen`, of a transaction that is not open. -/
def notOpen (w : World S V O R T D) : Rejection :=
  match w.tx.state with
  | .cut => .released
  | _ => .thrown (.error "the transaction has settled")

/-- `Transaction.commit`, called when the callback returned. -/
def commit (slots : Slots S V R T D) (w : World S V O R T D) (seals : Bool) : World S V O R T D :=
  if w.tx.state ≠ .opened then finish w (.error (notOpen w))
  else if 0 < w.tx.pending then finish w (.error .pending)
  else if w.aborted then finish w (.error .aborted)
  else
    match prepareAll slots w.docs w.tx.writes w.tx.entries with
    | (entries, .error thrown) =>
      finish { w with tx := { w.tx with entries, state := .committing } } (.error (.thrown thrown))
    | (entries, .ok (adoptions, none)) =>
      commitInMemory { w with tx := { w.tx with entries, state := .committing } } adoptions seals
    | (entries, .ok (adoptions, some writes)) =>
      commitToStore { w with tx := { w.tx with entries, state := .committing } } adoptions writes

/-- What the fence of `Transaction.#step` answers at the step's entry. -/
def admits (w : World S V O R T D) : Bool :=
  decide (w.tx.state = .committing) && !w.isSealed

/-- The fence's effect once it admitted the commit. -/
def admitting (w : World S V O R T D) : World S V O R T D :=
  { w with tx := { w.tx with state := .stepping }, admitted := true }

/-- The entry of `ChordStore.#step`: the commit's turn came. -/
def enter (w : World S V O R T D) (adoptions : List (Adoption S V)) : World S V O R T D :=
  if w.store.state ≠ .opened then { w with turn := .settled (.error .storageFailed) }
  else if !w.admits then { w with turn := .settled (.error .released) }
  else if (w.tx.writes.getD []).isEmpty then
    match adopt (admitting w) adoptions with
    | (after, true) => { after with turn := .settled (.ok ()), stepped := true }
    | (after, false) =>
      { after with store := after.store.fail, turn := .settled (.error .storageFailed) }
  else if Storage.MAX_SAFE_INTEGER < w.store.lastSeq + 1 then
    { admitting w with store := w.store.fail, turn := .settled (.error .storageFailed) }
  else { admitting w with turn := .running adoptions }

/-- The store goes on from the step's backend transaction. -/
def resume (w : World S V O R T D) (adoptions : List (Adoption S V)) :
    Ending (Written R T D) → World S V O R T D
  | .committed written =>
    match adopt { w with store := w.store.afterStep written } adoptions with
    | (after, true) => { after with turn := .settled (.ok ()) }
    | (after, false) =>
      { after with store := after.store.fail, turn := .settled (.error .storageFailed) }
  | .refused thrown => { w with turn := .settled (.error (.thrown thrown)) }
  | .unknown _ => { w with store := w.store.fail, turn := .settled (.error .storageFailed) }

/-- `Transaction.#step` after its wait: the store's promise settled with
`result`, or a cut rejected the wait. -/
def awaken (w : World S V O R T D) (result : Except Rejection Unit) : World S V O R T D :=
  match result with
  | .ok done => { w with tx := { w.tx with state := .committed }, caller := .resolved (.ok done) }
  | .error rejection =>
    { w with caller := .resolved (.error (if w.tx.state = .cut then .released else rejection)) }

/-- A new entry, behind those of its slot. -/
def insertEntry (entry : Entry S V) : List (Entry S V) → List (Entry S V)
  | [] => [entry]
  | other :: rest =>
    if other.address.slot = entry.address.slot ∧
        rest.all (fun later => later.address.slot ≠ entry.address.slot) then
      other :: entry :: rest
    else other :: insertEntry entry rest

def setEntry (w : World S V O R T D) (entry : Entry S V) : World S V O R T D :=
  { w with tx := { w.tx with
    entries :=
      if (entryAt w.tx.entries entry.address).isSome then
        w.tx.entries.map fun other => if other.address = entry.address then entry else other
      else insertEntry entry w.tx.entries } }

def entry (w : World S V O R T D) (address : Address S) : Entry S V :=
  (entryAt w.tx.entries address).getD ⟨address, none, false, false⟩

/-- `Transaction.#begin`, with what preparing the draft's edits gives from now on. -/
def draft (w : World S V O R T D) (initial : Address S → V) (address : Address S) (edits : Except Thrown (Option V)) :
    World S V O R T D :=
  let entry := w.entry address
  match entry.draft, if entry.retire then none else w.docs address with
  | some begun, _ => setEntry w { entry with draft := some { begun with edits } }
  | none, some tracker => setEntry w { entry with draft := some ⟨tracker, false, .opened, edits⟩ }
  | none, none => setEntry w { entry with draft := some ⟨⟨initial address, 0⟩, true, .opened, edits⟩ }

/-- `Transaction.retireSlot`; `found` for a document that is stored and not in
memory. -/
def retire (w : World S V O R T D) (address : Address S) (found : Bool) : World S V O R T D :=
  setEntry w { w.entry address with draft := none, retire := true, found }

variable [DecidableEq O]

def stage (w : World S V O R T D) (owner : O) : World S V O R T D :=
  if owner ∈ w.tx.staged then w else { w with tx := { w.tx with staged := w.tx.staged ++ [owner] } }

/-- `Transaction.stageStore`, joined by `more`. -/
def stageStore (w : World S V O R T D) (more : List (StagedWrite R T D)) : World S V O R T D :=
  { w with tx := { w.tx with writes := some (w.tx.writes.getD [] ++ more) } }

end World

/-- What may happen to a transaction: what its callback does while it is open,
how the callback ends, its commit's turn in the store, and at any time a seal,
the caller's abort, and whatever else the store does. Documents change around it
only while it does not hold the line. -/
inductive Acts [DecidableEq O] (slots : Slots S V R T D) (initial : Address S → V) :
    World S V O R T D → World S V O R T D → Prop where
  | draft {w : World S V O R T D} (hCaller : w.caller = .running) (hOpen : w.tx.state = .opened)
      (address : Address S) (edits : Except Thrown (Option V)) :
      Acts slots initial w (w.draft initial address edits)
  | retire {w : World S V O R T D} (hCaller : w.caller = .running) (hOpen : w.tx.state = .opened)
      (address : Address S) (found : Bool) : Acts slots initial w (w.retire address found)
  | stage {w : World S V O R T D} (hCaller : w.caller = .running) (hOpen : w.tx.state = .opened)
      (owner : O) : Acts slots initial w (w.stage owner)
  | write {w : World S V O R T D} (hCaller : w.caller = .running) (hOpen : w.tx.state = .opened)
      (more : List (StagedWrite R T D)) : Acts slots initial w (w.stageStore more)
  | pend {w : World S V O R T D} (hCaller : w.caller = .running) (pending : Nat) :
      Acts slots initial w { w with tx := { w.tx with pending } }
  | throws {w : World S V O R T D} (hCaller : w.caller = .running) (thrown : Thrown) :
      Acts slots initial w (w.finish (.error (.callback thrown)))
  | returns {w : World S V O R T D} (hCaller : w.caller = .running) (seals : Bool) :
      Acts slots initial w (w.commit slots seals)
  | enter {w : World S V O R T D} {adoptions : List (Adoption S V)} (hTurn : w.turn = .queued adoptions) :
      Acts slots initial w (w.enter adoptions)
  | run {w : World S V O R T D} {adoptions : List (Adoption S V)} {ending : Ending (Written R T D)}
      {db : ChordStore.Database R T D} {ids : ChordStore.Ids} (hTurn : w.turn = .running adoptions)
      (transacts : Transacts true w.store.db (StepBody w.store (w.tx.writes.getD [])) w.store.ids ending db ids) :
      Acts slots initial w { w with
        turn := .returned adoptions ending, store := { w.store with db, ids }
        stepped := isCommitted ending }
  | resume {w : World S V O R T D} {adoptions : List (Adoption S V)} {ending : Ending (Written R T D)}
      (hTurn : w.turn = .returned adoptions ending) : Acts slots initial w (w.resume adoptions ending)
  | awaken {w : World S V O R T D} {result : Except Rejection Unit} (hCaller : w.caller = .awaiting)
      (hTurn : w.turn = .settled result) : Acts slots initial w (w.awaken result)
  -- `cut` rejected `#queued`
  | awakenCut {w : World S V O R T D} (hCaller : w.caller = .awaiting) (hCut : w.tx.state = .cut) :
      Acts slots initial w (w.awaken (.error .released))
  | finish {w : World S V O R T D} {result : Except Rejection Unit} (hCaller : w.caller = .resolved result) :
      Acts slots initial w (w.finish result)
  | fence {w : World S V O R T D} : Acts slots initial w w.fence
  | abort {w : World S V O R T D} : Acts slots initial w { w with aborted := true }
  | storeChanges {w : World S V O R T D} (store : Store R T D) : Acts slots initial w { w with store }
  | documentsChange {w : World S V O R T D} (hLine : w.line = false) (docs : Address S → Option (Tracker V)) :
      Acts slots initial w { w with docs }

/-- A transaction that took the line of an object with the documents `docs`. -/
def World.begun (docs : Address S → Option (Tracker V)) (store : Store R T D) : World S V O R T D where
  docs := docs
  published := []
  isSealed := false
  holder := true
  line := true
  aborted := false
  tx := { entries := [], staged := [], writes := none, pending := 0, state := .opened }
  caller := .running
  turn := .absent
  store := store
  told := []
  adoptions := []
  admitted := false
  stepped := false
  fenced := false

/-- The worlds a transaction may reach. -/
inductive Reachable [DecidableEq O] (slots : Slots S V R T D) (initial : Address S → V) :
    World S V O R T D → Prop where
  | begun (docs : Address S → Option (Tracker V)) (store : Store R T D) : Reachable slots initial (.begun docs store)
  | step {w next : World S V O R T D} (earlier : Reachable slots initial w)
      (acts : Acts slots initial w next) : Reachable slots initial next

end OctoberHarness.Documents
