import OctoberHarness.ChordStore.Serial

/-! Runs of a chord store: commits, series and batches called in any order wait
in one queue; each has its turn, in which its backend transaction ends before
the store takes it to memory; reads, claims, minted and raised ids come in
between, and a crash or a close may end with a reopening. -/
namespace OctoberHarness.ChordStore

open Storage (MAX_SAFE_INTEGER)

variable {R T D C α β : Type}

/-- An operation of the commit queue. -/
inductive Op (R T D C : Type) where
  | commit (writes : List (StagedWrite R T D))
  | series (commits : List (SeriesCommit R T D C))
  | replay (commits : List (OutboxCommit D))

namespace Op

/-- The explicit ids of an operation, above which staging raised the allocator. -/
def explicit : Op R T D C → List Nat
  | commit writes => explicitIds writes
  | series commits => commits.flatMap SeriesCommit.explicit
  | replay _ => []

def isReplay : Op R T D C → Bool
  | replay _ => true
  | _ => false

/-- `checkCommit` of a batch: its next ids are safe integers. -/
def isChecked : Op R T D C → Bool
  | replay commits => commits.all fun commit => commit.nextId ≤ MAX_SAFE_INTEGER
  | _ => true

end Op

/-- What a transaction left for memory to take. -/
inductive Done (R T D : Type) where
  | step (written : Written R T D)
  | series (progress : Progress R T D) (refusal : Option Thrown)
  | replay (state : Replaying R T D)

/-- How an operation settles. -/
inductive Outcome where
  | committed (seq : Nat)
  | stored (commits : List Stored) (refusal : Option Thrown)
  | replayed
  | rejected
deriving DecidableEq, Repr

def Ending.map (f : α → β) : Ending α → Ending β
  | committed value => .committed (f value)
  | refused thrown => .refused thrown
  | unknown fault => .unknown fault

/-- The backend transaction of an operation. -/
inductive Op.Transacts (applyTable : D → TableProg R T Unit) (store : Store R T D) :
    Op R T D C → Ending (Done R T D) → Database R T D → Ids → Prop where
  | commit {writes : List (StagedWrite R T D)} {ending : Ending (Written R T D)} {db : Database R T D} {ids : Ids}
      (h : ChordStore.Transacts true store.db (StepBody store writes) store.ids ending db ids) :
      Op.Transacts applyTable store (.commit writes) (ending.map .step) db ids
  | series {commits : List (SeriesCommit R T D C)} {ending : Ending (Progress R T D × Option Thrown)}
      {db : Database R T D} {ids : Ids}
      (h : ChordStore.Transacts true store.db (SeriesBody store commits) store.ids ending db ids) :
      Op.Transacts applyTable store (.series commits) (ending.map fun done => .series done.1 done.2) db ids
  | replay {commits : List (OutboxCommit D)} {ending : Ending (Replaying R T D)} {db : Database R T D} {ids : Ids}
      (h : ChordStore.Transacts false store.db (ReplayBody applyTable store commits) store.ids ending db ids) :
      Op.Transacts applyTable store (.replay commits) (ending.map .replay) db ids

/-- How an operation's turn starts: it settles at once, or it opens its
transaction. -/
inductive Entry (R T D : Type) where
  | settled (store : Store R T D) (outcome : Outcome)
  | transaction

/-- The start of a turn: `admits` is the fence's answer, `accepts` says that its
`adopt` does not throw. -/
def Store.enter (store : Store R T D) (holders : Nat) (admits accepts : Bool) : Op R T D C → Entry R T D
  | .commit writes =>
    if store.state ≠ .opened || !admits then .settled store .rejected
    else if writes.isEmpty then
      if accepts then .settled store (.committed store.lastSeq) else .settled store.fail .rejected
    else if MAX_SAFE_INTEGER < store.lastSeq + 1 then .settled store.fail .rejected
    else .transaction
  | .series commits =>
    if store.state ≠ .opened then .settled store .rejected
    else if MAX_SAFE_INTEGER < store.lastSeq + commits.countP fun commit => !commit.writes.isEmpty then
      .settled store.fail .rejected
    else .transaction
  | .replay _ =>
    if store.state ≠ .opened || store.diverged || 0 < holders then .settled store .rejected
    else .transaction

/-- Memory after `COMMIT` returned. -/
def Store.adopt (store : Store R T D) : Done R T D → Store R T D
  | .step written => store.afterStep written
  | .series progress _ => store.afterSeries progress
  | .replay state => store.afterReplay state

/-- What an operation that memory took resolves with. -/
def Done.outcome (store : Store R T D) : Done R T D → Outcome
  | .step _ => .committed store.lastSeq
  | .series progress refusal => .stored progress.stored refusal
  | .replay _ => .replayed

/-- The store's continuation after its transaction: `accepts` says that no
receipt throws. -/
def Store.resume (store : Store R T D) (isReplay accepts : Bool) : Ending (Done R T D) → Store R T D × Outcome
  | .committed done =>
    if accepts then (store.adopt done, done.outcome (store.adopt done))
    else ((store.adopt done).fail, .rejected)
  | .refused thrown =>
    ({ store with diverged := store.diverged || isReplay && thrown.isDivergence }, .rejected)
  | .unknown _ => (store.fail, .rejected)

/-- The seqs that an operation's commits took. -/
def Op.taken (entry : Store R T D) : Op R T D C → Ending (Done R T D) → List Nat
  | .commit _, .committed _ => [entry.lastSeq + 1]
  | .series commits, .committed (.series progress _) => takenSeqs commits progress.stored
  | .replay commits, .committed _ => commits.map OutboxCommit.seq
  | _, _ => []

/-- Where the queue's turn stands: between turns; in a transaction; or with a
transaction that ended, from which the store has not gone on yet. -/
inductive Phase (R T D C : Type) where
  | idle
  | running (op : Op R T D C)
  | returned (op : Op R T D C) (entry : Store R T D) (ending : Ending (Done R T D))

/-- A batch has its turn: no claim is taken meanwhile. -/
def Phase.isLocked : Phase R T D C → Bool
  | idle => false
  | running op => op.isReplay
  | returned op _ _ => op.isReplay

/-- A transaction ended and the store has not gone on from it. -/
def Phase.isReturned : Phase R T D C → Bool
  | returned _ _ _ => true
  | _ => false

/-- A store with its queue, the number of claims held, the reads underway, and
the seqs stored since it was opened at one. -/
structure System (R T D C : Type) where
  store : Store R T D
  queue : List (Op R T D C)
  phase : Phase R T D C
  holders : Nat
  reads : Nat
  since : Nat
  seqs : List Nat

/-- A store opened over a database. -/
def System.opened (db : Database R T D) : System R T D C where
  store := openStore db
  queue := []
  phase := .idle
  holders := 0
  reads := 0
  since := db.row.lastSeq
  seqs := []

/-- What happens to a store. -/
inductive Event where
  | called
  | started
  | ran
  | settled (outcome : Outcome)
  | readStarted
  | readSettled
  | minted
  | raised
  | claimed
  | released
  | closed
  | reopened
deriving DecidableEq, Repr

/-- An operation settles: one of the queue, or a read. -/
def Event.isSettlement : Event → Bool
  | settled _ | readSettled => true
  | _ => false

/-- The allocator raised above explicit ids. -/
def raiseAll (ids : Ids) (explicit : List Nat) : Ids :=
  explicit.foldl (fun ids id => { ids with allocator := ids.allocator.raise id }) ids

/-- A call is accepted by an open store; a batch also needs that the store did
not diverge and that nobody holds a claim. -/
def System.accepts (s : System R T D C) (op : Op R T D C) : Bool :=
  s.store.state = .opened && op.isChecked && (!op.isReplay || !s.store.diverged && s.holders = 0)

/-- One step of a store and the code around it. -/
inductive Acts (applyTable : D → TableProg R T Unit) : System R T D C → Event → System R T D C → Prop where
  | call {s : System R T D C} {op : Op R T D C} (hAccepts : s.accepts op = true) :
      Acts applyTable s .called
        { s with queue := s.queue ++ [op], store := { s.store with ids := raiseAll s.store.ids op.explicit } }
  | callRefused {s : System R T D C} {op : Op R T D C} (hRefuses : s.accepts op = false) :
      Acts applyTable s (.settled .rejected) s
  | start {s : System R T D C} {op : Op R T D C} {rest : List (Op R T D C)} {admits accepts : Bool}
      (hIdle : s.phase = .idle) (hQueue : s.queue = op :: rest)
      (hEnter : s.store.enter s.holders admits accepts op = .transaction) :
      Acts applyTable s .started { s with queue := rest, phase := .running op }
  | startSettled {s : System R T D C} {op : Op R T D C} {rest : List (Op R T D C)} {admits accepts : Bool}
      {store : Store R T D} {outcome : Outcome} (hIdle : s.phase = .idle) (hQueue : s.queue = op :: rest)
      (hEnter : s.store.enter s.holders admits accepts op = .settled store outcome) :
      Acts applyTable s (.settled outcome) { s with store, queue := rest }
  | run {s : System R T D C} {op : Op R T D C} {ending : Ending (Done R T D)} {db : Database R T D} {ids : Ids}
      (hPhase : s.phase = .running op) (transacts : op.Transacts applyTable s.store ending db ids) :
      Acts applyTable s .ran
        { s with phase := .returned op s.store ending, store := { s.store with db, ids } }
  | resume {s : System R T D C} {op : Op R T D C} {entry : Store R T D} {ending : Ending (Done R T D)}
      {accepts : Bool} (hPhase : s.phase = .returned op entry ending) (hReplay : op.isReplay = true → accepts = true) :
      Acts applyTable s (.settled (s.store.resume op.isReplay accepts ending).2)
        { s with phase := .idle, store := (s.store.resume op.isReplay accepts ending).1,
                 seqs := s.seqs ++ op.taken entry ending }
  | readStart {s : System R T D C} (hOpen : s.store.state = .opened) :
      Acts applyTable s .readStarted { s with reads := s.reads + 1 }
  | readDone {s : System R T D C} (hRead : 0 < s.reads) :
      Acts applyTable s .readSettled { s with reads := s.reads - 1 }
  -- a backend error fails the store
  | readFailed {s : System R T D C} (hRead : 0 < s.reads) :
      Acts applyTable s .readSettled { s with reads := s.reads - 1, store := s.store.fail }
  | mint {s : System R T D C} {id : Nat} {allocator : IdAllocator} (hOpen : s.store.state = .opened)
      (hHolder : 0 < s.holders) (hMint : s.store.ids.allocator.mint = some (id, allocator)) :
      Acts applyTable s .minted
        { s with store := { s.store with ids := s.store.ids.take id allocator s.store.db.content.ids } }
  | raise {s : System R T D C} (id : Nat) :
      Acts applyTable s .raised
        { s with store := { s.store with ids :=
          { s.store.ids with allocator := s.store.ids.allocator.raise id } } }
  | claim {s : System R T D C} (hLock : s.phase.isLocked = false) :
      Acts applyTable s .claimed { s with holders := s.holders + 1 }
  | release {s : System R T D C} : Acts applyTable s .released { s with holders := s.holders - 1 }
  | close {s : System R T D C} : Acts applyTable s .closed { s with store := { s.store with state := .closed } }
  | reopen {s : System R T D C} : Acts applyTable s .reopened (.opened s.store.db)

def newDatabase (rows : R) (outbox : Bool) : Database R T D where
  row := { lastSeq := 0, nextId := 2, outbox }
  tables := []
  content := { documents := [], revisions := [], rows }
  outbox := []

/-- The states of a store, from a new one on. -/
inductive Reachable (applyTable : D → TableProg R T Unit) : System R T D C → Prop where
  | new (rows : R) (outbox : Bool) : Reachable applyTable (.opened (newDatabase rows outbox))
  | step {s next : System R T D C} {event : Event} (earlier : Reachable applyTable s)
      (acts : Acts applyTable s event next) : Reachable applyTable next

end OctoberHarness.ChordStore
