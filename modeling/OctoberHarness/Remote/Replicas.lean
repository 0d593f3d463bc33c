import Mathlib.Logic.Relation
import OctoberHarness.Delta.CodecStream
import OctoberHarness.Delta.Immutable
import OctoberHarness.Delta.Pending

/-! A state member that a hold follows, the messages about it, and its replica at
the consumer. The link's window is open or full as it likes. -/
namespace OctoberHarness.Replicas

open Delta List Relation

variable {E : Type}

/-- A member on its host: its value, or its failure. -/
inductive Member (E : Type) where
  | value (value : JsonValue)
  | failed (error : E)
deriving DecidableEq

/-- What the member's source tells the hold in a batch. -/
inductive Frame (E : Type) where
  | advanced (ops : List Op) (retired : Bool)
  | failed (error : E)

/-- An entry of a `state` message. -/
structure StateEntry (E : Type) where
  members : List (List JsonValue)
  failed : Option E
  retired : Bool

inductive Message (E : Type) where
  | bound (snapshot : Member E)
  | state (entry : StateEntry E)

structure Followed where
  encoder : Encoder := {}
  pending : PendingOps := .empty
deriving DecidableEq

/-- `Hold`, which follows the member while it is bound. -/
structure Hold (E : Type) where
  followed : Option Followed := none
  changes : List (List Op) := []
  failed : Option E := none
  retired : Bool := false
  touched : Bool := false

namespace Hold

/-- `advance` of the hold's subscriber. -/
def advance (h : Hold E) (followed : Followed) : Frame E → Hold E
  | .failed error =>
    { h with touched := true, followed := some { followed with pending := .empty }, failed := some error }
  | .advanced ops retired =>
    { h with
      touched := true
      failed := none
      changes := if ops = [] then h.changes else h.changes ++ [ops]
      retired := h.retired || retired }

/-- `#entry`: a failed member's retirement waits for its next value. -/
def stateEntry (h : Hold E) (members : List (List JsonValue)) : StateEntry E × Hold E :=
  let kept := h.retired && h.failed.isSome
  (⟨members, h.failed, h.retired && !kept⟩, { h with failed := none, retired := kept })

def entry (h : Hold E) (followed : Followed) : StateEntry E × Hold E :=
  { h with
    changes := []
    touched := false
    followed := some { followed with encoder := encoderAfter followed.encoder h.changes } : Hold E }.stateEntry
    (encodeAll followed.encoder h.changes)

/-- The window is full. -/
def queue (h : Hold E) (followed : Followed) : Hold E :=
  { h with
    changes := []
    touched := false
    followed := some { followed with pending := h.changes.foldl PendingOps.push followed.pending } }

/-- What waits for the member, if its source can be read where that is needed. -/
def taken (followed : Followed) (member : Member E) : Option (List Op) :=
  match followed.pending.take, member with
  | .ops ops, _ => some ops
  | .replace, .value value => some [.r value]
  | .replace, .failed _ => none

def pendingEntry (h : Hold E) (followed : Followed) (member : Member E) : Option (StateEntry E × Hold E) :=
  (taken followed member).map fun ops =>
    let (wire, encoder) := encode followed.encoder ops
    if ops = [] then { h with followed := some { followed with pending := .empty } : Hold E }.stateEntry []
    else { h with followed := some ⟨encoder, .empty⟩ : Hold E }.stateEntry [wire]

end Hold

inductive ReplicaState (E : Type) where
  | value (value : JsonValue)
  | failed (error : E) (last : Option JsonValue)

/-- `Replica`; `ops` and `retired` are of the batch. -/
structure Replica (E : Type) where
  state : ReplicaState E
  decoder : Decoder := []
  ops : List Op := []
  retired : Bool := false
  retiredWhileFailed : Bool := false

namespace Replica

/-- What a reader gets. -/
def shown (r : Replica E) : Member E :=
  match r.state with
  | .value value => .value value
  | .failed error _ => .failed error

def adopt (r : Replica E) (value : JsonValue) (ops : List Op) (retired : Bool) : Replica E :=
  { r with state := .value value, ops, retired := retired || r.retiredWhileFailed, retiredWhileFailed := false }

def retireAlone (r : Replica E) : Replica E :=
  match r.state with
  | .value value => r.adopt value [] true
  | .failed _ _ => { r with retiredWhileFailed := true }

def fail (r : Replica E) (error : E) : Replica E :=
  match r.state with
  | .value value => { r with state := .failed error (some value) }
  | .failed _ last => { r with state := .failed error last }

def reset (r : Replica E) : Member E → Replica E
  | .value value => { r with decoder := [] }.adopt value [.r value] false
  | .failed error => { r with decoder := [] }.fail error

/-- The constructor. -/
def ofSnapshot : Member E → Replica E
  | .value value => { state := .value value }
  | .failed error => { state := .failed error none }

/-- The value that wire ops make, their ops, and the decoder after them. -/
def decode (owned : Nat → Path → Bool) (r : Replica E) (wire : List JsonValue) :
    Option (JsonValue × List Op × Decoder) :=
  (Delta.decode r.decoder wire).toOption.bind fun (ops, decoder) =>
    match r.state with
    | .value value => (applyImmutable owned value ops).toOption.map fun value => (value, ops, decoder)
    | .failed _ _ =>
      if isBase ops then (applyImmutable owned .null ops).toOption.map fun value => (value, ops, decoder) else none

/-- The rest of an adoption: a failure, then a retirement that came alone. -/
def concluded (r : Replica E) (entry : StateEntry E) : Replica E :=
  let told := match entry.failed with
    | some error => r.fail error
    | none => r
  if entry.retired && entry.members.isEmpty then told.retireAlone else told

/-- `prepare` of an entry with its adoption, none where it throws. -/
def prepare (owned : Nat → Path → Bool) (r : Replica E) (entry : StateEntry E) : Option (Replica E) :=
  match entry.members with
  | [] => some (r.concluded entry)
  | [wire] => (r.decode owned wire).map fun (value, ops, decoder) =>
      ({ r with decoder }.adopt value ops entry.retired).concluded entry
  | _ => none

end Replica

/-- A message at the consumer; the last batch was delivered. -/
def receive (owned : Nat → Path → Bool) (replica : Option (Replica E)) : Message E → Option (Replica E)
  | .bound snapshot =>
    match replica with
    | some r => some ({ r with ops := [], retired := false }.reset snapshot)
    | none => some (.ofSnapshot snapshot)
  | .state entry => replica.bind fun r => { r with ops := [], retired := false }.prepare owned entry

/-- `listed` and `waiting` say whether the hold is in the provider's `#touched` and
`#waiting`, `batched` whether the open batch brought the member's frame. Each message
on the wire stands with what the member was when it was made. -/
structure World (E : Type) where
  member : Member E
  hold : Hold E := {}
  listed : Bool := false
  waiting : Bool := false
  batched : Bool := false
  wire : List (Message E × Member E) := []
  replica : Option (Replica E) := none

/-- The frames a source sends: ops from its value, a failure, and a recovery. -/
inductive Sends : Member E → Frame E → Member E → Prop where
  | advanced {old new : JsonValue} {ops : List Op} (h : Replays old ops new) (retired : Bool) :
      Sends (.value old) (.advanced ops retired) (.value new)
  | failed (member : Member E) (error : E) : Sends member (.failed error) (.failed error)
  | recovered (error : E) (new : JsonValue) (retired : Bool) :
      Sends (.failed error) (.advanced [.r new] retired) (.value new)

/-- The steps. A batch runs to its end before the link's next message. -/
inductive Step (owned : Nat → Path → Bool) : World E → World E → Prop where
  | frame {w : World E} {followed : Followed} {frame : Frame E} {after : Member E}
      (hBound : w.hold.followed = some followed) (hBatch : w.batched = false) (hFrame : Sends w.member frame after) :
      Step owned w { w with
        member := after
        hold := w.hold.advance followed frame
        listed := w.listed || !w.hold.touched
        batched := true }
  | flushed {w : World E} {followed : Followed} (hBound : w.hold.followed = some followed)
      (hListed : w.listed = true) (hFree : w.waiting = false) :
      Step owned w { w with
        hold := (w.hold.entry followed).2
        listed := false
        batched := false
        wire := w.wire ++ [(.state (w.hold.entry followed).1, w.member)] }
  | queued {w : World E} {followed : Followed} (hBound : w.hold.followed = some followed) (hListed : w.listed = true) :
      Step owned w { w with hold := w.hold.queue followed, listed := false, waiting := true, batched := false }
  | skipped {w : World E} (hIdle : w.hold.followed = none ∨ w.listed = false) :
      Step owned w { w with listed := false, batched := false }
  | slotFreed {w : World E} {followed : Followed} {entry : StateEntry E} {hold : Hold E}
      (hBound : w.hold.followed = some followed) (hWaiting : w.waiting = true) (hBatch : w.batched = false)
      (hEntry : w.hold.pendingEntry followed w.member = some (entry, hold)) :
      Step owned w { w with hold, waiting := false, wire := w.wire ++ [(.state entry, w.member)] }
  | unbind (w : World E) : Step owned w { w with hold := {}, waiting := false }
  | rebind (w : World E) : Step owned w { w with hold := { w.hold with followed := none }, waiting := false }
  | bind {w : World E} (member : Member E) (hBound : w.hold.followed = none) :
      Step owned w { w with
        member
        hold := { w.hold with followed := some {}, changes := [], failed := none, retired := false }
        wire := w.wire ++ [(.bound member, member)] }
  | receive {w : World E} {message : Message E} {shown : Member E} {rest : List (Message E × Member E)}
      {replica : Replica E} (hWire : w.wire = (message, shown) :: rest)
      (hReceive : receive owned w.replica message = some replica) :
      Step owned w { w with wire := rest, replica := some replica }

/-! What replays from `null` begins with a replacement. -/

theorem modifyAt_null (path rest : Path) (change : JsonValue → Except DeltaError JsonValue) :
    ∃ error, modifyAt path change .null rest = .error error := by
  cases rest <;> exact ⟨_, rfl⟩

variable {op : Op} {ops : List Op} {base value old : JsonValue}

theorem bind_error_ne (valid : Except DeltaError Unit) {result : Except DeltaError JsonValue}
    (h : ∃ error, result = .error error) : (valid >>= fun _ => result) ≠ .ok value := by
  obtain ⟨error, rfl⟩ := h
  intro hOk
  cases valid <;> cases hOk

theorem keyed_null_ne (path : Path) : (assertValidOp op >>= fun _ => match path.getLast? with
    | some key => modifyAt path.dropLast (changeKey path key op) .null path.dropLast
    | none => .error (.type "path is empty")) ≠ .ok value := by
  apply bind_error_ne
  cases path.getLast? with
  | none => exact ⟨_, rfl⟩
  | some key => exact modifyAt_null _ _ _

theorem isReplace_of_null (h : applyOp .null op = .ok value) : isReplace op = true := by
  cases op with
  | r new => rfl
  | p path index remove items => exact absurd h (bind_error_ne _ (modifyAt_null _ _ _))
  | m path permutation => exact absurd h (bind_error_ne _ (modifyAt_null _ _ _))
  | s path new => exact absurd h (keyed_null_ne path)
  | d path => exact absurd h (keyed_null_ne path)
  | a path text => exact absurd h (keyed_null_ne path)
  | t path count => exact absurd h (keyed_null_ne path)

theorem isBase_of_null (h : Replays .null ops value) (hOps : ops ≠ []) : isBase ops = true := by
  cases h with
  | nil => exact absurd rfl hOps
  | cons _ hApply _ => exact isReplace_of_null hApply

theorem wellFormed_of_replays (h : Replays base ops value) : ∀ op ∈ ops, op.WellFormed := by
  induction h with
  | nil => exact fun _ hOp => absurd hOp not_mem_nil
  | @cons root next last op ops names hApply hRest ih =>
    intro other hOther
    rcases mem_cons.mp hOther with rfl | hLater
    · cases hValid : assertValidOp other with
      | ok done => exact hValid
      | error error =>
        rw [applyOp.eq_def, hValid] at hApply
        cases hApply
    · exact ih other hLater

/-! The pending ops. -/

/-- What the ops of a member's next entry are applied to. -/
def Member.start : Member E → JsonValue
  | .value value => value
  | .failed _ => .null

/-- What is pending leads a replica that shows `shown` to a value. -/
def Leads (shown : Member E) (queue : PendingOps) (value : JsonValue) : Prop :=
  queue.Holds shown.start value ∧ ∀ error, shown = .failed error → queue.take ≠ .ops []

variable {shown member : Member E} {queue : PendingOps} {changes : List (List Op)}

theorem add_ne_nil (folding : Folding) (op : Op) : (folding.add op).ops ≠ [] := by
  rw [Folding.add]
  split_ifs
  · exact cons_ne_nil _ _
  · split
    · simp
    · split
      · rename_i position merged hMerging
        rw [Folding.merging, Option.bind_eq_some_iff] at hMerging
        obtain ⟨found, -, hFound⟩ := hMerging
        obtain ⟨previous, hPrevious, -⟩ := Option.bind_eq_some_iff.mp hFound
        intro hNil
        rw [set_eq_nil_iff] at hNil
        rw [hNil] at hPrevious
        cases hPrevious
      · simp

theorem fold_ne_nil {folding after : Folding} (hFold : folding.fold ops = some after)
    (h : folding.ops ≠ [] ∨ ops ≠ []) : after.ops ≠ [] := by
  induction ops generalizing folding with
  | nil =>
    obtain rfl := Option.some.inj hFold
    exact h.resolve_right (fun hNe => hNe rfl)
  | cons op rest ih =>
    rw [Folding.fold] at hFold
    split_ifs at hFold
    exact ih hFold (.inl (add_ne_nil folding op))

theorem take_folded {pending : Option Folding} (h : ∀ after, pending = some after → after.ops ≠ []) :
    (PendingOps.folded pending).take ≠ .ops [] := by
  cases pending with
  | none => exact fun hTake => PendingTake.noConfusion hTake
  | some after => exact fun hTake => h after rfl (PendingTake.ops.inj hTake)

theorem take_push (h : queue.take ≠ .ops [] ∨ ops ≠ []) : (queue.push ops).take ≠ .ops [] := by
  rw [PendingOps.push.eq_def]
  split_ifs with hNil hBase
  · exact h.resolve_right (fun hNe => hNe hNil)
  · exact fun hTake => hNil (PendingTake.ops.inj hTake)
  · cases queue with
    | empty => exact fun hTake => hNil (PendingTake.ops.inj hTake)
    | batch earlier =>
      apply take_folded
      intro after hAfter
      obtain ⟨pending, -, hFold⟩ := Option.bind_eq_some_iff.mp hAfter
      exact fold_ne_nil hFold (.inr hNil)
    | folding pending => exact take_folded fun after hFold => fold_ne_nil hFold (.inr hNil)
    | replace => exact fun hTake => PendingTake.noConfusion hTake

theorem Leads.push (h : Leads shown queue old) (hOps : Replays old ops value) :
    Leads shown (queue.push ops) value :=
  ⟨h.1.push hOps, fun error hFailed => take_push (.inl (h.2 error hFailed))⟩

/-- A recovery replaces whatever is pending. -/
theorem leads_replacement (shown : Member E) (queue : PendingOps) (value : JsonValue) :
    Leads shown (queue.push [.r value]) value :=
  ⟨.cons trivial rfl (.nil value), fun _ _ => take_push (.inr (cons_ne_nil _ _))⟩

/-! Entries that are accepted. -/

variable {owned : Nat → Path → Bool} {encoder : Encoder} {r : Replica E} {followed : Followed} {w : World E}

theorem decode_encode {paths : Decoder} (h : Synced encoder none paths none) (hOps : ∀ op ∈ ops, op.WellFormed) :
    ∃ paths', Delta.decode paths (encode encoder ops).1 = .ok (ops, paths') ∧
      Synced (encode encoder ops).2 none paths' none := by
  have hGroup : ∀ batch ∈ [ops], ∀ op ∈ batch, op.WellFormed := by simpa using hOps
  obtain ⟨paths', hDecode, hAfter⟩ := h.group hGroup
  rw [flatten_singleton, encodeAll, encodeAll, flatten_singleton] at hDecode
  exact ⟨paths', hDecode, hAfter⟩

theorem applyImmutable_replays (owned : Nat → Path → Bool) (h : Replays base ops value) :
    (applyImmutable owned base ops).toOption = some value := by
  have hSame := applyImmutableBatches_same owned base [ops]
  rw [flatten_singleton, h.apply] at hSame
  exact hSame

namespace Replica

theorem decode_ops (hSynced : Synced encoder none r.decoder none) (hOps : ops ≠ []) (h : Replays r.shown.start ops value) :
    ∃ paths, r.decode owned (encode encoder ops).1 = some (value, ops, paths) ∧
      Synced (encode encoder ops).2 none paths none := by
  obtain ⟨paths, hDecode, hAfter⟩ := decode_encode hSynced (wellFormed_of_replays h)
  refine ⟨paths, ?_, hAfter⟩
  rw [decode, hDecode]
  cases hState : r.state with
  | value current =>
    rw [shown, hState] at h
    exact congrArg (Option.map fun value => (value, ops, paths)) (applyImmutable_replays owned h)
  | failed error last =>
    rw [shown, hState] at h
    have hNull : Replays .null ops value := h
    exact (if_pos (isBase_of_null hNull hOps)).trans
      (congrArg (Option.map fun value => (value, ops, paths)) (applyImmutable_replays owned hNull))

theorem retireAlone_keeps (r : Replica E) : r.retireAlone.shown = r.shown ∧ r.retireAlone.decoder = r.decoder := by
  cases hState : r.state <;> simp [retireAlone, adopt, shown, hState]

theorem fail_shown (r : Replica E) (error : E) : (r.fail error).shown = .failed error ∧ (r.fail error).decoder = r.decoder := by
  cases hState : r.state <;> simp [fail, shown, hState]

theorem concluded_shown (r : Replica E) (entry : StateEntry E) :
    (r.concluded entry).shown = entry.failed.elim r.shown .failed ∧ (r.concluded entry).decoder = r.decoder := by
  rw [concluded]
  cases entry.failed with
  | none =>
    split_ifs
    · exact r.retireAlone_keeps
    · exact ⟨rfl, rfl⟩
  | some error =>
    split_ifs
    · obtain ⟨hShown, hDecoder⟩ := (r.fail error).retireAlone_keeps
      exact ⟨hShown.trans (r.fail_shown error).1, hDecoder.trans (r.fail_shown error).2⟩
    · exact r.fail_shown error

end Replica

variable (owned) in
/-- An entry without ops, and one with them. -/
theorem receive_quiet (r : Replica E) (failed : Option E) (retired : Bool) :
    ∃ next, receive owned (some r) (.state ⟨[], failed, retired⟩) = some next ∧
      next.shown = failed.elim r.shown .failed ∧ next.decoder = r.decoder :=
  ⟨_, rfl, (Replica.concluded_shown _ _).1, (Replica.concluded_shown _ _).2⟩

variable (owned) in
theorem receive_ops (hSynced : Synced encoder none r.decoder none) (hOps : ops ≠ [])
    (h : Replays r.shown.start ops value) (failed : Option E) (retired : Bool) :
    ∃ next, receive owned (some r) (.state ⟨[(encode encoder ops).1], failed, retired⟩) = some next ∧
      next.shown = failed.elim (.value value) .failed ∧ Synced (encode encoder ops).2 none next.decoder none := by
  obtain ⟨paths, hDecode, hAfter⟩ := @Replica.decode_ops _ _ _ owned _ { r with ops := [], retired := false } hSynced hOps h
  refine ⟨_, congrArg (Option.map _) hDecode, (Replica.concluded_shown _ _).1, ?_⟩
  rw [(Replica.concluded_shown _ _).2]
  exact hAfter

theorem Leads.taken (h : Leads shown queue value) (hTake : queue.take = .ops ops) :
    Replays shown.start ops value ∧ (ops = [] → shown = .value value) := by
  have hReplays := h.1.take hTake
  refine ⟨hReplays, fun hNil => ?_⟩
  subst hNil
  cases shown with
  | value current =>
    cases hReplays
    rfl
  | failed error => exact absurd hTake (h.2 error rfl)

theorem take_changes (h : changes = [] ∨ ∃ ops, ops ≠ [] ∧ changes = [ops]) :
    (changes.foldl PendingOps.push .empty).take = .ops changes.flatten := by
  rcases h with rfl | ⟨ops, hNil, rfl⟩
  · rfl
  · rw [foldl_cons, foldl_nil, flatten_singleton, PendingOps.push.eq_def, if_neg hNil]
    split_ifs <;> rfl

theorem encode_changes (h : changes = [] ∨ ∃ ops, ops ≠ [] ∧ changes = [ops]) (encoder : Encoder) :
    encodeAll encoder changes = (if changes.flatten = [] then [] else [(encode encoder changes.flatten).1]) ∧
      encoderAfter encoder changes = if changes.flatten = [] then encoder else (encode encoder changes.flatten).2 := by
  rcases h with rfl | ⟨ops, hNil, rfl⟩
  · exact ⟨rfl, rfl⟩
  · rw [flatten_singleton, if_neg hNil, if_neg hNil]
    exact ⟨rfl, rfl⟩

theorem receive_bound (owned : Nat → Path → Bool) (replica : Option (Replica E)) (member : Member E) :
    ∃ next, receive owned replica (.bound member) = some next ∧ next.shown = member := by
  cases replica with
  | none => cases member <;> exact ⟨_, rfl, rfl⟩
  | some r =>
    refine ⟨_, rfl, ?_⟩
    cases member with
    | value value => rfl
    | failed error => exact (Replica.fail_shown _ error).1

/-- What a replica needs to come from `r` to the member: ops that lead to its value, or
its failure where that is not shown yet. -/
structure Due (r : Replica E) (member : Member E) (ops : List Op) (failed : Option E) : Prop where
  failing : ∀ error, failed = some error → member = .failed error ∧ ops = []
  failed : failed = none → ∀ error, member = .failed error → r.shown = .failed error ∧ ops = []
  leads : ∀ value, member = .value value → Replays r.shown.start ops value ∧ (ops = [] → r.shown = .value value)

variable (owned) in
theorem Due.received {failed : Option E} (h : Due r member ops failed)
    (hSynced : Synced encoder none r.decoder none) (retired : Bool) :
    ∃ next, receive owned (some r) (.state ⟨if ops = [] then [] else [(encode encoder ops).1], failed, retired⟩) = some next ∧
      next.shown = member ∧ Synced (if ops = [] then encoder else (encode encoder ops).2) none next.decoder none := by
  by_cases hNil : ops = []
  · rw [if_pos hNil, if_pos hNil]
    obtain ⟨next, hNext, hShown, hDecoder⟩ := receive_quiet owned r failed retired
    refine ⟨next, hNext, hShown.trans ?_, hDecoder ▸ hSynced⟩
    cases failed with
    | some error => exact (h.failing error rfl).1.symm
    | none =>
      cases member with
      | value value => exact (h.leads value rfl).2 hNil
      | failed error => exact (h.failed rfl error rfl).1
  · rw [if_neg hNil, if_neg hNil]
    cases member with
    | value value =>
      obtain ⟨next, hNext, hShown, hAfter⟩ := receive_ops owned hSynced hNil (h.leads value rfl).1 failed retired
      refine ⟨next, hNext, hShown.trans ?_, hAfter⟩
      cases failed with
      | none => rfl
      | some error => cases (h.failing error rfl).1
    | failed error =>
      cases failed with
      | none => exact absurd (h.failed rfl error rfl).2 hNil
      | some other => exact absurd (h.failing other rfl).2 hNil

/-- What waits goes out in one encode, or without ops. -/
theorem Hold.pendingEntry_cases {h hold : Hold E} {member : Member E} {entry : StateEntry E}
    (hEntry : h.pendingEntry followed member = some (entry, hold)) : ∃ ops, taken followed member = some ops ∧
      entry = ⟨if ops = [] then [] else [(encode followed.encoder ops).1], h.failed,
        h.retired && !(h.retired && h.failed.isSome)⟩ ∧
      hold = { h with
        followed := some ⟨if ops = [] then followed.encoder else (encode followed.encoder ops).2, .empty⟩
        failed := none
        retired := h.retired && h.failed.isSome } := by
  obtain ⟨ops, hTaken, hSent⟩ := Option.map_eq_some_iff.mp hEntry
  refine ⟨ops, hTaken, ?_⟩
  by_cases hNil : ops = []
  · simp only [if_pos hNil] at hSent ⊢
    cases hSent
    exact ⟨rfl, rfl⟩
  · simp only [if_neg hNil] at hSent ⊢
    cases hSent
    exact ⟨rfl, rfl⟩

/-! What is on its way, and what is still to be sent. -/

/-- The consumer accepts message after message, and shows after each what the member
was when it was made. -/
inductive Delivers (owned : Nat → Path → Bool) :
    Option (Replica E) → List (Message E × Member E) → Option (Replica E) → Prop where
  | nil (replica : Option (Replica E)) : Delivers owned replica [] replica
  | cons {replica last : Option (Replica E)} {next : Replica E} {message : Message E}
      {rest : List (Message E × Member E)} (hReceive : receive owned replica message = some next)
      (hRest : Delivers owned (some next) rest last) : Delivers owned replica ((message, next.shown) :: rest) last

theorem Delivers.snoc {replica last : Option (Replica E)} {next : Replica E} {message : Message E} {shown : Member E}
    {wire : List (Message E × Member E)} (h : Delivers owned replica wire last)
    (hReceive : receive owned last message = some next) (hShown : next.shown = shown) :
    Delivers owned replica (wire ++ [(message, shown)]) (some next) := by
  subst hShown
  induction h with
  | nil replica => exact .cons hReceive (.nil _)
  | cons hFirst _ ih => exact .cons hFirst (ih hReceive)

/-- What the hold owes a consumer whose replica will be `r`. -/
structure Owes (r : Replica E) (w : World E) (followed : Followed) : Prop where
  synced : Synced followed.encoder none r.decoder none
  short : w.hold.changes = [] ∨ ∃ ops, ops ≠ [] ∧ w.hold.changes = [ops]
  quiet : w.listed = false → w.hold.changes = []
  sent : w.waiting = false → followed.pending = .empty
  told : w.waiting = false → w.listed = false → w.hold.failed = none
  failing : ∀ error, w.hold.failed = some error →
    w.member = .failed error ∧ followed.pending = .empty ∧ w.hold.changes = []
  failed : w.hold.failed = none → ∀ error, w.member = .failed error →
    r.shown = .failed error ∧ followed.pending = .empty ∧ w.hold.changes = []
  leads : ∀ value, w.member = .value value → Leads r.shown (w.hold.changes.foldl PendingOps.push followed.pending) value

/-- A hold that is touched is in its provider's list. -/
def World.Heard (w : World E) : Prop := w.hold.touched = true → w.listed = true

/-- The invariant; a hold that is touched and not listed owes nothing. -/
structure Inv (owned : Nat → Path → Bool) (w : World E) : Prop where
  batch : w.listed = true → w.batched = true
  waits : w.waiting = true → w.hold.followed ≠ none ∧ w.Heard
  delivers : ∃ last, Delivers owned w.replica w.wire last ∧
    ∀ followed, w.hold.followed = some followed → w.Heard → ∃ r, last = some r ∧ Owes r w followed

namespace Owes

/-- Nothing is owed once the replica will show the member. -/
theorem settled (hSynced : Synced followed.encoder none r.decoder none) (hShown : r.shown = w.member)
    (hChanges : w.hold.changes = []) (hPending : followed.pending = .empty) (hFailed : w.hold.failed = none) :
    Owes r w followed where
  synced := hSynced
  short := .inl hChanges
  quiet _ := hChanges
  sent _ := hPending
  told _ _ := hFailed
  failing error h := absurd (hFailed.symm.trans h) (by simp)
  failed _ error h := ⟨hShown.trans h, hPending, hChanges⟩
  leads value h := by
    rw [hChanges, hPending, hShown, h]
    exact ⟨rfl, fun error hFailed => by cases hFailed⟩

section

variable (h : Owes r w followed)

include h

/-- One step of a frame: a failure drops what waits, a recovery replaces it. -/
theorem frame {frame : Frame E} {after : Member E} (hListed : w.listed = false)
    (hTouched : w.hold.touched = false) (hBound : w.hold.followed = some followed) (hFrame : Sends w.member frame after) :
    ∃ followed', (w.hold.advance followed frame).followed = some followed' ∧ Owes r { w with
      member := after
      hold := w.hold.advance followed frame
      listed := w.listed || !w.hold.touched
      batched := true } followed' := by
  have hChanges := h.quiet hListed
  have hQuiet : (w.listed || !w.hold.touched) = false → False := by simp [hTouched]
  generalize hMember : w.member = member at hFrame
  cases hFrame with
  | @advanced old new ops hOps retired =>
    have hLeads := h.leads old hMember
    rw [hChanges] at hLeads
    refine ⟨followed, hBound, h.synced, ?_, fun hList => (hQuiet hList).elim, h.sent,
      fun _ hList => (hQuiet hList).elim, fun error hFailed => (by cases hFailed), fun _ error hFailed => (by cases hFailed), ?_⟩
    · simp only [Hold.advance, hChanges]
      split_ifs with hNil
      · exact .inl rfl
      · exact .inr ⟨ops, hNil, rfl⟩
    · rintro value hValue
      obtain rfl := Member.value.inj hValue
      simp only [Hold.advance, hChanges]
      split_ifs with hNil
      · subst hNil
        cases hOps
        exact hLeads
      · exact hLeads.push hOps
  | failed member error =>
    refine ⟨_, rfl, h.synced, h.short, fun hList => (hQuiet hList).elim, fun _ => rfl,
      fun _ hList => (hQuiet hList).elim, ?_, fun hNone => (by cases hNone), fun value hValue => (by cases hValue)⟩
    rintro other hOther
    obtain rfl := Option.some.inj hOther
    exact ⟨rfl, rfl, hChanges⟩
  | recovered error new retired =>
    have hAfter : (w.hold.advance followed (.advanced [.r new] retired)).changes = [[.r new]] := by
      simp only [Hold.advance, hChanges, nil_append, if_neg (cons_ne_nil _ _)]
    refine ⟨followed, hBound, h.synced, .inr ⟨_, cons_ne_nil _ _, hAfter⟩, fun hList => (hQuiet hList).elim, h.sent,
      fun _ hList => (hQuiet hList).elim, fun error hFailed => (by cases hFailed), fun _ error hFailed => (by cases hFailed), ?_⟩
    rintro value hValue
    obtain rfl := Member.value.inj hValue
    rw [hAfter]
    exact leads_replacement r.shown followed.pending new

/-- The batch's own ops are due where nothing waits. -/
theorem due_changes (hFree : w.waiting = false) :
    Due r w.member w.hold.changes.flatten w.hold.failed where
  failing error hFailed := by
    obtain ⟨hMember, -, hChanges⟩ := h.failing error hFailed
    exact ⟨hMember, by rw [hChanges]; rfl⟩
  failed hNone error hMember := by
    obtain ⟨hShown, -, hChanges⟩ := h.failed hNone error hMember
    exact ⟨hShown, by rw [hChanges]; rfl⟩
  leads value hMember := by
    have hLeads := h.leads value hMember
    rw [h.sent hFree] at hLeads
    exact hLeads.taken (take_changes h.short)

/-- What waits can be taken, since a failed member has nothing waiting. -/
theorem taken_isSome : (Hold.taken followed w.member).isSome = true := by
  cases hMember : w.member with
  | value value => cases hTake : followed.pending.take <;> simp [Hold.taken, hTake]
  | failed error =>
    have hPending : followed.pending = .empty := by
      cases hFailed : w.hold.failed with
      | none => exact (h.failed hFailed error hMember).2.1
      | some other => exact (h.failing other hFailed).2.1
    simp [Hold.taken, hPending, PendingOps.take]

theorem due_taken (hListed : w.listed = false) (hTaken : Hold.taken followed w.member = some ops) :
    Due r w.member ops w.hold.failed := by
  have hEmpty : followed.pending = .empty → ops = [] := by
    intro hPending
    simpa [Hold.taken, hPending, PendingOps.take, eq_comm] using hTaken
  refine ⟨fun error hFailed => ?_, fun hNone error hMember => ?_, fun value hMember => ?_⟩
  · obtain ⟨hMember, hPending, -⟩ := h.failing error hFailed
    exact ⟨hMember, hEmpty hPending⟩
  · obtain ⟨hShown, hPending, -⟩ := h.failed hNone error hMember
    exact ⟨hShown, hEmpty hPending⟩
  · have hLeads := h.leads value hMember
    rw [h.quiet hListed] at hLeads
    cases hTake : followed.pending.take with
    | ops waiting =>
      obtain rfl : waiting = ops := by simpa [Hold.taken, hTake] using hTaken
      exact hLeads.taken hTake
    | replace =>
      obtain rfl : [.r value] = ops := by simpa [Hold.taken, hTake, hMember] using hTaken
      exact ⟨.cons trivial rfl (.nil value), fun hNil => absurd hNil (cons_ne_nil _ _)⟩

/-- A batch whose ops join what waits. -/
theorem queued : Owes r
    { w with hold := w.hold.queue followed, listed := false, waiting := true, batched := false }
    { followed with pending := w.hold.changes.foldl PendingOps.push followed.pending } where
  synced := h.synced
  short := .inl rfl
  quiet _ := rfl
  sent hFree := by cases hFree
  told hFree := by cases hFree
  failing error hFailed := by
    obtain ⟨hMember, hPending, hChanges⟩ := h.failing error hFailed
    exact ⟨hMember, by rw [hChanges]; exact hPending, rfl⟩
  failed hNone error hMember := by
    obtain ⟨hShown, hPending, hChanges⟩ := h.failed hNone error hMember
    exact ⟨hShown, by rw [hChanges]; exact hPending, rfl⟩
  leads := h.leads

/-- With nothing listed or waiting the replica shows the member. -/
theorem shows (hListed : w.listed = false) (hFree : w.waiting = false) : r.shown = w.member := by
  have hDue := h.due_changes hFree
  rw [h.quiet hListed, h.told hFree hListed] at hDue
  cases hMember : w.member with
  | value value => exact (hDue.leads value hMember).2 rfl
  | failed error => exact (hDue.failed rfl error hMember).1

end

end Owes

variable {w' : World E}

/-- One step keeps the invariant. -/
theorem Inv.step (h : Inv owned w) (hStep : Step owned w w') : Inv owned w' := by
  obtain ⟨last, hDelivers, hOwes⟩ := h.delivers
  cases hStep with
  | @frame followed frame after hBound hBatch hFrame =>
    have hListed : w.listed = false := eq_false_of_ne_true fun hList => absurd (h.batch hList) (by simp [hBatch])
    refine ⟨fun _ => rfl, fun hWaiting => ⟨?_, fun _ => ?_⟩, last, hDelivers, fun followed' hAfter hHeard => ?_⟩
    · cases frame <;> simp [Hold.advance, hBound]
    · by_contra hUnlisted
      have hTouched : w.hold.touched = true := by simpa [hListed] using hUnlisted
      simpa [hListed] using (h.waits hWaiting).2 hTouched
    · have hTouched : w.hold.touched = false := by
        have hList := hHeard (by cases frame <;> rfl)
        simpa [hListed] using hList
      obtain ⟨r, hLast, hR⟩ := hOwes followed hBound (fun hTrue => absurd hTrue (by simp [hTouched]))
      obtain ⟨_, hSome, hNext⟩ := hR.frame hListed hTouched hBound hFrame
      obtain rfl := Option.some.inj (hAfter.symm.trans hSome)
      exact ⟨r, hLast, hNext⟩
  | @flushed followed hBound hListed hFree =>
    obtain ⟨r, rfl, hR⟩ := hOwes followed hBound (fun _ => hListed)
    obtain ⟨hWire, hAfter⟩ := encode_changes hR.short followed.encoder
    obtain ⟨next, hNext, hShown, hSynced⟩ := (hR.due_changes hFree).received owned hR.synced
      (w.hold.entry followed).1.retired
    rw [← hWire] at hNext
    rw [← hAfter] at hSynced
    refine ⟨fun hList => (by cases hList), fun hWaiting => absurd hWaiting (by simp [hFree]), some next,
      hDelivers.snoc hNext hShown, fun followed' hFollowed _ => ?_⟩
    obtain rfl := Option.some.inj hFollowed
    exact ⟨next, rfl, .settled hSynced hShown rfl (hR.sent hFree) rfl⟩
  | @queued followed hBound hListed =>
    obtain ⟨r, hLast, hR⟩ := hOwes followed hBound (fun _ => hListed)
    refine ⟨fun hList => (by cases hList), fun _ => ⟨Option.some_ne_none _, fun hTouched => (by cases hTouched)⟩, last, hDelivers,
      fun followed' hFollowed _ => ?_⟩
    obtain rfl := Option.some.inj hFollowed
    exact ⟨r, hLast, hR.queued⟩
  | skipped hIdle =>
    rcases hIdle with hNone | hListed
    · exact ⟨fun hList => (by cases hList), fun hWaiting => absurd hNone (h.waits hWaiting).1, last, hDelivers,
        fun followed hBound => absurd (hNone.symm.trans hBound) (by simp)⟩
    · refine ⟨fun hList => (by cases hList), fun hWaiting => ⟨(h.waits hWaiting).1, ?_⟩, last, hDelivers,
        fun followed hBound hHeard => ?_⟩
      · exact fun hTouched => hListed ▸ (h.waits hWaiting).2 hTouched
      · obtain ⟨r, hLast, hR⟩ := hOwes followed hBound (fun hTouched => hListed.trans (hHeard hTouched))
        refine ⟨r, hLast, { hR with quiet := fun _ => hR.quiet hListed, told := fun hFree _ => hR.told hFree hListed }⟩
  | @slotFreed followed entry hold hBound hWaiting hBatch hEntry =>
    obtain ⟨r, rfl, hR⟩ := hOwes followed hBound (h.waits hWaiting).2
    have hListed : w.listed = false := eq_false_of_ne_true fun hList => absurd (h.batch hList) (by simp [hBatch])
    obtain ⟨ops, hTaken, rfl, rfl⟩ := Hold.pendingEntry_cases hEntry
    obtain ⟨next, hNext, hShown, hSynced⟩ := (hR.due_taken hListed hTaken).received owned hR.synced
      (w.hold.retired && !(w.hold.retired && w.hold.failed.isSome))
    refine ⟨h.batch, fun hWaiting => (by cases hWaiting), some next, hDelivers.snoc hNext hShown, fun followed' hFollowed _ => ?_⟩
    obtain rfl := Option.some.inj hFollowed
    exact ⟨next, rfl, .settled hSynced hShown (hR.quiet hListed) rfl rfl⟩
  | unbind => exact ⟨h.batch, fun hWaiting => (by cases hWaiting), last, hDelivers, fun followed hBound => (by cases hBound)⟩
  | rebind => exact ⟨h.batch, fun hWaiting => (by cases hWaiting), last, hDelivers, fun followed hBound => (by cases hBound)⟩
  | bind member hBound =>
    obtain ⟨next, hNext, hShown⟩ := receive_bound owned last member
    refine ⟨h.batch, fun hWaiting => absurd hBound (h.waits hWaiting).1, some next, hDelivers.snoc hNext hShown,
      fun followed hFollowed _ => ?_⟩
    obtain rfl := Option.some.inj hFollowed
    exact ⟨next, rfl, .settled (.fresh _ _) hShown rfl rfl rfl⟩
  | @receive message shown rest replica hWire hReceive =>
    rw [hWire] at hDelivers
    cases hDelivers with
    | cons hFirst hRest =>
      obtain rfl := Option.some.inj (hFirst.symm.trans hReceive)
      exact ⟨h.batch, h.waits, last, hRest, fun followed hBound hHeard =>
        (hOwes followed hBound hHeard).imp fun r hR => ⟨hR.1, { hR.2 with }⟩⟩

theorem Inv.steps (h : Inv owned w) (hRun : ReflTransGen (Step owned) w w') : Inv owned w' := by
  induction hRun with
  | refl => exact h
  | tail _ hStep ih => exact ih.step hStep

theorem Inv.run (h : ReflTransGen (Step owned) { member } w) : Inv owned w :=
  Inv.steps ⟨fun hList => (by cases hList), fun hWaiting => (by cases hWaiting), none, .nil none,
    fun followed hBound => (by cases hBound)⟩ h

/-- What the two sides keep: the oldest message is accepted and makes the replica show
what the member was, what waits can be sent, and a replica that has everything shows
the member. -/
structure Follows (owned : Nat → Path → Bool) (w : World E) : Prop where
  accepted : ∀ message shown rest, w.wire = (message, shown) :: rest →
    ∃ replica, receive owned w.replica message = some replica ∧ replica.shown = shown
  sendable : ∀ followed, w.hold.followed = some followed → w.waiting = true →
    (w.hold.pendingEntry followed w.member).isSome = true
  caughtUp : w.hold.followed ≠ none → w.hold.touched = false → w.listed = false → w.waiting = false → w.wire = [] →
    ∃ replica, w.replica = some replica ∧ replica.shown = w.member

theorem Inv.shows (h : Inv owned w) (hBound : w.hold.followed ≠ none) (hTouched : w.hold.touched = false)
    (hListed : w.listed = false) (hFree : w.waiting = false) (hWire : w.wire = []) :
    ∃ replica, w.replica = some replica ∧ replica.shown = w.member := by
  obtain ⟨last, hDelivers, hOwes⟩ := h.delivers
  obtain ⟨followed, hSome⟩ := Option.ne_none_iff_exists'.mp hBound
  obtain ⟨r, hLast, hR⟩ := hOwes followed hSome (fun hTrue => absurd hTrue (by simp [hTouched]))
  rw [hWire] at hDelivers
  generalize w.replica = replica at hDelivers
  cases hDelivers
  exact ⟨r, hLast, hR.shows hListed hFree⟩

theorem Inv.sendable (h : Inv owned w) (hBound : w.hold.followed = some followed) (hWaiting : w.waiting = true) :
    (w.hold.pendingEntry followed w.member).isSome = true := by
  obtain ⟨last, -, hOwes⟩ := h.delivers
  obtain ⟨r, -, hR⟩ := hOwes followed hBound (h.waits hWaiting).2
  rw [Hold.pendingEntry, Option.isSome_map]
  exact hR.taken_isSome

/-- A replacement waits behind the binding, which is still on its way. -/
def stalled : World Unit where
  member := .value (.bool true)
  hold := { followed := some { pending := .batch [.r (.bool true)] } }
  waiting := true
  wire := [(.bound (.value .null), .value .null)]

theorem stalled_run (owned : Nat → Path → Bool) : ReflTransGen (Step owned) { member := .failed () } stalled := by
  have hReplays : Replays .null [.r (.bool true)] (.bool true) := .cons trivial rfl (.nil _)
  have hBind : ReflTransGen (Step owned) { member := Member.failed () } _ := .single (.bind (.value .null) rfl)
  have hFrame := hBind.tail (Step.frame rfl rfl (.advanced hReplays false))
  have hQueued := hFrame.tail (Step.queued rfl rfl)
  exact hQueued

theorem delivers_run {last : Option (Replica E)} (h : Delivers owned w.replica w.wire last) :
    ReflTransGen (Step owned) w { w with wire := [], replica := last } := by
  generalize hReplica : w.replica = replica at h
  generalize hWire : w.wire = wire at h
  induction h generalizing w with
  | nil replica =>
    subst hReplica
    rw [← hWire]
  | @cons replica last next message rest hReceive _ ih =>
    subst hReplica
    exact .head (.receive hWire hReceive) (ih rfl rfl)

end OctoberHarness.Replicas
