import OctoberHarness.Session.WriterProtocol

/-! What a whole run of the writer shows to the line and to readers: order,
receipts, gates, and that every outcome settles. -/
namespace OctoberHarness.Session

open List Option

variable {Write Key Seq Err : Type}

/-- Every action but the throw of a host callback that should not throw. -/
def Action.Expected (action : Action Write Key Seq Err) : Prop :=
  ∀ error, action ≠ .throws error

/-- The actions by which a call in flight makes progress. -/
def Action.Own : Action Write Key Seq Err → Prop
  | .advance | .receive _ | .settle _ | .ran _ => True
  | _ => False

theorem Action.Own.expected {action : Action Write Key Seq Err} (h : action.Own) : action.Expected := by
  rintro error rfl
  exact h

/-- The steps a call may yet take in its phase. -/
def Phase.work (parts : List Nat) : Phase Seq Err → Nat
  | .send => 7 * parts.length + 8
  | .commit seqs => 7 * parts.length + 7 - seqs.length
  | .settled _ => 6 * parts.length + 6
  | .refuse rest _ => rest.length + 1
  | .publish _ loop => 6 * loop.rest.length + loop.failing.length + 5
  | .hop _ loop _ _ => 6 * loop.rest.length + loop.failing.length + 10
  | .scope _ loop _ _ => 6 * loop.rest.length + loop.failing.length + 9
  | .running _ loop _ => 6 * loop.rest.length + loop.failing.length + 8
  | .ran _ loop _ _ => 6 * loop.rest.length + loop.failing.length + 7
  | .failing _ loop => loop.failing.length + 4
  | .settling _ entries => entries.length + 3
  | .last => 2

namespace Writer

variable {w next : Writer Write Key Seq Err} {parts : List Nat}

/-- The steps the writer may yet take on what was admitted so far. -/
def work (w : Writer Write Key Seq Err) : Nat :=
  16 * w.queue.length + (w.flight.map fun flight => flight.phase.work flight.parts).getD 0

theorem work_endFlush : w.endFlush.work ≤ 16 * w.queue.length := by
  rw [endFlush, pump]
  split_ifs with hQueue
  · simp [work]
  · have hPositive : 0 < w.queue.length := length_pos_of_ne_nil hQueue
    simp only [work, map_some, getD_some, Phase.work, length_nil]
    omega

theorem work_enter (w : Writer Write Key Seq Err) (parts : List Nat) (phase : Phase Seq Err) :
    (w.enter parts phase).work = 16 * w.queue.length + phase.work parts := rfl

theorem work_publishHead (call : Call Seq Err) (loop : Loop Err) (part : Nat) (rest : List Nat) :
    (w.publishHead call loop part rest).work parts ≤ 6 * rest.length + loop.failing.length + 10 := by
  rw [publishHead]
  cases loop.stop with
  | some stop => simp [Phase.work]; omega
  | none =>
    simp only
    split_ifs <;> simp [Phase.work] <;> omega

theorem work_afterPublication (call : Call Seq Err) (loop : Loop Err) (part : Nat) (failure : Option (PublishFailure Err)) :
    (w.afterPublication parts call loop part failure).work ≤
      16 * w.queue.length + (6 * loop.rest.length + loop.failing.length + 6) := by
  rw [afterPublication.eq_def]
  split <;> simp only [work_enter, Phase.work, length_append, length_singleton]
  · omega
  · omega
  · exact Nat.add_le_add_left (by omega) _
  · exact Nat.add_le_add_left (by omega) _

variable [DecidableEq Key]

variable {phase : Phase Seq Err}

theorem work_advance (hStep : w.advance parts phase = some next) :
    next.work < 16 * w.queue.length + phase.work parts := by
  cases phase with
  | send =>
    rw [advance] at hStep
    split at hStep
    · obtain rfl := some.inj hStep
      rw [work_enter]
      simp only [Phase.work]
      omega
    · split_ifs at hStep
      all_goals
        obtain rfl := some.inj hStep
        rw [work_enter]
        simp only [Phase.work, length_nil]
        omega
  | commit seqs => simp [advance] at hStep
  | settled call =>
    rw [advance] at hStep
    split at hStep
    all_goals
      obtain rfl := some.inj hStep
      rw [work_enter]
      simp only [Phase.work, length_nil]
      omega
  | refuse rest error =>
    cases rest with
    | nil =>
      obtain rfl := some.inj hStep
      have hEnd := work_endFlush (w := w)
      simp only [Phase.work]
      omega
    | cons part rest =>
      obtain rfl := some.inj hStep
      rw [work_enter]
      simp only [Phase.work, length_cons]
      exact Nat.add_lt_add_left (by omega) _
  | publish call loop =>
    rw [advance] at hStep
    split at hStep
    case h_1 part rest hRest =>
        obtain rfl := some.inj hStep
        have hHead : (w.publishHead call loop part rest).work parts ≤ 6 * rest.length + loop.failing.length + 10 :=
          work_publishHead call loop part rest
        rw [work_enter, Phase.work.eq_5, hRest, length_cons]
        omega
    case h_2 hRest =>
        split_ifs at hStep <;> obtain rfl := some.inj hStep <;> rw [work_enter] <;>
          simp [Phase.work, hRest]
  | hop call loop part seq =>
    obtain rfl := some.inj hStep
    rw [work_enter]
    simp [Phase.work]
  | scope call loop part seq =>
    rw [advance] at hStep
    split at hStep
    · obtain rfl := some.inj hStep
      rw [work_enter]
      simp only [Phase.work, length_append, length_singleton]
      omega
    · obtain rfl := some.inj hStep
      rw [work_enter]
      exact Nat.add_lt_add_left (by simp [Phase.work]) _
  | running call loop part => simp [advance] at hStep
  | ran call loop part failure =>
    obtain rfl := some.inj hStep
    have hAfter : (w.afterPublication parts call loop part failure).work ≤
        16 * w.queue.length + (6 * loop.rest.length + loop.failing.length + 6) :=
      work_afterPublication call loop part failure
    simp only [Phase.work]
    omega
  | failing call loop =>
    obtain rfl := some.inj hStep
    have hQueue : (w.failCall call loop).queue = w.queue := by
      rw [failCall.eq_def]
      split <;> rfl
    rw [work_enter, hQueue]
    simp [Phase.work]
  | settling stop entries =>
    cases entries with
    | nil =>
      obtain rfl := some.inj hStep
      rw [work_enter]
      simp [Phase.work]
    | cons entry rest =>
      obtain rfl := some.inj hStep
      have hQueue : (w.settleFailing stop entry).queue = w.queue := by
        rw [settleFailing]
        split_ifs <;> rfl
      rw [work_enter, hQueue]
      simp [Phase.work]
  | last =>
    rw [advance] at hStep
    split at hStep
    · obtain rfl := some.inj hStep
      rw [work_enter]
      simp only [Phase.work, length_nil]
      omega
    · obtain rfl := some.inj hStep
      have hEnd := work_endFlush (w := w)
      simp only [Phase.work]
      omega

variable {action : Action Write Key Seq Err}

theorem work_step (hOwn : action.Own) (hStep : w.step action = some next) (hInv : w.Inv) : next.work < w.work := by
  have hWork : ∀ parts phase, w.flight = some ⟨parts, phase⟩ →
      w.work = 16 * w.queue.length + phase.work parts := by
    intro parts phase hFlight
    rw [work, hFlight]
    rfl
  -- there are no more receipts than stored parts
  have hReceipts : ∀ parts seqs, w.flight = some ⟨parts, .commit seqs⟩ → seqs.length ≤ parts.length := by
    intro parts seqs hFlight
    obtain ⟨begun, closed, hAt⟩ := hInv
    obtain ⟨-, -, -, hReceived⟩ := hAt.flight hFlight
    by_contra hMore
    obtain ⟨seq, hSeq⟩ : ∃ seq, seqs[parts.length]? = some seq :=
      ⟨_, getElem?_eq_getElem (by omega)⟩
    obtain ⟨part, hPart, -⟩ := hReceived _ _ hSeq
    have hBound := (List.getElem?_eq_some_iff.mp hPart).1
    have hLength := length_filter_le w.stored parts
    omega
  cases action with
  | admitted spec => exact hOwn.elim
  | failed error => exact hOwn.elim
  | throws error => exact hOwn.elim
  | advance =>
    rw [step] at hStep
    split at hStep
    case h_1 parts phase hFlight =>
        rw [hWork parts phase hFlight]
        exact work_advance hStep
    case h_2 => simp at hStep
  | receive seq =>
    rw [step] at hStep
    split at hStep
    case h_1 parts seqs hFlight =>
        split at hStep
        case h_1 part hPart =>
            obtain rfl := some.inj hStep
            have hBound := hReceipts parts seqs hFlight
            rw [hWork parts _ hFlight, work_enter]
            simp only [Phase.work, length_append, length_singleton]
            omega
        case h_2 => simp at hStep
    case h_2 => simp at hStep
  | settle result =>
    rcases result with result | error
    all_goals
      rw [step] at hStep
      split at hStep
      case h_1 parts seqs hFlight =>
          obtain rfl := some.inj hStep
          have hBound := hReceipts parts seqs hFlight
          rw [hWork parts _ hFlight, work_enter]
          simp only [Phase.work]
          omega
      case h_2 => simp at hStep
  | ran result =>
    rcases result with failure | error
    all_goals
      rw [step] at hStep
      split at hStep
      case h_1 parts call loop part hFlight =>
          obtain rfl := some.inj hStep
          rw [hWork parts _ hFlight, work_enter]
          simp only [Phase.work]
          omega
      case h_2 => simp at hStep

theorem advance_isSome (hCommit : ∀ seqs, phase ≠ .commit seqs) (hRunning : ∀ call loop part, phase ≠ .running call loop part) :
    (w.advance parts phase).isSome = true := by
  cases phase with
  | commit seqs => exact absurd rfl (hCommit seqs)
  | running call loop part => exact absurd rfl (hRunning call loop part)
  | send =>
    rw [advance]
    split
    · rfl
    · split_ifs <;> rfl
  | publish call loop =>
    rw [advance]
    split
    · rfl
    · split_ifs <;> rfl
  | settled call => rw [advance]; split <;> rfl
  | scope call loop part seq => rw [advance]; split <;> rfl
  | last => rw [advance]; split <;> rfl
  | refuse rest error => cases rest <;> rfl
  | settling stop entries => cases entries <;> rfl
  | hop call loop part seq => rfl
  | ran call loop part failure => rfl
  | failing call loop => rfl

theorem exists_step {flight : Flight Seq Err} (hFlight : w.flight = some flight) :
    ∃ action, Action.Own action ∧ (w.step action).isSome = true := by
  obtain ⟨parts, phase⟩ := flight
  by_cases hCommit : ∃ seqs, phase = .commit seqs
  · obtain ⟨seqs, rfl⟩ := hCommit
    exact ⟨.settle (.resolved ⟨seqs.length, none⟩), trivial, by rw [step, hFlight]; rfl⟩
  by_cases hRunning : ∃ call loop part, phase = .running call loop part
  · obtain ⟨call, loop, part, rfl⟩ := hRunning
    exact ⟨.ran (.returned none), trivial, by rw [step, hFlight]; rfl⟩
  refine ⟨.advance, trivial, ?_⟩
  rw [step, hFlight]
  exact advance_isSome (fun seqs h => hCommit ⟨seqs, h⟩)
    fun call loop part h => hRunning ⟨call, loop, part, h⟩

/-- A part that is admitted and neither published nor given up: a reader of one
of its keys has to wait for it. -/
def Pending (w : Writer Write Key Seq Err) (part : Nat) : Prop :=
  part < w.parts.length ∧ part ∉ w.history.published.map Prod.fst ∧ part ∉ w.history.discarded

/-- A gate a reader asked for is gone or open. -/
def Passable (finish : Writer Write Key Seq Err) (gate : Option Nat) : Prop :=
  ∀ part, gate = some part → part ∈ finish.history.opened

theorem Books.pending_iff {begun closed : Nat} (h : w.Books begun closed) (part : Nat) :
    w.Pending part ↔ part < w.parts.length ∧ begun ≤ part ∧ closed ≤ part := by
  rw [Pending, h.published, h.discarded, mem_range, mem_range'_1]
  omega

/-- The line and the histories only grow. -/
def Grows (w next : Writer Write Key Seq Err) : Prop :=
  w.parts <+: next.parts ∧ w.history.published <+: next.history.published ∧
    w.history.discarded <+: next.history.discarded

omit [DecidableEq Key] in
theorem Grows.refl (w : Writer Write Key Seq Err) : w.Grows w :=
  ⟨prefix_rfl, prefix_rfl, prefix_rfl⟩

omit [DecidableEq Key] in
theorem Grows.trans (a b c : Writer Write Key Seq Err) (h : a.Grows b) (h' : b.Grows c) : a.Grows c :=
  ⟨h.1.trans h'.1, h.2.1.trans h'.2.1, h.2.2.trans h'.2.2⟩

theorem Grows.unpublish (w : Writer Write Key Seq Err) (part : Nat) (outcome : Outcome Err) :
    w.Grows (w.unpublish part outcome) :=
  ⟨prefix_rfl, prefix_rfl, prefix_append _ _⟩

omit [DecidableEq Key] in
theorem Grows.endFlush (w : Writer Write Key Seq Err) : w.Grows w.endFlush := by
  rw [Writer.endFlush, pump]
  split_ifs <;> exact ⟨prefix_rfl, prefix_rfl, prefix_rfl⟩

theorem Grows.admitPart (w : Writer Write Key Seq Err) (spec : PartSpec Write Key) :
    w.Grows (w.admitPart spec) := by
  rw [Writer.admitPart]
  split_ifs
  · exact ⟨prefix_append _ _, prefix_rfl, prefix_rfl⟩
  · rw [pump]
    split_ifs <;> exact ⟨prefix_append _ _, prefix_rfl, prefix_rfl⟩

theorem Grows.advance (hStep : w.advance parts phase = some next) :
    w.Grows next := by
  cases phase with
  | send =>
    rw [Writer.advance] at hStep
    split at hStep
    · obtain rfl := some.inj hStep
      exact Grows.refl w
    · split_ifs at hStep
      all_goals
        obtain rfl := some.inj hStep
        exact Grows.refl w
  | commit seqs => simp [Writer.advance] at hStep
  | settled call =>
    rw [Writer.advance] at hStep
    split at hStep
    all_goals
      obtain rfl := some.inj hStep
      exact Grows.refl w
  | refuse rest error =>
    cases rest with
    | nil =>
      obtain rfl := some.inj hStep
      exact Grows.endFlush w
    | cons part rest =>
      obtain rfl := some.inj hStep
      exact Grows.unpublish w part (.sessionFailed error)
  | publish call loop =>
    rw [Writer.advance] at hStep
    split at hStep
    · obtain rfl := some.inj hStep
      exact Grows.refl w
    · split_ifs at hStep
      all_goals
        obtain rfl := some.inj hStep
        exact Grows.refl w
  | hop call loop part seq =>
    obtain rfl := some.inj hStep
    exact Grows.refl w
  | scope call loop part seq =>
    rw [Writer.advance] at hStep
    split at hStep
    · obtain rfl := some.inj hStep
      exact Grows.refl w
    · obtain rfl := some.inj hStep
      exact ⟨prefix_rfl, prefix_append _ _, prefix_rfl⟩
  | running call loop part => simp [Writer.advance] at hStep
  | ran call loop part failure =>
    obtain rfl := some.inj hStep
    rw [afterPublication.eq_def]
    split <;> exact Grows.refl w
  | failing call loop =>
    obtain rfl := some.inj hStep
    rw [failCall.eq_def]
    split <;> exact Grows.refl w
  | settling stop entries =>
    cases entries with
    | nil =>
      obtain rfl := some.inj hStep
      exact Grows.refl w
    | cons entry rest =>
      obtain rfl := some.inj hStep
      rw [settleFailing]
      split_ifs
      · exact Grows.refl w
      · exact Grows.unpublish w _ _
  | last =>
    rw [Writer.advance] at hStep
    split at hStep
    · obtain rfl := some.inj hStep
      exact Grows.refl w
    · obtain rfl := some.inj hStep
      exact Grows.endFlush w

theorem Grows.step (hExpected : action.Expected) (hStep : w.step action = some next) : w.Grows next := by
  cases action with
  | admitted spec =>
    obtain rfl := some.inj hStep
    exact Grows.admitPart w spec
  | failed error =>
    obtain rfl := some.inj hStep
    exact Grows.refl w
  | advance =>
    rw [Writer.step] at hStep
    split at hStep
    · exact Grows.advance hStep
    · simp at hStep
  | receive seq =>
    rw [Writer.step] at hStep
    split at hStep
    · split at hStep
      · obtain rfl := some.inj hStep
        exact Grows.refl w
      · simp at hStep
    · simp at hStep
  | settle result =>
    rcases result with result | error
    all_goals
      rw [Writer.step] at hStep
      split at hStep
      · obtain rfl := some.inj hStep
        exact Grows.refl w
      · simp at hStep
  | ran result =>
    rcases result with failure | error
    all_goals
      rw [Writer.step] at hStep
      split at hStep
      · obtain rfl := some.inj hStep
        exact Grows.refl w
      · simp at hStep
  | throws error => exact absurd rfl (hExpected error)

omit [DecidableEq Key] in
theorem Grows.pending (h : w.Grows next) {part : Nat} (hPart : part < w.parts.length)
    (hPending : next.Pending part) : w.Pending part :=
  ⟨hPart, fun hMem => hPending.2.1 ((h.2.1.map Prod.fst).subset hMem),
    fun hMem => hPending.2.2 (h.2.2.subset hMem)⟩

theorem Books.gate_of_pending {begun closed : Nat} (h : w.Books begun closed) {key : Key} {part : Nat}
    {spec : PartSpec Write Key} (hPending : w.Pending part) (hSpec : w.parts[part]? = some spec)
    (hKey : key ∈ spec.keys) : ∃ newest, w.gate key = some newest ∧ part ≤ newest := by
  -- downward induction from the end of the line
  obtain ⟨-, hBegun, hClosed⟩ := (h.pending_iff part).mp hPending
  induction hDistance : w.parts.length - part using Nat.strong_induction_on generalizing part spec with
  | _ distance ih =>
    by_cases hLater : ∃ later other, part < later ∧ w.parts[later]? = some other ∧ key ∈ other.keys
    · obtain ⟨later, other, hLess, hOther, hOtherKey⟩ := hLater
      have hBound := (List.getElem?_eq_some_iff.mp hOther).1
      have hLaterPending : w.Pending later := (h.pending_iff later).mpr ⟨hBound, by omega, by omega⟩
      obtain ⟨newest, hGate, hLe⟩ := ih (w.parts.length - later) (by omega) hLaterPending hOther
        hOtherKey (by omega) (by omega) rfl
      exact ⟨newest, hGate, by omega⟩
    · refine ⟨part, (h.keys key part).mpr ⟨⟨spec, hSpec, hKey⟩, ?_, hBegun, hClosed⟩, Nat.le_refl part⟩
      exact fun later other hLess hOther hOtherKey => hLater ⟨later, other, hLess, hOther, hOtherKey⟩

variable {actions : List (Action Write Key Seq Err)}

theorem Inv.run (hInv : w.Inv) (hExpected : ∀ action ∈ actions, action.Expected)
    (hRun : Transition.run Writer.step w actions = some next) : next.Inv :=
  Transition.invariant (fun _ _ _ hAction hStep h => h.step hAction hStep) hExpected hRun hInv

theorem Grows.run (hExpected : ∀ action ∈ actions, action.Expected)
    (hRun : Transition.run Writer.step w actions = some next) : w.Grows next :=
  Transition.relation Grows.refl Grows.trans (fun _ _ _ hAction hStep => Grows.step hAction hStep)
    hExpected hRun

/-- Every outcome is settled once, and every part is published or discarded
once. -/
def AllSettled (w : Writer Write Key Seq Err) : Prop :=
  ∀ part, part < w.parts.length → (w.history.settled.map Prod.fst).count part = 1 ∧
    if part ∈ w.history.published.map Prod.fst then part ∉ w.history.discarded
    else w.history.discarded.count part = 1

theorem Inv.allSettled (hInv : w.Inv) (hIdle : w.flight = none) : w.AllSettled := by
  obtain ⟨begun, closed, h⟩ := hInv
  obtain ⟨hQueue, -⟩ := h.idle hIdle
  have hLine := h.line
  rw [remaining, hIdle, hQueue] at hLine
  have hClosed : w.parts.length - closed = 0 := by
    have hLength := congrArg length hLine
    simpa using hLength.symm
  intro part hPart
  rw [h.books.settled, h.books.published, h.books.discarded]
  refine ⟨count_eq_one_of_mem nodup_range (List.mem_range.mpr (by omega)), ?_⟩
  split_ifs with hBegun
  · rw [mem_range] at hBegun
    rw [mem_range'_1]
    omega
  · rw [mem_range] at hBegun
    exact count_eq_one_of_mem nodup_range' (List.mem_range'_1.mpr (by omega))

/-- What the writer promises in a state it can reach. -/
structure Protocol (w : Writer Write Key Seq Err) : Prop where
  /-- The published parts are a prefix of the line. -/
  published : ∃ count, count ≤ w.parts.length ∧ w.history.published.map Prod.fst = range count
  /-- A stored part is published with the seq of its own receipt. -/
  receipts : ∀ part seq spec, (part, seq) ∈ w.history.published → w.parts[part]? = some spec →
    spec.writes.isSome → ∃ received, seq = some received ∧ (part, received) ∈ w.history.receipts
  /-- No outcome settles twice. -/
  settled : (w.history.settled.map Prod.fst).Nodup
  /-- Only published parts resolve. -/
  resolved : ∀ part, (part, Outcome.resolved) ∈ w.history.settled →
    part ∈ w.history.published.map Prod.fst
  /-- No part is discarded twice, and no published one at all. -/
  discarded : w.history.discarded.Nodup ∧
    ∀ part ∈ w.history.discarded, part ∉ w.history.published.map Prod.fst
  /-- A part that settled without being published was discarded. -/
  abandoned : ∀ part ∈ w.history.settled.map Prod.fst,
    part ∉ w.history.published.map Prod.fst → part ∈ w.history.discarded
  /-- Gates open in line order. -/
  opened : ∃ count, count ≤ w.parts.length ∧ w.history.opened = range count
  /-- Past the gate of a key no part that wrote it before is pending. -/
  gate : ∀ later finish key, (∀ action ∈ later, Action.Expected action) →
    Transition.run Writer.step w later = some finish → finish.Passable (w.gate key) →
    ∀ part spec, w.parts[part]? = some spec → key ∈ spec.keys → ¬ finish.Pending part
  /-- Past `drained` no part admitted before is pending. -/
  drained : ∀ later finish, (∀ action ∈ later, Action.Expected action) →
    Transition.run Writer.step w later = some finish → finish.Passable w.drained →
    ∀ part, part < w.parts.length → ¬ finish.Pending part
  /-- Left to itself, the writer comes to rest with every part settled once. -/
  settles : ∀ later finish, (∀ action ∈ later, Action.Own action) →
    Transition.run Writer.step w later = some finish → later.length ≤ w.work ∧
      ((∃ action, Action.Own action ∧ (finish.step action).isSome = true) ∨ finish.AllSettled)

/-- The group-commit protocol holds in every state of every run: whatever the
storage answers, whatever a publication ends with, whatever else fails the
session, and however admissions interleave. -/
theorem writer_protocol {actions : List (Action Write Key Seq Err)} {w : Writer Write Key Seq Err}
    (hExpected : ∀ action ∈ actions, action.Expected)
    (hRun : Transition.run Writer.step {} actions = some w) : w.Protocol := by
  have hInv : w.Inv := Inv.initial.run hExpected hRun
  obtain ⟨begun, closed, hAt⟩ := id hInv
  have hBooks := hAt.books
  refine ⟨⟨begun, hBooks.admitted.1, hBooks.published⟩, hBooks.receipts, ?_, ?_, ⟨?_, ?_⟩, ?_,
    ⟨closed, hBooks.admitted.2, hBooks.opened⟩, ?_, ?_, ?_⟩
  · rw [hBooks.settled]
    exact nodup_range
  · intro part hResolved
    rw [hBooks.published, mem_range]
    exact hBooks.resolved part hResolved
  · rw [hBooks.discarded]
    exact nodup_range'
  · intro part hPart
    rw [hBooks.discarded, mem_range'_1] at hPart
    rw [hBooks.published, mem_range]
    omega
  · intro part hSettled hUnpublished
    rw [hBooks.settled, mem_range] at hSettled
    rw [hBooks.published, mem_range] at hUnpublished
    rw [hBooks.discarded, mem_range'_1]
    omega
  · intro later finish key hLater hRest hPassable part spec hSpec hKey hPending
    have hBound := (List.getElem?_eq_some_iff.mp hSpec).1
    obtain ⟨newest, hGate, hLe⟩ :=
      hBooks.gate_of_pending ((Grows.run hLater hRest).pending hBound hPending) hSpec hKey
    obtain ⟨begun', closed', hFinish⟩ := hInv.run hLater hRest
    have hOpen := hPassable newest hGate
    rw [hFinish.books.opened, mem_range] at hOpen
    have hOutside := (hFinish.books.pending_iff part).mp hPending
    omega
  · intro later finish hLater hRest hPassable part hPart hPending
    have hOld := (hBooks.pending_iff part).mp ((Grows.run hLater hRest).pending hPart hPending)
    obtain ⟨begun', closed', hFinish⟩ := hInv.run hLater hRest
    have hOpen := hPassable (w.parts.length - 1) (by rw [drained, hBooks.newest, if_pos (by omega)])
    rw [hFinish.books.opened, mem_range] at hOpen
    have hOutside := (hFinish.books.pending_iff part).mp hPending
    omega
  · intro later finish hOwn hRest
    have hFinish : finish.Inv := hInv.run (fun action hAction => (hOwn action hAction).expected) hRest
    refine ⟨?_, ?_⟩
    · have hKeeps : ∀ (state : Writer Write Key Seq Err) action next, Action.Own action →
          state.step action = some next → state.Inv → next.Inv :=
        fun state action next hAction hStep h => h.step hAction.expected hStep
      have hWork := Transition.length_le_work work hKeeps
        (fun state action next hAction hStep h => work_step hAction hStep h) hOwn hRest hInv
      omega
    · cases hFlight : finish.flight with
      | none => exact Or.inr (hFinish.allSettled hFlight)
      | some flight => exact Or.inl (exists_step hFlight)

/-- A run of three parts over two calls; the second call refuses its second
batch. -/
def refusedRun : List (Action Unit Nat Nat String) :=
  [.admitted ⟨0, some [()], [7]⟩, .admitted ⟨1, some [()], [7]⟩, .admitted ⟨2, some [()], [8]⟩,
    .advance, .receive 10, .settle (.resolved ⟨1, none⟩), .advance, .advance, .advance,
    .ran (.returned none), .advance, .advance, .advance, .advance,
    .advance, .receive 11, .settle (.resolved ⟨1, some "refused"⟩), .advance, .advance, .advance,
    .ran (.returned none), .advance, .advance, .advance, .advance, .advance, .advance, .advance, .advance]

/-- The refused part is discarded, the two before it are published. -/
theorem writer_protocol_refused : ∃ w : Writer Unit Nat Nat String,
    Transition.run Writer.step {} refusedRun = some w ∧ w.Protocol ∧
      w.history.published = [(0, some 10), (1, some 11)] ∧ w.history.discarded = [2] ∧
      w.history.opened = [0, 1, 2] := by
  have hSome : (Transition.run Writer.step ({} : Writer Unit Nat Nat String) refusedRun).isSome = true := by
    decide
  obtain ⟨w, hRun⟩ := Option.isSome_iff_exists.mp hSome
  have hHistory : (Transition.run Writer.step ({} : Writer Unit Nat Nat String) refusedRun).map
      (fun w => (w.history.published, w.history.discarded, w.history.opened)) =
      some ([(0, some 10), (1, some 11)], [2], [0, 1, 2]) := by decide
  rw [hRun, map_some, some.injEq, Prod.mk.injEq, Prod.mk.injEq] at hHistory
  have hExpected : ∀ action ∈ refusedRun, action.Expected := by
    intro action hAction error hThrows
    subst hThrows
    simp [refusedRun] at hAction
  exact ⟨w, hRun, writer_protocol hExpected hRun, hHistory⟩

end Writer

end OctoberHarness.Session
