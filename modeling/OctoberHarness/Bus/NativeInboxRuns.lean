import OctoberHarness.Bus.NativeInbox
import OctoberHarness.Library.Trace

/-! Each batch is handed over at most once, and only what was handed over and reported is
acknowledged. -/
namespace OctoberHarness.Bus.NativeInbox

open List Option

namespace Event

def deliveredWake : Event → Option Nat
  | .delivered wake _ _ => some wake
  | _ => none

def deliveredReceipt : Event → Option JsString
  | .delivered _ receipt _ => some receipt
  | _ => none

def wokeReceipt : Event → Option JsString
  | .woke _ receipt => some receipt
  | _ => none

end Event

/-- The batches that were delivered. -/
def deliveries (log : List Event) : List Nat :=
  log.filterMap Event.deliveredWake

/-- A delivery that was reported by its session afterwards. -/
def Reported (log : List Event) (wake : Nat) (receipt : JsString) : Prop :=
  ∃ first later session, log = first ++ .delivered wake receipt session :: later ∧ .accepted receipt session ∈ later

/-- What may come after what. -/
def Admits (before : List Event) : Event → Prop
  | .woke wake _ => ∀ receipt, .woke wake receipt ∉ before
  | .declineSent wake receipt => .woke wake receipt ∈ before ∧ wake ∉ deliveries before
  | .delivered wake receipt _ =>
    .woke wake receipt ∈ before ∧ wake ∉ deliveries before ∧ (∀ receipt, .declineSent wake receipt ∉ before) ∧
      ∀ earlier ∈ deliveries before, .acked earlier ∈ before
  | .accepted _ _ => True
  | .ackSent wake receipt => Reported before wake receipt
  | .acked wake => ∃ receipt, .ackSent wake receipt ∈ before

theorem deliveries_snoc (log : List Event) (event : Event) :
    deliveries (log ++ [event]) = deliveries log ++ event.deliveredWake.toList := by
  cases hWake : event.deliveredWake <;> simp [deliveries, hWake]

/-- A delivery whose acknowledgement is not certain. -/
structure Pending.Delivered (pending : Pending) (log : List Event) : Prop where
  delivered : ∃ first later, log = first ++ .delivered pending.wake pending.receipt pending.key :: later ∧
    (pending.accepted = true → .accepted pending.receipt pending.key ∈ later)

variable {log : List Event} {s : State} {wake : Nat} {receipt : JsString}

theorem Pending.Delivered.snoc {pending : Pending} (h : pending.Delivered log) (event : Event) :
    pending.Delivered (log ++ [event]) := by
  obtain ⟨first, later, hLog, hAccepted⟩ := h.delivered
  refine ⟨first, later ++ [event], ?_, fun hYes => mem_append_left _ (hAccepted hYes)⟩
  rw [hLog, append_assoc, cons_append]

theorem Pending.Delivered.reported {pending : Pending} (h : pending.Delivered log)
    (hAccepted : pending.accepted = true) : Reported log pending.wake pending.receipt := by
  obtain ⟨first, later, hLog, hLater⟩ := h.delivered
  exact ⟨first, later, pending.key, hLog, hLater hAccepted⟩

/-- What the history and the pending delivery keep to. -/
structure Kept (s : State) : Prop where
  lawful : Trace.Lawful Admits s.log
  wakes : ∀ wake receipt, .woke wake receipt ∈ s.log → wake < s.wakes
  known : ∀ wake ∈ deliveries s.log, wake < s.wakes
  declined : ∀ wake receipt, .declineSent wake receipt ∈ s.log → wake < s.wakes
  pending : ∀ pending, s.pending = some pending → pending.Delivered s.log
  settled : ∀ wake ∈ deliveries s.log, .acked wake ∈ s.log ∨ ∃ pending, s.pending = some pending ∧ pending.wake = wake

/-- What a waiting poll keeps to. -/
def PhaseKept (s : State) : Phase → Prop
  | .acking wake => (∃ receipt, .ackSent wake receipt ∈ s.log) ∧ ∃ pending, s.pending = some pending ∧ pending.wake = wake
  | .waking _ => s.pending = none
  | .declining => True
  | .delivering => True

/-- The timers that are armed: at most the one `stop` clears. -/
def TimerKept (s : State) : Prop :=
  s.armed = [] ∨ ∃ timer, s.armed = [timer] ∧ s.timer = some timer ∧ s.stopped = false ∧ s.polling = false

/-- A poll up to its next wait. -/
def TurnKept (turn : State.Turn) : Prop :=
  Kept turn.1 ∧ TimerKept turn.1 ∧
    match turn.2 with
    | some phase => turn.1.polling = true ∧ PhaseKept turn.1 phase
    | none => turn.1.polling = false

structure Inv (s : State) : Prop where
  kept : Kept s
  timer : TimerKept s
  polls : (s.polling = false ∧ s.polls = []) ∨ (s.polling = true ∧ ∃ phase, s.polls = [phase] ∧ PhaseKept s phase)

theorem inv_initial (session : JsString) (canReceive : Bool) : Inv (initial session canReceive) where
  kept := {
    lawful := Trace.lawful_nil _
    wakes := fun _ _ hNone => absurd hNone not_mem_nil
    known := fun _ hNone => absurd hNone not_mem_nil
    declined := fun _ _ hNone => absurd hNone not_mem_nil
    pending := fun _ hNone => nomatch hNone
    settled := fun _ hNone => absurd hNone not_mem_nil }
  timer := .inl rfl
  polls := .inl ⟨rfl, rfl⟩

theorem Kept.quiet (h : Kept s) {event : Event} (hAdmits : Admits s.log event)
    (hWoke : ∀ wake receipt, event ≠ .woke wake receipt) (hDelivered : event.deliveredWake = none)
    (hDeclined : ∀ wake receipt, event = .declineSent wake receipt → wake < s.wakes) : Kept (s.record event) where
  lawful := h.lawful.snoc hAdmits
  wakes wake receipt hMem := by
    rcases mem_append.mp hMem with hOld | hNew
    · exact h.wakes wake receipt hOld
    · exact absurd (mem_singleton.mp hNew).symm (hWoke wake receipt)
  known wake hMem := by
    change wake ∈ deliveries (s.log ++ [event]) at hMem
    rw [deliveries_snoc, hDelivered, toList_none, append_nil] at hMem
    exact h.known wake hMem
  declined wake receipt hMem := by
    rcases mem_append.mp hMem with hOld | hNew
    · exact h.declined wake receipt hOld
    · exact hDeclined wake receipt (mem_singleton.mp hNew).symm
  pending pending hPending := (h.pending pending hPending).snoc event
  settled wake hMem := by
    change wake ∈ deliveries (s.log ++ [event]) at hMem
    rw [deliveries_snoc, hDelivered, toList_none, append_nil] at hMem
    exact (h.settled wake hMem).imp (mem_append_left _) id

theorem finish_kept (h : Kept s) (hArmed : s.armed = []) : TurnKept s.finish := by
  rw [State.finish]
  dsimp only
  split_ifs with hStopped
  · exact ⟨{ h with }, .inl hArmed, rfl⟩
  · refine ⟨{ h with }, .inr ⟨s.nextTimer, ?_, rfl, Bool.eq_false_iff.mpr hStopped, rfl⟩, rfl⟩
    show s.armed ++ [s.nextTimer] = [s.nextTimer]
    rw [hArmed, nil_append]

theorem readBatch_kept (h : Kept s) (hPolling : s.polling = true) (hArmed : s.armed = [])
    (hPending : s.pending = none) : TurnKept s.readBatch := by
  rw [State.readBatch]
  split_ifs
  · exact finish_kept h hArmed
  · exact ⟨h, .inl hArmed, hPolling, hPending⟩

theorem afterAck_kept (h : Kept s) (hPolling : s.polling = true) (hArmed : s.armed = [])
    (hPhase : PhaseKept s (.acking wake)) (response : Option Batch) : TurnKept (s.afterAck wake response) := by
  obtain ⟨⟨receipt, hSent⟩, pending, hPending, hWake⟩ := hPhase
  cases response with
  | none => exact finish_kept h hArmed
  | some batch =>
    have hRecorded : Kept (s.record (.acked wake)) := h.quiet ⟨receipt, hSent⟩ (fun _ _ => nofun) rfl fun _ _ => nofun
    have hNext : Kept { s with pending := none, log := s.log ++ [.acked wake] } := {
      lawful := hRecorded.lawful
      wakes := hRecorded.wakes
      known := hRecorded.known
      declined := hRecorded.declined
      pending := fun _ hNone => nomatch hNone
      settled := by
        intro other hMem
        left
        rcases hRecorded.settled other hMem with hAcked | ⟨same, hSame, hOther⟩
        · exact hAcked
        · obtain rfl := some.inj (hPending.symm.trans hSame)
          rw [← hOther, hWake]
          exact mem_append_right _ mem_cons_self }
    exact readBatch_kept hNext hPolling hArmed rfl

theorem woke_kept (h : Kept s) (receipt : JsString) :
    Kept { s with wakes := s.wakes + 1, log := s.log ++ [.woke s.wakes receipt] } where
  lawful := h.lawful.snoc fun other hMem => Nat.lt_irrefl _ (h.wakes _ _ hMem)
  wakes wake other hMem := by
    rcases mem_append.mp hMem with hOld | hNew
    · exact Nat.lt_succ_of_lt (h.wakes wake other hOld)
    · cases mem_singleton.mp hNew
      exact Nat.lt_succ_self _
  known wake hMem := by
    change wake ∈ deliveries (s.log ++ [_]) at hMem
    rw [deliveries_snoc] at hMem
    exact Nat.lt_succ_of_lt (h.known wake (by simpa [Event.deliveredWake] using hMem))
  declined wake other hMem := by
    rcases mem_append.mp hMem with hOld | hNew
    · exact Nat.lt_succ_of_lt (h.declined wake other hOld)
    · exact nomatch mem_singleton.mp hNew
  pending pending hPending := (h.pending pending hPending).snoc _
  settled wake hMem := by
    change wake ∈ deliveries (s.log ++ [_]) at hMem
    rw [deliveries_snoc] at hMem
    exact (h.settled wake (by simpa [Event.deliveredWake] using hMem)).imp (mem_append_left _) id

/-- What is known of a batch that just arrived while nothing is pending. -/
structure Fresh (s : State) (wake : Nat) (receipt : JsString) : Prop where
  known : wake < s.wakes
  woke : .woke wake receipt ∈ s.log
  undelivered : wake ∉ deliveries s.log
  undeclined : ∀ receipt, .declineSent wake receipt ∉ s.log
  pending : s.pending = none

theorem Fresh.woke_new (h : Kept s) (hPending : s.pending = none) (receipt : JsString) :
    Fresh { s with wakes := s.wakes + 1, log := s.log ++ [.woke s.wakes receipt] } s.wakes receipt where
  known := Nat.lt_succ_self _
  woke := mem_append_right _ mem_cons_self
  undelivered hMem := by
    change s.wakes ∈ deliveries (s.log ++ [_]) at hMem
    rw [deliveries_snoc] at hMem
    exact Nat.lt_irrefl _ (h.known s.wakes (by simpa [Event.deliveredWake] using hMem))
  undeclined other hMem := by
    rcases mem_append.mp hMem with hOld | hNew
    · exact Nat.lt_irrefl _ (h.declined _ _ hOld)
    · exact nomatch mem_singleton.mp hNew
  pending := hPending

theorem deliver_kept (h : Kept s) (hFresh : Fresh s wake receipt) :
    Kept (State.record { s with pending := some ⟨s.session, receipt, false, wake⟩ } (.delivered wake receipt s.session)) where
  lawful := by
    apply h.lawful.snoc
    refine ⟨hFresh.woke, hFresh.undelivered, hFresh.undeclined, ?_⟩
    intro earlier hEarlier
    rcases h.settled earlier hEarlier with hAcked | ⟨pending, hSome, -⟩
    · exact hAcked
    · rw [hFresh.pending] at hSome
      exact nomatch hSome
  wakes other receipt' hMem := by
    rcases mem_append.mp hMem with hOld | hNew
    · exact h.wakes other receipt' hOld
    · exact nomatch mem_singleton.mp hNew
  known other hMem := by
    change other ∈ deliveries (s.log ++ [_]) at hMem
    rw [deliveries_snoc] at hMem
    rcases mem_append.mp hMem with hOld | hNew
    · exact h.known other hOld
    · rw [mem_singleton.mp hNew]
      exact hFresh.known
  declined other receipt' hMem := by
    rcases mem_append.mp hMem with hOld | hNew
    · exact h.declined other receipt' hOld
    · exact nomatch mem_singleton.mp hNew
  pending pending hPending := by
    obtain rfl := some.inj hPending
    exact ⟨s.log, [], rfl, nofun⟩
  settled other hMem := by
    change other ∈ deliveries (s.log ++ [_]) at hMem
    rw [deliveries_snoc] at hMem
    rcases mem_append.mp hMem with hOld | hNew
    · rcases h.settled other hOld with hAcked | ⟨pending, hSome, -⟩
      · exact .inl (mem_append_left _ hAcked)
      · rw [hFresh.pending] at hSome
        exact nomatch hSome
    · exact .inr ⟨_, rfl, (mem_singleton.mp hNew).symm⟩

theorem afterWake_kept (h : Kept s) (hPolling : s.polling = true) (hArmed : s.armed = [])
    (hPending : s.pending = none) (key : JsString) (response : Option Batch) : TurnKept (s.afterWake key response) := by
  rw [State.afterWake]
  cases response.bind Batch.usable with
  | none => exact finish_kept h hArmed
  | some receipt =>
    have hWoke := woke_kept h receipt
    have hFresh := Fresh.woke_new h hPending receipt
    dsimp only
    split_ifs with hRefused
    · refine ⟨hWoke.quiet ⟨hFresh.woke, hFresh.undelivered⟩ (fun _ _ => nofun) rfl ?_, .inl hArmed, hPolling, trivial⟩
      intro wake other hSame
      cases hSame
      exact hFresh.known
    · have hSession : s.session = key := by
        by_contra hOther
        exact hRefused (.inr (.inl hOther))
      rw [← hSession]
      exact ⟨deliver_kept hWoke hFresh, .inl hArmed, hPolling, trivial⟩

theorem finish_polls (s : State) : s.finish.1.polls = s.polls := by
  rw [State.finish]
  dsimp only
  split_ifs <;> rfl

theorem readBatch_polls (s : State) : s.readBatch.1.polls = s.polls := by
  rw [State.readBatch]
  split_ifs
  · exact finish_polls s
  · rfl

theorem afterAck_polls (s : State) (wake : Nat) (response : Option Batch) : (s.afterAck wake response).1.polls = s.polls := by
  cases response with
  | none => exact finish_polls s
  | some batch => exact readBatch_polls _

theorem afterWake_polls (s : State) (key : JsString) (response : Option Batch) : (s.afterWake key response).1.polls = s.polls := by
  rw [State.afterWake]
  cases response.bind Batch.usable with
  | none => exact finish_polls s
  | some receipt =>
    dsimp only
    split_ifs <;> rfl

theorem await_inv {turn : State.Turn} (h : TurnKept turn) (hPolls : turn.1.polls = []) : Inv (State.await turn) := by
  obtain ⟨s, phase⟩ := turn
  obtain ⟨hKept, hTimer, hPhase⟩ := h
  change s.polls = [] at hPolls
  cases phase with
  | none => exact ⟨{ hKept with }, hTimer, .inl ⟨hPhase, by show s.polls ++ [] = []; rw [hPolls]; rfl⟩⟩
  | some phase =>
    obtain ⟨hPolling, hPhase⟩ := hPhase
    refine ⟨{ hKept with }, hTimer, .inr ⟨hPolling, phase, by show s.polls ++ [phase] = _; rw [hPolls]; rfl, ?_⟩⟩
    cases phase <;> exact hPhase

theorem proceed_inv {turn : State.Turn} (h : TurnKept turn) {phase : Phase} (hPolls : turn.1.polls = [phase]) :
    Inv (State.proceed 0 turn) := by
  obtain ⟨s, next⟩ := turn
  obtain ⟨hKept, hTimer, hPhase⟩ := h
  change s.polls = [phase] at hPolls
  have hRest : s.polls.take 0 ++ next.toList ++ s.polls.drop (0 + 1) = next.toList := by
    rw [hPolls]
    exact append_nil _
  cases next with
  | none => exact ⟨{ hKept with }, hTimer, .inl ⟨hPhase, hRest⟩⟩
  | some next =>
    obtain ⟨hPolling, hPhase⟩ := hPhase
    refine ⟨{ hKept with }, hTimer, .inr ⟨hPolling, next, hRest, ?_⟩⟩
    cases next <;> exact hPhase

theorem poll_inv (h : Inv s) (hArmed : s.armed = []) : Inv s.poll := by
  rw [State.poll]
  split_ifs with hBusy
  · exact h
  · rw [Bool.or_eq_true, not_or] at hBusy
    rcases h.polls with ⟨-, hPolls⟩ | ⟨hPolling, -⟩
    · have hKept : Kept { s with polling := true } := { h.kept with }
      dsimp only
      cases hPending : s.pending with
      | none =>
        rw [hPending] at hKept
        exact await_inv (readBatch_kept hKept rfl hArmed rfl) ((readBatch_polls _).trans hPolls)
      | some pending =>
        have hDelivered := h.kept.pending pending hPending
        rw [hPending] at hKept
        by_cases hAccepted : pending.accepted = true
        · simp only [hAccepted, if_true]
          apply await_inv _ hPolls
          refine ⟨hKept.quiet (hDelivered.reported hAccepted) (fun _ _ => nofun) rfl fun _ _ => nofun, .inl hArmed, rfl, ?_⟩
          exact ⟨⟨_, mem_append_right _ mem_cons_self⟩, pending, rfl, rfl⟩
        · simp only [hAccepted]
          exact await_inv (finish_kept hKept hArmed) ((finish_polls _).trans hPolls)
    · exact absurd hPolling hBusy.2

/-! What happens to an inbox. -/

theorem start_inv (h : Inv s) (env : OctoberDesktopBusEnv) : Inv (s.start env) := by
  rw [State.start]
  split_ifs with hRefused
  · exact h
  · have hStopped : s.stopped = true := by
      by_contra hRuns
      exact hRefused (by rw [Bool.eq_false_iff.mpr hRuns]; rfl)
    have hArmed : s.armed = [] := by
      rcases h.timer with hNone | ⟨timer, -, -, hRuns, -⟩
      · exact hNone
      · exact nomatch hStopped.symm.trans hRuns
    have hStarted : Inv { s with stopped := false } := by
      refine ⟨{ h.kept with }, .inl hArmed, h.polls.imp id ?_⟩
      rintro ⟨hPolling, phase, hPolls, hPhase⟩
      exact ⟨hPolling, phase, hPolls, by cases phase <;> exact hPhase⟩
    exact poll_inv hStarted hArmed

theorem stop_inv (h : Inv s) : Inv s.stop where
  kept := { h.kept with }
  timer := by
    left
    show (s.timer.elim s.armed fun timer => s.armed.erase timer) = []
    rcases h.timer with hNone | ⟨timer, hArmed, hTimer, -⟩
    · rw [hNone]
      cases s.timer <;> rfl
    · rw [hTimer, hArmed]
      exact erase_cons_head _ _
  polls := by
    apply h.polls.imp id
    rintro ⟨hPolling, phase, hPolls, hPhase⟩
    exact ⟨hPolling, phase, hPolls, by cases phase <;> exact hPhase⟩

theorem accepted_inv (h : Inv s) (receipt : Option JsString) (key : JsString) : Inv (s.accepted receipt key) := by
  cases receipt with
  | none => exact h
  | some receipt =>
    have hRecorded : Kept (s.record (.accepted receipt key)) := h.kept.quiet trivial (fun _ _ => nofun) rfl fun _ _ => nofun
    have hWake : ∀ pending, s.pending = some pending →
        ∃ marked, (s.accepted (some receipt) key).pending = some marked ∧ marked.wake = pending.wake := by
      intro pending hPending
      show ∃ marked, s.pending.map _ = some marked ∧ _
      rw [hPending]
      refine ⟨_, rfl, ?_⟩
      dsimp only
      split_ifs <;> rfl
    refine ⟨?_, h.timer, h.polls.imp id ?_⟩
    · exact {
        lawful := hRecorded.lawful
        wakes := hRecorded.wakes
        known := hRecorded.known
        declined := hRecorded.declined
        pending := by
          intro marked hMarked
          obtain ⟨pending, hPending, hSame⟩ := map_eq_some_iff.mp hMarked
          obtain ⟨first, later, hLog, hAccepted⟩ := (h.kept.pending pending hPending).delivered
          have hNew : s.log ++ [.accepted receipt key] =
              first ++ .delivered pending.wake pending.receipt pending.key :: (later ++ [.accepted receipt key]) := by
            rw [hLog, append_assoc, cons_append]
          split_ifs at hSame with hReport
          · obtain ⟨rfl, rfl⟩ := hReport
            rw [← hSame]
            exact ⟨first, _, hNew, fun _ => mem_append_right _ mem_cons_self⟩
          · rw [← hSame]
            exact ⟨first, _, hNew, fun hYes => mem_append_left _ (hAccepted hYes)⟩
        settled := by
          intro wake hMem
          rcases hRecorded.settled wake hMem with hAcked | ⟨pending, hPending, hSame⟩
          · exact .inl hAcked
          · obtain ⟨marked, hMarked, hMarkedWake⟩ := hWake pending hPending
            exact .inr ⟨marked, hMarked, hMarkedWake.trans hSame⟩ }
    · rintro ⟨hPolling, phase, hPolls, hPhase⟩
      refine ⟨hPolling, phase, hPolls, ?_⟩
      cases phase with
      | acking wake =>
        obtain ⟨⟨sent, hSent⟩, pending, hPending, hSame⟩ := hPhase
        obtain ⟨marked, hMarked, hMarkedWake⟩ := hWake pending hPending
        exact ⟨⟨sent, mem_append_left _ hSent⟩, marked, hMarked, hMarkedWake.trans hSame⟩
      | waking key =>
        show s.pending.map _ = none
        rw [show s.pending = none from hPhase]
        rfl
      | declining => trivial
      | delivering => trivial

theorem switch_inv (h : Inv s) (session : JsString) (canReceive : Bool) :
    Inv { s with session, canReceive } where
  kept := { h.kept with }
  timer := h.timer
  polls := by
    apply h.polls.imp id
    rintro ⟨hPolling, phase, hPolls, hPhase⟩
    exact ⟨hPolling, phase, hPolls, by cases phase <;> exact hPhase⟩

theorem fire_inv (h : Inv s) {timer : Nat} (hMem : timer ∈ s.armed) :
    Inv (State.poll { s with armed := s.armed.erase timer }) := by
  have hArmed : s.armed.erase timer = [] := by
    rcases h.timer with hNone | ⟨only, hOnly, -⟩
    · rw [hNone]
      rfl
    · rw [hOnly] at hMem ⊢
      rw [mem_singleton.mp hMem]
      exact erase_cons_head _ _
  have hFired : Inv { s with armed := s.armed.erase timer } := by
    refine ⟨{ h.kept with }, .inl hArmed, h.polls.imp id ?_⟩
    rintro ⟨hPolling, phase, hPolls, hPhase⟩
    exact ⟨hPolling, phase, hPolls, by cases phase <;> exact hPhase⟩
  exact poll_inv hFired hArmed

theorem Inv.running (h : Inv s) {index : Nat} {phase : Phase} (hPhase : s.polls[index]? = some phase) :
    index = 0 ∧ s.polls = [phase] ∧ s.polling = true ∧ s.armed = [] ∧ PhaseKept s phase := by
  rcases h.polls with ⟨-, hNone⟩ | ⟨hPolling, only, hOnly, hKept⟩
  · rw [hNone] at hPhase
    exact nomatch hPhase
  · rw [hOnly] at hPhase ⊢
    have hArmed : s.armed = [] := by
      rcases h.timer with hNone | ⟨timer, -, -, -, hIdle⟩
      · exact hNone
      · exact nomatch hPolling.symm.trans hIdle
    cases index with
    | zero =>
      cases hPhase
      exact ⟨rfl, rfl, hPolling, hArmed, hKept⟩
    | succ index => exact nomatch hPhase

theorem step_inv {env : OctoberDesktopBusEnv} {s next : State} {action : Action} (h : Inv s)
    (hStep : step env s action = some next) : Inv next := by
  cases action with
  | start =>
    cases hStep
    exact start_inv h env
  | stop =>
    cases hStep
    exact stop_inv h
  | accepted receipt key =>
    cases hStep
    exact accepted_inv h receipt key
  | switch session canReceive =>
    cases hStep
    exact switch_inv h session canReceive
  | fire timer =>
    rw [step] at hStep
    split_ifs at hStep with hMem
    cases hStep
    exact fire_inv h hMem
  | answer index response =>
    rw [step] at hStep
    split at hStep
    next wake hPhase =>
      cases hStep
      obtain ⟨rfl, hPolls, hPolling, hArmed, hKept⟩ := h.running hPhase
      exact proceed_inv (afterAck_kept h.kept hPolling hArmed hKept response) ((afterAck_polls s wake response).trans hPolls)
    next key hPhase =>
      cases hStep
      obtain ⟨rfl, hPolls, hPolling, hArmed, hKept⟩ := h.running hPhase
      exact proceed_inv (afterWake_kept h.kept hPolling hArmed hKept key response) ((afterWake_polls s key response).trans hPolls)
    next hPhase =>
      cases hStep
      obtain ⟨rfl, hPolls, -, hArmed, -⟩ := h.running hPhase
      exact proceed_inv (finish_kept h.kept hArmed) ((finish_polls s).trans hPolls)
    next => exact nomatch hStep
  | handed index =>
    rw [step] at hStep
    split at hStep
    next hPhase =>
      cases hStep
      obtain ⟨rfl, hPolls, -, hArmed, -⟩ := h.running hPhase
      exact proceed_inv (finish_kept h.kept hArmed) ((finish_polls s).trans hPolls)
    next => exact nomatch hStep

theorem run_inv {env : OctoberDesktopBusEnv} {session : JsString} {canReceive : Bool} {actions : List Action}
    (hRun : Transition.run (step env) (initial session canReceive) actions = some s) : Inv s :=
  @Transition.invariant _ _ (step env) Inv (fun _ => True) (fun _ _ _ _ hStep h => step_inv h hStep) _ _ _
    (fun _ _ => trivial) hRun (inv_initial session canReceive)

/-! What the history says. -/

theorem mem_deliveries : wake ∈ deliveries log ↔ ∃ receipt session, .delivered wake receipt session ∈ log := by
  rw [deliveries, mem_filterMap]
  constructor
  · rintro ⟨event, hMem, hWake⟩
    cases event with
    | delivered other receipt session =>
      obtain rfl := some.inj hWake
      exact ⟨receipt, session, hMem⟩
    | _ => exact nomatch hWake
  · rintro ⟨receipt, session, hMem⟩
    exact ⟨_, hMem, rfl⟩

theorem deliveries_nodup (h : Trace.Lawful Admits log) : (deliveries log).Nodup := by
  induction log using reverseRecOn with
  | nil => exact nodup_nil
  | append_singleton log event ih =>
    have hEvent : Admits log event := h log event [] rfl
    rw [deliveries_snoc]
    cases event with
    | delivered wake receipt session =>
      rw [nodup_append]
      refine ⟨ih h.of_append, nodup_singleton wake, ?_⟩
      rintro earlier hEarlier other hOther rfl
      rw [mem_singleton.mp hOther] at hEarlier
      exact hEvent.2.1 hEarlier
    | _ =>
      show (deliveries log ++ []).Nodup
      rw [append_nil]
      exact ih h.of_append

theorem declined_undelivered (h : Trace.Lawful Admits log)
    (hDeclined : .declineSent wake receipt ∈ log) : wake ∉ deliveries log := by
  induction log using reverseRecOn with
  | nil => exact absurd hDeclined not_mem_nil
  | append_singleton log event ih =>
    have hEvent : Admits log event := h log event [] rfl
    rw [deliveries_snoc, mem_append, not_or]
    rcases mem_append.mp hDeclined with hOld | hNew
    · refine ⟨ih h.of_append hOld, ?_⟩
      intro hDelivered
      cases event with
      | delivered other receipt' session =>
        obtain rfl := mem_singleton.mp hDelivered
        exact hEvent.2.2.1 receipt hOld
      | _ => exact nomatch hDelivered
    · obtain rfl := (mem_singleton.mp hNew).symm
      exact ⟨hEvent.2, not_mem_nil⟩

/-- The receipts of the batches that arrived. -/
def receipts (log : List Event) : List JsString :=
  log.filterMap Event.wokeReceipt

theorem wake_of_receipt (h : (receipts log).Nodup) {first second : Nat}
    (hFirst : .woke first receipt ∈ log) (hSecond : .woke second receipt ∈ log) : first = second := by
  induction log with
  | nil => exact absurd hFirst not_mem_nil
  | cons event rest ih =>
    have hMem : ∀ wake, Event.woke wake receipt ∈ rest → receipt ∈ receipts rest := fun wake hWoke =>
      mem_filterMap.mpr ⟨_, hWoke, rfl⟩
    have hTail : (receipts rest).Nodup := Nodup.sublist ((sublist_cons_self _ _).filterMap _) h
    rcases mem_cons.mp hFirst with hHere | hLater
    · subst hHere
      rcases mem_cons.mp hSecond with hSame | hOther
      · cases hSame
        rfl
      · exact absurd (hMem _ hOther) (nodup_cons.mp h).1
    · rcases mem_cons.mp hSecond with hSame | hOther
      · subst hSame
        exact absurd (hMem _ hLater) (nodup_cons.mp h).1
      · exact ih hTail hLater hOther

theorem woke_of_delivered (h : Trace.Lawful Admits log) {receipt session : JsString}
    (hDelivered : .delivered wake receipt session ∈ log) : .woke wake receipt ∈ log := by
  obtain ⟨before, after, rfl⟩ := append_of_mem hDelivered
  exact mem_append_left _ (h before _ after rfl).1

theorem woke_of_declined (h : Trace.Lawful Admits log)
    (hDeclined : .declineSent wake receipt ∈ log) : .woke wake receipt ∈ log := by
  obtain ⟨before, after, rfl⟩ := append_of_mem hDeclined
  exact mem_append_left _ (h before _ after rfl).1

def deliveredReceipts (log : List Event) : List JsString :=
  log.filterMap Event.deliveredReceipt

theorem mem_deliveredReceipts :
    receipt ∈ deliveredReceipts log ↔ ∃ wake session, .delivered wake receipt session ∈ log := by
  rw [deliveredReceipts, mem_filterMap]
  constructor
  · rintro ⟨event, hMem, hReceipt⟩
    cases event with
    | delivered wake other session =>
      obtain rfl := some.inj hReceipt
      exact ⟨wake, session, hMem⟩
    | _ => exact nomatch hReceipt
  · rintro ⟨wake, session, hMem⟩
    exact ⟨_, hMem, rfl⟩

theorem deliveredReceipts_nodup (h : Trace.Lawful Admits log) (hReceipts : (receipts log).Nodup) :
    (deliveredReceipts log).Nodup := by
  induction log using reverseRecOn with
  | nil => exact nodup_nil
  | append_singleton log event ih =>
    have hEvent : Admits log event := h log event [] rfl
    have hBefore : (receipts log).Nodup := Nodup.sublist ((sublist_append_left _ _).filterMap _) hReceipts
    rw [deliveredReceipts, filterMap_append]
    cases event with
    | delivered wake receipt session =>
      apply (ih h.of_append hBefore).append (nodup_singleton receipt)
      intro other hOther hSame
      obtain rfl := mem_singleton.mp hSame
      obtain ⟨earlier, session', hEarlier⟩ := mem_deliveredReceipts.mp hOther
      have hWake := wake_of_receipt hBefore (woke_of_delivered h.of_append hEarlier) hEvent.1
      exact hEvent.2.1 (mem_deliveries.mpr ⟨_, _, hWake ▸ hEarlier⟩)
    | _ =>
      show (deliveredReceipts log ++ []).Nodup
      rw [append_nil]
      exact ih h.of_append hBefore

/-- An inbox that hands over each batch at most once. -/
structure Orderly (s : State) : Prop where
  /-- No batch is delivered twice. -/
  once : (deliveries s.log).Nodup
  /-- Nothing is delivered before all earlier deliveries are acknowledged. -/
  settled : ∀ before wake receipt session after, s.log = before ++ .delivered wake receipt session :: after →
    ∀ earlier ∈ deliveries before, .acked earlier ∈ before
  /-- An acknowledgement is sent for a delivery that its session reported. -/
  acknowledged : ∀ before wake receipt after, s.log = before ++ .ackSent wake receipt :: after →
    Reported before wake receipt
  /-- What is declined is never delivered. -/
  declined : ∀ wake receipt, .declineSent wake receipt ∈ s.log → wake ∉ deliveries s.log
  /-- Where batches come with distinct receipts, both hold of receipts. -/
  receipts : (receipts s.log).Nodup → (deliveredReceipts s.log).Nodup ∧
    ∀ wake receipt, .declineSent wake receipt ∈ s.log → receipt ∉ deliveredReceipts s.log
  onePoll : s.polls.length ≤ 1
  oneTimer : s.armed.length ≤ 1

end OctoberHarness.Bus.NativeInbox
