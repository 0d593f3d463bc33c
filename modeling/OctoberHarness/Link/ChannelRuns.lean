import OctoberHarness.Link.ChannelOrder

/-! What each event does to a channel, and every run of one. -/
namespace OctoberHarness.Link

open List Bool

variable {B M : Type}

/-- What every call on a channel leaves alone while the link is open, and the
joint close of both once the channel listens for it. -/
structure Keeps (s s' : System B M) : Prop where
  started : s'.started = s.started
  ended : s.link.closed = true → s'.link.closed = true
  link : s'.link.closed = false → s'.link = s.link
  registered : Registered s → Registered s'

namespace Keeps

theorem refl (s : System B M) : Keeps s s :=
  ⟨rfl, id, fun _ => rfl, id⟩

theorem open_before {s s' : System B M} (h : Keeps s s') (hLink : s'.link.closed = false) :
    s.link.closed = false := by
  by_contra hClosed
  rw [not_eq_false] at hClosed
  rw [h.ended hClosed] at hLink
  cases hLink

theorem trans {s t u : System B M} (h : Keeps s t) (h' : Keeps t u) : Keeps s u where
  started := h'.started.trans h.started
  ended hClosed := h'.ended (h.ended hClosed)
  link hLink := (h'.link hLink).trans (h.link (h'.open_before hLink))
  registered hRegistered := h'.registered (h.registered hRegistered)

end Keeps

theorem Frame.keeps {s s' : System B M} (h : Frame s s') : Keeps s s' :=
  ⟨h.started, h.ended, h.link, h.registered⟩

/-- What holds of a channel on an open link, also between the messages it
handles. -/
structure Live (s : System B M) : Prop where
  hello : s.link.listener = true → .hello ∈ s.log
  reported : .reported ∉ s.log
  greeting : ∀ queue, s.channel.state = .greeting queue →
    s.received = [] ∧ s.channel.held = none ∧ .opened ∉ s.log
  opened : ∀ peer calls, s.channel.state = .opened peer calls → .opened ∈ s.log
  pending : s.pending = if s.channel.waiting then 1 else 0
  held : s.channel.waiting = true → s.channel.held.isSome

theorem Live.frame {s s' : System B M} (h : Live s) (hFrame : Frame s s') (hLink : s'.link.closed = false) : Live s' where
  hello hListener := by
    rw [hFrame.link hLink] at hListener
    exact (hFrame.mem_iff (by simp)).mpr (h.hello hListener)
  reported := by
    rw [hFrame.mem_iff (by simp)]
    exact h.reported
  greeting queue' hState := by
    obtain ⟨queue, hBefore⟩ := hFrame.greeting hLink queue' hState
    rw [hFrame.received, hFrame.held hLink, hFrame.mem_iff (by simp)]
    exact h.greeting queue hBefore
  opened peer calls hState := by
    rw [hFrame.mem_iff (by simp)]
    exact h.opened peer calls ((hFrame.opened hLink peer calls).mp hState)
  pending := by
    rw [hFrame.pending, hFrame.waiting]
    exact h.pending
  held := by
    rw [hFrame.waiting, hFrame.held hLink]
    exact h.held

/-- The channel `s'` after it handled a message of `s`, with `rest` behind it. -/
structure Handled (setup : Setup B M) (s s' : System B M) (rest : List B) : Prop where
  inv : Inv setup s' s'.queued rest
  live : s'.link.closed = false → Live s'
  held : s'.link.closed = false → s'.channel.held =
    if s'.channel.waiting then some (s.channel.held.getD []) else s.channel.held
  keeps : Keeps s s'

namespace System

variable (setup : Setup B M)

theorem telling_keeps (s : System B M) (seen : Seen B M) : Keeps s (s.telling seen) :=
  { Keeps.refl s with }

theorem linkSend_keeps (s : System B M) (seen : Seen B M) : Keeps s (linkSend setup s seen) := by
  rcases linkSend_cases setup s seen with ⟨-, hSend⟩ | ⟨-, hSend⟩ | ⟨-, hSend⟩
  · rw [hSend]
    exact Keeps.refl s
  · rw [hSend]
    exact { Keeps.refl s with }
  · rw [hSend]
    exact ((counted_frame s (s.sends + 1) s.calls).trans (ended_frame _)).keeps

variable {s : System B M} {peer : String} {calls : Nat} {bytes : B} {rest : List B}

theorem linkSend_of_open {seen : Seen B M} (hOpen : (linkSend setup s seen).link.closed = false) :
    linkSend setup s seen = note { s with sends := s.sends + 1 } seen := by
  rcases linkSend_cases setup s seen with ⟨hLink, hSend⟩ | ⟨-, hSend⟩ | ⟨-, hSend⟩
  · rw [hSend, hLink] at hOpen
    cases hOpen
  · exact hSend
  · rw [hSend, ended_link] at hOpen
    cases hOpen

theorem failed_keeps (s : System B M) : Keeps s (failed setup s) := by
  by_cases hState : s.channel.state = .closed
  · rw [failed_of_closed setup hState]
    exact Keeps.refl s
  · rw [failed_of_not_closed setup hState]
    exact (telling_keeps s .reported).trans ((tell_frame setup s .reported).trans (ended_frame _)).keeps

theorem failed_link {unsent unhandled : List B} (h : Inv setup s unsent unhandled) : (failed setup s).link.closed = true := by
  by_cases hState : s.channel.state = .closed
  · rw [failed_of_closed setup hState]
    exact h.link_closed hState
  · rw [failed_of_not_closed setup hState]
    exact ended_link _

end System

variable {unhandled unsent queue : List B} {setup : Setup B M} {s s' flushed : System B M}

theorem Inv.failing (h : Inv setup s' s'.queued unhandled) (hKeeps : Keeps s s') (rest : List B) :
    Handled setup s (System.failed setup s') rest := by
  have hLink := System.failed_link setup h
  exact {
    inv := h.failed _ rest
    live := fun hOpen => by rw [hLink] at hOpen; cases hOpen
    held := fun hOpen => by rw [hLink] at hOpen; cases hOpen
    keeps := hKeeps.trans (System.failed_keeps setup s') }

theorem MayHandle.of_live (hLive : Live s) (h : Inv setup s unsent unhandled) (hLink : s.link.closed = false)
    (hState : s.channel.state = .opened peer calls) (hWaiting : s.channel.waiting = false) : MayHandle s.log where
  opened := hLive.opened peer calls hState
  ended := h.not_closed hLink
  closed hMem := by
    rw [← h.closed, hState] at hMem
    cases hMem
  reported := hLive.reported
  settled := by
    have hPending := hLive.pending
    have hBalance := h.balance
    rw [hWaiting] at hPending
    simp only [false_eq_true, if_false] at hPending
    omega

theorem Live.noted (h : Live s) {seen : Seen B M} (hPlain : seen ≠ .reported ∧ seen ≠ .opened) (sends' calls' : Nat) :
    Live { s with log := s.log ++ [seen], sends := sends', calls := calls' } where
  hello hListener := mem_append_left _ (h.hello hListener)
  reported := by simp [h.reported, Ne.symm hPlain.1]
  greeting queue hGreeting := by
    obtain ⟨hReceived, hHeld, hOpened⟩ := h.greeting queue hGreeting
    exact ⟨hReceived, hHeld, by simp [hOpened, Ne.symm hPlain.2]⟩
  opened peer calls hOpened := mem_append_left _ (h.opened peer calls hOpened)
  pending := h.pending
  held := h.held

theorem Inv.messaging (h : Inv setup s s.queued (bytes :: rest)) (hLink : s.link.closed = false) {message : M}
    (hDue : due setup bytes = some (some message)) (hMay : MayHandle s.log) :
    Inv setup (System.tell setup s (.message message))
      (System.tell setup s (.message message)).queued rest := by
  have hAdmits : Admits s.log (.message message) := hMay
  have hNoted : Inv setup (s.telling (.message message)) s.queued rest :=
    (h.noted hAdmits (by simp) (by simp [hLink]) (fun _ => rfl)
      (fun _ => ⟨[bytes], rfl, by simp [hDue, Seen.handled], by simpa using proper_of_due hDue⟩)
      (by simpa [Seen.isSettles, Seen.isWaits] using h.balance)).counted s.sends (s.calls + 1)
  exact hNoted.tell

theorem Inv.holding (h : Inv setup s unsent unhandled) : Inv setup (System.hold s) unsent unhandled := by
  have hAdmits : Admits s.log .waits := trivial
  have hNoted : Inv setup { s with log := s.log ++ [.waits], pending := s.pending + 1 } unsent
      unhandled :=
    h.noted hAdmits (by simp) (fun _ => ⟨rfl, rfl⟩) (fun _ => rfl) (fun _ => ⟨[], rfl, rfl, by simp⟩)
      (by simpa [Seen.isSettles, Seen.isWaits, ← Nat.add_assoc] using h.balance)
  exact { hNoted with }

theorem Live.holding (h : Live s) (hWaiting : s.channel.waiting = false) (hState : s.channel.state = .opened peer calls) :
    Live (System.hold s) where
  hello hListener := mem_append_left _ (h.hello hListener)
  reported := by simp [System.hold, System.note, h.reported]
  greeting queue hGreeting := nomatch hState.symm.trans hGreeting
  opened peer' calls' hOpened := mem_append_left _ (h.opened peer' calls' hOpened)
  pending := by
    have hPending := h.pending
    rw [hWaiting] at hPending
    simpa [System.hold, System.note] using hPending
  held _ := rfl

theorem handle_open (h : Inv setup s s.queued (bytes :: rest)) (hLive : Live s) (hLink : s.link.closed = false)
    (hState : s.channel.state = .opened peer calls) (hWaiting : s.channel.waiting = false) :
    Handled setup s (System.handle setup s bytes) rest := by
  have hMay := MayHandle.of_live hLive h hLink hState hWaiting
  have hHeld (s' : System B M) (hFrame : Frame s s') (hOpen : s'.link.closed = false) :
      s'.channel.held =
        if s'.channel.waiting then some (s.channel.held.getD []) else s.channel.held := by
    rw [hFrame.waiting, hWaiting, hFrame.held hOpen]
    rfl
  rw [System.handle]
  simp only [hState]
  cases hDecode : System.decode setup bytes with
  | none => exact h.failing (Keeps.refl s) rest
  | some message =>
    cases message with
    | hello _ _ _ => exact h.failing (Keeps.refl s) rest
    | ping =>
      have hDue : due setup bytes = some none := by rw [due, hDecode]
      exact {
        inv := (h.linkSend_pong hDue fun _ => hMay).requeue fun hOpen => by
          rw [System.linkSend_of_open setup hOpen]
          rfl
        live := fun hOpen => by
          rw [System.linkSend_of_open setup hOpen]
          exact hLive.noted (by simp) (s.sends + 1) s.calls
        held := fun hOpen => by
          rw [System.linkSend_of_open setup hOpen]
          exact hHeld s (Frame.refl s) hLink
        keeps := System.linkSend_keeps setup s .pong }
    | pong =>
      have hDue : due setup bytes = none := by rw [due, hDecode]
      obtain ⟨done, _, hReceived, hHandled, hProper, hRest⟩ := h.handled
      rw [hRest hLink] at hReceived
      exact {
        inv := { h with
          handled := ⟨done ++ [bytes], rest, by simp [hReceived], by simp [hHandled, hDue],
            by
              intro other hMem
              rcases List.mem_append.mp hMem with hMem | hMem
              · exact hProper other hMem
              · rw [List.mem_singleton.mp hMem]
                exact ⟨_, hDecode, by simp⟩, fun _ => rfl⟩ }
        live := fun _ => hLive
        held := hHeld s (Frame.refl s)
        keeps := Keeps.refl s }
    | other message =>
      have hDue : due setup bytes = some (some message) := by rw [due, hDecode]
      have hTold := h.messaging hLink hDue hMay
      have hTelling : Live (s.telling (.message message)) :=
        hLive.noted (by simp) s.sends (s.calls + 1)
      have hFrame := System.tell_frame setup s (.message message)
      have hKeeps : Keeps s (System.tell setup s (.message message)) :=
        (System.telling_keeps s _).trans hFrame.keeps
      simp only
      cases System.answer setup s with
      | returns =>
        exact {
          inv := hTold
          live := fun hOpen => hTelling.frame hFrame hOpen
          held := fun hOpen => by
            rw [hFrame.waiting, hFrame.held hOpen]
            show s.channel.held = if s.channel.waiting then _ else s.channel.held
            rw [hWaiting]
            rfl
          keeps := hKeeps }
      | throws => exact hTold.failing hKeeps rest
      | waits =>
        exact {
          inv := hTold.holding
          live := fun hOpen => (hTelling.frame hFrame hOpen).holding
            (hFrame.waiting.trans hWaiting) ((hFrame.opened hOpen peer calls).mpr hState)
          held := fun hOpen => by
            show some ((System.tell setup s (.message message)).channel.held.getD []) = _
            rw [hFrame.held hOpen]
            rfl
          keeps := hKeeps.trans { Keeps.refl _ with } }

/-- The state of a channel that sends what waited for the peer's `hello`. -/
def System.greeting (s : System B M) (peer : String) (calls : Nat) : System B M :=
  System.note (System.setState s (.opened peer calls)) (.greeted peer calls)

theorem Inv.greeting_open (h : Inv setup s unsent unhandled) (hState : s.channel.state = .greeting queue)
    (hLink : s.link.closed = false) (hHello : .hello ∈ s.log) (hReceived : s.received = [bytes])
    (hValid : ValidHello setup bytes peer calls) :
    Inv setup (s.greeting peer calls) unsent unhandled := by
  have hNone := h.greeting queue hState
  obtain ⟨sent, hSent, hSentRest⟩ := h.sent
  obtain ⟨done, rest, hDrop, hHandled, hProper, hRest⟩ := h.handled
  have hAdmits : Admits s.log (.greeted peer calls) := ⟨hHello, hNone, h.not_closed hLink⟩
  exact {
    lawful := h.lawful.snoc hAdmits
    ended := by simp [System.greeting, System.note, System.setState, h.ended]
    closed := by
      have hClosed := h.closed
      simp only [hState, reduceCtorEq, false_iff] at hClosed
      simp [System.greeting, System.note, System.setState, hClosed]
    greeting := by simp [System.greeting, System.note, System.setState]
    opened := fun _ _ _ => ⟨mem_append_left _ hHello, peer, calls, by
      simp [System.greeting, System.note]⟩
    sent := ⟨sent, by simpa [System.greeting, System.note, System.setState, Seen.sentBytes] using hSent,
      hSentRest⟩
    handled := ⟨done, rest, hDrop, by
      simpa [System.greeting, System.note, System.setState, Seen.handled] using hHandled, hProper, hRest⟩
    balance := by
      simpa [System.greeting, System.note, System.setState, Seen.isSettles, Seen.isWaits] using h.balance
    greeted := by
      intro peer' calls' hMem
      rcases List.mem_append.mp hMem with hMem | hMem
      · exact absurd ⟨peer', calls', hMem⟩ hNone
      · obtain ⟨rfl, rfl⟩ := Seen.greeted.inj (List.mem_singleton.mp hMem)
        exact ⟨bytes, by simp [System.greeting, System.note, System.setState, hReceived], hValid⟩ }

theorem Inv.flush (queue : List B) (h : Inv setup s queue unhandled)
    (hState : s.link.closed = false → s.channel.state = .opened peer calls) :
    Inv setup (queue.foldl (fun s bytes => System.linkSend setup s (.sent bytes)) s) [] unhandled ∧
      Frame s (queue.foldl (fun s bytes => System.linkSend setup s (.sent bytes)) s) := by
  induction queue generalizing s with
  | nil => exact ⟨h, Frame.refl s⟩
  | cons bytes queue ih =>
    have hFrame := System.linkSend_sent_frame setup s bytes
    obtain ⟨hInv, hRest⟩ := ih (h.linkSend_sent hState) fun hLink =>
      (hFrame.opened hLink peer calls).mpr (hState (hFrame.open_before hLink))
    exact ⟨hInv, hFrame.trans hRest⟩

/-- A channel on which the first message arrived. -/
structure Greetable (s : System B M) (bytes : B) : Prop where
  hello : .hello ∈ s.log
  reported : .reported ∉ s.log
  opened : .opened ∉ s.log
  received : s.received = [bytes]
  held : s.channel.held = none
  waiting : s.channel.waiting = false
  pending : s.pending = 0

theorem Greetable.live (h : Greetable s bytes) (hFrame : Frame (s.greeting peer calls) flushed)
    (hOpen : flushed.link.closed = false) : Live (flushed.telling .opened) := by
  have hState : flushed.channel.state = .opened peer calls :=
    (hFrame.opened hOpen peer calls).mpr rfl
  have hWaiting : flushed.channel.waiting = false := hFrame.waiting.trans h.waiting
  have hHello : .hello ∈ flushed.log :=
    (hFrame.mem_iff (by simp)).mpr (mem_append_left _ h.hello)
  have hReported : .reported ∉ flushed.log := by
    rw [hFrame.mem_iff (by simp)]
    simpa [System.greeting, System.note, System.setState] using h.reported
  exact {
    hello := fun _ => mem_append_left _ hHello
    reported := by simpa [System.telling, System.note] using hReported
    greeting := fun queue hGreeting => by cases hState.symm.trans hGreeting
    opened := fun _ _ _ => by simp [System.telling, System.note]
    pending := by
      show flushed.pending = if flushed.channel.waiting then 1 else 0
      rw [hWaiting, hFrame.pending]
      exact h.pending
    held := fun hTrue => by
      rw [show (flushed.telling .opened).channel.waiting = flushed.channel.waiting from rfl,
        hWaiting] at hTrue
      cases hTrue }

theorem Greetable.opening (h : Greetable s bytes) (hFrame : Frame (s.greeting peer calls) flushed)
    (hInv : Inv setup flushed [] []) :
    Inv setup (System.tell setup flushed .opened) (System.tell setup flushed .opened).queued [] := by
  have hGreeted : Greeted flushed.log :=
    ⟨peer, calls, (hFrame.mem_iff (by simp)).mpr (by simp [System.greeting, System.note])⟩
  have hOpened : .opened ∉ flushed.log := by
    rw [hFrame.mem_iff (by simp)]
    simpa [System.greeting, System.note, System.setState] using h.opened
  have hAdmits : Admits flushed.log .opened := ⟨hGreeted, hOpened⟩
  have hNoted : Inv setup (flushed.telling .opened) [] [] :=
    (hInv.noted hAdmits (by simp) (fun _ => ⟨rfl, rfl⟩) (fun _ => rfl) (fun _ => ⟨[], rfl, rfl, by simp⟩)
      (by simpa [Seen.isSettles, Seen.isWaits] using hInv.balance)).counted _ (flushed.calls + 1)
  have hQueue : flushed.link.closed = false → flushed.queued = [] := fun hOpen =>
    System.queued_of_frame hFrame rfl hOpen
  exact (hNoted.requeue hQueue).tell

/-- The end of the handshake, once everything that waited is out. -/
theorem Greetable.greeted (h : Greetable s bytes) (hLink : s.link.closed = false)
    (hFrame : Frame (s.greeting peer calls) flushed) (hInv : Inv setup flushed [] []) :
    Handled setup s
      (if System.answer setup flushed = .throws then
        System.failed setup (System.tell setup flushed .opened)
      else System.tell setup flushed .opened) [] := by
  have hOpening := h.opening hFrame hInv
  have hTell := System.tell_frame setup flushed .opened
  have hGreeting : Keeps s (s.greeting peer calls) := by
    refine { Keeps.refl s with registered := ?_ }
    rintro (hOpen | ⟨hClosed, -⟩)
    · exact .inl hOpen
    · rw [hLink] at hClosed
      cases hClosed
  have hKeeps : Keeps s (System.tell setup flushed .opened) :=
    ((hGreeting.trans hFrame.keeps).trans (System.telling_keeps flushed _)).trans hTell.keeps
  split_ifs
  · exact hOpening.failing hKeeps []
  · exact {
      inv := hOpening
      live := fun hOpen => (h.live hFrame (hTell.open_before hOpen)).frame hTell hOpen
      held := fun hOpen => by
        have hBefore := hTell.open_before hOpen
        rw [hTell.held hOpen, hTell.waiting]
        show flushed.channel.held = if flushed.channel.waiting then _ else _
        rw [hFrame.held hBefore, hFrame.waiting]
        show s.channel.held = if s.channel.waiting then _ else _
        rw [h.waiting]
        rfl
      keeps := hKeeps }

theorem handle_greeting
    (h : Inv setup s s.queued []) (hGreetable : Greetable s bytes) (hLink : s.link.closed = false) (hState : s.channel.state = .greeting queue) :
    Handled setup s (System.handle setup s bytes) [] := by
  rw [System.handle]
  simp only [hState, System.greet]
  have hFail : Handled setup s (System.failed setup s) [] := h.failing (Keeps.refl s) []
  split
  next protocol peer calls hDecode =>
    by_cases hVersion : protocol = PROTOCOL_VERSION
    · subst hVersion
      rw [if_neg (by simp)]
      rw [System.queued_greeting hState] at h
      have hOpen := h.greeting_open hState hLink hGreetable.hello hGreetable.received hDecode
      obtain ⟨hFlushed, hFrame⟩ := hOpen.flush queue fun _ => rfl
      exact hGreetable.greeted hLink hFrame hFlushed
    · rw [if_pos hVersion]
      exact hFail
  next => exact hFail

/-! Between the events. -/

/-- The messages received and not handled yet. -/
def System.toHandle (s : System B M) : List B :=
  s.channel.held.getD []

/-- A channel at rest: what it holds waits for a promise of its owner. -/
structure Stable (setup : Setup B M) (s : System B M) : Prop where
  inv : Inv setup s s.queued s.toHandle
  live : s.link.closed = false → Live s
  idle : s.link.closed = false → s.channel.waiting = false → s.channel.held = none

theorem Stable.of_ended (h : Inv setup s unsent unhandled) (hLink : s.link.closed = true) : Stable setup s where
  inv := h.of_ended hLink _ _
  live hOpen := by rw [hLink] at hOpen; cases hOpen
  idle hOpen := by rw [hLink] at hOpen; cases hOpen

/-- An open channel holds messages while it drains them. -/
structure Draining (setup : Setup B M) (s : System B M) (queue : List B) : Prop where
  inv : Inv setup s s.queued queue
  live : s.link.closed = false → Live s
  held : s.link.closed = false → s.channel.waiting = false ∧ s.channel.held = some queue
  registered : Registered s

theorem Draining.handle (h : Draining setup s (bytes :: rest)) (hState : s.channel.state = .opened peer calls) :
    Handled setup (s.setHeld (some rest)) (System.handle setup (s.setHeld (some rest)) bytes)
      rest := by
  have hOpen : s.link.closed = false := by
    rcases h.registered with ⟨hOpen, -⟩ | ⟨-, hClosed⟩
    · exact hOpen
    · rw [hState] at hClosed
      cases hClosed
  have hLive := h.live hOpen
  have hLater : Live (s.setHeld (some rest)) := { hLive with
    greeting := fun queue hGreeting => nomatch hState.symm.trans hGreeting
    held := fun _ => rfl }
  have hInv : Inv setup (s.setHeld (some rest)) (s.setHeld (some rest)).queued (bytes :: rest) :=
    { h.inv with }
  exact handle_open hInv hLater hOpen hState (h.held hOpen).1

theorem Handled.stable (h : Handled setup (s.setHeld (some rest)) s' rest) (hWaiting : s'.channel.waiting = true)
    : Stable setup s' where
  inv := by
    cases hLink : s'.link.closed with
    | true => exact h.inv.of_ended hLink _ _
    | false =>
      have hHeld : s'.toHandle = rest := by
        rw [System.toHandle, h.held hLink, hWaiting]
        rfl
      rw [hHeld]
      exact h.inv
  live := h.live
  idle _ hIdle := by
    rw [hWaiting] at hIdle
    cases hIdle

theorem Draining.drain (queue : List B) (h : Draining setup s queue) :
    Stable setup (System.drain setup queue s) ∧ Keeps s (System.drain setup queue s) := by
  induction queue generalizing s with
  | nil =>
    refine ⟨⟨{ h.inv with }, fun hOpen => ?_, fun _ _ => rfl⟩, { Keeps.refl s with }⟩
    have hLive := h.live hOpen
    exact { hLive with
      greeting := fun queue hState => ⟨(hLive.greeting queue hState).1, rfl,
        (hLive.greeting queue hState).2.2⟩
      held := fun hWaiting => by
        rw [show (System.drain setup [] s).channel.waiting = s.channel.waiting from rfl,
          (h.held hOpen).1] at hWaiting
        cases hWaiting }
  | cons bytes rest ih =>
    rw [System.drain]
    cases hState : s.channel.state with
    | greeting queue =>
      rcases h.registered with ⟨hOpen, -⟩ | ⟨-, hClosed⟩
      · have hNone := ((h.live hOpen).greeting queue hState).2.1
        rw [(h.held hOpen).2] at hNone
        cases hNone
      · rw [hState] at hClosed
        cases hClosed
    | closed => exact ⟨Stable.of_ended h.inv (h.inv.link_closed hState), Keeps.refl s⟩
    | opened peer calls =>
      have hHandled := h.handle hState
      have hBefore : Keeps s (s.setHeld (some rest)) := { Keeps.refl s with }
      simp only
      split_ifs with hWaiting
      · exact ⟨hHandled.stable hWaiting, hBefore.trans hHandled.keeps⟩
      · rw [not_eq_true] at hWaiting
        obtain ⟨hStable, hKeeps⟩ := ih {
          inv := hHandled.inv
          live := hHandled.live
          held := fun hOpen => ⟨hWaiting, by rw [hHandled.held hOpen, hWaiting]; rfl⟩
          registered := hHandled.keeps.registered h.registered }
        exact ⟨hStable, (hBefore.trans hHandled.keeps).trans hKeeps⟩

theorem Inv.receiving (h : Inv setup s unsent unhandled) (hState : s.channel.state = .opened peer calls) (bytes : B) :
    Inv setup { s with received := s.received ++ [bytes] } unsent (unhandled ++ [bytes]) := by
  obtain ⟨done, rest, hDrop, hHandled, hProper, hRest⟩ := h.handled
  obtain ⟨_, greeted, hGreeted⟩ := (h.opened peer calls hState).2
  obtain ⟨first, hFirst, -⟩ := h.greeted _ greeted hGreeted
  obtain ⟨later, hReceived⟩ : ∃ later, s.received = first :: later := by
    cases hList : s.received with
    | nil => simp [hList] at hFirst
    | cons head later => exact ⟨later, by simpa [hList] using hFirst⟩
  rw [hReceived, drop_succ_cons, drop_zero] at hDrop
  exact { h with
    handled := ⟨done, rest ++ [bytes], by simp [hReceived, hDrop], hHandled, hProper, fun hOpen => by
      rw [hRest hOpen]⟩
    greeted := fun peer calls hMem => by
      obtain ⟨hello, hHead, hValid⟩ := h.greeted peer calls hMem
      exact ⟨hello, by simp [hReceived] at hHead ⊢; exact hHead, hValid⟩ }

theorem Handled.stable_of_none (h : Handled setup s s' []) (hHeld : s.channel.held = none) : Stable setup s' where
  inv := by
    cases hLink : s'.link.closed with
    | true => exact h.inv.of_ended hLink _ _
    | false =>
      have hNone : s'.toHandle = [] := by
        rw [System.toHandle, h.held hLink, hHeld]
        split_ifs <;> rfl
      rw [hNone]
      exact h.inv
  live := h.live
  idle hOpen hWaiting := by
    rw [h.held hOpen, hWaiting]
    exact hHeld

theorem Stable.receive (h : Stable setup s)
    (hOpen : s.link.closed = false) (hListener : s.link.listener = true) (now : Int) (bytes : B) :
    Stable setup (System.receive setup now s bytes) ∧ Keeps s (System.receive setup now s bytes) := by
  have hLive := h.live hOpen
  have hKeeps : Keeps s (s.receiving now bytes) := { Keeps.refl s with }
  rw [System.receive]
  cases hState : s.channel.state with
  | closed => exact ⟨h, Keeps.refl s⟩
  | greeting queue =>
    obtain ⟨hReceived, hHeld, hNotOpened⟩ := hLive.greeting queue hState
    have hWaiting : s.channel.waiting = false := by
      by_contra hWaiting
      have hSome := hLive.held (not_eq_false _ ▸ hWaiting)
      rw [hHeld] at hSome
      cases hSome
    have hPending : s.pending = 0 := by
      rw [hLive.pending, hWaiting]
      rfl
    have hInv : Inv setup (s.receiving now bytes) (s.receiving now bytes).queued [] := by
      have hEmpty := h.inv
      rw [System.toHandle, hHeld] at hEmpty
      obtain ⟨done, rest, hDrop, hHandled, hProper, hRest⟩ := hEmpty.handled
      exact { hEmpty with
        handled := ⟨done, rest, by simpa [System.receiving, hReceived] using hDrop, hHandled, hProper,
          hRest⟩
        greeted := fun peer calls hMem =>
          absurd ⟨peer, calls, hMem⟩ (h.inv.greeting queue hState) }
    have hGreetable : Greetable (s.receiving now bytes) bytes := {
      hello := hLive.hello hListener
      reported := hLive.reported
      opened := hNotOpened
      received := by simp [System.receiving, hReceived]
      held := hHeld
      waiting := hWaiting
      pending := hPending }
    have hHandled := handle_greeting hInv hGreetable hOpen hState
    simp only [hHeld]
    exact ⟨hHandled.stable_of_none hHeld, hKeeps.trans hHandled.keeps⟩
  | opened peer calls =>
    have hInv := h.inv.receiving hState bytes
    cases hHeld : s.channel.held with
    | none =>
      have hWaiting : s.channel.waiting = false := by
        by_contra hWaiting
        have hSome := hLive.held (not_eq_false _ ▸ hWaiting)
        rw [hHeld] at hSome
        cases hSome
      rw [System.toHandle, hHeld] at hInv
      have hReceiving : Inv setup (s.receiving now bytes) (s.receiving now bytes).queued [bytes] :=
        { hInv with }
      have hHandled := handle_open hReceiving (s := s.receiving now bytes) { hLive with
        greeting := fun queue hGreeting => nomatch hState.symm.trans hGreeting } hOpen hState hWaiting
      simp only
      exact ⟨hHandled.stable_of_none hHeld, hKeeps.trans hHandled.keeps⟩
    | some queue =>
      rw [System.toHandle, hHeld] at hInv
      simp only
      refine ⟨⟨{ hInv with }, fun _ => { hLive with
        greeting := fun queue hGreeting => nomatch hState.symm.trans hGreeting
        held := fun _ => rfl }, fun _ hWaiting => ?_⟩, { Keeps.refl s with }⟩
      have hNone := h.idle hOpen hWaiting
      rw [hHeld] at hNone
      cases hNone

theorem Stable.deliverQueued (now : Int) (queue : List B)
    (h : Stable setup s) (hListener : s.link.closed = false → s.link.listener = true) :
    Stable setup (System.deliverQueued setup now queue s) ∧
      Keeps s (System.deliverQueued setup now queue s) := by
  induction queue generalizing s with
  | nil => exact ⟨h, Keeps.refl s⟩
  | cons bytes rest ih =>
    rw [System.deliverQueued]
    split_ifs with hLink
    · exact ⟨h, Keeps.refl s⟩
    · rw [not_eq_true] at hLink
      obtain ⟨hStable, hKeeps⟩ := h.receive hLink (hListener hLink) now bytes
      obtain ⟨hRest, hLater⟩ := ih hStable fun hOpen => by
        rw [hKeeps.link hOpen]
        exact hListener hLink
      exact ⟨hRest, hKeeps.trans hLater⟩

/-- A channel before it is started. -/
structure Unstarted (s : System B M) : Prop where
  state : ∃ queue, s.channel.state = .greeting queue
  held : s.channel.held = none
  waiting : s.channel.waiting = false
  listener : s.link.listener = false
  closeListener : s.link.closeListener = false
  received : s.received = []
  pending : s.pending = 0
  quiet : ∀ seen ∈ s.log, seen = .ended

/-- A started channel on an open link has all that arrived. -/
def Listening (s : System B M) : Prop :=
  s.link.closed = false → s.link.listener = true ∧ s.link.queued = []

/-- A channel between two events. -/
structure Resting (setup : Setup B M) (s : System B M) : Prop where
  stable : Stable setup s
  started : s.started = true → Registered s ∧ Listening s
  unstarted : s.started = false → Unstarted s

theorem Resting.fresh (setup : Setup B M) (made : Int) : Resting setup (System.fresh made : System B M) := by
  have hInv : Inv setup (System.fresh made : System B M) [] [] := {
    lawful := Trace.lawful_nil Admits
    ended := by simp [System.fresh]
    closed := by simp [System.fresh]
    greeting := by simp [System.fresh, Greeted]
    opened := by simp [System.fresh]
    sent := ⟨[], by simp [System.fresh, sentOf], fun _ => rfl⟩
    handled := ⟨[], [], rfl, by simp [System.fresh, handledOf], by simp, fun _ => rfl⟩
    balance := rfl
    greeted := by simp [System.fresh] }
  refine ⟨⟨hInv, fun _ => ?_, fun _ _ => rfl⟩, by simp [System.fresh], fun _ => ?_⟩
  · exact ⟨by simp [System.fresh], by simp [System.fresh], by simp [System.fresh],
      by simp [System.fresh], rfl, by simp [System.fresh]⟩
  · exact ⟨⟨[], rfl⟩, rfl, rfl, rfl, rfl, rfl, rfl, by simp [System.fresh]⟩

theorem Stable.frame (h : Stable setup s)
    (hInv : Inv setup s' s'.queued s.toHandle) (hFrame : Frame s s') : Stable setup s' where
  inv := by
    cases hLink : s'.link.closed with
    | true => exact hInv.of_ended hLink _ _
    | false =>
      rw [System.toHandle, hFrame.held hLink]
      exact hInv
  live hOpen := (h.live (hFrame.open_before hOpen)).frame hFrame hOpen
  idle hOpen hWaiting := by
    rw [hFrame.held hOpen]
    exact h.idle (hFrame.open_before hOpen) (hFrame.waiting.symm.trans hWaiting)

theorem Listening.keeps (h : Listening s) (hKeeps : Keeps s s') : Listening s' := by
  intro hOpen
  rw [hKeeps.link hOpen]
  exact h (hKeeps.open_before hOpen)

theorem Resting.of_started (h : Resting setup s)
    (hStarted : s.started = true) (hStable : Stable setup s') (hKeeps : Keeps s s') :
    Resting setup s' where
  stable := hStable
  started _ := ⟨hKeeps.registered (h.started hStarted).1, (h.started hStarted).2.keeps hKeeps⟩
  unstarted hFresh := by
    rw [hKeeps.started, hStarted] at hFresh
    cases hFresh

theorem Unstarted.ended (h : Unstarted s) : Unstarted (System.ended s) := by
  cases hLink : s.link.closed with
  | true =>
    rw [System.ended_of_closed hLink]
    exact h
  | false =>
    rw [System.ended_of_open hLink, h.closeListener]
    exact { h with
      listener := rfl
      closeListener := rfl
      quiet := fun seen hMem => (List.mem_append.mp hMem).elim (h.quiet seen) (by simp) }

theorem Unstarted.send (h : Unstarted s) (message : ChannelMessage M) : Unstarted (System.send setup s message) := by
  obtain ⟨queue, hState⟩ := h.state
  rw [System.send, hState]
  cases setup.codec.encode message with
  | none => exact h
  | some bytes => exact { h with state := ⟨queue ++ [bytes], rfl⟩ }

theorem Resting.ended (h : Resting setup s) : Resting setup (System.ended s) := by
  have hStable := h.stable.frame (h.stable.inv.ending _ _) (System.ended_frame s)
  cases hStarted : s.started with
  | true => exact h.of_started hStarted hStable (System.ended_frame s).keeps
  | false =>
    exact ⟨hStable, fun hTrue => by simp [(System.ended_frame s).started, hStarted] at hTrue,
      fun _ => (h.unstarted hStarted).ended⟩

theorem Resting.send (h : Resting setup s) (message : ChannelMessage M) : Resting setup (System.send setup s message) := by
  have hFrame := System.send_frame setup s message
  have hStable := h.stable.frame (h.stable.inv.send message) hFrame
  cases hStarted : s.started with
  | true => exact h.of_started hStarted hStable hFrame.keeps
  | false =>
    exact ⟨hStable, fun hTrue => by simp [hFrame.started, hStarted] at hTrue,
      fun _ => (h.unstarted hStarted).send message⟩

theorem Resting.deliver (h : Resting setup s) (now : Int) (bytes : B) : Resting setup (System.deliver setup now s bytes) := by
  rw [System.deliver]
  split_ifs with hLink hListener
  · exact h
  · rw [not_eq_true] at hLink
    cases hStarted : s.started with
    | true =>
      obtain ⟨hStable, hKeeps⟩ := h.stable.receive hLink hListener now bytes
      exact h.of_started hStarted hStable hKeeps
    | false =>
      rw [(h.unstarted hStarted).listener] at hListener
      cases hListener
  · rw [not_eq_true] at hLink
    refine ⟨{ h.stable with inv := { h.stable.inv with }, live := fun hOpen => { h.stable.live hOpen with } }, fun hStarted => ?_, fun hFresh => { h.unstarted hFresh with }⟩
    exact absurd ((h.started hStarted).2 hLink).1 hListener

theorem Inv.settling (h : Inv setup s unsent unhandled) (hPending : s.pending ≠ 0) :
    Inv setup s.settling unsent unhandled := by
  have hBalance := h.balance
  have hAdmits : Admits s.log .settles := by
    show s.log.countP Seen.isSettles < s.log.countP Seen.isWaits
    omega
  refine h.noted hAdmits (by simp) (fun _ => ⟨rfl, rfl⟩) (fun _ => rfl)
    (fun _ => ⟨[], rfl, rfl, by simp⟩) ?_
  simp only [Seen.isSettles, Seen.isWaits, if_true, false_eq_true, if_false]
  omega

theorem Resting.started_of_pending (h : Resting setup s) (hPending : s.pending ≠ 0) : s.started = true := by
  by_contra hFresh
  exact hPending (h.unstarted (not_eq_true _ ▸ hFresh)).pending

theorem Stable.waiting (h : Stable setup s) (hPending : s.pending ≠ 0) (hOpen : s.link.closed = false) :
    s.channel.waiting = true ∧ s.pending = 1 := by
  have hLive := (h.live hOpen).pending
  cases hWaiting : s.channel.waiting with
  | true =>
    rw [hWaiting] at hLive
    exact ⟨rfl, hLive⟩
  | false =>
    rw [hWaiting] at hLive
    exact absurd hLive hPending

theorem Resting.draining (h : Resting setup s) (hPending : s.pending ≠ 0) (hHeld : s.channel.held = some queue) :
    Draining setup s.settling.stopWaiting queue where
  inv := by
    have hInv := h.stable.inv.settling hPending
    rw [System.toHandle, hHeld] at hInv
    exact { hInv with }
  live hOpen := by
    have hLive := h.stable.live hOpen
    obtain ⟨hWaiting, hOne⟩ := h.stable.waiting hPending hOpen
    exact {
      hello := fun hListener => mem_append_left _ (hLive.hello hListener)
      reported := by simpa [System.stopWaiting, System.settling, System.note] using hLive.reported
      greeting := fun queue hGreeting => by
        have hNone := (hLive.greeting queue hGreeting).2.1
        rw [hHeld] at hNone
        cases hNone
      opened := fun peer calls hOpened => mem_append_left _ (hLive.opened peer calls hOpened)
      pending := by
        show s.pending - 1 = 0
        omega
      held := fun hTrue => by cases hTrue }
  held _ := ⟨rfl, hHeld⟩
  registered := (h.started (h.started_of_pending hPending)).1

theorem Resting.resolved (h : Resting setup s) (hPending : s.pending ≠ 0) :
    Resting setup (System.release setup s.settling.stopWaiting) := by
  have hStarted := h.started_of_pending hPending
  have hKeeps : Keeps s s.settling.stopWaiting := { Keeps.refl s with }
  have hHeldSame : s.settling.stopWaiting.channel.held = s.channel.held := rfl
  rw [System.release, hHeldSame]
  cases hHeld : s.channel.held with
  | none =>
    have hClosed : s.link.closed = true := by
      by_contra hOpen
      rw [not_eq_true] at hOpen
      have hSome := (h.stable.live hOpen).held (h.stable.waiting hPending hOpen).1
      rw [hHeld] at hSome
      cases hSome
    have hInv : Inv setup s.settling.stopWaiting s.queued s.toHandle :=
      { h.stable.inv.settling hPending with }
    exact h.of_started hStarted (Stable.of_ended hInv hClosed) hKeeps
  | some queue =>
    obtain ⟨hStable, hDrain⟩ := (h.draining hPending hHeld).drain
    exact h.of_started hStarted hStable (hKeeps.trans hDrain)

theorem Resting.settle (h : Resting setup s) (resolved : Bool) : Resting setup (System.settle setup s resolved) := by
  by_cases hPending : s.pending = 0
  · rw [System.settle, if_pos hPending]
    exact h
  · rw [System.settle, if_neg hPending]
    cases resolved with
    | true => exact h.resolved hPending
    | false =>
      have hInv := h.stable.inv.settling hPending
      have hKeeps : Keeps s s.settling := { Keeps.refl s with }
      have hFailed := hInv.failed [] []
      exact h.of_started (h.started_of_pending hPending)
        (Stable.of_ended hFailed (System.failed_link setup hInv))
        (hKeeps.trans (System.failed_keeps setup _))

theorem Stable.linkSend (h : Stable setup s) {seen : Seen B M} (hPlain : seen ≠ .reported ∧ seen ≠ .opened)
    (hInv : Inv setup (System.linkSend setup s seen) s.queued s.toHandle) :
    Stable setup (System.linkSend setup s seen) := by
  cases hLink : (System.linkSend setup s seen).link.closed with
  | true => exact Stable.of_ended hInv hLink
  | false =>
    have hBefore := (System.linkSend_keeps setup s seen).open_before hLink
    rw [System.linkSend_of_open setup hLink] at hInv ⊢
    exact ⟨hInv, fun _ => (h.live hBefore).noted hPlain (s.sends + 1) s.calls,
      fun _ => h.idle hBefore⟩

theorem Resting.tick (h : Resting setup s) (now ping close : Int) : Resting setup (System.tick setup s now ping close) := by
  rw [System.tick]
  by_cases hClose : close ≤ now - s.channel.lastReceived
  · rw [if_pos hClose]
    exact h.ended
  · rw [if_neg hClose]
    cases hState : s.channel.state with
    | greeting queue => exact h
    | closed => exact h
    | opened peer calls =>
      simp only
      split_ifs with hPing
      · have hStarted : s.started = true := by
          by_contra hFresh
          obtain ⟨queue, hGreeting⟩ := (h.unstarted (not_eq_true _ ▸ hFresh)).state
          exact nomatch hState.symm.trans hGreeting
        have hStable : Stable setup s.pinging :=
          ⟨{ h.stable.inv with }, fun hOpen => { h.stable.live hOpen with }, h.stable.idle⟩
        have hKeeps : Keeps s s.pinging := { Keeps.refl s with }
        have hInv := hStable.inv.linkSend_ping hState
        exact h.of_started hStarted (hStable.linkSend (by simp) hInv)
          (hKeeps.trans (System.linkSend_keeps setup _ .ping))
      · exact h

theorem Unstarted.hello (h : Unstarted s) (hStable : Stable setup s) :
    Inv setup (System.linkSend setup s .hello) s.queued s.toHandle := by
  apply hStable.inv.linkSend
  intro hOpen
  have hAdmits : Admits s.log .hello := by
    intro seen hMem
    rw [h.quiet seen hMem]
    exact id
  exact hStable.inv.noted hAdmits (by simp) (by simp [hOpen]) (fun _ => rfl)
    (fun _ => ⟨[], rfl, rfl, by simp⟩)
    (by simpa [Seen.isSettles, Seen.isWaits] using hStable.inv.balance)

theorem Stable.onMessage (h : Stable setup s) (hHello : s.link.closed = false → .hello ∈ s.log) (now : Int) :
    Stable setup (System.onMessage setup now s) ∧ Listening (System.onMessage setup now s) ∧
      (System.onMessage setup now s).started = s.started := by
  rw [System.onMessage]
  cases hLink : s.link.closed with
  | true => exact ⟨h, fun hOpen => by simp [hLink] at hOpen, rfl⟩
  | false =>
    have hListening : Stable setup s.listening :=
      ⟨{ h.inv with }, fun hOpen => { h.live hOpen with hello := fun _ => hHello hOpen }, h.idle⟩
    obtain ⟨hStable, hKeeps⟩ := hListening.deliverQueued now s.link.queued fun _ => rfl
    have hAll : Listening s.listening := fun _ => ⟨rfl, rfl⟩
    exact ⟨hStable, hAll.keeps hKeeps, hKeeps.started⟩

theorem Stable.onClose (h : Stable setup s) (hListening : Listening s) (hStarted : s.started = true) :
    Resting setup (System.onClose s) := by
  rw [System.onClose]
  split_ifs with hLink
  · have hFrame := System.closed_frame hLink
    have hClosed := hFrame.ended hLink
    exact {
      stable := Stable.of_ended (h.inv.closing hLink) hClosed
      started := fun _ => ⟨.inr ⟨hClosed, System.closed_state s⟩, fun hOpen => by
        rw [hClosed] at hOpen
        cases hOpen⟩
      unstarted := fun hFresh => by
        rw [hFrame.started, hStarted] at hFresh
        cases hFresh }
  · rw [not_eq_true] at hLink
    exact {
      stable := ⟨{ h.inv with }, fun hOpen => { h.live hOpen with }, h.idle⟩
      started := fun _ => ⟨.inl ⟨hLink, rfl⟩, hListening⟩
      unstarted := fun hFresh => nomatch hStarted.symm.trans hFresh }

theorem Resting.start (h : Resting setup s)
    (hFresh : s.started = false) (now : Int) : Resting setup (System.start setup now s) := by
  have hUnstarted : Unstarted s.starting := { h.unstarted hFresh with }
  have hStarting : Stable setup s.starting :=
    ⟨{ h.stable.inv with }, fun hOpen => { h.stable.live hOpen with }, h.stable.idle⟩
  have hSent := hStarting.linkSend (by simp) (hUnstarted.hello hStarting)
  have hHello : (System.linkSend setup s.starting .hello).link.closed = false →
      .hello ∈ (System.linkSend setup s.starting .hello).log := by
    intro hOpen
    rw [System.linkSend_of_open setup hOpen]
    exact mem_append_right _ (mem_singleton_self _)
  obtain ⟨hStable, hListening, hStarted⟩ := hSent.onMessage hHello now
  exact hStable.onClose hListening (hStarted.trans (System.linkSend_keeps setup s.starting .hello).started)

theorem Resting.step (h : Resting setup s) (event : Event B M) : Resting setup (System.step setup s event) := by
  cases event with
  | start now =>
    rw [System.step]
    split_ifs with hStarted
    · exact h
    · exact h.start (not_eq_true _ ▸ hStarted) now
  | arrives now bytes => exact h.deliver now bytes
  | settles resolved => exact h.settle resolved
  | send message => exact h.send message
  | close => exact h.ended
  | lost => exact h.ended
  | tick now ping close => exact h.tick now ping close

theorem Resting.run (setup : Setup B M) (made : Int) (events : List (Event B M)) :
    Resting setup (System.run setup made events) := by
  rw [System.run]
  generalize hStart : System.fresh made = s
  have h : Resting setup s := hStart ▸ Resting.fresh setup made
  clear hStart
  induction events generalizing s with
  | nil => exact h
  | cons event rest ih => exact ih (System.step setup s event) (h.step event)

/-- What a channel promises at any moment: rules on what may come after what;
the messages received after the hello handled in order, each at most once, and
all of them on an open link on which none is handled asynchronously; the owner's
messages out in order; and the owner told of the close. -/
structure Orderly (setup : Setup B M) (s : System B M) : Prop where
  lawful : Trace.Lawful Admits s.log
  hello : ∀ peer calls, .greeted peer calls ∈ s.log →
    ∃ bytes, s.received.head? = some bytes ∧ ValidHello setup bytes peer calls
  handled : ∃ done rest, s.received.drop 1 = done ++ rest ∧
    handledOf s.log = done.filterMap (due setup) ∧ (∀ bytes ∈ done, Proper setup bytes) ∧
    (s.link.closed = false → s.pending = 0 → rest = [])
  arrived : s.started = true → s.link.closed = false → s.link.queued = []
  sent : sentOf s.log <+: s.asked
  sent_open : s.link.closed = false → Greeted s.log → sentOf s.log = s.asked
  closed : s.started = true → (.ended ∈ s.log ↔ .closed ∈ s.log)

/-- A ping behind a message handled asynchronously is answered at its turn. -/
example :
    let codec : Codec (ChannelMessage Nat) Nat := ⟨some, some, .ping, rfl, .pong, rfl⟩
    let setup : Setup (ChannelMessage Nat) Nat := {
      codec, checkMessage := fun _ => true, incarnation := "a", calls := 4, trusted := false
      hello := .hello 1 "a" 4, encode_hello := rfl
      transport := fun _ => .leaves
      owner := fun call => if call = 1 then ⟨[], .waits⟩ else ⟨[], .returns⟩ }
    (System.run setup 0 [.start 0, .arrives 1 (.hello 1 "b" 8), .arrives 2 (.other 7),
      .arrives 3 .ping, .settles true]).log =
      [.hello, .greeted "b" 8, .opened, .message 7, .waits, .settles, .pong] := by
  decide

end OctoberHarness.Link
