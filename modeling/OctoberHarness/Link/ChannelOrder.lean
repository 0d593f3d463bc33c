import Mathlib.Tactic
import OctoberHarness.Library.Trace
import OctoberHarness.Link.Channel

/-! What the history of a channel may hold, and the invariant that keeps it so. -/
namespace OctoberHarness.Link

open List

namespace Seen

variable {B M : Type}

/-- Bytes that leave over the link. -/
def Leaves : Seen B M → Prop
  | .hello | .pong | .ping | .sent _ => True
  | _ => False

def sentBytes : Seen B M → Option B
  | .sent bytes => some bytes
  | _ => none

/-- A received message handled: passed to the owner, or a ping answered. -/
def handled : Seen B M → Option (Option M)
  | .message m => some (some m)
  | .pong => some none
  | _ => none

def isWaits : Seen B M → Bool
  | .waits => true
  | _ => false

def isSettles : Seen B M → Bool
  | .settles => true
  | _ => false

end Seen

variable {B M : Type}

def Greeted (log : List (Seen B M)) : Prop :=
  ∃ peer calls, .greeted peer calls ∈ log

/-- A received message may be handled: after the handshake, before any close or
error, and with no earlier message still handled asynchronously. -/
structure MayHandle (before : List (Seen B M)) : Prop where
  opened : .opened ∈ before
  ended : .ended ∉ before
  closed : .closed ∉ before
  reported : .reported ∉ before
  settled : before.countP Seen.isWaits = before.countP Seen.isSettles

/-- What may come after what. -/
def Admits (before : List (Seen B M)) : Seen B M → Prop
  | .hello => ∀ seen ∈ before, ¬ seen.Leaves
  | .greeted .. => .hello ∈ before ∧ ¬ Greeted before ∧ .ended ∉ before
  | .opened => Greeted before ∧ .opened ∉ before
  | .message _ => MayHandle before
  | .waits => True
  | .settles => before.countP Seen.isSettles < before.countP Seen.isWaits
  | .pong => MayHandle before
  | .ping => .hello ∈ before ∧ Greeted before ∧ .ended ∉ before
  | .sent _ => .hello ∈ before ∧ Greeted before ∧ .ended ∉ before
  | .reported => .closed ∉ before
  | .ended => .ended ∉ before
  | .closed => .ended ∈ before ∧ .closed ∉ before

def sentOf (log : List (Seen B M)) : List B :=
  log.filterMap Seen.sentBytes

def handledOf (log : List (Seen B M)) : List (Option M) :=
  log.filterMap Seen.handled

@[simp] theorem sentOf_snoc (log : List (Seen B M)) (seen : Seen B M) :
    sentOf (log ++ [seen]) = sentOf log ++ seen.sentBytes.toList := by
  cases hBytes : seen.sentBytes <;> simp [sentOf, hBytes]

@[simp] theorem handledOf_snoc (log : List (Seen B M)) (seen : Seen B M) :
    handledOf (log ++ [seen]) = handledOf log ++ seen.handled.toList := by
  cases hHandled : seen.handled <;> simp [handledOf, hHandled]

/-- What handling a received message is, when it is no protocol error. -/
def due (setup : Setup B M) (bytes : B) : Option (Option M) :=
  match System.decode setup bytes with
  | some .ping => some none
  | some (.other message) => some (some message)
  | _ => none

/-- A message that is no protocol error after the handshake. -/
def Proper (setup : Setup B M) (bytes : B) : Prop :=
  ∃ message, System.decode setup bytes = some message ∧
    ∀ protocol peer calls, message ≠ .hello protocol peer calls

theorem proper_of_due {setup : Setup B M} {bytes : B} {what : Option M}
    (h : due setup bytes = some what) : Proper setup bytes := by
  rw [due] at h
  split at h
  next hDecode => exact ⟨_, hDecode, by simp⟩
  next hDecode => exact ⟨_, hDecode, by simp⟩
  next => cases h

/-- A valid `hello` of the peer, as the channel keeps it. -/
def ValidHello (setup : Setup B M) (bytes : B) (peer : String) (calls : Nat) : Prop :=
  System.decode setup bytes = some (.hello PROTOCOL_VERSION peer calls)

/-- The invariant of a channel that still has to send `unsent` and to handle
`unhandled`, unless its link ended. -/
structure Inv (setup : Setup B M) (s : System B M) (unsent unhandled : List B) : Prop where
  lawful : Trace.Lawful Admits s.log
  ended : s.link.closed = true ↔ .ended ∈ s.log
  closed : s.channel.state = .closed ↔ .closed ∈ s.log
  greeting : ∀ queued, s.channel.state = .greeting queued → ¬ Greeted s.log
  opened : ∀ peer calls, s.channel.state = .opened peer calls → .hello ∈ s.log ∧ Greeted s.log
  sent : ∃ rest, s.asked = sentOf s.log ++ rest ∧ (s.link.closed = false → rest = unsent)
  handled : ∃ done rest, s.received.drop 1 = done ++ rest ∧
    handledOf s.log = done.filterMap (due setup) ∧ (∀ bytes ∈ done, Proper setup bytes) ∧
    (s.link.closed = false → rest = unhandled)
  balance : s.log.countP Seen.isSettles + s.pending = s.log.countP Seen.isWaits
  greeted : ∀ peer calls, .greeted peer calls ∈ s.log →
    ∃ bytes, s.received.head? = some bytes ∧ ValidHello setup bytes peer calls

namespace Inv

variable {setup : Setup B M} {s : System B M} {unsent unhandled : List B}

section

variable (h : Inv setup s unsent unhandled)

include h

theorem not_closed (hLink : s.link.closed = false) :
    .ended ∉ s.log := by
  rw [← h.ended, hLink]
  simp

theorem link_closed (hState : s.channel.state = .closed) :
    s.link.closed = true := by
  rw [h.ended]
  obtain ⟨before, after, hLog⟩ := append_of_mem (h.closed.mp hState)
  have hAdmits := h.lawful before _ after hLog
  rw [hLog]
  exact mem_append_left _ hAdmits.1

theorem of_ended (hLink : s.link.closed = true) (unsent' unhandled' : List B) : Inv setup s unsent' unhandled' := by
  obtain ⟨sent, hSent, -⟩ := h.sent
  obtain ⟨done, rest, hReceived, hHandled, hProper, -⟩ := h.handled
  exact { h with
    sent := ⟨sent, hSent, by simp [hLink]⟩
    handled := ⟨done, rest, hReceived, hHandled, hProper, by simp [hLink]⟩ }

/-- Noting something that changes neither the link's state nor the channel's. -/
theorem noted {seen : Seen B M} (hAdmits : Admits s.log seen)
    (hPlain : seen ≠ .ended ∧ seen ≠ .closed ∧ ∀ peer calls, seen ≠ .greeted peer calls)
    {unsent' unhandled' : List B} {pending : Nat}
    (hLive : s.link.closed = true → seen.sentBytes = none ∧ seen.handled = none)
    (hSent : s.link.closed = false → seen.sentBytes.toList ++ unsent' = unsent)
    (hHandled : s.link.closed = false → ∃ first, unhandled = first ++ unhandled' ∧
      seen.handled.toList = first.filterMap (due setup) ∧ ∀ bytes ∈ first, Proper setup bytes)
    (hBalance : s.log.countP Seen.isSettles + (if seen.isSettles then 1 else 0) + pending =
      s.log.countP Seen.isWaits + (if seen.isWaits then 1 else 0)) :
    Inv setup { s with log := s.log ++ [seen], pending } unsent' unhandled' := by
  have hGreeted : Greeted (s.log ++ [seen]) ↔ Greeted s.log := by
    simp only [Greeted, mem_append, mem_singleton]
    constructor
    · rintro ⟨peer, calls, hMem | hMem⟩
      · exact ⟨peer, calls, hMem⟩
      · exact absurd hMem.symm (hPlain.2.2 peer calls)
    · rintro ⟨peer, calls, hMem⟩
      exact ⟨peer, calls, .inl hMem⟩
  obtain ⟨sent, hSentLog, hSentRest⟩ := h.sent
  obtain ⟨done, rest, hReceived, hDone, hProper, hRest⟩ := h.handled
  refine ⟨h.lawful.snoc hAdmits, ?_, ?_, ?_, ?_, ?_, ?_, ?_, ?_⟩
  · simp [h.ended, Ne.symm hPlain.1]
  · simp [h.closed, Ne.symm hPlain.2.1]
  · intro queued hState
    rw [hGreeted]
    exact h.greeting queued hState
  · intro peer calls hState
    rw [hGreeted]
    exact ⟨mem_append_left _ (h.opened peer calls hState).1, (h.opened peer calls hState).2⟩
  · by_cases hLink : s.link.closed = true
    · exact ⟨sent, by rw [hSentLog, sentOf_snoc, (hLive hLink).1]; simp, by simp [hLink]⟩
    · rw [Bool.not_eq_true] at hLink
      refine ⟨unsent', ?_, fun _ => rfl⟩
      simp only [sentOf_snoc, append_assoc, hSent hLink, hSentLog, hSentRest hLink]
  · by_cases hLink : s.link.closed = true
    · refine ⟨done, rest, hReceived, ?_, hProper, by simp [hLink]⟩
      rw [handledOf_snoc, (hLive hLink).2, hDone]
      simp
    · rw [Bool.not_eq_true] at hLink
      obtain ⟨first, hFirst, hWhat, hFirstProper⟩ := hHandled hLink
      refine ⟨done ++ first, unhandled', ?_, ?_, ?_, fun _ => rfl⟩
      · rw [append_assoc, ← hFirst, ← hRest hLink]
        exact hReceived
      · rw [handledOf_snoc, hDone, hWhat, filterMap_append]
      · intro bytes hMem
        exact (List.mem_append.mp hMem).elim (hProper bytes) (hFirstProper bytes)
  · simpa only [countP_append, countP_singleton] using hBalance
  · intro peer calls hMem
    rcases List.mem_append.mp hMem with hMem | hMem
    · exact h.greeted peer calls hMem
    · exact absurd (List.mem_singleton.mp hMem).symm (hPlain.2.2 peer calls)

end

end Inv

/-- The channel listens for the close of its link: they close together. -/
def Registered (s : System B M) : Prop :=
  (s.link.closed = false ∧ s.link.closeListener = true) ∨
    (s.link.closed = true ∧ s.channel.state = .closed)

/-- What the owner's calls leave alone, and what stays as it was unless the link
ended. -/
structure Frame (s s' : System B M) : Prop where
  received : s'.received = s.received
  pending : s'.pending = s.pending
  started : s'.started = s.started
  waiting : s'.channel.waiting = s.channel.waiting
  quiet : ∃ later, s'.log = s.log ++ later ∧
    ∀ seen ∈ later, (∃ bytes, seen = .sent bytes) ∨ seen = .ended ∨ seen = .closed
  ended : s.link.closed = true → s'.link.closed = true
  held : s'.link.closed = false → s'.channel.held = s.channel.held
  greeting : s'.link.closed = false → ∀ queued', s'.channel.state = .greeting queued' →
    ∃ queued, s.channel.state = .greeting queued
  opened : s'.link.closed = false → ∀ peer calls,
    s'.channel.state = .opened peer calls ↔ s.channel.state = .opened peer calls
  link : s'.link.closed = false → s'.link = s.link
  registered : Registered s → Registered s'

namespace Frame

theorem refl (s : System B M) : Frame s s :=
  ⟨rfl, rfl, rfl, rfl, ⟨[], by simp, by simp⟩, id, fun _ => rfl, fun _ queued h => ⟨queued, h⟩,
    fun _ _ _ => Iff.rfl, fun _ => rfl, id⟩

variable {s : System B M}

theorem open_before {s' : System B M} (h : Frame s s') (hLink : s'.link.closed = false) :
    s.link.closed = false := by
  by_contra hClosed
  rw [Bool.not_eq_false] at hClosed
  rw [h.ended hClosed] at hLink
  cases hLink

theorem trans {t u : System B M} (h : Frame s t) (h' : Frame t u) : Frame s u where
  received := h'.received.trans h.received
  pending := h'.pending.trans h.pending
  started := h'.started.trans h.started
  waiting := h'.waiting.trans h.waiting
  quiet := by
    obtain ⟨first, hFirst, hFirstQuiet⟩ := h.quiet
    obtain ⟨second, hSecond, hSecondQuiet⟩ := h'.quiet
    refine ⟨first ++ second, by rw [hSecond, hFirst, append_assoc], ?_⟩
    intro seen hMem
    exact (List.mem_append.mp hMem).elim (hFirstQuiet seen) (hSecondQuiet seen)
  ended hClosed := h'.ended (h.ended hClosed)
  held hLink := (h'.held hLink).trans (h.held (h'.open_before hLink))
  greeting hLink queued' hState := by
    obtain ⟨queued, hMiddle⟩ := h'.greeting hLink queued' hState
    exact h.greeting (h'.open_before hLink) queued hMiddle
  opened hLink peer calls :=
    (h'.opened hLink peer calls).trans (h.opened (h'.open_before hLink) peer calls)
  link hLink := (h'.link hLink).trans (h.link (h'.open_before hLink))
  registered hRegistered := h'.registered (h.registered hRegistered)

theorem mem_iff {s' : System B M} (h : Frame s s') {seen : Seen B M}
    (hLoud : (∀ bytes, seen ≠ .sent bytes) ∧ seen ≠ .ended ∧ seen ≠ .closed) :
    seen ∈ s'.log ↔ seen ∈ s.log := by
  obtain ⟨later, hLog, hQuiet⟩ := h.quiet
  rw [hLog, mem_append]
  constructor
  · rintro (hMem | hMem)
    · exact hMem
    · rcases hQuiet seen hMem with ⟨bytes, rfl⟩ | rfl | rfl
      · exact absurd rfl (hLoud.1 bytes)
      · exact absurd rfl hLoud.2.1
      · exact absurd rfl hLoud.2.2
  · exact .inl

end Frame

namespace System

/-- What waits for the peer's `hello`. -/
def queued (s : System B M) : List B :=
  match s.channel.state with
  | .greeting queued => queued
  | _ => []

variable {s : System B M}

theorem closed_of_closed (h : s.channel.state = .closed) : closed s = s := by
  rw [closed, h]

theorem closed_of_not_closed (h : s.channel.state ≠ .closed) :
    closed s =
      note { s with channel := { s.channel with state := .closed, held := none } } .closed := by
  rw [closed]
  cases hState : s.channel.state with
  | closed => exact absurd hState h
  | _ => rfl

theorem closed_frame (hLink : s.link.closed = true) : Frame s (closed s) := by
  by_cases hState : s.channel.state = .closed
  · rw [closed_of_closed hState]
    exact Frame.refl s
  · rw [closed_of_not_closed hState]
    exact {
      received := rfl, pending := rfl, started := rfl, waiting := rfl
      quiet := ⟨[.closed], rfl, by simp⟩
      ended := id
      held := fun h => by simp [note, hLink] at h
      greeting := fun h => by simp [note, hLink] at h
      opened := fun h => by simp [note, hLink] at h
      link := fun h => by simp [note, hLink] at h
      registered := fun _ => .inr ⟨hLink, rfl⟩ }

end System

theorem Inv.closing {setup : Setup B M} {s : System B M} {unsent unhandled : List B}
    (h : Inv setup s unsent unhandled) (hLink : s.link.closed = true) :
    Inv setup (System.closed s) unsent unhandled := by
  by_cases hState : s.channel.state = .closed
  · rw [System.closed_of_closed hState]
    exact h
  · rw [System.closed_of_not_closed hState]
    have hNew : Seen.closed ∉ s.log := fun hMem => hState (h.closed.mpr hMem)
    obtain ⟨sent, hSent, -⟩ := h.sent
    obtain ⟨done, rest, hReceived, hHandled, hProper, -⟩ := h.handled
    exact {
      lawful := h.lawful.snoc ⟨h.ended.mp hLink, hNew⟩
      ended := by simp [System.note, h.ended]
      closed := by simp [System.note]
      greeting := by simp [System.note]
      opened := by simp [System.note]
      sent := ⟨sent, by simpa [System.note, Seen.sentBytes] using hSent, by simp [System.note, hLink]⟩
      handled := ⟨done, rest, hReceived, by simpa [System.note, Seen.handled] using hHandled, hProper,
        by simp [System.note, hLink]⟩
      balance := by simpa [System.note, Seen.isSettles, Seen.isWaits] using h.balance
      greeted := by simpa [System.note] using h.greeted }

namespace System

theorem ended_of_closed {s : System B M} (h : s.link.closed = true) : ended s = s := by
  rw [ended, if_pos h]

/-- The end of the link before its close listener runs. -/
def endLink (s : System B M) : System B M :=
  note { s with link := ⟨true, false, [], false⟩ } .ended

theorem ended_of_open {s : System B M} (h : s.link.closed = false) :
    ended s = if s.link.closeListener then closed (endLink s) else endLink s := by
  rw [ended, if_neg (by rw [h]; decide)]
  rfl

theorem ended_link (s : System B M) : (ended s).link.closed = true := by
  by_cases hLink : s.link.closed = true
  · rw [ended_of_closed hLink]
    exact hLink
  · rw [ended_of_open (Bool.not_eq_true _ ▸ hLink)]
    split_ifs
    · exact (closed_frame rfl).ended rfl
    · rfl

theorem closed_state (s : System B M) : (closed s).channel.state = .closed := by
  by_cases hState : s.channel.state = .closed
  · rw [closed_of_closed hState]
    exact hState
  · rw [closed_of_not_closed hState]
    rfl

theorem ended_frame (s : System B M) : Frame s (ended s) := by
  have hEnded := ended_link s
  by_cases hLink : s.link.closed = true
  · rw [ended_of_closed hLink]
    exact Frame.refl s
  · rw [Bool.not_eq_true] at hLink
    have hRegistered : Registered s → Registered (ended s) := by
      rintro (⟨-, hListener⟩ | ⟨hClosed, -⟩)
      · refine .inr ⟨hEnded, ?_⟩
        rw [ended_of_open hLink, if_pos hListener]
        exact closed_state _
      · rw [hLink] at hClosed
        cases hClosed
    have hMiddle : (endLink s).log = s.log ++ [.ended] := rfl
    have hFields : ∃ later, (ended s).log = s.log ++ later ∧
        ∀ seen ∈ later, (∃ bytes, seen = .sent bytes) ∨ seen = .ended ∨ seen = .closed := by
      rw [ended_of_open hLink]
      split_ifs
      · obtain ⟨later, hLog, hQuiet⟩ := (closed_frame (s := endLink s) rfl).quiet
        refine ⟨.ended :: later, by rw [hLog, hMiddle, append_assoc]; rfl, ?_⟩
        intro seen hMem
        rcases List.mem_cons.mp hMem with rfl | hMem
        · exact .inr (.inl rfl)
        · exact hQuiet seen hMem
      · exact ⟨[.ended], rfl, by simp⟩
    have hSame : (ended s).received = s.received ∧ (ended s).pending = s.pending ∧
        (ended s).started = s.started ∧ (ended s).channel.waiting = s.channel.waiting := by
      rw [ended_of_open hLink]
      split_ifs
      · have hClosed := closed_frame (s := endLink s) rfl
        exact ⟨hClosed.received, hClosed.pending, hClosed.started, hClosed.waiting⟩
      · exact ⟨rfl, rfl, rfl, rfl⟩
    exact {
      received := hSame.1, pending := hSame.2.1, started := hSame.2.2.1, waiting := hSame.2.2.2
      quiet := hFields
      ended := fun _ => hEnded
      held := fun h => by simp [hEnded] at h
      greeting := fun h => by simp [hEnded] at h
      opened := fun h => by simp [hEnded] at h
      link := fun h => by simp [hEnded] at h
      registered := hRegistered }

end System

theorem Inv.ending {setup : Setup B M} {s : System B M} {unsent unhandled : List B}
    (h : Inv setup s unsent unhandled) (unsent' unhandled' : List B) :
    Inv setup (System.ended s) unsent' unhandled' := by
  suffices hSame : Inv setup (System.ended s) unsent unhandled from
    hSame.of_ended (System.ended_link s) unsent' unhandled'
  by_cases hLink : s.link.closed = true
  · rw [System.ended_of_closed hLink]
    exact h
  · rw [Bool.not_eq_true] at hLink
    have hMiddle : Inv setup (System.endLink s) unsent unhandled := by
      obtain ⟨sent, hSent, -⟩ := h.sent
      obtain ⟨done, rest, hReceived, hHandled, hProper, -⟩ := h.handled
      exact {
        lawful := h.lawful.snoc (h.not_closed hLink)
        ended := by simp [System.endLink, System.note]
        closed := by simp [System.endLink, System.note, h.closed]
        greeting := by simpa [System.endLink, System.note, Greeted] using h.greeting
        opened := by simpa [System.endLink, System.note, Greeted] using h.opened
        sent := ⟨sent, by simpa [System.endLink, System.note, Seen.sentBytes] using hSent,
          by simp [System.endLink, System.note]⟩
        handled := ⟨done, rest, hReceived,
          by simpa [System.endLink, System.note, Seen.handled] using hHandled, hProper,
          by simp [System.endLink, System.note]⟩
        balance := by simpa [System.endLink, System.note, Seen.isSettles, Seen.isWaits] using h.balance
        greeted := by simpa [System.endLink, System.note] using h.greeted }
    rw [System.ended_of_open hLink]
    split_ifs
    · exact hMiddle.closing rfl
    · exact hMiddle

namespace System

variable (setup : Setup B M)

variable {s : System B M}

theorem linkSend_of_closed (seen : Seen B M) (hLink : s.link.closed = true) :
    linkSend setup s seen = s := by
  rw [linkSend, if_pos hLink]

theorem linkSend_leaves (seen : Seen B M) (hLink : s.link.closed = false) (hTransport : setup.transport s.sends = .leaves) :
    linkSend setup s seen = note { s with sends := s.sends + 1 } seen := by
  rw [linkSend, if_neg (by rw [hLink]; decide), hTransport]

theorem linkSend_breaks (seen : Seen B M) (hLink : s.link.closed = false) (hTransport : setup.transport s.sends = .breaks) :
    linkSend setup s seen = ended { s with sends := s.sends + 1 } := by
  rw [linkSend, if_neg (by rw [hLink]; decide), hTransport]

theorem linkSend_cases (s : System B M) (seen : Seen B M) :
    (s.link.closed = true ∧ linkSend setup s seen = s) ∨
    (s.link.closed = false ∧ linkSend setup s seen = note { s with sends := s.sends + 1 } seen) ∨
    (s.link.closed = false ∧ linkSend setup s seen = ended { s with sends := s.sends + 1 }) := by
  cases hLink : s.link.closed with
  | true => exact .inl ⟨rfl, linkSend_of_closed setup seen hLink⟩
  | false =>
    cases hTransport : setup.transport s.sends with
    | leaves => exact .inr (.inl ⟨rfl, linkSend_leaves setup seen hLink hTransport⟩)
    | breaks => exact .inr (.inr ⟨rfl, linkSend_breaks setup seen hLink hTransport⟩)

theorem counted_frame (s : System B M) (sends calls : Nat) : Frame s { s with sends, calls } :=
  { Frame.refl s with }

theorem linkSend_sent_frame (s : System B M) (bytes : B) :
    Frame s (linkSend setup s (.sent bytes)) := by
  rcases linkSend_cases setup s (.sent bytes) with ⟨-, hSend⟩ | ⟨-, hSend⟩ | ⟨-, hSend⟩
  · rw [hSend]
    exact Frame.refl s
  · rw [hSend]
    exact { Frame.refl s with quiet := ⟨[.sent bytes], rfl, by simp⟩ }
  · rw [hSend]
    exact (counted_frame s (s.sends + 1) s.calls).trans (ended_frame _)

end System

namespace Inv

variable {setup : Setup B M} {s : System B M} {unsent unhandled : List B}

theorem counted (h : Inv setup s unsent unhandled) (sends calls : Nat) :
    Inv setup { s with sends, calls } unsent unhandled :=
  { h with }

theorem linkSend (h : Inv setup s unsent unhandled) {seen : Seen B M} {unsent' unhandled' : List B}
    (hNoted : s.link.closed = false →
      Inv setup { s with log := s.log ++ [seen] } unsent' unhandled') :
    Inv setup (System.linkSend setup s seen) unsent' unhandled' := by
  rcases System.linkSend_cases setup s seen with ⟨hLink, hSend⟩ | ⟨hLink, hSend⟩ | ⟨-, hSend⟩
  · rw [hSend]
    exact h.of_ended hLink unsent' unhandled'
  · rw [hSend]
    exact (hNoted hLink).counted (s.sends + 1) s.calls
  · rw [hSend]
    exact (h.counted (s.sends + 1) s.calls).ending unsent' unhandled'

theorem linkSend_sent {bytes : B} (h : Inv setup s (bytes :: unsent) unhandled) {peer : String}
    {calls : Nat} (hState : s.link.closed = false → s.channel.state = .opened peer calls) :
    Inv setup (System.linkSend setup s (.sent bytes)) unsent unhandled := by
  apply h.linkSend
  intro hLink
  have hOpened := h.opened peer calls (hState hLink)
  have hAdmits : Admits s.log (.sent bytes) := ⟨hOpened.1, hOpened.2, h.not_closed hLink⟩
  exact h.noted hAdmits (by simp) (by simp [hLink])
    (fun _ => rfl) (fun _ => ⟨[], rfl, rfl, by simp⟩)
    (by simpa [Seen.isSettles, Seen.isWaits] using h.balance)

theorem linkSend_ping (h : Inv setup s unsent unhandled) {peer : String} {calls : Nat}
    (hState : s.channel.state = .opened peer calls) :
    Inv setup (System.linkSend setup s .ping) unsent unhandled := by
  apply h.linkSend
  intro hLink
  have hOpened := h.opened peer calls hState
  have hAdmits : Admits s.log .ping := ⟨hOpened.1, hOpened.2, h.not_closed hLink⟩
  exact h.noted hAdmits (by simp) (by simp [hLink])
    (fun _ => rfl) (fun _ => ⟨[], rfl, rfl, by simp⟩)
    (by simpa [Seen.isSettles, Seen.isWaits] using h.balance)

theorem linkSend_pong {bytes : B} (h : Inv setup s unsent (bytes :: unhandled))
    (hDue : due setup bytes = some none) (hMay : s.link.closed = false → MayHandle s.log) :
    Inv setup (System.linkSend setup s .pong) unsent unhandled := by
  apply h.linkSend
  intro hLink
  have hAdmits : Admits s.log .pong := hMay hLink
  exact h.noted hAdmits (by simp) (by simp [hLink]) (fun _ => rfl)
    (fun _ => ⟨[bytes], rfl, by simp [hDue, Seen.handled], by simpa using proper_of_due hDue⟩)
    (by simpa [Seen.isSettles, Seen.isWaits] using h.balance)

theorem asking (h : Inv setup s unsent unhandled) (bytes : B) :
    Inv setup { s with asked := s.asked ++ [bytes] } (unsent ++ [bytes]) unhandled := by
  obtain ⟨rest, hSent, hRest⟩ := h.sent
  exact { h with
    sent := ⟨rest ++ [bytes], by simp [hSent], fun hLink => by rw [hRest hLink]⟩ }

end Inv

/-! The owner's calls. -/

namespace System

variable {s : System B M}

theorem queued_greeting {queue : List B} (h : s.channel.state = .greeting queue) :
    s.queued = queue := by
  rw [queued, h]

theorem queued_opened {peer : String} {calls : Nat} (h : s.channel.state = .opened peer calls) : s.queued = [] := by
  rw [queued, h]

theorem queued_closed (h : s.channel.state = .closed) : s.queued = [] := by
  rw [queued, h]

variable (setup : Setup B M)

theorem queued_of_frame {s' : System B M} (h : Frame s s') {peer : String} {calls : Nat}
    (hState : s.channel.state = .opened peer calls) (hLink : s'.link.closed = false) :
    s'.queued = [] :=
  queued_opened ((h.opened hLink peer calls).mpr hState)

theorem send_frame (s : System B M) (message : ChannelMessage M) :
    Frame s (send setup s message) := by
  rw [send]
  cases hState : s.channel.state with
  | closed => exact Frame.refl s
  | greeting queue =>
    cases setup.codec.encode message with
    | none => exact Frame.refl s
    | some bytes =>
      exact { Frame.refl s with
        greeting := fun _ _ _ => ⟨queue, hState⟩
        opened := fun _ peer calls => by simp [setState, hState]
        registered := by
          rintro (hOpen | ⟨-, hClosed⟩)
          · exact .inl hOpen
          · rw [hState] at hClosed
            cases hClosed }
  | opened peer calls =>
    cases setup.codec.encode message with
    | none => exact Frame.refl s
    | some bytes =>
      have hAsked : Frame s { s with asked := s.asked ++ [bytes] } := { Frame.refl s with }
      exact hAsked.trans (linkSend_sent_frame setup _ bytes)

theorem act_frame (s : System B M) (a : Act M) : Frame s (act setup s a) := by
  cases a with
  | send message => exact send_frame setup s message
  | close => exact ended_frame s

theorem acts_frame (acts : List (Act M)) (s : System B M) : Frame s (acts.foldl (act setup) s) := by
  induction acts generalizing s with
  | nil => exact Frame.refl s
  | cons a rest ih => exact (act_frame setup s a).trans (ih (act setup s a))

end System

namespace Inv

variable {setup : Setup B M} {s : System B M} {unsent unhandled : List B}

theorem requeue (h : Inv setup s unsent unhandled)
    (hQueue : s.link.closed = false → s.queued = unsent) : Inv setup s s.queued unhandled := by
  cases hLink : s.link.closed with
  | true => exact h.of_ended hLink s.queued unhandled
  | false =>
    rw [hQueue hLink]
    exact h

theorem send (h : Inv setup s s.queued unhandled) (message : ChannelMessage M) :
    Inv setup (System.send setup s message) (System.send setup s message).queued unhandled := by
  rw [System.send]
  cases hState : s.channel.state with
  | closed => exact h
  | greeting queue =>
    cases setup.codec.encode message with
    | none => exact h
    | some bytes =>
      rw [System.queued_greeting hState] at h
      have hAsked := h.asking bytes
      exact { hAsked with
        closed := by simpa [System.setState, hState] using hAsked.closed
        greeting := fun _ _ => h.greeting queue hState
        opened := by simp [System.setState] }
  | opened peer calls =>
    cases setup.codec.encode message with
    | none => exact h
    | some bytes =>
      rw [System.queued_opened hState] at h
      have hSent : Inv setup (System.linkSend setup { s with asked := s.asked ++ [bytes] }
          (.sent bytes)) [] unhandled :=
        (h.asking bytes).linkSend_sent fun _ => hState
      exact hSent.requeue fun hLink =>
        System.queued_of_frame (System.linkSend_sent_frame setup _ bytes) hState hLink

theorem act (h : Inv setup s s.queued unhandled) (a : Act M) :
    Inv setup (System.act setup s a) (System.act setup s a).queued unhandled := by
  cases a with
  | send message => exact h.send message
  | close => exact h.ending _ _

theorem acts (acts : List (Act M)) (h : Inv setup s s.queued unhandled) :
    Inv setup (acts.foldl (System.act setup) s) (acts.foldl (System.act setup) s).queued
      unhandled := by
  induction acts generalizing s with
  | nil => exact h
  | cons a rest ih => exact ih (h.act a)

end Inv

/-- A call of the owner noted as `seen`, before what the owner does in it. -/
def System.telling (s : System B M) (seen : Seen B M) : System B M :=
  System.note { s with calls := s.calls + 1 } seen

theorem System.tell_frame (setup : Setup B M) (s : System B M) (seen : Seen B M) :
    Frame (s.telling seen) (System.tell setup s seen) :=
  System.acts_frame setup _ _

theorem Inv.tell {setup : Setup B M} {s : System B M} {seen : Seen B M} {unhandled : List B}
    (h : Inv setup (s.telling seen) s.queued unhandled) :
    Inv setup (System.tell setup s seen) (System.tell setup s seen).queued unhandled :=
  Inv.acts _ h

namespace System

variable (setup : Setup B M)

theorem failed_of_closed {s : System B M} (h : s.channel.state = .closed) : failed setup s = s := by
  rw [failed, h]

theorem failed_of_not_closed {s : System B M} (h : s.channel.state ≠ .closed) :
    failed setup s = ended (tell setup s .reported) := by
  rw [failed]
  cases hState : s.channel.state with
  | closed => exact absurd hState h
  | _ => rfl

end System

theorem Inv.failed {setup : Setup B M} {s : System B M} {unhandled : List B}
    (h : Inv setup s s.queued unhandled) (unsent' unhandled' : List B) :
    Inv setup (System.failed setup s) unsent' unhandled' := by
  by_cases hState : s.channel.state = .closed
  · rw [System.failed_of_closed setup hState]
    exact h.of_ended (h.link_closed hState) unsent' unhandled'
  · rw [System.failed_of_not_closed setup hState]
    have hAdmits : Admits s.log .reported := fun hMem => hState (h.closed.mpr hMem)
    have hNoted : Inv setup (s.telling .reported) s.queued unhandled :=
      (h.noted hAdmits (by simp) (fun _ => ⟨rfl, rfl⟩) (fun _ => rfl) (fun _ => ⟨[], rfl, rfl, by simp⟩)
        (by simpa [Seen.isSettles, Seen.isWaits] using h.balance)).counted s.sends (s.calls + 1)
    exact hNoted.tell.ending unsent' unhandled'

end OctoberHarness.Link
