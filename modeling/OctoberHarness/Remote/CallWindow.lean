import Mathlib.Tactic
import OctoberHarness.Remote.Calls

/-! The call window of a link: what the requests on their way make of the
provider's table, and the invariant that both sides keep. -/
namespace OctoberHarness.Remote

open List OrderedMap

/-- The provider's holds and calls, as far as the window depends on them. -/
structure View where
  entries : List Nat
  calls : List (Nat × Call)

namespace View

/-- What a request makes of the table when its call is admitted. -/
def after (v : View) : Request → View
  | .hold hold => { v with entries := v.entries ++ [hold] }
  | .release hold =>
    { entries := v.entries.filter (· ≠ hold), calls := v.calls.filter fun entry => entry.2.hold ≠ hold }
  | .call id call => if call.hold ∈ v.entries then { v with calls := v.calls ++ [(id, call)] } else v
  | .abort id => { v with calls := erase v.calls id }

def replay (v : View) (requests : List Request) : View :=
  requests.foldl after v

/-- Less is held, and fewer calls run. -/
structure Within (v w : View) : Prop where
  entries : ∀ hold ∈ v.entries, hold ∈ w.entries
  calls : v.calls.Sublist w.calls

/-- Every call is on a hold of the table. -/
def Rooted (v : View) : Prop :=
  ∀ entry ∈ v.calls, entry.2.hold ∈ v.entries

@[simp] theorem replay_nil (v : View) : v.replay [] = v := rfl

@[simp] theorem replay_cons (v : View) (request : Request) (rest : List Request) :
    v.replay (request :: rest) = (v.after request).replay rest := rfl

@[simp] theorem replay_append (v : View) (requests more : List Request) :
    v.replay (requests ++ more) = (v.replay requests).replay more := by
  rw [replay, replay, replay, foldl_append]

theorem Within.refl (v : View) : v.Within v :=
  ⟨fun _ h => h, Sublist.refl _⟩

variable {w v : View}

theorem Within.trans {u : View} (h : u.Within v) (hNext : v.Within w) : u.Within w :=
  ⟨fun hold hMem => hNext.entries hold (h.entries hold hMem), h.calls.trans hNext.calls⟩

theorem Within.after (h : v.Within w) (request : Request) : (v.after request).Within (w.after request) := by
  cases request with
  | hold hold =>
    refine ⟨?_, h.calls⟩
    intro other hOther
    rcases mem_append.mp hOther with hOld | hNew
    · exact mem_append_left _ (h.entries other hOld)
    · exact mem_append_right _ hNew
  | release hold =>
    refine ⟨?_, h.calls.filter _⟩
    intro other hOther
    rw [View.after, mem_filter] at hOther ⊢
    exact ⟨h.entries other hOther.1, hOther.2⟩
  | call id call =>
    rw [View.after, View.after]
    by_cases hHeld : call.hold ∈ v.entries
    · rw [if_pos hHeld, if_pos (h.entries _ hHeld)]
      exact ⟨h.entries, h.calls.append (Sublist.refl _)⟩
    · rw [if_neg hHeld]
      split_ifs
      · exact ⟨h.entries, h.calls.trans (sublist_append_left _ _)⟩
      · exact h
  | abort id => exact ⟨h.entries, h.calls.filter _⟩

theorem Within.replay (h : v.Within w) (requests : List Request) :
    (v.replay requests).Within (w.replay requests) := by
  induction requests generalizing v w with
  | nil => exact h
  | cons request rest ih => exact ih (h.after request)

theorem Rooted.after (h : v.Rooted) (request : Request) : (v.after request).Rooted := by
  cases request with
  | hold hold =>
    intro entry hEntry
    exact mem_append_left _ (h entry hEntry)
  | release hold =>
    intro entry hEntry
    obtain ⟨hOld, hNe⟩ := mem_filter.mp hEntry
    exact mem_filter.mpr ⟨h entry hOld, hNe⟩
  | call id call =>
    rw [View.after]
    split_ifs with hHeld
    · intro entry hEntry
      rcases mem_append.mp hEntry with hOld | hNew
      · exact h entry hOld
      · rw [mem_singleton.mp hNew]
        exact hHeld
    · exact h
  | abort id =>
    intro entry hEntry
    exact h entry (mem_filter.mp hEntry).1

theorem Rooted.replay (h : v.Rooted) (requests : List Request) : (v.replay requests).Rooted := by
  induction requests generalizing v with
  | nil => exact h
  | cons request rest ih => exact ih (h.after request)

variable {request : Request} {call : Call} {next : Consumer}

theorem after_sublist (v : View) (hCall : ∀ id call, request ≠ .call id call) :
    (v.after request).calls.Sublist v.calls := by
  cases request with
  | hold hold => exact Sublist.refl _
  | release hold => exact filter_sublist
  | call id call => exact absurd rfl (hCall id call)
  | abort id => exact filter_sublist

theorem mem_entries_replay {requests : List Request} {hold : Nat}
    (h : hold ∈ (v.replay requests).entries) : hold ∈ v.entries ∨ .hold hold ∈ requests := by
  induction requests generalizing v with
  | nil => exact .inl h
  | cons request rest ih =>
    rcases ih h with hOld | hLater
    · cases request with
      | hold other =>
        rcases mem_append.mp hOld with hThere | hNew
        · exact .inl hThere
        · rw [mem_singleton.mp hNew]
          exact .inr mem_cons_self
      | release other => exact .inl (mem_filter.mp hOld).1
      | call id call =>
        rw [View.after] at hOld
        split_ifs at hOld <;> exact .inl hOld
      | abort id => exact .inl hOld
    · exact .inr (mem_cons_of_mem _ hLater)

theorem mem_calls_replay {requests : List Request} {entry : Nat × Call}
    (h : entry ∈ (v.replay requests).calls) : entry ∈ v.calls ∨ .call entry.1 entry.2 ∈ requests := by
  induction requests generalizing v with
  | nil => exact .inl h
  | cons request rest ih =>
    rcases ih h with hOld | hLater
    · cases request with
      | hold other => exact .inl hOld
      | release other => exact .inl (mem_filter.mp hOld).1
      | call id call =>
        rw [View.after] at hOld
        split_ifs at hOld
        · rcases mem_append.mp hOld with hThere | hNew
          · exact .inl hThere
          · rw [mem_singleton.mp hNew]
            exact .inr mem_cons_self
        · exact .inl hOld
      | abort id => exact .inl (mem_filter.mp hOld).1
    · exact .inr (mem_cons_of_mem _ hLater)

end View

def Provider.view (p : Provider) : View where
  entries := p.entries.map Prod.fst
  calls := p.calls

/-- What a request may follow: ids of calls and of holds grow, and a call comes
after its hold. -/
def Follows : Request → Request → Prop
  | .call id _, .call later _ => id < later
  | .hold hold, .hold later => hold < later
  | .call _ call, .hold later => call.hold < later
  | _, _ => True

/-- A call whose request arrived. -/
def EarlierCall (c : Consumer) (id : Nat) : Prop :=
  id < c.nextCall ∧ ∀ later call, .call later call ∈ c.wire → id < later

/-- A hold whose request arrived. -/
def EarlierHold (c : Consumer) (hold : Nat) : Prop :=
  hold < c.nextHold ∧ ∀ later, .hold later ∈ c.wire → hold < later

/-- The consumer's own part: its count and its tables. -/
structure Window (limit : Nat) (ending : Option Nat) (c : Consumer) : Prop where
  counted : c.isOpen = true → c.inFlight = c.calls.length
  bounded : c.isOpen = true → c.calls.length ≤ c.limit
  limited : c.limit ≤ limit
  shut : c.isOpen = false → c.calls = [] ∧ c.waiting = [] ∧ c.entries = []
  ids : (c.calls.map Prod.fst).Pairwise (· < ·)
  fresh : ∀ entry ∈ c.calls, entry.1 < c.nextCall
  keys : (c.waiting.map Call.key ++ c.calls.map (fun entry => entry.2.key) ++ c.settled.map Prod.fst).Perm
    (range c.submitted.length)
  submitted : (∀ call ∈ c.waiting, c.submitted[call.key]? = some call.hold) ∧
    ∀ entry ∈ c.calls, c.submitted[entry.2.key]? = some entry.2.hold
  order : c.sent.Pairwise (· < ·) ∧ (c.waiting.map Call.key).Pairwise (· < ·)
  behind : ∀ key ∈ c.sent, key < c.submitted.length ∧ ∀ call ∈ c.waiting, key < call.key
  sent : c.sent.length = c.nextCall ∧ ∀ entry ∈ c.calls, c.sent[entry.1]? = some entry.2.key
  replies : ∀ key id, (key, .reply id) ∈ c.settled → c.sent[id]? = some key
  ends : ∀ key hold, (key, .ended hold) ∈ c.settled ∨ (key, .rebinding hold) ∈ c.settled →
    c.submitted[key]? = some hold
  waits : ∀ call ∈ c.waiting, call.hold ∈ c.entries.map Prod.fst
  held : ∀ entry ∈ c.calls, entry.2.hold ∈ c.entries.map Prod.fst ∨ some entry.2.hold = ending
  holds : ∀ hold ∈ c.entries.map Prod.fst, hold < c.nextHold

/-- Both sides together, with what is on its way between them. -/
structure Joined (limit : Nat) (c : Consumer) (p : Provider) : Prop where
  follows : c.wire.Pairwise Follows
  freshCall : ∀ id call, .call id call ∈ c.wire → id < c.nextCall ∧ call.hold < c.nextHold
  freshHold : ∀ hold, .hold hold ∈ c.wire → hold < c.nextHold
  released : ∀ hold, .release hold ∈ c.wire → hold < c.nextHold ∧ hold ∉ c.entries.map Prod.fst
  aborted : ∀ id, .abort id ∈ c.wire → id < c.nextCall ∧ id ∉ c.calls.map Prod.fst
  ids : ∀ entry ∈ p.calls, EarlierCall c entry.1
  known : ∀ hold ∈ p.entries.map Prod.fst, EarlierHold c hold
  replied : ∀ id, .reply id ∈ p.wire → EarlierCall c id ∧ id ∉ p.calls.map Prod.fst
  gone : ∀ hold, .gone hold ∈ p.wire → EarlierHold c hold ∧ hold ∉ p.entries.map Prod.fst
  rooted : p.view.Rooted
  shut : p.isOpen = false → p.entries = [] ∧ p.calls = []
  fits : ∀ requests, requests <+: c.wire → (p.view.replay requests).calls.length ≤ limit
  covered : c.isOpen = true → ((p.view.replay c.wire).calls).Sublist c.calls
  clean : .idInUse ∉ p.errors ∧ .tooMany ∉ p.errors
  heldThere : c.isOpen = true → p.isOpen = true → ∀ hold ∈ c.entries.map Prod.fst,
    hold ∈ p.entries.map Prod.fst ∨ .hold hold ∈ c.wire ∨ .gone hold ∈ p.wire
  awaited : c.isOpen = true → p.isOpen = true → ∀ entry ∈ c.calls, entry.2.hold ∈ c.entries.map Prod.fst →
    entry ∈ p.calls ∨ .call entry.1 entry.2 ∈ c.wire ∨ .reply entry.1 ∈ p.wire ∨ .gone entry.2.hold ∈ p.wire

/-- No call waits while a slot is free. -/
def Eager (c : Consumer) : Prop :=
  c.isOpen = true → c.waiting ≠ [] → (c.limit : Int) ≤ c.inFlight

/-- Both sides keep to the window; `ending` is a hold whose calls are failing. -/
structure Sound (limit : Nat) (ending : Option Nat) (c : Consumer) (p : Provider) : Prop where
  window : Window limit ending c
  joined : Joined limit c p

variable {limit : Nat} {ending : Option Nat} {c : Consumer} {p : Provider} {next : Consumer}

/-! The consumer sends. -/

theorem send_eq (hOpen : c.isOpen = true) (request : Request) :
    c.send request = { c with wire := c.wire ++ [request] } := by
  rw [Consumer.send, if_pos hOpen]

theorem take_eq (hOpen : c.isOpen = true) (call : Call) :
    c.take call = { c with
      inFlight := c.inFlight + 1, calls := c.calls ++ [(c.nextCall, call)], nextCall := c.nextCall + 1
      sent := c.sent ++ [call.key], wire := c.wire ++ [.call c.nextCall call] } :=
  send_eq (show ({ c with
    inFlight := c.inFlight + 1, calls := c.calls ++ [(c.nextCall, call)], nextCall := c.nextCall + 1
    sent := c.sent ++ [call.key] } : Consumer).isOpen = true from hOpen) _

theorem Window.take {rest : List Call} (h : Window limit ending { c with waiting := call :: rest })
    (hOpen : c.isOpen = true) (hSlot : c.inFlight < c.limit) :
    Window limit ending { c.take call with waiting := rest } := by
  have hCount := h.counted hOpen
  rw [take_eq hOpen]
  refine
    { h with
      counted := ?_
      bounded := ?_
      shut := ?_
      ids := ?_
      fresh := ?_
      keys := ?_
      submitted := ?_
      order := ?_
      behind := ?_
      sent := ?_
      replies := ?_
      waits := fun other hOther => h.waits other (mem_cons_of_mem _ hOther)
      held := ?_ }
  · intro _
    simp only [length_append, length_singleton] at hCount ⊢
    push_cast
    exact congrArg (· + 1) hCount
  · intro _
    have hBound : (c.calls.length : Int) < c.limit := by
      rw [← hCount]
      exact hSlot
    simp only [length_append, length_singleton]
    omega
  · intro hShut
    exact nomatch hOpen.symm.trans hShut
  · rw [map_append, map_singleton, pairwise_append]
    refine ⟨h.ids, pairwise_singleton _ _, ?_⟩
    intro id hId other hOther
    obtain ⟨entry, hEntry, rfl⟩ := mem_map.mp hId
    rw [mem_singleton.mp hOther]
    exact h.fresh entry hEntry
  · intro entry hEntry
    rcases mem_append.mp hEntry with hOld | hNew
    · exact Nat.lt_succ_of_lt (h.fresh entry hOld)
    · rw [mem_singleton.mp hNew]
      exact Nat.lt_succ_self _
  · have hKeys := h.keys
    rw [perm_iff_count] at hKeys ⊢
    intro key
    have hKey := hKeys key
    simp only [map_cons, map_append, map_nil, count_append, count_cons, count_nil] at hKey ⊢
    omega
  · refine ⟨fun other hOther => h.submitted.1 other (mem_cons_of_mem _ hOther), ?_⟩
    intro entry hEntry
    rcases mem_append.mp hEntry with hOld | hNew
    · exact h.submitted.2 entry hOld
    · rw [mem_singleton.mp hNew]
      exact h.submitted.1 call mem_cons_self
  · refine ⟨?_, (pairwise_cons.mp h.order.2).2⟩
    rw [pairwise_append]
    refine ⟨h.order.1, pairwise_singleton _ _, ?_⟩
    intro key hKey other hOther
    rw [mem_singleton.mp hOther]
    exact (h.behind key hKey).2 call mem_cons_self
  · intro key hKey
    rcases mem_append.mp hKey with hOld | hNew
    · exact ⟨(h.behind key hOld).1, fun other hOther => (h.behind key hOld).2 other (mem_cons_of_mem _ hOther)⟩
    · rw [mem_singleton.mp hNew]
      refine ⟨?_, ?_⟩
      · obtain ⟨hBound, -⟩ := List.getElem?_eq_some_iff.mp (h.submitted.1 call mem_cons_self)
        exact hBound
      · intro other hOther
        exact (pairwise_cons.mp h.order.2).1 other.key (mem_map_of_mem hOther)
  · refine ⟨by rw [length_append, h.sent.1]; rfl, ?_⟩
    intro entry hEntry
    rcases mem_append.mp hEntry with hOld | hNew
    · rw [getElem?_append_left (by rw [h.sent.1]; exact h.fresh entry hOld)]
      exact h.sent.2 entry hOld
    · rw [mem_singleton.mp hNew]
      show (c.sent ++ [call.key])[c.nextCall]? = some call.key
      rw [← h.sent.1, getElem?_concat_length]
  · intro key id hReply
    have hOld := h.replies key id hReply
    obtain ⟨hBound, -⟩ := List.getElem?_eq_some_iff.mp hOld
    show (c.sent ++ [call.key])[id]? = some key
    rw [getElem?_append_left hBound]
    exact hOld
  · intro entry hEntry
    rcases mem_append.mp hEntry with hOld | hNew
    · exact h.held entry hOld
    · rw [mem_singleton.mp hNew]
      exact .inl (h.waits call mem_cons_self)

theorem prefix_snoc {requests wire : List Request} (h : requests <+: wire ++ [request]) :
    requests = wire ++ [request] ∨ requests <+: wire :=
  prefix_concat_iff.mp h

theorem Joined.take (h : Joined limit c p) (hOpen : c.isOpen = true) (hSlot : c.calls.length < limit)
    (hHold : call.hold < c.nextHold) : Joined limit (c.take call) p := by
  rw [take_eq hOpen]
  have hAfter : ((p.view.replay (c.wire ++ [.call c.nextCall call])).calls).Sublist
      (c.calls ++ [(c.nextCall, call)]) := by
    rw [View.replay_append, View.replay_cons, View.replay_nil, View.after]
    split_ifs
    · exact (h.covered hOpen).append (Sublist.refl _)
    · exact (h.covered hOpen).trans (sublist_append_left _ _)
  have hEarlier : ∀ id, EarlierCall c id → EarlierCall { c with
      inFlight := c.inFlight + 1, calls := c.calls ++ [(c.nextCall, call)], nextCall := c.nextCall + 1
      sent := c.sent ++ [call.key], wire := c.wire ++ [.call c.nextCall call] } id := by
    intro id hId
    refine ⟨Nat.lt_succ_of_lt hId.1, ?_⟩
    intro later other hLater
    rcases mem_append.mp hLater with hOld | hNew
    · exact hId.2 later other hOld
    · obtain ⟨rfl, -⟩ := Request.call.inj (mem_singleton.mp hNew)
      exact hId.1
  have hHolds : ∀ hold, EarlierHold c hold → EarlierHold { c with
      inFlight := c.inFlight + 1, calls := c.calls ++ [(c.nextCall, call)], nextCall := c.nextCall + 1
      sent := c.sent ++ [call.key], wire := c.wire ++ [.call c.nextCall call] } hold := by
    intro hold hEarly
    refine ⟨hEarly.1, ?_⟩
    intro later hLater
    rcases mem_append.mp hLater with hOld | hNew
    · exact hEarly.2 later hOld
    · exact nomatch mem_singleton.mp hNew
  exact
    { follows := by
        rw [pairwise_append]
        refine ⟨h.follows, pairwise_singleton _ _, ?_⟩
        intro request hRequest other hOther
        rw [mem_singleton.mp hOther]
        cases request with
        | call id earlier => exact (h.freshCall id earlier hRequest).1
        | hold hold => trivial
        | release hold => trivial
        | abort id => trivial
      freshCall := by
        intro id other hOther
        rcases mem_append.mp hOther with hOld | hNew
        · exact ⟨Nat.lt_succ_of_lt (h.freshCall id other hOld).1, (h.freshCall id other hOld).2⟩
        · obtain ⟨rfl, rfl⟩ := Request.call.inj (mem_singleton.mp hNew)
          exact ⟨Nat.lt_succ_self _, hHold⟩
      freshHold := by
        intro hold hOther
        rcases mem_append.mp hOther with hOld | hNew
        · exact h.freshHold hold hOld
        · exact nomatch mem_singleton.mp hNew
      released := by
        intro hold hRelease
        rcases mem_append.mp hRelease with hOld | hNew
        · exact h.released hold hOld
        · exact nomatch mem_singleton.mp hNew
      aborted := by
        intro id hAbort
        rcases mem_append.mp hAbort with hOld | hNew
        · obtain ⟨hEarly, hAbsent⟩ := h.aborted id hOld
          refine ⟨Nat.lt_succ_of_lt hEarly, ?_⟩
          rw [map_append, mem_append, not_or]
          exact ⟨hAbsent, fun hHere => Nat.ne_of_lt hEarly (mem_singleton.mp hHere)⟩
        · exact nomatch mem_singleton.mp hNew
      ids := fun entry hEntry => hEarlier _ (h.ids entry hEntry)
      known := fun hold hMem => hHolds hold (h.known hold hMem)
      replied := fun id hReply => ⟨hEarlier id (h.replied id hReply).1, (h.replied id hReply).2⟩
      gone := fun hold hGone => ⟨hHolds hold (h.gone hold hGone).1, (h.gone hold hGone).2⟩
      rooted := h.rooted
      shut := h.shut
      fits := by
        intro requests hPrefix
        rcases prefix_snoc hPrefix with rfl | hOld
        · refine Nat.le_trans hAfter.length_le ?_
          rw [length_append, length_singleton]
          exact hSlot
        · exact h.fits requests hOld
      covered := fun _ => hAfter
      clean := h.clean
      heldThere := by
        intro _ hProvider hold hMem
        rcases h.heldThere hOpen hProvider hold hMem with hThere | hSent | hGone
        · exact .inl hThere
        · exact .inr (.inl (mem_append_left _ hSent))
        · exact .inr (.inr hGone)
      awaited := by
        intro _ hProvider entry hEntry hMem
        rcases mem_append.mp hEntry with hOld | hNew
        · rcases h.awaited hOpen hProvider entry hOld hMem with hThere | hSent | hRest
          · exact .inl hThere
          · exact .inr (.inl (mem_append_left _ hSent))
          · exact .inr (.inr hRest)
        · rw [mem_singleton.mp hNew]
          exact .inr (.inl (mem_append_right _ (mem_singleton.mpr rfl))) }

theorem Joined.of_waiting (h : Joined limit c p) (waiting : List Call) : Joined limit { c with waiting := waiting } p :=
  { h with }

theorem Sound.isOpen (h : Sound limit ending c p) (hWaiting : c.waiting ≠ []) : c.isOpen = true := by
  by_contra hShut
  exact hWaiting (h.window.shut (Bool.not_eq_true _ ▸ hShut)).2.1

theorem Sound.take {rest : List Call} (h : Sound limit ending { c with waiting := call :: rest } p)
    (hSlot : c.inFlight < c.limit) : Sound limit ending { c.take call with waiting := rest } p := by
  have hOpen : c.isOpen = true := h.isOpen (cons_ne_nil _ _)
  have hCount : c.inFlight = c.calls.length := h.window.counted hOpen
  have hLimit : c.limit ≤ limit := h.window.limited
  have hHold : call.hold < c.nextHold := h.window.holds _ (h.window.waits call mem_cons_self)
  refine ⟨h.window.take hOpen hSlot, ?_⟩
  have hFree : c.calls.length < limit := by omega
  have hTaken : Joined limit (({ c with waiting := rest } : Consumer).take call) p :=
    (h.joined.of_waiting rest).take hOpen hFree hHold
  rw [take_eq (show ({ c with waiting := rest } : Consumer).isOpen = true from hOpen)] at hTaken
  rw [take_eq hOpen]
  exact hTaken

theorem Sound.drainAll {calls : List Call} {c : Consumer} (h : Sound limit ending { c with waiting := calls } p) :
    Sound limit ending (c.drainAll calls) p ∧ Eager (c.drainAll calls) := by
  induction calls generalizing c with
  | nil => exact ⟨h, fun _ hWaiting => absurd rfl hWaiting⟩
  | cons call rest ih =>
    rw [Consumer.drainAll]
    by_cases hFull : (c.limit : Int) ≤ c.inFlight
    · rw [if_pos hFull]
      exact ⟨h, fun _ _ => hFull⟩
    · rw [if_neg hFull]
      exact ih (h.take (lt_of_not_ge hFull))

theorem Sound.drain (h : Sound limit ending c p) : Sound limit ending c.drain p ∧ Eager c.drain :=
  h.drainAll

/-! Calls leave the table. -/

/-- How a call sent as `id` may settle. -/
structure Settles (id : Nat) (call : Call) (settlement : Settlement) : Prop where
  reply : ∀ other, settlement = .reply other → other = id
  ends : ∀ hold, settlement = .ended hold ∨ settlement = .rebinding hold → call.hold = hold

theorem Window.nodup (h : Window limit ending c) : (c.calls.map Prod.fst).Nodup :=
  h.ids.imp Nat.ne_of_lt

variable {id : Nat} {settlement : Settlement}

theorem drop_eq (hLookup : c.calls.lookup id = some call) (settlement : Settlement) :
    c.drop id settlement =
      { c with calls := erase c.calls id, settled := c.settled ++ [(call.key, settlement)] } := by
  rw [Consumer.drop, hLookup]
  rfl

theorem Window.drop (h : Window limit ending c)
    (hLookup : c.calls.lookup id = some call) (hSettles : Settles id call settlement) :
    Window limit ending { c.drop id settlement with inFlight := c.inFlight - 1 } := by
  have hMem := mem_of_lookup hLookup
  have hPerm := perm_erase h.nodup hMem
  have hOf : ∀ entry ∈ erase c.calls id, entry ∈ c.calls := fun entry hEntry => (mem_filter.mp hEntry).1
  have hLength := hPerm.length_eq
  rw [length_cons] at hLength
  rw [drop_eq hLookup]
  exact
    { h with
      counted := by
        intro hOpen
        have hCount := h.counted hOpen
        show c.inFlight - 1 = ((erase c.calls id).length : Int)
        omega
      bounded := by
        intro hOpen
        have hBound := h.bounded hOpen
        show (erase c.calls id).length ≤ c.limit
        omega
      shut := by
        intro hShut
        rw [(h.shut hShut).1] at hMem
        exact absurd hMem not_mem_nil
      ids := h.ids.sublist (filter_sublist.map Prod.fst)
      fresh := fun entry hEntry => h.fresh entry (hOf entry hEntry)
      keys := by
        have hKeys := h.keys
        have hMoved := hPerm.map fun entry => entry.2.key
        rw [perm_iff_count] at hKeys hMoved ⊢
        intro key
        have hKey := hKeys key
        have hMove := hMoved key
        simp only [map_cons, map_append, map_nil, count_append, count_cons,
          count_nil] at hKey hMove ⊢
        omega
      submitted := ⟨h.submitted.1, fun entry hEntry => h.submitted.2 entry (hOf entry hEntry)⟩
      sent := ⟨h.sent.1, fun entry hEntry => h.sent.2 entry (hOf entry hEntry)⟩
      replies := by
        intro key other hReply
        rcases mem_append.mp hReply with hOld | hNew
        · exact h.replies key other hOld
        · obtain ⟨rfl, hReplied⟩ := Prod.mk.inj (mem_singleton.mp hNew)
          rw [hSettles.reply other hReplied.symm]
          exact h.sent.2 _ hMem
      ends := by
        intro key hold hEnds
        have hCases : (key, .ended hold) ∈ c.settled ∨ (key, .rebinding hold) ∈ c.settled ∨
            (key = call.key ∧ (settlement = .ended hold ∨ settlement = .rebinding hold)) := by
          simpa [or_assoc, or_left_comm, and_or_left, eq_comm] using hEnds
        rcases hCases with hOld | hOld | ⟨rfl, hNew⟩
        · exact h.ends key hold (.inl hOld)
        · exact h.ends key hold (.inr hOld)
        · rw [← hSettles.ends hold hNew]
          exact h.submitted.2 _ hMem
      held := fun entry hEntry => h.held entry (hOf entry hEntry) }

theorem Joined.drop (h : Joined limit c p)
    (hLookup : c.calls.lookup id = some call) (hGone : c.isOpen = true → id ∉ (p.view.replay c.wire).calls.map Prod.fst) :
    Joined limit { c.drop id settlement with inFlight := c.inFlight - 1 } p := by
  rw [drop_eq hLookup]
  exact
    { h with
      covered := by
        intro hOpen
        have hKept := (h.covered hOpen).filter fun entry => entry.1 ≠ id
        rwa [filter_eq_self.mpr ?_] at hKept
        intro entry hEntry
        refine decide_eq_true fun hId => hGone hOpen ?_
        exact mem_map.mpr ⟨entry, hEntry, hId⟩
      aborted := by
        intro other hAbort
        obtain ⟨hEarly, hAbsent⟩ := h.aborted other hAbort
        exact ⟨hEarly, fun hHere => hAbsent (Sublist.map Prod.fst filter_sublist |>.subset hHere)⟩
      awaited := by
        intro hOpen hProvider entry hEntry hMem
        exact h.awaited hOpen hProvider entry (mem_filter.mp hEntry).1 hMem }

theorem Sound.freed (h : Sound limit ending c p) {call : Call} (hLookup : c.calls.lookup id = some call)
    (hSettles : Settles id call settlement) (hGone : c.isOpen = true → id ∉ (p.view.replay c.wire).calls.map Prod.fst) :
    Sound limit ending (c.drop id settlement).freed p ∧ Eager (c.drop id settlement).freed := by
  have hDropped : Sound limit ending { c.drop id settlement with inFlight := c.inFlight - 1 } p :=
    ⟨h.window.drop hLookup hSettles, h.joined.drop hLookup hGone⟩
  exact hDropped.drain

/-- A request that is no call, and what its sender forgets with it. -/
structure Sends (limit : Nat) (c : Consumer) (p : Provider) (request : Request) (next : Consumer) : Prop where
  wire : next.wire = c.wire ++ [request]
  isOpen : c.isOpen = true
  nextCall : next.nextCall = c.nextCall
  nextHold : c.nextHold ≤ next.nextHold
  calls : next.calls.Sublist c.calls
  noCall : ∀ id call, request ≠ .call id call
  hold : ∀ hold, request = .hold hold → hold = c.nextHold ∧ hold < next.nextHold
  release : ∀ hold, request = .release hold → hold < c.nextHold ∧ hold ∉ next.entries.map Prod.fst
  abort : ∀ id, request = .abort id → id < c.nextCall ∧ id ∉ next.calls.map Prod.fst
  entries : ∀ hold ∈ next.entries.map Prod.fst, hold ∈ c.entries.map Prod.fst ∨ request = .hold hold
  covered : ((p.view.replay c.wire).after request).calls.Sublist next.calls
  awaited : ∀ entry ∈ next.calls, entry.2.hold ∈ next.entries.map Prod.fst → entry.2.hold ∈ c.entries.map Prod.fst

theorem Sends.mem {request other : Request} (h : Sends limit c p request next)
    (hOther : other ∈ next.wire) : other ∈ c.wire ∨ other = request := by
  rw [h.wire] at hOther
  simpa using hOther

theorem Sends.earlierCall (h : Sends limit c p request next) (hId : EarlierCall c id) : EarlierCall next id := by
  refine ⟨h.nextCall ▸ hId.1, ?_⟩
  intro later call hLater
  rcases h.mem hLater with hOld | hNew
  · exact hId.2 later call hOld
  · exact absurd hNew.symm (h.noCall later call)

theorem Sends.earlierHold (h : Sends limit c p request next) {hold : Nat}
    (hHold : EarlierHold c hold) : EarlierHold next hold := by
  refine ⟨Nat.lt_of_lt_of_le hHold.1 h.nextHold, ?_⟩
  intro later hLater
  rcases h.mem hLater with hOld | hNew
  · exact hHold.2 later hOld
  · rw [(h.hold later hNew.symm).1]
    exact hHold.1

theorem Sends.follows (h : Sends limit c p request next) (hJoined : Joined limit c p) : next.wire.Pairwise Follows := by
  rw [h.wire, pairwise_append]
  refine ⟨hJoined.follows, pairwise_singleton _ _, ?_⟩
  intro earlier hEarlier later hLater
  rw [mem_singleton.mp hLater]
  cases request with
  | call id call => exact absurd rfl (h.noCall id call)
  | release hold => cases earlier <;> trivial
  | abort id => cases earlier <;> trivial
  | hold hold =>
    rw [(h.hold hold rfl).1]
    cases earlier with
    | hold other => exact hJoined.freshHold other hEarlier
    | call id call => exact (hJoined.freshCall id call hEarlier).2
    | release other => trivial
    | abort id => trivial

theorem Sends.joined (h : Sends limit c p request next) (hJoined : Joined limit c p) : Joined limit next p :=
  { follows := h.follows hJoined
    freshCall := by
      intro id call hCall
      rcases h.mem hCall with hOld | hNew
      · obtain ⟨hId, hHold⟩ := hJoined.freshCall id call hOld
        exact ⟨h.nextCall ▸ hId, Nat.lt_of_lt_of_le hHold h.nextHold⟩
      · exact absurd hNew.symm (h.noCall id call)
    freshHold := by
      intro hold hHold
      rcases h.mem hHold with hOld | hNew
      · exact Nat.lt_of_lt_of_le (hJoined.freshHold hold hOld) h.nextHold
      · exact (h.hold hold hNew.symm).2
    released := by
      intro hold hRelease
      rcases h.mem hRelease with hOld | hNew
      · obtain ⟨hEarly, hAbsent⟩ := hJoined.released hold hOld
        refine ⟨Nat.lt_of_lt_of_le hEarly h.nextHold, fun hHere => ?_⟩
        rcases h.entries hold hHere with hThere | hAsked
        · exact hAbsent hThere
        · exact Nat.ne_of_lt hEarly (h.hold hold hAsked).1
      · obtain ⟨hEarly, hAbsent⟩ := h.release hold hNew.symm
        exact ⟨Nat.lt_of_lt_of_le hEarly h.nextHold, hAbsent⟩
    aborted := by
      intro id hAbort
      rw [h.nextCall]
      rcases h.mem hAbort with hOld | hNew
      · obtain ⟨hEarly, hAbsent⟩ := hJoined.aborted id hOld
        exact ⟨hEarly, fun hHere => hAbsent ((h.calls.map Prod.fst).subset hHere)⟩
      · exact h.abort id hNew.symm
    ids := fun entry hEntry => h.earlierCall (hJoined.ids entry hEntry)
    known := fun hold hMem => h.earlierHold (hJoined.known hold hMem)
    replied := fun id hReply => ⟨h.earlierCall (hJoined.replied id hReply).1, (hJoined.replied id hReply).2⟩
    gone := fun hold hGone => ⟨h.earlierHold (hJoined.gone hold hGone).1, (hJoined.gone hold hGone).2⟩
    rooted := hJoined.rooted
    shut := hJoined.shut
    fits := by
      intro requests hPrefix
      rw [h.wire] at hPrefix
      rcases prefix_snoc hPrefix with rfl | hOld
      · rw [View.replay_append, View.replay_cons, View.replay_nil]
        exact (View.after_sublist _ h.noCall).length_le.trans (hJoined.fits c.wire (prefix_refl _))
      · exact hJoined.fits requests hOld
    covered := by
      intro _
      rw [h.wire, View.replay_append, View.replay_cons, View.replay_nil]
      exact h.covered
    clean := hJoined.clean
    heldThere := by
      intro _ hProvider hold hMem
      rw [h.wire]
      rcases h.entries hold hMem with hOld | rfl
      · rcases hJoined.heldThere h.isOpen hProvider hold hOld with hThere | hSent | hGone
        · exact .inl hThere
        · exact .inr (.inl (mem_append_left _ hSent))
        · exact .inr (.inr hGone)
      · exact .inr (.inl (mem_append_right _ mem_cons_self))
    awaited := by
      intro _ hProvider entry hEntry hMem
      rw [h.wire]
      rcases hJoined.awaited h.isOpen hProvider entry (h.calls.subset hEntry) (h.awaited entry hEntry hMem) with
        hThere | hSent | hRest
      · exact .inl hThere
      · exact .inr (.inl (mem_append_left _ hSent))
      · exact .inr (.inr hRest) }

end OctoberHarness.Remote
