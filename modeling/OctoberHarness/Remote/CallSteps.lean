import OctoberHarness.Remote.CallWindow

/-! What the consumer's owners, the hold's end and the link's end make of the call
window. -/
namespace OctoberHarness.Remote

open List OrderedMap

variable {limit : Nat} {ending : Option Nat} {c : Consumer} {p : Provider}

/-! Calls wait, and leave the queue. -/

variable {hold : Nat}

theorem Window.enqueue (h : Window limit ending c) (hHeld : hold ∈ c.entries.map Prod.fst) (method : Nat) (name : String) :
    Window limit ending { c with
      submitted := c.submitted ++ [hold], waiting := c.waiting ++ [⟨c.submitted.length, hold, method, name⟩] } := by
  have hOld : ∀ {key other : Nat}, c.submitted[key]? = some other → (c.submitted ++ [hold])[key]? = some other := by
    intro key other hKey
    rw [getElem?_append_left (List.getElem?_eq_some_iff.mp hKey).1]
    exact hKey
  have hEarlier : ∀ call ∈ c.waiting, call.key < c.submitted.length := fun call hCall =>
    (List.getElem?_eq_some_iff.mp (h.submitted.1 call hCall)).1
  exact
    { h with
      shut := by
        intro hShut
        rw [(h.shut hShut).2.2] at hHeld
        exact absurd hHeld not_mem_nil
      keys := by
        have hKeys := h.keys
        rw [perm_iff_count] at hKeys ⊢
        intro key
        have hKey := hKeys key
        simp only [length_append, length_singleton, range_succ, map_append, map_cons,
          map_nil, count_append] at hKey ⊢
        omega
      submitted := by
        refine ⟨?_, fun entry hEntry => hOld (h.submitted.2 entry hEntry)⟩
        intro call hCall
        rcases mem_append.mp hCall with hWaits | hNew
        · exact hOld (h.submitted.1 call hWaits)
        · rw [mem_singleton.mp hNew]
          exact getElem?_concat_length
      order := by
        refine ⟨h.order.1, ?_⟩
        rw [map_append, map_singleton, pairwise_append]
        refine ⟨h.order.2, pairwise_singleton _ _, ?_⟩
        intro key hKey other hOther
        obtain ⟨call, hCall, rfl⟩ := mem_map.mp hKey
        rw [mem_singleton.mp hOther]
        exact hEarlier call hCall
      behind := by
        intro key hKey
        obtain ⟨hBound, hAhead⟩ := h.behind key hKey
        rw [length_append, length_singleton]
        refine ⟨Nat.lt_succ_of_lt hBound, ?_⟩
        intro call hCall
        rcases mem_append.mp hCall with hWaits | hNew
        · exact hAhead call hWaits
        · rw [mem_singleton.mp hNew]
          exact hBound
      ends := fun key other hEnds => hOld (h.ends key other hEnds)
      waits := by
        intro call hCall
        rcases mem_append.mp hCall with hWaits | hNew
        · exact h.waits call hWaits
        · rw [mem_singleton.mp hNew]
          exact hHeld }

theorem Sound.enqueue (h : Sound limit ending c p) (hHeld : hold ∈ c.entries.map Prod.fst) (method : Nat) (name : String) :
    Sound limit ending { c with
      submitted := c.submitted ++ [hold], waiting := c.waiting ++ [⟨c.submitted.length, hold, method, name⟩] } p :=
  ⟨h.window.enqueue hHeld method name, { h.joined with }⟩

theorem Sound.call (h : Sound limit ending c p) (hEager : Eager c) (hold : Nat) (name : String) :
    Sound limit ending (c.call hold name) p ∧ Eager (c.call hold name) := by
  rw [Consumer.call]
  split
  case h_2 => exact ⟨h, hEager⟩
  rename_i names hLookup
  split_ifs with hName
  case neg => exact ⟨h, hEager⟩
  have hHeld : hold ∈ c.entries.map Prod.fst := mem_map_of_mem (mem_of_lookup hLookup)
  have hQueued := h.enqueue hHeld (names.idxOf name) name
  rw [Consumer.submit]
  split_ifs with hSlot
  · have hWaiting : c.waiting = [] := hSlot.1
    have hOpen : c.isOpen = true := hQueued.isOpen (by simp)
    rw [hWaiting] at hQueued
    have hTaken := Sound.take (c := { c with submitted := c.submitted ++ [hold] }) hQueued hSlot.2
    rw [take_eq (c := { c with submitted := c.submitted ++ [hold] }) hOpen] at hTaken ⊢
    rw [← hWaiting] at hTaken
    exact ⟨hTaken, fun _ hOther => absurd hWaiting hOther⟩
  · refine ⟨hQueued, fun hOpen _ => ?_⟩
    by_cases hWaiting : c.waiting = []
    · exact le_of_not_gt fun hFree => hSlot ⟨hWaiting, hFree⟩
    · exact hEager hOpen hWaiting

theorem settled_keys (calls : List Call) (settlement : Settlement) :
    (calls.map fun call => (call.key, settlement)).map Prod.fst = calls.map Call.key := by
  rw [map_map]
  rfl

variable {settlement : Settlement}

/-- Waiting calls leave the queue, settled. -/
theorem Window.remove (h : Window limit ending c) (P : Call → Prop) [DecidablePred P] (hReply : ∀ id, settlement ≠ .reply id)
    (hEnds : ∀ call, P call → ∀ hold, settlement = .ended hold ∨ settlement = .rebinding hold → call.hold = hold) :
    Window limit ending (({ c with waiting := c.waiting.filter fun call => ¬P call } : Consumer).settle
      (c.waiting.filter fun call => P call) settlement) := by
  have hOf : ∀ call ∈ c.waiting.filter (fun call => ¬P call), call ∈ c.waiting := fun call hCall =>
    (mem_filter.mp hCall).1
  exact
    { h with
      shut := by
        intro hShut
        obtain ⟨hCalls, hWaiting, hEntries⟩ := h.shut hShut
        refine ⟨hCalls, ?_, hEntries⟩
        show c.waiting.filter _ = []
        rw [hWaiting, filter_nil]
      keys := by
        have hKeys := h.keys
        have hParts := (filter_append_perm (fun call => decide (P call)) c.waiting).map Call.key
        rw [perm_iff_count] at hKeys hParts ⊢
        intro key
        have hKey := hKeys key
        have hPart := hParts key
        simp only [Consumer.settle, map_append, settled_keys, count_append, decide_not] at hKey hPart ⊢
        omega
      submitted := ⟨fun call hCall => h.submitted.1 call (hOf call hCall), h.submitted.2⟩
      order := ⟨h.order.1, h.order.2.sublist (filter_sublist.map Call.key)⟩
      behind := fun key hKey => ⟨(h.behind key hKey).1, fun call hCall => (h.behind key hKey).2 call (hOf call hCall)⟩
      replies := by
        intro key id hMem
        rcases mem_append.mp hMem with hOld | hNew
        · exact h.replies key id hOld
        · obtain ⟨call, -, hCall⟩ := mem_map.mp hNew
          exact absurd (Prod.mk.inj hCall).2 (hReply id)
      ends := by
        intro key hold hMem
        have hNewEnds : ∀ other, (key, other) ∈ (c.waiting.filter fun call => P call).map (fun call => (call.key, settlement)) →
            (other = .ended hold ∨ other = .rebinding hold) → c.submitted[key]? = some hold := by
          intro other hOther hEnd
          obtain ⟨call, hCall, hEq⟩ := mem_map.mp hOther
          obtain ⟨rfl, rfl⟩ := Prod.mk.inj hEq
          obtain ⟨hWaits, hP⟩ := mem_filter.mp hCall
          rw [← hEnds call (of_decide_eq_true hP) hold hEnd]
          exact h.submitted.1 call hWaits
        rcases hMem with hMem | hMem
        · rcases mem_append.mp hMem with hOld | hNew
          · exact h.ends key hold (.inl hOld)
          · exact hNewEnds _ hNew (.inl rfl)
        · rcases mem_append.mp hMem with hOld | hNew
          · exact h.ends key hold (.inr hOld)
          · exact hNewEnds _ hNew (.inr rfl)
      waits := fun call hCall => h.waits call (hOf call hCall) }

theorem Sound.remove (h : Sound limit ending c p) (P : Call → Prop) [DecidablePred P] (hReply : ∀ id, settlement ≠ .reply id)
    (hEnds : ∀ call, P call → ∀ hold, settlement = .ended hold ∨ settlement = .rebinding hold → call.hold = hold) :
    Sound limit ending (({ c with waiting := c.waiting.filter fun call => ¬P call } : Consumer).settle
      (c.waiting.filter fun call => P call) settlement) p :=
  ⟨h.window.remove P hReply hEnds, { h.joined with }⟩

theorem Eager.remove (h : Eager c) (P : Call → Prop) [DecidablePred P] (settlement : Settlement) :
    Eager (({ c with waiting := c.waiting.filter fun call => ¬P call } : Consumer).settle
      (c.waiting.filter fun call => P call) settlement) := by
  intro hOpen hWaiting
  refine h hOpen fun hNone => hWaiting ?_
  show c.waiting.filter _ = []
  rw [hNone, filter_nil]

theorem Sound.opened (h : Sound limit ending c p) (hLimit : c.limit = 0) :
    Sound limit ending (c.opened limit) p ∧ Eager (c.opened limit) := by
  have hOpened : Sound limit ending { c with limit := limit } p := by
    refine ⟨{ h.window with bounded := ?_, limited := Nat.le_refl limit }, { h.joined with }⟩
    intro hOpen
    have hNone := h.window.bounded hOpen
    rw [hLimit] at hNone
    exact hNone.trans (Nat.zero_le limit)
  exact hOpened.drain

/-! Holds are asked for. -/

theorem Sound.attach (h : Sound limit none c p) (hEager : Eager c) (hOpen : c.isOpen = true) :
    Sound limit none c.attach p ∧ Eager c.attach := by
  rw [Consumer.attach, send_eq (c := { c with
    nextHold := c.nextHold + 1, entries := c.entries ++ [(c.nextHold, ⟨false, none⟩)] }) hOpen]
  have hKeys : ∀ hold ∈ (c.entries ++ [(c.nextHold, Held.mk false none)]).map Prod.fst,
      hold ∈ c.entries.map Prod.fst ∨ hold = c.nextHold := by
    intro hold hHold
    simpa using hHold
  have hGrown : ∀ hold ∈ c.entries.map Prod.fst,
      hold ∈ (c.entries ++ [(c.nextHold, Held.mk false none)]).map Prod.fst := by
    intro hold hHold
    rw [map_append]
    exact mem_append_left _ hHold
  have hCalls : ∀ entry ∈ c.calls, entry.2.hold ∈ c.entries.map Prod.fst := fun entry hEntry =>
    (h.window.held entry hEntry).resolve_right (Option.some_ne_none _)
  refine ⟨⟨?_, ?_⟩, hEager⟩
  · exact
      { h.window with
        shut := fun hShut => nomatch hOpen.symm.trans hShut
        waits := fun call hCall => hGrown _ (h.window.waits call hCall)
        held := fun entry hEntry => .inl (hGrown _ (hCalls entry hEntry))
        holds := by
          intro hold hHold
          rcases hKeys hold hHold with hOld | rfl
          · exact Nat.lt_succ_of_lt (h.window.holds hold hOld)
          · exact Nat.lt_succ_self _ }
  · refine Sends.joined (?_ : Sends limit c p (.hold c.nextHold) _) h.joined
    exact
      { wire := rfl
        isOpen := hOpen
        nextCall := rfl
        nextHold := Nat.le_succ _
        calls := Sublist.refl _
        noCall := fun id call hCall => nomatch hCall
        hold := by
          intro hold hHold
          obtain rfl := Request.hold.inj hHold
          exact ⟨rfl, Nat.lt_succ_self _⟩
        release := fun hold hRelease => nomatch hRelease
        abort := fun id hAbort => nomatch hAbort
        entries := by
          intro hold hHold
          rcases hKeys hold hHold with hOld | rfl
          · exact .inl hOld
          · exact .inr rfl
        covered := h.joined.covered hOpen
        awaited := fun entry hEntry _ => hCalls entry hEntry }

/-- The caller's cancellation: a waiting call leaves the queue, one in flight the
table, and its `abort` comes before the call that takes its slot. -/
theorem Sound.cancel (h : Sound limit ending c p) (hEager : Eager c) (key : Nat) :
    Sound limit ending (c.cancel key) p ∧ Eager (c.cancel key) := by
  rw [Consumer.cancel]
  split_ifs with hWaits
  · exact ⟨h.remove (fun call => call.key = key) (fun id hReply => nomatch hReply)
      (fun call _ hold hEnds => hEnds.elim nofun nofun), hEager.remove _ _⟩
  cases hFound : c.calls.find? fun entry => entry.2.key = key with
  | none => exact ⟨h, hEager⟩
  | some entry =>
    obtain ⟨id, call⟩ := entry
    have hMem : (id, call) ∈ c.calls := mem_of_find?_eq_some hFound
    have hOpen : c.isOpen = true := by
      by_contra hShut
      rw [(h.window.shut (Bool.not_eq_true _ ▸ hShut)).1] at hMem
      exact absurd hMem not_mem_nil
    have hLookup : c.calls.lookup id = some call := (lookup_eq_some_iff h.window.nodup id call).mpr hMem
    have hSettles : Settles id call .cancelled := ⟨nofun, fun hold hEnds => hEnds.elim nofun nofun⟩
    have hDropped := h.window.drop hLookup hSettles
    show Sound limit ending ((c.drop id .cancelled).send (.abort id)).freed p ∧
      Eager ((c.drop id .cancelled).send (.abort id)).freed
    rw [drop_eq hLookup] at hDropped ⊢
    rw [send_eq (c := { c with
      calls := erase c.calls id, settled := c.settled ++ [(call.key, .cancelled)] }) hOpen]
    refine Sound.drain ⟨{ hDropped with }, Sends.joined (?_ : Sends limit c p (.abort id) _) h.joined⟩
    exact
      { wire := rfl
        isOpen := hOpen
        nextCall := rfl
        nextHold := Nat.le_refl _
        calls := filter_sublist
        noCall := fun other call hCall => nomatch hCall
        hold := fun hold hHold => nomatch hHold
        release := fun hold hRelease => nomatch hRelease
        abort := by
          intro other hAbort
          obtain rfl := Request.abort.inj hAbort
          refine ⟨h.window.fresh _ hMem, fun hHere => ?_⟩
          obtain ⟨entry, hEntry, hKey⟩ := mem_map.mp hHere
          exact of_decide_eq_true (mem_filter.mp hEntry).2 hKey
        entries := fun hold hHold => .inl hHold
        covered := (h.joined.covered hOpen).filter _
        awaited := fun entry _ hHeld => hHeld }

/-! A hold ends, with its calls. -/

theorem take_frame (c : Consumer) (call : Call) :
    (c.take call).entries = c.entries ∧ (c.take call).settled = c.settled ∧
      (c.take call).calls = c.calls ++ [(c.nextCall, call)] ∧ (c.take call).nextCall = c.nextCall + 1 ∧
      ∃ requests, (c.take call).wire = c.wire ++ requests ∧ ∀ request ∈ requests, request = .call c.nextCall call := by
  cases hOpen : c.isOpen with
  | true =>
    rw [take_eq hOpen]
    exact ⟨rfl, rfl, rfl, rfl, [.call c.nextCall call], rfl, fun request hRequest => mem_singleton.mp hRequest⟩
  | false =>
    rw [Consumer.take, Consumer.transmit, Consumer.send, if_neg (by simp [hOpen])]
    exact ⟨rfl, rfl, rfl, rfl, [], (append_nil _).symm, fun request hRequest => absurd hRequest not_mem_nil⟩

/-- What draining leaves and adds: only calls that waited, under new ids. -/
structure Drained (queue : List Call) (c next : Consumer) : Prop where
  entries : next.entries = c.entries
  settled : next.settled = c.settled
  calls : ∃ taken, next.calls = c.calls ++ taken ∧ ∀ entry ∈ taken, c.nextCall ≤ entry.1 ∧ entry.2 ∈ queue
  wire : ∃ requests, next.wire = c.wire ++ requests ∧ ∀ request ∈ requests, ∃ id, ∃ call ∈ queue, request = .call id call

theorem Drained.refl (calls : List Call) (c : Consumer) (waiting : List Call) :
    Drained calls c { c with waiting := waiting } :=
  ⟨rfl, rfl, ⟨[], (append_nil _).symm, fun _ hEntry => absurd hEntry not_mem_nil⟩,
    ⟨[], (append_nil _).symm, fun _ hRequest => absurd hRequest not_mem_nil⟩⟩

theorem drained (calls : List Call) (c : Consumer) : Drained calls c (c.drainAll calls) := by
  induction calls generalizing c with
  | nil => exact Drained.refl [] c []
  | cons call rest ih =>
    rw [Consumer.drainAll]
    split_ifs
    · exact Drained.refl (call :: rest) c (call :: rest)
    · obtain ⟨hEntries, hSettled, ⟨taken, hCalls, hTaken⟩, requests, hWire, hRequests⟩ := ih (c.take call)
      obtain ⟨hTakeEntries, hTakeSettled, hTakeCalls, hNext, sent, hTakeWire, hSent⟩ := take_frame c call
      refine ⟨hEntries.trans hTakeEntries, hSettled.trans hTakeSettled, ⟨(c.nextCall, call) :: taken, ?_, ?_⟩,
        ⟨sent ++ requests, ?_, ?_⟩⟩
      · rw [hCalls, hTakeCalls, append_assoc, singleton_append]
      · intro entry hEntry
        rcases mem_cons.mp hEntry with rfl | hLater
        · exact ⟨Nat.le_refl _, mem_cons_self⟩
        · obtain ⟨hId, hMem⟩ := hTaken entry hLater
          rw [hNext] at hId
          exact ⟨Nat.le_of_succ_le hId, mem_cons_of_mem _ hMem⟩
      · rw [hWire, hTakeWire, append_assoc]
      · intro request hRequest
        rcases mem_append.mp hRequest with hFirst | hLater
        · exact ⟨c.nextCall, call, mem_cons_self, hSent request hFirst⟩
        · obtain ⟨id, other, hOther, hEq⟩ := hRequests request hLater
          exact ⟨id, other, mem_cons_of_mem _ hOther, hEq⟩

theorem drained_freed (c : Consumer) (id : Nat) (settlement : Settlement) :
    Drained c.waiting (c.drop id settlement) (c.drop id settlement).freed := by
  obtain ⟨hEntries, hSettled, hCalls, hWire⟩ :=
    drained c.waiting { c.drop id settlement with inFlight := (c.drop id settlement).inFlight - 1 }
  exact ⟨hEntries, hSettled, hCalls, hWire⟩

/-- Neither table has the hold, nor a call on it, once what is on its way arrived. -/
structure Bare (hold : Nat) (c : Consumer) (p : Provider) : Prop where
  absent : hold ∉ c.entries.map Prod.fst
  calls : ∀ entry ∈ (p.view.replay c.wire).calls, entry.2.hold ≠ hold

theorem Bare.freed {id : Nat} (h : Bare hold c p) (hWindow : Window limit ending c) (settlement : Settlement) :
    Bare hold (c.drop id settlement).freed p := by
  obtain ⟨hEntries, -, -, requests, hWire, hRequests⟩ := drained_freed c id settlement
  refine ⟨by rw [hEntries]; exact h.absent, ?_⟩
  intro entry hEntry hHold
  rw [hWire, View.replay_append] at hEntry
  rcases View.mem_calls_replay hEntry with hOld | hNew
  · exact h.calls entry hOld hHold
  · obtain ⟨other, call, hCall, hEq⟩ := hRequests _ hNew
    obtain ⟨-, rfl⟩ := Request.call.inj hEq
    apply h.absent
    rw [← hHold]
    exact hWindow.waits _ hCall

theorem Sound.failAll {ids : List Nat} {c : Consumer} (h : Sound limit (some hold) c p) (hEager : Eager c)
    (hBare : Bare hold c p) (hNodup : ids.Nodup) (hIds : ∀ id ∈ ids, ∃ call, c.calls.lookup id = some call ∧ call.hold = hold)
    (hAll : ∀ entry ∈ c.calls, entry.2.hold = hold → entry.1 ∈ ids) :
    (Sound limit none (c.failAll hold ids) p ∧ Eager (c.failAll hold ids)) ∧
      (c.failAll hold ids).entries = c.entries := by
  induction ids generalizing c with
  | nil =>
    refine ⟨⟨⟨{ h.window with held := ?_ }, h.joined⟩, hEager⟩, rfl⟩
    intro entry hEntry
    rcases h.window.held entry hEntry with hHeld | hEnding
    · exact .inl hHeld
    · exact absurd (hAll entry hEntry (Option.some.inj hEnding)) not_mem_nil
  | cons id rest ih =>
    rw [nodup_cons] at hNodup
    obtain ⟨call, hLookup, hHold⟩ := hIds id mem_cons_self
    have hSettles : Settles id call (.ended hold) := by
      refine ⟨nofun, fun other hEnds => ?_⟩
      rcases hEnds with hEnds | hEnds
      · rw [hHold, Settlement.ended.inj hEnds]
      · exact nomatch hEnds
    have hGone : c.isOpen = true → id ∉ (p.view.replay c.wire).calls.map Prod.fst := by
      intro hOpen hHere
      obtain ⟨entry, hEntry, rfl⟩ := mem_map.mp hHere
      have hSame := (lookup_eq_some_iff h.window.nodup _ _).mpr ((h.joined.covered hOpen).subset hEntry)
      rw [hLookup] at hSame
      exact hBare.calls entry hEntry (Option.some.inj hSame ▸ hHold)
    obtain ⟨hFreed, hFreedEager⟩ := h.freed hLookup hSettles hGone
    obtain ⟨hEntries, -, ⟨taken, hCalls, hTaken⟩, -⟩ := drained_freed c id (.ended hold)
    rw [drop_eq hLookup] at hCalls hTaken
    have hTakenHold : ∀ entry ∈ taken, entry.2.hold ≠ hold := by
      intro entry hEntry hOther
      apply hBare.absent
      rw [← hOther]
      exact h.window.waits _ (hTaken entry hEntry).2
    have hLater : ∀ other ∈ rest, ∃ found, (c.drop id (.ended hold)).freed.calls.lookup other = some found ∧
        found.hold = hold := by
      intro other hOther
      obtain ⟨found, hFound, hFoundHold⟩ := hIds other (mem_cons_of_mem _ hOther)
      refine ⟨found, ?_, hFoundHold⟩
      have hNe : other ≠ id := fun hEq => hNodup.1 (hEq ▸ hOther)
      rw [drop_eq hLookup, hCalls, OrderedMap.lookup_append, lookup_erase, if_neg hNe, hFound]
      rfl
    have hOnly : ∀ entry ∈ (c.drop id (.ended hold)).freed.calls, entry.2.hold = hold → entry.1 ∈ rest := by
      intro entry hEntry hEntryHold
      rw [drop_eq hLookup, hCalls] at hEntry
      rcases mem_append.mp hEntry with hOld | hNew
      · obtain ⟨hMem, hNe⟩ := mem_filter.mp hOld
        exact (mem_cons.mp (hAll entry hMem hEntryHold)).resolve_left (of_decide_eq_true hNe)
      · exact absurd hEntryHold (hTakenHold entry hNew)
    rw [Consumer.failAll]
    obtain ⟨hRest, hSame⟩ := ih hFreed hFreedEager (hBare.freed h.window _) hNodup.2 hLater hOnly
    exact ⟨hRest, hSame.trans hEntries⟩

theorem mem_keys_erase (entries : List (Nat × Held)) (hold other : Nat) :
    other ∈ (erase entries hold).map Prod.fst ↔ other ∈ entries.map Prod.fst ∧ other ≠ hold := by
  simp [erase]

theorem Joined.erase (h : Joined limit c p) (hold : Nat) :
    Joined limit { c with entries := OrderedMap.erase c.entries hold } p := by
  have hOf : ∀ other ∈ (OrderedMap.erase c.entries hold).map Prod.fst, other ∈ c.entries.map Prod.fst :=
    fun other hOther => ((mem_keys_erase c.entries hold other).mp hOther).1
  exact
    { h with
      released := fun other hRelease =>
        ⟨(h.released other hRelease).1, fun hHere => (h.released other hRelease).2 (hOf other hHere)⟩
      heldThere := fun hOpen hProvider other hOther => h.heldThere hOpen hProvider other (hOf other hOther)
      awaited := fun hOpen hProvider entry hEntry hHeld => h.awaited hOpen hProvider entry hEntry (hOf _ hHeld) }

/-- A hold whose calls the provider drops leaves, and its calls fail. -/
theorem Sound.forget (hWindow : Window limit none c) (hJoined : Joined limit { c with entries := erase c.entries hold } p)
    (hEager : Eager c) (hCalls : ∀ entry ∈ (p.view.replay c.wire).calls, entry.2.hold ≠ hold) :
    (Sound limit none (c.forget hold) p ∧ Eager (c.forget hold)) ∧ hold ∉ (c.forget hold).entries.map Prod.fst := by
  have hEnds : ∀ call : Call, call.hold = hold → ∀ other,
      Settlement.ended hold = .ended other ∨ Settlement.ended hold = .rebinding other → call.hold = other := by
    intro call hCall other hEnds
    rcases hEnds with hEnds | hEnds
    · rw [hCall, Settlement.ended.inj hEnds]
    · exact nomatch hEnds
  have hReply : ∀ id, Settlement.ended hold ≠ .reply id := fun id hReply => nomatch hReply
  have hRemoved := hWindow.remove (fun call => call.hold = hold) hReply hEnds
  have hErased : Sound limit (some hold)
      (({ c with entries := erase c.entries hold } : Consumer).removeHold hold (.ended hold)) p := by
    refine ⟨{ hRemoved with shut := ?_, waits := ?_, held := ?_, holds := ?_ }, { hJoined with }⟩
    · intro hShut
      obtain ⟨hNone, hWaiting, hEntries⟩ := hRemoved.shut hShut
      refine ⟨hNone, hWaiting, ?_⟩
      show c.entries.filter _ = []
      rw [show c.entries = [] from hEntries, filter_nil]
    · intro call hCall
      obtain ⟨hWaits, hNe⟩ := mem_filter.mp hCall
      exact (mem_keys_erase c.entries hold _).mpr ⟨hWindow.waits call hWaits, of_decide_eq_true hNe⟩
    · intro entry hEntry
      by_cases hHold : entry.2.hold = hold
      · exact .inr (congrArg some hHold)
      · have hHeld := (hWindow.held entry hEntry).resolve_right (Option.some_ne_none _)
        exact .inl ((mem_keys_erase c.entries hold _).mpr ⟨hHeld, hHold⟩)
    · exact fun other hOther => hWindow.holds other ((mem_keys_erase c.entries hold other).mp hOther).1
  have hAbsent : hold ∉ (erase c.entries hold).map Prod.fst := fun hHere =>
    ((mem_keys_erase c.entries hold hold).mp hHere).2 rfl
  have hIds : ((c.calls.filter fun entry => entry.2.hold = hold).map Prod.fst).Nodup :=
    hWindow.nodup.sublist (filter_sublist.map Prod.fst)
  have hFound : ∀ id ∈ (c.calls.filter fun entry => entry.2.hold = hold).map Prod.fst,
      ∃ call, c.calls.lookup id = some call ∧ call.hold = hold := by
    intro id hId
    obtain ⟨entry, hEntry, rfl⟩ := mem_map.mp hId
    obtain ⟨hMem, hHold⟩ := mem_filter.mp hEntry
    exact ⟨entry.2, (lookup_eq_some_iff hWindow.nodup _ _).mpr hMem, of_decide_eq_true hHold⟩
  have hAll : ∀ entry ∈ c.calls, entry.2.hold = hold →
      entry.1 ∈ (c.calls.filter fun entry => entry.2.hold = hold).map Prod.fst := fun entry hEntry hHold =>
    mem_map_of_mem (mem_filter.mpr ⟨hEntry, decide_eq_true hHold⟩)
  obtain ⟨hFailed, hEntries⟩ := hErased.failAll (hEager.remove (fun call => call.hold = hold) (.ended hold))
    ⟨hAbsent, hCalls⟩ hIds hFound hAll
  refine ⟨hFailed, ?_⟩
  rw [Consumer.forget, Consumer.failCalls, hEntries]
  exact hAbsent

theorem Sound.release (h : Sound limit none c p) (hEager : Eager c) (hHeld : hold ∈ c.entries.map Prod.fst) :
    Sound limit none (c.release hold) p ∧ Eager (c.release hold) := by
  have hOpen : c.isOpen = true := by
    by_contra hShut
    rw [(h.window.shut (Bool.not_eq_true _ ▸ hShut)).2.2] at hHeld
    exact absurd hHeld not_mem_nil
  rw [Consumer.release, send_eq hOpen]
  have hSends : Sends limit c p (.release hold)
      { c with wire := c.wire ++ [.release hold], entries := erase c.entries hold } :=
    { wire := rfl
      isOpen := hOpen
      nextCall := rfl
      nextHold := Nat.le_refl _
      calls := Sublist.refl _
      noCall := fun other call hCall => nomatch hCall
      hold := fun other hHold => nomatch hHold
      release := by
        intro other hRelease
        obtain rfl := Request.release.inj hRelease
        exact ⟨h.window.holds _ hHeld, fun hHere => ((mem_keys_erase c.entries hold hold).mp hHere).2 rfl⟩
      abort := fun id hAbort => nomatch hAbort
      entries := fun other hOther => .inl ((mem_keys_erase c.entries hold other).mp hOther).1
      covered := filter_sublist.trans (h.joined.covered hOpen)
      awaited := fun entry _ hOther => ((mem_keys_erase c.entries hold _).mp hOther).1 }
  refine (Sound.forget (c := { c with wire := c.wire ++ [.release hold] }) { h.window with } (hSends.joined h.joined)
    hEager ?_).1
  intro entry hEntry
  rw [View.replay_append, View.replay_cons, View.replay_nil] at hEntry
  exact of_decide_eq_true (mem_filter.mp hEntry).2

variable {rest : List Notice}

theorem Joined.pop {notice : Notice} (h : Joined limit c p) (hWire : p.wire = notice :: rest)
    (hReply : ∀ id, notice = .reply id → id ∉ c.calls.map Prod.fst)
    (hGone : ∀ hold, notice = .gone hold → hold ∉ c.entries.map Prod.fst) :
    Joined limit c { p with wire := rest } := by
  have hOf : ∀ other ∈ rest, other ∈ p.wire := fun other hOther => hWire ▸ mem_cons_of_mem _ hOther
  exact
    { h with
      replied := fun id hMem => h.replied id (hOf _ hMem)
      gone := fun hold hMem => h.gone hold (hOf _ hMem)
      heldThere := by
        intro hOpen hProvider hold hMem
        rcases h.heldThere hOpen hProvider hold hMem with hThere | hSent | hLeft
        · exact .inl hThere
        · exact .inr (.inl hSent)
        · rw [hWire] at hLeft
          rcases mem_cons.mp hLeft with hHead | hRest
          · exact absurd hMem (hGone hold hHead.symm)
          · exact .inr (.inr hRest)
      awaited := by
        intro hOpen hProvider entry hEntry hHeld
        rcases h.awaited hOpen hProvider entry hEntry hHeld with hThere | hSent | hReplied | hLeft
        · exact .inl hThere
        · exact .inr (.inl hSent)
        · rw [hWire] at hReplied
          rcases mem_cons.mp hReplied with hHead | hRest
          · exact absurd (mem_map_of_mem hEntry) (hReply _ hHead.symm)
          · exact .inr (.inr (.inl hRest))
        · rw [hWire] at hLeft
          rcases mem_cons.mp hLeft with hHead | hRest
          · exact absurd hHeld (hGone _ hHead.symm)
          · exact .inr (.inr (.inr hRest)) }

theorem Sound.setHeld (h : Sound limit ending c p) (hHeld : (c.entries.lookup hold).isSome = true)
    (held : Held) : Sound limit ending (c.setHeld hold held) p := by
  have hKeys : (OrderedMap.set c.entries hold held).map Prod.fst = c.entries.map Prod.fst := by
    rw [OrderedMap.set, if_pos hHeld, keys_replace]
  refine ⟨{ h.window with shut := ?_, waits := ?_, held := ?_, holds := ?_ },
    { h.joined with released := ?_, heldThere := ?_, awaited := ?_ }⟩
  · intro hShut
    rw [(h.window.shut hShut).2.2] at hHeld
    cases hHeld
  all_goals rw [Consumer.setHeld, hKeys]
  · exact h.window.waits
  · exact h.window.held
  · exact h.window.holds
  · exact h.joined.released
  · exact h.joined.heldThere
  · exact h.joined.awaited

theorem Sound.starts (h : Sound limit ending c p) (hEager : Eager c) (hold : Nat) :
    Sound limit ending (c.starts hold) p ∧ Eager (c.starts hold) := by
  rw [Consumer.starts]
  cases hHeld : c.entries.lookup hold with
  | none => exact ⟨h, hEager⟩
  | some held =>
    have hEnds : ∀ call : Call, call.hold = hold → ∀ other,
        Settlement.rebinding hold = .ended other ∨ Settlement.rebinding hold = .rebinding other → call.hold = other := by
      intro call hCall other hEnds
      rcases hEnds with hEnds | hEnds
      · exact nomatch hEnds
      · rw [hCall, Settlement.rebinding.inj hEnds]
    have hReply : ∀ id, Settlement.rebinding hold ≠ .reply id := fun id hReply => nomatch hReply
    have hRemoved := h.remove (fun call => call.hold = hold) hReply hEnds
    have hThere : (c.entries.lookup hold).isSome = true := by rw [hHeld]; rfl
    exact ⟨hRemoved.setHeld hThere _, hEager.remove (fun call => call.hold = hold) (.rebinding hold)⟩

theorem Sound.reply (h : Sound limit ending c p) (hEager : Eager c) {id : Nat}
    (hGone : id ∉ p.calls.map Prod.fst) (hEarlier : EarlierCall c id) :
    (Sound limit ending (c.reply id) p ∧ Eager (c.reply id)) ∧ id ∉ (c.reply id).calls.map Prod.fst := by
  rw [Consumer.reply]
  cases hLookup : c.calls.lookup id with
  | none =>
    rw [if_neg (by simp)]
    exact ⟨⟨h, hEager⟩, (OrderedMap.lookup_eq_none_iff _ _).mp hLookup⟩
  | some call =>
    rw [if_pos (by simp)]
    have hSettles : Settles id call (.reply id) := by
      refine ⟨fun other hReply => (Settlement.reply.inj hReply).symm, fun hold hEnds => hEnds.elim nofun nofun⟩
    refine ⟨h.freed hLookup hSettles ?_, ?_⟩
    · intro _ hHere
      obtain ⟨entry, hEntry, rfl⟩ := mem_map.mp hHere
      rcases View.mem_calls_replay hEntry with hThere | hSent
      · exact hGone (mem_map_of_mem hThere)
      · exact Nat.lt_irrefl _ (hEarlier.2 _ _ hSent)
    · obtain ⟨-, -, ⟨taken, hCalls, hTaken⟩, -⟩ := drained_freed c id (.reply id)
      rw [hCalls, map_append, mem_append, not_or, drop_eq hLookup]
      refine ⟨fun hHere => ?_, fun hHere => ?_⟩
      · obtain ⟨entry, hEntry, hId⟩ := mem_map.mp hHere
        exact of_decide_eq_true (mem_filter.mp hEntry).2 hId
      · obtain ⟨entry, hEntry, rfl⟩ := mem_map.mp hHere
        have hLater := (hTaken entry hEntry).1
        rw [drop_eq hLookup] at hLater
        exact Nat.lt_irrefl _ (Nat.lt_of_lt_of_le hEarlier.1 hLater)

theorem Sound.notice (h : Sound limit none c p) (hEager : Eager c) {notice : Notice} (hWire : p.wire = notice :: rest) :
    Sound limit none (c.receive notice) { p with wire := rest } ∧ Eager (c.receive notice) := by
  have hHead : notice ∈ p.wire := hWire ▸ mem_cons_self
  have hPop : ∀ {next : Consumer}, Sound limit none next p ∧ Eager next →
      (∀ id, notice = .reply id → id ∉ next.calls.map Prod.fst) →
      (∀ hold, notice = .gone hold → hold ∉ next.entries.map Prod.fst) →
      Sound limit none next { p with wire := rest } ∧ Eager next := fun hNext hReply hGone =>
    ⟨⟨hNext.1.window, hNext.1.joined.pop hWire hReply hGone⟩, hNext.2⟩
  cases notice with
  | bound hold names =>
    refine hPop ?_ (fun id hId => nomatch hId) (fun other hOther => nomatch hOther)
    rw [Consumer.receive]
    split_ifs with hHeld
    · exact ⟨h.setHeld hHeld _, hEager⟩
    · exact ⟨h, hEager⟩
  | loading hold => exact hPop (h.starts hEager hold) (fun id hId => nomatch hId) (fun other hOther => nomatch hOther)
  | failed hold => exact hPop (h.starts hEager hold) (fun id hId => nomatch hId) (fun other hOther => nomatch hOther)
  | gone hold =>
    obtain ⟨hEarlier, hAbsent⟩ := h.joined.gone hold hHead
    rw [Consumer.receive]
    split_ifs with hHeld
    · have hBare : ∀ entry ∈ (p.view.replay c.wire).calls, entry.2.hold ≠ hold := by
        intro entry hEntry hHold
        have hThere := h.joined.rooted.replay c.wire entry hEntry
        rw [hHold] at hThere
        rcases View.mem_entries_replay hThere with hOld | hSent
        · exact hAbsent hOld
        · exact Nat.lt_irrefl _ (hEarlier.2 hold hSent)
      obtain ⟨hForgotten, hLeft⟩ := Sound.forget h.window (h.joined.erase hold) hEager hBare
      refine hPop hForgotten (fun id hId => nomatch hId) ?_
      intro other hOther
      obtain rfl := Notice.gone.inj hOther
      exact hLeft
    · refine hPop ⟨h, hEager⟩ (fun id hId => nomatch hId) ?_
      intro other hOther
      obtain rfl := Notice.gone.inj hOther
      rwa [← OrderedMap.lookup_eq_none_iff, ← Option.not_isSome_iff_eq_none]
  | reply id =>
    obtain ⟨hEarlier, hAbsent⟩ := h.joined.replied id hHead
    obtain ⟨hReplied, hLeft⟩ := h.reply hEager hAbsent hEarlier
    refine hPop hReplied ?_ (fun other hOther => nomatch hOther)
    intro other hOther
    obtain rfl := Notice.reply.inj hOther
    exact hLeft

theorem Sound.closed (h : Sound limit ending c p) :
    Sound limit ending c.closed p ∧ Eager c.closed := by
  refine ⟨⟨?_, ?_⟩, fun hStill => nomatch hStill⟩
  · exact
      { counted := fun hStill => nomatch hStill
        bounded := fun hStill => nomatch hStill
        limited := h.window.limited
        shut := fun _ => ⟨rfl, rfl, rfl⟩
        ids := Pairwise.nil
        fresh := fun _ hEntry => absurd hEntry not_mem_nil
        keys := by
          have hKeys := h.window.keys
          have hCalls : (c.calls.map Prod.snd).map Call.key = c.calls.map fun entry => entry.2.key := map_map
          rw [perm_iff_count] at hKeys ⊢
          intro key
          have hKey := hKeys key
          simp only [Consumer.closed, Consumer.settle, map_append, settled_keys, hCalls, map_nil,
            count_append, count_nil] at hKey ⊢
          omega
        submitted := ⟨fun _ hCall => absurd hCall not_mem_nil, fun _ hEntry => absurd hEntry not_mem_nil⟩
        order := ⟨h.window.order.1, Pairwise.nil⟩
        behind := fun key hKey => ⟨(h.window.behind key hKey).1, fun _ hCall => absurd hCall not_mem_nil⟩
        sent := ⟨h.window.sent.1, fun _ hEntry => absurd hEntry not_mem_nil⟩
        replies := by
          intro key id hMem
          rcases mem_append.mp hMem with hOld | hNew
          · exact h.window.replies key id hOld
          · obtain ⟨call, -, hCall⟩ := mem_map.mp hNew
            exact nomatch (Prod.mk.inj hCall).2
        ends := by
          intro key hold hMem
          have hNotNew : ∀ settlement, settlement ≠ .closed → (key, settlement) ∈ c.closed.settled →
              (key, settlement) ∈ c.settled := by
            intro settlement hNe hMem
            refine (mem_append.mp hMem).resolve_right fun hNew => ?_
            obtain ⟨call, -, hCall⟩ := mem_map.mp hNew
            exact hNe (Prod.mk.inj hCall).2.symm
          exact h.window.ends key hold (hMem.imp (hNotNew _ nofun) (hNotNew _ nofun))
        waits := fun _ hCall => absurd hCall not_mem_nil
        held := fun _ hEntry => absurd hEntry not_mem_nil
        holds := fun _ hHold => absurd hHold not_mem_nil }
  · exact
      { h.joined with
        released := fun hold hRelease => ⟨(h.joined.released hold hRelease).1, not_mem_nil⟩
        aborted := fun id hAbort => ⟨(h.joined.aborted id hAbort).1, not_mem_nil⟩
        covered := fun hStill => nomatch hStill
        heldThere := fun hStill => nomatch hStill
        awaited := fun hStill => nomatch hStill }

end OctoberHarness.Remote
