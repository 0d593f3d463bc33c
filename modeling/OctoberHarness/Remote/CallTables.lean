import OctoberHarness.Remote.CallSteps

/-! The provider's side of the call window: what arrives at its table, and what its
objects, its relays and the link's end take out of it. -/
namespace OctoberHarness.Remote

open List OrderedMap

variable {limit : Nat} {c : Consumer} {p next : Provider}

/-- The provider's own step: its tables lose, and the consumer is told of it. -/
structure Loses (p next : Provider) : Prop where
  view : next.view.Within p.view
  rooted : p.view.Rooted → next.view.Rooted
  shut : (p.isOpen = false → p.entries = [] ∧ p.calls = []) → next.isOpen = false → next.entries = [] ∧ next.calls = []
  isOpen : next.isOpen = true → p.isOpen = true
  errors : ∀ error ∈ next.errors, error ∈ p.errors ∨ error = .noMethod ∨ error = .malformed
  kept : ∀ notice ∈ p.wire, notice ∈ next.wire
  told : ∀ notice ∈ next.wire, notice ∈ p.wire ∨
    (∀ id, notice = .reply id → id ∈ p.calls.map Prod.fst ∧ id ∉ next.calls.map Prod.fst) ∧
      ∀ hold, notice = .gone hold → hold ∈ p.entries.map Prod.fst ∧ hold ∉ next.entries.map Prod.fst
  hold : next.isOpen = true → ∀ hold ∈ p.entries.map Prod.fst, hold ∈ next.entries.map Prod.fst ∨ .gone hold ∈ next.wire
  call : next.isOpen = true → ∀ entry ∈ p.calls,
    entry ∈ next.calls ∨ .reply entry.1 ∈ next.wire ∨ .gone entry.2.hold ∈ next.wire

variable {id hold : Nat} {request : Request} {rest : List Request}

theorem Loses.keys (h : Loses p next) (hId : id ∈ next.calls.map Prod.fst) : id ∈ p.calls.map Prod.fst :=
  (h.view.calls.map Prod.fst).subset hId

theorem Loses.of_same (hEntries : next.entries.map Prod.fst = p.entries.map Prod.fst) (hCalls : next.calls = p.calls)
    (hOpen : next.isOpen = p.isOpen) (hErrors : next.errors = p.errors) (hWire : next.wire = p.wire) : Loses p next := by
  have hView : next.view = p.view := by rw [Provider.view, Provider.view, hEntries, hCalls]
  exact
    { view := hView ▸ View.Within.refl _
      rooted := fun hRooted => hView ▸ hRooted
      shut := by
        intro hShut hNext
        obtain ⟨hNone, hNoCalls⟩ := hShut (hOpen ▸ hNext)
        rw [hNone, map_nil, map_eq_nil_iff] at hEntries
        exact ⟨hEntries, hCalls.trans hNoCalls⟩
      isOpen := fun hNext => hOpen ▸ hNext
      errors := fun error hError => .inl (hErrors ▸ hError)
      kept := fun notice hNotice => hWire ▸ hNotice
      told := fun notice hNotice => .inl (hWire ▸ hNotice)
      hold := fun _ hold hHold => .inl (hEntries ▸ hHold)
      call := fun _ entry hEntry => .inl (hCalls ▸ hEntry) }

theorem Loses.trans {last : Provider} (h : Loses p next) (hNext : Loses next last) : Loses p last :=
  { view := hNext.view.trans h.view
    rooted := fun hRooted => hNext.rooted (h.rooted hRooted)
    shut := fun hShut => hNext.shut (h.shut hShut)
    isOpen := fun hLast => h.isOpen (hNext.isOpen hLast)
    errors := by
      intro error hError
      rcases hNext.errors error hError with hOld | hNew
      · exact h.errors error hOld
      · exact .inr hNew
    kept := fun notice hNotice => hNext.kept notice (h.kept notice hNotice)
    told := by
      intro notice hNotice
      rcases hNext.told notice hNotice with hOld | ⟨hReply, hGone⟩
      · refine (h.told notice hOld).imp_right fun hTold => ⟨fun id hId => ?_, fun hold hHold => ?_⟩
        · obtain ⟨hThere, hLeft⟩ := hTold.1 id hId
          exact ⟨hThere, fun hHere => hLeft (hNext.keys hHere)⟩
        · obtain ⟨hThere, hLeft⟩ := hTold.2 hold hHold
          exact ⟨hThere, fun hHere => hLeft (hNext.view.entries hold hHere)⟩
      · refine .inr ⟨fun id hId => ?_, fun hold hHold => ?_⟩
        · exact ⟨h.keys (hReply id hId).1, (hReply id hId).2⟩
        · exact ⟨h.view.entries hold (hGone hold hHold).1, (hGone hold hHold).2⟩
    hold := by
      intro hLast hold hHold
      rcases h.hold (hNext.isOpen hLast) hold hHold with hThere | hGone
      · exact hNext.hold hLast hold hThere
      · exact .inr (hNext.kept _ hGone)
    call := by
      intro hLast entry hEntry
      rcases h.call (hNext.isOpen hLast) entry hEntry with hThere | hReply | hGone
      · exact hNext.call hLast entry hThere
      · exact .inr (.inl (hNext.kept _ hReply))
      · exact .inr (.inr (hNext.kept _ hGone)) }

theorem Joined.loses (h : Joined limit c p) (hLoses : Loses p next) : Joined limit c next :=
  { h with
    ids := fun entry hEntry => h.ids entry (hLoses.view.calls.subset hEntry)
    known := fun hold hHold => h.known hold (hLoses.view.entries hold hHold)
    replied := by
      intro id hReply
      rcases hLoses.told _ hReply with hOld | ⟨hNew, -⟩
      · exact ⟨(h.replied id hOld).1, fun hHere => (h.replied id hOld).2 (hLoses.keys hHere)⟩
      · obtain ⟨hThere, hLeft⟩ := hNew id rfl
        obtain ⟨entry, hEntry, rfl⟩ := mem_map.mp hThere
        exact ⟨h.ids entry hEntry, hLeft⟩
    gone := by
      intro hold hGone
      rcases hLoses.told _ hGone with hOld | ⟨-, hNew⟩
      · exact ⟨(h.gone hold hOld).1, fun hHere => (h.gone hold hOld).2 (hLoses.view.entries hold hHere)⟩
      · obtain ⟨hThere, hLeft⟩ := hNew hold rfl
        exact ⟨h.known hold hThere, hLeft⟩
    rooted := hLoses.rooted h.rooted
    shut := hLoses.shut h.shut
    fits := fun requests hPrefix => (hLoses.view.replay requests).calls.length_le.trans (h.fits requests hPrefix)
    covered := fun hOpen => (hLoses.view.replay c.wire).calls.trans (h.covered hOpen)
    clean := by
      refine ⟨fun hError => ?_, fun hError => ?_⟩
      · rcases hLoses.errors _ hError with hOld | hNew | hNew
        · exact h.clean.1 hOld
        · exact nomatch hNew
        · exact nomatch hNew
      · rcases hLoses.errors _ hError with hOld | hNew | hNew
        · exact h.clean.2 hOld
        · exact nomatch hNew
        · exact nomatch hNew
    heldThere := by
      intro hOpen hProvider hold hHold
      rcases h.heldThere hOpen (hLoses.isOpen hProvider) hold hHold with hThere | hSent | hGone
      · exact (hLoses.hold hProvider hold hThere).imp_right .inr
      · exact .inr (.inl hSent)
      · exact .inr (.inr (hLoses.kept _ hGone))
    awaited := by
      intro hOpen hProvider entry hEntry hHeld
      rcases h.awaited hOpen (hLoses.isOpen hProvider) entry hEntry hHeld with hThere | hSent | hReply | hGone
      · exact (hLoses.call hProvider entry hThere).imp_right .inr
      · exact .inr (.inl hSent)
      · exact .inr (.inr (.inl (hLoses.kept _ hReply)))
      · exact .inr (.inr (.inr (hLoses.kept _ hGone))) }

/-! What the tables lose. -/

theorem Loses.closing (hOpen : next.isOpen = false) (hEntries : next.entries = []) (hCalls : next.calls = [])
    (hWire : next.wire = p.wire) (hErrors : ∀ error ∈ next.errors, error ∈ p.errors ∨ error = .noMethod ∨ error = .malformed) :
    Loses p next := by
  have hView : next.view = ⟨[], []⟩ := by rw [Provider.view, hEntries, hCalls]; rfl
  exact
    { view := by
        rw [hView]
        exact ⟨fun hold hHold => absurd hHold not_mem_nil, nil_sublist _⟩
      rooted := by
        intro _ entry hEntry
        rw [hView] at hEntry
        exact absurd hEntry not_mem_nil
      shut := fun _ _ => ⟨hEntries, hCalls⟩
      isOpen := fun hNext => nomatch hOpen.symm.trans hNext
      errors := hErrors
      kept := fun notice hNotice => hWire ▸ hNotice
      told := fun notice hNotice => .inl (hWire ▸ hNotice)
      hold := fun hNext => nomatch hOpen.symm.trans hNext
      call := fun hNext => nomatch hOpen.symm.trans hNext }

theorem Loses.closed (p : Provider) : Loses p p.closed :=
  Loses.closing rfl rfl rfl rfl fun _ hError => .inl hError

theorem send_wire (p : Provider) (notice : Notice) :
    (∀ other ∈ p.wire, other ∈ (p.send notice).wire) ∧ (∀ other ∈ (p.send notice).wire, other ∈ p.wire ∨ other = notice) ∧
      (p.isOpen = true → notice ∈ (p.send notice).wire) := by
  rw [Provider.send]
  split_ifs with hOpen
  · refine ⟨fun other hOther => mem_append_left _ hOther, fun other hOther => ?_, fun _ => ?_⟩
    · exact (mem_append.mp hOther).imp_right mem_singleton.mp
    · exact mem_append_right _ mem_cons_self
  · exact ⟨fun _ hOther => hOther, fun _ hOther => .inl hOther, fun hThere => absurd hThere hOpen⟩

theorem send_tables (p : Provider) (notice : Notice) :
    (p.send notice).entries = p.entries ∧ (p.send notice).calls = p.calls ∧ (p.send notice).isOpen = p.isOpen ∧
      (p.send notice).errors = p.errors := by
  rw [Provider.send]
  split_ifs <;> exact ⟨rfl, rfl, rfl, rfl⟩

/-- What the tables lost, and the notice of it. -/
theorem Loses.send {lost : Provider} {notice : Notice} (hView : lost.view.Within p.view)
    (hRooted : p.view.Rooted → lost.view.Rooted) (hEntries : p.entries = [] → lost.entries = [])
    (hCalls : p.calls = [] → lost.calls = []) (hOpen : lost.isOpen = p.isOpen) (hErrors : lost.errors = p.errors)
    (hWire : lost.wire = p.wire) (hReply : ∀ id, notice = .reply id → id ∈ p.calls.map Prod.fst ∧ id ∉ lost.calls.map Prod.fst)
    (hGone : ∀ hold, notice = .gone hold → hold ∈ p.entries.map Prod.fst ∧ hold ∉ lost.entries.map Prod.fst)
    (hHold : ∀ hold ∈ p.entries.map Prod.fst, hold ∈ lost.entries.map Prod.fst ∨ notice = .gone hold)
    (hCall : ∀ entry ∈ p.calls, entry ∈ lost.calls ∨ notice = .reply entry.1 ∨ notice = .gone entry.2.hold) :
    Loses p (lost.send notice) := by
  obtain ⟨hKept, hOnly, hSent⟩ := send_wire lost notice
  obtain ⟨hSameEntries, hSameCalls, hSameOpen, hSameErrors⟩ := send_tables lost notice
  have hSame : (lost.send notice).view = lost.view := by
    rw [Provider.view, Provider.view, hSameEntries, hSameCalls]
  exact
    { view := hSame ▸ hView
      rooted := fun h => hSame ▸ hRooted h
      shut := by
        intro hShut hNext
        obtain ⟨hNone, hNoCalls⟩ := hShut (by rw [← hOpen, ← hSameOpen, hNext])
        exact ⟨hSameEntries.trans (hEntries hNone), hSameCalls.trans (hCalls hNoCalls)⟩
      isOpen := fun hNext => by rw [← hOpen, ← hSameOpen, hNext]
      errors := fun error hError => .inl (by rwa [hSameErrors, hErrors] at hError)
      kept := fun other hOther => hKept other (hWire ▸ hOther)
      told := by
        intro other hOther
        rcases hOnly other hOther with hOld | rfl
        · exact .inl (hWire ▸ hOld)
        · rw [hSameEntries, hSameCalls]
          exact .inr ⟨hReply, hGone⟩
      hold := by
        intro hNext hold hMem
        rw [hSameEntries]
        rcases hHold hold hMem with hThere | rfl
        · exact .inl hThere
        · exact .inr (hSent (hSameOpen ▸ hNext))
      call := by
        intro hNext entry hEntry
        rw [hSameCalls]
        rcases hCall entry hEntry with hThere | rfl | rfl
        · exact .inl hThere
        · exact .inr (.inl (hSent (hSameOpen ▸ hNext)))
        · exact .inr (.inr (hSent (hSameOpen ▸ hNext))) }

theorem Loses.notify (p : Provider) {notice : Notice} (hReply : ∀ id, notice ≠ .reply id)
    (hGone : ∀ hold, notice ≠ .gone hold) : Loses p (p.send notice) :=
  Loses.send (View.Within.refl _) id id id rfl rfl rfl (fun id hNotice => absurd hNotice (hReply id))
    (fun hold hNotice => absurd hNotice (hGone hold)) (fun _ hHold => .inl hHold) fun _ hEntry => .inl hEntry

theorem Loses.setState {old : HoldState} (hHeld : p.entries.lookup hold = some old) (state : HoldState) :
    Loses p (p.setState hold state) := by
  refine Loses.of_same ?_ rfl rfl rfl rfl
  show (OrderedMap.set p.entries hold state).map Prod.fst = p.entries.map Prod.fst
  rw [OrderedMap.set, if_pos (by rw [hHeld]; rfl), keys_replace]

theorem Loses.reply (p : Provider) (id : Nat) : Loses p (p.reply id) := by
  rw [Provider.reply]
  split_ifs with hThere
  case neg => exact Loses.of_same rfl rfl rfl rfl rfl
  have hMem : id ∈ p.calls.map Prod.fst := by
    by_contra hAbsent
    rw [(OrderedMap.lookup_eq_none_iff _ _).mpr hAbsent] at hThere
    exact nomatch hThere
  refine Loses.send ⟨fun _ hHold => hHold, filter_sublist⟩ ?_ (fun hNone => hNone) (fun hNone => ?_) rfl rfl rfl ?_
    (fun hold hGone => nomatch hGone) (fun _ hHold => .inl hHold) ?_
  · exact fun hRooted entry hEntry => hRooted entry (mem_filter.mp hEntry).1
  · show p.calls.filter _ = []
    rw [hNone, filter_nil]
  · intro other hOther
    obtain rfl := Notice.reply.inj hOther
    refine ⟨hMem, fun hHere => ?_⟩
    obtain ⟨entry, hEntry, hId⟩ := mem_map.mp hHere
    exact of_decide_eq_true (mem_filter.mp hEntry).2 hId
  · intro entry hEntry
    by_cases hId : entry.1 = id
    · exact .inr (.inl (congrArg Notice.reply hId.symm))
    · exact .inl (mem_filter.mpr ⟨hEntry, decide_eq_true hId⟩)

theorem Loses.replyAll (ids : List Nat) (p : Provider) : Loses p (p.replyAll ids) := by
  induction ids generalizing p with
  | nil => exact Loses.of_same rfl rfl rfl rfl rfl
  | cons id rest ih => exact (Loses.reply p id).trans (ih (p.reply id))

theorem Loses.rejectCalls (p : Provider) (hold : Nat) : Loses p (p.rejectCalls hold) :=
  Loses.replyAll _ p

theorem entries_replyAll (ids : List Nat) (p : Provider) : (p.replyAll ids).entries = p.entries := by
  induction ids generalizing p with
  | nil => rfl
  | cons id rest ih =>
    rw [Provider.replyAll, ih, Provider.reply]
    split_ifs
    · exact (send_tables _ _).1
    · rfl

theorem Loses.endHold (hHeld : hold ∈ p.entries.map Prod.fst) : Loses p (p.endHold hold) := by
  have hKeys : ∀ other, other ∈ (erase p.entries hold).map Prod.fst ↔
      other ∈ p.entries.map Prod.fst ∧ other ≠ hold := by
    intro other
    simp [erase]
  refine Loses.send ⟨fun other hOther => ((hKeys other).mp hOther).1, filter_sublist⟩ ?_ (fun hNone => ?_)
    (fun hNone => ?_) rfl rfl rfl (fun id hReply => by cases hReply) ?_ ?_ ?_
  · intro hRooted entry hEntry
    obtain ⟨hMem, hNe⟩ := mem_filter.mp hEntry
    exact (hKeys _).mpr ⟨hRooted entry hMem, of_decide_eq_true hNe⟩
  · show p.entries.filter _ = []
    rw [hNone, filter_nil]
  · show p.calls.filter _ = []
    rw [hNone, filter_nil]
  · intro other hOther
    obtain rfl := Notice.gone.inj hOther
    exact ⟨hHeld, fun hHere => ((hKeys hold).mp hHere).2 rfl⟩
  · intro other hOther
    by_cases hHold : other = hold
    · exact .inr (congrArg Notice.gone hHold.symm)
    · exact .inl ((hKeys other).mpr ⟨hOther, hHold⟩)
  · intro entry hEntry
    by_cases hHold : entry.2.hold = hold
    · exact .inr (.inr (congrArg Notice.gone hHold.symm))
    · exact .inl (mem_filter.mpr ⟨hEntry, decide_eq_true hHold⟩)

/-- The provider with a request in its table that nothing stands against. -/
def arrived (p : Provider) : Request → Provider
  | .hold hold => { p with entries := p.entries ++ [(hold, .unbound)] }
  | .release hold => p.forget hold
  | .call id call => if call.hold ∈ p.entries.map Prod.fst then p.admitCall id call else p
  | .abort id => { p with calls := erase p.calls id }

theorem arrived_view (p : Provider) (request : Request) : (arrived p request).view = p.view.after request := by
  cases request with
  | hold hold =>
    simp only [arrived, Provider.view, View.after, map_append, map_cons, map_nil]
  | release hold =>
    simp only [arrived, Provider.view, View.after, Provider.forget, erase, filter_map, Function.comp_def]
  | call id call =>
    rw [arrived, View.after]
    by_cases hHeld : call.hold ∈ p.entries.map Prod.fst
    · rw [if_pos hHeld, if_pos (show call.hold ∈ p.view.entries from hHeld)]
      rfl
    · rw [if_neg hHeld, if_neg (show call.hold ∉ p.view.entries from hHeld)]
  | abort id => rfl

theorem arrived_same (p : Provider) (request : Request) :
    (arrived p request).isOpen = p.isOpen ∧ (arrived p request).wire = p.wire ∧ (arrived p request).errors = p.errors := by
  cases request with
  | call id call =>
    rw [arrived]
    split_ifs <;> exact ⟨rfl, rfl, rfl⟩
  | hold hold => exact ⟨rfl, rfl, rfl⟩
  | release hold => exact ⟨rfl, rfl, rfl⟩
  | abort id => exact ⟨rfl, rfl, rfl⟩

theorem View.mem_entries_after {v : View} (h : hold ∈ (v.after request).entries) :
    hold ∈ v.entries ∨ request = .hold hold := by
  rcases View.mem_entries_replay (show hold ∈ (v.replay [request]).entries from h) with hOld | hNew
  · exact .inl hOld
  · exact .inr (mem_singleton.mp hNew).symm

theorem View.mem_calls_after {v : View} {entry : Nat × Call} (h : entry ∈ (v.after request).calls) :
    entry ∈ v.calls ∨ request = .call entry.1 entry.2 := by
  rcases View.mem_calls_replay (show entry ∈ (v.replay [request]).calls from h) with hOld | hNew
  · exact .inl hOld
  · exact .inr (mem_singleton.mp hNew).symm

theorem Joined.arrives (h : Joined limit c p) (hWire : c.wire = request :: rest)
    (hOpen : p.isOpen = true) : Joined limit { c with wire := rest } (arrived p request) := by
  have hView := arrived_view p request
  obtain ⟨hSameOpen, hSameWire, hSameErrors⟩ := arrived_same p request
  have hFollows := h.follows
  rw [hWire, pairwise_cons] at hFollows
  have hHead : request ∈ c.wire := hWire ▸ mem_cons_self
  have hOf : ∀ other ∈ rest, other ∈ c.wire := fun other hOther => hWire ▸ mem_cons_of_mem _ hOther
  have hCall : ∀ id, EarlierCall c id → EarlierCall { c with wire := rest } id := fun id hId =>
    ⟨hId.1, fun later call hLater => hId.2 later call (hOf _ hLater)⟩
  have hHold : ∀ hold, EarlierHold c hold → EarlierHold { c with wire := rest } hold := fun hold hEarly =>
    ⟨hEarly.1, fun later hLater => hEarly.2 later (hOf _ hLater)⟩
  have hCalls : ∀ entry ∈ (arrived p request).calls, entry ∈ p.calls ∨ request = .call entry.1 entry.2 := by
    intro entry hEntry
    exact View.mem_calls_after (show entry ∈ (p.view.after request).calls from hView ▸ hEntry)
  have hEntries : ∀ hold ∈ (arrived p request).entries.map Prod.fst, hold ∈ p.entries.map Prod.fst ∨ request = .hold hold := by
    intro hold hMem
    exact View.mem_entries_after (show hold ∈ (p.view.after request).entries from hView ▸ hMem)
  have hHeld : ∀ hold ∈ c.entries.map Prod.fst, hold ∈ p.entries.map Prod.fst ∨ request = .hold hold →
      hold ∈ (arrived p request).entries.map Prod.fst := by
    intro hold hMem hThere
    show hold ∈ (arrived p request).view.entries
    rw [hView]
    cases request with
    | hold other =>
      refine mem_append.mpr (hThere.imp_right fun hAsked => ?_)
      exact mem_singleton.mpr (Request.hold.inj hAsked).symm
    | release other =>
      refine mem_filter.mpr ⟨hThere.resolve_right (by simp), decide_eq_true fun hSame => ?_⟩
      exact (h.released other hHead).2 (hSame ▸ hMem)
    | call id call =>
      rw [View.after]
      split_ifs <;> exact hThere.resolve_right (by simp)
    | abort id => exact hThere.resolve_right (by simp)
  exact
    { follows := hFollows.2
      freshCall := fun id call hMem => h.freshCall id call (hOf _ hMem)
      freshHold := fun hold hMem => h.freshHold hold (hOf _ hMem)
      released := fun hold hMem => h.released hold (hOf _ hMem)
      aborted := fun id hMem => h.aborted id (hOf _ hMem)
      ids := by
        intro entry hEntry
        rcases hCalls entry hEntry with hOld | hNew
        · exact hCall _ (h.ids entry hOld)
        · rw [hNew] at hHead
          refine ⟨(h.freshCall _ _ hHead).1, fun later call hLater => ?_⟩
          have hAfter := hFollows.1 _ hLater
          rw [hNew] at hAfter
          exact hAfter
      known := by
        intro hold hMem
        rcases hEntries hold hMem with hOld | hNew
        · exact hHold _ (h.known hold hOld)
        · rw [hNew] at hHead
          refine ⟨h.freshHold _ hHead, fun later hLater => ?_⟩
          have hAfter := hFollows.1 _ hLater
          rw [hNew] at hAfter
          exact hAfter
      replied := by
        intro id hReply
        rw [hSameWire] at hReply
        obtain ⟨hEarly, hAbsent⟩ := h.replied id hReply
        refine ⟨hCall id hEarly, fun hHere => ?_⟩
        obtain ⟨entry, hEntry, rfl⟩ := mem_map.mp hHere
        rcases hCalls entry hEntry with hOld | rfl
        · exact hAbsent (mem_map_of_mem hOld)
        · exact Nat.lt_irrefl _ (hEarly.2 _ _ hHead)
      gone := by
        intro hold hGone
        rw [hSameWire] at hGone
        obtain ⟨hEarly, hAbsent⟩ := h.gone hold hGone
        refine ⟨hHold hold hEarly, fun hHere => ?_⟩
        rcases hEntries hold hHere with hOld | rfl
        · exact hAbsent hOld
        · exact Nat.lt_irrefl _ (hEarly.2 _ hHead)
      rooted := hView ▸ h.rooted.after request
      shut := fun hShut => by cases (hSameOpen.trans hOpen).symm.trans hShut
      fits := by
        intro requests hPrefix
        rw [hView, ← View.replay_cons]
        apply h.fits
        rw [hWire]
        exact cons_prefix_cons.mpr ⟨rfl, hPrefix⟩
      covered := by
        intro hConsumer
        have hCovered := h.covered hConsumer
        rwa [hWire, View.replay_cons, ← hView] at hCovered
      clean := hSameErrors ▸ h.clean
      heldThere := by
        intro hConsumer _ hold hMem
        rw [hSameWire]
        rcases h.heldThere hConsumer hOpen hold hMem with hThere | hSent | hGone
        · exact .inl (hHeld hold hMem (.inl hThere))
        · rw [hWire] at hSent
          rcases mem_cons.mp hSent with hAsked | hLater
          · exact .inl (hHeld hold hMem (.inr hAsked.symm))
          · exact .inr (.inl hLater)
        · exact .inr (.inr hGone)
      awaited := by
        intro hConsumer _ entry hEntry hMem
        rw [hSameWire]
        show entry ∈ (arrived p request).view.calls ∨ _
        rw [hView]
        rcases h.awaited hConsumer hOpen entry hEntry hMem with hThere | hSent | hRest
        · refine .inl ?_
          cases request with
          | hold other => exact hThere
          | release other =>
            refine mem_filter.mpr ⟨hThere, decide_eq_true fun hSame => ?_⟩
            exact (h.released other hHead).2 (hSame ▸ hMem)
          | call id call =>
            rw [View.after]
            split_ifs
            · exact mem_append_left _ hThere
            · exact hThere
          | abort id =>
            refine mem_filter.mpr ⟨hThere, decide_eq_true fun hSame => ?_⟩
            exact (h.aborted id hHead).2 (hSame ▸ mem_map_of_mem hEntry)
        · rw [hWire] at hSent
          rcases mem_cons.mp hSent with rfl | hLater
          · rcases h.heldThere hConsumer hOpen _ hMem with hThere | hAsked | hGone
            · rw [View.after, if_pos (show entry.2.hold ∈ p.view.entries from hThere)]
              exact .inl (mem_append_right _ mem_cons_self)
            · rw [hWire] at hAsked
              exact absurd (hFollows.1 _ ((mem_cons.mp hAsked).resolve_left (by simp))) (Nat.lt_irrefl _)
            · exact .inr (.inr (.inr hGone))
          · exact .inr (.inl hLater)
        · exact .inr (.inr hRest) }

theorem Loses.refused (call : Call) (hAbsent : id ∉ p.calls.map Prod.fst) :
    Loses (p.admitCall id call) (p.send (.reply id)) := by
  refine Loses.send ⟨fun _ hHold => hHold, sublist_append_left _ _⟩ ?_ (fun hNone => hNone) ?_ rfl rfl rfl ?_
    (fun hold hGone => nomatch hGone) (fun _ hHold => .inl hHold) ?_
  · exact fun hRooted entry hEntry => hRooted entry (mem_append_left _ hEntry)
  · exact fun hNone => absurd hNone (concat_ne_nil _ _)
  · intro other hOther
    obtain rfl := Notice.reply.inj hOther
    refine ⟨mem_map.mpr ⟨(id, call), mem_append_right _ mem_cons_self, rfl⟩, hAbsent⟩
  · intro entry hEntry
    rcases mem_append.mp hEntry with hOld | hNew
    · exact .inl hOld
    · rw [mem_singleton.mp hNew]
      exact .inr (.inl rfl)

theorem Loses.failed (q : Provider) (hWire : p.wire = q.wire) (hErrors : p.errors = q.errors) {error : CallError}
    (hError : error = .noMethod ∨ error = .malformed) : Loses q (p.fail error) := by
  refine Loses.closing rfl rfl rfl hWire fun other hOther => ?_
  rcases mem_append.mp hOther with hOld | hNew
  · exact .inl (hErrors ▸ hOld)
  · rw [mem_singleton.mp hNew]
    exact .inr hError

theorem Loses.serveNamed (call : Call) (hAbsent : id ∉ p.calls.map Prod.fst) (arguments : Arguments)
    (names : Option Names) : Loses (p.admitCall id call)
      (match names with
        | none => p.send (.reply id)
        | some names =>
          match names[call.method]?, arguments with
          | none, _ => p.fail .noMethod
          | some _, .tooLarge => p.send (.reply id)
          | some _, .malformed => p.fail .malformed
          | some name, .fits => { p.admitCall id call with runs := p.runs ++ [(call, name)] }) := by
  cases names with
  | none => exact Loses.refused call hAbsent
  | some names =>
    simp only
    cases hName : names[call.method]? with
    | none => exact Loses.failed _ rfl rfl (.inl rfl)
    | some name =>
      cases arguments with
      | tooLarge => exact Loses.refused call hAbsent
      | malformed => exact Loses.failed _ rfl rfl (.inr rfl)
      | fits => exact Loses.of_same rfl rfl rfl rfl rfl

theorem Loses.serve (call : Call) (hAbsent : id ∉ p.calls.map Prod.fst) (arguments : Arguments)
    (state : HoldState) : Loses (p.admitCall id call) (p.serve id call arguments state) := by
  have hSame : Loses (p.admitCall id call) (p.admitCall id call) := Loses.of_same rfl rfl rfl rfl rfl
  cases state with
  | relayed =>
    cases arguments with
    | tooLarge => exact Loses.refused call hAbsent
    | malformed => exact hSame
    | fits => exact hSame
  | unbound => exact Loses.serveNamed call hAbsent arguments none
  | binding previous => exact Loses.serveNamed call hAbsent arguments previous
  | bound names => exact Loses.serveNamed call hAbsent arguments (some names)

theorem Joined.absent {call : Call} (h : Joined limit c p)
    (hWire : c.wire = .call id call :: rest) : id ∉ p.calls.map Prod.fst := by
  intro hHere
  obtain ⟨entry, hEntry, rfl⟩ := mem_map.mp hHere
  exact Nat.lt_irrefl _ ((h.ids entry hEntry).2 _ _ (hWire ▸ mem_cons_self))

theorem Joined.serves {call : Call} {state : HoldState} (h : Joined limit c p)
    (hWire : c.wire = .call id call :: rest) (hHold : p.entries.lookup call.hold = some state) (arguments : Arguments) :
    p.receive limit arguments (.call id call) = p.serve id call arguments state := by
  have hFresh : p.calls.lookup id = none := (OrderedMap.lookup_eq_none_iff _ _).mpr (h.absent hWire)
  have hHeld : call.hold ∈ p.view.entries := mem_map_of_mem (mem_of_lookup hHold)
  have hFits : p.calls.length + 1 ≤ limit := by
    have hLength := h.fits [.call id call] (hWire ▸ cons_prefix_cons.mpr ⟨rfl, nil_prefix⟩)
    rw [View.replay_cons, View.replay_nil, View.after, if_pos hHeld] at hLength
    exact length_append.symm.trans_le hLength
  rw [Provider.receive, Provider.call, if_neg (by rw [hFresh]; simp), hHold]
  exact if_neg (Nat.not_le.mpr hFits)

theorem Joined.receives (h : Joined limit c p) (hWire : c.wire = request :: rest)
    (hOpen : p.isOpen = true) (arguments : Arguments) :
    Joined limit { c with wire := rest } (p.receive limit arguments request) := by
  have hHead : request ∈ c.wire := hWire ▸ mem_cons_self
  refine (h.arrives hWire hOpen).loses ?_
  cases request with
  | hold hold =>
    have hFresh : p.entries.lookup hold = none := by
      rw [OrderedMap.lookup_eq_none_iff]
      exact fun hHere => Nat.lt_irrefl _ ((h.known hold hHere).2 hold hHead)
    rw [Provider.receive, if_neg (by rw [hFresh]; simp)]
    exact Loses.of_same rfl rfl rfl rfl rfl
  | release hold => exact Loses.of_same rfl rfl rfl rfl rfl
  | abort id => exact Loses.of_same rfl rfl rfl rfl rfl
  | call id call =>
    have hAbsent : id ∉ p.calls.map Prod.fst := h.absent hWire
    rw [arrived]
    cases hHold : p.entries.lookup call.hold with
    | none =>
      have hFresh : p.calls.lookup id = none := (OrderedMap.lookup_eq_none_iff _ _).mpr hAbsent
      have hIgnored : p.receive limit arguments (.call id call) = p := by
        rw [Provider.receive, Provider.call, if_neg (by rw [hFresh]; simp), hHold]
      rw [hIgnored, if_neg ((OrderedMap.lookup_eq_none_iff _ _).mp hHold)]
      exact Loses.of_same rfl rfl rfl rfl rfl
    | some state =>
      rw [h.serves hWire hHold, if_pos (mem_map_of_mem (mem_of_lookup hHold))]
      exact Loses.serve call hAbsent arguments state

end OctoberHarness.Remote
