import OctoberHarness.Harness.TranscriptLoads

/-! Runs of a transcript beside its conversation. A transcript stays a faithful map while
every range that it takes in fits. -/
namespace OctoberHarness.Transcript

open List OrderedMap Option

open Storage (EntryRecord Page ScanOrder)

/-- A bound strictly inside a gap. -/
def Gap.Has (gap : Gap) (bound : Bound) : Prop :=
  gap.after < bound ∧ bound < gap.upTo

/-- What a transcript promises about the conversation. -/
structure Faithful (log : List EntryRecord) (s : ConversationTranscript) : Prop where
  sorted : s.entries.Pairwise fun first second => first.id < second.id
  known : ∀ entry ∈ s.entries, entry ∈ log
  gaps : s.gaps.Pairwise fun gap next => gap.after < next.after ∧ ∀ bound, ¬(gap.Has bound ∧ next.Has bound)
  clear : ∀ gap ∈ s.gaps, ∀ entry ∈ s.entries, ¬gap.Has (num entry)
  covered : ∀ entry ∈ log, s.low < num entry → num entry ≤ s.tail →
    entry ∈ s.entries ∨ ∃! gap, gap ∈ s.gaps ∧ gap.Has (num entry)
  items : s.items = build s.low s.gaps s.entries
  earlier : s.items.head? = some .earlier ↔ s.low ≠ ⊥

theorem earlier_not_mem_placeGaps (gaps : List Gap) (entries : List EntryRecord) :
    Item.earlier ∉ placeGaps gaps entries := by
  induction entries generalizing gaps with
  | nil => simp [placeGaps]
  | cons entry rest ih => simp [placeGaps, ih]

theorem Mapped.faithful {log : List EntryRecord} {s : ConversationTranscript} (hMapped : Mapped log s) :
    Faithful log s := by
  have hApart : s.gaps.Pairwise fun gap next => gap.after < next.after ∧ ∀ bound, ¬(gap.Has bound ∧ next.Has bound) := by
    refine Pairwise.imp_of_mem ?_ hMapped.ranges.ordered
    intro gap next hGap hNext hOrder
    have hAfter := (hMapped.ranges.proper next hNext).1
    have hWide := (hMapped.ranges.proper gap hGap).2.2.1
    refine ⟨lt_of_not_ge fun hLe => ?_, fun bound ⟨hIn, hOther⟩ => ?_⟩
    · exact absurd (hWide.trans_le hOrder) (not_lt_of_ge (Bound.succ_le_succ.mpr hLe))
    · exact absurd hOther.1 (not_lt_of_ge ((Bound.lt_succ hAfter).mp (hIn.2.trans_le hOrder)))
  exact {
    sorted := hMapped.sorted
    known := hMapped.known
    gaps := hApart
    clear := by
      intro gap hGap entry hEntry hIn
      rcases hMapped.ranges.clear gap hGap entry hEntry with hBefore | hPast
      · exact absurd hIn.1 (not_lt_of_ge hBefore)
      · exact absurd hIn.2 (not_lt_of_ge hPast)
    covered := by
      intro entry hEntry hLow hTail
      refine (hMapped.ranges.covered entry hEntry hLow hTail).imp id fun ⟨gap, hGap, hIn⟩ => ⟨gap, ⟨hGap, hIn⟩, ?_⟩
      intro other ⟨hOther, hAlso⟩
      by_contra hNe
      have hSymm : Std.Symm fun gap next : Gap => ∀ bound, ¬(gap.Has bound ∧ next.Has bound) :=
        ⟨fun _ _ h bound hBoth => h bound hBoth.symm⟩
      have hDisjoint : s.gaps.Pairwise fun gap next => ∀ bound, ¬(gap.Has bound ∧ next.Has bound) := hApart.imp fun h => h.2
      exact hDisjoint.forall hOther hGap hNe (num entry) ⟨hAlso, hIn⟩
    items := hMapped.items
    earlier := by
      rw [hMapped.items, build]
      split_ifs with hStart
      · have hNot := earlier_not_mem_placeGaps s.gaps s.entries
        simp only [nil_append, hStart, ne_eq, not_true_eq_false, iff_false]
        exact fun hHead => hNot (mem_of_head? hHead)
      · simp [hStart] }

/-- The loads that are running ask for what is known to be there. -/
structure Pending (log : List EntryRecord) (s : ConversationTranscript) : Prop where
  earlier : ∀ low phase, s.earlier = some (low, phase) → low ≠ ⊥ ∧ low ≤ s.tail
  filling : ∀ gap phase, s.filling.lookup gap = some phase →
    gap.after ≠ ⊥ ∧ gap.after.succ < gap.upTo ∧ gap.upTo ≤ s.tail.succ ∧ EndsAt log s.entries gap.upTo
  read : ∀ load page, s.phase load = some (.read page) → Answers log (s.loadQuery load) page

namespace ConversationTranscript

theorem phase_setPhase {s : ConversationTranscript} {load : Load} {old : Phase} (hOld : s.phase load = some old)
    (new : Phase) (other : Load) :
    (s.setPhase new load).phase other = if other = load then some new else s.phase other := by
  cases load with
  | earlier =>
    obtain ⟨⟨low, _⟩, hEarlier, -⟩ := map_eq_some_iff.mp hOld
    cases other with
    | earlier => simp [phase, setPhase, hEarlier]
    | gap gap => simp [phase, setPhase]
  | gap gap =>
    cases other with
    | earlier => simp [phase, setPhase]
    | gap other => simp [phase, setPhase, lookup_set]

@[simp] theorem loadQuery_setPhase (s : ConversationTranscript) (phase : Phase) (load other : Load) :
    (s.setPhase phase load).loadQuery other = s.loadQuery other := by
  cases load with
  | earlier =>
    cases other with
    | earlier => simp [loadQuery, setPhase, Function.comp_def]
    | gap gap => rfl
  | gap gap => cases other <;> rfl

end ConversationTranscript

section Steps

variable {log : List EntryRecord} {s : ConversationTranscript}

variable {load : Load} {entries : List EntryRecord}

theorem Pending.setPhase (hPending : Pending log s) {old : Phase} (hOld : s.phase load = some old)
    (new : Phase) (hNew : ∀ page, new = .read page → Answers log (s.loadQuery load) page) :
    Pending log (s.setPhase new load) where
  earlier := by
    intro low phase hEarlier
    cases load with
    | earlier =>
      obtain ⟨⟨from_, before⟩, hBefore, hPair⟩ := map_eq_some_iff.mp hEarlier
      obtain ⟨rfl, -⟩ := Prod.mk.injEq .. ▸ hPair
      exact hPending.earlier _ _ hBefore
    | gap gap => exact hPending.earlier low phase hEarlier
  filling := by
    intro gap phase hFilling
    cases load with
    | earlier => exact hPending.filling gap phase hFilling
    | gap asked =>
      have hLookup : (set s.filling asked new).lookup gap = some phase := hFilling
      rw [lookup_set] at hLookup
      split_ifs at hLookup with hSame
      · rw [hSame]
        exact hPending.filling asked old hOld
      · exact hPending.filling gap phase hLookup
  read := by
    intro other page hPhase
    rw [ConversationTranscript.phase_setPhase hOld] at hPhase
    rw [ConversationTranscript.loadQuery_setPhase]
    split_ifs at hPhase with hSame
    · rw [hSame]
      exact hNew page (some.inj hPhase)
    · exact hPending.read other page hPhase

theorem Pending.clear (hPending : Pending log s) (load : Load) : Pending log (s.clear load) := by
  have hFilling : ∀ asked gap phase, (erase s.filling asked).lookup gap = some phase →
      s.filling.lookup gap = some phase := by
    intro asked gap phase hLookup
    rw [lookup_erase] at hLookup
    split_ifs at hLookup
    exact hLookup
  cases load with
  | earlier =>
    exact {
      earlier := by simp [ConversationTranscript.clear]
      filling := hPending.filling
      read := by
        intro other page hPhase
        cases other with
        | earlier => simp [ConversationTranscript.clear, ConversationTranscript.phase] at hPhase
        | gap gap => exact hPending.read (.gap gap) page hPhase }
  | gap asked =>
    exact {
      earlier := hPending.earlier
      filling := fun gap phase hLookup => hPending.filling gap phase (hFilling asked gap phase hLookup)
      read := by
        intro other page hPhase
        cases other with
        | earlier => exact hPending.read .earlier page hPhase
        | gap gap => exact hPending.read (.gap gap) page (hFilling asked gap _ hPhase) }

theorem phase_cover (s : ConversationTranscript) (lo hi : Bound) (added : List EntryRecord) (load : Load) :
    (s.cover lo hi added).phase load = s.phase load := by
  obtain ⟨hEarlier, hFilling⟩ := cover_loads s lo hi added
  cases load with
  | earlier => exact congrArg (Option.map Prod.snd) hEarlier
  | gap gap => exact congrArg (lookup gap) hFilling

theorem Pending.cover (hPending : Pending log s) {lo hi : Bound} (hLe : lo ≤ hi) (added : List EntryRecord) :
    Pending log (s.cover lo hi added) := by
  obtain ⟨hEarlier, hFilling⟩ := cover_loads s lo hi added
  have hQuery : ∀ load, (s.cover lo hi added).loadQuery load = s.loadQuery load := by
    intro load
    cases load with
    | earlier => simp only [ConversationTranscript.loadQuery, hEarlier]
    | gap gap => rfl
  have hTail := tail_le_cover s hLe added
  exact {
    earlier := by
      intro low phase hSome
      rw [hEarlier] at hSome
      exact ⟨(hPending.earlier low phase hSome).1, (hPending.earlier low phase hSome).2.trans hTail⟩
    filling := by
      intro gap phase hSome
      rw [hFilling] at hSome
      obtain ⟨hAfter, hWide, hEnd, hEnds⟩ := hPending.filling gap phase hSome
      refine ⟨hAfter, hWide, hEnd.trans (Bound.succ_le_succ.mpr hTail), hEnds.imp (fun ⟨entry, hEntry, hNum⟩ => ?_) id⟩
      exact ⟨entry, mem_cover s lo hi added hEntry, hNum⟩
    read := by
      intro load page hRead
      rw [phase_cover] at hRead
      rw [hQuery]
      exact hPending.read load page hRead }

theorem Pending.loadEarlier (hPending : Pending log s) (hMapped : Mapped log s) : Pending log s.loadEarlier := by
  rw [ConversationTranscript.loadEarlier]
  split_ifs with hNothing
  · exact hPending
  · push Not at hNothing
    exact {
      earlier := by
        intro low phase hSome
        obtain ⟨rfl, -⟩ : s.low = low ∧ Phase.asked = phase := by simpa using hSome
        exact ⟨hNothing.2.1, hMapped.ranges.low_le⟩
      filling := hPending.filling
      read := by
        intro load page hRead
        cases load with
        | earlier => simp [ConversationTranscript.phase] at hRead
        | gap gap => exact hPending.read (.gap gap) page hRead }

theorem currentGap_mem {gap current : Gap} (hCurrent : s.currentGap gap = some current) : current ∈ s.gaps := by
  rw [ConversationTranscript.currentGap, or_eq_some_iff] at hCurrent
  rcases hCurrent with hSame | ⟨-, hOver⟩
  · exact mem_of_find?_eq_some hSame
  · exact mem_of_find?_eq_some hOver

theorem Pending.fillGap (hPending : Pending log s) (hMapped : Mapped log s) (gap : Gap) : Pending log (s.fillGap gap) := by
  rw [ConversationTranscript.fillGap]
  cases hCurrent : s.currentGap gap with
  | none => exact hPending
  | some current =>
    have hGap := currentGap_mem hCurrent
    obtain ⟨hAfter, -, hWide, hEnd⟩ := hMapped.ranges.proper current hGap
    show Pending log (if _ then _ else _)
    split_ifs with hRunning
    · exact hPending
    · exact {
        earlier := hPending.earlier
        filling := by
          intro other phase hSome
          have hLookup : (set s.filling current Phase.asked).lookup other = some phase := hSome
          rw [lookup_set] at hLookup
          split_ifs at hLookup with hSame
          · rw [hSame]
            exact ⟨hAfter, hWide, hEnd, hMapped.ranges.ends current hGap⟩
          · exact hPending.filling other phase hLookup
        read := by
          intro load page hRead
          cases load with
          | earlier => exact hPending.read .earlier page hRead
          | gap other =>
            have hLookup : (set s.filling current Phase.asked).lookup other = some (.read page) := hRead
            rw [lookup_set] at hLookup
            split_ifs at hLookup with hSame
            · simp at hLookup
            · exact hPending.read (.gap other) page hLookup }

theorem Mapped.tail_lt (hMapped : Mapped log s) (hLog : LogOrdered (log ++ entries)) :
    ∀ entry ∈ entries, s.tail < num entry := by
  intro entry hEntry
  rcases hMapped.ranges.reached with hStart | ⟨last, hLast, hLe⟩
  · rw [hStart]
    exact Bound.bot_lt_of _
  · exact hLe.trans_lt (Bound.of_lt_of.mpr ((pairwise_append.mp hLog).2.2 last hLast entry hEntry))

theorem Mapped.commit (hMapped : Mapped log s) (hLog : LogOrdered (log ++ entries)) :
    Mapped (log ++ entries) s where
  ids := hMapped.ids
  known := fun entry hEntry => mem_append_left _ (hMapped.known entry hEntry)
  sorted := hMapped.sorted
  ranges := {
    held := hMapped.ranges.held
    proper := hMapped.ranges.proper
    clear := hMapped.ranges.clear
    ends := fun gap hGap => (hMapped.ranges.ends gap hGap).imp id fun ⟨entry, hEntry, hNum⟩ =>
      ⟨entry, mem_append_left _ hEntry, hNum⟩
    ordered := hMapped.ranges.ordered
    covered := by
      intro entry hEntry hLow hTail
      rcases mem_append.mp hEntry with hEntry | hEntry
      · exact hMapped.ranges.covered entry hEntry hLow hTail
      · exact absurd hTail (not_le_of_gt (hMapped.tail_lt hLog entry hEntry))
    low_le := hMapped.ranges.low_le
    reached := hMapped.ranges.reached.imp id fun ⟨entry, hEntry, hLe⟩ => ⟨entry, mem_append_left _ hEntry, hLe⟩
    base := fun hNone => (hMapped.ranges.base hNone).imp id fun ⟨entry, hEntry, hNum⟩ =>
      ⟨entry, mem_append_left _ hEntry, hNum⟩ }
  idle := hMapped.idle
  items := hMapped.items

variable {page : Page EntryRecord}

theorem Answers.commit {query : Query} (hPage : Answers log query page)
    (hPast : ∀ entry ∈ entries, query.maxEntryId < num entry) :
    Answers (log ++ entries) query page := by
  have hSame : matching (log ++ entries) query = matching log query := by
    have hNone : entries.filter (fun entry => query.minEntryId.all (fun min => decide (min ≤ num entry)) &&
        decide (num entry ≤ query.maxEntryId)) = [] := by
      refine filter_eq_nil_iff.mpr fun entry hEntry hMatch => ?_
      rw [Bool.and_eq_true, decide_eq_true_eq] at hMatch
      exact absurd hMatch.2 (not_le_of_gt (hPast entry hEntry))
    simp only [matching, filter_append, hNone, append_nil]
  rw [Answers, hSame]
  exact hPage

theorem Pending.maxEntryId_le (hPending : Pending log s) {phase : Phase} (hPhase : s.phase load = some phase) :
    (s.loadQuery load).maxEntryId ≤ s.tail := by
  cases load with
  | earlier =>
    obtain ⟨⟨low, before⟩, hEarlier, -⟩ := map_eq_some_iff.mp hPhase
    show (s.earlier.map Prod.fst).getD ⊥ ≤ s.tail
    rw [hEarlier]
    exact (hPending.earlier low before hEarlier).2
  | gap gap =>
    obtain ⟨-, hWide, hEnd, -⟩ := hPending.filling gap phase hPhase
    show gap.upTo.pred ≤ s.tail
    rw [← Bound.succ_le_succ, Bound.succ_pred]
    exact hEnd

theorem Pending.commit (hPending : Pending log s) (hMapped : Mapped log s)
    (hLog : LogOrdered (log ++ entries)) : Pending (log ++ entries) s where
  earlier := hPending.earlier
  filling := by
    intro gap phase hSome
    obtain ⟨hAfter, hWide, hEnd, hEnds⟩ := hPending.filling gap phase hSome
    exact ⟨hAfter, hWide, hEnd, hEnds.imp id fun ⟨entry, hEntry, hNum⟩ => ⟨entry, mem_append_left _ hEntry, hNum⟩⟩
  read := by
    intro load page hRead
    refine (hPending.read load page hRead).commit fun entry hEntry => ?_
    exact (hPending.maxEntryId_le hRead).trans_lt (hMapped.tail_lt hLog entry hEntry)

theorem Pending.given (hPending : Pending log s) (hMapped : Mapped log s) (hLog : LogOrdered log)
    (hRead : s.phase load = some (.read page)) {lo hi : Bound} {added : List EntryRecord}
    (hRange : s.loadRange load page = (lo, hi, added)) : Given log s.entries lo hi added := by
  have hPage := hPending.read load page hRead
  cases load with
  | earlier =>
    obtain ⟨⟨low, phase⟩, hEarlier, -⟩ := map_eq_some_iff.mp hRead
    obtain ⟨hProper, hTail⟩ := hPending.earlier low phase hEarlier
    simp only [ConversationTranscript.loadQuery, ConversationTranscript.loadRange, hEarlier, map_some,
      getD_some] at hPage hRange
    have hReached : ∃ entry ∈ log, low ≤ num entry := by
      rcases hMapped.ranges.reached with hStart | ⟨entry, hEntry, hLe⟩
      · rw [hStart] at hTail
        exact absurd (le_bot_iff.mp hTail) hProper
      · exact ⟨entry, hEntry, hTail.trans hLe⟩
    exact given_earlierRange hLog hReached hPage hRange
  | gap gap =>
    obtain ⟨hAfter, hWide, -, hEnds⟩ := hPending.filling gap _ hRead
    exact given_gapRange hLog hMapped.known hAfter hWide hEnds hPage hRange

end Steps

structure World.Inv (w : World) : Prop where
  log : LogOrdered w.log
  mapped : Mapped w.log w.transcript
  pending : Pending w.log w.transcript

def World.FitsEvent (w : World) (event : Event) : Prop :=
  ∀ lo hi added, event.range w.transcript = some (lo, hi, added) → Fits w.log w.transcript lo hi

variable {event : Event} {w : World} {s : ConversationTranscript} {log : List EntryRecord}

theorem World.FitsEvent.of_none (hNone : event.range w.transcript = none) :
    w.FitsEvent event := by
  intro lo hi added hRange
  rw [hNone] at hRange
  cases hRange

variable {added : List EntryRecord}

theorem World.FitsEvent.of_range {lo hi : Bound}
    (hRange : event.range w.transcript = some (lo, hi, added)) (hFits : Fits w.log w.transcript lo hi) :
    w.FitsEvent event := by
  intro lo' hi' added' hSame
  rw [hRange] at hSame
  cases hSame
  exact hFits

def World.TruthfulRun (w : World) : List Event → Prop
  | [] => True
  | event :: events => w.Truthful event ∧ (w.step event).TruthfulRun events

/-- A run whose ranges all fit. -/
def World.FittingRun (w : World) : List Event → Prop
  | [] => True
  | event :: events => w.FitsEvent event ∧ (w.step event).FittingRun events

theorem Mapped.withLast (hMapped : Mapped log s) (last : Option ConversationView) : Mapped log { s with last } :=
  ⟨hMapped.ids, hMapped.known, hMapped.sorted, hMapped.ranges, hMapped.idle, hMapped.items⟩

theorem Mapped.setPhase (hMapped : Mapped log s) (phase : Phase) (load : Load) : Mapped log (s.setPhase phase load) := by
  cases load <;>
    exact ⟨hMapped.ids, hMapped.known, hMapped.sorted, hMapped.ranges, hMapped.idle, hMapped.items⟩

theorem World.Inv.step (hInv : w.Inv) (hTruthful : w.Truthful event) (hFits : w.FitsEvent event) : (w.step event).Inv := by
  obtain ⟨hLog, hMapped, hPending⟩ := hInv
  cases event with
  | commit entries =>
    exact ⟨hTruthful, hMapped.commit hTruthful, hPending.commit hMapped hTruthful⟩
  | merge view =>
    have hGiven : Given w.log w.transcript.entries view.start view.reach view.entries := IsWindow.given hLog hTruthful
    have hLast : Mapped w.log { w.transcript with last := some view } := hMapped.withLast (some view)
    have hLoads : Pending w.log { w.transcript with last := some view } :=
      ⟨hPending.earlier, hPending.filling, hPending.read⟩
    have hFit := hFits _ _ _ rfl
    exact ⟨hLog, hLast.cover hLog hGiven ⟨hFit.start, hFit.below⟩, hLoads.cover hGiven.le view.entries⟩
  | loadEarlier =>
    refine ⟨hLog, ?_, hPending.loadEarlier hMapped⟩
    show Mapped w.log w.transcript.loadEarlier
    rw [ConversationTranscript.loadEarlier]
    split_ifs
    · exact hMapped
    · exact ⟨hMapped.ids, hMapped.known, hMapped.sorted, hMapped.ranges, hMapped.idle, hMapped.items⟩
  | fillGap gap =>
    refine ⟨hLog, ?_, hPending.fillGap hMapped gap⟩
    show Mapped w.log (w.transcript.fillGap gap)
    rw [ConversationTranscript.fillGap]
    split
    · exact hMapped
    · split_ifs
      · exact hMapped
      · exact ⟨hMapped.ids, hMapped.known, hMapped.sorted, hMapped.ranges, hMapped.idle, hMapped.items⟩
  | read load page =>
    rw [World.step]
    split_ifs with hAsked
    · refine ⟨hLog, hMapped.setPhase _ load, hPending.setPhase hAsked _ fun other hOther => ?_⟩
      obtain rfl := Phase.read.inj hOther
      exact hTruthful
    · exact ⟨hLog, hMapped, hPending⟩
  | land load =>
    rw [World.step]
    split
    · rename_i page hRead
      obtain ⟨⟨lo, hi, added⟩, hRange⟩ : ∃ range, w.transcript.loadRange load page = range := ⟨_, rfl⟩
      have hGiven := hPending.given hMapped hLog hRead hRange
      have hFit := hFits lo hi added (by simp only [Event.range, hRead, hRange])
      have hCover := hPending.cover hGiven.le added
      have hStill : (w.transcript.cover lo hi added).phase load = some (.read page) := by
        rw [← hRead]
        exact phase_cover w.transcript lo hi added load
      rw [hRange]
      refine ⟨hLog, (hMapped.cover hLog hGiven hFit).setPhase _ load, hCover.setPhase hStill _ ?_⟩
      simp
    · exact ⟨hLog, hMapped, hPending⟩
  | settle load =>
    rw [World.step]
    split
    · exact ⟨hLog, hMapped, hPending⟩
    · refine ⟨hLog, ?_, hPending.clear load⟩
      cases load <;> exact ⟨hMapped.ids, hMapped.known, hMapped.sorted, hMapped.ranges, hMapped.idle, hMapped.items⟩

theorem World.Inv.initial : ({} : World).Inv where
  log := Pairwise.nil
  mapped := {
    ids := by simp
    known := by simp
    sorted := Pairwise.nil
    ranges := {
      held := by simp
      proper := by simp
      clear := by simp
      ends := by simp
      ordered := Pairwise.nil
      covered := by simp
      low_le := le_rfl
      reached := Or.inl rfl
      base := fun _ => Or.inl rfl }
    idle := fun _ => ⟨rfl, rfl, rfl⟩
    items := rfl }
  pending := {
    earlier := by simp
    filling := by simp
    read := by
      intro load page hRead
      cases load <;> simp [ConversationTranscript.phase] at hRead }

theorem Mapped.fits_of_faithful {lo hi : Bound}
    (hMapped : Mapped log s) (hGiven : Given log s.entries lo hi added) (hFaithful : Faithful log (s.cover lo hi added)) :
    Fits log s lo hi := by
  obtain ⟨⟨next, rebuild⟩, hNext⟩ : ∃ result, (s.grown added).relate s.entries lo hi added = result := ⟨_, rfl⟩
  have hEntries := (relate_frame (s.grown added) s.entries lo hi added).1
  rw [hNext] at hEntries
  have hEntries : next.entries = s.taken added := hEntries
  rw [cover_eq s lo hi added hNext] at hFaithful
  exact {
    start := by
      intro hStart entry hEntry
      by_contra hUnder
      rw [not_lt] at hUnder
      have hLo : lo = ⊥ := le_bot_iff.mp (hStart ▸ hGiven.le)
      have hLow : ⊥ < s.low := (Bound.bot_lt_of entry.id).trans_le hUnder
      have hTail : ⊥ < s.tail := hLow.trans_le hMapped.ranges.low_le
      have hFirst : ¬(s.started = false ∨ (s.entries = [] ∧ s.gaps = [] ∧ s.tail ≤ lo)) := by
        rintro (hIdle | ⟨-, -, hLe⟩)
        · exact absurd (hMapped.idle hIdle).2.2 hTail.ne'
        · exact absurd (hLe.trans_eq hLo) (not_le_of_gt hTail)
      have hPast : ¬s.tail < lo := by simp [hLo]
      have hBelow : ¬(hi ≠ ⊥ ∧ hi < s.low) := fun h => h.1 hStart
      rw [relate_overlap (s.grown added) s.entries hFirst hPast hBelow] at hNext
      obtain rfl := (Prod.mk.inj hNext).1
      -- the range is empty: nothing is added, and no gap changes
      have hNone : s.fresh added = [] := by
        refine eq_nil_iff_forall_not_mem.mpr fun other hOther => ?_
        have hIn := ((hGiven.mem other).mp (mem_filter.mp hOther).1).2.2
        exact absurd (le_bot_iff.mp (hStart ▸ hIn)) (num_ne_bot other)
      have hSame : (s.grown added).subtract ⊥ hi = none := by
        rw [ConversationTranscript.subtract, if_pos (Or.inl (by rw [hStart]))]
      have hGrown : s.taken added = s.entries := by rw [ConversationTranscript.taken, if_pos hNone]
      have hCovered := hFaithful.covered entry hEntry
      simp only [hLo, hSame, getD_none] at hCovered
      have hAbove : (if ⊥ < (s.grown added).low then ⊥ else (s.grown added).low) < num entry := by
        rw [if_pos (show ⊥ < (s.grown added).low from hLow)]
        exact Bound.bot_lt_of _
      have hUpTo : num entry ≤ if (s.grown added).tail < hi then hi else (s.grown added).tail := by
        rw [hStart, if_neg not_lt_bot]
        exact hUnder.trans hMapped.ranges.low_le
      rcases hCovered hAbove hUpTo with hHeld | ⟨gap, ⟨hGap, hIn⟩, -⟩
      · have hHeld : entry ∈ s.taken added := hHeld
        rw [hGrown] at hHeld
        exact absurd (hMapped.ranges.held entry hHeld).1 (not_lt_of_ge hUnder)
      · have hFrom := (hMapped.ranges.proper gap hGap).2.1
        exact absurd hIn.1 (not_lt_of_ge (hUnder.trans hFrom))
    below := by
      intro hProper hBelow first hHead gap hGap
      by_contra hBefore
      rw [not_le] at hBefore
      obtain ⟨rest, hHeld⟩ := head?_eq_some_iff.mp hHead
      have hMem : first ∈ s.entries := by rw [hHeld]; exact mem_cons_self
      have hFirst : ¬(s.started = false ∨ (s.entries = [] ∧ s.gaps = [] ∧ s.tail ≤ lo)) := by
        rintro (hIdle | ⟨hNone, -⟩)
        · rw [(hMapped.idle hIdle).1] at hMem
          simp at hMem
        · rw [hNone] at hMem
          simp at hMem
      have hPast : ¬s.tail < lo := not_lt_of_ge (hGiven.le.trans (hBelow.le.trans hMapped.ranges.low_le))
      rw [relate_below (s.grown added) s.entries hFirst hPast ⟨hProper, hBelow⟩] at hNext
      obtain rfl := (Prod.mk.inj hNext).1
      obtain ⟨hAfter, hFrom, hWide, -⟩ := hMapped.ranges.proper gap hGap
      have hUntil : gap.upTo ≤ num first := (hMapped.ranges.clear gap hGap first hMem).resolve_left (not_le_of_gt hBefore)
      have hFind : (s.entries.find? fun entry => decide (hi < num entry)) = some first := by
        rw [hHeld, find?_cons_of_pos (by simpa using hBelow.trans (hMapped.ranges.held first hMem).1)]
      have hOver : gap.after < gap.after.succ := (Bound.lt_succ hAfter).mpr le_rfl
      -- the new gap goes on to the first entry held, over the one before it
      have hPair := (pairwise_cons.mp hFaithful.gaps).1 gap hGap
      refine hPair.2 gap.after.succ ⟨⟨(hBelow.trans_le hFrom).trans hOver, ?_⟩, hOver, hWide⟩
      rw [hFind]
      exact hWide.trans_le hUntil }

theorem Faithful.of_setPhase {phase : Phase} {load : Load}
    (hFaithful : Faithful log (s.setPhase phase load)) : Faithful log s := by
  cases load <;>
    exact ⟨hFaithful.sorted, hFaithful.known, hFaithful.gaps, hFaithful.clear, hFaithful.covered, hFaithful.items,
      hFaithful.earlier⟩

theorem World.Inv.fits_of_faithful (hInv : w.Inv) (hTruthful : w.Truthful event)
    (hFaithful : Faithful (w.step event).log (w.step event).transcript) : w.FitsEvent event := by
  intro lo hi added hRange
  cases event with
  | merge view =>
    obtain ⟨rfl, rfl, rfl⟩ : view.start = lo ∧ view.reach = hi ∧ view.entries = added := by simpa [Event.range] using hRange
    have hFits := (hInv.mapped.withLast (some view)).fits_of_faithful (IsWindow.given hInv.log hTruthful) hFaithful
    exact ⟨hFits.start, hFits.below⟩
  | land load =>
    rw [World.step] at hFaithful
    cases hPhase : w.transcript.phase load with
    | none => simp [Event.range, hPhase] at hRange
    | some phase =>
      cases phase with
      | asked => simp [Event.range, hPhase] at hRange
      | landed => simp [Event.range, hPhase] at hRange
      | read page =>
        have hLoad : w.transcript.loadRange load page = (lo, hi, added) := by simpa [Event.range, hPhase] using hRange
        simp only [hPhase, hLoad] at hFaithful
        exact hInv.mapped.fits_of_faithful (hInv.pending.given hInv.mapped hInv.log hPhase hLoad) hFaithful.of_setPhase
  | commit entries => simp [Event.range] at hRange
  | loadEarlier => simp [Event.range] at hRange
  | fillGap gap => simp [Event.range] at hRange
  | read load page => simp [Event.range] at hRange
  | settle load => simp [Event.range] at hRange

variable {events : List Event}

theorem World.Inv.run (hInv : w.Inv) (hTruthful : w.TruthfulRun events)
    (hFitting : w.FittingRun events) (done : List Event) (hDone : done <+: events) : (w.run done).Inv := by
  induction events generalizing w done with
  | nil =>
    rw [prefix_nil.mp hDone]
    exact hInv
  | cons event events ih =>
    rcases prefix_cons_iff.mp hDone with rfl | ⟨rest, rfl, hRest⟩
    · exact hInv
    · exact ih (hInv.step hTruthful.1 hFitting.1) hTruthful.2 hFitting.2 rest hRest

theorem World.Inv.fitting_of_faithful (hInv : w.Inv) (hTruthful : w.TruthfulRun events)
    (hFaithful : ∀ done, done <+: events → Faithful (w.run done).log (w.run done).transcript) : w.FittingRun events := by
  induction events generalizing w with
  | nil => exact trivial
  | cons event events ih =>
    have hFits := hInv.fits_of_faithful hTruthful.1 (hFaithful [event] ⟨events, rfl⟩)
    refine ⟨hFits, ih (hInv.step hTruthful.1 hFits) hTruthful.2 fun done hDone => ?_⟩
    exact hFaithful (event :: done) ((prefix_cons_inj event).mpr hDone)

/-- A truthful run keeps the transcript faithful in every state exactly when every range
that it takes in fits. -/
theorem World.run_faithful_iff (events : List Event) (hTruthful : ({} : World).TruthfulRun events) :
    (∀ done, done <+: events → Faithful (({} : World).run done).log (({} : World).run done).transcript) ↔
      ({} : World).FittingRun events :=
  ⟨World.Inv.initial.fitting_of_faithful hTruthful, fun hFitting done hDone =>
    (World.Inv.initial.run hTruthful hFitting done hDone).mapped.faithful⟩

/-- Entry `id` of one conversation. -/
def entryAt (id : Nat) : EntryRecord :=
  { id, conversationId := 0 }

/-- A window and a later one, with the gap between them filled by a load. -/
def resumed : List Event :=
  [.commit [entryAt 1, entryAt 2, entryAt 4, entryAt 7],
    .merge { entries := [entryAt 2], before := some 1 },
    .merge { entries := [entryAt 7], before := some 4 },
    .fillGap { after := Bound.of 2, upTo := Bound.of 7 },
    .read (.gap { after := Bound.of 2, upTo := Bound.of 7 }) { items := [entryAt 4], next := none },
    .land (.gap { after := Bound.of 2, upTo := Bound.of 7 })]

theorem World.run_faithful_resumed :
    Faithful (({} : World).run resumed).log (({} : World).run resumed).transcript := by
  have hTruthful : ({} : World).TruthfulRun resumed := by
    refine ⟨by simp [World.Truthful, entryAt], ⟨[entryAt 1], [entryAt 4, entryAt 7], rfl, rfl⟩,
      ⟨[entryAt 1, entryAt 2, entryAt 4], [], rfl, rfl⟩, trivial, ⟨⟨[], by decide⟩, by decide⟩, trivial, trivial⟩
  have hFitting : ({} : World).FittingRun resumed := by
    exact ⟨.of_none rfl, .of_range rfl (Fits.of_le (by decide) (by decide)),
      .of_range rfl (Fits.of_le (by decide) (by decide)), .of_none rfl, .of_none rfl,
      .of_range rfl (Fits.of_le (by decide) (by decide)), trivial⟩
  exact (World.run_faithful_iff resumed hTruthful).mpr hFitting resumed (prefix_refl resumed)

/-- Two windows that are older than the first one: the gap that the second opens is over
the gap of the other. -/
def outOfOrder : List Event :=
  [.commit [entryAt 1, entryAt 2, entryAt 3, entryAt 4],
    .merge { entries := [entryAt 4], before := some 3 },
    .merge { entries := [], before := some 2 },
    .merge { entries := [], before := some 1 }]

theorem outOfOrder_not_faithful : ({} : World).TruthfulRun outOfOrder ∧
    ¬Faithful (({} : World).run outOfOrder).log (({} : World).run outOfOrder).transcript := by
  constructor
  · exact ⟨by simp [World.Truthful, entryAt], ⟨[entryAt 1, entryAt 2, entryAt 3], [], rfl, rfl⟩,
      ⟨[entryAt 1, entryAt 2], [entryAt 3, entryAt 4], rfl, rfl⟩,
      ⟨[entryAt 1], [entryAt 2, entryAt 3, entryAt 4], rfl, rfl⟩, trivial⟩
  · intro hFaithful
    have hGaps : (({} : World).run outOfOrder).transcript.gaps =
        [{ after := Bound.of 1, upTo := Bound.of 4 }, { after := Bound.of 2, upTo := Bound.of 4 }] := by decide
    have hApart := hFaithful.gaps
    rw [hGaps, pairwise_pair] at hApart
    exact hApart.2 (Bound.of 3) (by simp [Gap.Has])

end OctoberHarness.Transcript
