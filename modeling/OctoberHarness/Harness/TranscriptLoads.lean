import OctoberHarness.Harness.TranscriptCover

/-! What windows and loads tell a transcript. -/
namespace OctoberHarness.Transcript

open List Option

open Storage (EntryRecord Page ScanOrder)

/-- Where a gap ends: at an entry held, or right after an entry of the conversation. -/
def EndsAt (log held : List EntryRecord) (upTo : Bound) : Prop :=
  (∃ entry ∈ held, upTo = num entry) ∨ ∃ entry ∈ log, upTo = (num entry).succ

section Slices

variable {log held : List EntryRecord} {lo hi : Bound}

theorem mem_slice {first middle last : List EntryRecord} (hLog : log = first ++ middle ++ last)
    (hFirst : ∀ entry ∈ first, num entry ≤ lo) (hMiddle : ∀ entry ∈ middle, lo < num entry ∧ num entry ≤ hi)
    (hLast : ∀ entry ∈ last, hi < num entry) (entry : EntryRecord) :
    entry ∈ middle ↔ entry ∈ log ∧ lo < num entry ∧ num entry ≤ hi := by
  rw [hLog, mem_append, mem_append]
  constructor
  · intro hEntry
    exact ⟨Or.inl (Or.inr hEntry), hMiddle entry hEntry⟩
  · rintro ⟨(hEntry | hEntry) | hEntry, hLess, hLe⟩
    · exact absurd (hFirst entry hEntry) (not_le_of_gt hLess)
    · exact hEntry
    · exact absurd (hLast entry hEntry) (not_lt_of_ge hLe)

theorem le_last {entries : List EntryRecord} (hSorted : entries.Pairwise fun first second => first.id < second.id)
    {last : EntryRecord} (hLast : entries.getLast? = some last) :
    last ∈ entries ∧ ∀ entry ∈ entries, num entry ≤ num last := by
  obtain ⟨before, rfl⟩ := getLast?_eq_some_iff.mp hLast
  refine ⟨by simp, fun entry hEntry => ?_⟩
  rcases mem_append.mp hEntry with hEntry | hEntry
  · exact Bound.of_le_of.mpr ((pairwise_append.mp hSorted).2.2 entry hEntry last mem_cons_self).le
  · rw [mem_singleton.mp hEntry]

theorem IsWindow.given (hLog : LogOrdered log) {view : ConversationView} (hWindow : IsWindow log view) :
    Given log held view.start view.reach view.entries := by
  obtain ⟨first, last, hParts, hBefore⟩ := hWindow
  have hOrder := hParts ▸ hLog
  rw [LogOrdered, pairwise_append, pairwise_append] at hOrder
  obtain ⟨⟨hFirst, hEntries, hAcross⟩, hRest, hPast⟩ := hOrder
  have hIn : ∀ entry ∈ first ++ view.entries, entry ∈ log := fun entry hEntry => by
    rw [hParts]
    exact mem_append_left _ hEntry
  -- everything before the window is at or below its start
  have hStart : (∀ entry ∈ first, num entry ≤ view.start) ∧ (∀ entry ∈ view.entries ++ last, view.start < num entry) ∧
      (view.start = ⊥ ∨ ∃ entry ∈ log, view.start = num entry) := by
    rw [ConversationView.start, hBefore]
    cases hLast : first.getLast? with
    | none =>
      rw [getLast?_eq_none_iff.mp hLast]
      exact ⟨by simp, fun entry _ => Bound.bot_lt_of _, Or.inl rfl⟩
    | some before =>
      obtain ⟨hMem, hLe⟩ := le_last hFirst hLast
      refine ⟨hLe, fun entry hEntry => ?_, Or.inr ⟨before, hIn before (mem_append_left _ hMem), rfl⟩⟩
      rcases mem_append.mp hEntry with hEntry | hEntry
      · exact Bound.of_lt_of.mpr (hAcross before hMem entry hEntry)
      · exact Bound.of_lt_of.mpr (hPast before (mem_append_left _ hMem) entry hEntry)
  obtain ⟨hUnder, hOver, hKind⟩ := hStart
  have hReach : (∀ entry ∈ view.entries, num entry ≤ view.reach) ∧ (∀ entry ∈ last, view.reach < num entry) ∧
      view.start ≤ view.reach ∧ (view.reach = ⊥ ∨ ∃ entry ∈ log, view.reach ≤ num entry) ∧
      (view.entries = [] → view.start = view.reach) := by
    rw [ConversationView.reach]
    cases hLast : view.entries.getLast? with
    | none =>
      have hNone := getLast?_eq_none_iff.mp hLast
      refine ⟨by simp [hNone], fun entry hEntry => hOver entry (mem_append_right _ hEntry), le_rfl, ?_, fun _ => rfl⟩
      exact hKind.imp id fun ⟨entry, hEntry, hNum⟩ => ⟨entry, hEntry, hNum.le⟩
    | some newest =>
      obtain ⟨hMem, hLe⟩ := le_last hEntries hLast
      refine ⟨hLe, fun entry hEntry => ?_, (hOver newest (mem_append_left _ hMem)).le,
        Or.inr ⟨newest, hIn newest (mem_append_right _ hMem), le_rfl⟩, fun hNone => ?_⟩
      · exact Bound.of_lt_of.mpr (hPast newest (mem_append_right _ hMem) entry hEntry)
      · rw [hNone] at hMem
        simp at hMem
  obtain ⟨hUpTo, hAfter, hLe, hReached, hBare⟩ := hReach
  exact {
    mem := mem_slice hParts hUnder (fun entry hEntry => ⟨hOver entry (mem_append_left _ hEntry), hUpTo entry hEntry⟩) hAfter
    sorted := hEntries
    le := hLe
    reached := hReached
    bare := fun hNone hProper => Or.inl ⟨hBare hNone, hKind.resolve_left hProper⟩ }

theorem mem_matching_ascending {gap : Gap} (hAfter : gap.after ≠ ⊥) (hUpTo : gap.upTo ≠ ⊥) (entry : EntryRecord) :
    entry ∈ matching log { minEntryId := some gap.after.succ, maxEntryId := gap.upTo.pred, order := .ascending } ↔
      entry ∈ log ∧ gap.after < num entry ∧ num entry < gap.upTo := by
  simp only [matching, mem_filter, all_some, Bool.and_eq_true, decide_eq_true_eq, Bound.succ_le hAfter,
    Bound.le_pred hUpTo]

variable {page : Page EntryRecord} {added : List EntryRecord}

theorem given_gapRange (hLog : LogOrdered log) (hKnown : ∀ entry ∈ held, entry ∈ log) {gap : Gap} (hAfter : gap.after ≠ ⊥)
    (hWide : gap.after.succ < gap.upTo) (hEnds : EndsAt log held gap.upTo)
    (hPage : Answers log { minEntryId := some gap.after.succ, maxEntryId := gap.upTo.pred, order := .ascending } page)
    (hRange : ConversationTranscript.gapRange gap page = (lo, hi, added)) :
    Given log held lo hi added := by
  have hUpTo : gap.upTo ≠ ⊥ := ne_bot_of_gt hWide
  have hLess : gap.after < gap.upTo := ((Bound.lt_succ hAfter).mpr le_rfl).trans hWide
  have hMem := @mem_matching_ascending log _ hAfter hUpTo
  obtain ⟨⟨rest, hRest⟩, hAll⟩ := hPage
  have hOrder : (page.items ++ rest).Pairwise fun first second => first.id < second.id := hRest ▸ hLog.filter _
  rw [pairwise_append] at hOrder
  by_cases hMore : page.next = none ∨ page.items = []
  · -- the page holds all that is missing
    have hItems := hAll hMore
    have hHi : (gap.after, gap.upTo.pred, page.items) = (lo, hi, added) := by
      rw [← hRange, ConversationTranscript.gapRange]
      rcases hMore with hNext | hNone
      · simp only [hNext]
      · rw [hNone]
        cases page.next <;> rfl
    obtain ⟨rfl, rfl, rfl⟩ : gap.after = lo ∧ gap.upTo.pred = hi ∧ page.items = added := by simpa using hHi
    exact {
      mem := fun entry => by rw [hItems, hMem, Bound.le_pred hUpTo]
      sorted := hOrder.1
      le := (Bound.le_pred hUpTo).mpr hLess
      reached := by
        rcases hEnds with ⟨entry, hEntry, hNum⟩ | ⟨entry, hEntry, hNum⟩
        · refine Or.inr ⟨entry, hKnown entry hEntry, ?_⟩
          rw [hNum]
          exact ((Bound.pred_lt (num_ne_bot entry)).mpr le_rfl).le
        · refine Or.inr ⟨entry, hEntry, ?_⟩
          rw [hNum, Bound.pred_succ]
      bare := by
        intro hNone _
        rcases hEnds with ⟨entry, hEntry, hNum⟩ | ⟨entry, hEntry, hNum⟩
        · exact Or.inr ⟨entry, hEntry, by rw [Bound.succ_pred, hNum]⟩
        · -- the entry before the gap's end would be on the page
          have hIn : entry ∈ page.items := by
            rw [hItems, hMem]
            rw [hNum] at hWide ⊢
            exact ⟨hEntry, (Bound.succ_le hAfter).mp ((Bound.lt_succ (num_ne_bot entry)).mp hWide),
              (Bound.lt_succ (num_ne_bot entry)).mpr le_rfl⟩
          rw [hNone] at hIn
          simp at hIn }
  · push Not at hMore
    obtain ⟨cursor, hNext⟩ := ne_none_iff_exists'.mp hMore.1
    obtain ⟨newest, hLast⟩ : ∃ newest, page.items.getLast? = some newest :=
      ne_none_iff_exists'.mp (mt getLast?_eq_none_iff.mp hMore.2)
    have hHi : (gap.after, num newest, page.items) = (lo, hi, added) := by
      rw [← hRange, ConversationTranscript.gapRange, hNext, hLast]
    obtain ⟨rfl, rfl, rfl⟩ : gap.after = lo ∧ num newest = hi ∧ page.items = added := by simpa using hHi
    obtain ⟨hNewest, hUpper⟩ := le_last hOrder.1 hLast
    have hOf : ∀ entry ∈ page.items, entry ∈ log ∧ gap.after < num entry ∧ num entry < gap.upTo := fun entry hEntry =>
      (hMem entry).mp (hRest ▸ mem_append_left _ hEntry)
    exact {
      mem := by
        intro entry
        refine ⟨fun hEntry => ⟨(hOf entry hEntry).1, (hOf entry hEntry).2.1, hUpper entry hEntry⟩, fun ⟨hIn, hPast, hLe⟩ => ?_⟩
        have hMatch := (hMem entry).mpr ⟨hIn, hPast, hLe.trans_lt (hOf newest hNewest).2.2⟩
        rw [← hRest, mem_append] at hMatch
        refine hMatch.resolve_right fun hLater => ?_
        exact absurd (Bound.of_le_of.mp hLe) (not_le_of_gt (hOrder.2.2 newest hNewest entry hLater))
      sorted := hOrder.1
      le := (hOf newest hNewest).2.1.le
      reached := Or.inr ⟨newest, (hOf newest hNewest).1, le_rfl⟩
      bare := fun hNone => absurd hNone hMore.2 }

/-- A page before the known range tells the entries before it. -/
theorem given_earlierRange (hLog : LogOrdered log) {low : Bound} (hReached : ∃ entry ∈ log, low ≤ num entry)
    (hPage : Answers log { maxEntryId := low, order := .descending } page)
    (hRange : ConversationTranscript.earlierRange low page = (lo, hi, added)) :
    Given log held lo hi added := by
  have hMem : ∀ entry, entry ∈ matching log { maxEntryId := low, order := .descending } ↔ entry ∈ log ∧ num entry ≤ low := by
    intro entry
    simp only [matching, mem_reverse, mem_filter, all_none, Bool.true_and, decide_eq_true_eq]
  obtain ⟨⟨rest, hRest⟩, hAll⟩ := hPage
  have hOrder : (page.items ++ rest).Pairwise fun first second => second.id < first.id := by
    rw [hRest]
    exact pairwise_reverse.mpr (hLog.filter _)
  rw [pairwise_append] at hOrder
  have hSorted : page.items.reverse.Pairwise fun first second => first.id < second.id := pairwise_reverse.mpr hOrder.1
  by_cases hMore : page.next = none ∨ page.items = []
  · -- the conversation starts here
    have hItems := hAll hMore
    have hLo : (⊥, low, page.items.reverse) = (lo, hi, added) := by
      rw [← hRange, ConversationTranscript.earlierRange]
      rcases hMore with hNext | hNone
      · simp only [hNext]
      · rw [hNone]
        cases page.next <;> rfl
    obtain ⟨rfl, rfl, rfl⟩ : ⊥ = lo ∧ low = hi ∧ page.items.reverse = added := by simpa using hLo
    exact {
      mem := fun entry => by
        rw [mem_reverse, hItems, hMem]
        exact and_congr_right fun _ => ⟨fun hLe => ⟨Bound.bot_lt_of _, hLe⟩, fun h => h.2⟩
      sorted := hSorted
      le := bot_le
      reached := Or.inr hReached
      bare := fun _ hProper => absurd rfl hProper }
  · push Not at hMore
    obtain ⟨cursor, hNext⟩ := ne_none_iff_exists'.mp hMore.1
    obtain ⟨oldest, hHead⟩ : ∃ oldest, page.items.reverse.head? = some oldest :=
      ne_none_iff_exists'.mp (mt head?_eq_none_iff.mp (mt reverse_eq_nil_iff.mp hMore.2))
    have hLo : ((num oldest).pred, low, page.items.reverse) = (lo, hi, added) := by
      rw [← hRange, ConversationTranscript.earlierRange]
      simp only [hNext, hHead]
    obtain ⟨rfl, rfl, rfl⟩ : (num oldest).pred = lo ∧ low = hi ∧ page.items.reverse = added := by simpa using hLo
    obtain ⟨hOldest, hLower⟩ := head_le hSorted hHead
    have hOf : ∀ entry ∈ page.items.reverse, entry ∈ log ∧ num entry ≤ low := fun entry hEntry =>
      (hMem entry).mp (hRest ▸ mem_append_left _ (mem_reverse.mp hEntry))
    exact {
      mem := by
        intro entry
        rw [Bound.pred_lt (num_ne_bot oldest)]
        refine ⟨fun hEntry => ⟨(hOf entry hEntry).1, hLower entry hEntry, (hOf entry hEntry).2⟩, fun ⟨hIn, hFrom, hLe⟩ => ?_⟩
        have hMatch := (hMem entry).mpr ⟨hIn, hLe⟩
        rw [← hRest, mem_append] at hMatch
        refine mem_reverse.mpr (hMatch.resolve_right fun hBefore => ?_)
        have hUnder := hOrder.2.2 oldest (mem_reverse.mp hOldest) entry hBefore
        exact absurd (Bound.of_le_of.mp hFrom) (not_le_of_gt hUnder)
      sorted := hSorted
      le := ((Bound.pred_lt (num_ne_bot oldest)).mpr (hOf oldest hOldest).2).le
      reached := Or.inr hReached
      bare := fun hNone => absurd (reverse_eq_nil_iff.mp hNone) hMore.2 }

end Slices

end OctoberHarness.Transcript
