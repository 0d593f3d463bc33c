import Mathlib.Data.List.TakeWhile
import OctoberHarness.Harness.TranscriptRanges

/-! A transcript is a map of a conversation: what it holds, its gaps and its items.
Covering a range that fits keeps it one. -/
namespace OctoberHarness.Transcript

open List

open Storage (EntryRecord)

/-- The entries of a conversation, in the order of their ids. -/
def LogOrdered (log : List EntryRecord) : Prop :=
  log.Pairwise fun first second => first.id < second.id

theorem LogOrdered.eq_of_id {log : List EntryRecord} (hLog : LogOrdered log) {first second : EntryRecord}
    (hFirst : first ∈ log) (hSecond : second ∈ log) (hId : first.id = second.id) : first = second := by
  have hNodup : (log.map EntryRecord.id).Nodup := pairwise_map.mpr (hLog.imp fun h => h.ne)
  exact inj_on_of_nodup_map hNodup hFirst hSecond hId

/-- Where a range may be taken in. One below every known id finds no gap before the first
entry held, and an empty conversation nothing unknown below. -/
structure Fits (log : List EntryRecord) (s : ConversationTranscript) (lo hi : Bound) : Prop where
  start : hi = ⊥ → ∀ entry ∈ log, s.low < num entry
  below : hi ≠ ⊥ → hi < s.low → ∀ first, s.entries.head? = some first → ∀ gap ∈ s.gaps, num first ≤ gap.after

theorem Fits.of_le {log : List EntryRecord} {s : ConversationTranscript} {lo hi : Bound} (hProper : hi ≠ ⊥)
    (hReach : s.low ≤ hi) : Fits log s lo hi where
  start := fun hStart => absurd hStart hProper
  below := fun _ hBelow => absurd hReach (not_le_of_gt hBelow)

structure Mapped (log : List EntryRecord) (s : ConversationTranscript) : Prop where
  ids : ∀ id, id ∈ s.ids ↔ ∃ entry ∈ s.entries, entry.id = id
  known : ∀ entry ∈ s.entries, entry ∈ log
  sorted : s.entries.Pairwise fun first second => first.id < second.id
  ranges : Ranges log s.entries s.low s.tail s.gaps
  idle : s.started = false → s.entries = [] ∧ s.gaps = [] ∧ s.tail = ⊥
  items : s.items = build s.low s.gaps s.entries

theorem placeGaps_append (gaps : List Gap) (held fresh : List EntryRecord)
    (hPast : ∀ gap ∈ gaps, ∀ entry ∈ fresh, gap.after < num entry) :
    placeGaps gaps (held ++ fresh) = placeGaps gaps held ++ fresh.map Item.entry := by
  induction held generalizing gaps with
  | nil =>
    induction fresh generalizing gaps with
    | nil => simp
    | cons entry rest ih =>
      have hAll : ∀ gap ∈ gaps, decide (gap.after < num entry) = true := by
        intro gap hGap
        exact decide_eq_true (hPast gap hGap entry mem_cons_self)
      have hRest := ih [] (by simp)
      rw [nil_append, placeGaps] at hRest
      rw [nil_append, placeGaps, placeGaps, takeWhile_eq_self_iff.mpr hAll,
        dropWhile_eq_nil_iff.mpr hAll, hRest]
      simp
  | cons entry rest ih =>
    rw [cons_append, placeGaps, placeGaps, ih]
    · simp
    · intro gap hGap
      exact hPast gap (dropWhile_subset _ hGap)

theorem build_append (low : Bound) (gaps : List Gap) (held fresh : List EntryRecord)
    (hPast : ∀ gap ∈ gaps, ∀ entry ∈ fresh, gap.after < num entry) :
    build low gaps (held ++ fresh) = build low gaps held ++ fresh.map Item.entry := by
  rw [build, build, placeGaps_append gaps held fresh hPast, append_assoc]

namespace ConversationTranscript

/-- The added entries that are not held yet. -/
def fresh (s : ConversationTranscript) (added : List EntryRecord) : List EntryRecord :=
  added.filter fun entry => decide (entry.id ∉ s.ids)

/-- The entries held after a cover. -/
def taken (s : ConversationTranscript) (added : List EntryRecord) : List EntryRecord :=
  if s.fresh added = [] then s.entries
  else if appends s.entries (s.fresh added) then s.entries ++ s.fresh added
  else mergeById s.entries (s.fresh added)

/-- The state that the branches of a cover start from. -/
def grown (s : ConversationTranscript) (added : List EntryRecord) : ConversationTranscript :=
  { s with
    ids := s.ids ++ (s.fresh added).map EntryRecord.id
    entries := s.taken added }

end ConversationTranscript

theorem mem_union (s : ConversationTranscript) (added : List EntryRecord) (entry : EntryRecord) :
    entry ∈ s.taken added ↔ entry ∈ s.entries ∨ entry ∈ s.fresh added := by
  rw [ConversationTranscript.taken]
  split_ifs with hNone hAppends
  · simp [hNone]
  · exact mem_append
  · exact mem_merge

section Cover

variable {log added : List EntryRecord} {s : ConversationTranscript} {lo hi : Bound}

theorem Mapped.mem_fresh (hMapped : Mapped log s) (hLog : LogOrdered log) (hGiven : Given log s.entries lo hi added)
    (entry : EntryRecord) : entry ∈ s.fresh added ↔ entry ∈ added ∧ entry ∉ s.entries := by
  rw [ConversationTranscript.fresh, mem_filter, decide_eq_true_eq, hMapped.ids]
  refine and_congr_right fun hAdded => not_congr ⟨fun ⟨held, hHeld, hId⟩ => ?_, fun hHeld => ⟨entry, hHeld, rfl⟩⟩
  obtain rfl := hLog.eq_of_id (hMapped.known held hHeld) ((hGiven.mem entry).mp hAdded).1 hId
  exact hHeld

theorem Mapped.mem_taken (hMapped : Mapped log s) (hLog : LogOrdered log) (hGiven : Given log s.entries lo hi added)
    (entry : EntryRecord) : entry ∈ s.taken added ↔ entry ∈ s.entries ∨ entry ∈ added := by
  rw [mem_union, hMapped.mem_fresh hLog hGiven]
  by_cases hHeld : entry ∈ s.entries
  · simp [hHeld]
  · simp [hHeld]

theorem past_of_appends {held fresh : List EntryRecord} (hHeld : held.Pairwise fun first second => first.id < second.id)
    (hFresh : fresh.Pairwise fun first second => first.id < second.id) (hAppends : ConversationTranscript.appends held fresh = true) :
    ∀ entry ∈ held, ∀ new ∈ fresh, entry.id < new.id := by
  intro entry hEntry new hNew
  obtain ⟨first, hFirst⟩ : ∃ first, fresh.head? = some first := by
    cases fresh with
    | nil => simp at hNew
    | cons first rest => exact ⟨first, rfl⟩
  obtain ⟨last, hLast⟩ : ∃ last, held.getLast? = some last := by
    cases hGet : held.getLast? with
    | none =>
      rw [getLast?_eq_none_iff.mp hGet] at hEntry
      simp at hEntry
    | some last => exact ⟨last, rfl⟩
  rw [ConversationTranscript.appends, hFirst, hLast] at hAppends
  have hLess : last.id < first.id := by simpa using hAppends
  have hUpTo : entry.id ≤ last.id := by
    obtain ⟨before, rfl⟩ := getLast?_eq_some_iff.mp hLast
    rcases mem_append.mp hEntry with hEntry | hEntry
    · exact ((pairwise_append.mp hHeld).2.2 entry hEntry last mem_cons_self).le
    · rw [mem_singleton.mp hEntry]
  have hFrom : first.id ≤ new.id := Bound.of_le_of.mp ((head_le hFresh hFirst).2 new hNew)
  omega

theorem Mapped.sorted_taken (hMapped : Mapped log s) (hLog : LogOrdered log) (hGiven : Given log s.entries lo hi added) :
    (s.taken added).Pairwise fun first second => first.id < second.id := by
  have hFresh : (s.fresh added).Pairwise fun first second => first.id < second.id := hGiven.sorted.filter _
  rw [ConversationTranscript.taken]
  split_ifs with hNone hAppends
  · exact hMapped.sorted
  · exact pairwise_append.mpr ⟨hMapped.sorted, hFresh, past_of_appends hMapped.sorted hFresh hAppends⟩
  · refine SortedBy.merge hMapped.sorted hFresh fun entry hEntry new hNew hId => ?_
    obtain ⟨hAdded, hNew⟩ := (hMapped.mem_fresh hLog hGiven new).mp hNew
    obtain rfl := hLog.eq_of_id (hMapped.known entry hEntry) ((hGiven.mem new).mp hAdded).1 hId
    exact hNew hEntry

theorem relate_frame (s : ConversationTranscript) (held : List EntryRecord) (lo hi : Bound) (added : List EntryRecord) :
    (s.relate held lo hi added).1.entries = s.entries ∧ (s.relate held lo hi added).1.ids = s.ids ∧
      (s.relate held lo hi added).1.items = s.items := by
  rw [ConversationTranscript.relate]
  split_ifs <;> exact ⟨rfl, rfl, rfl⟩

theorem relate_started (s : ConversationTranscript) (held : List EntryRecord) (lo hi : Bound) (added : List EntryRecord) :
    (s.relate held lo hi added).1.started = true := by
  rw [ConversationTranscript.relate]
  split_ifs with hFirst
  · rfl
  all_goals
    push Not at hFirst
    simpa using hFirst.1

section Branches

variable (t : ConversationTranscript) (held : List EntryRecord)

theorem relate_first (hFirst : t.started = false ∨ (held = [] ∧ t.gaps = [] ∧ t.tail ≤ lo)) :
    t.relate held lo hi added =
      ({ t with started := true, low := lo, tail := max t.tail hi }, !t.started || decide (lo ≠ t.low)) :=
  if_pos hFirst

section

variable (hFirst : ¬(t.started = false ∨ (held = [] ∧ t.gaps = [] ∧ t.tail ≤ lo)))

include hFirst

theorem relate_past (hPast : t.tail < lo) :
    t.relate held lo hi added =
      ({ t with gaps := t.gaps ++ [{ after := t.tail, upTo := (added.head?.map num).getD lo.succ }], tail := hi }, true) := by
  rw [ConversationTranscript.relate, if_neg hFirst, if_pos hPast]

theorem relate_below (hPast : ¬t.tail < lo) (hBelow : hi ≠ ⊥ ∧ hi < t.low) :
    t.relate held lo hi added =
      ({ t with gaps := { after := hi, upTo := ((held.find? fun entry => decide (hi < num entry)).map num).getD t.low.succ } :: t.gaps,
                low := lo }, true) := by
  rw [ConversationTranscript.relate, if_neg hFirst, if_neg hPast, if_pos hBelow]

theorem relate_overlap (hPast : ¬t.tail < lo) (hBelow : ¬(hi ≠ ⊥ ∧ hi < t.low)) :
    t.relate held lo hi added =
      ({ t with gaps := (t.subtract lo hi).getD t.gaps, low := if lo < t.low then lo else t.low,
                tail := if t.tail < hi then hi else t.tail },
        (t.subtract lo hi).isSome || decide (lo < t.low)) := by
  rw [ConversationTranscript.relate, if_neg hFirst, if_neg hPast, if_neg hBelow]

end

end Branches

variable {next : ConversationTranscript}

/-- Every branch leaves out nothing. -/
theorem Mapped.relate_ranges (hMapped : Mapped log s) (hLog : LogOrdered log) (hGiven : Given log s.entries lo hi added)
    (hFits : Fits log s lo hi) {rebuild : Bool} (hNext : (s.grown added).relate s.entries lo hi added = (next, rebuild)) :
    Ranges log (s.taken added) next.low next.tail next.gaps := by
  have hTaken := hMapped.mem_taken hLog hGiven
  have hSorted := hMapped.sorted_taken hLog hGiven
  have hRanges := hMapped.ranges
  by_cases hFirst : s.started = false ∨ (s.entries = [] ∧ s.gaps = [] ∧ s.tail ≤ lo)
  · have hEmpty : s.entries = [] ∧ s.gaps = [] ∧ s.tail ≤ hi := by
      rcases hFirst with hIdle | ⟨hHeld, hGaps, hTail⟩
      · obtain ⟨hHeld, hGaps, hTail⟩ := hMapped.idle hIdle
        exact ⟨hHeld, hGaps, by simp [hTail]⟩
      · exact ⟨hHeld, hGaps, hTail.trans hGiven.le⟩
    obtain ⟨hHeld, hGaps, hTail⟩ := hEmpty
    rw [relate_first (s.grown added) s.entries hFirst, Prod.mk.injEq] at hNext
    rw [← hNext.1]
    show Ranges log (s.taken added) lo (max s.tail hi) s.gaps
    rw [max_eq_right hTail, hGaps]
    rw [hHeld] at hGiven
    exact Ranges.first hGiven (by simpa [hHeld] using hTaken)
  · by_cases hPast : s.tail < lo
    · have hTail : s.tail ≠ ⊥ := fun hStart => by
        have hKnown := Ranges.eq_nil_of_tail (hStart ▸ hRanges)
        exact hFirst (Or.inr ⟨hKnown.1, hKnown.2, hPast.le⟩)
      rw [relate_past (s.grown added) s.entries hFirst hPast, Prod.mk.injEq] at hNext
      rw [← hNext.1]
      exact hRanges.past hGiven hTaken hPast hTail
    · by_cases hBelow : hi ≠ ⊥ ∧ hi < s.low
      · rw [relate_below (s.grown added) s.entries hFirst hPast hBelow, Prod.mk.injEq] at hNext
        rw [← hNext.1]
        exact hRanges.below hGiven hTaken hBelow.1 hBelow.2 (hFits.below hBelow.1 hBelow.2) hMapped.sorted
      · have hReach : hi = ⊥ ∨ s.low ≤ hi := by
          by_cases hStart : hi = ⊥
          · exact Or.inl hStart
          · exact Or.inr (not_lt.mp fun h => hBelow ⟨hStart, h⟩)
        have hOver := hRanges.overlap hGiven hTaken hSorted (not_lt.mp hPast) hReach hFits.start
          (s := s.grown added) rfl rfl
        rw [relate_overlap (s.grown added) s.entries hFirst hPast hBelow, Prod.mk.injEq] at hNext
        rw [← hNext.1]
        rw [min_comm, min_def_lt, max_def_lt] at hOver
        exact hOver

theorem Mapped.subtract_ne_none (_ : Mapped log s) {gap : Gap} (hGap : gap ∈ s.gaps) {entry : EntryRecord}
    (hAfter : gap.after < num entry) (hUntil : num entry < gap.upTo) (hLess : lo < num entry) (hLe : num entry ≤ hi) :
    (s.grown added).subtract lo hi ≠ none := by
  intro hNone
  rw [ConversationTranscript.subtract, ite_eq_left_iff] at hNone
  by_cases hSame : hi ≤ lo ∨ ∀ gap ∈ (s.grown added).gaps, (s.grown added).subtractGap lo hi gap = none
  · have hGone := hSame.resolve_left (not_le_of_gt (hLess.trans_le hLe)) gap hGap
    rw [ConversationTranscript.subtractGap] at hGone
    split_ifs at hGone with hApart
    rcases hApart with hBefore | hPast
    · exact absurd (hAfter.trans_le (hLe.trans hBefore)) (lt_irrefl _)
    · by_cases hStart : lo = ⊥
      · rw [hStart, Bound.succ_bot] at hPast
        exact absurd (hUntil.trans_le hPast) not_lt_bot
      · exact absurd ((Bound.lt_succ hStart).mp (hUntil.trans_le hPast)) (not_le_of_gt hLess)
  · exact absurd (hNone hSame) (by simp)

/-- Where the items are not built again, the bounds and gaps below stay, and what is new
is past every gap. -/
theorem Mapped.relate_kept (hMapped : Mapped log s) (hLog : LogOrdered log) (hGiven : Given log s.entries lo hi added)
    (hNext : (s.grown added).relate s.entries lo hi added = (next, false)) :
    next.low = s.low ∧ next.gaps = s.gaps ∧ ∀ gap ∈ s.gaps, ∀ entry ∈ s.fresh added, gap.after < num entry := by
  by_cases hFirst : s.started = false ∨ (s.entries = [] ∧ s.gaps = [] ∧ s.tail ≤ lo)
  · rw [relate_first (s.grown added) s.entries hFirst, Prod.mk.injEq] at hNext
    obtain ⟨rfl, hKept⟩ := hNext
    rw [Bool.or_eq_false_iff, decide_eq_false_iff_not, not_not, Bool.not_eq_false'] at hKept
    have hKept : s.started = true ∧ lo = s.low := hKept
    have hGaps : s.gaps = [] := by
      rcases hFirst with hIdle | hEmpty
      · rw [hKept.1] at hIdle
        simp at hIdle
      · exact hEmpty.2.1
    exact ⟨hKept.2, rfl, by simp [hGaps]⟩
  · by_cases hPast : s.tail < lo
    · rw [relate_past (s.grown added) s.entries hFirst hPast] at hNext
      simp at hNext
    · by_cases hBelow : hi ≠ ⊥ ∧ hi < s.low
      · rw [relate_below (s.grown added) s.entries hFirst hPast hBelow] at hNext
        simp at hNext
      · rw [relate_overlap (s.grown added) s.entries hFirst hPast hBelow, Prod.mk.injEq] at hNext
        obtain ⟨rfl, hKept⟩ := hNext
        rw [Bool.or_eq_false_iff, Option.isSome_eq_false_iff, Option.isNone_iff_eq_none, decide_eq_false_iff_not] at hKept
        obtain ⟨hNone, hLow⟩ := hKept
        refine ⟨if_neg hLow, by rw [hNone]; rfl, fun gap hGap entry hEntry => ?_⟩
        obtain ⟨hAdded, hNew⟩ := (hMapped.mem_fresh hLog hGiven entry).mp hEntry
        obtain ⟨hIn, hLess, hLe⟩ := (hGiven.mem entry).mp hAdded
        have hOver : s.low < num entry := (not_lt.mp hLow).trans_lt hLess
        -- an entry up to the tail is in a gap, which the range would have changed
        have hNewest : s.tail < num entry := by
          by_contra hOld
          obtain ⟨filled, hFilled, hAfter, hUntil⟩ :=
            (hMapped.ranges.covered entry hIn hOver (not_lt.mp hOld)).resolve_left hNew
          exact absurd hNone (hMapped.subtract_ne_none hFilled hAfter hUntil hLess hLe)
        obtain ⟨-, -, hWide, hEnd⟩ := hMapped.ranges.proper gap hGap
        exact (Bound.succ_le_succ.mp (hWide.le.trans hEnd)).trans_lt hNewest

theorem cover_eq (s : ConversationTranscript) (lo hi : Bound) (added : List EntryRecord) {rebuild : Bool}
    (hNext : (s.grown added).relate s.entries lo hi added = (next, rebuild)) :
    s.cover lo hi added =
      { next with
        items :=
          if rebuild ∨ ConversationTranscript.appends s.entries (s.fresh added) = false then
            build next.low next.gaps next.entries
          else if s.fresh added = [] then next.items
          else next.items ++ (s.fresh added).map .entry } := by
  have hCover : s.cover lo hi added =
      { ((s.grown added).relate s.entries lo hi added).1 with
        items :=
          if ((s.grown added).relate s.entries lo hi added).2 ∨
              ConversationTranscript.appends s.entries (s.fresh added) = false then
            build ((s.grown added).relate s.entries lo hi added).1.low ((s.grown added).relate s.entries lo hi added).1.gaps
              ((s.grown added).relate s.entries lo hi added).1.entries
          else if s.fresh added = [] then ((s.grown added).relate s.entries lo hi added).1.items
          else ((s.grown added).relate s.entries lo hi added).1.items ++ (s.fresh added).map .entry } := rfl
  rw [hCover, hNext]

theorem cover_loads (s : ConversationTranscript) (lo hi : Bound) (added : List EntryRecord) :
    (s.cover lo hi added).earlier = s.earlier ∧ (s.cover lo hi added).filling = s.filling := by
  obtain ⟨⟨next, rebuild⟩, hNext⟩ : ∃ result, (s.grown added).relate s.entries lo hi added = result := ⟨_, rfl⟩
  have hLoads : next.earlier = s.earlier ∧ next.filling = s.filling := by
    rw [ConversationTranscript.relate] at hNext
    split_ifs at hNext <;> (obtain rfl := (Prod.mk.inj hNext).1; exact ⟨rfl, rfl⟩)
  rw [cover_eq s lo hi added hNext]
  exact hLoads

theorem mem_cover (s : ConversationTranscript) (lo hi : Bound) (added : List EntryRecord) {entry : EntryRecord}
    (hHeld : entry ∈ s.entries) : entry ∈ (s.cover lo hi added).entries := by
  obtain ⟨⟨next, rebuild⟩, hNext⟩ : ∃ result, (s.grown added).relate s.entries lo hi added = result := ⟨_, rfl⟩
  have hEntries := (relate_frame (s.grown added) s.entries lo hi added).1
  rw [hNext] at hEntries
  rw [cover_eq s lo hi added hNext]
  show entry ∈ next.entries
  have hEntries : next.entries = s.taken added := hEntries
  rw [hEntries, mem_union]
  exact Or.inl hHeld

theorem tail_le_cover (s : ConversationTranscript) (hLe : lo ≤ hi) (added : List EntryRecord) :
    s.tail ≤ (s.cover lo hi added).tail := by
  obtain ⟨⟨next, rebuild⟩, hNext⟩ : ∃ result, (s.grown added).relate s.entries lo hi added = result := ⟨_, rfl⟩
  rw [cover_eq s lo hi added hNext]
  show s.tail ≤ next.tail
  by_cases hFirst : s.started = false ∨ (s.entries = [] ∧ s.gaps = [] ∧ s.tail ≤ lo)
  · rw [relate_first (s.grown added) s.entries hFirst] at hNext
    obtain rfl := (Prod.mk.inj hNext).1
    exact le_max_left _ _
  · by_cases hPast : s.tail < lo
    · rw [relate_past (s.grown added) s.entries hFirst hPast] at hNext
      obtain rfl := (Prod.mk.inj hNext).1
      exact hPast.le.trans hLe
    · by_cases hBelow : hi ≠ ⊥ ∧ hi < s.low
      · rw [relate_below (s.grown added) s.entries hFirst hPast hBelow] at hNext
        obtain rfl := (Prod.mk.inj hNext).1
        exact le_rfl
      · rw [relate_overlap (s.grown added) s.entries hFirst hPast hBelow] at hNext
        obtain rfl := (Prod.mk.inj hNext).1
        show s.tail ≤ if s.tail < hi then hi else s.tail
        split_ifs with hMore
        · exact hMore.le
        · exact le_rfl

theorem Mapped.cover (hMapped : Mapped log s) (hLog : LogOrdered log) (hGiven : Given log s.entries lo hi added)
    (hFits : Fits log s lo hi) : Mapped log (s.cover lo hi added) := by
  obtain ⟨⟨next, rebuild⟩, hNext⟩ : ∃ result, (s.grown added).relate s.entries lo hi added = result := ⟨_, rfl⟩
  obtain ⟨hEntries, hIds, hItems⟩ := relate_frame (s.grown added) s.entries lo hi added
  have hStarted := relate_started (s.grown added) s.entries lo hi added
  rw [hNext] at hEntries hIds hItems hStarted
  have hEntries : next.entries = s.taken added := hEntries
  have hTaken := hMapped.mem_taken hLog hGiven
  rw [cover_eq s lo hi added hNext]
  exact {
    ids := by
      intro id
      show id ∈ next.ids ↔ ∃ entry ∈ next.entries, entry.id = id
      rw [hIds, hEntries]
      show id ∈ s.ids ++ (s.fresh added).map EntryRecord.id ↔ _
      simp only [mem_append, mem_map, hMapped.ids, mem_union, or_and_right, exists_or]
    known := by
      intro entry hEntry
      have hIn : entry ∈ s.taken added := hEntries ▸ hEntry
      rcases (hTaken entry).mp hIn with hHeld | hAdded
      · exact hMapped.known entry hHeld
      · exact ((hGiven.mem entry).mp hAdded).1
    sorted := by
      show next.entries.Pairwise _
      rw [hEntries]
      exact hMapped.sorted_taken hLog hGiven
    ranges := by
      show Ranges log next.entries next.low next.tail next.gaps
      rw [hEntries]
      exact hMapped.relate_ranges hLog hGiven hFits hNext
    idle := fun hIdle => absurd (hStarted.symm.trans hIdle) (by simp)
    items := by
      show (if _ then _ else _) = build next.low next.gaps next.entries
      split_ifs with hBuild hNone
      · rfl
      all_goals
        push Not at hBuild
        obtain ⟨hKept, hAppends⟩ := hBuild
        have hAppends : ConversationTranscript.appends s.entries (s.fresh added) = true := by simpa using hAppends
        rw [Bool.eq_false_of_not_eq_true hKept] at hNext
        obtain ⟨hLow, hGaps, hPast⟩ := hMapped.relate_kept hLog hGiven hNext
        rw [hItems, hLow, hGaps, hEntries]
      · -- nothing is new
        show s.items = build s.low s.gaps (s.taken added)
        rw [ConversationTranscript.taken, if_pos hNone]
        exact hMapped.items
      · -- what is new goes last
        show s.items ++ _ = build s.low s.gaps (s.taken added)
        rw [ConversationTranscript.taken, if_neg hNone, if_pos hAppends, build_append _ _ _ _ hPast, hMapped.items] }

end Cover

end OctoberHarness.Transcript
