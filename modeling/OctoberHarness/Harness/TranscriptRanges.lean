import OctoberHarness.Harness.Transcript

/-! What a transcript knows: the entries it holds between two bounds, and gaps for the
others. Every branch of a cover keeps it. -/
namespace OctoberHarness.Transcript

open List

open Storage (EntryRecord)

/-- The known range from `low` to `tail`, of which the entries held and the gaps leave
nothing out. -/
structure Ranges (log entries : List EntryRecord) (low tail : Bound) (gaps : List Gap) : Prop where
  held : ∀ entry ∈ entries, low < num entry ∧ num entry ≤ tail
  proper : ∀ gap ∈ gaps, gap.after ≠ ⊥ ∧ low ≤ gap.after ∧ gap.after.succ < gap.upTo ∧ gap.upTo ≤ tail.succ
  clear : ∀ gap ∈ gaps, ∀ entry ∈ entries, num entry ≤ gap.after ∨ gap.upTo ≤ num entry
  ends : ∀ gap ∈ gaps, (∃ entry ∈ entries, gap.upTo = num entry) ∨ ∃ entry ∈ log, gap.upTo = (num entry).succ
  ordered : gaps.Pairwise fun gap next => gap.upTo ≤ next.after.succ
  covered : ∀ entry ∈ log, low < num entry → num entry ≤ tail →
    entry ∈ entries ∨ ∃ gap ∈ gaps, gap.after < num entry ∧ num entry < gap.upTo
  low_le : low ≤ tail
  reached : tail = ⊥ ∨ ∃ entry ∈ log, tail ≤ num entry
  base : entries = [] → low = ⊥ ∨ ∃ entry ∈ log, low = num entry

/-- What a cover is told: exactly the entries in (`lo`, `hi`]. An empty range is right
after an entry, or right before one that is held. -/
structure Given (log held : List EntryRecord) (lo hi : Bound) (added : List EntryRecord) : Prop where
  mem : ∀ entry, entry ∈ added ↔ entry ∈ log ∧ lo < num entry ∧ num entry ≤ hi
  sorted : added.Pairwise fun first second => first.id < second.id
  le : lo ≤ hi
  reached : hi = ⊥ ∨ ∃ entry ∈ log, hi ≤ num entry
  bare : added = [] → lo ≠ ⊥ → (lo = hi ∧ ∃ entry ∈ log, lo = num entry) ∨ ∃ entry ∈ held, num entry = hi.succ

theorem num_ne_bot (entry : EntryRecord) : num entry ≠ ⊥ :=
  Bound.of_ne_bot entry.id

variable {entries : List EntryRecord}

theorem find_first (hSorted : entries.Pairwise fun first second => first.id < second.id)
    {lo : Bound} {first : EntryRecord} (hFind : entries.find? (fun entry => decide (lo < num entry)) = some first) :
    first ∈ entries ∧ lo < num first ∧ ∀ entry ∈ entries, lo < num entry → num first ≤ num entry := by
  obtain ⟨hPast, left, right, hEntries, hBefore⟩ := find?_eq_some_iff_append.mp hFind
  refine ⟨by simp [hEntries], by simpa using hPast, fun entry hEntry hLess => ?_⟩
  rw [hEntries, mem_append, mem_cons] at hEntry
  rw [hEntries, pairwise_append, pairwise_cons] at hSorted
  rcases hEntry with hEntry | rfl | hEntry
  · exact absurd hLess (by simpa using hBefore entry hEntry)
  · exact le_rfl
  · exact Bound.of_le_of.mpr (hSorted.2.1.1 entry hEntry).le

theorem head_le (hSorted : entries.Pairwise fun first second => first.id < second.id)
    {first : EntryRecord} (hHead : entries.head? = some first) :
    first ∈ entries ∧ ∀ entry ∈ entries, num first ≤ num entry := by
  obtain ⟨rest, rfl⟩ := head?_eq_some_iff.mp hHead
  refine ⟨mem_cons_self, fun entry hEntry => ?_⟩
  rcases mem_cons.mp hEntry with rfl | hEntry
  · exact le_rfl
  · exact Bound.of_le_of.mpr ((pairwise_cons.mp hSorted).1 entry hEntry).le

section Branches

variable {log held taken added : List EntryRecord} {low tail lo hi : Bound} {gaps : List Gap}

theorem Given.base (hGiven : Given log held lo hi added)
    (hTaken : ∀ entry, entry ∈ taken ↔ entry ∈ held ∨ entry ∈ added) (hEmpty : ∀ entry, entry ∉ taken) :
    lo = ⊥ ∨ ∃ entry ∈ log, lo = num entry := by
  have hNone : added = [] :=
    eq_nil_iff_forall_not_mem.mpr fun entry hEntry => hEmpty entry ((hTaken entry).mpr (Or.inr hEntry))
  by_cases hStart : lo = ⊥
  · exact Or.inl hStart
  · rcases hGiven.bare hNone hStart with ⟨-, hEntry⟩ | ⟨entry, hEntry, -⟩
    · exact Or.inr hEntry
    · exact absurd ((hTaken entry).mpr (Or.inl hEntry)) (hEmpty entry)

theorem Ranges.first (hGiven : Given log [] lo hi added) (hTaken : ∀ entry, entry ∈ taken ↔ entry ∈ added) :
    Ranges log taken lo hi [] where
  held entry hEntry := ((hGiven.mem entry).mp ((hTaken entry).mp hEntry)).2
  proper := by simp
  clear := by simp
  ends := by simp
  ordered := Pairwise.nil
  covered entry hEntry hLow hTail := Or.inl ((hTaken entry).mpr ((hGiven.mem entry).mpr ⟨hEntry, hLow, hTail⟩))
  low_le := hGiven.le
  reached := hGiven.reached
  base hEmpty := hGiven.base (by simpa using hTaken) (eq_nil_iff_forall_not_mem.mp hEmpty)

theorem Ranges.eq_nil_of_tail (hRanges : Ranges log held low ⊥ gaps) : held = [] ∧ gaps = [] := by
  refine ⟨eq_nil_iff_forall_not_mem.mpr fun entry hEntry => ?_, eq_nil_iff_forall_not_mem.mpr fun gap hGap => ?_⟩
  · have hBounds := hRanges.held entry hEntry
    exact absurd (hBounds.1.trans_le hBounds.2) not_lt_bot
  · obtain ⟨-, -, hWide, hEnd⟩ := hRanges.proper gap hGap
    exact absurd (hWide.trans_le hEnd) not_lt_bot

theorem Ranges.ends_taken (hRanges : Ranges log held low tail gaps)
    (hTaken : ∀ entry, entry ∈ taken ↔ entry ∈ held ∨ entry ∈ added) {gap : Gap} (hGap : gap ∈ gaps) :
    (∃ entry ∈ taken, gap.upTo = num entry) ∨ ∃ entry ∈ log, gap.upTo = (num entry).succ := by
  rcases hRanges.ends gap hGap with ⟨entry, hEntry, hNum⟩ | hLog
  · exact Or.inl ⟨entry, (hTaken entry).mpr (Or.inl hEntry), hNum⟩
  · exact Or.inr hLog

theorem Ranges.past (hRanges : Ranges log held low tail gaps) (hGiven : Given log held lo hi added)
    (hTaken : ∀ entry, entry ∈ taken ↔ entry ∈ held ∨ entry ∈ added) (hPast : tail < lo) (hTail : tail ≠ ⊥) :
    Ranges log taken low hi (gaps ++ [{ after := tail, upTo := (added.head?.map num).getD lo.succ }]) := by
  have hLo : lo ≠ ⊥ := ne_bot_of_gt hPast
  have hHi : hi ≠ ⊥ := ne_bot_of_gt (lt_of_lt_of_le hPast hGiven.le)
  -- the gap ends at a bound past `lo` that no added entry precedes
  have hUpTo : ∃ upTo, (added.head?.map num).getD lo.succ = upTo ∧ lo < upTo ∧ upTo ≤ hi.succ ∧
      (∀ entry ∈ added, upTo ≤ num entry) ∧
      ((∃ entry ∈ taken, upTo = num entry) ∨ ∃ entry ∈ log, upTo = (num entry).succ) := by
    cases hHead : added.head? with
    | none =>
      have hNone : added = [] := head?_eq_none_iff.mp hHead
      refine ⟨lo.succ, rfl, (Bound.lt_succ hLo).mpr le_rfl, Bound.succ_le_succ.mpr hGiven.le, by simp [hNone], ?_⟩
      rcases hGiven.bare hNone hLo with ⟨-, entry, hEntry, hNum⟩ | ⟨entry, hEntry, hNum⟩
      · exact Or.inr ⟨entry, hEntry, congrArg Bound.succ hNum⟩
      · -- what is held ends at the tail
        have hLe := (hRanges.held entry hEntry).2
        rw [hNum, Bound.succ_le hHi] at hLe
        exact absurd (hLe.trans hPast) (not_lt_of_ge hGiven.le)
    | some first =>
      obtain ⟨hMem, hFirst⟩ := head_le hGiven.sorted hHead
      obtain ⟨-, hAbove, hBelow⟩ := (hGiven.mem first).mp hMem
      exact ⟨num first, rfl, hAbove, ((Bound.lt_succ hHi).mpr hBelow).le, hFirst,
        Or.inl ⟨first, (hTaken first).mpr (Or.inr hMem), rfl⟩⟩
  obtain ⟨upTo, hEq, hAbove, hBelow, hFirst, hEnd⟩ := hUpTo
  rw [hEq]
  exact {
    held := by
      intro entry hEntry
      rcases (hTaken entry).mp hEntry with hHeld | hAdded
      · have hBounds := hRanges.held entry hHeld
        exact ⟨hBounds.1, hBounds.2.trans (hPast.le.trans hGiven.le)⟩
      · obtain ⟨-, hLess, hLe⟩ := (hGiven.mem entry).mp hAdded
        exact ⟨hRanges.low_le.trans_lt (hPast.trans hLess), hLe⟩
    proper := by
      intro gap hGap
      rcases mem_append.mp hGap with hGap | hGap
      · obtain ⟨hStart, hLow, hWide, hEnd⟩ := hRanges.proper gap hGap
        exact ⟨hStart, hLow, hWide, hEnd.trans (Bound.succ_le_succ.mpr (hPast.le.trans hGiven.le))⟩
      · obtain rfl := mem_singleton.mp hGap
        exact ⟨hTail, hRanges.low_le, ((Bound.succ_le hTail).mpr hPast).trans_lt hAbove, hBelow⟩
    clear := by
      intro gap hGap entry hEntry
      rcases mem_append.mp hGap with hGap | hGap
      · rcases (hTaken entry).mp hEntry with hHeld | hAdded
        · exact hRanges.clear gap hGap entry hHeld
        · have hEnd := (hRanges.proper gap hGap).2.2.2
          exact Or.inr (hEnd.trans ((Bound.succ_le hTail).mpr (hPast.trans ((hGiven.mem entry).mp hAdded).2.1)))
      · obtain rfl := mem_singleton.mp hGap
        rcases (hTaken entry).mp hEntry with hHeld | hAdded
        · exact Or.inl (hRanges.held entry hHeld).2
        · exact Or.inr (hFirst entry hAdded)
    ends := by
      intro gap hGap
      rcases mem_append.mp hGap with hGap | hGap
      · exact hRanges.ends_taken hTaken hGap
      · obtain rfl := mem_singleton.mp hGap
        exact hEnd
    ordered := by
      rw [pairwise_append]
      refine ⟨hRanges.ordered, pairwise_singleton _ _, fun gap hGap next hNext => ?_⟩
      obtain rfl := mem_singleton.mp hNext
      exact (hRanges.proper gap hGap).2.2.2
    covered := by
      intro entry hEntry hLow hHigh
      rcases le_or_gt (num entry) tail with hOld | hNew
      · rcases hRanges.covered entry hEntry hLow hOld with hHeld | ⟨gap, hGap, hIn⟩
        · exact Or.inl ((hTaken entry).mpr (Or.inl hHeld))
        · exact Or.inr ⟨gap, mem_append_left _ hGap, hIn⟩
      · rcases le_or_gt (num entry) lo with hBetween | hAdded
        · exact Or.inr ⟨_, mem_append_right _ mem_cons_self, hNew, hBetween.trans_lt hAbove⟩
        · exact Or.inl ((hTaken entry).mpr (Or.inr ((hGiven.mem entry).mpr ⟨hEntry, hAdded, hHigh⟩)))
    low_le := hRanges.low_le.trans (hPast.le.trans hGiven.le)
    reached := hGiven.reached
    base := by
      intro hEmpty
      refine hRanges.base (eq_nil_iff_forall_not_mem.mpr fun entry hEntry => ?_)
      exact eq_nil_iff_forall_not_mem.mp hEmpty entry ((hTaken entry).mpr (Or.inl hEntry)) }

/-- A range below the first entry held, with a gap after it. No gap precedes that entry. -/
theorem Ranges.below (hRanges : Ranges log held low tail gaps) (hGiven : Given log held lo hi added)
    (hTaken : ∀ entry, entry ∈ taken ↔ entry ∈ held ∨ entry ∈ added) (hHi : hi ≠ ⊥) (hBelow : hi < low)
    (hFits : ∀ first, held.head? = some first → ∀ gap ∈ gaps, num first ≤ gap.after)
    (hSorted : held.Pairwise fun first second => first.id < second.id) :
    Ranges log taken lo tail ({ after := hi, upTo := ((held.find? fun entry => decide (hi < num entry)).map num).getD low.succ } :: gaps) := by
  have hLow : low ≠ ⊥ := ne_bot_of_gt hBelow
  have hTail : tail ≠ ⊥ := ne_bot_of_gt (hBelow.trans_le hRanges.low_le)
  -- the gap ends at the first entry held, or right after `low`
  have hUpTo : ∃ upTo, ((held.find? fun entry => decide (hi < num entry)).map num).getD low.succ = upTo ∧
      low < upTo ∧ upTo ≤ tail.succ ∧ (∀ entry ∈ held, upTo ≤ num entry) ∧
      (∀ gap ∈ gaps, upTo ≤ gap.after.succ) ∧
      ((∃ entry ∈ taken, upTo = num entry) ∨ ∃ entry ∈ log, upTo = (num entry).succ) := by
    cases held with
    | nil =>
      refine ⟨low.succ, rfl, (Bound.lt_succ hLow).mpr le_rfl, Bound.succ_le_succ.mpr hRanges.low_le, by simp,
        fun gap hGap => Bound.succ_le_succ.mpr (hRanges.proper gap hGap).2.1, ?_⟩
      rcases hRanges.base rfl with hStart | ⟨entry, hEntry, hNum⟩
      · exact absurd hStart hLow
      · exact Or.inr ⟨entry, hEntry, congrArg Bound.succ hNum⟩
    | cons first rest =>
      obtain ⟨hAbove, hReach⟩ := hRanges.held first mem_cons_self
      have hFind : ((first :: rest).find? fun entry => decide (hi < num entry)) = some first := by
        rw [find?_cons_of_pos (by simpa using hBelow.trans hAbove)]
      rw [hFind]
      refine ⟨num first, rfl, hAbove, hReach.trans ((Bound.lt_succ hTail).mpr le_rfl).le,
        (head_le hSorted rfl).2, fun gap hGap => ?_,
        Or.inl ⟨first, (hTaken first).mpr (Or.inl mem_cons_self), rfl⟩⟩
      have hAfter := hFits first rfl gap hGap
      exact hAfter.trans ((Bound.lt_succ (hRanges.proper gap hGap).1).mpr le_rfl).le
  obtain ⟨upTo, hEq, hAbove, hReach, hFirst, hNext, hEnd⟩ := hUpTo
  rw [hEq]
  exact {
    held := by
      intro entry hEntry
      rcases (hTaken entry).mp hEntry with hHeld | hAdded
      · have hBounds := hRanges.held entry hHeld
        exact ⟨hGiven.le.trans_lt (hBelow.trans hBounds.1), hBounds.2⟩
      · obtain ⟨-, hLess, hLe⟩ := (hGiven.mem entry).mp hAdded
        exact ⟨hLess, hLe.trans (hBelow.le.trans hRanges.low_le)⟩
    proper := by
      intro gap hGap
      rcases mem_cons.mp hGap with rfl | hGap
      · exact ⟨hHi, hGiven.le, ((Bound.succ_le hHi).mpr hBelow).trans_lt hAbove, hReach⟩
      · obtain ⟨hStart, hFrom, hWide, hUntil⟩ := hRanges.proper gap hGap
        exact ⟨hStart, hGiven.le.trans (hBelow.le.trans hFrom), hWide, hUntil⟩
    clear := by
      intro gap hGap entry hEntry
      rcases mem_cons.mp hGap with rfl | hGap
      · rcases (hTaken entry).mp hEntry with hHeld | hAdded
        · exact Or.inr (hFirst entry hHeld)
        · exact Or.inl ((hGiven.mem entry).mp hAdded).2.2
      · rcases (hTaken entry).mp hEntry with hHeld | hAdded
        · exact hRanges.clear gap hGap entry hHeld
        · have hFrom := (hRanges.proper gap hGap).2.1
          exact Or.inl (((hGiven.mem entry).mp hAdded).2.2.trans (hBelow.le.trans hFrom))
    ends := by
      intro gap hGap
      rcases mem_cons.mp hGap with rfl | hGap
      · exact hEnd
      · exact hRanges.ends_taken hTaken hGap
    ordered := pairwise_cons.mpr ⟨hNext, hRanges.ordered⟩
    covered := by
      intro entry hEntry hFrom hUntil
      rcases le_or_gt (num entry) hi with hAdded | hOver
      · exact Or.inl ((hTaken entry).mpr (Or.inr ((hGiven.mem entry).mpr ⟨hEntry, hFrom, hAdded⟩)))
      · rcases le_or_gt (num entry) low with hBetween | hOld
        · exact Or.inr ⟨_, mem_cons_self, hOver, hBetween.trans_lt hAbove⟩
        · rcases hRanges.covered entry hEntry hOld hUntil with hHeld | ⟨gap, hGap, hIn⟩
          · exact Or.inl ((hTaken entry).mpr (Or.inl hHeld))
          · exact Or.inr ⟨gap, mem_cons_of_mem _ hGap, hIn⟩
    low_le := hGiven.le.trans (hBelow.le.trans hRanges.low_le)
    reached := hRanges.reached
    base := by
      intro hEmpty
      exact hGiven.base hTaken (eq_nil_iff_forall_not_mem.mp hEmpty) }

structure Left (log taken added : List EntryRecord) (gap : Gap) (pieces : List Gap) : Prop where
  within : ∀ piece ∈ pieces, gap.after ≤ piece.after ∧ piece.after.succ < piece.upTo ∧ piece.upTo ≤ gap.upTo
  clear : ∀ piece ∈ pieces, ∀ entry ∈ taken, num entry ≤ piece.after ∨ piece.upTo ≤ num entry
  ends : ∀ piece ∈ pieces, (∃ entry ∈ taken, piece.upTo = num entry) ∨ ∃ entry ∈ log, piece.upTo = (num entry).succ
  ordered : pieces.Pairwise fun piece next => piece.upTo ≤ next.after.succ
  covered : ∀ entry ∈ log, gap.after < num entry → num entry < gap.upTo →
    entry ∈ added ∨ ∃ piece ∈ pieces, piece.after < num entry ∧ num entry < piece.upTo

theorem Ranges.keeps (hRanges : Ranges log held low tail gaps)
    (hTaken : ∀ entry, entry ∈ taken ↔ entry ∈ held ∨ entry ∈ added) {gap : Gap} (hGap : gap ∈ gaps)
    (hApart : ∀ entry ∈ added, num entry ≤ gap.after ∨ gap.upTo ≤ num entry) : Left log taken added gap [gap] where
  within := by simpa using (hRanges.proper gap hGap).2.2.1
  clear := by
    intro piece hPiece entry hEntry
    obtain rfl := mem_singleton.mp hPiece
    rcases (hTaken entry).mp hEntry with hHeld | hAdded
    · exact hRanges.clear piece hGap entry hHeld
    · exact hApart entry hAdded
  ends := by
    intro piece hPiece
    obtain rfl := mem_singleton.mp hPiece
    exact hRanges.ends_taken hTaken hGap
  ordered := pairwise_singleton _ _
  covered := fun entry _ hLess hUntil => Or.inr ⟨gap, mem_cons_self, hLess, hUntil⟩

section

variable (hRanges : Ranges log held low tail gaps) (hGiven : Given log held lo hi added)
    (hTaken : ∀ entry, entry ∈ taken ↔ entry ∈ held ∨ entry ∈ added)
    (hSorted : taken.Pairwise fun first second => first.id < second.id)

include hRanges hGiven hTaken hSorted

/-- Where the part of a gap before a range ends. -/
theorem Ranges.firstKnown (hWide : lo < hi) (hStart : lo ≠ ⊥) {gap : Gap} (hGap : gap ∈ gaps) :
    ∃ upTo, min gap.upTo (((taken.find? fun entry => decide (lo < num entry)).map num).getD lo.succ) = upTo ∧
      upTo ≤ gap.upTo ∧ upTo ≤ hi.succ ∧ (lo < gap.upTo → lo < upTo) ∧
      (∀ entry ∈ taken, lo < num entry → upTo ≤ num entry) ∧
      ((∃ entry ∈ taken, upTo = num entry) ∨ ∃ entry ∈ log, upTo = (num entry).succ) := by
  have hHi : hi ≠ ⊥ := ne_bot_of_gt hWide
  have hSome : ∃ entry ∈ taken, lo < num entry ∧ num entry ≤ hi.succ := by
    cases hAdded : added with
    | nil =>
      rcases hGiven.bare hAdded hStart with ⟨hEq, -⟩ | ⟨entry, hEntry, hNum⟩
      · exact absurd hEq hWide.ne
      · refine ⟨entry, (hTaken entry).mpr (Or.inl hEntry), ?_, hNum.le⟩
        rw [hNum, Bound.lt_succ hHi]
        exact hWide.le
    | cons entry rest =>
      have hEntry : entry ∈ added := by rw [hAdded]; exact mem_cons_self
      obtain ⟨-, hLess, hLe⟩ := (hGiven.mem entry).mp hEntry
      exact ⟨entry, (hTaken entry).mpr (Or.inr hEntry), hLess, ((Bound.lt_succ hHi).mpr hLe).le⟩
  cases hFind : taken.find? fun entry => decide (lo < num entry) with
  | none =>
    obtain ⟨entry, hEntry, hLess, -⟩ := hSome
    exact absurd hLess (by simpa using find?_eq_none.mp hFind entry hEntry)
  | some first =>
    obtain ⟨hMem, hLess, hFirst⟩ := find_first hSorted hFind
    obtain ⟨entry, hEntry, hAbove, hReach⟩ := hSome
    refine ⟨min gap.upTo (num first), rfl, min_le_left _ _,
      (min_le_right _ _).trans ((hFirst entry hEntry hAbove).trans hReach), fun hEnd => lt_min hEnd hLess,
      fun other hOther hPast => (min_le_right _ _).trans (hFirst other hOther hPast), ?_⟩
    rcases min_choice gap.upTo (num first) with hMin | hMin
    · rw [hMin]
      exact hRanges.ends_taken hTaken hGap
    · exact Or.inl ⟨first, hMem, hMin⟩

variable {s : ConversationTranscript}

theorem Ranges.left (hWide : lo < hi) (hEntries : s.entries = taken) {gap : Gap} (hGap : gap ∈ gaps) :
    Left log taken added gap ((s.subtractGap lo hi gap).getD [gap]) := by
  obtain ⟨hAfter, -, hSize, -⟩ := hRanges.proper gap hGap
  have hHi : hi ≠ ⊥ := ne_bot_of_gt hWide
  rw [ConversationTranscript.subtractGap, hEntries]
  by_cases hApart : hi ≤ gap.after ∨ gap.upTo ≤ lo.succ
  · rw [if_pos hApart, Option.getD_none]
    refine hRanges.keeps hTaken hGap fun entry hAdded => ?_
    obtain ⟨-, hLess, hLe⟩ := (hGiven.mem entry).mp hAdded
    rcases hApart with hBefore | hPast
    · exact Or.inl (hLe.trans hBefore)
    · have hStart : lo ≠ ⊥ := by
        rintro rfl
        exact absurd (hSize.trans_le hPast) not_lt_bot
      exact Or.inr (hPast.trans ((Bound.succ_le hStart).mpr hLess))
  · rw [if_neg hApart, Option.getD_some]
    push Not at hApart
    obtain ⟨hOver, hUnder⟩ := hApart
    have hRight : ∀ entry ∈ taken, hi < num entry → gap.upTo ≤ num entry := by
      intro entry hEntry hLess
      rcases (hTaken entry).mp hEntry with hHeld | hAdded
      · exact (hRanges.clear gap hGap entry hHeld).resolve_left (not_le_of_gt (hOver.trans hLess))
      · exact absurd ((hGiven.mem entry).mp hAdded).2.2 (not_le_of_gt hLess)
    -- the part before the range, where the gap begins before it
    have hLefts : ∃ lefts : List Gap, (if gap.after < lo then [⟨gap.after, min gap.upTo
        (((taken.find? fun entry => decide (lo < num entry)).map num).getD lo.succ)⟩] else []) = lefts ∧
        (∀ piece ∈ lefts, piece.after = gap.after ∧ lo < piece.upTo ∧ gap.after < lo ∧ piece.upTo ≤ gap.upTo ∧
          piece.upTo ≤ hi.succ ∧ (∀ entry ∈ taken, lo < num entry → piece.upTo ≤ num entry) ∧
          ((∃ entry ∈ taken, piece.upTo = num entry) ∨ ∃ entry ∈ log, piece.upTo = (num entry).succ)) ∧
        lefts.length ≤ 1 ∧ (gap.after < lo → lefts ≠ []) := by
      by_cases hBefore : gap.after < lo
      · have hStart : lo ≠ ⊥ := ne_bot_of_gt hBefore
        obtain ⟨upTo, hEq, hUntil, hNext, hAbove, hFirst, hEnd⟩ :=
          hRanges.firstKnown hGiven hTaken hSorted hWide hStart hGap
        rw [if_pos hBefore, hEq]
        refine ⟨_, rfl, fun piece hPiece => ?_, le_rfl, fun _ => cons_ne_nil _ _⟩
        obtain rfl := mem_singleton.mp hPiece
        exact ⟨rfl, hAbove (((Bound.lt_succ hStart).mpr le_rfl).trans hUnder), hBefore, hUntil, hNext, hFirst, hEnd⟩
      · rw [if_neg hBefore]
        exact ⟨[], rfl, by simp, by simp, fun h => absurd h hBefore⟩
    obtain ⟨lefts, hEq, hLeft, hOne, hSome⟩ := hLefts
    rw [hEq]
    have hMem : ∀ piece ∈ lefts ++ (if hi.succ < gap.upTo then [{ after := hi, upTo := gap.upTo }] else []),
        piece ∈ lefts ∨ piece = { after := hi, upTo := gap.upTo } ∧ hi.succ < gap.upTo := by
      intro piece hPiece
      rcases mem_append.mp hPiece with hPiece | hPiece
      · exact Or.inl hPiece
      · split_ifs at hPiece with hRest
        · exact Or.inr ⟨mem_singleton.mp hPiece, hRest⟩
        · simp at hPiece
    exact {
      within := by
        intro piece hPiece
        rcases hMem piece hPiece with hPiece | ⟨rfl, hRest⟩
        · obtain ⟨hFrom, hPast, hBefore, hUntil, -⟩ := hLeft piece hPiece
          rw [hFrom]
          exact ⟨le_rfl, ((Bound.succ_le hAfter).mpr hBefore).trans_lt hPast, hUntil⟩
        · exact ⟨hOver.le, hRest, le_rfl⟩
      clear := by
        intro piece hPiece entry hEntry
        rcases hMem piece hPiece with hPiece | ⟨rfl, -⟩
        · obtain ⟨hFrom, -, hBefore, hUntil, -, hFirst, -⟩ := hLeft piece hPiece
          rcases le_or_gt (num entry) lo with hLe | hLess
          · -- an entry up to `lo` was held before
            have hHeld : entry ∈ held :=
              ((hTaken entry).mp hEntry).resolve_right fun hAdded =>
                absurd ((hGiven.mem entry).mp hAdded).2.1 (not_lt_of_ge hLe)
            rw [hFrom]
            exact (hRanges.clear gap hGap entry hHeld).imp id hUntil.trans
          · exact Or.inr (hFirst entry hEntry hLess)
        · exact (le_or_gt (num entry) hi).imp id (hRight entry hEntry)
      ends := by
        intro piece hPiece
        rcases hMem piece hPiece with hPiece | ⟨rfl, -⟩
        · exact (hLeft piece hPiece).2.2.2.2.2.2
        · have hEnds := hRanges.ends_taken hTaken hGap
          exact hEnds
      ordered := by
        rw [pairwise_append]
        refine ⟨?_, by split_ifs <;> simp, fun piece hPiece next hNext => ?_⟩
        · match lefts, hOne with
          | [], _ => exact Pairwise.nil
          | [piece], _ => exact pairwise_singleton _ _
        · split_ifs at hNext with hRest
          · obtain rfl := mem_singleton.mp hNext
            exact (hLeft piece hPiece).2.2.2.2.1
          · simp at hNext
      covered := by
        intro entry hEntry hLess hUntil
        rcases le_or_gt (num entry) lo with hLe | hPast
        · obtain ⟨piece, hPiece⟩ := exists_mem_of_ne_nil _ (hSome (hLess.trans_le hLe))
          obtain ⟨hFrom, hAbove, -⟩ := hLeft piece hPiece
          exact Or.inr ⟨piece, mem_append_left _ hPiece, hFrom ▸ hLess, hLe.trans_lt hAbove⟩
        · rcases le_or_gt (num entry) hi with hLe | hRest
          · exact Or.inl ((hGiven.mem entry).mpr ⟨hEntry, hPast, hLe⟩)
          · have hWidth : hi.succ < gap.upTo := ((Bound.succ_le hHi).mpr hRest).trans_lt hUntil
            rw [if_pos hWidth]
            exact Or.inr ⟨_, mem_append_right _ mem_cons_self, hRest, hUntil⟩ }

/-- The gaps a cover leaves, and a known range that it extends. -/
theorem Ranges.overlap (hLo : lo ≤ tail) (hHi : hi = ⊥ ∨ low ≤ hi) (hFits : hi = ⊥ → ∀ entry ∈ log, low < num entry)
    (hEntries : s.entries = taken) (hGaps : s.gaps = gaps) :
    Ranges log taken (min low lo) (max tail hi) ((s.subtract lo hi).getD gaps) := by
  -- what every gap leaves
  have hLeft : ∃ left : Gap → List Gap, (s.subtract lo hi).getD gaps = gaps.flatMap left ∧
      ∀ gap ∈ gaps, Left log taken added gap (left gap) := by
    by_cases hWide : lo < hi
    · refine ⟨fun gap => (s.subtractGap lo hi gap).getD [gap], ?_, fun gap hGap =>
        hRanges.left hGiven hTaken hSorted hWide hEntries hGap⟩
      rw [ConversationTranscript.subtract, hGaps]
      split_ifs with hNone
      · have hSame := hNone.resolve_left (not_le_of_gt hWide)
        rw [Option.getD_none]
        conv_lhs => rw [← flatMap_singleton' gaps]
        exact flatMap_congr fun gap hGap => by rw [hSame gap hGap, Option.getD_none]
      · rfl
    · have hNone : ∀ entry, entry ∉ added := fun entry hEntry => by
        obtain ⟨-, hLess, hLe⟩ := (hGiven.mem entry).mp hEntry
        exact hWide (hLess.trans_le hLe)
      refine ⟨fun gap => [gap], ?_, fun gap hGap => hRanges.keeps hTaken hGap fun entry hEntry => absurd hEntry (hNone entry)⟩
      rw [ConversationTranscript.subtract, if_pos (Or.inl (not_lt.mp hWide)), Option.getD_none, flatMap_singleton']
  obtain ⟨left, hEq, hLeft⟩ := hLeft
  rw [hEq]
  exact {
    held := by
      intro entry hEntry
      rcases (hTaken entry).mp hEntry with hHeld | hAdded
      · have hBounds := hRanges.held entry hHeld
        exact ⟨(min_le_left _ _).trans_lt hBounds.1, hBounds.2.trans (le_max_left _ _)⟩
      · obtain ⟨-, hLess, hLe⟩ := (hGiven.mem entry).mp hAdded
        exact ⟨(min_le_right _ _).trans_lt hLess, hLe.trans (le_max_right _ _)⟩
    proper := by
      intro piece hPiece
      obtain ⟨gap, hGap, hPiece⟩ := mem_flatMap.mp hPiece
      obtain ⟨hAfter, hFrom, -, hUntil⟩ := hRanges.proper gap hGap
      obtain ⟨hBegin, hSize, hEnd⟩ := (hLeft gap hGap).within piece hPiece
      refine ⟨ne_bot_of_le_ne_bot hAfter hBegin, (min_le_left _ _).trans (hFrom.trans hBegin), hSize, ?_⟩
      exact hEnd.trans (hUntil.trans (Bound.succ_le_succ.mpr (le_max_left _ _)))
    clear := by
      intro piece hPiece
      obtain ⟨gap, hGap, hPiece⟩ := mem_flatMap.mp hPiece
      exact (hLeft gap hGap).clear piece hPiece
    ends := by
      intro piece hPiece
      obtain ⟨gap, hGap, hPiece⟩ := mem_flatMap.mp hPiece
      exact (hLeft gap hGap).ends piece hPiece
    ordered := by
      rw [pairwise_flatMap]
      refine ⟨fun gap hGap => (hLeft gap hGap).ordered, Pairwise.imp_of_mem ?_ hRanges.ordered⟩
      intro gap next hGap hNext hOrder piece hPiece follower hFollower
      have hEnd := ((hLeft gap hGap).within piece hPiece).2.2
      have hBegin := ((hLeft next hNext).within follower hFollower).1
      exact hEnd.trans (hOrder.trans (Bound.succ_le_succ.mpr hBegin))
    covered := by
      intro entry hEntry hFrom hUntil
      have hIn : entry ∈ added → entry ∈ taken := fun hAdded => (hTaken entry).mpr (Or.inr hAdded)
      rcases le_or_gt (num entry) low with hUnder | hAbove
      · -- at or below the old bound: the range reaches it
        have hLess : lo < num entry := (min_lt_iff.mp hFrom).resolve_left (not_lt_of_ge hUnder)
        rcases hHi with hStart | hReach
        · exact absurd (hFits hStart entry hEntry) (not_lt_of_ge hUnder)
        · exact Or.inl (hIn ((hGiven.mem entry).mpr ⟨hEntry, hLess, hUnder.trans hReach⟩))
      · rcases le_or_gt (num entry) tail with hOld | hNew
        · rcases hRanges.covered entry hEntry hAbove hOld with hHeld | ⟨gap, hGap, hLess, hMore⟩
          · exact Or.inl ((hTaken entry).mpr (Or.inl hHeld))
          · rcases (hLeft gap hGap).covered entry hEntry hLess hMore with hAdded | ⟨piece, hPiece, hInside⟩
            · exact Or.inl (hIn hAdded)
            · exact Or.inr ⟨piece, mem_flatMap.mpr ⟨gap, hGap, hPiece⟩, hInside⟩
        · have hLe : num entry ≤ hi := (le_max_iff.mp hUntil).resolve_left (not_le_of_gt hNew)
          exact Or.inl (hIn ((hGiven.mem entry).mpr ⟨hEntry, hLo.trans_lt hNew, hLe⟩))
    low_le := (min_le_left _ _).trans (hRanges.low_le.trans (le_max_left _ _))
    reached := by
      rcases max_choice tail hi with hMax | hMax
      · rw [hMax]
        exact hRanges.reached
      · rw [hMax]
        exact hGiven.reached
    base := by
      intro hEmpty
      rw [eq_nil_iff_forall_not_mem] at hEmpty
      have hNone : held = [] :=
        eq_nil_iff_forall_not_mem.mpr fun entry hEntry => hEmpty entry ((hTaken entry).mpr (Or.inl hEntry))
      rcases min_choice low lo with hMin | hMin
      · rw [hMin]
        exact hRanges.base hNone
      · rw [hMin]
        exact hGiven.base hTaken hEmpty }

end

end Branches

end OctoberHarness.Transcript
