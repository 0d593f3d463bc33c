import OctoberHarness.Session.Writer

/-! The protocol of the writer over every run. Parts settle in line order; a
prefix of them is published, and the settled rest is discarded. -/
namespace OctoberHarness.Session

open List Option OrderedMap

variable {Write Key Seq Err : Type}

/-- What the books say once `closed` parts are settled and `begun` publications
have begun: the two counts are the lengths of the histories. Everything a
publication or a settlement has to touch is in here, and nothing else is. -/
structure Ledger (parts : List (PartSpec Write Key)) (unpublished : Key → Option Nat)
    (newest : Option Nat) (history : History Seq Err) (begun closed : Nat) : Prop where
  published : history.published.map Prod.fst = range begun
  opened : history.opened = range closed
  settled : history.settled.map Prod.fst = range closed
  discarded : history.discarded = range' begun (closed - begun)
  admitted : begun ≤ parts.length ∧ closed ≤ parts.length
  keys : ∀ key part, unpublished key = some part ↔
    (∃ spec, parts[part]? = some spec ∧ key ∈ spec.keys) ∧
    (∀ later spec, part < later → parts[later]? = some spec → key ∉ spec.keys) ∧
    begun ≤ part ∧ closed ≤ part
  newest : newest = if closed < parts.length then some (parts.length - 1) else none
  receipts : ∀ part seq spec, (part, seq) ∈ history.published → parts[part]? = some spec →
    spec.writes.isSome → ∃ received, seq = some received ∧ (part, received) ∈ history.receipts
  resolved : ∀ part, (part, Outcome.resolved) ∈ history.settled → part < begun

variable [DecidableEq Key]

namespace Writer

theorem lookup_dropKeys (part : Nat) (keys : List Key) (unpublished : List (Key × Nat)) (key : Key) :
    (dropKeys part keys unpublished).lookup key =
      if key ∈ keys ∧ unpublished.lookup key = some part then none else unpublished.lookup key := by
  induction keys generalizing unpublished with
  | nil => simp [dropKeys]
  | cons first rest ih =>
    rw [dropKeys, ih]
    by_cases hFirst : unpublished.lookup first = some part
    · rw [if_pos hFirst, lookup_erase]
      by_cases hKey : key = first
      · simp [hKey, hFirst]
      · simp [hKey]
    · rw [if_neg hFirst]
      by_cases hKey : key = first
      · simp [hKey, hFirst]
      · simp [hKey]

theorem lookup_setKeys (part : Nat) (keys : List Key) (unpublished : List (Key × Nat)) (key : Key) :
    (keys.foldl (fun entries key => OrderedMap.set entries key part) unpublished).lookup key =
      if key ∈ keys then some part else unpublished.lookup key := by
  induction keys generalizing unpublished with
  | nil => simp
  | cons first rest ih =>
    rw [foldl_cons, ih, lookup_set]
    by_cases hRest : key ∈ rest
    · simp [hRest]
    · by_cases hKey : key = first <;> simp [hRest, hKey]

def Books (w : Writer Write Key Seq Err) (begun closed : Nat) : Prop :=
  Ledger w.parts w.gate w.newest w.history begun closed

section Books

variable {w : Writer Write Key Seq Err} {begun closed : Nat}

theorem Books.initial : ({} : Writer Write Key Seq Err).Books 0 0 where
  published := rfl
  opened := rfl
  settled := rfl
  discarded := rfl
  admitted := ⟨Nat.le_refl 0, Nat.le_refl 0⟩
  keys := by simp [gate]
  newest := rfl
  receipts := by simp
  resolved := by simp

variable {part : Nat} {receipts : List (Nat × Seq)} {call : Call Seq Err} {loop : Loop Err} {phase : Phase Seq Err}

omit [DecidableEq Key] in
theorem mem_keysOf {key : Key} :
    key ∈ w.keysOf part ↔ ∃ spec, w.parts[part]? = some spec ∧ key ∈ spec.keys := by
  rw [keysOf]
  cases w.parts[part]? <;> simp

theorem gate_unregister (part : Nat) (key : Key) :
    (w.unregister part).gate key =
      if key ∈ w.keysOf part ∧ w.gate key = some part then none else w.gate key :=
  lookup_dropKeys part (w.keysOf part) w.unpublished key

section

variable (h : w.Books begun closed)

include h

theorem Books.keys_unregister (hPart : part = max begun closed) (key : Key) (other : Nat) :
    (w.unregister part).gate key = some other ↔
      (∃ spec, w.parts[other]? = some spec ∧ key ∈ spec.keys) ∧
      (∀ later spec, other < later → w.parts[later]? = some spec → key ∉ spec.keys) ∧
      part < other := by
  rw [gate_unregister]
  split_ifs with hOwn
  · refine ⟨fun hNone => hNone.elim, fun ⟨hWrites, _, hLess⟩ => ?_⟩
    obtain ⟨spec, hSpec, hKey⟩ := hWrites
    exact absurd hKey (((h.keys key part).mp hOwn.2).2.1 other spec hLess hSpec)
  · rw [h.keys key other]
    refine and_congr_right fun hWrites => and_congr_right fun hNewest => ⟨fun hPending => ?_, by omega⟩
    by_contra hSame
    obtain rfl : other = part := by omega
    exact hOwn ⟨mem_keysOf.mpr hWrites, (h.keys key other).mpr ⟨hWrites, hNewest, hPending⟩⟩

theorem Books.newest_openGate (hPart : closed < w.parts.length) :
    (if w.newest = some closed then none else w.newest) =
      if closed + 1 < w.parts.length then some (w.parts.length - 1) else none := by
  rw [h.newest, if_pos hPart]
  by_cases hLast : closed + 1 < w.parts.length
  · rw [if_pos hLast, if_neg]
    simp only [some.injEq]
    omega
  · rw [if_neg hLast, if_pos]
    simp only [some.injEq]
    omega

theorem Books.settle_published (hPart : closed < w.parts.length) (hBegun : closed < begun) (outcome : Outcome Err) :
    ((w.settle closed outcome).openGate closed).Books begun (closed + 1) where
  published := h.published
  opened := by
    change w.history.opened ++ [closed] = _
    rw [h.opened, range_succ]
  settled := by
    change (w.history.settled ++ [(closed, outcome)]).map Prod.fst = _
    rw [map_append, h.settled, range_succ, map_singleton]
  discarded := by
    change w.history.discarded = _
    rw [h.discarded]
    congr 1
    omega
  admitted := ⟨h.admitted.1, hPart⟩
  keys := by
    intro key part
    refine (h.keys key part).trans (and_congr_right fun _ => and_congr_right fun _ => ?_)
    omega
  newest := h.newest_openGate hPart
  receipts := h.receipts
  resolved := by
    intro part hMem
    rcases mem_append.mp hMem with hOld | hNew
    · exact h.resolved part hOld
    · simp only [mem_singleton, Prod.mk.injEq] at hNew
      omega

theorem Books.unpublish (hPart : closed < w.parts.length)
    (hBegun : begun ≤ closed) {outcome : Outcome Err} (hOutcome : outcome ≠ .resolved) :
    (w.unpublish closed outcome).Books begun (closed + 1) where
  published := h.published
  opened := by
    change w.history.opened ++ [closed] = _
    rw [h.opened, range_succ]
  settled := by
    change (w.history.settled ++ [(closed, outcome)]).map Prod.fst = _
    rw [map_append, h.settled, range_succ, map_singleton]
  discarded := by
    change w.history.discarded ++ [closed] = _
    rw [h.discarded, Nat.sub_add_comm hBegun, range'_concat]
    congr 2
    omega
  admitted := ⟨h.admitted.1, hPart⟩
  keys := by
    intro key part
    refine (h.keys_unregister (by omega) key part).trans ?_
    refine and_congr_right fun _ => and_congr_right fun _ => ?_
    omega
  newest := h.newest_openGate hPart
  receipts := h.receipts
  resolved := by
    intro part hMem
    rcases mem_append.mp hMem with hOld | hNew
    · exact h.resolved part hOld
    · simp only [mem_singleton, Prod.mk.injEq] at hNew
      exact absurd hNew.2.symm hOutcome

/-- The publication of the next part begins: its keys leave first. -/
theorem Books.begin (hPart : begun < w.parts.length)
    (hClosed : closed ≤ begun) {seq : Option Seq}
    (hSeq : ∀ spec, w.parts[begun]? = some spec → spec.writes.isSome →
      ∃ received, seq = some received ∧ (begun, received) ∈ w.history.receipts) :
    { w.unregister begun with
      history.published := w.history.published ++ [(begun, seq)] }.Books (begun + 1) closed where
  published := by
    change (w.history.published ++ [(begun, seq)]).map Prod.fst = _
    rw [map_append, h.published, range_succ, map_singleton]
  opened := h.opened
  settled := h.settled
  discarded := by
    change w.history.discarded = _
    rw [h.discarded, Nat.sub_eq_zero_of_le hClosed, Nat.sub_eq_zero_of_le (by omega)]
    rfl
  admitted := ⟨hPart, h.admitted.2⟩
  keys := by
    intro key part
    refine (h.keys_unregister (by omega) key part).trans ?_
    refine and_congr_right fun _ => and_congr_right fun _ => ?_
    omega
  newest := h.newest
  receipts := by
    intro part other spec hMem hSpec hStored
    rcases mem_append.mp hMem with hOld | hNew
    · exact h.receipts part other spec hOld hSpec hStored
    · simp only [mem_singleton, Prod.mk.injEq] at hNew
      obtain ⟨rfl, rfl⟩ := hNew
      exact hSeq spec hSpec hStored
  resolved := fun part hMem => Nat.lt_succ_of_lt (h.resolved part hMem)

/-- The line admits a part, which is now the newest writer of its keys. -/
theorem Books.admitted_part (spec : PartSpec Write Key) (queue : List Nat) :
    { w with
      parts := w.parts ++ [spec]
      unpublished := spec.keys.foldl (fun keys key => OrderedMap.set keys key w.parts.length) w.unpublished
      newest := some w.parts.length
      queue := queue }.Books begun closed where
  published := h.published
  opened := h.opened
  settled := h.settled
  discarded := h.discarded
  admitted := by
    have hCounts := h.admitted
    simp only [length_append, length_singleton]
    omega
  keys := by
    intro key part
    change (foldl _ w.unpublished spec.keys).lookup key = some part ↔ _
    have hOld : ∀ other, other < w.parts.length → (w.parts ++ [spec])[other]? = w.parts[other]? :=
      fun other hOther => getElem?_append_left hOther
    have hNew : (w.parts ++ [spec])[w.parts.length]? = some spec := by simp
    have hCounts := h.admitted
    rw [lookup_setKeys]
    split_ifs with hKey
    · constructor
      · intro hPart
        obtain rfl := some.inj hPart
        refine ⟨⟨spec, hNew, hKey⟩, fun later other hLater hSpec => ?_, hCounts⟩
        have hBound := (List.getElem?_eq_some_iff.mp hSpec).1
        simp only [length_append, length_singleton] at hBound
        omega
      · rintro ⟨⟨other, hSpec, -⟩, hNewest, -⟩
        have hBound := (List.getElem?_eq_some_iff.mp hSpec).1
        simp only [length_append, length_singleton] at hBound
        by_contra hNe
        have hLess : part < w.parts.length := by
          rcases Nat.lt_or_ge part w.parts.length with hLess | hGe
          · exact hLess
          · exact absurd (congrArg some (by omega : w.parts.length = part)) hNe
        exact hNewest w.parts.length spec hLess hNew hKey
    · refine (h.keys key part).trans ?_
      constructor
      · rintro ⟨⟨other, hSpec, hMem⟩, hNewest, hPending⟩
        have hBound := (List.getElem?_eq_some_iff.mp hSpec).1
        refine ⟨⟨other, (hOld part hBound).trans hSpec, hMem⟩, fun later third hLater hThird => ?_,
          hPending⟩
        rcases Nat.lt_trichotomy later w.parts.length with hLess | rfl | hGreater
        · exact hNewest later third hLater ((hOld later hLess).symm.trans hThird)
        · obtain rfl := some.inj (hNew.symm.trans hThird)
          exact hKey
        · rw [getElem?_eq_none (by simp; omega)] at hThird
          simp at hThird
      · rintro ⟨⟨other, hSpec, hMem⟩, hNewest, hPending⟩
        have hBound := (List.getElem?_eq_some_iff.mp hSpec).1
        simp only [length_append, length_singleton] at hBound
        have hLess : part < w.parts.length := by
          by_contra hGe
          obtain rfl : part = w.parts.length := by omega
          obtain rfl := some.inj (hNew.symm.trans hSpec)
          exact hKey hMem
        refine ⟨⟨other, (hOld part hLess).symm.trans hSpec, hMem⟩, fun later third hLater hThird => ?_,
          hPending⟩
        have hLater' := (List.getElem?_eq_some_iff.mp hThird).1
        exact hNewest later third hLater ((hOld later hLater').trans hThird)
  newest := by
    have hCounts := h.admitted
    rw [if_pos (by simp only [length_append, length_singleton]; omega)]
    simp
  receipts := by
    intro part seq other hMem hSpec hStored
    refine h.receipts part seq other hMem ?_ hStored
    have hPart : part ∈ range begun := h.published ▸ mem_map_of_mem hMem
    rw [mem_range] at hPart
    exact (getElem?_append_left (Nat.lt_of_lt_of_le hPart h.admitted.1)).symm.trans hSpec
  resolved := h.resolved

end

end Books

/-- Outside a publication, parts are settled in the order of the line, and an
unpublished one among them means that the session failed. -/
def Quiet (w : Writer Write Key Seq Err) (begun closed : Nat) : Prop :=
  begun ≤ closed ∧ (begun < closed → w.failure.isSome)

end Writer

/-- The receipts of a call are those of its stored parts, in their order. -/
def Received (stored : Nat → Bool) (receipts : List (Nat × Seq)) (parts : List Nat) (seqs : List Seq) : Prop :=
  ∀ (index : Nat) (seq : Seq), seqs[index]? = some seq →
    ∃ part, (parts.filter stored)[index]? = some part ∧ (part, seq) ∈ receipts

/-- The receipt a part is published with. -/
def HasReceipt (stored : Nat → Bool) (receipts : List (Nat × Seq)) (part : Nat) (seq : Option Seq) : Prop :=
  stored part = true → ∃ received, seq = some received ∧ (part, received) ∈ receipts

/-- What the loop of `#publish` keeps. -/
structure Publishing (stored : Nat → Bool) (receipts : List (Nat × Seq)) (parts : List Nat)
    (call : Call Seq Err) (loop : Loop Err) (begun : Nat) : Prop where
  received : Received stored receipts parts call.seqs
  index : (parts.filter stored).drop loop.storedIndex = loop.rest.filter stored
  flagged : ∀ entry ∈ loop.failing, entry.published = decide (entry.part < begun)
  waiting : call.rejected = none → loop.stop = none → loop.failing = []

variable {parts : List Nat} {stored : Nat → Bool}

theorem Received.congr {stored' : Nat → Bool} {seqs : List Seq} (h : Received stored receipts parts seqs)
    (hSame : ∀ part ∈ parts, stored' part = stored part) : Received stored' receipts parts seqs := by
  intro index seq hSeq
  rw [filter_congr hSame]
  exact h index seq hSeq

variable {begun : Nat}

theorem Publishing.congr {stored' : Nat → Bool} (h : Publishing stored receipts parts call loop begun)
    (hParts : ∀ part ∈ parts, stored' part = stored part) (hRest : ∀ part ∈ loop.rest, stored' part = stored part) :
    Publishing stored' receipts parts call loop begun where
  received := h.received.congr hParts
  index := by
    rw [filter_congr hParts, filter_congr hRest]
    exact h.index
  flagged := h.flagged
  waiting := h.waiting

theorem Publishing.next {receipts : List (Nat × Seq)} {call : Call Seq Err} {loop : Loop Err} {part : Nat} {rest : List Nat}
    (h : Publishing stored receipts parts call loop begun) (hRest : loop.rest = part :: rest) :
    (parts.filter stored).drop
        (if stored part then loop.storedIndex + 1 else loop.storedIndex) = rest.filter stored ∧
      (stored part = true → (parts.filter stored)[loop.storedIndex]? = some part) := by
  have hIndex := h.index
  rw [hRest] at hIndex
  by_cases hStored : stored part = true
  · rw [filter_cons_of_pos hStored] at hIndex
    refine ⟨?_, fun _ => ?_⟩
    · rw [if_pos hStored, ← drop_drop, hIndex, drop_one, tail_cons]
    · rw [← head?_drop, hIndex, head?_cons]
  · rw [filter_cons_of_neg hStored] at hIndex
    rw [if_neg hStored]
    exact ⟨hIndex, fun h => absurd h hStored⟩

theorem Publishing.wait {loop next : Loop Err} {entry : Failing Err} (h : Publishing stored receipts parts call loop begun)
    (hIndex : (parts.filter stored).drop next.storedIndex = next.rest.filter stored)
    (hFailing : next.failing = loop.failing ++ [entry]) (hFlag : entry.published = decide (entry.part < begun))
    (hWhy : call.rejected ≠ none ∨ next.stop ≠ none) :
    Publishing stored receipts parts call next begun where
  received := h.received
  index := hIndex
  flagged := by
    intro other hOther
    rw [hFailing, mem_append, mem_singleton] at hOther
    rcases hOther with hOld | rfl
    · exact h.flagged other hOld
    · exact hFlag
  waiting := by
    intro hRejected hStop
    rcases hWhy with hWhy | hWhy
    · exact absurd hRejected hWhy
    · exact absurd hStop hWhy

/-- The parts a call has yet to settle, in line order. -/
def Phase.remaining (parts : List Nat) : Phase Seq Err → List Nat
  | .send | .commit _ | .settled _ => parts
  | .refuse rest _ => rest
  | .publish _ loop | .failing _ loop =>
    loop.failing.map Failing.part ++ loop.rest
  | .hop _ loop part _ | .scope _ loop part _ | .running _ loop part | .ran _ loop part _ =>
    loop.failing.map Failing.part ++ part :: loop.rest
  | .settling _ entries => entries.map Failing.part
  | .last => []

namespace Writer

/-- How far publications and settlements have come in each phase. -/
def Standing (w : Writer Write Key Seq Err) (parts : List Nat) (begun closed : Nat) :
    Phase Seq Err → Prop
  | .send => parts ≠ [] ∧ w.Quiet begun closed
  | .commit seqs => w.Quiet begun closed ∧ Received w.stored w.history.receipts parts seqs
  | .settled call => w.Quiet begun closed ∧ Received w.stored w.history.receipts parts call.seqs
  | .refuse _ _ => w.Quiet begun closed ∧ w.failure.isSome
  | .publish call loop =>
    Publishing w.stored w.history.receipts parts call loop begun ∧ closed ≤ begun ∧ begun ≤ closed + loop.failing.length ∧
      (loop.stop = none → begun = closed + loop.failing.length)
  | .failing call loop =>
    Publishing w.stored w.history.receipts parts call loop begun ∧ loop.rest = [] ∧
      (call.rejected.isSome ∨ loop.stop.isSome) ∧ begun ≤ closed + loop.failing.length
  | .hop call loop part seq | .scope call loop part seq =>
    Publishing w.stored w.history.receipts parts call loop begun ∧ loop.stop = none ∧
      begun = closed + loop.failing.length ∧ HasReceipt w.stored w.history.receipts part seq
  | .running call loop _ | .ran call loop _ _ =>
    Publishing w.stored w.history.receipts parts call loop begun ∧ loop.stop = none ∧ begun = closed + loop.failing.length + 1
  | .settling _ entries =>
    (∀ entry ∈ entries, entry.published = decide (entry.part < begun)) ∧
      begun ≤ closed + entries.length ∧ (begun < closed + entries.length → w.failure.isSome)
  | .last => w.Quiet begun closed

/-- The parts the writer has yet to settle in the call in flight. -/
def remaining (w : Writer Write Key Seq Err) : List Nat :=
  (w.flight.map fun flight => flight.phase.remaining flight.parts).getD []

/-- The invariant of the writer: its books are right, what it has not settled
is in flight or queued in line order, and the call in flight stands where its
phase says. -/
structure InvAt (w : Writer Write Key Seq Err) (begun closed : Nat) : Prop where
  books : w.Books begun closed
  line : w.remaining ++ w.queue = range' closed (w.parts.length - closed)
  idle : w.flight = none → w.queue = [] ∧ w.Quiet begun closed
  flying : ∀ flight, w.flight = some flight →
    (∀ part ∈ flight.parts, part < w.parts.length) ∧ w.Standing flight.parts begun closed flight.phase

def Inv (w : Writer Write Key Seq Err) : Prop :=
  ∃ begun closed, w.InvAt begun closed

theorem Inv.initial : ({} : Writer Write Key Seq Err).Inv := by
  refine ⟨0, 0, Books.initial, rfl, fun _ => ⟨rfl, Nat.le_refl 0, ?_⟩, ?_⟩
  · exact fun h => absurd h (Nat.lt_irrefl 0)
  · intro flight h
    simp at h

section Steps

variable {w : Writer Write Key Seq Err} {begun closed : Nat} {parts : List Nat}

theorem InvAt.enter (hBooks : w.Books begun closed)
    (hLine : phase.remaining parts ++ w.queue = range' closed (w.parts.length - closed))
    (hParts : ∀ part ∈ parts, part < w.parts.length)
    (hStanding : w.Standing parts begun closed phase) : (w.enter parts phase).Inv := by
  refine ⟨begun, closed, hBooks, hLine, fun h => ?_, fun flight hFlight => ?_⟩
  · simp [Writer.enter] at h
  · obtain rfl := some.inj hFlight
    cases phase <;> exact ⟨hParts, hStanding⟩

theorem InvAt.endFlush (hBooks : w.Books begun closed)
    (hLine : w.queue = range' closed (w.parts.length - closed)) (hQuiet : w.Quiet begun closed) :
    w.endFlush.Inv := by
  rw [Writer.endFlush, pump]
  split_ifs with hQueue
  · refine ⟨begun, closed, hBooks, hLine, fun _ => ⟨hQueue, hQuiet⟩, fun flight hFlight => ?_⟩
    simp at hFlight
  · refine InvAt.enter (w := { w with flight := none, queue := [] }) hBooks ?_ ?_ ⟨hQueue, hQuiet⟩
    · exact (append_nil _).trans hLine
    · intro part hPart
      change part ∈ w.queue at hPart
      rw [hLine, mem_range'_1] at hPart
      have hBound := hBooks.admitted
      change part < w.parts.length
      omega

theorem head_remaining {part start count : Nat} {rest queue : List Nat} (hLine : part :: rest ++ queue = range' start count) :
    part = start ∧ 0 < count ∧ rest ++ queue = range' (start + 1) (count - 1) := by
  cases count with
  | zero => simp at hLine
  | succ count =>
    rw [range'_succ, cons_append, cons.injEq] at hLine
    exact ⟨hLine.1, Nat.succ_pos count, hLine.2⟩

theorem next_remaining {waiting rest queue : List Nat} {part start count : Nat}
    (hLine : waiting ++ part :: rest ++ queue = range' start count) :
    part = start + waiting.length ∧ waiting = range' start waiting.length ∧
      start + waiting.length < start + count := by
  rw [append_assoc, eq_comm, range'_eq_append_iff] at hLine
  obtain ⟨split, hSplit, hWaiting, hRest⟩ := hLine
  have hLength : waiting.length = split := by rw [hWaiting, length_range']
  subst hLength
  obtain ⟨hPart, hCount, -⟩ := @head_remaining _ _ _ rest _ hRest
  exact ⟨by omega, hWaiting, by omega⟩

omit [DecidableEq Key] in
theorem Quiet.fail (hQuiet : w.Quiet begun closed) (failure : SessionFailure Err) :
    (w.fail failure).Quiet begun closed := by
  refine ⟨hQuiet.1, fun _ => ?_⟩
  rw [Writer.fail]
  cases w.failure <;> rfl

omit [DecidableEq Key] in
theorem failure_fail (failure : SessionFailure Err) : (w.fail failure).failure.isSome = true := by
  rw [Writer.fail]
  cases w.failure <;> rfl

theorem Inv.fail (h : w.Inv) (failure : SessionFailure Err) : (w.fail failure).Inv := by
  obtain ⟨begun, closed, hInv⟩ := h
  have hSome := failure_fail (w := w) failure
  refine ⟨begun, closed, hInv.books, hInv.line, fun hIdle => ?_, fun flight hFlight => ?_⟩
  · exact ⟨(hInv.idle hIdle).1, (hInv.idle hIdle).2.fail failure⟩
  · obtain ⟨hParts, hStanding⟩ := hInv.flying flight hFlight
    refine ⟨hParts, ?_⟩
    obtain ⟨parts, phase⟩ := flight
    cases phase with
    | send => exact ⟨hStanding.1, hStanding.2.fail failure⟩
    | commit seqs => exact ⟨hStanding.1.fail failure, hStanding.2⟩
    | settled call => exact ⟨hStanding.1.fail failure, hStanding.2⟩
    | refuse rest error => exact ⟨hStanding.1.fail failure, hSome⟩
    | settling stop entries => exact ⟨hStanding.1, hStanding.2.1, fun _ => hSome⟩
    | last => exact hStanding.fail failure
    | _ => exact hStanding

theorem Inv.admitPart (h : w.Inv) (spec : PartSpec Write Key) : (w.admitPart spec).Inv := by
  obtain ⟨begun, closed, hInv⟩ := h
  have hBooks := hInv.books.admitted_part spec (w.queue ++ [w.parts.length])
  have hCounts := hInv.books.admitted
  have hLength : w.parts.length - closed + 1 = (w.parts ++ [spec]).length - closed := by
    simp only [length_append, length_singleton]
    omega
  have hLine : w.remaining ++ (w.queue ++ [w.parts.length]) =
      range' closed ((w.parts ++ [spec]).length - closed) := by
    rw [← append_assoc, hInv.line, ← hLength, range'_concat]
    congr 2
    omega
  rw [Writer.admitPart]
  cases hFlight : w.flight with
  | none =>
    have hRemaining : w.remaining = [] := by rw [remaining, hFlight]; rfl
    rw [hRemaining] at hLine
    simp only [isSome_none, Bool.false_eq_true, if_false]
    have hEnd := InvAt.endFlush hBooks hLine (hInv.idle hFlight).2
    rwa [Writer.endFlush] at hEnd
  | some flight =>
    simp only [isSome_some, if_true]
    obtain ⟨hParts, hStanding⟩ := hInv.flying flight hFlight
    have hRemaining : w.remaining = flight.phase.remaining flight.parts := by
      rw [remaining, hFlight]; rfl
    have hStored : ∀ part, part < w.parts.length →
        isSome ((w.parts ++ [spec])[part]?.bind PartSpec.writes) = w.stored part := by
      intro part hPart
      rw [getElem?_append_left hPart, stored]
    have hOld : ∀ part ∈ flight.phase.remaining flight.parts, part < w.parts.length := by
      intro part hPart
      have hMem : part ∈ w.remaining ++ w.queue := mem_append_left _ (hRemaining ▸ hPart)
      rw [hInv.line, mem_range'_1] at hMem
      omega
    rw [hRemaining] at hLine
    refine ⟨begun, closed, hBooks, ?_, fun hNone => by simp at hNone, fun flight' hSame => ?_⟩
    · simpa [remaining] using hLine
    obtain rfl := some.inj hSame
    refine ⟨fun part hPart => ?_, ?_⟩
    · have hBound := hParts part hPart
      simp only [length_append, length_singleton]
      omega
    obtain ⟨parts, phase⟩ := flight
    have hSameParts := fun part hPart => hStored part (hParts part hPart)
    have hSameRest := fun part hPart => hStored part (hOld part hPart)
    cases phase with
    | commit seqs => exact ⟨hStanding.1, hStanding.2.congr hSameParts⟩
    | settled call => exact ⟨hStanding.1, hStanding.2.congr hSameParts⟩
    | publish call loop =>
      exact ⟨hStanding.1.congr hSameParts fun part hPart =>
        hSameRest part (mem_append_right _ hPart), hStanding.2⟩
    | failing call loop =>
      exact ⟨hStanding.1.congr hSameParts fun part hPart =>
        hSameRest part (mem_append_right _ hPart), hStanding.2⟩
    | hop call loop part seq =>
      refine ⟨hStanding.1.congr hSameParts fun part hPart => ?_, hStanding.2.1, hStanding.2.2.1, ?_⟩
      · exact hSameRest part (mem_append_right _ (mem_cons_of_mem _ hPart))
      · intro hPart
        rw [Writer.stored, hSameRest part (mem_append_right _ mem_cons_self)] at hPart
        exact hStanding.2.2.2 hPart
    | scope call loop part seq =>
      refine ⟨hStanding.1.congr hSameParts fun part hPart => ?_, hStanding.2.1, hStanding.2.2.1, ?_⟩
      · exact hSameRest part (mem_append_right _ (mem_cons_of_mem _ hPart))
      · intro hPart
        rw [Writer.stored, hSameRest part (mem_append_right _ mem_cons_self)] at hPart
        exact hStanding.2.2.2 hPart
    | running call loop part =>
      exact ⟨hStanding.1.congr hSameParts fun part hPart =>
        hSameRest part (mem_append_right _ (mem_cons_of_mem _ hPart)), hStanding.2⟩
    | ran call loop part failure =>
      exact ⟨hStanding.1.congr hSameParts fun part hPart =>
        hSameRest part (mem_append_right _ (mem_cons_of_mem _ hPart)), hStanding.2⟩
    | _ => exact hStanding

theorem InvAt.flight (h : w.InvAt begun closed) (hFlight : w.flight = some ⟨parts, phase⟩) :
    phase.remaining parts ++ w.queue = range' closed (w.parts.length - closed) ∧
      (∀ part ∈ parts, part < w.parts.length) ∧ w.Standing parts begun closed phase := by
  have hLine := h.line
  rw [remaining, hFlight] at hLine
  exact ⟨hLine, h.flying _ hFlight⟩

omit [DecidableEq Key] in
/-- One turn of the loop of `#publish`, up to its first wait. -/
theorem Standing.publishHead {rest : List Nat} (h : w.Standing parts begun closed (.publish call loop))
    (hRest : loop.rest = part :: rest) (hPart : part = closed + loop.failing.length) :
    w.Standing parts begun closed (w.publishHead call loop part rest) ∧
      (w.publishHead call loop part rest).remaining parts = loop.failing.map Failing.part ++ part :: rest := by
  obtain ⟨hLoop, hLower, hUpper, hStop⟩ := h
  obtain ⟨hIndex, hBatch⟩ := hLoop.next hRest
  have hFlag : false = decide (part < begun) := by simp; omega
  rw [Writer.publishHead]
  cases hCase : loop.stop with
  | some stop =>
    refine ⟨⟨?_, hLower, ?_, fun hNone => ?_⟩, ?_⟩
    · exact hLoop.wait hIndex rfl hFlag (Or.inr (by simp))
    · simp only [length_append, length_singleton]
      omega
    · simp at hNone
    · simp [Phase.remaining]
  | none =>
    have hBegun := hStop hCase
    have hWaiting := fun hRejected (_ : (none : Option (Stop Err)) = none) =>
      hLoop.waiting hRejected hCase
    cases hStored : w.stored part with
    -- a held part has no batch
    | false =>
      simp only [hStored, Bool.false_eq_true, if_false, isSome_none, false_and] at hIndex ⊢
      have hReceipt : HasReceipt w.stored w.history.receipts part none := by simp [HasReceipt, hStored]
      split_ifs with hHop
      · exact ⟨⟨⟨hLoop.received, hIndex, hLoop.flagged, hWaiting⟩, rfl, hBegun, hReceipt⟩, rfl⟩
      · exact ⟨⟨⟨hLoop.received, hIndex, hLoop.flagged, hWaiting⟩, rfl, hBegun, hReceipt⟩, rfl⟩
    | true =>
      simp only [hStored, if_true, isSome_some, true_and, bind_some] at hIndex ⊢
      cases hSeq : call.seqs[loop.storedIndex]? with
      -- no receipt: the call stops here
      | none =>
        rw [isNone_none, if_pos rfl]
        refine ⟨⟨?_, hLower, ?_, fun hNone => ?_⟩, ?_⟩
        · exact hLoop.wait hIndex rfl hFlag (Or.inr (by simp))
        · simp only [length_append, length_singleton]
          omega
        · simp at hNone
        · simp [Phase.remaining]
      | some seq =>
        obtain ⟨other, hOther, hReceipt⟩ := hLoop.received _ _ hSeq
        obtain rfl := some.inj (hOther.symm.trans (hBatch hStored))
        have hOwn : HasReceipt w.stored w.history.receipts other (some seq) :=
          fun _ => ⟨seq, rfl, hReceipt⟩
        rw [isNone_some, if_neg Bool.false_ne_true]
        split_ifs with hHop
        · exact ⟨⟨⟨hLoop.received, hIndex, hLoop.flagged, hWaiting⟩, rfl, hBegun, hOwn⟩, rfl⟩
        · exact ⟨⟨⟨hLoop.received, hIndex, hLoop.flagged, hWaiting⟩, rfl, hBegun, hOwn⟩, rfl⟩

variable {next : Writer Write Key Seq Err}

theorem InvAt.scope (h : w.InvAt begun closed) {seq : Option Seq} (hFlight : w.flight = some ⟨parts, .scope call loop part seq⟩)
    (hStep : w.advance parts (.scope call loop part seq) = some next) :
    next.Inv := by
  obtain ⟨hLine, hParts, hLoop, hStop, hBegun, hReceipt⟩ := h.flight hFlight
  obtain ⟨hPart, hWaiting, hBound⟩ := next_remaining hLine
  rw [length_map] at hPart hWaiting hBound
  rw [advance] at hStep
  cases hFailure : w.failure with
  | some failed =>
    simp only [hFailure, some.injEq] at hStep
    subst hStep
    refine InvAt.enter h.books ?_ hParts ⟨?_, by omega, ?_, fun hNone => ?_⟩
    · simpa [Phase.remaining] using hLine
    · exact hLoop.wait hLoop.index rfl (by simp; omega) (Or.inr (by simp))
    · simp only [length_append, length_singleton]
      omega
    · simp at hNone
  | none =>
    simp only [hFailure, some.injEq] at hStep
    subst hStep
    obtain rfl : part = begun := by omega
    refine InvAt.enter (h.books.begin (by omega) (by omega) fun spec hSpec hStored => ?_) hLine hParts
      ⟨⟨hLoop.received, hLoop.index, fun entry hEntry => ?_, hLoop.waiting⟩, hStop, by omega⟩
    · exact hReceipt (by rw [stored, hSpec]; exact hStored)
    · have hMem : entry.part ∈ loop.failing.map Failing.part := mem_map_of_mem hEntry
      rw [hWaiting, mem_range'_1] at hMem
      rw [hLoop.flagged entry hEntry, decide_eq_true (by omega), decide_eq_true (by omega)]

/-- What the loop does with a part whose publication ran. -/
theorem InvAt.afterPublication (h : w.InvAt begun closed) {failure : Option (PublishFailure Err)}
    (hFlight : w.flight = some ⟨parts, .ran call loop part failure⟩) :
    (w.afterPublication parts call loop part failure).Inv := by
  obtain ⟨hLine, hParts, hLoop, hStop, hBegun⟩ := h.flight hFlight
  obtain ⟨hPart, -, hBound⟩ := next_remaining hLine
  rw [length_map] at hPart hBound
  have hAdmitted := h.books.admitted
  -- the part waits for the failure, published
  have hWait : ∀ entry stop, entry.part = part → entry.published = true →
      (call.rejected ≠ none ∨ stop ≠ none) →
      (w.enter parts (.publish call { loop with failing := loop.failing ++ [entry], stop := stop })).Inv := by
    rintro entry stop rfl hPublished hWhy
    refine InvAt.enter h.books ?_ hParts ⟨?_, by omega, ?_, fun _ => ?_⟩
    · simpa [Phase.remaining] using hLine
    · exact hLoop.wait hLoop.index rfl (by rw [hPublished, decide_eq_true (by omega)]) hWhy
    · simp only [length_append, length_singleton]
      omega
    · simp only [length_append, length_singleton]
      omega
  -- the part settles at once, as nothing waits before it
  have hSettle : ∀ outcome stop, call.rejected = none →
      (((w.settle part outcome).openGate part).enter parts
        (.publish call { loop with stop := stop })).Inv := by
    intro outcome stop hRejected
    have hNone := hLoop.waiting hRejected hStop
    rw [hNone, length_nil, Nat.add_zero] at hPart hBegun hBound
    subst hPart
    refine InvAt.enter (h.books.settle_published (by omega) (by omega) outcome) ?_ hParts
      ⟨⟨hLoop.received, hLoop.index, hLoop.flagged, fun _ _ => hNone⟩, by omega, ?_, fun _ => ?_⟩
    · have hTail := (head_remaining (by simpa [Phase.remaining, hNone] using hLine)).2.2
      change loop.failing.map Failing.part ++ loop.rest ++ w.queue =
        range' (part + 1) (w.parts.length - (part + 1))
      rw [hNone, ← Nat.sub_sub]
      exact hTail
    · omega
    · rw [hNone, length_nil]
      omega
  cases hRejected : call.rejected with
  | none =>
    rcases failure with _ | ⟨error⟩ | ⟨error⟩
    · simp only [Writer.afterPublication, hRejected]
      have hOk := fun outcome => hSettle outcome none hRejected
      rw [← hStop] at hOk
      exact hOk _
    · simp only [Writer.afterPublication]
      exact hWait ⟨part, .own error, true⟩ _ rfl rfl (Or.inr (by simp))
    · simp only [Writer.afterPublication, hRejected]
      exact hSettle .resolved _ hRejected
  | some storageError =>
    have hOk := hWait ⟨part, .own (.thrown storageError), true⟩ none rfl rfl
      (Or.inl (by simp [hRejected]))
    rw [← hStop] at hOk
    rcases failure with _ | ⟨error⟩ | ⟨error⟩
    · simpa only [Writer.afterPublication, hRejected] using hOk
    · simp only [Writer.afterPublication]
      exact hWait ⟨part, .own error, true⟩ _ rfl rfl (Or.inr (by simp))
    · simpa only [Writer.afterPublication, hRejected] using hOk

omit [DecidableEq Key] in
theorem failedWith_ne_resolved (error : Fault Err) : w.failedWith error ≠ .resolved := by
  rw [failedWith]
  cases w.failure <;> simp

theorem InvAt.settleFailing (h : w.InvAt begun closed) {stop : Option (Stop Err)} {entry : Failing Err}
    {rest : List (Failing Err)} (hFlight : w.flight = some ⟨parts, .settling stop (entry :: rest)⟩) :
    ((w.settleFailing stop entry).enter parts (.settling stop rest)).Inv := by
  obtain ⟨hLine, hParts, hFlagged, hUpper, hFailed⟩ := h.flight hFlight
  obtain ⟨hPart, hCount, hTail⟩ := @head_remaining _ _ _ (rest.map Failing.part) _ hLine
  rw [Nat.sub_sub] at hTail
  have hFlag := hFlagged entry mem_cons_self
  have hRest : ∀ other ∈ rest, other.published = decide (other.part < begun) :=
    fun other hOther => hFlagged other (mem_cons_of_mem _ hOther)
  rw [length_cons] at hUpper hFailed
  have hStanding : begun ≤ closed + 1 + rest.length ∧
      (begun < closed + 1 + rest.length → w.failure.isSome) :=
    ⟨by omega, fun hLess => hFailed (by omega)⟩
  rw [Writer.settleFailing, hPart]
  by_cases hPublished : closed < begun
  · rw [hFlag, hPart, decide_eq_true hPublished, if_pos rfl]
    exact InvAt.enter (h.books.settle_published (by omega) hPublished _) hTail hParts ⟨hRest, hStanding⟩
  · rw [hFlag, hPart, decide_eq_false hPublished, if_neg Bool.false_ne_true]
    refine InvAt.enter (h.books.unpublish (by omega) (by omega) ?_) hTail hParts ⟨hRest, hStanding⟩
    cases entry.outcome with
    | own error => simp
    | failed => exact failedWith_ne_resolved _

theorem Inv.advance (h : w.Inv) (hFlight : w.flight = some ⟨parts, phase⟩) (hStep : w.advance parts phase = some next) :
    next.Inv := by
  obtain ⟨begun, closed, hInv⟩ := h
  obtain ⟨hLine, hParts, hStanding⟩ := hInv.flight hFlight
  cases phase with
  | send =>
    rw [Writer.advance] at hStep
    cases hFailure : w.failure with
    | some failed =>
      simp only [hFailure, some.injEq] at hStep
      subst hStep
      exact InvAt.enter hInv.books hLine hParts ⟨hStanding.2, by simp [hFailure]⟩
    | none =>
      have hReceived : Received w.stored w.history.receipts parts [] := by
        intro index seq hSeq
        simp at hSeq
      simp only [hFailure] at hStep
      split_ifs at hStep with hHeld
      · obtain rfl := some.inj hStep
        exact InvAt.enter hInv.books hLine hParts ⟨hStanding.2, hReceived⟩
      · obtain rfl := some.inj hStep
        exact InvAt.enter hInv.books hLine hParts ⟨hStanding.2, hReceived⟩
  | commit seqs => simp [Writer.advance] at hStep
  | settled call =>
    rw [Writer.advance] at hStep
    cases hFailure : w.failure with
    | some failed =>
      simp only [hFailure, some.injEq] at hStep
      subst hStep
      exact InvAt.enter hInv.books hLine hParts ⟨hStanding.1, by simp [hFailure]⟩
    | none =>
      simp only [hFailure, some.injEq] at hStep
      subst hStep
      have hBegun : begun = closed := by
        by_contra hNe
        have hLess : begun < closed := Nat.lt_of_le_of_ne hStanding.1.1 hNe
        simpa [hFailure] using hStanding.1.2 hLess
      refine InvAt.enter hInv.books hLine hParts ⟨⟨hStanding.2, rfl, ?_, fun _ _ => rfl⟩, ?_⟩
      · simp
      · simp [hBegun]
  | refuse rest error =>
    obtain ⟨hQuiet, hFailed⟩ := hStanding
    cases rest with
    | nil =>
      obtain rfl := some.inj hStep
      exact InvAt.endFlush hInv.books hLine hQuiet
    | cons part rest =>
      obtain rfl := some.inj hStep
      obtain ⟨rfl, hCount, hTail⟩ := head_remaining hLine
      rw [Nat.sub_sub] at hTail
      refine InvAt.enter (hInv.books.unpublish (by omega) hQuiet.1 (by simp)) hTail hParts
        ⟨⟨by have := hQuiet.1; omega, fun _ => hFailed⟩, hFailed⟩
  | publish call loop =>
    rw [Writer.advance] at hStep
    cases hRest : loop.rest with
    | cons part rest =>
      simp only [hRest, some.injEq] at hStep
      subst hStep
      rw [Phase.remaining, hRest] at hLine
      have hPart := (next_remaining hLine).1
      rw [length_map] at hPart
      obtain ⟨hNext, hSame⟩ := hStanding.publishHead hRest hPart
      exact InvAt.enter hInv.books (by rw [hSame]; exact hLine) hParts hNext
    | nil =>
      obtain ⟨hLoop, hLower, hUpper, hNoStop⟩ := hStanding
      simp only [hRest] at hStep
      split_ifs at hStep with hWhy
      · obtain rfl := some.inj hStep
        exact InvAt.enter hInv.books hLine hParts ⟨hLoop, hRest, hWhy, hUpper⟩
      · obtain rfl := some.inj hStep
        rw [not_or, not_isSome_iff_eq_none, not_isSome_iff_eq_none] at hWhy
        have hBegun := hNoStop hWhy.2
        refine InvAt.enter hInv.books ?_ hParts ⟨hLoop.flagged, hUpper, fun hLess => ?_⟩
        · simpa [Phase.remaining, hRest] using hLine
        · omega
  | hop call loop part seq =>
    obtain rfl := some.inj hStep
    exact InvAt.enter hInv.books hLine hParts hStanding
  | scope call loop part seq => exact hInv.scope hFlight hStep
  | running call loop part => simp [Writer.advance] at hStep
  | ran call loop part failure =>
    obtain rfl := some.inj hStep
    exact hInv.afterPublication hFlight
  | failing call loop =>
    obtain rfl := some.inj hStep
    obtain ⟨hLoop, hRest, hWhy, hUpper⟩ := hStanding
    -- whichever of the two it is, the session fails before anything settles
    have hCall : ∃ failure, w.failCall call loop = w.fail failure := by
      rw [failCall.eq_def]
      rcases hRejected : call.rejected with _ | error
      · rcases hStop : loop.stop with _ | stop
        · simp [hRejected, hStop] at hWhy
        · exact ⟨_, rfl⟩
      · exact ⟨_, rfl⟩
    obtain ⟨failure, hFail⟩ := hCall
    rw [hFail]
    refine InvAt.enter (w := w.fail failure) hInv.books ?_ hParts
      ⟨hLoop.flagged, hUpper, fun _ => failure_fail failure⟩
    rw [Phase.remaining, hRest, append_nil] at hLine
    exact hLine
  | settling stop entries =>
    cases entries with
    | nil =>
      obtain rfl := some.inj hStep
      exact InvAt.enter hInv.books hLine hParts hStanding.2
    | cons entry rest =>
      obtain rfl := some.inj hStep
      exact hInv.settleFailing hFlight
  | last =>
    rw [Writer.advance] at hStep
    split at hStep
    case h_1 failed hFailure =>
        obtain rfl := some.inj hStep
        have hNext : { w with queue := [] }.Standing parts begun closed (.refuse w.queue failed.error) :=
          ⟨hStanding, by simp [hFailure]⟩
        exact InvAt.enter (w := { w with queue := [] }) hInv.books ((append_nil _).trans hLine)
          hParts hNext
    case h_2 =>
        obtain rfl := some.inj hStep
        exact InvAt.endFlush hInv.books hLine hStanding

theorem Inv.step (h : w.Inv) {action : Action Write Key Seq Err} (hExpected : ∀ error, action ≠ .throws error)
    (hStep : w.step action = some next) : next.Inv := by
  -- a receipt or a result leaves the parts of the call where they are
  have hEnter : ∀ parts phase phase', w.flight = some ⟨parts, phase⟩ →
      phase'.remaining parts = phase.remaining parts →
      (∀ begun closed, w.Standing parts begun closed phase → w.Standing parts begun closed phase') →
      (w.enter parts phase').Inv := by
    intro parts phase phase' hFlight hSame hStanding
    obtain ⟨begun, closed, hInv⟩ := h
    obtain ⟨hLine, hParts, hOld⟩ := hInv.flight hFlight
    exact InvAt.enter hInv.books (hSame ▸ hLine) hParts (hStanding begun closed hOld)
  cases action with
  | admitted spec =>
    obtain rfl := some.inj hStep
    exact h.admitPart spec
  | failed error =>
    obtain rfl := some.inj hStep
    exact h.fail _
  | advance =>
    rw [Writer.step] at hStep
    split at hStep
    case h_1 parts phase hFlight => exact h.advance hFlight hStep
    case h_2 => simp at hStep
  | receive seq =>
    rw [Writer.step] at hStep
    split at hStep
    case h_1 parts seqs hFlight =>
        split at hStep
        case h_1 part hPart =>
            obtain rfl := some.inj hStep
            obtain ⟨begun, closed, hInv⟩ := h
            obtain ⟨hLine, hParts, hQuiet, hReceived⟩ := hInv.flight hFlight
            have hBooks : { w with
                history.receipts := w.history.receipts ++ [(part, seq)] }.Books begun closed :=
              { hInv.books with
                receipts := fun other given spec hMem hSpec hStored => by
                  obtain ⟨received, hSeq, hReceipt⟩ := hInv.books.receipts other given spec hMem hSpec hStored
                  exact ⟨received, hSeq, mem_append_left _ hReceipt⟩ }
            refine InvAt.enter hBooks hLine hParts ⟨hQuiet, fun index given hGiven => ?_⟩
            rw [getElem?_append] at hGiven
            split_ifs at hGiven with hOld
            · obtain ⟨other, hOther, hReceipt⟩ := hReceived index given hGiven
              exact ⟨other, hOther, mem_append_left _ hReceipt⟩
            · rw [getElem?_singleton] at hGiven
              split_ifs at hGiven with hIndex
              obtain rfl := some.inj hGiven
              obtain rfl : index = seqs.length := by omega
              exact ⟨part, hPart, by simp⟩
        case h_2 => simp at hStep
    case h_2 => simp at hStep
  | settle result =>
    rcases result with result | error
    all_goals
      rw [Writer.step] at hStep
      split at hStep
      case h_1 parts seqs hFlight =>
          obtain rfl := some.inj hStep
          exact hEnter parts _ _ hFlight rfl fun begun closed hOld => hOld
      case h_2 => simp at hStep
  | ran result =>
    rcases result with failure | error
    all_goals
      rw [Writer.step] at hStep
      split at hStep
      case h_1 parts call loop part hFlight =>
          obtain rfl := some.inj hStep
          exact hEnter parts _ _ hFlight rfl fun begun closed hOld => hOld
      case h_2 => simp at hStep
  | throws error => exact absurd rfl (hExpected error)

end Steps

end Writer

end OctoberHarness.Session
