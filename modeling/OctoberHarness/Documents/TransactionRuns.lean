import Mathlib.Tactic
import OctoberHarness.Documents.Transaction

/-! Transactions are all or nothing: what a transaction keeps through every run
of its callback, its commit, the store and the seals around it. -/
namespace OctoberHarness.Documents

open List Option

open ChordStore (Ending Op Store StagedWrite StepBody Thrown Transacts Written)

variable {S V O R T D : Type}

/-! The drafts of a transaction. -/

/-- Every draft of a document in memory was begun on it as it is. -/
def Based (docs : Address S → Option (Tracker V)) (entries : List (Entry S V)) : Prop :=
  ∀ entry ∈ entries, ∀ draft, entry.draft = some draft →
    draft.fresh = true ∨ docs entry.address = some draft.tracker

/-- No draft was adopted. -/
def Unused (entries : List (Entry S V)) : Prop :=
  ∀ entry ∈ entries, ∀ draft, entry.draft = some draft → draft.status ≠ .consumed

def Discarded (entries : List (Entry S V)) : Prop :=
  ∀ entry ∈ entries, ∀ draft, entry.draft = some draft → draft.status = .aborted

/-- One entry a document. -/
def Distinct (entries : List (Entry S V)) : Prop :=
  (entries.map Entry.address).Nodup

/-- What a commit holds until it adopts. -/
structure Ready [DecidableEq S] (docs : Address S → Option (Tracker V)) (entries : List (Entry S V))
    (adoptions : List (Adoption S V)) : Prop where
  distinct : (adoptions.map Adoption.address).Nodup
  based : Based docs entries
  prepared : ∀ adoption ∈ adoptions, ∀ value, adoption.prepared = some value →
    ∃ entry draft, entryAt entries adoption.address = some entry ∧ entry.draft = some draft ∧
      draft.status = .prepared

variable {entries : List (Entry S V)} {entry : Entry S V} {docs : Address S → Option (Tracker V)}
    {adoptions : List (Adoption S V)} {result : Except Rejection Unit} {slots : Slots S V R T D}
    {address : Address S} {w : World S V O R T D}

theorem Unused.abortDrafts (h : Unused entries) : Discarded (abortDrafts entries) := by
  intro entry hEntry draft hDraft
  obtain ⟨before, hBefore, rfl⟩ := mem_map.mp hEntry
  obtain ⟨old, hOld, rfl⟩ := Option.map_eq_some_iff.mp hDraft
  have hStatus := h before hBefore old hOld
  rw [Draft.abort]
  split
  · rfl
  · rfl
  next hOpened hPrepared =>
    cases hCase : old.status with
    | opened => exact absurd hCase hOpened
    | prepared => exact absurd hCase hPrepared
    | aborted => rfl
    | consumed => exact absurd hCase hStatus

theorem Discarded.unused (h : Discarded entries) : Unused entries := by
  intro entry hEntry draft hDraft hStatus
  rw [h entry hEntry draft hDraft] at hStatus
  cases hStatus

variable [DecidableEq S] in
theorem entryAt_of_mem (hDistinct : Distinct entries)
    (hEntry : entry ∈ entries) : entryAt entries entry.address = some entry := by
  induction entries with
  | nil => cases hEntry
  | cons other rest ih =>
    rw [Distinct, map_cons, nodup_cons] at hDistinct
    rw [entryAt, find?_cons]
    rcases mem_cons.mp hEntry with rfl | hRest
    · simp
    · have hOther : other.address ≠ entry.address := fun hSame =>
        hDistinct.1 (hSame ▸ mem_map_of_mem hRest)
      simp only [decide_eq_false hOther]
      exact ih hDistinct.2 hRest

variable [DecidableEq S] in
theorem Ready.adoptAll (h : Ready docs entries adoptions) :
    ∃ after, adoptAll entries docs adoptions = some after := by
  suffices hAny : ∀ now : Address S → Option (Tracker V),
      (∀ adoption ∈ adoptions, now adoption.address = docs adoption.address) →
      ∃ after, Documents.adoptAll entries now adoptions = some after from hAny docs fun _ _ => rfl
  obtain ⟨hDistinct, hBased, hPrepared⟩ := h
  induction adoptions with
  | nil => exact fun now _ => ⟨now, rfl⟩
  | cons adoption rest ih =>
    intro now hNow
    rw [map_cons, nodup_cons] at hDistinct
    have hRest := ih hDistinct.2 fun later hLater => hPrepared later (mem_cons_of_mem _ hLater)
    -- what one adoption writes leaves the other documents alone
    have hOther (what : Option (Tracker V)) : ∀ later ∈ rest,
        Function.update now adoption.address what later.address = docs later.address := by
      intro later hLater
      have hNe : later.address ≠ adoption.address := fun hSame =>
        hDistinct.1 (hSame ▸ mem_map_of_mem hLater)
      rw [Function.update_of_ne hNe]
      exact hNow later (mem_cons_of_mem _ hLater)
    have hKept : ∀ later ∈ rest, now later.address = docs later.address :=
      fun later hLater => hNow later (mem_cons_of_mem _ hLater)
    rw [Documents.adoptAll, foldlM_cons]
    cases hValue : adoption.prepared with
    | none =>
      rw [adoptOne, hValue]
      by_cases hRetires : adoption.retires = true
      · simp only [hRetires, if_true, bind_eq_bind, bind_some]
        exact hRest _ (hOther none)
      · simp only [hRetires, bind_eq_bind, bind_some]
        exact hRest _ hKept
    | some value =>
      obtain ⟨entry, draft, hEntry, hDraft, hStatus⟩ := hPrepared adoption (by simp) value hValue
      have hMem := mem_of_find?_eq_some hEntry
      have hAddress : entry.address = adoption.address := by
        simpa using find?_some hEntry
      have hCheck : draft.fresh = true ∨
          (now adoption.address).map Tracker.revision = some draft.tracker.revision := by
        rcases hBased entry hMem draft hDraft with hFresh | hSame
        · exact .inl hFresh
        · refine .inr ?_
          rw [hNow adoption (by simp), ← hAddress, hSame]
          rfl
      simp only [adoptOne, hValue, hEntry, hDraft, bind_some, adoptDraft, hStatus, hCheck,
        and_self, if_true, bind_eq_bind]
      exact hRest _ (hOther _)

theorem prepareDraft_draft {draft after : Draft V} {result : Except Thrown (Option V)}
    (h : prepareDraft (some draft) = (some after, result)) :
    after.tracker = draft.tracker ∧ after.fresh = draft.fresh ∧
      (after.status = .aborted ∨ after.status = .prepared) := by
  rw [prepareDraft] at h
  split at h
  · obtain ⟨h, -⟩ := Prod.mk.inj h
    obtain rfl := some.inj h
    exact ⟨rfl, rfl, .inl rfl⟩
  · obtain ⟨h, -⟩ := Prod.mk.inj h
    obtain rfl := some.inj h
    exact ⟨rfl, rfl, .inl rfl⟩
  · obtain ⟨h, -⟩ := Prod.mk.inj h
    obtain rfl := some.inj h
    exact ⟨rfl, rfl, .inr rfl⟩

theorem prepareDraft_value {draft after : Option (Draft V)} {value : V} (h : prepareDraft draft = (after, .ok (some value))) :
    ∃ prepared, after = some prepared ∧ prepared.status = .prepared := by
  cases draft with
  | none => cases h
  | some draft =>
    rw [prepareDraft] at h
    split at h
    · cases h
    · cases h
    · obtain ⟨h, -⟩ := Prod.mk.inj h
      exact ⟨_, h.symm, rfl⟩

/-- What preparing does to the entries, however far it came. -/
structure Prepares (entries after : List (Entry S V)) : Prop where
  addresses : after.map Entry.address = entries.map Entry.address
  drafts : ∀ entry ∈ after, ∀ draft, entry.draft = some draft →
    ∃ before ∈ entries, before.address = entry.address ∧ ∃ old, before.draft = some old ∧
      draft.tracker = old.tracker ∧ draft.fresh = old.fresh ∧
      (draft.status = .aborted ∨ draft.status = .prepared ∨ draft.status = old.status)

theorem Prepares.refl (entries : List (Entry S V)) : Prepares entries entries :=
  ⟨rfl, fun entry hEntry draft hDraft =>
    ⟨entry, hEntry, rfl, draft, hDraft, rfl, rfl, .inr (.inr rfl)⟩⟩

variable {after entries : List (Entry S V)} {last writes : Option (List (StagedWrite R T D))}

theorem Prepares.cons (h : Prepares entries after) {entry : Entry S V} {draft : Option (Draft V)}
    {result : Except Thrown (Option V)} (hDraft : prepareDraft entry.draft = (draft, result)) :
    Prepares (entry :: entries) ({ entry with draft } :: after) := by
  refine ⟨by simp [h.addresses], ?_⟩
  intro other hOther now hNow
  rcases mem_cons.mp hOther with rfl | hOther
  · refine ⟨entry, by simp, rfl, ?_⟩
    cases hBefore : entry.draft with
    | none =>
      rw [hBefore] at hDraft
      obtain ⟨hNone, -⟩ := Prod.mk.inj hDraft
      rw [← hNone] at hNow
      cases hNow
    | some old =>
      obtain rfl : draft = some now := hNow
      rw [hBefore] at hDraft
      obtain ⟨hTracker, hFresh, hStatus⟩ := prepareDraft_draft hDraft
      exact ⟨old, rfl, hTracker, hFresh, hStatus.imp id .inl⟩
  · obtain ⟨before, hBefore, hFound⟩ := h.drafts other hOther now hNow
    exact ⟨before, mem_cons_of_mem _ hBefore, hFound⟩

theorem prepareAll_prepares (slots : Slots S V R T D) (docs : Address S → Option (Tracker V))
    (writes : Option (List (StagedWrite R T D))) (entries : List (Entry S V)) :
    Prepares entries (prepareAll slots docs writes entries).1 := by
  induction entries generalizing writes with
  | nil => exact Prepares.refl []
  | cons entry rest ih =>
    rw [prepareAll]
    split
    next draft thrown hDraft => exact (Prepares.refl rest).cons hDraft
    next draft prepared hDraft =>
      split
      · exact (Prepares.refl rest).cons hDraft
      next adoption staged _ =>
        have hRest := ih staged
        split
        next entries thrown hAll =>
          rw [hAll] at hRest
          exact hRest.cons hDraft
        next entries adoptions last hAll =>
          rw [hAll] at hRest
          exact hRest.cons hDraft

theorem stageEntry_adoption {prepared : Option V} (h : stageEntry slots docs writes entry prepared = .ok (adoptions, last)) :
    adoptions = [] ∨ ∃ retires, adoptions = [⟨entry.address, prepared, retires⟩] := by
  rw [stageEntry] at h
  split_ifs at h
  · obtain ⟨rfl, -⟩ := Prod.mk.inj (Except.ok.inj h)
    exact .inl rfl
  · split at h
    · cases h
    · obtain ⟨rfl, -⟩ := Prod.mk.inj (Except.ok.inj h)
      exact .inr ⟨_, rfl⟩
  · obtain ⟨rfl, -⟩ := Prod.mk.inj (Except.ok.inj h)
    exact .inr ⟨_, rfl⟩

/-- What a commit adopts stands in the order of its entries, and each value is
of a draft prepared. -/
theorem prepareAll_adoptions (h : prepareAll slots docs writes entries = (after, .ok (adoptions, last))) :
    (adoptions.map Adoption.address).Sublist (after.map Entry.address) ∧
      ∀ adoption ∈ adoptions, ∀ value, adoption.prepared = some value →
        ∃ entry ∈ after, entry.address = adoption.address ∧
          ∃ draft, entry.draft = some draft ∧ draft.status = .prepared := by
  induction entries generalizing writes after adoptions last with
  | nil =>
    rw [prepareAll] at h
    obtain ⟨rfl, hOk⟩ := Prod.mk.inj h
    obtain ⟨rfl, -⟩ := Prod.mk.inj (Except.ok.inj hOk)
    exact ⟨Sublist.refl _, by simp⟩
  | cons entry rest ih =>
    rw [prepareAll] at h
    split at h
    · cases (Prod.mk.inj h).2
    next draft prepared hDraft =>
      split at h
      · cases (Prod.mk.inj h).2
      next first staged hStage =>
        split at h
        · cases (Prod.mk.inj h).2
        next later rest' last' hAll =>
          obtain ⟨rfl, hOk⟩ := Prod.mk.inj h
          obtain ⟨rfl, -⟩ := Prod.mk.inj (Except.ok.inj hOk)
          obtain ⟨hSublist, hValues⟩ := ih hAll
          have hLater : ∀ adoption ∈ rest', ∀ value, adoption.prepared = some value →
              ∃ other ∈ { entry with draft } :: later, other.address = adoption.address ∧
                ∃ draft, other.draft = some draft ∧ draft.status = .prepared := by
            intro adoption hAdoption value hValue
            obtain ⟨other, hOther, hFound⟩ := hValues adoption hAdoption value hValue
            exact ⟨other, mem_cons_of_mem _ hOther, hFound⟩
          rcases stageEntry_adoption hStage with rfl | ⟨retires, rfl⟩
          · exact ⟨hSublist.cons _, hLater⟩
          · refine ⟨hSublist.cons_cons _, ?_⟩
            intro adoption hAdoption value hValue
            rcases mem_cons.mp hAdoption with rfl | hAdoption
            · obtain rfl : prepared = some value := hValue
              obtain ⟨now, hNow, hStatus⟩ := prepareDraft_value hDraft
              exact ⟨_, mem_cons_self, rfl, now, hNow, hStatus⟩
            · exact hLater adoption hAdoption value hValue

theorem Prepares.distinct (h : Prepares entries after) (hDistinct : Distinct entries) : Distinct after := by
  rw [Distinct, h.addresses]
  exact hDistinct

theorem Prepares.based (h : Prepares entries after) (hBased : Based docs entries) : Based docs after := by
  intro entry hEntry draft hDraft
  obtain ⟨before, hBefore, hAddress, old, hOld, hTracker, hFresh, -⟩ := h.drafts entry hEntry draft hDraft
  rw [hTracker, hFresh, ← hAddress]
  exact hBased before hBefore old hOld

theorem Prepares.unused (h : Prepares entries after) (hUnused : Unused entries) : Unused after := by
  intro entry hEntry draft hDraft hConsumed
  obtain ⟨before, hBefore, -, old, hOld, -, -, hStatus⟩ := h.drafts entry hEntry draft hDraft
  rw [hConsumed] at hStatus
  rcases hStatus with hStatus | hStatus | hStatus
  · cases hStatus
  · cases hStatus
  · exact hUnused before hBefore old hOld hStatus.symm

theorem Ready.of_prepareAll [DecidableEq S] (h : prepareAll slots docs writes entries = (after, .ok (adoptions, last)))
    (hDistinct : Distinct entries) (hBased : Based docs entries) : Ready docs after adoptions := by
  have hPrepares := prepareAll_prepares slots docs writes entries
  rw [h] at hPrepares
  obtain ⟨hSublist, hValues⟩ := prepareAll_adoptions h
  refine ⟨hSublist.nodup (hPrepares.distinct hDistinct), hPrepares.based hBased, ?_⟩
  intro adoption hAdoption value hValue
  obtain ⟨entry, hEntry, hAddress, draft, hDraft, hStatus⟩ := hValues adoption hAdoption value hValue
  refine ⟨entry, draft, ?_, hDraft, hStatus⟩
  rw [← hAddress]
  exact entryAt_of_mem (hPrepares.distinct hDistinct) hEntry

/-! The callback's entries. -/

variable [DecidableEq S]

theorem entryAt_eq_none : entryAt entries address = none ↔ address ∉ entries.map Entry.address := by
  rw [entryAt, find?_eq_none]
  simp

theorem mem_of_entryAt (h : entryAt entries address = some entry) : entry ∈ entries ∧ entry.address = address :=
  ⟨mem_of_find?_eq_some h, by simpa using find?_some h⟩

namespace World

theorem insertEntry_perm (entry : Entry S V) (entries : List (Entry S V)) :
    (insertEntry entry entries).Perm (entry :: entries) := by
  induction entries with
  | nil => exact Perm.refl _
  | cons other rest ih =>
    rw [insertEntry]
    split_ifs
    · exact Perm.swap _ _ _
    · exact (ih.cons other).trans (Perm.swap _ _ _)

theorem mem_setEntry {entry other : Entry S V}
    (h : other ∈ (w.setEntry entry).tx.entries) : other = entry ∨ other ∈ w.tx.entries := by
  simp only [setEntry] at h
  split_ifs at h
  · obtain ⟨before, hBefore, hOther⟩ := mem_map.mp h
    split_ifs at hOther
    · exact .inl hOther.symm
    · exact .inr (hOther ▸ hBefore)
  · exact mem_cons.mp ((insertEntry_perm entry w.tx.entries).mem_iff.mp h)

theorem distinct_setEntry (h : Distinct w.tx.entries) : Distinct (w.setEntry entry).tx.entries := by
  simp only [setEntry]
  split_ifs with hFound
  · have hSame : (w.tx.entries.map fun other =>
        if other.address = entry.address then entry else other).map Entry.address =
        w.tx.entries.map Entry.address := by
      rw [List.map_map]
      apply map_congr_left
      intro other _
      simp only [Function.comp_apply]
      split_ifs with hAddress
      · exact hAddress.symm
      · rfl
    rw [Distinct, hSame]
    exact h
  · rw [not_isSome_iff_eq_none, entryAt_eq_none] at hFound
    rw [Distinct, ((insertEntry_perm entry w.tx.entries).map Entry.address).nodup_iff, map_cons,
      nodup_cons]
    exact ⟨hFound, h⟩

theorem entry_address (w : World S V O R T D) (address : Address S) : (w.entry address).address = address := by
  rw [entry]
  cases hEntry : entryAt w.tx.entries address with
  | none => rfl
  | some entry => exact (mem_of_entryAt hEntry).2

theorem entry_draft {draft : Draft V} (h : (w.entry address).draft = some draft) :
    ∃ entry ∈ w.tx.entries, entry.address = address ∧ entry.draft = some draft := by
  rw [entry] at h
  cases hEntry : entryAt w.tx.entries address with
  | none =>
    rw [hEntry] at h
    cases h
  | some entry =>
    rw [hEntry] at h
    exact ⟨entry, (mem_of_entryAt hEntry).1, (mem_of_entryAt hEntry).2, h⟩

end World

/-! Where a transaction stands. -/

/-- The transaction holds the line, unsealed. -/
structure Holds (w : World S V O R T D) : Prop where
  holder : w.holder = true
  line : w.line = true
  unsealed : w.isSealed = false
  unfenced : w.fenced = false

/-- Nothing is adopted or committed. -/
structure Untouched (w : World S V O R T D) : Prop where
  published : w.published = []
  stepped : w.stepped = false

/-- The entries of a transaction that has its drafts open. -/
structure Drafted (w : World S V O R T D) : Prop where
  distinct : Distinct w.tx.entries
  based : Based w.docs w.tx.entries
  unused : Unused w.tx.entries

/-- A commit that was prepared and not adopted. -/
structure Prepared (w : World S V O R T D) : Prop where
  ready : Ready w.docs w.tx.entries w.adoptions
  unused : Unused w.tx.entries

/-- Where a transaction stands between two acts. -/
inductive Standing (w : World S V O R T D) : Prop where
  | opened (hCaller : w.caller = .running) (hTurn : w.turn = .absent) (hState : w.tx.state = .opened)
      (hHolds : Holds w) (hUntouched : Untouched w) (hTold : w.told = []) (hAdmitted : w.admitted = false)
      (hDrafted : Drafted w)
  | cutOpen (hCaller : w.caller = .running) (hTurn : w.turn = .absent) (hState : w.tx.state = .cut)
      (hUntouched : Untouched w) (hTold : w.told = []) (hAdmitted : w.admitted = false)
      (hDiscarded : Discarded w.tx.entries)
  | queued (hCaller : w.caller = .awaiting) (hTurn : w.turn = .queued w.adoptions)
      (hState : w.tx.state = .committing) (hHolds : Holds w) (hUntouched : Untouched w) (hTold : w.told = [])
      (hAdmitted : w.admitted = false) (hPrepared : Prepared w)
  | stepping (hCaller : w.caller = .awaiting)
      (hTurn : (w.turn = .running w.adoptions ∧ w.stepped = false) ∨
        ∃ ending, w.turn = .returned w.adoptions ending ∧
          (w.stepped = true ↔ ∃ written, ending = .committed written))
      (hState : w.tx.state = .stepping) (hLine : w.line = true) (hFenced : w.fenced = false)
      (hPublished : w.published = []) (hTold : w.told = []) (hPrepared : Prepared w)
  | done (hTurn : w.turn = .settled (.ok ())) (hFenced : w.fenced = false)
      (hCaller : (w.caller = .awaiting ∧ w.tx.state = .stepping) ∨
        (w.caller = .resolved (.ok ()) ∧ w.tx.state = .committed))
      (hPublished : w.published = batches w.adoptions w.tx.staged) (hStepped : w.stepped = true)
      (hTold : w.told = [])
  | lost (hCaller : w.caller = .awaiting ∨ ∃ rejection, w.caller = .resolved (.error rejection))
      (hTurn : (∃ adoptions, w.turn = .queued adoptions ∧ w.tx.state = .cut) ∨
        ∃ rejection, w.turn = .settled (.error rejection))
      (hState : (w.tx.state = .committing ∧ w.admitted = false ∧ w.fenced = false) ∨
        (w.tx.state = .stepping ∧ w.fenced = false) ∨
        (w.tx.state = .cut ∧ w.admitted = false ∧ Discarded w.tx.entries))
      (hFenced : w.fenced = true → ∀ rejection, w.caller = .resolved (.error rejection) →
        rejection = .released)
      (hUntouched : Untouched w) (hUnused : Unused w.tx.entries) (hTold : w.told = [])
  | kept (hCaller : w.caller = .finished (.ok ())) (hState : w.tx.state = .committed)
      (hTurn : w.turn = .absent ∨ (w.turn = .settled (.ok ()) ∧ w.stepped = true))
      (hFenced : w.fenced = false) (hPublished : w.published = batches w.adoptions w.tx.staged)
      (hTold : w.told = w.tx.staged.map fun owner => (owner, true))
  | dropped {rejection : Rejection} (hCaller : w.caller = .finished (.error rejection))
      (hTurn : w.turn = .absent ∨ (∃ adoptions, w.turn = .queued adoptions ∧ w.tx.state = .cut) ∨
        ∃ rejection, w.turn = .settled (.error rejection))
      (hState : w.tx.state = .discarded ∨ (w.tx.state = .cut ∧ w.admitted = false))
      (hFenced : w.fenced = true → w.admitted = false ∧
        (rejection = .released ∨ ∃ thrown, rejection = .callback thrown))
      (hUntouched : Untouched w) (hDiscarded : Discarded w.tx.entries)
      (hTold : w.told = w.tx.staged.map fun owner => (owner, false))

/-- The invariant of a transaction. -/
structure Inv (w : World S V O R T D) : Prop where
  staged : w.tx.staged.Nodup
  standing : Standing w

/-! The callback's acts. -/

theorem Drafted.setEntry (h : Drafted w)
    (hDraft : ∀ draft, entry.draft = some draft → draft.status ≠ .consumed ∧
      (draft.fresh = true ∨ w.docs entry.address = some draft.tracker)) : Drafted (w.setEntry entry) where
  distinct := World.distinct_setEntry h.distinct
  based other hOther draft hOtherDraft := by
    rcases World.mem_setEntry hOther with rfl | hOther
    · exact (hDraft draft hOtherDraft).2
    · exact h.based other hOther draft hOtherDraft
  unused other hOther draft hOtherDraft := by
    rcases World.mem_setEntry hOther with rfl | hOther
    · exact (hDraft draft hOtherDraft).1
    · exact h.unused other hOther draft hOtherDraft

theorem Drafted.draft (h : Drafted w) (initial : Address S → V)
    (address : Address S) (edits : Except Thrown (Option V)) : Drafted (w.draft initial address edits) := by
  have hAddress := w.entry_address address
  rw [World.draft]
  split
  next begun hBegun =>
    apply h.setEntry
    intro draft hDraft
    obtain rfl := some.inj hDraft
    obtain ⟨entry, hEntry, hSame, hFound⟩ := World.entry_draft hBegun
    refine ⟨h.unused entry hEntry begun hFound, ?_⟩
    rw [hAddress, ← hSame]
    exact h.based entry hEntry begun hFound
  next tracker _ hTracker =>
    apply h.setEntry
    intro draft hDraft
    obtain rfl := some.inj hDraft
    refine ⟨by simp, .inr ?_⟩
    split_ifs at hTracker
    rw [hAddress]
    exact hTracker
  next =>
    apply h.setEntry
    intro draft hDraft
    obtain rfl := some.inj hDraft
    exact ⟨by simp, .inl rfl⟩

theorem Drafted.retire (h : Drafted w) (address : Address S) (found : Bool) :
    Drafted (w.retire address found) :=
  h.setEntry fun _ hDraft => nomatch hDraft

theorem Standing.running (h : Standing w) (hCaller : w.caller = .running) :
    w.turn = .absent ∧ Untouched w ∧ w.told = [] ∧ w.admitted = false ∧
      ((w.tx.state = .opened ∧ Holds w ∧ Drafted w) ∨
        (w.tx.state = .cut ∧ Discarded w.tx.entries)) := by
  cases h with
  | opened _ hTurn hState hHolds hUntouched hTold hAdmitted hDrafted =>
    exact ⟨hTurn, hUntouched, hTold, hAdmitted, .inl ⟨hState, hHolds, hDrafted⟩⟩
  | cutOpen _ hTurn hState hUntouched hTold hAdmitted hDiscarded =>
    exact ⟨hTurn, hUntouched, hTold, hAdmitted, .inr ⟨hState, hDiscarded⟩⟩
  | queued hOther => exact nomatch hCaller.symm.trans hOther
  | stepping hOther => exact nomatch hCaller.symm.trans hOther
  | done _ _ hOther =>
    rcases hOther with ⟨hOther, -⟩ | ⟨hOther, -⟩ <;> exact nomatch hCaller.symm.trans hOther
  | lost hOther =>
    rcases hOther with hOther | ⟨_, hOther⟩ <;> exact nomatch hCaller.symm.trans hOther
  | kept hOther => exact nomatch hCaller.symm.trans hOther
  | dropped hOther => exact nomatch hCaller.symm.trans hOther

/-! The ends of a transaction. -/

/-- A rejection discards the transaction and tells its staged changes so. -/
theorem Standing.rejected {rejection : Rejection} (hUntouched : Untouched w)
    (hTold : w.told = [])
    (hTurn : w.turn = .absent ∨ (∃ adoptions, w.turn = .queued adoptions ∧ w.tx.state = .cut) ∨
      ∃ rejection, w.turn = .settled (.error rejection))
    (hEntries : (w.tx.state = .cut ∧ w.admitted = false ∧ Discarded w.tx.entries) ∨
      (w.tx.state ≠ .cut ∧ Unused w.tx.entries))
    (hFenced : w.fenced = true → w.admitted = false ∧
      (rejection = .released ∨ ∃ thrown, rejection = .callback thrown)) :
    Standing (w.finish (.error rejection)) := by
  rcases hEntries with ⟨hState, hAdmitted, hDiscarded⟩ | ⟨hState, hUnused⟩
  · have hDiscard : w.discard = w := by rw [World.discard, hState]
    rw [World.finish, hDiscard]
    apply Standing.dropped rfl
    · exact hTurn
    · exact .inr ⟨hState, hAdmitted⟩
    · exact hFenced
    · exact ⟨hUntouched.published, hUntouched.stepped⟩
    · exact hDiscarded
    · simp [World.settle, World.release, hTold, hState]
  · have hDiscard : w.discard =
        { w with tx := { w.tx with state := .discarded, entries := abortDrafts w.tx.entries } } := by
      rw [World.discard]
      cases hCase : w.tx.state with
      | cut => exact absurd hCase hState
      | _ => rfl
    rw [World.finish, hDiscard]
    apply Standing.dropped rfl
    · rcases hTurn with hTurn | ⟨_, _, hCut⟩ | hTurn
      · exact .inl hTurn
      · exact absurd hCut hState
      · exact .inr (.inr hTurn)
    · exact .inl rfl
    · exact hFenced
    · exact ⟨hUntouched.published, hUntouched.stepped⟩
    · exact hUnused.abortDrafts
    · simp [World.settle, World.release, hTold]

theorem Standing.accepted (hState : w.tx.state = .committed)
    (hTurn : w.turn = .absent ∨ (w.turn = .settled (.ok ()) ∧ w.stepped = true)) (hFenced : w.fenced = false)
    (hPublished : w.published = batches w.adoptions w.tx.staged) (hTold : w.told = []) : Standing (w.finish (.ok ())) := by
  have hFinished : (w.finish (.ok ())).told = w.tx.staged.map fun owner => (owner, true) := by
    simp [World.finish, World.settle, World.release, hTold, hState]
  exact .kept rfl hState hTurn hFenced hPublished hFinished

omit [DecidableEq S] in
@[simp] theorem staged_finish (w : World S V O R T D) (result : Except Rejection Unit) :
    (w.finish result).tx.staged = w.tx.staged := by
  cases result with
  | ok done => rfl
  | error rejection =>
    show (World.discard w).tx.staged = w.tx.staged
    rw [World.discard]
    split <;> rfl

theorem Ready.adopt (h : Ready w.docs w.tx.entries adoptions) :
    ∃ docs, w.adopt adoptions = ({ w with
      docs, published := w.published ++ batches adoptions w.tx.staged
      tx := { w.tx with entries := consume w.tx.entries } }, true) := by
  obtain ⟨docs, hDocs⟩ := h.adoptAll
  exact ⟨docs, by rw [World.adopt, hDocs]⟩

theorem Inv.callbackThrows (h : Inv w) (hCaller : w.caller = .running)
    (thrown : Thrown) : Inv (w.finish (.error (.callback thrown))) := by
  obtain ⟨hTurn, hUntouched, hTold, hAdmitted, hCases⟩ := h.standing.running hCaller
  refine ⟨by simpa using h.staged, Standing.rejected hUntouched hTold (.inl hTurn) ?_ ?_⟩
  · rcases hCases with ⟨hState, -, hDrafted⟩ | ⟨hState, hDiscarded⟩
    · exact .inr ⟨by simp [hState], hDrafted.unused⟩
    · exact .inl ⟨hState, hAdmitted, hDiscarded⟩
  · exact fun _ => ⟨hAdmitted, .inr ⟨thrown, rfl⟩⟩

theorem Inv.commitInMemory (h : Inv w) (hReady : Ready w.docs entries adoptions) (hTurn : w.turn = .absent) (hHolds : Holds w)
    (hUntouched : Untouched w) (hTold : w.told = []) (seals : Bool) :
    Inv (World.commitInMemory { w with tx := { w.tx with entries, state := .committing } } adoptions
      seals) := by
  obtain ⟨docs, hAdopt⟩ := Ready.adopt
    (w := { w with tx := { w.tx with entries, state := .committing } }) hReady
  rw [World.commitInMemory, hAdopt]
  refine ⟨by simpa using h.staged, Standing.accepted rfl (.inl hTurn) hHolds.unfenced ?_ hTold⟩
  simp [hUntouched.published]

theorem Inv.commitToStore (h : Inv w) (hReady : Ready w.docs entries adoptions) (hUnused : Unused entries) (hHolds : Holds w)
    (hUntouched : Untouched w) (hTold : w.told = []) (hAdmitted : w.admitted = false) (writes : List (StagedWrite R T D)) :
    Inv (World.commitToStore { w with tx := { w.tx with entries, state := .committing } } adoptions
      writes) := by
  refine ⟨h.staged, ?_⟩
  by_cases hOpen : w.store.state = .opened
  · refine .queued rfl (by simp [World.commitToStore, hOpen]) rfl ?_ ?_ hTold hAdmitted ⟨hReady, hUnused⟩
    · exact ⟨hHolds.holder, hHolds.line, hHolds.unsealed, hHolds.unfenced⟩
    · exact ⟨hUntouched.published, hUntouched.stepped⟩
  · refine .lost (.inl rfl) (.inr ⟨.storageFailed, by simp [World.commitToStore, hOpen]⟩)
      (.inl ⟨rfl, hAdmitted, hHolds.unfenced⟩) ?_ ⟨hUntouched.published, hUntouched.stepped⟩ hUnused hTold
    intro hFenced
    exact nomatch hHolds.unfenced.symm.trans hFenced

variable {w : World S V O R T D}

theorem Inv.commit (h : Inv w) (hCaller : w.caller = .running)
    (slots : Slots S V R T D) (seals : Bool) : Inv (w.commit slots seals) := by
  obtain ⟨hTurn, hUntouched, hTold, hAdmitted, hCases⟩ := h.standing.running hCaller
  rcases hCases with ⟨hState, hHolds, hDrafted⟩ | ⟨hState, hDiscarded⟩
  · have hUnfenced {result : Prop} : w.fenced = true → result := fun hFenced =>
      nomatch hHolds.unfenced.symm.trans hFenced
    have hReject (rejection : Rejection) : Standing (w.finish (.error rejection)) :=
      Standing.rejected hUntouched hTold (.inl hTurn) (.inr ⟨by simp [hState], hDrafted.unused⟩) hUnfenced
    rw [World.commit, if_neg (by simp [hState])]
    split_ifs
    · exact ⟨by simpa using h.staged, hReject .pending⟩
    · exact ⟨by simpa using h.staged, hReject .aborted⟩
    · have hPrepares := prepareAll_prepares slots w.docs w.tx.writes w.tx.entries
      split
      next entries thrown hAll =>
        rw [hAll] at hPrepares
        refine ⟨by simpa using h.staged, Standing.rejected ⟨hUntouched.published, hUntouched.stepped⟩
          hTold (.inl hTurn) (.inr ⟨by simp, hPrepares.unused hDrafted.unused⟩) hUnfenced⟩
      next entries adoptions hAll =>
        have hReady := Ready.of_prepareAll hAll hDrafted.distinct hDrafted.based
        exact h.commitInMemory hReady hTurn hHolds hUntouched hTold seals
      next entries adoptions writes hAll =>
        have hReady := Ready.of_prepareAll hAll hDrafted.distinct hDrafted.based
        rw [hAll] at hPrepares
        exact h.commitToStore hReady (hPrepares.unused hDrafted.unused) hHolds hUntouched hTold
          hAdmitted writes
  · have hRejection : w.notOpen = .released := by rw [World.notOpen, hState]
    rw [World.commit, if_pos (by simp [hState]), hRejection]
    exact ⟨by simpa using h.staged, Standing.rejected hUntouched hTold (.inl hTurn)
      (.inl ⟨hState, hAdmitted, hDiscarded⟩) fun _ => ⟨hAdmitted, .inl rfl⟩⟩

/-! The commit's turn in the store. -/

theorem World.enter_cut (hState : w.tx.state = .cut) (adoptions : List (Adoption S V)) :
    ∃ rejection, w.enter adoptions = { w with turn := .settled (.error rejection) } := by
  have hAdmits : w.admits = false := by simp [World.admits, hState]
  rw [World.enter, hAdmits]
  split_ifs with hClosed hFalse
  · exact ⟨_, rfl⟩
  · exact ⟨_, rfl⟩
  · exact absurd rfl hFalse
  · exact absurd rfl hFalse
  · exact absurd rfl hFalse

theorem Inv.enter (h : Inv w) (hTurn : w.turn = .queued adoptions) : Inv (w.enter adoptions) := by
  cases h.standing with
  | queued hCaller hQueued hState hHolds hUntouched hTold hAdmitted hPrepared =>
    obtain rfl := Turn.queued.inj (hTurn.symm.trans hQueued)
    have hAdmits : w.admits = true := by simp [World.admits, hState, hHolds.unsealed]
    have hUnfenced {result : Prop} : w.fenced = true → result := fun hFenced =>
      nomatch hHolds.unfenced.symm.trans hFenced
    have hUntouched' := hUntouched
    obtain ⟨hPublished, hStepped⟩ := hUntouched
    obtain ⟨docs, hAdopt⟩ := Ready.adopt (w := w.admitting) hPrepared.ready
    rw [World.enter, hAdmits]
    split_ifs with hClosed hFalse hEmpty hFull
    · exact ⟨h.staged, .lost (.inl hCaller) (.inr ⟨_, rfl⟩) (.inl ⟨hState, hAdmitted, hHolds.unfenced⟩)
        hUnfenced ⟨hPublished, hStepped⟩ hPrepared.unused hTold⟩
    · cases hFalse
    · rw [hAdopt]
      refine ⟨h.staged, .done rfl hHolds.unfenced (.inl ⟨hCaller, rfl⟩) ?_ rfl hTold⟩
      simp [World.admitting, hPublished]
    · exact ⟨h.staged, .lost (.inl hCaller) (.inr ⟨_, rfl⟩) (.inr (.inl ⟨rfl, hHolds.unfenced⟩))
        hUnfenced ⟨hPublished, hStepped⟩ hPrepared.unused hTold⟩
    · exact ⟨h.staged, .stepping hCaller (.inl ⟨rfl, hStepped⟩) rfl hHolds.line hHolds.unfenced
        hPublished hTold ⟨hPrepared.ready, hPrepared.unused⟩⟩
  | lost hCaller hQueued hState hFenced hUntouched hUnused hTold =>
    rcases hQueued with ⟨_, -, hCut⟩ | ⟨_, hOther⟩
    · obtain ⟨rejection, hEnter⟩ := World.enter_cut hCut adoptions
      rw [hEnter]
      exact ⟨h.staged, .lost hCaller (.inr ⟨rejection, rfl⟩) hState hFenced
        ⟨hUntouched.published, hUntouched.stepped⟩ hUnused hTold⟩
    · exact nomatch hTurn.symm.trans hOther
  | dropped hCaller hQueued hState hFenced hUntouched hDiscarded hTold =>
    rcases hQueued with hOther | ⟨_, -, hCut⟩ | ⟨_, hOther⟩
    · exact nomatch hTurn.symm.trans hOther
    · obtain ⟨rejection, hEnter⟩ := World.enter_cut hCut adoptions
      rw [hEnter]
      exact ⟨h.staged, .dropped hCaller (.inr (.inr ⟨rejection, rfl⟩)) hState hFenced
        ⟨hUntouched.published, hUntouched.stepped⟩ hDiscarded hTold⟩
    · exact nomatch hTurn.symm.trans hOther
  | opened _ hOther => exact nomatch hTurn.symm.trans hOther
  | cutOpen _ hOther => exact nomatch hTurn.symm.trans hOther
  | stepping _ hOther =>
    rcases hOther with ⟨hOther, -⟩ | ⟨_, hOther, -⟩ <;> exact nomatch hTurn.symm.trans hOther
  | done hOther => exact nomatch hTurn.symm.trans hOther
  | kept _ _ hOther =>
    rcases hOther with hOther | ⟨hOther, -⟩ <;> exact nomatch hTurn.symm.trans hOther

/-- Only a commit under way in the store has a transaction there. -/
theorem Standing.in_store (h : Standing w)
    (hTurn : (∃ adoptions, w.turn = .running adoptions) ∨
      ∃ adoptions ending, w.turn = .returned adoptions ending) :
    w.caller = .awaiting ∧ w.tx.state = .stepping ∧ w.line = true ∧ w.fenced = false ∧
      w.published = [] ∧ w.told = [] ∧ Prepared w ∧
      ((w.turn = .running w.adoptions ∧ w.stepped = false) ∨
        ∃ ending, w.turn = .returned w.adoptions ending ∧
          (w.stepped = true ↔ ∃ written, ending = .committed written)) := by
  have hElsewhere (hOther : w.turn = .absent ∨ (∃ adoptions, w.turn = .queued adoptions) ∨
      ∃ result, w.turn = .settled result) : False := by
    rcases hTurn with ⟨_, hTurn⟩ | ⟨_, _, hTurn⟩ <;>
      rcases hOther with hOther | ⟨_, hOther⟩ | ⟨_, hOther⟩ <;>
      exact nomatch hTurn.symm.trans hOther
  cases h with
  | stepping hCaller hStep hState hLine hFenced hPublished hTold hPrepared =>
    exact ⟨hCaller, hState, hLine, hFenced, hPublished, hTold, hPrepared, hStep⟩
  | opened _ hOther => exact (hElsewhere (.inl hOther)).elim
  | cutOpen _ hOther => exact (hElsewhere (.inl hOther)).elim
  | queued _ hOther => exact (hElsewhere (.inr (.inl ⟨_, hOther⟩))).elim
  | done hOther => exact (hElsewhere (.inr (.inr ⟨_, hOther⟩))).elim
  | lost _ hOther =>
    rcases hOther with ⟨_, hOther, -⟩ | ⟨_, hOther⟩
    · exact (hElsewhere (.inr (.inl ⟨_, hOther⟩))).elim
    · exact (hElsewhere (.inr (.inr ⟨_, hOther⟩))).elim
  | kept _ _ hOther =>
    rcases hOther with hOther | ⟨hOther, -⟩
    · exact (hElsewhere (.inl hOther)).elim
    · exact (hElsewhere (.inr (.inr ⟨_, hOther⟩))).elim
  | dropped _ hOther =>
    rcases hOther with hOther | ⟨_, hOther, -⟩ | ⟨_, hOther⟩
    · exact (hElsewhere (.inl hOther)).elim
    · exact (hElsewhere (.inr (.inl ⟨_, hOther⟩))).elim
    · exact (hElsewhere (.inr (.inr ⟨_, hOther⟩))).elim

theorem Inv.ran (h : Inv w) (hTurn : w.turn = .running adoptions) (ending : Ending (Written R T D))
    (db : ChordStore.Database R T D) (ids : ChordStore.Ids) :
    Inv { w with
      turn := .returned adoptions ending, store := { w.store with db, ids }
      stepped := isCommitted ending } := by
  obtain ⟨hCaller, hState, hLine, hFenced, hPublished, hTold, hPrepared, hStep⟩ :=
    h.standing.in_store (.inl ⟨adoptions, hTurn⟩)
  have hAdoptions : adoptions = w.adoptions := by
    rcases hStep with ⟨hSame, -⟩ | ⟨_, hOther, -⟩
    · exact Turn.running.inj (hTurn.symm.trans hSame)
    · exact nomatch hTurn.symm.trans hOther
  subst hAdoptions
  refine ⟨h.staged, .stepping hCaller (.inr ⟨ending, rfl, ?_⟩) hState hLine hFenced hPublished hTold
    ⟨hPrepared.ready, hPrepared.unused⟩⟩
  cases ending <;> simp [isCommitted]

theorem Inv.resume (h : Inv w) {adoptions : List (Adoption S V)}
    {ending : Ending (Written R T D)} (hTurn : w.turn = .returned adoptions ending) :
    Inv (w.resume adoptions ending) := by
  obtain ⟨hCaller, hState, hLine, hFenced, hPublished, hTold, hPrepared, hStep⟩ :=
    h.standing.in_store (.inr ⟨adoptions, ending, hTurn⟩)
  rcases hStep with ⟨hOther, -⟩ | ⟨_, hSame, hStepped⟩
  · exact nomatch hTurn.symm.trans hOther
  · obtain ⟨rfl, rfl⟩ := Turn.returned.inj (hTurn.symm.trans hSame)
    have hUnfenced {result : Prop} : w.fenced = true → result := fun hTrue =>
      nomatch hFenced.symm.trans hTrue
    cases ending with
    | committed written =>
      obtain ⟨docs, hAdopt⟩ := Ready.adopt
        (w := { w with store := w.store.afterStep written }) hPrepared.ready
      rw [World.resume, hAdopt]
      refine ⟨h.staged, .done rfl hFenced (.inl ⟨hCaller, hState⟩) ?_ (hStepped.mpr ⟨_, rfl⟩) hTold⟩
      simp [hPublished]
    | refused thrown =>
      have hNot : w.stepped = false := by
        rw [← Bool.not_eq_true, hStepped]
        simp
      exact ⟨h.staged, .lost (.inl hCaller) (.inr ⟨_, rfl⟩) (.inr (.inl ⟨hState, hFenced⟩)) hUnfenced
        ⟨hPublished, hNot⟩ hPrepared.unused hTold⟩
    | unknown fault =>
      have hNot : w.stepped = false := by
        rw [← Bool.not_eq_true, hStepped]
        simp
      exact ⟨h.staged, .lost (.inl hCaller) (.inr ⟨_, rfl⟩) (.inr (.inl ⟨hState, hFenced⟩)) hUnfenced
        ⟨hPublished, hNot⟩ hPrepared.unused hTold⟩

/-! The caller goes on. -/

theorem Inv.awaken (h : Inv w) (hCaller : w.caller = .awaiting) (hTurn : w.turn = .settled result) : Inv (w.awaken result) := by
  cases h.standing with
  | done hSettled hFenced hBoth hPublished hStepped hTold =>
    obtain rfl := Turn.settled.inj (hTurn.symm.trans hSettled)
    exact ⟨h.staged, .done hSettled hFenced (.inr ⟨rfl, rfl⟩) hPublished hStepped hTold⟩
  | lost _ hSettled hState hFenced hUntouched hUnused hTold =>
    rcases hSettled with ⟨_, hOther, -⟩ | ⟨rejection, hSettled⟩
    · exact nomatch hTurn.symm.trans hOther
    · obtain rfl := Turn.settled.inj (hTurn.symm.trans hSettled)
      refine ⟨h.staged, .lost (.inr ⟨_, rfl⟩) (.inr ⟨rejection, hSettled⟩) hState ?_
        ⟨hUntouched.published, hUntouched.stepped⟩ hUnused hTold⟩
      intro hTrue other hOther
      rw [← Except.error.inj (Caller.resolved.inj hOther)]
      rcases hState with ⟨-, -, hFalse⟩ | ⟨-, hFalse⟩ | ⟨hCut, -⟩
      · exact nomatch hFalse.symm.trans hTrue
      · exact nomatch hFalse.symm.trans hTrue
      · rw [if_pos hCut]
  | opened hOther => exact nomatch hCaller.symm.trans hOther
  | cutOpen hOther => exact nomatch hCaller.symm.trans hOther
  | queued _ hOther => exact nomatch hTurn.symm.trans hOther
  | stepping _ hOther =>
    rcases hOther with ⟨hOther, -⟩ | ⟨_, hOther, -⟩ <;> exact nomatch hTurn.symm.trans hOther
  | kept hOther => exact nomatch hCaller.symm.trans hOther
  | dropped hOther => exact nomatch hCaller.symm.trans hOther

theorem Inv.awakenCut (h : Inv w) (hCaller : w.caller = .awaiting)
    (hCut : w.tx.state = .cut) : Inv (w.awaken (.error .released)) := by
  cases h.standing with
  | lost _ hTurn hState _ hUntouched hUnused hTold =>
    refine ⟨h.staged, .lost (.inr ⟨_, rfl⟩) hTurn hState ?_
      ⟨hUntouched.published, hUntouched.stepped⟩ hUnused hTold⟩
    intro _ other hOther
    rw [← Except.error.inj (Caller.resolved.inj hOther), if_pos hCut]
  | opened hOther => exact nomatch hCaller.symm.trans hOther
  | cutOpen hOther => exact nomatch hCaller.symm.trans hOther
  | queued _ _ hOther => exact nomatch hCut.symm.trans hOther
  | stepping _ _ hOther => exact nomatch hCut.symm.trans hOther
  | done _ _ hOther =>
    rcases hOther with ⟨-, hOther⟩ | ⟨-, hOther⟩ <;> exact nomatch hCut.symm.trans hOther
  | kept hOther => exact nomatch hCaller.symm.trans hOther
  | dropped hOther => exact nomatch hCaller.symm.trans hOther

theorem Inv.finish (h : Inv w) (hCaller : w.caller = .resolved result) : Inv (w.finish result) := by
  refine ⟨by simpa using h.staged, ?_⟩
  cases h.standing with
  | done hTurn hFenced hBoth hPublished hStepped hTold =>
    rcases hBoth with ⟨hOther, -⟩ | ⟨hResolved, hState⟩
    · exact nomatch hCaller.symm.trans hOther
    · obtain rfl := Caller.resolved.inj (hCaller.symm.trans hResolved)
      exact .accepted hState (.inr ⟨hTurn, hStepped⟩) hFenced hPublished hTold
  | lost hBoth hTurn hState hFenced hUntouched hUnused hTold =>
    rcases hBoth with hOther | ⟨rejection, hResolved⟩
    · exact nomatch hCaller.symm.trans hOther
    · obtain rfl := Caller.resolved.inj (hCaller.symm.trans hResolved)
      refine .rejected hUntouched hTold (.inr hTurn) ?_ ?_
      · rcases hState with ⟨hState, -⟩ | ⟨hState, -⟩ | hCut
        · exact .inr ⟨by simp [hState], hUnused⟩
        · exact .inr ⟨by simp [hState], hUnused⟩
        · exact .inl hCut
      · intro hTrue
        refine ⟨?_, .inl (hFenced hTrue rejection hResolved)⟩
        rcases hState with ⟨-, -, hFalse⟩ | ⟨-, hFalse⟩ | ⟨-, hAdmitted, -⟩
        · exact nomatch hFalse.symm.trans hTrue
        · exact nomatch hFalse.symm.trans hTrue
        · exact hAdmitted
  | opened hOther => exact nomatch hCaller.symm.trans hOther
  | cutOpen hOther => exact nomatch hCaller.symm.trans hOther
  | queued hOther => exact nomatch hCaller.symm.trans hOther
  | stepping hOther => exact nomatch hCaller.symm.trans hOther
  | kept hOther => exact nomatch hCaller.symm.trans hOther
  | dropped hOther => exact nomatch hCaller.symm.trans hOther

/-! What happens around a transaction. -/

/-- A transaction that holds the line keeps its documents; one that is open, or
committing, keeps the line unless it is cut. -/
theorem Standing.around (h : Standing w) (docs : Address S → Option (Tracker V))
    (isSealed holder aborted : Bool) (store : Store R T D) (hDocs : w.line = true → docs = w.docs)
    (hHolds : w.tx.state = .opened ∨ w.tx.state = .committing → w.holder = true →
      isSealed = w.isSealed ∧ holder = w.holder) :
    Standing { w with docs, isSealed, holder, aborted, store } := by
  cases h with
  | opened hCaller hTurn hState hHolding hUntouched hTold hAdmitted hDrafted =>
    obtain ⟨rfl, rfl⟩ := hHolds (.inl hState) hHolding.holder
    obtain rfl := hDocs hHolding.line
    exact .opened hCaller hTurn hState { hHolding with } { hUntouched with } hTold hAdmitted
      { hDrafted with }
  | cutOpen hCaller hTurn hState hUntouched hTold hAdmitted hDiscarded =>
    exact .cutOpen hCaller hTurn hState { hUntouched with } hTold hAdmitted hDiscarded
  | queued hCaller hTurn hState hHolding hUntouched hTold hAdmitted hPrepared =>
    obtain ⟨rfl, rfl⟩ := hHolds (.inr hState) hHolding.holder
    obtain rfl := hDocs hHolding.line
    exact .queued hCaller hTurn hState { hHolding with } { hUntouched with } hTold hAdmitted
      { hPrepared with }
  | stepping hCaller hTurn hState hLine hFenced hPublished hTold hPrepared =>
    obtain rfl := hDocs hLine
    exact .stepping hCaller hTurn hState hLine hFenced hPublished hTold { hPrepared with }
  | done hTurn hFenced hCaller hPublished hStepped hTold =>
    exact .done hTurn hFenced hCaller hPublished hStepped hTold
  | lost hCaller hTurn hState hFenced hUntouched hUnused hTold =>
    exact .lost hCaller hTurn hState hFenced { hUntouched with } hUnused hTold
  | kept hCaller hState hTurn hFenced hPublished hTold =>
    exact .kept hCaller hState hTurn hFenced hPublished hTold
  | dropped hCaller hTurn hState hFenced hUntouched hDiscarded hTold =>
    exact .dropped hCaller hTurn hState hFenced { hUntouched with } hDiscarded hTold

omit [DecidableEq S] in
theorem World.fence_later (hOpen : w.tx.state ≠ .opened) (hCommitting : w.tx.state ≠ .committing) :
    w.fence = { w with isSealed := true, holder := false } := by
  rw [World.fence]
  split_ifs with hHolder
  · rw [World.cut]
    split
    next hState => exact absurd hState hOpen
    next hState => exact absurd hState hCommitting
    next => rfl
  · rw [Bool.not_eq_true] at hHolder
    rw [hHolder]

omit [DecidableEq S] in
theorem World.fence_cuts (hHolder : w.holder = true) (hState : w.tx.state = .opened ∨ w.tx.state = .committing) :
    w.fence = { w with
      isSealed := true, holder := false, line := false, fenced := w.fenced || w.unsettled
      tx := { w.tx with state := .cut, entries := abortDrafts w.tx.entries } } := by
  rw [World.fence, if_pos hHolder, World.cut]
  rcases hState with hState | hState <;> simp only [hState] <;> rfl

/-- A transaction that is cut before its admission is lost. -/
theorem Standing.cutting (h : Standing w) (hState : w.tx.state = .opened ∨ w.tx.state = .committing) :
    Standing { w with
      isSealed := true, holder := false, line := false, fenced := w.fenced || w.unsettled
      tx := { w.tx with state := .cut, entries := abortDrafts w.tx.entries } } := by
  have hNot {state : TransactionState} (hOther : w.tx.state = state)
      (hLater : state ≠ .opened ∧ state ≠ .committing) : False := by
    rcases hState with hState | hState
    · exact hLater.1 (hOther.symm.trans hState)
    · exact hLater.2 (hOther.symm.trans hState)
  cases h with
  | opened hCaller hTurn _ _ hUntouched hTold hAdmitted hDrafted =>
    exact .cutOpen hCaller hTurn rfl { hUntouched with } hTold hAdmitted hDrafted.unused.abortDrafts
  | queued hCaller hTurn _ _ hUntouched hTold hAdmitted hPrepared =>
    have hDiscarded := hPrepared.unused.abortDrafts
    refine .lost (.inl hCaller) (.inl ⟨_, hTurn, rfl⟩) (.inr (.inr ⟨rfl, hAdmitted, hDiscarded⟩)) ?_
      { hUntouched with } hDiscarded.unused hTold
    intro _ rejection hOther
    exact nomatch hCaller.symm.trans hOther
  | lost hCaller hTurn hStates hFenced hUntouched hUnused hTold =>
    have hDiscarded := hUnused.abortDrafts
    rcases hStates with ⟨hCommitting, hAdmitted, hFalse⟩ | ⟨hOther, -⟩ | ⟨hOther, -⟩
    · have hSettled : ∃ rejection, w.turn = .settled (.error rejection) := by
        rcases hTurn with ⟨_, -, hCut⟩ | hSettled
        · exact nomatch hCommitting.symm.trans hCut
        · exact hSettled
      refine .lost hCaller (.inr hSettled) (.inr (.inr ⟨rfl, hAdmitted, hDiscarded⟩)) ?_
        { hUntouched with } hDiscarded.unused hTold
      -- a commit that settled already is not cut before its admission
      intro hTrue rejection hResolved
      have hUnsettled : w.unsettled = false := by
        rw [World.unsettled, show w.caller = .resolved (.error rejection) from hResolved]
      simp [hFalse, hUnsettled] at hTrue
    · exact (hNot hOther (by simp)).elim
    · exact (hNot hOther (by simp)).elim
  | cutOpen _ _ hOther => exact (hNot hOther (by simp)).elim
  | stepping _ _ hOther => exact (hNot hOther (by simp)).elim
  | done _ _ hOther =>
    rcases hOther with ⟨-, hOther⟩ | ⟨-, hOther⟩ <;> exact (hNot hOther (by simp)).elim
  | kept _ hOther => exact (hNot hOther (by simp)).elim
  | dropped _ _ hOther =>
    rcases hOther with hOther | ⟨hOther, -⟩ <;> exact (hNot hOther (by simp)).elim

theorem Inv.fence (h : Inv w) : Inv w.fence := by
  by_cases hLater : w.tx.state ≠ .opened ∧ w.tx.state ≠ .committing
  · rw [World.fence_later hLater.1 hLater.2]
    refine ⟨h.staged, h.standing.around w.docs true false w.aborted w.store (fun _ => rfl) ?_⟩
    rintro (hState | hState)
    · exact absurd hState hLater.1
    · exact absurd hState hLater.2
  · have hState : w.tx.state = .opened ∨ w.tx.state = .committing := by
      rw [not_and_or, not_not, not_not] at hLater
      exact hLater
    cases hHolder : w.holder with
    | false =>
      rw [World.fence, if_neg (by simp [hHolder])]
      exact ⟨h.staged, h.standing.around w.docs true w.holder w.aborted w.store (fun _ => rfl)
        fun _ hTrue => nomatch hHolder.symm.trans hTrue⟩
    | true =>
      rw [World.fence_cuts hHolder hState]
      exact ⟨h.staged, h.standing.cutting hState⟩

theorem Standing.callback (h : Standing w) (hCaller : w.caller = .running)
    (hOpen : w.tx.state = .opened) {tx : Transaction S V O R T D} (hState : tx.state = .opened)
    (hDrafted : Drafted w → Drafted { w with tx }) : Standing { w with tx } := by
  obtain ⟨hTurn, hUntouched, hTold, hAdmitted, hCases⟩ := h.running hCaller
  rcases hCases with ⟨-, hHolds, hBegun⟩ | ⟨hCut, -⟩
  · exact .opened hCaller hTurn hState { hHolds with } { hUntouched with } hTold hAdmitted (hDrafted hBegun)
  · exact nomatch hOpen.symm.trans hCut

theorem World.draft_tx (w : World S V O R T D) (initial : Address S → V) (address : Address S)
    (edits : Except Thrown (Option V)) :
    ∃ entries, w.draft initial address edits = { w with tx := { w.tx with entries } } := by
  rw [World.draft]
  split <;> exact ⟨_, rfl⟩

variable {initial : Address S → V}

theorem Inv.act [DecidableEq O] {next : World S V O R T D} (h : Inv w) (acts : Acts slots initial w next) : Inv next := by
  cases acts with
  | draft hCaller hOpen address edits =>
    obtain ⟨entries, hDraft⟩ := w.draft_tx initial address edits
    rw [hDraft]
    refine ⟨h.staged, h.standing.callback hCaller hOpen hOpen fun hDrafted => ?_⟩
    rw [← hDraft]
    exact hDrafted.draft initial address edits
  | retire hCaller hOpen address found =>
    exact ⟨h.staged, h.standing.callback hCaller hOpen hOpen fun hDrafted =>
      hDrafted.retire address found⟩
  | stage hCaller hOpen owner =>
    rw [World.stage]
    split_ifs with hStaged
    · exact h
    · refine ⟨?_, h.standing.callback hCaller hOpen hOpen fun hDrafted => { hDrafted with }⟩
      rw [nodup_append]
      refine ⟨h.staged, nodup_singleton owner, ?_⟩
      intro one hOne other hOther hSame
      rw [mem_singleton.mp hOther] at hSame
      exact hStaged (hSame ▸ hOne)
  | write hCaller hOpen more =>
    exact ⟨h.staged, h.standing.callback hCaller hOpen hOpen fun hDrafted => { hDrafted with }⟩
  | pend hCaller pending =>
    obtain ⟨hTurn, hUntouched, hTold, hAdmitted, hCases⟩ := h.standing.running hCaller
    refine ⟨h.staged, ?_⟩
    rcases hCases with ⟨hState, hHolds, hDrafted⟩ | ⟨hState, hDiscarded⟩
    · exact .opened hCaller hTurn hState { hHolds with } { hUntouched with } hTold hAdmitted
        { hDrafted with }
    · exact .cutOpen hCaller hTurn hState { hUntouched with } hTold hAdmitted hDiscarded
  | throws hCaller thrown => exact h.callbackThrows hCaller thrown
  | returns hCaller seals => exact h.commit hCaller slots seals
  | enter hTurn => exact h.enter hTurn
  | run hTurn _ => exact h.ran hTurn _ _ _
  | resume hTurn => exact h.resume hTurn
  | awaken hCaller hTurn => exact h.awaken hCaller hTurn
  | awakenCut hCaller hCut => exact h.awakenCut hCaller hCut
  | finish hCaller => exact h.finish hCaller
  | fence => exact h.fence
  | abort =>
    exact ⟨h.staged, h.standing.around w.docs w.isSealed w.holder true w.store (fun _ => rfl)
      fun _ _ => ⟨rfl, rfl⟩⟩
  | storeChanges store =>
    exact ⟨h.staged, h.standing.around w.docs w.isSealed w.holder w.aborted store (fun _ => rfl)
      fun _ _ => ⟨rfl, rfl⟩⟩
  | documentsChange hLine docs =>
    exact ⟨h.staged, h.standing.around docs w.isSealed w.holder w.aborted w.store
      (fun hHeld => nomatch hLine.symm.trans hHeld) fun _ _ => ⟨rfl, rfl⟩⟩

theorem Inv.begun (docs : Address S → Option (Tracker V)) (store : Store R T D) :
    Inv (World.begun docs store : World S V O R T D) where
  staged := nodup_nil
  standing := .opened rfl rfl rfl ⟨rfl, rfl, rfl, rfl⟩ ⟨rfl, rfl⟩ rfl rfl
    ⟨nodup_nil, fun _ hMem => (nomatch hMem), fun _ hMem => (nomatch hMem)⟩

theorem Reachable.inv [DecidableEq O] (h : Reachable slots initial w) : Inv w := by
  induction h with
  | begun docs store => exact Inv.begun docs store
  | step _ acts ih => exact ih.act acts

/-- What a transaction promises at any moment.

* `kept`, `dropped`: a transaction that ended well adopted everything in one
  batch; one that was rejected adopted and committed nothing, and its drafts are
  discarded.
* `iff_stepped`: where the commit went through the store, a transaction that
  ended adopted its changes exactly if the store's step committed its writes.
* `after`: nothing is adopted before the store's step committed.
* `released`: cut, or its token sealed, before its admission, a transaction is
  never admitted, writes and adopts nothing, and its commit rejects `released`.
* `seal_later`: a seal after the admission changes nothing of the transaction.
* `told`: every staged change is told once how the transaction ended. -/
structure AllOrNothing (w : World S V O R T D) : Prop where
  kept : w.caller = .finished (.ok ()) →
    w.published = batches w.adoptions w.tx.staged ∧ w.tx.state = .committed
  dropped : ∀ rejection, w.caller = .finished (.error rejection) →
    w.published = [] ∧ w.stepped = false ∧ Discarded w.tx.entries
  iff_stepped : ∀ result, w.caller = .finished result → w.turn ≠ .absent →
    (w.stepped = true ↔ result = .ok ())
  after : w.published ≠ [] → w.turn ≠ .absent → w.stepped = true
  released : w.fenced = true → w.admitted = false ∧ w.stepped = false ∧ w.published = [] ∧
    ∀ result, w.caller = .finished result →
      result = .error .released ∨ ∃ thrown, result = .error (.callback thrown)
  seal_later : w.admitted = true → w.fence = { w with isSealed := true, holder := false }
  told : w.tx.staged.Nodup ∧ (∀ result, w.caller = .finished result →
      w.told = w.tx.staged.map fun owner => (owner, decide (w.tx.state = .committed))) ∧
    ((∀ result, w.caller ≠ .finished result) → w.told = [])

theorem Standing.finished (h : Standing w) (hCaller : w.caller = .finished result) :
    (result = .ok () ∧ w.tx.state = .committed ∧
        (w.turn = .absent ∨ (w.turn = .settled (.ok ()) ∧ w.stepped = true)) ∧ w.fenced = false ∧
        w.published = batches w.adoptions w.tx.staged ∧
        w.told = w.tx.staged.map fun owner => (owner, true)) ∨
      ∃ rejection, result = .error rejection ∧
        (w.tx.state = .discarded ∨ (w.tx.state = .cut ∧ w.admitted = false)) ∧
        (w.fenced = true → w.admitted = false ∧
          (rejection = .released ∨ ∃ thrown, rejection = .callback thrown)) ∧
        Untouched w ∧ Discarded w.tx.entries ∧
        w.told = w.tx.staged.map fun owner => (owner, false) := by
  cases h with
  | kept hOther hState hTurn hFenced hPublished hTold =>
    obtain rfl := Caller.finished.inj (hCaller.symm.trans hOther)
    exact .inl ⟨rfl, hState, hTurn, hFenced, hPublished, hTold⟩
  | dropped hOther _ hState hFenced hUntouched hDiscarded hTold =>
    obtain rfl := Caller.finished.inj (hCaller.symm.trans hOther)
    exact .inr ⟨_, rfl, hState, hFenced, hUntouched, hDiscarded, hTold⟩
  | opened hOther => exact nomatch hCaller.symm.trans hOther
  | cutOpen hOther => exact nomatch hCaller.symm.trans hOther
  | queued hOther => exact nomatch hCaller.symm.trans hOther
  | stepping hOther => exact nomatch hCaller.symm.trans hOther
  | done _ _ hOther =>
    rcases hOther with ⟨hOther, -⟩ | ⟨hOther, -⟩ <;> exact nomatch hCaller.symm.trans hOther
  | lost hOther =>
    rcases hOther with hOther | ⟨_, hOther⟩ <;> exact nomatch hCaller.symm.trans hOther

theorem Standing.adopted_after (h : Standing w) (hPublished : w.published ≠ [])
    (hTurn : w.turn ≠ .absent) : w.stepped = true := by
  cases h with
  | done _ _ _ _ hStepped => exact hStepped
  | kept _ _ hOther =>
    rcases hOther with hOther | ⟨-, hStepped⟩
    · exact absurd hOther hTurn
    · exact hStepped
  | stepping _ _ _ _ _ hNone => exact absurd hNone hPublished
  | opened _ _ _ _ hUntouched => exact absurd hUntouched.published hPublished
  | cutOpen _ _ _ hUntouched => exact absurd hUntouched.published hPublished
  | queued _ _ _ _ hUntouched => exact absurd hUntouched.published hPublished
  | lost _ _ _ _ hUntouched => exact absurd hUntouched.published hPublished
  | dropped _ _ _ _ hUntouched => exact absurd hUntouched.published hPublished

theorem Standing.fenced_out (h : Standing w) (hFenced : w.fenced = true) :
    w.admitted = false ∧ Untouched w := by
  cases h with
  | opened _ _ _ hHolds => exact nomatch hHolds.unfenced.symm.trans hFenced
  | cutOpen _ _ _ hUntouched _ hAdmitted => exact ⟨hAdmitted, hUntouched⟩
  | queued _ _ _ hHolds => exact nomatch hHolds.unfenced.symm.trans hFenced
  | stepping _ _ _ _ hFalse => exact nomatch hFalse.symm.trans hFenced
  | done _ hFalse => exact nomatch hFalse.symm.trans hFenced
  | lost _ _ hState _ hUntouched =>
    rcases hState with ⟨-, -, hFalse⟩ | ⟨-, hFalse⟩ | ⟨-, hAdmitted, -⟩
    · exact nomatch hFalse.symm.trans hFenced
    · exact nomatch hFalse.symm.trans hFenced
    · exact ⟨hAdmitted, hUntouched⟩
  | kept _ _ _ hFalse => exact nomatch hFalse.symm.trans hFenced
  | dropped _ _ _ hOut hUntouched => exact ⟨(hOut hFenced).1, hUntouched⟩

theorem Standing.admitted_later (h : Standing w) (hAdmitted : w.admitted = true) :
    w.tx.state ≠ .opened ∧ w.tx.state ≠ .committing := by
  cases h with
  | opened _ _ _ _ _ _ hFalse => exact nomatch hFalse.symm.trans hAdmitted
  | cutOpen _ _ hState => simp [hState]
  | queued _ _ _ _ _ _ hFalse => exact nomatch hFalse.symm.trans hAdmitted
  | stepping _ _ hState => simp [hState]
  | done _ _ hBoth =>
    rcases hBoth with ⟨-, hState⟩ | ⟨-, hState⟩ <;> simp [hState]
  | lost _ _ hState =>
    rcases hState with ⟨-, hFalse, -⟩ | ⟨hState, -⟩ | ⟨hState, -⟩
    · exact nomatch hFalse.symm.trans hAdmitted
    · simp [hState]
    · simp [hState]
  | kept _ hState => simp [hState]
  | dropped _ _ hState =>
    rcases hState with hState | ⟨hState, -⟩ <;> simp [hState]

theorem Standing.untold (h : Standing w) (hCaller : ∀ result, w.caller ≠ .finished result) : w.told = [] := by
  cases h with
  | opened _ _ _ _ _ hTold => exact hTold
  | cutOpen _ _ _ _ hTold => exact hTold
  | queued _ _ _ _ _ hTold => exact hTold
  | stepping _ _ _ _ _ _ hTold => exact hTold
  | done _ _ _ _ _ hTold => exact hTold
  | lost _ _ _ _ _ _ hTold => exact hTold
  | kept hOther => exact absurd hOther (hCaller _)
  | dropped hOther => exact absurd hOther (hCaller _)

def memorySlots : Slots String Nat Unit Unit Unit where
  persisted _ := false
  stage _ _ _ := .ok []

def counterAddress : Address String := ⟨"counter", "a"⟩

/-- A document that is absent, and one staged change with it. -/
def counterDrafted : World String Nat Nat Unit Unit Unit :=
  ((World.begun (fun _ => none) (ChordStore.openStore (ChordStore.newDatabase () false))).draft
    (fun _ => 0) counterAddress (.ok (some 1))).stage 7

theorem counterDrafted_reachable : Reachable memorySlots (fun _ => 0) counterDrafted :=
  .step (.step (.begun _ _) (.draft rfl rfl counterAddress _)) (.stage rfl rfl 7)

end OctoberHarness.Documents
