import OctoberHarness.Library.Positions
import OctoberHarness.Harness.InboxWrites

/-! What a boundary does: it places or settles the submissions of the items that it
selects, and takes exactly these out of the inbox. -/
namespace OctoberHarness.Inbox

open Function List

/-- A transaction with more changes of submissions, and new ids. -/
structure Changes (tx grown : Tx) (added : List (Nat × SubmissionChange)) : Prop where
  base : grown.base = tx.base
  submissions : grown.submissions = tx.submissions
  changes : grown.changes = tx.changes ++ added
  inboxes : grown.inboxes = tx.inboxes
  runs : grown.runs = tx.runs
  nextId : tx.nextId ≤ grown.nextId
  hasTableWrite : grown.hasTableWrite = false → tx.hasTableWrite = false ∧ added = []

theorem Changes.refl (tx : Tx) : Changes tx tx [] :=
  ⟨rfl, rfl, (append_nil _).symm, rfl, rfl, le_rfl, fun h => ⟨h, rfl⟩⟩

theorem Changes.trans {first second third : Tx} {one two : List (Nat × SubmissionChange)} (hFirst : Changes first second one)
    (hSecond : Changes second third two) : Changes first third (one ++ two) where
  base := hSecond.base.trans hFirst.base
  submissions := hSecond.submissions.trans hFirst.submissions
  changes := by rw [hSecond.changes, hFirst.changes, append_assoc]
  inboxes := hSecond.inboxes.trans hFirst.inboxes
  runs := hSecond.runs.trans hFirst.runs
  nextId := hFirst.nextId.trans hSecond.nextId
  hasTableWrite hQuiet := by
    obtain ⟨hMiddle, rfl⟩ := hSecond.hasTableWrite hQuiet
    obtain ⟨hStart, rfl⟩ := hFirst.hasTableWrite hMiddle
    exact ⟨hStart, rfl⟩

variable {added : List (Nat × SubmissionChange)}

theorem Changes.inbox {tx grown : Tx} (hChanges : Changes tx grown added) :
    grown.inbox = tx.inbox := by
  funext conversationId
  rw [Tx.inbox, Tx.inbox, hChanges.inboxes]

theorem Changes.run {tx grown : Tx} (hChanges : Changes tx grown added) :
    grown.run = tx.run := by
  funext conversationId
  rw [Tx.run, Tx.run, hChanges.runs]

theorem Changes.change (tx : Tx) (id : Nat) (change : SubmissionChange) :
    Changes tx (tx.changeSubmission id change) [(id, change)] :=
  ⟨rfl, rfl, rfl, rfl, rfl, le_rfl, fun h => by cases h⟩

section Writes

variable {start : List (Nat × SubmissionRecord)} {tx grown : Tx}

theorem Changes.appendEntry {conversationId entry : Nat} {draft : EntryDraft}
    (hAppend : tx.appendEntry conversationId draft = .ok (entry, grown)) : Changes tx grown [] := by
  rw [Tx.appendEntry, Outcome.bind_eq_ok] at hAppend
  obtain ⟨-, -, hGrown⟩ := hAppend
  obtain ⟨-, rfl⟩ := Prod.mk.inj (Except.ok.inj hGrown)
  exact ⟨rfl, rfl, (append_nil _).symm, rfl, rfl, Nat.le_succ _, fun h => by cases h⟩

theorem Changes.appendInput {conversationId entry now : Nat} {content : JsonValue} {input : Option InputEntry}
    (hAppend : appendInput tx conversationId content input now = .ok (entry, grown)) : Changes tx grown [] := by
  cases input with
  | none => exact Changes.appendEntry hAppend
  | some input => exact Changes.appendEntry hAppend

/-- How a write leaves the inbox. -/
def PlacedOrStale (change : SubmissionChange) : Prop :=
  (∃ entry, change = .placed entry) ∨ change = .settled (.unanswered (js "stale"))

variable {items : List InboxItem}

theorem placeWrites_spec {boundary last : Boundary} {first final : Option Nat}
    (hPlace : placeWrites boundary tx first items = .ok (last, grown, final)) :
    last.conversationId = boundary.conversationId ∧ ∃ changes, Changes tx grown changes ∧
      changes.map Prod.fst = (items.filter InboxItem.isWrite).map InboxItem.id ∧
      ∀ change ∈ changes, PlacedOrStale change.2 := by
  induction items generalizing boundary tx first with
  | nil =>
    rw [placeWrites, Except.ok.injEq, Prod.mk.injEq, Prod.mk.injEq] at hPlace
    obtain ⟨rfl, rfl, -⟩ := hPlace
    exact ⟨rfl, [], Changes.refl tx, rfl, by simp⟩
  | cons item rest ih =>
    rw [placeWrites] at hPlace
    cases hMode : item.mode with
    | steer content entry =>
      have hNot : item.isWrite = false := by simp [InboxItem.isWrite, hMode]
      simp only [hMode] at hPlace
      rw [filter_cons_of_neg (by simp [hNot])]
      exact ih hPlace
    | followUp content entry =>
      have hNot : item.isWrite = false := by simp [InboxItem.isWrite, hMode]
      simp only [hMode] at hPlace
      rw [filter_cons_of_neg (by simp [hNot])]
      exact ih hPlace
    | write draft =>
      have hWrite : item.isWrite = true := by simp [InboxItem.isWrite, hMode]
      simp only [hMode] at hPlace
      rw [filter_cons_of_pos hWrite]
      by_cases hStale : isStale boundary draft = true
      · rw [if_pos hStale] at hPlace
        obtain ⟨hSame, changes, hChanges, hIds, hAll⟩ := ih hPlace
        refine ⟨hSame, _, (Changes.change tx item.id _).trans hChanges, by rw [map_append, hIds]; rfl, ?_⟩
        intro change hChange
        rcases mem_append.mp hChange with hChange | hChange
        · rw [mem_singleton.mp hChange]
          exact Or.inr rfl
        · exact hAll change hChange
      · rw [if_neg hStale, Outcome.bind_eq_ok] at hPlace
        obtain ⟨⟨entry, next⟩, hAppend, hRest⟩ := hPlace
        obtain ⟨hSame, changes, hChanges, hIds, hAll⟩ := ih hRest
        refine ⟨?_, _, ((Changes.appendEntry hAppend).trans (Changes.change next item.id _)).trans hChanges,
          by rw [map_append, hIds]; rfl, ?_⟩
        · rw [hSame]
          split <;> rfl
        · intro change hChange
          rcases mem_append.mp hChange with hChange | hChange
          · rw [nil_append] at hChange
            rw [mem_singleton.mp hChange]
            exact Or.inl ⟨entry, rfl⟩
          · exact hAll change hChange

theorem placeUsers_spec {boundary : Boundary} {now : Nat} {first final : Option Nat}
    {placed users : List Nat} (hPlace : placeUsers boundary now tx first placed items = .ok (grown, final, users)) :
    ∃ changes, Changes tx grown changes ∧
      changes.map Prod.fst = (items.filter fun item => !item.isWrite).map InboxItem.id ∧
      users = placed ++ (items.filter fun item => !item.isWrite).map InboxItem.id ∧
      ∀ change ∈ changes, ∃ entry, change.2 = .placed entry := by
  induction items generalizing tx first placed with
  | nil =>
    rw [placeUsers, Except.ok.injEq, Prod.mk.injEq, Prod.mk.injEq] at hPlace
    obtain ⟨rfl, -, rfl⟩ := hPlace
    exact ⟨[], Changes.refl tx, rfl, (append_nil _).symm, by simp⟩
  | cons item rest ih =>
    rw [placeUsers] at hPlace
    -- both modes of user items are placed the same way
    have hUser : item.isWrite = false → (∃ content entry, (appendInput tx boundary.conversationId content entry now >>= fun
        result => placeUsers boundary now (result.2.placeSubmission item.id result.1) (first.or (some result.1))
          (placed ++ [item.id]) rest) = .ok (grown, final, users)) →
        ∃ changes, Changes tx grown changes ∧
          changes.map Prod.fst = ((item :: rest).filter fun item => !item.isWrite).map InboxItem.id ∧
          users = placed ++ ((item :: rest).filter fun item => !item.isWrite).map InboxItem.id ∧
          ∀ change ∈ changes, ∃ entry, change.2 = .placed entry := by
      rintro hNot ⟨content, input, hRun⟩
      rw [Outcome.bind_eq_ok] at hRun
      obtain ⟨⟨entry, next⟩, hAppend, hRest⟩ := hRun
      obtain ⟨changes, hChanges, hIds, hUsers, hAll⟩ := ih hRest
      rw [filter_cons_of_pos (by simp [hNot])]
      refine ⟨_, ((Changes.appendInput hAppend).trans (Changes.change next item.id _)).trans hChanges,
        by rw [map_append, hIds]; rfl, by rw [hUsers]; simp, fun change hChange => ?_⟩
      rcases mem_append.mp hChange with hChange | hChange
      · rw [nil_append] at hChange
        rw [mem_singleton.mp hChange]
        exact ⟨entry, rfl⟩
      · exact hAll change hChange
    cases hMode : item.mode with
    | steer content entry =>
      simp only [hMode] at hPlace
      exact hUser (by simp [InboxItem.isWrite, hMode]) ⟨content, entry, hPlace⟩
    | followUp content entry =>
      simp only [hMode] at hPlace
      exact hUser (by simp [InboxItem.isWrite, hMode]) ⟨content, entry, hPlace⟩
    | write draft =>
      simp only [hMode] at hPlace
      rw [filter_cons_of_neg (by simp [InboxItem.isWrite, hMode])]
      exact ih hPlace

end Writes

/-- The items that a boundary selects, the writes first. -/
def chosen (boundary : Boundary) (kind : BoundaryKind) (items : List InboxItem) : List InboxItem :=
  itemsAt items (selected boundary kind items).1 ++ itemsAt items (selected boundary kind items).2

theorem itemsAt_append (items : List InboxItem) (first second : List Nat) :
    itemsAt items (first ++ second) = itemsAt items first ++ itemsAt items second :=
  filterMap_append

section Selection

variable {items : List InboxItem} {boundary : Boundary} {kind : BoundaryKind}

theorem pick_sublist (items : List InboxItem) (mode : InboxItem → Bool) (queueMode : QueueMode) :
    (pick items mode queueMode).Sublist (positions items mode) := by
  rw [pick]
  split_ifs
  · exact Sublist.refl _
  · exact take_sublist 1 _

variable {index : Nat}

theorem mem_selected_users (hIndex : index ∈ (selected boundary kind items).2) :
    ∃ item, items[index]? = some item ∧ item.isWrite = false := by
  simp only [selected, mem_insertionSort, mem_append] at hIndex
  have hUser : ∃ item, items[index]? = some item ∧ (item.isSteer = true ∨ item.isFollowUp = true) := by
    rcases hIndex with hSteer | hFollowUp
    · obtain ⟨item, hAt, hMode⟩ := Positions.mem_filter_zipIdx.mp ((pick_sublist items _ _).subset hSteer)
      exact ⟨item, hAt, Or.inl hMode⟩
    · split_ifs at hFollowUp
      · obtain ⟨item, hAt, hMode⟩ := Positions.mem_filter_zipIdx.mp ((pick_sublist items _ _).subset hFollowUp)
        exact ⟨item, hAt, Or.inr hMode⟩
      · cases hFollowUp
  obtain ⟨item, hAt, hMode⟩ := hUser
  refine ⟨item, hAt, ?_⟩
  cases hItem : item.mode <;> simp_all [InboxItem.isWrite, InboxItem.isSteer, InboxItem.isFollowUp]

theorem mem_selected_writes (hIndex : index ∈ (selected boundary kind items).1) :
    ∃ item, items[index]? = some item ∧ item.isWrite = true :=
  Positions.mem_filter_zipIdx.mp hIndex

theorem nodup_selected (boundary : Boundary) (kind : BoundaryKind) (items : List InboxItem) :
    ((selected boundary kind items).1 ++ (selected boundary kind items).2).Nodup := by
  have hPositions : ∀ mode, (positions items mode).Nodup := fun mode =>
    (Positions.pairwise_filter_zipIdx items mode).imp ne_of_lt
  have hPick : ∀ mode queueMode, (pick items mode queueMode).Nodup := fun mode queueMode =>
    (hPositions mode).sublist (pick_sublist items mode queueMode)
  rw [nodup_append]
  refine ⟨hPositions _, ?_, fun write hWrite user hUser hSame => ?_⟩
  · refine (perm_insertionSort _ _).nodup_iff.mpr ?_
    rw [nodup_append]
    refine ⟨hPick _ _, ?_, fun steer hSteer followUp hFollowUp hSame => ?_⟩
    · split_ifs
      · exact hPick _ _
      · exact nodup_nil
    · obtain ⟨item, hAt, hMode⟩ := Positions.mem_filter_zipIdx.mp ((pick_sublist items _ _).subset hSteer)
      split_ifs at hFollowUp
      · obtain ⟨other, hOther, hKind⟩ := Positions.mem_filter_zipIdx.mp ((pick_sublist items _ _).subset hFollowUp)
        rw [← hSame, hAt] at hOther
        obtain rfl := Option.some.inj hOther
        cases hItem : item.mode <;> simp_all [InboxItem.isSteer, InboxItem.isFollowUp]
      · cases hFollowUp
  · obtain ⟨item, hAt, hMode⟩ := mem_selected_writes hWrite
    obtain ⟨other, hOther, hNot⟩ := mem_selected_users hUser
    rw [← hSame, hAt] at hOther
    obtain rfl := Option.some.inj hOther
    rw [hMode] at hNot
    cases hNot

theorem lt_length_of_selected
    (hIndex : index ∈ (selected boundary kind items).1 ++ (selected boundary kind items).2) : index < items.length := by
  rcases mem_append.mp hIndex with hIndex | hIndex
  · obtain ⟨item, hAt, -⟩ := mem_selected_writes hIndex
    exact (List.getElem?_eq_some_iff.mp hAt).1
  · obtain ⟨item, hAt, -⟩ := mem_selected_users hIndex
    exact (List.getElem?_eq_some_iff.mp hAt).1

theorem itemsAt_writes : ∀ item ∈ itemsAt items (selected boundary kind items).1, item.isWrite = true := by
  intro item hItem
  obtain ⟨index, hIndex, hAt⟩ := mem_filterMap.mp hItem
  obtain ⟨other, hOther, hWrite⟩ := mem_selected_writes hIndex
  rw [hAt] at hOther
  rwa [Option.some.inj hOther]

theorem itemsAt_users : ∀ item ∈ itemsAt items (selected boundary kind items).2, item.isWrite = false := by
  intro item hItem
  obtain ⟨index, hIndex, hAt⟩ := mem_filterMap.mp hItem
  obtain ⟨other, hOther, hUser⟩ := mem_selected_users hIndex
  rw [hAt] at hOther
  rwa [Option.some.inj hOther]

theorem chosen_subset {item : InboxItem} (hItem : item ∈ chosen boundary kind items) : item ∈ items := by
  rw [chosen, ← itemsAt_append] at hItem
  obtain ⟨index, -, hAt⟩ := mem_filterMap.mp hItem
  exact mem_of_getElem? hAt

theorem nodup_chosen (hOrdered : items.Pairwise fun first second => first.id < second.id) :
    ((chosen boundary kind items).map InboxItem.id).Nodup := by
  rw [chosen, ← itemsAt_append, Nodup, pairwise_map, itemsAt, pairwise_filterMap]
  refine (nodup_selected boundary kind items).imp fun {i j} hNe first hFirst second hSecond hSame => ?_
  obtain ⟨hI, rfl⟩ := List.getElem?_eq_some_iff.mp hFirst
  obtain ⟨hJ, rfl⟩ := List.getElem?_eq_some_iff.mp hSecond
  have hGet := pairwise_iff_getElem.mp hOrdered
  rcases Nat.lt_or_gt_of_ne hNe with hLess | hLess
  · exact absurd hSame (hGet i j hI hJ hLess).ne
  · exact absurd hSame (hGet j i hJ hI hLess).ne'

theorem selected_down (boundary : Boundary) (kind : BoundaryKind) (items : List InboxItem) :
    (((selected boundary kind items).1 ++ (selected boundary kind items).2).insertionSort (· ≥ ·)).Pairwise
      fun i j => j < i := by
  have hPerm := perm_insertionSort (· ≥ ·) ((selected boundary kind items).1 ++ (selected boundary kind items).2)
  have hNodup := hPerm.nodup_iff.mpr (nodup_selected boundary kind items)
  have hSorted := pairwise_insertionSort (· ≥ ·) ((selected boundary kind items).1 ++ (selected boundary kind items).2)
  exact (hSorted.and hNodup).imp fun ⟨hLe, hNe⟩ => lt_of_le_of_ne hLe hNe.symm

theorem removeAt_positions :
    removeAt items ((selected boundary kind items).1 ++ (selected boundary kind items).2) =
      (items.zipIdx.filter fun item =>
        decide (item.2 ∉ (selected boundary kind items).1 ++ (selected boundary kind items).2)).map Prod.fst := by
  have hPerm := perm_insertionSort (· ≥ ·) ((selected boundary kind items).1 ++ (selected boundary kind items).2)
  rw [removeAt, Positions.foldl_eraseIdx_zipIdx (selected_down boundary kind items)
    fun i hi => lt_length_of_selected (hPerm.mem_iff.mp hi)]
  congr 1
  refine filter_congr fun item _ => ?_
  rw [decide_eq_decide, hPerm.mem_iff]

theorem removeAt_selected (hOrdered : items.Pairwise fun first second => first.id < second.id) :
    removeAt items ((selected boundary kind items).1 ++ (selected boundary kind items).2) =
      items.filter fun item => decide (item.id ∉ (chosen boundary kind items).map InboxItem.id) := by
  have hPerm := perm_insertionSort (· ≥ ·) ((selected boundary kind items).1 ++ (selected boundary kind items).2)
  rw [removeAt, Positions.foldl_eraseIdx (hOrdered.imp fun h => h.ne) (selected_down boundary kind items)
    fun i hi => lt_length_of_selected (hPerm.mem_iff.mp hi)]
  refine filter_congr fun item _ => ?_
  have hSame : item.id ∈ ((((selected boundary kind items).1 ++ (selected boundary kind items).2).insertionSort
      (· ≥ ·)).filterMap fun i => items[i]?).map InboxItem.id ↔
      item.id ∈ (chosen boundary kind items).map InboxItem.id := by
    rw [chosen, ← itemsAt_append]
    exact ((hPerm.filterMap _).map _).mem_iff
  rw [decide_eq_decide, hSame]

end Selection

/-- The changes of a boundary: one for every selected item, and its items leave. -/
structure Applied (tx grown : Tx) (boundary : Boundary) (kind : BoundaryKind) (users : List Nat) (placed : Tx)
    (changes : List (Nat × SubmissionChange)) : Prop where
  grows : Changes tx placed changes
  submissions : changes.map Prod.fst = (chosen boundary kind (tx.inbox boundary.conversationId)).map InboxItem.id
  settled : ∀ change ∈ changes, PlacedOrStale change.2
  users : users = (itemsAt (tx.inbox boundary.conversationId)
    (selected boundary kind (tx.inbox boundary.conversationId)).2).map InboxItem.id
  inbox : grown = placed.setInbox boundary.conversationId (removeAt (tx.inbox boundary.conversationId)
    ((selected boundary kind (tx.inbox boundary.conversationId)).1 ++
      (selected boundary kind (tx.inbox boundary.conversationId)).2))

variable {tx : Tx}

theorem applyBoundary_spec {grown : Tx} {boundary : Boundary} {kind : BoundaryKind} {now : Nat} {result : BoundaryResult}
    (hApply : applyBoundary tx boundary kind now = .ok (result, grown)) :
    ∃ placed changes, Applied tx grown boundary kind result.users placed changes := by
  rw [applyBoundary, Outcome.bind_eq_ok] at hApply
  obtain ⟨⟨last, middle, first⟩, hWrites, hApply⟩ := hApply
  rw [Outcome.bind_eq_ok] at hApply
  obtain ⟨⟨placed, final, users⟩, hUsers, hApply⟩ := hApply
  obtain ⟨rfl, rfl⟩ := Prod.mk.inj (Except.ok.inj hApply)
  obtain ⟨hSame, one, hOne, hOneIds, hOneAll⟩ := placeWrites_spec hWrites
  obtain ⟨two, hTwo, hTwoIds, hUserIds, hTwoAll⟩ := placeUsers_spec hUsers
  rw [filter_eq_self.mpr itemsAt_writes] at hOneIds
  rw [filter_eq_self.mpr fun item hItem => by simp [itemsAt_users item hItem]] at hTwoIds hUserIds
  refine ⟨placed, one ++ two, hOne.trans hTwo, by rw [map_append, hOneIds, hTwoIds, chosen, map_append], ?_,
    hUserIds, ?_⟩
  · intro change hChange
    rcases mem_append.mp hChange with hChange | hChange
    · exact hOneAll change hChange
    · exact Or.inl (hTwoAll change hChange)
  · simp only [hSame]

/-- Changes of submissions, one after the other. -/
def changeAll (tx : Tx) (changes : List (Nat × SubmissionChange)) : Tx :=
  changes.foldl (fun tx change => tx.changeSubmission change.1 change.2) tx

theorem changeAll_spec (tx : Tx) (changes : List (Nat × SubmissionChange)) : Changes tx (changeAll tx changes) changes := by
  induction changes generalizing tx with
  | nil => exact Changes.refl tx
  | cons change rest ih => exact (Changes.change tx change.1 change.2).trans (ih (tx.changeSubmission change.1 change.2))

theorem Changes.same {grown other last : Tx} {changes : List (Nat × SubmissionChange)} (hGrown : Changes tx grown changes)
    (hLast : Changes other last changes) (hSame : SameSubmissions tx other) (hNext : grown.nextId ≤ last.nextId)
    (hWrite : last.hasTableWrite = false → grown.hasTableWrite = false) : SameSubmissions grown last where
  base := by rw [hLast.base, hSame.base, hGrown.base]
  submissions := by rw [hLast.submissions, hSame.submissions, hGrown.submissions]
  changes := by rw [hLast.changes, hSame.changes, hGrown.changes]
  nextId := hNext
  hasTableWrite := hWrite

theorem Placed.changeAll (changes : List (Nat × SubmissionChange)) {id : Nat} (hPlaced : Placed tx id) :
    Placed (changeAll tx changes) id := by
  induction changes generalizing tx with
  | nil => exact hPlaced
  | cons change rest ih => exact ih (hPlaced.change change.1 change.2)

theorem nextId_changeAll (tx : Tx) (changes : List (Nat × SubmissionChange)) : (changeAll tx changes).nextId = tx.nextId := by
  induction changes generalizing tx with
  | nil => rfl
  | cons change rest ih => exact ih (tx.changeSubmission change.1 change.2)

theorem hasTableWrite_changeAll (tx : Tx) (changes : List (Nat × SubmissionChange)) :
    (changeAll tx changes).hasTableWrite = (tx.hasTableWrite || !changes.isEmpty) := by
  induction changes generalizing tx with
  | nil => simp [changeAll]
  | cons change rest ih =>
    show (Inbox.changeAll (tx.changeSubmission change.1 change.2) rest).hasTableWrite = _
    rw [ih]
    simp [Tx.changeSubmission]

/-- Submissions change one after the other, and their items leave. -/
theorem Good.takeAll {start : List (Nat × SubmissionRecord)} {conversationId : Nat} (changes : List (Nat × SubmissionChange)) (hGood : Good start tx)
    (hItems : ∀ change ∈ changes, ∃ item ∈ tx.inbox conversationId, item.id = change.1)
    (hNodup : (changes.map Prod.fst).Nodup) :
    Good start ((changeAll tx changes).setInbox conversationId
        ((tx.inbox conversationId).filter fun item => decide (item.id ∉ changes.map Prod.fst))) ∧
      ∀ change ∈ changes, Placed (changeAll tx changes) change.1 := by
  induction changes generalizing tx with
  | nil =>
    refine ⟨hGood.frame ⟨rfl, rfl, rfl, le_rfl, id⟩ ?_ rfl, by simp⟩
    rw [inbox_setInbox]
    funext other
    rw [update_apply]
    split_ifs with hOther
    · simp [hOther]
    · rfl
  | cons change rest ih =>
    obtain ⟨item, hItem, hId⟩ := hItems change mem_cons_self
    rw [map_cons, nodup_cons] at hNodup
    have hTaken := hGood.take hItem change.2
    have hPlaced := hGood.placed_take hItem change.2
    rw [hId] at hTaken hPlaced
    -- the other items are still there
    have hRest : ∀ other ∈ rest, ∃ kept ∈ ((tx.changeSubmission change.1 change.2).setInbox conversationId
        ((tx.inbox conversationId).filter fun kept => decide (kept.id ≠ change.1))).inbox conversationId,
        kept.id = other.1 := by
      intro other hOther
      obtain ⟨kept, hKept, hKeptId⟩ := hItems other (mem_cons_of_mem _ hOther)
      refine ⟨kept, ?_, hKeptId⟩
      rw [inbox_setInbox, update_self, mem_filter, decide_eq_true_eq]
      refine ⟨hKept, fun hSame => hNodup.1 ?_⟩
      rw [← hSame, hKeptId]
      exact mem_map.mpr ⟨other, hOther, rfl⟩
    obtain ⟨hDone, hAll⟩ := ih hTaken hRest hNodup.2
    have hSame : SameSubmissions (changeAll ((tx.changeSubmission change.1 change.2).setInbox conversationId
        ((tx.inbox conversationId).filter fun kept => decide (kept.id ≠ change.1))) rest)
        (changeAll tx (change :: rest)) := by
      refine (changeAll_spec _ rest).same (changeAll_spec (tx.changeSubmission change.1 change.2) rest)
        ⟨rfl, rfl, rfl, le_rfl, id⟩ ?_ ?_
      · rw [nextId_changeAll, nextId_changeAll]
        exact le_rfl
      · rw [hasTableWrite_changeAll]
        intro hQuiet
        simp at hQuiet
    have hFirst := changeAll_spec ((tx.changeSubmission change.1 change.2).setInbox conversationId
      ((tx.inbox conversationId).filter fun kept => decide (kept.id ≠ change.1))) rest
    have hSecond := changeAll_spec tx (change :: rest)
    refine ⟨hDone.frame ⟨hSame.base, hSame.submissions, hSame.changes, hSame.nextId, hSame.hasTableWrite⟩ ?_ ?_, ?_⟩
    · rw [inbox_setInbox, inbox_setInbox, hFirst.inbox, hSecond.inbox, inbox_setInbox, update_idem,
        update_self, filter_filter]
      congr 1
      refine filter_congr fun kept _ => ?_
      rw [← Bool.decide_and, decide_eq_decide, map_cons, mem_cons, not_or, and_comm]
    · show (changeAll tx (change :: rest)).run = (changeAll _ rest).run
      rw [hFirst.run, hSecond.run]
      rfl
    · intro other hOther
      rcases mem_cons.mp hOther with rfl | hOther
      · exact hPlaced.changeAll rest
      · exact (hAll other hOther).same hSame

section Boundaries

variable {start : List (Nat × SubmissionRecord)} {tx grown : Tx} {changes : List (Nat × SubmissionChange)}

theorem Changes.sameAll (hChanges : Changes tx grown changes) : SameSubmissions (changeAll tx changes) grown := by
  apply (changeAll_spec tx changes).same hChanges (SameSubmissions.refl tx)
  · rw [nextId_changeAll]
    exact hChanges.nextId
  · intro hQuiet
    obtain ⟨hStart, rfl⟩ := hChanges.hasTableWrite hQuiet
    exact hStart

theorem at_changeAll {before : Tx} {after : Nat → Option SubmissionRecord} (hAt : (changeAll before changes).At after) :
    ∃ view, before.At view ∧ (∀ id, id ∉ changes.map Prod.fst → after id = view id) ∧
      ∀ id ∈ changes.map Prod.fst, ∃ record, after id = some record ∧ record.status ≠ .queued := by
  induction changes generalizing before with
  | nil => exact ⟨after, hAt, fun _ _ => rfl, by simp⟩
  | cons change rest ih =>
    obtain ⟨middle, hMiddle, hOther, hRest⟩ := ih hAt
    obtain ⟨view, record, next, hView, -, hNext, rfl⟩ := hMiddle.of_change
    refine ⟨view, hView, fun id hId => ?_, fun id hId => ?_⟩
    · rw [map_cons, mem_cons, not_or] at hId
      rw [hOther id hId.2, update_of_ne hId.1]
    · by_cases hIn : id ∈ rest.map Prod.fst
      · exact hRest id hIn
      · have hFirst : id = change.1 := (mem_cons.mp hId).resolve_right hIn
        rw [hOther id hIn, hFirst, update_self]
        exact ⟨next, rfl, (applySubmissionChange_spec hNext).2.2⟩

theorem Placed.grow (hChanges : Changes tx grown changes) {id : Nat} (hPlaced : Placed tx id) : Placed grown id :=
  (hPlaced.changeAll changes).same hChanges.sameAll

theorem Good.takeChanges (hGood : Good start tx) (hChanges : Changes tx grown changes) {conversationId : Nat}
    (hItems : ∀ change ∈ changes, ∃ item ∈ tx.inbox conversationId, item.id = change.1)
    (hNodup : (changes.map Prod.fst).Nodup) :
    Good start (grown.setInbox conversationId
        ((tx.inbox conversationId).filter fun item => decide (item.id ∉ changes.map Prod.fst))) ∧
      ∀ change ∈ changes, Placed grown change.1 := by
  obtain ⟨hDone, hAll⟩ := hGood.takeAll changes hItems hNodup
  have hSame := hChanges.sameAll
  have hGrown : SameSubmissions ((changeAll tx changes).setInbox conversationId
      ((tx.inbox conversationId).filter fun item => decide (item.id ∉ changes.map Prod.fst)))
      (grown.setInbox conversationId
        ((tx.inbox conversationId).filter fun item => decide (item.id ∉ changes.map Prod.fst))) :=
    ⟨hSame.base, hSame.submissions, hSame.changes, hSame.nextId, hSame.hasTableWrite⟩
  constructor
  · apply hDone.frame hGrown
    · rw [inbox_setInbox, inbox_setInbox, hChanges.inbox, (changeAll_spec tx changes).inbox]
    · show grown.run = (changeAll tx changes).run
      rw [hChanges.run, (changeAll_spec tx changes).run]
  · intro change hChange
    exact (hAll change hChange).same hSame

variable {boundary : Boundary} {kind : BoundaryKind} {now : Nat} {result : BoundaryResult}

theorem Good.applyBoundary (hGood : Good start tx) (hApply : Inbox.applyBoundary tx boundary kind now = .ok (result, grown)) :
    Good start grown ∧ ∀ id ∈ result.users, Placed grown id := by
  have hOrdered := hGood.bounded.ordered boundary.conversationId
  obtain ⟨placed, changes, hApplied⟩ := applyBoundary_spec hApply
  have hItems : ∀ change ∈ changes, ∃ item ∈ tx.inbox boundary.conversationId, item.id = change.1 := by
    intro change hChange
    have hMem : change.1 ∈ changes.map Prod.fst := mem_map_of_mem hChange
    rw [hApplied.submissions] at hMem
    obtain ⟨item, hItem, hId⟩ := mem_map.mp hMem
    exact ⟨item, chosen_subset hItem, hId⟩
  have hNodup : (changes.map Prod.fst).Nodup := by
    rw [hApplied.submissions]
    exact nodup_chosen hOrdered
  obtain ⟨hDone, hAll⟩ := hGood.takeChanges hApplied.grows hItems hNodup
  rw [hApplied.inbox, removeAt_selected hOrdered]
  constructor
  · rw [hApplied.submissions] at hDone
    exact hDone
  · intro id hId
    rw [hApplied.users] at hId
    have hChosen : id ∈ changes.map Prod.fst := by
      rw [hApplied.submissions, chosen, map_append]
      exact mem_append_right _ hId
    obtain ⟨change, hChange, rfl⟩ := mem_map.mp hChosen
    exact (hAll change hChange).same (SameSubmissions.setInbox ..)

theorem Placed.applyBoundary (hApply : Inbox.applyBoundary tx boundary kind now = .ok (result, grown)) {id : Nat} (hPlaced : Placed tx id) :
    Placed grown id := by
  obtain ⟨placed, changes, hApplied⟩ := applyBoundary_spec hApply
  rw [hApplied.inbox]
  exact (hPlaced.grow hApplied.grows).same (SameSubmissions.setInbox ..)

end Boundaries

end OctoberHarness.Inbox
