import OctoberHarness.Library.Outcome
import OctoberHarness.Storage.Checks

/-! The checks of the document actions of a commit: the in-memory storage resolves
the copies of a batch before it collects the actions, the tables after they are
checked, and both count what is alive at every address. -/
namespace OctoberHarness.Storage

open View List Option OrderedMap

/-! Collected actions. -/

/-- The actions of a batch, against its writes. -/
structure Collected (writes : List Write) (actions : Sqlite.DocumentActions) : Prop where
  distinct : (actions.map Prod.fst).Nodup
  changed : ∀ id, actions.lookup id ≠ none ↔ id ∈ writes.filterMap Memory.documentOf
  created : ∀ id action record, actions.lookup id = some action → action.create = some record →
    record.id = id ∧ id ∈ createdBy writes
  copied : ∀ id action source, actions.lookup id = some action → action.copy = some source →
    action.content = none ∧ ∃ record, action.create = some record ∧ Write.documentCopy record source ∈ writes
  copies : ∀ record source, Write.documentCopy record source ∈ writes →
    ∃ action, actions.lookup record.id = some action ∧ action.create = some record ∧ action.copy = some source

/-- An action follows another one of its document. -/
structure Follows (write : Write) (id : Nat) (old action : Sqlite.DocumentAction) : Prop where
  document : Memory.documentOf write = some id
  created : ∀ record, action.create = some record →
    old.create = some record ∨ record.id = id ∧ id ∈ createdBy [write]
  copied : ∀ source, action.copy = some source → action.content = none ∧ ∃ record, action.create = some record ∧
    (write = .documentCopy record source ∨ old.copy = some source ∧ old.create = some record)
  copies : ∀ record source, write = .documentCopy record source →
    record.id = id ∧ action.create = some record ∧ action.copy = some source
  keeps : ∀ record source, old.create = some record → old.copy = some source →
    action.create = some record ∧ action.copy = some source

theorem createdBy_append (first second : List Write) :
    createdBy (first ++ second) = createdBy first ++ createdBy second :=
  filterMap_append

variable {actions : Sqlite.DocumentActions} {writes : List Write}

theorem Collected.of_getD {id : Nat} {record : DocumentCreate} (h : ((actions.lookup id).getD {}).create = some record) :
    actions.lookup id = some ((actions.lookup id).getD {}) := by
  cases hLookup : actions.lookup id with
  | none =>
    rw [hLookup] at h
    exact absurd h (by simp)
  | some action => rfl

variable {done : List Write} {write : Write}

theorem Collected.set (h : Collected done actions)
    {id : Nat} {action : Sqlite.DocumentAction} (hFollows : Follows write id ((actions.lookup id).getD {}) action) :
    Collected (done ++ [write]) (set actions id action) := by
  refine ⟨nodup_keys_set _ _ _ h.distinct, fun other => ?_, fun other found record hFound hCreate => ?_,
    fun other found source hFound hCopy => ?_, fun record source hMem => ?_⟩
  · rw [lookup_set, filterMap_append, mem_append, ← h.changed]
    have hOwn : other ∈ [write].filterMap Memory.documentOf ↔ other = id := by
      simp [hFollows.document, eq_comm]
    rw [hOwn]
    split_ifs with hOther <;> simp [hOther]
  · rw [createdBy_append, mem_append]
    rw [lookup_set] at hFound
    split_ifs at hFound with hOther
    · obtain rfl := some.inj hFound
      rcases hFollows.created record hCreate with hOld | hNew
      · obtain ⟨hId, hMem⟩ := h.created id _ record (Collected.of_getD hOld) hOld
        exact ⟨hId.trans hOther.symm, Or.inl (hOther ▸ hMem)⟩
      · exact ⟨hNew.1.trans hOther.symm, Or.inr (hOther ▸ hNew.2)⟩
    · obtain ⟨hId, hMem⟩ := h.created other found record hFound hCreate
      exact ⟨hId, Or.inl hMem⟩
  · rw [lookup_set] at hFound
    split_ifs at hFound with hOther
    · obtain rfl := some.inj hFound
      obtain ⟨hContent, record, hCreate, hSource⟩ := hFollows.copied source hCopy
      refine ⟨hContent, record, hCreate, mem_append.mpr ?_⟩
      rcases hSource with hWrite | ⟨hOldCopy, hOldCreate⟩
      · exact Or.inr (mem_singleton.mpr hWrite.symm)
      · obtain ⟨-, found, hFound, hMem⟩ := h.copied id _ source (Collected.of_getD hOldCreate) hOldCopy
        rw [hOldCreate] at hFound
        exact Or.inl (some.inj hFound ▸ hMem)
    · obtain ⟨hContent, record, hCreate, hMem⟩ := h.copied other found source hFound hCopy
      exact ⟨hContent, record, hCreate, mem_append_left _ hMem⟩
  · rw [lookup_set]
    rcases mem_append.mp hMem with hBefore | hNow
    · obtain ⟨found, hFound, hCreate, hCopy⟩ := h.copies record source hBefore
      split_ifs with hOther
      · have hOld : (actions.lookup id).getD {} = found := by rw [← hOther, hFound]; rfl
        exact ⟨action, rfl, hFollows.keeps record source (hOld ▸ hCreate) (hOld ▸ hCopy)⟩
      · exact ⟨found, hFound, hCreate, hCopy⟩
    · obtain ⟨hId, hCreate, hCopy⟩ := hFollows.copies record source (mem_singleton.mp hNow).symm
      rw [if_pos hId]
      exact ⟨action, rfl, hCreate, hCopy⟩

theorem Collected.skip (h : Collected done actions)
    (hDocument : Memory.documentOf write = none) : Collected (done ++ [write]) actions := by
  have hCopy : ∀ record source, write ≠ .documentCopy record source := by
    rintro record source rfl
    exact some_ne_none _ hDocument
  refine ⟨h.distinct, fun id => ?_, fun id action record hFound hCreate => ?_,
    fun id action source hFound hSource => ?_, fun record source hMem => ?_⟩
  · rw [h.changed, filterMap_append, mem_append]
    simp [hDocument]
  · obtain ⟨hId, hMem⟩ := h.created id action record hFound hCreate
    rw [createdBy_append]
    exact ⟨hId, mem_append_left _ hMem⟩
  · obtain ⟨hContent, record, hCreate, hMem⟩ := h.copied id action source hFound hSource
    exact ⟨hContent, record, hCreate, mem_append_left _ hMem⟩
  · rcases mem_append.mp hMem with hBefore | hNow
    · exact h.copies record source hBefore
    · exact absurd (mem_singleton.mp hNow).symm (hCopy record source)

theorem Collected.step {actions next : Sqlite.DocumentActions} (h : Collected done actions) (hStep : Sqlite.prepareAction actions write = .ok next) : Collected (done ++ [write]) next := by
  cases write with
  | conversation value => exact Except.ok.inj hStep ▸ h.skip rfl
  | entry value => exact Except.ok.inj hStep ▸ h.skip rfl
  | task value => exact Except.ok.inj hStep ▸ h.skip rfl
  | submission value => exact Except.ok.inj hStep ▸ h.skip rfl
  | documentCreate record version value =>
    simp only [Sqlite.prepareAction] at hStep
    split_ifs at hStep with hTwo
    rw [← Except.ok.inj hStep]
    simp only [not_or, not_isSome_iff_eq_none] at hTwo
    obtain ⟨hCreate, hContent, hCopy⟩ := hTwo
    exact h.set ⟨rfl, fun found hFound => Or.inr (by simp_all [createdBy]), fun source hSource => by simp_all,
      fun _ _ hWrite => by simp at hWrite, fun _ _ hOld => by simp_all⟩
  | documentCopy record source =>
    simp only [Sqlite.prepareAction] at hStep
    split_ifs at hStep with hTwo
    rw [← Except.ok.inj hStep]
    simp only [not_or, not_isSome_iff_eq_none] at hTwo
    obtain ⟨hCreate, hContent, hCopy⟩ := hTwo
    exact h.set ⟨rfl, fun found hFound => Or.inr (by simp_all [createdBy]),
      fun found hFound => ⟨hContent, record, rfl, Or.inl (by simp_all)⟩,
      fun _ _ hWrite => by simp_all, fun _ _ hOld => by simp_all⟩
  | documentChange id content =>
    simp only [Sqlite.prepareAction] at hStep
    split_ifs at hStep with hTwo
    rw [← Except.ok.inj hStep]
    simp only [not_or, not_isSome_iff_eq_none] at hTwo
    obtain ⟨hContent, hCopy⟩ := hTwo
    exact h.set ⟨rfl, fun record hRecord => Or.inl hRecord, fun source hSource => by simp_all,
      fun _ _ hWrite => by simp at hWrite, fun _ _ hOld hOldCopy => ⟨hOld, hOldCopy⟩⟩
  | documentRetire id =>
    simp only [Sqlite.prepareAction] at hStep
    split_ifs at hStep with hTwo
    rw [← Except.ok.inj hStep]
    refine h.set ⟨rfl, fun record hRecord => Or.inl hRecord, fun source hSource => ?_,
      fun _ _ hWrite => by simp at hWrite, fun _ _ hOld hOldCopy => ⟨hOld, hOldCopy⟩⟩
    cases hLookup : actions.lookup id with
    | none =>
      rw [hLookup] at hSource
      exact absurd hSource (by simp)
    | some old =>
      rw [hLookup] at hSource
      obtain ⟨hContent, record, hCreate, -⟩ := h.copied id old source hLookup hSource
      exact ⟨hContent, record, hCreate, Or.inr ⟨hSource, hCreate⟩⟩

theorem Collected.of_prepare (h : Sqlite.prepareDocumentActions writes = .ok actions) : Collected writes actions := by
  have hStart : Collected [] [] := by
    refine ⟨nodup_nil, fun id => by simp, ?_, ?_, ?_⟩ <;> simp
  exact Outcome.foldlM_invariant Collected (fun done state write next hInv hStep => hInv.step hStep) hStart h

theorem Collected.lookup (h : Collected writes actions)
    {entry : Nat × Sqlite.DocumentAction} (hMem : entry ∈ actions) : actions.lookup entry.1 = some entry.2 :=
  (lookup_eq_some_iff h.distinct _ _).mpr hMem

/-- What a copy of a batch copies. -/
def copied (d : Sqlite) (source : DocumentCopySource) : Nat × JsonValue :=
  match d.materializeDocument source.id source.point with
  | .ok (some stored) => (stored.version, stored.value)
  | _ => (0, .null)

/-- A document that can be copied to a new record. -/
def Copyable (d : Sqlite) (record : DocumentCreate) (source : DocumentCopySource) : Prop :=
  ∃ stored, d.materializeDocument source.id source.point = .ok (some stored) ∧
    Memory.copyMatches stored.record record = true

theorem Mirror.materialize {m : Memory} {d : Sqlite} (h : Mirror m d) (hKept : d.Kept)
    (hSeq : d.nextSeq ≤ MAX_SAFE_INTEGER + 1) (id : Nat) (point : DocumentPoint) :
    m.materializeDocument id point = d.materializeDocument id point := by
  rw [Memory.materializeDocument_eq h, Sqlite.materializeDocument_eq hKept.revisions hSeq]

section Copies

variable {m : Memory} {d : Sqlite} (hSame : ∀ id point, m.materializeDocument id point = d.materializeDocument id point)

include hSame

theorem Memory.resolveCopy_copy {changed : List Nat} {record : DocumentCreate} {source : DocumentCopySource}
    {write : Write} : m.resolveCopy changed (.documentCopy record source) = .ok write ↔
      source.id ∉ changed ∧ Copyable d record source ∧ write = resolveWrite (copied d) (.documentCopy record source) := by
  rw [Memory.resolveCopy, Copyable, resolveWrite, copied, hSame]
  split_ifs with hChanged
  · simp [hChanged]
  · cases d.materializeDocument source.id source.point with
    | error error => simp
    | ok found =>
      cases found with
      | none => simp
      | some stored =>
        cases hMatches : Memory.copyMatches stored.record record with
        | false => simp [hMatches]
        | true =>
          simp only [hMatches, hChanged, if_true, Except.ok.injEq, some.injEq, exists_eq_left', true_and,
            not_false_eq_true]
          exact eq_comm

theorem Memory.resolveDocumentCopies_ok {writes resolved : List Write} :
    m.resolveDocumentCopies writes = .ok resolved ↔
      (∀ record source, Write.documentCopy record source ∈ writes →
        source.id ∉ writes.filterMap Memory.documentOf ∧ Copyable d record source) ∧
      resolved = writes.map (resolveWrite (copied d)) := by
  rw [Memory.resolveDocumentCopies, Outcome.mapM_eq_ok (resolveWrite (copied d))]
  · refine and_congr_left fun _ => ⟨fun h record source hMem => ?_, fun h write hMem => ?_⟩
    · obtain ⟨write, hWrite⟩ := h _ hMem
      obtain ⟨hChanged, hCopyable, -⟩ := (Memory.resolveCopy_copy hSame).mp hWrite
      exact ⟨hChanged, hCopyable⟩
    · cases write with
      | documentCopy record source =>
        obtain ⟨hChanged, hCopyable⟩ := h record source hMem
        exact ⟨_, (Memory.resolveCopy_copy hSame).mpr ⟨hChanged, hCopyable, rfl⟩⟩
      | _ => exact ⟨_, rfl⟩
  · intro write hMem result hResult
    cases write with
    | documentCopy record source => exact ((Memory.resolveCopy_copy hSame).mp hResult).2.2
    | _ => exact (Except.ok.inj hResult).symm

end Copies

variable {d : Sqlite}

theorem Sqlite.resolveCopies_ok (hCollected : Collected writes actions) {resolved : Memory.DocumentActions} :
    actions.mapM d.resolveCopy = .ok resolved ↔
      (∀ record source, Write.documentCopy record source ∈ writes → Copyable d record source) ∧
      resolved = actions.map (Prod.map id (resolveAction (copied d))) := by
  have hCopy : ∀ entry ∈ actions, ∀ source create, entry.2.copy = some source → entry.2.create = some create →
      ∀ result, d.resolveCopy entry = .ok result ↔
        Copyable d create source ∧ result = Prod.map id (resolveAction (copied d)) entry := by
    rintro ⟨entryId, action⟩ - source create hSource hCreate result
    simp only at hSource hCreate
    simp only [Sqlite.resolveCopy, hSource, hCreate, Copyable, Prod.map, resolveAction, copied, id]
    cases d.materializeDocument source.id source.point with
    | error error => simp
    | ok found =>
      cases found with
      | none => simp
      | some stored =>
        cases hMatches : Memory.copyMatches stored.record create with
        | false => simp [hMatches]
        | true =>
          simp only [hMatches, if_true, Except.ok.injEq, some.injEq, exists_eq_left', true_and]
          exact eq_comm
  have hPlain : ∀ entry ∈ actions, entry.2.copy = none →
      d.resolveCopy entry = .ok (Prod.map id (resolveAction (copied d)) entry) := by
    rintro ⟨entryId, action⟩ - hSource
    simp only at hSource
    simp [Sqlite.resolveCopy, hSource, Prod.map, resolveAction]
  rw [Outcome.mapM_eq_ok (Prod.map id (resolveAction (copied d)))]
  · refine and_congr_left fun _ => ⟨fun h record source hMem => ?_, fun h entry hMem => ?_⟩
    · obtain ⟨action, hAction, hCreate, hSource⟩ := hCollected.copies record source hMem
      have hEntry := mem_of_lookup hAction
      obtain ⟨result, hResult⟩ := h _ hEntry
      exact ((hCopy _ hEntry source record hSource hCreate result).mp hResult).1
    · cases hSource : entry.2.copy with
      | none => exact ⟨_, hPlain entry hMem hSource⟩
      | some source =>
        obtain ⟨-, record, hCreate, hWrite⟩ := hCollected.copied entry.1 entry.2 source (hCollected.lookup hMem) hSource
        exact ⟨_, (hCopy entry hMem source record hSource hCreate _).mpr ⟨h record source hWrite, rfl⟩⟩
  · intro entry hMem result hResult
    cases hSource : entry.2.copy with
    | none =>
      rw [hPlain entry hMem hSource] at hResult
      exact (Except.ok.inj hResult).symm
    | some source =>
      obtain ⟨-, record, hCreate, -⟩ := hCollected.copied entry.1 entry.2 source (hCollected.lookup hMem) hSource
      exact ((hCopy entry hMem source record hSource hCreate result).mp hResult).2

/-- Both storages check an action alike, but for the source of a copy. -/
theorem Sqlite.checkAction_ok {m : Memory} (hMirror : Mirror m d) (hKept : d.Kept) (hCollected : Collected writes actions)
    {entry : Nat × Sqlite.DocumentAction} (hMem : entry ∈ actions) (content : DocumentCopySource → Nat × JsonValue) :
    d.checkAction actions entry.1 entry.2 = .ok () ↔
      (∀ source, entry.2.copy = some source → actions.lookup source.id = none) ∧
        Memory.checkAction (m.documents.lookup entry.1) entry.1 (resolveAction content entry.2) = .ok () := by
  obtain ⟨entryId, action⟩ := entry
  have hLast : (d.revisionsOf entryId fun _ => true).getLast? =
      (m.documents.lookup entryId).bind fun state => state.revisions.getLast? := by
    rw [Sqlite.revisionsOf_eq hKept.revisions, filter_true, hMirror.documents]
    cases hLookup : d.documents.lookup entryId with
    | none =>
      rw [hKept.owned entryId hLookup]
      rfl
    | some record => rfl
  have hExisting : (m.documents.lookup entryId).isNone = (d.documents.lookup entryId).isNone ∧
      (m.documents.lookup entryId).isSome = (d.documents.lookup entryId).isSome ∧
      ((m.documents.lookup entryId).bind fun state => state.record.retiredAt) =
        (d.documents.lookup entryId).bind DocumentRecord.retiredAt := by
    rw [hMirror.documents]
    cases d.documents.lookup entryId <;> exact ⟨rfl, rfl, rfl⟩
  simp only [Sqlite.checkAction, Memory.checkAction, hLast, ← hExisting.1, ← hExisting.2.1, ← hExisting.2.2]
  cases hCopy : action.copy with
  | none =>
    simp only [resolveAction, hCopy, any_none, Bool.false_eq_true, if_false, reduceCtorEq, false_implies,
      implies_true, true_and]
    all_goals exact Iff.rfl
  | some source =>
    obtain ⟨hContent, -⟩ := hCollected.copied entryId action source (hCollected.lookup hMem) hCopy
    have hOnly : (∀ found, some source = some found → actions.lookup found.id = none) ↔
        actions.lookup source.id = none :=
      ⟨fun h => h source rfl, fun h found hFound => some.inj hFound ▸ h⟩
    rw [hOnly]
    simp only [resolveAction, hCopy, hContent, any_some]
    cases actions.lookup source.id with
    | none => simp only [isSome_none, Bool.false_eq_true, if_false, true_and]
    | some other => simp only [isSome_some, if_true, reduceCtorEq, false_and]

theorem Memory.of_checkAction {m : Memory} (hMirror : Mirror m d) {id : Nat} {action : Memory.DocumentAction}
    (h : Memory.checkAction (m.documents.lookup id) id action = .ok ()) :
    match action.create with
    | some _ => d.documents.lookup id = none
    | none => ∃ record, d.documents.lookup id = some record ∧ record.retiredAt = none := by
  rw [hMirror.documents] at h
  cases hLookup : d.documents.lookup id with
  | none =>
    cases hCreate : action.create with
    | none => simp [Memory.checkAction, hLookup, hCreate] at h
    | some create => exact rfl
  | some record =>
    cases hCreate : action.create with
    | none =>
      cases hRetired : record.retiredAt with
      | none => exact ⟨record, rfl, hRetired⟩
      | some retired => simp [Memory.checkAction, hLookup, hCreate, hRetired] at h
    | some create => simp [Memory.checkAction, hLookup, hCreate] at h

/-! The incarnations alive at every address. -/

def addressOf (d : Sqlite) (entry : Nat × Memory.DocumentAction) : Option DocumentAddress :=
  (entry.2.create.or ((d.documents.lookup entry.1).map DocumentRecord.toDocumentCreate)).map DocumentCreate.address

/-- The count of an address after an action, with the count before it. -/
def countAt (d : Sqlite) (counts : List (DocumentAddress × Int)) (address : DocumentAddress) : Int :=
  (counts.lookup address).getD (alive d address).length

/-- The loop that both storages make, on addresses. -/
def liveCounts (d : Sqlite) : List (DocumentAddress × Int) → Memory.DocumentActions → List (DocumentAddress × Int)
  | counts, [] => counts
  | counts, entry :: rest =>
    match addressOf d entry with
    | none => liveCounts d counts rest
    | some address =>
      liveCounts d (set counts address
        (countAt d counts address + aliveChange (d.documents.lookup entry.1) address entry.2)) rest

theorem aliveChange_other {entry : Nat × Memory.DocumentAction} {address : DocumentAddress}
    (h : addressOf d entry ≠ some address) : aliveChange (d.documents.lookup entry.1) address entry.2 = 0 := by
  rw [aliveChange]
  rw [addressOf] at h
  cases hCreate : entry.2.create with
  | some create =>
    rw [hCreate] at h
    have hNe : create.address ≠ address := fun hSame => h (congrArg some hSame)
    simp [hNe]
  | none =>
    rw [hCreate] at h
    cases hLookup : d.documents.lookup entry.1 with
    | none => simp
    | some record =>
      rw [hLookup] at h
      have hNe : record.address ≠ address := fun hSame => h (congrArg some hSame)
      simp [hNe]

theorem countAt_liveCounts (d : Sqlite) (counts : List (DocumentAddress × Int)) (actions : Memory.DocumentActions)
    (address : DocumentAddress) : countAt d (liveCounts d counts actions) address = countAt d counts address +
      (actions.map fun entry => aliveChange (d.documents.lookup entry.1) address entry.2).sum := by
  induction actions generalizing counts with
  | nil => simp [liveCounts]
  | cons entry rest ih =>
    rw [liveCounts, map_cons, sum_cons]
    cases hAddress : addressOf d entry with
    | none =>
      have hZero := @aliveChange_other d entry address (by simp [hAddress])
      rw [hZero]
      simpa using ih counts
    | some own =>
      refine (ih _).trans ?_
      rw [← Int.add_assoc]
      refine congrArg (· + _) ?_
      by_cases hOwn : address = own
      · rw [hOwn, countAt, lookup_set_self]
        rfl
      · rw [aliveChange_other (fun h => hOwn (some.inj (hAddress.symm.trans h)).symm), countAt,
          lookup_set_of_ne _ _ hOwn, Int.add_zero]
        rfl

theorem nodup_liveCounts (d : Sqlite) {counts : List (DocumentAddress × Int)} (h : (counts.map Prod.fst).Nodup)
    (actions : Memory.DocumentActions) : ((liveCounts d counts actions).map Prod.fst).Nodup := by
  induction actions generalizing counts with
  | nil => exact h
  | cons entry rest ih =>
    rw [liveCounts]
    cases addressOf d entry with
    | none => exact ih h
    | some own => exact ih (nodup_keys_set _ _ _ h)

theorem alive_length_le (hKept : d.Kept) (address : DocumentAddress) : (alive d address).length ≤ 1 := by
  have hKeyed := hKept.documents.1
  have hIncreasing := hKeyed.increasing_select (isIncarnation address .current)
  match hList : alive d address with
  | [] => simp
  | [_] => simp
  | x :: y :: rest =>
    have hSame := @alive_unique d hKeyed hKept.exclusive address x y (by simp [hList]) (by simp [hList])
    rw [← alive, hList, SortedIds.Increasing, pairwise_cons] at hIncreasing
    exact absurd hSame (Nat.ne_of_lt (hIncreasing.1 y mem_cons_self))

theorem any_liveCounts (hKept : d.Kept) (actions : Memory.DocumentActions) :
    ((liveCounts d [] actions).any fun entry => decide (1 < entry.2)) = false ↔
      ∀ address, aliveAfter d actions address ≤ 1 := by
  have hNodup := @nodup_liveCounts d [] nodup_nil actions
  have hCount : ∀ address, countAt d (liveCounts d [] actions) address = aliveAfter d actions address :=
    fun address => countAt_liveCounts d [] actions address
  constructor
  · intro hAny address
    rw [← hCount, countAt]
    cases hLookup : (liveCounts d [] actions).lookup address with
    | none =>
      have hLe := alive_length_le hKept address
      simpa using hLe
    | some live =>
      have hLive := any_eq_false.mp hAny _ (mem_of_lookup hLookup)
      simpa using hLive
  · intro hLe
    refine any_eq_false.mpr fun entry hMem => ?_
    have hEntry := hCount entry.1
    rw [countAt, (lookup_eq_some_iff hNodup entry.1 entry.2).mpr hMem] at hEntry
    have hOne := hLe entry.1
    rw [← hEntry] at hOne
    simpa using hOne

theorem Sqlite.addressKey_inj : Function.Injective Sqlite.addressKey := by
  intro a b h
  have hItems := stringify_flat_inj (by simp) h
  simp only [cons.injEq, JsonValue.str.injEq, JsonValue.num.injEq, and_true] at hItems
  obtain ⟨hKind, hScope, hOwner, hFamily, hKey⟩ := hItems
  refine (Sqlite.addressParts_inj a b).mp (AddressParts.mk.injEq .. |>.mpr ⟨hKind, ?_, ofNat_inj hFamily, hKey⟩)
  exact Prod.ext hScope (ofNat_inj hOwner)

section Loops

variable {α : Type} {key : DocumentAddress → JsString} {resolve : α → Memory.DocumentAction}
  {check : Nat × α → Except CommitError Unit} {live : List (JsString × Int) → Nat × α → Option (JsString × Int)}
  {loop : List (JsString × Int) → List (Nat × α) → Except CommitError (List (JsString × Int))}

/-- A loop that checks every action and counts with keys made of the addresses. -/
theorem loop_ok (d : Sqlite) (hKey : Function.Injective key) (hNil : ∀ counts, loop counts [] = .ok counts)
    (hCons : ∀ counts entry rest, loop counts (entry :: rest) = (check entry >>= fun _ =>
      (live counts entry).elim (loop counts rest) fun found => loop (set counts found.1 found.2) rest))
    {actions : List (Nat × α)}
    (hLive : ∀ entry ∈ actions, check entry = .ok () → ∀ counts, live (counts.map (Prod.map key id)) entry =
      (addressOf d (entry.1, resolve entry.2)).map fun address =>
        (key address, countAt d counts address + aliveChange (d.documents.lookup entry.1) address (resolve entry.2)))
    (counts : List (DocumentAddress × Int)) {result : List (JsString × Int)} :
    loop (counts.map (Prod.map key id)) actions = .ok result ↔ (∀ entry ∈ actions, check entry = .ok ()) ∧
      result = (liveCounts d counts (actions.map (Prod.map id resolve))).map (Prod.map key id) := by
  induction actions generalizing counts with
  | nil =>
    rw [hNil, map_nil, liveCounts, Except.ok.injEq]
    simp only [not_mem_nil, false_implies, implies_true, true_and]
    exact eq_comm
  | cons entry rest ih =>
    have hRest := ih fun other hOther => hLive other (mem_cons_of_mem _ hOther)
    rw [hCons, Outcome.bind_eq_ok, forall_mem_cons, and_assoc]
    constructor
    · rintro ⟨⟨⟩, hCheck, hLoop⟩
      refine ⟨hCheck, ?_⟩
      rw [hLive entry mem_cons_self hCheck] at hLoop
      rw [map_cons, liveCounts, Prod.map_fst, Prod.map_snd]
      change (_ ∧ result = map _ (match addressOf d (entry.1, resolve entry.2) with | none => _ | some _ => _))
      cases hAddress : addressOf d (entry.1, resolve entry.2) with
      | none =>
        rw [hAddress] at hLoop
        exact (hRest counts).mp hLoop
      | some address =>
        rw [hAddress, map_some, elim_some] at hLoop
        rw [← id_eq (countAt d counts address + _), set_map id hKey] at hLoop
        exact (hRest _).mp hLoop
    · rintro ⟨hCheck, hAll⟩
      refine ⟨(), hCheck, ?_⟩
      rw [hLive entry mem_cons_self hCheck]
      rw [map_cons, liveCounts, Prod.map_fst, Prod.map_snd] at hAll
      change (_ ∧ result = map _ (match addressOf d (entry.1, resolve entry.2) with | none => _ | some _ => _)) at hAll
      cases hAddress : addressOf d (entry.1, resolve entry.2) with
      | none =>
        rw [hAddress] at hAll
        exact (hRest counts).mpr hAll
      | some address =>
        rw [hAddress] at hAll
        rw [map_some, elim_some, ← id_eq (countAt d counts address + _), set_map id hKey]
        exact (hRest _).mpr hAll

end Loops

variable {d : Sqlite}

theorem alive_length (hKept : d.Kept) (address : DocumentAddress) :
    ((alive d address).length : Int) = if (alive d address).head?.isNone then 0 else 1 := by
  have hLe := alive_length_le hKept address
  match hList : alive d address, hLe with
  | [], _ => rfl
  | [_], _ => rfl

theorem head_alive (hKept : d.Kept) {id : Nat} {record : DocumentRecord}
    (hLookup : d.documents.lookup id = some record) (hAlive : record.retiredAt = none) :
    (alive d record.address).head? = some id := by
  have hKeyed := hKept.documents.1
  have hMem : id ∈ alive d record.address := (mem_alive hKeyed _ id).mpr ⟨record, hLookup, rfl, hAlive⟩
  cases hHead : (alive d record.address).head? with
  | none =>
    rw [head?_eq_none_iff.mp hHead] at hMem
    exact absurd hMem not_mem_nil
  | some other => rw [alive_unique hKeyed hKept.exclusive (mem_of_head? hHead) hMem]

theorem Memory.liveAfter_eq {m : Memory} (hMirror : Mirror m d) (hCurrent : Current m d) (hKept : d.Kept)
    {x : Nat} {action : Memory.DocumentAction} (h : Memory.checkAction (m.documents.lookup x) x action = .ok ())
    (counts : List (DocumentAddress × Int)) :
    m.liveAfter (counts.map (Prod.map addressKey id)) x action =
      (addressOf d (x, action)).map fun address =>
        (addressKey address, countAt d counts address + aliveChange (d.documents.lookup x) address action) := by
  have hFound := Memory.of_checkAction hMirror h
  have hKey : Function.Injective addressKey := fun a b => (addressKey_inj a b).mp
  have hHead : ∀ address, (m.documentAddresses.lookup (addressKey address)).bind AddressIndex.currentId =
      (alive d address).head? := hCurrent
  simp only [Memory.liveAfter, addressOf, hMirror.documents, hHead, lookup_map id hKey, Option.map_id]
  cases hCreate : action.create with
  | some create =>
    rw [hCreate] at hFound
    have hNot : (alive d create.address).head? ≠ some x := by
      intro hSome
      obtain ⟨record, hLookup, -⟩ := (mem_alive hKept.documents.1 _ x).mp (mem_of_head? hSome)
      rw [hFound] at hLookup
      exact some_ne_none _ hLookup.symm
    simp only [some_or, map_some, hNot, and_false, if_false, aliveChange, hCreate, countAt,
      alive_length hKept, isSome_some, true_and]
    cases action.retire <;> simp
  | none =>
    rw [hCreate] at hFound
    obtain ⟨record, hLookup, hAlive⟩ := hFound
    simp only [hLookup, map_some, none_or, head_alive hKept hLookup hAlive, and_true, aliveChange, hCreate,
      countAt, alive_length hKept, isNone_some, Bool.false_eq_true, if_false, any_some, decide_true,
      isSome_none, false_and, true_and]
    cases action.retire <;> simp [Int.sub_eq_add_neg]

theorem Sqlite.currentDocumentId_eq (d : Sqlite) (address : DocumentAddress) :
    d.currentDocumentId address = (alive d address).head? := by
  rw [Sqlite.currentDocumentId, alive, Table.select, Table.ids, head?_map, head?_filter]
  refine congrArg (Option.map Prod.fst) (congrArg (fun test => d.documents.find? test) (funext fun row => ?_))
  simp only [isIncarnation, isAliveAt, Sqlite.addressParts_inj]

theorem Sqlite.liveAfter_eq {m : Memory} (hMirror : Mirror m d) (hKept : d.Kept) {x : Nat}
    {action : Sqlite.DocumentAction} (content : DocumentCopySource → Nat × JsonValue)
    (h : Memory.checkAction (m.documents.lookup x) x (resolveAction content action) = .ok ())
    (counts : List (DocumentAddress × Int)) :
    d.liveAfter (counts.map (Prod.map Sqlite.addressKey id)) x action =
      (addressOf d (x, resolveAction content action)).map fun address => (Sqlite.addressKey address,
        countAt d counts address + aliveChange (d.documents.lookup x) address (resolveAction content action)) := by
  have hFound := Memory.of_checkAction hMirror h
  simp only [Sqlite.liveAfter, addressOf, Sqlite.currentDocumentId_eq, lookup_map id Sqlite.addressKey_inj,
    Option.map_id, resolveAction]
  simp only [resolveAction] at hFound
  cases hCreate : action.create with
  | some create =>
    rw [hCreate] at hFound
    simp only [hFound, some_or, map_some, isSome_none, Bool.false_eq_true, and_false, if_false,
      aliveChange, countAt, alive_length hKept, isSome_some, true_and]
    cases action.retire <;> simp
  | none =>
    rw [hCreate] at hFound
    obtain ⟨record, hLookup, hAlive⟩ := hFound
    simp only [hLookup, map_some, none_or, head_alive hKept hLookup hAlive, and_true, aliveChange,
      countAt, alive_length hKept, isNone_some, Bool.false_eq_true, if_false, any_some, decide_true,
      isSome_none, isSome_some, false_and, true_and]
    cases action.retire <;> simp [Int.sub_eq_add_neg]

end OctoberHarness.Storage
