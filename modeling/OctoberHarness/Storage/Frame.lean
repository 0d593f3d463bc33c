import OctoberHarness.Storage.History

/-! What a batch leaves as it is: the reads that do not depend on what it writes. -/
namespace OctoberHarness.Storage

open View List OrderedMap Option Bool

/-- The record that a write creates. -/
def creates : Write → Option DocumentCreate
  | .documentCreate record _ _ | .documentCopy record _ => some record
  | _ => none

/-- What the actions create and retire, the writes of the batch do. -/
structure Origins (writes : List Write) (actions : Sqlite.DocumentActions) : Prop where
  created : ∀ id action record, actions.lookup id = some action → action.create = some record →
    record ∈ writes.filterMap creates
  retired : ∀ id action, actions.lookup id = some action → action.retire = true → Write.documentRetire id ∈ writes

variable {action : Sqlite.DocumentAction} {id : Nat} {actions : Sqlite.DocumentActions} {done : List Write}

theorem Origins.set (h : Origins done actions) (write : Write)
    {key : Nat}
    (hCreate : ∀ record, action.create = some record →
      ((actions.lookup key).getD {}).create = some record ∨ creates write = some record)
    (hRetire : action.retire = true → ((actions.lookup key).getD {}).retire = true ∨ write = .documentRetire key) :
    Origins (done ++ [write]) (OrderedMap.set actions key action) := by
  have hOld : ∀ {P : Sqlite.DocumentAction → Prop}, ¬ P {} → P ((actions.lookup key).getD {}) →
      ∃ old, actions.lookup key = some old ∧ P old := by
    intro P hEmpty hHolds
    cases hLookup : actions.lookup key with
    | none =>
      rw [hLookup] at hHolds
      exact absurd hHolds hEmpty
    | some old =>
      rw [hLookup] at hHolds
      exact ⟨old, rfl, hHolds⟩
  refine ⟨fun id found record hFound hSome => ?_, fun id found hFound hRetired => ?_⟩
  · rw [lookup_set] at hFound
    rw [filterMap_append, mem_append]
    split_ifs at hFound
    · obtain rfl := some.inj hFound
      rcases hCreate record hSome with hBefore | hWrite
      · obtain ⟨old, hLookup, hBefore⟩ := @hOld (fun action => action.create = some record) (by simp) hBefore
        exact Or.inl (h.created key old record hLookup hBefore)
      · exact Or.inr (List.mem_filterMap.mpr ⟨write, mem_singleton_self _, hWrite⟩)
    · exact Or.inl (h.created id found record hFound hSome)
  · rw [lookup_set] at hFound
    rw [mem_append]
    split_ifs at hFound with hId
    · obtain rfl := some.inj hFound
      rw [hId]
      rcases hRetire hRetired with hBefore | hWrite
      · obtain ⟨old, hLookup, hBefore⟩ := @hOld (fun action => action.retire = true) (by simp) hBefore
        exact Or.inl (h.retired key old hLookup hBefore)
      · exact Or.inr (hWrite ▸ mem_singleton_self _)
    · exact Or.inl (h.retired id found hFound hRetired)

theorem Origins.step {next : Sqlite.DocumentActions} (h : Origins done actions) {write : Write}
    (hStep : Sqlite.prepareAction actions write = .ok next) : Origins (done ++ [write]) next := by
  have hSkip : Origins (done ++ [write]) actions := by
    refine ⟨fun id action record hFound hSome => ?_, fun id action hFound hRetired => ?_⟩
    · rw [filterMap_append]
      exact mem_append_left _ (h.created id action record hFound hSome)
    · exact mem_append_left _ (h.retired id action hFound hRetired)
  cases write with
  | conversation value => exact Except.ok.inj hStep ▸ hSkip
  | entry value => exact Except.ok.inj hStep ▸ hSkip
  | task value => exact Except.ok.inj hStep ▸ hSkip
  | submission value => exact Except.ok.inj hStep ▸ hSkip
  | documentCreate record version value =>
    rw [Sqlite.prepareAction] at hStep
    split_ifs at hStep
    exact Except.ok.inj hStep ▸ h.set _ (fun _ hSame => Or.inr hSame) Or.inl
  | documentCopy record source =>
    rw [Sqlite.prepareAction] at hStep
    split_ifs at hStep
    exact Except.ok.inj hStep ▸ h.set _ (fun _ hSame => Or.inr hSame) Or.inl
  | documentChange id content =>
    rw [Sqlite.prepareAction] at hStep
    split_ifs at hStep
    exact Except.ok.inj hStep ▸ h.set _ (fun _ => Or.inl) Or.inl
  | documentRetire id =>
    rw [Sqlite.prepareAction] at hStep
    split_ifs at hStep
    exact Except.ok.inj hStep ▸ h.set _ (fun _ => Or.inl) fun _ => Or.inr rfl

variable {writes : List Write}

theorem Origins.of_prepare (h : Sqlite.prepareDocumentActions writes = .ok actions) : Origins writes actions := by
  have hStart : Origins [] [] := by constructor <;> simp
  exact @Outcome.foldlM_invariant _ _ _ Sqlite.prepareAction Origins (fun done state write next hInv hStep => hInv.step hStep)
    writes [] [] actions hStart h

/-- What the writes of a batch create and retire, the actions do. -/
structure Performed (writes : List Write) (actions : Sqlite.DocumentActions) : Prop where
  created : ∀ record ∈ writes.filterMap creates, ∃ action, actions.lookup record.id = some action ∧
    action.create = some record
  retired : ∀ id, Write.documentRetire id ∈ writes → ∃ action, actions.lookup id = some action ∧ action.retire = true

theorem Performed.set (h : Performed done actions) {write : Write} {key : Nat}
    (hCreate : ∀ old record, actions.lookup key = some old → old.create = some record → action.create = some record)
    (hRetire : ∀ old, actions.lookup key = some old → old.retire = true → action.retire = true)
    (hCreates : ∀ record, creates write = some record → record.id = key ∧ action.create = some record)
    (hRetires : ∀ id, write = .documentRetire id → id = key ∧ action.retire = true) :
    Performed (done ++ [write]) (OrderedMap.set actions key action) := by
  refine ⟨fun record hMem => ?_, fun id hMem => ?_⟩
  · rw [lookup_set]
    rw [filterMap_append, mem_append] at hMem
    rcases hMem with hOld | hNew
    · obtain ⟨old, hLookup, hSome⟩ := h.created record hOld
      split_ifs with hKey
      · exact ⟨action, rfl, hCreate old record (hKey ▸ hLookup) hSome⟩
      · exact ⟨old, hLookup, hSome⟩
    · obtain ⟨found, hFound, hSame⟩ := List.mem_filterMap.mp hNew
      rw [List.mem_singleton.mp hFound] at hSame
      obtain ⟨hKey, hSome⟩ := hCreates record hSame
      exact ⟨action, if_pos hKey, hSome⟩
  · rw [lookup_set]
    rcases List.mem_append.mp hMem with hOld | hNew
    · obtain ⟨old, hLookup, hRetired⟩ := h.retired id hOld
      split_ifs with hKey
      · exact ⟨action, rfl, hRetire old (hKey ▸ hLookup) hRetired⟩
      · exact ⟨old, hLookup, hRetired⟩
    · obtain ⟨hKey, hRetired⟩ := hRetires id (List.mem_singleton.mp hNew).symm
      exact ⟨action, if_pos hKey, hRetired⟩

theorem Performed.step {next : Sqlite.DocumentActions} (h : Performed done actions)
    {write : Write} (hStep : Sqlite.prepareAction actions write = .ok next) : Performed (done ++ [write]) next := by
  have hSkip : creates write = none → (∀ id, write ≠ .documentRetire id) → Performed (done ++ [write]) actions := by
    intro hCreates hRetires
    refine ⟨fun record hMem => ?_, fun id hMem => ?_⟩
    · rw [filterMap_append, filterMap_cons_none hCreates] at hMem
      exact h.created record (by simpa using hMem)
    · rcases List.mem_append.mp hMem with hOld | hNew
      · exact h.retired id hOld
      · exact absurd (List.mem_singleton.mp hNew).symm (hRetires id)
  -- a record that is created has no action yet
  have hFresh : ∀ {key : Nat} {old : Sqlite.DocumentAction}, actions.lookup key = some old →
      ¬ (((actions.lookup key).getD {}).create.isSome ∨ ((actions.lookup key).getD {}).content.isSome ∨
        ((actions.lookup key).getD {}).copy.isSome) → old.create = none := by
    intro key old hLookup hNot
    rw [hLookup] at hNot
    exact not_isSome_iff_eq_none.mp (not_or.mp hNot).1
  have hSame : ∀ {key : Nat} {old : Sqlite.DocumentAction}, actions.lookup key = some old →
      (actions.lookup key).getD {} = old := by
    intro key old hLookup
    rw [hLookup]
    rfl
  cases write with
  | conversation value => exact Except.ok.inj hStep ▸ hSkip rfl (by simp)
  | entry value => exact Except.ok.inj hStep ▸ hSkip rfl (by simp)
  | task value => exact Except.ok.inj hStep ▸ hSkip rfl (by simp)
  | submission value => exact Except.ok.inj hStep ▸ hSkip rfl (by simp)
  | documentCreate record version value =>
    rw [Sqlite.prepareAction] at hStep
    split_ifs at hStep with hTaken
    rw [← Except.ok.inj hStep]
    refine h.set (fun old created hLookup hSome => ?_) (fun old hLookup hRetired => ?_)
      (fun found hFound => ?_) (by simp)
    · rw [hFresh hLookup hTaken] at hSome
      cases hSome
    · rw [hSame hLookup]
      exact hRetired
    · exact ⟨congrArg DocumentCreate.id (some.inj hFound).symm, hFound⟩
  | documentCopy record source =>
    rw [Sqlite.prepareAction] at hStep
    split_ifs at hStep with hTaken
    rw [← Except.ok.inj hStep]
    refine h.set (fun old created hLookup hSome => ?_) (fun old hLookup hRetired => ?_)
      (fun found hFound => ?_) (by simp)
    · rw [hFresh hLookup hTaken] at hSome
      cases hSome
    · rw [hSame hLookup]
      exact hRetired
    · exact ⟨congrArg DocumentCreate.id (some.inj hFound).symm, hFound⟩
  | documentChange id content =>
    rw [Sqlite.prepareAction] at hStep
    split_ifs at hStep
    rw [← Except.ok.inj hStep]
    refine h.set (fun old created hLookup hSome => ?_) (fun old hLookup hRetired => ?_)
      (fun found hFound => by cases hFound) (by simp)
    · rw [hSame hLookup]
      exact hSome
    · rw [hSame hLookup]
      exact hRetired
  | documentRetire id =>
    rw [Sqlite.prepareAction] at hStep
    split_ifs at hStep
    rw [← Except.ok.inj hStep]
    refine h.set (fun old created hLookup hSome => ?_) (fun old hLookup hRetired => rfl)
      (fun found hFound => by cases hFound) (fun found hFound => ⟨(Write.documentRetire.inj hFound).symm, rfl⟩)
    rw [hSame hLookup]
    exact hSome

theorem Performed.of_prepare (h : Sqlite.prepareDocumentActions writes = .ok actions) : Performed writes actions := by
  have hStart : Performed [] [] := by constructor <;> simp
  exact @Outcome.foldlM_invariant _ _ _ Sqlite.prepareAction Performed (fun done state write next hInv hStep => hInv.step hStep)
    writes [] [] actions hStart h

section Batch

variable {m : Memory} {d d' : Sqlite} {writes : List Write} {actions : Sqlite.DocumentActions}

theorem lookup_resolvedActions (id : Nat) : (resolvedActions d actions).lookup id =
    (actions.lookup id).map (resolveAction (copied d)) := by
  have hMap := lookup_map (resolveAction (copied d)) Function.injective_id actions id
  exact hMap

variable (h : Agree m d) (hPasses : Passes m d writes actions)
  (hEffect : BatchEffect writes (resolvedActions d actions) d d')

include hPasses hEffect

theorem document_kept (hId : id ∉ writes.filterMap Memory.documentOf) :
    d'.documents.lookup id = d.documents.lookup id ∧ View.revisions d' id = View.revisions d id := by
  refine hEffect.settles.kept id ?_
  have hNone : actions.lookup id = none :=
    Classical.byContradiction fun hSome => hId (((Collected.of_prepare hPasses.collected).changed id).mp hSome)
  rw [lookup_resolvedActions, hNone, map_none]

omit hPasses in
theorem document_after (hAction : actions.lookup id = some action) :
    ∃ record', recordAfter d.nextSeq (resolveAction (copied d) action) (d.documents.lookup id) = some record' ∧
      d'.documents.lookup id = some record' := by
  have hResolved : (resolvedActions d actions).lookup id = some (resolveAction (copied d) action) := by
    rw [lookup_resolvedActions, hAction, map_some]
  obtain ⟨record', hAfter, hDocument, -⟩ := hEffect.settles.changed id _ hResolved
  exact ⟨record', hAfter, hDocument⟩

theorem document_created {record : DocumentCreate} (hRecord : record ∈ writes.filterMap creates) : ∃ record',
    d'.documents.lookup record.id = some record' ∧ record'.toDocumentCreate = record ∧ record'.createdAt = d.nextSeq ∧
      (record'.retiredAt = none ∨ Write.documentRetire record.id ∈ writes) := by
  obtain ⟨action, hAction, hCreate⟩ := (Performed.of_prepare hPasses.collected).created record hRecord
  obtain ⟨record', hAfter, hDocument⟩ := document_after hEffect hAction
  have hSame : (resolveAction (copied d) action).create = some record := hCreate
  rw [recordAfter, hSame, some.injEq] at hAfter
  refine ⟨record', hDocument, hAfter ▸ rfl, hAfter ▸ rfl, ?_⟩
  cases hRetire : action.retire with
  | false =>
    have hKept : (resolveAction (copied d) action).retire = false := hRetire
    rw [hKept] at hAfter
    exact Or.inl (hAfter ▸ rfl)
  | true => exact Or.inr ((Origins.of_prepare hPasses.collected).retired _ action hAction hRetire)

theorem document_retired (hRetire : Write.documentRetire id ∈ writes) : ∃ record',
    d'.documents.lookup id = some record' ∧ record'.retiredAt = some d.nextSeq := by
  obtain ⟨action, hAction, hRetired⟩ := (Performed.of_prepare hPasses.collected).retired id hRetire
  obtain ⟨record', hAfter, hDocument⟩ := document_after hEffect hAction
  have hSame : (resolveAction (copied d) action).retire = true := hRetired
  refine ⟨record', hDocument, ?_⟩
  rw [recordAfter, hSame] at hAfter
  cases hCreate : (resolveAction (copied d) action).create with
  | some create =>
    rw [hCreate, some.injEq] at hAfter
    exact hAfter ▸ rfl
  | none =>
    rw [hCreate] at hAfter
    obtain ⟨old, -, hOld⟩ := map_eq_some_iff.mp hAfter
    exact hOld ▸ rfl

include h

/-- A document with a write is new, or keeps all but its retirement. -/
theorem document_changed (hId : id ∈ writes.filterMap Memory.documentOf) : ∃ record',
    d'.documents.lookup id = some record' ∧
      (d.documents.lookup id = none ∧ record'.toDocumentCreate ∈ writes.filterMap creates ∨
        ∃ record, d.documents.lookup id = some record ∧ record'.toDocumentCreate = record.toDocumentCreate ∧
          (record' = record ∨ Write.documentRetire id ∈ writes)) := by
  have hCollected := Collected.of_prepare hPasses.collected
  obtain ⟨action, hAction⟩ := ne_none_iff_exists'.mp ((hCollected.changed id).mpr hId)
  have hResolved : (resolvedActions d actions).lookup id = some (resolveAction (copied d) action) := by
    rw [lookup_resolvedActions, hAction, map_some]
  obtain ⟨record', hAfter, hDocument⟩ := document_after hEffect hAction
  have hFound := hPasses.found h.mirror hResolved
  refine ⟨record', hDocument, ?_⟩
  have hCreate : (resolveAction (copied d) action).create = action.create := rfl
  cases hSome : action.create with
  | some create =>
    rw [hCreate, hSome] at hFound
    rw [recordAfter, hCreate, hSome, some.injEq] at hAfter
    rw [← hAfter]
    exact Or.inl ⟨hFound, (Origins.of_prepare hPasses.collected).created id action create hAction hSome⟩
  | none =>
    rw [hCreate, hSome] at hFound
    obtain ⟨record, hRecord, -⟩ := hFound
    rw [recordAfter, hCreate, hSome, hRecord, map_some, some.injEq] at hAfter
    refine Or.inr ⟨record, hRecord, ?_⟩
    cases hRetire : action.retire with
    | false =>
      have hSame : (resolveAction (copied d) action).retire = false := hRetire
      rw [hSame] at hAfter
      exact ⟨hAfter ▸ rfl, Or.inl hAfter.symm⟩
    | true =>
      have hSame : (resolveAction (copied d) action).retire = true := hRetire
      rw [hSame] at hAfter
      exact ⟨hAfter ▸ rfl, Or.inr ((Origins.of_prepare hPasses.collected).retired id action hAction hRetire)⟩

end Batch

variable {segment : Nat × Option Int}

theorem chain_upper (conversations : List (Nat × ConversationRecord)) (fuel id : Nat) (upper : Int)
    (hMem : segment ∈ chain conversations fuel id (some upper)) :
    ∃ bound ≤ upper, segment.2 = some bound := by
  induction fuel generalizing id upper with
  | zero => simp [chain] at hMem
  | succ fuel ih =>
    rw [chain, mem_cons] at hMem
    rcases hMem with rfl | hRest
    · exact ⟨upper, le_refl _, rfl⟩
    · split at hRest
      · simp at hRest
      · obtain ⟨bound, hBound, hSegment⟩ := ih _ _ hRest
        exact ⟨bound, le_trans hBound (min_le_left _ _), hSegment⟩

/-- Beyond its own segment, a conversation sees entries up to some fork point. -/
theorem chain_inherited {conversations : List (Nat × ConversationRecord)} {limit : Nat}
    (hPoints : ∀ id record parent, conversations.lookup id = some record → record.parent = some parent →
      parent.atEntry < limit) (fuel id : Nat) (upper : Option Int)
    (hMem : segment ∈ chain conversations fuel id upper) :
    segment = (id, upper) ∨ ∃ bound < (limit : Int), segment.2 = some bound := by
  cases fuel with
  | zero => simp [chain] at hMem
  | succ fuel =>
    rw [chain, mem_cons] at hMem
    refine hMem.imp_right fun hRest => ?_
    cases hParent : (conversations.lookup id).bind ConversationRecord.parent with
    | none =>
      rw [hParent] at hRest
      simp at hRest
    | some parent =>
      rw [hParent] at hRest
      obtain ⟨record, hLookup, hFork⟩ := bind_eq_some_iff.mp hParent
      obtain ⟨bound, hBound, hSegment⟩ := chain_upper conversations fuel parent.conversationId _ hRest
      have hPoint := hPoints id record parent hLookup hFork
      refine ⟨bound, ?_, hSegment⟩
      have hNarrow : bound ≤ parent.atEntry := by
        refine le_trans hBound ?_
        cases upper with
        | none => exact le_refl _
        | some upper => exact min_le_right _ _
      omega

theorem segmentRows_kept {entries entries' : List (Nat × StoredEntry)} (hKeyed : Table.Keyed entries)
    (hKeyed' : Table.Keyed entries') (hStays : ∀ id row, entries.lookup id = some row → entries'.lookup id = some row)
    (lower : Option Int) (segment : Nat × Option Int)
    (hNew : ∀ id row, entries.lookup id = none → entries'.lookup id = some row →
      Sqlite.inSegment segment.1 lower segment.2 id row = false) :
    segmentRows entries' lower segment = segmentRows entries lower segment := by
  refine congrArg (fun rows => (map Prod.snd rows).reverse) (Table.filter_congr hKeyed' hKeyed fun id row hIn => ?_)
  refine ⟨fun hRow => ?_, fun hRow => hStays id row hRow⟩
  cases hOld : entries.lookup id with
  | none =>
    rw [hNew id row hOld hRow] at hIn
    exact absurd hIn (by simp)
  | some old =>
    rw [hStays id old hOld] at hRow
    exact hRow

section Entries

variable {d d' : Sqlite} (hKeyed : Table.Keyed d.entries) (hKeyed' : Table.Keyed d'.entries)
  (hConversations : ∀ id record, d.conversations.lookup id = some record → d'.conversations.lookup id = some record)
  (hEntries : ∀ id row, d.entries.lookup id = some row → d'.entries.lookup id = some row)
  (hForest : Forest d.conversations)

include hKeyed hKeyed' hConversations hEntries hForest

theorem visible_kept (hStored : d.conversations.lookup id ≠ none) (lower upper : Option Int)
    (hNew : ∀ segment ∈ chain d.conversations d.chainFuel id upper, ∀ entryId row, d.entries.lookup entryId = none →
      d'.entries.lookup entryId = some row → Sqlite.inSegment segment.1 lower segment.2 entryId row = false) :
    visible d' id lower upper = visible d id lower upper := by
  obtain ⟨steps, hSteps, hRooted⟩ := hForest id hStored
  have hFuel : steps < d.chainFuel := Nat.lt_succ_of_lt hSteps
  have hFuel' : steps < d'.chainFuel := Nat.lt_succ_of_lt (Rooted.grow hConversations hRooted).steps_lt
  rw [visible, visible, chain_grow hConversations hRooted hFuel hFuel']
  refine flatMap_congr fun segment hSegment => ?_
  exact segmentRows_kept hKeyed hKeyed' hEntries lower segment (hNew segment hSegment)

theorem visible_point_kept {id entryId : Nat} (hStored : d.conversations.lookup id ≠ none)
    (hEntry : d'.entries.lookup entryId = d.entries.lookup entryId) :
    visible d' id (some entryId) (some entryId) = visible d id (some entryId) (some entryId) := by
  refine visible_kept hKeyed hKeyed' hConversations hEntries hForest hStored _ _
    fun segment hSegment newId row hOld hNew => ?_
  obtain ⟨bound, hBound, hSame⟩ := chain_upper _ _ _ _ hSegment
  by_contra hIn
  simp only [Sqlite.inSegment, hSame, all_some, not_eq_false, and_eq_true, decide_eq_true_eq] at hIn
  have hId : newId = entryId := by omega
  rw [hId] at hOld hNew
  rw [hEntry, hOld] at hNew
  exact absurd hNew (by simp)

theorem visible_own_kept {id limit : Nat} (hStored : d.conversations.lookup id ≠ none)
    (hPoints : ∀ id record parent, d.conversations.lookup id = some record → record.parent = some parent →
      parent.atEntry < limit)
    (hNew : ∀ entryId row, d.entries.lookup entryId = none → d'.entries.lookup entryId = some row →
      limit ≤ entryId ∧ row.entry.conversationId ≠ id) (lower upper : Option Int) :
    visible d' id lower upper = visible d id lower upper := by
  refine visible_kept hKeyed hKeyed' hConversations hEntries hForest hStored _ _
    fun segment hSegment entryId row hOld hRow => ?_
  obtain ⟨hLimit, hOther⟩ := hNew entryId row hOld hRow
  by_contra hIn
  simp only [Sqlite.inSegment, not_eq_false, and_eq_true, decide_eq_true_eq] at hIn
  rcases chain_inherited hPoints _ _ _ hSegment with rfl | ⟨bound, hBound, hSame⟩
  · exact hOther hIn.1.1
  · have hUpper := hIn.2
    rw [hSame, all_some, decide_eq_true_eq] at hUpper
    omega

end Entries

/-- Whether a batch writes something that a read depends on; `d'` are the tables
after it. -/
def Touches (writes : List Write) (d' : Sqlite) : Read → Prop
  | .conversation id => ∃ value, Write.conversation value ∈ writes ∧ value.id = id
  | .scanConversations _ _ _ => ∃ value, Write.conversation value ∈ writes
  | .entry id => ∃ value, Write.entry value ∈ writes ∧ value.id = id
  | .visibleEntry conversationId id =>
    (∃ value, Write.conversation value ∈ writes ∧ value.id = conversationId) ∨
      ∃ value, Write.entry value ∈ writes ∧ value.id = id
  | .findLatestHeadMarker conversationId _ =>
    (∃ value, Write.conversation value ∈ writes ∧ value.id = conversationId) ∨
      ∃ value, Write.entry value ∈ writes ∧ value.conversationId = conversationId
  | .scanEntries query _ _ =>
    (∃ value, Write.conversation value ∈ writes ∧ value.id = query.conversationId) ∨
      ∃ value, Write.entry value ∈ writes ∧ value.conversationId = query.conversationId
  | .task id => ∃ value, Write.task value ∈ writes ∧ value.id = id
  | .scanTasks _ _ _ => ∃ value, Write.task value ∈ writes
  | .submission id => ∃ value, Write.submission value ∈ writes ∧ value.id = id
  | .scanSubmissions _ _ _ => ∃ value, Write.submission value ∈ writes
  | .submissionByRequest conversationId requestId =>
    ∃ value, Write.submission value ∈ writes ∧ Memory.requestOf value = some (conversationId, requestId)
  | .findDocument address _ =>
    ∃ id ∈ writes.filterMap Memory.documentOf, ∃ record, d'.documents.lookup id = some record ∧ record.address = address
  | .document id _ => id ∈ writes.filterMap Memory.documentOf
  | .scanDocuments query _ _ =>
    ∃ id record, d'.documents.lookup id = some record ∧ record.scope = query.scope ∧
      (record.toDocumentCreate ∈ writes.filterMap creates ∨ Write.documentRetire id ∈ writes)

variable {α : Type}

theorem Grows.same {P : α → Prop} {old new : Option α} (h : Grows P old new) (hNot : ∀ value, ¬ P value) :
    new = old :=
  h.resolve_right fun ⟨_, value, _, hValue⟩ => hNot value hValue

theorem Moves.same {P : α → Prop} {old new : Option α} (h : Moves P old new) (hNot : ∀ value, ¬ P value) :
    new = old :=
  h.resolve_right fun ⟨value, _, hValue⟩ => hNot value hValue

theorem Grows.stays {P : α → Prop} {old new : Option α} (h : Grows P old new) {value : α}
    (hOld : old = some value) : new = some value := by
  rcases h with hSame | ⟨hNone, -⟩
  · exact hSame.trans hOld
  · rw [hOld] at hNone
    exact absurd hNone (some_ne_none _)

theorem scan_same {rows rows' : List (Nat × α)} (h : Table.Keyed rows) (h' : Table.Keyed rows')
    {keep : α → Bool} (hSame : ∀ id value, keep value = true → (rows'.lookup id = some value ↔ rows.lookup id = some value))
    (start : ScanStart) (limit : Nat) : View.scan rows' keep start limit = View.scan rows keep start limit := by
  rw [View.scan, View.scan, Table.filter_congr h' h fun id value hKeep => hSame id value (and_eq_true _ _ ▸ hKeep).1]

section Reads

variable {d d' : Sqlite} {writes : List Write} {actions : Memory.DocumentActions}
  (hEffect : BatchEffect writes actions d d')

include hEffect

theorem view_entries_kept (hKept : d.Kept) (hKept' : d'.Kept) (hForest : Forest d.conversations) {limit : Nat}
    (hPoints : ∀ id record parent, d.conversations.lookup id = some record → record.parent = some parent →
      parent.atEntry < limit)
    (hNewer : ∀ value, Write.entry value ∈ writes → limit ≤ value.id) (hStored : d.conversations.lookup id ≠ none)
    (hOther : ¬ ∃ value, Write.entry value ∈ writes ∧ value.conversationId = id) (lower upper : Option Int) :
    visible d' id lower upper = visible d id lower upper := by
  refine visible_own_kept hKept.entries.1 hKept'.entries.1 (fun id record => (hEffect.conversations id).stays)
    (fun id row => (hEffect.entries id).stays) hForest hStored hPoints (fun entryId row hOld hRow => ?_) lower upper
  rcases hEffect.entries entryId with hSame | ⟨-, value, hNew, hId, -, hMem⟩
  · rw [hSame, hOld] at hRow
    exact absurd hRow (by simp)
  · obtain rfl := some.inj (hNew.symm.trans hRow)
    exact ⟨hId ▸ hNewer _ hMem, fun hSame => hOther ⟨_, hMem, hSame⟩⟩

theorem ofConversation_kept {β : Type} {result result' : Except ReadError β}
    (hNot : ¬ ∃ value, Write.conversation value ∈ writes ∧ value.id = id)
    (hResult : d.conversations.lookup id ≠ none → result' = result) :
    ofConversation d' id result' = ofConversation d id result := by
  have hSame : d'.conversations.lookup id = d.conversations.lookup id :=
    (hEffect.conversations id).same fun value hValue => hNot ⟨value, hValue.2, hValue.1⟩
  rw [ofConversation, ofConversation, hSame]
  cases hLookup : d.conversations.lookup id with
  | none => rfl
  | some record => rw [hResult (by simp [hLookup])]

end Reads

variable {m : Memory}

/-- A read that a batch does not touch is the same after it. -/
theorem view_kept {d d' : Sqlite} {writes : List Write} {actions : Sqlite.DocumentActions}
    (h : Agree m d) (hPasses : Passes m d writes actions) (hEffect : BatchEffect writes (resolvedActions d actions) d d')
    (hKept' : d'.Kept) (hForest : Forest d.conversations) {limit : Nat}
    (hPoints : ∀ id record parent, d.conversations.lookup id = some record → record.parent = some parent →
      parent.atEntry < limit)
    (hNewer : ∀ value, Write.entry value ∈ writes → limit ≤ value.id) {read : Read} (hTouches : ¬ Touches writes d' read)
    (hRequest : read.namesRequest = false) : View.read d' read = View.read d read := by
  have hKept := h.stored.kept
  cases read with
  | conversation id =>
    rw [View.read, View.read,
      (hEffect.conversations id).same fun value hValue => hTouches ⟨value, hValue.2, hValue.1⟩]
  | scanConversations query limit cursor =>
    have hSame := fun id => (hEffect.conversations id).same fun value hValue => hTouches ⟨value, hValue.2⟩
    simp only [View.read, scan_same hKept.conversations.1 hKept'.conversations.1 fun id value _ => by rw [hSame id]]
  | entry id =>
    rw [View.read, View.read, (hEffect.entries id).same fun row hRow => hTouches ⟨row.entry, hRow.2.2, hRow.1⟩]
  | visibleEntry conversationId id =>
    obtain ⟨hConversation, hEntry⟩ := not_or.mp hTouches
    refine congrArg (ReadResult.entry <$> ·) (ofConversation_kept hEffect hConversation fun hStored => ?_)
    refine congrArg (fun rows => Except.ok (head? rows)) ?_
    refine visible_point_kept hKept.entries.1 hKept'.entries.1 (fun id record => (hEffect.conversations id).stays)
      (fun id row => (hEffect.entries id).stays) hForest hStored ?_
    exact (hEffect.entries id).same fun row hRow => hEntry ⟨row.entry, hRow.2.2, hRow.1⟩
  | findLatestHeadMarker id atOrBefore =>
    obtain ⟨hConversation, hEntry⟩ := not_or.mp hTouches
    refine congrArg (ReadResult.head <$> ·) (ofConversation_kept hEffect hConversation fun hStored => ?_)
    rw [view_entries_kept hEffect hKept hKept' hForest hPoints hNewer hStored hEntry]
  | scanEntries query limit cursor =>
    obtain ⟨hConversation, hEntry⟩ := not_or.mp hTouches
    refine congrArg (ReadResult.entries <$> ·) (congrArg _ (funext fun start => ?_))
    refine ofConversation_kept hEffect hConversation fun hStored => ?_
    rw [View.entries, View.entries]
    simp only [view_entries_kept hEffect hKept hKept' hForest hPoints hNewer hStored hEntry]
  | task id =>
    rw [View.read, View.read, (hEffect.tasks id).same fun value hValue => hTouches ⟨value, hValue.2, hValue.1⟩]
  | scanTasks query limit cursor =>
    have hSame := fun id => (hEffect.tasks id).same fun value hValue => hTouches ⟨value, hValue.2⟩
    simp only [View.read, scan_same hKept.tasks.1 hKept'.tasks.1 fun id value _ => by rw [hSame id]]
  | submission id =>
    rw [View.read, View.read, (hEffect.submissions id).same fun value hValue => hTouches ⟨value, hValue.2, hValue.1⟩]
  | scanSubmissions query limit cursor =>
    have hSame := fun id => (hEffect.submissions id).same fun value hValue => hTouches ⟨value, hValue.2⟩
    simp only [View.read, scan_same hKept.submissions.1 hKept'.submissions.1 fun id value _ => by rw [hSame id]]
  | submissionByRequest conversationId requestId => exact absurd hRequest (by simp [Read.namesRequest])
  | findDocument address point =>
    refine congrArg (fun found => Except.ok (ReadResult.documentRecord found)) (ext fun record => ?_)
    rw [find_incarnation hKept', find_incarnation hKept]
    refine and_congr_left fun hIncarnation => ?_
    have hAddress : record.address = address := by
      rw [isIncarnation, and_eq_true, decide_eq_true_eq] at hIncarnation
      exact hIncarnation.1
    by_cases hId : record.id ∈ writes.filterMap Memory.documentOf
    · refine ⟨fun hNew => absurd ⟨record.id, hId, record, hNew, hAddress⟩ hTouches, fun hOld => ?_⟩
      obtain ⟨record', hNew, hChange⟩ := document_changed h hPasses hEffect hId
      rcases hChange with ⟨hNone, -⟩ | ⟨old, hLookup, hSame, -⟩
      · rw [hOld] at hNone
        exact absurd hNone (by simp)
      · obtain rfl := some.inj (hOld.symm.trans hLookup)
        have hAddress' : record'.address = address := by
          rw [← hAddress, DocumentCreate.address, hSame, DocumentCreate.address]
        exact absurd ⟨record.id, hId, record', hNew, hAddress'⟩ hTouches
    · rw [(document_kept hPasses hEffect hId).1]
  | document id point =>
    have hSame := document_kept hPasses hEffect hTouches
    rw [View.read, View.read, documentAt, documentAt, hSame.1, hSame.2]
  | scanDocuments query limit cursor =>
    refine congrArg (ReadResult.documents <$> ·) (congrArg _ (funext fun after => ?_))
    rw [scan_same hKept.documents.1 hKept'.documents.1 fun id value hKeep => ?_]
    have hScope : value.scope = query.scope := by
      simp only [keepsDocument, and_eq_true, decide_eq_true_eq] at hKeep
      exact hKeep.1.1
    by_cases hId : id ∈ writes.filterMap Memory.documentOf
    · obtain ⟨record', hNew, hChange⟩ := document_changed h hPasses hEffect hId
      rw [hNew, some.injEq]
      rcases hChange with ⟨hNone, hCreated⟩ | ⟨old, hOld, hSame, hStays⟩
      · refine ⟨fun hValue => ?_, fun hValue => absurd (hNone.symm.trans hValue) (by simp)⟩
        exact absurd ⟨id, record', hNew, hValue ▸ hScope, Or.inl hCreated⟩ hTouches
      · rw [hOld, some.injEq]
        rcases hStays with rfl | hRetired
        · exact Iff.rfl
        · have hOther : record'.scope ≠ query.scope := fun hIn => hTouches ⟨id, record', hNew, hIn, Or.inr hRetired⟩
          refine ⟨fun hValue => absurd (hValue ▸ hScope) hOther, fun hValue => absurd ?_ hOther⟩
          rw [hSame, hValue, hScope]
    · rw [(document_kept hPasses hEffect hId).1]

/-- A request of the index names a submission with it. -/
def Memory.Names (m : Memory) : Prop :=
  ∀ request id, m.submissionIdsByRequest.lookup request = some id →
    ∃ value, m.submissions.lookup id = some value ∧ Memory.requestOf value = some request

theorem Memory.lookup_setRequest (index : List ((Nat × JsString) × Nat)) (previous new : Option (Nat × JsString))
    (id : Nat) (request : Nat × JsString) : (setRequest (dropRequest index previous id) new id).lookup request =
      if new = some request then some id
      else if previous = some request ∧ index.lookup request = some id then none else index.lookup request := by
  have hDrop : (dropRequest index previous id).lookup request =
      if previous = some request ∧ index.lookup request = some id then none else index.lookup request := by
    cases previous with
    | none => simp [dropRequest]
    | some old =>
      have hOther : (if index.lookup old = some id then erase index old else index).lookup request =
          if request = old ∧ index.lookup old = some id then none else index.lookup request := by
        split_ifs with hNamed hBoth hBoth
        · rw [lookup_erase, if_pos hBoth.1]
        · rw [lookup_erase, if_neg fun hSame => hBoth ⟨hSame, hNamed⟩]
        · exact absurd hBoth.2 hNamed
        · rfl
      rw [dropRequest, hOther]
      refine if_congr ?_ rfl rfl
      rw [some.injEq]
      constructor
      · rintro ⟨hSame, hNamed⟩
        exact ⟨hSame.symm, hSame ▸ hNamed⟩
      · rintro ⟨hSame, hNamed⟩
        exact ⟨hSame.symm, hSame ▸ hNamed⟩
  cases new with
  | none => simpa [setRequest] using hDrop
  | some wanted =>
    rw [setRequest, lookup_set, hDrop]
    simp only [some.injEq, @eq_comm _ request wanted]

theorem Memory.Names.write (h : m.Names) (seq : Nat) (write : Write) : (m.applyWrite seq write).Names := by
  cases write with
  | conversation value =>
    rw [Memory.applyWrite]
    cases value.owner <;> exact h
  | entry value => exact h
  | task value => exact h
  | submission value =>
    intro request id hFound
    simp only [Memory.applyWrite, Memory.lookup_setRequest] at hFound ⊢
    rw [lookup_set]
    split_ifs at hFound with hNew hDropped
    · obtain rfl := some.inj hFound
      exact ⟨value, if_pos rfl, hNew⟩
    · obtain ⟨old, hOld, hRequest⟩ := h request id hFound
      by_cases hId : id = value.id
      · rw [← hId, hOld, bind_some] at hDropped
        exact absurd ⟨hRequest, hFound⟩ hDropped
      · exact ⟨old, by rw [if_neg hId, hOld], hRequest⟩
  | documentCreate record version value => exact h
  | documentCopy record source => exact h
  | documentChange id content => exact h
  | documentRetire id => exact h

/-- A request that no submission of a batch has, before or after it, names what it
named. -/
theorem Memory.request_kept {request : Nat × JsString} (seq : Nat) {writes : List Write}
    (hWrites : ∀ value, Write.submission value ∈ writes → Memory.requestOf value ≠ some request ∧
      ∀ old, m.submissions.lookup value.id = some old → Memory.requestOf old ≠ some request) :
    (writes.foldl (fun m write => m.applyWrite seq write) m).submissionIdsByRequest.lookup request =
      m.submissionIdsByRequest.lookup request ∧
    ∀ id value, m.submissions.lookup id = some value → Memory.requestOf value = some request →
      (writes.foldl (fun m write => m.applyWrite seq write) m).submissions.lookup id = some value := by
  induction writes generalizing m with
  | nil => exact ⟨rfl, fun id value hValue _ => hValue⟩
  | cons write rest ih =>
    rw [foldl_cons]
    have hRest := fun value hMem => hWrites value (mem_cons_of_mem write hMem)
    cases write with
    | conversation value =>
      have hSame : (m.applyWrite seq (.conversation value)).submissions = m.submissions ∧
          (m.applyWrite seq (.conversation value)).submissionIdsByRequest = m.submissionIdsByRequest := by
        rw [Memory.applyWrite]
        cases value.owner <;> exact ⟨rfl, rfl⟩
      have hNext := @ih (m.applyWrite seq (.conversation value)) (by rw [hSame.1]; exact hRest)
      rwa [hSame.1, hSame.2] at hNext
    | entry value => exact @ih (m.applyWrite seq (.entry value)) hRest
    | task value => exact @ih (m.applyWrite seq (.task value)) hRest
    | submission value =>
      obtain ⟨hNew, hOld⟩ := hWrites value mem_cons_self
      have hStored : ∀ id, (m.applyWrite seq (.submission value)).submissions.lookup id =
          if id = value.id then some value else m.submissions.lookup id := fun id =>
        lookup_set _ _ _ _
      have hNext := @ih (m.applyWrite seq (.submission value)) fun other hMem => by
        refine ⟨(hRest other hMem).1, fun old hLookup => ?_⟩
        rw [hStored] at hLookup
        split_ifs at hLookup
        · exact some.inj hLookup ▸ hNew
        · exact (hRest other hMem).2 old hLookup
      refine ⟨hNext.1.trans ?_, fun id found hFound hRequest => hNext.2 id found ?_ hRequest⟩
      · simp only [Memory.applyWrite, Memory.lookup_setRequest, if_neg hNew]
        rw [if_neg]
        rintro ⟨hPrevious, -⟩
        obtain ⟨old, hLookup, hRequest⟩ := bind_eq_some_iff.mp hPrevious
        exact hOld old hLookup hRequest
      · rw [hStored, if_neg, hFound]
        rintro rfl
        exact hOld found hFound hRequest
    | documentCreate record version value => exact @ih m hRest
    | documentCopy record source => exact @ih m hRest
    | documentChange id content => exact @ih m hRest
    | documentRetire id => exact @ih m hRest

theorem Memory.applyDocumentAction_submissions (seq : Nat) (m : Memory) (entry : Nat × Memory.DocumentAction) :
    (Memory.applyDocumentAction seq m entry).submissions = m.submissions := by
  obtain ⟨id, action⟩ := entry
  have hStored : (m.storeAction seq id action).submissions = m.submissions := by
    rw [Memory.storeAction]
    cases action.create with
    | some create => rfl
    | none =>
      cases action.content with
      | none => rfl
      | some content =>
        dsimp only
        cases m.documents.lookup id <;> rfl
  simp only [Memory.applyDocumentAction]
  cases (m.storeAction seq id action).documents.lookup id with
  | none => exact hStored
  | some state =>
    simp only [Memory.settleAction]
    split_ifs <;> exact hStored

theorem Memory.actions_requests (seq : Nat) (m : Memory) (actions : Memory.DocumentActions) :
    (actions.foldl (Memory.applyDocumentAction seq) m).submissions = m.submissions ∧
      (actions.foldl (Memory.applyDocumentAction seq) m).submissionIdsByRequest = m.submissionIdsByRequest := by
  induction actions generalizing m with
  | nil => exact ⟨rfl, rfl⟩
  | cons entry rest ih =>
    obtain ⟨hSubmissions, hRequests⟩ := ih (Memory.applyDocumentAction seq m entry)
    rw [foldl_cons, hSubmissions, hRequests, Memory.applyDocumentAction_submissions,
      Memory.applyDocumentAction_requests]
    exact ⟨rfl, rfl⟩

/-- What the caller promises of a batch besides: its entries are newer than the
fork points, and a submission keeps its request. -/
structure Newer (m : Memory) (limit : Nat) (writes : List Write) : Prop where
  points : ∀ id record parent, m.conversations.lookup id = some record → record.parent = some parent →
    parent.atEntry < limit
  entries : ∀ value, Write.entry value ∈ writes → limit ≤ value.id
  requests : ∀ value, Write.submission value ∈ writes → ∀ old, m.submissions.lookup value.id = some old →
    Memory.requestOf old = Memory.requestOf value

/-- An accepted batch: the tables follow it, and it changes no read that it does
not touch. -/
theorem Agree.read_kept {next : Memory} {d : Sqlite} (h : Agree m d) (hNames : m.Names) {writes : List Write}
    (hCommit : m.commitBatch writes = .ok next) {limit : Nat} (hNewer : Newer m limit writes)
    (hGrounded : Grounded m.conversations) (hGrounded' : Grounded next.conversations) :
    ∃ d' actions, Agree next d' ∧ next.Names ∧ Passes m d writes actions ∧
      BatchEffect writes (resolvedActions d actions) d d' ∧
        ∀ read, ¬ Touches writes d' read → next.read read = m.read read := by
  have hSeq := Memory.nextSeq_of_ok hCommit
  rw [h.mirror.nextSeq] at hSeq
  rcases h.accepts hSeq writes with ⟨m', d', actions, hMemory, -, hPasses, rfl, rfl⟩ | ⟨error, -, hError, -⟩
  swap
  · rw [hError] at hCommit
    exact absurd hCommit (by simp)
  obtain rfl := Except.ok.inj (hMemory.symm.trans hCommit)
  have hAgree := h.applied hPasses
  have hEffect := h.effect hPasses
  have hTables : ∀ m : Memory, ∀ next, next = m.applyPreparedCommit (writes.map (resolveWrite (copied d)))
      (resolvedActions d actions) d.nextSeq →
      next.submissions = (writes.foldl (fun m write => m.applyWrite d.nextSeq write) m).submissions ∧
        next.submissionIdsByRequest =
          (writes.foldl (fun m write => m.applyWrite d.nextSeq write) m).submissionIdsByRequest := by
    rintro m next rfl
    rw [Memory.applyPreparedCommit, foldl_resolve]
    exact Memory.actions_requests _ _ _
  obtain ⟨hSubmissions, hIndex⟩ := hTables m _ rfl
  generalize m.applyPreparedCommit (writes.map (resolveWrite (copied d))) (resolvedActions d actions) d.nextSeq = next
    at hSubmissions hIndex hAgree hGrounded'
  have hNext : next.Names := by
    have hWrites : (writes.foldl (fun m write => m.applyWrite d.nextSeq write) m).Names := by
      clear * - hNames
      induction writes generalizing m with
      | nil => exact hNames
      | cons write rest ih => exact ih (hNames.write d.nextSeq write)
    intro request id hFound
    rw [hIndex] at hFound
    rw [hSubmissions]
    exact hWrites request id hFound
  refine ⟨_, actions, hAgree, hNext, hPasses, hEffect, fun read hTouches => ?_⟩
  have hForest := hGrounded.forest h.mirror.conversations
  have hForest' := hGrounded'.forest hAgree.mirror.conversations
  cases hRequest : read.namesRequest with
  | false =>
    rw [Memory.read_eq_view hAgree.mirror hAgree.current hAgree.stored.kept read (by simp [hRequest]) fun _ => hForest',
      Memory.read_eq_view h.mirror h.current h.stored.kept read (by simp [hRequest]) fun _ => hForest]
    refine view_kept h hPasses hEffect hAgree.stored.kept hForest (fun id record parent hLookup => ?_) hNewer.entries
      hTouches hRequest
    exact hNewer.points id record parent ((h.mirror.conversations id).trans hLookup)
  | true =>
    obtain ⟨conversationId, requestId, rfl⟩ : ∃ conversationId requestId,
        read = .submissionByRequest conversationId requestId := by
      cases read with
      | submissionByRequest conversationId requestId => exact ⟨_, _, rfl⟩
      | _ => simp [Read.namesRequest] at hRequest
    have hWrites : ∀ value, Write.submission value ∈ writes →
        Memory.requestOf value ≠ some (conversationId, requestId) := fun value hMem hSame => hTouches ⟨value, hMem, hSame⟩
    obtain ⟨hKept, hStays⟩ := @Memory.request_kept m (conversationId, requestId) d.nextSeq writes fun value hMem =>
      ⟨hWrites value hMem, fun old hOld => hNewer.requests value hMem old hOld ▸ hWrites value hMem⟩
    rw [Memory.read, Memory.read, Memory.submissionByRequest, Memory.submissionByRequest, hIndex, hSubmissions, hKept]
    cases hLookup : m.submissionIdsByRequest.lookup (conversationId, requestId) with
    | none => rfl
    | some id =>
      obtain ⟨value, hValue, hRequest⟩ := hNames _ _ hLookup
      simp only [hStays id value hValue hRequest, hValue]

end OctoberHarness.Storage
