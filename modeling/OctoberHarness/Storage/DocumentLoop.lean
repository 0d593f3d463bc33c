import OctoberHarness.Storage.DocumentWrites

/-! The loop over the document actions of a batch. Records, revisions and the
lists of incarnations follow one action after the other; the current incarnation
of an address is right again when all actions are done, because at most one
incarnation is left alive. -/
namespace OctoberHarness.Storage

open View SortedIds List Option

/-- The tables that the actions of a batch change, between two of them. -/
structure Between (d : Sqlite) : Prop where
  keyedIds : Table.Keyed d.recordIds
  documents : Named (fun record => record.id) d.documents
  filed : ∀ id, d.documents.lookup id ≠ none → d.recordIds.lookup id = some .document
  owned : ∀ id, d.documents.lookup id = none → revisions d id = []

variable {action : Memory.DocumentAction} {id : Nat}

theorem recordAfter_some {d : Sqlite} (hFits : Fits d id action) (seq : Nat) :
    ∃ record, recordAfter seq action (d.documents.lookup id) = some record := by
  rw [Fits] at hFits
  rw [recordAfter]
  cases hCreate : action.create with
  | some create => exact ⟨_, rfl⟩
  | none =>
    rw [hCreate] at hFits
    obtain ⟨existing, hExisting, -⟩ := hFits
    rw [hExisting]
    exact ⟨_, rfl⟩

theorem Between.new {d : Sqlite} (h : Between d) (hFits : Fits d id action)
    (hCreate : action.create.isSome = true) : d.documents.lookup id = none := by
  obtain ⟨create, hSome⟩ := Option.isSome_iff_exists.mp hCreate
  rw [Fits, hSome] at hFits
  exact lookup_none_of_free h.filed hFits.2

variable {record : DocumentRecord} {seq : Nat}

theorem recordAfter_existing {existing : Option DocumentRecord} (hAfter : recordAfter seq action existing = some record)
    (hCreate : action.create.isSome = false) : ∃ old, existing = some old ∧
      record.toDocumentCreate = old.toDocumentCreate ∧ record.createdAt = old.createdAt ∧
        record.retiredAt = if action.retire then some seq else old.retiredAt := by
  cases hSome : action.create with
  | some create =>
    rw [hSome] at hCreate
    simp at hCreate
  | none =>
    rw [recordAfter, hSome, map_eq_some_iff] at hAfter
    obtain ⟨old, hOld, rfl⟩ := hAfter
    refine ⟨old, hOld, ?_⟩
    split_ifs <;> exact ⟨rfl, rfl, rfl⟩

theorem Mirror.of_effects {m m' : Memory} {d d' : Sqlite} (h : Mirror m d) (hBetween : Between d) (hFits : Fits d id action)
    (hAfter : recordAfter seq action (d.documents.lookup id) = some record)
    (hMemory : Memory.Effect seq id action record (revisions d id) m m') (hSqlite : Effect seq id action d d') :
    Mirror m' d' := by
  have hSelect : ∀ condition : DocumentRecord → Bool,
      (∀ old, record.toDocumentCreate = old.toDocumentCreate → condition record = condition old) →
      Table.select condition d'.documents =
        if condition record = true ∧ action.create.isSome = true then
          insertSorted (Table.select condition d.documents) id
        else Table.select condition d.documents := by
    intro condition hCondition
    have hKeyed := hBetween.documents.1
    rw [Table.select_congr hSqlite.keyed (hKeyed.put id record) (fun other => by
      rw [hSqlite.documents, Table.lookup_put hKeyed, hAfter])]
    by_cases hCreate : action.create.isSome = true
    · rw [Table.select_put_new hKeyed (hBetween.new hFits hCreate)]
      simp [hCreate]
    · rw [Bool.not_eq_true] at hCreate
      obtain ⟨old, hOld, hSame, -⟩ := recordAfter_existing hAfter hCreate
      rw [Table.select_put_same hKeyed hOld record condition (hCondition old hSame)]
      simp [hCreate]
  obtain ⟨types, documents, addresses, scopes, nextId, rfl⟩ : ∃ types documents addresses scopes nextId, m' = { m with
      recordTypes := types, documents := documents, documentAddresses := addresses
      documentIdsByScope := scopes, nextId := nextId } := ⟨_, _, _, _, _, hMemory.same⟩
  obtain ⟨ids, rows, revisionRows, rfl⟩ : ∃ ids rows revisionRows, d' = { d with
      recordIds := ids, documents := rows, documentRevisions := revisionRows } := ⟨_, _, _, hSqlite.same⟩
  exact { h with
    recordTypes := by
      intro other
      rw [hMemory.recordTypes, hSqlite.recordIds, h.recordTypes]
    documents := by
      intro other
      rw [hMemory.documents, hSqlite.documents, hSqlite.revisions other record hAfter, hAfter]
      split_ifs with hOther
      · rfl
      · rw [h.documents]
    addressIds := by
      intro address
      have hIds := hMemory.addressIds address
      rw [Memory.addressIdsOf, Memory.addressIdsOf, h.addressIds] at hIds
      rw [hIds, hSelect _ fun old hSame => by simp only [hSame]]
      exact if_congr (by rw [decide_eq_true_eq, eq_comm]) rfl rfl
    scopeIds := by
      intro scope
      rw [hMemory.scopeIds, h.scopeIds, hSelect _ fun old hSame => by simp [hSame]]
      exact if_congr (by rw [decide_eq_true_eq, eq_comm]) rfl rfl }

/-! The incarnations of an address that are alive. -/

/-- The incarnations of an address that are not retired. -/
def alive (d : Sqlite) (address : DocumentAddress) : List Nat :=
  Table.select (isIncarnation address .current) d.documents

/-- By how much an action changes their number. -/
def aliveChange (existing : Option DocumentRecord) (address : DocumentAddress) (action : Memory.DocumentAction) : Int :=
  match action.create with
  | some create => if create.address = address ∧ action.retire = false then 1 else 0
  | none => if existing.any (fun old => decide (old.address = address)) ∧ action.retire = true then -1 else 0

theorem mem_alive {d : Sqlite} (hKeyed : Table.Keyed d.documents) (address : DocumentAddress) (id : Nat) :
    id ∈ alive d address ↔ ∃ record, d.documents.lookup id = some record ∧ record.address = address ∧
      record.retiredAt = none := by
  rw [alive, Table.mem_select hKeyed]
  simp [isIncarnation, isAliveAt]

theorem mem_alive_after {d d' : Sqlite} (hKeyed : Table.Keyed d.documents)
    (hAfter : recordAfter seq action (d.documents.lookup id) = some record)
    (hSqlite : Effect seq id action d d') (address : DocumentAddress) (other : Nat) : other ∈ alive d' address ↔
      if other = id then record.address = address ∧ record.retiredAt = none else other ∈ alive d address := by
  rw [mem_alive hSqlite.keyed, mem_alive hKeyed, hSqlite.documents, hAfter]
  split_ifs <;> simp

theorem length_alive_after {d d' : Sqlite} (hBetween : Between d)
    (hFits : Fits d id action) (hAfter : recordAfter seq action (d.documents.lookup id) = some record)
    (hSqlite : Effect seq id action d d') (address : DocumentAddress) :
    ((alive d' address).length : Int) =
      (alive d address).length + aliveChange (d.documents.lookup id) address action := by
  have hKeyed := hBetween.documents.1
  have hPut : alive d' address = Table.select (isIncarnation address .current) (Table.put id record d.documents) :=
    Table.select_congr hSqlite.keyed (hKeyed.put id record) (fun other => by
      rw [hSqlite.documents, Table.lookup_put hKeyed, hAfter]) _
  rw [hPut, aliveChange]
  cases hCreate : action.create with
  | some create =>
    have hNew := hBetween.new hFits (by rw [hCreate]; rfl)
    rw [recordAfter, hCreate] at hAfter
    have hIs : isIncarnation address .current record = true ↔ create.address = address ∧ action.retire = false := by
      rw [← some.inj hAfter]
      cases action.retire <;> simp [isIncarnation, isAliveAt]
    rw [Table.select_put_new hKeyed hNew]
    dsimp only
    by_cases hHere : create.address = address ∧ action.retire = false
    · rw [if_pos (hIs.mpr hHere), if_pos hHere, length_insertSorted]
      push_cast
      rfl
    · rw [if_neg fun h => hHere (hIs.mp h), if_neg hHere, Int.add_zero]
      rfl
  | none =>
    rw [Fits, hCreate] at hFits
    obtain ⟨old, hOld, hUnretired⟩ := hFits
    rw [recordAfter, hCreate, hOld, map_some, some.injEq] at hAfter
    rw [hOld, any_some]
    cases hRetire : action.retire with
    | false =>
      rw [hRetire] at hAfter
      simp only [Bool.false_eq_true, if_false] at hAfter
      rw [Table.select_put_same hKeyed hOld record _ (by rw [hAfter])]
      simp [alive]
    | true =>
      rw [hRetire] at hAfter
      simp only [if_true] at hAfter
      have hGone : isIncarnation address .current record = false := by
        rw [← hAfter]
        simp [isIncarnation, isAliveAt]
      have hIncreasing := hKeyed.increasing_select (isIncarnation address .current)
      rw [Table.select_put_leave hKeyed id record _ hGone]
      by_cases hHere : old.address = address
      · have hMem : id ∈ alive d address := (mem_alive hKeyed address id).mpr ⟨old, hOld, hHere, hUnretired⟩
        have hLength := length_removeSorted hIncreasing hMem
        simp only [hHere, decide_true, and_self, if_true]
        rw [alive]
        omega
      · have hMem : id ∉ alive d address := by
          rw [mem_alive hKeyed, hOld]
          simp [hHere]
        rw [removeSorted_of_not_mem hIncreasing hMem]
        simp [hHere, alive]

/-- The current incarnation of an address while a batch is applied: it is alive,
there is one when any is alive, and one that the batch did not create is the only
one alive. -/
def CurrentAt (seq : Nat) (m : Memory) (d : Sqlite) (address : DocumentAddress) : Prop :=
  (∀ x, m.currentOf address = some x → x ∈ alive d address) ∧
    (∀ y ∈ alive d address, m.currentOf address ≠ none) ∧
    ∀ x record, m.currentOf address = some x → d.documents.lookup x = some record → record.createdAt < seq →
      ∀ y ∈ alive d address, y = x

theorem CurrentAt.keep {m m' : Memory} {d d' : Sqlite} {address : DocumentAddress}
    (h : CurrentAt seq m d address)
    (hCreated : ∀ x found, d'.documents.lookup x = some found → found.createdAt < seq →
      ∃ before, d.documents.lookup x = some before ∧ before.createdAt < seq)
    (hSame : m'.currentOf address = m.currentOf address) (hFewer : ∀ y ∈ alive d' address, y ∈ alive d address)
    (hStays : ∀ x, m.currentOf address = some x → x ∈ alive d' address) : CurrentAt seq m' d' address := by
  obtain ⟨-, hSome, hOnly⟩ := h
  rw [CurrentAt, hSame]
  refine ⟨hStays, fun y hy => hSome y (hFewer y hy), fun x found hx hFound hLess y hy => ?_⟩
  obtain ⟨before, hBefore, hBeforeLess⟩ := hCreated x found hFound hLess
  exact hOnly x before hx hBefore hBeforeLess y (hFewer y hy)

/-! What one turn keeps. -/

section Turn

variable {seq id : Nat} {action : Memory.DocumentAction} {record : DocumentRecord} {d d' : Sqlite}
  (hBetween : Between d) (hFits : Fits d id action)
  (hAfter : recordAfter seq action (d.documents.lookup id) = some record) (hSqlite : Effect seq id action d d')

include hBetween hFits hAfter

/-- The record is new, or an old one that was not retired. -/
theorem turn_cases :
    (∃ create, action.create = some create ∧ create.id = id ∧ d.documents.lookup id = none ∧ record =
      { toDocumentCreate := create, createdAt := seq, retiredAt := if action.retire then some seq else none }) ∨
    ∃ old, action.create = none ∧ d.documents.lookup id = some old ∧ old.retiredAt = none ∧
      record.toDocumentCreate = old.toDocumentCreate ∧ record.createdAt = old.createdAt ∧
      record.retiredAt = if action.retire then some seq else none := by
  cases hCreate : action.create with
  | some create =>
    have hNew := hBetween.new hFits (by rw [hCreate]; rfl)
    rw [Fits, hCreate] at hFits
    rw [recordAfter, hCreate] at hAfter
    exact Or.inl ⟨create, rfl, hFits.1, hNew, (some.inj hAfter).symm⟩
  | none =>
    obtain ⟨old, hOld, hSame, hCreated, hRetired⟩ := recordAfter_existing hAfter (by rw [hCreate]; rfl)
    rw [Fits, hCreate] at hFits
    obtain ⟨found, hFound, hUnretired⟩ := hFits
    obtain rfl : found = old := some.inj (hFound.symm.trans hOld)
    rw [hUnretired] at hRetired
    exact Or.inr ⟨found, rfl, hOld, hUnretired, hSame, hCreated, hRetired⟩

include hSqlite

theorem Between.turn : Between d' := by
  have hCases := turn_cases hBetween hFits hAfter
  refine ⟨hSqlite.keyedIds, ⟨hSqlite.keyed, fun key value hLookup => ?_⟩, fun other hStored => ?_, fun other hNone => ?_⟩
  · rw [hSqlite.documents, hAfter] at hLookup
    split_ifs at hLookup with hKey
    · rw [← some.inj hLookup, hKey]
      rcases hCases with ⟨create, -, hId, -, hRecord⟩ | ⟨old, -, hOld, -, hSame, -⟩
      · rw [hRecord]
        exact hId
      · exact (congrArg DocumentCreate.id hSame).trans (hBetween.documents.2 id old hOld)
    · exact hBetween.documents.2 key value hLookup
  · rw [hSqlite.recordIds]
    rw [hSqlite.documents] at hStored
    split_ifs with hCreate
    · rfl
    · split_ifs at hStored with hOther
      · rcases hCases with ⟨create, hSome, -⟩ | ⟨old, -, hOld, -⟩
        · rw [hSome] at hCreate
          exact absurd ⟨hOther, rfl⟩ hCreate
        · rw [hOther]
          exact hBetween.filed id (by rw [hOld]; exact some_ne_none _)
      · exact hBetween.filed other hStored
  · rw [hSqlite.documents, hAfter] at hNone
    rw [hSqlite.revisions other record hAfter]
    split_ifs at hNone with hOther
    rw [if_neg hOther]
    exact hBetween.owned other hNone

omit hBetween hFits in
/-- The revisions stay in order when those of the document are older. -/
theorem turn_sorted (hOlder : ∀ revision ∈ revisions d id, revision.seq < seq)
    (hSorted : ∀ id, (revisions d id).Pairwise (fun a b => a.seq < b.seq) ∧ ∀ revision ∈ revisions d id, revision.seq ≤ seq)
    (other : Nat) : (revisions d' other).Pairwise (fun a b => a.seq < b.seq) ∧
      ∀ revision ∈ revisions d' other, revision.seq ≤ seq := by
  rw [hSqlite.revisions other record hAfter]
  split_ifs with hOther
  · rw [revisionsAfter]
    split_ifs
    · simp
    · have hAppend : ∀ content, ((revisions d id ++ [({ content, seq } : Revision)]).Pairwise fun a b => a.seq < b.seq) ∧
          ∀ revision ∈ revisions d id ++ [({ content, seq } : Revision)], revision.seq ≤ seq := by
        intro content
        refine ⟨List.pairwise_append.mpr ⟨(hSorted id).1, by simp, fun a ha b hb => ?_⟩, fun revision hMem => ?_⟩
        · rw [List.mem_singleton.mp hb]
          exact hOlder a ha
        · rcases List.mem_append.mp hMem with hOld | hNew
          · exact Nat.le_of_lt (hOlder revision hOld)
          · rw [List.mem_singleton.mp hNew]
      cases action.content with
      | none => exact hSorted id
      | some content =>
        cases content with
        | delta version ops => exact hAppend _
        | base version value =>
          simp only [Memory.addRevision]
          split_ifs
          · simp
          · exact hAppend _
  · exact hSorted other

/-- The current incarnation follows when the document is not one that this batch
created before. -/
theorem turn_current {m m' : Memory} {old : List Revision} (hMemory : Memory.Effect seq id action record old m m')
    (hOlder : ∀ existing, d.documents.lookup id = some existing → existing.createdAt < seq)
    (hCurrent : ∀ address, CurrentAt seq m d address) (address : DocumentAddress) : CurrentAt seq m' d' address := by
  have hKeyed := hBetween.documents.1
  have hAlive := mem_alive_after hKeyed hAfter hSqlite
  have hCases := turn_cases hBetween hFits hAfter
  have hCreated : ∀ x found, d'.documents.lookup x = some found → found.createdAt < seq →
      ∃ before, d.documents.lookup x = some before ∧ before.createdAt < seq := by
    intro x found hFound hLess
    rw [hSqlite.documents, hAfter] at hFound
    split_ifs at hFound with hId
    · rw [← some.inj hFound] at hLess
      rcases hCases with ⟨create, -, -, -, rfl⟩ | ⟨existing, -, hExisting, -, -, hSame, -⟩
      · exact absurd hLess (Nat.lt_irrefl seq)
      · rw [hId]
        exact ⟨existing, hExisting, hSame ▸ hLess⟩
    · exact ⟨found, hFound, hLess⟩
  obtain ⟨hIn, -, hOnly⟩ := hCurrent address
  have hKeep := @CurrentAt.keep seq m m' d d' address (hCurrent address) hCreated
  have hNotOld : ∀ x, m.currentOf address = some x → d.documents.lookup id = none → x ≠ id := by
    rintro x hx hNone rfl
    obtain ⟨found, hFound, -⟩ := (mem_alive hKeyed address x).mp (hIn x hx)
    rw [hNone] at hFound
    exact some_ne_none _ hFound.symm
  have hCurrentAfter := hMemory.current address
  by_cases hAddress : address = record.address
  swap
  · -- another address
    rw [if_neg hAddress] at hCurrentAfter
    refine hKeep hCurrentAfter (fun y hy => ?_) fun x hx => ?_
    · rw [hAlive] at hy
      split_ifs at hy with hId
      · exact absurd hy.1.symm hAddress
      · exact hy
    · have hMem := hIn x hx
      have hNe : x ≠ id := by
        rintro rfl
        obtain ⟨found, hFound, hFoundAddress, -⟩ := (mem_alive hKeyed address x).mp hMem
        rcases hCases with ⟨create, -, -, hNone, -⟩ | ⟨existing, -, hExisting, -, hSame, -⟩
        · exact hNotOld x hx hNone rfl
        · rw [hExisting] at hFound
          rw [← some.inj hFound] at hFoundAddress
          exact hAddress (by rw [← hFoundAddress]; exact congrArg DocumentCreate.address hSame.symm)
      rw [hAlive, if_neg hNe]
      exact hMem
  rw [if_pos hAddress] at hCurrentAfter
  rcases hCases with ⟨create, hCreate, -, hNone, hRecord⟩ | ⟨existing, hCreate, hExisting, hUnretired, hSame, -, hRetired⟩
  · cases hRetire : action.retire with
    | false =>
      -- the new incarnation is the current one
      have hNow : m'.currentOf address = some id := by
        rw [hCurrentAfter, Memory.currentAfter, if_pos (by simp [hCreate, hRetire])]
      rw [CurrentAt, hNow]
      refine ⟨?_, fun _ _ => some_ne_none _, ?_⟩
      · intro x hx
        rw [← some.inj hx, hAlive, if_pos rfl, hAddress, hRecord, hRetire]
        exact ⟨rfl, rfl⟩
      · intro x found hx hFound hLess
        rw [← some.inj hx, hSqlite.documents, if_pos rfl, hAfter, some.injEq] at hFound
        rw [← hFound, hRecord] at hLess
        exact absurd hLess (Nat.lt_irrefl seq)
    | true =>
      have hSameCurrent : m'.currentOf address = m.currentOf address := by
        rw [hCurrentAfter, Memory.currentAfter, if_neg (by simp [hRetire]), if_neg]
        rintro ⟨-, hx⟩
        exact hNotOld id hx hNone rfl
      refine hKeep hSameCurrent (fun y hy => ?_) fun x hx => ?_
      · rw [hAlive] at hy
        split_ifs at hy with hId
        · rw [hRecord, hRetire] at hy
          exact absurd hy.2 (some_ne_none _)
        · exact hy
      · rw [hAlive, if_neg (hNotOld x hx hNone)]
        exact hIn x hx
  · cases hRetire : action.retire with
    | false =>
      have hSameCurrent : m'.currentOf address = m.currentOf address := by
        rw [hCurrentAfter, Memory.currentAfter, if_neg (by simp [hCreate]), if_neg (by simp [hRetire])]
      have hSameAlive : ∀ y, y ∈ alive d' address ↔ y ∈ alive d address := by
        intro y
        rw [hAlive]
        split_ifs with hId
        · rw [hId, mem_alive hKeyed, hRetired, hRetire]
          refine iff_of_true ⟨hAddress.symm, rfl⟩ ⟨existing, hExisting, ?_, hUnretired⟩
          rw [hAddress]
          exact congrArg DocumentCreate.address hSame.symm
        · rfl
      exact hKeep hSameCurrent (fun y hy => (hSameAlive y).mp hy) fun x hx => (hSameAlive x).mpr (hIn x hx)
    | true =>
      have hGone : ∀ y, y ∈ alive d' address ↔ y ≠ id ∧ y ∈ alive d address := by
        intro y
        rw [hAlive]
        split_ifs with hId
        · rw [hRetired, hRetire]
          simp [hId]
        · simp [hId]
      by_cases hWas : m.currentOf address = some id
      · -- the only one alive goes
        have hNow : m'.currentOf address = none := by
          rw [hCurrentAfter, Memory.currentAfter, if_neg (by simp [hCreate]), if_pos ⟨hRetire, hWas⟩]
        have hEmpty : ∀ y, y ∉ alive d' address := by
          intro y hy
          obtain ⟨hNe, hMem⟩ := (hGone y).mp hy
          exact hNe (hOnly id existing hWas hExisting (hOlder existing hExisting) y hMem)
        rw [CurrentAt, hNow]
        refine ⟨fun x hx => absurd hx.symm (some_ne_none x), fun y hy => absurd hy (hEmpty y), ?_⟩
        exact fun x _ hx => absurd hx.symm (some_ne_none x)
      · have hSameCurrent : m'.currentOf address = m.currentOf address := by
          rw [hCurrentAfter, Memory.currentAfter, if_neg (by simp [hCreate]), if_neg fun h => hWas h.2]
        refine hKeep hSameCurrent (fun y hy => ((hGone y).mp hy).2) fun x hx => (hGone x).mpr ⟨?_, hIn x hx⟩
        rintro rfl
        exact hWas hx

end Turn

/-- How a record came about in the batch that a seq numbers. -/
def Descends (seq : Nat) (before : Option DocumentRecord) (record : DocumentRecord) : Prop :=
  (∀ retired, record.retiredAt = some retired → retired ≤ seq) ∧
    (record.createdAt = seq ∨ ∃ old, before = some old ∧ record.toDocumentCreate = old.toDocumentCreate ∧
      record.createdAt = old.createdAt ∧
      (record.retiredAt = old.retiredAt ∨ old.retiredAt = none ∧ record.retiredAt = some seq))

/-- Both storages between two turns of the loop, with the actions still to come. -/
structure Loop (seq : Nat) (total : DocumentAddress → Int) (d₀ : Sqlite) (pending : Memory.DocumentActions)
    (m : Memory) (d : Sqlite) : Prop where
  mirror : Mirror m d
  between : Between d
  distinct : (pending.map Prod.fst).Nodup
  fits : ∀ entry ∈ pending, Fits d entry.1 entry.2
  untouched : ∀ entry ∈ pending, d.documents.lookup entry.1 = d₀.documents.lookup entry.1
  older : ∀ entry ∈ pending, ∀ revision ∈ revisions d entry.1, revision.seq < seq
  sorted : ∀ id, (revisions d id).Pairwise (fun a b => a.seq < b.seq) ∧ ∀ revision ∈ revisions d id, revision.seq ≤ seq
  current : ∀ address, CurrentAt seq m d address
  count : ∀ address, ((alive d address).length : Int) +
    (pending.map fun entry => aliveChange (d₀.documents.lookup entry.1) address entry.2).sum = total address
  history : ∀ id record, d.documents.lookup id = some record → Descends seq (d₀.documents.lookup id) record
  claims : ∀ id table, d₀.recordIds.lookup id = some table → d.recordIds.lookup id = some table
  same : d = { d₀ with recordIds := d.recordIds, documents := d.documents, documentRevisions := d.documentRevisions }

variable {d : Sqlite} {pending : Memory.DocumentActions} {total : DocumentAddress → Int} {seq : Nat} {m : Memory}

theorem Loop.step {d₀ : Sqlite} {entry : Nat × Memory.DocumentAction} (h : Loop seq total d₀ (entry :: pending) m d)
    (hOld : ∀ id record, d₀.documents.lookup id = some record → record.createdAt < seq) :
    Loop seq total d₀ pending (Memory.applyDocumentAction seq m entry) (Sqlite.applyDocumentAction seq d entry) := by
  obtain ⟨id, action⟩ := entry
  have hFits := h.fits (id, action) mem_cons_self
  have hUntouched := h.untouched (id, action) mem_cons_self
  obtain ⟨record, hAfter⟩ := recordAfter_some hFits seq
  have hSqlite := Sqlite.effect h.between.documents.1 h.between.keyedIds hFits seq
  have hMemory : Memory.Effect seq id action record (revisions d id) m (Memory.applyDocumentAction seq m (id, action)) := by
    rcases turn_cases h.between hFits hAfter with ⟨create, hCreate, -, hNone, -⟩ | ⟨existing, hCreate, hExisting, -⟩
    · rw [h.between.owned id hNone]
      rw [hNone] at hAfter
      exact Memory.effect_create m hCreate seq hAfter
    · have hStored := h.mirror.documents id
      rw [hExisting] at hStored hAfter
      exact Memory.effect_existing m hCreate seq hStored hAfter
  have hDistinct := List.nodup_cons.mp h.distinct
  have hOther : ∀ entry ∈ pending, entry.1 ≠ id := by
    intro entry hEntry hSame
    exact hDistinct.1 (List.mem_map.mpr ⟨entry, hEntry, hSame⟩)
  generalize Memory.applyDocumentAction seq m (id, action) = m' at hMemory
  generalize Sqlite.applyDocumentAction seq d (id, action) = d' at hSqlite
  refine {
    mirror := h.mirror.of_effects h.between hFits hAfter hMemory hSqlite
    between := Between.turn h.between hFits hAfter hSqlite
    distinct := hDistinct.2
    fits := fun entry hEntry => ?_
    untouched := fun entry hEntry => ?_
    older := fun entry hEntry => ?_
    sorted := turn_sorted hAfter hSqlite (h.older (id, action) mem_cons_self) h.sorted
    current := turn_current h.between hFits hAfter hSqlite hMemory (fun existing hExisting => ?_) h.current
    count := fun address => ?_
    history := fun other found hFound => ?_
    claims := fun other table hTable => ?_
    same := ?_ }
  · have hFitsEntry := h.fits entry (mem_cons_of_mem _ hEntry)
    rw [Fits] at hFitsEntry ⊢
    rw [hSqlite.recordIds, if_neg fun hSame => hOther entry hEntry hSame.1, hSqlite.documents,
      if_neg (hOther entry hEntry)]
    exact hFitsEntry
  · rw [hSqlite.documents, if_neg (hOther entry hEntry)]
    exact h.untouched entry (mem_cons_of_mem _ hEntry)
  · rw [hSqlite.revisions entry.1 record hAfter, if_neg (hOther entry hEntry)]
    exact h.older entry (mem_cons_of_mem _ hEntry)
  · rw [hUntouched] at hExisting
    exact hOld id existing hExisting
  · have hCount := h.count address
    rw [length_alive_after h.between hFits hAfter hSqlite, hUntouched, ← hCount]
    simp only [map_cons, sum_cons]
    omega
  · rw [hSqlite.documents, hAfter] at hFound
    split_ifs at hFound with hId
    · rw [← some.inj hFound, hId, ← hUntouched]
      rcases turn_cases h.between hFits hAfter with ⟨create, -, -, -, hRecord⟩ |
        ⟨existing, -, hExisting, hUnretired, hSame, hCreatedAt, hRetired⟩
      · rw [hRecord]
        refine ⟨fun retired hRetired => ?_, Or.inl rfl⟩
        simp only at hRetired
        split_ifs at hRetired
        exact Nat.le_of_eq (some.inj hRetired).symm
      · refine ⟨fun retired hSome => ?_, Or.inr ⟨existing, hExisting, hSame, hCreatedAt, ?_⟩⟩
        · rw [hRetired] at hSome
          split_ifs at hSome
          exact Nat.le_of_eq (some.inj hSome).symm
        · rw [hRetired, hUnretired]
          cases action.retire
          · exact Or.inl rfl
          · exact Or.inr ⟨rfl, rfl⟩
    · exact h.history other found hFound
  · rw [hSqlite.recordIds]
    split_ifs with hClaim
    · have hFree : d.recordIds.lookup id = none := by
        obtain ⟨create, hCreate⟩ := Option.isSome_iff_exists.mp hClaim.2
        rw [Fits, hCreate] at hFits
        exact hFits.2
      rw [hClaim.1] at hTable
      rw [h.claims id table hTable] at hFree
      exact absurd hFree (some_ne_none _)
    · exact h.claims other table hTable
  · rw [hSqlite.same]
    have hSame := h.same
    generalize d.recordIds = a at hSame
    generalize d.documents = b at hSame
    generalize d.documentRevisions = c at hSame
    rw [hSame]

theorem Loop.run {d₀ : Sqlite} (h : Loop seq total d₀ pending m d)
    (hOld : ∀ id record, d₀.documents.lookup id = some record → record.createdAt < seq) :
    Loop seq total d₀ [] (pending.foldl (Memory.applyDocumentAction seq) m)
      (pending.foldl (Sqlite.applyDocumentAction seq) d) := by
  induction pending generalizing m d with
  | nil => exact h
  | cons entry rest ih => exact ih (h.step hOld)

/-! Before and after the loop. -/

theorem alive_unique (hKeyed : Table.Keyed d.documents) (hExclusive : Sqlite.Exclusive d.documents)
    {address : DocumentAddress} {x y : Nat} (hx : x ∈ alive d address) (hy : y ∈ alive d address) : x = y := by
  obtain ⟨first, hFirst, hFirstAddress, hFirstAlive⟩ := (mem_alive hKeyed address x).mp hx
  obtain ⟨second, hSecond, hSecondAddress, hSecondAlive⟩ := (mem_alive hKeyed address y).mp hy
  exact hExclusive x y first second hFirst hSecond (hFirstAddress.trans hSecondAddress.symm) .current
    (by simp [isAliveAt, hFirstAlive]) (by simp [isAliveAt, hSecondAlive])

/-- The number of incarnations alive after all the actions. -/
def aliveAfter (d : Sqlite) (actions : Memory.DocumentActions) (address : DocumentAddress) : Int :=
  (alive d address).length + (actions.map fun entry => aliveChange (d.documents.lookup entry.1) address entry.2).sum

theorem Loop.start (hMirror : Mirror m d) (hCurrent : Current m d) (hStored : Stored d) {actions : Memory.DocumentActions}
    (hDistinct : (actions.map Prod.fst).Nodup) (hFits : ∀ entry ∈ actions, Fits d entry.1 entry.2) :
    Loop d.nextSeq (aliveAfter d actions) d actions m d := by
  have hKeyed := hStored.kept.documents.1
  refine {
    mirror := hMirror
    between := ⟨hStored.filed.ids, hStored.kept.documents, hStored.filed.documents, hStored.kept.owned⟩
    distinct := hDistinct
    fits := hFits
    untouched := fun _ _ => rfl
    older := fun entry _ revision hRevision => (hStored.kept.revisions entry.1).2 revision hRevision
    sorted := fun id => ⟨(hStored.kept.revisions id).1, fun revision hRevision =>
      Nat.le_of_lt ((hStored.kept.revisions id).2 revision hRevision)⟩
    current := fun address => ?_
    count := fun address => rfl
    history := fun id record hLookup => ?_
    claims := fun _ _ hTable => hTable
    same := rfl }
  · have hHead : m.currentOf address = (alive d address).head? := hCurrent address
    refine ⟨fun x hx => ?_, fun y hy => ?_, fun x record hx _ _ y hy => ?_⟩
    · rw [hHead] at hx
      exact mem_of_head? hx
    · rw [hHead, ne_eq, head?_eq_none_iff]
      rintro hEmpty
      rw [hEmpty] at hy
      exact not_mem_nil hy
    · rw [hHead] at hx
      exact alive_unique hKeyed hStored.kept.exclusive hy (mem_of_head? hx)
  · obtain ⟨hCreated, hRetired⟩ := hStored.kept.timeline id record hLookup
    exact ⟨fun retired hSome => Nat.le_of_lt (hRetired retired hSome),
      Or.inr ⟨record, hLookup, rfl, rfl, Or.inl rfl⟩⟩

variable {before : Option DocumentRecord} {record : DocumentRecord}

theorem Descends.alive_before {point : Nat}
    (h : Descends seq before record) (hPoint : point < seq) (hAlive : isAliveAt record (.at point) = true) :
    ∃ old, before = some old ∧ old.address = record.address ∧ isAliveAt old (.at point) = true := by
  simp only [isAliveAt, Bool.and_eq_true, decide_eq_true_eq] at hAlive
  rcases h.2 with hNew | ⟨old, hOld, hSame, hCreated, hRetired⟩
  · omega
  · refine ⟨old, hOld, congrArg DocumentCreate.address hSame.symm, ?_⟩
    simp only [isAliveAt, Bool.and_eq_true, decide_eq_true_eq]
    refine ⟨hCreated ▸ hAlive.1, ?_⟩
    rcases hRetired with hKept | ⟨hNone, -⟩
    · rw [← hKept]
      exact hAlive.2
    · rw [hNone]
      rfl

theorem Descends.alive_after {point : Nat}
    (h : Descends seq before record) (hPoint : seq ≤ point) (hAlive : isAliveAt record (.at point) = true) :
    record.retiredAt = none := by
  simp only [isAliveAt, Bool.and_eq_true, decide_eq_true_eq] at hAlive
  cases hRetired : record.retiredAt with
  | none => rfl
  | some retired =>
    rw [hRetired] at hAlive
    have hLe := h.1 retired hRetired
    simp only [all_some, decide_eq_true_eq] at hAlive
    omega

section Finish

variable {seq : Nat} {total : DocumentAddress → Int} {d₀ d : Sqlite} {m : Memory} (h : Loop seq total d₀ [] m d)
  (hTotal : ∀ address, total address ≤ 1)

include h hTotal

theorem Loop.alive_le_one (address : DocumentAddress) : (alive d address).length ≤ 1 := by
  have hCount := h.count address
  simp only [map_nil, sum_nil] at hCount
  have hLe := hTotal address
  omega

theorem Loop.exclusive (hExclusive : Sqlite.Exclusive d₀.documents) : Sqlite.Exclusive d.documents := by
  have hOne : ∀ {a b first second}, d.documents.lookup a = some first → d.documents.lookup b = some second →
      first.address = second.address → first.retiredAt = none → second.retiredAt = none → a = b := by
    intro a b first second hFirst hSecond hAddress hFirstAlive hSecondAlive
    have ha := (mem_alive h.between.documents.1 second.address a).mpr ⟨first, hFirst, hAddress, hFirstAlive⟩
    have hb := (mem_alive h.between.documents.1 second.address b).mpr ⟨second, hSecond, rfl, hSecondAlive⟩
    have hLength := h.alive_le_one hTotal second.address
    match hList : alive d second.address, hLength with
    | [], _ => rw [hList] at ha; exact absurd ha not_mem_nil
    | [x], _ =>
      rw [hList, mem_singleton] at ha hb
      rw [ha, hb]
  intro a b first second hFirst hSecond hAddress point hFirstAlive hSecondAlive
  cases point with
  | current =>
    exact hOne hFirst hSecond hAddress (by simpa [isAliveAt] using hFirstAlive) (by simpa [isAliveAt] using hSecondAlive)
  | «at» point =>
    have hA := h.history a first hFirst
    have hB := h.history b second hSecond
    by_cases hPoint : point < seq
    · obtain ⟨oldA, hOldA, hAddressA, hAliveA⟩ := hA.alive_before hPoint hFirstAlive
      obtain ⟨oldB, hOldB, hAddressB, hAliveB⟩ := hB.alive_before hPoint hSecondAlive
      exact hExclusive a b oldA oldB hOldA hOldB ((hAddressA.trans hAddress).trans hAddressB.symm) _ hAliveA hAliveB
    · exact hOne hFirst hSecond hAddress (hA.alive_after (by omega) hFirstAlive) (hB.alive_after (by omega) hSecondAlive)

theorem Loop.current_eq : Current m d := by
  intro address
  obtain ⟨hIn, hSome, -⟩ := h.current address
  have hLength := h.alive_le_one hTotal address
  change m.currentOf address = (alive d address).head?
  match hList : alive d address, hLength with
  | [], _ =>
    cases hCurrent : m.currentOf address with
    | none => rfl
    | some x =>
      have hMem := hIn x hCurrent
      rw [hList] at hMem
      exact absurd hMem not_mem_nil
  | [x], _ =>
    cases hCurrent : m.currentOf address with
    | none => exact absurd hCurrent (hSome x (by rw [hList]; exact mem_singleton_self x))
    | some y =>
      have hMem := hIn y hCurrent
      rw [hList, mem_singleton] at hMem
      rw [hMem]
      rfl

theorem Loop.stored (hStored : Stored d₀) (hSeq : d₀.nextSeq = seq) (nextId : Nat) :
    Stored { d with nextId, nextSeq := seq + 1 } := by
  have hExclusive := h.exclusive hTotal hStored.kept.exclusive
  have hTimeline : ∀ id record, d.documents.lookup id = some record →
      record.createdAt < seq + 1 ∧ ∀ retired, record.retiredAt = some retired → retired < seq + 1 := by
    intro id record hLookup
    obtain ⟨hRetired, hCreated⟩ := h.history id record hLookup
    refine ⟨?_, fun retired hSome => Nat.lt_succ_of_le (hRetired retired hSome)⟩
    rcases hCreated with hNew | ⟨old, hOld, -, hSame, -⟩
    · omega
    · have hLess := (hStored.kept.timeline id old hOld).1
      omega
  have hDated : Sqlite.Dated d.documentRevisions (seq + 1) := by
    intro id
    obtain ⟨hSorted, hLe⟩ := h.sorted id
    exact ⟨hSorted, fun revision hMem => Nat.lt_succ_of_le (hLe revision hMem)⟩
  have hBetween := h.between
  have hClaims := h.claims
  obtain ⟨ids, rows, revisionRows, rfl⟩ : ∃ ids rows revisionRows, d = { d₀ with
      recordIds := ids, documents := rows, documentRevisions := revisionRows } := ⟨_, _, _, h.same⟩
  refine ⟨?_, ?_⟩
  · exact { hStored.kept with
      documents := hBetween.documents
      exclusive := hExclusive
      timeline := hTimeline
      revisions := hDated
      owned := hBetween.owned }
  · exact {
      ids := hBetween.keyedIds
      conversations := fun id hLookup => hClaims id _ (hStored.filed.conversations id hLookup)
      entries := fun id hLookup => hClaims id _ (hStored.filed.entries id hLookup)
      tasks := fun id hLookup => hClaims id _ (hStored.filed.tasks id hLookup)
      submissions := fun id hLookup => hClaims id _ (hStored.filed.submissions id hLookup)
      documents := hBetween.filed }

end Finish

end OctoberHarness.Storage
