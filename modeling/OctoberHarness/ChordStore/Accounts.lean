import OctoberHarness.ChordStore.Turns

/-! What every turn keeps: the allocator covers every record, no id is given
twice or to a record that exists, and the catalog is written as the steps have
it. -/
namespace OctoberHarness.ChordStore

open List OrderedMap

open Storage (MAX_SAFE_INTEGER)

variable {R T D C α : Type}

/-- No id was given twice, nor was the id of a record that existed then. -/
structure Ids.Sound (ids : Ids) : Prop where
  range : ids.allocator.next ≤ MAX_SAFE_INTEGER
  below : ∀ mint ∈ ids.minted, mint.id < ids.allocator.next
  distinct : (ids.minted.map Mint.id).Nodup
  fresh : ∀ mint ∈ ids.minted, mint.id ∉ mint.existing

/-- Later ids of an allocator. -/
structure Ids.Grows (ids after : Ids) : Prop where
  sound : after.Sound
  le : ids.allocator.next ≤ after.allocator.next

/-- The allocator mints none of these ids. -/
def Ids.Cover (ids : Ids) (existing : List Nat) : Prop :=
  ∀ id ∈ existing, ids.allocator.Covers id

variable {ids after : Ids} {existing : List Nat}

theorem Ids.Sound.refl (h : ids.Sound) : ids.Grows ids :=
  ⟨h, Nat.le_refl _⟩

theorem Ids.Grows.trans {middle : Ids} (h : ids.Grows middle) (hNext : middle.Grows after) :
    ids.Grows after :=
  ⟨hNext.sound, Nat.le_trans h.le hNext.le⟩

theorem Ids.Grows.covers (h : ids.Grows after) {id : Nat} (hCovers : ids.allocator.Covers id) : after.allocator.Covers id :=
  hCovers.mono h.le h.sound.range

theorem Ids.Grows.cover (h : ids.Grows after) (hCover : ids.Cover existing) : after.Cover existing :=
  fun id hId => h.covers (hCover id hId)

/-- A minted id is new: the allocator covers what exists and what it gave. -/
theorem Ids.Sound.take (h : ids.Sound) {id : Nat} {allocator : IdAllocator} (hCover : ids.Cover existing)
    (hMint : ids.allocator.mint = some (id, allocator)) :
    ids.Grows (ids.take id allocator existing) ∧ (ids.take id allocator existing).allocator.Covers id := by
  obtain ⟨rfl, hNext, hLess⟩ := IdAllocator.mint_eq_some hMint
  have hNew : ids.allocator.next ∉ existing := by
    intro hMem
    rcases hCover _ hMem with hBelow | hFull
    · exact Nat.lt_irrefl _ hBelow
    · exact Nat.ne_of_lt hLess hFull
  refine ⟨⟨⟨?_, ?_, ?_, ?_⟩, ?_⟩, Or.inl ?_⟩
  · simp only [Ids.take, hNext]
    exact hLess
  · intro mint hMem
    simp only [Ids.take, mem_append, mem_singleton] at hMem ⊢
    rw [hNext]
    rcases hMem with hOld | rfl
    · exact Nat.lt_succ_of_lt (h.below mint hOld)
    · exact Nat.lt_succ_self _
  · simp only [Ids.take, map_append, map_cons, map_nil]
    rw [nodup_append]
    refine ⟨h.distinct, by simp, ?_⟩
    rintro a ha b hb rfl
    obtain ⟨mint, hMem, rfl⟩ := mem_map.mp ha
    rw [mem_singleton] at hb
    exact Nat.ne_of_lt (h.below mint hMem) hb
  · intro mint hMem
    simp only [Ids.take, mem_append, mem_singleton] at hMem
    rcases hMem with hOld | rfl
    · exact h.fresh mint hOld
    · exact hNew
  · simp only [Ids.take, hNext]
    exact Nat.le_succ _
  · simp only [Ids.take, hNext]
    exact Nat.lt_succ_self _

theorem Ids.Sound.raise (h : ids.Sound) (id : Nat) :
    ids.Grows { ids with allocator := ids.allocator.raise id } := by
  have hLe := IdAllocator.le_raise h.range id
  refine ⟨⟨IdAllocator.raise_range h.range id, ?_, h.distinct, h.fresh⟩, hLe⟩
  intro mint hMem
  exact Nat.lt_of_lt_of_le (h.below mint hMem) hLe

theorem Meanwhile.grows {mints : Bool} (h : Meanwhile mints existing ids after) (hSound : ids.Sound)
    (hCover : mints = true → ids.Cover existing) : ids.Grows after := by
  induction h with
  | nothing => exact hSound.refl
  | mint earlier hMints hMint ih =>
    exact ih.trans (ih.sound.take (ih.cover (hCover hMints)) hMint).1
  | raise earlier id ih =>
    exact ih.trans (ih.sound.raise id)

/-- A turn whose ids cover its records. -/
structure Turn.Sound (turn : Turn R T) : Prop where
  ids : turn.ids.Sound
  cover : turn.ids.Cover turn.content.ids
  tables : (turn.step.tables.map Prod.fst).Nodup

variable {program : Prog R T α} {result : Except Thrown α} {allowed : Nat → Prop}

/-- A program of a commit keeps the records covered, whatever happens meanwhile. -/
theorem Runs.sound {turn after : Turn R T} (h : Runs true program turn result after) (hInserts : program.Inserts allowed)
    (hAllowed : ∀ id, allowed id → turn.ids.allocator.Covers id) (hSound : turn.Sound) :
    after.Sound ∧ turn.ids.Grows after.ids := by
  induction h generalizing allowed with
  | done _ => exact ⟨hSound, hSound.ids.refl⟩
  | throw _ => exact ⟨hSound, hSound.ids.refl⟩
  | query call rest ih =>
    have hGrows := call.grows hSound.ids fun _ => hSound.cover
    have hRest := ih (hInserts _) (fun id hId => hGrows.covers (hAllowed id hId))
      ⟨hGrows.sound, hGrows.cover hSound.cover, hSound.tables⟩
    exact ⟨hRest.1, hGrows.trans hRest.2⟩
  | queryFailed fault call =>
    have hGrows := call.grows hSound.ids fun _ => hSound.cover
    exact ⟨⟨hGrows.sound, hGrows.cover hSound.cover, hSound.tables⟩, hGrows⟩
  | @run turn after statement next result content count ids hExec call rest ih =>
    have hCover : turn.ids.Cover content.ids := by
      intro id hId
      rcases Statement.exec_ids hExec hId with hOld | hNew
      · exact hSound.cover id hOld
      · exact hAllowed id (hInserts.1 id hNew)
    have hGrows := call.grows hSound.ids fun _ => hCover
    have hRest := ih (hInserts.2 count) (fun id hId => hGrows.covers (hAllowed id hId))
      ⟨hGrows.sound, hGrows.cover hCover, hSound.tables⟩
    exact ⟨hRest.1, hGrows.trans hRest.2⟩
  | runFailed fault call =>
    have hGrows := call.grows hSound.ids fun _ => hSound.cover
    exact ⟨⟨hGrows.sound, hGrows.cover hSound.cover, hSound.tables⟩, hGrows⟩
  | mint hMint rest ih =>
    obtain ⟨hGrows, hNew⟩ := hSound.ids.take hSound.cover hMint
    have hRest := ih (hInserts _)
      (fun id hId => hId.elim (fun hOld => hGrows.covers (hAllowed id hOld)) fun hSame => hSame ▸ hNew)
      ⟨hGrows.sound, hGrows.cover hSound.cover, hSound.tables⟩
    exact ⟨hRest.1, hGrows.trans hRest.2⟩
  | mintFailed _ => exact ⟨hSound, hSound.ids.refl⟩
  | created rest ih => exact ih hInserts hAllowed ⟨hSound.ids, hSound.cover, hSound.tables⟩
  | table rest ih => exact ih (hInserts _) hAllowed hSound
  | setTable rest ih =>
    exact ih hInserts hAllowed ⟨hSound.ids, hSound.cover, nodup_keys_set _ _ _ hSound.tables⟩

theorem Runs.confined {turn after : Turn R T} (h : Runs false program turn result after) (hConfined : program.Confined allowed)
    (hSound : turn.ids.Sound) (hTables : (turn.step.tables.map Prod.fst).Nodup) :
    turn.ids.Grows after.ids ∧ (after.step.tables.map Prod.fst).Nodup ∧
      ∀ id ∈ after.content.ids, id ∈ turn.content.ids ∨ allowed id := by
  induction h with
  | done _ => exact ⟨hSound.refl, hTables, fun id hId => Or.inl hId⟩
  | throw _ => exact ⟨hSound.refl, hTables, fun id hId => Or.inl hId⟩
  | query call rest ih =>
    have hGrows := call.grows hSound (by simp)
    have hRest := ih (hConfined _) hGrows.sound hTables
    exact ⟨hGrows.trans hRest.1, hRest.2⟩
  | queryFailed fault call => exact ⟨call.grows hSound (by simp), hTables, fun id hId => Or.inl hId⟩
  | run hExec call rest ih =>
    have hGrows := call.grows hSound (by simp)
    obtain ⟨hRest, hNodup, hIds⟩ := ih (hConfined.2 _) hGrows.sound hTables
    refine ⟨hGrows.trans hRest, hNodup, fun id hId => ?_⟩
    rcases hIds id hId with hMem | hAllowed
    · exact (Statement.exec_ids hExec hMem).imp_right (hConfined.1 id)
    · exact Or.inr hAllowed
  | runFailed fault call => exact ⟨call.grows hSound (by simp), hTables, fun id hId => Or.inl hId⟩
  | mint hMint rest ih => exact hConfined.elim
  | mintFailed _ => exact hConfined.elim
  | created rest ih => exact ih hConfined hSound hTables
  | table rest ih => exact ih (hConfined _) hSound hTables
  | setTable rest ih => exact ih hConfined hSound (nodup_keys_set _ _ _ hTables)

theorem Checks.grows {content : Content R} {step : Step T} {check : Check R T C} {failed after : Bool}
    {last : Ids} {result : Except Thrown C} (h : Checks content step check failed ids result after last)
    (hSound : ids.Sound) (hCover : ids.Cover content.ids) : ids.Grows last := by
  induction h with
  | done _ => exact hSound.refl
  | throw _ => exact hSound.refl
  | query call rest ih =>
    have hGrows := call.grows hSound fun _ => hCover
    exact hGrows.trans (ih hGrows.sound (hGrows.cover hCover))
  | queryFailed fault call rest ih =>
    have hGrows := call.grows hSound fun _ => hCover
    exact hGrows.trans (ih hGrows.sound (hGrows.cover hCover))
  | table rest ih => exact ih hSound hCover

/-- Every record has its id below the recorded next id, and each table one record. -/
structure Database.Sound (db : Database R T D) : Prop where
  range : db.row.nextId ≤ MAX_SAFE_INTEGER
  cover : ∀ id ∈ db.content.ids, (IdAllocator.mk db.row.nextId).Covers id
  tables : (db.tables.map Prod.fst).Nodup

variable {catalog : Catalog T}

theorem nodup_writeCatalog (h : (catalog.map Prod.fst).Nodup) (changed : Catalog T) :
    ((writeCatalog catalog changed).map Prod.fst).Nodup := by
  induction changed generalizing catalog with
  | nil => exact h
  | cons entry rest ih => exact ih (nodup_keys_set _ _ _ h)

theorem lookup_writeCatalog {changed : Catalog T} (h : (changed.map Prod.fst).Nodup) (catalog : Catalog T) (name : String) :
    (writeCatalog catalog changed).lookup name = (changed.lookup name).or (catalog.lookup name) :=
  lookup_foldl_set h catalog name

/-- The writes of a step, on any database whose records the ids cover. -/
theorem Writes.sound {outbox : Bool} {db : Database R T D} {seq : Nat} {writes : List (StagedWrite R T D)}
    {result : Except Thrown (Written R T D)} (h : Writes outbox catalog db seq writes ids result after) (hSound : ids.Sound)
    (hCover : ids.Cover db.content.ids) (hExplicit : ids.Cover (explicitIds writes)) :
    ids.Grows after ∧ ∀ written, result = .ok written →
      written.nextId ≤ after.allocator.next ∧
      (∀ id ∈ written.db.content.ids, (IdAllocator.mk written.nextId).Covers id) ∧
      (written.step.tables.map Prod.fst).Nodup ∧ written.db.row = db.row ∧
      written.db.tables = writeCatalog db.tables written.step.tables := by
  have hTurn : (Turn.mk db.content ids (Step.start seq catalog)).Sound := ⟨hSound, hCover, nodup_nil⟩
  cases h with
  | thrown runs =>
    have hRuns := (runs.sound (inserts_applyAll seq writes) hExplicit hTurn).2
    exact ⟨hRuns, fun written h => by cases h⟩
  | failed fault runs calls =>
    obtain ⟨hAfter, hRuns⟩ := runs.sound (inserts_applyAll seq writes) hExplicit hTurn
    exact ⟨hRuns.trans (calls.grows hAfter.ids fun _ => hAfter.cover), fun written h => by cases h⟩
  | written runs catalogCalls outboxCall =>
    obtain ⟨hAfter, hRuns⟩ := runs.sound (inserts_applyAll seq writes) hExplicit hTurn
    have hCatalog := catalogCalls.grows hAfter.ids fun _ => hAfter.cover
    have hOutbox := outboxCall.grows hCatalog.sound fun _ => hCatalog.cover hAfter.cover
    refine ⟨hRuns.trans (hCatalog.trans hOutbox), ?_⟩
    rintro written h
    obtain rfl := Except.ok.inj h
    exact ⟨hOutbox.le, hCatalog.cover hAfter.cover, hAfter.tables, rfl, rfl⟩

end OctoberHarness.ChordStore
