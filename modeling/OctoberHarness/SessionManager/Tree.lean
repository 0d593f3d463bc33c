import OctoberHarness.SessionManager.Manager

/-! The tree of a session: what every operation keeps, and what one that throws
leaves. -/
namespace OctoberHarness.SessionManager

open List Option

/-- Every parent is an earlier entry. -/
def ChainedFrom (earlier : List JsString) : List Entry → Prop
  | [] => True
  | entry :: rest => (∀ parent ∈ entry.parentId, parent ∈ earlier) ∧ ChainedFrom (earlier ++ [entry.id]) rest

theorem chainedFrom_append (earlier : List JsString) (first second : List Entry) :
    ChainedFrom earlier (first ++ second) ↔
      ChainedFrom earlier first ∧ ChainedFrom (earlier ++ first.map Entry.id) second := by
  induction first generalizing earlier with
  | nil => simp [ChainedFrom]
  | cons entry rest ih =>
    rw [cons_append, ChainedFrom, ChainedFrom, ih, map_cons, append_assoc, and_assoc]
    rfl

/-- What the index keeps of the entries. -/
def Manager.index (m : Manager) : List (JsString × Entry) × List (JsString × JsString) × List (JsString × JsString) :=
  (m.byId, m.labelsById, m.labelTimestampsById)

/-- The session is a tree, and its index is what building it anew gives. -/
structure Sound (m : Manager) : Prop where
  unique : (m.entries.map Entry.id).Nodup
  named : ∀ entry ∈ m.entries, entry.id ≠ []
  parents : ChainedFrom [] m.entries
  leaf : ∀ id ∈ m.leafId, id ∈ m.entries.map Entry.id
  index : m.index = m.buildIndex.index

variable (m : Manager)

theorem setLabel_frame (targetId : JsString) (label : Option JsString) (timestamp : JsString) :
    (m.setLabel targetId label timestamp).entries = m.entries ∧ (m.setLabel targetId label timestamp).byId = m.byId ∧
      (m.setLabel targetId label timestamp).leafId = m.leafId ∧ (m.setLabel targetId label timestamp).header = m.header := by
  cases label with
  | none => exact ⟨rfl, rfl, rfl, rfl⟩
  | some label => cases label <;> exact ⟨rfl, rfl, rfl, rfl⟩

theorem indexed_entries (entry : Entry) : (m.indexed entry).entries = m.entries := by
  rw [Manager.indexed]
  split
  · exact (setLabel_frame _ _ _ _).1
  · rfl

theorem indexed_leafId (entry : Entry) : (m.indexed entry).leafId = some entry.id := by
  rw [Manager.indexed]
  split
  · exact (setLabel_frame _ _ _ _).2.2.1
  · rfl

theorem indexed_header (entry : Entry) : (m.indexed entry).header = m.header := by
  rw [Manager.indexed]
  split
  · exact (setLabel_frame _ _ _ _).2.2.2
  · rfl

theorem indexed_byId (entry : Entry) :
    (m.indexed entry).byId = OrderedMap.set m.byId entry.id entry := by
  rw [Manager.indexed]
  split
  · exact (setLabel_frame _ _ _ _).2.1
  · rfl

variable {n : Manager} {before after : List Entry} {m : Manager}

theorem setLabel_index (h : m.index = n.index) (targetId : JsString) (label : Option JsString)
    (timestamp : JsString) : (m.setLabel targetId label timestamp).index = (n.setLabel targetId label timestamp).index := by
  obtain ⟨hById, hLabels⟩ := Prod.mk.inj h
  obtain ⟨hLabels, hTimestamps⟩ := Prod.mk.inj hLabels
  cases label with
  | none => simp only [Manager.index, Manager.setLabel, hById, hLabels, hTimestamps]
  | some label => cases label <;> simp only [Manager.index, Manager.setLabel, hById, hLabels, hTimestamps]

theorem indexed_index (h : m.index = n.index) (entry : Entry) :
    (m.indexed entry).index = (n.indexed entry).index := by
  have hEntry : (m.indexEntry entry).index = (n.indexEntry entry).index := by
    obtain ⟨hById, hLabels⟩ := Prod.mk.inj h
    obtain ⟨hLabels, hTimestamps⟩ := Prod.mk.inj hLabels
    simp only [Manager.index, Manager.indexEntry, hById, hLabels, hTimestamps]
  rw [Manager.indexed, Manager.indexed]
  split
  · exact setLabel_index hEntry _ _ _
  · exact hEntry

theorem foldl_indexed_entries (entries : List Entry) (m : Manager) : (entries.foldl Manager.indexed m).entries = m.entries := by
  induction entries generalizing m with
  | nil => rfl
  | cons entry rest ih =>
    rw [foldl_cons, ih, indexed_entries]

theorem foldl_indexed_index (entries : List Entry) (h : m.index = n.index) :
    (entries.foldl Manager.indexed m).index = (entries.foldl Manager.indexed n).index := by
  induction entries generalizing m n with
  | nil => exact h
  | cons entry rest ih => exact ih (indexed_index h entry)

theorem buildIndex_header (m : Manager) : m.buildIndex.header = m.header := by
  have hFold : ∀ (entries : List Entry) (n : Manager), (entries.foldl Manager.indexed n).header = n.header := by
    intro entries
    induction entries with
    | nil => exact fun _ => rfl
    | cons entry rest ih =>
      intro n
      rw [foldl_cons, ih, indexed_header]
  exact hFold m.entries _

theorem buildIndex_entries (m : Manager) : m.buildIndex.entries = m.entries :=
  foldl_indexed_entries _ _

theorem buildIndex_index (h : m.entries = n.entries) : m.buildIndex.index = n.buildIndex.index := by
  rw [Manager.buildIndex, Manager.buildIndex, h]
  exact foldl_indexed_index _ rfl

variable {entry : Entry} {m : Manager} {used : List JsString} {entries : List Entry} {id : JsString}

theorem buildIndex_snoc {m : Manager} (h : n.entries = m.entries ++ [entry]) :
    n.buildIndex.index = (m.buildIndex.indexed entry).index := by
  rw [Manager.buildIndex, h, foldl_append, foldl_cons, foldl_nil]
  exact indexed_index (foldl_indexed_index m.entries (by simp only [Manager.index])) entry

theorem foldl_indexed_leaf (entries : List Entry) (m : Manager) (ids : List JsString) (h : ∀ id ∈ m.leafId, id ∈ ids) :
    ∀ id ∈ (entries.foldl Manager.indexed m).leafId, id ∈ ids ++ entries.map Entry.id := by
  induction entries generalizing m ids with
  | nil =>
    intro id hId
    exact mem_append_left _ (h id hId)
  | cons entry rest ih =>
    rw [map_cons, append_cons]
    refine ih (m.indexed entry) (ids ++ [entry.id]) ?_
    intro id hId
    rw [indexed_leafId] at hId
    rw [← some.inj hId]
    exact mem_append_right _ mem_cons_self

theorem buildIndex_leaf (m : Manager) : ∀ id ∈ m.buildIndex.leafId, id ∈ m.entries.map Entry.id :=
  foldl_indexed_leaf m.entries _ [] nofun

theorem foldl_indexed_byId (entries : List Entry) (m : Manager)
    (hUnique : (m.byId.map Prod.fst ++ entries.map Entry.id).Nodup) :
    (entries.foldl Manager.indexed m).byId = m.byId ++ entries.map fun entry => (entry.id, entry) := by
  induction entries generalizing m with
  | nil => exact (append_nil _).symm
  | cons entry rest ih =>
    have hFresh : m.byId.lookup entry.id = none := by
      rw [OrderedMap.lookup_eq_none_iff]
      intro hMem
      exact (nodup_append.mp hUnique).2.2 _ hMem _ mem_cons_self rfl
    have hById : (m.indexed entry).byId = m.byId ++ [(entry.id, entry)] := by
      rw [indexed_byId, OrderedMap.set, hFresh]
      rfl
    rw [foldl_cons, ih, hById, append_assoc]
    · rfl
    · rw [hById, map_append, append_assoc]
      exact hUnique

theorem Sound.byId (h : Sound m) : m.byId = m.entries.map fun entry => (entry.id, entry) := by
  have hById : m.byId = m.buildIndex.byId := (Prod.mk.inj h.index).1
  rw [hById, Manager.buildIndex, foldl_indexed_byId _ _ (by simpa using h.unique)]
  rfl

theorem Sound.ids (h : Sound m) : m.ids = m.entries.map Entry.id := by
  rw [Manager.ids, h.byId, List.map_map]
  rfl

/-- A new entry below an entry of the tree, indexed. -/
theorem Sound.indexed (h : Sound m) (hFresh : entry.id ∉ m.entries.map Entry.id)
    (hNamed : entry.id ≠ []) (hParent : ∀ parent ∈ entry.parentId, parent ∈ m.entries.map Entry.id) (flushed : Bool) :
    Sound { ({ m with entries := m.entries ++ [entry] } : Manager).indexed entry with flushed } := by
  have hEntries : (({ m with entries := m.entries ++ [entry] } : Manager).indexed entry).entries = m.entries ++ [entry] :=
    indexed_entries _ _
  have hIndex : (({ m with entries := m.entries ++ [entry] } : Manager).indexed entry).index =
      (m.buildIndex.indexed entry).index :=
    indexed_index (show Manager.index { m with entries := m.entries ++ [entry] } = _ from h.index) entry
  refine ⟨?_, ?_, ?_, ?_, ?_⟩
  · show ((({ m with entries := m.entries ++ [entry] } : Manager).indexed entry).entries.map Entry.id).Nodup
    rw [hEntries, map_append, nodup_append]
    refine ⟨h.unique, nodup_singleton _, ?_⟩
    intro id hId other hOther hSame
    rw [map_singleton, mem_singleton] at hOther
    exact hFresh (hOther ▸ hSame ▸ hId)
  · intro other hOther
    have hMem : other ∈ m.entries ++ [entry] := hEntries ▸ hOther
    rcases mem_append.mp hMem with hOld | hNew
    · exact h.named other hOld
    · rw [mem_singleton.mp hNew]
      exact hNamed
  · show ChainedFrom [] (({ m with entries := m.entries ++ [entry] } : Manager).indexed entry).entries
    rw [hEntries, chainedFrom_append]
    exact ⟨h.parents, hParent, trivial⟩
  · intro id hId
    show id ∈ (({ m with entries := m.entries ++ [entry] } : Manager).indexed entry).entries.map Entry.id
    have hLeaf : (({ m with entries := m.entries ++ [entry] } : Manager).indexed entry).leafId = some id := hId
    rw [indexed_leafId] at hLeaf
    rw [hEntries, map_append, ← some.inj hLeaf]
    exact mem_append_right _ mem_cons_self
  · refine Eq.trans hIndex (Eq.symm ?_)
    exact buildIndex_snoc (n := { ({ m with entries := m.entries ++ [entry] } : Manager).indexed entry with flushed }) hEntries

/-! What an append does. -/

theorem generateId_fresh {draw : Draw} (h : draw.uuid ∉ used) : generateId used draw ∉ used := by
  rw [generateId]
  cases hFound : draw.short.find? fun id => id ∉ used with
  | none => exact h
  | some id => exact of_decide_eq_true (@find?_some _ (fun id => decide (id ∉ used)) _ _ hFound)

theorem generateId_mem (used : List JsString) (draw : Draw) :
    generateId used draw ∈ draw.short ∨ generateId used draw = draw.uuid := by
  rw [generateId]
  cases hFound : draw.short.find? fun id => id ∉ used with
  | none => exact .inr rfl
  | some id => exact .inl (mem_of_find?_eq_some hFound)

theorem appendFile_manager (w : World) (file text : JsString) (write : Write) :
    (w.appendFile file text write).2.manager = w.manager := by
  cases write <;> rfl

theorem flush_manager (w : World) (file : JsString) (write : Write) :
    (w.flush file write).2.manager = w.manager ∨
      ((w.flush file write).1 = .returned ∧ (w.flush file write).2.manager = { w.manager with flushed := true }) := by
  cases hFile : w.files.lookup file with
  | some content => exact .inl (by simp only [World.flush, hFile])
  | none =>
    cases write with
    | completes => exact .inr (by simp only [World.flush, hFile, and_self])
    | refused => exact .inl (by simp only [World.flush, hFile])
    | stops written => exact .inl (by simp only [World.flush, hFile])

theorem persist_manager (w : World) (entry : Entry) (write : Write) :
    (w.persist entry write).2.manager = w.manager ∨
      ((w.persist entry write).1 = .returned ∧ (w.persist entry write).2.manager = { w.manager with flushed := true }) := by
  rw [World.persist]
  split
  · split_ifs
    · exact .inl (appendFile_manager _ _ _ _)
    · exact flush_manager _ _ _
    · exact .inl rfl
  · exact .inl rfl

theorem persist_returned (w : World) (entry : Entry) (write : Write) :
    ∃ flushed, (w.persist entry write).2.manager = { w.manager with flushed } := by
  rcases persist_manager w entry write with hSame | ⟨-, hFlushed⟩
  · exact ⟨w.manager.flushed, hSame⟩
  · exact ⟨true, hFlushed⟩

theorem appendEntry_threw {w next : World} {write : Write} (hFresh : entry.id ∉ w.manager.ids)
    (h : w.appendEntry entry write = (.threw, next)) : next.manager = w.manager := by
  rw [World.appendEntry] at h
  cases hPersist : (w.push entry).persist entry write with
  | mk ended after =>
    rw [hPersist] at h
    cases ended with
    | returned => exact nomatch (Prod.mk.inj h).1
    | threw =>
      have hManager : after.manager = (w.push entry).manager := by
        rcases persist_manager (w.push entry) entry write with hSame | ⟨hReturned, -⟩
        · rwa [hPersist] at hSame
        · rw [hPersist] at hReturned
          exact nomatch hReturned
      obtain rfl := (Prod.mk.inj h).2
      have hById : OrderedMap.erase (OrderedMap.set w.manager.byId entry.id entry) entry.id = w.manager.byId := by
        have hLookup := (OrderedMap.lookup_eq_none_iff _ _).mpr hFresh
        rw [OrderedMap.set, hLookup, OrderedMap.erase]
        show (w.manager.byId ++ [(entry.id, entry)]).filter _ = _
        rw [filter_append, filter_singleton, decide_eq_false (not_not.mpr rfl)]
        show _ ++ [] = _
        rw [append_nil, filter_eq_self]
        intro other hOther
        exact decide_eq_true fun hSame => hFresh (hSame ▸ mem_map_of_mem hOther)
      rw [World.pop, hManager]
      show ({ w.manager with
        entries := (w.manager.entries ++ [entry]).dropLast
        byId := OrderedMap.erase (OrderedMap.set w.manager.byId entry.id entry) entry.id } : Manager) = w.manager
      rw [dropLast_concat, hById]

theorem appendEntry_returned {w next : World} {write : Write} (h : w.appendEntry entry write = (.returned, next)) :
    ∃ flushed, next.manager =
      { ({ w.manager with entries := w.manager.entries ++ [entry] } : Manager).indexEntry entry with flushed } := by
  rw [World.appendEntry] at h
  cases hPersist : (w.push entry).persist entry write with
  | mk ended after =>
    rw [hPersist] at h
    cases ended with
    | threw => exact nomatch (Prod.mk.inj h).1
    | returned =>
      obtain ⟨flushed, hFlushed⟩ := persist_returned (w.push entry) entry write
      rw [hPersist] at hFlushed
      obtain rfl := (Prod.mk.inj h).2
      exact ⟨flushed, hFlushed⟩

/-! The path to the root. -/

theorem lookup_entry (hUnique : (entries.map Entry.id).Nodup) :
    (entries.map fun entry => (entry.id, entry)).lookup id = some entry ↔ entry ∈ entries ∧ entry.id = id := by
  have hKeys : ((entries.map fun entry => (entry.id, entry)).map Prod.fst).Nodup := by
    rw [List.map_map]
    exact hUnique
  rw [OrderedMap.lookup_eq_some_iff hKeys, List.mem_map]
  constructor
  · rintro ⟨other, hMem, hEq⟩
    obtain ⟨rfl, rfl⟩ := Prod.mk.inj hEq
    exact ⟨hMem, rfl⟩
  · rintro ⟨hMem, rfl⟩
    exact ⟨entry, hMem, rfl⟩

theorem split_at {entries : List Entry} (hChained : ChainedFrom [] entries)
    (hSplit : entries = before ++ after) (hId : id ∈ before.map Entry.id) :
    ∃ first entry second, before = first ++ entry :: second ∧ entry.id = id ∧ entry ∈ entries ∧
      entries = first ++ (entry :: second ++ after) ∧ ∀ parent ∈ entry.parentId, parent ∈ first.map Entry.id := by
  obtain ⟨entry, hEntry, rfl⟩ := List.mem_map.mp hId
  obtain ⟨first, second, rfl⟩ := append_of_mem hEntry
  have hNext : entries = first ++ (entry :: second ++ after) := by
    rw [hSplit, append_assoc]
  refine ⟨first, entry, second, rfl, rfl, ?_, hNext, ?_⟩
  · rw [hSplit]
    exact mem_append_left _ hEntry
  · rw [hNext, chainedFrom_append] at hChained
    exact hChained.2.1

variable {start : Option JsString}

/-- The walk from an entry of `before` takes entries of `before`, each once. -/
theorem walk_before (hUnique : (entries.map Entry.id).Nodup) (hChained : ChainedFrom [] entries) (fuel : Nat)
    (hSplit : entries = before ++ after) (hStart : ∀ id ∈ start, id ∈ before.map Entry.id) :
    ((Manager.walk (entries.map fun entry => (entry.id, entry)) fuel start).map Entry.id).Nodup ∧
      ∀ entry ∈ Manager.walk (entries.map fun entry => (entry.id, entry)) fuel start, entry ∈ before := by
  induction fuel generalizing before after start with
  | zero => exact ⟨nodup_nil, fun _ hEntry => absurd hEntry not_mem_nil⟩
  | succ fuel ih =>
    match start with
    | none => exact ⟨nodup_nil, fun _ hEntry => absurd hEntry not_mem_nil⟩
    | some [] => exact ⟨nodup_nil, fun _ hEntry => absurd hEntry not_mem_nil⟩
    | some (unit :: rest) =>
      obtain ⟨first, entry, second, rfl, hId, hMem, hNext, hParent⟩ := split_at hChained hSplit (hStart _ rfl)
      obtain ⟨hNodup, hBefore⟩ := ih hNext hParent
      have hApart : entry.id ∉ first.map Entry.id := by
        rw [hNext, map_append, nodup_append] at hUnique
        exact fun hHere => hUnique.2.2 _ hHere _ mem_cons_self rfl
      rw [Manager.walk, (lookup_entry hUnique).mpr ⟨hMem, hId⟩]
      refine ⟨?_, ?_⟩
      · rw [map_cons, nodup_cons]
        refine ⟨fun hHere => hApart ?_, hNodup⟩
        obtain ⟨other, hOther, hSame⟩ := List.mem_map.mp hHere
        exact List.mem_map.mpr ⟨other, hBefore other hOther, hSame⟩
      · intro other hOther
        rcases mem_cons.mp hOther with rfl | hRest
        · exact mem_append_right _ mem_cons_self
        · exact mem_append_left _ (hBefore other hRest)

theorem walk_enough (hUnique : (entries.map Entry.id).Nodup) (hChained : ChainedFrom [] entries) (fuel more : Nat)
    (hSplit : entries = before ++ after) (hStart : ∀ id ∈ start, id ∈ before.map Entry.id) (hLength : before.length ≤ fuel) :
    Manager.walk (entries.map fun entry => (entry.id, entry)) (fuel + more) start =
      Manager.walk (entries.map fun entry => (entry.id, entry)) fuel start := by
  induction fuel generalizing before after start with
  | zero =>
    rw [eq_nil_of_length_eq_zero (Nat.le_zero.mp hLength)] at hStart
    match start with
    | none => cases more <;> rfl
    | some id => exact absurd (hStart id rfl) not_mem_nil
  | succ fuel ih =>
    rw [Nat.add_right_comm]
    match start with
    | none => rfl
    | some [] => rfl
    | some (unit :: rest) =>
      obtain ⟨first, entry, second, rfl, hId, hMem, hNext, hParent⟩ := split_at hChained hSplit (hStart _ rfl)
      rw [length_append, length_cons] at hLength
      rw [Manager.walk, Manager.walk, (lookup_entry hUnique).mpr ⟨hMem, hId⟩]
      exact congrArg (entry :: ·) (ih hNext hParent (by omega))

theorem Sound.length_byId (h : Sound m) : m.byId.length = m.entries.length := by
  rw [h.byId, length_map]

theorem walk_absent {byId : List (JsString × Entry)} (fuel : Nat) (h : byId.lookup id = none) :
    Manager.walk byId fuel (some id) = [] := by
  match fuel, id with
  | 0, _ => rfl
  | _ + 1, [] => rfl
  | _ + 1, unit :: rest => rw [Manager.walk, h]

theorem Sound.getBranch_complete (h : Sound m) (more : Nat) (fromId : Option JsString) :
    m.getBranch fromId = (Manager.walk m.byId (m.byId.length + more) (fromId.or m.leafId)).reverse := by
  rw [Manager.getBranch]
  cases hStart : fromId.or m.leafId with
  | none => cases m.byId.length <;> cases more <;> rfl
  | some id =>
    by_cases hMem : id ∈ m.entries.map Entry.id
    · have hBefore : ∀ other ∈ some id, other ∈ m.entries.map Entry.id := by
        intro other hOther
        rwa [← some.inj hOther]
      have hEnough := walk_enough h.unique h.parents m.entries.length more (append_nil _).symm hBefore
        (Nat.le_refl _)
      rw [h.length_byId, h.byId, hEnough]
    · have hAbsent : m.byId.lookup id = none := by
        rw [OrderedMap.lookup_eq_none_iff]
        exact fun hHere => hMem (h.ids ▸ hHere)
      rw [walk_absent _ hAbsent, walk_absent _ hAbsent]

theorem Sound.getBranch (h : Sound m) (fromId : Option JsString) :
    ((m.getBranch fromId).map Entry.id).Nodup ∧ ∀ entry ∈ m.getBranch fromId, entry ∈ m.entries := by
  rw [Manager.getBranch, map_reverse, nodup_reverse]
  cases hStart : fromId.or m.leafId with
  | none =>
    cases m.byId.length <;> exact ⟨nodup_nil, fun _ hEntry => absurd hEntry not_mem_nil⟩
  | some id =>
    by_cases hMem : id ∈ m.entries.map Entry.id
    · have hBefore : ∀ other ∈ some id, other ∈ m.entries.map Entry.id := by
        intro other hOther
        rwa [← some.inj hOther]
      obtain ⟨hNodup, hOf⟩ := walk_before h.unique h.parents m.byId.length (append_nil _).symm hBefore
      rw [← h.byId] at hNodup hOf
      exact ⟨hNodup, fun entry hEntry => hOf entry (mem_reverse.mp hEntry)⟩
    · have hAbsent : m.byId.lookup id = none := by
        rw [OrderedMap.lookup_eq_none_iff]
        exact fun hHere => hMem (h.ids ▸ hHere)
      rw [walk_absent _ hAbsent]
      exact ⟨nodup_nil, fun _ hEntry => absurd hEntry not_mem_nil⟩

theorem Sound.getBranch_ne_nil (h : Sound m) : m.getBranch (some id) ≠ [] ↔ id ∈ m.ids := by
  rw [Manager.getBranch, some_or, ne_eq, reverse_eq_nil_iff]
  constructor
  · intro hPath
    by_contra hAbsent
    exact hPath (walk_absent _ ((OrderedMap.lookup_eq_none_iff _ _).mpr hAbsent))
  · intro hMem hPath
    obtain ⟨entry, hEntry, rfl⟩ := List.mem_map.mp (h.ids ▸ hMem)
    have hLookup : m.byId.lookup entry.id = some entry := by
      rw [h.byId]
      exact (lookup_entry h.unique).mpr ⟨hEntry, rfl⟩
    have hNamed := h.named entry hEntry
    have hLength : m.byId.length = (m.byId.length - 1) + 1 := by
      have hPos : 0 < m.entries.length := length_pos_of_mem hEntry
      rw [h.length_byId]
      omega
    rw [hLength] at hPath
    cases hId : entry.id with
    | nil => exact hNamed hId
    | cons unit rest =>
      rw [hId] at hPath hLookup
      rw [Manager.walk, hLookup] at hPath
      exact nomatch hPath

/-! The branched session. -/

theorem rechain_chained {r : Rechain} (hChained : ChainedFrom [] r.kept)
    (hParent : ∀ parent ∈ r.pathParentId, parent ∈ r.kept.map Entry.id) (path : List Entry) :
    ChainedFrom [] (path.foldl Rechain.next r).kept := by
  induction path generalizing r with
  | nil => exact hChained
  | cons entry rest ih =>
    have hKeep : ChainedFrom [] (r.keep entry).kept ∧
        ∀ parent ∈ (r.keep entry).pathParentId, parent ∈ (r.keep entry).kept.map Entry.id := by
      refine ⟨?_, ?_⟩
      · rw [Rechain.keep, chainedFrom_append]
        exact ⟨hChained, hParent, trivial⟩
      · intro parent hLast
        obtain rfl := some.inj hLast
        rw [Rechain.keep, map_append]
        exact mem_append_right _ mem_cons_self
    rw [foldl_cons, Rechain.next]
    split
    · exact ih hChained hParent
    · exact ih hKeep.1 hKeep.2

theorem rechain_ids (r : Rechain) (path : List Entry) :
    ((path.foldl Rechain.next r).kept.map Entry.id).Sublist (r.kept.map Entry.id ++ path.map Entry.id) := by
  induction path generalizing r with
  | nil => simp
  | cons entry rest ih =>
    rw [foldl_cons, map_cons]
    refine (ih (r.next entry)).trans ?_
    rw [Rechain.next]
    split
    · exact (Sublist.refl _).append (sublist_cons_self _ _)
    · rw [Rechain.keep, map_append, append_assoc]
      exact Sublist.refl _

/-- What random ids are assumed to be: not empty, and every UUID unlike any other id. -/
structure Random (used : List JsString) (draws : Nat → Draw) : Prop where
  uuid : ∀ n, (draws n).uuid ≠ []
  short : ∀ n, ∀ id ∈ (draws n).short, id ≠ []
  unused : ∀ n, (draws n).uuid ∉ used
  apart : ∀ n k, n ≠ k → (draws n).uuid ≠ (draws k).uuid
  longer : ∀ n k, (draws n).uuid ∉ (draws k).short

theorem Random.named {draws : Nat → Draw} (h : Random used draws) (among : List JsString) (n : Nat) :
    generateId among (draws n) ≠ [] := by
  rcases generateId_mem among (draws n) with hShort | hUuid
  · exact h.short n _ hShort
  · rw [hUuid]
    exact h.uuid n

theorem Random.next {used : List JsString} {draws : Nat → Draw} (h : Random used draws) (among : List JsString) :
    Random (used ++ [generateId among (draws 0)]) fun n => draws (n + 1) where
  uuid n := h.uuid _
  short n := h.short _
  unused := by
    intro n hMem
    rcases mem_append.mp hMem with hOld | hNew
    · exact h.unused _ hOld
    · have hSame := mem_singleton.mp hNew
      rcases generateId_mem among (draws 0) with hShort | hUuid
      · exact h.longer (n + 1) 0 (hSame ▸ hShort)
      · exact h.apart (n + 1) 0 (Nat.succ_ne_zero n) (hSame.trans hUuid)
  apart n k hNe := h.apart _ _ fun hSame => hNe (Nat.succ.inj hSame)
  longer n k := h.longer _ _

theorem Random.of_subset {used fewer : List JsString} {draws : Nat → Draw} (h : Random used draws)
    (hSubset : ∀ id ∈ fewer, id ∈ used) : Random fewer draws :=
  { h with unused := fun n hMem => h.unused n (hSubset _ hMem) }

/-- The new label entries are a chain of new ids below their parent. -/
theorem labelEntries_sound (timestamps : List (JsString × JsString)) {used : List JsString} {parentId : Option JsString}
    {labels : List (JsString × JsString)} {draws : Nat → Draw} (hRandom : Random used draws) (hUsed : used.Nodup)
    (hParent : ∀ parent ∈ parentId, parent ∈ used) :
    (used ++ (labelEntries timestamps used parentId labels draws).map Entry.id).Nodup ∧
      ChainedFrom used (labelEntries timestamps used parentId labels draws) ∧
      ∀ entry ∈ labelEntries timestamps used parentId labels draws, entry.id ≠ [] := by
  induction labels generalizing used parentId draws with
  | nil =>
    rw [labelEntries, map_nil, append_nil]
    exact ⟨hUsed, trivial, fun _ hEntry => absurd hEntry not_mem_nil⟩
  | cons label rest ih =>
    have hFresh := generateId_fresh (hRandom.unused 0)
    have hGrown : (used ++ [generateId used (draws 0)]).Nodup := by
      rw [nodup_append]
      refine ⟨hUsed, nodup_singleton _, ?_⟩
      intro id hId other hOther hSame
      exact hFresh (mem_singleton.mp hOther ▸ hSame ▸ hId)
    have hLast : ∀ parent ∈ some (generateId used (draws 0)), parent ∈ used ++ [generateId used (draws 0)] := by
      intro parent hSome
      rw [← some.inj hSome]
      exact mem_append_right _ mem_cons_self
    obtain ⟨hNodup, hChained, hNamed⟩ := ih (hRandom.next used) hGrown hLast
    rw [labelEntries]
    refine ⟨?_, ⟨hParent, hChained⟩, ?_⟩
    · rw [append_assoc] at hNodup
      exact hNodup
    · intro entry hEntry
      rcases mem_cons.mp hEntry with rfl | hRest
      · exact hRandom.named used 0
      · exact hNamed entry hRest

theorem Sound.toBranched (h : Sound m) {draws : Nat → Draw} (hRandom : Random (m.entries.map Entry.id) draws)
    (fromId : Option JsString) (sessionId timestamp : JsString) :
    Sound (m.toBranched (m.getBranch fromId) draws sessionId timestamp) := by
  obtain ⟨hNodup, hOf⟩ := h.getBranch fromId
  have hIds : ((pathWithoutLabels (m.getBranch fromId)).map Entry.id).Sublist ((m.getBranch fromId).map Entry.id) :=
    rechain_ids ⟨[], [], [], none⟩ (m.getBranch fromId)
  have hKept : ∀ id ∈ (pathWithoutLabels (m.getBranch fromId)).map Entry.id, id ∈ m.entries.map Entry.id := by
    intro id hId
    obtain ⟨entry, hEntry, rfl⟩ := List.mem_map.mp (hIds.subset hId)
    exact mem_map_of_mem (hOf entry hEntry)
  have hLast : ∀ parent ∈ (pathWithoutLabels (m.getBranch fromId)).getLast?.map Entry.id,
      parent ∈ (pathWithoutLabels (m.getBranch fromId)).map Entry.id := by
    intro parent hParent
    obtain ⟨entry, hEntry, rfl⟩ := Option.map_eq_some_iff.mp hParent
    exact mem_map_of_mem (mem_of_getLast? hEntry)
  obtain ⟨hLabelIds, hLabels, hLabelsNamed⟩ := @labelEntries_sound m.labelTimestampsById _ _
    (m.labelsById.filter fun label => label.1 ∈ (pathWithoutLabels (m.getBranch fromId)).map Entry.id) _
    (hRandom.of_subset hKept) (hNodup.sublist hIds) hLast
  have hEntries : (m.toBranched (m.getBranch fromId) draws sessionId timestamp).entries =
      m.branched (m.getBranch fromId) draws := buildIndex_entries _
  refine ⟨?_, ?_, ?_, ?_, ?_⟩
  · rw [hEntries, Manager.branched, map_append]
    exact hLabelIds
  · rw [hEntries, Manager.branched]
    intro entry hEntry
    rcases mem_append.mp hEntry with hPath | hLabel
    · obtain ⟨source, hSource, hSame⟩ := List.mem_map.mp (hKept _ (mem_map_of_mem hPath))
      rw [← hSame]
      exact h.named source hSource
    · exact hLabelsNamed entry hLabel
  · rw [hEntries, Manager.branched, chainedFrom_append]
    exact ⟨rechain_chained (r := ⟨[], [], [], none⟩) trivial (fun _ hNone => nomatch hNone) _, hLabels⟩
  · rw [hEntries]
    exact buildIndex_leaf _
  · exact buildIndex_index (buildIndex_entries _).symm

/-! The operations. -/

theorem Sound.flushed (h : Sound m) (flushed : Bool) : Sound { m with flushed } :=
  { h with index := h.index.trans (buildIndex_index rfl) }

theorem Sound.moved (h : Sound m) {leafId : Option JsString} (hLeaf : ∀ id ∈ leafId, id ∈ m.ids) :
    Sound { m with leafId } :=
  { h with leaf := fun id hId => h.ids ▸ hLeaf id hId, index := h.index.trans (buildIndex_index rfl) }

variable {w next : World} {draws : Nat → Draw} {timestamp : JsString} {write : Write} {body : Body}

section

variable (h : Sound w.manager) (hRandom : Random (w.manager.entries.map Entry.id) draws)

include h hRandom

theorem Sound.newEntry (timestamp : JsString)
    (body : Body) : (w.newEntry (draws 0) timestamp body).id ∉ w.manager.entries.map Entry.id ∧
      (w.newEntry (draws 0) timestamp body).id ≠ [] := by
  refine ⟨?_, hRandom.named _ 0⟩
  rw [← h.ids]
  exact generateId_fresh (h.ids ▸ hRandom.unused 0)

theorem Sound.append_threw (hThrew : w.append (draws 0) timestamp write body = (.threw, next)) : next.manager = w.manager :=
  appendEntry_threw (h.ids ▸ (h.newEntry hRandom timestamp body).1) hThrew

theorem Sound.append_returned (hReturned : w.append (draws 0) timestamp write body = (.returned, next)) :
    (∀ targetId label, body = .label targetId label → Sound (next.manager.setLabel targetId label timestamp)) ∧
      ((∀ targetId label, body ≠ .label targetId label) → Sound next.manager) := by
  obtain ⟨hFresh, hNamed⟩ := h.newEntry hRandom timestamp body
  obtain ⟨flushed, hManager⟩ := appendEntry_returned hReturned
  have hIndexed := h.indexed hFresh hNamed h.leaf flushed
  refine ⟨?_, fun hBody => ?_⟩
  · rintro targetId label rfl
    rw [hManager]
    cases label with
    | none => exact hIndexed
    | some label => cases label <;> exact hIndexed
  · rw [hManager]
    have hEntry : ({ w.manager with
        entries := w.manager.entries ++ [w.newEntry (draws 0) timestamp body] } : Manager).indexed
          (w.newEntry (draws 0) timestamp body) =
        ({ w.manager with entries := w.manager.entries ++ [w.newEntry (draws 0) timestamp body] } : Manager).indexEntry
          (w.newEntry (draws 0) timestamp body) := by
      rw [Manager.indexed]
      split
      · rename_i targetId label hLabel
        exact absurd hLabel (hBody targetId label)
      · rfl
    rw [hEntry] at hIndexed
    exact hIndexed

theorem Sound.append
    (hBody : ∀ targetId label, body ≠ .label targetId label) : Sound (w.append (draws 0) timestamp write body).2.manager := by
  cases hAppend : w.append (draws 0) timestamp write body with
  | mk ended next =>
    cases ended with
    | returned => exact (h.append_returned hRandom hAppend).2 hBody
    | threw =>
      rw [h.append_threw hRandom hAppend]
      exact h

end

theorem rewriteFile_manager (w : World) (write : Write) : (w.rewriteFile write).2.manager = w.manager := by
  rw [World.rewriteFile]
  split
  · cases write <;> rfl
  · rfl

theorem createBranchedSession_manager {w : World} {leafId : JsString} (hPath : w.manager.getBranch (some leafId) ≠ [])
    (draws : Nat → Draw) (sessionId timestamp : JsString) (write : Write) :
    ∃ flushed, (w.createBranchedSession draws sessionId timestamp write leafId).2.manager =
      { w.manager.toBranched (w.manager.getBranch (some leafId)) draws sessionId timestamp with flushed } := by
  rw [World.createBranchedSession]
  cases hBranch : w.manager.getBranch (some leafId) with
  | nil => exact absurd hBranch hPath
  | cons entry rest =>
    simp only
    split_ifs
    · have hManager := rewriteFile_manager
        { w with manager := w.manager.toBranched (entry :: rest) draws sessionId timestamp } write
      cases hRewrite : World.rewriteFile
          { w with manager := w.manager.toBranched (entry :: rest) draws sessionId timestamp } write with
      | mk ended next =>
        rw [hRewrite] at hManager
        cases ended with
        | returned => exact ⟨true, congrArg (fun m : Manager => { m with flushed := true }) hManager⟩
        | threw => exact ⟨_, hManager⟩
    · exact ⟨false, rfl⟩
    · exact ⟨_, rfl⟩

theorem Sound.createBranchedSession (h : Sound w.manager) (hRandom : Random (w.manager.entries.map Entry.id) draws)
    (sessionId leafId : JsString) :
    Sound (w.createBranchedSession draws sessionId timestamp write leafId).2.manager := by
  by_cases hPath : w.manager.getBranch (some leafId) = []
  · rw [World.createBranchedSession, hPath]
    exact h
  · obtain ⟨flushed, hManager⟩ := createBranchedSession_manager hPath draws sessionId timestamp write
    rw [hManager]
    exact (h.toBranched hRandom (some leafId) sessionId timestamp).flushed flushed

theorem Sound.run (h : Sound w.manager) (hRandom : Random (w.manager.entries.map Entry.id) draws) (timestamp : JsString)
    (write : Write) (op : Op) : Sound (w.run draws timestamp write op).2.manager := by
  cases op with
  | contextEdit targetId replacement =>
    rw [World.run, World.appendContextEdit]
    split_ifs
    · cases w.manager.byId.lookup targetId with
      | none => exact h
      | some target =>
        simp only
        split_ifs
        · exact h.append hRandom nofun
        · exact h
    · exact h
  | labelChange targetId label =>
    rw [World.run, World.appendLabelChange]
    split_ifs
    · cases hAppend : w.append (draws 0) timestamp write (.label targetId label) with
      | mk ended next =>
        cases ended with
        | returned => exact (h.append_returned hRandom hAppend).1 targetId label rfl
        | threw =>
          show Sound next.manager
          rw [h.append_threw hRandom hAppend]
          exact h
    · exact h
  | branch branchFromId =>
    rw [World.run, World.branch]
    split_ifs with hHeld
    · refine h.moved fun id hId => ?_
      rwa [← some.inj hId]
    · exact h
  | resetLeaf => exact h.moved nofun
  | branchWithSummary branchFromId summary details usage fromHook =>
    rw [World.run, World.branchWithSummary]
    split_ifs with hHeld
    · exact Sound.append (w := { w with manager := { w.manager with leafId := branchFromId } }) (h.moved hHeld) hRandom
        nofun
    · exact h
  | createBranchedSession sessionId leafId => exact h.createBranchedSession hRandom sessionId leafId
  | _ => exact h.append hRandom nofun

/-! What an operation that throws leaves. -/

/-- The entries with their header, the index, the labels and the leaf are as they were. -/
def Unchanged (m n : Manager) : Prop :=
  n.header = m.header ∧ n.entries = m.entries ∧ n.index = m.index ∧ n.leafId = m.leafId

/-- What moves state before it writes: a summary of a branch from another entry than
the leaf, and a branched session. -/
def Moves (w : World) : Op → Prop
  | .branchWithSummary branchFromId _ _ _ _ => (∀ id ∈ branchFromId, id ∈ w.manager.ids) ∧ branchFromId ≠ w.manager.leafId
  | .createBranchedSession _ leafId => leafId ∈ w.manager.ids
  | _ => False

/-- What is assumed of what an operation draws: the ids `Random`, and a new session id. -/
structure Fresh (w : World) (draws : Nat → Draw) (op : Op) : Prop where
  random : Random (w.manager.entries.map Entry.id) draws
  session : ∀ sessionId leafId, op = .createBranchedSession sessionId leafId → sessionId ≠ w.manager.header.id

theorem Unchanged.of_eq {m n : Manager} (h : n = m) : Unchanged m n := by
  rw [h]
  exact ⟨rfl, rfl, rfl, rfl⟩

/-- A summary that was not written leaves the leaf where the branch is. -/
theorem branchWithSummary_threw (h : Sound w.manager) (hRandom : Random (w.manager.entries.map Entry.id) draws)
    {branchFromId : Option JsString} {summary : JsString} {details usage fromHook : Option StrictJson}
    (hThrew : w.branchWithSummary (draws 0) timestamp write branchFromId summary details usage fromHook = (.threw, next)) :
    Unchanged w.manager next.manager ↔ ¬Moves w (.branchWithSummary branchFromId summary details usage fromHook) := by
  rw [World.branchWithSummary] at hThrew
  by_cases hHeld : ∀ id ∈ branchFromId, id ∈ w.manager.ids
  · rw [if_pos hHeld] at hThrew
    have hManager : next.manager = { w.manager with leafId := branchFromId } :=
      Sound.append_threw (w := { w with manager := { w.manager with leafId := branchFromId } }) (h.moved hHeld) hRandom
        hThrew
    rw [hManager, Moves, not_and, not_not]
    constructor
    · exact fun hSame _ => hSame.2.2.2
    · exact fun hLeaf => ⟨rfl, rfl, rfl, hLeaf hHeld⟩
  · rw [if_neg hHeld] at hThrew
    rw [← (Prod.mk.inj hThrew).2]
    exact ⟨fun _ hMoves => hHeld hMoves.1, fun _ => Unchanged.of_eq rfl⟩

theorem createBranchedSession_threw (h : Sound w.manager) {sessionId leafId : JsString} (hNew : sessionId ≠ w.manager.header.id)
    (hThrew : w.createBranchedSession draws sessionId timestamp write leafId = (.threw, next)) :
    Unchanged w.manager next.manager ↔ ¬Moves w (.createBranchedSession sessionId leafId) := by
  rw [Moves, ← h.getBranch_ne_nil, not_not]
  by_cases hPath : w.manager.getBranch (some leafId) = []
  · rw [World.createBranchedSession, hPath] at hThrew
    rw [← (Prod.mk.inj hThrew).2]
    exact ⟨fun _ => hPath, fun _ => Unchanged.of_eq rfl⟩
  · obtain ⟨flushed, hManager⟩ := createBranchedSession_manager hPath draws sessionId timestamp write
    refine ⟨fun hSame => absurd ?_ hNew, fun hNil => absurd hNil hPath⟩
    have hHeader := hSame.1
    rw [hThrew] at hManager
    rw [hManager] at hHeader
    exact congrArg Header.id ((buildIndex_header _).symm.trans hHeader)

/-- An operation that throws leaves the session as it was, but for those that move
state before they write. -/
theorem Sound.threw (h : Sound w.manager) {op : Op} (hFresh : Fresh w draws op)
    (hThrew : w.run draws timestamp write op = (.threw, next)) : Unchanged w.manager next.manager ↔ ¬Moves w op := by
  have hRandom := hFresh.random
  have hAppend : ∀ {body : Body}, w.append (draws 0) timestamp write body = (.threw, next) →
      (Unchanged w.manager next.manager ↔ ¬False) := fun hAppend =>
    ⟨fun _ hFalse => hFalse, fun _ => Unchanged.of_eq (h.append_threw hRandom hAppend)⟩
  have hStill : (Ended.threw, w) = (.threw, next) → (Unchanged w.manager next.manager ↔ ¬False) := fun hSame =>
    ⟨fun _ hFalse => hFalse, fun _ => Unchanged.of_eq (congrArg World.manager (Prod.mk.inj hSame).2.symm)⟩
  cases op with
  | contextEdit targetId replacement =>
    rw [World.run, World.appendContextEdit] at hThrew
    split_ifs at hThrew
    · cases hLookup : w.manager.byId.lookup targetId with
      | none =>
        rw [hLookup] at hThrew
        exact hStill hThrew
      | some target =>
        rw [hLookup] at hThrew
        simp only at hThrew
        split_ifs at hThrew
        · exact hAppend hThrew
        · exact hStill hThrew
    · exact hStill hThrew
  | labelChange targetId label =>
    rw [World.run, World.appendLabelChange] at hThrew
    split_ifs at hThrew
    · cases hLabel : w.append (draws 0) timestamp write (.label targetId label) with
      | mk ended after =>
        rw [hLabel] at hThrew
        cases ended with
        | returned => exact nomatch (Prod.mk.inj hThrew).1
        | threw => exact hAppend (hLabel.trans hThrew)
    · exact hStill hThrew
  | branch branchFromId =>
    rw [World.run, World.branch] at hThrew
    split_ifs at hThrew
    · exact nomatch (Prod.mk.inj hThrew).1
    · exact hStill hThrew
  | resetLeaf => exact nomatch (Prod.mk.inj hThrew).1
  | branchWithSummary branchFromId summary details usage fromHook => exact branchWithSummary_threw h hRandom hThrew
  | createBranchedSession sessionId leafId =>
    exact createBranchedSession_threw h (hFresh.session sessionId leafId rfl) hThrew
  | _ => exact hAppend hThrew

/-- The sessions that operations lead to, from a new one or from the entries of a
well-formed file. -/
inductive Reachable : World → Prop where
  | created (m : Manager) (files : List (JsString × JsString)) (sessionId timestamp : JsString)
      (parentSession : Option JsString) : Reachable ⟨m.newSession sessionId timestamp parentSession, files⟩
  | loaded (m : Manager) (files : List (JsString × JsString)) (hUnique : (m.entries.map Entry.id).Nodup)
      (hNamed : ∀ entry ∈ m.entries, entry.id ≠ []) (hParents : ChainedFrom [] m.entries) : Reachable ⟨m.buildIndex, files⟩
  | step {w : World} (earlier : Reachable w) {draws : Nat → Draw} (timestamp : JsString) (write : Write) {op : Op}
      (hFresh : Fresh w draws op) : Reachable (w.run draws timestamp write op).2

theorem Reachable.sound {w : World} (h : Reachable w) : Sound w.manager := by
  induction h with
  | created m files sessionId timestamp parentSession => exact ⟨nodup_nil, nofun, trivial, nofun, rfl⟩
  | loaded m files hUnique hNamed hParents =>
    refine ⟨?_, ?_, ?_, ?_, buildIndex_index (buildIndex_entries m).symm⟩
    · rw [buildIndex_entries]
      exact hUnique
    · rw [buildIndex_entries]
      exact hNamed
    · rw [buildIndex_entries]
      exact hParents
    · rw [buildIndex_entries]
      exact buildIndex_leaf m
  | step _ timestamp write hFresh ih => exact ih.run hFresh.random timestamp write _

/-- Every reachable session is a tree with its index; and an operation that throws
leaves it as it was exactly when it does not move state before it writes. -/
theorem session_tree {w : World} (h : Reachable w) :
    Sound w.manager ∧ ∀ draws timestamp write op next, Fresh w draws op → w.run draws timestamp write op = (.threw, next) →
      (Unchanged w.manager next.manager ↔ ¬Moves w op) :=
  ⟨h.sound, fun _ _ _ _ _ hFresh hThrew => h.sound.threw hFresh hThrew⟩

/-! A session of one message. -/

def blank : Manager where
  sessionDir := js "sessions"
  cwd := js "cwd"
  sessionId := []
  sessionFile := none
  persist := true
  flushed := false
  header := ⟨[], [], js "cwd", none⟩
  entries := []
  byId := []
  labelsById := []
  labelTimestampsById := []
  leafId := none

/-- One short id, and UUIDs of different lengths. -/
def drawn (n : Nat) : Draw where
  short := [js "a"]
  uuid := replicate (n + 2) 98

theorem drawn_random (h : ∀ id ∈ used, id = js "a") : Random used drawn where
  uuid _ hNil := nomatch hNil
  short _ id hId := by
    rw [mem_singleton.mp hId]
    decide
  unused n hMem := nomatch h _ hMem
  apart n k hNe hSame := hNe (by simpa [drawn] using congrArg length hSame)
  longer n k hMem := nomatch mem_singleton.mp hMem

def ask : StrictJson :=
  ⟨.obj [(js "role", .str (js "user"))], (JsonValue.strict_obj _).mpr
    ⟨show OwnKeys [js "role"] by decide, fun field hField => by
      rw [mem_singleton.mp hField]
      trivial⟩⟩

def question : Op :=
  .message ask

/-- The session after a message that was written. -/
def asked : World :=
  (World.run ⟨blank.newSession (js "s") (js "t") none, []⟩ drawn (js "t") .completes question).2

theorem asked_reachable : Reachable asked :=
  .step (.created blank [] (js "s") (js "t") none) (js "t") .completes
    { random := drawn_random (fun _ hMem => absurd hMem not_mem_nil), session := nofun }

def summaryFromRoot : Op :=
  .branchWithSummary none (js "summary") none none none

theorem summaryFromRoot_fresh : Fresh asked drawn summaryFromRoot where
  random := drawn_random fun _ hMem => mem_singleton.mp hMem
  session := nofun

theorem session_tree_asked :
    Sound asked.manager ∧
      (Unchanged asked.manager (asked.run drawn (js "t") .refused summaryFromRoot).2.manager ↔
        ¬Moves asked summaryFromRoot) :=
  ⟨(session_tree asked_reachable).1,
    (session_tree asked_reachable).2 drawn (js "t") .refused summaryFromRoot _ summaryFromRoot_fresh rfl⟩

/-- A summary from the root that is not written leaves no leaf. -/
theorem leaf_lost :
    ¬∀ w, Reachable w → ∀ draws timestamp write op next, Fresh w draws op →
      w.run draws timestamp write op = (.threw, next) → Unchanged w.manager next.manager := by
  intro hAll
  have hLeaf := (hAll asked asked_reachable drawn (js "t") .refused summaryFromRoot _ summaryFromRoot_fresh rfl).2.2.2
  exact nomatch (show (none : Option JsString) = some (js "a") from hLeaf)

end OctoberHarness.SessionManager
