import Mathlib.Data.List.TakeWhile
import OctoberHarness.SessionManager.Context
import OctoberHarness.SessionManager.Tree

/-! The model context of a session, and a branch of it extracted as a session of its own. -/
namespace OctoberHarness.SessionManager

open List Option OrderedMap

/-- A message of the context; the times of made ones are those of their timestamps. -/
inductive ContextMessage where
  | message (json : JsonValue)
  | custom (customType : JsString) (content : Option JsonValue) (display : JsonValue) (details : Option JsonValue)
      (timestamp : JsString)
  | branchSummary (summary fromId timestamp : JsString)
  | compactionSummary (summary : JsString) (tokensBefore : JsNumber) (timestamp : JsString)

/-- A message whose content is missing gets an empty one. -/
def withContent (message : StrictJson) : JsonValue :=
  match message.val, role message with
  | .obj fields, some r =>
    match fields.lookup (js "content") with
    | none | some .null =>
      if r = js "system" then .obj (OrderedMap.set fields (js "content") (.str []))
      else if r = js "user" ∨ r = js "assistant" ∨ r = js "toolResult" then
        .obj (OrderedMap.set fields (js "content") (.arr []))
      else .obj fields
    | some _ => .obj fields
  | json, _ => json

def sessionEntryToContextMessages (entry : Entry) : List ContextMessage :=
  match entry.body with
  | .message message => [.message (withContent message)]
  | .customMessage customType content display details =>
    [.custom customType (some (if content.val = .null then .arr [] else content.val)) display.val (details.map (·.val))
      entry.timestamp]
  | .branchSummary fromId summary _ _ _ => if summary = [] then [] else [.branchSummary summary fromId entry.timestamp]
  | .compaction summary _ tokensBefore _ _ _ systemMessage =>
    (systemMessage.filter fun message => truthy message.val).toList.map (fun message => .message message.val) ++
      [.compactionSummary summary tokensBefore entry.timestamp]
  | _ => []

/-- The content of a replacement, a text block for a message that has blocks. -/
def replacedContent (blocks : Bool) (replacement : JsonValue) : Option JsonValue :=
  match replacement with
  | .obj fields =>
    match blocks, fields.lookup (js "content") with
    | true, some (.str s) => some (.arr [.obj [(js "type", .str (js "text")), (js "text", .str s)]])
    | _, content => content
  | _ => none

def ContextMessage.replace (replacement : JsonValue) : ContextMessage → ContextMessage
  | .message (.obj fields) =>
    let kind := fields.lookup (js "role")
    let blocks := kind = some (.str (js "assistant")) || kind = some (.str (js "toolResult"))
    if blocks || kind = some (.str (js "user")) || kind = some (.str (js "custom")) then
      match replacedContent blocks replacement with
      | some content => .message (.obj (OrderedMap.set fields (js "content") content))
      | none => .message (.obj (erase fields (js "content")))
    else .message (.obj fields)
  | .custom customType _ display details timestamp =>
    .custom customType (replacedContent false replacement) display details timestamp
  | other => other

def projectContextEntry (entry : Entry) (edit : Option Entry) : List ContextMessage :=
  match edit.map Entry.body with
  | some (.contextEdit _ replacement) =>
    if replacement.val = .null then []
    else (sessionEntryToContextMessages entry).map (ContextMessage.replace replacement.val)
  | _ => sessionEntryToContextMessages entry

/-- The thinking level and the model with its provider. -/
abbrev Settings := JsString × Option (Option JsonValue × Option JsonValue)

def nextSettings (settings : Settings) (entry : Entry) : Settings :=
  match entry.body with
  | .thinkingLevelChange thinkingLevel => (thinkingLevel, settings.2)
  | .modelChange provider modelId => (settings.1, some (some (.str provider), some (.str modelId)))
  | .message message =>
    match message.val, decide (role message = some (js "assistant")) with
    | .obj fields, true => (settings.1, some (fields.lookup (js "provider"), fields.lookup (js "model")))
    | _, _ => settings
  | _ => settings

def Entry.isLabel (entry : Entry) : Bool :=
  match entry.body with
  | .label .. => true
  | _ => false

def Entry.firstKept (entry : Entry) : Option JsString :=
  match entry.body with
  | .compaction _ firstKeptEntryId _ _ _ _ _ => some firstKeptEntryId
  | _ => none

def Entry.isSystem (entry : Entry) : Bool :=
  match entry.body with
  | .message message => role message = some (js "system")
  | _ => false

def Entry.editTarget (entry : Entry) : Option JsString :=
  match entry.body with
  | .contextEdit targetId _ => some targetId
  | _ => none

def entryReader : Reader Entry JsString ContextMessage Settings where
  id := Entry.id
  firstKept := Entry.firstKept
  isSystem entry := some entry.isSystem
  editTarget := Entry.editTarget
  project entry edit := some (projectContextEntry entry edit)
  settings path := some (path.foldl nextSettings (js "off", none))

/-- `buildSessionPath`; an entry that is not there means the last one. -/
def Manager.contextPath (m : Manager) : Option JsString → List Entry
  | none => []
  | some id =>
    match (if id = [] then none else m.byId.lookup id).or m.entries.getLast? with
    | some leaf => (leaf :: Manager.walk m.byId m.byId.length leaf.parentId).reverse
    | none => []

/-- The messages and the settings of a path. -/
def contextOf (path : List Entry) : Option (List ContextMessage × Settings) :=
  (entryReader.projection path).map fun projection => (projection.entries.flatMap Prod.snd, projection.settings)

/-- `buildSessionContext`. -/
def Manager.context (m : Manager) (leafId : Option JsString) : Option (List ContextMessage × Settings) :=
  contextOf (m.contextPath leafId)

/-! What the context reads of a path. -/

/-- An entry without its parent and what it keeps from. -/
def Entry.seen (entry : Entry) : Entry :=
  { entry with
    parentId := none
    body :=
      match entry.body with
      | .compaction summary _ tokensBefore details usage fromHook systemMessage =>
        .compaction summary [] tokensBefore details usage fromHook systemMessage
      | body => body }

/-- The entries of a path that are no labels, as the context reads them. -/
def core (path : List Entry) : List Entry :=
  (path.filter fun entry => !entry.isLabel).map Entry.seen

/-- The messages of an entry by its place in the context. -/
def said (path : List Entry) (source : Entry × Nat) : List ContextMessage :=
  if source.1.firstKept.isSome ∧ 0 < source.2 then []
  else projectContextEntry source.1 (entryReader.edit path source.1.id)

theorem seen_reads (entry : Entry) :
    entry.seen.firstKept.isSome = entry.firstKept.isSome ∧ entry.seen.isSystem = entry.isSystem ∧
      entry.seen.editTarget = entry.editTarget ∧ (∀ settings, nextSettings settings entry.seen = nextSettings settings entry) ∧
      ∀ edit, projectContextEntry entry.seen (edit.map Entry.seen) = projectContextEntry entry edit := by
  have hProject : ∀ edit, projectContextEntry entry (Option.map Entry.seen edit) = projectContextEntry entry edit := by
    intro edit
    cases edit with
    | none => rfl
    | some edit =>
      obtain ⟨_, _, _, body⟩ := edit
      cases body <;> rfl
  obtain ⟨_, _, _, body⟩ := entry
  cases body <;> exact ⟨rfl, rfl, rfl, fun _ => rfl, fun edit => hProject edit⟩

variable {entry compaction : Entry} {path entries before : List Entry} {id first : JsString} {m : Manager}

theorem label_reads (h : entry.isLabel = true) :
    entry.firstKept = none ∧ entry.editTarget = none ∧ (∀ settings, nextSettings settings entry = settings) ∧
      ∀ path index, said path (entry, index) = [] := by
  obtain ⟨_, _, _, body⟩ := entry
  cases body with
  | label targetId label =>
    refine ⟨rfl, rfl, fun _ => rfl, fun path index => ?_⟩
    simp only [said, projectContextEntry]
    split
    · rfl
    · split <;> [split_ifs; skip] <;> rfl
  | _ => exact nomatch h

theorem compaction_label (h : entry.firstKept.isSome = true) : entry.isLabel = false := by
  by_contra hLabel
  rw [(label_reads (Bool.eq_true_of_not_eq_false hLabel)).1] at h
  exact nomatch h

theorem core_append (first second : List Entry) : core (first ++ second) = core first ++ core second := by
  rw [core, filter_append, map_append]
  rfl

theorem core_cons (h : entry.isLabel = false) (rest : List Entry) :
    core (entry :: rest) = entry.seen :: core rest := by
  rw [core, filter_cons_of_pos (by rw [h]; rfl)]
  rfl

theorem core_label (h : entry.isLabel = true) (rest : List Entry) : core (entry :: rest) = core rest := by
  rw [core, filter_cons_of_neg (by rw [h]; exact Bool.false_ne_true)]
  rfl

theorem settings_core (path : List Entry) (settings : Settings) :
    path.foldl nextSettings settings = (core path).foldl nextSettings settings := by
  induction path generalizing settings with
  | nil => rfl
  | cons entry rest ih =>
    cases hLabel : entry.isLabel with
    | true => rw [core_label hLabel, foldl_cons, (label_reads hLabel).2.2.1, ih]
    | false => rw [core_cons hLabel, foldl_cons, foldl_cons, (seen_reads entry).2.2.2.1, ih]

theorem edit_core (path : List Entry) (id : JsString) :
    entryReader.edit (core path) id = (entryReader.edit path id).map Entry.seen := by
  rw [Reader.edit, core, ← map_reverse, find?_map, ← filter_reverse, find?_filter]
  congr 2
  funext entry
  refine decide_eq_decide.mpr ?_
  show (!entry.isLabel) = true ∧ decide (entry.seen.editTarget = some id) = true ↔ entry.editTarget = some id
  rw [(seen_reads entry).2.2.1]
  cases hLabel : entry.isLabel with
  | true => simp [(label_reads hLabel).2.1]
  | false => simp

theorem said_seen (path : List Entry) (entry : Entry) (index : Nat) :
    said (core path) (entry.seen, index) = said path (entry, index) := by
  obtain ⟨hKept, -, -, -, hProject⟩ := seen_reads entry
  simp only [said, hKept, edit_core]
  exact ite_congr rfl (fun _ => rfl) fun _ => hProject _

theorem said_core (path entries : List Entry) (n : Nat) (h : 0 < n ∨ ∀ entry ∈ entries, entry.firstKept = none) :
    (entries.zipIdx n).flatMap (said path) = (core entries).flatMap fun entry => said (core path) (entry, 1) := by
  induction entries generalizing n with
  | nil => rfl
  | cons entry rest ih =>
    have hPlace : said path (entry, n) = said path (entry, 1) := by
      rcases h with hPos | hNone
      · simp only [said, hPos, Nat.one_pos]
      · simp only [said, hNone entry mem_cons_self, isSome_none, Bool.false_eq_true, false_and]
    rw [zipIdx_cons, flatMap_cons, ih (n + 1) (.inl n.succ_pos)]
    cases hLabel : entry.isLabel with
    | true => rw [core_label hLabel, (label_reads hLabel).2.2.2, nil_append]
    | false => rw [core_cons hLabel, flatMap_cons, said_seen, hPlace]

theorem system_core (entries : List Entry) :
    core (entries.filter fun entry => entry.isSystem = false) = (core entries).filter fun entry => entry.isSystem = false := by
  rw [core, core, List.filter_map, List.filter_filter, List.filter_filter]
  congr 1
  refine filter_congr fun entry _ => ?_
  rw [Function.comp, (seen_reads entry).2.1, Bool.and_comm]

/-! The context of a path, from what it reads of it. -/

theorem contextOf_eq (h : entryReader.contextEntries path = some entries) :
    contextOf path = some (entries.zipIdx.flatMap (said entries), (core path).foldl nextSettings (js "off", none)) := by
  have hMessages : (fun source : Entry × Nat => (entryReader.messages entries source.1 source.2).map (source.1, ·)) =
      fun source => pure (source.1, said entries source) :=
    funext fun source => congrArg (Option.map (source.1, ·)) (apply_ite some _ _ _).symm
  rw [contextOf, Reader.projection, h, ← settings_core]
  show Option.map _ (bind (entries.zipIdx.mapM fun source =>
    (entryReader.messages entries source.1 source.2).map (source.1, ·)) _) = _
  rw [hMessages, mapM_pure]
  show some (((entries.zipIdx).map _).flatMap _, _) = _
  rw [flatMap_map]

theorem context_plain (h : ∀ entry ∈ path, entry.firstKept = none) :
    contextOf path = some ((core path).flatMap fun entry => said (core path) (entry, 1),
      (core path).foldl nextSettings (js "off", none)) := by
  have hNone : path.reverse.find? (fun entry => (entryReader.firstKept entry).isSome) = none := by
    rw [find?_eq_none]
    intro entry hEntry
    rw [show entryReader.firstKept entry = none from h entry (mem_reverse.mp hEntry)]
    exact Bool.false_ne_true
  have hEntries : entryReader.contextEntries path = some path := by rw [Reader.contextEntries, hNone]
  rw [contextOf_eq hEntries, said_core _ _ _ (.inr h)]

/-- The context of a path whose last compaction stands before `after`. -/
theorem context_compacted {after : List Entry}
    (hUnique : ((before ++ compaction :: after).map Entry.id).Nodup) (hKept : compaction.firstKept.isSome = true)
    (hAfter : ∀ entry ∈ after, entry.firstKept = none) {context : List Entry}
    (hContext : context = (core (entryReader.retained compaction before)).filter (fun entry => entry.isSystem = false) ++
      core after) :
    contextOf (before ++ compaction :: after) =
      some (said (compaction.seen :: context) (compaction.seen, 0) ++
          context.flatMap fun entry => said (compaction.seen :: context) (entry, 1),
        (core before ++ compaction.seen :: core after).foldl nextSettings (js "off", none)) := by
  have hLabel := compaction_label hKept
  have hFind : (before ++ compaction :: after).reverse.find? (fun entry => (entryReader.firstKept entry).isSome) =
      some compaction := by
    rw [find?_eq_some_iff_append]
    refine ⟨hKept, after.reverse, before.reverse, by simp, fun entry hEntry => ?_⟩
    rw [show entryReader.firstKept entry = none from hAfter entry (mem_reverse.mp hEntry)]
    rfl
  have hBefore : ∀ entry ∈ before, decide (entryReader.id entry ≠ entryReader.id compaction) = true := by
    rw [map_append, nodup_append] at hUnique
    exact fun entry hEntry => decide_eq_true (hUnique.2.2 _ (mem_map_of_mem hEntry) _ mem_cons_self)
  have hEntries : entryReader.contextEntries (before ++ compaction :: after) =
      some (compaction :: ((entryReader.retained compaction before).filter (fun entry => entry.isSystem = false) ++ after)) := by
    rw [Reader.contextEntries, hFind]
    simp only
    rw [takeWhile_append_of_pos hBefore, dropWhile_append_of_pos hBefore,
      takeWhile_cons_of_neg (by simp), dropWhile_cons_of_neg (by simp), append_nil]
    rw [if_neg (by rintro ⟨_, -, hNone⟩; exact nomatch hNone)]
    simp [entryReader]
  have hCore : core (compaction :: ((entryReader.retained compaction before).filter (fun entry => entry.isSystem = false) ++
      after)) = compaction.seen :: context := by
    rw [core_cons hLabel, core_append, system_core, hContext]
  rw [contextOf_eq hEntries, zipIdx_cons, flatMap_cons, said_core _ _ _ (.inl Nat.one_pos), ← said_seen, hCore,
    core_append, system_core, ← hContext, core_append, core_cons hLabel]

/-! The path without its labels. -/

/-- Every entry hangs from the one before it. -/
def Linked : Option JsString → List Entry → Prop
  | _, [] => True
  | parentId, entry :: rest => entry.parentId = parentId ∧ Linked (some entry.id) rest

variable (r : Rechain)

theorem next_eq (entry : Entry) : r.next entry =
    if entry.isLabel then { r with pendingLabelIds := r.pendingLabelIds ++ [entry.id] } else r.keep entry := by
  obtain ⟨_, _, _, body⟩ := entry
  cases body <;> rfl

/-- What a compaction `id` that kept from `first` keeps from. -/
def Rechain.heir (r : Rechain) (id first : JsString) : JsString :=
  if first = id ∨ first ∈ r.pendingLabelIds then id else (r.replacementByLabelId.lookup first).getD first

theorem keep_lookup (entry : Entry) (first : JsString) :
    (r.keep entry).replacementByLabelId.lookup first =
      if first ∈ r.pendingLabelIds then some entry.id else r.replacementByLabelId.lookup first :=
  lookup_foldl_read (fun _ => entry.id) _ _ _

theorem keep_kept (entry : Entry) :
    ∃ new, (r.keep entry).kept = r.kept ++ [new] ∧ new.id = entry.id ∧ new.parentId = r.pathParentId ∧
      new.seen = entry.seen ∧ new.isLabel = entry.isLabel ∧ new.firstKept = entry.firstKept.map (r.heir entry.id) := by
  have hHeir : (fun first => if first = entry.id then entry.id else
      ((r.keep entry).replacementByLabelId.lookup first).getD first) = r.heir entry.id := by
    funext first
    rw [keep_lookup, Rechain.heir]
    by_cases hFirst : first = entry.id <;> by_cases hPending : first ∈ r.pendingLabelIds <;> simp [hFirst, hPending]
  refine ⟨_, rfl, rfl, rfl, ?_⟩
  rw [← hHeir]
  obtain ⟨_, _, _, body⟩ := entry
  cases body <;> exact ⟨rfl, rfl, rfl⟩

theorem rechain_adds (path : List Entry) :
    ∃ more, (path.foldl Rechain.next r).kept = r.kept ++ more ∧ core more = core path ∧
      Linked r.pathParentId more ∧ ∀ entry ∈ more, entry.isLabel = false := by
  induction path generalizing r with
  | nil => exact ⟨[], (append_nil _).symm, rfl, trivial, nofun⟩
  | cons entry rest ih =>
    rw [foldl_cons, next_eq]
    cases hLabel : entry.isLabel with
    | true =>
      rw [core_label hLabel]
      exact ih _
    | false =>
      obtain ⟨more, hMore, hCore, hLinked, hKinds⟩ := ih (r.keep entry)
      obtain ⟨new, hNew, hId, hParent, hSeen, hKind, -⟩ := keep_kept r entry
      refine ⟨new :: more, ?_, ?_, ⟨hParent, hId ▸ hLinked⟩, forall_mem_cons.mpr ⟨hKind.trans hLabel, hKinds⟩⟩
      · rw [if_neg Bool.false_ne_true, hMore, hNew, append_assoc]
        rfl
      · rw [core_cons hLabel, core_cons (hKind.trans hLabel), hCore, hSeen]

theorem pathWithoutLabels_adds (path : List Entry) :
    core (pathWithoutLabels path) = core path ∧ Linked none (pathWithoutLabels path) ∧
      ∀ entry ∈ pathWithoutLabels path, entry.isLabel = false := by
  obtain ⟨more, hMore, hAdds⟩ := rechain_adds ⟨[], [], [], none⟩ path
  rw [pathWithoutLabels, hMore]
  exact hAdds

theorem heir_keep (hNe : first ≠ id) (hApart : first ≠ entry.id) :
    (r.keep entry).heir id first = r.heir entry.id first := by
  rw [Rechain.heir, keep_lookup, Rechain.heir]
  by_cases hPending : first ∈ r.pendingLabelIds <;> simp [Rechain.keep, hNe, hApart, hPending]

theorem dropWhile_absent (h : id ∉ entries.map Entry.id) :
    (entries.dropWhile fun entry => entry.id ≠ id) = [] := by
  rw [dropWhile_eq_nil_iff]
  exact fun entry hEntry => decide_eq_true fun hSame => h (hSame ▸ mem_map_of_mem hEntry)

theorem dropWhile_snoc (h : id = entry.id ∨ id ∈ entries.map Entry.id) :
    ((entries ++ [entry]).dropWhile fun entry => entry.id ≠ id) = (entries.dropWhile fun entry => entry.id ≠ id) ++ [entry] := by
  rw [dropWhile_append]
  split
  · rename_i hEmpty
    rw [List.isEmpty_iff] at hEmpty
    have hLast : id = entry.id := h.resolve_right fun hMem => by
      obtain ⟨other, hOther, rfl⟩ := mem_map.mp hMem
      exact of_decide_eq_true (dropWhile_eq_nil_iff.mp hEmpty other hOther) rfl
    rw [hEmpty, dropWhile_cons_of_neg (by simp [hLast]), nil_append]
  · rfl

/-- The loop over a path from its root. -/
def rechained (path : List Entry) : Rechain :=
  path.foldl Rechain.next ⟨[], [], [], none⟩

theorem rechained_snoc (path : List Entry) (entry : Entry) :
    rechained (path ++ [entry]) = (rechained path).next entry :=
  foldl_append

theorem rechained_ids (path : List Entry) : ((rechained path).kept.map Entry.id).Sublist (path.map Entry.id) :=
  rechain_ids ⟨[], [], [], none⟩ path

/-- The loop knows labels of the path alone; and what is kept from an entry of the
path is kept from its heir. -/
theorem rechained_heirs (hUnique : (path.map Entry.id).Nodup) :
    (∀ id, id ∈ (rechained path).pendingLabelIds ∨ ((rechained path).replacementByLabelId.lookup id).isSome →
      id ∈ path.map Entry.id) ∧
    ∀ id, id ∉ path.map Entry.id → ∀ first, first ∈ path.map Entry.id →
      ((rechained path).heir id first = id ∨ (rechained path).heir id first ∈ (rechained path).kept.map Entry.id) ∧
      core ((rechained path).kept.dropWhile fun entry => entry.id ≠ (rechained path).heir id first) =
        core (path.dropWhile fun entry => entry.id ≠ first) := by
  induction path using reverseRecOn with
  | nil => exact ⟨fun id h => by simp [rechained] at h, fun _ _ _ hFirst => absurd hFirst not_mem_nil⟩
  | append_singleton path entry ih =>
    have hIds := (rechained_ids path).subset
    rw [map_append, map_singleton, nodup_append] at hUnique
    have hApart : entry.id ∉ path.map Entry.id := fun hMem => hUnique.2.2 _ hMem _ (mem_singleton_self _) rfl
    obtain ⟨hLabels, hHeirs⟩ := ih hUnique.1
    rw [rechained_snoc, next_eq]
    simp only [map_append, map_singleton, mem_append, mem_singleton, not_or]
    cases hLabel : entry.isLabel with
    | true =>
      refine ⟨fun id hKnown => ?_, fun id hId first hFirst => ?_⟩
      · rw [if_pos rfl, mem_append, mem_singleton] at hKnown
        rcases hKnown with (hPending | hNew) | hMap
        · exact .inl (hLabels id (.inl hPending))
        · exact .inr hNew
        · exact .inl (hLabels id (.inr hMap))
      · rw [if_pos rfl, dropWhile_snoc hFirst.symm, core_append, core_label hLabel]
        by_cases hLast : first = entry.id
        · have hHeir : Rechain.heir { rechained path with
              pendingLabelIds := (rechained path).pendingLabelIds ++ [entry.id] } id first = id :=
            if_pos (.inr (mem_append_right _ (mem_singleton.mpr hLast)))
          rw [hHeir, hLast, dropWhile_absent hApart, dropWhile_absent fun hMem => hId.1 (hIds hMem)]
          exact ⟨.inl rfl, rfl⟩
        · have hHeir : Rechain.heir { rechained path with
              pendingLabelIds := (rechained path).pendingLabelIds ++ [entry.id] } id first =
              (rechained path).heir id first := by
            simp [Rechain.heir, hLast]
          rw [hHeir]
          exact (hHeirs id hId.1 first (hFirst.resolve_right hLast)).imp_right fun hKept =>
            hKept.trans (append_nil _).symm
    | false =>
      refine ⟨fun id hKnown => ?_, fun id hId first hFirst => ?_⟩
      · rw [if_neg Bool.false_ne_true, keep_lookup] at hKnown
        split_ifs at hKnown with hPending
        · exact .inl (hLabels id (.inl hPending))
        · exact .inl (hLabels id (.inr (hKnown.resolve_left not_mem_nil)))
      · rw [if_neg Bool.false_ne_true, dropWhile_snoc hFirst.symm, core_append, core_cons hLabel]
        have hNe : first ≠ id := by
          rintro rfl
          exact hFirst.elim hId.1 hId.2
        have hHeir : (((rechained path).keep entry).heir id first = entry.id ∨
            ((rechained path).keep entry).heir id first ∈ (rechained path).kept.map Entry.id) ∧
            core ((rechained path).kept.dropWhile fun other => other.id ≠ ((rechained path).keep entry).heir id first) =
              core (path.dropWhile fun other => other.id ≠ first) := by
          by_cases hLast : first = entry.id
          · obtain rfl := hLast
            have hUnknown : ((rechained path).keep entry).heir id entry.id = entry.id := by
              have hPending := mt (fun h => hLabels entry.id (.inl h)) hApart
              have hMap := not_isSome_iff_eq_none.mp (mt (fun h => hLabels entry.id (.inr h)) hApart)
              rw [Rechain.heir, keep_lookup, if_neg hPending, hMap]
              exact if_neg fun h => h.elim hNe not_mem_nil
            rw [hUnknown, dropWhile_absent hApart, dropWhile_absent fun hMem => hApart (hIds hMem)]
            exact ⟨.inl rfl, rfl⟩
          · rw [heir_keep _ hNe hLast]
            exact hHeirs entry.id hApart first (hFirst.resolve_right hLast)
        obtain ⟨new, hNew, hSame, -, hSeen, hKind, -⟩ := keep_kept (rechained path) entry
        rw [hNew, dropWhile_snoc (hSame ▸ hHeir.1), core_append, map_append, hHeir.2, core_cons (hKind.trans hLabel),
          map_singleton, hSame, hSeen, mem_append, mem_singleton]
        exact ⟨.inr hHeir.1.symm, rfl⟩

theorem rechained_split (before after : List Entry) (hLabel : entry.isLabel = false) :
    ∃ new more, pathWithoutLabels (before ++ entry :: after) = (rechained before).kept ++ new :: more ∧ new.id = entry.id ∧
      new.seen = entry.seen ∧ new.firstKept = entry.firstKept.map ((rechained before).heir entry.id) ∧
      core more = core after := by
  obtain ⟨new, hNew, hId, -, hSeen, -, hFirst⟩ := keep_kept (rechained before) entry
  obtain ⟨more, hMore, hCore, -⟩ := rechain_adds ((rechained before).keep entry) after
  refine ⟨new, more, ?_, hId, hSeen, hFirst, hCore⟩
  have hNext : (rechained before).next entry = (rechained before).keep entry := by
    rw [next_eq, hLabel]
    rfl
  rw [pathWithoutLabels, foldl_append, foldl_cons]
  show (after.foldl Rechain.next ((rechained before).next entry)).kept = _
  rw [hNext, hMore, hNew, append_assoc]
  rfl

theorem plain_core (path : List Entry) :
    (∀ entry ∈ core path, entry.firstKept = none) ↔ ∀ entry ∈ path, entry.firstKept = none := by
  simp only [← not_isSome_iff_eq_none]
  constructor
  · intro h entry hEntry hKept
    refine h entry.seen (mem_map_of_mem (mem_filter.mpr ⟨hEntry, by rw [compaction_label hKept]; rfl⟩)) ?_
    rwa [(seen_reads entry).1]
  · intro h entry hEntry
    obtain ⟨source, hSource, rfl⟩ := mem_map.mp hEntry
    rw [(seen_reads source).1]
    exact h source (mem_filter.mp hSource).1

theorem retained_eq (h : compaction.firstKept = some first) (before : List Entry) :
    entryReader.retained compaction before = before.dropWhile fun entry => entry.id ≠ first := by
  rw [Reader.retained, show entryReader.firstKept compaction = some first from h]
  simp only [ne_eq, some.injEq]
  rfl

theorem retained_rechained {new : Entry} (hUnique : (before.map Entry.id).Nodup)
    (hApart : compaction.id ∉ before.map Entry.id) (hFirst : compaction.firstKept = some first)
    (hNew : new.firstKept = compaction.firstKept.map ((rechained before).heir compaction.id)) :
    core (entryReader.retained new (rechained before).kept) = core (entryReader.retained compaction before) := by
  obtain ⟨hLabels, hHeirs⟩ := rechained_heirs hUnique
  rw [hFirst] at hNew
  rw [retained_eq hFirst, retained_eq hNew]
  by_cases hMem : first ∈ before.map Entry.id
  · exact (hHeirs _ hApart first hMem).2
  · have hSame : (rechained before).heir compaction.id first = first := by
      have hMap := not_isSome_iff_eq_none.mp (mt (fun h => hLabels first (.inr h)) hMem)
      rw [Rechain.heir, hMap]
      exact ite_eq_right_iff.mpr fun h => (h.resolve_right (mt (fun h => hLabels first (.inl h)) hMem)).symm
    rw [hSame, dropWhile_absent hMem, dropWhile_absent fun h => hMem ((rechained_ids before).subset h)]

theorem context_rechained {labels : List Entry} (hUnique : (path.map Entry.id).Nodup)
    (hNew : ((pathWithoutLabels path ++ labels).map Entry.id).Nodup) (hLabels : core labels = []) :
    contextOf (pathWithoutLabels path ++ labels) = contextOf path := by
  cases hFind : path.reverse.find? fun entry => entry.firstKept.isSome with
  | none =>
    have hSame : core (pathWithoutLabels path ++ labels) = core path := by
      rw [core_append, hLabels, append_nil, (pathWithoutLabels_adds path).1]
    have hPlain : ∀ entry ∈ path, entry.firstKept = none := fun entry hEntry =>
      not_isSome_iff_eq_none.mp (List.find?_eq_none.mp hFind entry (mem_reverse.mpr hEntry))
    rw [context_plain hPlain, context_plain ((plain_core _).mp (hSame ▸ (plain_core _).mpr hPlain)), hSame]
  | some compaction =>
    obtain ⟨hKept, after, before, hPath, hAfter⟩ := List.find?_eq_some_iff_append.mp hFind
    obtain rfl : path = before.reverse ++ compaction :: after.reverse := by
      rw [← reverse_reverse path, hPath]
      simp
    have hPlain : ∀ entry ∈ after.reverse, entry.firstKept = none := fun entry hEntry => by
      simpa using hAfter entry (mem_reverse.mp hEntry)
    obtain ⟨first, hFirst⟩ := isSome_iff_exists.mp hKept
    obtain ⟨new, more, hSplit, hId, hSeen, hNewFirst, hCore⟩ :=
      rechained_split before.reverse after.reverse (compaction_label hKept)
    have hAdded : core (more ++ labels) = core after.reverse := by
      rw [core_append, hLabels, append_nil, hCore]
    rw [hSplit, append_assoc, cons_append] at hNew ⊢
    obtain ⟨hBefore, -, hApart⟩ := nodup_append.mp (map_append ▸ hUnique)
    have hRetained := retained_rechained hBefore (fun h => hApart _ h _ mem_cons_self rfl) hFirst hNewFirst
    have hCoreBefore : core (rechained before.reverse).kept = core before.reverse := (pathWithoutLabels_adds _).1
    rw [context_compacted hUnique hKept hPlain rfl, context_compacted hNew (by rw [hNewFirst, hFirst]; rfl)
      ((plain_core _).mp (hAdded ▸ (plain_core _).mpr hPlain)) rfl, hRetained, hSeen, hAdded, hCoreBefore]

/-! The chain of the new session. -/

theorem Linked.append {parentId : Option JsString} {first second : List Entry} (h : Linked parentId first)
    (hNext : Linked ((first.getLast?.map Entry.id).or parentId) second) : Linked parentId (first ++ second) := by
  induction first generalizing parentId with
  | nil => exact hNext
  | cons entry rest ih =>
    refine ⟨h.1, ih h.2 ?_⟩
    cases rest with
    | nil => exact hNext
    | cons next rest =>
      rw [getLast?_cons_cons] at hNext
      rw [getLast?_eq_getLast_of_ne_nil (cons_ne_nil next rest)] at hNext ⊢
      exact hNext

theorem Linked.snoc {parentId : Option JsString} (h : Linked parentId (before ++ [entry])) :
    Linked parentId before ∧ entry.parentId = (before.getLast?.map Entry.id).or parentId := by
  induction before generalizing parentId with
  | nil => exact ⟨trivial, h.1⟩
  | cons first rest ih =>
    obtain ⟨hRest, hEntry⟩ := ih h.2
    refine ⟨⟨h.1, hRest⟩, hEntry.trans ?_⟩
    cases rest with
    | nil => rfl
    | cons next rest =>
      rw [getLast?_cons_cons, getLast?_eq_getLast_of_ne_nil (cons_ne_nil next rest)]
      rfl

theorem labelEntries_linked (timestamps : List (JsString × JsString)) (used : List JsString) (parentId : Option JsString)
    (labels : List (JsString × JsString)) (draws : Nat → Draw) :
    Linked parentId (labelEntries timestamps used parentId labels draws) ∧
      core (labelEntries timestamps used parentId labels draws) = [] := by
  induction labels generalizing used parentId draws with
  | nil => exact ⟨trivial, rfl⟩
  | cons label rest ih => exact ⟨⟨rfl, (ih _ _ _).1⟩, (ih _ _ _).2⟩

theorem branched_linked (m : Manager) (path : List Entry) (draws : Nat → Draw) :
    Linked none (m.branched path draws) ∧ core (m.branched path draws) = core path := by
  obtain ⟨hCore, hLinked, -⟩ := pathWithoutLabels_adds path
  obtain ⟨hLabels, hNone⟩ := labelEntries_linked m.labelTimestampsById ((pathWithoutLabels path).map Entry.id)
    ((pathWithoutLabels path).getLast?.map Entry.id)
    (m.labelsById.filter fun label => label.1 ∈ (pathWithoutLabels path).map Entry.id) draws
  rw [Manager.branched, core_append, hNone, hCore, append_nil]
  exact ⟨hLinked.append (by rwa [or_none]), rfl⟩

theorem walk_linked (hUnique : (entries.map Entry.id).Nodup) (hNamed : ∀ entry ∈ entries, entry.id ≠ [])
    (hLinked : Linked none before) (hBefore : ∀ entry ∈ before, entry ∈ entries) {fuel : Nat} (hFuel : before.length ≤ fuel) :
    Manager.walk (entries.map fun entry => (entry.id, entry)) fuel (before.getLast?.map Entry.id) = before.reverse := by
  induction before using reverseRecOn generalizing fuel with
  | nil => cases fuel <;> rfl
  | append_singleton before entry ih =>
    rw [length_append, length_singleton] at hFuel
    obtain ⟨fuel, rfl⟩ := Nat.exists_eq_add_of_le' (Nat.le_of_add_left_le hFuel)
    obtain ⟨hRest, hParent⟩ := hLinked.snoc
    have hMem := hBefore entry (mem_append_right _ (mem_singleton_self _))
    have hNext := ih hRest (fun other hOther => hBefore other (mem_append_left _ hOther)) (Nat.le_of_add_le_add_right hFuel)
    rw [getLast?_concat, map_some, reverse_concat, ← hNext, ← or_none (o := before.getLast?.map _), ← hParent]
    cases hId : entry.id with
    | nil => exact absurd hId (hNamed entry hMem)
    | cons unit rest => rw [Manager.walk, (lookup_entry hUnique).mpr ⟨hMem, hId⟩]

theorem Sound.contextPath (h : Sound m) (hId : id ∈ m.ids) :
    m.contextPath (some id) = (Manager.walk m.byId (m.byId.length + 1) (some id)).reverse := by
  obtain ⟨entry, hEntry, rfl⟩ := mem_map.mp (h.ids ▸ hId)
  have hLookup : m.byId.lookup entry.id = some entry := by
    rw [h.byId]
    exact (lookup_entry h.unique).mpr ⟨hEntry, rfl⟩
  rw [Manager.contextPath, if_neg (h.named entry hEntry), hLookup]
  cases hName : entry.id with
  | nil => exact absurd hName (h.named entry hEntry)
  | cons unit rest =>
    rw [hName] at hLookup
    rw [Manager.walk, hLookup]
    rfl

theorem Sound.contextPath_linked (h : Sound m) (hLinked : Linked none m.entries)
    (hLeaf : m.leafId = m.entries.getLast?.map Entry.id) : m.contextPath m.leafId = m.entries := by
  have hFuel : m.entries.length ≤ m.byId.length + 1 := by
    rw [h.length_byId]
    omega
  have hWalk := walk_linked h.unique h.named hLinked (fun _ hEntry => hEntry) hFuel
  rw [hLeaf]
  cases hLast : m.entries.getLast? with
  | none =>
    rw [List.getLast?_eq_none_iff.mp hLast]
    rfl
  | some entry =>
    rw [hLast, ← h.byId] at hWalk
    rw [map_some, h.contextPath (h.ids ▸ mem_map_of_mem (mem_of_getLast? hLast))]
    rw [map_some] at hWalk
    rw [hWalk, reverse_reverse]

theorem buildIndex_last (m : Manager) : m.buildIndex.leafId = m.entries.getLast?.map Entry.id := by
  rw [Manager.buildIndex]
  cases hEntries : m.entries using reverseRecOn with
  | nil => rfl
  | append_singleton entries entry _ =>
    rw [foldl_append, foldl_cons, foldl_nil, indexed_leafId, getLast?_concat]
    rfl

/-! The labels of the new session. -/

/-- Labels are not empty, and an entry has one. -/
def Labelled (m : Manager) : Prop :=
  (m.labelsById.map Prod.fst).Nodup ∧ ∀ label ∈ m.labelsById, label.2 ≠ []

theorem Labelled.indexed (h : Labelled m) (entry : Entry) : Labelled (m.indexed entry) := by
  rw [Manager.indexed]
  split
  · rename_i targetId label _
    have hErase : Labelled { m.indexEntry entry with labelsById := erase m.labelsById targetId } :=
      ⟨nodup_keys_erase _ _ h.1, fun other hOther => h.2 other (mem_filter.mp hOther).1⟩
    rcases label with _ | _ | ⟨unit, rest⟩
    · exact hErase
    · exact hErase
    · refine ⟨nodup_keys_set _ _ _ h.1, fun other hOther => ?_⟩
      rcases mem_set hOther with rfl | hOld
      · exact cons_ne_nil _ _
      · exact h.2 other hOld
  · exact h

theorem Sound.labelled (h : Sound m) : Labelled m := by
  have hFold : ∀ (entries : List Entry) (n : Manager), Labelled n → Labelled (entries.foldl Manager.indexed n) := by
    intro entries
    induction entries with
    | nil => exact fun _ hN => hN
    | cons entry rest ih => exact fun n hN => ih _ (hN.indexed entry)
  have hLabels : m.labelsById = m.buildIndex.labelsById := (Prod.mk.inj (Prod.mk.inj h.index).2).1
  rw [Labelled, hLabels]
  exact hFold m.entries _ ⟨nodup_nil, fun _ h => absurd h not_mem_nil⟩

theorem foldl_indexed_plain (h : ∀ entry ∈ entries, entry.isLabel = false) (m : Manager) :
    (entries.foldl Manager.indexed m).labelsById = m.labelsById := by
  induction entries generalizing m with
  | nil => rfl
  | cons entry rest ih =>
    rw [foldl_cons, ih fun other hOther => h other (mem_cons_of_mem _ hOther)]
    have hEntry := h entry mem_cons_self
    obtain ⟨_, _, _, body⟩ := entry
    cases body <;> first | rfl | exact nomatch hEntry

theorem foldl_indexed_labels (timestamps : List (JsString × JsString)) (used : List JsString) (parentId : Option JsString)
    {labels : List (JsString × JsString)} (hLabels : ∀ label ∈ labels, label.2 ≠ []) (draws : Nat → Draw) (m : Manager) :
    ((labelEntries timestamps used parentId labels draws).foldl Manager.indexed m).labelsById =
      labels.foldl (fun all label => OrderedMap.set all label.1 label.2) m.labelsById := by
  induction labels generalizing used parentId draws m with
  | nil => rfl
  | cons label rest ih =>
    obtain ⟨targetId, label⟩ := label
    rw [labelEntries, foldl_cons, foldl_cons, ih _ _ fun other hOther => hLabels other (mem_cons_of_mem _ hOther)]
    cases label with
    | nil => exact absurd rfl (hLabels _ mem_cons_self)
    | cons unit units => rfl

theorem branched_labels (h : Sound m) (path : List Entry) (draws : Nat → Draw) (sessionId timestamp : JsString) (hId : id ∈ (pathWithoutLabels path).map Entry.id) :
    (m.toBranched path draws sessionId timestamp).labelsById.lookup id = m.labelsById.lookup id := by
  obtain ⟨hNodup, hLabels⟩ := h.labelled
  have hWritten : ((m.labelsById.filter fun label => label.1 ∈ (pathWithoutLabels path).map Entry.id).map Prod.fst).Nodup :=
    hNodup.sublist (filter_sublist.map _)
  rw [Manager.toBranched, Manager.buildIndex]
  show ((m.branched path draws).foldl Manager.indexed _).labelsById.lookup id = _
  rw [Manager.branched, foldl_append, foldl_indexed_labels _ _ _ fun label hLabel => hLabels label (mem_filter.mp hLabel).1,
    foldl_indexed_plain (pathWithoutLabels_adds path).2.2, lookup_foldl_set hWritten]
  refine (or_none ..).trans (ext fun label => ?_)
  rw [lookup_eq_some_iff hWritten, lookup_eq_some_iff hNodup, mem_filter]
  exact and_iff_left (decide_eq_true hId)

/-! The new session. -/

variable {w : World} {draws : Nat → Draw} {sessionId leafId timestamp : JsString} {write : Write}

/-- A compaction of the path that keeps from an entry of it up to itself does so in the new session. -/
def KeepsFrom (path branched : List Entry) : Prop :=
  ∀ before after compaction, path = before ++ compaction :: after → ∀ first ∈ compaction.firstKept,
    first ∈ (before ++ [compaction]).map Entry.id →
      ∃ entry ∈ branched, entry.id = compaction.id ∧ ∃ kept ∈ entry.firstKept, kept ∈ branched.map Entry.id

theorem mem_core :
    id ∈ (core path).map Entry.id ↔ ∃ entry ∈ path, entry.isLabel = false ∧ entry.id = id := by
  simp [core, Entry.seen, and_assoc]

theorem keepsFrom_branched (m : Manager) (hUnique : (path.map Entry.id).Nodup) (draws : Nat → Draw) :
    KeepsFrom path (m.branched path draws) := by
  rintro before after compaction rfl first hFirst hMem
  obtain ⟨new, more, hSplit, hId, -, hKept, -⟩ :=
    rechained_split before after (compaction_label (isSome_of_mem hFirst))
  rw [mem_def.mp hFirst] at hKept
  obtain ⟨hBefore, -, hApart⟩ := nodup_append.mp (map_append ▸ hUnique)
  have hHeir : (rechained before).heir compaction.id first = compaction.id ∨
      (rechained before).heir compaction.id first ∈ (rechained before).kept.map Entry.id := by
    rw [map_append, mem_append, map_singleton, mem_singleton] at hMem
    rcases hMem with hMem | rfl
    · exact ((rechained_heirs hBefore).2 _ (fun h => hApart _ h _ mem_cons_self rfl) first hMem).1
    · exact .inl (if_pos (.inl rfl))
  refine ⟨new, ?_, hId, _, hKept, ?_⟩
  · rw [Manager.branched, hSplit]
    simp
  · rw [Manager.branched, hSplit, map_append, map_append, map_cons, hId, append_assoc, mem_append]
    rcases hHeir with hSame | hOld
    · rw [hSame]
      exact .inr mem_cons_self
    · exact .inl hOld

end OctoberHarness.SessionManager
