import OctoberHarness.Ai.Transcript

/-! Replaying the system messages of a transcript: what the messages after the fold add, what a
recorded change leaves, and what is left of a collapsed transcript. -/
namespace OctoberHarness.Ai

open List OrderedMap

open Context (MessageContent)

variable {α β : Type}

/-- A map of tools by their names. -/
structure Named (tools : List (JsString × Tool α)) : Prop where
  distinct : (tools.map Prod.fst).Nodup
  name : ∀ entry ∈ tools, entry.2.name = entry.1

theorem named_nil : Named ([] : List (JsString × Tool α)) :=
  ⟨nodup_nil, fun _ hEntry => absurd hEntry not_mem_nil⟩

variable {tools : List (JsString × Tool α)}

theorem Named.added (h : Named tools) (added : List (Tool α)) :
    Named (added.foldl (fun tools tool => OrderedMap.set tools tool.name tool) tools) := by
  induction added generalizing tools with
  | nil => exact h
  | cons tool rest ih =>
    apply ih
    constructor
    · exact nodup_keys_set tools _ _ h.distinct
    · intro entry hEntry
      rcases OrderedMap.mem_set hEntry with rfl | hOld
      · rfl
      · exact h.name entry hOld

theorem Named.removed (h : Named tools) (removed : List JsString) :
    Named (removed.foldl erase tools) := by
  induction removed generalizing tools with
  | nil => exact h
  | cons name rest ih =>
    apply ih
    constructor
    · exact nodup_keys_erase tools name h.distinct
    · exact fun entry hEntry => h.name entry (mem_filter.mp hEntry).1

variable {tools : List (JsString × Tool α)}

theorem Named.replay (h : Named tools) (messages : List (SystemMessage α)) :
    Named (messages.foldl SystemMessage.replay tools) := by
  induction messages generalizing tools with
  | nil => exact h
  | cons message rest ih => exact ih ((h.removed message.toolsRemoved).added message.toolsAdded)

theorem foldl_set_new {γ : Type} {entries : List (JsString × γ)} (hNodup : (entries.map Prod.fst).Nodup)
    (map : List (JsString × γ)) (hNew : ∀ entry ∈ entries, entry.1 ∉ map.map Prod.fst) :
    entries.foldl (fun map entry => OrderedMap.set map entry.1 entry.2) map = map ++ entries := by
  induction entries generalizing map with
  | nil => exact (append_nil map).symm
  | cons entry rest ih =>
    rw [map_cons, nodup_cons] at hNodup
    have hNone : map.lookup entry.1 = none :=
      (lookup_eq_none_iff map entry.1).mpr (hNew entry mem_cons_self)
    have hSet : OrderedMap.set map entry.1 entry.2 = map ++ [entry] := by
      rw [OrderedMap.set, hNone]
      rfl
    rw [foldl_cons, hSet, ih hNodup.2, append_assoc, singleton_append]
    intro other hOther hKey
    rw [map_append, mem_append] at hKey
    rcases hKey with hOld | hSame
    · exact hNew other (mem_cons_of_mem _ hOther) hOld
    · rw [map_singleton, mem_singleton] at hSame
      exact hNodup.1 (hSame ▸ mem_map_of_mem hOther)

theorem foldl_tools (added : List (Tool α)) (tools : List (JsString × Tool α)) :
    added.foldl (fun tools tool => OrderedMap.set tools tool.name tool) tools =
      (added.map fun tool => (tool.name, tool)).foldl (fun map entry => OrderedMap.set map entry.1 entry.2) tools := by
  rw [foldl_map]

theorem added_new {added : List (Tool α)} (hNodup : (added.map Tool.name).Nodup)
    (hNew : ∀ tool ∈ added, tool.name ∉ tools.map Prod.fst) :
    added.foldl (fun tools tool => OrderedMap.set tools tool.name tool) tools =
      tools ++ added.map fun tool => (tool.name, tool) := by
  rw [foldl_tools]
  apply foldl_set_new
  · rwa [map_map]
  · intro entry hEntry
    obtain ⟨tool, hTool, rfl⟩ := mem_map.mp hEntry
    exact hNew tool hTool

theorem Named.eq_map (h : Named tools) : (tools.map Prod.snd).map (fun tool => (tool.name, tool)) = tools := by
  have hEach : ∀ entry ∈ tools, (entry.2.name, entry.2) = id entry := fun entry hEntry =>
    Prod.ext (h.name entry hEntry) rfl
  rw [map_map]
  exact (map_congr_left hEach).trans tools.map_id

theorem Named.names (h : Named tools) : (tools.map Prod.snd).map Tool.name = tools.map Prod.fst := by
  rw [map_map]
  exact map_congr_left h.name

theorem Named.replayed (h : Named tools) :
    (tools.map Prod.snd).foldl (fun tools tool => OrderedMap.set tools tool.name tool) [] = tools := by
  rw [added_new (h.names ▸ h.distinct) fun _ _ => not_mem_nil, nil_append, h.eq_map]

/-! The messages after the fold. -/

/-- The names declared by messages, after those declared before. -/
def declaredBy (declared : List JsString) (messages : List (SystemMessage α)) : List JsString :=
  messages.foldl (fun declared message => (declare declared (message.toolsAdded.map Tool.name)).1) declared

theorem mem_declare (declared names : List JsString) (name : JsString) :
    name ∈ (declare declared names).1 ↔ name ∈ declared ∨ name ∈ names := by
  induction names generalizing declared with
  | nil => simp [declare]
  | cons first rest ih =>
    rw [declare, ih, mem_cons, mem_cons]
    tauto

theorem declare_new (declared names : List JsString) :
    (declare declared names).2 = false ↔ names.Nodup ∧ ∀ name ∈ names, name ∉ declared := by
  induction names generalizing declared with
  | nil => simp [declare]
  | cons first rest ih =>
    rw [declare, Bool.or_eq_false_iff, decide_eq_false_iff_not, ih, nodup_cons, forall_mem_cons]
    constructor
    · rintro ⟨hFirst, hNodup, hRest⟩
      refine ⟨⟨fun hMem => hRest first hMem mem_cons_self, hNodup⟩, hFirst, ?_⟩
      exact fun name hName hDeclared => hRest name hName (mem_cons_of_mem _ hDeclared)
    · rintro ⟨⟨hNot, hNodup⟩, hFirst, hRest⟩
      refine ⟨hFirst, hNodup, fun name hName hDeclared => ?_⟩
      rcases mem_cons.mp hDeclared with rfl | hOld
      · exact hNot hName
      · exact hRest name hName hOld

theorem mem_declaredBy (declared : List JsString) (messages : List (SystemMessage α)) (name : JsString) :
    name ∈ declaredBy declared messages ↔
      name ∈ declared ∨ ∃ message ∈ messages, name ∈ message.toolsAdded.map Tool.name := by
  induction messages generalizing declared with
  | nil => simp [declaredBy]
  | cons message rest ih =>
    rw [declaredBy, foldl_cons]
    refine (ih _).trans ?_
    rw [mem_declare, exists_mem_cons_iff, or_assoc]

/-- Messages that remove no tool and declare no name a second time. -/
inductive Additive : List JsString → List (SystemMessage α) → Prop where
  | nil (declared) : Additive declared []
  | cons {declared message rest} (hRemoved : message.toolsRemoved = [])
      (hNew : (declare declared (message.toolsAdded.map Tool.name)).2 = false)
      (hRest : Additive (declare declared (message.toolsAdded.map Tool.name)).1 rest) : Additive declared (message :: rest)

variable {declared : List JsString}

theorem Additive.drop {first rest : List (SystemMessage α)} (h : Additive declared (first ++ rest)) :
    Additive (declaredBy declared first) rest := by
  induction first generalizing declared with
  | nil => exact h
  | cons message first ih =>
    cases h with
    | cons _ _ hRest => exact ih hRest

theorem nonAdditive_rest (messages : List (SystemMessage α)) (declared : List JsString) (index last : Nat) :
    (nonAdditive declared index last messages = last ∧ Additive declared messages) ∨
      ∃ first rest, messages = first ++ rest ∧ nonAdditive declared index last messages = index + first.length ∧
        Additive (declaredBy declared first) rest := by
  induction messages generalizing declared index last with
  | nil => exact .inl ⟨rfl, .nil declared⟩
  | cons message messages ih =>
    rw [nonAdditive]
    rcases ih (declare declared (message.toolsAdded.map Tool.name)).1 (index + 1)
        (if message.toolsRemoved ≠ [] ∨ (declare declared (message.toolsAdded.map Tool.name)).2 = true then index + 1 else last)
      with ⟨hLast, hAdditive⟩ | ⟨first, rest, rfl, hCount, hAdditive⟩
    · by_cases hChange : message.toolsRemoved ≠ [] ∨ (declare declared (message.toolsAdded.map Tool.name)).2 = true
      · rw [if_pos hChange] at hLast ⊢
        exact .inr ⟨[message], messages, rfl, hLast, hAdditive⟩
      · rw [if_neg hChange] at hLast ⊢
        rw [not_or, not_not, Bool.not_eq_true] at hChange
        exact .inl ⟨hLast, .cons hChange.1 hChange.2 hAdditive⟩
    · refine .inr ⟨message :: first, rest, rfl, ?_, hAdditive⟩
      rw [hCount, length_cons]
      omega

variable {messages : List (SystemMessage α)}

theorem additive_drop {count : Nat} (h : nonAdditive [] 0 0 messages ≤ count) :
    Additive (declaredBy [] (messages.take count)) (messages.drop count) := by
  have hSplit : ∃ first rest, messages = first ++ rest ∧ first.length ≤ count ∧ Additive (declaredBy [] first) rest := by
    rcases nonAdditive_rest messages [] 0 0 with ⟨-, hAdditive⟩ | ⟨first, rest, rfl, hCount, hAdditive⟩
    · exact ⟨[], messages, rfl, Nat.zero_le _, hAdditive⟩
    · exact ⟨first, rest, rfl, by omega, hAdditive⟩
  obtain ⟨first, rest, rfl, hLength, hAdditive⟩ := hSplit
  rw [take_append, drop_append, take_of_length_le hLength, drop_of_length_le hLength, nil_append]
  have hRest : rest = rest.take (count - first.length) ++ rest.drop (count - first.length) := (take_append_drop _ _).symm
  rw [hRest] at hAdditive
  have hMore := hAdditive.drop
  rwa [declaredBy, declaredBy, ← foldl_append] at hMore

theorem Additive.replay (h : Additive declared messages) (hKeys : ∀ name ∈ tools.map Prod.fst, name ∈ declared) :
    messages.foldl SystemMessage.replay tools =
      tools ++ messages.flatMap fun message => message.toolsAdded.map fun tool => (tool.name, tool) := by
  induction h generalizing tools with
  | nil => exact (append_nil tools).symm
  | @cons declared message rest hRemoved hNew hRest ih =>
    obtain ⟨hNodup, hNot⟩ := (declare_new _ _).mp hNew
    have hStep : message.replay tools = tools ++ message.toolsAdded.map fun tool => (tool.name, tool) := by
      rw [SystemMessage.replay, hRemoved, foldl_nil]
      apply added_new hNodup
      exact fun tool hTool hKey => hNot tool.name (mem_map_of_mem hTool) (hKeys _ hKey)
    rw [foldl_cons, hStep, ih, append_assoc, flatMap_cons]
    intro name hName
    rw [mem_declare]
    rw [map_append, mem_append, map_map] at hName
    exact hName.imp (hKeys name) id

theorem keys_declared (hKeys : ∀ name ∈ tools.map Prod.fst, name ∈ declared) (messages : List (SystemMessage α)) :
    ∀ name ∈ (messages.foldl SystemMessage.replay tools).map Prod.fst, name ∈ declaredBy declared messages := by
  induction messages generalizing tools declared with
  | nil => exact hKeys
  | cons message rest ih =>
    apply ih
    intro name hName
    rw [mem_declare]
    have hAdded : ∀ (added : List (Tool α)) (map : List (JsString × Tool α)),
        name ∈ (added.foldl (fun tools tool => OrderedMap.set tools tool.name tool) map).map Prod.fst →
          name ∈ map.map Prod.fst ∨ name ∈ added.map Tool.name := by
      intro added
      induction added with
      | nil => exact fun _ => .inl
      | cons tool others ih =>
        intro map hMem
        rw [map_cons, mem_cons]
        rcases ih _ hMem with hKey | hKey
        · rcases (mem_keys_set map tool.name tool name).mp hKey with rfl | hOld
          · exact .inr (.inl rfl)
          · exact .inl hOld
        · exact .inr (.inr hKey)
    have hRemoved : ∀ (removed : List JsString) (map : List (JsString × Tool α)),
        name ∈ (removed.foldl erase map).map Prod.fst → name ∈ map.map Prod.fst := by
      intro removed
      induction removed with
      | nil => exact fun _ => id
      | cons first others ih =>
        intro map hMem
        obtain ⟨entry, hEntry, rfl⟩ := mem_map.mp (ih _ hMem)
        exact mem_map_of_mem (mem_filter.mp hEntry).1
    exact (hAdded _ _ hName).imp_left fun hKey => hKeys name (hRemoved _ _ hKey)

/-! Recorded changes. -/

/-- The declarations of a map of tools. -/
def declarations (tools : List (JsString × Tool α)) : List (JsString × Agent.Tool) :=
  tools.map (Prod.map id Tool.declaration)

theorem declarations_added (added : List (Tool α)) (tools : List (JsString × Tool α)) :
    declarations (added.foldl (fun tools tool => OrderedMap.set tools tool.name tool) tools) =
      (added.map Tool.declaration).foldl (fun tools tool => OrderedMap.set tools tool.name tool) (declarations tools) := by
  induction added generalizing tools with
  | nil => rfl
  | cons tool rest ih =>
    rw [foldl_cons, ih, map_cons, foldl_cons, declarations,
      ← set_map Tool.declaration Function.injective_id]
    rfl

theorem declarations_removed (removed : List JsString) (tools : List (JsString × Tool α)) :
    declarations (removed.foldl erase tools) = removed.foldl erase (declarations tools) := by
  induction removed generalizing tools with
  | nil => rfl
  | cons name rest ih =>
    rw [foldl_cons, ih, foldl_cons, declarations, declarations, erase, erase,
      filter_map]
    rfl

theorem lookup_declarations (tools : List (JsString × Tool α)) (name : JsString) :
    (declarations tools).lookup name = (tools.lookup name).map Tool.declaration :=
  lookup_map Tool.declaration Function.injective_id tools name

theorem declarations_byName (tools : List (Tool α)) : declarations (byName tools) = Agent.byName (tools.map Tool.declaration) :=
  declarations_added tools []

theorem differs_declaration (tools : List (Tool α)) (tool : Tool α) :
    differs (byName tools) tool = Agent.differs (Agent.byName (tools.map Tool.declaration)) tool.declaration := by
  have hName : tool.declaration.name = tool.name := rfl
  rw [differs, Agent.differs, ← declarations_byName, lookup_declarations, hName]
  cases (byName tools).lookup tool.name <;> rfl

theorem added_declarations (previous current : List (Tool α)) :
    (getToolStateChanges previous current).toolsAdded.map Tool.declaration =
      (Agent.getToolStateChanges (previous.map Tool.declaration) (current.map Tool.declaration)).toolsAdded := by
  show (map toToolDeclaration (current.filter _)).map _ = (current.map Tool.declaration).filter _
  rw [map_map, filter_map]
  exact congrArg _ (filter_congr fun tool _ => differs_declaration previous tool)

theorem removed_declarations (previous current : List (Tool α)) :
    (getToolStateChanges previous current).toolsRemoved =
      (Agent.getToolStateChanges (previous.map Tool.declaration) (current.map Tool.declaration)).toolsRemoved := by
  show (previous.filter _).map Tool.name = ((previous.map Tool.declaration).filter _).map Agent.Tool.name
  rw [filter_map, map_map]
  exact congrArg _ (filter_congr fun tool _ => differs_declaration current tool)

/-- A system message with tool changes. -/
def declaring (changes : ToolStateChanges α) : SystemMessage α where
  content := .string []
  sections := []
  toolsAdded := changes.toolsAdded
  toolsRemoved := changes.toolsRemoved
  timestamp := .ofNat 0

theorem Named.declarations (h : Named tools) : Agent.Named (declarations tools) where
  distinct := by
    rw [Ai.declarations, map_map]
    exact h.distinct
  name entry hEntry := by
    obtain ⟨tool, hTool, rfl⟩ := mem_map.mp hEntry
    exact h.name tool hTool

/-- Recorded changes leave the declarations of the current tools. -/
theorem changes_replayed {previous current : List (Tool α)} (hPrevious : (previous.map Tool.name).Nodup)
    (hCurrent : (current.map Tool.name).Nodup) :
    ((currentTools [declaring ⟨previous, []⟩, declaring (getToolStateChanges previous current)]).map Tool.declaration).Perm
      (current.map Tool.declaration) := by
  have hFirst : (declaring ⟨previous, []⟩).replay [] = previous.map fun tool => (tool.name, tool) := by
    show previous.foldl _ [] = _
    rw [added_new hPrevious fun _ _ => not_mem_nil, nil_append]
  have hNamed : Named (previous.map fun tool => (tool.name, tool)) := by
    rw [← hFirst]
    exact named_nil.replay [_]
  have hNames : ((current.map Tool.declaration).map Agent.Tool.name).Nodup := by rwa [map_map]
  have hValues : (declarations (previous.map fun tool => (tool.name, tool))).map Prod.snd = previous.map Tool.declaration := by
    rw [declarations, map_map, map_map]
    rfl
  have hReplay : replayTools [declaring ⟨previous, []⟩, declaring (getToolStateChanges previous current)] =
      (declaring (getToolStateChanges previous current)).replay (previous.map fun tool => (tool.name, tool)) := by
    rw [replayTools, foldl_cons, hFirst]
    rfl
  have hPerm : (declarations (replayTools [declaring ⟨previous, []⟩, declaring (getToolStateChanges previous current)])).Perm
      ((current.map Tool.declaration).map fun tool => (tool.name, tool)) := by
    apply Agent.Named.perm (named_nil.replay _).declarations (Agent.named_of_names hNames)
    intro name
    have hChanges := Agent.lookup_changes hNamed.declarations hNames ⟨[], [], ⟨.null, trivial⟩⟩ name
    rw [hValues] at hChanges
    rw [(Agent.named_of_names hNames).lookup, map_map]
    show (declarations (replayTools _)).lookup name = _
    rw [hReplay, SystemMessage.replay, declarations_added, declarations_removed]
    show lookup name (foldl _ (foldl _ _ (getToolStateChanges previous current).toolsRemoved)
      ((getToolStateChanges previous current).toolsAdded.map Tool.declaration)) = _
    rw [added_declarations, removed_declarations]
    exact hChanges.trans (by rw [show Prod.snd ∘ (fun tool : Agent.Tool => (tool.name, tool)) = id from rfl, map_id])
  have hSnd := hPerm.map Prod.snd
  rw [declarations, map_map, map_map] at hSnd
  rw [currentTools, map_map]
  exact hSnd.trans (by rw [show Prod.snd ∘ (fun tool : Agent.Tool => (tool.name, tool)) = id from rfl, map_id])

section Entries

variable {γ δ : Type}

theorem fromEntries_map (value : γ → δ) (entries : List (JsString × γ)) :
    fromEntries (entries.map (Prod.map id value)) = (fromEntries entries).map (Prod.map id value) := by
  have hSort : ∀ list : List (JsString × γ),
      (list.map (Prod.map id value)).insertionSort (fun a b => indexBefore a.1 b.1) =
        (list.insertionSort fun a b => indexBefore a.1 b.1).map (Prod.map id value) :=
    fun list => (map_insertionSort _ _ (Prod.map id value) list fun a _ b _ => Iff.rfl).symm
  rw [fromEntries, fromEntries, map_append, filter_map, filter_map]
  exact congrArg (· ++ _) (hSort _)

theorem keys_fromEntries {entries : List (JsString × γ)} (h : (entries.map Prod.fst).Nodup) :
    ((fromEntries entries).map Prod.fst).Nodup := by
  have hPerm : (fromEntries entries).Perm entries := by
    have hSort := (perm_insertionSort (fun a b : JsString × γ => indexBefore a.1 b.1)
      (entries.filter fun entry => (arrayIndex entry.1).isSome)).append_right
        (entries.filter fun entry => (arrayIndex entry.1).isNone)
    have hNot : (fun entry : JsString × γ => (arrayIndex entry.1).isNone) = fun entry => !(arrayIndex entry.1).isSome := by
      funext entry
      cases arrayIndex entry.1 <;> rfl
    refine hSort.trans ?_
    rw [hNot]
    exact filter_append_perm _ entries
  exact (hPerm.map Prod.fst).nodup_iff.mpr h

theorem fromEntries_ordered {first rest : List (JsString × γ)} (hFirst : ∀ entry ∈ first, (arrayIndex entry.1).isSome = true)
    (hSorted : first.Pairwise fun a b => indexBefore a.1 b.1) (hRest : ∀ entry ∈ rest, (arrayIndex entry.1).isNone = true) :
    fromEntries (first ++ rest) = first ++ rest := by
  have hFirstNot : ∀ entry ∈ first, ¬ (arrayIndex entry.1).isNone = true := fun entry hEntry hNone => by
    have hSome := hFirst entry hEntry
    rw [Option.isNone_iff_eq_none.mp hNone] at hSome
    cases hSome
  have hRestNot : ∀ entry ∈ rest, ¬ (arrayIndex entry.1).isSome = true := fun entry hEntry hSome => by
    rw [Option.isNone_iff_eq_none.mp (hRest entry hEntry)] at hSome
    cases hSome
  rw [fromEntries, filter_append, filter_append, filter_eq_self.mpr hFirst, filter_eq_self.mpr hRest,
    filter_eq_nil_iff.mpr hFirstNot, filter_eq_nil_iff.mpr hRestNot, append_nil, nil_append]
  exact congrArg (· ++ rest) (Pairwise.insertionSort_eq hSorted)

theorem fromEntries_twice (entries : List (JsString × γ)) : fromEntries (fromEntries entries) = fromEntries entries := by
  have hTotal : Std.Total fun a b : JsString × γ => indexBefore a.1 b.1 := ⟨fun _ _ => Nat.le_total _ _⟩
  have hTrans : IsTrans (JsString × γ) fun a b => indexBefore a.1 b.1 := ⟨fun _ _ _ => Nat.le_trans⟩
  apply fromEntries_ordered
  · exact fun entry hEntry => (mem_filter.mp ((mem_insertionSort _).mp hEntry)).2
  · exact pairwise_insertionSort _ _
  · exact fun entry hEntry => (mem_filter.mp hEntry).2

end Entries

variable {sections : List (JsString × JsString)}

theorem setSections (h : (sections.map Prod.fst).Nodup) :
    (sections.map (Prod.map id some)).foldl setSection [] = sections := by
  rw [foldl_map]
  show sections.foldl (fun map entry => OrderedMap.set map entry.1 entry.2) [] = sections
  rw [foldl_set_new h [] fun _ _ => not_mem_nil, nil_append]

theorem nodup_setSection (h : (sections.map Prod.fst).Nodup)
    (entry : JsString × Option JsString) : ((setSection sections entry).map Prod.fst).Nodup := by
  rw [setSection]
  cases entry.2 with
  | none => exact nodup_keys_erase sections entry.1 h
  | some value => exact nodup_keys_set sections entry.1 value h

variable (messages : List (SystemMessage α))

theorem nodup_sections : ((replaySections messages).map Prod.fst).Nodup := by
  have hEntries : ∀ (entries : List (JsString × Option JsString)) (sections : List (JsString × JsString)),
      (sections.map Prod.fst).Nodup → ((entries.foldl setSection sections).map Prod.fst).Nodup := by
    intro entries
    induction entries with
    | nil => exact fun _ => id
    | cons entry rest ih => exact fun sections h => ih _ (nodup_setSection h entry)
  have hMessages : ∀ (messages : List (SystemMessage α)) (sections : List (JsString × JsString)),
      (sections.map Prod.fst).Nodup →
        ((messages.foldl (fun sections message => message.sections.foldl setSection sections) sections).map Prod.fst).Nodup := by
    intro messages
    induction messages with
    | nil => exact fun _ => id
    | cons message rest ih => exact fun sections h => ih _ (hEntries message.sections sections h)
  exact hMessages messages [] nodup_nil

theorem currentTools_current :
    currentTools (currentSystemMessage messages).toList = currentTools messages := by
  cases messages with
  | nil => rfl
  | cons first rest =>
    have hNamed : Named (replayTools (first :: rest)) := named_nil.replay (first :: rest)
    show (foldl _ [] (currentTools (first :: rest))).map Prod.snd = _
    rw [currentTools, hNamed.replayed]

theorem currentSystemMessage_twice :
    currentSystemMessage (currentSystemMessage messages).toList = currentSystemMessage messages := by
  cases messages with
  | nil => rfl
  | cons first rest =>
    have hContents : ∀ text : JsString, (js "\n\n").intercalate ([text].filter fun text => 0 < text.length) = text := by
      intro text
      cases text with
      | nil => rfl
      | cons unit text => exact append_nil _
    have hSections : replaySections (currentSystemMessage (first :: rest)).toList =
        fromEntries (replaySections (first :: rest)) := by
      show (fromEntries ((replaySections (first :: rest)).map (Prod.map id some))).foldl setSection [] = _
      rw [fromEntries_map, setSections (keys_fromEntries (nodup_sections _))]
    apply congrArg some
    rw [SystemMessage.mk.injEq]
    refine ⟨congrArg MessageContent.string (hContents _), ?_, currentTools_current (first :: rest), rfl, rfl⟩
    show fromEntries ((replaySections (currentSystemMessage (first :: rest)).toList).map (Prod.map id some)) = _
    rw [hSections, ← fromEntries_map, fromEntries_twice]
    rfl

theorem systemMessages_collapse (messages : List (Message α β)) :
    systemMessages (collapseSystemMessages messages) = (currentSystemMessage (systemMessages messages)).toList := by
  have hOthers : ∀ others : List β, systemMessages (others.map (.other (α := α))) = [] := by
    intro others
    induction others with
    | nil => rfl
    | cons other rest ih => exact ih
  rw [collapseSystemMessages]
  cases currentSystemMessage (systemMessages messages) with
  | none => exact hOthers _
  | some head => exact congrArg (head :: ·) (hOthers _)

theorem others_collapse (messages : List (Message α β)) :
    (collapseSystemMessages messages).filterMap Message.other? = messages.filterMap Message.other? := by
  have hOthers : ∀ others : List β, (others.map (Message.other (α := α))).filterMap Message.other? = others := by
    intro others
    induction others with
    | nil => rfl
    | cons other rest ih => exact congrArg (other :: ·) ih
  rw [collapseSystemMessages]
  cases currentSystemMessage (systemMessages messages) with
  | none => exact hOthers _
  | some head => exact hOthers _

/-! The tool state. -/

/-- A message that removes no tool and declares only new names, each once. -/
structure Adds (earlier : List (SystemMessage α)) (message : SystemMessage α) : Prop where
  removes : message.toolsRemoved = []
  distinct : (message.toolsAdded.map Tool.name).Nodup
  fresh : ∀ name ∈ message.toolsAdded.map Tool.name, ∀ other ∈ earlier, name ∉ other.toolsAdded.map Tool.name

theorem Additive.adds {declared : List JsString} {messages before after : List (SystemMessage α)} {message : SystemMessage α}
    (h : Additive declared messages) (hSplit : messages = before ++ message :: after) :
    message.toolsRemoved = [] ∧ (message.toolsAdded.map Tool.name).Nodup ∧
      ∀ name ∈ message.toolsAdded.map Tool.name, name ∉ declaredBy declared before := by
  rw [hSplit] at h
  cases h.drop with
  | cons hRemoved hNew _ => exact ⟨hRemoved, (declare_new _ _).mp hNew⟩

section Folded

variable (messages : List (Message α β))

theorem folded_le : nonAdditive [] 0 0 (systemMessages messages) ≤
    (resolveTranscriptTools messages .additions).foldedSystemMessages :=
  Nat.le_max_right _ _

theorem adds_after_fold {before after : List (SystemMessage α)} {message : SystemMessage α}
    (hSplit : systemMessages messages = before ++ message :: after)
    (hFolded : (resolveTranscriptTools messages .additions).foldedSystemMessages ≤ before.length) : Adds before message := by
  have hAdditive := additive_drop (folded_le messages)
  have hTake : (systemMessages messages).take (resolveTranscriptTools messages .additions).foldedSystemMessages =
      before.take (resolveTranscriptTools messages .additions).foldedSystemMessages := by
    rw [hSplit, take_append_of_le_length hFolded]
  have hDrop : (systemMessages messages).drop (resolveTranscriptTools messages .additions).foldedSystemMessages =
      before.drop (resolveTranscriptTools messages .additions).foldedSystemMessages ++ message :: after := by
    rw [hSplit, drop_append_of_le_length hFolded]
  obtain ⟨hRemoved, hNodup, hNew⟩ := hAdditive.adds hDrop
  rw [hTake, declaredBy, declaredBy, ← foldl_append, take_append_drop] at hNew
  refine ⟨hRemoved, hNodup, fun name hName other hOther hIn => hNew name hName ?_⟩
  exact (mem_declaredBy [] before name).mpr (.inr ⟨other, hOther, hIn⟩)

theorem request_tools :
    (resolveTranscriptTools messages .additions).requestTools ++
        ((systemMessages messages).drop (resolveTranscriptTools messages .additions).foldedSystemMessages).flatMap
          SystemMessage.toolsAdded =
      getCurrentTools messages := by
  have hAdditive := additive_drop (folded_le messages)
  have hKeys := @keys_declared α [] [] (fun _ hName => absurd hName not_mem_nil)
    ((systemMessages messages).take (resolveTranscriptTools messages .additions).foldedSystemMessages)
  have hReplay := hAdditive.replay hKeys
  rw [← foldl_append, take_append_drop] at hReplay
  show currentTools _ ++ _ = currentTools _
  rw [currentTools, currentTools, replayTools, replayTools, hReplay, map_append, map_flatMap]
  congr 1
  apply congrArg (flatMap · _)
  funext message
  rw [map_map]
  exact message.toolsAdded.map_id.symm

end Folded

/-- Replaying the tool state of transcripts: after the fold of an addition-only transport the
messages only add, recorded changes leave the declarations of the current tools, and collapsing
keeps the tools, the prompt and the other messages. -/
theorem tool_state_replayed :
    (∀ messages : List (Message α β),
      (∀ before message after, systemMessages messages = before ++ message :: after →
        (resolveTranscriptTools messages .additions).foldedSystemMessages ≤ before.length → Adds before message) ∧
      (resolveTranscriptTools messages .additions).requestTools ++
          ((systemMessages messages).drop (resolveTranscriptTools messages .additions).foldedSystemMessages).flatMap
            SystemMessage.toolsAdded =
        getCurrentTools messages) ∧
    (∀ (previous current : List (Tool α)) (first second : SystemMessage α), (previous.map Tool.name).Nodup →
      (current.map Tool.name).Nodup → first.toolsAdded = previous → first.toolsRemoved = [] →
      second.toolsAdded = (getToolStateChanges previous current).toolsAdded →
      second.toolsRemoved = (getToolStateChanges previous current).toolsRemoved →
      ((getCurrentTools [.system (β := β) first, .system second]).map Tool.declaration).Perm (current.map Tool.declaration)) ∧
    ∀ messages : List (Message α β),
      collapseSystemMessages (collapseSystemMessages messages) = collapseSystemMessages messages ∧
      getCurrentTools (collapseSystemMessages messages) = getCurrentTools messages ∧
      getCurrentSystemPrompt (collapseSystemMessages messages) = getCurrentSystemPrompt messages ∧
      (collapseSystemMessages messages).filterMap Message.other? = messages.filterMap Message.other? := by
  refine ⟨fun messages => ⟨?_, request_tools messages⟩, ?_, fun messages => ?_⟩
  · exact fun before message after => adds_after_fold messages
  · intro previous current first second hPrevious hCurrent hFirst hNone hAdded hRemoved
    have hTools : getCurrentTools [.system (β := β) first, .system second] =
        currentTools [declaring ⟨previous, []⟩, declaring (getToolStateChanges previous current)] := by
      show (second.replay (first.replay [])).map Prod.snd = _
      rw [SystemMessage.replay, SystemMessage.replay, hFirst, hNone, hAdded, hRemoved]
      rfl
    rw [hTools]
    exact changes_replayed hPrevious hCurrent
  · have hTwice := currentSystemMessage_twice (systemMessages messages)
    rw [← systemMessages_collapse] at hTwice
    refine ⟨?_, ?_, ?_, others_collapse messages⟩
    · rw [collapseSystemMessages, hTwice, others_collapse, ← collapseSystemMessages]
    · rw [getCurrentTools, systemMessages_collapse, currentTools_current]
      rfl
    · rw [getCurrentSystemPrompt, getCurrentSystemPrompt, hTwice]

def searchTool : Tool Unit where
  declaration := ⟨js "search", js "Search files", ⟨.null, trivial⟩, none⟩
  extra := some ()

def readTool : Tool Unit where
  declaration := ⟨js "read", js "Read a file", ⟨.null, trivial⟩, none⟩
  extra := some ()

theorem tool_state_changed :
    ((getCurrentTools [.system (β := Unit) (declaring ⟨[searchTool], []⟩),
        .system (declaring (getToolStateChanges [searchTool] [readTool]))]).map Tool.declaration).Perm
      [readTool.declaration] :=
  tool_state_replayed.2.1 [searchTool] [readTool] (declaring ⟨[searchTool], []⟩)
    (declaring (getToolStateChanges [searchTool] [readTool])) (nodup_singleton _) (nodup_singleton _) rfl rfl rfl rfl

end OctoberHarness.Ai
