import OctoberHarness.Agent.Messages

/-! The transcript declares the executable tools once their changes are declared. -/
namespace OctoberHarness.Agent

open OctoberHarness.JsonText List OrderedMap

theorem Tool.strict_json (tool : Tool) : tool.json.Strict := by
  rw [Tool.json, JsonValue.strict_obj]
  cases tool.constrainedSampling with
  | none =>
    refine ⟨show OwnKeys [js "name", js "description", js "parameters"] from ⟨by decide, by decide⟩, ?_⟩
    intro field hField
    rcases mem_cons.mp hField with rfl | hField
    · trivial
    · rcases mem_cons.mp hField with rfl | hField
      · trivial
      · rw [mem_singleton.mp hField]
        exact tool.parameters.property
  | some value =>
    refine ⟨show OwnKeys [js "name", js "description", js "parameters", js "constrainedSampling"] from
      ⟨by decide, by decide⟩, ?_⟩
    intro field hField
    rcases mem_cons.mp hField with rfl | hField
    · trivial
    · rcases mem_cons.mp hField with rfl | hField
      · trivial
      · rcases mem_cons.mp hField with rfl | hField
        · exact tool.parameters.property
        · rw [mem_singleton.mp hField]
          exact value.property

theorem Tool.json_injective : Function.Injective Tool.json := by
  rintro ⟨name, description, parameters, sampling⟩ ⟨name', description', parameters', sampling'⟩ h
  have hFields := JsonValue.obj.inj h
  cases sampling with
  | none =>
    cases sampling' with
    | none =>
      simp only [cons_append, nil_append, cons.injEq, Prod.mk.injEq, JsonValue.str.injEq, true_and] at hFields
      obtain ⟨rfl, rfl, hParameters, -⟩ := hFields
      rw [Subtype.ext hParameters]
    | some value => simp at hFields
  | some value =>
    cases sampling' with
    | none => simp at hFields
    | some value' =>
      simp only [cons_append, nil_append, cons.injEq, Prod.mk.injEq, JsonValue.str.injEq, true_and,
        Option.map_some, Option.toList_some] at hFields
      obtain ⟨rfl, rfl, hParameters, hSampling, -⟩ := hFields
      rw [Subtype.ext hParameters, Subtype.ext hSampling]

theorem declarationsEqual_iff (left right : Tool) : declarationsEqual left right = true ↔ left = right := by
  rw [declarationsEqual, decide_eq_true_iff]
  constructor
  · intro hText
    exact Tool.json_injective (stringify_injective _ _ left.strict_json right.strict_json hText)
  · intro hSame
    rw [hSame]

/-- A map of tools by their names. -/
structure Named (tools : List (JsString × Tool)) : Prop where
  distinct : (tools.map Prod.fst).Nodup
  name : ∀ entry ∈ tools, entry.2.name = entry.1

variable {tools : List (JsString × Tool)}

theorem Named.set (h : Named tools) (tool : Tool) :
    Named (OrderedMap.set tools tool.name tool) where
  distinct := nodup_keys_set tools _ _ h.distinct
  name entry hEntry := by
    rcases mem_set hEntry with rfl | hOld
    · rfl
    · exact h.name entry hOld

theorem Named.erase (h : Named tools) (name : JsString) :
    Named (OrderedMap.erase tools name) where
  distinct := nodup_keys_erase tools name h.distinct
  name entry hEntry := h.name entry (mem_filter.mp hEntry).1

theorem Named.added (h : Named tools) (added : List Tool) :
    Named (added.foldl (fun tools tool => OrderedMap.set tools tool.name tool) tools) := by
  induction added generalizing tools with
  | nil => exact h
  | cons tool rest ih => exact ih (h.set tool)

theorem Named.removed (h : Named tools) (removed : List JsString) :
    Named (removed.foldl OrderedMap.erase tools) := by
  induction removed generalizing tools with
  | nil => exact h
  | cons name rest ih => exact ih (h.erase name)

theorem Named.replay {tools : List (JsString × Tool)} (h : Named tools) (messages : List AgentMessage) :
    Named (messages.foldl (fun tools message => (message.system?.map fun system => system.replay tools).getD tools) tools) := by
  induction messages generalizing tools with
  | nil => exact h
  | cons message rest ih =>
    rw [foldl_cons]
    apply ih
    cases message.system? with
    | none => exact h
    | some system => exact (h.removed system.toolsRemoved).added system.toolsAdded

theorem named_nil : Named [] :=
  ⟨nodup_nil, fun _ hEntry => absurd hEntry not_mem_nil⟩

theorem lookup_added {added : List Tool} (hNames : (added.map Tool.name).Nodup) (tools : List (JsString × Tool)) (name : JsString) :
    (added.foldl (fun tools tool => OrderedMap.set tools tool.name tool) tools).lookup name =
      (added.find? fun tool => tool.name = name).or (tools.lookup name) := by
  induction added generalizing tools with
  | nil => rfl
  | cons tool rest ih =>
    rw [map_cons, nodup_cons] at hNames
    rw [foldl_cons, ih hNames.2, lookup_set, find?_cons]
    by_cases hName : name = tool.name
    · have hNone : (rest.find? fun tool => tool.name = name) = none := by
        rw [find?_eq_none]
        intro other hOther hSame
        apply hNames.1
        rw [← hName, ← of_decide_eq_true hSame]
        exact mem_map_of_mem hOther
      rw [if_pos hName, hNone, decide_eq_true hName.symm]
      rfl
    · rw [if_neg hName, decide_eq_false (Ne.symm hName)]

theorem lookup_byName {tools : List Tool} (hNames : (tools.map Tool.name).Nodup) (name : JsString) :
    (byName tools).lookup name = tools.find? fun tool => tool.name = name := by
  rw [byName, lookup_added hNames]
  exact Option.or_none

theorem lookup_removed (removed : List JsString) (tools : List (JsString × Tool)) (name : JsString) :
    (removed.foldl erase tools).lookup name = if name ∈ removed then none else tools.lookup name := by
  induction removed generalizing tools with
  | nil => rfl
  | cons first rest ih =>
    rw [foldl_cons, ih, lookup_erase]
    by_cases hRest : name ∈ rest
    · rw [if_pos hRest, if_pos (mem_cons_of_mem _ hRest)]
    · by_cases hFirst : name = first
      · simp [hFirst]
      · simp [hRest, hFirst]

theorem Named.perm {first second : List (JsString × Tool)} (hFirst : Named first) (hSecond : Named second)
    (h : ∀ name, first.lookup name = second.lookup name) : first.Perm second := by
  apply (perm_ext_iff_of_nodup (Nodup.of_map _ hFirst.distinct) (Nodup.of_map _ hSecond.distinct)).mpr
  rintro ⟨name, tool⟩
  rw [← lookup_eq_some_iff hFirst.distinct, ← lookup_eq_some_iff hSecond.distinct, h]

theorem Named.lookup (h : Named tools) (name : JsString) :
    tools.lookup name = (tools.map Prod.snd).find? fun tool => tool.name = name := by
  obtain ⟨-, hName⟩ := h
  induction tools with
  | nil => rfl
  | cons entry rest ih =>
    rw [OrderedMap.lookup_cons, map_cons, find?_cons, hName entry mem_cons_self]
    by_cases hSame : name = entry.1
    · rw [if_pos hSame, decide_eq_true hSame.symm]
    · rw [if_neg hSame, decide_eq_false (Ne.symm hSame)]
      exact ih fun other hOther => hName other (mem_cons_of_mem _ hOther)

theorem Named.names (h : Named tools) : ((tools.map Prod.snd).map Tool.name).Nodup := by
  have hSame : (tools.map Prod.snd).map Tool.name = tools.map Prod.fst := by
    rw [map_map]
    exact map_congr_left h.name
  rw [hSame]
  exact h.distinct

theorem named_of_names {tools : List Tool} (hNames : (tools.map Tool.name).Nodup) :
    Named (tools.map fun tool => (tool.name, tool)) where
  distinct := by rwa [map_map]
  name entry hEntry := by
    obtain ⟨tool, -, rfl⟩ := mem_map.mp hEntry
    rfl

theorem find_of_mem {tools : List Tool} (hNames : (tools.map Tool.name).Nodup) {tool : Tool} (h : tool ∈ tools) :
    (tools.find? fun other => other.name = tool.name) = some tool := by
  induction tools with
  | nil => exact absurd h not_mem_nil
  | cons first rest ih =>
    rw [map_cons, nodup_cons] at hNames
    rw [find?_cons]
    rcases mem_cons.mp h with rfl | hRest
    · rw [decide_eq_true rfl]
    · have hOther : first.name ≠ tool.name := fun hSame => hNames.1 (hSame ▸ mem_map_of_mem hRest)
      rw [decide_eq_false hOther]
      exact ih hNames.2 hRest

theorem mem_of_find {tools : List Tool} {name : JsString} {tool : Tool} (h : (tools.find? fun other => other.name = name) = some tool) :
    tool ∈ tools ∧ tool.name = name :=
  ⟨mem_of_find?_eq_some h, by simpa using find?_some h⟩

theorem differs_eq_false_iff (map : List (JsString × Tool)) (tool : Tool) :
    differs map tool = false ↔ map.lookup tool.name = some tool := by
  rw [differs]
  cases map.lookup tool.name with
  | none => exact ⟨nofun, nofun⟩
  | some other =>
    rw [Bool.not_eq_false', declarationsEqual_iff, Option.some_inj]

variable {current : List Tool}

/-- A system message with the changes between two loadouts leaves the second. -/
theorem lookup_changes (h : Named tools) (hNames : (current.map Tool.name).Nodup) (message : SystemMessage) (name : JsString) :
    ((withToolChanges message (getToolStateChanges (tools.map Prod.snd) current)).replay tools).lookup name =
      current.find? fun tool => tool.name = name := by
  have hPrevious : ∀ name, (byName (tools.map Prod.snd)).lookup name = tools.lookup name := fun name => by
    rw [lookup_byName h.names, h.lookup]
  have hKept : ((current.filter (differs (byName (tools.map Prod.snd)))).map Tool.name).Nodup :=
    hNames.sublist (filter_sublist.map _)
  show (foldl _ (foldl _ tools ((filter _ (tools.map Prod.snd)).map Tool.name)) (filter _ current)).lookup name = _
  rw [lookup_added hKept, lookup_removed]
  cases hCurrent : current.find? fun tool => tool.name = name with
  | none =>
    have hAdded : (current.filter (differs (byName (tools.map Prod.snd)))).find? (fun tool => tool.name = name) = none := by
      rw [find?_eq_none] at hCurrent ⊢
      exact fun tool hTool => hCurrent tool (mem_filter.mp hTool).1
    rw [hAdded, Option.none_or]
    split_ifs with hRemoved
    · rfl
    · cases hTool : tools.lookup name with
      | none => rfl
      | some tool =>
        refine absurd ?_ hRemoved
        obtain ⟨hMem, rfl⟩ := mem_of_find (h.lookup name ▸ hTool)
        apply mem_map_of_mem
        rw [mem_filter]
        refine ⟨hMem, Bool.not_eq_false _ ▸ fun hSame => ?_⟩
        rw [differs_eq_false_iff, lookup_byName hNames, hCurrent] at hSame
        exact nomatch hSame
  | some tool =>
    obtain ⟨hMem, rfl⟩ := mem_of_find hCurrent
    cases hDiffers : differs (byName (tools.map Prod.snd)) tool with
    | true =>
      rw [find_of_mem hKept (mem_filter.mpr ⟨hMem, hDiffers⟩)]
      rfl
    | false =>
      rw [differs_eq_false_iff, hPrevious] at hDiffers
      have hAdded : (current.filter (differs (byName (tools.map Prod.snd)))).find? (fun other => other.name = tool.name) =
          none := by
        rw [find?_eq_none]
        intro other hOther hName
        obtain ⟨hOtherMem, hOtherDiffers⟩ := mem_filter.mp hOther
        have hSame := find_of_mem hNames hOtherMem
        rw [of_decide_eq_true hName, hCurrent] at hSame
        cases hSame
        have hNot := (differs_eq_false_iff _ _).mpr ((hPrevious _).trans hDiffers)
        rw [hNot] at hOtherDiffers
        exact nomatch hOtherDiffers
      rw [hAdded, Option.none_or, hDiffers, if_neg]
      intro hRemoved
      obtain ⟨other, hOther, hName⟩ := mem_map.mp hRemoved
      obtain ⟨hOtherMem, hOtherDiffers⟩ := mem_filter.mp hOther
      have hSame := find_of_mem h.names hOtherMem
      rw [hName, ← h.lookup, hDiffers] at hSame
      cases hSame
      have hNot : differs (byName current) tool = false := by
        rw [differs_eq_false_iff, lookup_byName hNames, hCurrent]
      rw [hNot] at hOtherDiffers
      exact nomatch hOtherDiffers

/-- The tools after more messages. -/
def goOn (tools : List (JsString × Tool)) (messages : List AgentMessage) : List (JsString × Tool) :=
  messages.foldl (fun tools message => (message.system?.map fun system => system.replay tools).getD tools) tools

theorem replayTools_append (first second : List AgentMessage) :
    replayTools (first ++ second) = goOn (replayTools first) second :=
  foldl_append

theorem goOn_append (tools : List (JsString × Tool)) (first second : List AgentMessage) :
    goOn tools (first ++ second) = goOn (goOn tools first) second :=
  foldl_append

variable {messages : List AgentMessage}

theorem goOn_of_none (h : ∀ message ∈ messages, message.system? = none) (tools : List (JsString × Tool)) :
    goOn tools messages = tools := by
  induction messages with
  | nil => rfl
  | cons message rest ih =>
    rw [goOn, foldl_cons, h message mem_cons_self]
    exact ih fun other hOther => h other (mem_cons_of_mem _ hOther)

theorem named_replayTools (messages : List AgentMessage) : Named (replayTools messages) :=
  named_nil.replay messages

theorem splitLastSystem_eq {before after : List AgentMessage} {ticket : Option Ticket} {system : SystemMessage}
    (h : splitLastSystem messages = some (before, (ticket, system), after)) :
    messages = before ++ ⟨ticket, .system system⟩ :: after := by
  induction messages generalizing before with
  | nil => exact nomatch h
  | cons message rest ih =>
    rw [splitLastSystem] at h
    split at h
    · rename_i earlier last later hRest
      cases h
      rw [ih hRest]
      rfl
    · obtain ⟨found, hFound, hSame⟩ := Option.map_eq_some_iff.mp h
      cases hSame
      obtain ⟨ticket, body⟩ := message
      cases body <;> cases hFound
      rfl

theorem splitLastSystem_none (h : splitLastSystem messages = none) :
    ∀ message ∈ messages, message.system? = none := by
  induction messages with
  | nil => exact fun _ hMessage => absurd hMessage not_mem_nil
  | cons first rest ih =>
    rw [splitLastSystem] at h
    split at h
    · exact nomatch h
    · rename_i hRest
      intro message hMessage
      rcases mem_cons.mp hMessage with rfl | hLater
      · exact Option.map_eq_none_iff.mp h
      · exact ih hRest message hLater

theorem splitLastSystem_after {before after : List AgentMessage} {last : Option Ticket × SystemMessage}
    (h : splitLastSystem messages = some (before, last, after)) : ∀ message ∈ after, message.system? = none := by
  induction messages generalizing before with
  | nil => exact nomatch h
  | cons first rest ih =>
    rw [splitLastSystem] at h
    split at h
    · rename_i hRest
      cases h
      exact ih hRest
    · rename_i hRest
      obtain ⟨found, -, hSame⟩ := Option.map_eq_some_iff.mp h
      cases hSame
      exact splitLastSystem_none hRest

theorem lookup_unchanged (h : Named tools)
    (hNames : (current.map Tool.name).Nodup) (hUnchanged : (getToolStateChanges (tools.map Prod.snd) current).unchanged = true)
    (name : JsString) : tools.lookup name = current.find? fun tool => tool.name = name := by
  obtain ⟨hAdded, hRemoved⟩ := Bool.and_eq_true_iff.mp hUnchanged
  have hReplay := lookup_changes h hNames ⟨[], [], ⟨.null, trivial⟩⟩ name
  rw [SystemMessage.replay, withToolChanges, isEmpty_iff.mp hAdded, isEmpty_iff.mp hRemoved] at hReplay
  exact hReplay

variable {context : AgentContext}

theorem lookup_declareToolChanges (hNames : ((context.tools.map toToolDeclaration).map Tool.name).Nodup)
    (pendingMessages : List AgentMessage) (name : JsString) :
    (replayTools (context.messages ++ declareToolChanges context pendingMessages)).lookup name =
      (context.tools.map toToolDeclaration).find? fun tool => tool.name = name := by
  rw [declareToolChanges]
  split
  · rename_i before ticket pending after hSplit
    have hAfter := splitLastSystem_after hSplit
    -- The message without its changes leaves the tools of what is before it.
    have hBaseline : replayTools (context.messages ++ (before ++ ⟨ticket, .system (withToolChanges pending noChanges)⟩ :: after)) =
        replayTools (context.messages ++ before) := by
      rw [← append_assoc, replayTools_append]
      exact goOn_of_none hAfter _
    have hNamed := named_replayTools (context.messages ++ before)
    have hChanges : context.changes (before ++ ⟨ticket, .system (withToolChanges pending noChanges)⟩ :: after) =
        getToolStateChanges ((replayTools (context.messages ++ before)).map Prod.snd) (context.tools.map toToolDeclaration) := by
      rw [AgentContext.changes, getCurrentTools, hBaseline]
    rw [hChanges]
    split_ifs with hUnchanged
    · obtain ⟨hRest, hRemoved⟩ := Bool.and_eq_true_iff.mp hUnchanged
      obtain ⟨hNone, hAdded⟩ := Bool.and_eq_true_iff.mp hRest
      have hSame : withToolChanges pending noChanges = pending := by
        rw [withToolChanges, noChanges, ← isEmpty_iff.mp hAdded]
        obtain ⟨toolsAdded, toolsRemoved, rest⟩ := pending
        rw [show toolsRemoved = [] from isEmpty_iff.mp hRemoved]
      rw [hSame, ← splitLastSystem_eq hSplit] at hBaseline
      rw [hBaseline]
      exact lookup_unchanged hNamed hNames hNone name
    · rw [← append_assoc, replayTools_append]
      show (goOn (SystemMessage.replay _ _) after).lookup name = _
      rw [goOn_of_none hAfter]
      exact lookup_changes hNamed hNames pending name
  · rename_i hSplit
    have hPending := splitLastSystem_none hSplit
    have hBaseline : replayTools (context.messages ++ pendingMessages) = replayTools context.messages := by
      rw [replayTools_append, goOn_of_none hPending]
    have hNamed := named_replayTools context.messages
    have hChanges : context.changes pendingMessages =
        getToolStateChanges ((replayTools context.messages).map Prod.snd) (context.tools.map toToolDeclaration) := by
      rw [AgentContext.changes, getCurrentTools, hBaseline]
    rw [hChanges]
    split_ifs with hUnchanged
    · rw [hBaseline]
      exact lookup_unchanged hNamed hNames hUnchanged name
    · have hRest : ∀ message ∈ pendingMessages.dropWhile (fun message => message.system?.isSome), message.system? = none :=
        fun message hMessage => hPending message ((dropWhile_sublist _).subset hMessage)
      have hFirst : ∀ message ∈ pendingMessages.takeWhile (fun message => message.system?.isSome), message.system? = none :=
        fun message hMessage => hPending message ((takeWhile_sublist _).subset hMessage)
      rw [replayTools_append, goOn_append, goOn_of_none hFirst]
      show (goOn (SystemMessage.replay _ _) _).lookup name = _
      rw [goOn_of_none hRest]
      exact lookup_changes hNamed hNames _ name

theorem getCurrentTools_declareToolChanges
    (hNames : ((context.tools.map toToolDeclaration).map Tool.name).Nodup) (pendingMessages : List AgentMessage) :
    (getCurrentTools (context.messages ++ declareToolChanges context pendingMessages)).Perm
      (context.tools.map toToolDeclaration) := by
  have hNamed := named_of_names hNames
  have hSame : ((context.tools.map toToolDeclaration).map fun tool => (tool.name, tool)).map Prod.snd =
      context.tools.map toToolDeclaration := by
    rw [map_map]
    exact map_id _
  have hPerm := Named.perm (named_replayTools (context.messages ++ declareToolChanges context pendingMessages)) hNamed fun name => by
    rw [lookup_declareToolChanges hNames, hNamed.lookup, hSame]
  exact hSame ▸ hPerm.map Prod.snd

end OctoberHarness.Agent
