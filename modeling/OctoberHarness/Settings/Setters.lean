import OctoberHarness.Json.Text
import OctoberHarness.Settings.Merge

/-! The setters of the manager: the settings in memory after each, and the keys
it marks as modified. -/
namespace OctoberHarness.Settings

open List

/-- Where a package comes from. -/
structure SourcePackageIdentity where
  source : JsString
  scope : JsString
deriving DecidableEq, Repr

def getSourcePackageKey (identity : SourcePackageIdentity) : JsString :=
  JsonValue.stringify (.obj [(js "source", .str identity.source), (js "scope", .str identity.scope)])

def floor (n : JsNumber) : Int :=
  if 0 ≤ n.exponent then n.mantissa * 10 ^ n.exponent.toNat else n.mantissa / 10 ^ (-n.exponent).toNat

/-- A clamped number, which is not negative. -/
def count (n : Int) : JsonValue :=
  .num (.ofNat n.toNat)

def texts (items : List JsString) : JsonValue :=
  .arr (items.map .str)

/-- `Boolean(settings[field])`. -/
def holds (settings : Fields) (field : JsString) : Bool :=
  truthy ((settings.lookup field).getD .null)

/-- The settings after a setter with the keys it marked; `none` where it throws
or returns with nothing changed. -/
abbrev Change := Option (Fields × List Key)

/-- Assign to fields and mark each. -/
def setFields (changes : List (JsString × Option JsonValue)) (memory : Fields) : Change :=
  some (changes.foldl (fun memory change => assign memory change.1 change.2) memory,
    changes.map fun change => .whole change.1)

/-- Assign to a field and mark it. -/
def setField (field : JsString) (value : Option JsonValue) (memory : Fields) : Change :=
  setFields [(field, value)] memory

/-- Assign to one key of a field's value and mark it. Assigning to a property of
a primitive throws. -/
def setKey (field key : JsString) (held value : JsonValue) (memory : Fields) : Change :=
  if held.isContainer then
    some (assign memory field (some (.obj ((spread held).define key value))), [.nested field key])
  else none

/-- `if (!settings[field]) settings[field] = {}` before one key is assigned. -/
def setNested (field key : JsString) (value : JsonValue) (memory : Fields) : Change :=
  setKey field key (if holds memory field then (memory.lookup field).getD .null else .obj []) value memory

/-- `settings.markdown ??= {}` before the key is assigned. -/
def setMermaidRenderingMode (mode : JsString) (memory : Fields) : Change :=
  setKey (js "markdown") (js "mermaid")
    (match memory.lookup (js "markdown") with
      | none | some .null => .obj []
      | some held => held) (.str mode) memory

def setExtensionChangelogVersion (package : SourcePackageIdentity) (version : JsString) (memory : Fields) : Change :=
  setKey (js "extensionChangelogVersions") (getSourcePackageKey package)
    (.obj (nestedOf memory (js "extensionChangelogVersions"))) (.str version) memory

/-- The property of an array is no element of it and stays in memory. -/
def setModelThinkingLevel (provider modelId level : JsString) (memory : Fields) : Change :=
  match if holds memory (js "modelThinkingLevels") then (memory.lookup (js "modelThinkingLevels")).getD .null
    else .obj [] with
  | .obj levels =>
    setField (js "modelThinkingLevels") (some (.obj (Fields.define levels (provider ++ js "/" ++ modelId) (.str level)))) memory
  | .arr levels => setField (js "modelThinkingLevels") (some (.arr levels)) memory
  | _ => none

/-- What `delete` leaves of the levels. -/
def withoutLevel (levels : JsonValue) (key : JsString) : JsonValue :=
  match levels with
  | .obj levels => .obj (Fields.delete levels key)
  | levels => levels

def removeModelThinkingLevel (provider modelId : JsString) (memory : Fields) : Change :=
  if holds memory (js "modelThinkingLevels") then
    have rest := withoutLevel ((memory.lookup (js "modelThinkingLevels")).getD .null) (provider ++ js "/" ++ modelId)
    setField (js "modelThinkingLevels") (if spread rest = [] then none else some rest) memory
  else none

/-- A call of a setter, with the arguments it uses. -/
inductive Setter where
  | setLastChangelogVersion (version : JsString)
  | setDefaultProvider (provider : JsString)
  | setDefaultModel (modelId : JsString)
  | setSteeringMode (mode : JsString)
  | setFollowUpMode (mode : JsString)
  | setTheme (theme : JsString)
  | setDefaultThinkingLevel (level : JsString)
  | setTransport (transport : JsString)
  | setSessionShareDestination (destination : JsString)
  | setCacheWarmingMode (mode : JsString)
  | setDefaultProjectTrust (trust : JsString)
  | setTuiMode (mode : JsString)
  | setFullscreenExitOutput (output : JsString)
  | setFullscreenScrollbar (mode : JsString)
  | setDoubleEscapeAction (action : JsString)
  | setTreeFilterMode (mode : JsString)
  | setShellPath (path : Option JsString)
  | setShellCommandPrefix (leading : Option JsString)
  | setHideThinkingBlock (hide : Bool)
  | setShowCacheMissNotices (shown : Bool)
  | setCollapseChangelog (collapse : Bool)
  | setEnableInstallTelemetry (enabled : Bool)
  | setEnableSkillCommands (enabled : Bool)
  | setFullscreenCopyOnSelect (enabled : Bool)
  | setShowHardwareCursor (enabled : Bool)
  | setNpmCommand (command : Option (List JsString))
  | setEnabledModels (patterns : Option (List JsString))
  | setExtensionPaths (paths : List JsString)
  | setSkillPaths (paths : List JsString)
  | setPromptTemplatePaths (paths : List JsString)
  | setThemePaths (paths : List JsString)
  | setProjectExtensionPaths (paths : List JsString)
  | setProjectSkillPaths (paths : List JsString)
  | setProjectPromptTemplatePaths (paths : List JsString)
  | setProjectThemePaths (paths : List JsString)
  | setPackages (packages : List JsonValue)
  | setProjectPackages (packages : List JsonValue)
  | setOctoberDefaultPackagesVersion (version : JsNumber)
  | setOutputPad (padding : JsNumber)
  | setCompactionEnabled (enabled : Bool)
  | setRetryEnabled (enabled : Bool)
  | setShowImages (shown : Bool)
  | setClearOnShrink (enabled : Bool)
  | setShowTerminalProgress (enabled : Bool)
  | setImageAutoResize (enabled : Bool)
  | setBlockImages (blocked : Bool)
  | setQuietStartup (quiet : JsonValue)
  | setWarnings (warnings : Fields)
  | setHttpIdleTimeoutMs (timeoutMs : JsNumber)
  | setEditorPaddingX (padding : JsNumber)
  | setAutocompleteMaxVisible (maxVisible : JsNumber)
  | setFullscreenWheelScrollLines (lines : Option JsNumber)
  | setImageWidthCells (width : JsNumber)
  | setMermaidRenderingMode (mode : JsString)
  | setExtensionChangelogVersion (package : SourcePackageIdentity) (version : JsString)
  | setModelThinkingLevel (provider modelId level : JsString)
  | removeModelThinkingLevel (provider modelId : JsString)
  | setDefaultModelAndProvider (provider modelId : JsString)
  | setEnableAnalytics (enabled : Bool) (uuid : JsString)
  | getOrCreateDeviceId (uuid : JsString)
/-- What a setter does to the settings of its scope before it saves. -/
def changeOf (memory : Fields) : Setter → Change
  | .setLastChangelogVersion version => setField (js "lastChangelogVersion") (some (.str version)) memory
  | .setDefaultProvider provider => setField (js "defaultProvider") (some (.str provider)) memory
  | .setDefaultModel modelId => setField (js "defaultModel") (some (.str modelId)) memory
  | .setSteeringMode mode => setField (js "steeringMode") (some (.str mode)) memory
  | .setFollowUpMode mode => setField (js "followUpMode") (some (.str mode)) memory
  | .setTheme theme => setField (js "theme") (some (.str theme)) memory
  | .setDefaultThinkingLevel level => setField (js "defaultThinkingLevel") (some (.str level)) memory
  | .setTransport transport => setField (js "transport") (some (.str transport)) memory
  | .setSessionShareDestination destination => setField (js "sessionShareDestination") (some (.str destination)) memory
  | .setCacheWarmingMode mode => setField (js "cacheWarming") (some (.str mode)) memory
  | .setDefaultProjectTrust trust => setField (js "defaultProjectTrust") (some (.str trust)) memory
  | .setTuiMode mode => setField (js "tuiMode") (some (.str mode)) memory
  | .setFullscreenExitOutput output => setField (js "fullscreenExitOutput") (some (.str output)) memory
  | .setFullscreenScrollbar mode => setField (js "fullscreenScrollbar") (some (.str mode)) memory
  | .setDoubleEscapeAction action => setField (js "doubleEscapeAction") (some (.str action)) memory
  | .setTreeFilterMode mode => setField (js "treeFilterMode") (some (.str mode)) memory
  | .setShellPath path => setField (js "shellPath") (path.map .str) memory
  | .setShellCommandPrefix leading => setField (js "shellCommandPrefix") (leading.map .str) memory
  | .setHideThinkingBlock hide => setField (js "hideThinkingBlock") (some (.bool hide)) memory
  | .setShowCacheMissNotices shown => setField (js "showCacheMissNotices") (some (.bool shown)) memory
  | .setCollapseChangelog collapse => setField (js "collapseChangelog") (some (.bool collapse)) memory
  | .setEnableInstallTelemetry enabled => setField (js "enableInstallTelemetry") (some (.bool enabled)) memory
  | .setEnableSkillCommands enabled => setField (js "enableSkillCommands") (some (.bool enabled)) memory
  | .setFullscreenCopyOnSelect enabled => setField (js "fullscreenCopyOnSelect") (some (.bool enabled)) memory
  | .setShowHardwareCursor enabled => setField (js "showHardwareCursor") (some (.bool enabled)) memory
  | .setNpmCommand command => setField (js "npmCommand") (command.map texts) memory
  | .setEnabledModels patterns => setField (js "enabledModels") (patterns.map texts) memory
  | .setExtensionPaths paths => setField (js "extensions") (some (texts paths)) memory
  | .setSkillPaths paths => setField (js "skills") (some (texts paths)) memory
  | .setPromptTemplatePaths paths => setField (js "prompts") (some (texts paths)) memory
  | .setThemePaths paths => setField (js "themes") (some (texts paths)) memory
  | .setProjectExtensionPaths paths => setField (js "extensions") (some (texts paths)) memory
  | .setProjectSkillPaths paths => setField (js "skills") (some (texts paths)) memory
  | .setProjectPromptTemplatePaths paths => setField (js "prompts") (some (texts paths)) memory
  | .setProjectThemePaths paths => setField (js "themes") (some (texts paths)) memory
  | .setPackages packages => setField (js "packages") (some (.arr packages)) memory
  | .setProjectPackages packages => setField (js "packages") (some (.arr packages)) memory
  | .setOctoberDefaultPackagesVersion version => setField (js "octoberDefaultPackagesVersion") (some (.num version)) memory
  | .setOutputPad padding => setField (js "outputPad") (some (.num padding)) memory
  | .setCompactionEnabled enabled => setNested (js "compaction") (js "enabled") (.bool enabled) memory
  | .setRetryEnabled enabled => setNested (js "retry") (js "enabled") (.bool enabled) memory
  | .setShowImages shown => setNested (js "terminal") (js "showImages") (.bool shown) memory
  | .setClearOnShrink enabled => setNested (js "terminal") (js "clearOnShrink") (.bool enabled) memory
  | .setShowTerminalProgress enabled => setNested (js "terminal") (js "showTerminalProgress") (.bool enabled) memory
  | .setImageAutoResize enabled => setNested (js "images") (js "autoResize") (.bool enabled) memory
  | .setBlockImages blocked => setNested (js "images") (js "blockImages") (.bool blocked) memory
  | .setQuietStartup quiet => setField (js "quietStartup") (some quiet) memory
  | .setWarnings warnings => setField (js "warnings") (some (.obj warnings)) memory
  | .setHttpIdleTimeoutMs timeoutMs =>
    if timeoutMs.mantissa < 0 then none
    else setField (js "httpIdleTimeoutMs") (some (count (floor timeoutMs))) memory
  | .setEditorPaddingX padding =>
    setField (js "editorPaddingX") (some (count (max 0 (min 3 (floor padding))))) memory
  | .setAutocompleteMaxVisible maxVisible =>
    setField (js "autocompleteMaxVisible") (some (count (max 3 (min 20 (floor maxVisible))))) memory
  | .setFullscreenWheelScrollLines lines =>
    setField (js "fullscreenWheelScrollLines")
      (some (lines.elim (.str (js "auto")) fun lines => count (max 1 (min 100 (floor lines))))) memory
  | .setImageWidthCells width =>
    setNested (js "terminal") (js "imageWidthCells") (count (max 1 (floor width))) memory
  | .setMermaidRenderingMode mode => setMermaidRenderingMode mode memory
  | .setExtensionChangelogVersion package version => setExtensionChangelogVersion package version memory
  | .setModelThinkingLevel provider modelId level => setModelThinkingLevel provider modelId level memory
  | .removeModelThinkingLevel provider modelId => removeModelThinkingLevel provider modelId memory
  | .setDefaultModelAndProvider provider modelId =>
    setFields [(js "defaultProvider", some (.str provider)), (js "defaultModel", some (.str modelId))] memory
  | .setEnableAnalytics enabled uuid =>
    setFields ((js "enableAnalytics", some (.bool enabled)) ::
      if enabled = true ∧ holds memory (js "trackingId") = false then [(js "trackingId", some (.str uuid))] else []) memory
  | .getOrCreateDeviceId uuid =>
    if holds memory (js "deviceId") then none else setField (js "deviceId") (some (.str uuid)) memory

/-! Every setter changes the keys it marks and nothing else. -/

/-- `next` is `memory` with new values at `keys`, in the forms that setters
give them. -/
structure Changes (memory next : Fields) (keys : List Key) : Prop where
  proper : ∀ key ∈ keys, key.Proper ∧ Suits next key
  kept : ∀ field, (∀ key ∈ keys, key.field ≠ field) → next.lookup field = memory.lookup field
  other : ∀ key, key.Proper → key ∉ keys → valueAt next key = valueAt memory key

variable {memory next : Fields} {keys : List Key} {field : JsString} {value : JsonValue}

theorem Changes.suits (h : Changes memory next keys) {key : Key}
    (hProper : key.Proper) (hSuits : Suits memory key) : Suits next key := by
  by_cases hField : ∃ changed ∈ keys, changed.field = key.field
  · obtain ⟨changed, hMem, hSame⟩ := hField
    obtain ⟨hChanged, hNext⟩ := h.proper changed hMem
    cases key with
    | whole field =>
      cases changed with
      | whole other =>
        obtain rfl : other = field := hSame
        exact hNext
      | nested other inner =>
        obtain rfl : other = field := hSame
        exact absurd hChanged.1 hProper.1
    | nested field key =>
      cases changed with
      | whole other =>
        obtain rfl : other = field := hSame
        exact absurd hProper.1 hChanged.1
      | nested other inner =>
        obtain rfl : other = field := hSame
        exact hNext
  · have hKept := h.kept key.field fun changed hMem hSame => hField ⟨changed, hMem, hSame⟩
    cases key with
    | whole field => simpa only [Suits, show next.lookup field = memory.lookup field from hKept] using hSuits
    | nested field key => simpa only [Suits, show next.lookup field = memory.lookup field from hKept] using hSuits

theorem Changes.refl (memory : Fields) : Changes memory memory [] := by
  constructor <;> simp

theorem Changes.trans {first second third : Fields} {later : List Key} (h : Changes first second keys)
    (hLater : Changes second third later) : Changes first third (keys ++ later) := by
  constructor
  case proper =>
    intro key hKey
    rcases List.mem_append.mp hKey with hKey | hKey
    · obtain ⟨hProper, hSuits⟩ := h.proper key hKey
      exact ⟨hProper, hLater.suits hProper hSuits⟩
    · exact hLater.proper key hKey
  case kept =>
    intro field hField
    rw [hLater.kept field fun key hKey => hField key (mem_append_right _ hKey),
      h.kept field fun key hKey => hField key (mem_append_left _ hKey)]
  case other =>
    intro key hProper hKey
    rw [mem_append, not_or] at hKey
    rw [hLater.other key hProper hKey.2, h.other key hProper hKey.1]

/-- A value that a whole field may get. -/
def FieldSuits (field : JsString) (value : Option JsonValue) : Prop :=
  (Key.whole field).Proper ∧ (field = js "steeringMode" ∨ field = js "transport" → value ≠ none) ∧
    (field = js "skills" → ∃ items, value = some (.arr items))

theorem fieldSuits_some (value : JsonValue)
    (hField : field ∉ nestedFields ++ [js "__proto__", js "queueMode", js "websockets", js "skills"]) :
    FieldSuits field (some value) := by
  simp only [mem_append, mem_cons, not_mem_nil, or_false, not_or] at hField
  obtain ⟨hNested, hProto, hQueue, hWebsockets, hSkills⟩ := hField
  exact ⟨⟨hNested, hProto, hQueue, hWebsockets⟩, fun _ => Option.some_ne_none value, fun h => absurd h hSkills⟩

theorem fieldSuits_skills (items : List JsonValue) : FieldSuits (js "skills") (some (.arr items)) :=
  ⟨by decide, fun _ => Option.some_ne_none _, fun _ => ⟨items, rfl⟩⟩

theorem fieldSuits_option (value : Option JsonValue)
    (hField : field ∉ nestedFields ++ [js "__proto__", js "queueMode", js "websockets", js "skills"])
    (hKept : field ∉ [js "steeringMode", js "transport"]) : FieldSuits field value := by
  have hSome := fieldSuits_some .null hField
  refine ⟨hSome.1, fun h => absurd ?_ hKept, fun h => ?_⟩
  · simpa using h
  · obtain ⟨items, hItems⟩ := hSome.2.2 h
    exact nomatch hItems

theorem changes_assign (memory : Fields) {value : Option JsonValue} (h : FieldSuits field value) :
    Changes memory (assign memory field value) [.whole field] := by
  constructor
  case proper =>
    intro key hKey
    obtain rfl := List.mem_singleton.mp hKey
    refine ⟨h.1, ?_⟩
    rw [Suits, lookup_assign memory value field h.1.2.1, if_pos rfl]
    exact h.2
  case kept =>
    intro other hOther
    have hNe : other ≠ field := Ne.symm (hOther _ (mem_singleton_self _))
    rw [lookup_assign memory value other h.1.2.1, if_neg hNe]
  case other =>
    intro key hProper hKey
    cases key with
    | whole other =>
      have hOther : other ≠ field := fun hSame => hKey (by simp [hSame])
      rw [valueAt, lookup_assign memory value other h.1.2.1, if_neg hOther, valueAt]
    | nested other inner =>
      have hOther : other ≠ field := fun hSame => h.1.1 (hSame ▸ hProper.1)
      rw [valueAt, nestedOf, lookup_assign memory value other h.1.2.1, if_neg hOther, valueAt, nestedOf]

theorem changes_setFields {changes : List (JsString × Option JsonValue)}
    (hSuits : ∀ change ∈ changes, FieldSuits change.1 change.2)
    (h : setFields changes memory = some (next, keys)) : Changes memory next keys := by
  rw [setFields, Option.some.injEq, Prod.mk.injEq] at h
  obtain ⟨rfl, rfl⟩ := h
  induction changes generalizing memory with
  | nil => exact Changes.refl memory
  | cons change rest ih =>
    have hFirst := changes_assign memory (hSuits change mem_cons_self)
    exact hFirst.trans (ih fun later hLater => hSuits later (mem_cons_of_mem _ hLater))

theorem changes_setField {value : Option JsonValue}
    (hSuits : FieldSuits field value) (h : setField field value memory = some (next, keys)) :
    Changes memory next keys := by
  apply changes_setFields _ h
  intro change hChange
  obtain rfl := List.mem_singleton.mp hChange
  exact hSuits

/-- The value assigned into has the properties the field had. -/
theorem changes_setKey {key : JsString} {held : JsonValue}
    (hProper : (Key.nested field key).Proper) (hHeld : spread held = nestedOf memory field)
    (h : setKey field key held value memory = some (next, keys)) : Changes memory next keys := by
  unfold setKey at h
  split_ifs at h with hContainer
  rw [Option.some.injEq, Prod.mk.injEq] at h
  obtain ⟨rfl, rfl⟩ := h
  have hProto : field ≠ js "__proto__" := by
    rintro rfl
    exact absurd hProper.1 (by decide)
  constructor
  case proper =>
    intro changed hChanged
    obtain rfl := List.mem_singleton.mp hChanged
    refine ⟨hProper, ?_⟩
    rw [Suits, lookup_assign _ _ _ hProto, if_pos rfl]
    exact ⟨_, rfl⟩
  case kept =>
    intro other hOther
    have hNe : other ≠ field := Ne.symm (hOther _ (mem_singleton_self _))
    rw [lookup_assign _ _ _ hProto, if_neg hNe]
  case other =>
    intro other hOther hNot
    cases other with
    | whole other =>
      have hNe : other ≠ field := fun hSame => hOther.1 (hSame ▸ hProper.1)
      rw [valueAt, lookup_assign _ _ _ hProto, if_neg hNe, valueAt]
    | nested other inner =>
      by_cases hField : other = field
      · subst hField
        have hInner : inner ≠ key := fun hSame => hNot (by simp [hSame])
        rw [valueAt, nestedOf, lookup_assign _ _ _ hProto, if_pos rfl, Option.getD_some, spread,
          Fields.lookup_define, if_neg hInner, hHeld, valueAt]
      · rw [valueAt, nestedOf, lookup_assign _ _ _ hProto, if_neg hField, valueAt, nestedOf]

theorem spread_of_not_truthy (h : truthy value = false) : spread value = [] := by
  cases value with
  | str s => simp_all [truthy, spread]
  | arr items => simp [truthy] at h
  | obj fields => simp [truthy] at h
  | null => rfl
  | bool b => rfl
  | num n => rfl

theorem changes_setNested {key : JsString}
    (hProper : (Key.nested field key).Proper) (h : setNested field key value memory = some (next, keys)) :
    Changes memory next keys := by
  apply changes_setKey hProper _ h
  split_ifs with hHolds
  · rfl
  · rw [nestedOf, spread_of_not_truthy (Bool.eq_false_of_not_eq_true hHolds)]
    rfl

theorem getSourcePackageKey_eq (identity : SourcePackageIdentity) :
    ∃ rest, getSourcePackageKey identity = 123 :: rest :=
  ⟨_, rfl⟩

theorem proper_getSourcePackageKey (identity : SourcePackageIdentity) :
    (Key.nested (js "extensionChangelogVersions") (getSourcePackageKey identity)).Proper := by
  obtain ⟨rest, hKey⟩ := getSourcePackageKey_eq identity
  rw [Key.Proper, hKey]
  refine ⟨by decide, cons_ne_nil _ _, fun hProto => ?_, fun hRetry => absurd hRetry (by decide)⟩
  exact absurd (cons.inj hProto).1 (by decide)

theorem changes_of_setter {setter : Setter} (h : changeOf memory setter = some (next, keys)) : Changes memory next keys := by
  cases setter with
  | setMermaidRenderingMode mode =>
    apply changes_setKey (by decide) _ h
    rw [nestedOf]
    cases hHeld : memory.lookup (js "markdown") with
    | none => rfl
    | some held => cases held <;> rfl
  | setExtensionChangelogVersion package version =>
    have hHeld : spread (.obj (nestedOf memory (js "extensionChangelogVersions"))) =
        nestedOf memory (js "extensionChangelogVersions") := rfl
    exact changes_setKey (proper_getSourcePackageKey package) hHeld h
  | setModelThinkingLevel provider modelId level =>
    simp only [changeOf, setModelThinkingLevel] at h
    split at h
    · exact changes_setField (fieldSuits_some _ (by decide)) h
    · exact changes_setField (fieldSuits_some _ (by decide)) h
    · cases h
  | removeModelThinkingLevel provider modelId =>
    simp only [changeOf, removeModelThinkingLevel] at h
    by_cases hHeld : holds memory (js "modelThinkingLevels") = true
    · rw [if_pos hHeld] at h
      exact changes_setField (fieldSuits_option _ (by decide) (by decide)) h
    · rw [if_neg hHeld] at h
      cases h
  | setHttpIdleTimeoutMs timeoutMs =>
    simp only [changeOf] at h
    by_cases hNegative : timeoutMs.mantissa < 0
    · rw [if_pos hNegative] at h
      cases h
    · rw [if_neg hNegative] at h
      exact changes_setField (fieldSuits_some _ (by decide)) h
  | getOrCreateDeviceId uuid =>
    simp only [changeOf] at h
    by_cases hHeld : holds memory (js "deviceId") = true
    · rw [if_pos hHeld] at h
      cases h
    · rw [if_neg hHeld] at h
      exact changes_setField (fieldSuits_some _ (by decide)) h
  | setDefaultModelAndProvider provider modelId =>
    apply changes_setFields _ h
    intro change hChange
    simp only [mem_cons, not_mem_nil, or_false] at hChange
    rcases hChange with rfl | rfl
    · exact @fieldSuits_some (js "defaultProvider") _ (by decide)
    · exact @fieldSuits_some (js "defaultModel") _ (by decide)
  | setEnableAnalytics enabled uuid =>
    apply changes_setFields _ h
    intro change hChange
    rcases List.mem_cons.mp hChange with rfl | hChange
    · exact @fieldSuits_some (js "enableAnalytics") _ (by decide)
    · split_ifs at hChange with hTracking
      · obtain rfl := List.mem_singleton.mp hChange
        exact @fieldSuits_some (js "trackingId") _ (by decide)
      · cases hChange
  | setSkillPaths paths => exact changes_setField (fieldSuits_skills _) h
  | setProjectSkillPaths paths => exact changes_setField (fieldSuits_skills _) h
  | setShellPath path => exact changes_setField (fieldSuits_option _ (by decide) (by decide)) h
  | setShellCommandPrefix leading => exact changes_setField (fieldSuits_option _ (by decide) (by decide)) h
  | setNpmCommand command => exact changes_setField (fieldSuits_option _ (by decide) (by decide)) h
  | setEnabledModels patterns => exact changes_setField (fieldSuits_option _ (by decide) (by decide)) h
  | setCompactionEnabled enabled => exact changes_setNested (by decide) h
  | setRetryEnabled enabled => exact changes_setNested (by decide) h
  | setShowImages shown => exact changes_setNested (by decide) h
  | setClearOnShrink enabled => exact changes_setNested (by decide) h
  | setShowTerminalProgress enabled => exact changes_setNested (by decide) h
  | setImageAutoResize enabled => exact changes_setNested (by decide) h
  | setBlockImages blocked => exact changes_setNested (by decide) h
  | setImageWidthCells width => exact changes_setNested (by decide) h
  | _ => exact changes_setField (fieldSuits_some _ (by decide)) h

end OctoberHarness.Settings
