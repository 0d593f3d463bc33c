import OctoberHarness.Settings.Migration

/-! The merge of settings in memory into the file: fields and nested keys that
were marked as modified go over what the file holds. -/
namespace OctoberHarness.Settings

/-- A field of the settings, or one key inside it. -/
inductive Key where
  | whole (field : JsString)
  | nested (field key : JsString)
deriving DecidableEq, Repr

def Key.field : Key → JsString
  | .whole field => field
  | .nested field _ => field

/-- The properties of a field, `settings[field] ?? {}` spread out. -/
def nestedOf (settings : Fields) (field : JsString) : Fields :=
  spread ((settings.lookup field).getD .null)

/-- What settings hold at a key. -/
def valueAt (settings : Fields) : Key → Option JsonValue
  | .whole field => settings.lookup field
  | .nested field key => (nestedOf settings field).lookup key

/-- `modifiedFields` and `modifiedNestedFields` of one scope. -/
structure Marks where
  fields : List JsString
  nested : List (JsString × JsString)
deriving DecidableEq, Repr

namespace Marks

/-- The tables after a load and after a write. -/
def cleared : Marks := ⟨[], []⟩

/-- `Set.add`. -/
def addTo {α : Type} [DecidableEq α] (marked : List α) (item : α) : List α :=
  if item ∈ marked then marked else marked ++ [item]

@[simp] theorem mem_addTo {α : Type} [DecidableEq α] (marked : List α) (item other : α) :
    other ∈ addTo marked item ↔ other ∈ marked ∨ other = item := by
  unfold addTo
  split_ifs with h
  · constructor
    · exact Or.inl
    · rintro (hOther | rfl)
      · exact hOther
      · exact h
  · simp

/-- `markModified`; an empty nested key marks the field alone. -/
def mark (marks : Marks) : Key → Marks
  | .whole field => { marks with fields := addTo marks.fields field }
  | .nested field key =>
    { fields := addTo marks.fields field
      nested := if key = [] then marks.nested else addTo marks.nested (field, key) }

/-- `modifiedNestedFields.get(field)`, empty where the field has no entry. -/
def nestedKeys (marks : Marks) (field : JsString) : List JsString :=
  (marks.nested.filter fun entry => entry.1 = field).map Prod.snd

theorem mem_nestedKeys (marks : Marks) (field key : JsString) :
    key ∈ marks.nestedKeys field ↔ (field, key) ∈ marks.nested := by
  simp [nestedKeys]

/-- A key that the tables name. -/
def Has (marks : Marks) : Key → Prop
  | .whole field => field ∈ marks.fields
  | .nested field key => (field, key) ∈ marks.nested

instance (marks : Marks) (key : Key) : Decidable (marks.Has key) :=
  match key with
  | .whole field => inferInstanceAs (Decidable (field ∈ marks.fields))
  | .nested field key => inferInstanceAs (Decidable ((field, key) ∈ marks.nested))

end Marks

/-- The value a marked field gets in the file. -/
def mergedField (current settings : Fields) (marks : Marks) (field : JsString) : Option JsonValue :=
  match settings.lookup field with
  | some value =>
    if marks.nestedKeys field ≠ [] ∧ value.isContainer = true then
      some (.obj ((marks.nestedKeys field).foldl
        (fun merged key => assign merged key ((spread value).lookup key)) (nestedOf current field)))
    else some value
  | none => none

/-- The settings that `persistScopedSettings` writes over `current`. -/
def mergeSettings (current settings : Fields) (marks : Marks) : Fields :=
  marks.fields.foldl (fun merged field => assign merged field (mergedField current settings marks field)) current

theorem lookup_foldl_assign (read : JsString → Option JsonValue) (keys : List JsString) (start : Fields)
    (key : JsString) (hProto : js "__proto__" ∉ keys) :
    (keys.foldl (fun merged key => assign merged key (read key)) start).lookup key =
      if key ∈ keys then read key else start.lookup key := by
  induction keys generalizing start with
  | nil => simp
  | cons first rest ih =>
    rw [List.mem_cons, not_or] at hProto
    rw [List.foldl_cons, ih _ hProto.2, lookup_assign _ _ _ (Ne.symm hProto.1)]
    by_cases hRest : key ∈ rest
    · rw [if_pos hRest, if_pos (List.mem_cons_of_mem _ hRest)]
    · by_cases hFirst : key = first
      · simp [hFirst]
      · simp [hRest, hFirst]

/-! Which keys the setters mark, and what they leave in memory there. -/

def nestedFields : List JsString :=
  [js "extensionChangelogVersions", js "compaction", js "retry", js "terminal", js "images", js "markdown"]

/-- A key some setter marks. -/
def Key.Proper : Key → Prop
  | .whole field =>
    field ∉ nestedFields ∧ field ≠ js "__proto__" ∧ field ≠ js "queueMode" ∧ field ≠ js "websockets"
  | .nested field key =>
    field ∈ nestedFields ∧ key ≠ [] ∧ key ≠ js "__proto__" ∧ (field = js "retry" → key = js "enabled")

instance (key : Key) : Decidable key.Proper := by
  cases key <;> unfold Key.Proper <;> infer_instance

/-- The value at a marked key has the form its setter gives it. -/
def Suits (settings : Fields) : Key → Prop
  | .whole field =>
    (field = js "steeringMode" ∨ field = js "transport" → settings.lookup field ≠ none) ∧
      (field = js "skills" → ∃ items, settings.lookup field = some (.arr items))
  | .nested field _ => ∃ fields, settings.lookup field = some (.obj fields)

/-- Settings in memory with tables that setters filled. -/
structure Sound (settings : Fields) (marks : Marks) : Prop where
  whole : ∀ field ∈ marks.fields, field ∉ nestedFields →
    (Key.whole field).Proper ∧ Suits settings (.whole field)
  entry : ∀ field ∈ marks.fields, field ∈ nestedFields → ∃ key, (field, key) ∈ marks.nested
  nested : ∀ field key, (field, key) ∈ marks.nested →
    field ∈ marks.fields ∧ (Key.nested field key).Proper ∧ Suits settings (.nested field key)

/-- No marked key lies in this one or around it. -/
def Untouched (marks : Marks) : Key → Prop
  | .whole field => field ∉ marks.fields
  | .nested field key => (field, key) ∉ marks.nested ∧ (field ∈ marks.fields → field ∈ nestedFields)

namespace Sound

variable {current settings : Fields} {marks : Marks}

theorem cleared (settings : Fields) : Sound settings Marks.cleared := by
  constructor <;> simp [Marks.cleared]

theorem proto (h : Sound settings marks) : js "__proto__" ∉ marks.fields := by
  intro hMem
  exact (h.whole _ hMem (by decide)).1.2.1 rfl

variable {field : JsString} {key : Key}

section

variable (h : Sound settings marks)

include h

theorem nestedKeys_eq_nil (hField : field ∉ nestedFields) :
    marks.nestedKeys field = [] := by
  rw [List.eq_nil_iff_forall_not_mem]
  intro key hKey
  rw [Marks.mem_nestedKeys] at hKey
  exact hField (h.nested field key hKey).2.1.1

theorem lookup_mergeSettings (field : JsString) :
    (mergeSettings current settings marks).lookup field =
      if field ∈ marks.fields then mergedField current settings marks field else current.lookup field :=
  lookup_foldl_assign _ _ _ _ h.proto

theorem lookup_whole (hMarked : field ∈ marks.fields) (hField : field ∉ nestedFields) :
    (mergeSettings current settings marks).lookup field = settings.lookup field := by
  rw [h.lookup_mergeSettings, if_pos hMarked, mergedField, h.nestedKeys_eq_nil hField]
  cases settings.lookup field <;> simp

theorem lookup_nested (hMarked : field ∈ marks.fields) (hField : field ∈ nestedFields) (key : JsString) :
    (nestedOf (mergeSettings current settings marks) field).lookup key =
      if (field, key) ∈ marks.nested then valueAt settings (.nested field key)
      else (nestedOf current field).lookup key := by
  obtain ⟨entry, hEntry⟩ := h.entry field hMarked hField
  obtain ⟨fields, hFields⟩ := (h.nested field entry hEntry).2.2
  have hKeys : marks.nestedKeys field ≠ [] :=
    List.ne_nil_of_mem ((marks.mem_nestedKeys field entry).mpr hEntry)
  have hProto : js "__proto__" ∉ marks.nestedKeys field := by
    intro hMem
    exact (h.nested field _ ((marks.mem_nestedKeys _ _).mp hMem)).2.1.2.2.1 rfl
  rw [nestedOf, h.lookup_mergeSettings, if_pos hMarked, mergedField, hFields]
  simp only [hKeys, ne_eq, not_false_eq_true, JsonValue.isContainer, and_self, if_true, Option.getD_some]
  have hValue : valueAt settings (.nested field key) = (spread (.obj fields)).lookup key := by
    simp only [valueAt, nestedOf, hFields, Option.getD_some]
  rw [hValue, spread, lookup_foldl_assign _ _ _ _ hProto]
  simp only [Marks.mem_nestedKeys, spread]

theorem valueAt_marked (hProper : key.Proper) (hMarked : marks.Has key) :
    valueAt (mergeSettings current settings marks) key = valueAt settings key := by
  cases key with
  | whole field => exact h.lookup_whole hMarked hProper.1
  | nested field key =>
    have hEntry : (field, key) ∈ marks.nested := hMarked
    rw [valueAt, h.lookup_nested (h.nested field key hEntry).1 hProper.1, if_pos hEntry]

theorem valueAt_untouched (hKey : Untouched marks key) :
    valueAt (mergeSettings current settings marks) key = valueAt current key := by
  cases key with
  | whole field => rw [valueAt, h.lookup_mergeSettings, if_neg hKey, valueAt]
  | nested field key =>
    obtain ⟨hEntry, hField⟩ := hKey
    by_cases hMarked : field ∈ marks.fields
    · rw [valueAt, h.lookup_nested hMarked (hField hMarked), if_neg hEntry, valueAt]
    · rw [valueAt, nestedOf, h.lookup_mergeSettings, if_neg hMarked, valueAt, nestedOf]

end

theorem untouched (hProper : key.Proper) (hKey : ¬ marks.Has key) : Untouched marks key := by
  cases key with
  | whole field => exact hKey
  | nested field key => exact ⟨hKey, fun _ => hProper.1⟩

end Sound

/-! The merge of migrated settings is migrated. -/

theorem lookup_zipIdx_eq_none {α : Type} (items : List α) (value : α → JsonValue) {key : JsString}
    (hKey : ∃ unit ∈ key, JsonText.isDigit unit = false) :
    List.lookup key (items.zipIdx.map fun item => (decimalText item.2, value item.1)) = none := by
  rw [OrderedMap.lookup_eq_none_iff]
  intro hMem
  simp only [List.map_map, List.mem_map, Function.comp_apply] at hMem
  obtain ⟨item, _, rfl⟩ := hMem
  obtain ⟨unit, hUnit, hDigit⟩ := hKey
  rw [JsonText.isDigit_decimalText _ unit hUnit] at hDigit
  exact nomatch hDigit

theorem lookup_spread {value : JsonValue} (hObject : ∀ fields, value ≠ .obj fields) {key : JsString}
    (hKey : ∃ unit ∈ key, JsonText.isDigit unit = false) : (spread value).lookup key = none := by
  cases value with
  | obj fields => exact absurd rfl (hObject fields)
  | arr items => exact lookup_zipIdx_eq_none items id hKey
  | str s => exact lookup_zipIdx_eq_none s (fun unit => .str [unit]) hKey
  | null => rfl
  | bool b => rfl
  | num n => rfl

theorem Migrated.maxDelayMs {settings : Fields} (h : Migrated settings) :
    (nestedOf settings (js "retry")).lookup (js "maxDelayMs") = none := by
  rw [nestedOf]
  cases hRetry : settings.lookup (js "retry") with
  | none => rfl
  | some value =>
    rw [Option.getD_some]
    by_cases hObject : ∃ fields, value = .obj fields
    · obtain ⟨fields, rfl⟩ := hObject
      exact h.retry fields hRetry
    · exact lookup_spread (fun fields hValue => hObject ⟨fields, hValue⟩) (by decide)

theorem Sound.migrated {current settings : Fields} {marks : Marks} (h : Sound settings marks)
    (hCurrent : Migrated current) : Migrated (mergeSettings current settings marks) := by
  have hKept : ∀ field, field ∉ nestedFields → ¬ (Key.whole field).Proper →
      (mergeSettings current settings marks).lookup field = current.lookup field := by
    intro field hField hProper
    rw [h.lookup_mergeSettings, if_neg (fun hMarked => hProper (h.whole field hMarked hField).1)]
  constructor
  case queueMode =>
    intro hSteering
    rw [hKept (js "queueMode") (by decide) (by simp [Key.Proper])]
    by_cases hMarked : js "steeringMode" ∈ marks.fields
    · rw [h.lookup_whole hMarked (by decide)] at hSteering
      exact absurd hSteering ((h.whole _ hMarked (by decide)).2.1 (.inl rfl))
    · rw [h.lookup_mergeSettings, if_neg hMarked] at hSteering
      exact hCurrent.queueMode hSteering
  case websockets =>
    intro hTransport
    rw [hKept (js "websockets") (by decide) (by simp [Key.Proper])]
    by_cases hMarked : js "transport" ∈ marks.fields
    · rw [h.lookup_whole hMarked (by decide)] at hTransport
      exact absurd hTransport ((h.whole _ hMarked (by decide)).2.1 (.inr rfl))
    · rw [h.lookup_mergeSettings, if_neg hMarked] at hTransport
      exact hCurrent.websockets hTransport
  case skills =>
    intro skills
    by_cases hMarked : js "skills" ∈ marks.fields
    · obtain ⟨items, hItems⟩ := (h.whole _ hMarked (by decide)).2.2 rfl
      rw [h.lookup_whole hMarked (by decide), hItems]
      simp
    · rw [h.lookup_mergeSettings, if_neg hMarked]
      exact hCurrent.skills skills
  case retry =>
    intro retry hRetry
    have hMax : (nestedOf (mergeSettings current settings marks) (js "retry")).lookup (js "maxDelayMs") = none := by
      by_cases hMarked : js "retry" ∈ marks.fields
      · rw [h.lookup_nested hMarked (by decide), if_neg ?_]
        · exact hCurrent.maxDelayMs
        · intro hEntry
          exact absurd ((h.nested _ _ hEntry).2.1.2.2.2 rfl) (by decide)
      · rw [nestedOf, h.lookup_mergeSettings, if_neg hMarked]
        exact hCurrent.maxDelayMs
    rw [nestedOf, hRetry] at hMax
    exact hMax

end OctoberHarness.Settings
