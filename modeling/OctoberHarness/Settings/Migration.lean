import OctoberHarness.Json.Number

/-! Settings as the manager reads them from a file: the own properties of a
JSON value, brought to the current field names. -/
namespace OctoberHarness.Settings

/-- The own properties that `{ ...value }` copies. -/
def spread : JsonValue → Fields
  | .obj fields => fields
  | .arr items => items.zipIdx.map fun item => (decimalText item.2, item.1)
  | .str s => s.zipIdx.map fun unit => (decimalText unit.2, .str [unit.1])
  | _ => []

/-- `object[key] = value`, as `JSON.stringify` then shows it: a property set to
`undefined` is left out, and a new `__proto__` makes no property. -/
def assign (fields : Fields) (key : JsString) (value : Option JsonValue) : Fields :=
  if key = js "__proto__" ∧ fields.hasOwn key = false then fields
  else
    match value with
    | some value => fields.define key value
    | none => fields.delete key

theorem lookup_assign (fields : Fields) {key : JsString} (value : Option JsonValue) (other : JsString)
    (hKey : key ≠ js "__proto__") :
    (assign fields key value).lookup other = if other = key then value else fields.lookup other := by
  unfold assign
  rw [if_neg (fun h => hKey h.1)]
  cases value with
  | none => rw [Fields.lookup_delete]
  | some value => rw [Fields.lookup_define]

def migrateQueueMode (settings : Fields) : Fields :=
  match settings.lookup (js "queueMode"), settings.lookup (js "steeringMode") with
  | some mode, none => (settings.define (js "steeringMode") mode).delete (js "queueMode")
  | _, _ => settings

/-- The websockets flag became the transport. -/
def migrateWebsockets (settings : Fields) : Fields :=
  match settings.lookup (js "transport"), settings.lookup (js "websockets") with
  | none, some (.bool websockets) =>
    (settings.define (js "transport") (.str (if websockets then js "websocket" else js "sse"))).delete
      (js "websockets")
  | _, _ => settings

/-- The flag of an old skills object moves to a field of its own. -/
def moveSkillCommands (skills settings : Fields) : Fields :=
  match skills.lookup (js "enableSkillCommands"), settings.lookup (js "enableSkillCommands") with
  | some enabled, none => settings.define (js "enableSkillCommands") enabled
  | _, _ => settings

/-- An old skills object became the list of its directories. -/
def migrateSkills (settings : Fields) : Fields :=
  match settings.lookup (js "skills") with
  | some (.obj skills) =>
    match skills.lookup (js "customDirectories") with
    | some (.arr (first :: rest)) =>
      (moveSkillCommands skills settings).define (js "skills") (.arr (first :: rest))
    | _ => (moveSkillCommands skills settings).delete (js "skills")
  | _ => settings

/-- `typeof retry.provider === "object" && retry.provider !== null`, as its
properties. -/
def providerSettings (retry : Fields) : Fields :=
  match retry.lookup (js "provider") with
  | some provider => if provider.isContainer then spread provider else []
  | none => []

/-- The delay bound of an old retry object moves to its provider. -/
def moveMaxDelay (retry : Fields) : Fields :=
  match retry.lookup (js "maxDelayMs"), (providerSettings retry).lookup (js "maxRetryDelayMs") with
  | some (.num delay), none | some (.num delay), some .null =>
    retry.define (js "provider") (.obj ((providerSettings retry).define (js "maxRetryDelayMs") (.num delay)))
  | _, _ => retry

def migrateRetry (settings : Fields) : Fields :=
  match settings.lookup (js "retry") with
  | some (.obj retry) => settings.define (js "retry") (.obj ((moveMaxDelay retry).delete (js "maxDelayMs")))
  | _ => settings

def migrateSettings (settings : Fields) : Fields :=
  migrateRetry (migrateSkills (migrateWebsockets (migrateQueueMode settings)))

/-- What a settings file holds: nothing, text that does not parse, or JSON. -/
inductive Content where
  | empty
  | malformed
  | json (value : JsonValue)
deriving Repr

/-- The settings `persistScopedSettings` starts from; `none` where parsing or
migration throws. -/
def Content.read : Content → Option Fields
  | .empty => some []
  | .malformed => none
  | .json value => if value.isContainer then some (migrateSettings (spread value)) else none

/-- Settings that migration leaves as they are. -/
structure Migrated (settings : Fields) : Prop where
  queueMode : settings.lookup (js "steeringMode") = none → settings.lookup (js "queueMode") = none
  websockets : settings.lookup (js "transport") = none →
    ∀ flag, settings.lookup (js "websockets") ≠ some (.bool flag)
  skills : ∀ skills, settings.lookup (js "skills") ≠ some (.obj skills)
  retry : ∀ retry, settings.lookup (js "retry") = some (.obj retry) → retry.lookup (js "maxDelayMs") = none

/-! Each migration changes its own fields only. -/

variable {field : JsString}

variable (settings : Fields)

theorem lookup_migrateWebsockets (hWebsockets : field ≠ js "websockets") (hTransport : field ≠ js "transport") :
    (migrateWebsockets settings).lookup field = settings.lookup field := by
  unfold migrateWebsockets
  split
  · rw [Fields.lookup_delete, if_neg hWebsockets, Fields.lookup_define, if_neg hTransport]
  · rfl

theorem lookup_moveSkillCommands (skills settings : Fields) (hCommands : field ≠ js "enableSkillCommands") :
    (moveSkillCommands skills settings).lookup field = settings.lookup field := by
  unfold moveSkillCommands
  split
  · rw [Fields.lookup_define, if_neg hCommands]
  · rfl

theorem lookup_migrateSkills (hSkills : field ≠ js "skills") (hCommands : field ≠ js "enableSkillCommands") :
    (migrateSkills settings).lookup field = settings.lookup field := by
  unfold migrateSkills
  split
  · split
    · rw [Fields.lookup_define, if_neg hSkills, lookup_moveSkillCommands _ _ hCommands]
    · rw [Fields.lookup_delete, if_neg hSkills, lookup_moveSkillCommands _ _ hCommands]
  · rfl

theorem lookup_migrateRetry (hRetry : field ≠ js "retry") :
    (migrateRetry settings).lookup field = settings.lookup field := by
  unfold migrateRetry
  split
  · rw [Fields.lookup_define, if_neg hRetry]
  · rfl

/-! What each migration removes. -/

theorem migrateQueueMode_gone (h : (migrateQueueMode settings).lookup (js "steeringMode") = none) :
    (migrateQueueMode settings).lookup (js "queueMode") = none := by
  unfold migrateQueueMode at h ⊢
  split
  · rw [Fields.lookup_delete, if_pos rfl]
  next hOld =>
    split at h
    · rw [Fields.lookup_delete, if_neg (by decide), Fields.lookup_define, if_pos rfl] at h
      exact nomatch h
    · cases hQueue : settings.lookup (js "queueMode") with
      | none => rfl
      | some mode => exact absurd h (fun hSteering => hOld mode hQueue hSteering)

theorem migrateWebsockets_gone (h : (migrateWebsockets settings).lookup (js "transport") = none) (flag : Bool) :
    (migrateWebsockets settings).lookup (js "websockets") ≠ some (.bool flag) := by
  unfold migrateWebsockets at h ⊢
  split
  · rw [Fields.lookup_delete, if_pos rfl]
    simp
  next hOld =>
    split at h
    · rw [Fields.lookup_delete, if_neg (by decide), Fields.lookup_define, if_pos rfl] at h
      exact nomatch h
    · exact fun hFlag => hOld flag h hFlag

theorem migrateSkills_gone (skills : Fields) :
    (migrateSkills settings).lookup (js "skills") ≠ some (.obj skills) := by
  unfold migrateSkills
  split
  · split
    · rw [Fields.lookup_define, if_pos rfl]
      simp
    · rw [Fields.lookup_delete, if_pos rfl]
      simp
  next hOld => exact fun h => hOld skills h

theorem migrateRetry_gone (retry : Fields) (h : (migrateRetry settings).lookup (js "retry") = some (.obj retry)) :
    retry.lookup (js "maxDelayMs") = none := by
  unfold migrateRetry at h
  split at h
  · rw [Fields.lookup_define, if_pos rfl, Option.some.injEq, JsonValue.obj.injEq] at h
    rw [← h, Fields.lookup_delete, if_pos rfl]
  next hOld => exact absurd h (hOld retry)

theorem migrated_migrateSettings : Migrated (migrateSettings settings) := by
  have hSteering : (migrateSettings settings).lookup (js "steeringMode") =
      (migrateQueueMode settings).lookup (js "steeringMode") := by
    rw [migrateSettings, lookup_migrateRetry _ (by decide), lookup_migrateSkills _ (by decide) (by decide),
      lookup_migrateWebsockets _ (by decide) (by decide)]
  have hQueue : (migrateSettings settings).lookup (js "queueMode") =
      (migrateQueueMode settings).lookup (js "queueMode") := by
    rw [migrateSettings, lookup_migrateRetry _ (by decide), lookup_migrateSkills _ (by decide) (by decide),
      lookup_migrateWebsockets _ (by decide) (by decide)]
  have hTransport : (migrateSettings settings).lookup (js "transport") =
      (migrateWebsockets (migrateQueueMode settings)).lookup (js "transport") := by
    rw [migrateSettings, lookup_migrateRetry _ (by decide), lookup_migrateSkills _ (by decide) (by decide)]
  have hWebsockets : (migrateSettings settings).lookup (js "websockets") =
      (migrateWebsockets (migrateQueueMode settings)).lookup (js "websockets") := by
    rw [migrateSettings, lookup_migrateRetry _ (by decide), lookup_migrateSkills _ (by decide) (by decide)]
  constructor
  case queueMode =>
    rw [hSteering, hQueue]
    exact migrateQueueMode_gone settings
  case websockets =>
    rw [hTransport, hWebsockets]
    exact migrateWebsockets_gone _
  case skills =>
    intro skills
    rw [migrateSettings, lookup_migrateRetry _ (by decide)]
    exact migrateSkills_gone _ skills
  case retry => exact migrateRetry_gone _

theorem migrateSettings_eq {settings : Fields} (h : Migrated settings) : migrateSettings settings = settings := by
  have hQueueMode : migrateQueueMode settings = settings := by
    unfold migrateQueueMode
    split
    next mode hQueue hSteering =>
      rw [h.queueMode hSteering] at hQueue
      exact nomatch hQueue
    · rfl
  have hWebsockets : migrateWebsockets settings = settings := by
    unfold migrateWebsockets
    split
    next flag hTransport hFlag => exact absurd hFlag (h.websockets hTransport flag)
    · rfl
  have hSkills : migrateSkills settings = settings := by
    unfold migrateSkills
    split
    next skills hOld => exact absurd hOld (h.skills skills)
    · rfl
  rw [migrateSettings, hQueueMode, hWebsockets, hSkills]
  unfold migrateRetry
  split
  next retry hRetry =>
    have hNone := h.retry retry hRetry
    have hMove : moveMaxDelay retry = retry := by simp [moveMaxDelay, hNone]
    rw [hMove, Fields.delete, OrderedMap.erase_of_lookup_eq_none hNone]
    exact Fields.define_lookup_self hRetry
  · rfl

end OctoberHarness.Settings
