import OctoberHarness.Json.Value

/-! The JSON values a JavaScript object can hold. -/
namespace OctoberHarness

namespace JsonValue

/-- Object keys are distinct and in own-property order, at every depth: what a
JavaScript object can hold. -/
def Strict : JsonValue → Prop
  | .arr items => strictItems items
  | .obj fields => OwnKeys (fields.map Prod.fst) ∧ strictFields fields
  | _ => True
where
  strictItems : List JsonValue → Prop
    | [] => True
    | x :: xs => Strict x ∧ strictItems xs
  strictFields : List (JsString × JsonValue) → Prop
    | [] => True
    | f :: rest => Strict f.2 ∧ strictFields rest

theorem strict_arr (items : List JsonValue) : Strict (.arr items) ↔ ∀ x ∈ items, Strict x := by
  rw [Strict]
  induction items with
  | nil => simp [Strict.strictItems]
  | cons x xs ih => simp [Strict.strictItems, ih]

theorem strict_obj (fields : Fields) :
    Strict (.obj fields) ↔ OwnKeys (fields.map Prod.fst) ∧ ∀ f ∈ fields, Strict f.2 := by
  have hFields : ∀ rest : Fields, Strict.strictFields rest ↔ ∀ f ∈ rest, Strict f.2 := by
    intro rest
    induction rest with
    | nil => simp [Strict.strictFields]
    | cons f rest ih => simp [Strict.strictFields, ih]
  rw [Strict, hFields]

end JsonValue

def StrictJson := { value : JsonValue // value.Strict }

end OctoberHarness
