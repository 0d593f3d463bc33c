import OctoberHarness.Schema.Coerce

/-! Where conversion puts an array around a value, and that nothing behind it
takes the array off again. -/
namespace OctoberHarness.Schema

open List

/-- An array stands where another value was. -/
inductive Wrapped : Value → Value → Prop where
  | single {old : Value} (ref : Nat) (items : List Value) (hOld : old.isArray = false) : Wrapped old (.arr ref items)
  | item {ref other i : Nat} {items made : List Value} {x y : Value} (hOld : items[i]? = some x)
      (hNew : made[i]? = some y) (h : Wrapped x y) : Wrapped (.arr ref items) (.arr other made)
  | field {ref other i : Nat} {fields made : List (JsString × Value)} {x y : JsString × Value}
      (hOld : fields[i]? = some x) (hNew : made[i]? = some y) (h : Wrapped x.2 y.2) :
      Wrapped (.obj ref fields) (.obj other made)

namespace Value

theorem contentItems_eq (items : List Value) : content.contentItems items = items.map content := by
  induction items with
  | nil => rfl
  | cons item rest ih => rw [content.contentItems, ih, map_cons]

theorem contentFields_eq (fields : List (JsString × Value)) :
    content.contentFields fields = fields.map fun field => (field.1, content field.2) := by
  induction fields with
  | nil => rfl
  | cons field rest ih => rw [content.contentFields, ih, map_cons]

end Value

theorem Wrapped.content_ne {old new : Value} (h : Wrapped old new) : new.content ≠ old.content := by
  induction h with
  | @single old ref items hOld =>
    intro hSame
    cases old with
    | arr => cases hOld
    | null | bool | num | str | obj => cases hSame
  | @item ref other i items made x y hOld hNew h ih =>
    intro hSame
    have hItems := JsonValue.arr.inj hSame
    rw [Value.contentItems_eq, Value.contentItems_eq] at hItems
    have hAt := congrArg (fun list => list[i]?) hItems
    simp only [List.getElem?_map, hOld, hNew, Option.map_some, Option.some.injEq] at hAt
    exact ih hAt
  | @field ref other i fields made x y hOld hNew h ih =>
    intro hSame
    have hFields := JsonValue.obj.inj hSame
    rw [Value.contentFields_eq, Value.contentFields_eq] at hFields
    have hAt := congrArg (fun list => list[i]?) hFields
    simp only [List.getElem?_map, hOld, hNew, Option.map_some, Option.some.injEq, Prod.mk.injEq] at hAt
    exact ih hAt.2

/-- Every array that stands in a value still stands in the other one. -/
def Keeps (value other : Value) : Prop :=
  ∀ old, Wrapped old value → Wrapped old other

namespace Keeps

variable {value other third : Value}

theorem refl (value : Value) : Keeps value value :=
  fun _ h => h

theorem trans (hFirst : Keeps value other) (hSecond : Keeps other third) : Keeps value third :=
  fun old h => hSecond old (hFirst old h)

theorem of_primitive (hArray : value.isArray = false) (hObject : ∀ ref fields, value ≠ .obj ref fields) :
    Keeps value other := by
  intro old h
  cases h with
  | single => cases hArray
  | item => cases hArray
  | field => exact absurd rfl (hObject _ _)

theorem wrap (ref : Nat) (items : List Value) (hSingle : value.isArray = false) : Keeps value (.arr ref items) := by
  intro old h
  cases h with
  | single => cases hSingle
  | item => cases hSingle
  | field => exact .single ref items rfl

theorem arr {ref new : Nat} {items made : List Value} (h : List.Forall₂ Keeps items made) :
    Keeps (.arr ref items) (.arr new made) := by
  intro old hOld
  cases hOld with
  | single _ _ hArray => exact .single new made hArray
  | @item _ _ i xs _ x y hx hy hWrapped =>
    obtain ⟨hLength, hGet⟩ := List.getElem?_eq_some_iff.mp hy
    have hNew : i < made.length := h.length_eq ▸ hLength
    have hKeeps := h.get hLength hNew
    simp only [get_eq_getElem, hGet] at hKeeps
    exact .item hx (List.getElem?_eq_getElem hNew) (hKeeps x hWrapped)

theorem obj {ref new : Nat} {fields made : List (JsString × Value)}
    (h : List.Forall₂ (fun field after => Keeps field.2 after.2) fields made) :
    Keeps (.obj ref fields) (.obj new made) := by
  intro old hOld
  cases hOld with
  | @field _ _ i fs _ x y hx hy hWrapped =>
    obtain ⟨hLength, hGet⟩ := List.getElem?_eq_some_iff.mp hy
    have hNew : i < made.length := h.length_eq ▸ hLength
    have hKeeps := h.get hLength hNew
    simp only [get_eq_getElem, hGet] at hKeeps
    exact .field hx (List.getElem?_eq_getElem hNew) (hKeeps x.2 hWrapped)

end Keeps

namespace Rule

/-- The rules that go on to the members of an object. -/
def members : Rule → Bool
  | .union _ | .allOf _ | .object => true
  | _ => false

end Rule

/-- Conversion of a value comes to a schema with `items` and no tuple where the
value there is no array. -/
inductive Wraps (g : Graph) : Nat → Value → Prop where
  | ref {id target : Nat} {k : Keywords} {value : Value} (hNode : g.node id = .object k) (hRule : k.rule = .ref target)
      (h : Wraps g target value) : Wraps g id value
  | allOf {id member : Nat} {k : Keywords} {members : List Nat} {value : Value} (hNode : g.node id = .object k)
      (hRule : k.rule = .allOf members) (hMember : member ∈ members) (h : Wraps g member value) : Wraps g id value
  | field {id ref schema : Nat} {k : Keywords} {fields : List (JsString × Value)} {field : JsString × Value}
      (hNode : g.node id = .object k) (hRule : k.rule.members = true) (hField : field ∈ fields)
      (hSchema : schema ∈ k.memberSchemas field.1) (h : Wraps g schema field.2) : Wraps g id (.obj ref fields)
  | item {id ref schema i : Nat} {k : Keywords} {items : List Value} {item : Value} (hNode : g.node id = .object k)
      (hRule : k.rule = .array) (hItem : items[i]? = some item) (hSchema : schema ∈ k.itemSchemaAt i)
      (h : Wraps g schema item) : Wraps g id (.arr ref items)
  | single {id : Nat} {k : Keywords} {value : Value} (hNode : g.node id = .object k) (hRule : k.rule = .array)
      (hTuple : k.prefixItems = none) (hSingle : value.isArray = false) : Wraps g id value

end OctoberHarness.Schema
