import OctoberHarness.Schema.Validator

/-! The three passes of coercion. A budget bounds how deep the calls of a pass
nest; a pass whose calls go deeper gives nothing. -/
namespace OctoberHarness.Schema

/-! Conversions of one value. -/

def tryString : Value → Option JsString
  | .bool b => some (if b then js "true" else js "false")
  | .num n => some n.text
  | .null => some (js "null")
  | .str s => some s
  | .arr .. | .obj .. => none

def tryNumber : Value → Option JsNumber
  | .bool b => some (JsNumber.ofNat (if b then 1 else 0))
  | .num n => some n
  | .null => some (JsNumber.ofNat 0)
  | .str s =>
    match toNumber s with
    | some n => some n
    | none =>
      if toLowerCase s = js "false" then some (JsNumber.ofNat 0)
      else if toLowerCase s = js "true" then some (JsNumber.ofNat 1)
      else (bigIntOfString s).bind safeNumber
  | .arr .. | .obj .. => none

def tryBoolean : Value → Option Bool
  | .bool b => some b
  | .num n => if n = JsNumber.ofNat 0 then some false else if n = JsNumber.ofNat 1 then some true else none
  | .null => some false
  | .str s =>
    if toLowerCase s = js "false" ∨ s = js "0" then some false
    else if toLowerCase s = js "true" ∨ s = js "1" then some true
    else none
  | .arr .. | .obj .. => none

def tryNull : Value → Bool
  | .bool b => !b
  | .num n => n = JsNumber.ofNat 0
  | .null => true
  | .str s => toLowerCase s = js "undefined" ∨ toLowerCase s = js "null" ∨ s = [] ∨ s = js "0"
  | .arr .. | .obj .. => false

def convertLiteral (literal : JsonValue) (value : Value) : Value :=
  match literal with
  | .str s => if tryString value = some s then .str s else value
  | .num n => if tryNumber value = some n then .num n else value
  | .bool b => if tryBoolean value = some b then .bool b else value
  | .null | .arr _ | .obj _ => value

/-- `===`, of a literal of a schema and a value. -/
def identical : JsonValue → Value → Bool
  | .arr _, _ | .obj _, _ => false
  | literal, value => deepEqual literal value

def coercePrimitive (type : TypeName) (value : Value) : Value :=
  match type, value with
  | .number, .null | .integer, .null => .num (JsNumber.ofNat 0)
  | .number, .str s =>
    match toNumber s with
    | some n => if trim s = [] then value else .num n
    | none => value
  | .integer, .str s =>
    match toNumber s with
    | some n => if trim s ≠ [] ∧ isInteger n then .num n else value
    | none => value
  | .number, .bool b | .integer, .bool b => .num (JsNumber.ofNat (if b then 1 else 0))
  | .boolean, .null => .bool false
  | .boolean, .str s => if s = js "true" then .bool true else if s = js "false" then .bool false else value
  | .boolean, .num n =>
    if n = JsNumber.ofNat 1 then .bool true else if n = JsNumber.ofNat 0 then .bool false else value
  | .string, .null => .str []
  | .string, .num n => .str n.text
  | .string, .bool b => .str (if b then js "true" else js "false")
  | .null, .str s => if s = [] then .null else value
  | .null, .num n => if n = JsNumber.ofNat 0 then .null else value
  | .null, .bool b => if b then value else .null
  | _, _ => value

/-- The first type of a schema that changes the value. -/
def coercePrimitives (types : List TypeName) (value : Value) : Value :=
  if 1 < types.length ∧ types.any fun type => matchesType type value then value
  else
    match types.find? fun type => coercePrimitive type value ≠ value with
    | some type => coercePrimitive type value
    | none => value

/-! Walks over arrays and objects. -/

/-- What the passes keep of their calls. -/
structure Memory where
  /-- The reference of the next copy. -/
  fresh : Nat
  /-- How often a re-entry was cut short. -/
  cuts : Nat
  /-- Results of `$ref` targets, by node and value. -/
  memo : List ((Nat × Value) × Value)

/-- A pass on a node and a value. -/
abbrev Pass := Nat → Value → Memory → Option (Value × Memory)

/-- One schema after the other. -/
def each (pass : Pass) : List Nat → Value → Memory → Option (Value × Memory)
  | [], value, m => some (value, m)
  | schema :: rest, value, m => (pass schema value m).bind fun made => each pass rest made.1 made.2

/-- The parts of a container, each by its schemas. -/
def walk (pass : Pass) : List (List Nat × Value) → Memory → Option (List Value × Memory)
  | [], m => some ([], m)
  | part :: rest, m =>
    (each pass part.1 part.2 m).bind fun made =>
      (walk pass rest made.2).map fun tail => (made.1 :: tail.1, tail.2)

/-- The array itself, or a copy with other items. -/
def arrayOf (ref : Nat) (items : List Value) (made : List Value × Memory) : Value × Memory :=
  if made.1 = items then (.arr ref items, made.2)
  else (.arr made.2.fresh made.1, { made.2 with fresh := made.2.fresh + 1 })

/-- The object itself, or a copy with other properties. -/
def objectOf (ref : Nat) (fields made : List (JsString × Value)) (m : Memory) : Value × Memory :=
  if made = fields then (.obj ref fields, m) else (.obj m.fresh made, { m with fresh := m.fresh + 1 })

namespace Keywords

/-- The items of an array with the schema of each. -/
def itemParts (k : Keywords) (items : List Value) : List (List Nat × Value) :=
  items.mapIdx fun index item => ((k.itemSchemaAt index).toList, item)

/-- The properties of an object with the schemas of each. -/
def fieldParts (k : Keywords) (fields : List (JsString × Value)) : List (List Nat × Value) :=
  fields.map fun field => (k.memberSchemas field.1, field.2)

end Keywords

/-- The same keys with other values. -/
def rewrite (fields : List (JsString × Value)) (values : List Value) : List (JsString × Value) :=
  fields.zipWith (fun field value => (field.1, value)) values

def mapItems (pass : Pass) (k : Keywords) (value : Value) (m : Memory) : Option (Value × Memory) :=
  match value with
  | .arr ref items => (walk pass (k.itemParts items) m).map (arrayOf ref items)
  | _ => some (value, m)

/-- The properties of an object, each by its schemas. -/
def mapFields (pass : Pass) (k : Keywords) (value : Value) (m : Memory) : Option (Value × Memory) :=
  match value with
  | .obj ref fields =>
    (walk pass (k.fieldParts fields) m).map fun made => objectOf ref fields (rewrite fields made.1) made.2
  | _ => some (value, m)

/-! Pass 1: optional nulls. -/

/-- A schema object with a `$ref`. -/
def Graph.isRef (g : Graph) (id : Nat) : Bool :=
  match g.node id with
  | .object k => k.ref.isSome
  | .bool _ => false

/-- A `null` in an optional property whose schema rejects null. -/
def Graph.dropped (g : Graph) (k : Keywords) (field : JsString × Value) : Bool :=
  match (k.properties.getD []).lookup field.1 with
  | some property =>
    field.2 = .null && !k.required.contains field.1 && !g.isRef property && !g.check property .null
  | none => false

def dropWith (g : Graph) (pass : Pass) : Pass := fun id value m =>
  match g.node id with
  | .bool _ => some (value, m)
  | .object k =>
    match value with
    | .obj ref fields =>
      let kept := fields.filter fun field => !g.dropped k field
      (walk pass (k.fieldParts kept) m).map fun made => objectOf ref fields (rewrite kept made.1) made.2
    | _ => mapItems pass k value m

def dropOptionalNulls (g : Graph) : Nat → Pass
  | 0 => fun _ _ _ => none
  | fuel + 1 => dropWith g (dropOptionalNulls g fuel)

/-! Pass 2: conversion rules. -/

/-- What a schema object converts by: the first keyword that applies. -/
inductive Rule where
  | ref (target : Nat)
  | const (literal : JsonValue)
  | enum (members : List JsonValue)
  | union (branches : List Nat)
  | allOf (members : List Nat)
  | string
  | number
  | integer
  | boolean
  | null
  | array
  | object
  | keep

namespace Keywords

/-- The rule of `type`, or of the members where there is none. -/
def typeRule (k : Keywords) : Rule :=
  match k.type with
  | some (.one .string) => .string
  | some (.one .number) => .number
  | some (.one .integer) => .integer
  | some (.one .boolean) => .boolean
  | some (.one .null) => .null
  | some (.one .array) => .array
  | some (.one .object) => .object
  | some (.one .other) | some (.list _) => .keep
  | none =>
    if k.properties.isSome || k.patternProperties.isSome then .object
    else if k.items.isSome || k.prefixItems.isSome then .array
    else .keep

def rule (k : Keywords) : Rule :=
  match k.ref, k.const, k.enum, k.anyOf, k.oneOf, k.allOf with
  | some target, _, _, _, _, _ => .ref target
  | _, some literal, _, _, _, _ => .const literal
  | _, _, some members, _, _, _ => .enum members
  | _, _, _, some branches, _, _ => .union branches
  | _, _, _, _, some branches, _ => .union branches
  | _, _, _, _, _, some members => .allOf members
  | _, _, _, _, _, _ => k.typeRule

/-- A node declares members. -/
def declares (k : Keywords) : Bool :=
  k.properties.isSome || k.patternProperties.isSome || k.additionalProperties.isSome

end Keywords

namespace Memory

def result (m : Memory) (node : Nat) (value : Value) : Option Value :=
  m.memo.lookup (node, value)

def cut (m : Memory) : Memory :=
  { m with cuts := m.cuts + 1 }

def remember (m : Memory) (node : Nat) (value result : Value) : Memory :=
  { m with memo := ((node, value), result) :: m.memo }

end Memory

def convertEnum (g : Graph) (id : Nat) (members : List JsonValue) (value : Value) : Value :=
  if members.any fun member => identical member value then value
  else
    match members.find? fun member =>
      convertLiteral member value ≠ value ∧ g.check id (convertLiteral member value) with
    | some member => convertLiteral member value
    | none => value

def convertMembers (pass : Pass) (k : Keywords) (value : Value) (m : Memory) : Option (Value × Memory) :=
  if k.declares then mapFields pass k value m else some (value, m)

/-- The branches of a union, until the whole union accepts one's conversion. -/
def tryBranches (g : Graph) (pass : Pass) (id : Nat) (k : Keywords) (value : Value) :
    List Nat → Memory → Option (Value × Memory)
  | [], m => convertMembers pass k value m
  | branch :: rest, m =>
    ((pass branch value m).bind fun made => convertMembers pass k made.1 made.2).bind fun candidate =>
      if g.check id candidate.1 then some candidate else tryBranches g pass id k value rest candidate.2

def convertUnion (g : Graph) (pass : Pass) (id : Nat) (k : Keywords) (branches : List Nat) (value : Value) (m : Memory) :
    Option (Value × Memory) :=
  if branches.any fun branch => g.check branch value then convertMembers pass k value m
  else tryBranches g pass id k value branches m

def Graph.isObject (g : Graph) (id : Nat) : Bool :=
  match g.node id with
  | .object _ => true
  | .bool _ => false

/-- The pairs that are being converted, the innermost one first. -/
abbrev Entered := List (Nat × Value)

def reenter (nested : Entered → Pass) (entered : Entered) (memoize : Bool) : Pass := fun node value m =>
  if (node, value) ∈ entered then some (value, m.cut)
  else
    match if memoize then m.result node value else none with
    | some result => some (result, m)
    | none =>
      (nested ((node, value) :: entered) node value m).map fun made =>
        if memoize && made.2.cuts = m.cuts then (made.1, made.2.remember node value made.1) else made

def convertArray (g : Graph) (nested : Entered → Pass) (entered : Entered) (k : Keywords) (value : Value) (m : Memory) :
    Option (Value × Memory) :=
  if k.prefixItems.isSome || value.isArray then mapItems (nested entered) k value m
  else
    -- A single value, converted by the item schema with the same value.
    let inner :=
      match k.items with
      | some item => if g.isObject item then reenter nested entered false item value m else some (value, m)
      | none => some (value, m)
    inner.map fun made => (.arr made.2.fresh [made.1], { made.2 with fresh := made.2.fresh + 1 })

/-- `convertNode`, and the reference of `convert`. -/
def convertRule (g : Graph) (nested : Entered → Pass) (entered : Entered) (id : Nat) (k : Keywords) (value : Value)
    (m : Memory) : Option (Value × Memory) :=
  match k.rule with
  | .ref target => if g.isObject target then reenter nested entered true target value m else some (value, m)
  | .const literal => some (convertLiteral literal value, m)
  | .enum members => some (convertEnum g id members value, m)
  | .union branches => convertUnion g (nested entered) id k branches value m
  | .allOf members =>
    (each (nested entered) members value m).bind fun made => convertMembers (nested entered) k made.1 made.2
  | .string => some ((tryString value).elim value .str, m)
  | .number => some ((tryNumber value).elim value .num, m)
  | .integer => some ((tryNumber value).elim value fun n => .num (trunc n), m)
  | .boolean => some ((tryBoolean value).elim value .bool, m)
  | .null => some (if tryNull value then .null else value, m)
  | .array => convertArray g nested entered k value m
  | .object => mapFields (nested entered) k value m
  | .keep => some (value, m)

def convertWith (g : Graph) (nested : Entered → Pass) (entered : Entered) : Pass := fun id value m =>
  match g.node id with
  | .bool _ => some (value, m)
  | .object k => convertRule g nested entered id k value m

def convert (g : Graph) : Nat → Entered → Pass
  | 0, _ => fun _ _ _ => none
  | fuel + 1, entered => convertWith g (convert g fuel) entered

/-! Pass 3: primitive coercion by type. -/

def coerceBranches (g : Graph) (pass : Pass) (value : Value) : List Nat → Memory → Option (Value × Memory)
  | [], m => some (value, m)
  | branch :: rest, m =>
    (pass branch value m).bind fun coerced =>
      if g.check branch coerced.1 then some coerced else coerceBranches g pass value rest coerced.2

def coerceUnion (g : Graph) (pass : Pass) (branches : Option (List Nat)) (value : Value) (m : Memory) :
    Option (Value × Memory) :=
  match branches with
  | some branches =>
    if branches.any fun branch => g.check branch value then some (value, m)
    else coerceBranches g pass value branches m
  | none => some (value, m)

/-- `coerceProperties` and `coerceItems`, by the types of the schema. -/
def coerceContainer (pass : Pass) (k : Keywords) (value : Value) (m : Memory) : Option (Value × Memory) :=
  match value with
  | .obj .. => if (typesOf k.type).contains .object then mapFields pass k value m else some (value, m)
  | .arr .. => if (typesOf k.type).contains .array then mapItems pass k value m else some (value, m)
  | _ => some (value, m)

def coerceWith (g : Graph) (pass : Pass) : Pass := fun id value m =>
  match g.node id with
  | .bool _ => some (value, m)
  | .object k =>
    (each pass (k.allOf.getD []) value m).bind fun all =>
      (coerceUnion g pass k.anyOf all.1 all.2).bind fun any =>
        (coerceUnion g pass k.oneOf any.1 any.2).bind fun one =>
          coerceContainer pass k (coercePrimitives (typesOf k.type) one.1) one.2

def coerceTypes (g : Graph) : Nat → Pass
  | 0 => fun _ _ _ => none
  | fuel + 1 => coerceWith g (coerceTypes g fuel)

def convertOnly (g : Graph) (fuel : Nat) : Pass := fun root value m =>
  (convert g fuel [] root value m).map fun made => (made.1, { made.2 with cuts := 0, memo := [] })

def coerce (g : Graph) (root : Nat) (fuel : Nat) (value : Value) : Option Value :=
  (dropOptionalNulls g fuel root value ⟨value.bound, 0, []⟩).bind fun first =>
    (convertOnly g fuel root first.1 first.2).bind fun second =>
      (coerceTypes g fuel root second.1 second.2).map Prod.fst

inductive ParseResult where
  | ok (value : Value)
  /-- With the errors of the coerced value. -/
  | errors (value : Value)

def parse (g : Graph) (root : Nat) (fuel : Nat) (value : Value) : Option ParseResult :=
  (coerce g root fuel value).map fun coerced => if g.check root coerced then .ok coerced else .errors coerced

end OctoberHarness.Schema
