import OctoberHarness.Schema.Numerals

/-! Schemas as the graph of their nodes, the values they are for, and what a
compiled check says of a value. -/
namespace OctoberHarness.Schema

open List

/-- A JSON value in memory: arrays and objects stand under their references. -/
inductive Value where
  | null
  | bool (b : Bool)
  | num (n : JsNumber)
  | str (s : JsString)
  | arr (ref : Nat) (items : List Value)
  | obj (ref : Nat) (fields : List (JsString × Value))

namespace Value

@[elab_as_elim]
theorem induction {motive : Value → Prop} (null : motive .null) (bool : ∀ b, motive (.bool b)) (num : ∀ n, motive (.num n))
    (str : ∀ s, motive (.str s)) (arr : ∀ ref items, (∀ x ∈ items, motive x) → motive (.arr ref items))
    (obj : ∀ ref fields, (∀ f ∈ fields, motive f.2) → motive (.obj ref fields)) (value : Value) : motive value := by
  refine @Value.rec motive (fun items => ∀ x ∈ items, motive x) (fun fields => ∀ f ∈ fields, motive f.2)
    (fun f => motive f.2) null bool num str arr obj ?_ ?_ ?_ ?_ ?_ value
  · simp
  · intro head tail hHead hTail x hx
    rcases List.mem_cons.mp hx with rfl | hx
    · exact hHead
    · exact hTail x hx
  · simp
  · intro head tail hHead hTail f hf
    rcases List.mem_cons.mp hf with rfl | hf
    · exact hHead
    · exact hTail f hf
  · exact fun _ _ h => h

/-- One value, references included. -/
def same : Value → Value → Bool
  | .null, .null => true
  | .bool a, .bool b => a == b
  | .num a, .num b => a == b
  | .str a, .str b => a == b
  | .arr a xs, .arr b ys => a == b && sameItems xs ys
  | .obj a xs, .obj b ys => a == b && sameFields xs ys
  | _, _ => false
where
  sameItems : List Value → List Value → Bool
    | [], [] => true
    | x :: xs, y :: ys => same x y && sameItems xs ys
    | _, _ => false
  sameFields : List (JsString × Value) → List (JsString × Value) → Bool
    | [], [] => true
    | x :: xs, y :: ys => x.1 == y.1 && same x.2 y.2 && sameFields xs ys
    | _, _ => false

theorem sameItems_iff (xs ys : List Value) (ih : ∀ x ∈ xs, ∀ y, same x y = true ↔ x = y) :
    same.sameItems xs ys = true ↔ xs = ys := by
  induction xs generalizing ys with
  | nil => cases ys <;> simp [same.sameItems]
  | cons x xs hTail =>
    cases ys with
    | nil => simp [same.sameItems]
    | cons y ys =>
      rw [same.sameItems, Bool.and_eq_true, ih x (by simp) y, hTail ys (fun z hz => ih z (by simp [hz])),
        cons.injEq]

theorem sameFields_iff (xs ys : List (JsString × Value)) (ih : ∀ x ∈ xs, ∀ y, same x.2 y = true ↔ x.2 = y) :
    same.sameFields xs ys = true ↔ xs = ys := by
  induction xs generalizing ys with
  | nil => cases ys <;> simp [same.sameFields]
  | cons x xs hTail =>
    cases ys with
    | nil => simp [same.sameFields]
    | cons y ys =>
      rw [same.sameFields, Bool.and_eq_true, Bool.and_eq_true, ih x (by simp) y.2,
        hTail ys (fun z hz => ih z (by simp [hz])), beq_iff_eq, cons.injEq, Prod.ext_iff]

theorem same_iff (x y : Value) : same x y = true ↔ x = y := by
  induction x using Value.induction generalizing y with
  | null => cases y <;> simp [same]
  | bool b => cases y <;> simp [same]
  | num n => cases y <;> simp [same]
  | str s => cases y <;> simp [same]
  | arr ref items ih => cases y <;> simp [same, sameItems_iff items _ ih]
  | obj ref fields ih => cases y <;> simp [same, sameFields_iff fields _ ih]

/-- `Object.is`: a reference stands for one value. -/
instance : DecidableEq Value := fun x y =>
  decidable_of_iff (same x y = true) (same_iff x y)

/-- Above every reference in a value. -/
def bound : Value → Nat
  | .arr ref items => max (ref + 1) (boundItems items)
  | .obj ref fields => max (ref + 1) (boundFields fields)
  | _ => 0
where
  boundItems : List Value → Nat
    | [] => 0
    | item :: rest => max (bound item) (boundItems rest)
  boundFields : List (JsString × Value) → Nat
    | [] => 0
    | field :: rest => max (bound field.2) (boundFields rest)

/-- The value without its references. -/
def content : Value → JsonValue
  | .null => .null
  | .bool b => .bool b
  | .num n => .num n
  | .str s => .str s
  | .arr _ items => .arr (contentItems items)
  | .obj _ fields => .obj (contentFields fields)
where
  contentItems : List Value → List JsonValue
    | [] => []
    | item :: rest => content item :: contentItems rest
  contentFields : List (JsString × Value) → List (JsString × JsonValue)
    | [] => []
    | field :: rest => (field.1, content field.2) :: contentFields rest

def isArray : Value → Bool
  | .arr .. => true
  | _ => false

end Value

/-- `deepEqual`, of a literal of a schema and a value. -/
def deepEqual : JsonValue → Value → Bool
  | .null, .null => true
  | .bool a, .bool b => a = b
  | .num a, .num b => a = b
  | .str a, .str b => a = b
  | .arr xs, .arr _ ys => equalItems xs ys
  | .obj xs, .obj _ ys => xs.length = ys.length && equalFields xs ys
  | _, _ => false
where
  equalItems : List JsonValue → List Value → Bool
    | [], [] => true
    | x :: xs, y :: ys => deepEqual x y && equalItems xs ys
    | _, _ => false
  equalFields : List (JsString × JsonValue) → List (JsString × Value) → Bool
    | [], _ => true
    | x :: xs, ys => (match ys.lookup x.1 with
      | some y => deepEqual x.2 y
      | none => false) && equalFields xs ys

/-- The names of `TYPE_CHECKS`, and the ones it lacks. A value that came as JSON
is no `bytes`. -/
inductive TypeName where
  | string
  | number
  | integer
  | boolean
  | null
  | array
  | object
  | other
deriving DecidableEq

/-- The checks of `TYPE_CHECKS`; `matchesType` is the same on JSON values. -/
def matchesType : TypeName → Value → Bool
  | .string, .str _ => true
  | .number, .num _ => true
  | .integer, .num n => isInteger n
  | .boolean, .bool _ => true
  | .null, .null => true
  | .array, .arr .. => true
  | .object, .obj .. => true
  | _, _ => false

/-- The value of `type`. -/
inductive TypeKeyword where
  | one (name : TypeName)
  | list (names : List TypeName)

def typesOf : Option TypeKeyword → List TypeName
  | none => []
  | some (.one name) => [name]
  | some (.list names) => names

/-- The keywords of a schema object that coercion reads. Schemas stand for the
nodes they are, a reference for the node it resolves to. -/
structure Keywords where
  ref : Option Nat
  const : Option JsonValue
  enum : Option (List JsonValue)
  anyOf : Option (List Nat)
  oneOf : Option (List Nat)
  allOf : Option (List Nat)
  type : Option TypeKeyword
  properties : Option (List (JsString × Nat))
  /-- Each with the test of its regular expression. -/
  patternProperties : Option (List ((JsString → Bool) × Nat))
  additionalProperties : Option Nat
  required : List JsString
  prefixItems : Option (List Nat)
  items : Option Nat
  /-- What the other keywords say of a value. -/
  others : Value → Bool

namespace Keywords

/-- `{}`. -/
def empty : Keywords :=
  ⟨none, none, none, none, none, none, none, none, none, none, [], none, none, fun _ => true⟩

/-- The schemas a node applies to the value it is for. -/
def inPlace (k : Keywords) : List Nat :=
  k.ref.toList ++ k.allOf.getD [] ++ k.anyOf.getD [] ++ k.oneOf.getD []

/-- The schemas of a member: `properties`, then `patternProperties`, and
`additionalProperties` for a key that neither names. -/
def memberSchemas (k : Keywords) (key : JsString) : List Nat :=
  let declared := ((k.properties.getD []).lookup key).toList
  let patterns := ((k.patternProperties.getD []).filter fun pattern => pattern.1 key).map Prod.snd
  if declared ++ patterns = [] then k.additionalProperties.toList else declared ++ patterns

def itemSchemaAt (k : Keywords) (index : Nat) : Option Nat :=
  match k.prefixItems with
  | some tuple => if index < tuple.length then tuple[index]? else k.items
  | none => k.items

end Keywords

inductive Node where
  /-- `true` or `false`. -/
  | bool (accepts : Bool)
  | object (keywords : Keywords)

/-- A schema with everything it refers to, without a cycle of schemas that
apply to one value. -/
structure Graph where
  node : Nat → Node
  rank : Nat → Nat
  descends : ∀ {id : Nat} {k : Keywords}, node id = .object k → ∀ other ∈ k.inPlace, rank other < rank id

theorem sizeOf_item {ref : Nat} {items : List Value} {item : Value} (hItem : item ∈ items) :
    sizeOf item < sizeOf (Value.arr ref items) := by
  have hLt := sizeOf_lt_of_mem hItem
  simp only [Value.arr.sizeOf_spec]
  omega

theorem sizeOf_field {ref : Nat} {fields : List (JsString × Value)} {field : JsString × Value} (hField : field ∈ fields) :
    sizeOf field.2 < sizeOf (Value.obj ref fields) := by
  have hLt := sizeOf_lt_of_mem hField
  have hPair : sizeOf field.2 < sizeOf field := by
    rcases field with ⟨key, value⟩
    simp only [Prod.mk.sizeOf_spec]
    omega
  simp only [Value.obj.sizeOf_spec]
  omega

namespace Keywords

/-- The keywords that look at the value alone. -/
def checkValue (k : Keywords) (value : Value) : Bool :=
  k.others value && (k.type.isNone || (typesOf k.type).any fun name => matchesType name value) &&
    k.enum.all (fun members => members.any fun member => deepEqual member value) &&
      k.const.all fun literal => deepEqual literal value

/-- `required`. -/
def checkRequired (k : Keywords) : Value → Bool
  | .obj _ fields => k.required.all fun key => (fields.lookup key).isSome
  | _ => true

end Keywords

namespace Graph

variable {g : Graph} {id : Nat} {k : Keywords}

section

variable (hNode : g.node id = .object k)

include hNode

theorem descends_ref {target : Nat} (hTarget : target ∈ k.ref.toList) :
    g.rank target < g.rank id := g.descends hNode target (by simp [Keywords.inPlace, hTarget])

theorem descends_allOf {member : Nat} (hMember : member ∈ k.allOf.getD []) :
    g.rank member < g.rank id := g.descends hNode member (by simp [Keywords.inPlace, hMember])

theorem descends_anyOf {branch : Nat} (hBranch : branch ∈ k.anyOf.getD []) :
    g.rank branch < g.rank id := g.descends hNode branch (by simp [Keywords.inPlace, hBranch])

theorem descends_oneOf {branch : Nat} (hBranch : branch ∈ k.oneOf.getD []) :
    g.rank branch < g.rank id := g.descends hNode branch (by simp [Keywords.inPlace, hBranch])

end

@[elab_as_elim]
theorem induction {motive : Nat → Value → Prop} (g : Graph)
    (step : ∀ id value, (∀ other, g.rank other < g.rank id → motive other value) →
      (∀ other part, sizeOf part < sizeOf value → motive other part) → motive id value)
    (id : Nat) (value : Value) : motive id value := by
  induction hSize : sizeOf value using Nat.strong_induction_on generalizing id value with
  | _ size ihSize =>
    induction hRank : g.rank id using Nat.strong_induction_on generalizing id with
    | _ rank ihRank =>
      apply step
      · exact fun other hOther => ihRank (g.rank other) (hRank ▸ hOther) other rfl
      · exact fun other part hPart => ihSize (sizeOf part) (hSize ▸ hPart) other part rfl

/-- The compiled check of a node. -/
def check (g : Graph) (id : Nat) (value : Value) : Bool :=
  match _hNode : g.node id with
  | .bool accepts => accepts
  | .object k =>
    k.checkValue value && k.checkRequired value &&
      (k.ref.toList.attach.all fun target => check g target.1 value) &&
      ((k.allOf.getD []).attach.all fun member => check g member.1 value) &&
      (k.anyOf.isNone || (k.anyOf.getD []).attach.any fun branch => check g branch.1 value) &&
      (k.oneOf.isNone || ((k.oneOf.getD []).attach.filter fun branch => check g branch.1 value).length = 1) &&
      match value with
      | .arr _ items =>
        items.attach.zipIdx.all fun item => (k.itemSchemaAt item.2).toList.all fun schema => check g schema item.1.1
      | .obj _ fields =>
        fields.attach.all fun field => (k.memberSchemas field.1.1).all fun schema => check g schema field.1.2
      | _ => true
termination_by (sizeOf value, g.rank id)
decreasing_by
  · exact Prod.Lex.right _ (descends_ref _hNode target.2)
  · exact Prod.Lex.right _ (descends_allOf _hNode member.2)
  · exact Prod.Lex.right _ (descends_anyOf _hNode branch.2)
  · exact Prod.Lex.right _ (descends_oneOf _hNode branch.2)
  · exact Prod.Lex.left _ _ (sizeOf_item item.1.property)
  · exact Prod.Lex.left _ _ (sizeOf_field field.property)

/-- What an accepted value meets. -/
structure Accepts (g : Graph) (k : Keywords) (value : Value) : Prop where
  alone : k.checkValue value = true
  required : k.checkRequired value = true
  ref : ∀ target ∈ k.ref, g.check target value = true
  allOf : ∀ member ∈ k.allOf.getD [], g.check member value = true
  anyOf : ∀ branches ∈ k.anyOf, ∃ branch ∈ branches, g.check branch value = true
  oneOf : ∀ branches ∈ k.oneOf, ∃ branch ∈ branches, g.check branch value = true
  items : ∀ ref items, value = .arr ref items → ∀ (i : Nat) (item : Value), items[i]? = some item →
    ∀ schema ∈ k.itemSchemaAt i, g.check schema item = true
  fields : ∀ ref fields, value = .obj ref fields → ∀ field ∈ fields,
    ∀ schema ∈ k.memberSchemas field.1, g.check schema field.2 = true

theorem accepts_of_check {value : Value} (hNode : g.node id = .object k) (hCheck : g.check id value = true) :
    g.Accepts k value := by
  rw [check] at hCheck
  split at hCheck
  next accepts hBool => rw [hNode] at hBool; cases hBool
  next k' hNode' =>
      obtain rfl : k = k' := Node.object.inj (hNode.symm.trans hNode')
      simp only [Bool.and_eq_true, Bool.or_eq_true, all_eq_true, any_eq_true, decide_eq_true_eq] at hCheck
      obtain ⟨⟨⟨⟨⟨⟨hValue, hRequired⟩, hRef⟩, hAllOf⟩, hAnyOf⟩, hOneOf⟩, hMembers⟩ := hCheck
      refine ⟨hValue, hRequired, fun target hTarget => ?_, fun member hMember => ?_, fun branches hBranches => ?_,
        fun branches hBranches => ?_, fun ref items hArr i item hItem schema hSchema => ?_,
        fun ref fields hObj field hField schema hSchema => ?_⟩
      · exact hRef ⟨target, Option.mem_toList.mpr hTarget⟩ (mem_attach _ _)
      · exact hAllOf ⟨member, hMember⟩ (mem_attach _ _)
      · obtain hNone | ⟨branch, -, hBranch⟩ := hAnyOf
        · simp [Option.mem_def.mp hBranches] at hNone
        · refine ⟨branch.1, ?_, hBranch⟩
          simpa [Option.mem_def.mp hBranches] using branch.2
      · obtain hNone | hOne := hOneOf
        · simp [Option.mem_def.mp hBranches] at hNone
        · obtain ⟨branch, hBranch⟩ := exists_mem_of_length_pos (Nat.lt_of_lt_of_eq Nat.zero_lt_one hOne.symm)
          refine ⟨branch.1, ?_, (List.mem_filter.mp hBranch).2⟩
          simpa [Option.mem_def.mp hBranches] using branch.2
      · subst hArr
        simp only [all_eq_true] at hMembers
        have hPlace : (⟨item, mem_of_getElem? hItem⟩, i) ∈ items.attach.zipIdx := by
          rw [mk_mem_zipIdx_iff_getElem?, List.getElem?_eq_some_iff]
          obtain ⟨hLength, hGet⟩ := List.getElem?_eq_some_iff.mp hItem
          exact ⟨by simpa using hLength, by simp [hGet]⟩
        exact hMembers _ hPlace schema (Option.mem_toList.mpr hSchema)
      · subst hObj
        simp only [all_eq_true] at hMembers
        exact hMembers ⟨field, hField⟩ (mem_attach _ _) schema hSchema

end Graph

end OctoberHarness.Schema
