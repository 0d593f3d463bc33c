import OctoberHarness.Schema.CoerceConvert
import Mathlib.Order.Filter.AtTopBot.Basic

/-! Coercion of values that the check accepts. -/
namespace OctoberHarness.Schema

open List Filter Option

variable {g : Graph} {entered : Entered} {pass : Pass} {k : Keywords} {id : Nat} {value : Value} {m : Memory}
  {made : Value × Memory}

/-- The call gives the value back. -/
def Still (g : Graph) (call : Memory → Option (Value × Memory)) (value : Value) : Prop :=
  ∀ m, Good g m → ∃ after, call m = some (value, after) ∧ Good g after

theorem Still.unchanged : Still g (fun m => some (value, m)) value :=
  fun m hGood => ⟨m, rfl, hGood⟩

theorem Still.andThen {call : Memory → Option (Value × Memory)} {next : Value → Memory → Option (Value × Memory)}
    (hCall : Still g call value) (hNext : Still g (next value) value) :
    Still g (fun m => (call m).bind fun made => next made.1 made.2) value := by
  intro m hGood
  obtain ⟨middle, hMiddle, hGoodMiddle⟩ := hCall m hGood
  obtain ⟨after, hAfter, hGoodAfter⟩ := hNext middle hGoodMiddle
  exact ⟨after, by simp only [hMiddle, bind_some, hAfter], hGoodAfter⟩

theorem each_still {schemas : List Nat} (h : ∀ schema ∈ schemas, Still g (pass schema value) value) :
    Still g (each pass schemas value) value := by
  induction schemas with
  | nil => exact .unchanged
  | cons schema rest ih =>
    have hRest := ih fun other hOther => h other (mem_cons_of_mem _ hOther)
    exact (h schema mem_cons_self).andThen hRest

variable {parts : List (List Nat × Value)}

theorem walk_still (h : PartsAll (fun schema value => Still g (pass schema value) value) parts) (hGood : Good g m) :
    ∃ after, walk pass parts m = some (parts.map Prod.snd, after) ∧ Good g after := by
  induction parts generalizing m with
  | nil => exact ⟨m, rfl, hGood⟩
  | cons part rest ih =>
    obtain ⟨middle, hMiddle, hGoodMiddle⟩ := each_still (h part mem_cons_self) m hGood
    obtain ⟨after, hAfter, hGoodAfter⟩ :=
      ih (fun other hOther => h other (mem_cons_of_mem _ hOther)) hGoodMiddle
    exact ⟨after, by simp [walk, hMiddle, hAfter], hGoodAfter⟩

theorem mapItems_still (h : PartsAll (fun schema value => Still g (pass schema value) value) (k.itemsOf value)) :
    Still g (mapItems pass k value) value := by
  cases value with
  | arr ref items =>
    intro m hGood
    obtain ⟨after, hAfter, hGoodAfter⟩ := walk_still h hGood
    simp only [Keywords.itemsOf, map_itemParts] at hAfter
    exact ⟨after, by rw [mapItems, hAfter, map_some, arrayOf_same], hGoodAfter⟩
  | null | bool | num | str | obj => exact .unchanged

theorem mapFields_still (h : PartsAll (fun schema value => Still g (pass schema value) value) (k.membersOf value)) :
    Still g (mapFields pass k value) value := by
  cases value with
  | obj ref fields =>
    intro m hGood
    obtain ⟨after, hAfter, hGoodAfter⟩ := walk_still h hGood
    simp only [Keywords.membersOf, map_fieldParts] at hAfter
    exact ⟨after, by rw [mapFields, hAfter, map_some, rewrite_same, objectOf_same], hGoodAfter⟩
  | null | bool | num | str | arr => exact .unchanged

theorem convertMembers_still (h : PartsAll (fun schema value => Still g (pass schema value) value) (k.membersOf value)) :
    Still g (convertMembers pass k value) value := by
  unfold convertMembers
  split_ifs
  · exact mapFields_still h
  · exact .unchanged

/-! What holds with enough budget. -/

theorem eventually_all {ι : Type} {list : List ι} {p : ι → Nat → Prop} (h : ∀ i ∈ list, ∀ᶠ fuel in atTop, p i fuel) :
    ∀ᶠ fuel in atTop, ∀ i ∈ list, p i fuel := by
  induction list with
  | nil => simp
  | cons i rest ih =>
    filter_upwards [h i mem_cons_self, ih fun j hj => h j (mem_cons_of_mem _ hj)] with fuel hHead hRest
    intro j hj
    rcases mem_cons.mp hj with rfl | hIn
    · exact hHead
    · exact hRest j hIn

theorem eventually_succ {p : Nat → Prop} (h : ∀ᶠ fuel in atTop, p (fuel + 1)) : ∀ᶠ fuel in atTop, p fuel := by
  obtain ⟨least, hLeast⟩ := eventually_atTop.mp h
  refine eventually_atTop.mpr ⟨least + 1, fun fuel hFuel => ?_⟩
  obtain ⟨rest, rfl⟩ : ∃ rest, fuel = rest + 1 := ⟨fuel - 1, by omega⟩
  exact hLeast rest (by omega)

theorem eventually_parts {p : Nat → Nat → Value → Prop}
    (h : PartsAll (fun schema value => ∀ᶠ fuel in atTop, p fuel schema value) parts) :
    ∀ᶠ fuel in atTop, PartsAll (p fuel) parts :=
  eventually_all fun part hPart => eventually_all (h part hPart)

variable {part : List Nat × Value}

theorem smaller_of_item (hPart : part ∈ k.itemsOf value) : sizeOf part.2 < sizeOf value := by
  cases value with
  | arr ref items =>
    obtain ⟨i, hItem⟩ := mem_iff_getElem?.mp hPart
    simp only [Keywords.itemsOf, Keywords.itemParts, getElem?_mapIdx, map_eq_some_iff] at hItem
    obtain ⟨item, hItem, rfl⟩ := hItem
    exact sizeOf_item (mem_of_getElem? hItem)
  | null | bool | num | str | obj => cases hPart

theorem smaller_of_member (hPart : part ∈ k.membersOf value) :
    sizeOf part.2 < sizeOf value := by
  cases value with
  | obj ref fields =>
    obtain ⟨field, hField, rfl⟩ := mem_map.mp hPart
    exact sizeOf_field hField
  | null | bool | num | str | arr => cases hPart

theorem not_dropped (h : g.Accepts k value) {ref : Nat} {fields : List (JsString × Value)} (hObj : value = .obj ref fields)
    {field : JsString × Value} (hField : field ∈ fields) : g.dropped k field = false := by
  unfold Graph.dropped
  split
  next property hProperty =>
    by_cases hNull : field.2 = .null
    · have hSchema : property ∈ k.memberSchemas field.1 := by simp [Keywords.memberSchemas, hProperty]
      have hAccepted := h.fields ref fields hObj field hField property hSchema
      rw [hNull] at hAccepted
      simp [hAccepted]
    · simp [hNull]
  next => rfl

theorem dropWith_accepted (hNode : g.node id = .object k) (h : g.Accepts k value) :
    dropWith g pass id value = fun m =>
      match value with
      | .obj _ _ => mapFields pass k value m
      | _ => mapItems pass k value m := by
  funext m
  unfold dropWith
  simp only [hNode]
  cases value with
  | obj ref fields =>
    have hKept : fields.filter (fun field => !g.dropped k field) = fields :=
      filter_eq_self.mpr fun field hField => by rw [not_dropped h rfl hField]; rfl
    simp only [hKept, mapFields]
  | null | bool | num | str | arr => rfl

theorem drop_still (g : Graph) (id : Nat) (value : Value) (hCheck : g.check id value = true) :
    ∀ᶠ fuel in atTop, Still g (dropOptionalNulls g fuel id value) value := by
  induction hSize : sizeOf value using Nat.strong_induction_on generalizing id value with
  | _ size ih =>
    subst hSize
    apply eventually_succ
    cases hNode : g.node id with
    | bool accepts =>
      refine Eventually.of_forall fun fuel m hGood => ⟨m, ?_, hGood⟩
      rw [dropOptionalNulls, dropWith]
      simp only [hNode]
    | object k =>
      have hAccepts := Graph.accepts_of_check hNode hCheck
      have hMembers : ∀ᶠ fuel in atTop,
          PartsAll (fun schema value => Still g (dropOptionalNulls g fuel schema value) value) (k.membersOf value) := by
        refine eventually_parts fun part hPart schema hSchema => ?_
        exact ih _ (smaller_of_member hPart) schema part.2 (members_accepted hAccepts part hPart schema hSchema) rfl
      have hItems : ∀ᶠ fuel in atTop,
          PartsAll (fun schema value => Still g (dropOptionalNulls g fuel schema value) value) (k.itemsOf value) := by
        refine eventually_parts fun part hPart schema hSchema => ?_
        exact ih _ (smaller_of_item hPart) schema part.2 (items_accepted hAccepts part hPart schema hSchema) rfl
      filter_upwards [hMembers, hItems] with fuel hMembers hItems
      rw [dropOptionalNulls, dropWith_accepted hNode hAccepts]
      cases value with
      | obj => exact mapFields_still hMembers
      | null | bool | num | str | arr => exact mapItems_still hItems

theorem coercePrimitive_matches {name : TypeName} (h : matchesType name value = true) :
    coercePrimitive name value = value := by
  cases name with
  | boolean =>
    cases value with
    | bool => rfl
    | null | num | str | arr | obj => cases h
  | null =>
    cases value with
    | null => rfl
    | bool | num | str | arr | obj => cases h
  | other => cases h
  | string | number | integer | array | object => cases value <;> first | rfl | cases h

theorem coercePrimitives_accepted (h : g.Accepts k value) : coercePrimitives (typesOf k.type) value = value := by
  have hAlone := h.alone
  simp only [Keywords.checkValue, Bool.and_eq_true, Bool.or_eq_true] at hAlone
  rcases hAlone.1.1.2 with hNone | hMatches
  · rw [isNone_iff_eq_none] at hNone
    rw [hNone]
    rfl
  · unfold coercePrimitives
    split_ifs with hUnion
    · rfl
    · have hOne : (typesOf k.type).find? (fun type => coercePrimitive type value ≠ value) = none := by
        rw [find?_eq_none]
        intro name hName
        obtain ⟨own, hOwn, hMatch⟩ := any_eq_true.mp hMatches
        -- Without a second type the one that matches is the only one.
        have hLength : (typesOf k.type).length ≤ 1 := by
          by_contra hMore
          exact hUnion ⟨by omega, hMatches⟩
        have hSame : name = own := by
          obtain ⟨only, hOnly⟩ := length_eq_one_iff.mp (Nat.le_antisymm hLength (length_pos_of_mem hName))
          rw [hOnly, mem_singleton] at hName hOwn
          rw [hName, hOwn]
        simp [hSame, coercePrimitive_matches hMatch]
      rw [hOne]

theorem coerceUnion_still {branches : Option (List Nat)} (h : ∀ list ∈ branches, ∃ branch ∈ list, g.check branch value = true) :
    Still g (coerceUnion g pass branches value) value := by
  cases branches with
  | none => exact .unchanged
  | some list =>
    obtain ⟨branch, hBranch, hAccepted⟩ := h list rfl
    intro m hGood
    refine ⟨m, ?_, hGood⟩
    rw [coerceUnion, if_pos (any_eq_true.mpr ⟨branch, hBranch, hAccepted⟩)]

theorem coerceContainer_still (hMembers : PartsAll (fun schema value => Still g (pass schema value) value) (k.membersOf value))
    (hItems : PartsAll (fun schema value => Still g (pass schema value) value) (k.itemsOf value)) :
    Still g (coerceContainer pass k value) value := by
  intro m hGood
  cases value with
  | obj ref fields =>
    simp only [coerceContainer]
    split_ifs
    · exact mapFields_still hMembers m hGood
    · exact ⟨m, rfl, hGood⟩
  | arr ref items =>
    simp only [coerceContainer]
    split_ifs
    · exact mapItems_still hItems m hGood
    · exact ⟨m, rfl, hGood⟩
  | null | bool | num | str => exact ⟨m, rfl, hGood⟩

theorem coerceTypes_still (g : Graph) (id : Nat) (value : Value) (hCheck : g.check id value = true) :
    ∀ᶠ fuel in atTop, Still g (coerceTypes g fuel id value) value := by
  induction id, value using g.induction with
  | step id value ihBelow ihPart =>
    apply eventually_succ
    cases hNode : g.node id with
    | bool accepts =>
      refine Eventually.of_forall fun fuel m hGood => ⟨m, ?_, hGood⟩
      rw [coerceTypes, coerceWith]
      simp only [hNode]
    | object k =>
      have hAccepts := Graph.accepts_of_check hNode hCheck
      have hAllOf : ∀ᶠ fuel in atTop, ∀ member ∈ k.allOf.getD [], Still g (coerceTypes g fuel member value) value :=
        eventually_all fun member hMember =>
          ihBelow member (Graph.descends_allOf hNode hMember) (hAccepts.allOf member hMember)
      have hMembers : ∀ᶠ fuel in atTop,
          PartsAll (fun schema value => Still g (coerceTypes g fuel schema value) value) (k.membersOf value) :=
        eventually_parts fun part hPart schema hSchema =>
          ihPart schema part.2 (smaller_of_member hPart) (members_accepted hAccepts part hPart schema hSchema)
      have hItems : ∀ᶠ fuel in atTop,
          PartsAll (fun schema value => Still g (coerceTypes g fuel schema value) value) (k.itemsOf value) :=
        eventually_parts fun part hPart schema hSchema =>
          ihPart schema part.2 (smaller_of_item hPart) (items_accepted hAccepts part hPart schema hSchema)
      filter_upwards [hAllOf, hMembers, hItems] with fuel hAllOf hMembers hItems
      have hTypes : Still g (fun m => coerceContainer (coerceTypes g fuel) k (coercePrimitives (typesOf k.type) value) m)
          value := by
        rw [coercePrimitives_accepted hAccepts]
        exact coerceContainer_still hMembers hItems
      have hNodeCall : coerceTypes g (fuel + 1) id value = fun m =>
          (each (coerceTypes g fuel) (k.allOf.getD []) value m).bind fun all =>
            (coerceUnion g (coerceTypes g fuel) k.anyOf all.1 all.2).bind fun any =>
              (coerceUnion g (coerceTypes g fuel) k.oneOf any.1 any.2).bind fun one =>
                coerceContainer (coerceTypes g fuel) k (coercePrimitives (typesOf k.type) one.1) one.2 := by
        funext m
        rw [coerceTypes, coerceWith]
        simp only [hNode]
      rw [hNodeCall]
      have hOne := @Still.andThen g value (coerceUnion g (coerceTypes g fuel) k.oneOf value)
        (fun value m => coerceContainer (coerceTypes g fuel) k (coercePrimitives (typesOf k.type) value) m)
        (coerceUnion_still hAccepts.oneOf) hTypes
      have hAny := @Still.andThen g value (coerceUnion g (coerceTypes g fuel) k.anyOf value) (fun value m =>
        (coerceUnion g (coerceTypes g fuel) k.oneOf value m).bind fun one =>
          coerceContainer (coerceTypes g fuel) k (coercePrimitives (typesOf k.type) one.1) one.2)
        (coerceUnion_still hAccepts.anyOf) hOne
      exact @Still.andThen g value (each (coerceTypes g fuel) (k.allOf.getD []) value) (fun value m =>
        (coerceUnion g (coerceTypes g fuel) k.anyOf value m).bind fun any =>
          (coerceUnion g (coerceTypes g fuel) k.oneOf any.1 any.2).bind fun one =>
            coerceContainer (coerceTypes g fuel) k (coercePrimitives (typesOf k.type) one.1) one.2)
        (each_still hAllOf) hAny

/-- A part of a pass that keeps every array, and the memo in order. -/
abbrev Tame (g : Graph) (value : Value) (m : Memory) (made : Value × Memory) : Prop :=
  Fair g False False False value m made

theorem Tame.trans {last : Value × Memory} (hFirst : Tame g value m made) (hSecond : Tame g made.1 made.2 last) :
    Tame g value m last :=
  ⟨hSecond.good, hFirst.cuts.trans hSecond.cuts, hFirst.keeps.trans hSecond.keeps, fun h => h.elim, fun h => h.elim⟩

theorem Fair.tame {accepted wraps above : Prop} (h : Fair g accepted wraps above value m made) : Tame g value m made :=
  ⟨h.good, h.cuts, h.keeps, fun h => h.elim, fun h => h.elim⟩

theorem coercePrimitives_arr (types : List TypeName) (ref : Nat) (items : List Value) :
    coercePrimitives types (.arr ref items) = .arr ref items := by
  have hOne : ∀ name, coercePrimitive name (.arr ref items) = .arr ref items := fun name => by cases name <;> rfl
  unfold coercePrimitives
  split_ifs
  · rfl
  · split <;> simp [hOne]

theorem coercePrimitives_obj (types : List TypeName) (ref : Nat) (fields : List (JsString × Value)) :
    coercePrimitives types (.obj ref fields) = .obj ref fields := by
  have hOne : ∀ name, coercePrimitive name (.obj ref fields) = .obj ref fields := fun name => by cases name <;> rfl
  unfold coercePrimitives
  split_ifs
  · rfl
  · split <;> simp [hOne]

section Tame

variable (hPass : FairPass g (fun _ _ => False) (fun _ _ => False) (fun _ _ => False) pass) (hGood : Good g m)

include hPass hGood

theorem coerceBranches_tame {branches : List Nat} (hMade : coerceBranches g pass value branches m = some made) :
    Tame g value m made := by
  induction branches generalizing m with
  | nil =>
    obtain rfl := some.inj hMade
    exact .unchanged hGood id
  | cons branch rest ih =>
    obtain ⟨coerced, hCoerced, hRest⟩ := bind_eq_some_iff.mp hMade
    have hFair := hPass branch value m coerced hGood hCoerced
    split_ifs at hRest
    · exact some.inj hRest ▸ hFair
    · have hTail := ih hFair.good hRest
      exact ⟨hTail.good, hFair.cuts.trans hTail.cuts, hTail.keeps, fun h => h.elim, fun h => h.elim⟩

theorem coerceUnion_tame {branches : Option (List Nat)} (hMade : coerceUnion g pass branches value m = some made) :
    Tame g value m made := by
  cases branches with
  | none =>
    obtain rfl := some.inj hMade
    exact .unchanged hGood id
  | some list =>
    simp only [coerceUnion] at hMade
    split_ifs at hMade
    · obtain rfl := some.inj hMade
      exact .unchanged hGood id
    · exact coerceBranches_tame hPass hGood hMade

theorem coerceContainer_tame (hMade : coerceContainer pass k value m = some made) : Tame g value m made := by
  cases value with
  | obj ref fields =>
    simp only [coerceContainer] at hMade
    split_ifs at hMade
    · exact (mapFields_fair hPass hGood hMade).tame
    · obtain rfl := some.inj hMade
      exact .unchanged hGood id
  | arr ref items =>
    simp only [coerceContainer] at hMade
    split_ifs at hMade
    · exact (mapItems_fair hPass hGood hMade).tame
    · obtain rfl := some.inj hMade
      exact .unchanged hGood id
  | null | bool | num | str =>
    obtain rfl := some.inj hMade
    exact .unchanged hGood id

end Tame

theorem coerceTypes_tame (g : Graph) (fuel : Nat) :
    FairPass g (fun _ _ => False) (fun _ _ => False) (fun _ _ => False) (coerceTypes g fuel) := by
  induction fuel with
  | zero =>
    intro id value m made hGood hMade
    cases hMade
  | succ fuel ih =>
    intro id value m made hGood hMade
    rw [coerceTypes, coerceWith] at hMade
    cases hNode : g.node id with simp only [hNode] at hMade
    | bool accepts =>
      obtain rfl := some.inj hMade
      exact .unchanged hGood (fun h => h)
    | object k =>
      obtain ⟨all, hAll, hMade⟩ := bind_eq_some_iff.mp hMade
      obtain ⟨any, hAny, hMade⟩ := bind_eq_some_iff.mp hMade
      obtain ⟨one, hOne, hMade⟩ := bind_eq_some_iff.mp hMade
      have hEach := (each_fair ih hGood hAll).tame
      have hAnyOf := hEach.trans (coerceUnion_tame ih hEach.good hAny)
      have hOneOf := hAnyOf.trans (coerceUnion_tame ih hAnyOf.good hOne)
      have hLeaf : Tame g one.1 one.2 (coercePrimitives (typesOf k.type) one.1, one.2) :=
        leaf_fair hOneOf.good (fun h => h) (fun ref items hArr => by rw [hArr, coercePrimitives_arr])
          (fun ref fields hObj => by rw [hObj, coercePrimitives_obj]) fun h => h.elim
      exact hOneOf.trans (hLeaf.trans (coerceContainer_tame ih hLeaf.good hMade))

variable {nested : Entered → Pass}

theorem reenter_still {node : Nat} (hCheck : g.check node value = true)
    (hPlain : ¬ Wraps g node value) (h : ∀ entered, Still g (nested entered node value) value) (memoize : Bool) :
    Still g (reenter nested entered memoize node value) value := by
  intro m hGood
  unfold reenter
  by_cases hEntered : (node, value) ∈ entered
  · rw [if_pos hEntered]
    exact ⟨m.cut, rfl, hGood⟩
  · rw [if_neg hEntered]
    split
    next result hResult =>
      split_ifs at hResult
      exact ⟨m, by rw [(hGood node value result hResult).2.1 hCheck hPlain], hGood⟩
    next hNone =>
      obtain ⟨after, hAfter, hGoodAfter⟩ := h ((node, value) :: entered) m hGood
      simp only [hAfter, map_some]
      split_ifs with hMemo
      · refine ⟨_, rfl, fun other input result hResult => ?_⟩
        simp only [Memory.result, Memory.remember, OrderedMap.lookup_cons] at hResult
        split_ifs at hResult with hSame
        · obtain ⟨rfl, rfl⟩ := Prod.mk.inj hSame
          obtain rfl := some.inj hResult
          exact ⟨.refl _, fun _ _ => rfl, fun _ hWraps => absurd hWraps hPlain⟩
        · exact hGoodAfter other input result hResult
      · exact ⟨after, rfl, hGoodAfter⟩

theorem leaf_still {result : Value} (h : result = value) : Still g (fun m => some (result, m)) value := by
  subst h
  exact .unchanged

theorem typeRule_still (hType : k.rule = k.typeRule) (hAccepts : g.Accepts k value)
    (hTuple : k.rule = .array → (k.prefixItems.isSome || value.isArray) = true)
    (hMembers : k.rule = .object → PartsAll (fun schema value => Still g (nested entered schema value) value) (k.membersOf value))
    (hItems : k.rule = .array → PartsAll (fun schema value => Still g (nested entered schema value) value) (k.itemsOf value)) :
    Still g (convertRule g nested entered id k value) value := by
  rcases typeRule_cases k with ⟨hName, hRule⟩ | ⟨hName, hRule⟩ | ⟨hName, hRule⟩ | ⟨hName, hRule⟩ | ⟨hName, hRule⟩ |
    hRule | hRule | hRule <;> rw [← hType] at hRule <;> unfold convertRule <;> simp only [hRule]
  case inr.inr.inr.inr.inr.inl =>
    unfold convertArray
    simp only [hTuple hRule, if_true]
    exact mapItems_still (hItems hRule)
  case inr.inr.inr.inr.inr.inr.inl => exact mapFields_still (hMembers hRule)
  case inr.inr.inr.inr.inr.inr.inr => exact .unchanged
  all_goals
    apply leaf_still
    have hMatches := matches_type hAccepts hName
    cases value <;> simp_all [matchesType, tryString, tryNumber, tryBoolean, tryNull, trunc]

theorem convert_still (g : Graph) (id : Nat) (value : Value) (hCheck : g.check id value = true) (hPlain : ¬ Wraps g id value) :
    ∀ᶠ fuel in atTop, ∀ entered, Still g (convert g fuel entered id value) value := by
  induction id, value using g.induction with
  | step id value ihBelow ihPart =>
    apply eventually_succ
    cases hNode : g.node id with
    | bool accepts =>
      refine Eventually.of_forall fun fuel entered m hGood => ⟨m, ?_, hGood⟩
      rw [convert, convertWith]
      simp only [hNode]
    | object k =>
      have hAccepts := Graph.accepts_of_check hNode hCheck
      have hCall : ∀ fuel entered, convert g (fuel + 1) entered id value =
          convertRule g (convert g fuel) entered id k value := by
        intro fuel entered
        funext m
        rw [convert, convertWith]
        simp only [hNode]
      simp only [hCall]
      have hMembers : ¬ PartsSome (Wraps g) (k.membersOf value) → ∀ᶠ fuel in atTop, PartsAll
          (fun schema value => ∀ entered, Still g (convert g fuel entered schema value) value) (k.membersOf value) := by
        refine fun hNone => eventually_parts fun part hPart schema hSchema => ?_
        exact ihPart schema part.2 (smaller_of_member hPart) (members_accepted hAccepts part hPart schema hSchema)
          fun h => hNone ⟨part, hPart, schema, hSchema, h⟩
      have hItems : ¬ PartsSome (Wraps g) (k.itemsOf value) → ∀ᶠ fuel in atTop, PartsAll
          (fun schema value => ∀ entered, Still g (convert g fuel entered schema value) value) (k.itemsOf value) := by
        refine fun hNone => eventually_parts fun part hPart schema hSchema => ?_
        exact ihPart schema part.2 (smaller_of_item hPart) (items_accepted hAccepts part hPart schema hSchema)
          fun h => hNone ⟨part, hPart, schema, hSchema, h⟩
      rcases rule_cases k with ⟨target, hRef, hRule⟩ | ⟨literal, hConst, hRule⟩ | ⟨members, hEnum, hRule⟩ |
        ⟨branches, hUnion, hRule⟩ | ⟨members, hAllOf, hRule⟩ | hType
      · have hTarget := (wraps_ref hNode hRule).not.mp hPlain
        have hAccepted := hAccepts.ref target hRef
        filter_upwards [ihBelow target (Graph.descends_ref hNode (by simp [hRef])) hAccepted hTarget] with fuel h entered
        unfold convertRule
        simp only [hRule]
        split_ifs
        · exact reenter_still hAccepted hTarget h true
        · exact .unchanged
      · refine Eventually.of_forall fun fuel entered => ?_
        unfold convertRule
        simp only [hRule]
        apply leaf_still
        apply convertLiteral_equal
        have hAlone := hAccepts.alone
        simp only [Keywords.checkValue, hConst, Bool.and_eq_true] at hAlone
        exact hAlone.2
      · refine Eventually.of_forall fun fuel entered => ?_
        unfold convertRule
        simp only [hRule]
        apply leaf_still
        apply convertEnum_equal
        have hAlone := hAccepts.alone
        simp only [Keywords.checkValue, hEnum, all_some, Bool.and_eq_true] at hAlone
        exact hAlone.1.2
      · have hNone := (wraps_union hNode hRule).not.mp hPlain
        obtain ⟨branch, hBranch, hAccepted⟩ : ∃ branch ∈ branches, g.check branch value = true := by
          rcases hUnion with hAny | hOne
          · exact hAccepts.anyOf branches hAny
          · exact hAccepts.oneOf branches hOne
        have hAny : (branches.any fun branch => g.check branch value) = true :=
          any_eq_true.mpr ⟨branch, hBranch, hAccepted⟩
        filter_upwards [hMembers hNone] with fuel h entered
        unfold convertRule convertUnion
        simp only [hRule, hAny, if_true]
        exact convertMembers_still fun part hPart schema hSchema => h part hPart schema hSchema entered
      · have hNone := (wraps_allOf hNode hRule).not.mp hPlain
        have hEach : ∀ᶠ fuel in atTop, ∀ member ∈ members, ∀ entered, Still g (convert g fuel entered member value) value := by
          refine eventually_all fun member hMember => ?_
          have hIn : member ∈ k.allOf.getD [] := by rw [hAllOf]; exact hMember
          exact ihBelow member (Graph.descends_allOf hNode hIn) (hAccepts.allOf member hIn)
            fun h => hNone (Or.inl ⟨member, hMember, h⟩)
        filter_upwards [hEach, hMembers fun h => hNone (Or.inr h)] with fuel hEach h entered
        unfold convertRule
        simp only [hRule]
        exact (each_still fun member hMember => hEach member hMember entered).andThen
          (convertMembers_still fun part hPart schema hSchema => h part hPart schema hSchema entered)
      · by_cases hObject : k.rule = .object
        · filter_upwards [hMembers ((wraps_object hNode hObject).not.mp hPlain)] with fuel h entered
          exact typeRule_still hType hAccepts (fun hArray => by rw [hObject] at hArray; cases hArray)
            (fun _ part hPart schema hSchema => h part hPart schema hSchema entered)
            fun hArray => by rw [hObject] at hArray; cases hArray
        by_cases hArray : k.rule = .array
        · -- Elsewhere the value would be wrapped here.
          have hTuple : (k.prefixItems.isSome || value.isArray) = true := by
            by_contra hNot
            simp only [Bool.or_eq_true, not_or, Bool.not_eq_true, isSome_eq_false_iff,
              isNone_iff_eq_none] at hNot
            exact hPlain (.single hNode hArray hNot.1 hNot.2)
          filter_upwards [hItems ((wraps_array hNode hArray hTuple).not.mp hPlain)] with fuel h entered
          exact typeRule_still hType hAccepts (fun _ => hTuple) (fun h => absurd h hObject)
            fun _ part hPart schema hSchema => h part hPart schema hSchema entered
        · exact Eventually.of_forall fun fuel entered =>
            typeRule_still hType hAccepts (fun h => absurd h hArray) (fun h => absurd h hObject)
              fun h => absurd h hArray

/-! All three passes. -/

theorem good_start (g : Graph) (fresh : Nat) : Good g ⟨fresh, 0, []⟩ :=
  fun _ _ _ h => by cases h

theorem coerce_still {root : Nat} (hCheck : g.check root value = true) (hPlain : ¬ Wraps g root value) :
    ∀ᶠ fuel in atTop, coerce g root fuel value = some value := by
  filter_upwards [drop_still g root value hCheck, convert_still g root value hCheck hPlain,
    coerceTypes_still g root value hCheck] with fuel hDrop hConvert hCoerce
  obtain ⟨first, hFirst, hGoodFirst⟩ := hDrop ⟨value.bound, 0, []⟩ (good_start g _)
  obtain ⟨second, hSecond, hGoodSecond⟩ := hConvert [] first hGoodFirst
  obtain ⟨third, hThird, -⟩ := hCoerce { second with cuts := 0, memo := [] } (good_start g second.fresh)
  rw [coerce, hFirst, bind_some, convertOnly, hSecond, map_some, bind_some, hThird, map_some]

theorem coerce_wrapped {root : Nat} (hCheck : g.check root value = true) (hWraps : Wraps g root value) :
    ∀ᶠ fuel in atTop, ∀ result, coerce g root fuel value = some result → Wrapped value result := by
  filter_upwards [drop_still g root value hCheck] with fuel hDrop result hResult
  obtain ⟨first, hFirst, hGoodFirst⟩ := hDrop ⟨value.bound, 0, []⟩ (good_start g _)
  rw [coerce, hFirst, bind_some] at hResult
  obtain ⟨converted, hConverted, hResult⟩ := bind_eq_some_iff.mp hResult
  obtain ⟨second, hSecond, rfl⟩ := map_eq_some_iff.mp hConverted
  obtain ⟨third, hThird, rfl⟩ := map_eq_some_iff.mp hResult
  have hFair := convert_fair g fuel [] root value first second hGoodFirst hSecond
  have hAbove : Above g [] root value := fun pair hPair => by cases hPair
  have hTame := coerceTypes_tame g fuel root second.1 _ third (good_start g second.2.fresh) hThird
  exact hTame.keeps value (hFair.wrapped hCheck hWraps (Or.inl hAbove))

/-- Coercion gives an accepted value back, and parsing accepts it, exactly where
no schema with `items` and no tuple is met with anything but an array. -/
theorem coerce_accepted (g : Graph) (root : Nat) (value : Value) (hCheck : g.check root value = true) :
    (∀ᶠ fuel in atTop, coerce g root fuel value = some value ∧ parse g root fuel value = some (.ok value)) ↔
      ¬ Wraps g root value := by
  constructor
  · intro hSame hWraps
    obtain ⟨fuel, hFuel, hWrapped⟩ := (hSame.and (coerce_wrapped hCheck hWraps)).exists
    exact (hWrapped value hFuel.1).content_ne rfl
  · intro hPlain
    filter_upwards [coerce_still hCheck hPlain] with fuel hFuel
    refine ⟨hFuel, ?_⟩
    rw [parse, hFuel, map_some, hCheck, if_pos rfl]

/-- `{"items": true}`. -/
def untyped : Graph where
  node id := if id = 0 then .object { Keywords.empty with items := some 1 } else .bool true
  rank _ := 0
  descends := by
    intro id k hNode other hOther
    split_ifs at hNode
    obtain rfl := Node.object.inj hNode
    cases hOther

def five : Value := .num (JsNumber.ofNat 5)

theorem check_untyped_item (value : Value) : untyped.check 1 value = true := by
  rw [Graph.check]
  rfl

theorem check_untyped (value : Value) : untyped.check 0 value = true := by
  rw [Graph.check]
  cases value with
  | arr ref items =>
    simp [untyped, Keywords.checkValue, Keywords.checkRequired, Keywords.empty, Keywords.itemSchemaAt]
    exact fun item _ _ _ => check_untyped_item item
  | obj ref fields => simp [untyped, Keywords.checkValue, Keywords.checkRequired, Keywords.empty, Keywords.memberSchemas]
  | null | bool | num | str => rfl

theorem coerce_accepted_array : (∀ᶠ fuel in atTop, coerce untyped 0 fuel (.arr 0 [five]) = some (.arr 0 [five]) ∧
    parse untyped 0 fuel (.arr 0 [five]) = some (.ok (.arr 0 [five]))) ↔ ¬ Wraps untyped 0 (.arr 0 [five]) :=
  coerce_accepted untyped 0 (.arr 0 [five]) (check_untyped _)

/-- Every value is valid here, and a single one comes back in an array. -/
theorem coerce_single : untyped.check 0 five = true ∧
    (∀ fuel, coerce untyped 0 (fuel + 1) five = some (.arr 0 [five])) ∧
      ¬ ∀ (g : Graph) (root : Nat) (value : Value), g.check root value = true →
        ∀ᶠ fuel in atTop, coerce g root fuel value = some value := by
  have hArray : ∀ fuel, coerce untyped 0 (fuel + 1) five = some (.arr 0 [five]) := fun fuel => rfl
  refine ⟨check_untyped five, hArray, fun hSame => ?_⟩
  obtain ⟨least, hLeast⟩ := eventually_atTop.mp (hSame untyped 0 five (check_untyped five))
  have hFive := hLeast (least + 1) (Nat.le_succ least)
  rw [hArray] at hFive
  cases some.inj hFive

end OctoberHarness.Schema
