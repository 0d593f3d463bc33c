import OctoberHarness.Schema.CoerceWraps

/-! What the conversion pass makes of a value that the check accepts. -/
namespace OctoberHarness.Schema

open List Option

variable {g : Graph} {entered : Entered} {pass : Pass} {k : Keywords} {id : Nat} {value : Value} {m : Memory}
  {made : Value × Memory}

/-- The memo holds what conversions without a cut came to. -/
def Good (g : Graph) (m : Memory) : Prop :=
  ∀ node value result, m.result node value = some result →
    Keeps value result ∧ (g.check node value = true → ¬ Wraps g node value → result = value) ∧
      (g.check node value = true → Wraps g node value → Wrapped value result)

/-- The pairs that are being converted are around this one. -/
def Above (g : Graph) (entered : Entered) (id : Nat) (value : Value) : Prop :=
  ∀ pair ∈ entered, sizeOf value < sizeOf pair.2 ∨ sizeOf value = sizeOf pair.2 ∧ g.rank id ≤ g.rank pair.1

/-- What a part of the conversion makes of a value that is accepted or not, and
that comes to be wrapped or not. -/
structure Fair (g : Graph) (accepted wraps above : Prop) (value : Value) (m : Memory) (made : Value × Memory) : Prop where
  good : Good g made.2
  cuts : m.cuts ≤ made.2.cuts
  keeps : Keeps value made.1
  stays : accepted → ¬ wraps → made.1 = value
  wrapped : accepted → wraps → above ∨ made.2.cuts = m.cuts → Wrapped value made.1

/-- A pass is fair on every node and value: those in `A` are accepted, those in
`W` come to be wrapped, and `B` says what is around. -/
def FairPass (g : Graph) (A W B : Nat → Value → Prop) (pass : Pass) : Prop :=
  ∀ id value m made, Good g m → pass id value m = some made → Fair g (A id value) (W id value) (B id value) value m made

/-- A conversion, with the pairs around it. -/
def Converts (g : Graph) (entered : Entered) (pass : Pass) : Prop :=
  FairPass g (fun id value => g.check id value = true) (Wraps g) (Above g entered) pass

namespace Fair

variable {accepted accepted' wraps wraps' above above' : Prop}

theorem unchanged (hGood : Good g m) (hWraps : ¬ wraps) : Fair g accepted wraps above value m (value, m) :=
  ⟨hGood, Nat.le_refl _, .refl value, fun _ _ => rfl, fun _ h => absurd h hWraps⟩

theorem imp (h : Fair g accepted wraps above value m made) (hAccepted : accepted' → accepted)
    (hWraps : accepted' → (wraps' ↔ wraps)) (hAbove : accepted' → above' → above) :
    Fair g accepted' wraps' above' value m made :=
  ⟨h.good, h.cuts, h.keeps, fun hOk hNot => h.stays (hAccepted hOk) fun hYes => hNot ((hWraps hOk).mpr hYes),
    fun hOk hYes hClear => h.wrapped (hAccepted hOk) ((hWraps hOk).mp hYes) (hClear.imp_left (hAbove hOk))⟩

theorem unaccepted (hGood : Good g made.2) (hCuts : m.cuts ≤ made.2.cuts) (hKeeps : Keeps value made.1)
    (hNot : ¬ accepted) : Fair g accepted wraps above value m made :=
  ⟨hGood, hCuts, hKeeps, fun h => absurd h hNot, fun h => absurd h hNot⟩

end Fair

namespace Above

section

variable (h : Above g entered id value)

include h

theorem of_child {child : Value} {schema : Nat} (hSmaller : sizeOf child < sizeOf value) :
    Above g entered schema child := by
  intro pair hPair
  rcases h pair hPair with hLt | ⟨hEq, -⟩ <;> exact Or.inl (by omega)

theorem of_lower {other : Nat} (hLower : g.rank other < g.rank id) :
    Above g entered other value := by
  intro pair hPair
  rcases h pair hPair with hLt | ⟨hEq, hRank⟩
  · exact Or.inl hLt
  · exact Or.inr ⟨hEq, by omega⟩

theorem not_entered {other : Nat} (hLower : g.rank other < g.rank id) :
    (other, value) ∉ entered := by
  intro hMem
  rcases h (other, value) hMem with hLt | ⟨-, hRank⟩
  · exact Nat.lt_irrefl _ hLt
  · exact absurd hRank (by simpa using hLower)

theorem push : Above g ((id, value) :: entered) id value := by
  intro pair hPair
  rcases mem_cons.mp hPair with rfl | hRest
  · exact Or.inr ⟨rfl, Nat.le_refl _⟩
  · exact h pair hRest

end

end Above

section Walk

variable {A W B : Nat → Value → Prop}

/-! Sequences of schemas and the parts of a container. -/

theorem each_fair (hPass : FairPass g A W B pass) {schemas : List Nat} (hGood : Good g m)
    (hMade : each pass schemas value m = some made) :
    Fair g (∀ schema ∈ schemas, A schema value) (∃ schema ∈ schemas, W schema value)
      (∀ schema ∈ schemas, B schema value) value m made := by
  induction schemas generalizing value m with
  | nil =>
    obtain rfl := some.inj hMade
    exact .unchanged hGood (by simp)
  | cons schema rest ih =>
    obtain ⟨first, hFirst, hRest⟩ := bind_eq_some_iff.mp hMade
    have hHead := hPass schema value m first hGood hFirst
    have hTail := ih hHead.good hRest
    refine ⟨hTail.good, hHead.cuts.trans hTail.cuts, hHead.keeps.trans hTail.keeps, fun hOk hNot => ?_,
      fun hOk hWraps hClear => ?_⟩
    · have hSame := hHead.stays (hOk schema mem_cons_self) fun h => hNot ⟨schema, mem_cons_self, h⟩
      rw [hSame] at hTail
      exact hTail.stays (fun other hOther => hOk other (mem_cons_of_mem _ hOther))
        fun ⟨other, hOther, h⟩ => hNot ⟨other, mem_cons_of_mem _ hOther, h⟩
    · have hCuts := hHead.cuts
      have hMore := hTail.cuts
      by_cases hHere : W schema value
      · have hClearHead : B schema value ∨ first.2.cuts = m.cuts :=
          hClear.imp (fun h => h schema mem_cons_self) fun h => by omega
        exact hTail.keeps value (hHead.wrapped (hOk schema mem_cons_self) hHere hClearHead)
      · rw [hHead.stays (hOk schema mem_cons_self) hHere] at hTail
        obtain ⟨other, hOther, hLater⟩ := hWraps
        have hIn : other ∈ rest := by
          rcases mem_cons.mp hOther with rfl | h
          · exact absurd hLater hHere
          · exact h
        exact hTail.wrapped (fun other hOther => hOk other (mem_cons_of_mem _ hOther)) ⟨other, hIn, hLater⟩
          (hClear.imp (fun h other hOther => h other (mem_cons_of_mem _ hOther)) fun h => by omega)

/-- So it is for every part, with each of its schemas. -/
def PartsAll (P : Nat → Value → Prop) (parts : List (List Nat × Value)) : Prop :=
  ∀ part ∈ parts, ∀ schema ∈ part.1, P schema part.2

/-- So it is for some part, with one of its schemas. -/
def PartsSome (P : Nat → Value → Prop) (parts : List (List Nat × Value)) : Prop :=
  ∃ part ∈ parts, ∃ schema ∈ part.1, P schema part.2

/-- `Fair`, of the parts of a container. -/
structure FairParts (g : Graph) (A W B : Nat → Value → Prop) (parts : List (List Nat × Value)) (m : Memory)
    (made : List Value × Memory) : Prop where
  good : Good g made.2
  cuts : m.cuts ≤ made.2.cuts
  keeps : Forall₂ (fun part after => Keeps part.2 after) parts made.1
  stays : PartsAll A parts → ¬ PartsSome W parts → made.1 = parts.map Prod.snd
  wrapped : PartsAll A parts → PartsSome W parts → PartsAll B parts ∨ made.2.cuts = m.cuts →
    ∃ (i : Nat) (part : List Nat × Value) (after : Value), parts[i]? = some part ∧ made.1[i]? = some after ∧
      Wrapped part.2 after

theorem walk_fair (hPass : FairPass g A W B pass) {parts : List (List Nat × Value)} {made : List Value × Memory}
    (hGood : Good g m) (hMade : walk pass parts m = some made) : FairParts g A W B parts m made := by
  induction parts generalizing m made with
  | nil =>
    obtain rfl := some.inj hMade
    exact ⟨hGood, Nat.le_refl _, .nil, fun _ _ => rfl, fun _ ⟨part, hPart, _⟩ => by simp at hPart⟩
  | cons part rest ih =>
    obtain ⟨first, hFirst, hRest⟩ := bind_eq_some_iff.mp hMade
    obtain ⟨tail, hTailMade, rfl⟩ := map_eq_some_iff.mp hRest
    have hHead := each_fair hPass hGood hFirst
    have hTail := ih hHead.good hTailMade
    have hMore : ∀ other ∈ rest, other ∈ part :: rest := fun other => mem_cons_of_mem _
    refine ⟨hTail.good, hHead.cuts.trans hTail.cuts, .cons hHead.keeps hTail.keeps, fun hOk hNot => ?_,
      fun hOk hWraps hClear => ?_⟩
    · have hFirstSame := hHead.stays (hOk part mem_cons_self) fun h => hNot ⟨part, mem_cons_self, h⟩
      have hRestSame := hTail.stays (fun other hOther => hOk other (hMore other hOther))
        fun ⟨other, hOther, h⟩ => hNot ⟨other, hMore other hOther, h⟩
      rw [map_cons, hFirstSame, hRestSame]
    · have hCuts := hHead.cuts
      have hLater := hTail.cuts
      obtain ⟨other, hOther, hHere⟩ := hWraps
      rcases mem_cons.mp hOther with rfl | hIn
      · have hClearHead : (∀ schema ∈ other.1, B schema other.2) ∨ first.2.cuts = m.cuts := by
          refine hClear.imp (fun h => h other mem_cons_self) fun h => ?_
          have hAll : tail.2.cuts = m.cuts := h
          omega
        exact ⟨0, other, first.1, rfl, rfl, hHead.wrapped (hOk other mem_cons_self) hHere hClearHead⟩
      · have hClearTail : PartsAll B rest ∨ tail.2.cuts = first.2.cuts := by
          refine hClear.imp (fun h other hOther => h other (hMore other hOther)) fun h => ?_
          have hAll : tail.2.cuts = m.cuts := h
          omega
        obtain ⟨i, before, after, hBefore, hAfter, hWrapped⟩ :=
          hTail.wrapped (fun other hOther => hOk other (hMore other hOther)) ⟨other, hIn, hHere⟩ hClearTail
        exact ⟨i + 1, before, after, hBefore, hAfter, hWrapped⟩

/-- The items of an array, with their schemas. -/
def Keywords.itemsOf (k : Keywords) : Value → List (List Nat × Value)
  | .arr _ items => k.itemParts items
  | _ => []

/-- The members of an object, with their schemas. -/
def Keywords.membersOf (k : Keywords) : Value → List (List Nat × Value)
  | .obj _ fields => k.fieldParts fields
  | _ => []

theorem map_itemParts (k : Keywords) (items : List Value) : (k.itemParts items).map Prod.snd = items := by
  apply ext_getElem?
  intro i
  simp [Keywords.itemParts, Function.comp_def]

theorem map_fieldParts (k : Keywords) (fields : List (JsString × Value)) :
    (k.fieldParts fields).map Prod.snd = fields.map Prod.snd := by
  simp [Keywords.fieldParts]

variable (ref : Nat) (fields : List (JsString × Value))

theorem rewrite_same : rewrite fields (fields.map Prod.snd) = fields := by
  induction fields with
  | nil => rfl
  | cons field rest ih => rw [rewrite, map_cons, zipWith_cons_cons, ← rewrite, ih]

variable {values : List Value}

theorem forall₂_rewrite {R : Value → Value → Prop} {fields : List (JsString × Value)}
    (h : Forall₂ (fun field after => R field.2 after) fields values) :
    Forall₂ (fun field after => R field.2 after.2) fields (rewrite fields values) := by
  induction h with
  | nil => exact .nil
  | cons hHead _ ih => exact .cons hHead ih

theorem rewrite_getElem? {fields : List (JsString × Value)} {i : Nat} {field : JsString × Value}
    {value : Value} (hField : fields[i]? = some field) (hValue : values[i]? = some value) :
    (rewrite fields values)[i]? = some (field.1, value) := by
  rw [rewrite, getElem?_zipWith, hField, hValue]

theorem arrayOf_same (items : List Value) (m : Memory) : arrayOf ref items (items, m) = (.arr ref items, m) :=
  if_pos rfl

theorem objectOf_same (m : Memory) :
    objectOf ref fields fields m = (.obj ref fields, m) :=
  if_pos rfl

theorem arrayOf_eq (items : List Value) (made : List Value × Memory) :
    ∃ other fresh, arrayOf ref items made = (.arr other made.1, { made.2 with fresh := fresh }) := by
  unfold arrayOf
  split_ifs with hSame
  · exact ⟨ref, made.2.fresh, by rw [hSame]⟩
  · exact ⟨made.2.fresh, made.2.fresh + 1, rfl⟩

theorem objectOf_eq (made : List (JsString × Value)) (m : Memory) :
    ∃ other fresh, objectOf ref fields made m = (.obj other made, { m with fresh := fresh }) := by
  unfold objectOf
  split_ifs with hSame
  · exact ⟨ref, m.fresh, by rw [hSame]⟩
  · exact ⟨m.fresh, m.fresh + 1, rfl⟩

theorem mapItems_fair (hPass : FairPass g A W B pass) (hGood : Good g m) (hMade : mapItems pass k value m = some made) :
    Fair g (PartsAll A (k.itemsOf value)) (PartsSome W (k.itemsOf value)) (PartsAll B (k.itemsOf value))
      value m made := by
  cases value with
  | arr ref items =>
    obtain ⟨parts, hParts, rfl⟩ := map_eq_some_iff.mp hMade
    have hFair := walk_fair hPass hGood hParts
    have hItems := map_itemParts k items
    have hKeeps : Forall₂ Keeps items parts.1 := by
      rw [← hItems, forall₂_map_left_iff]
      exact hFair.keeps
    obtain ⟨other, fresh, hArray⟩ := arrayOf_eq ref items parts
    refine ⟨?_, ?_, ?_, fun hOk hNot => ?_, fun hOk hWraps hClear => ?_⟩
    · rw [hArray]
      exact hFair.good
    · rw [hArray]
      exact hFair.cuts
    · rw [hArray]
      exact .arr hKeeps
    · have hSame : parts.1 = items := (hFair.stays hOk hNot).trans hItems
      rw [arrayOf, if_pos hSame]
    · rw [hArray] at hClear ⊢
      obtain ⟨i, part, after, hPart, hAfter, hWrapped⟩ := hFair.wrapped hOk hWraps hClear
      have hItem : items[i]? = some part.2 := by
        rw [← hItems, getElem?_map, hPart]
        rfl
      exact .item hItem hAfter hWrapped
  | null | bool | num | str | obj =>
    obtain rfl := some.inj hMade
    exact .unchanged hGood fun ⟨part, hPart, _⟩ => by simp [Keywords.itemsOf] at hPart

theorem mapFields_fair (hPass : FairPass g A W B pass) (hGood : Good g m) (hMade : mapFields pass k value m = some made) :
    Fair g (PartsAll A (k.membersOf value)) (PartsSome W (k.membersOf value)) (PartsAll B (k.membersOf value)) value m made := by
  cases value with
  | obj ref fields =>
    obtain ⟨parts, hParts, rfl⟩ := map_eq_some_iff.mp hMade
    have hFair := walk_fair hPass hGood hParts
    have hFields := map_fieldParts k fields
    have hKeeps : Forall₂ (fun field after => Keeps field.2 after.2) fields (rewrite fields parts.1) := by
      have hParts := hFair.keeps
      rw [Keywords.fieldParts, forall₂_map_left_iff] at hParts
      exact forall₂_rewrite hParts
    obtain ⟨other, fresh, hObject⟩ := objectOf_eq ref fields (rewrite fields parts.1) parts.2
    refine ⟨?_, ?_, ?_, fun hOk hNot => ?_, fun hOk hWraps hClear => ?_⟩
    · rw [hObject]
      exact hFair.good
    · rw [hObject]
      exact hFair.cuts
    · rw [hObject]
      exact .obj hKeeps
    · have hSame : rewrite fields parts.1 = fields := by
        rw [hFair.stays hOk hNot, hFields, rewrite_same]
      rw [objectOf, if_pos hSame]
    · rw [hObject] at hClear ⊢
      obtain ⟨i, part, after, hPart, hAfter, hWrapped⟩ := hFair.wrapped hOk hWraps hClear
      rw [Keywords.fieldParts, getElem?_map, map_eq_some_iff] at hPart
      obtain ⟨field, hField, rfl⟩ := hPart
      exact .field hField (rewrite_getElem? hField hAfter) hWrapped
  | null | bool | num | str | arr =>
    obtain rfl := some.inj hMade
    exact .unchanged hGood fun ⟨part, hPart, _⟩ => by simp [Keywords.membersOf] at hPart

theorem memberSchemas_undeclared (hNone : k.declares = false) (key : JsString) : k.memberSchemas key = [] := by
  simp only [Keywords.declares, Bool.or_eq_false_iff, isSome_eq_false_iff, isNone_iff_eq_none] at hNone
  simp [Keywords.memberSchemas, hNone.1.1, hNone.1.2, hNone.2]

theorem convertMembers_fair (hPass : FairPass g A W B pass) (hGood : Good g m)
    (hMade : convertMembers pass k value m = some made) :
    Fair g (PartsAll A (k.membersOf value)) (PartsSome W (k.membersOf value)) (PartsAll B (k.membersOf value)) value m made := by
  unfold convertMembers at hMade
  split_ifs at hMade with hDeclares
  · exact mapFields_fair hPass hGood hMade
  · obtain rfl := some.inj hMade
    refine .unchanged hGood fun ⟨part, hPart, schema, hSchema, _⟩ => ?_
    cases value with
    | obj ref fields =>
      obtain ⟨field, -, rfl⟩ := mem_map.mp hPart
      rw [memberSchemas_undeclared (Bool.eq_false_iff.mpr hDeclares)] at hSchema
      cases hSchema
    | null | bool | num | str | arr => cases hPart

end Walk

/-! The rules of a node. -/

variable {branches : List Nat} {nested : Entered → Pass}

theorem tryBranches_fair (hPass : Converts g entered pass) (hGood : Good g m)
    (hMade : tryBranches g pass id k value branches m = some made) :
    Good g made.2 ∧ m.cuts ≤ made.2.cuts ∧ Keeps value made.1 := by
  induction branches generalizing m with
  | nil =>
    have hFair := convertMembers_fair hPass hGood hMade
    exact ⟨hFair.good, hFair.cuts, hFair.keeps⟩
  | cons branch rest ih =>
    obtain ⟨candidate, hCandidate, hRest⟩ := bind_eq_some_iff.mp hMade
    obtain ⟨first, hFirst, hMembers⟩ := bind_eq_some_iff.mp hCandidate
    have hBranch := hPass branch value m first hGood hFirst
    have hFair := convertMembers_fair hPass hBranch.good hMembers
    split_ifs at hRest with hAccepted
    · obtain rfl := some.inj hRest
      exact ⟨hFair.good, hBranch.cuts.trans hFair.cuts, hBranch.keeps.trans hFair.keeps⟩
    · obtain ⟨hLast, hCuts, hKeeps⟩ := ih hFair.good hRest
      exact ⟨hLast, hBranch.cuts.trans (hFair.cuts.trans hCuts), hKeeps⟩

theorem convertUnion_fair (hPass : Converts g entered pass) (hGood : Good g m)
    (hMade : convertUnion g pass id k branches value m = some made) :
    Fair g ((∃ branch ∈ branches, g.check branch value = true) ∧ PartsAll (fun id value => g.check id value = true) (k.membersOf value))
      (PartsSome (Wraps g) (k.membersOf value)) (PartsAll (Above g entered) (k.membersOf value)) value m made := by
  unfold convertUnion at hMade
  split_ifs at hMade with hSome
  · exact (convertMembers_fair hPass hGood hMade).imp (fun h => h.2) (fun _ => Iff.rfl) fun _ h => h
  · obtain ⟨hAfter, hCuts, hKeeps⟩ := tryBranches_fair hPass hGood hMade
    refine .unaccepted hAfter hCuts hKeeps fun ⟨⟨branch, hBranch, hAccepted⟩, _⟩ => ?_
    exact hSome (any_eq_true.mpr ⟨branch, hBranch, hAccepted⟩)

theorem allOf_fair (hPass : Converts g entered pass) {members : List Nat} (hGood : Good g m)
    (hMade : ((each pass members value m).bind fun first => convertMembers pass k first.1 first.2) = some made) :
    Fair g ((∀ member ∈ members, g.check member value = true) ∧ PartsAll (fun id value => g.check id value = true) (k.membersOf value))
      ((∃ member ∈ members, Wraps g member value) ∨ PartsSome (Wraps g) (k.membersOf value))
      ((∀ member ∈ members, Above g entered member value) ∧ PartsAll (Above g entered) (k.membersOf value)) value m made := by
  obtain ⟨first, hFirst, hMembers⟩ := bind_eq_some_iff.mp hMade
  have hEach := each_fair hPass hGood hFirst
  have hFair := convertMembers_fair hPass hEach.good hMembers
  have hCuts := hEach.cuts
  have hLater := hFair.cuts
  refine ⟨hFair.good, hCuts.trans hLater, hEach.keeps.trans hFair.keeps, fun hOk hNot => ?_, fun hOk hWraps hClear => ?_⟩
  · rw [hEach.stays hOk.1 fun h => hNot (Or.inl h)] at hFair
    exact hFair.stays hOk.2 fun h => hNot (Or.inr h)
  · by_cases hHere : ∃ member ∈ members, Wraps g member value
    · exact hFair.keeps value (hEach.wrapped hOk.1 hHere (hClear.imp (fun h => h.1) fun h => by omega))
    · rw [hEach.stays hOk.1 hHere] at hFair
      exact hFair.wrapped hOk.2 (hWraps.resolve_left hHere) (hClear.imp (fun h => h.2) fun h => by omega)

theorem Good.remember {above : Prop} {node : Nat} {after : Memory} (hGood : Good g after)
    (hFair : Fair g (g.check node value = true) (Wraps g node value) above value m made) (hCuts : made.2.cuts = m.cuts) :
    Good g (after.remember node value made.1) := by
  intro other input result hResult
  simp only [Memory.result, Memory.remember, OrderedMap.lookup_cons] at hResult
  split_ifs at hResult with hSame
  · obtain ⟨rfl, rfl⟩ := Prod.mk.inj hSame
    obtain rfl := some.inj hResult
    exact ⟨hFair.keeps, hFair.stays, fun hOk hWraps => hFair.wrapped hOk hWraps (Or.inr hCuts)⟩
  · exact hGood other input result hResult

/-- A reference leads below what is being converted for the same value. -/
theorem reenter_fair (hNested : ∀ entered, Converts g entered (nested entered)) {memoize : Bool}
    {node : Nat} (hGood : Good g m) (hMade : reenter nested entered memoize node value m = some made) :
    Fair g (g.check node value = true) (Wraps g node value)
      ((node, value) ∉ entered ∧ Above g ((node, value) :: entered) node value) value m made := by
  unfold reenter at hMade
  by_cases hEntered : (node, value) ∈ entered
  · rw [if_pos hEntered] at hMade
    obtain rfl := some.inj hMade
    refine ⟨hGood, Nat.le_succ _, .refl value, fun _ _ => rfl, fun _ _ hClear => ?_⟩
    rcases hClear with hFree | hCuts
    · exact absurd hEntered hFree.1
    · exact absurd hCuts (Nat.succ_ne_self _)
  · rw [if_neg hEntered] at hMade
    split at hMade
    next result hResult =>
      obtain rfl := some.inj hMade
      split_ifs at hResult
      obtain ⟨hKeeps, hStays, hWrapped⟩ := hGood node value result hResult
      exact ⟨hGood, Nat.le_refl _, hKeeps, hStays, fun hOk hWraps _ => hWrapped hOk hWraps⟩
    next hNone =>
      obtain ⟨inner, hInner, rfl⟩ := map_eq_some_iff.mp hMade
      have hFair := hNested _ node value m inner hGood hInner
      split_ifs with hMemo
      · simp only [Bool.and_eq_true, decide_eq_true_eq] at hMemo
        refine ⟨hFair.good.remember hFair hMemo.2, hFair.cuts, hFair.keeps, hFair.stays, fun hOk hWraps hClear => ?_⟩
        exact hFair.wrapped hOk hWraps (Or.inr hMemo.2)
      · exact hFair.imp (fun h => h) (fun _ => Iff.rfl) fun _ h => h.2

/-! Conversions of one value. -/

theorem keeps_leaf {result : Value} (hArr : ∀ ref items, value = .arr ref items → result = value)
    (hObj : ∀ ref fields, value = .obj ref fields → result = value) : Keeps value result := by
  cases value with
  | arr ref items =>
    rw [hArr ref items rfl]
    exact .refl _
  | obj ref fields =>
    rw [hObj ref fields rfl]
    exact .refl _
  | null | bool | num | str => exact .of_primitive rfl fun ref fields h => by cases h

theorem convertLiteral_arr (literal : JsonValue) (ref : Nat) (items : List Value) :
    convertLiteral literal (.arr ref items) = .arr ref items := by
  cases literal <;> simp [convertLiteral, tryString, tryNumber, tryBoolean]

theorem convertLiteral_obj (literal : JsonValue) (ref : Nat) (fields : List (JsString × Value)) :
    convertLiteral literal (.obj ref fields) = .obj ref fields := by
  cases literal <;> simp [convertLiteral, tryString, tryNumber, tryBoolean]

theorem convertLiteral_equal {literal : JsonValue} (h : deepEqual literal value = true) :
    convertLiteral literal value = value := by
  cases value with
  | arr => exact convertLiteral_arr literal _ _
  | obj => exact convertLiteral_obj literal _ _
  | null | bool | num | str =>
    cases literal <;> simp_all [deepEqual, convertLiteral, tryString, tryNumber, tryBoolean]

variable {members : List JsonValue}

theorem convertEnum_leaf (h : ∀ member ∈ members, convertLiteral member value = value) :
    convertEnum g id members value = value := by
  unfold convertEnum
  split_ifs with hMember
  · rfl
  · have hNone : (members.find? fun member =>
        convertLiteral member value ≠ value ∧ g.check id (convertLiteral member value)) = none := by
      rw [find?_eq_none]
      intro member hIn
      simp [h member hIn]
    rw [hNone]

theorem convertEnum_equal (h : members.any (fun member => deepEqual member value) = true) :
    convertEnum g id members value = value := by
  cases value with
  | arr => exact convertEnum_leaf fun member _ => convertLiteral_arr member _ _
  | obj => exact convertEnum_leaf fun member _ => convertLiteral_obj member _ _
  | null | bool | num | str =>
    unfold convertEnum
    rw [if_pos]
    obtain ⟨member, hMember, hEqual⟩ := any_eq_true.mp h
    refine any_eq_true.mpr ⟨member, hMember, ?_⟩
    cases member <;> exact hEqual

theorem rule_cases (k : Keywords) :
    (∃ target, k.ref = some target ∧ k.rule = .ref target) ∨
      (∃ literal, k.const = some literal ∧ k.rule = .const literal) ∨
      (∃ members, k.enum = some members ∧ k.rule = .enum members) ∨
      (∃ branches, (k.anyOf = some branches ∨ k.oneOf = some branches) ∧ k.rule = .union branches) ∨
      (∃ members, k.allOf = some members ∧ k.rule = .allOf members) ∨ k.rule = k.typeRule := by
  unfold Keywords.rule
  split <;> simp_all

theorem typeRule_cases (k : Keywords) :
    k.type = some (.one .string) ∧ k.typeRule = .string ∨ k.type = some (.one .number) ∧ k.typeRule = .number ∨
      k.type = some (.one .integer) ∧ k.typeRule = .integer ∨ k.type = some (.one .boolean) ∧ k.typeRule = .boolean ∨
      k.type = some (.one .null) ∧ k.typeRule = .null ∨ k.typeRule = .array ∨ k.typeRule = .object ∨
      k.typeRule = .keep := by
  cases hType : k.type with
  | some keyword =>
    cases keyword with
    | one name => cases name <;> simp [Keywords.typeRule, hType]
    | list names => simp [Keywords.typeRule, hType]
  | none =>
    simp only [Keywords.typeRule, hType]
    split_ifs <;> simp

/-- The rules that wrap nothing. -/
def Rule.leaf : Rule → Bool
  | .const _ | .enum _ | .string | .number | .integer | .boolean | .null | .keep => true
  | _ => false

section Wraps

variable (hNode : g.node id = .object k)

include hNode

theorem wraps_iff : Wraps g id value ↔ (∃ target, k.rule = .ref target ∧ Wraps g target value) ∨
    (∃ members, k.rule = .allOf members ∧ ∃ member ∈ members, Wraps g member value) ∨
    (k.rule.members = true ∧ PartsSome (Wraps g) (k.membersOf value)) ∨
    (k.rule = .array ∧ (PartsSome (Wraps g) (k.itemsOf value) ∨ k.prefixItems = none ∧ value.isArray = false)) := by
  constructor
  · intro h
    cases h with
    | ref hOther hRule h =>
      obtain rfl := Node.object.inj (hNode.symm.trans hOther)
      exact .inl ⟨_, hRule, h⟩
    | allOf hOther hRule hMember h =>
      obtain rfl := Node.object.inj (hNode.symm.trans hOther)
      exact .inr (.inl ⟨_, hRule, _, hMember, h⟩)
    | field hOther hRule hField hSchema h =>
      obtain rfl := Node.object.inj (hNode.symm.trans hOther)
      exact .inr (.inr (.inl ⟨hRule, _, mem_map_of_mem hField, _, hSchema, h⟩))
    | @item _ ref schema i _ items item hOther hRule hItem hSchema h =>
      obtain rfl := Node.object.inj (hNode.symm.trans hOther)
      have hPart : ((k.itemSchemaAt i).toList, item) ∈ k.itemsOf (.arr ref items) :=
        mem_iff_getElem?.mpr ⟨i, by simp [Keywords.itemsOf, Keywords.itemParts, hItem]⟩
      exact .inr (.inr (.inr ⟨hRule, .inl ⟨_, hPart, schema, mem_toList.mpr hSchema, h⟩⟩))
    | single hOther hRule hTuple hSingle =>
      obtain rfl := Node.object.inj (hNode.symm.trans hOther)
      exact .inr (.inr (.inr ⟨hRule, .inr ⟨hTuple, hSingle⟩⟩))
  · rintro (⟨target, hRule, h⟩ | ⟨members, hRule, member, hMember, h⟩ | ⟨hRule, part, hPart, schema, hSchema, h⟩ |
      ⟨hRule, ⟨part, hPart, schema, hSchema, h⟩ | ⟨hTuple, hSingle⟩⟩)
    · exact .ref hNode hRule h
    · exact .allOf hNode hRule hMember h
    · cases value with
      | obj ref fields =>
        obtain ⟨field, hField, rfl⟩ := mem_map.mp hPart
        exact .field hNode hRule hField hSchema h
      | null | bool | num | str | arr => cases hPart
    · cases value with
      | arr ref items =>
        obtain ⟨i, hItem⟩ := mem_iff_getElem?.mp hPart
        simp only [Keywords.itemsOf, Keywords.itemParts, getElem?_mapIdx, map_eq_some_iff] at hItem
        obtain ⟨item, hItem, rfl⟩ := hItem
        exact .item hNode hRule hItem (mem_toList.mp hSchema) h
      | null | bool | num | str | obj => cases hPart
    · exact .single hNode hRule hTuple hSingle

theorem not_wraps_leaf (hRule : k.rule.leaf = true) : ¬ Wraps g id value := by
  rw [wraps_iff hNode]
  cases hKind : k.rule <;> simp [hKind, Rule.leaf, Rule.members] at hRule ⊢

theorem wraps_ref {target : Nat} (hRule : k.rule = .ref target) : Wraps g id value ↔ Wraps g target value := by
  rw [wraps_iff hNode]
  simp [hRule, Rule.members]

theorem wraps_union (hRule : k.rule = .union branches) : Wraps g id value ↔ PartsSome (Wraps g) (k.membersOf value) := by
  rw [wraps_iff hNode]
  simp [hRule, Rule.members]

theorem wraps_object (hRule : k.rule = .object) : Wraps g id value ↔ PartsSome (Wraps g) (k.membersOf value) := by
  rw [wraps_iff hNode]
  simp [hRule, Rule.members]

theorem wraps_allOf {members : List Nat} (hRule : k.rule = .allOf members) :
    Wraps g id value ↔ (∃ member ∈ members, Wraps g member value) ∨ PartsSome (Wraps g) (k.membersOf value) := by
  rw [wraps_iff hNode]
  simp [hRule, Rule.members]

theorem wraps_array (hRule : k.rule = .array) (hWalk : (k.prefixItems.isSome || value.isArray) = true) :
    Wraps g id value ↔ PartsSome (Wraps g) (k.itemsOf value) := by
  have hNot : ¬ (k.prefixItems = none ∧ value.isArray = false) := by
    rintro ⟨hTuple, hSingle⟩
    simp [hTuple, hSingle] at hWalk
  rw [wraps_iff hNode]
  simp [hRule, Rule.members, hNot]

end Wraps

/-! A node, and the whole pass. -/

theorem members_accepted (h : g.Accepts k value) : PartsAll (fun id value => g.check id value = true) (k.membersOf value) := by
  intro part hPart schema hSchema
  cases value with
  | obj ref fields =>
    obtain ⟨field, hField, rfl⟩ := mem_map.mp hPart
    exact h.fields ref fields rfl field hField schema hSchema
  | null | bool | num | str | arr => cases hPart

theorem items_accepted (h : g.Accepts k value) : PartsAll (fun id value => g.check id value = true) (k.itemsOf value) := by
  intro part hPart schema hSchema
  cases value with
  | arr ref items =>
    obtain ⟨i, hItem⟩ := mem_iff_getElem?.mp hPart
    simp only [Keywords.itemsOf, Keywords.itemParts, getElem?_mapIdx, map_eq_some_iff] at hItem
    obtain ⟨item, hItem, rfl⟩ := hItem
    exact h.items ref items rfl i item hItem schema (mem_toList.mp hSchema)
  | null | bool | num | str | obj => cases hPart

theorem members_above (h : Above g entered id value) : PartsAll (Above g entered) (k.membersOf value) := by
  intro part hPart schema hSchema
  cases value with
  | obj ref fields =>
    obtain ⟨field, hField, rfl⟩ := mem_map.mp hPart
    exact h.of_child (sizeOf_field hField)
  | null | bool | num | str | arr => cases hPart

theorem items_above (h : Above g entered id value) : PartsAll (Above g entered) (k.itemsOf value) := by
  intro part hPart schema hSchema
  cases value with
  | arr ref items =>
    obtain ⟨i, hItem⟩ := mem_iff_getElem?.mp hPart
    simp only [Keywords.itemsOf, Keywords.itemParts, getElem?_mapIdx, map_eq_some_iff] at hItem
    obtain ⟨item, hItem, rfl⟩ := hItem
    exact h.of_child (sizeOf_item (mem_of_getElem? hItem))
  | null | bool | num | str | obj => cases hPart

theorem leaf_fair {accepted wraps above : Prop} {result : Value} (hGood : Good g m) (hWraps : ¬ wraps)
    (hArr : ∀ ref items, value = .arr ref items → result = value)
    (hObj : ∀ ref fields, value = .obj ref fields → result = value) (hStays : accepted → result = value) :
    Fair g accepted wraps above value m (result, m) :=
  ⟨hGood, Nat.le_refl _, keeps_leaf hArr hObj, fun hOk _ => hStays hOk, fun _ h => absurd h hWraps⟩

theorem matches_type (h : g.Accepts k value) {name : TypeName} (hType : k.type = some (.one name)) :
    matchesType name value = true := by
  have hAlone := h.alone
  simp only [Keywords.checkValue, hType, typesOf, Bool.and_eq_true] at hAlone
  simpa using hAlone.1.1.2

section

variable (hNested : ∀ entered, Converts g entered (nested entered))

include hNested

theorem convertArray_fair (hNode : g.node id = .object k)
    (hRule : k.rule = .array) (hGood : Good g m) (hMade : convertArray g nested entered k value m = some made) :
    Fair g (g.check id value = true) (Wraps g id value) (Above g entered id value) value m made := by
  unfold convertArray at hMade
  split_ifs at hMade with hWalk
  · exact (mapItems_fair (hNested entered) hGood hMade).imp
      (fun hOk => items_accepted (Graph.accepts_of_check hNode hOk)) (fun _ => wraps_array hNode hRule hWalk)
      fun _ => items_above
  · simp only [Bool.or_eq_true, not_or, Bool.not_eq_true, isSome_eq_false_iff, isNone_iff_eq_none] at hWalk
    have hWraps : Wraps g id value := .single hNode hRule hWalk.1 hWalk.2
    obtain ⟨inner, hInner, rfl⟩ := map_eq_some_iff.mp hMade
    have hAfter : Good g inner.2 ∧ m.cuts ≤ inner.2.cuts := by
      split at hInner
      next item hItem =>
        split_ifs at hInner
        · have hFair := reenter_fair hNested hGood hInner
          exact ⟨hFair.good, hFair.cuts⟩
        · obtain rfl := some.inj hInner
          exact ⟨hGood, Nat.le_refl _⟩
      next hItem =>
        obtain rfl := some.inj hInner
        exact ⟨hGood, Nat.le_refl _⟩
    exact ⟨hAfter.1, hAfter.2, .wrap _ _ hWalk.2, fun _ hNot => absurd hWraps hNot, fun _ _ _ => .single _ _ hWalk.2⟩

theorem convertRef_fair (hNode : g.node id = .object k)
    {target : Nat} (hRule : k.rule = .ref target) (hRef : k.ref = some target) (hGood : Good g m)
    (hMade : (if g.isObject target then reenter nested entered true target value m else some (value, m)) = some made) :
    Fair g (g.check id value = true) (Wraps g id value) (Above g entered id value) value m made := by
  have hLower : g.rank target < g.rank id := Graph.descends_ref hNode (by simp [hRef])
  split_ifs at hMade with hObject
  · refine (reenter_fair hNested hGood hMade).imp (fun hOk => ?_) (fun _ => wraps_ref hNode hRule) fun _ hAbove => ?_
    · exact (Graph.accepts_of_check hNode hOk).ref target hRef
    · exact ⟨hAbove.not_entered hLower, (hAbove.of_lower hLower).push⟩
  · obtain rfl := some.inj hMade
    refine .unchanged hGood fun h => ?_
    -- A boolean schema wraps nothing.
    have hTarget := (wraps_ref hNode hRule).mp h
    have hBool : ∀ k, g.node target ≠ .object k := fun k hNode => by simp [Graph.isObject, hNode] at hObject
    cases hTarget with
    | ref hOther | allOf hOther | field hOther | item hOther | single hOther => exact hBool _ hOther

theorem typeRule_fair (hNode : g.node id = .object k)
    (hType : k.rule = k.typeRule) (hGood : Good g m) (hMade : convertRule g nested entered id k value m = some made) :
    Fair g (g.check id value = true) (Wraps g id value) (Above g entered id value) value m made := by
  have hAccepts : g.check id value = true → g.Accepts k value := Graph.accepts_of_check hNode
  rcases typeRule_cases k with ⟨hName, hRule⟩ | ⟨hName, hRule⟩ | ⟨hName, hRule⟩ | ⟨hName, hRule⟩ | ⟨hName, hRule⟩ |
    hRule | hRule | hRule <;> rw [← hType] at hRule <;> simp only [convertRule, hRule] at hMade
  case inr.inr.inr.inr.inr.inl => exact convertArray_fair hNested hNode hRule hGood hMade
  case inr.inr.inr.inr.inr.inr.inl =>
    exact (mapFields_fair (hNested entered) hGood hMade).imp (fun hOk => members_accepted (hAccepts hOk))
      (fun _ => wraps_object hNode hRule) fun _ => members_above
  all_goals
    obtain rfl := some.inj hMade
    refine leaf_fair hGood (not_wraps_leaf hNode (by rw [hRule]; rfl)) (by rintro ref items rfl; rfl)
      (by rintro ref fields rfl; rfl) fun hOk => ?_
  case inr.inr.inr.inr.inr.inr.inr => rfl
  all_goals
    have hMatches := matches_type (hAccepts hOk) hName
    cases value <;> simp_all [matchesType, tryString, tryNumber, tryBoolean, tryNull, trunc]

theorem convertWith_fair (entered : Entered) : Converts g entered (convertWith g nested entered) := by
  intro id value m made hGood hMade
  unfold convertWith at hMade
  cases hNode : g.node id with simp only [hNode] at hMade
  | bool accepts =>
    obtain rfl := some.inj hMade
    refine .unchanged hGood fun h => ?_
    cases h with
    | ref hOther | allOf hOther | field hOther | item hOther | single hOther => rw [hNode] at hOther; cases hOther
  | object k =>
    have hAccepts : g.check id value = true → g.Accepts k value := Graph.accepts_of_check hNode
    rcases rule_cases k with ⟨target, hRef, hRule⟩ | ⟨literal, hConst, hRule⟩ | ⟨members, hEnum, hRule⟩ |
      ⟨branches, hUnion, hRule⟩ | ⟨members, hAllOf, hRule⟩ | hType
    · simp only [convertRule, hRule] at hMade
      exact convertRef_fair hNested hNode hRule hRef hGood hMade
    · simp only [convertRule, hRule] at hMade
      obtain rfl := some.inj hMade
      refine leaf_fair hGood (not_wraps_leaf hNode (by rw [hRule]; rfl)) (fun ref items hArr => ?_)
        (fun ref fields hObj => ?_) fun hOk => convertLiteral_equal ?_
      · rw [hArr, convertLiteral_arr]
      · rw [hObj, convertLiteral_obj]
      have hAlone := (hAccepts hOk).alone
      simp only [Keywords.checkValue, hConst, Bool.and_eq_true] at hAlone
      exact hAlone.2
    · simp only [convertRule, hRule] at hMade
      obtain rfl := some.inj hMade
      refine leaf_fair hGood (not_wraps_leaf hNode (by rw [hRule]; rfl)) (fun ref items hArr => ?_)
        (fun ref fields hObj => ?_) fun hOk => convertEnum_equal ?_
      · exact convertEnum_leaf fun member _ => by rw [hArr, convertLiteral_arr]
      · exact convertEnum_leaf fun member _ => by rw [hObj, convertLiteral_obj]
      · have hAlone := (hAccepts hOk).alone
        simp only [Keywords.checkValue, hEnum, all_some, Bool.and_eq_true] at hAlone
        exact hAlone.1.2
    · simp only [convertRule, hRule] at hMade
      refine (convertUnion_fair (hNested entered) hGood hMade).imp (fun hOk => ⟨?_, members_accepted (hAccepts hOk)⟩)
        (fun _ => wraps_union hNode hRule) fun _ => members_above
      rcases hUnion with hAny | hOne
      · exact (hAccepts hOk).anyOf branches hAny
      · exact (hAccepts hOk).oneOf branches hOne
    · simp only [convertRule, hRule] at hMade
      refine (allOf_fair (hNested entered) hGood hMade).imp
        (fun hOk => ⟨fun member hMember => ?_, members_accepted (hAccepts hOk)⟩) (fun _ => wraps_allOf hNode hRule)
        fun _ hAbove => ⟨fun member hMember => ?_, members_above hAbove⟩
      · exact (hAccepts hOk).allOf member (by rw [hAllOf]; exact hMember)
      · exact hAbove.of_lower (Graph.descends_allOf hNode (by rw [hAllOf]; exact hMember))
    · exact typeRule_fair hNested hNode hType hGood hMade

end

theorem convert_fair (g : Graph) (fuel : Nat) (entered : Entered) : Converts g entered (convert g fuel entered) := by
  induction fuel generalizing entered with
  | zero =>
    intro id value m made hGood hMade
    cases hMade
  | succ fuel ih => exact convertWith_fair ih entered

end OctoberHarness.Schema
