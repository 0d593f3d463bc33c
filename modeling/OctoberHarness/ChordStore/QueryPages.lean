import OctoberHarness.ChordStore.Query
import OctoberHarness.Json.WellFormed
import OctoberHarness.Library.Paging

/-! The pages of a query hold every row of it once, in the order of code points and integers. -/
namespace OctoberHarness.TableQuery

open List Option

theorem codePointRank_injective {x y : UInt16} (h : codePointRank x = codePointRank y) : x = y := by
  have hBounds := And.intro x.toNat_lt y.toNat_lt
  have hValue : x.toNat = y.toNat := by
    rw [codePointRank, codePointRank] at h
    split_ifs at h <;> omega
  exact UInt16.toNat_inj.mp hValue

theorem compareText_neg (a b : JsString) : compareText a b < 0 ↔ a.map codePointRank < b.map codePointRank := by
  induction a generalizing b with
  | nil =>
    cases b with
    | nil => simp [compareText]
    | cons y b =>
      have hNeg : compareText [] (y :: b) < 0 := by
        simp only [compareText, length_nil, length_cons]
        omega
      exact ⟨fun _ => nil_lt_cons _ _, fun _ => hNeg⟩
  | cons x a ih =>
    cases b with
    | nil =>
      have hPos : ¬ compareText (x :: a) [] < 0 := by
        simp only [compareText, length_nil, length_cons]
        omega
      exact ⟨fun h => absurd h hPos, fun h => absurd h (not_lt_nil _)⟩
    | cons y b =>
      rw [compareText, map_cons, map_cons, cons_lt_cons_iff]
      by_cases hSame : x = y
      · rw [if_neg (not_not.mpr hSame), ih, hSame]
        simp
      · have hRank : codePointRank x ≠ codePointRank y := fun h => hSame (codePointRank_injective h)
        rw [if_pos hSame]
        constructor
        · exact fun h => .inl (by omega)
        · rintro (h | ⟨h, -⟩)
          · omega
          · exact absurd h hRank

def rankCode (c : Char) : List Nat :=
  (Utf16.units c).map codePointRank

theorem keeps_rankCode : LexOrder.Keeps rankCode := by
  intro c d hLess
  have hValue : c.toNat < d.toNat := hLess
  rw [rankCode, rankCode]
  rcases Utf16.units_cases c with ⟨u, hUnits, hHigh, hLow, hUnit⟩ | ⟨h, l, hUnits, hHigh, hLow, -, hUnit⟩ <;>
    rcases Utf16.units_cases d with ⟨u', hUnits', hHigh', hLow', hUnit'⟩ | ⟨h', l', hUnits', hHigh', hLow', -, hUnit'⟩ <;>
    rw [hUnits, hUnits'] <;>
    simp only [Utf16.isHigh, Utf16.isLow, Bool.and_eq_true, Bool.and_eq_false_iff, decide_eq_true_eq,
      decide_eq_false_iff_not, UInt16.le_iff_toNat_le, UInt16.reduceToNat] at hHigh hLow hHigh' hLow'
  · refine .head ?_ _ _
    rw [codePointRank, codePointRank]
    split_ifs <;> omega
  · have hBound := u.toNat_lt
    refine .head ?_ _ _
    rw [codePointRank, codePointRank]
    split_ifs <;> omega
  · have hBound := u'.toNat_lt
    omega
  · rcases Nat.lt_or_ge h.toNat h'.toNat with hFirst | hFirst
    · refine .head ?_ _ _
      rw [codePointRank, codePointRank]
      split_ifs <;> omega
    · have hSame : h = h' := UInt16.toNat_inj.mp (by omega)
      refine .cons (by rw [hSame]) (.head ?_ _ _)
      rw [codePointRank, codePointRank]
      split_ifs <;> omega

theorem rankCode_ne_nil (c : Char) : rankCode c ≠ [] := by
  rw [rankCode]
  rcases Utf16.units_cases c with ⟨u, hUnits, -⟩ | ⟨h, l, hUnits, -⟩ <;>
    (rw [hUnits]; exact cons_ne_nil _ _)

theorem compareText_encode (a b : List Char) : compareText (Utf16.encode a) (Utf16.encode b) < 0 ↔ a < b := by
  have hMap : ∀ text, (Utf16.encode text).map codePointRank = text.flatMap rankCode := fun text => map_flatMap
  rw [compareText_neg, hMap, hMap]
  exact LexOrder.flatMap_lt_iff keeps_rankCode rankCode_ne_nil a b

theorem toNat_ofNat {n : Nat} (h : n.isValidChar) : (Char.ofNat n).toNat = n := by
  rw [Char.ofNat, dif_pos h]
  rfl

theorem toNat_bounds (c : Char) : c.toNat < 0x110000 ∧ ¬ (0xD800 ≤ c.toNat ∧ c.toNat < 0xE000) := by
  rcases c.valid with hLow | ⟨hMiddle, hHigh⟩
  · have hLow : c.toNat < 0xD800 := hLow
    omega
  · have hMiddle : 0xDFFF < c.toNat := hMiddle
    have hHigh : c.toNat < 0x110000 := hHigh
    omega

theorem toNat_nextPoint {c : Char} (hLast : c.toNat ≠ 0x10FFFF) :
    (nextPoint c).toNat = if c.toNat = 0xD7FF then 0xE000 else c.toNat + 1 := by
  have hBounds := toNat_bounds c
  rw [nextPoint]
  split_ifs with hGap
  · exact toNat_ofNat (.inr ⟨by decide, by decide⟩)
  · apply toNat_ofNat
    rcases Nat.lt_or_ge c.toNat 0xD7FF with hSmall | hLarge
    · exact .inl (by omega)
    · exact .inr ⟨by omega, by omega⟩

theorem lt_nextPoint {c : Char} (hLast : c.toNat ≠ 0x10FFFF) (d : Char) : d < nextPoint c ↔ d ≤ c := by
  have hNext := toNat_nextPoint hLast
  have hBounds := toNat_bounds d
  have hLess : d < nextPoint c ↔ d.toNat < (nextPoint c).toNat := Iff.rfl
  have hLe : d ≤ c ↔ d.toNat ≤ c.toNat := Iff.rfl
  rw [hLess, hLe, hNext]
  split_ifs <;> omega

theorem between {first a b s : List Char} (hLower : ¬ s < first ++ a) (hUpper : s < first ++ b) :
    ∃ t, s = first ++ t ∧ ¬ t < a ∧ t < b := by
  induction first generalizing s with
  | nil => exact ⟨s, rfl, hLower, hUpper⟩
  | cons c rest ih =>
    cases s with
    | nil => exact absurd (nil_lt_cons _ _) hLower
    | cons d s =>
      rw [cons_append, cons_lt_cons_iff] at hLower hUpper
      rw [not_or, not_and] at hLower
      rcases hUpper with hLess | ⟨rfl, hRest⟩
      · exact absurd hLess hLower.1
      · obtain ⟨t, rfl, hRange⟩ := ih (hLower.2 rfl) hRest
        exact ⟨t, rfl, hRange⟩

theorem not_append_lt (first t : List Char) : ¬ first ++ t < first := by
  induction first with
  | nil => exact not_lt_nil _
  | cons c rest ih =>
    rw [cons_append, cons_lt_cons_iff]
    rintro (hLess | ⟨-, hRest⟩)
    · exact lt_irrefl _ hLess
    · exact ih hRest

theorem inRange_iff (points s : List Char) :
    (¬ s < points ∧ ∀ upper, prefixUpperBound points = some upper → s < upper) ↔ points <+: s := by
  rw [prefixUpperBound]
  induction points using reverseRecOn with
  | nil =>
    refine ⟨fun _ => nil_prefix, fun _ => ⟨not_lt_nil _, fun upper hUpper => ?_⟩⟩
    cases hUpper
  | append_singleton points c ih =>
    rw [reverse_append, reverse_singleton, singleton_append, upperBoundOf, reverse_reverse]
    by_cases hLast : c.toNat = 0x10FFFF
    · rw [if_pos hLast]
      have hMax : ∀ d : Char, ¬ d < c → d = c := by
        intro d hd
        have hBounds := toNat_bounds d
        have hValue : ¬ d.toNat < c.toNat := hd
        exact Char.ext (UInt32.toNat_inj.mp (show d.toNat = c.toNat by omega))
      constructor
      · rintro ⟨hLower, hUpper⟩
        have hStart : ¬ s < points := by
          intro hLess
          rcases lt_trichotomy points (points ++ [c]) with hMore | hSame | hFewer
          · exact hLower (lt_trans hLess hMore)
          · exact absurd (congrArg length hSame) (by simp)
          · exact not_append_lt points [c] hFewer
        obtain ⟨t, rfl⟩ := ih.mp ⟨hStart, hUpper⟩
        cases t with
        | nil =>
          rw [append_nil] at hLower
          exact absurd (by simpa using LexOrder.append_lt_append points (nil_lt_cons c [])) hLower
        | cons d t =>
          have hNot : ¬ d < c := fun hLess => hLower (LexOrder.append_cons_lt points hLess t [])
          rw [hMax d hNot]
          exact ⟨t, by simp⟩
      · rintro ⟨t, rfl⟩
        refine ⟨not_append_lt _ _, (ih.mpr ⟨c :: t, by simp⟩).2⟩
    · rw [if_neg hLast]
      constructor
      · rintro ⟨hLower, hUpper⟩
        obtain ⟨t, rfl, hFrom, hTo⟩ := between hLower (hUpper _ rfl)
        cases t with
        | nil => exact absurd (nil_lt_cons _ _) hFrom
        | cons d t =>
          rw [cons_lt_cons_iff] at hFrom hTo
          have hLess : d < nextPoint c := by
            rcases hTo with hLess | ⟨-, hNil⟩
            · exact hLess
            · exact absurd hNil (not_lt_nil _)
          rw [not_or] at hFrom
          obtain rfl := le_antisymm ((lt_nextPoint hLast d).mp hLess) (not_lt.mp hFrom.1)
          exact ⟨t, by simp⟩
      · rintro ⟨t, rfl⟩
        refine ⟨not_append_lt _ _, fun upper hUpper => ?_⟩
        obtain rfl := some.inj hUpper
        rw [append_assoc]
        exact LexOrder.append_cons_lt points ((lt_nextPoint hLast c).mpr (le_refl c)) t []

theorem prefixCondition_true {α : Type} (column : JsString) (points : List Char) (row : Row α) :
    prefixCondition column points row = some true ↔ ∃ text, row.cell column = .text text ∧ points <+: text := by
  rw [prefixCondition]
  cases hCell : row.cell column with
  | null => simp
  | integer n => cases hUpper : prefixUpperBound points <;> simp [SqliteValue.less]
  | text text =>
    have hLess : ∀ other, (SqliteValue.text text).less (.text other) = true ↔ text < other :=
      fun other => Utf8.bytesLess_encode text other
    have hRange := inRange_iff points text
    cases hUpper : prefixUpperBound points with
    | none =>
      rw [hUpper] at hRange
      simp only [reduceCtorEq, ↓reduceIte, some.injEq, Bool.not_eq_true', ← Bool.not_eq_true, hLess]
      simpa using hRange
    | some upper =>
      rw [hUpper] at hRange
      simp only [reduceCtorEq, ↓reduceIte, some.injEq, Bool.and_eq_true, Bool.not_eq_true', ← Bool.not_eq_true, hLess]
      simpa using hRange

/-- What a cell of an order column holds. -/
def Typed (table : TableDefinition) (name : JsString) (value : SqliteValue) : Prop :=
  (table.typeOf name = some .str ∧ ∃ text, value = .text text ∧ Char.ofNat 0 ∉ text) ∨
    table.typeOf name = some .int ∧ ∃ n, value = .integer n ∧ n.natAbs ≤ MAX_SAFE_INTEGER

theorem integerOf_numberOf (n : Int) : integerOf (numberOf n) = some n := by
  rw [numberOf, JsonText.ofDecimal]
  by_cases hZero : n.natAbs = 0
  · have hInt : n = 0 := Int.natAbs_eq_zero.mp hZero
    rw [dif_pos hZero, integerOf, if_pos (le_refl _), hInt]
    rfl
  · have hValue := JsNumber.stripTens_value n.natAbs n.natAbs 0
    rw [pow_zero, Nat.mul_one] at hValue
    rw [dif_neg hZero, integerOf]
    simp only [Int.zero_add, Int.natCast_nonneg, if_true, Int.toNat_natCast, some.injEq]
    have hCast : ((JsNumber.stripTens n.natAbs n.natAbs 0).1 : Int) * 10 ^ (JsNumber.stripTens n.natAbs n.natAbs 0).2 =
        (n.natAbs : Int) := by
      rw [← hValue]
      push_cast
      rw [hValue]
    by_cases hNeg : n < 0
    · rw [if_pos (decide_eq_true hNeg), Int.neg_mul, hCast]
      omega
    · rw [if_neg (by simpa using hNeg), hCast]
      omega

theorem zero_notMem_encode {text : List Char} (h : Char.ofNat 0 ∉ text) : (0 : UInt16) ∉ Utf16.encode text := by
  rw [Utf16.encode, mem_flatMap]
  rintro ⟨c, hMem, hZero⟩
  rcases Utf16.units_cases c with ⟨u, hUnits, -, -, hUnit⟩ | ⟨high, low, hUnits, hHigh, hLow, -⟩
  · rw [hUnits, mem_singleton] at hZero
    rw [← hZero] at hUnit
    have hChar : c = Char.ofNat 0 := Char.ext (UInt32.toNat_inj.mp hUnit.symm)
    exact h (hChar ▸ hMem)
  · rw [hUnits] at hZero
    rcases mem_cons.mp hZero with rfl | hZero
    · exact absurd hHigh (by decide)
    · rw [← mem_singleton.mp hZero] at hLow
      exact absurd hLow (by decide)

variable {table : TableDefinition}

theorem checkScalar_cellJson {name : JsString} {value : SqliteValue}
    (h : Typed table name value) : ((table.typeOf name).bind fun type => checkScalar type (cellJson value)) = some value := by
  rcases h with ⟨hType, text, rfl, hNul⟩ | ⟨hType, n, rfl, hSafe⟩
  · rw [hType, bind_some, cellJson, checkScalar, storedText, if_neg (zero_notMem_encode hNul),
      Utf16.decode_encode]
    rfl
  · rw [hType, bind_some, cellJson, checkScalar, integerOf_numberOf, bind_some, if_pos hSafe]

theorem checkValues (columns : List JsString) (value : JsString → SqliteValue)
    (h : ∀ name ∈ columns, Typed table name (value name)) :
    ((columns.zip ((columns.map value).map cellJson)).mapM fun entry =>
      (table.typeOf entry.1).bind fun type => checkScalar type entry.2) = some (columns.map value) := by
  induction columns with
  | nil => rfl
  | cons name rest ih =>
    rw [map_cons, map_cons, zip_cons_cons, mapM_cons,
      checkScalar_cellJson (h name mem_cons_self), ih fun other hOther => h other (mem_cons_of_mem _ hOther)]
    rfl

theorem strict_cellJson (value : SqliteValue) : (cellJson value).Strict := by
  cases value <;> trivial

theorem strict_columnsJson (columns : List JsString) : (columnsJson columns).Strict := by
  rw [columnsJson, JsonValue.strict_arr]
  intro x hx
  obtain ⟨name, -, rfl⟩ := mem_map.mp hx
  trivial

theorem decodeText_stringify {fields : Fields} :
    decodeText (Utf8.encode (Utf16.decode (JsonValue.obj fields).stringify)) =
      some (Utf16.decode (JsonValue.obj fields).stringify) := by
  have hDecode : (Utf8.encode (Utf16.decode (JsonValue.obj fields).stringify)).toByteArray.utf8Decode? =
      some (Utf16.decode (JsonValue.obj fields).stringify).toArray := utf8Decode?_utf8Encode
  have hHead : (Utf16.decode (JsonValue.obj fields).stringify).head? ≠ some (Char.ofNat 0xFEFF) := by
    rw [JsonValue.stringify]
    cases hRest : JsonValue.stringify.stringifyFields fields with
    | nil => decide
    | cons unit rest =>
      rw [Utf16.decode, show Utf16.isHigh 123 = false by decide, Bool.false_and, if_neg Bool.false_ne_true,
        head?_cons]
      decide
  rw [decodeText, hDecode, map_some, if_neg hHead]

theorem decodeCursor_encodeCursor (sqlName : JsString) (order : Order)
    (value : JsString → SqliteValue) (h : ∀ name ∈ order.columns, Typed table name (value name)) :
    decodeCursor table sqlName order (encodeCursor sqlName order (order.columns.map value)) =
      some (order.columns.map value) := by
  set json : Fields := [(js "t", .str sqlName), (js "o", columnsJson order.columns), (js "d", .str order.direction.text),
    (js "v", .arr ((order.columns.map value).map cellJson))] with hJson
  have hStrict : (JsonValue.obj json).Strict := by
    have hKeys : OwnKeys [js "t", js "o", js "d", js "v"] := ⟨by decide, by decide⟩
    have hValues : (JsonValue.arr ((order.columns.map value).map cellJson)).Strict := by
      rw [JsonValue.strict_arr]
      intro x hx
      obtain ⟨cell, -, rfl⟩ := mem_map.mp hx
      exact strict_cellJson cell
    rw [JsonValue.strict_obj]
    refine ⟨hKeys, fun f hf => ?_⟩
    simp only [hJson, mem_cons, not_mem_nil, or_false] at hf
    rcases hf with rfl | rfl | rfl | rfl
    · trivial
    · exact strict_columnsJson order.columns
    · trivial
    · exact hValues
  have hText : Utf16.encode (Utf16.decode (JsonValue.obj json).stringify) = (JsonValue.obj json).stringify := by
    obtain ⟨text, hText⟩ := JsonText.wellFormed_stringify (.obj json)
    rw [hText, Utf16.decode_encode]
  have hParsed : ((Base64.decodeUrl (encodeCursor sqlName order (order.columns.map value))).bind fun bytes =>
      (decodeText bytes).bind fun text => JsonText.parse (Utf16.encode text)) = some (.obj json) := by
    rw [encodeCursor, Base64.decodeUrl_encodeUrl, bind_some]
    show ((decodeText (Utf8.encode (Utf16.decode (JsonValue.obj json).stringify))).bind _) = _
    rw [decodeText_stringify, bind_some, hText, JsonText.parse_stringify _ hStrict]
  have hTable : field (.obj json) (js "t") = some (.str sqlName) := rfl
  have hDirection : field (.obj json) (js "d") = some (.str order.direction.text) := rfl
  have hColumns : field (.obj json) (js "o") = some (columnsJson order.columns) := rfl
  have hValues : field (.obj json) (js "v") = some (.arr ((order.columns.map value).map cellJson)) := rfl
  rw [decodeCursor, hParsed]
  show (if _ then _ else _) = _
  rw [hTable, hDirection, hColumns, hValues, if_neg (by simp)]
  show (if _ then _ else _) = _
  rw [if_neg (by simp)]
  exact checkValues order.columns value h

/-! The order of rows. -/

/-- A value in a linear order: its storage class, and its integer or its text. -/
def valueKey : SqliteValue → ℕ ×ₗ ℤ ×ₗ List Char
  | .null => toLex (0, toLex (0, []))
  | .integer n => toLex (1, toLex (n, []))
  | .text text => toLex (2, toLex (0, text))

theorem valueKey_injective : Function.Injective valueKey := by
  intro x y h
  cases x <;> cases y <;> simp [valueKey] at h ⊢
  · exact h
  · exact h

theorem less_iff (x y : SqliteValue) : x.less y = true ↔ valueKey x < valueKey y := by
  cases x <;> cases y <;> simp [SqliteValue.less, valueKey, Prod.Lex.toLex_lt_toLex, Utf8.bytesLess_encode]

theorem lessRow_iff (first second : List SqliteValue) :
    lessRow first second = true ↔ first.map valueKey < second.map valueKey := by
  induction first generalizing second with
  | nil =>
    cases second with
    | nil => simp [lessRow]
    | cons y second => exact ⟨fun _ => nil_lt_cons _ _, fun _ => rfl⟩
  | cons x first ih =>
    cases second with
    | nil => exact ⟨(fun h => by cases h), fun h => absurd h (not_lt_nil _)⟩
    | cons y second =>
      rw [lessRow, map_cons, map_cons, cons_lt_cons_iff, Bool.or_eq_true, Bool.and_eq_true, less_iff, ih,
        decide_eq_true_eq, valueKey_injective.eq_iff]

section Order

variable {α : Type} (order : Order)

/-- Whether the second row comes after the first. -/
def after (a b : Row α) : Bool :=
  isAfter order (orderValues order a) b

/-- The values of a row in a linear order. -/
def rowKey (row : Row α) : List (ℕ ×ₗ ℤ ×ₗ List Char) :=
  (orderValues order row).map valueKey

theorem after_iff (a b : Row α) :
    after order a b = true ↔
      match order.direction with
      | .asc => rowKey order a < rowKey order b
      | .desc => rowKey order b < rowKey order a := by
  rw [after, isAfter]
  cases order.direction with
  | asc => exact lessRow_iff _ _
  | desc => exact lessRow_iff _ _

theorem after_asymm (a b : Row α) (h : after order a b = true) : after order b a = false := by
  rw [← Bool.not_eq_true]
  rw [after_iff] at h ⊢
  cases hDirection : order.direction <;> rw [hDirection] at h <;> exact lt_asymm h

theorem after_irrefl (a : Row α) : after order a a = false := by
  rw [← Bool.not_eq_true, after_iff]
  cases order.direction <;> exact lt_irrefl _

/-- `ORDER BY`. -/
def inOrder (a b : Row α) : Prop :=
  after order b a = false

instance : DecidableRel (inOrder order : Row α → Row α → Prop) := fun a b =>
  inferInstanceAs (Decidable (after order b a = false))

theorem inOrder_iff (a b : Row α) :
    inOrder order a b ↔
      match order.direction with
      | .asc => rowKey order a ≤ rowKey order b
      | .desc => rowKey order b ≤ rowKey order a := by
  rw [inOrder, ← Bool.not_eq_true, after_iff]
  cases order.direction <;> exact not_lt

instance : Std.Total (inOrder order : Row α → Row α → Prop) where
  total a b := by
    rw [inOrder_iff, inOrder_iff]
    cases order.direction with
    | asc => exact le_total _ _
    | desc => exact le_total _ _

instance : IsTrans (Row α) (inOrder order) where
  trans a b c hFirst hSecond := by
    rw [inOrder_iff] at *
    cases hDirection : order.direction with
    | asc =>
      rw [hDirection] at hFirst hSecond
      exact le_trans hFirst hSecond
    | desc =>
      rw [hDirection] at hFirst hSecond
      exact le_trans hSecond hFirst

theorem after_of_ne {a b : Row α} (h : inOrder order a b) (hValues : orderValues order a ≠ orderValues order b) :
    after order a b = true := by
  have hKeys : rowKey order a ≠ rowKey order b := fun hSame => hValues (valueKey_injective.list_map hSame)
  rw [inOrder_iff] at h
  rw [after_iff]
  cases hDirection : order.direction with
  | asc =>
    rw [hDirection] at h
    exact lt_of_le_of_ne h hKeys
  | desc =>
    rw [hDirection] at h
    exact lt_of_le_of_ne h hKeys.symm

theorem eq_of_after {first second : List (Row α)} (hPerm : first.Perm second)
    (hFirst : first.Pairwise fun a b => after order a b = true)
    (hSecond : second.Pairwise fun a b => after order a b = true) : first = second := by
  apply List.Perm.eq_of_pairwise _ hFirst hSecond hPerm
  intro a b _ _ hAfter hBefore
  rw [after_asymm order a b hAfter] at hBefore
  cases hBefore

end Order

/-- The rows of a table: cells of their types, and one row for a key. -/
structure Content (table : TableDefinition) (α : Type) where
  rows : List (Row α)
  typed : ∀ row ∈ rows, ∀ name, isOrderColumn table.columns name = true → Typed table name (row.cell name)
  distinct : rows.Pairwise fun a b => table.key.map a.cell ≠ table.key.map b.cell

section Pages

variable {table : TableDefinition} {α : Type} (content : Content table α) (query : Query table α)

/-- The rows that meet the condition. -/
def Query.keeps (row : Row α) : Bool :=
  query.condition.all fun condition => condition row = some true

theorem mem_order {name : JsString} (h : name ∈ query.order.columns) : isOrderColumn table.columns name = true := by
  rcases mem_append.mp h with hOrdered | hKey
  · exact query.orderColumns name hOrdered
  · exact table.orderColumns name (mem_filter.mp hKey).1

variable {b a : Row α}

theorem values_ne (h : table.key.map a.cell ≠ table.key.map b.cell) :
    orderValues query.order a ≠ orderValues query.order b := by
  intro hSame
  apply h
  apply map_congr_left
  intro name hName
  have hOrder : name ∈ query.order.columns := by
    by_cases hOrdered : name ∈ query.ordered
    · exact mem_append_left _ hOrdered
    · exact mem_append_right _ (mem_filter.mpr ⟨hName, by simpa using hOrdered⟩)
  exact map_inj_left.mp hSame name hOrder

/-- The rows of a query in its order. -/
def sorted (after : Option (List SqliteValue)) : List (Row α) :=
  (content.rows.filter (selected query.condition query.order after)).insertionSort (inOrder query.order)

variable (position : Option (List SqliteValue))

theorem select_eq (limit : Nat) :
    select content.rows query.condition query.order position limit = (sorted content query position).take limit :=
  rfl

theorem perm_sorted :
    (sorted content query position).Perm (content.rows.filter (selected query.condition query.order position)) :=
  perm_insertionSort _ _

theorem sorted_after :
    (sorted content query position).Pairwise fun a b => after query.order a b = true := by
  have hKeys : (sorted content query position).Pairwise fun a b => table.key.map a.cell ≠ table.key.map b.cell :=
    ((perm_sorted content query position).pairwise_iff fun h => Ne.symm h).mpr
      (content.distinct.sublist filter_sublist)
  have hOrder := pairwise_insertionSort (inOrder query.order)
    (content.rows.filter (selected query.condition query.order position))
  exact hOrder.imp₂ (fun a b h hNe => after_of_ne query.order h (values_ne query hNe)) hKeys

theorem sorted_some (last : Row α) :
    sorted content query (some (orderValues query.order last)) =
      (sorted content query none).filter (after query.order last) := by
  apply eq_of_after query.order _ (sorted_after content query _)
    ((sorted_after content query none).sublist filter_sublist)
  apply (perm_sorted content query _).trans
  apply List.Perm.trans _ ((perm_sorted content query none).filter _).symm
  rw [List.filter_filter]
  apply List.Perm.of_eq
  apply filter_congr
  intro row _
  rw [selected, selected, all_some, all_none, Bool.and_true, Bool.and_comm]
  rfl

/-- A page behind a first part of the rows holds the next of them. -/
theorem page_resumes (sqlName : JsString) {limit : Nat} (hLimit : 1 ≤ limit) (hSafe : limit ≤ MAX_SAFE_INTEGER)
    {done rest : List (Row α)} (hAll : sorted content query none = done ++ rest) :
    page sqlName content.rows query limit
        (done.getLast?.map fun last => encodeCursor sqlName query.order (orderValues query.order last)) =
      .ok
        { items := rest.take limit
          next := if rest.length ≤ limit then none
            else (rest.take limit).getLast?.map fun last => encodeCursor sqlName query.order (orderValues query.order last) } := by
  have hStored : ∀ position, (sorted content query position = rest) →
      (let stored := select content.rows query.condition query.order position (limit + 1)
        if limit < stored.length then
          let items := stored.take limit
          (Except.ok { items, next := items.getLast?.map fun last =>
            encodeCursor sqlName query.order (orderValues query.order last) } : Except PageError (Page α))
        else .ok { items := stored, next := none }) =
      .ok
        { items := rest.take limit
          next := if rest.length ≤ limit then none
            else (rest.take limit).getLast?.map fun last =>
              encodeCursor sqlName query.order (orderValues query.order last) } := by
    intro position hSorted
    rw [select_eq, hSorted]
    show (if limit < (rest.take (limit + 1)).length then _ else _) = _
    rw [length_take]
    by_cases hLast : rest.length ≤ limit
    · rw [if_neg (by omega), if_pos hLast, take_of_length_le (by omega : rest.length ≤ limit + 1),
        take_of_length_le hLast]
    · rw [if_pos (by omega), if_neg hLast, take_take, Nat.min_eq_left (Nat.le_succ limit)]
  have hRange : ¬ (limit < 1 ∨ MAX_SAFE_INTEGER < limit) := by omega
  rw [page, if_neg hRange]
  cases hLast : done.getLast? with
  | none =>
    have hEmpty : done = [] := getLast?_eq_none_iff.mp hLast
    rw [hEmpty, nil_append] at hAll
    exact hStored none hAll
  | some last =>
    have hMem : last ∈ content.rows := by
      have hSorted : last ∈ sorted content query none := hAll ▸ mem_append_left _ (mem_of_getLast? hLast)
      exact (mem_filter.mp ((perm_sorted content query none).mem_iff.mp hSorted)).1
    have hCursor : decodeCursor table sqlName query.order
        (encodeCursor sqlName query.order (orderValues query.order last)) = some (orderValues query.order last) :=
      decodeCursor_encodeCursor sqlName query.order last.cell fun name hName =>
        content.typed last hMem name (mem_order query hName)
    have hRest : sorted content query (some (orderValues query.order last)) = rest := by
      have hOrder := sorted_after content query none
      rw [hAll] at hOrder
      rw [sorted_some, hAll]
      exact Paging.filter_after hOrder (after_asymm query.order) (after_irrefl query.order) hLast
    rw [map_some, map_some, hCursor]
    exact hStored (some (orderValues query.order last)) hRest

/-! The order by code points and integers. -/

/-- Integers by value, text by code points. -/
inductive LessValue : SqliteValue → SqliteValue → Prop where
  | integer {m n : Int} (hLess : m < n) : LessValue (.integer m) (.integer n)
  | text {s t : List Char} (hLess : s < t) : LessValue (.text s) (.text t)

/-- The first of the columns in which two rows differ decides. -/
def Precedes : List JsString → Row α → Row α → Prop
  | [], _, _ => False
  | name :: rest, a, b => LessValue (a.cell name) (b.cell name) ∨ a.cell name = b.cell name ∧ Precedes rest a b

/-- Whether a row stands before another in an order. -/
def Before (order : Order) (a b : Row α) : Prop :=
  match order.direction with
  | .asc => Precedes order.columns a b
  | .desc => Precedes order.columns b a

theorem less_typed {name : JsString} {x y : SqliteValue} (hx : Typed table name x) (hy : Typed table name y) :
    x.less y = true ↔ LessValue x y := by
  rcases hx with ⟨hType, s, rfl, -⟩ | ⟨hType, m, rfl, -⟩
  · rcases hy with ⟨-, t, rfl, -⟩ | ⟨hOther, -⟩
    · refine (Utf8.bytesLess_encode s t).trans ⟨.text, fun h => ?_⟩
      cases h with
      | text hLess => exact hLess
    · rw [hType] at hOther
      cases hOther
  · rcases hy with ⟨hOther, -⟩ | ⟨-, n, rfl, -⟩
    · rw [hType] at hOther
      cases hOther
    · rw [SqliteValue.less, decide_eq_true_eq]
      refine ⟨.integer, fun h => ?_⟩
      cases h with
      | integer hLess => exact hLess

theorem lessRow_typed (columns : List JsString) (ha : ∀ name ∈ columns, Typed table name (a.cell name))
    (hb : ∀ name ∈ columns, Typed table name (b.cell name)) :
    lessRow (columns.map a.cell) (columns.map b.cell) = true ↔ Precedes columns a b := by
  induction columns with
  | nil => exact ⟨(fun h => by cases h), fun h => absurd h id⟩
  | cons name rest ih =>
    rw [map_cons, map_cons, lessRow, Precedes, Bool.or_eq_true, Bool.and_eq_true, decide_eq_true_eq,
      less_typed (ha name mem_cons_self) (hb name mem_cons_self),
      ih (fun other hOther => ha other (mem_cons_of_mem _ hOther))
        fun other hOther => hb other (mem_cons_of_mem _ hOther)]

theorem before_iff (ha : a ∈ content.rows) (hb : b ∈ content.rows) :
    after query.order a b = true ↔ Before query.order a b := by
  have hTyped : ∀ row ∈ content.rows, ∀ name ∈ query.order.columns, Typed table name (row.cell name) :=
    fun row hRow name hName => content.typed row hRow name (mem_order query hName)
  rw [after, isAfter, Before]
  cases query.order.direction with
  | asc => exact lessRow_typed _ (hTyped a ha) (hTyped b hb)
  | desc => exact lessRow_typed _ (hTyped b hb) (hTyped a ha)

end Pages

/-- A limit that `page` accepts. -/
def Limit := { limit : Nat // 1 ≤ limit ∧ limit ≤ MAX_SAFE_INTEGER }

/-- A page as its rows and its cursor. -/
def scan {table : TableDefinition} {α : Type} (sqlName : JsString) (rows : List (Row α)) (query : Query table α)
    (limit : Nat) (cursor : Option JsString) : Except PageError (List (Row α) × Option JsString) :=
  (page sqlName rows query limit cursor).map fun page => (page.items, page.next)

end OctoberHarness.TableQuery
