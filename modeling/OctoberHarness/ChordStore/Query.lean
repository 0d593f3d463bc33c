import OctoberHarness.Json.RoundTrip
import OctoberHarness.Library.Base64
import OctoberHarness.Library.Utf16
import Mathlib.Data.List.Sort

/-! Queries of a table, read page by page: the order of its rows, the cursors that go on after
a page, and the statement of a page. -/
namespace OctoberHarness.TableQuery

/-! Text in the store. A stored text is well-formed, so it is a list of code points. -/

def codePointRank (unit : UInt16) : Nat :=
  if unit.toNat < 0xD800 then unit.toNat
  else if unit.toNat < 0xE000 then unit.toNat + 0x2000
  else unit.toNat - 0x800

def compareText : JsString → JsString → Int
  | x :: a, y :: b => if x ≠ y then (codePointRank x : Int) - codePointRank y else compareText a b
  | a, b => (a.length : Int) - b.length

/-- `storedText`: a lone surrogate is replaced, and NUL refused. -/
def storedText (text : JsString) : Option (List Char) :=
  if 0 ∈ text then none else some (Utf16.decode text)

/-- The code point after one that is not the last. -/
def nextPoint (point : Char) : Char :=
  if point.toNat = 0xD7FF then .ofNat 0xE000 else .ofNat (point.toNat + 1)

/-- The loop of `prefixUpperBound`, which takes the points off the end. -/
def upperBoundOf : List Char → Option (List Char)
  | [] => none
  | last :: points =>
    if last.toNat = 0x10FFFF then upperBoundOf points else some (points.reverse ++ [nextPoint last])

def prefixUpperBound (points : List Char) : Option (List Char) :=
  upperBoundOf points.reverse

inductive ColumnType where
  | str | int | num | bool | json
deriving DecidableEq

structure Column where
  name : JsString
  type : ColumnType
  optional : Bool

/-- What SQLite gives for a `str` or an `int` column. -/
inductive SqliteValue where
  | null
  | integer (n : Int)
  | text (text : List Char)
deriving DecidableEq

/-- A stored row: its `str` and `int` cells, and the others. -/
structure Row (α : Type) where
  cells : List (JsString × SqliteValue)
  others : α

def Row.cell {α : Type} (row : Row α) (column : JsString) : SqliteValue :=
  (row.cells.lookup column).getD .null

def MAX_SAFE_INTEGER : Nat :=
  2 ^ 53 - 1

/-- A non-`opt` `str` or `int` column, as keys and orders take them. -/
def isOrderColumn (columns : List Column) (name : JsString) : Bool :=
  match columns.find? fun column => column.name = name with
  | some column => !column.optional && (column.type = .str || column.type = .int)
  | none => false

structure TableDefinition where
  columns : List Column
  key : List JsString
  orderColumns : ∀ name ∈ key, isOrderColumn columns name = true
  nodup : key.Nodup
  nonempty : key ≠ []

namespace TableDefinition

def typeOf (table : TableDefinition) (name : JsString) : Option ColumnType :=
  (table.columns.find? fun column => column.name = name).map Column.type

end TableDefinition

inductive Direction where
  | asc | desc
deriving DecidableEq

def Direction.text : Direction → JsString
  | asc => js "asc"
  | desc => js "desc"

structure Order where
  columns : List JsString
  direction : Direction

/-- A query: the truth of its condition in a row, and its order. -/
structure Query (table : TableDefinition) (α : Type) where
  condition : Option (Row α → Option Bool)
  ordered : List JsString
  direction : Option Direction
  orderColumns : ∀ name ∈ ordered, isOrderColumn table.columns name = true
  nodup : ordered.Nodup

namespace Query

variable {table : TableDefinition} {α : Type}

/-- `query(table)`. -/
def ofTable (table : TableDefinition) (α : Type) : Query table α where
  condition := none
  ordered := []
  direction := none
  orderColumns _ hName := absurd hName List.not_mem_nil
  nodup := List.nodup_nil

/-- `AND` of SQL. -/
def sqlAnd (first second : Option Bool) : Option Bool :=
  if first = some false ∨ second = some false then some false
  else if first = none ∨ second = none then none
  else some true

/-- `where`. -/
def filtered (query : Query table α) (condition : Row α → Option Bool) : Query table α :=
  { query with
    condition :=
      match query.condition with
      | none => some condition
      | some earlier => some fun row => sqlAnd (earlier row) (condition row) }

/-- `orderBy`, refused for another column, a second time or in another direction. -/
def orderBy (query : Query table α) (column : JsString) (direction : Direction) : Option (Query table α) :=
  if hColumn : isOrderColumn table.columns column = true then
    if hTwice : column ∈ query.ordered then none
    else if query.direction.any fun earlier => earlier ≠ direction then none
    else
      some
        { condition := query.condition
          ordered := query.ordered ++ [column]
          direction := some direction
          orderColumns := fun name hName => by
            rcases List.mem_append.mp hName with hOld | hNew
            · exact query.orderColumns name hOld
            · rw [List.mem_singleton.mp hNew]
              exact hColumn
          nodup := List.nodup_append.mpr ⟨query.nodup, List.nodup_singleton _, fun a ha b hb hSame =>
            hTwice (by rw [← List.mem_singleton.mp hb, ← hSame]; exact ha)⟩ }
  else none

/-- `order`: the `orderBy` columns, then the key columns not among them. -/
def order (query : Query table α) : Order where
  columns := query.ordered ++ table.key.filter fun column => column ∉ query.ordered
  direction := query.direction.getD .asc

end Query

def numberOf (n : Int) : JsNumber :=
  JsonText.ofDecimal (n < 0) n.natAbs 0

def integerOf (x : JsNumber) : Option Int :=
  if 0 ≤ x.exponent then some (x.mantissa * 10 ^ x.exponent.toNat) else none

def cellJson : SqliteValue → JsonValue
  | .null => .null
  | .integer n => .num (numberOf n)
  | .text text => .str (Utf16.encode text)

def columnsJson (columns : List JsString) : JsonValue :=
  .arr (columns.map .str)

def encodeCursor (sqlName : JsString) (order : Order) (values : List SqliteValue) : JsString :=
  let json := JsonValue.obj
    [(js "t", .str sqlName), (js "o", columnsJson order.columns), (js "d", .str order.direction.text),
      (js "v", .arr (values.map cellJson))]
  Base64.encodeUrl (Utf8.encode (Utf16.decode json.stringify))

/-- `new TextDecoder("utf-8", { fatal: true }).decode`, which takes off a byte order mark. -/
def decodeText (bytes : List UInt8) : Option (List Char) :=
  bytes.toByteArray.utf8Decode?.map fun text =>
    if text.toList.head? = some (.ofNat 0xFEFF) then text.toList.tail else text.toList

def checkScalar (type : ColumnType) (value : JsonValue) : Option SqliteValue :=
  match type, value with
  | .str, .str text => (storedText text).map .text
  | .int, .num x => (integerOf x).bind fun n => if n.natAbs ≤ MAX_SAFE_INTEGER then some (.integer n) else none
  | _, _ => none

/-- A field of what a cursor decodes to. -/
def field (decoded : JsonValue) (name : JsString) : Option JsonValue :=
  match decoded with
  | .obj fields => fields.lookup name
  | _ => none

/-- `decodeCursor`, on text. -/
def decodeCursor (table : TableDefinition) (sqlName : JsString) (order : Order) (cursor : JsString) :
    Option (List SqliteValue) :=
  match (Base64.decodeUrl cursor).bind fun bytes => (decodeText bytes).bind fun text => JsonText.parse (Utf16.encode text) with
  | none => none
  | some decoded =>
    if field decoded (js "t") ≠ some (.str sqlName) ∨ field decoded (js "d") ≠ some (.str order.direction.text) ∨
        (field decoded (js "o")).map JsonValue.stringify ≠ some (columnsJson order.columns).stringify then none
    else
      match field decoded (js "v") with
      | some (.arr values) =>
        if values.length ≠ order.columns.length then none
        else
          (order.columns.zip values).mapM fun value =>
            (table.typeOf value.1).bind fun type => checkScalar type value.2
      | _ => none

/-- `<` of two values: by storage class, integers as numbers and text by its bytes. -/
def SqliteValue.less : SqliteValue → SqliteValue → Bool
  | .null, .null => false
  | .null, _ => true
  | _, .null => false
  | .integer a, .integer b => a < b
  | .integer _, .text _ => true
  | .text _, .integer _ => false
  | .text a, .text b => Utf8.bytesLess (Utf8.encode a) (Utf8.encode b)

/-- `<` of two row values. -/
def lessRow : List SqliteValue → List SqliteValue → Bool
  | x :: first, y :: second => x.less y || (x = y && lessRow first second)
  | [], _ :: _ => true
  | _, [] => false

section Statement

variable {α : Type}

def orderValues (order : Order) (row : Row α) : List SqliteValue :=
  order.columns.map row.cell

/-- `(columns) > (values)`, or `<` where the order is descending. -/
def isAfter (order : Order) (values : List SqliteValue) (row : Row α) : Bool :=
  match order.direction with
  | .asc => lessRow values (orderValues order row)
  | .desc => lessRow (orderValues order row) values

/-- Whether the `WHERE` of a page is true in a row. -/
def selected (condition : Option (Row α → Option Bool)) (order : Order) (after : Option (List SqliteValue)) (row : Row α) :
    Bool :=
  condition.all (fun condition => condition row = some true) && after.all fun values => isAfter order values row

/-- `TableSql.select`, run. -/
def select (rows : List (Row α)) (condition : Option (Row α → Option Bool)) (order : Order)
    (after : Option (List SqliteValue)) (limit : Nat) : List (Row α) :=
  ((rows.filter (selected condition order after)).insertionSort
    fun a b => isAfter order (orderValues order b) a = false).take limit

/-- `whereSql` of a `prefix` node: a range of the column. -/
def prefixCondition (column : JsString) (points : List Char) (row : Row α) : Option Bool :=
  let value := row.cell column
  if value = .null then none
  else
    match prefixUpperBound points with
    | none => some (!value.less (.text points))
    | some upper => some (!value.less (.text points) && value.less (.text upper))

inductive PageError where
  | limit
  | cursor
deriving DecidableEq

structure Page (α : Type) where
  items : List (Row α)
  next : Option JsString

/-- `page`, over the rows of the table. -/
def page {table : TableDefinition} (sqlName : JsString) (rows : List (Row α)) (query : Query table α) (limit : Nat)
    (after : Option JsString) : Except PageError (Page α) :=
  if limit < 1 ∨ MAX_SAFE_INTEGER < limit then .error .limit
  else
    match after.map (decodeCursor table sqlName query.order) with
    | some none => .error .cursor
    | decoded =>
      let stored := select rows query.condition query.order decoded.join (limit + 1)
      if limit < stored.length then
        let items := stored.take limit
        .ok { items, next := items.getLast?.map fun last => encodeCursor sqlName query.order (orderValues query.order last) }
      else .ok { items := stored, next := none }

end Statement

end OctoberHarness.TableQuery
