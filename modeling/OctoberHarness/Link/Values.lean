import OctoberHarness.Json.RoundTrip
import OctoberHarness.Library.Utf16

/-! Payloads of a link: JSON text with the byte leaves of a value cut out as segments, and
the value read back from both. -/
namespace OctoberHarness.Payload

/-- What a byte leaf is an instance of. A Node buffer is a `Uint8Array` with a `toJSON`. -/
inductive BytesClass where
  | uint8Array | buffer
deriving DecidableEq

structure Bytes where
  instanceOf : BytesClass
  data : List UInt8
deriving DecidableEq

/-- A value of a payload: strict JSON with byte leaves. -/
inductive Value where
  | null
  | bool (b : Bool)
  | num (n : JsNumber)
  | str (s : JsString)
  | arr (items : List Value)
  | obj (fields : List (JsString × Value))
  | bytes (leaf : Bytes)

namespace Value

@[elab_as_elim]
theorem induction {motive : Value → Prop} (null : motive .null) (bool : ∀ b, motive (.bool b)) (num : ∀ n, motive (.num n))
    (str : ∀ s, motive (.str s)) (arr : ∀ items, (∀ x ∈ items, motive x) → motive (.arr items))
    (obj : ∀ fields, (∀ f ∈ fields, motive f.2) → motive (.obj fields)) (bytes : ∀ leaf, motive (.bytes leaf)) (value : Value)
    : motive value := by
  refine @Value.rec motive (fun items => ∀ x ∈ items, motive x) (fun fields => ∀ f ∈ fields, motive f.2)
    (fun f => motive f.2) null bool num str arr obj bytes ?_ ?_ ?_ ?_ ?_ value
  · exact fun x hx => absurd hx List.not_mem_nil
  · intro head tail hHead hTail x hx
    rcases List.mem_cons.mp hx with rfl | hx
    · exact hHead
    · exact hTail x hx
  · exact fun f hf => absurd hf List.not_mem_nil
  · intro head tail hHead hTail f hf
    rcases List.mem_cons.mp hf with rfl | hf
    · exact hHead
    · exact hTail f hf
  · exact fun _ _ h => h

/-- The byte leaves, in the order in which a traversal meets them. -/
def leaves : Value → List Bytes
  | .bytes leaf => [leaf]
  | .arr items => leavesItems items
  | .obj fields => leavesFields fields
  | _ => []
where
  leavesItems : List Value → List Bytes
    | [] => []
    | x :: rest => leaves x ++ leavesItems rest
  leavesFields : List (JsString × Value) → List Bytes
    | [] => []
    | f :: rest => leaves f.2 ++ leavesFields rest

/-- Object keys are distinct and in own-property order, at every depth. -/
inductive Strict : Value → Prop where
  | null : Strict .null
  | bool (b : Bool) : Strict (.bool b)
  | num (n : JsNumber) : Strict (.num n)
  | str (s : JsString) : Strict (.str s)
  | bytes (leaf : Bytes) : Strict (.bytes leaf)
  | arr {items : List Value} (hItems : ∀ x ∈ items, Strict x) : Strict (.arr items)
  | obj {fields : List (JsString × Value)} (hKeys : OwnKeys (fields.map Prod.fst)) (hFields : ∀ f ∈ fields, Strict f.2) :
      Strict (.obj fields)

/-- An object of the value has an own key `$bytes`. -/
inductive Reserved : Value → Prop where
  | own {fields : List (JsString × Value)} (hKey : js "$bytes" ∈ fields.map Prod.fst) : Reserved (.obj fields)
  | item {items : List Value} {x : Value} (hMem : x ∈ items) (hItem : Reserved x) : Reserved (.arr items)
  | field {fields : List (JsString × Value)} {f : JsString × Value} (hMem : f ∈ fields) (hField : Reserved f.2) :
      Reserved (.obj fields)

end Value

/-- A value as a program holds it. -/
def StrictValue := { value : Value // value.Strict }

/-- A chord error of kind `args`, and the errors of a malformed part. -/
inductive PayloadError where
  | reserved
  | json
  | reference
deriving DecidableEq

def numberJson (n : Nat) : JsonValue :=
  .num (.ofNat n)

/-- `{ $bytes: index }`. -/
def marker (index : Nat) : JsonValue :=
  .obj [(js "$bytes", numberJson index)]

/-- `toJSON` of a Node buffer. -/
def Bytes.toJSON (leaf : Bytes) : JsonValue :=
  .obj [(js "type", .str (js "Buffer")), (js "data", .arr (leaf.data.map fun byte => numberJson byte.toNat))]

/-- The own properties of a `Uint8Array`. -/
def Bytes.elements (leaf : Bytes) : JsonValue :=
  .obj (leaf.data.zipIdx.map fun byte => (decimalText byte.2, numberJson byte.1.toNat))

/-- What `JSON.stringify` prints of a value without a replacer. -/
def plain : Value → JsonValue
  | .null => .null
  | .bool b => .bool b
  | .num n => .num n
  | .str s => .str s
  | .arr items => .arr (plainItems items)
  | .obj fields => .obj (plainFields fields)
  | .bytes leaf => if leaf.instanceOf = .buffer then leaf.toJSON else leaf.elements
where
  plainItems : List Value → List JsonValue
    | [] => []
    | x :: rest => plain x :: plainItems rest
  plainFields : List (JsString × Value) → Fields
    | [] => []
    | f :: rest => (f.1, plain f.2) :: plainFields rest

/-- What `JSON.stringify` prints of a value with the replacer, which takes the segments so
far and sees a leaf behind its `toJSON`. What a `toJSON` and the replacer give has no byte
leaf and no own key `$bytes` in it, so the replacer leaves its fields as they are. -/
def replaced : Value → List Bytes → Except PayloadError (JsonValue × List Bytes)
  | .null, segments => .ok (.null, segments)
  | .bool b, segments => .ok (.bool b, segments)
  | .num n, segments => .ok (.num n, segments)
  | .str s, segments => .ok (.str s, segments)
  | .arr items, segments => (replacedItems items segments).map fun result => (.arr result.1, result.2)
  | .obj fields, segments =>
    if js "$bytes" ∈ fields.map Prod.fst then .error .reserved
    else (replacedFields fields segments).map fun result => (.obj result.1, result.2)
  | .bytes leaf, segments =>
    if leaf.instanceOf = .buffer then .ok (leaf.toJSON, segments)
    else .ok (marker segments.length, segments ++ [leaf])
where
  replacedItems : List Value → List Bytes → Except PayloadError (List JsonValue × List Bytes)
    | [], segments => .ok ([], segments)
    | x :: rest, segments =>
      (replaced x segments).bind fun head =>
        (replacedItems rest head.2).map fun tail => (head.1 :: tail.1, tail.2)
  replacedFields : List (JsString × Value) → List Bytes → Except PayloadError (Fields × List Bytes)
    | [], segments => .ok ([], segments)
    | f :: rest, segments =>
      (replaced f.2 segments).bind fun head =>
        (replacedFields rest head.2).map fun tail => ((f.1, head.1) :: tail.1, tail.2)

structure Part where
  json : JsString
  segments : Option (List Bytes)

/-- `jsonPart`, where no value is `undefined`. -/
def jsonPart (value : Option Value) : JsString :=
  match value with
  | some value => (plain value).stringify
  | none => js "null"

def payloadPart (value : Option Value) (bytes : Bool) : Except PayloadError Part :=
  if bytes then
    match value with
    | some value => (replaced value []).map fun result => { json := result.1.stringify, segments := some result.2 }
    | none => .ok { json := js "null", segments := some [] }
  else .ok { json := jsonPart value, segments := none }

/-- The JSON of a part: text, or bytes that are opened. -/
inductive Text where
  | string (text : JsString)
  | utf8 (bytes : List UInt8)

/-- `readUtf8`, which is strict. -/
def readUtf8 (bytes : List UInt8) : Option JsString :=
  bytes.toByteArray.utf8Decode?.map fun text => Utf16.encode text.toList

def parsePart (json : Text) : Option JsonValue :=
  match json with
  | .string text => JsonText.parse text
  | .utf8 bytes => (readUtf8 bytes).bind JsonText.parse

/-- The segment that an object with an own key `$bytes` refers to. -/
def reference (segments : List Bytes) (node : Fields) : Option Bytes :=
  match node with
  | [(_, .num index)] => index.toNat?.bind (segments[·]?)
  | _ => none

def resolveSegments (segments : List Bytes) : JsonValue → Except PayloadError Value
  | .null => .ok .null
  | .bool b => .ok (.bool b)
  | .num n => .ok (.num n)
  | .str s => .ok (.str s)
  | .arr items => (resolveItems items).map .arr
  | .obj node =>
    if js "$bytes" ∈ node.map Prod.fst then
      match reference segments node with
      | some segment => .ok (.bytes segment)
      | none => .error .reference
    else (resolveFields node).map .obj
where
  resolveItems : List JsonValue → Except PayloadError (List Value)
    | [] => .ok []
    | x :: rest => (resolveSegments segments x).bind fun head => (resolveItems rest).map fun tail => head :: tail
  resolveFields : List (JsString × JsonValue) → Except PayloadError (List (JsString × Value))
    | [] => .ok []
    | f :: rest =>
      (resolveSegments segments f.2).bind fun head => (resolveFields rest).map fun tail => (f.1, head) :: tail

/-- Fresh JSON as a value. -/
def ofJson : JsonValue → Value
  | .null => .null
  | .bool b => .bool b
  | .num n => .num n
  | .str s => .str s
  | .arr items => .arr (ofItems items)
  | .obj fields => .obj (ofFields fields)
where
  ofItems : List JsonValue → List Value
    | [] => []
    | x :: rest => ofJson x :: ofItems rest
  ofFields : List (JsString × JsonValue) → List (JsString × Value)
    | [] => []
    | f :: rest => (f.1, ofJson f.2) :: ofFields rest

def parsePayload (json : Text) (segments : Option (List Bytes)) : Except PayloadError Value :=
  match parsePart json with
  | none => .error .json
  | some value =>
    match segments with
    | some segments => resolveSegments segments value
    | none => .ok (ofJson value)

end OctoberHarness.Payload
