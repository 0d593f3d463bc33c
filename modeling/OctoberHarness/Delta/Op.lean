import OctoberHarness.Json.Content

/-! Delta operations over plain JSON and the applier of decoded batches. -/
namespace OctoberHarness.Delta

/-- One step of a path: an object key or an array index. -/
inductive Seg where
  | key (name : JsString)
  | index (n : Nat)
deriving DecidableEq, Repr

abbrev Path := List Seg

/-- The property name a segment denotes on an object. -/
def Seg.name : Seg → JsString
  | .key name => name
  | .index n => (JsNumber.ofNat n).text

/-- Decoded operations: `r` replaces the whole value, `s`, `d`, `a` and `t`
write at a non-empty path, `p` splices and `m` reorders the array at a path. -/
inductive Op where
  | r (value : JsonValue)
  | s (path : Path) (value : JsonValue)
  | d (path : Path)
  | a (path : Path) (text : JsString)
  | t (path : Path) (count : Nat)
  | p (path : Path) (index remove : Nat) (items : List JsonValue)
  | m (path : Path) (permutation : List Nat)
deriving DecidableEq, Repr

def isReplace : Op → Bool
  | .r _ => true
  | _ => false

/-- `isBase`: the batch begins with a replacement. -/
def isBase : List Op → Bool
  | op :: _ => isReplace op
  | [] => false

/-- Segments that reach the prototype chain. -/
def RESERVED_SEGMENTS : List JsString :=
  [js "__proto__", js "constructor", js "prototype"]

/-- What an applier or a decoder throws. -/
inductive DeltaError where
  | path (path : Path)
  | pathId (id : Nat)
  | unsafePath (segment : Seg)
  | unsafeCell (cell : JsonValue)
  | type (message : String)
deriving DecidableEq, Repr

/-- A segment that `assertSafePath` lets through. Indices are natural numbers
already. -/
def Seg.safe : Seg → Bool
  | .key name => name ∉ RESERVED_SEGMENTS
  | .index _ => true

def assertSafePath : Path → Except DeltaError Unit
  | [] => .ok ()
  | seg :: rest => if seg.safe then assertSafePath rest else .error (.unsafePath seg)

def assertPathArg (path : Path) (nonEmpty : Bool) : Except DeltaError Unit :=
  if nonEmpty ∧ path = [] then .error (.type "path is empty") else assertSafePath path

/-- The loop of `assertPermutation`, with the indices seen so far. -/
def assertPermutation.loop (length : Nat) : List Nat → List Nat → Except DeltaError Unit
  | [], _ => .ok ()
  | index :: rest, seen =>
    if length ≤ index ∨ index ∈ seen then .error (.type "m permutation is not a bijection")
    else loop length rest (index :: seen)

/-- `assertPermutation`: every index in range and none twice. -/
def assertPermutation (permutation : List Nat) : Except DeltaError Unit :=
  assertPermutation.loop permutation.length permutation []

def assertValidOp : Op → Except DeltaError Unit
  | .r _ => .ok ()
  | .s path _ => assertPathArg path true
  | .d path => assertPathArg path true
  | .a path _ => assertPathArg path true
  | .t path _ => assertPathArg path true
  | .p path _ _ _ => assertPathArg path false
  | .m path permutation => do
    assertPathArg path false
    assertPermutation permutation

/-- One step of `resolveValue`: own properties only. -/
def resolveSeg (path : Path) (node : JsonValue) (seg : Seg) : Except DeltaError JsonValue :=
  match node, seg with
  | .arr items, .index n =>
    match items[n]? with
    | some child => .ok child
    | none => .error (.path path)
  | .arr _, .key name => .error (.unsafePath (.key name))
  | .obj fields, seg =>
    match fields.lookup seg.name with
    | some child => .ok child
    | none => .error (.path path)
  | _, _ => .error (.path path)

/-- Put a new value where `resolveSeg` found one. -/
def setChild (node : JsonValue) (seg : Seg) (child : JsonValue) : JsonValue :=
  match node, seg with
  | .arr items, .index n => .arr (items.set n child)
  | .obj fields, seg => .obj (Fields.define fields seg.name child)
  | node, _ => node

/-- Change the container that `resolve(root, path)` finds, in place. The whole
path is kept for the errors. -/
def modifyAt (path : Path) (change : JsonValue → Except DeltaError JsonValue) :
    JsonValue → Path → Except DeltaError JsonValue
  | node, [] => if node.isContainer then change node else .error (.path path)
  | node, seg :: rest => do
    let child ← resolveSeg path node seg
    let changed ← modifyAt path change child rest
    .ok (setChild node seg changed)

/-- `Array.prototype.splice(index, remove, ...items)`. -/
def splice {α : Type} (target : List α) (index remove : Nat) (items : List α) : List α :=
  target.take index ++ items ++ target.drop (index + remove)

/-- The insertion loop of `p`: the items go in by chunks, each spliced in after
the one before. -/
def insertChunks {α : Type} (chunkSize : Nat) : Nat → List α → Nat → List α → List α
  | 0, target, _, _ => target
  | fuel + 1, target, index, items =>
    if items = [] then target
    else insertChunks chunkSize fuel (splice target index 0 (items.take chunkSize))
      (index + chunkSize) (items.drop chunkSize)

/-- What `p` does to the array it targets. -/
def spliceTarget (path : Path) (index remove : Nat) (items : List JsonValue) :
    JsonValue → Except DeltaError JsonValue
  | .arr target =>
    .ok (.arr (insertChunks 10000 items.length (splice target index remove []) index items))
  | _ => .error (.path path)

/-- What `m` does to the array it targets: `new[i] = old[permutation[i]]`. -/
def permuteTarget (path : Path) (permutation : List Nat) : JsonValue → Except DeltaError JsonValue
  | .arr target =>
    if target.length ≠ permutation.length then .error (.path path)
    else .ok (.arr (permutation.filterMap fun index => target[index]?))
  | _ => .error (.path path)

/-- `assertIndexInRange` together with the key check of an array parent. -/
def assertKey (parent : JsonValue) (key : Seg) : Except DeltaError Unit :=
  match parent, key with
  | .arr _, .key name => .error (.unsafePath (.key name))
  | .arr items, .index n => if items.length < n then .error (.unsafePath (.index n)) else .ok ()
  | _, _ => .ok ()

/-- The local `write`: an index may append one past the end. -/
def write (parent : JsonValue) (key : Seg) (value : JsonValue) : JsonValue :=
  match parent, key with
  | .arr items, .index n =>
    .arr (if n < items.length then items.set n value else items ++ [value])
  | .obj fields, key => .obj (Fields.define fields key.name value)
  | parent, _ => parent

def read (parent : JsonValue) (key : Seg) : Option JsonValue :=
  match parent, key with
  | .arr items, .index n => items[n]?
  | .obj fields, key => fields.lookup key.name
  | _, _ => none

/-- The effect of `s`, `d`, `a` and `t` on the parent of their path. -/
def changeKey (path : Path) (key : Seg) (op : Op) (parent : JsonValue) :
    Except DeltaError JsonValue := do
  assertKey parent key
  match op with
  | .s _ value => .ok (write parent key value)
  | .d _ =>
    match parent, key with
    | .arr items, .index n =>
      if items.length ≤ n then .error (.path path) else .ok (.arr (items.eraseIdx n))
    | .obj fields, key => .ok (.obj (Fields.delete fields key.name))
    | parent, _ => .ok parent
  | .a _ text =>
    match read parent key with
    | some (.str current) => .ok (write parent key (.str (current ++ text)))
    | _ => .error (.path path)
  | .t _ count =>
    match read parent key with
    | some (.str current) => .ok (write parent key (.str (current.drop count)))
    | _ => .error (.path path)
  | _ => .ok parent

/-- One turn of the loop of `applyOps`. -/
def applyOp (root : JsonValue) (op : Op) : Except DeltaError JsonValue := do
  assertValidOp op
  match op with
  | .r value => .ok value
  | .p path index remove items => modifyAt path (spliceTarget path index remove items) root path
  | .m path permutation => modifyAt path (permuteTarget path permutation) root path
  | .s path _ | .d path | .a path _ | .t path _ =>
    match path.getLast? with
    | some key => modifyAt path.dropLast (changeKey path key op) root path.dropLast
    | none => .error (.type "path is empty")

/-- `apply`: run a decoded batch on a detached value. -/
def apply (root : JsonValue) (ops : List Op) : Except DeltaError JsonValue :=
  ops.foldlM applyOp root

example : apply (.obj [(js "xs", .arr [.null])])
    [.s [.key (js "xs"), .index 1] (.str (js "a")), .a [.key (js "xs"), .index 1] (js "b"),
      .m [.key (js "xs")] [1, 0]] =
    .ok (.obj [(js "xs", .arr [.str (js "ab"), .null])]) := by decide

end OctoberHarness.Delta
