import OctoberHarness.Delta.Op
import OctoberHarness.Json.RoundTrip

/-! The wire codec: path interning and omitted paths between an encoder and its
decoder. -/
namespace OctoberHarness.Delta

/-- A segment as a cell of the path array on the wire. -/
def segJson : Seg → JsonValue
  | .key name => .str name
  | .index n => .num (.ofNat n)

def pathJson (path : Path) : JsonValue :=
  .arr (path.map segJson)

/-- `pathKey`: the JSON text of a path. -/
def pathKey (path : Path) : JsString :=
  (pathJson path).stringify

/-- A path inline, or an id the encoder assigned on its second use. -/
inductive PathRef where
  | inline (path : Path)
  | id (n : Nat)
deriving DecidableEq, Repr

/-- What crosses a boundary. An operation without a reference is the shortened
tuple that reuses the previous path; `define` is the verb `#`. -/
inductive WireOp where
  | r (value : JsonValue)
  | s (ref : Option PathRef) (value : JsonValue)
  | d (ref : Option PathRef)
  | a (ref : Option PathRef) (text : JsString)
  | t (ref : Option PathRef) (count : Nat)
  | p (ref : Option PathRef) (index remove : Nat) (items : List JsonValue)
  | m (ref : Option PathRef) (permutation : List Nat)
  | define (id : Nat) (path : Path)
deriving DecidableEq, Repr

/-- The verbs of wire operations. -/
inductive Verb where
  | r | s | d | a | t | p | m | define
deriving DecidableEq, Repr

namespace Verb

def text : Verb → JsString
  | .r => js "r"
  | .s => js "s"
  | .d => js "d"
  | .a => js "a"
  | .t => js "t"
  | .p => js "p"
  | .m => js "m"
  | .define => js "#"

/-- The verb a received text names, if it names one. -/
def ofText (text : JsString) : Option Verb :=
  [Verb.r, .s, .d, .a, .t, .p, .m, .define].find? fun verb => verb.text = text

@[simp] theorem ofText_text (verb : Verb) : ofText verb.text = some verb := by
  cases verb <;> decide

end Verb

namespace WireOp

def natJson (n : Nat) : JsonValue :=
  .num (.ofNat n)

/-- The cell of a reference; a shortened tuple has none. -/
def refCells : Option PathRef → List JsonValue
  | none => []
  | some (.inline path) => [pathJson path]
  | some (.id n) => [natJson n]

/-- The tuple of a wire operation. -/
def tuple : WireOp → JsonValue
  | .r value => .arr [.str Verb.r.text, value]
  | .s ref value => .arr (.str Verb.s.text :: (refCells ref ++ [value]))
  | .d ref => .arr (.str Verb.d.text :: refCells ref)
  | .a ref text => .arr (.str Verb.a.text :: (refCells ref ++ [.str text]))
  | .t ref count => .arr (.str Verb.t.text :: (refCells ref ++ [natJson count]))
  | .p ref index remove items =>
    .arr (.str Verb.p.text :: (refCells ref ++ [natJson index, natJson remove, .arr items]))
  | .m ref permutation => .arr (.str Verb.m.text :: (refCells ref ++ [.arr (permutation.map natJson)]))
  | .define id path => .arr [.str Verb.define.text, natJson id, pathJson path]

end WireOp

/-! Validation of received tuples. -/

/-- One turn of `assertSafePath` on a received cell. -/
def readSeg : JsonValue → Except DeltaError Seg
  | .str name => if name ∈ RESERVED_SEGMENTS then .error (.unsafePath (.key name)) else .ok (.key name)
  | .num n =>
    match n.toNat? with
    | some index => .ok (.index index)
    | none => .error (.unsafeCell (.num n))
  | cell => .error (.unsafeCell cell)

/-- `Array.isArray` and `assertSafePath` on a received path. -/
def readPath : JsonValue → Except DeltaError Path
  | .arr cells => cells.mapM readSeg
  | _ => .error (.type "path is not an array")

def okRef : JsonValue → Except DeltaError PathRef
  | .num n =>
    match n.toNat? with
    | some id => .ok (.id id)
    | none => .error (.type "bad path id")
  | cell => do
    let path ← readPath cell
    .ok (.inline path)

/-- `Number.isInteger(x) && x >= 0` on a received cell. -/
def readNat (message : String) : JsonValue → Except DeltaError Nat
  | .num n =>
    match n.toNat? with
    | some value => .ok value
    | none => .error (.type message)
  | _ => .error (.type message)

def readText : JsonValue → Except DeltaError JsString
  | .str text => .ok text
  | _ => .error (.type "a value")

/-- `assertPermutation` on a received cell. -/
def readPermutation : JsonValue → Except DeltaError (List Nat)
  | .arr cells => do
    let permutation ← cells.mapM (readNat "m permutation is not a bijection")
    assertPermutation permutation
    .ok permutation
  | _ => .error (.type "m permutation is not an array")

def readItems : JsonValue → Except DeltaError (List JsonValue)
  | .arr items => .ok items
  | _ => .error (.type "p items")

/-- The cells after the verb: the arity tells whether a reference is present. -/
def readCells (cells : List JsonValue) : Verb → Except DeltaError WireOp
  | .r =>
    match cells with
    | [value] => .ok (.r value)
    | _ => .error (.type "r arity")
  | .s =>
    match cells with
    | [ref, value] => do .ok (.s (some (← okRef ref)) value)
    | [value] => .ok (.s none value)
    | _ => .error (.type "s arity")
  | .d =>
    match cells with
    | [ref] => do .ok (.d (some (← okRef ref)))
    | [] => .ok (.d none)
    | _ => .error (.type "d arity")
  | .a =>
    match cells with
    | [ref, text] => do .ok (.a (some (← okRef ref)) (← readText text))
    | [text] => do .ok (.a none (← readText text))
    | _ => .error (.type "a arity")
  | .t =>
    match cells with
    | [ref, count] => do .ok (.t (some (← okRef ref)) (← readNat "t count" count))
    | [count] => do .ok (.t none (← readNat "t count" count))
    | _ => .error (.type "t arity")
  | .p =>
    match cells with
    | [ref, index, remove, items] => do
      .ok (.p (some (← okRef ref)) (← readNat "p index" index) (← readNat "p remove" remove)
        (← readItems items))
    | [index, remove, items] => do
      .ok (.p none (← readNat "p index" index) (← readNat "p remove" remove) (← readItems items))
    | _ => .error (.type "p arity")
  | .m =>
    match cells with
    | [ref, permutation] => do .ok (.m (some (← okRef ref)) (← readPermutation permutation))
    | [permutation] => do .ok (.m none (← readPermutation permutation))
    | _ => .error (.type "m arity")
  | .define =>
    match cells with
    | [id, path] => do .ok (.define (← readNat "# shape" id) (← readPath path))
    | _ => .error (.type "# shape")

def assertValidWireOp : JsonValue → Except DeltaError WireOp
  | .arr (.str text :: cells) =>
    match Verb.ofText text with
    | some verb => readCells cells verb
    | none => .error (.type "unknown op verb")
  | .arr (_ :: _) => .error (.type "unknown op verb")
  | _ => .error (.type "op is not a tuple")

/-- The dictionary of an encoder, kept over batches. -/
structure Encoder where
  seen : List JsString := []
  ids : List (JsString × Nat) := []
  nextId : Nat := 0
deriving DecidableEq, Repr

/-- The path of an operation other than `r`. -/
def Op.path : Op → Path
  | .r _ => []
  | .s path _ | .d path | .a path _ | .t path _ | .p path _ _ _ | .m path _ => path

/-- The wire form of an operation under a reference. -/
def Op.withRef (ref : Option PathRef) : Op → WireOp
  | .r value => .r value
  | .s _ value => .s ref value
  | .d _ => .d ref
  | .a _ text => .a ref text
  | .t _ count => .t ref count
  | .p _ index remove items => .p ref index remove items
  | .m _ permutation => .m ref permutation

/-- One turn of the loop of `encode`, with the last path of this batch. -/
def encodeOp (encoder : Encoder) (previous : Option JsString) (op : Op) :
    List WireOp × Encoder × Option JsString :=
  match op with
  | .r value => ([.r value], {}, none)
  | op =>
    let key := pathKey op.path
    if previous = some key then ([op.withRef none], encoder, previous)
    else
      match encoder.ids.lookup key with
      | some id => ([op.withRef (some (.id id))], encoder, some key)
      | none =>
        if key ∈ encoder.seen then
          let id := encoder.nextId
          ([.define id op.path, op.withRef (some (.id id))],
            { encoder with ids := OrderedMap.set encoder.ids key id, nextId := id + 1 }, some key)
        else
          ([op.withRef (some (.inline op.path))], { encoder with seen := key :: encoder.seen },
            some key)

/-- The loop of `encode`. -/
def encodeOps (encoder : Encoder) (previous : Option JsString) :
    List Op → List WireOp × Encoder
  | [] => ([], encoder)
  | op :: rest =>
    let (wire, encoder, previous) := encodeOp encoder previous op
    let (wires, encoder) := encodeOps encoder previous rest
    (wire ++ wires, encoder)

/-- `encode`: the tuples of one batch. Only the dictionary spans batches. -/
def encode (encoder : Encoder) (ops : List Op) : List JsonValue × Encoder :=
  let (wire, encoder) := encodeOps encoder none ops
  (wire.map WireOp.tuple, encoder)

/-- Consecutive batches through one encoder. -/
def encodeAll (encoder : Encoder) : List (List Op) → List (List JsonValue)
  | [] => []
  | batch :: rest => (encode encoder batch).1 :: encodeAll (encode encoder batch).2 rest

/-- The paths a decoder knows by id. -/
abbrev Decoder := List (Nat × Path)

/-- The path a wire operation is about, and the path to reuse after it. -/
def decodePath (paths : Decoder) (previous : Option Path) :
    Option PathRef → Except DeltaError Path
  | none =>
    match previous with
    | some path => .ok path
    | none => .error (.path [])
  | some (.id n) =>
    match paths.lookup n with
    | some path => .ok path
    | none => .error (.pathId n)
  | some (.inline path) => .ok path

/-- `s`, `d`, `a` and `t` cannot target the root. -/
def nonRoot (path : Path) (op : Op) : Except DeltaError Op :=
  if path = [] then .error (.path path) else .ok op

/-- One turn of the loop of `decode` on a validated tuple. -/
def decodeOp (paths : Decoder) (previous : Option Path) :
    WireOp → Except DeltaError (List Op × Decoder × Option Path)
  | .define id path => .ok ([], OrderedMap.set paths id path, previous)
  | .r value => .ok ([.r value], [], none)
  | .s ref value => do
    let path ← decodePath paths previous ref
    .ok ([← nonRoot path (.s path value)], paths, some path)
  | .d ref => do
    let path ← decodePath paths previous ref
    .ok ([← nonRoot path (.d path)], paths, some path)
  | .a ref text => do
    let path ← decodePath paths previous ref
    .ok ([← nonRoot path (.a path text)], paths, some path)
  | .t ref count => do
    let path ← decodePath paths previous ref
    .ok ([← nonRoot path (.t path count)], paths, some path)
  | .p ref index remove items => do
    let path ← decodePath paths previous ref
    .ok ([.p path index remove items], paths, some path)
  | .m ref permutation => do
    let path ← decodePath paths previous ref
    .ok ([.m path permutation], paths, some path)

/-- The loop of `decode`. -/
def decodeOps (paths : Decoder) (previous : Option Path) :
    List JsonValue → Except DeltaError (List Op × Decoder)
  | [] => .ok ([], paths)
  | tuple :: rest => do
    let wire ← assertValidWireOp tuple
    let (op, paths, previous) ← decodeOp paths previous wire
    let (ops, paths) ← decodeOps paths previous rest
    .ok (op ++ ops, paths)

/-- `decode`: the operations of one batch. -/
def decode (paths : Decoder) (wire : List JsonValue) : Except DeltaError (List Op × Decoder) :=
  decodeOps paths none wire

/-- Consecutive batches through one decoder. -/
def decodeAll (paths : Decoder) : List (List JsonValue) → Except DeltaError (List (List Op))
  | [] => .ok []
  | wire :: rest => do
    let (ops, paths) ← decode paths wire
    let batches ← decodeAll paths rest
    .ok (ops :: batches)

/-! Validation accepts what the encoder prints. -/

variable (path : Path)

theorem pathJson_strict : (pathJson path).Strict := by
  rw [pathJson, JsonValue.strict_arr]
  intro cell hCell
  obtain ⟨seg, -, rfl⟩ := List.mem_map.mp hCell
  cases seg <;> trivial

theorem segJson_injective : Function.Injective segJson := by
  intro seg seg' h
  cases seg with
  | key name =>
    cases seg' with
    | key name' => simpa [segJson] using h
    | index n' => simp [segJson] at h
  | index n =>
    cases seg' with
    | key name' => simp [segJson] at h
    | index n' =>
      simp only [segJson, JsonValue.num.injEq] at h
      have hNat := congrArg JsNumber.toNat? h
      simpa using hNat

theorem pathKey_injective : Function.Injective pathKey := by
  intro path path' h
  have hJson := JsonText.stringify_injective _ _ (pathJson_strict path) (pathJson_strict path') h
  simp only [pathJson, JsonValue.arr.injEq] at hJson
  exact List.map_injective_iff.mpr segJson_injective hJson

/-- What `assertValidOp` lets through. -/
def Op.WellFormed (op : Op) : Prop :=
  assertValidOp op = .ok ()

instance (op : Op) : Decidable op.WellFormed :=
  inferInstanceAs (Decidable (assertValidOp op = .ok ()))

theorem assertSafePath_ok_iff :
    assertSafePath path = .ok () ↔ ∀ seg ∈ path, seg.safe = true := by
  induction path with
  | nil => simp [assertSafePath]
  | cons seg rest ih =>
    rw [assertSafePath]
    split_ifs with hSafe
    · simp [ih, hSafe]
    · simp [hSafe]

theorem assertPathArg_ok_iff (nonEmpty : Bool) :
    assertPathArg path nonEmpty = .ok () ↔
      (nonEmpty = true → path ≠ []) ∧ ∀ seg ∈ path, seg.safe = true := by
  rw [assertPathArg]
  split_ifs with hEmpty
  · simp [hEmpty.1, hEmpty.2]
  · rw [assertSafePath_ok_iff]
    exact ⟨fun h => ⟨fun hNonEmpty hNil => hEmpty ⟨hNonEmpty, hNil⟩, h⟩, And.right⟩

theorem readPath_pathJson (hSafe : ∀ seg ∈ path, seg.safe = true) :
    readPath (pathJson path) = .ok path := by
  rw [pathJson, readPath]
  induction path with
  | nil => rfl
  | cons seg rest ih =>
    have hSeg : readSeg (segJson seg) = .ok seg := by
      have h := hSafe seg (by simp)
      cases seg with
      | key name => simpa [segJson, readSeg, Seg.safe] using h
      | index n => simp [segJson, readSeg]
    rw [List.map_cons, List.mapM_cons, hSeg, ih fun s hs => hSafe s (by simp [hs])]
    rfl

theorem readNat_natJson (message : String) (n : Nat) :
    readNat message (WireOp.natJson n) = .ok n := by
  simp [readNat, WireOp.natJson]

theorem readPermutation_natJson (permutation : List Nat) (h : assertPermutation permutation = .ok ()) :
    readPermutation (.arr (permutation.map WireOp.natJson)) = .ok permutation := by
  have hCells : (permutation.map WireOp.natJson).mapM (readNat "m permutation is not a bijection") =
      .ok permutation := by
    clear h
    induction permutation with
    | nil => rfl
    | cons n rest ih =>
      rw [List.map_cons, List.mapM_cons, readNat_natJson, ih]
      rfl
  rw [readPermutation, hCells]
  simp only [bind, Except.bind, h]

def PathRef.Safe : Option PathRef → Prop
  | some (.inline path) => ∀ seg ∈ path, seg.safe = true
  | _ => True

theorem okRef_inline (hSafe : ∀ seg ∈ path, seg.safe = true) :
    okRef (pathJson path) = .ok (.inline path) := by
  have hRead := readPath_pathJson path hSafe
  rw [pathJson] at hRead ⊢
  simp only [okRef, hRead, bind, Except.bind]

theorem okRef_id (n : Nat) : okRef (WireOp.natJson n) = .ok (.id n) := by
  simp [okRef, WireOp.natJson]

theorem assertValidWireOp_withRef (op : Op) (hOp : op.WellFormed) (ref : Option PathRef) (hRef : PathRef.Safe ref) :
    assertValidWireOp (op.withRef ref).tuple = .ok (op.withRef ref) := by
  have hPermutation : ∀ path permutation, op = .m path permutation →
      readPermutation (.arr (permutation.map WireOp.natJson)) = .ok permutation := by
    rintro path permutation rfl
    refine readPermutation_natJson permutation ?_
    rw [Op.WellFormed, assertValidOp] at hOp
    cases hPath : assertPathArg path false with
    | error e => simp [hPath, bind, Except.bind] at hOp
    | ok u => simpa [hPath, bind, Except.bind] using hOp
  rcases ref with _ | ⟨path⟩ | ⟨id⟩
  · cases op <;>
      simp_all [Op.withRef, WireOp.tuple, WireOp.refCells, assertValidWireOp, readCells, readText,
        readItems, readNat_natJson, bind, Except.bind]
  · have hRead := okRef_inline path hRef
    cases op <;>
      simp_all [Op.withRef, WireOp.tuple, WireOp.refCells, assertValidWireOp, readCells, readText,
        readItems, readNat_natJson, bind, Except.bind]
  · have hRead := okRef_id id
    cases op <;>
      simp_all [Op.withRef, WireOp.tuple, WireOp.refCells, assertValidWireOp, readCells, readText,
        readItems, readNat_natJson, bind, Except.bind]

theorem assertValidWireOp_define (id : Nat) (path : Path) (hSafe : ∀ seg ∈ path, seg.safe = true) :
    assertValidWireOp (WireOp.define id path).tuple = .ok (.define id path) := by
  simp [WireOp.tuple, assertValidWireOp, readCells, readNat_natJson, readPath_pathJson path hSafe,
    bind, Except.bind]

end OctoberHarness.Delta
