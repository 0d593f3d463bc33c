import Mathlib.Tactic
import OctoberHarness.Delta.Codec
import OctoberHarness.Delta.Leaves

/-! The pending queue: the ops a slow consumer has not taken yet, folded while
they wait, and what they still turn into what. -/
namespace OctoberHarness.Delta

open List Option OrderedMap

def MAX_PENDING_OPS : Nat := 10000

def isPrimitive (value : JsonValue) : Bool :=
  !value.isContainer

/-- The path of a leaf op: an append, or a set of a primitive. -/
def leafPath : Op → Option Path
  | .a path _ => some path
  | .s path value => if isPrimitive value then some path else none
  | _ => none

/-- `merge`: `next` folded into `previous` on the same path. -/
def mergeOps : Op → Op → Option Op
  | _, .s path value => some (.s path value)
  | .a path text, .a _ more => some (.a path (text ++ more))
  | .s path (.str text), .a _ more => some (.s path (.str (text ++ more)))
  | _, _ => none

/-- `Folding`: the ops, and the position of the last leaf op of each path. -/
structure Folding where
  ops : List Op
  leaves : List (JsString × Nat)
deriving DecidableEq

/-- The pending op that `mergeLeaf` merges into, with the merged op. -/
def Folding.merging (folding : Folding) (op : Op) (path : Path) : Option (Nat × Op) :=
  (folding.leaves.lookup (pathKey path)).bind fun position =>
    (folding.ops[position]?).bind fun previous =>
      (mergeOps previous op).map fun merged => (position, merged)

/-- One turn of the loop of `#fold`, its push included. -/
def Folding.add (folding : Folding) (op : Op) : Folding :=
  if isReplace op then { ops := [op], leaves := [] }
  else
    match leafPath op with
    | none => { ops := folding.ops ++ [op], leaves := [] }
    | some path =>
      match folding.merging op path with
      | some (position, merged) => { folding with ops := folding.ops.set position merged }
      | none =>
        { ops := folding.ops ++ [op]
          leaves := set folding.leaves (pathKey path) folding.ops.length }

/-- `#fold`: `none` once it overflowed. -/
def Folding.fold (folding : Folding) : List Op → Option Folding
  | [] => some folding
  | op :: rest =>
    if MAX_PENDING_OPS < (folding.add op).ops.length then none else (folding.add op).fold rest

/-- `State` of the queue. -/
inductive PendingOps where
  | empty
  | batch (ops : List Op)
  | folding (folding : Folding)
  | replace
deriving DecidableEq

inductive PendingTake where
  | ops (ops : List Op)
  | replace
deriving DecidableEq

namespace PendingOps

/-- The state after a fold. -/
def folded : Option Folding → PendingOps
  | some pending => .folding pending
  | none => .replace

def push (queue : PendingOps) (ops : List Op) : PendingOps :=
  if ops = [] then queue
  else if isBase ops then .batch ops
  else
    match queue with
    | .empty => .batch ops
    | .batch earlier => folded ((Folding.fold { ops := [], leaves := [] } earlier).bind fun pending => pending.fold ops)
    | .folding pending => folded (pending.fold ops)
    | .replace => .replace

/-- `take`, which leaves the queue empty. -/
def take : PendingOps → PendingTake
  | .empty => .ops []
  | .batch ops => .ops ops
  | .folding pending => .ops pending.ops
  | .replace => .replace

end PendingOps

/-! Leaf ops as writes. -/

/-- What a leaf op writes, over the value that is there. -/
def written : Op → Option JsonValue → Option JsonValue
  | .s _ value, _ => some value
  | .a _ more, some (.str text) => some (.str (text ++ more))
  | _, _ => none

variable {op : Op} {path : Path} {ops : List Op}

theorem leafPath_eq (h : leafPath op = some path) :
    (∃ value, op = .s path value ∧ isPrimitive value = true) ∨ ∃ text, op = .a path text := by
  cases op with
  | a path' text =>
    obtain rfl := some.inj h
    exact .inr ⟨text, rfl⟩
  | s path' value =>
    rw [leafPath] at h
    split_ifs at h with hPrimitive
    obtain rfl := some.inj h
    exact .inl ⟨value, rfl, hPrimitive⟩
  | _ => exact nomatch h

variable {value after last root middle : JsonValue} {path : Path} {op : Op}

section

variable (hLeaf : leafPath op = some path)

include hLeaf

theorem isPrimitive_written {current : Option JsonValue} (h : written op current = some value) : value.isContainer = false := by
  rcases leafPath_eq hLeaf with ⟨new, rfl, hPrimitive⟩ | ⟨text, rfl⟩
  · obtain rfl := some.inj h
    simpa [isPrimitive] using hPrimitive
  · cases current with
    | none => exact nomatch h
    | some old =>
      cases old with
      | str old =>
        obtain rfl := some.inj h
        rfl
      | _ => exact nomatch h

theorem changeKey_leaf (whole : Path) (key : Seg) {parent : JsonValue} (hParent : parent.isContainer = true) :
    changeKey whole key op parent = .ok after ↔
      ∃ value, written op (read parent key) = some value ∧ put (some parent) [key] value = some after := by
  have hPut : ∀ value, put (some parent) [key] value = some after ↔
      assertKey parent key = .ok () ∧ write parent key value = after := by
    intro value
    rw [put_cons]
    constructor
    · rintro ⟨hWritable, below, hBelow, hWrite⟩
      rw [put] at hBelow
      obtain rfl := some.inj hBelow
      exact ⟨hWritable.2, hWrite⟩
    · rintro ⟨hKey, hWrite⟩
      exact ⟨⟨hParent, hKey⟩, value, rfl, hWrite⟩
  simp only [hPut, changeKey, bind, Except.bind]
  cases hKey : assertKey parent key with
  | error error => simp
  | ok done =>
    rcases leafPath_eq hLeaf with ⟨value, rfl, -⟩ | ⟨text, rfl⟩
    · simp [written]
    · cases hRead : read parent key with
      | none => simp [written]
      | some current => cases current <;> simp [written]

theorem modifyAt_leaf (whole parent : Path) (key : Seg) (init : Path) (node after : JsonValue) :
    modifyAt parent (changeKey whole key op) node init = .ok after ↔
      ∃ value, written op (valueAt (some node) (init ++ [key])) = some value ∧
        put (some node) (init ++ [key]) value = some after := by
  induction init generalizing node after with
  | nil =>
    rw [modifyAt]
    split_ifs with hNode
    · exact changeKey_leaf hLeaf whole key hNode
    · constructor
      · exact fun h => by cases h
      · rintro ⟨value, -, hPut⟩
        exact absurd (put_cons.mp hPut).1.1 hNode
  | cons seg rest ih =>
    cases hRead : read node seg with
    | none =>
      obtain ⟨error, hError⟩ := modifyAt_cons_none hRead parent (changeKey whole key op) rest
      rw [hError]
      constructor
      · exact fun h => by cases h
      · rintro ⟨value, -, hPut⟩
        obtain ⟨-, below, hBelow, -⟩ := put_cons.mp hPut
        rw [hRead] at hBelow
        cases rest <;> cases hBelow
    | some child =>
      rw [modifyAt_cons hRead, cons_append, valueAt, bind_some, hRead]
      constructor
      · intro h
        cases hChild : modifyAt parent (changeKey whole key op) child rest with
        | error error => cases h.symm.trans (congrArg _ hChild)
        | ok changed =>
          rw [hChild] at h
          obtain ⟨value, hValue, hPut⟩ := (ih child changed).mp hChild
          refine ⟨value, hValue, put_cons.mpr ⟨writable_of_read hRead, changed, by rw [hRead, hPut], ?_⟩⟩
          rw [← setChild_eq_write hRead]
          exact Except.ok.inj h
      · rintro ⟨value, hValue, hPut⟩
        obtain ⟨-, below, hBelow, hWrite⟩ := put_cons.mp hPut
        rw [hRead] at hBelow
        rw [(ih child below).mpr ⟨value, hValue, hBelow⟩, ← hWrite, ← setChild_eq_write hRead]
        rfl

theorem applyOp_leafPath (root : JsonValue) :
    applyOp root op = assertPathArg path true >>= fun _ =>
      match path.getLast? with
      | some key => modifyAt path.dropLast (changeKey path key op) root path.dropLast
      | none => .error (.type "path is empty") := by
  rcases leafPath_eq hLeaf with ⟨value, rfl, -⟩ | ⟨text, rfl⟩ <;> rfl

theorem applyOp_leaf (root after : JsonValue) :
    applyOp root op = .ok after ↔
      assertPathArg path true = .ok () ∧ ∃ value, written op (valueAt (some root) path) = some value ∧
        put (some root) path value = some after := by
  rw [applyOp_leafPath hLeaf]
  cases hPath : assertPathArg path true with
  | error error => simp [bind, Except.bind]
  | ok done =>
    rcases eq_nil_or_concat path with rfl | ⟨init, key, rfl⟩
    · cases hPath
    · simp only [concat_eq_append, getLast?_append, getLast?_singleton, dropLast_concat,
        some_or, bind, Except.bind, true_and]
      exact modifyAt_leaf hLeaf _ _ _ _ _ _

end

/-! What a replay of canonical ops gives. -/

/-- `Op.path`, for the ops that have one. -/
def pathOf : Op → Path
  | .r _ => []
  | .s path _ | .d path | .a path _ | .t path _ | .p path _ _ _ | .m path _ => path

/-- A replay whose ops name properties by strings and elements by numbers. -/
inductive Replays : JsonValue → List Op → JsonValue → Prop where
  | nil (value : JsonValue) : Replays value [] value
  | cons {root next last : JsonValue} {op : Op} {ops : List Op} (names : Names (some root) (pathOf op))
      (hApply : applyOp root op = .ok next) (hRest : Replays next ops last) : Replays root (op :: ops) last

theorem Replays.apply (h : Replays root ops last) : apply root ops = .ok last := by
  induction h with
  | nil value => rfl
  | cons names hApply hRest ih =>
    rw [Delta.apply, foldlM_cons, hApply]
    exact ih

theorem Replays.append {ops more : List Op} (h : Replays root ops middle)
    (hMore : Replays middle more last) : Replays root (ops ++ more) last := by
  induction h with
  | nil value => exact hMore
  | cons names hApply hRest ih => exact .cons names hApply (ih hMore)

theorem Replays.snoc (h : Replays root ops middle)
    (names : Names (some middle) (pathOf op)) (hApply : applyOp middle op = .ok last) :
    Replays root (ops ++ [op]) last :=
  h.append (.cons names hApply (.nil last))

theorem Replays.split {ops more : List Op} (h : Replays root (ops ++ more) last) :
    ∃ middle, Replays root ops middle ∧ Replays middle more last := by
  induction ops generalizing root with
  | nil => exact ⟨root, .nil root, h⟩
  | cons op ops ih =>
    cases h with
    | cons names hApply hRest =>
      obtain ⟨middle, hOps, hMore⟩ := ih hRest
      exact ⟨middle, .cons names hApply hOps, hMore⟩

theorem pathOf_leaf (h : leafPath op = some path) : pathOf op = path := by
  rcases leafPath_eq h with ⟨value, rfl, -⟩ | ⟨text, rfl⟩ <;> rfl

/-- A primitive stands at a path. -/
def Leaf (root : JsonValue) (path : Path) : Prop :=
  (∃ x, valueAt (some root) path = some x ∧ x.isContainer = false) ∧ Names (some root) path

/-- A primitive stands above a path. -/
def Cut (root : JsonValue) (path : Path) : Prop :=
  ∃ above seg rest, path = above ++ seg :: rest ∧ Leaf root above

theorem Cut.not_put (h : Cut root path) :
    put (some root) path value ≠ some after := by
  obtain ⟨above, seg, rest, rfl, ⟨x, hX, hPrimitive⟩, -⟩ := h
  intro hPut
  obtain ⟨y, hY, hContainer⟩ := put_append hPut
  obtain rfl := some.inj (hX.symm.trans hY)
  exact nomatch hPrimitive.symm.trans hContainer

theorem cut_above {above : Path} (hPrefix : above <+: path) (hNe : above ≠ path) (h : Leaf root above) : Cut root path := by
  obtain ⟨rest, rfl⟩ := hPrefix
  cases rest with
  | nil => exact absurd (append_nil above).symm hNe
  | cons seg rest => exact ⟨above, seg, rest, rfl, h⟩

theorem leaf_put (hNames : Names (some root) path)
    (hPut : put (some root) path value = some after) (hPrimitive : value.isContainer = false) :
    Leaf after path :=
  ⟨⟨value, valueAt_put hPut, hPrimitive⟩, names_put hNames hPut⟩

theorem Leaf.put {other : Path} (h : Leaf root path) (hNe : path ≠ other) (hNames : Names (some root) other)
    (hPut : put (some root) other value = some after) (hPrimitive : value.isContainer = false) :
    (¬ Meet path other ∧ Leaf after path) ∨ Cut after path := by
  by_cases hMeet : Meet path other
  · right
    rcases hMeet with hPrefix | hPrefix
    · exact absurd hPut (cut_above hPrefix hNe h).not_put
    · exact cut_above hPrefix hNe.symm (leaf_put hNames hPut hPrimitive)
  · left
    obtain ⟨⟨x, hX, hOld⟩, hPath⟩ := h
    have hPasses := put_passes hX hPut hMeet hPath hNames
    exact ⟨hMeet, ⟨x, hPasses.same.trans hX, hOld⟩, hPasses.names⟩

theorem Cut.put {other : Path} (h : Cut root path) (hNames : Names (some root) other)
    (hPut : put (some root) other value = some after) (hPrimitive : value.isContainer = false) : Cut after path := by
  obtain ⟨above, seg, rest, rfl, hLeaf⟩ := h
  by_cases hSame : above = other
  · subst hSame
    exact ⟨above, seg, rest, rfl, leaf_put hNames hPut hPrimitive⟩
  · rcases hLeaf.put hSame hNames hPut hPrimitive with ⟨-, hKept⟩ | ⟨higher, next, others, rfl, hHigher⟩
    · exact ⟨above, seg, rest, rfl, hKept⟩
    · exact ⟨higher, next, others ++ seg :: rest, by simp, hHigher⟩

/-- Only leaf ops at other paths. -/
def Elsewhere (path : Path) (ops : List Op) : Prop :=
  ∀ op ∈ ops, ∃ other, leafPath op = some other ∧ path ≠ other

theorem Cut.replays (h : Cut root path) (hOps : Elsewhere path ops) (hReplays : Replays root ops last) : Cut last path := by
  induction hReplays with
  | nil value => exact h
  | cons names hApply hRest ih =>
    obtain ⟨other, hOther, -⟩ := hOps _ mem_cons_self
    obtain ⟨-, value, hValue, hPut⟩ := (applyOp_leaf hOther _ _).mp hApply
    rw [pathOf_leaf hOther] at names
    exact ih (h.put names hPut (isPrimitive_written hOther hValue))
      fun op hOp => hOps op (mem_cons_of_mem _ hOp)

theorem Replays.advance (hReplays : Replays root ops middle) (hOps : Elsewhere path ops) (hThere : Leaf root path)
    (hLeaf : leafPath op = some path) (hApply : applyOp middle op = .ok last) :
    ∃ first, applyOp root op = .ok first ∧ Replays first ops last := by
  induction hReplays with
  | nil value => exact ⟨last, hApply, .nil last⟩
  | @cons root next middle other ops names hOther hRest ih =>
    have hLater : Elsewhere path ops := fun op hOp => hOps op (mem_cons_of_mem _ hOp)
    obtain ⟨otherPath, hOtherLeaf, hNe⟩ := hOps other mem_cons_self
    obtain ⟨hArg, value, hValue, hPut⟩ := (applyOp_leaf hOtherLeaf _ _).mp hOther
    have hNames := names
    rw [pathOf_leaf hOtherLeaf] at hNames
    rcases hThere.put hNe hNames hPut (isPrimitive_written hOtherLeaf hValue) with ⟨hMeet, hNext⟩ | hCut
    · obtain ⟨swapped, hSwapped, hSwappedRest⟩ := ih hLater hNext hApply
      obtain ⟨hPathArg, new, hNew, hNewPut⟩ := (applyOp_leaf hLeaf _ _).mp hSwapped
      obtain ⟨⟨x, hX, -⟩, hPath⟩ := hThere
      have hPasses := put_passes hX hPut hMeet hPath hNames
      obtain ⟨first, joined, hFirst, hSame, hKept, hJoined, hAfter⟩ := hPasses.swaps new
      obtain rfl := some.inj (hAfter.symm.trans hNewPut)
      refine ⟨first, (applyOp_leaf hLeaf _ _).mpr ⟨hPathArg, new, ?_, hFirst⟩, .cons ?_ ?_ hSwappedRest⟩
      · rw [← hPasses.same]
        exact hNew
      · rw [pathOf_leaf hOtherLeaf]
        exact hKept
      · exact (applyOp_leaf hOtherLeaf _ _).mpr ⟨hArg, value, by rw [hSame]; exact hValue, hJoined⟩
    · -- under a new primitive the path could not be written any more
      obtain ⟨-, new, -, hNewPut⟩ := (applyOp_leaf hLeaf _ _).mp hApply
      exact absurd hNewPut (hCut.replays hLater hRest).not_put

theorem applyOp_merge {previous merged : Op} (hPrevious : leafPath previous = some path) (hLeaf : leafPath op = some path)
    (hMerge : mergeOps previous op = some merged) (hFirst : applyOp root previous = .ok middle)
    (hSecond : applyOp middle op = .ok last) :
    leafPath merged = some path ∧ applyOp root merged = .ok last := by
  obtain ⟨hArg, value, hValue, hPut⟩ := (applyOp_leaf hPrevious _ _).mp hFirst
  obtain ⟨-, new, hNew, hNewPut⟩ := (applyOp_leaf hLeaf _ _).mp hSecond
  rw [put_put hPut] at hNewPut
  rw [valueAt_put hPut] at hNew
  rcases leafPath_eq hLeaf with ⟨set, rfl, hPrimitive⟩ | ⟨more, rfl⟩
  · have hSet : merged = .s path set := by
      cases previous <;> exact (some.inj hMerge).symm
    subst hSet
    exact ⟨hLeaf, (applyOp_leaf hLeaf _ _).mpr ⟨hArg, new, hNew, hNewPut⟩⟩
  · rcases leafPath_eq hPrevious with ⟨set, rfl, hPrimitive⟩ | ⟨text, rfl⟩
    · cases set with
      | str text =>
        obtain rfl := some.inj hMerge
        obtain rfl := some.inj hValue
        have hMerged : leafPath (.s path (.str (text ++ more))) = some path := rfl
        exact ⟨hMerged, (applyOp_leaf hMerged _ _).mpr ⟨hArg, new, hNew, hNewPut⟩⟩
      | _ => exact nomatch hMerge
    · obtain rfl := some.inj hMerge
      have hMerged : leafPath (.a path (text ++ more)) = some path := rfl
      refine ⟨hMerged, (applyOp_leaf hMerged _ _).mpr ⟨hArg, new, ?_, hNewPut⟩⟩
      rw [← hNew]
      cases hThere : valueAt (some root) path with
      | none => rw [hThere] at hValue; exact nomatch hValue
      | some current =>
        rw [hThere] at hValue
        cases current with
        | str old =>
          obtain rfl := some.inj hValue
          simp [written]
        | _ => exact nomatch hValue

/-- Every position of the index is that of the last leaf op at its path, and
only leaf ops at other paths come after it. -/
def Indexed (paths : List (Option Path)) (leaves : List (JsString × Nat)) : Prop :=
  ∀ key position, leaves.lookup key = some position →
    ∃ path, pathKey path = key ∧ paths[position]? = some (some path) ∧
      ∀ later entry, position < later → paths[later]? = some entry →
        ∃ other, entry = some other ∧ path ≠ other

theorem indexed_nil (paths : List (Option Path)) : Indexed paths [] := by
  intro key position h
  exact nomatch h

theorem Indexed.snoc {paths : List (Option Path)} {leaves : List (JsString × Nat)} (h : Indexed paths leaves)
    (path : Path) : Indexed (paths ++ [some path]) (set leaves (pathKey path) paths.length) := by
  intro key position hPosition
  rw [lookup_set] at hPosition
  split_ifs at hPosition with hKey
  · obtain rfl := some.inj hPosition
    refine ⟨path, hKey.symm, by simp, ?_⟩
    intro later entry hLater hEntry
    rw [List.getElem?_eq_none (by simp; omega)] at hEntry
    exact nomatch hEntry
  · obtain ⟨other, hOther, hThere, hAfter⟩ := h key position hPosition
    obtain ⟨hBound, -⟩ := List.getElem?_eq_some_iff.mp hThere
    refine ⟨other, hOther, by rw [List.getElem?_append_left hBound, hThere], ?_⟩
    intro later entry hLater hEntry
    rw [List.getElem?_append] at hEntry
    split_ifs at hEntry with hOld
    · exact hAfter later entry hLater hEntry
    · obtain ⟨hLast, rfl⟩ := List.getElem?_eq_some_iff.mp hEntry
      refine ⟨path, by simp, ?_⟩
      rintro rfl
      exact hKey hOther.symm

/-- The queue's ops still turn `base` into `newest`. -/
structure Folding.Folds (folding : Folding) (base newest : JsonValue) : Prop where
  indexed : Indexed (folding.ops.map leafPath) folding.leaves
  replays : Replays base folding.ops newest

theorem folds_nil (value : JsonValue) : ({ ops := [], leaves := [] } : Folding).Folds value value :=
  ⟨indexed_nil _, .nil value⟩

/-- What `mergeLeaf` found: a leaf op at the same path, and only leaf ops at
other paths after it. -/
theorem Folding.merging_eq {folding : Folding} {merged : Op} {position : Nat}
    (hIndexed : Indexed (folding.ops.map leafPath) folding.leaves) (h : folding.merging op path = some (position, merged)) :
    ∃ before previous after, folding.ops = before ++ previous :: after ∧ before.length = position ∧
      leafPath previous = some path ∧ Elsewhere path after ∧ mergeOps previous op = some merged := by
  rw [Folding.merging, bind_eq_some_iff] at h
  obtain ⟨found, hFound, h⟩ := h
  obtain ⟨previous, hPrevious, h⟩ := Option.bind_eq_some_iff.mp h
  obtain ⟨joined, hMerge, hSame⟩ := Option.map_eq_some_iff.mp h
  obtain ⟨rfl, rfl⟩ := Prod.mk.inj hSame
  obtain ⟨other, hKey, hThere, hAfter⟩ := hIndexed _ _ hFound
  obtain rfl := pathKey_injective hKey
  obtain ⟨hBound, hOp⟩ := List.getElem?_eq_some_iff.mp hPrevious
  rw [List.getElem?_map, hPrevious] at hThere
  refine ⟨folding.ops.take found, previous, folding.ops.drop (found + 1), ?_,
    length_take_of_le (Nat.le_of_lt hBound), some.inj hThere, ?_, hMerge⟩
  · rw [← hOp, ← drop_eq_getElem_cons hBound, take_append_drop]
  · intro later hLater
    obtain ⟨index, hIndex, rfl⟩ := mem_iff_getElem.mp hLater
    rw [length_drop] at hIndex
    obtain ⟨elsewhere, hEntry, hNe⟩ := hAfter (found + 1 + index) (leafPath (folding.ops[found + 1 + index]))
      (by omega) (by rw [List.getElem?_map, List.getElem?_eq_getElem (by omega)]; rfl)
    exact ⟨elsewhere, by rw [getElem_drop, hEntry], hNe⟩

theorem Folding.Folds.add {folding : Folding} {base newest next : JsonValue} (h : folding.Folds base newest)
    (names : Names (some newest) (pathOf op)) (hApply : applyOp newest op = .ok next) : (folding.add op).Folds base next := by
  have hSnoc := h.replays.snoc names hApply
  by_cases hReplace : isReplace op = true
  · cases op with
    | r value =>
      obtain rfl : value = next := Except.ok.inj hApply
      exact ⟨indexed_nil _, .cons trivial rfl (.nil value)⟩
    | _ => exact nomatch hReplace
  rw [Folding.add, if_neg hReplace]
  cases hLeaf : leafPath op with
  | none => exact ⟨indexed_nil _, hSnoc⟩
  | some path =>
    cases hMerging : folding.merging op path with
    | none =>
      simp only [hMerging]
      refine ⟨?_, hSnoc⟩
      rw [map_append, map_singleton, hLeaf, ← length_map leafPath]
      exact h.indexed.snoc path
    | some found =>
      obtain ⟨position, merged⟩ := found
      obtain ⟨before, previous, after, hOps, rfl, hPrevious, hAfter, hMerge⟩ :=
        Folding.merging_eq h.indexed hMerging
      have hReplays := h.replays
      rw [hOps] at hReplays
      obtain ⟨start, hBefore, hRest⟩ := hReplays.split
      cases hRest with
      | cons hNames hFirst hRest =>
        rw [pathOf_leaf hPrevious] at hNames
        obtain ⟨-, value, hValue, hPut⟩ := (applyOp_leaf hPrevious _ _).mp hFirst
        have hThere := leaf_put hNames hPut (isPrimitive_written hPrevious hValue)
        obtain ⟨joined, hJoined, hLast⟩ := hRest.advance hAfter hThere hLeaf hApply
        obtain ⟨hMerged, hOnce⟩ := applyOp_merge hPrevious hLeaf hMerge hFirst hJoined
        have hSet : folding.ops.set before.length merged = before ++ merged :: after := by
          rw [hOps, set_append_right _ _ (Nat.le_refl _), Nat.sub_self, set_cons_zero]
        simp only [hMerging]
        refine ⟨?_, ?_⟩
        · have hSame : (folding.ops.set before.length merged).map leafPath = folding.ops.map leafPath := by
            rw [hSet, hOps, map_append, map_append, map_cons, map_cons, hMerged, hPrevious]
          show Indexed ((folding.ops.set before.length merged).map leafPath) folding.leaves
          rw [hSame]
          exact h.indexed
        · show Replays base (folding.ops.set before.length merged) next
          rw [hSet]
          exact hBefore.append (.cons (by rw [pathOf_leaf hMerged]; exact hNames) hOnce hLast)

namespace PendingOps

/-- What waits turns `base` into `newest`, or says to replace the value. -/
def Holds (base newest : JsonValue) : PendingOps → Prop
  | .empty => base = newest
  | .batch ops => Replays base ops newest
  | .folding pending => pending.Folds base newest
  | .replace => True

variable {newest base : JsonValue}

theorem folds_fold {pending after : Folding} {last : JsonValue}
    (h : pending.Folds base newest) (hOps : Replays newest ops last) (hFold : pending.fold ops = some after) :
    after.Folds base last := by
  induction hOps generalizing pending with
  | nil value =>
    obtain rfl := some.inj hFold
    exact h
  | cons names hApply hRest ih =>
    rw [Folding.fold] at hFold
    split_ifs at hFold with hOverflow
    exact ih (h.add names hApply) hFold

theorem holds_folded {pending : Option Folding}
    (h : ∀ after, pending = some after → after.Folds base newest) : (folded pending).Holds base newest := by
  cases pending with
  | none => trivial
  | some after => exact h after rfl

theorem Holds.push {queue : PendingOps} {last : JsonValue}
    (h : queue.Holds base newest) (hOps : Replays newest ops last) : (queue.push ops).Holds base last := by
  by_cases hNil : ops = []
  · subst hNil
    cases hOps
    exact h
  by_cases hBase : isBase ops = true
  · -- a batch that begins with a replacement does not depend on what was there
    rw [PendingOps.push.eq_def, if_neg hNil, if_pos hBase]
    cases hOps with
    | nil => exact absurd rfl hNil
    | @cons root next last op ops names hApply hRest =>
      cases op with
      | r value => exact .cons trivial hApply hRest
      | _ => exact nomatch hBase
  rw [PendingOps.push.eq_def, if_neg hNil, if_neg hBase]
  cases queue with
  | empty =>
    obtain rfl := h
    exact hOps
  | batch earlier =>
    apply holds_folded
    intro after hAfter
    obtain ⟨pending, hPending, hFold⟩ := Option.bind_eq_some_iff.mp hAfter
    exact folds_fold (folds_fold (folds_nil base) h hPending) hOps hFold
  | folding pending => exact holds_folded fun after => folds_fold h hOps
  | replace => trivial

theorem Holds.take {queue : PendingOps}
    (h : queue.Holds base newest) (hTake : queue.take = .ops ops) : Replays base ops newest := by
  cases queue with
  | empty =>
    obtain rfl := h
    obtain rfl := PendingTake.ops.inj hTake
    exact .nil base
  | batch ops' =>
    obtain rfl := PendingTake.ops.inj hTake
    exact h
  | folding pending =>
    obtain rfl := PendingTake.ops.inj hTake
    exact h.replays
  | replace => exact nomatch hTake

end PendingOps
end OctoberHarness.Delta
