import Mathlib.Tactic
import OctoberHarness.Delta.Immutable

/-! Writes of primitives at a path, and when two of them may change places. -/
namespace OctoberHarness.Fields

open OrderedMap

theorem insert_replace (fields : Fields) {key other : JsString} (hOther : other ≠ key) (value new : JsonValue) :
    insert other new (replace key value fields) =
      replace key value (insert other new fields) := by
  induction fields with
  | nil => simp [insert, replace, hOther]
  | cons field rest ih =>
    rw [insert, replace]
    by_cases hKey : field.1 = key
    · rw [if_pos hKey, insert, hKey]
      split_ifs <;> simp [replace, hOther, hKey]
    · rw [if_neg hKey, insert]
      split_ifs <;> simp [replace, hOther, hKey, ih]

theorem hasOwn_define (fields : Fields) (key other : JsString) (value : JsonValue) :
    hasOwn (define fields key value) other = (decide (other = key) || hasOwn fields other) := by
  rw [hasOwn, lookup_define, hasOwn]
  by_cases hOther : other = key <;> simp [hOther]

theorem define_comm {fields : Fields} {key other : JsString} (hOther : other ≠ key)
    (hOwn : hasOwn fields key = true) (value new : JsonValue) :
    define (define fields key value) other new = define (define fields other new) key value := by
  have hKept : hasOwn (define fields other new) key = true := by
    rw [hasOwn_define, hOwn, Bool.or_true]
  have hSame : hasOwn (define fields key value) other = hasOwn fields other := by
    rw [hasOwn_define, decide_eq_false hOther, Bool.false_or]
  rw [define.eq_def (define fields key value), hSame, define.eq_def (define fields other new), if_pos hKept,
    define, if_pos hOwn, define.eq_def fields other]
  split_ifs with hThere
  · exact replace_comm fields hOther value new
  · exact insert_replace fields hOther value new

theorem define_define (fields : Fields) (key : JsString) (value new : JsonValue) :
    define (define fields key value) key new = define fields key new := by
  have hOwn : hasOwn (define fields key value) key = true := by simp [hasOwn_define]
  rw [define, if_pos hOwn, define, define]
  split_ifs with hThere
  · exact replace_replace fields key value new
  · rw [Bool.not_eq_true] at hThere
    clear hOwn
    induction fields with
    | nil => simp [insert, replace]
    | cons field rest ih =>
      have hField : field.1 ≠ key ∧ hasOwn rest key = false := by
        rw [hasOwn, lookup_cons] at hThere
        split_ifs at hThere with hKey
        · cases hThere
        · exact ⟨Ne.symm hKey, hThere⟩
      rw [insert, insert]
      split_ifs <;> simp [replace, hField.1, ih hField.2]

end OctoberHarness.Fields

namespace OctoberHarness.Delta

/-! One step of a path. -/

/-- A segment that names an element or a property of a container, there already
or one that a write adds. -/
def Writable (node : JsonValue) (seg : Seg) : Prop :=
  node.isContainer = true ∧ assertKey node seg = .ok ()

instance (node : JsonValue) (seg : Seg) : Decidable (Writable node seg) :=
  decidable_of_iff (node.isContainer = true ∧ (assertKey node seg).isOk = true) (by
    rw [Writable]
    cases assertKey node seg <;> simp [Except.isOk, Except.toBool])

/-- Properties are named by strings. -/
def PlainAt (node : JsonValue) (seg : Seg) : Prop :=
  match node, seg with
  | .obj _, .index _ => False
  | _, _ => True

variable {seg : Seg} {node : JsonValue} {path : Path}

variable {node child value after x : JsonValue} {seg other : Seg} {rest : Path}

theorem writable_of_read (h : read node seg = some child) : Writable node seg := by
  cases node with
  | arr items =>
    cases seg with
    | key name => simp [read] at h
    | index n =>
      obtain ⟨hBound, -⟩ := List.getElem?_eq_some_iff.mp h
      exact ⟨rfl, by rw [assertKey, if_neg (by omega)]⟩
  | obj fields => exact ⟨rfl, rfl⟩
  | _ => simp [read] at h

theorem setChild_eq_write (h : read node seg = some child) (new : JsonValue) : setChild node seg new = write node seg new := by
  cases node with
  | arr items =>
    cases seg with
    | key name => simp [read] at h
    | index n =>
      obtain ⟨hBound, -⟩ := List.getElem?_eq_some_iff.mp h
      rw [setChild, write, if_pos hBound]
  | obj fields => rfl
  | _ => simp [read] at h

theorem Writable.index {items : List JsonValue} (h : Writable (.arr items) seg) :
    ∃ n, seg = .index n ∧ n ≤ items.length := by
  cases seg with
  | key name => exact nomatch h.2
  | index n =>
    refine ⟨n, rfl, ?_⟩
    by_contra hBound
    have hKey := h.2
    rw [assertKey, if_pos (by omega)] at hKey
    exact nomatch hKey

theorem read_write_self (h : Writable node seg) (value : JsonValue) :
    read (write node seg value) seg = some value := by
  cases node with
  | arr items =>
    obtain ⟨n, rfl, hBound⟩ := h.index
    rw [write]
    split_ifs with hInside
    · simp [read, hInside]
    · obtain rfl : n = items.length := by omega
      simp [read]
  | obj fields => simp [read, write, Fields.lookup_define]
  | _ => cases h.1

theorem write_write (h : Writable node seg) (value new : JsonValue) :
    write (write node seg value) seg new = write node seg new := by
  cases node with
  | arr items =>
    obtain ⟨n, rfl, hBound⟩ := h.index
    by_cases hInside : n < items.length
    · simp [write, hInside]
    · obtain rfl : n = items.length := by omega
      simp [write]
  | obj fields => simp [write, Fields.define_define]
  | _ => exact nomatch h.1

theorem PlainAt.name_ne {fields : Fields} (hSeg : PlainAt (.obj fields) seg)
    (hOther : PlainAt (.obj fields) other) (hNe : other ≠ seg) : other.name ≠ seg.name := by
  cases seg with
  | index n => exact hSeg.elim
  | key name =>
    cases other with
    | index n => exact hOther.elim
    | key name' =>
      intro hSame
      exact hNe (congrArg Seg.key hSame)

theorem read_write_ne (hWritable : Writable node seg)
    (hSeg : PlainAt node seg) (hOther : PlainAt node other) (hNe : other ≠ seg) (value : JsonValue) :
    read (write node seg value) other = read node other := by
  cases node with
  | arr items =>
    obtain ⟨n, rfl, hBound⟩ := hWritable.index
    cases other with
    | key name => rw [write]; split_ifs <;> rfl
    | index m =>
      have hIndex : n ≠ m := fun h => hNe (congrArg Seg.index h.symm)
      rw [write]
      split_ifs with hInside
      · simp [read, List.getElem?_set_ne hIndex]
      · obtain rfl : n = items.length := by omega
        simp only [read, List.getElem?_append]
        split_ifs with hLess
        · rfl
        · rw [List.getElem?_eq_none (l := items) (by omega), List.getElem?_eq_none (by simp; omega)]
  | obj fields => simp [read, write, Fields.lookup_define, hSeg.name_ne hOther hNe]
  | _ => cases hWritable.1

theorem write_comm (hRead : read node seg = some child) (hWritable : Writable node other) (hSeg : PlainAt node seg)
    (hOther : PlainAt node other) (hNe : other ≠ seg) (value new : JsonValue) :
    write (write node seg value) other new = write (write node other new) seg value := by
  cases node with
  | arr items =>
    obtain ⟨m, rfl, hBound⟩ := hWritable.index
    cases seg with
    | key name => simp [read] at hRead
    | index n =>
      obtain ⟨hInside, -⟩ := List.getElem?_eq_some_iff.mp hRead
      have hIndex : m ≠ n := fun h => hNe (congrArg Seg.index h)
      by_cases hOld : m < items.length
      · simp [write, hInside, hOld, List.set_comm _ _ hIndex]
      · simp [write, hInside, hOld, Nat.lt_succ_of_lt hInside, List.set_append_left _ _ hInside]
  | obj fields =>
    have hOwn : Fields.hasOwn fields seg.name = true := by
      rw [Fields.hasOwn, show fields.lookup seg.name = some child from hRead]
      rfl
    simp [write, Fields.define_comm (hSeg.name_ne hOther hNe) hOwn]
  | _ => cases hWritable.1

theorem plainAt_write (seg other : Seg) (value : JsonValue) :
    PlainAt (write node seg value) other ↔ PlainAt node other := by
  cases node with
  | arr items => cases seg <;> cases other <;> simp [write, PlainAt]
  | obj fields => cases other <;> simp [write, PlainAt]
  | _ => rfl

theorem writable_write (hRead : read node seg = some child)
    (other : Seg) (value : JsonValue) : Writable (write node seg value) other ↔ Writable node other := by
  cases node with
  | arr items =>
    cases seg with
    | key name => simp [read] at hRead
    | index n =>
      obtain ⟨hInside, -⟩ := List.getElem?_eq_some_iff.mp hRead
      rw [write, if_pos hInside]
      cases other <;> simp [Writable, assertKey, JsonValue.isContainer]
  | obj fields => exact Iff.rfl
  | _ => simp [read] at hRead

def valueAt : Option JsonValue → Path → Option JsonValue
  | node, [] => node
  | node, seg :: rest => valueAt (node.bind fun node => read node seg) rest

/-- Write at a path whose parent is there. -/
def put : Option JsonValue → Path → JsonValue → Option JsonValue
  | _, [], value => some value
  | none, _ :: _, _ => none
  | some node, seg :: rest, value =>
    if Writable node seg then (put (read node seg) rest value).map (write node seg) else none

/-- A path names properties by strings and elements by numbers, as far as it
leads. -/
def Names : Option JsonValue → Path → Prop
  | some node, seg :: rest => PlainAt node seg ∧ Names (read node seg) rest
  | _, _ => True

/-- One path leads through the other. -/
def Meet (path other : Path) : Prop :=
  path <+: other ∨ other <+: path

theorem put_cons :
    put (some node) (seg :: rest) value = some after ↔
      Writable node seg ∧ ∃ below, put (read node seg) rest value = some below ∧ write node seg below = after := by
  rw [put]
  by_cases hWritable : Writable node seg
  · rw [if_pos hWritable, Option.map_eq_some_iff]
    exact (and_iff_right hWritable).symm
  · rw [if_neg hWritable]
    exact ⟨fun h => (nomatch h), fun h => absurd h.1 hWritable⟩

theorem valueAt_none (path : Path) : valueAt none path = none := by
  induction path with
  | nil => rfl
  | cons seg rest ih => exact ih

theorem valueAt_cons (h : valueAt (some node) (seg :: rest) = some x) :
    ∃ child, read node seg = some child ∧ valueAt (some child) rest = some x := by
  rw [valueAt, Option.bind_some] at h
  cases hRead : read node seg with
  | none =>
    rw [hRead, valueAt_none] at h
    exact nomatch h
  | some child =>
    rw [hRead] at h
    exact ⟨child, rfl, h⟩

theorem put_of_valueAt (h : valueAt (some node) path = some x)
    (value : JsonValue) : ∃ after, put (some node) path value = some after := by
  induction path generalizing node with
  | nil => exact ⟨value, rfl⟩
  | cons seg rest ih =>
    obtain ⟨child, hRead, hRest⟩ := valueAt_cons h
    obtain ⟨below, hBelow⟩ := ih hRest
    rw [← hRead] at hBelow
    exact ⟨_, put_cons.mpr ⟨writable_of_read hRead, below, hBelow, rfl⟩⟩

theorem valueAt_put (h : put (some node) path value = some after) : valueAt (some after) path = some value := by
  induction path generalizing node after with
  | nil => rw [valueAt, ← h, put]
  | cons seg rest ih =>
    obtain ⟨hWritable, below, hBelow, rfl⟩ := put_cons.mp h
    rw [valueAt, Option.bind_some, read_write_self hWritable]
    cases hRead : read node seg with
    | none =>
      rw [hRead] at hBelow
      cases rest with
      | nil => rw [valueAt, ← hBelow, put]
      | cons next rest => exact nomatch hBelow
    | some child =>
      rw [hRead] at hBelow
      exact ih hBelow

theorem put_put (h : put (some node) path value = some after)
    (new : JsonValue) : put (some after) path new = put (some node) path new := by
  induction path generalizing node after with
  | nil => rfl
  | cons seg rest ih =>
    obtain ⟨hWritable, below, hBelow, rfl⟩ := put_cons.mp h
    have hRead := read_write_self hWritable below
    have hThere : Writable (write node seg below) seg := writable_of_read hRead
    have hBelow' : put (some below) rest new = put (read node seg) rest new := by
      cases hOld : read node seg with
      | none =>
        rw [hOld] at hBelow
        cases rest with
        | nil => rfl
        | cons next rest => exact nomatch hBelow
      | some child =>
        rw [hOld] at hBelow
        exact ih hBelow
    rw [put, put, hRead, hBelow', if_pos hThere, if_pos hWritable]
    cases put (read node seg) rest new with
    | none => rfl
    | some changed => rw [Option.map_some, Option.map_some, write_write hWritable]

theorem names_put (hNames : Names (some node) path)
    (h : put (some node) path value = some after) : Names (some after) path := by
  induction path generalizing node after with
  | nil => trivial
  | cons seg rest ih =>
    obtain ⟨hPlain, hRest⟩ := hNames
    obtain ⟨hWritable, below, hBelow, rfl⟩ := put_cons.mp h
    refine ⟨(plainAt_write seg seg below).mpr hPlain, ?_⟩
    rw [read_write_self hWritable]
    cases hRead : read node seg with
    | none =>
      rw [hRead] at hBelow
      cases rest with
      | nil => trivial
      | cons next rest => exact nomatch hBelow
    | some child =>
      rw [hRead] at hBelow hRest
      exact ih hRest hBelow

theorem put_append (h : put (some node) (path ++ seg :: rest) value = some after) :
    ∃ x, valueAt (some node) path = some x ∧ x.isContainer = true := by
  induction path generalizing node after with
  | nil => exact ⟨node, rfl, (put_cons.mp h).1.1⟩
  | cons first path ih =>
    obtain ⟨-, below, hBelow, -⟩ := put_cons.mp h
    cases hRead : read node first with
    | none =>
      rw [hRead] at hBelow
      cases path <;> exact nomatch hBelow
    | some child =>
      rw [hRead] at hBelow
      rw [valueAt, Option.bind_some, hRead]
      exact ih hBelow

/-- What a write at a path does to a path it does not meet. -/
structure Passes (node after : JsonValue) (path other : Path) (written : JsonValue) : Prop where
  same : valueAt (some after) path = valueAt (some node) path
  names : Names (some after) path
  swaps : ∀ value, ∃ first last, put (some node) path value = some first ∧
    valueAt (some first) other = valueAt (some node) other ∧ Names (some first) other ∧
    put (some first) other written = some last ∧ put (some after) path value = some last

/-- Writes at paths that do not meet change places, when one path is there. -/
theorem put_passes {written : JsonValue} {path other : Path}
    (hThere : valueAt (some node) path = some x) (hPut : put (some node) other written = some after)
    (hMeet : ¬ Meet path other) (hPath : Names (some node) path) (hOther : Names (some node) other) :
    Passes node after path other written := by
  induction path generalizing node after other with
  | nil => exact absurd (Or.inl List.nil_prefix) hMeet
  | cons seg rest ih =>
    cases other with
    | nil => exact absurd (Or.inr List.nil_prefix) hMeet
    | cons next others =>
      obtain ⟨child, hRead, hRest⟩ := valueAt_cons hThere
      obtain ⟨hWritable, below, hBelow, rfl⟩ := put_cons.mp hPut
      obtain ⟨hPlain, hNames⟩ := hPath
      obtain ⟨hPlainNext, hNamesNext⟩ := hOther
      have hSeg := writable_of_read hRead
      by_cases hNext : next = seg
      · -- both go through the same child
        subst hNext
        rw [hRead] at hBelow hNames hNamesNext
        have hApart : ¬ Meet rest others := by
          rintro (hPrefix | hPrefix)
          · exact hMeet (.inl (List.cons_prefix_cons.mpr ⟨rfl, hPrefix⟩))
          · exact hMeet (.inr (List.cons_prefix_cons.mpr ⟨rfl, hPrefix⟩))
        have hChild := ih hRest hBelow hApart hNames hNamesNext
        refine ⟨?_, ⟨(plainAt_write _ _ _).mpr hPlain, ?_⟩, ?_⟩
        · rw [valueAt, valueAt, Option.bind_some, Option.bind_some, read_write_self hSeg, hRead, hChild.same]
        · rw [read_write_self hSeg]
          exact hChild.names
        · intro value
          obtain ⟨first, last, hFirst, hSame, hKept, hLast, hAfter⟩ := hChild.swaps value
          have hWrite := fun new => (writable_write hRead next new).mpr hSeg
          refine ⟨write node next first, write node next last, ?_, ?_, ⟨?_, ?_⟩, ?_, ?_⟩
          · exact put_cons.mpr ⟨hSeg, first, by rw [hRead, hFirst], rfl⟩
          · rw [valueAt, valueAt, Option.bind_some, Option.bind_some, read_write_self hSeg, hRead, hSame]
          · exact (plainAt_write _ _ _).mpr hPlainNext
          · rw [read_write_self hSeg]
            exact hKept
          · exact put_cons.mpr ⟨hWrite first, last, by rw [read_write_self hSeg, hLast], write_write hSeg _ _⟩
          · exact put_cons.mpr ⟨hWrite below, last, by rw [read_write_self hSeg, hAfter], write_write hSeg _ _⟩
      · -- they part here
        have hKept := read_write_ne hWritable hPlainNext hPlain (Ne.symm hNext) below
        refine ⟨?_, ⟨(plainAt_write _ _ _).mpr hPlain, by rw [hKept]; exact hNames⟩, ?_⟩
        · rw [valueAt, valueAt, Option.bind_some, Option.bind_some, hKept]
        · intro value
          obtain ⟨changed, hChanged⟩ := put_of_valueAt hRest value
          rw [← hRead] at hChanged
          have hRead' := read_write_ne hSeg hPlain hPlainNext hNext changed
          refine ⟨write node seg changed, write (write node seg changed) next below, ?_, ?_, ⟨?_, ?_⟩, ?_, ?_⟩
          · exact put_cons.mpr ⟨hSeg, changed, hChanged, rfl⟩
          · rw [valueAt, valueAt, Option.bind_some, Option.bind_some, hRead']
          · exact (plainAt_write _ _ _).mpr hPlainNext
          · rw [hRead']
            exact hNamesNext
          · exact put_cons.mpr ⟨(writable_write hRead next changed).mpr hWritable, below,
              by rw [hRead', hBelow], rfl⟩
          · refine put_cons.mpr ⟨writable_of_read (hKept.trans hRead), changed, by rw [hKept, hChanged], ?_⟩
            exact (write_comm hRead hWritable hPlain hPlainNext hNext changed below).symm

end OctoberHarness.Delta
