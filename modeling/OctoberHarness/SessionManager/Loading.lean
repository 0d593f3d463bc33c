import Mathlib.Algebra.BigOperators.Group.List.Lemmas
import OctoberHarness.Json.Value
import OctoberHarness.Library.Cycles
import OctoberHarness.Library.Walk
import OctoberHarness.SessionManager.Context

/-! A session read from any file. The lines are JSON objects with a header first; nothing
else about ids and parents is checked. -/
namespace OctoberHarness.SessionManager

open List OrderedMap

/-- A property as `Map` and `===` compare it: an array or object is equal to itself only. -/
inductive Key where
  | undefined
  | null
  | bool (value : Bool)
  | number (value : JsNumber)
  | string (value : JsString)
  | object (place : Nat) (property : String)
deriving DecidableEq

def Key.truthy : Key → Bool
  | .undefined | .null => false
  | .bool value => value
  | .number value => value ≠ .ofNat 0
  | .string value => value ≠ []
  | .object .. => true

/-- A line of the file, at its place. -/
structure Line where
  place : Nat
  fields : Fields

namespace Line

def key (line : Line) (property : String) : Key :=
  match line.fields.lookup (js property) with
  | none => .undefined
  | some .null => .null
  | some (.bool value) => .bool value
  | some (.num value) => .number value
  | some (.str value) => .string value
  | some _ => .object line.place property

def id (line : Line) : Key := line.key "id"

def parentId (line : Line) : Key := line.key "parentId"

def isType (line : Line) (type : String) : Bool := line.key "type" = .string (js type)

def set (line : Line) (property : String) (value : JsonValue) : Line :=
  { line with fields := OrderedMap.set line.fields (js property) value }

/-- `entry.message.role`, which throws when there is no message. -/
def role (line : Line) : Option (Option JsonValue) :=
  match line.fields.lookup (js "message") with
  | none | some .null => none
  | some (.obj message) => some (message.lookup (js "role"))
  | some _ => some none

/-- Whether the line is a message of the role. -/
def hasRole (line : Line) (role : String) : Option Bool :=
  if line.isType "message" then
    line.role.map fun value => match value with | some (.str text) => text = js role | _ => false
  else some false

end Line

/-- The first kept entry of an old compaction, given by its index. -/
def keepById (lines : List Line) (line : Line) : Line :=
  match line.isType "compaction", line.key "firstKeptEntryIndex" with
  | true, .number index =>
    let kept :=
      match lines.zipIdx.find? fun target => JsNumber.ofNat target.2 = index with
      | some (target, _) =>
        if target.isType "session" then line
        else match target.fields.lookup (js "id") with
          | some id => line.set "firstKeptEntryId" id
          | none => { line with fields := erase line.fields (js "firstKeptEntryId") }
      | none => line
    { kept with fields := erase kept.fields (js "firstKeptEntryIndex") }
  | _, _ => line

/-- `migrateV1ToV2`: every entry gets a drawn id and the one before it as its parent. -/
def migrateV1ToV2 (draw : Nat → JsString) : JsonValue → List Line → List Line → List Line
  | _, done, [] => done
  | previous, done, line :: rest =>
    if line.isType "session" then migrateV1ToV2 draw previous (done ++ [line.set "version" (.num (.ofNat 2))]) rest
    else
      let placed := (line.set "id" (.str (draw done.length))).set "parentId" previous
      migrateV1ToV2 draw (.str (draw done.length)) (done ++ [keepById (done ++ placed :: rest) placed]) rest

def migrateV2ToV3 (line : Line) : Line :=
  if line.isType "session" then line.set "version" (.num (.ofNat 3))
  else
    match line.hasRole "hookMessage", line.fields.lookup (js "message") with
    | some true, some (.obj message) =>
      line.set "message" (.obj (OrderedMap.set message (js "role") (.str (js "custom"))))
    | _, _ => line

/-- Whether the version of the header is below another; `toNumber` is what comparing makes of a value. -/
def isBelow (toNumber : Key → Option Rat) (header : Line) (version : Rat) : Bool :=
  match header.key "version" with
  | .undefined | .null => 1 < version
  | key => (toNumber key).any (· < version)

def migrateToCurrentVersion (toNumber : Key → Option Rat) (draw : Nat → JsString) (header : Line) (lines : List Line) :
    List Line :=
  let named := if isBelow toNumber header 2 then migrateV1ToV2 draw .null [] lines else lines
  if isBelow toNumber header 3 then named.map migrateV2ToV3 else named

/-- The session entries of a file, whose first line is the header. -/
def fileEntries (toNumber : Key → Option Rat) (draw : Nat → JsString) (header : Fields) (rest : List Fields) : List Line :=
  (migrateToCurrentVersion toNumber draw ⟨0, header⟩
    ((header :: rest).zipIdx.map fun line => ⟨line.2, line.1⟩)).filter fun line => ¬ line.isType "session"

/-! What is built from the entries. -/

section Entries

variable (entries : List Line)

/-- `byId` of `_buildIndex`: a later entry takes the place of an earlier one. -/
def byId (id : Key) : Option Line :=
  entries.reverse.find? fun line => line.id = id

/-- `leafId` of `_buildIndex`. -/
def lastId : Key :=
  (entries.getLast?.map Line.id).getD .null

/-- What a walk to the root goes on with. -/
def parent (line : Line) : Option Line :=
  if line.parentId.truthy then byId entries line.parentId else none

/-- The loop of `getBranch` and `buildSessionPath`. -/
def pathFrom (fuel : Nat) (start : Option Line) : Option (List Line) :=
  (Walk.visits (fun line => (parent entries line).toList) fuel start.toList).map reverse

def getBranch (fuel : Nat) (fromId : Key) : Option (List Line) :=
  let startId := if fromId = .undefined ∨ fromId = .null then lastId entries else fromId
  pathFrom entries fuel (if startId.truthy then byId entries startId else none)

def buildSessionPath (fuel : Nat) (leafId : Key) : Option (List Line) :=
  if leafId = .null then some []
  else pathFrom entries fuel ((if leafId.truthy then byId entries leafId else none).or entries.getLast?)

variable {μ σ : Type} (project : Line → Option Line → Option (List μ)) (settings : List Line → Option σ)

def lineReader : Reader Line Key μ σ where
  id := Line.id
  firstKept line := if line.isType "compaction" then some (line.key "firstKeptEntryId") else none
  isSystem line := line.hasRole "system"
  editTarget line := if line.isType "context_edit" then some (line.key "targetId") else none
  project := project
  settings := settings

/-- `buildContextEntries`; it may throw. -/
def buildContextEntries (fuel : Nat) (leafId : Key) : Option (Option (List Line)) :=
  (buildSessionPath entries fuel leafId).map (lineReader project settings).contextEntries

/-- `buildSessionProjection`; it may throw. -/
def buildSessionProjection (fuel : Nat) (leafId : Key) : Option (Option (Projection Line μ σ)) :=
  (buildSessionPath entries fuel leafId).map (lineReader project settings).projection

/-- Whether the tree has the entry as a child. -/
def hangs (line : Line) : Bool :=
  line.parentId ≠ .null && line.parentId ≠ line.id && (byId entries line.parentId).isSome

def rootIds : List Key :=
  (entries.filter fun line => ¬ hangs entries line).map Line.id

def childIds (id : Key) : List Key :=
  (entries.filter fun line => hangs entries line && line.parentId = id).map Line.id

/-- The label of an entry and its timestamp, as `_buildIndex` resolves it. -/
def resolvedLabel (id : Key) : Option (JsonValue × Option JsonValue) :=
  (entries.reverse.find? fun line => line.isType "label" && line.key "targetId" = id).bind fun line =>
    ((line.fields.lookup (js "label")).filter truthy).map fun label => (label, line.fields.lookup (js "timestamp"))

end Entries

/-- The result of `getTree`, its nodes by their ids. -/
structure Tree where
  roots : List Key
  children : Key → List Key
  node : Key → Option (Line × Option (JsonValue × Option JsonValue))

/-- `children.sort` by timestamps: some order of the same children. -/
structure ChildOrder where
  sort : List Key → List Key
  perm : ∀ children, (sort children).Perm children

def getTree (order : ChildOrder) (entries : List Line) (fuel : Nat) : Option Tree :=
  (Walk.rearranged order.sort fuel (childIds entries) (rootIds entries).reverse).map fun children =>
    ⟨rootIds entries, children, fun id => (byId entries id).map fun entry => (entry, resolvedLabel entries id)⟩

/-! Which files load. -/

/-- The one line with its id. -/
def Alone (entries : List Line) (line : Line) : Prop :=
  entries.filter (fun other => other.id = line.id) = [line]

/-- A node of the tree is returned, and stands in one place: among the roots or among the
children of one node. -/
def Tree.Once (tree : Tree) (entries : List Line) (id : Key) : Prop :=
  (∃ root ∈ tree.roots, Walk.Reaches tree.children root id) ∧
    tree.roots.count id + ((entries.map Line.id).dedup.map fun parent => (tree.children parent).count id).sum = 1

/-- Every reader of the loaded session ends, from every leaf, and the tree has each entry with
an id of its own once. -/
structure Loads (order : ChildOrder) (project : Line → Option Line → Option (List μ)) (settings : List Line → Option σ)
    (entries : List Line) : Prop where
  branch : ∀ fromId, ∃ fuel path, getBranch entries fuel fromId = some path
  context : ∀ leafId, ∃ fuel context, buildContextEntries entries project settings fuel leafId = some context
  projection : ∀ leafId, ∃ fuel projection, buildSessionProjection entries project settings fuel leafId = some projection
  tree : ∃ fuel tree, getTree order entries fuel = some tree ∧ ∀ line ∈ entries, Alone entries line → tree.Once entries line.id

/-- The parent ids close no cycle: none that a walk to the root can follow, and none below a
root of the tree; and what has an id of its own is below a root. -/
structure Uncycled (entries : List Line) : Prop where
  parents : Cycles.Acyclic fun child line => parent entries child = some line
  tree : ∀ root ∈ rootIds entries, ∀ id, Walk.Reaches (childIds entries) root id →
    ¬ Relation.TransGen (Walk.Follows (childIds entries)) id id
  rooted : ∀ line ∈ entries, Alone entries line → ∃ root ∈ rootIds entries, Walk.Reaches (childIds entries) root line.id

section

variable {entries : List Line}

variable {line : Line}

theorem byId_some {id : Key} (h : byId entries id = some line) : line ∈ entries ∧ line.id = id :=
  ⟨List.mem_reverse.mp (mem_of_find?_eq_some h), by simpa using find?_some h⟩

theorem byId_mem (h : line ∈ entries) : (byId entries line.id).isSome :=
  List.find?_isSome.mpr ⟨line, List.mem_reverse.mpr h, decide_eq_true rfl⟩

theorem parent_some {child : Line} (h : parent entries child = some line) :
    line ∈ entries ∧ line.id.truthy ∧ byId entries line.id = some line := by
  rw [parent] at h
  split_ifs at h with hTruthy
  obtain ⟨hMem, hId⟩ := byId_some h
  rw [hId]
  exact ⟨hMem, hTruthy, h⟩

theorem follows_parent :
    Walk.Follows (fun line => (parent entries line).toList) = fun child line => parent entries child = some line := by
  funext child line
  exact propext Option.mem_toList

theorem pathFrom_ends_iff (start : Option Line) :
    (∃ fuel path, pathFrom entries fuel start = some path) ↔
      ∀ first ∈ start, ∀ line, Relation.ReflTransGen (fun child line => parent entries child = some line) first line →
        ¬ Relation.TransGen (fun child line => parent entries child = some line) line line := by
  have hEnds := @Walk.visits_ends_iff _ (fun line => (parent entries line).toList) entries start.toList
    fun h => (parent_some (Option.mem_toList.mp h)).1
  rw [Walk.Reaches, follows_parent] at hEnds
  simp only [Option.mem_toList] at hEnds
  refine Iff.trans ?_ hEnds
  constructor
  · rintro ⟨fuel, path, hPath⟩
    obtain ⟨found, hFound, -⟩ := Option.map_eq_some_iff.mp hPath
    exact ⟨fuel, found, hFound⟩
  · rintro ⟨fuel, found, hFound⟩
    exact ⟨fuel, found.reverse, by rw [pathFrom, hFound]; rfl⟩

theorem buildSessionPath_ends (h : Uncycled entries) (leafId : Key) :
    ∃ fuel path, buildSessionPath entries fuel leafId = some path := by
  by_cases hNull : leafId = .null
  · exact ⟨0, [], if_pos hNull⟩
  · obtain ⟨fuel, path, hPath⟩ := (pathFrom_ends_iff _).mpr fun _ _ line _ => h.parents line
    exact ⟨fuel, path, (if_neg hNull).trans hPath⟩

theorem acyclic_of_branches (h : ∀ fromId, ∃ fuel path, getBranch entries fuel fromId = some path) :
    Cycles.Acyclic fun child line => parent entries child = some line := by
  intro line hCycle
  obtain ⟨child, -, hLast⟩ := Relation.TransGen.tail'_iff.mp hCycle
  obtain ⟨-, hTruthy, hById⟩ := parent_some hLast
  have hStart : ∀ fuel, getBranch entries fuel line.id = pathFrom entries fuel (some line) := by
    intro fuel
    have hSome : ¬ (line.id = .undefined ∨ line.id = .null) := by
      rintro (hId | hId) <;> rw [hId] at hTruthy <;> cases hTruthy
    simp only [getBranch, if_neg hSome, if_pos hTruthy, hById]
  have hEnds := h line.id
  simp only [hStart] at hEnds
  exact (pathFrom_ends_iff _).mp hEnds line rfl line .refl hCycle

theorem childIds_listed {parentId id : Key} (h : id ∈ childIds entries parentId) : id ∈ entries.map Line.id := by
  obtain ⟨line, hLine, rfl⟩ := List.mem_map.mp h
  exact mem_map_of_mem (mem_of_mem_filter hLine)

theorem getTree_ends_iff (order : ChildOrder) :
    (∃ fuel tree, getTree order entries fuel = some tree) ↔
      ∀ root ∈ rootIds entries, ∀ id, Walk.Reaches (childIds entries) root id →
        ¬ Relation.TransGen (Walk.Follows (childIds entries)) id id := by
  have hEnds := @Walk.rearranged_ends_iff _ (childIds entries) (entries.map Line.id) (rootIds entries).reverse _ _
    order.perm fun h => childIds_listed h
  simp only [mem_reverse] at hEnds
  rw [← hEnds]
  constructor
  · rintro ⟨fuel, tree, hTree⟩
    obtain ⟨children, hChildren, -⟩ := Option.map_eq_some_iff.mp hTree
    exact ⟨fuel, children, hChildren⟩
  · rintro ⟨fuel, children, hChildren⟩
    exact ⟨fuel, _, by rw [getTree, hChildren]; rfl⟩

theorem getTree_some {order : ChildOrder} {fuel : Nat} {tree : Tree} (h : getTree order entries fuel = some tree) :
    tree.roots = rootIds entries ∧ ∀ id, (tree.children id).Perm (childIds entries id) := by
  obtain ⟨children, hChildren, rfl⟩ := Option.map_eq_some_iff.mp h
  exact ⟨rfl, Walk.perm_rearranged order.perm (fun _ => .refl _) hChildren⟩

theorem count_alone (h : Alone entries line) (p : Line → Bool) :
    ((entries.filter p).map Line.id).count line.id = if p line then 1 else 0 := by
  have hFilter : ((entries.filter p).filter fun other => other.id = line.id) = if p line then [line] else [] := by
    rw [filter_filter, filter_congr fun other _ => Bool.and_comm _ _, ← filter_filter, h]
    rw [filter_singleton, cond_eq_ite]
  rw [count, countP_map, countP_eq_length_filter]
  have hSame : (fun other => (other == line.id)) ∘ Line.id = fun other => decide (other.id = line.id) := by
    funext other
    rfl
  rw [hSame, hFilter]
  split_ifs <;> rfl

theorem once_placed (h : Alone entries line) :
    (rootIds entries).count line.id +
      ((entries.map Line.id).dedup.map fun parent => (childIds entries parent).count line.id).sum = 1 := by
  have hRoots : (rootIds entries).count line.id = if hangs entries line then 0 else 1 := by
    rw [rootIds, count_alone h]
    cases hangs entries line <;> rfl
  have hChildren : ∀ parent, (childIds entries parent).count line.id =
      if line.parentId = parent then (if hangs entries line then 1 else 0) else 0 := by
    intro parent
    rw [childIds, count_alone h]
    by_cases hParent : line.parentId = parent <;> simp [hParent]
  have hSum : ((entries.map Line.id).dedup.map fun parent => (childIds entries parent).count line.id).sum =
      if hangs entries line then 1 else 0 := by
    rw [sum_map_eq_nsmul_single line.parentId _ fun parent hNe _ => by rw [hChildren, if_neg hNe.symm], hChildren,
      if_pos rfl]
    by_cases hHangs : hangs entries line
    · have hSome : (byId entries line.parentId).isSome := by
        rw [hangs, Bool.and_eq_true] at hHangs
        exact hHangs.2
      obtain ⟨parent, hById⟩ := Option.isSome_iff_exists.mp hSome
      obtain ⟨hMem, hId⟩ := byId_some hById
      have hParent : line.parentId ∈ (entries.map Line.id).dedup := List.mem_dedup.mpr (hId ▸ mem_map_of_mem hMem)
      rw [count_eq_one_of_mem (nodup_dedup _) hParent, one_nsmul]
    · rw [if_neg hHangs, nsmul_zero]
  rw [hRoots, hSum]
  split_ifs <;> rfl

end

def entryOf (id parentId : String) : Fields :=
  [(js "type", .str (js "session_info")), (js "id", .str (js id)), (js "parentId", .str (js parentId))]

def headerOf (version : Nat) : Fields :=
  [(js "type", .str (js "session")), (js "version", .num (.ofNat version)), (js "id", .str (js "s"))]

end OctoberHarness.SessionManager
