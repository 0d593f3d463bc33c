import OctoberHarness.Scheduler.Ownership

/-! The tree that memory keeps around live work, and what walks find in it. -/
namespace OctoberHarness.Scheduler

open OrderedMap Relation Option

theorem mem_of_mem_listed {links : Links} {parent child : Node} (hChild : child ∈ listed links parent) :
    child ∈ links.flatMap Prod.snd := by
  unfold listed at hChild
  cases hLookup : links.lookup parent with
  | none => simp [hLookup] at hChild
  | some members =>
    rw [hLookup, getD_some] at hChild
    exact List.mem_flatMap.mpr ⟨(parent, members), mem_of_lookup hLookup, hChild⟩

namespace Memory

variable {m : Memory} {overlay : Overlay}

/-- A live task, in the overlay's view. -/
def Alive (m : Memory) (overlay : Overlay) (id : Nat) (record : TaskRecord) : Prop :=
  m.record overlay id = some record ∧ record.isTerminal = false

/-- A live task, or a node with some listed below it. -/
def Needed (m : Memory) (overlay : Overlay) (node : Node) : Prop :=
  (∃ id record, node = .task id ∧ m.Alive overlay id record) ∨ ∃ child, child ∈ m.children overlay node

/-- The index downward is the tree upward, around live work. -/
structure Indexed (m : Memory) (overlay : Overlay) : Prop where
  named : ∀ {id record}, m.record overlay id = some record → record.id = id
  listed : ∀ {parent child}, child ∈ m.children overlay parent ↔
    m.parent overlay child = some parent ∧ m.Needed overlay child
  distinct : ∀ parent, (m.children overlay parent).Nodup
  acyclic : ∀ node, ¬ TransGen (fun child parent => m.parent overlay child = some parent) node node

theorem links_empty (m : Memory) : m.links {} = [] := rfl

theorem children_empty (m : Memory) (parent : Node) : m.children {} parent = Scheduler.listed m.below parent := by
  rw [children, links_empty, listed]
  exact List.append_nil _

theorem mem_listedNodes {parent child : Node} (hChild : child ∈ m.children overlay parent) :
    child ∈ m.listedNodes overlay := by
  rcases List.mem_append.mp hChild with hBelow | hLink
  · exact List.mem_append_left _ (mem_of_mem_listed hBelow)
  · exact List.mem_append_right _ (mem_of_mem_listed hLink)

variable {id : Nat} {above : Node}

theorem node_of_record {record : TaskRecord} (hRecord : m.record overlay id = some record) :
    m.node overlay id = some record.toTaskNode := by
  rw [node, hRecord]
  rfl

theorem parent_of_record {record : TaskRecord} (hRecord : m.record overlay id = some record) :
    m.parent overlay (.task id) = some (parentOf record.toTaskNode) := by
  rw [parent, node_of_record hRecord]
  rfl

theorem parent_conversation :
    m.parent overlay (.conversation id) = some above ↔ ∃ owner, m.edge overlay id = some (some owner) ∧ above = .task owner := by
  rw [parent, map_eq_some_iff]
  constructor
  · rintro ⟨owner, hOwner, rfl⟩
    exact ⟨owner, join_eq_some_iff.mp hOwner, rfl⟩
  · rintro ⟨owner, hOwner, rfl⟩
    exact ⟨owner, join_eq_some_iff.mpr hOwner, rfl⟩

theorem parent_task :
    m.parent overlay (.task id) = some above ↔ ∃ node, m.node overlay id = some node ∧ parentOf node = above := by
  rw [parent, map_eq_some_iff]

theorem mem_parents {node : Node} (hParent : m.parent overlay node = some above) : above ∈ m.parents overlay := by
  have hEdges : ∀ {id : Nat} {owner : Nat}, m.edge overlay id = some (some owner) →
      .task owner ∈ (overlay.edges ++ m.edges).filterMap fun entry => entry.2.map Node.task := by
    intro id owner hEdge
    rw [edge, ← lookup_append] at hEdge
    exact List.mem_filterMap.mpr ⟨(id, some owner), mem_of_lookup hEdge, rfl⟩
  cases node with
  | conversation id =>
    obtain ⟨owner, hEdge, rfl⟩ := parent_conversation.mp hParent
    exact List.mem_append_right _ (hEdges hEdge)
  | task id =>
    obtain ⟨known, hNode, rfl⟩ := parent_task.mp hParent
    apply List.mem_append_left
    rw [Memory.node, or_eq_some_iff] at hNode
    rcases hNode with hNamed | ⟨_, hSettled⟩
    · obtain ⟨found, hRecord, rfl⟩ := map_eq_some_iff.mp hNamed
      rw [Memory.record, ← lookup_append] at hRecord
      exact List.mem_append_left _ (List.mem_map.mpr ⟨(id, found), mem_of_lookup hRecord, rfl⟩)
    · exact List.mem_append_right _ (List.mem_map.mpr ⟨(id, known), mem_of_lookup hSettled, rfl⟩)

theorem mem_walkDown_of_forest (h : Walk.Forest (m.children overlay) (m.listedNodes overlay)) {start : Node}
    {crossBackground : Bool} {enter : Nat → Bool} {step : Found} :
    step ∈ m.walkDown overlay start crossBackground enter ↔
      ∃ at', Walk.Reaches (m.entered overlay crossBackground enter) start at' ∧
        ∃ child ∈ m.children overlay at', m.found overlay child = some step := by
  have hForest : Walk.Forest (m.entered overlay crossBackground enter) (m.listedNodes overlay) :=
    h.sublist fun _ => List.filter_sublist
  simp only [walkDown, List.mem_flatMap, hForest.mem_visits, List.mem_filterMap]

namespace Indexed

variable (h : m.Indexed overlay)

include h

theorem parent_of_child {parent child : Node} (hChild : child ∈ m.children overlay parent) :
    m.parent overlay child = some parent := (h.listed.mp hChild).1

theorem listed_of_needed {parent child : Node} (hParent : m.parent overlay child = some parent)
    (hNeeded : m.Needed overlay child) : child ∈ m.children overlay parent := h.listed.mpr ⟨hParent, hNeeded⟩

theorem acyclic_children (node : Node) : ¬ TransGen (Walk.Follows (m.children overlay)) node node := by
  intro hCycle
  apply h.acyclic node
  have hUp : TransGen (Function.swap (Walk.Follows (m.children overlay))) node node := transGen_swap.mpr hCycle
  exact TransGen.mono (fun child parent hChild => h.parent_of_child hChild) _ _ hUp

theorem forest : Walk.Forest (m.children overlay) (m.listedNodes overlay) := by
  apply Walk.Forest.of_parent
  · exact mem_listedNodes
  · exact h.distinct
  · intro first second child hFirst hSecond
    exact some.inj ((h.parent_of_child hFirst).symm.trans (h.parent_of_child hSecond))
  · exact h.acyclic_children

theorem mem_walkDown {start : Node} {crossBackground : Bool} {enter : Nat → Bool} {step : Found} :
    step ∈ m.walkDown overlay start crossBackground enter ↔
      ∃ at', Walk.Reaches (m.entered overlay crossBackground enter) start at' ∧
        ∃ child ∈ m.children overlay at', m.found overlay child = some step :=
  mem_walkDown_of_forest h.forest

theorem line : Walk.Forest (fun node => (m.parent overlay node).toList) (m.parents overlay) := by
  have hFollows : ∀ {first second}, second ∈ (m.parent overlay first).toList → m.parent overlay first = some second :=
    fun hIn => mem_toList.mp hIn
  apply Walk.Forest.of_line
  · intro first second hIn
    exact mem_parents (hFollows hIn)
  · intro first
    cases m.parent overlay first <;> simp
  · intro node hCycle
    exact h.acyclic node (TransGen.mono (fun first second hIn => hFollows hIn) _ _ hCycle)

end Indexed
end Memory
end OctoberHarness.Scheduler
