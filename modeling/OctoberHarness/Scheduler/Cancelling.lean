import OctoberHarness.Scheduler.Tree

/-! The two directions in which the scheduler looks for cancellation: up from the
owned, and down from the owners. -/
namespace OctoberHarness.Scheduler

open OrderedMap Relation List Option Bool

namespace Memory

variable (m : Memory)

/-- A live owner with intent is found above a node, before a background owner
without it. -/
inductive Cancels : Node → TaskRecord → Prop where
  | here {id : Nat} {owner : TaskRecord} (hLive : m.live.lookup id = some owner)
      (hIntent : owner.cancellationIntent = true) : Cancels (.task id) owner
  | task {id : Nat} {node : TaskNode} {owner : TaskRecord} (hNode : m.node {} id = some node)
      (hNone : (m.live.lookup id).filter TaskRecord.cancellationIntent = none) (hOrdinary : node.background = false)
      (hAbove : Cancels (parentOf node) owner) : Cancels (.task id) owner
  | conversation {id task : Nat} {owner : TaskRecord} (hEdge : m.edge {} id = some (some task))
      (hAbove : Cancels (.task task) owner) : Cancels (.conversation id) owner

/-- Memory with the tree around live work and the intent set in line with the
live records. -/
structure Loaded (m : Memory) : Prop extends Indexed m {} where
  live : ∀ {id record}, m.live.lookup id = some record → record.isTerminal = false
  intent : ∀ {id}, id ∈ m.intent ↔ ∃ record, m.live.lookup id = some record ∧ record.cancellationIntent = true

variable {m} {start : Node} {owner : TaskRecord}

/-- What is found in the steps of a walk up is the nearest one. -/
theorem firstCancelling_iff {fuel : Nat} {line : List Node}
    (hLine : Walk.visits (fun node => (m.parent {} node).toList) fuel [start] = some line) :
    m.firstCancelling (line.flatMap (m.steps {})) = some owner ↔ m.Cancels start owner := by
  induction fuel generalizing start line with
  | zero => cases hLine
  | succ fuel ih =>
    rw [Walk.visits, map_eq_some_iff] at hLine
    obtain ⟨rest, hRest, rfl⟩ := hLine
    rw [flatMap_cons]
    cases start with
    | conversation id =>
      cases hEdge : m.edge {} id with
      | none =>
        simp only [steps, hEdge, cons_append, firstCancelling, reduceCtorEq, false_iff]
        rintro (_ | _ | ⟨hSome, _⟩)
        rw [hEdge] at hSome
        cases hSome
      | some above =>
        cases above with
        | none =>
          have hEmpty : rest = [] := by
            rw [parent, hEdge] at hRest
            cases fuel <;> exact (some.inj hRest).symm
          subst hEmpty
          simp only [steps, hEdge, flatMap_nil, append_nil, firstCancelling, reduceCtorEq, false_iff]
          rintro (_ | _ | ⟨hSome, _⟩)
          rw [hEdge] at hSome
          cases hSome
        | some task =>
          have hTail : Walk.visits (fun node => (m.parent {} node).toList) fuel [.task task] = some rest := by
            rw [parent, hEdge] at hRest
            exact hRest
          simp only [steps, hEdge, cons_append, nil_append, firstCancelling]
          rw [ih hTail]
          constructor
          · exact .conversation hEdge
          · rintro (_ | _ | ⟨hSome, hAbove⟩)
            rw [hEdge] at hSome
            cases hSome
            exact hAbove
    | task id =>
      cases hNode : m.node {} id with
      | none =>
        have hLive : m.live.lookup id = none := by
          rw [node, or_eq_none_iff, map_eq_none_iff] at hNode
          exact hNode.1
        simp only [steps, hNode, cons_append, firstCancelling, reduceCtorEq, false_iff]
        rintro (⟨hSome, _⟩ | ⟨hSome, _⟩)
        · rw [hLive] at hSome
          cases hSome
        · rw [hNode] at hSome
          cases hSome
      | some known =>
        have hTail : Walk.visits (fun node => (m.parent {} node).toList) fuel [parentOf known] = some rest := by
          rw [parent, hNode] at hRest
          exact hRest
        simp only [steps, hNode, cons_append, nil_append, firstCancelling]
        cases hFilter : (m.live.lookup id).filter TaskRecord.cancellationIntent with
        | some live =>
          obtain ⟨hLive, hIntent⟩ := Option.filter_eq_some_iff.mp hFilter
          simp only [some.injEq]
          constructor
          · rintro rfl
            exact .here hLive hIntent
          · rintro (⟨hSome, _⟩ | ⟨_, hNone, _⟩)
            · exact some.inj (hLive.symm.trans hSome)
            · rw [hFilter] at hNone
              cases hNone
        | none =>
          have hTask : m.Cancels (.task id) owner ↔ known.background = false ∧ m.Cancels (parentOf known) owner := by
            constructor
            · rintro (⟨hSome, hIntent⟩ | ⟨hSame, _, hOrdinary, hAbove⟩)
              · rw [hSome, filter_some, if_pos hIntent] at hFilter
                cases hFilter
              · obtain rfl := some.inj (hNode.symm.trans hSame)
                exact ⟨hOrdinary, hAbove⟩
            · rintro ⟨hOrdinary, hAbove⟩
              exact .task hNode hFilter hOrdinary hAbove
          rw [hTask, ← ih hTail]
          cases known.background <;> simp

namespace Loaded

theorem intent_of_cancels (h : m.Loaded) (hCancels : m.Cancels start owner) :
    owner.id ∈ m.intent ∧ m.live.lookup owner.id = some owner := by
  induction hCancels with
  | here hLive hIntent =>
    obtain rfl := h.named hLive
    exact ⟨h.intent.mpr ⟨_, hLive, hIntent⟩, hLive⟩
  | task _ _ _ _ ih => exact ih
  | conversation _ _ ih => exact ih

theorem cancellingOwner_iff (h : m.Loaded) : m.cancellingOwner start = some owner ↔ m.Cancels start owner := by
  unfold cancellingOwner
  split_ifs with hEmpty
  · simp only [false_iff]
    intro hCancels
    have hIn := (h.intent_of_cancels hCancels).1
    rw [hEmpty] at hIn
    cases hIn
  · obtain ⟨line, hLine⟩ := h.line.exists_visits start
    rw [above, hLine, getD_some]
    exact firstCancelling_iff hLine

theorem cancels_of_reaches (h : m.Loaded) {at' : Node} (hLive : m.live.lookup owner.id = some owner)
    (hIntent : owner.cancellationIntent = true)
    (hReaches : Walk.Reaches (m.entered {} false fun below => below ∉ m.intent) (.task owner.id) at') :
    m.Cancels at' owner := by
  induction hReaches with
  | refl => exact .here hLive hIntent
  | @tail before child _ hStep ih =>
    obtain ⟨hChild, hEnters⟩ := List.mem_filter.mp hStep
    have hParent := h.parent_of_child hChild
    cases child with
    | conversation id =>
      obtain ⟨task, hEdge, rfl⟩ := parent_conversation.mp hParent
      exact .conversation hEdge ih
    | task id =>
      obtain ⟨known, hNode, rfl⟩ := parent_task.mp hParent
      rw [enters, hNode] at hEnters
      simp only [Bool.false_or, Bool.and_eq_true, Bool.not_eq_true', decide_eq_true_eq] at hEnters
      apply Cancels.task hNode _ hEnters.1 ih
      rw [filter_eq_none_iff]
      intro record hRecord hCancels
      exact hEnters.2 (h.intent.mpr ⟨record, hRecord, hCancels⟩)

theorem reaches_of_cancels (h : m.Loaded) {at' : Node} (hCancels : m.Cancels at' owner) (hNeeded : m.Needed {} at') :
    Walk.Reaches (m.entered {} false fun below => below ∉ m.intent) (.task owner.id) at' := by
  induction hCancels with
  | here hLive _ =>
    rw [h.named hLive]
  | @task id known owner hNode hNone hOrdinary hAbove ih =>
    have hChild : Node.task id ∈ m.children {} (parentOf known) :=
      h.listed_of_needed (parent_task.mpr ⟨known, hNode, rfl⟩) hNeeded
    apply (ih (.inr ⟨_, hChild⟩)).tail
    apply List.mem_filter.mpr ⟨hChild, _⟩
    rw [enters, hNode]
    simp only [hOrdinary, Bool.false_or, Bool.not_false, Bool.true_and, decide_eq_true_eq]
    intro hIn
    obtain ⟨record, hRecord, hIntent⟩ := h.intent.mp hIn
    exact Option.filter_eq_none_iff.mp hNone record hRecord hIntent
  | @conversation id task owner hEdge hAbove ih =>
    have hChild : Node.conversation id ∈ m.children {} (.task task) :=
      h.listed_of_needed (parent_conversation.mpr ⟨task, hEdge, rfl⟩) hNeeded
    apply (ih (.inr ⟨_, hChild⟩)).tail
    exact List.mem_filter.mpr ⟨hChild, rfl⟩

variable {record : TaskRecord}

theorem alive_iff (h : m.Loaded) {id : Nat} :
    m.Alive {} id record ↔ m.live.lookup id = some record :=
  ⟨fun hAlive => hAlive.1, fun hLive => ⟨hLive, h.live hLive⟩⟩

theorem found_live (h : m.Loaded) {child : Node} {step : Found} :
    (m.found {} child = some step ∧ step.live = some record) ↔
      child = .task record.id ∧ m.live.lookup record.id = some record ∧
        step = { id := record.id, node := record.toTaskNode, live := some record } := by
  cases child with
  | conversation id => simp [found]
  | task id =>
    rw [found, map_eq_some_iff]
    constructor
    · rintro ⟨⟨known, hNode, rfl⟩, hLive⟩
      obtain ⟨hRecord, hTerminal⟩ := Option.filter_eq_some_iff.mp hLive
      have hName : record.id = id := h.named hRecord
      have hSame : known = record.toTaskNode := some.inj (hNode.symm.trans (node_of_record hRecord))
      subst hName hSame
      exact ⟨rfl, hRecord, congrArg _ hLive⟩
    · rintro ⟨hChild, hLive, rfl⟩
      obtain rfl : id = record.id := Node.task.inj hChild
      refine ⟨⟨record.toTaskNode, node_of_record hLive, ?_⟩, rfl⟩
      have hFilter : (m.record {} record.id).filter (fun record => !record.isTerminal) = some record :=
        Option.filter_eq_some_iff.mpr ⟨hLive, by simp [h.live hLive]⟩
      rw [hFilter]

theorem walkDown_iff (h : m.Loaded) (hOwner : m.live.lookup owner.id = some owner) (hIntent : owner.cancellationIntent = true) :
    (∃ step ∈ m.walkDown {} (.task owner.id) false (fun below => below ∉ m.intent), step.live = some record ∧
      step.node.background = false) ↔
    m.live.lookup record.id = some record ∧ record.background = false ∧
      m.cancellingOwner (parentOf record.toTaskNode) = some owner := by
  constructor
  · rintro ⟨step, hStep, hLive, hOrdinary⟩
    obtain ⟨at', hReaches, child, hChild, hFound⟩ := h.mem_walkDown.mp hStep
    obtain ⟨rfl, hRecord, rfl⟩ := h.found_live.mp ⟨hFound, hLive⟩
    have hParent := some.inj ((h.parent_of_child hChild).symm.trans (parent_of_record hRecord))
    subst hParent
    exact ⟨hRecord, hOrdinary, h.cancellingOwner_iff.mpr (h.cancels_of_reaches hOwner hIntent hReaches)⟩
  · rintro ⟨hRecord, hOrdinary, hCancelling⟩
    have hChild : Node.task record.id ∈ m.children {} (parentOf record.toTaskNode) :=
      h.listed_of_needed (parent_of_record hRecord) (.inl ⟨record.id, record, rfl, h.alive_iff.mpr hRecord⟩)
    have hReaches := h.reaches_of_cancels (h.cancellingOwner_iff.mp hCancelling) (.inr ⟨_, hChild⟩)
    have hFound := h.found_live.mpr ⟨rfl, hRecord, rfl⟩
    exact ⟨_, h.mem_walkDown.mpr ⟨_, hReaches, _, hChild, hFound.1⟩, rfl, hOrdinary⟩

end Loaded

/-! Memory that a computation finds in order. -/

def knownNodes (m : Memory) : List Node :=
  m.live.map (fun entry => .task entry.1) ++ m.settled.map (fun entry => .task entry.1) ++
    m.edges.map fun entry => .conversation entry.1

theorem mem_knownNodes {node above : Node} (hParent : m.parent {} node = some above) : node ∈ m.knownNodes := by
  cases node with
  | conversation id =>
    obtain ⟨owner, hEdge, _⟩ := parent_conversation.mp hParent
    exact mem_append_right _ (List.mem_map.mpr ⟨(id, some owner), mem_of_lookup hEdge, rfl⟩)
  | task id =>
    obtain ⟨known, hNode, _⟩ := parent_task.mp hParent
    apply mem_append_left
    rw [Memory.node, or_eq_some_iff] at hNode
    rcases hNode with hNamed | ⟨_, hSettled⟩
    · obtain ⟨found, hRecord, _⟩ := Option.map_eq_some_iff.mp hNamed
      exact mem_append_left _ (List.mem_map.mpr ⟨(id, found), mem_of_lookup hRecord, rfl⟩)
    · exact mem_append_right _ (List.mem_map.mpr ⟨(id, known), mem_of_lookup hSettled, rfl⟩)

def needs (m : Memory) (node : Node) : Bool :=
  (match node with
    | .task id => (m.live.lookup id).isSome
    | .conversation _ => false) || listed m.below node ≠ []

/-- Memory is in order, with parents of a smaller rank. -/
def inOrder (m : Memory) (rank : Node → Nat) : Bool :=
  m.live.all (fun entry => entry.2.id = entry.1 && !entry.2.isTerminal) &&
  m.intent.all (fun id => ((m.live.lookup id).map TaskRecord.cancellationIntent).getD false) &&
  m.live.all (fun entry => !entry.2.cancellationIntent || entry.1 ∈ m.intent) &&
  m.below.all (fun entry => decide entry.2.Nodup && entry.2.all fun child =>
    m.parent {} child = some entry.1 && m.needs child) &&
  m.knownNodes.all fun node => (m.parent {} node).all fun above =>
    rank above < rank node && (!m.needs node || node ∈ listed m.below above)

theorem needs_iff (h : ∀ {id record}, m.live.lookup id = some record → record.isTerminal = false) {node : Node} :
    m.needs node = true ↔ m.Needed {} node := by
  have hListed : (∃ child, child ∈ m.children {} node) ↔ listed m.below node ≠ [] := by
    rw [children_empty]
    rw [ne_eq, eq_nil_iff_forall_not_mem, not_forall_not]
  unfold needs
  rw [Needed, hListed, or_eq_true, decide_eq_true_eq]
  apply or_congr_left
  cases node with
  | conversation id => simp
  | task id =>
    rw [isSome_iff_exists]
    constructor
    · rintro ⟨record, hLive⟩
      exact ⟨id, record, rfl, hLive, h hLive⟩
    · rintro ⟨_, record, hSame, hLive, _⟩
      cases hSame
      exact ⟨record, hLive⟩

theorem loaded_of_inOrder {rank : Node → Nat} (h : m.inOrder rank = true) : m.Loaded := by
  simp only [inOrder, Bool.and_eq_true, List.all_eq_true] at h
  obtain ⟨⟨⟨⟨hLive, hIntent⟩, hMarked⟩, hBelow⟩, hKnown⟩ := h
  have hNamed : ∀ {id record}, m.live.lookup id = some record → record.id = id ∧ record.isTerminal = false := by
    intro id record hLookup
    have hEntry := hLive _ (mem_of_lookup hLookup)
    simpa using hEntry
  have hParent : ∀ {node above}, m.parent {} node = some above →
      rank above < rank node ∧ (m.needs node = true → node ∈ listed m.below above) := by
    intro node above hAbove
    have hEntry := hKnown _ (mem_knownNodes hAbove)
    rw [hAbove] at hEntry
    simp only [all_some, Bool.and_eq_true, decide_eq_true_eq, or_eq_true, Bool.not_eq_true'] at hEntry
    exact ⟨hEntry.1, fun hNeeds => hEntry.2.resolve_left (by simp [hNeeds])⟩
  have hMembers : ∀ parent, (listed m.below parent).Nodup ∧ ∀ child ∈ listed m.below parent,
      m.parent {} child = some parent ∧ m.needs child = true := by
    intro parent
    unfold listed
    cases hLookup : m.below.lookup parent with
    | none => simp
    | some members =>
      have hEntry := hBelow _ (mem_of_lookup hLookup)
      simpa using hEntry
  refine { named := fun hLookup => (hNamed hLookup).1, listed := ?_, distinct := ?_, acyclic := ?_,
           live := fun hLookup => (hNamed hLookup).2, intent := ?_ }
  · intro parent child
    rw [children_empty, ← needs_iff fun hLookup => (hNamed hLookup).2]
    exact ⟨(hMembers parent).2 child, fun hChild => (hParent hChild.1).2 hChild.2⟩
  · intro parent
    rw [children_empty]
    exact (hMembers parent).1
  · intro node hCycle
    have hRank : ∀ {first last}, TransGen (fun child parent => m.parent {} child = some parent) first last →
        rank last < rank first := by
      intro first last hPath
      induction hPath with
      | single hStep => exact (hParent hStep).1
      | tail _ hStep ih => exact (hParent hStep).1.trans ih
    exact (hRank hCycle).false
  · intro id
    constructor
    · intro hIn
      have hFlag := hIntent id hIn
      cases hLookup : m.live.lookup id with
      | none =>
        rw [hLookup] at hFlag
        cases hFlag
      | some record =>
        rw [hLookup] at hFlag
        exact ⟨record, rfl, hFlag⟩
    · rintro ⟨record, hLookup, hCancels⟩
      have hFlag := hMarked _ (mem_of_lookup hLookup)
      simpa [hCancels] using hFlag

end Memory
end OctoberHarness.Scheduler
