import OctoberHarness.Scheduler.Tree
import OctoberHarness.Scheduler.Waits

/-! Memory that mirrors the committed records, and what walks find in it under the
candidates of a commit. -/
namespace OctoberHarness.Scheduler

open OrderedMap Relation Cycles Option

namespace Memory

/-- A node's place in the tree is in memory. -/
def Knows (m : Memory) (node : Node) : Prop :=
  match node with
  | .task id => m.node {} id ≠ none
  | .conversation id => m.edges.lookup id ≠ none

/-- Memory in line with the committed records, with the chains of live tasks loaded. -/
structure Mirrors (m : Memory) (s : Store) : Prop where
  live : ∀ id, m.live.lookup id = (s.tasks.lookup id).filter fun record => !record.isTerminal
  settled : ∀ {id node}, m.settled.lookup id = some node →
    ∃ record, s.tasks.lookup id = some record ∧ record.isTerminal = true ∧ node = record.toTaskNode
  edges : ∀ {id owner}, m.edges.lookup id = some owner → s.conversations.lookup id = some owner
  chains : ∀ {node above}, m.Knows node → s.parent node = some above → m.Knows above
  indexed : m.Indexed {}

variable {m : Memory} {s : Store}

namespace Mirrors

variable (h : m.Mirrors s)

include h

variable {id : Nat} {record : TaskRecord}

theorem live_iff : m.live.lookup id = some record ↔ s.Live id record := by
  rw [h.live, filter_eq_some_iff, Store.Live]
  simp

theorem knows_of_live (hLive : s.Live id record) : m.Knows (.task id) := by
  have hNode : m.node {} id = some record.toTaskNode := node_of_record (h.live_iff.mpr hLive)
  rw [Knows, hNode]
  exact some_ne_none _

theorem node_sound {node : TaskNode} (hNode : m.node {} id = some node) :
    ∃ record, s.tasks.lookup id = some record ∧ node = record.toTaskNode := by
  rw [Memory.node, or_eq_some_iff] at hNode
  rcases hNode with hNamed | ⟨_, hSettled⟩
  · obtain ⟨record, hRecord, rfl⟩ := map_eq_some_iff.mp hNamed
    exact ⟨record, (h.live_iff.mp hRecord).1, rfl⟩
  · obtain ⟨record, hRecord, _, hSame⟩ := h.settled hSettled
    exact ⟨record, hRecord, hSame⟩

theorem parent_sound {node above : Node} (hParent : m.parent {} node = some above) : s.parent node = some above := by
  cases node with
  | conversation id =>
    obtain ⟨owner, hEdge, rfl⟩ := parent_conversation.mp hParent
    rw [Store.parent, h.edges hEdge]
    rfl
  | task id =>
    obtain ⟨node, hNode, rfl⟩ := parent_task.mp hParent
    obtain ⟨record, hRecord, rfl⟩ := h.node_sound hNode
    rw [Store.parent, hRecord]
    rfl

theorem parent_complete {node above : Node} (hKnows : m.Knows node) (hParent : s.parent node = some above) :
    m.parent {} node = some above := by
  cases node with
  | conversation id =>
    obtain ⟨owner, hOwner⟩ := ne_none_iff_exists'.mp hKnows
    rw [Store.parent, h.edges hOwner] at hParent
    rw [parent, edge, hOwner]
    exact hParent
  | task id =>
    obtain ⟨node, hNode⟩ := ne_none_iff_exists'.mp hKnows
    obtain ⟨record, hRecord, rfl⟩ := h.node_sound hNode
    rw [Store.parent, hRecord] at hParent
    rw [parent, hNode]
    exact hParent

end Mirrors

/-! Under the candidates of a commit. -/

/-- The candidates of a commit that has created records so far, over the records
it found committed. -/
structure Staged (overlay : Overlay) (s next : Store) : Prop where
  sound : next.Sound
  tasks : ∀ id, next.tasks.lookup id = (overlay.tasks.lookup id).or (s.tasks.lookup id)
  conversations : ∀ id, next.conversations.lookup id = (overlay.edges.lookup id).or (s.conversations.lookup id)
  freshTasks : ∀ {id record}, overlay.tasks.lookup id = some record → s.tasks.lookup id = none
  freshConversations : ∀ {id owner}, overlay.edges.lookup id = some owner → s.conversations.lookup id = none
  distinct : (overlay.tasks.map Prod.fst).Nodup
  waits : ∀ {id record}, overlay.tasks.lookup id = some record → Store.waitsOf record = []

variable {overlay : Overlay} {next : Store}

namespace Staged

variable (hStaged : Staged overlay s next)

include hStaged

variable {id : Nat}

theorem old_task (hOld : s.tasks.lookup id ≠ none) : next.tasks.lookup id = s.tasks.lookup id ∧
    overlay.tasks.lookup id = none := by
  have hNone : overlay.tasks.lookup id = none := by
    by_contra hSome
    obtain ⟨record, hRecord⟩ := ne_none_iff_exists'.mp hSome
    exact hOld (hStaged.freshTasks hRecord)
  rw [hStaged.tasks, hNone]
  exact ⟨rfl, rfl⟩

theorem old_conversation (hOld : s.conversations.lookup id ≠ none) :
    next.conversations.lookup id = s.conversations.lookup id ∧ overlay.edges.lookup id = none := by
  have hNone : overlay.edges.lookup id = none := by
    by_contra hSome
    obtain ⟨owner, hOwner⟩ := ne_none_iff_exists'.mp hSome
    exact hOld (hStaged.freshConversations hOwner)
  rw [hStaged.conversations, hNone]
  exact ⟨rfl, rfl⟩

theorem old_parent {node : Node} (hOld : s.Has node) : next.parent node = s.parent node := by
  cases node with
  | conversation id => rw [Store.parent, Store.parent, (hStaged.old_conversation hOld).1]
  | task id => rw [Store.parent, Store.parent, (hStaged.old_task hOld).1]

theorem has_of_new_parent {node above : Node} (hParent : next.parent node = some above) (hOld : s.Has node)
    (hSound : s.Sound) : s.Has above := by
  rw [hStaged.old_parent hOld] at hParent
  exact hSound.parents hParent

theorem old_of_waitsFor (hSound : s.Sound) {first second : Nat} (hWaits : next.WaitsFor first second)
    (hOld : s.Has (.task second)) : s.Has (.task first) := by
  rcases hWaits.2 with ⟨record, hRecord, hOn⟩ | hOwns
  · rw [hStaged.tasks, or_eq_some_iff] at hRecord
    rcases hRecord with hNew | ⟨_, hTask⟩
    · rw [hStaged.waits hNew] at hOn
      cases hOn
    · rw [Store.Has, hTask]
      exact some_ne_none _
  · have hUp : ∀ {node}, TransGen next.Enters node (.task second) → s.Has node := by
      intro node hPath
      induction hPath using TransGen.head_induction_on with
      | single hEnters => exact hStaged.has_of_new_parent hEnters.1 hOld hSound
      | head hEnters _ ih => exact hStaged.has_of_new_parent hEnters.1 ih hSound
    exact hUp hOwns

theorem old_of_path (hSound : s.Sound) {first last : Nat} (hPath : ReflTransGen next.WaitsFor first last)
    (hOld : s.Has (.task last)) : s.Has (.task first) := by
  induction hPath using ReflTransGen.head_induction_on with
  | refl => exact hOld
  | head hStep _ ih => exact hStaged.old_of_waitsFor hSound hStep ih

theorem live_of_old {record : TaskRecord} (hOld : s.Has (.task id)) : next.Live id record ↔ s.Live id record := by
  rw [Store.Live, Store.Live, (hStaged.old_task hOld).1]

end Staged

/-- Memory under the candidates of a commit. -/
structure Covers (m : Memory) (overlay : Overlay) (s next : Store) : Prop where
  mirrors : m.Mirrors s
  staged : Staged overlay s next

namespace Covers

variable (h : Covers m overlay s next)

include h

variable {id owner : Nat} {node child parent : Node} {links : Links} {done : List Nat} {record : TaskRecord}

theorem record_iff :
    (m.record overlay id).filter (fun record => !record.isTerminal) = some record ↔ next.Live id record := by
  have hTasks := h.staged.tasks id
  rw [Store.Live, hTasks, Memory.record]
  cases hOverlay : overlay.tasks.lookup id with
  | some staged =>
    rw [some_or, some_or, filter_eq_some_iff]
    simp
  | none =>
    rw [none_or, none_or, h.mirrors.live, filter_filter]
    simp [filter_eq_some_iff]

theorem node_sound {node : TaskNode} (hNode : m.node overlay id = some node) :
    ∃ record, next.tasks.lookup id = some record ∧ node = record.toTaskNode := by
  cases hOverlay : overlay.tasks.lookup id with
  | some staged =>
    rw [Memory.node, Memory.record, hOverlay] at hNode
    refine ⟨staged, by rw [h.staged.tasks, hOverlay]; rfl, ?_⟩
    exact (some.inj hNode).symm
  | none =>
    have hOld : m.node {} id = some node := by
      rw [Memory.node, Memory.record, hOverlay] at hNode
      exact hNode
    obtain ⟨record, hRecord, hSame⟩ := h.mirrors.node_sound hOld
    exact ⟨record, by rw [h.staged.tasks, hOverlay]; exact hRecord, hSame⟩

theorem parent_sound {above : Node} (hParent : m.parent overlay node = some above) : next.parent node = some above := by
  cases node with
  | conversation id =>
    obtain ⟨owner, hEdge, rfl⟩ := parent_conversation.mp hParent
    have hOwner : next.conversations.lookup id = some (some owner) := by
      rw [h.staged.conversations, or_eq_some_iff]
      rw [edge, or_eq_some_iff] at hEdge
      exact hEdge.imp_right (And.imp_right h.mirrors.edges)
    rw [Store.parent, hOwner]
    rfl
  | task id =>
    obtain ⟨node, hNode, rfl⟩ := parent_task.mp hParent
    obtain ⟨record, hRecord, rfl⟩ := h.node_sound hNode
    rw [Store.parent, hRecord]
    rfl

/-! The links to new tasks. -/

/-- Links go to children that `#below` does not list. -/
def LinksSound (m : Memory) (next : Store) (links : Links) : Prop :=
  ∀ parent, (listed links parent).Nodup ∧
    ∀ child ∈ listed links parent, next.parent child = some parent ∧ child ∉ listed m.below parent

omit h in
theorem mem_listed_addTo {key value : Node} :
    child ∈ listed (addTo links key value) parent ↔ child ∈ listed links parent ∨ parent = key ∧ child = value := by
  unfold addTo
  split_ifs with hIn
  · constructor
    · exact .inl
    · rintro (hOld | ⟨rfl, rfl⟩)
      · exact hOld
      · exact hIn
  · by_cases hSame : parent = key
    · subst hSame
      rw [listed, lookup_set_self, getD_some, List.mem_append, List.mem_singleton]
      simp
    · rw [listed, lookup_set_of_ne _ _ hSame]
      simp [listed, hSame]

omit h in
theorem LinksSound.addTo (hLinks : LinksSound m next links)
    (hParent : next.parent child = some parent) (hBelow : child ∉ listed m.below parent) :
    LinksSound m next (addTo links parent child) := by
  intro other
  constructor
  · by_cases hIn : child ∈ listed links parent
    · rw [Scheduler.addTo, if_pos hIn]
      exact (hLinks other).1
    · rw [Scheduler.addTo, if_neg hIn]
      by_cases hSame : other = parent
      · subst hSame
        rw [listed, lookup_set_self, getD_some, List.nodup_append]
        refine ⟨(hLinks other).1, List.nodup_singleton child, ?_⟩
        rintro first hFirst second hSecond rfl
        exact hIn (List.mem_singleton.mp hSecond ▸ hFirst)
      · rw [listed, lookup_set_of_ne _ _ hSame]
        exact (hLinks other).1
  · intro node hNode
    rcases mem_listed_addTo.mp hNode with hOld | ⟨rfl, rfl⟩
    · exact (hLinks other).2 node hOld
    · exact ⟨hParent, hBelow⟩

theorem linkAbove_sound {above : Node} (hFresh : ∀ id, node = .task id → m.live.lookup id = none ∧ overlay.tasks.lookup id = none)
    (hAbove : m.linkAbove overlay node = some above) : next.parent node = some above := by
  apply h.parent_sound
  cases node with
  | conversation id => exact hAbove
  | task id =>
    obtain ⟨hLive, hOverlay⟩ := hFresh id rfl
    rw [parent, Memory.node, Memory.record, hLive, hOverlay]
    exact hAbove

theorem linkUp_sound {fuel : Nat} (hLinks : LinksSound m next links) {above : Option Node}
    (hAbove : ∀ parent, above = some parent → next.parent child = some parent ∧ child ∉ listed m.below parent) :
    LinksSound m next (m.linkUp overlay fuel links child above) := by
  induction fuel generalizing links child above with
  | zero => exact hLinks
  | succ fuel ih =>
    cases above with
    | none => exact hLinks
    | some parent =>
      obtain ⟨hParent, hBelow⟩ := hAbove parent rfl
      have hAdded := hLinks.addTo hParent hBelow
      simp only [linkUp]
      split_ifs with hLinked hStop
      · exact hLinks
      · exact hAdded
      · have hFresh : ∀ id, parent = .task id → m.live.lookup id = none ∧ overlay.tasks.lookup id = none := by
          rintro id rfl
          simp only [Bool.or_eq_true, not_or, Bool.not_eq_true, isSome_eq_false_iff,
            isNone_iff_eq_none] at hStop
          exact hStop
        cases hNext : m.linkAbove overlay parent with
        | none => exact hAdded
        | some top =>
          dsimp only
          split_ifs with hListed
          · exact hAdded
          · apply ih hAdded
            intro found hFound
            obtain rfl := some.inj hFound
            exact ⟨h.linkAbove_sound hFresh hNext, hListed⟩

theorem links_fold_sound (entries : List (Nat × TaskRecord)) (links : Links)
    (hEntries : ∀ entry ∈ entries, overlay.tasks.lookup entry.1 = some entry.2) (hLinks : LinksSound m next links) :
    LinksSound m next (entries.foldl (fun links (id, record) =>
      if (m.live.lookup id).isSome || (m.settled.lookup id).isSome then links
      else m.linkUp overlay (m.settled.length + m.edges.length + overlay.edges.length + 1) links (.task id)
        (some (parentNode record.toTaskNode))) links) := by
  induction entries generalizing links with
  | nil => exact hLinks
  | cons entry rest ih =>
    apply ih _ fun other hOther => hEntries other (List.mem_cons_of_mem _ hOther)
    dsimp only
    split_ifs with hKnown
    · exact hLinks
    · apply h.linkUp_sound hLinks
      intro parent hParent
      obtain rfl := some.inj hParent
      have hRecord := hEntries entry List.mem_cons_self
      refine ⟨?_, ?_⟩
      · rw [Store.parent, h.staged.tasks, hRecord]
        rfl
      · intro hListed
        rw [← children_empty] at hListed
        have hUp := h.mirrors.parent_sound (h.mirrors.indexed.parent_of_child hListed)
        rw [Store.parent, h.staged.freshTasks hRecord] at hUp
        cases hUp

theorem links_sound : LinksSound m next (m.links overlay) := by
  have hStart : LinksSound m next [] := fun parent => ⟨List.nodup_nil, by simp [listed]⟩
  apply h.links_fold_sound overlay.tasks [] _ hStart
  intro entry hEntry
  exact (lookup_eq_some_iff h.staged.distinct _ _).mpr hEntry

theorem child_sound (hChild : child ∈ m.children overlay parent) : next.parent child = some parent := by
  rcases List.mem_append.mp hChild with hBelow | hLink
  · have hUp := h.mirrors.parent_sound (h.mirrors.indexed.parent_of_child ((children_empty m parent).symm ▸ hBelow))
    rw [h.staged.old_parent (Store.has_of_parent hUp), hUp]
  · exact ((h.links_sound parent).2 child hLink).1

theorem forest : Walk.Forest (m.children overlay) (m.listedNodes overlay) := by
  apply Walk.Forest.of_parent
  · exact mem_listedNodes
  · intro parent
    rw [children, List.nodup_append]
    refine ⟨?_, (h.links_sound parent).1, ?_⟩
    · rw [← children_empty]
      exact h.mirrors.indexed.distinct parent
    · rintro child hBelow other hLink rfl
      exact ((h.links_sound parent).2 child hLink).2 hBelow
  · intro first second child hFirst hSecond
    exact some.inj ((h.child_sound hFirst).symm.trans (h.child_sound hSecond))
  · intro node hCycle
    have hUp : TransGen (Function.swap (Walk.Follows (m.children overlay))) node node := transGen_swap.mpr hCycle
    exact h.staged.sound.tree node (TransGen.mono (fun child parent hChild => h.child_sound hChild) _ _ hUp)

theorem background_sound {node : TaskNode} (hNode : m.node overlay id = some node) :
    next.isBackground (.task id) = node.background := by
  obtain ⟨record, hRecord, rfl⟩ := h.node_sound hNode
  rw [Store.isBackground, hRecord]
  rfl

theorem reaches_sound {start at' : Node} {enter : Nat → Bool}
    (hReaches : Walk.Reaches (m.entered overlay false enter) start at') : ReflTransGen next.Enters start at' := by
  apply ReflTransGen.mono _ _ _ hReaches
  intro parent child hEntered
  obtain ⟨hChild, hEnters⟩ := List.mem_filter.mp hEntered
  refine ⟨h.child_sound hChild, ?_⟩
  cases child with
  | conversation id => rfl
  | task id =>
    rw [enters] at hEnters
    cases hNode : m.node overlay id with
    | none => simp [hNode] at hEnters
    | some node =>
      rw [h.background_sound hNode]
      simp only [hNode, Bool.false_or, Bool.and_eq_true, Bool.not_eq_true'] at hEnters
      exact hEnters.1

theorem owned_sound {task : Nat} (hTask : task ∈ m.ownedLive overlay owner done) :
    (∃ record, next.Live task record) ∧ next.Owns owner task := by
  obtain ⟨step, hStep, hOwned⟩ := List.mem_filterMap.mp hTask
  split_ifs at hOwned with hForeground
  obtain rfl := some.inj hOwned
  obtain ⟨hSome, hOrdinary⟩ := Bool.and_eq_true_iff.mp hForeground
  obtain ⟨record, hLive⟩ := isSome_iff_exists.mp hSome
  obtain ⟨at', hReaches, child, hChild, hFound⟩ := (mem_walkDown_of_forest h.forest).mp hStep
  cases child with
  | conversation id => cases hFound
  | task id =>
    obtain ⟨node, hNode, rfl⟩ := map_eq_some_iff.mp hFound
    have hEnters : next.Enters at' (.task id) := by
      refine ⟨h.child_sound hChild, ?_⟩
      rw [h.background_sound hNode]
      simpa using hOrdinary
    exact ⟨⟨record, h.record_iff.mp hLive⟩, TransGen.tail' (h.reaches_sound hReaches) hEnters⟩

/-! Old work below a task is found, or lies below what the walk leaves out. -/

omit h in
theorem needed_of_listed (hChild : child ∈ m.children {} node) : m.Needed {} node := .inr ⟨child, hChild⟩

theorem node_of_known {node : TaskNode} (hNode : m.node {} id = some node) : m.node overlay id = some node := by
  obtain ⟨record, hRecord, _⟩ := h.mirrors.node_sound hNode
  have hNone := (h.staged.old_task (by rw [hRecord]; exact some_ne_none _)).2
  rw [Memory.node, Memory.record, hNone]
  exact hNode

theorem enters_of_known (hKnows : m.Knows (.task id)) (hOrdinary : next.isBackground (.task id) = false) (hDone : id ∉ done) :
    m.enters overlay false (fun id => id ∉ done) (.task id) = true := by
  obtain ⟨node, hNode⟩ := ne_none_iff_exists'.mp hKnows
  have hOverlay := h.node_of_known hNode
  rw [h.background_sound hOverlay] at hOrdinary
  simp only [enters, hOverlay, hOrdinary, Bool.false_or, Bool.not_false, Bool.true_and, decide_eq_true_eq]
  exact hDone

theorem walk_complete (hBelow : TransGen next.Enters (.task owner) node) (hKnows : m.Knows node) (hNeeded : m.Needed {} node) :
    (∃ at', Walk.Reaches (m.entered overlay false fun id => id ∉ done) (.task owner) at' ∧ node ∈ m.children overlay at') ∨
      ∃ task ∈ done, next.Owns owner task ∧ TransGen next.Enters (.task task) node := by
  have hListed : ∀ {above child}, next.Enters above child → m.Knows child → m.Needed {} child →
      child ∈ m.children {} above ∧ child ∈ m.children overlay above ∧ m.Knows above := by
    intro above child hEnters hKnown hNeed
    have hHas : s.Has child := by
      cases child with
      | task id =>
        obtain ⟨known, hNode⟩ := ne_none_iff_exists'.mp hKnown
        obtain ⟨record, hRecord, _⟩ := h.mirrors.node_sound hNode
        rw [Store.Has, hRecord]
        exact some_ne_none _
      | conversation id =>
        obtain ⟨edge, hEdge⟩ := ne_none_iff_exists'.mp hKnown
        rw [Store.Has, h.mirrors.edges hEdge]
        exact some_ne_none _
    have hOld : s.parent child = some above := by
      rw [← h.staged.old_parent hHas]
      exact hEnters.1
    have hChild := h.mirrors.indexed.listed_of_needed (h.mirrors.parent_complete hKnown hOld) hNeed
    refine ⟨hChild, ?_, h.mirrors.chains hKnown hOld⟩
    rw [children_empty] at hChild
    exact List.mem_append_left _ hChild
  induction hBelow with
  | single hEnters => exact .inl ⟨_, .refl, (hListed hEnters hKnows hNeeded).2.1⟩
  | @tail middle last hUpper hEnters ih =>
    obtain ⟨hOldChild, hChild, hMiddle⟩ := hListed hEnters hKnows hNeeded
    rcases ih hMiddle (needed_of_listed hOldChild) with ⟨at', hReaches, hIn⟩ | ⟨task, hDone, hOwns, hPath⟩
    · cases middle with
      | conversation id => exact .inl ⟨_, hReaches.tail (List.mem_filter.mpr ⟨hIn, rfl⟩), hChild⟩
      | task id =>
        have hOrdinary : next.isBackground (.task id) = false := by
          obtain ⟨_, _, hLast⟩ := TransGen.tail'_iff.mp hUpper
          exact hLast.2
        by_cases hDone : id ∈ done
        · exact .inr ⟨id, hDone, hUpper, .single hEnters⟩
        · have hEntered := h.enters_of_known hMiddle hOrdinary hDone
          exact .inl ⟨_, hReaches.tail (List.mem_filter.mpr ⟨hIn, hEntered⟩), hChild⟩
    · exact .inr ⟨task, hDone, hOwns, hPath.tail hEnters⟩

theorem owned_complete {task : Nat} (done : List Nat) (hLive : s.Live task record) (hOwns : next.Owns owner task) :
    task ∈ m.ownedLive overlay owner done ∨ ∃ between ∈ done, next.Owns owner between ∧ next.Owns between task := by
  have hMemory := h.mirrors.live_iff.mpr hLive
  have hKnows := h.mirrors.knows_of_live hLive
  have hNeeded : m.Needed {} (.task task) := .inl ⟨task, record, rfl, hMemory, hLive.2⟩
  rcases h.walk_complete hOwns hKnows hNeeded with ⟨at', hReaches, hChild⟩ | hBetween
  · left
    have hNode : m.node overlay task = some record.toTaskNode := h.node_of_known (node_of_record hMemory)
    have hOrdinary : record.background = false := by
      obtain ⟨_, _, hLast⟩ := TransGen.tail'_iff.mp hOwns
      rw [← h.background_sound hNode]
      exact hLast.2
    have hNow : next.Live task record := by
      refine ⟨?_, hLive.2⟩
      rw [(h.staged.old_task (by rw [hLive.1]; exact some_ne_none _)).1]
      exact hLive.1
    have hFound : m.found overlay (.task task) = some { id := task, node := record.toTaskNode, live := some record } := by
      rw [found, hNode, map_some, h.record_iff.mpr hNow]
    apply List.mem_filterMap.mpr
    refine ⟨_, (mem_walkDown_of_forest h.forest).mpr ⟨at', hReaches, _, hChild, hFound⟩, ?_⟩
    simp [hOrdinary]
  · exact .inr hBetween

end Covers
end Memory
end OctoberHarness.Scheduler
