import OctoberHarness.Library.Cycles
import OctoberHarness.Library.OrderedMap
import OctoberHarness.Scheduler.TaskRecords

/-! The committed records, what a commit creates and changes, and the wait-for
graph over them. -/
namespace OctoberHarness.Scheduler

open OrderedMap Relation Cycles Option

/-- The committed tasks, and the owner task of each committed conversation. -/
structure Store where
  tasks : List (Nat × TaskRecord) := []
  conversations : List (Nat × Option Nat) := []
deriving DecidableEq, Repr

/-- What a transaction creates: a conversation under a task or under nothing, a
task under a task or in a conversation. -/
inductive Creation where
  | conversation (id : Nat) (owner : Option Nat)
  | child (id owner : Nat) (background : Bool) (checkpoint : JsonValue)
  | task (id conversationId : Nat) (background : Bool) (checkpoint : JsonValue)
deriving DecidableEq, Repr

namespace Store

variable (s : Store)

def parent (node : Node) : Option Node :=
  match node with
  | .task id => (s.tasks.lookup id).map fun record => parentOf record.toTaskNode
  | .conversation id => (s.conversations.lookup id).join.map .task

def Has (node : Node) : Prop :=
  match node with
  | .task id => s.tasks.lookup id ≠ none
  | .conversation id => s.conversations.lookup id ≠ none

/-- A fresh id; the owner or the conversation exists; a child is not background
and lives in its owner's conversation. -/
def create (creation : Creation) : Option Store :=
  match creation with
  | .conversation id owner =>
    if s.conversations.lookup id = none ∧ (owner.all fun task => (s.tasks.lookup task).isSome) then
      some { s with conversations := s.conversations ++ [(id, owner)] }
    else none
  | .child id owner background checkpoint =>
    match s.tasks.lookup owner with
    | none => none
    | some above =>
      if s.tasks.lookup id = none ∧ background = false then
        some { s with tasks := s.tasks ++ [(id, {
          id, conversationId := above.conversationId, owner := some owner, background := background
          state := .pending checkpoint })] }
      else none
  | .task id conversationId background checkpoint =>
    if s.tasks.lookup id = none ∧ s.conversations.lookup conversationId ≠ none then
      some { s with tasks := s.tasks ++ [(id, { id, conversationId, background, state := .pending checkpoint })] }
    else none

def createAll (creations : List Creation) : Option Store := creations.foldlM create s

/-- A record is replaced. -/
def put (record : TaskRecord) : Store := { s with tasks := set s.tasks record.id record }

def Live (id : Nat) (record : TaskRecord) : Prop := s.tasks.lookup id = some record ∧ record.isTerminal = false

def isBackground (node : Node) : Bool :=
  match node with
  | .task id => ((s.tasks.lookup id).map fun record => record.background).getD false
  | .conversation _ => false

/-- One step of ordinary traversal down. -/
def Enters (above node : Node) : Prop := s.parent node = some above ∧ s.isBackground node = false

/-- Ordinary owned work of a task. -/
def Owns (owner task : Nat) : Prop := TransGen s.Enters (.task owner) (.task task)

/-- The tasks a record's wait holds it for: none once it is abort-marked. -/
def waitsOf (record : TaskRecord) : List Nat :=
  match record.state with
  | .waiting _ on _ => if record.abortRequested then [] else on
  | _ => []

/-- The first task cannot settle before the second. -/
def WaitsFor (first second : Nat) : Prop :=
  (∃ record, s.Live second record) ∧
    ((∃ record, s.tasks.lookup first = some record ∧ second ∈ waitsOf record) ∨ s.Owns first second)

/-- What holds of every committed state. -/
structure Sound : Prop where
  named : ∀ {id record}, s.tasks.lookup id = some record → record.id = id
  parents : ∀ {node above}, s.parent node = some above → s.Has above
  tree : Acyclic fun child above => s.parent child = some above
  children : ∀ {id record}, s.tasks.lookup id = some record → record.owner ≠ none → record.background = false
  waits : ∀ {id record}, s.tasks.lookup id = some record → ∀ on ∈ waitsOf record, s.tasks.lookup on ≠ none
  acyclic : Acyclic s.WaitsFor

variable {s} {next : Store}

theorem has_of_parent {node above : Node} (hParent : s.parent node = some above) : s.Has node := by
  cases node with
  | task id =>
    obtain ⟨record, hRecord, _⟩ := Option.map_eq_some_iff.mp hParent
    rw [Has, hRecord]
    exact some_ne_none _
  | conversation id =>
    obtain ⟨owner, hOwner, _⟩ := Option.map_eq_some_iff.mp hParent
    rw [Has, Option.join_eq_some_iff.mp hOwner]
    exact some_ne_none _

/-- A store with one more node, which hangs from an old one. -/
structure Leaf (s next : Store) (node : Node) : Prop where
  fresh : ¬ s.Has node
  has : ∀ other, next.Has other ↔ s.Has other ∨ other = node
  parent : ∀ other, other ≠ node → next.parent other = s.parent other
  above : ∀ above, next.parent node = some above → s.Has above
  background : ∀ other, other ≠ node → next.isBackground other = s.isBackground other
  tasks : ∀ id, .task id ≠ node → next.tasks.lookup id = s.tasks.lookup id

namespace Leaf

variable {node : Node} (h : Leaf s next node)

include h

theorem has_above (hSound : s.Sound) {other above : Node} (hParent : next.parent other = some above) : s.Has above := by
  by_cases hSame : other = node
  · subst hSame
    exact h.above above hParent
  · rw [h.parent other hSame] at hParent
    exact hSound.parents hParent

theorem no_child (hSound : s.Sound) (other : Node) : next.parent other ≠ some node :=
  fun hParent => h.fresh (h.has_above hSound hParent)

theorem enters_old {above other : Node} (hEnters : next.Enters above other) (hNe : other ≠ node) : s.Enters above other := by
  refine ⟨?_, ?_⟩
  · rw [← h.parent other hNe]
    exact hEnters.1
  · rw [← h.background other hNe]
    exact hEnters.2

theorem owns_old (hSound : s.Sound) {owner task : Nat} (hOwns : next.Owns owner task) (hNe : .task task ≠ node) :
    s.Owns owner task := by
  apply @transGen_of_sink _ _ next.Enters _ _ _ _ _ hOwns hNe
  · exact fun _ _ hEnters hOther => h.enters_old hEnters hOther
  · exact fun other hEnters => h.no_child hSound other hEnters.1

theorem not_owns (hSound : s.Sound) {owner task : Nat} (hOwner : .task owner = node) : ¬ next.Owns owner task := by
  intro hOwns
  obtain ⟨child, hEnters, _⟩ := TransGen.head'_iff.mp hOwns
  exact h.no_child hSound child (hOwner ▸ hEnters.1)

theorem tree (hSound : s.Sound) : Acyclic fun child above => next.parent child = some above := by
  have hDown : Acyclic fun above child => next.parent child = some above := by
    have hOld : Acyclic fun above child => s.parent child = some above := by
      intro x hCycle
      exact hSound.tree x (transGen_swap.mpr hCycle)
    apply @Acyclic.of_sink _ _ _ node _ _ hOld
    · intro above child hParent hNe
      rwa [← h.parent child hNe]
    · exact fun child hParent => h.no_child hSound child hParent
  intro x hCycle
  exact hDown x (transGen_swap.mpr hCycle)

/-- A leaf that waits for nothing closes no cycle. -/
theorem sound (hSound : s.Sound) (hNamed : ∀ id record, .task id = node → next.tasks.lookup id = some record → record.id = id)
    (hChild : ∀ id record, .task id = node → next.tasks.lookup id = some record → record.owner ≠ none → record.background = false)
    (hPending : ∀ id record, .task id = node → next.tasks.lookup id = some record → waitsOf record = []) : next.Sound where
  named := by
    intro id record hRecord
    by_cases hSame : .task id = node
    · exact hNamed id record hSame hRecord
    · rw [h.tasks id hSame] at hRecord
      exact hSound.named hRecord
  parents := fun hParent => (h.has _).mpr (.inl (h.has_above hSound hParent))
  tree := h.tree hSound
  children := by
    intro id record hRecord
    by_cases hSame : .task id = node
    · exact hChild id record hSame hRecord
    · rw [h.tasks id hSame] at hRecord
      exact hSound.children hRecord
  waits := by
    intro id record hRecord on hOn
    by_cases hSame : .task id = node
    · rw [hPending id record hSame hRecord] at hOn
      cases hOn
    · rw [h.tasks id hSame] at hRecord
      have hHas : s.Has (.task on) := hSound.waits hRecord on hOn
      exact (h.has (.task on)).mpr (.inl hHas)
  acyclic := by
    have hWaits : ∀ first second, next.WaitsFor first second → .task second ≠ node → s.WaitsFor first second := by
      rintro first second ⟨⟨live, hLive, hTerminal⟩, hWhy⟩ hNe
      rw [h.tasks second hNe] at hLive
      refine ⟨⟨live, hLive, hTerminal⟩, ?_⟩
      rcases hWhy with ⟨record, hRecord, hOn⟩ | hOwns
      · by_cases hSame : .task first = node
        · rw [hPending first record hSame hRecord] at hOn
          cases hOn
        · rw [h.tasks first hSame] at hRecord
          exact .inl ⟨record, hRecord, hOn⟩
      · exact .inr (h.owns_old hSound hOwns hNe)
    have hSink : ∀ first second, .task first = node → ¬ next.WaitsFor first second := by
      rintro first second hSame ⟨_, ⟨record, hRecord, hOn⟩ | hOwns⟩
      · rw [hPending first record hSame hRecord] at hOn
        cases hOn
      · exact h.not_owns hSound hSame hOwns
    cases node with
    | conversation id => exact hSound.acyclic.mono fun first second hEdge => hWaits first second hEdge (by simp)
    | task id =>
      apply @Acyclic.of_sink _ _ _ id _ _ hSound.acyclic
      · exact fun first second hEdge hNe => hWaits first second hEdge (by simpa using hNe)
      · exact fun second => hSink id second rfl

end Leaf

theorem lookup_append_fresh {α : Type} (entries : List (Nat × α)) (id : Nat) (value : α) (other : Nat)
    (hFresh : entries.lookup id = none) :
    (entries ++ [(id, value)]).lookup other = if other = id then some value else entries.lookup other := by
  rw [lookup_append, lookup_cons]
  split_ifs with hSame
  · rw [hSame, hFresh]
    rfl
  · simp

variable {id : Nat}

theorem leaf_task {record : TaskRecord} (hFresh : s.tasks.lookup id = none) (hAbove : s.Has (parentOf record.toTaskNode)) :
    Leaf s { s with tasks := s.tasks ++ [(id, record)] } (.task id) where
  fresh := by simp [Has, hFresh]
  has := by
    intro other
    cases other with
    | conversation other => simp [Has]
    | task other =>
      simp only [Has, lookup_append_fresh _ _ _ _ hFresh, Node.task.injEq]
      split_ifs with hSame <;> simp [hSame]
  parent := by
    intro other hNe
    cases other with
    | conversation other => rfl
    | task other =>
      have hOther : other ≠ id := by simpa using hNe
      simp only [parent, lookup_append_fresh _ _ _ _ hFresh, if_neg hOther]
  above := by
    intro above hParent
    simp only [parent, lookup_append_fresh _ _ _ _ hFresh, if_true, map_some, some.injEq] at hParent
    exact hParent ▸ hAbove
  background := by
    intro other hNe
    cases other with
    | conversation other => rfl
    | task other =>
      have hOther : other ≠ id := by simpa using hNe
      simp only [isBackground, lookup_append_fresh _ _ _ _ hFresh, if_neg hOther]
  tasks := by
    intro other hNe
    have hOther : other ≠ id := by simpa using hNe
    simp only [lookup_append_fresh _ _ _ _ hFresh, if_neg hOther]

theorem leaf_conversation {owner : Option Nat} (hFresh : s.conversations.lookup id = none)
    (hOwner : ∀ task, owner = some task → s.Has (.task task)) :
    Leaf s { s with conversations := s.conversations ++ [(id, owner)] } (.conversation id) where
  fresh := by simp [Has, hFresh]
  has := by
    intro other
    cases other with
    | task other => simp [Has]
    | conversation other =>
      simp only [Has, lookup_append_fresh _ _ _ _ hFresh, Node.conversation.injEq]
      split_ifs with hSame <;> simp [hSame]
  parent := by
    intro other hNe
    cases other with
    | task other => rfl
    | conversation other =>
      have hOther : other ≠ id := by simpa using hNe
      simp only [parent, lookup_append_fresh _ _ _ _ hFresh, if_neg hOther]
  above := by
    intro above hParent
    simp only [parent, lookup_append_fresh _ _ _ _ hFresh, if_true, join_some, map_eq_some_iff] at hParent
    obtain ⟨task, hTask, rfl⟩ := hParent
    exact hOwner task hTask
  background := by
    intro other _
    cases other <;> rfl
  tasks := fun _ _ => rfl

theorem Sound.create_task (h : s.Sound) {record : TaskRecord} (hFresh : s.tasks.lookup id = none)
    (hAbove : s.Has (parentOf record.toTaskNode)) (hName : record.id = id)
    (hChild : record.owner ≠ none → record.background = false) (hPending : waitsOf record = []) :
    Sound { s with tasks := s.tasks ++ [(id, record)] } := by
  have hOnly : ∀ (other : Nat) (found : TaskRecord), Node.task other = .task id →
      (s.tasks ++ [(id, record)]).lookup other = some found → found = record := by
    intro other found hSame hFound
    rw [lookup_append_fresh _ _ _ _ hFresh, if_pos (Node.task.inj hSame)] at hFound
    exact (some.inj hFound).symm
  apply (leaf_task hFresh hAbove).sound h
  · intro other found hSame hFound
    rw [hOnly other found hSame hFound, hName, Node.task.inj hSame]
  · intro other found hSame hFound
    rw [hOnly other found hSame hFound]
    exact hChild
  · intro other found hSame hFound
    rw [hOnly other found hSame hFound]
    exact hPending

theorem Sound.create (h : s.Sound) {creation : Creation} (hCreate : s.create creation = some next) : next.Sound := by
  cases creation with
  | conversation id owner =>
    simp only [Store.create] at hCreate
    split_ifs at hCreate with hValid
    obtain rfl := some.inj hCreate
    have hLeaf : Leaf s { s with conversations := s.conversations ++ [(id, owner)] } (.conversation id) := by
      apply leaf_conversation hValid.1
      rintro task rfl
      exact Option.isSome_iff_ne_none.mp hValid.2
    apply hLeaf.sound h <;> simp
  | child id owner background checkpoint =>
    unfold Store.create at hCreate
    cases hOwner : s.tasks.lookup owner with
    | none => simp [hOwner] at hCreate
    | some above =>
      simp only [hOwner] at hCreate
      split_ifs at hCreate with hValid
      obtain rfl := some.inj hCreate
      have hAbove : s.Has (.task owner) := by
        rw [Has, hOwner]
        exact some_ne_none _
      exact h.create_task hValid.1 hAbove rfl (fun _ => hValid.2) rfl
  | task id conversationId background checkpoint =>
    simp only [Store.create] at hCreate
    split_ifs at hCreate with hValid
    obtain rfl := some.inj hCreate
    exact h.create_task hValid.1 hValid.2 rfl (fun hOwner => (hOwner rfl).elim) rfl

theorem Sound.createAll (h : s.Sound) {creations : List Creation} (hCreate : s.createAll creations = some next) :
    next.Sound := by
  induction creations generalizing s with
  | nil =>
    obtain rfl := some.inj hCreate
    exact h
  | cons creation rest ih =>
    rw [Store.createAll, List.foldlM_cons] at hCreate
    obtain ⟨middle, hFirst, hRest⟩ := Option.bind_eq_some_iff.mp hCreate
    exact ih (h.create hFirst) hRest

/-! A record that changes. -/

theorem lookup_put (s : Store) (after : TaskRecord) (id : Nat) :
    (s.put after).tasks.lookup id = if id = after.id then some after else s.tasks.lookup id :=
  lookup_set _ _ _ _

section Put

variable {before after : TaskRecord} (hBefore : s.Live after.id before) (hNode : after.toTaskNode = before.toTaskNode)

include hBefore hNode


theorem parent_put (node : Node) : (s.put after).parent node = s.parent node := by
  cases node with
  | conversation id => rfl
  | task id =>
    rw [parent, lookup_put]
    split_ifs with hSame
    · rw [parent, hSame, hBefore.1, map_some, map_some, hNode]
    · rfl

theorem isBackground_put (node : Node) : (s.put after).isBackground node = s.isBackground node := by
  cases node with
  | conversation id => rfl
  | task id =>
    rw [isBackground, lookup_put]
    split_ifs with hSame
    · rw [isBackground, hSame, hBefore.1, map_some, map_some, hNode]
    · rfl

theorem enters_put : (s.put after).Enters = s.Enters := by
  funext above node
  rw [Enters, Enters, parent_put hBefore hNode, isBackground_put hBefore hNode]

omit hNode in
theorem has_put (node : Node) : (s.put after).Has node ↔ s.Has node := by
  cases node with
  | conversation id => rfl
  | task id =>
    rw [Has, Has, lookup_put]
    split_ifs with hSame
    · simp [hSame, hBefore.1]
    · rfl

omit hNode in
theorem live_of_put {id : Nat} (hLive : ∃ record, (s.put after).Live id record) : ∃ record, s.Live id record := by
  obtain ⟨record, hRecord, hTerminal⟩ := hLive
  rw [lookup_put] at hRecord
  split_ifs at hRecord with hSame
  · exact ⟨before, hSame ▸ hBefore⟩
  · exact ⟨record, hRecord, hTerminal⟩

theorem Sound.put (h : s.Sound) (hWaits : ∀ on ∈ waitsOf after, s.tasks.lookup on ≠ none)
    (hAcyclic : Acyclic (s.put after).WaitsFor) : (s.put after).Sound where
  named := by
    intro id record hRecord
    rw [lookup_put] at hRecord
    split_ifs at hRecord with hSame
    · rw [← some.inj hRecord, hSame]
    · exact h.named hRecord
  parents := by
    intro node above hParent
    rw [parent_put hBefore hNode] at hParent
    exact (has_put hBefore above).mpr (h.parents hParent)
  tree := by
    simp only [parent_put hBefore hNode]
    exact h.tree
  children := by
    intro id record hRecord hOwner
    rw [lookup_put] at hRecord
    split_ifs at hRecord with hSame
    · obtain rfl := some.inj hRecord
      rw [hNode] at hOwner ⊢
      exact h.children hBefore.1 hOwner
    · exact h.children hRecord hOwner
  waits := by
    intro id record hRecord on hOn
    rw [lookup_put] at hRecord
    have hOld : s.Has (.task on) := by
      split_ifs at hRecord with hSame
      · obtain rfl := some.inj hRecord
        exact hWaits on hOn
      · exact h.waits hRecord on hOn
    exact (has_put hBefore (.task on)).mpr hOld
  acyclic := hAcyclic

theorem Sound.put_of_less (h : s.Sound) (hLess : ∀ on ∈ waitsOf after, on ∈ waitsOf before) : (s.put after).Sound := by
  apply Sound.put hBefore hNode h
  · exact fun on hOn => h.waits hBefore.1 on (hLess on hOn)
  · apply h.acyclic.mono
    rintro first second ⟨hLive, hWhy⟩
    refine ⟨live_of_put hBefore hLive, ?_⟩
    rcases hWhy with ⟨record, hRecord, hOn⟩ | hOwns
    · rw [lookup_put] at hRecord
      split_ifs at hRecord with hSame
      · obtain rfl := some.inj hRecord
        exact .inl ⟨before, hSame ▸ hBefore.1, hLess second hOn⟩
      · exact .inl ⟨record, hRecord, hOn⟩
    · rw [Owns, enters_put hBefore hNode] at hOwns
      exact .inr hOwns

end Put
end Store
end OctoberHarness.Scheduler
