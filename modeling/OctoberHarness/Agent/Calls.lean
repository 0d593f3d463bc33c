import OctoberHarness.Agent.Loop

/-! What the loop does to run one tool call. -/
namespace OctoberHarness.Agent

open Effects
open Effects.Program (perform loop)

/-- What the run of a call may use: its tool, the hooks about it, and the abort signal. -/
def Works (toolCall : ToolCall) : {α : Type} → Op α → Prop
  | _, .emit (.toolExecutionUpdate own _) => own = toolCall
  | _, .aborted => True
  | _, .prepareArguments _ _ => True
  | _, .validateToolArguments _ _ => True
  | _, .beforeToolCall _ _ _ _ => True
  | _, .execute _ own _ => own = toolCall
  | _, .progress _ => True
  | _, .afterToolCall _ _ _ _ _ _ => True
  | _, _ => False

variable (context : AgentContext) (message : AssistantMessage)

theorem works_prepareToolCall (toolCall : ToolCall) :
    (prepareToolCall context message toolCall).Uses (Works toolCall) := by
  have hCheck : ∀ tool args, (checkToolCall context message toolCall tool args).Uses (Works toolCall) := by
    intro tool args
    apply Program.Uses.bind (.perform trivial)
    intro before
    apply Program.Uses.bind (.perform trivial)
    intro aborted
    split_ifs
    · trivial
    · split
      · trivial
      · apply Program.Uses.bind (.perform trivial)
        intro aborted
        split_ifs <;> trivial
  rw [prepareToolCall]
  split
  · trivial
  · exact .tryCatch (.bind (.perform trivial) fun _ => .bind (.perform trivial) fun _ => hCheck _ _) fun _ => trivial

theorem works_executePreparedToolCall (tool : AgentTool) (toolCall : ToolCall) (args : StrictJson) :
    (executePreparedToolCall tool toolCall args).Uses (Works toolCall) := by
  have hCaught : ∀ {α : Type} (o : Op α), Works toolCall o →
      (tryCatch (Except.ok <$> perform o) fun error => pure (.error error) : Prog (Except JsString α)).Uses (Works toolCall) :=
    fun _ hWorks => .tryCatch (.handle (.perform hWorks) (fun _ => trivial) fun _ => trivial) fun _ => trivial
  have hPass : ∀ failed, (executePass toolCall failed).Uses (Works toolCall) := by
    intro failed
    apply Program.Uses.bind (hCaught (.progress toolCall) trivial)
    intro progress
    match progress with
    | .ok (.update partialResult) =>
      exact .tryCatch (.bind (.perform rfl) fun _ => trivial) fun _ => trivial
    | .ok (.settled result) => trivial
    | .error error => trivial
  apply Program.Uses.bind (hCaught (.execute tool toolCall args) rfl)
  intro started
  cases started with
  | error error => trivial
  | ok _ =>
    apply Program.Uses.bind (.loop hPass none)
    rintro ⟨failed, outcome⟩
    cases failed <;> cases outcome <;> trivial

theorem works_runPrepared (toolCall : ToolCall) (tool : AgentTool)
    (args : StrictJson) : (runPrepared context message toolCall tool args).Uses (Works toolCall) := by
  apply Program.Uses.bind (works_executePreparedToolCall tool toolCall args)
  rintro ⟨result, isError⟩
  apply Program.Uses.tryCatch
  · apply Program.Uses.bind (.perform trivial)
    intro after
    cases after <;> trivial
  · exact fun _ => trivial

theorem returns_runPrepared (toolCall : ToolCall) (tool : AgentTool)
    (args : StrictJson) : (runPrepared context message toolCall tool args).Returns fun finalized => finalized.toolCall = toolCall := by
  apply Program.Returns.bind
  rintro ⟨result, isError⟩
  apply Program.Returns.tryCatch
  · apply Program.Returns.bind
    intro after
    cases after <;> rfl
  · exact fun _ => rfl

section

variable {W : Type} {env : Environment JsString Op W} {Idle : W → Prop} {toolCall : ToolCall} {w : W} {E : JsString → W → Prop}
  (hKeeps : ∀ {γ : Type} (o : Op γ) w answer v, Works toolCall o → Idle w → env o w answer v → Idle v)
  (hThrow : ∀ e v, Idle v → E e v)

include hKeeps hThrow

theorem safe_runPrepared (context : AgentContext) (message : AssistantMessage) (tool : AgentTool) (args : StrictJson) (h : Idle w) :
    Safe env Idle (fun finalized v => finalized.toolCall = toolCall ∧ Idle v) E
      (runPrepared context message toolCall tool args) w := by
  apply Safe.bind
  apply (Safe.of_uses (works_executePreparedToolCall tool toolCall args) h hKeeps).mono (fun _ hHere => hHere)
  · rintro ⟨result, isError⟩ v hHere -
    apply Safe.tryCatch
    apply Safe.bind
    apply Safe.perform hHere
    intro answer u hAnswer
    have hAfter : Idle u := hKeeps (.afterToolCall message toolCall args result isError context) _ _ _ trivial hHere hAnswer
    refine ⟨hAfter, fun after _ => ?_, fun e _ => .ret hAfter ⟨rfl, hAfter⟩⟩
    cases after with
    | none => exact .ret hAfter ⟨rfl, hAfter⟩
    | some after => exact .ret hAfter ⟨rfl, hAfter⟩
  · exact fun e v hHere _ => hThrow e v hHere

theorem safe_runSequential (context : AgentContext) (message : AssistantMessage) (h : Idle w) :
    Safe env Idle (fun finalized v => finalized.toolCall = toolCall ∧ Idle v) E
      (runSequential context message toolCall) w := by
  apply Safe.bind
  apply (Safe.of_uses (works_prepareToolCall context message toolCall) h hKeeps).mono (fun _ hHere => hHere)
  · intro preparation v hHere _
    cases preparation with
    | immediate result => exact .ret hHere ⟨rfl, hHere⟩
    | prepared tool args => exact safe_runPrepared hKeeps hThrow context message tool args hHere
  · exact fun e v hHere _ => hThrow e v hHere

end

end OctoberHarness.Agent
