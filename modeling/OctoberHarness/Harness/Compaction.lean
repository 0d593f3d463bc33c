import OctoberHarness.Harness.Context
import Mathlib.Data.List.TakeWhile

/-! Where a compaction cuts a context: the entries from the cut on are kept, the ones before
it are summarized. -/
namespace OctoberHarness.Context

open List

/-- `estimateTextTokens`, at 3.5 characters a token. -/
def tokensOf (chars : Nat) : Nat :=
  (2 * chars + 6) / 7

def contentText (content : MessageContent) : JsString :=
  match content with
  | .string text => text
  | .blocks blocks =>
    (js "\n").intercalate (blocks.filterMap fun
      | .text text => some text
      | .image .. => none)

def getSystemMessageText (message : SystemMessage) : JsString :=
  (js "\n\n").intercalate
    ((contentText message.content :: message.sections.filterMap Prod.snd).filter fun part => 0 < part.length)

def estimateToolsTokens (tools : List JsonValue) : Nat :=
  if tools = [] then 0 else tokensOf (JsonValue.arr tools).stringify.length

def Content.chars : Content → Nat
  | .text content => content.length
  | .image .. => 4800

/-- `estimateTextAndImageContentChars`. -/
def MessageContent.chars : MessageContent → Nat
  | .string content => content.length
  | .blocks content => (content.map Content.chars).sum

def Block.chars : Block → Nat
  | .text content => content.length
  | .thinking content => content.length
  | .toolCall call => call.name.length + call.arguments.stringify.length

def estimateMessageTokens : Message → Nat
  | .system message =>
    tokensOf (getSystemMessageText message).length + estimateToolsTokens message.toolsAdded +
      estimateToolsTokens message.toolsRemoved
  | .user message => tokensOf message.content.chars
  | .toolResult message => tokensOf (message.content.map Content.chars).sum
  | .assistant message => tokensOf (message.content.map Block.chars).sum

/-- What `selectCut` reads of a context view: whether it has a head marker, and the messages
each entry contributes. -/
structure ContextView where
  head : Option Nat
  contributions : List (List Message)

def Message.assistant? : Message → Option AssistantMessage
  | .assistant message => some message
  | _ => none

/-- `findLast` of an assistant message. -/
def lastAssistant (messages : List Message) : Option AssistantMessage :=
  messages.reverse.findSome? Message.assistant?

/-- The ids of the calls that the messages from an entry on may answer. -/
def precedingCalls (contributions : List (List Message)) (index : Nat) : List JsString :=
  (((contributions.take index).reverse.findSome? lastAssistant).map fun assistant => assistant.calls.map ToolCall.id).getD []

/-- The last loop of `isCandidate`: no message before the next assistant message has a result
of the calls. `first` marks the first message of all. -/
def unanswered (calls : List JsString) : (first : Bool) → List Message → Bool
  | _, [] => true
  | first, message :: rest =>
    if message.isAssistant && !first then true
    else if message.toolResult?.any fun result => calls.contains result.toolCallId then false
    else unanswered calls false rest

def isCandidate (contributions : List (List Message)) (index : Nat) : Bool :=
  match (contributions[index]?.getD []).head? with
  | some (.assistant _) => true
  | some (.user _) =>
    (precedingCalls contributions index).isEmpty ||
      unanswered (precedingCalls contributions index) true (contributions.drop index).flatten
  | _ => false

/-- The loop of `selectCut` from the tail, over the indexes that are left. -/
def findCut (contributions : List (List Message)) (candidates : List Nat) (keepRecentTokens : Rat) :
    (kept : Nat) → List Nat → Option Nat
  | _, [] => none
  | kept, index :: rest =>
    let total := kept + ((contributions[index]?.getD []).map estimateMessageTokens).sum
    if (total : Rat) < keepRecentTokens then findCut contributions candidates keepRecentTokens total rest
    else (candidates.find? fun candidate => index ≤ candidate).or candidates.getLast?

namespace ContextView

/-- The first entry that is not the head marker. -/
def start (view : ContextView) : Nat :=
  if view.head.isNone then 0 else 1

/-- The indexes of the loops of `selectCut`. -/
def indexes (view : ContextView) : List Nat :=
  range' view.start (view.contributions.length - view.start)

def candidates (view : ContextView) : List Nat :=
  view.indexes.filter (isCandidate view.contributions)

end ContextView

def selectCut (view : ContextView) (keepRecentTokens : Rat) : Option Nat :=
  match findCut view.contributions view.candidates keepRecentTokens 0 view.indexes.reverse with
  | some cut =>
    if (range' view.start (cut - view.start)).any fun index => !(view.contributions[index]?.getD []).isEmpty then some cut
    else none
  | none => none

/-! A cut that parts no call from its result. -/

theorem lastAssistant_append (first second : List Message) :
    lastAssistant (first ++ second) = (lastAssistant second).or (lastAssistant first) := by
  rw [lastAssistant, reverse_append, findSome?_append]
  rfl

theorem lastAssistant_flatten (contributions : List (List Message)) :
    contributions.reverse.findSome? lastAssistant = lastAssistant contributions.flatten := by
  induction contributions with
  | nil => rfl
  | cons messages rest ih =>
    rw [reverse_cons, findSome?_append, ih, flatten_cons, lastAssistant_append]
    congr 1
    simp

theorem lastAssistant_eq_none {messages : List Message} (h : lastAssistant messages = none) :
    turn messages = messages := by
  apply takeWhile_eq_self_iff.mpr
  intro message hMessage
  have hNone := findSome?_eq_none_iff.mp h message (mem_reverse.mpr hMessage)
  cases message with
  | assistant message => cases hNone
  | system message => rfl
  | user message => rfl
  | toolResult message => rfl

theorem turn_append_of_lastAssistant {first : List Message} (second : List Message) {assistant : AssistantMessage}
    (h : lastAssistant first = some assistant) : turn (first ++ second) = turn first := by
  induction first with
  | nil => cases h
  | cons message rest ih =>
    by_cases hAssistant : message.isAssistant
    · simp [turn, hAssistant]
    · have hRest : lastAssistant rest = some assistant := by
        have hCons : lastAssistant (message :: rest) = (lastAssistant rest).or (lastAssistant [message]) :=
          lastAssistant_append [message] rest
        have hNone : lastAssistant [message] = none := by
          cases message with
          | assistant message => exact absurd rfl hAssistant
          | system message => rfl
          | user message => rfl
          | toolResult message => rfl
        rw [hCons, hNone, Option.or_none] at h
        exact h
      have hTurn := ih hRest
      unfold turn at hTurn ⊢
      rw [cons_append, takeWhile_cons, takeWhile_cons, hTurn]

/-- A list is ordered in two parts where the second part has no result for the calls of the
last assistant message of the first. -/
theorem orderToolResults_cut (first second : List Message)
    (hUnanswered : ∀ assistant, lastAssistant first = some assistant → ∀ call ∈ assistant.calls,
      ∀ result ∈ (turn second).filterMap Message.toolResult?, result.toolCallId ≠ call.id) :
    orderToolResults (first ++ second) = orderToolResults first ++ orderToolResults second := by
  induction first with
  | nil => rfl
  | cons message rest ih =>
    have hCons : lastAssistant (message :: rest) = (lastAssistant rest).or (lastAssistant [message]) :=
      lastAssistant_append [message] rest
    have hRest := ih fun assistant hLast => hUnanswered assistant (by rw [hCons, hLast, Option.some_or])
    cases message with
    | toolResult result => exact hRest
    | system system => exact congrArg (.system system :: ·) hRest
    | user user => exact congrArg (.user user :: ·) hRest
    | assistant assistant =>
      have hAnswers : answers assistant (rest ++ second) = answers assistant rest := by
        cases hLast : lastAssistant rest with
        | some later => rw [answers, answers, turn_append_of_lastAssistant second hLast]
        | none =>
          have hTurn : turn (rest ++ second) = rest ++ turn second := by
            unfold turn
            rw [takeWhile_append, show takeWhile _ rest = rest from lastAssistant_eq_none hLast,
              if_pos rfl]
          apply map_congr_left
          intro call hCall
          have hOwn : lastAssistant (.assistant assistant :: rest) = some assistant := by
            rw [hCons, hLast]
            rfl
          have hSecond : ((turn second).filterMap Message.toolResult?).find?
              (fun result => result.toolCallId = call.id) = none := by
            apply find?_eq_none.mpr
            intro result hResult
            simpa using hUnanswered assistant hOwn call hCall result hResult
          rw [answer, answer, lookup_results, lookup_results, hTurn, lastAssistant_eq_none hLast,
            filterMap_append, find?_append, hSecond, Option.or_none]
      rw [cons_append, orderToolResults, orderToolResults, hAnswers, hRest, cons_append, append_assoc]

theorem unanswered_turn {calls : List JsString} {messages : List Message} (h : unanswered calls false messages) :
    ∀ result ∈ (turn messages).filterMap Message.toolResult?, result.toolCallId ∉ calls := by
  induction messages with
  | nil => simp [turn]
  | cons message rest ih =>
    rw [unanswered] at h
    cases message with
    | assistant assistant => simp [turn, Message.isAssistant]
    | system system => exact ih h
    | user user => exact ih h
    | toolResult found =>
      have hLoop : found.toolCallId ∉ calls ∧ unanswered calls false rest = true := by
        simpa [Message.isAssistant, Message.toolResult?] using h
      intro result hResult
      obtain rfl | hResult := mem_cons.mp (show result ∈ found :: (turn rest).filterMap Message.toolResult? from hResult)
      · exact hLoop.1
      · exact ih hLoop.2 result hResult

variable {contributions : List (List Message)}

theorem kept_cons {index : Nat} {message : Message} (hFirst : (contributions[index]?.getD []).head? = some message) :
    ∃ rest kept, contributions.drop index = (message :: rest) :: kept := by
  cases hEntry : contributions[index]? with
  | none => simp [hEntry] at hFirst
  | some messages =>
    rw [hEntry] at hFirst
    obtain ⟨hIndex, rfl⟩ := List.getElem?_eq_some_iff.mp hEntry
    obtain ⟨rest, hRest⟩ := List.head?_eq_some_iff.mp hFirst
    exact ⟨rest, contributions.drop (index + 1), by rw [drop_eq_getElem_cons hIndex]; exact congrArg (· :: _) hRest⟩

/-- A candidate begins with a user or assistant message, and both sides of it are ordered
apart. -/
theorem candidate_cut {index : Nat} (h : isCandidate contributions index) :
    (∃ message rest kept, contributions.drop index = (message :: rest) :: kept ∧
        ((∃ user, message = .user user) ∨ ∃ assistant, message = .assistant assistant)) ∧
      orderToolResults contributions.flatten =
        orderToolResults (contributions.take index).flatten ++ orderToolResults (contributions.drop index).flatten := by
  have hParts : contributions.flatten = (contributions.take index).flatten ++ (contributions.drop index).flatten := by
    rw [← flatten_append, take_append_drop]
  unfold isCandidate at h
  split at h
  next assistant hFirst =>
    obtain ⟨rest, kept, hKept⟩ := kept_cons hFirst
    refine ⟨⟨_, rest, kept, hKept, .inr ⟨assistant, rfl⟩⟩, ?_⟩
    rw [hParts]
    exact orderToolResults_append _ _ (.inr ⟨assistant, rest ++ kept.flatten, by rw [hKept]; rfl⟩)
  next user hFirst =>
    obtain ⟨rest, kept, hKept⟩ := kept_cons hFirst
    refine ⟨⟨_, rest, kept, hKept, .inl ⟨user, rfl⟩⟩, ?_⟩
    rw [hParts]
    apply orderToolResults_cut
    intro assistant hLast call hCall result hResult hSame
    have hCalls : precedingCalls contributions index = assistant.calls.map ToolCall.id := by
      rw [precedingCalls, lastAssistant_flatten, hLast]
      rfl
    have hMem : call.id ∈ precedingCalls contributions index := by
      rw [hCalls]
      exact mem_map_of_mem hCall
    obtain hEmpty | hNone := Bool.or_eq_true_iff.mp h
    · rw [isEmpty_iff.mp hEmpty] at hMem
      cases hMem
    · rw [hKept] at hNone hResult
      have hLoop : unanswered (precedingCalls contributions index) false (rest ++ kept.flatten) := hNone
      exact unanswered_turn hLoop result hResult (hSame ▸ hMem)
  next => cases h

theorem findCut_mem {candidates : List Nat} {keepRecentTokens : Rat} {kept : Nat}
    {indexes : List Nat} {cut : Nat} (h : findCut contributions candidates keepRecentTokens kept indexes = some cut) :
    cut ∈ candidates := by
  induction indexes generalizing kept with
  | nil => cases h
  | cons index rest ih =>
    rw [findCut] at h
    split_ifs at h with hKept
    · exact ih h
    · obtain hFound | ⟨-, hLast⟩ := Option.or_eq_some_iff.mp h
      · exact mem_of_find?_eq_some hFound
      · exact mem_of_getLast? hLast

/-- A compaction keeps a suffix that begins with a user or assistant message, summarizes
something, and parts no tool call from its result. -/
theorem cut_keeps_results {view : ContextView} {keepRecentTokens : Rat} {cut : Nat}
    (hCut : selectCut view keepRecentTokens = some cut) :
    (∃ message rest kept, view.contributions.drop cut = (message :: rest) :: kept ∧
        ((∃ user, message = .user user) ∨ ∃ assistant, message = .assistant assistant)) ∧
      (∃ index messages, (if view.head.isNone then 0 else 1) ≤ index ∧ index < cut ∧
        view.contributions[index]? = some messages ∧ messages ≠ []) ∧
      orderToolResults view.contributions.flatten =
        orderToolResults (view.contributions.take cut).flatten ++
          orderToolResults (view.contributions.drop cut).flatten := by
  unfold selectCut at hCut
  split at hCut
  next found hFound =>
    split_ifs at hCut with hSummarized
    obtain rfl := Option.some.inj hCut
    have hCandidate : isCandidate view.contributions found := (mem_filter.mp (findCut_mem hFound)).2
    obtain ⟨hFirst, hOrder⟩ := candidate_cut hCandidate
    refine ⟨hFirst, ?_, hOrder⟩
    obtain ⟨index, hIndex, hMessages⟩ := any_eq_true.mp hSummarized
    obtain ⟨hStart, hBefore⟩ := mem_range'_1.mp hIndex
    cases hEntry : view.contributions[index]? with
    | none => simp [hEntry] at hMessages
    | some messages =>
      refine ⟨index, messages, hStart, by omega, hEntry, ?_⟩
      rintro rfl
      simp [hEntry] at hMessages
  next => cases hCut

/-- A user message behind which the result of an earlier call still follows is no place to
cut. -/
def lateResultView : ContextView where
  head := none
  contributions :=
    [[.user ⟨.string (js "go"), .ofNat 1⟩], [.assistant ⟨[.toolCall ⟨[1], [], .null⟩], .ofNat 2, .null⟩],
      [.user ⟨.string (js "more"), .ofNat 3⟩], [.toolResult ⟨[1], [], [], false, none, .ofNat 4, .null⟩]]

theorem lateResultView_cut :
    selectCut lateResultView 1 = some 1 ∧
      orderToolResults lateResultView.contributions.flatten =
        orderToolResults (lateResultView.contributions.take 1).flatten ++
          orderToolResults (lateResultView.contributions.drop 1).flatten := by
  have hCut : selectCut lateResultView 1 = some 1 := by decide
  exact ⟨hCut, (cut_keeps_results hCut).2.2⟩

end OctoberHarness.Context
