import OctoberHarness.Agent.Agent
import OctoberHarness.Agent.Calls
import OctoberHarness.Agent.Declarations

/-! Messages that are queued while the agent runs: what becomes of them. -/
namespace OctoberHarness.Agent

open Effects List
open Effects.Program (perform loop all settle)

/-! Operations that touch no queued message. -/

/-- Whether the operation neither polls a queue, nor asks the model, nor delivers a queued
message. -/
def Quiet : {α : Type} → Op α → Prop
  | _, .emit (.messageEnd message) => message.ticket = none
  | _, .getSteeringMessages => False
  | _, .getFollowUpMessages => False
  | _, .streamFunction _ _ _ => False
  | _, .drain _ => False
  | _, .beginRun _ => False
  | _, _ => True

theorem quiet_emitMessage {message : AgentMessage} (h : message.ticket = none) : (emitMessage message).Uses Quiet :=
  .bind (.perform trivial) fun _ => .perform h

variable {messages : List AgentMessage}

theorem quiet_emitMessages (h : ∀ message ∈ messages, message.ticket = none) :
    (emitMessages messages).Uses Quiet := by
  induction messages with
  | nil => trivial
  | cons message rest ih =>
    exact .bind (quiet_emitMessage (h message mem_cons_self)) fun _ =>
      ih fun other hOther => h other (mem_cons_of_mem _ hOther)

variable (name : QueueName) (context : AgentContext) (config : AgentLoopConfig) (message : AssistantMessage)
    (toolCalls : List ToolCall)

theorem quiet_finishResponse (addedPartial : Bool) :
    (finishResponse context config addedPartial).Uses Quiet := by
  apply Program.Uses.bind (.perform trivial)
  intro response
  cases addedPartial with
  | true => exact .bind (.perform rfl) fun _ => trivial
  | false => exact .bind (.perform trivial) fun _ => .bind (.perform rfl) fun _ => trivial

theorem quiet_streamPass (s : AgentContext × Bool) : (streamPass config s).Uses Quiet := by
  obtain ⟨context, addedPartial⟩ := s
  apply Program.Uses.bind (.perform trivial)
  intro event
  have hFinish : ((finishResponse context config addedPartial) >>= fun finished =>
      (pure (.inr finished) : Prog ((AgentContext × Bool) ⊕ (AgentContext × AssistantMessage)))).Uses Quiet :=
    .bind (quiet_finishResponse context config addedPartial) fun _ => trivial
  match event with
  | some (.start partialMessage) => exact .bind (.perform trivial) fun _ => trivial
  | some (.update partialMessage) =>
    cases addedPartial with
    | true => exact .bind (.perform trivial) fun _ => trivial
    | false => trivial
  | some .done => exact hFinish
  | some .error => exact hFinish
  | none => exact hFinish

variable {α : Type} {first second : List AgentMessage} {v w : World}

theorem quiet_of_works {toolCall : ToolCall} (o : Op α) (h : Works toolCall o) : Quiet o := by
  cases o with
  | emit event => cases event <;> trivial
  | _ => trivial

theorem quiet_prepareToolCall (toolCall : ToolCall) :
    (prepareToolCall context message toolCall).Uses Quiet :=
  (works_prepareToolCall context message toolCall).mono quiet_of_works

theorem quiet_runPrepared (toolCall : ToolCall) (tool : AgentTool)
    (args : StrictJson) : (runPrepared context message toolCall tool args).Uses Quiet :=
  (works_runPrepared context message toolCall tool args).mono quiet_of_works

theorem quiet_truncated : (failToolCallsFromTruncatedMessage toolCalls).Uses Quiet := by
  induction toolCalls with
  | nil => trivial
  | cons toolCall rest ih =>
    exact .bind (.perform trivial) fun _ => .bind (.perform trivial) fun _ => .bind (quiet_emitMessage rfl) fun _ =>
      .bind ih fun _ => trivial

theorem quiet_sequential :
    (executeToolCallsSequential context message toolCalls).Uses Quiet := by
  induction toolCalls with
  | nil => trivial
  | cons toolCall rest ih =>
    apply Program.Uses.bind (.perform trivial)
    intro _
    apply Program.Uses.bind
    · apply Program.Uses.bind (quiet_prepareToolCall context message toolCall)
      intro preparation
      cases preparation with
      | immediate result => trivial
      | prepared tool args => exact quiet_runPrepared context message toolCall tool args
    · intro finalized
      apply Program.Uses.bind (.perform trivial)
      intro _
      apply Program.Uses.bind (quiet_emitMessage rfl)
      intro _
      apply Program.Uses.bind (.perform trivial)
      intro aborted
      split_ifs
      · trivial
      · exact .bind ih fun _ => trivial

theorem quiet_parallel :
    (executeToolCallsParallel context message toolCalls).Uses Quiet := by
  have hPrepare : (prepareParallel context message toolCalls).Uses Quiet := by
    induction toolCalls with
    | nil => trivial
    | cons toolCall rest ih =>
      apply Program.Uses.bind (.perform trivial)
      intro _
      apply Program.Uses.bind
      · apply Program.Uses.bind (quiet_prepareToolCall context message toolCall)
        intro preparation
        cases preparation with
        | immediate result => exact .bind (.perform trivial) fun _ => trivial
        | prepared tool args => trivial
      · intro entry
        apply Program.Uses.bind (.perform trivial)
        intro aborted
        split_ifs
        · trivial
        · exact .bind ih fun _ => trivial
  apply Program.Uses.bind hPrepare
  intro entries
  apply Program.Uses.bind
  · apply Program.Uses.all
    intro task hTask
    obtain ⟨⟨toolCall, entry⟩, -, rfl⟩ := List.mem_map.mp hTask
    cases entry with
    | inl finalized => trivial
    | inr prepared =>
      obtain ⟨tool, args⟩ := prepared
      apply Program.Uses.bind (.perform trivial)
      intro aborted
      split_ifs
      · exact .bind (.perform trivial) fun _ => trivial
      · exact .bind (quiet_runPrepared context message toolCall tool args) fun _ => .bind (.perform trivial) fun _ => trivial
  · intro finalizedCalls
    refine .bind (quiet_emitMessages ?_) fun _ => trivial
    intro other hOther
    obtain ⟨finalized, -, rfl⟩ := List.mem_map.mp hOther
    rfl

theorem quiet_runToolCalls (config : AgentLoopConfig) :
    (runToolCalls context message config).Uses Quiet := by
  rw [runToolCalls]
  split_ifs
  · exact .bind (quiet_truncated _) fun _ => trivial
  · apply Program.Uses.bind
    · rw [executeToolCalls]
      split_ifs
      · exact quiet_sequential context message _
      · exact quiet_parallel context message _
    · exact fun _ => trivial

/-! The message behind a system message whose tool changes were rewritten. -/

/-- The message without its tool changes. -/
def AgentMessage.strip (message : AgentMessage) : AgentMessage :=
  match message.body with
  | .system system => ⟨message.ticket, .system (withToolChanges system noChanges)⟩
  | _ => message

/-- The messages of a queue among others, without their tool changes. -/
def ofQueue (name : QueueName) (messages : List AgentMessage) : List AgentMessage :=
  (messages.filter fun message => message.isOf name).map AgentMessage.strip

theorem ofQueue_append (first second : List AgentMessage) :
    ofQueue name (first ++ second) = ofQueue name first ++ ofQueue name second := by
  rw [ofQueue, filter_append, map_append]
  rfl

theorem ofQueue_cons (message : AgentMessage) (rest : List AgentMessage) :
    ofQueue name (message :: rest) = ofQueue name [message] ++ ofQueue name rest :=
  ofQueue_append name [message] rest

theorem ofQueue_own (h : ∀ message ∈ messages, message.ticket = none) :
    ofQueue name messages = [] := by
  rw [ofQueue, map_eq_nil_iff, filter_eq_nil_iff]
  intro message hMessage
  rw [AgentMessage.isOf, h message hMessage]
  exact Bool.false_ne_true

theorem ofQueue_system (ticket : Option Ticket) (system : SystemMessage) (changes : ToolStateChanges) :
    ofQueue name [⟨ticket, .system (withToolChanges system changes)⟩] = ofQueue name [⟨ticket, .system system⟩] := by
  simp only [ofQueue, filter_cons, filter_nil, AgentMessage.isOf]
  split_ifs <;> rfl

theorem ofQueue_declareToolChanges (pendingMessages : List AgentMessage) :
    ofQueue name (declareToolChanges context pendingMessages) = ofQueue name pendingMessages := by
  rw [declareToolChanges]
  split
  · rename_i before ticket pending after hSplit
    split_ifs
    · rfl
    · rw [splitLastSystem_eq hSplit, ofQueue_append, ofQueue_append, ofQueue_cons, ofQueue_system, ← ofQueue_cons]
  · split_ifs
    · rfl
    · have hUpdate : ∀ changes, ofQueue name [toolUpdate changes] = [] := fun _ => rfl
      rw [← singleton_append, ofQueue_append, ofQueue_append, hUpdate, nil_append, ← ofQueue_append,
        takeWhile_append_dropWhile]

/-! Where the queued messages are. -/

/-- Every message of a queue has its ticket. -/
def Numbered (w : World) : Prop :=
  ∀ name, (w.queue name).enqueued.map AgentMessage.ticket =
    (range (w.queue name).enqueued.length).map fun number => some ⟨name, number⟩

/-- The drained messages are delivered, on their way in `pending`, or lost; none is lost
unless something threw while one was undelivered. -/
structure Carried (w : World) (pending : List AgentMessage) : Prop where
  numbered : Numbered w
  order : ∀ name, (ofQueue name w.ended ++ ofQueue name pending).Sublist ((w.queue name).drained.map AgentMessage.strip)
  lost : w.threwUndelivered = false ↔
    ∀ name, (ofQueue name w.ended ++ ofQueue name pending).length = (w.queue name).drained.length
  transcript : w.ended.IsSuffix w.messages

/-- No more than one message of a queue is added at a time, if so its mode. -/
def Rate (w : World) (pending : List AgentMessage) : Prop :=
  ∀ name, (w.queue name).mode = .oneAtATime → (w.queue name).added + (ofQueue name pending).length ≤ 1

variable {w : World} {pending : List AgentMessage}

theorem Carried.congr (h : Carried w first) (hSame : ∀ name, ofQueue name first = ofQueue name second) : Carried w second where
  numbered := h.numbered
  order name := hSame name ▸ h.order name
  lost := by
    simp only [← hSame]
    exact h.lost
  transcript := h.transcript

theorem Rate.congr (h : Rate w first) (hSame : ∀ name, ofQueue name first = ofQueue name second) : Rate w second :=
  fun name hMode => hSame name ▸ h name hMode

/-- What waiting leaves as it was while `messages` are delivered. -/
structure Frame (w : World) (messages : List AgentMessage) (v : World) : Prop where
  mode : ∀ name, (v.queue name).mode = (w.queue name).mode
  drained : ∀ name, (v.queue name).drained = (w.queue name).drained
  emptyAtPoll : ∀ name, (v.queue name).emptyAtPoll = (w.queue name).emptyAtPoll
  added : ∀ name, (v.queue name).added = (w.queue name).added + (ofQueue name messages).length
  skip : v.skipInitialSteeringPoll = w.skipInitialSteeringPoll
  ended : ∀ name, ofQueue name v.ended = ofQueue name w.ended ++ ofQueue name messages
  threw : w.threw = true → v.threw = true
  failed : w.failed = true → v.failed = true
  hookEnded : w.hookEnded = true → v.hookEnded = true

theorem Frame.refl (w : World) : Frame w [] w :=
  ⟨fun _ => rfl, fun _ => rfl, fun _ => rfl, fun _ => rfl, rfl, fun _ => (append_nil _).symm, id, id, id⟩

theorem Frame.trans {u : World} (h : Frame w first v) (h' : Frame v second u) :
    Frame w (first ++ second) u where
  mode name := (h'.mode name).trans (h.mode name)
  drained name := (h'.drained name).trans (h.drained name)
  emptyAtPoll name := (h'.emptyAtPoll name).trans (h.emptyAtPoll name)
  added name := by
    rw [h'.added, h.added, ofQueue_append, length_append, Nat.add_assoc]
  skip := h'.skip.trans h.skip
  ended name := by
    rw [h'.ended, h.ended, ofQueue_append, append_assoc]
  threw := h'.threw ∘ h.threw
  failed := h'.failed ∘ h.failed
  hookEnded := h'.hookEnded ∘ h.hookEnded

theorem Frame.congr (h : Frame w first v) (hSame : ∀ name, ofQueue name first = ofQueue name second) : Frame w second v :=
  { h with
    added := fun name => hSame name ▸ h.added name
    ended := fun name => hSame name ▸ h.ended name }

theorem Rate.frame {delivered pending : List AgentMessage} (h : Rate w (delivered ++ pending))
    (hFrame : Frame w delivered v) : Rate v pending := by
  intro name hMode
  have hHere := h name (hFrame.mode name ▸ hMode)
  rw [ofQueue_append, length_append] at hHere
  rw [hFrame.added, Nat.add_assoc]
  exact hHere

theorem queue_setQueue (w : World) (name : QueueName) (queue : PendingMessageQueue) (other : QueueName) :
    (w.setQueue name queue).queue other = if other = name then queue else w.queue other :=
  Function.update_apply _ _ _ _

theorem enqueue_frame (w : World) (name : QueueName) (body : Body) : Frame w [] (w.enqueue name body) := by
  refine ⟨fun other => ?_, fun other => ?_, fun other => ?_, fun other => ?_, rfl, fun _ => (append_nil _).symm, id,
    id, id⟩
  all_goals
    rw [World.enqueue, queue_setQueue]
    split_ifs with hSame
    · rw [hSame]
      rfl
    · rfl

theorem Numbered.enqueue (h : Numbered w) (name : QueueName) (body : Body) : Numbered (w.enqueue name body) := by
  intro other
  rw [World.enqueue, queue_setQueue]
  split_ifs with hSame
  · subst hSame
    have hEnqueued : ((w.queue other).enqueue other body).enqueued =
        (w.queue other).enqueued ++ [⟨some ⟨other, (w.queue other).enqueued.length⟩, body⟩] :=
      (append_assoc _ _ _).symm
    simp only [hEnqueued, map_append, h other, length_append, length_singleton, range_succ,
      map_singleton]
  · exact h other

theorem Disturbs.frame (h : Disturbs w v) :
    Frame w [] v ∧ (Numbered w → Numbered v) ∧ v.threwUndelivered = w.threwUndelivered ∧ v.ended = w.ended ∧
      v.messages = w.messages := by
  induction h with
  | still => exact ⟨.refl _, id, rfl, rfl, rfl⟩
  | enqueue _ name body ih =>
    obtain ⟨hFrame, hNumbered, hThrew, hEnded, hMessages⟩ := ih
    exact ⟨hFrame.trans (enqueue_frame _ name body), fun h => (hNumbered h).enqueue name body, hThrew, hEnded, hMessages⟩
  | abort _ ih =>
    obtain ⟨hFrame, hNumbered, hThrew, hEnded, hMessages⟩ := ih
    exact ⟨{ hFrame with }, hNumbered, hThrew, hEnded, hMessages⟩

theorem Carried.disturbs (h : Carried w pending) (hDisturbs : Disturbs w v) :
    Carried v pending := by
  obtain ⟨hFrame, hNumbered, hThrew, hEnded, hMessages⟩ := hDisturbs.frame
  refine ⟨hNumbered h.numbered, fun name => ?_, ?_, ?_⟩
  · rw [hEnded, hFrame.drained]
    exact h.order name
  · simp only [hThrew, hEnded, hFrame.drained]
    exact h.lost
  · rw [hEnded, hMessages]
    exact h.transcript

theorem length_delivered (w : World) (name : QueueName) : (w.delivered name).length = (ofQueue name w.ended).length := by
  rw [ofQueue, length_map]
  rfl

theorem undelivered_eq_false (w : World) :
    w.undelivered = false ↔ ∀ name, (ofQueue name w.ended).length = (w.queue name).drained.length := by
  simp only [World.undelivered, Bool.or_eq_false_iff, decide_eq_false_iff_not, not_not, length_delivered]
  constructor
  · rintro ⟨hSteering, hFollowUp⟩ name
    cases name with
    | steering => exact hSteering
    | followUp => exact hFollowUp
  · exact fun h => ⟨h .steering, h .followUp⟩

theorem Carried.raise (h : Carried w pending) : Carried w.raise [] := by
  have hLength : ∀ name, (ofQueue name w.ended).length + (ofQueue name pending).length ≤ (w.queue name).drained.length := by
    intro name
    have hOrder := (h.order name).length_le
    rwa [length_append, length_map] at hOrder
  refine ⟨h.numbered, fun name => ?_, ?_, h.transcript⟩
  · show (ofQueue name w.ended ++ []).Sublist _
    rw [append_nil]
    exact (sublist_append_left _ _).trans (h.order name)
  · show (w.threwUndelivered || w.undelivered) = false ↔ ∀ name, (ofQueue name w.ended ++ []).length = _
    simp only [append_nil, Bool.or_eq_false_iff, undelivered_eq_false]
    constructor
    · exact fun hNothing => hNothing.2
    · refine fun hAll => ⟨h.lost.mpr fun name => ?_, hAll⟩
      have hHere := hLength name
      have hSame : (ofQueue name w.ended).length = (w.queue name).drained.length := hAll name
      rw [length_append]
      omega

theorem raise_frame (w : World) : Frame w [] w.raise :=
  ⟨fun _ => rfl, fun _ => rfl, fun _ => rfl, fun _ => rfl, rfl, fun _ => (append_nil _).symm, id, id, id⟩

variable {answer : Except JsString α}

theorem Reacts.keeps (h : Carried w pending) (hReacts : Reacts w answer v) :
    Frame w [] v ∧ (∀ a, answer = .ok a → Carried v pending) ∧ ∀ e, answer = .error e → Carried v [] := by
  obtain ⟨u, hDisturbs, hAnswer⟩ := hReacts
  have hFrame := hDisturbs.frame.1
  have hCarried := h.disturbs hDisturbs
  cases answer with
  | ok a =>
    subst hAnswer
    exact ⟨hFrame, fun _ _ => hCarried, nofun⟩
  | error e =>
    subst hAnswer
    exact ⟨hFrame.trans (raise_frame u), nofun, fun _ _ => hCarried.raise⟩

theorem Carried.same (h : Carried w pending)
    (hQueue : ∀ name, (v.queue name).drained = (w.queue name).drained ∧ (v.queue name).messages = (w.queue name).messages)
    (hEnded : v.ended = w.ended) (hMessages : v.messages = w.messages) (hThrew : v.threwUndelivered = w.threwUndelivered) :
    Carried v pending where
  numbered name := by
    rw [PendingMessageQueue.enqueued, (hQueue name).1, (hQueue name).2]
    exact h.numbered name
  order name := by
    rw [hEnded, (hQueue name).1]
    exact h.order name
  lost := by
    simp only [hThrew, hEnded, (hQueue _).1]
    exact h.lost
  transcript := by
    rw [hEnded, hMessages]
    exact h.transcript

theorem length_ofQueue_singleton (message : AgentMessage) :
    (ofQueue name [message]).length = if message.isOf name then 1 else 0 := by
  rw [ofQueue, filter_singleton]
  cases message.isOf name <;> rfl

theorem count_queue (w : World) (message : AgentMessage) (name : QueueName) :
    (w.count message).queue name =
      { w.queue name with added := (w.queue name).added + (ofQueue name [message]).length } := by
  rw [World.count, length_ofQueue_singleton, AgentMessage.isOf]
  cases hTicket : message.ticket with
  | none => rfl
  | some ticket =>
    simp only [queue_setQueue, Option.any_some, decide_eq_true_eq]
    by_cases hSame : name = ticket.queue
    · rw [if_pos hSame, if_pos hSame.symm, hSame]
    · rw [if_neg hSame, if_neg fun hOther => hSame hOther.symm]
      rfl

theorem count_frame (w : World) (message : AgentMessage) :
    (w.count message).skipInitialSteeringPoll = w.skipInitialSteeringPoll ∧
      (w.count message).threwUndelivered = w.threwUndelivered ∧ (w.count message).threw = w.threw ∧
        (w.count message).failed = w.failed ∧ (w.count message).hookEnded = w.hookEnded := by
  rw [World.count]
  split <;> exact ⟨rfl, rfl, rfl, rfl, rfl⟩

theorem Carried.messageEnd {message : AgentMessage} {rest : List AgentMessage} (h : Carried w (message :: rest)) :
    Carried (w.processEvents (.messageEnd message)) rest ∧ Frame w [message] (w.processEvents (.messageEnd message)) := by
  obtain ⟨hSkip, hUndelivered, hThrew, hFailed, hHook⟩ := count_frame w message
  have hQueue : ∀ name, (w.processEvents (.messageEnd message)).queue name =
      { w.queue name with added := (w.queue name).added + (ofQueue name [message]).length } := count_queue w message
  have hEnded : ∀ name, ofQueue name (w.processEvents (.messageEnd message)).ended =
      ofQueue name w.ended ++ ofQueue name [message] := fun name => ofQueue_append name _ _
  refine ⟨⟨fun name => ?_, fun name => ?_, ?_, ?_⟩, ⟨fun name => ?_, fun name => ?_, fun name => ?_, fun name => ?_, hSkip,
    hEnded, ?_, ?_, ?_⟩⟩
  · rw [hQueue]
    exact h.numbered name
  · rw [hQueue, hEnded, append_assoc, ← ofQueue_cons]
    exact h.order name
  · show (w.count message).threwUndelivered = false ↔ _
    simp only [hUndelivered, hQueue, hEnded, append_assoc, ← ofQueue_cons]
    exact h.lost
  · obtain ⟨before, hBefore⟩ := h.transcript
    refine ⟨before, ?_⟩
    show before ++ (w.ended ++ [message]) = w.messages ++ [message]
    rw [← hBefore, append_assoc]
  · rw [hQueue]
  · rw [hQueue]
  · rw [hQueue]
  · rw [hQueue]
  · exact fun hBefore => hThrew.trans hBefore
  · exact fun hBefore => hFailed.trans hBefore
  · exact fun hBefore => hHook.trans hBefore

theorem Carried.processEvents {event : AgentEvent} (h : Carried w pending)
    (hQuiet : Quiet (.emit event)) : Carried (w.processEvents event) pending ∧ Frame w [] (w.processEvents event) := by
  cases event with
  | messageEnd message =>
    have hOwn : ∀ name, ofQueue name [message] = [] := fun name =>
      ofQueue_own name fun other hOther => (List.mem_singleton.mp hOther) ▸ hQuiet
    have hMore : Carried w (message :: pending) := h.congr fun name => by rw [ofQueue_cons, hOwn, nil_append]
    exact ⟨hMore.messageEnd.1, hMore.messageEnd.2.congr hOwn⟩
  | turnEnd message toolResults =>
    refine ⟨h.same (fun _ => ⟨rfl, rfl⟩) rfl rfl rfl, ⟨fun _ => rfl, fun _ => rfl, fun _ => rfl, fun _ => rfl, rfl,
      fun _ => (append_nil _).symm, id, fun hFailed => ?_, id⟩⟩
    show (w.failed || _ || _) = true
    rw [hFailed]
    rfl
  | _ => exact ⟨h, .refl w⟩

theorem Carried.decide (h : Carried w pending) (ends : Bool) : Carried (w.decide ends) pending :=
  h.same (fun _ => ⟨rfl, rfl⟩) rfl rfl rfl

theorem decide_frame (w : World) (ends : Bool) : Frame w [] (w.decide ends) where
  mode _ := rfl
  drained _ := rfl
  emptyAtPoll _ := rfl
  added _ := rfl
  skip := rfl
  ended _ := (append_nil _).symm
  threw := id
  failed := id
  hookEnded := by
    intro hEnded
    show (w.hookEnded || ends) = true
    rw [hEnded]
    rfl

theorem quiet_keeps {o : Op α} (hQuiet : Quiet o)
    (h : Carried w []) (hAnswer : surroundings o w answer v) : Carried v [] ∧ Frame w [] v := by
  have hReacts : ∀ {u : World}, Carried u [] → Frame w [] u → Reacts u answer v → Carried v [] ∧ Frame w [] v := by
    intro u hCarried hFrame hReacts
    obtain ⟨hNext, hOk, hError⟩ := hReacts.keeps hCarried
    refine ⟨?_, hFrame.trans hNext⟩
    cases answer with
    | ok a => exact hOk a rfl
    | error e => exact hError e rfl
  cases o with
  | emit event =>
    obtain ⟨hCarried, hFrame⟩ := h.processEvents hQuiet
    exact hReacts hCarried hFrame hAnswer
  | prepareNextTurn turn => exact hReacts h (.refl w) hAnswer.1
  | finishTurn turn =>
    obtain ⟨u, hReact, rfl⟩ := hAnswer
    obtain ⟨hNext, hOk, hError⟩ := hReact.keeps h
    have hCarried : Carried u [] := by
      cases answer with
      | ok a => exact hOk a rfl
      | error e => exact hError e rfl
    exact ⟨hCarried.decide _, hNext.trans (decide_frame u _)⟩
  | aborted => exact ⟨h.disturbs hAnswer.1, hAnswer.1.frame.1⟩
  | snapshot =>
    obtain ⟨rfl, -⟩ := hAnswer
    exact ⟨h, .refl v⟩
  | failureModel =>
    obtain ⟨rfl, -⟩ := hAnswer
    exact ⟨h.same (fun _ => ⟨rfl, rfl⟩) rfl rfl rfl, { Frame.refl w with threw := fun _ => rfl }⟩
  | finishRun =>
    obtain ⟨rfl, -⟩ := hAnswer
    exact ⟨h, .refl v⟩
  | getSteeringMessages => exact hQuiet.elim
  | getFollowUpMessages => exact hQuiet.elim
  | streamFunction context config llmMessages => exact hQuiet.elim
  | drain name => exact hQuiet.elim
  | beginRun skip => exact hQuiet.elim
  | _ => exact hReacts h (.refl w) hAnswer

/-- No more than one message of a queue was added, if so its mode. -/
def Steady (w : World) : Prop :=
  Rate w []

theorem safe_quiet {p : Prog α} (hUses : p.Uses Quiet) (h : Carried w []) (hRate : Steady w) :
    Safe surroundings Steady (fun _ v => Carried v [] ∧ Frame w [] v) (fun _ v => Carried v [] ∧ Frame w [] v) p w := by
  have hSafe : Safe surroundings (fun v => Carried v [] ∧ Frame w [] v) (fun _ v => Carried v [] ∧ Frame w [] v)
      (fun _ v => Carried v [] ∧ Frame w [] v) p w := by
    apply Safe.of_uses hUses ⟨h, .refl w⟩
    intro _ o v answer u hQuiet hHere hAnswer
    obtain ⟨hCarried, hFrame⟩ := quiet_keeps hQuiet hHere.1 hAnswer
    exact ⟨hCarried, hHere.2.trans hFrame⟩
  refine hSafe.mono (fun v hHere => ?_) (fun _ _ hHere _ => hHere) fun _ _ hHere _ => hHere
  exact Rate.frame (show Rate w ([] ++ []) from hRate) hHere.2

end OctoberHarness.Agent
