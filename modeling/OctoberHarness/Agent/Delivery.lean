import OctoberHarness.Agent.Queues

/-! Every run of the agent delivers the messages it takes from its queues, unless
something throws while one is on its way. -/
namespace OctoberHarness.Agent

open List Effects Bool
open Effects.Program (perform loop all settle)

theorem peek_append_drop (queue : PendingMessageQueue) :
    queue.peek ++ queue.messages.drop queue.peek.length = queue.messages := by
  rw [PendingMessageQueue.peek]
  cases queue.mode with
  | all =>
    show queue.messages ++ queue.messages.drop queue.messages.length = queue.messages
    rw [drop_length, append_nil]
  | oneAtATime =>
    cases hMessages : queue.messages with
    | nil => rfl
    | cons message rest => rfl

theorem enqueued_drain (queue : PendingMessageQueue) : queue.drain.enqueued = queue.enqueued := by
  show queue.drained ++ queue.peek ++ queue.messages.drop queue.peek.length = _
  rw [append_assoc, peek_append_drop]
  rfl

theorem peek_nil {queue : PendingMessageQueue} (h : queue.peek = []) : queue.messages.isEmpty = true := by
  rw [PendingMessageQueue.peek] at h
  cases hMessages : queue.messages with
  | nil => rfl
  | cons message rest =>
    rw [hMessages] at h
    cases hMode : queue.mode <;> rw [hMode] at h <;> exact nomatch h

variable {name : QueueName} {w v : World} {message : AgentMessage}

theorem Numbered.isOf (h : Numbered w)
    (hMessage : message ∈ (w.queue name).enqueued) (other : QueueName) : message.isOf other = decide (name = other) := by
  have hTicket : message.ticket ∈ (w.queue name).enqueued.map AgentMessage.ticket := mem_map_of_mem hMessage
  rw [h name] at hTicket
  obtain ⟨number, -, hSame⟩ := mem_map.mp hTicket
  rw [AgentMessage.isOf, ← hSame]
  rfl

/-- What a poll of a queue leaves that returned `polled`. -/
structure Polls (w : World) (name : QueueName) (polled : List AgentMessage) (v : World) : Prop where
  carried : Carried v polled
  others : ∀ other, other ≠ name → ofQueue other polled = []
  one : (w.queue name).mode = .oneAtATime → (ofQueue name polled).length ≤ 1
  empty : polled = [] → (v.queue name).emptyAtPoll = true
  emptyAtPoll : ∀ other, other ≠ name → (v.queue other).emptyAtPoll = (w.queue other).emptyAtPoll
  mode : ∀ other, (v.queue other).mode = (w.queue other).mode
  added : ∀ other, (v.queue other).added = (w.queue other).added
  skip : v.skipInitialSteeringPoll = w.skipInitialSteeringPoll

theorem Polls.of_drain (h : Carried w []) (name : QueueName) :
    Polls w name (w.queue name).peek (w.setQueue name (w.queue name).drain) := by
  have hEnqueued : ∀ message ∈ (w.queue name).peek, message ∈ (w.queue name).enqueued := by
    intro message hMessage
    apply mem_append_right
    rw [← peek_append_drop]
    exact mem_append_left _ hMessage
  have hOwn : ofQueue name (w.queue name).peek = (w.queue name).peek.map AgentMessage.strip := by
    rw [ofQueue, filter_eq_self.mpr]
    intro message hMessage
    rw [h.numbered.isOf (hEnqueued message hMessage)]
    exact decide_eq_true rfl
  have hOthers : ∀ other, other ≠ name → ofQueue other (w.queue name).peek = [] := by
    intro other hOther
    rw [ofQueue, map_eq_nil_iff, filter_eq_nil_iff]
    intro message hMessage
    rw [h.numbered.isOf (hEnqueued message hMessage), decide_eq_false fun hSame => hOther hSame.symm]
    exact false_ne_true
  have hOrder : ∀ other, (ofQueue other w.ended).Sublist ((w.queue other).drained.map AgentMessage.strip) := by
    intro other
    have hHere := h.order other
    rwa [show ofQueue other [] = [] from rfl, append_nil] at hHere
  have hLost : w.threwUndelivered = false ↔ ∀ other, (ofQueue other w.ended).length = (w.queue other).drained.length := by
    simpa only [show ∀ other, ofQueue other [] = [] from fun _ => rfl, append_nil] using h.lost
  refine ⟨⟨fun other => ?_, fun other => ?_, ?_, h.transcript⟩, hOthers, fun hMode => ?_, fun hNone => ?_, fun other hOther => ?_,
    fun other => ?_, fun other => ?_, rfl⟩
  · rw [queue_setQueue]
    split_ifs with hSame
    · rw [enqueued_drain, hSame]
      exact h.numbered name
    · exact h.numbered other
  · rw [queue_setQueue]
    split_ifs with hSame
    · subst hSame
      show (ofQueue other w.ended ++ ofQueue other (w.queue other).peek).Sublist
        (((w.queue other).drained ++ (w.queue other).peek).map AgentMessage.strip)
      rw [hOwn, map_append]
      exact (hOrder other).append_right _
    · rw [hOthers other hSame, append_nil]
      exact hOrder other
  · show w.threwUndelivered = false ↔ _
    rw [hLost]
    apply forall_congr'
    intro other
    rw [queue_setQueue, length_append]
    split_ifs with hSame
    · subst hSame
      show _ ↔ _ = ((w.queue other).drained ++ (w.queue other).peek).length
      rw [hOwn, length_map, length_append]
      exact (Nat.add_left_inj).symm
    · rw [hOthers other hSame]
      rfl
  · rw [hOwn, length_map, PendingMessageQueue.peek, hMode]
    exact length_take_le _ _
  · rw [queue_setQueue, if_pos rfl]
    exact peek_nil hNone
  · rw [queue_setQueue, if_neg hOther]
  · rw [queue_setQueue]
    split_ifs with hSame
    · rw [hSame]
      rfl
    · rfl
  · rw [queue_setQueue]
    split_ifs with hSame
    · rw [hSame]
      rfl
    · rfl

variable {polled : List AgentMessage}

theorem Polls.after {u : World} (h : Polls u name polled v) (hFrame : Frame w [] u) : Polls w name polled v where
  carried := h.carried
  others := h.others
  one hMode := h.one ((hFrame.mode name).trans hMode)
  empty := h.empty
  emptyAtPoll other hOther := (h.emptyAtPoll other hOther).trans (hFrame.emptyAtPoll other)
  mode other := (h.mode other).trans (hFrame.mode other)
  added other := (h.added other).trans (hFrame.added other)
  skip := h.skip.trans hFrame.skip

theorem Polls.rate (h : Polls w name polled v) (hRate : Rate w []) (hAdded : (w.queue name).added = 0) : Rate v polled := by
  intro other hMode
  rw [h.added]
  rw [h.mode] at hMode
  by_cases hSame : other = name
  · subst hSame
    rw [hAdded, Nat.zero_add]
    exact h.one hMode
  · rw [h.others other hSame]
    exact hRate other hMode

/-! The parts of a turn. -/

/-- What an error leaves. -/
def Failed (_ : JsString) (w : World) : Prop :=
  Carried w [] ∧ Steady w

theorem Rate.left {first second : List AgentMessage} (h : Rate w (first ++ second)) : Rate w first := by
  intro name hMode
  have hHere := h name hMode
  rw [ofQueue_append, length_append] at hHere
  omega

theorem Rate.steady {pending : List AgentMessage} (h : Rate w pending) : Steady w :=
  Rate.left (show Rate w ([] ++ pending) from h)

variable {w : World} {pending : List AgentMessage}

variable {messages : List AgentMessage} {s : LoopState}

theorem safe_react {α : Type} {o : Op α} {u : World} (hOp : ∀ answer v, surroundings o w answer v → Reacts u answer v)
    (hCarried : Carried u pending) (hFrame : Frame w messages u) (hRate : Rate w messages) :
    Safe surroundings Steady (fun _ v => Carried v pending ∧ Frame w messages v ∧ Frame u [] v) Failed (perform o) w := by
  apply Safe.perform hRate.steady
  intro answer v hAnswer
  obtain ⟨hNext, hOk, hError⟩ := (hOp answer v hAnswer).keeps hCarried
  have hAfter : Frame w messages v := (hFrame.trans hNext).congr fun name => by rw [append_nil]
  have hSteady : Steady v := Rate.frame (by rwa [append_nil]) hAfter
  exact ⟨hSteady, fun a hSame => ⟨hOk a hSame, hAfter, hNext⟩, fun e hSame => ⟨hError e hSame, hSteady⟩⟩

theorem safe_emit {event : AgentEvent} (hQuiet : Quiet (.emit event)) (h : Carried w pending) (hRate : Rate w pending) :
    Safe surroundings Steady (fun _ v => Carried v pending ∧ Frame w [] v) Failed (emit event) w := by
  obtain ⟨hCarried, hFrame⟩ := h.processEvents hQuiet
  have hEmit : Safe surroundings Steady (fun _ v => Carried v pending ∧ Frame w [] v ∧
      Frame (w.processEvents event) [] v) Failed (emit event) w :=
    safe_react (fun _ _ hAnswer => hAnswer) hCarried hFrame hRate.steady
  exact hEmit.mono (fun _ hHere => hHere) (fun _ _ _ hAfter => ⟨hAfter.1, hAfter.2.1⟩) fun _ _ _ hError => hError

theorem safe_emitMessage (h : Carried w (message :: pending)) (hRate : Rate w (message :: pending)) :
    Safe surroundings Steady (fun _ v => Carried v pending ∧ Frame w [message] v) Failed (emitMessage message) w := by
  have hStart : Quiet (.emit (.messageStart message)) := trivial
  apply Safe.bind
  apply (safe_emit hStart h hRate).mono (fun _ hHere => hHere) ?_ fun _ _ _ hError => hError
  rintro _ v - ⟨hCarried, hFrame⟩
  have hRateHere : Rate v (message :: pending) := Rate.frame hRate hFrame
  have hOne : Rate v [message] := Rate.left (show Rate v ([message] ++ pending) from hRateHere)
  obtain ⟨hEnded, hNext⟩ := hCarried.messageEnd
  have hEnd : Safe surroundings Steady (fun _ u => Carried u pending ∧ Frame v [message] u ∧
      Frame (v.processEvents (.messageEnd message)) [] u) Failed (emit (.messageEnd message)) v :=
    safe_react (fun _ _ hAnswer => hAnswer) hEnded hNext hOne
  apply hEnd.mono (fun _ hHere => hHere) ?_ fun _ _ _ hError => hError
  exact fun _ u _ hAfter => ⟨hAfter.1, hFrame.trans hAfter.2.1⟩

theorem safe_emitMessages (h : Carried w messages) (hRate : Rate w messages) :
    Safe surroundings Steady (fun _ v => Carried v [] ∧ Frame w messages v) Failed (emitMessages messages) w := by
  induction messages generalizing w with
  | nil => exact .ret hRate ⟨h, .refl w⟩
  | cons message rest ih =>
    apply Safe.bind
    apply (safe_emitMessage h hRate).mono (fun _ hHere => hHere) ?_ fun _ _ _ hError => hError
    rintro _ v - ⟨hCarried, hFrame⟩
    have hRest : Rate v rest := Rate.frame (show Rate w ([message] ++ rest) from hRate) hFrame
    apply (ih hCarried hRest).mono (fun _ hHere => hHere) ?_ fun _ _ _ hError => hError
    exact fun _ u _ hAfter => ⟨hAfter.1, hFrame.trans hAfter.2⟩

theorem safe_deliver (s : LoopState) (h : Carried w messages) (hRate : Rate w messages) :
    Safe surroundings Steady (fun _ v => Carried v [] ∧ Frame w messages v) Failed (deliver messages s) w := by
  induction messages generalizing w s with
  | nil => exact .ret hRate ⟨h, .refl w⟩
  | cons message rest ih =>
    apply Safe.bind
    apply (safe_emitMessage h hRate).mono (fun _ hHere => hHere) ?_ fun _ _ _ hError => hError
    rintro _ v - ⟨hCarried, hFrame⟩
    have hRest : Rate v rest := Rate.frame (show Rate w ([message] ++ rest) from hRate) hFrame
    apply (ih _ hCarried hRest).mono (fun _ hHere => hHere) ?_ fun _ _ _ hError => hError
    exact fun _ u _ hAfter => ⟨hAfter.1, hFrame.trans hAfter.2⟩

theorem safe_pollSteering (h : Carried w []) (hRate : Steady w) (hSkip : w.skipInitialSteeringPoll = false) :
    Safe surroundings Steady (fun polled v => Polls w .steering polled v) Failed (perform .getSteeringMessages) w := by
  apply Safe.perform hRate
  rintro answer v ⟨u, hDisturbs, rfl, rfl⟩
  have hFrame := hDisturbs.frame.1
  have hPolls : Polls w .steering u.pollSteering.1 u.pollSteering.2 := by
    rw [World.pollSteering, if_neg (by rw [hFrame.skip, hSkip]; exact false_ne_true)]
    exact (Polls.of_drain (h.disturbs hDisturbs) .steering).after hFrame
  refine ⟨fun name hMode => ?_, fun polled hSame => ?_, nofun⟩
  · rw [hPolls.added]
    exact hRate name (hPolls.mode name ▸ hMode)
  · cases hSame
    exact hPolls

theorem safe_pollFollowUp (h : Carried w []) (hRate : Steady w) :
    Safe surroundings Steady (fun polled v => Polls w .followUp polled v) Failed (perform .getFollowUpMessages) w := by
  apply Safe.perform hRate
  rintro answer v ⟨u, hDisturbs, rfl, rfl⟩
  have hPolls : Polls w .followUp (u.queue .followUp).peek (u.setQueue .followUp (u.queue .followUp).drain) :=
    (Polls.of_drain (h.disturbs hDisturbs) .followUp).after hDisturbs.frame.1
  refine ⟨fun name hMode => ?_, fun polled hSame => ?_, nofun⟩
  · rw [hPolls.added]
    exact hRate name (hPolls.mode name ▸ hMode)
  · cases hSame
    exact hPolls

/-- Nothing was added since the model was last asked. -/
def Asked (w : World) : Prop :=
  ∀ name, (w.queue name).added = 0

theorem Asked.frame (h : Asked w) (hFrame : Frame w [] v) : Asked v :=
  fun name => (hFrame.added name).trans (h name)

/-- What a pass of the inner loop starts from. -/
structure Ready (s : LoopState) (w : World) : Prop where
  carried : Carried w s.pendingMessages
  rate : Rate w s.pendingMessages
  skip : w.skipInitialSteeringPoll = false
  first : s.lastCompletedTurn = none → s.hasMoreToolCalls = true
  later : s.lastCompletedTurn ≠ none → Asked w ∧ (s.pendingMessages = [] → (w.queue .steering).emptyAtPoll = true)

/-- What the inner loop ends with. -/
def Closed : InnerEnd → World → Prop
  | .stopped _, w => Carried w [] ∧ (w.failed = true ∨ w.hookEnded = true)
  | .wouldStop s, w =>
    s.pendingMessages = [] ∧ Carried w [] ∧ w.skipInitialSteeringPoll = false ∧ Asked w ∧
      (w.queue .steering).emptyAtPoll = true

/-- Before a turn at most the messages that were polled for it are on their way. -/
theorem safe_prepareTurn (h : Ready s w) :
    Safe surroundings Steady
      (fun prepared v => Carried v prepared.1.pendingMessages ∧ Rate v prepared.1.pendingMessages ∧
        v.skipInitialSteeringPoll = false ∧ ∀ message ∈ prepared.2, message.ticket = none)
      Failed (prepareTurn s) w := by
  rw [prepareTurn]
  split
  · exact .ret h.rate.steady ⟨h.carried, h.rate, h.skip, fun _ hMessage => absurd hMessage not_mem_nil⟩
  · rename_i turn hTurn
    have hAsked : Asked w := (h.later (by rw [hTurn]; exact nofun)).1
    apply Safe.bind
    apply Safe.perform h.rate.steady
    rintro answer v ⟨hReacts, hOwn⟩
    obtain ⟨hFrame, hOk, hError⟩ := hReacts.keeps h.carried
    have hRateHere : Rate v s.pendingMessages := Rate.frame h.rate hFrame
    refine ⟨hRateHere.steady, fun snapshot hSnapshot => ?_, fun e hThrown => ⟨hError e hThrown, hRateHere.steady⟩⟩
    have hCarried := hOk snapshot hSnapshot
    have hSkip := hFrame.skip.trans h.skip
    have hPrepared : ∀ message ∈ (snapshot.bind AgentLoopTurnUpdate.messages).getD [], message.ticket = none := by
      intro message hMessage
      cases snapshot with
      | none => exact absurd hMessage not_mem_nil
      | some update => exact hOwn update hSnapshot message hMessage
    have hPoll : Safe surroundings Steady
        (fun polled u => Carried u polled ∧ Rate u polled ∧ u.skipInitialSteeringPoll = false) Failed
        (pollUnlessPending s.pendingMessages) v := by
      rw [pollUnlessPending]
      split_ifs with hEmpty
      · have hNone : Carried v [] := List.isEmpty_iff.mp hEmpty ▸ hCarried
        apply (safe_pollSteering hNone hRateHere.steady hSkip).mono (fun _ hHere => hHere) ?_ fun _ _ _ hThrown => hThrown
        exact fun polled u _ hPolls => ⟨hPolls.carried, hPolls.rate hRateHere.steady (hAsked.frame hFrame _),
          hPolls.skip.trans hSkip⟩
      · exact .ret hRateHere.steady ⟨hCarried, hRateHere, hSkip⟩
    apply Safe.bind
    apply hPoll.mono (fun _ hHere => hHere) ?_ fun _ _ _ hThrown => hThrown
    rintro polled u - ⟨hPolled, hPolledRate, hPolledSkip⟩
    have hStart : Quiet (.emit .turnStart) := trivial
    apply Safe.bind
    apply (safe_emit hStart hPolled hPolledRate).mono (fun _ hHere => hHere) ?_ fun _ _ _ hThrown => hThrown
    rintro _ x hSteady ⟨hAfter, hAfterFrame⟩
    exact .ret hSteady ⟨hAfter, Rate.frame hPolledRate hAfterFrame, hAfterFrame.skip.trans hPolledSkip, hPrepared⟩

/-- The end of a turn polls steering, or ends the run after a failed response or by the hook. -/
theorem safe_finishTurn (message : AssistantMessage) (toolResults : List ToolResultMessage)
    (h : Carried w []) (hSkip : w.skipInitialSteeringPoll = false) (hAsked : Asked w) (hRate : Steady w) :
    Safe surroundings Steady (fun r v => r.elim (fun s => Ready s v) fun e => Closed e v) Failed
      (finishTurn s message toolResults) w := by
  apply Safe.bind
  apply Safe.perform hRate
  rintro answer v ⟨u, hReacts, rfl⟩
  obtain ⟨hReact, hOk, hError⟩ := hReacts.keeps h
  generalize hEnds : decide (answer.toOption = some (some .end)) = ends
  have hFrame := hReact.trans (decide_frame u ends)
  have hSteady : Steady (u.decide ends) := Rate.frame (show Rate w ([] ++ []) from hRate) hFrame
  refine ⟨hSteady, fun decision hDecision => ?_, fun e hThrown => ⟨(hError e hThrown).decide _, hSteady⟩⟩
  have hCarried := (hOk decision hDecision).decide ends
  have hTurnEnd : Quiet (.emit (.turnEnd message toolResults)) := trivial
  obtain ⟨hEmitted, hEmittedFrame⟩ := hCarried.processEvents hTurnEnd
  have hEmit : Safe surroundings Steady (fun _ x => Carried x [] ∧ Frame (u.decide ends) [] x ∧
      Frame ((u.decide ends).processEvents (.turnEnd message toolResults)) [] x) Failed
      (emit (.turnEnd message toolResults)) (u.decide ends) :=
    safe_react (fun _ _ hAnswer => hAnswer) hEmitted hEmittedFrame hSteady
  apply Safe.bind
  apply hEmit.mono (fun _ hHere => hHere) ?_ fun _ _ _ hThrown => hThrown
  rintro _ x hSteadyHere ⟨hHere, hTo, hFrom⟩
  have hSkipHere := (hFrame.trans hTo).skip.trans hSkip
  have hAskedHere := hAsked.frame (hFrame.trans hTo)
  split_ifs with hEnd
  · have hAgentEnd : Quiet (.emit (.agentEnd s.newMessages)) := trivial
    have hClosed : x.failed = true ∨ x.hookEnded = true := by
      rcases hEnd with hStop | hStop | hDecided
      · refine .inl (hFrom.failed ?_)
        show (_ || decide (message.stopReason = .error) || _) = true
        rw [hStop]
        simp
      · refine .inl (hFrom.failed ?_)
        show (_ || _ || decide (message.stopReason = .aborted)) = true
        rw [hStop]
        simp
      · refine .inr (hTo.hookEnded ?_)
        show (u.hookEnded || ends) = true
        rw [← hEnds, hDecision, hDecided]
        exact or_true _
    apply Safe.bind
    apply (safe_emit hAgentEnd hHere hSteadyHere).mono (fun _ hHere => hHere) ?_ fun _ _ _ hThrown => hThrown
    rintro _ y hSteadyLast ⟨hLast, hLastFrame⟩
    exact .ret hSteadyLast ⟨hLast, hClosed.imp hLastFrame.failed hLastFrame.hookEnded⟩
  · apply Safe.bind
    apply (safe_pollSteering hHere hSteadyHere hSkipHere).mono (fun _ hHere => hHere) ?_ fun _ _ _ hThrown => hThrown
    intro polled y hSteadyLast hPolls
    refine .ret hSteadyLast ⟨hPolls.carried, hPolls.rate hSteadyHere (hAskedHere _), hPolls.skip.trans hSkipHere, nofun,
      fun _ => ⟨fun name => (hPolls.added name).trans (hAskedHere name), hPolls.empty⟩⟩

/-- From the request on a turn adds no queued message. -/
theorem safe_respond (s : LoopState) (h : Carried w []) (hSkip : w.skipInitialSteeringPoll = false) (hRate : Steady w) :
    Safe surroundings Steady (fun r v => r.elim (fun s => Ready s v) fun e => Closed e v) Failed (respond s) w := by
  have hStream : Safe surroundings Steady (fun _ v => Carried v [] ∧ v.skipInitialSteeringPoll = false ∧ Asked v) Failed
      (streamAssistantResponse s.context s.config) w := by
    have hQuiet : ∀ {α : Type} {o : Op α} {v : World}, Quiet o → Carried v [] → Steady v →
        v.skipInitialSteeringPoll = false →
        Safe surroundings Steady (fun _ u => Carried u [] ∧ u.skipInitialSteeringPoll = false) Failed (perform o) v := by
      intro α o v hQuiet hHere hSteady hSkipHere
      apply (safe_quiet (.perform hQuiet) hHere hSteady).mono (fun _ hHere => hHere)
      · exact fun _ _ _ hAfter => ⟨hAfter.1, hAfter.2.skip.trans hSkipHere⟩
      · exact fun _ _ hSteady hAfter => ⟨hAfter.1, hSteady⟩
    have hTransform : Quiet (.transformContext s.context.messages) := trivial
    apply Safe.bind
    apply (hQuiet hTransform h hRate hSkip).mono (fun _ hHere => hHere) ?_ fun _ _ _ hThrown => hThrown
    rintro messages v hSteady ⟨hHere, hSkipHere⟩
    have hConvert : Quiet (.convertToLlm messages) := trivial
    apply Safe.bind
    apply (hQuiet hConvert hHere hSteady hSkipHere).mono (fun _ hHere => hHere) ?_ fun _ _ _ hThrown => hThrown
    rintro llmMessages v hSteady ⟨hHere, hSkipHere⟩
    have hKey : Quiet .getApiKey := trivial
    apply Safe.bind
    apply (hQuiet hKey hHere hSteady hSkipHere).mono (fun _ hHere => hHere) ?_ fun _ _ _ hThrown => hThrown
    rintro _ v hSteady ⟨hHere, hSkipHere⟩
    apply Safe.bind
    apply Safe.perform hSteady
    intro answer u hReacts
    have hReset : Carried v.resetAdded [] := hHere.same (fun _ => ⟨rfl, rfl⟩) rfl rfl rfl
    have hResetSteady : Steady v.resetAdded := fun _ _ => Nat.zero_le 1
    obtain ⟨hFrame, hOk, hError⟩ := Reacts.keeps hReset hReacts
    have hAsked : Asked u := fun name => hFrame.added name
    have hSteadyHere : Steady u := Rate.frame (show Rate v.resetAdded ([] ++ []) from hResetSteady) hFrame
    refine ⟨hSteadyHere, fun _ hSame => ?_, fun e hThrown => ⟨hError e hThrown, hSteadyHere⟩⟩
    have hUses : (loop (streamPass s.config) (s.context, false)).Uses Quiet := .loop (quiet_streamPass s.config) _
    apply (safe_quiet hUses (hOk _ hSame) hSteadyHere).mono (fun _ hHere => hHere)
    · exact fun _ x _ hAfter => ⟨hAfter.1, hAfter.2.skip.trans (hFrame.skip.trans hSkipHere), hAsked.frame hAfter.2⟩
    · exact fun _ x hSteady hAfter => ⟨hAfter.1, hSteady⟩
  apply Safe.bind
  apply hStream.mono (fun _ hHere => hHere) ?_ fun _ _ _ hThrown => hThrown
  rintro ⟨context, message⟩ v hSteady ⟨hHere, hSkipHere, hAsked⟩
  simp only
  split_ifs
  · exact safe_finishTurn message [] hHere hSkipHere hAsked hSteady
  · apply Safe.bind
    apply (safe_quiet (quiet_runToolCalls _ _ _) hHere hSteady).mono (fun _ hHere => hHere)
    · rintro batch u hSteadyHere ⟨hAfter, hFrame⟩
      exact safe_finishTurn message batch.messages hAfter (hFrame.skip.trans hSkipHere) (hAsked.frame hFrame) hSteadyHere
    · exact fun _ u hSteady hAfter => ⟨hAfter.1, hSteady⟩

theorem safe_turn (h : Ready s w) :
    Safe surroundings Steady (fun r v => r.elim (fun s => Ready s v) fun e => Closed e v) Failed (turn s) w := by
  apply Safe.bind
  apply (safe_prepareTurn h).mono (fun _ hHere => hHere) ?_ fun _ _ _ hThrown => hThrown
  rintro ⟨s, prepared⟩ v - ⟨hCarried, hRate, hSkip, hOwn⟩
  have hSame : ∀ name, ofQueue name s.pendingMessages =
      ofQueue name (declareToolChanges s.context (prepared ++ s.pendingMessages)) := by
    intro name
    rw [ofQueue_declareToolChanges, ofQueue_append, ofQueue_own name hOwn, nil_append]
  apply Safe.bind
  apply (safe_deliver s (hCarried.congr hSame) (hRate.congr hSame)).mono (fun _ hHere => hHere) ?_ fun _ _ _ hThrown => hThrown
  rintro s u hSteady ⟨hDelivered, hFrame⟩
  have hPrepare : Quiet (.prepareRequest s.context s.config) := trivial
  apply Safe.bind
  apply (safe_quiet (.perform hPrepare) hDelivered hSteady).mono (fun _ hHere => hHere)
  · rintro update x hSteadyHere ⟨hHere, hFrameHere⟩
    exact safe_respond _ hHere (hFrameHere.skip.trans (hFrame.skip.trans hSkip)) hSteadyHere
  · exact fun _ x hSteady hAfter => ⟨hAfter.1, hSteady⟩

theorem safe_innerPass (h : Ready s w) :
    Safe surroundings Steady (fun r v => r.elim (fun s => Ready s v) fun e => Closed e v) Failed (innerPass s) w := by
  rw [innerPass]
  split_ifs with hMore
  · exact safe_turn h
  · rw [not_eq_true, or_eq_false_iff, not_eq_false', List.isEmpty_iff] at hMore
    obtain ⟨hAsked, hEmpty⟩ := h.later fun hFirst => by
      rw [h.first hFirst] at hMore
      exact nomatch hMore.1
    exact .ret h.rate.steady ⟨hMore.2, hMore.2 ▸ h.carried, h.skip, hAsked, hEmpty hMore.2⟩

/-- How a run ends that nothing threw in: a response failed, a hook ended it, or both
queues were empty at their last polls. -/
def Stopped (w : World) : Prop :=
  w.failed = true ∨ w.hookEnded = true ∨ ∀ name, (w.queue name).emptyAtPoll = true

/-- What a pass of the outer loop starts from. -/
def Restarts (s : LoopState) (w : World) : Prop :=
  Ready { s with hasMoreToolCalls := true } w

theorem safe_outerPass (h : Restarts s w) :
    Safe surroundings Steady (fun r v => r.elim (fun s => Restarts s v) fun _ => Carried v [] ∧ Stopped v) Failed
      (outerPass s) w := by
  apply Safe.bind
  have hLoop : Safe surroundings Steady Closed Failed (loop innerPass { s with hasMoreToolCalls := true }) w :=
    Safe.loop h fun _ _ hReady => safe_innerPass hReady
  apply hLoop.mono (fun _ hHere => hHere) ?_ fun _ _ _ hThrown => hThrown
  intro ending v hSteady hClosed
  cases ending with
  | stopped newMessages => exact .ret hSteady ⟨hClosed.1, hClosed.2.imp id .inl⟩
  | wouldStop s =>
    obtain ⟨hPending, hCarried, hSkip, hAsked, hEmpty⟩ := hClosed
    apply Safe.bind
    apply (safe_pollFollowUp hCarried hSteady).mono (fun _ hHere => hHere) ?_ fun _ _ _ hThrown => hThrown
    intro polled u hSteadyHere hPolls
    have hAskedHere : Asked u := fun name => (hPolls.added name).trans (hAsked name)
    have hEmptyHere : (u.queue .steering).emptyAtPoll = true := (hPolls.emptyAtPoll .steering nofun).trans hEmpty
    split_ifs with hFollowUp hContinue
    · refine .ret hSteadyHere ⟨hPolls.carried, hPolls.rate hSteady (hAsked _), hPolls.skip.trans hSkip, fun _ => rfl,
        fun _ => ⟨hAskedHere, fun _ => hEmptyHere⟩⟩
    all_goals
      rw [not_eq_true', not_eq_false, List.isEmpty_iff] at hFollowUp
      have hNone : Carried u [] := hFollowUp ▸ hPolls.carried
    · have hNoneHere : Carried u s.pendingMessages := hPending ▸ hNone
      have hRateHere : Rate u s.pendingMessages := hPending ▸ hSteadyHere
      exact .ret hSteadyHere ⟨hNoneHere, hRateHere, hPolls.skip.trans hSkip, fun _ => rfl,
        fun _ => ⟨hAskedHere, fun _ => hEmptyHere⟩⟩
    · have hEnd : Quiet (.emit (.agentEnd s.newMessages)) := trivial
      apply Safe.bind
      apply (safe_emit hEnd hNone hSteadyHere).mono (fun _ hHere => hHere) ?_ fun _ _ _ hThrown => hThrown
      rintro _ x hSteadyLast ⟨hLast, hFrame⟩
      refine .ret hSteadyLast ⟨hLast, .inr (.inr fun name => ?_)⟩
      rw [hFrame.emptyAtPoll]
      cases name with
      | steering => exact hEmptyHere
      | followUp => exact hPolls.empty hFollowUp

theorem safe_runLoop (context : AgentContext) (newMessages : List AgentMessage) (config : AgentLoopConfig) (h : Carried w [])
    (hRate : Steady w) (hFirst : w.skipInitialSteeringPoll = true ∨ (w.queue .steering).added = 0) :
    Safe surroundings Steady (fun _ v => Carried v [] ∧ Stopped v) Failed (runLoop context newMessages config) w := by
  have hPoll : Safe surroundings Steady
      (fun polled v => Carried v polled ∧ Rate v polled ∧ v.skipInitialSteeringPoll = false) Failed
      (perform .getSteeringMessages) w := by
    cases hSkip : w.skipInitialSteeringPoll with
    | false =>
      rw [hSkip] at hFirst
      have hAdded := hFirst.resolve_left nofun
      apply (safe_pollSteering h hRate hSkip).mono (fun _ hHere => hHere) ?_ fun _ _ _ hThrown => hThrown
      exact fun polled v _ hPolls => ⟨hPolls.carried, hPolls.rate hRate hAdded, hPolls.skip.trans hSkip⟩
    | true =>
      apply Safe.perform hRate
      rintro answer v ⟨u, hDisturbs, rfl, rfl⟩
      have hFrame := hDisturbs.frame.1
      have hSteady : Steady u := Rate.frame (show Rate w ([] ++ []) from hRate) hFrame
      have hCarried : Carried { u with skipInitialSteeringPoll := false } [] :=
        (h.disturbs hDisturbs).same (fun _ => ⟨rfl, rfl⟩) rfl rfl rfl
      rw [World.pollSteering, if_pos (hFrame.skip.trans hSkip)]
      refine ⟨hSteady, fun polled hSame => ?_, nofun⟩
      cases hSame
      exact ⟨hCarried, hSteady, rfl⟩
  apply Safe.bind
  apply hPoll.mono (fun _ hHere => hHere) ?_ fun _ _ _ hThrown => hThrown
  rintro polled v - ⟨hCarried, hRateHere, hSkip⟩
  exact Safe.loop (show Restarts _ v from ⟨hCarried, hRateHere, hSkip, fun _ => rfl, fun hLater => absurd rfl hLater⟩)
    fun _ _ hReady => safe_outerPass hReady

theorem safe_runAgentLoop (prompts : List AgentMessage) (context : AgentContext) (config : AgentLoopConfig)
    (h : Carried w prompts) (hRate : Rate w prompts)
    (hFirst : w.skipInitialSteeringPoll = true ∨ (w.queue .steering).added + (ofQueue .steering prompts).length = 0) :
    Safe surroundings Steady (fun _ v => Carried v [] ∧ Stopped v) Failed (runAgentLoop prompts context config) w := by
  have hSame : ∀ name, ofQueue name prompts = ofQueue name (declareToolChanges context prompts) :=
    fun name => (ofQueue_declareToolChanges name context prompts).symm
  have hAgentStart : Quiet (.emit .agentStart) := trivial
  have hTurnStart : Quiet (.emit .turnStart) := trivial
  apply Safe.bind
  apply (safe_emit hAgentStart (h.congr hSame) (hRate.congr hSame)).mono (fun _ hHere => hHere) ?_ fun _ _ _ hThrown => hThrown
  rintro _ v - ⟨hHere, hFrame⟩
  have hRateHere : Rate v (declareToolChanges context prompts) := Rate.frame (hRate.congr hSame) hFrame
  apply Safe.bind
  apply (safe_emit hTurnStart hHere hRateHere).mono (fun _ hHere => hHere) ?_ fun _ _ _ hThrown => hThrown
  rintro _ u - ⟨hNext, hNextFrame⟩
  have hRateNext : Rate u (declareToolChanges context prompts) := Rate.frame hRateHere hNextFrame
  apply Safe.bind
  apply (safe_emitMessages hNext hRateNext).mono (fun _ hHere => hHere) ?_ fun _ _ _ hThrown => hThrown
  rintro _ x hSteady ⟨hDelivered, hDeliveredFrame⟩
  have hAll := (hFrame.trans hNextFrame).trans hDeliveredFrame
  refine safe_runLoop _ _ _ hDelivered hSteady (hFirst.imp (fun hSkip => hAll.skip.trans hSkip) fun hAdded => ?_)
  rw [hAll.added, nil_append, nil_append, ← hSame]
  exact hAdded

theorem safe_runAgentLoopContinue (context : AgentContext) (config : AgentLoopConfig) (h : Carried w []) (hAsked : Asked w) :
    Safe surroundings Steady (fun _ v => Carried v [] ∧ Stopped v) Failed (runAgentLoopContinue context config) w := by
  have hRate : Steady w := fun name _ => by
    rw [hAsked name]
    exact Nat.zero_le 1
  have hAgentStart : Quiet (.emit .agentStart) := trivial
  have hTurnStart : Quiet (.emit .turnStart) := trivial
  rw [runAgentLoopContinue]
  split
  · exact .throw hRate ⟨h, hRate⟩
  · split_ifs
    · exact .throw hRate ⟨h, hRate⟩
    · apply Safe.bind
      apply (safe_emit hAgentStart h hRate).mono (fun _ hHere => hHere) ?_ fun _ _ _ hThrown => hThrown
      rintro _ v hSteady ⟨hHere, hFrame⟩
      apply Safe.bind
      apply (safe_emit hTurnStart hHere hSteady).mono (fun _ hHere => hHere) ?_ fun _ _ _ hThrown => hThrown
      rintro _ u hSteadyNext ⟨hNext, hNextFrame⟩
      exact safe_runLoop _ _ _ hNext hSteadyNext (.inr ((hAsked.frame hFrame).frame hNextFrame _))

/-! Runs of the agent. -/

/-- How a run ends. -/
def Over (w : World) : Prop :=
  w.threw = true ∨ Stopped w

theorem safe_handleRunFailure (error : JsString) (h : Carried w []) (hRate : Steady w) :
    Safe surroundings Steady (fun _ v => Carried v [] ∧ v.threw = true) (fun _ v => Carried v [] ∧ v.threw = true)
      (handleRunFailure error) w := by
  apply Safe.bind
  apply Safe.perform hRate
  rintro answer v ⟨hDisturbs, rfl⟩
  have hSteady : Steady v := Rate.frame (show Rate w ([] ++ []) from hRate) hDisturbs.frame.1
  refine ⟨hSteady, fun aborted _ => ?_, nofun⟩
  have hCarried := h.disturbs hDisturbs
  apply Safe.bind
  apply Safe.perform hSteady
  rintro answer u ⟨rfl, model, rfl⟩
  have hFailed : Carried { v with threw := true } [] := hCarried.same (fun _ => ⟨rfl, rfl⟩) rfl rfl rfl
  refine ⟨hSteady, fun _ _ => ?_, nofun⟩
  refine (safe_quiet ?_ hFailed hSteady).mono (fun _ hHere => hHere) (fun _ _ _ hAfter => ⟨hAfter.1, hAfter.2.threw rfl⟩)
    fun _ _ _ hAfter => ⟨hAfter.1, hAfter.2.threw rfl⟩
  exact .bind (quiet_emitMessage rfl) fun _ => .bind (.perform trivial) fun _ => .perform trivial

theorem safe_runWithLifecycle {executor : Prog (List AgentMessage)}
    (h : Safe surroundings Steady (fun _ v => Carried v [] ∧ Stopped v) Failed executor w) :
    Safe surroundings Steady (fun _ v => Carried v [] ∧ Over v) (fun _ v => Carried v []) (runWithLifecycle executor) w := by
  have hCaught : Safe surroundings Steady (fun _ v => Carried v [] ∧ Over v) (fun _ v => Carried v [] ∧ Over v)
      (tryCatch (do let _ ← executor; pure ()) handleRunFailure) w := by
    apply Safe.tryCatch
    apply Safe.bind
    apply h.mono (fun _ hHere => hHere)
    · exact fun _ v hSteady hEnd => .ret hSteady ⟨hEnd.1, .inr hEnd.2⟩
    · rintro error v hSteady ⟨hCarried, -⟩
      apply (safe_handleRunFailure error hCarried hSteady).mono (fun _ hHere => hHere)
      · exact fun _ _ _ hEnd => ⟨hEnd.1, .inl hEnd.2⟩
      · exact fun _ _ _ hEnd => ⟨hEnd.1, .inl hEnd.2⟩
  have hOutcome : Safe surroundings Steady (fun _ v => Carried v [] ∧ Over v) (fun _ v => Carried v [] ∧ Over v)
      (tryCatch (Except.ok <$> tryCatch (do let _ ← executor; pure ()) handleRunFailure) fun error =>
        pure (.error error)) w := by
    apply Safe.tryCatch
    apply Safe.handle
    apply hCaught.mono (fun _ hHere => hHere)
    · exact fun _ v hSteady hEnd => .ret hSteady hEnd
    · exact fun _ v hSteady hEnd => .throw hSteady (.ret hSteady hEnd)
  apply Safe.bind
  apply hOutcome.mono (fun _ hHere => hHere) ?_ fun _ _ _ hEnd => hEnd.1
  rintro outcome v hSteady ⟨hCarried, hOver⟩
  apply Safe.bind
  apply Safe.perform hSteady
  rintro answer u ⟨rfl, rfl⟩
  refine ⟨hSteady, fun _ _ => ?_, nofun⟩
  cases outcome with
  | ok _ => exact .ret hSteady ⟨hCarried, hOver⟩
  | error e => exact .throw hSteady hCarried

theorem Carried.beginRun (h : Carried w pending) (skip : Bool) : Carried (w.beginRun skip) pending :=
  h.same (fun _ => ⟨rfl, rfl⟩) rfl rfl rfl

theorem safe_runPromptMessages {skip : Bool} (h : Carried w messages) (hRate : Steady w)
    (hOne : ∀ name, (w.queue name).mode = .oneAtATime → (ofQueue name messages).length ≤ 1)
    (hFirst : skip = true ∨ ofQueue .steering messages = []) :
    Safe surroundings Steady (fun _ v => Carried v [] ∧ Over v) (fun _ v => Carried v [])
      (runPromptMessages messages skip) w := by
  apply safe_runWithLifecycle
  apply Safe.bind
  apply Safe.perform hRate
  rintro answer v ⟨rfl, config, rfl⟩
  have hSteady : Steady (w.beginRun skip) := fun _ _ => Nat.zero_le 1
  refine ⟨hSteady, fun _ _ => ?_, nofun⟩
  apply Safe.bind
  apply Safe.perform hSteady
  rintro answer u ⟨rfl, rfl⟩
  refine ⟨hSteady, fun context _ => ?_, nofun⟩
  have hRateHere : Rate (w.beginRun skip) messages := by
    intro name hMode
    show 0 + _ ≤ 1
    rw [Nat.zero_add]
    exact hOne name hMode
  refine safe_runAgentLoop messages context _ (h.beginRun skip) hRateHere (hFirst.imp id fun hNone => ?_)
  rw [hNone]
  rfl

theorem safe_prompt (h : Carried w []) (hRate : Steady w) (hOwn : ∀ message ∈ messages, message.ticket = none) :
    Safe surroundings Steady (fun _ v => Carried v [] ∧ Over v) (fun _ v => Carried v []) (prompt messages) w := by
  have hNone : ∀ name, ofQueue name messages = [] := fun name => ofQueue_own name hOwn
  refine safe_runPromptMessages (h.congr fun name => (hNone name).symm) hRate (fun name _ => ?_) (.inr (hNone _))
  rw [hNone]
  exact Nat.zero_le 1

theorem safe_continueRun (h : Carried w []) (hRate : Steady w) :
    Safe surroundings Steady (fun _ v => Carried v [] ∧ Over v) (fun _ v => Carried v []) continueRun w := by
  have hDrain : ∀ {v : World} (name : QueueName), Carried v [] → Steady v →
      Safe surroundings Steady (fun polled u => Polls v name polled u) (fun _ _ => False) (perform (.drain name)) v := by
    intro v name hHere hSteady
    apply Safe.perform hSteady
    rintro answer u ⟨rfl, rfl⟩
    have hPolls := Polls.of_drain hHere name
    refine ⟨fun other hMode => ?_, fun polled hSame => ?_, nofun⟩
    · rw [hPolls.added]
      exact hSteady other (hPolls.mode other ▸ hMode)
    · cases hSame
      exact hPolls
  have hOne : ∀ {v u : World} {name : QueueName} {polled : List AgentMessage}, Polls v name polled u →
      ∀ other, (u.queue other).mode = .oneAtATime → (ofQueue other polled).length ≤ 1 := by
    intro v u name polled hPolls other hMode
    by_cases hSame : other = name
    · subst hSame
      exact hPolls.one (hPolls.mode other ▸ hMode)
    · rw [hPolls.others other hSame]
      exact Nat.zero_le 1
  apply Safe.bind
  apply Safe.perform hRate
  rintro answer v ⟨rfl, rfl⟩
  refine ⟨hRate, fun context _ => ?_, nofun⟩
  split
  · exact .throw hRate h
  split_ifs
  · exact .throw hRate h
  · apply Safe.bind
    apply (hDrain .steering h hRate).mono (fun _ hHere => hHere) ?_ fun _ _ _ hFalse => hFalse.elim
    intro queuedSteering v hSteady hPolls
    split_ifs with hSteering
    · exact safe_runPromptMessages hPolls.carried hSteady (hOne hPolls) (.inl rfl)
    · rw [not_eq_true', not_eq_false, List.isEmpty_iff] at hSteering
      have hNone : Carried v [] := hSteering ▸ hPolls.carried
      apply Safe.bind
      apply (hDrain .followUp hNone hSteady).mono (fun _ hHere => hHere) ?_ fun _ _ _ hFalse => hFalse.elim
      intro queuedFollowUps u hSteadyHere hPollsHere
      split_ifs with hFollowUp
      · exact safe_runPromptMessages hPollsHere.carried hSteadyHere (hOne hPollsHere) (.inr (hPollsHere.others _ nofun))
      · rw [not_eq_true', not_eq_false, List.isEmpty_iff] at hFollowUp
        exact .throw hSteadyHere (hFollowUp ▸ hPollsHere.carried)
  · apply safe_runWithLifecycle
    apply Safe.bind
    apply Safe.perform hRate
    rintro answer u ⟨rfl, config, rfl⟩
    have hSteady : Steady (v.beginRun false) := fun _ _ => Nat.zero_le 1
    refine ⟨hSteady, fun _ _ => ?_, nofun⟩
    apply Safe.bind
    apply Safe.perform hSteady
    rintro answer u ⟨rfl, rfl⟩
    refine ⟨hSteady, fun context _ => ?_, nofun⟩
    exact safe_runAgentLoopContinue context _ (h.beginRun false) fun _ => rfl

/-- The states of an agent between runs: new, after messages came in, and after its runs. -/
inductive Reachable : World → Prop where
  | created (w : World)
      (hQueues : ∀ name, (w.queue name).messages = [] ∧ (w.queue name).drained = [] ∧ (w.queue name).added = 0)
      (hEnded : w.ended = []) (hThrew : w.threwUndelivered = false) : Reachable w
  | disturbed {w v : World} (earlier : Reachable w) (h : Disturbs w v) : Reachable v
  | prompted {w v : World} (earlier : Reachable w) {messages : List AgentMessage}
      (hOwn : ∀ message ∈ messages, message.ticket = none) {p : Prog Unit}
      (hRun : Reaches surroundings (prompt messages) w p v) (hOver : p = .ret () ∨ ∃ e, p = .throw e) : Reachable v
  | continued {w v : World} (earlier : Reachable w) {p : Prog Unit} (hRun : Reaches surroundings continueRun w p v)
      (hOver : p = .ret () ∨ ∃ e, p = .throw e) : Reachable v

theorem Reachable.carried (h : Reachable w) : Carried w [] ∧ Steady w := by
  have hRun : ∀ {w v : World} {program p : Prog Unit},
      Safe surroundings Steady (fun _ v => Carried v [] ∧ Over v) (fun _ v => Carried v []) program w →
      Reaches surroundings program w p v → (p = .ret () ∨ ∃ e, p = .throw e) → Carried v [] ∧ Steady v := by
    rintro w v program p hSafe hRun (hReturned | ⟨e, hThrown⟩)
    · exact ⟨((hSafe p v hRun).2.1 () hReturned).1, (hSafe p v hRun).1⟩
    · exact ⟨(hSafe p v hRun).2.2 e hThrown, (hSafe p v hRun).1⟩
  induction h with
  | created w hQueues hEnded hThrew =>
    have hNone : ∀ name, ofQueue name w.ended = [] := fun name => by
      rw [hEnded]
      rfl
    refine ⟨⟨fun name => ?_, fun name => ?_, ?_, ?_⟩, fun name _ => ?_⟩
    · rw [PendingMessageQueue.enqueued, (hQueues name).1, (hQueues name).2.1]
      rfl
    · rw [hNone]
      exact nil_sublist _
    · refine iff_of_true hThrew fun name => ?_
      rw [hNone, (hQueues name).2.1]
      rfl
    · rw [hEnded]
      exact nil_suffix
    · rw [(hQueues name).2.2]
      exact Nat.zero_le 1
  | disturbed _ hDisturbs ih =>
    exact ⟨ih.1.disturbs hDisturbs, Rate.frame (show Rate _ ([] ++ []) from ih.2) hDisturbs.frame.1⟩
  | prompted _ hOwn hReaches hOver ih => exact hRun (safe_prompt ih.1 ih.2 hOwn) hReaches hOver
  | continued _ hReaches hOver ih => exact hRun (safe_continueRun ih.1 ih.2) hReaches hOver

/-- Whether every queued message is in its queue or was delivered, once and in order. -/
def Kept (w : World) : Prop :=
  ∀ name, ofQueue name w.ended ++ (w.queue name).messages.map AgentMessage.strip =
    (w.queue name).enqueued.map AgentMessage.strip

theorem Carried.kept_iff (h : Carried w []) : Kept w ↔ w.threwUndelivered = false := by
  rw [h.lost]
  apply forall_congr'
  intro name
  have hOrder := h.order name
  rw [show ofQueue name [] = [] from rfl, append_nil] at hOrder ⊢
  rw [PendingMessageQueue.enqueued, map_append, append_left_inj]
  constructor
  · intro hSame
    rw [hSame, length_map]
  · intro hLength
    exact hOrder.eq_of_length (by rw [hLength, length_map])

/-- Between runs the queued messages are delivered in order, all of them that left their
queue exactly when nothing threw while one was on its way; and every run adds them one at
a time where so asked, and ends by itself only after both queues were found empty. -/
theorem queued_messages {w : World} (h : Reachable w) :
    (∀ name, ((w.queue name).enqueued.map AgentMessage.ticket).Nodup ∧
      (ofQueue name w.ended).Sublist ((w.queue name).enqueued.map AgentMessage.strip)) ∧
      w.ended.IsSuffix w.messages ∧ (Kept w ↔ w.threwUndelivered = false) ∧
      (∀ messages : List AgentMessage, (∀ message ∈ messages, message.ticket = none) →
        Safe surroundings Steady (fun _ v => Over v) (fun _ _ => True) (prompt messages) w) ∧
      Safe surroundings Steady (fun _ v => Over v) (fun _ _ => True) continueRun w := by
  obtain ⟨hCarried, hSteady⟩ := h.carried
  refine ⟨fun name => ⟨?_, ?_⟩, hCarried.transcript, hCarried.kept_iff, fun messages hOwn => ?_, ?_⟩
  · rw [hCarried.numbered name]
    exact List.Nodup.map (fun first second hSame => by simpa using hSame) nodup_range
  · have hOrder := hCarried.order name
    rw [show ofQueue name [] = [] from rfl, append_nil] at hOrder
    rw [PendingMessageQueue.enqueued, map_append]
    exact hOrder.trans (sublist_append_left _ _)
  · exact (safe_prompt hCarried hSteady hOwn).mono (fun _ hHere => hHere) (fun _ _ _ hEnd => hEnd.2) fun _ _ _ _ => trivial
  · exact (safe_continueRun hCarried hSteady).mono (fun _ hHere => hHere) (fun _ _ _ hEnd => hEnd.2) fun _ _ _ _ => trivial

/-! A listener that throws. -/

/-- An agent whose transcript ends with a response. -/
def answered : World where
  queue _ := ⟨.oneAtATime, [], [], false, 0⟩
  messages := [.ofAssistant ⟨[], .stop, none, none, ⟨.null, trivial⟩⟩]
  tools := []
  skipInitialSteeringPoll := false
  aborted := false
  ended := []
  threwUndelivered := false
  threw := false
  failed := false
  hookEnded := false

def steered : World :=
  answered.enqueue .steering (.other (js "user") ⟨.null, trivial⟩)

theorem steered_reachable : Reachable steered :=
  .disturbed (.created answered (fun _ => ⟨rfl, rfl, rfl⟩) rfl rfl) (.enqueue (.still answered) _ _)

theorem listeners_return (w : World) (event : AgentEvent) :
    surroundings (.emit event) w (.ok ()) (w.processEvents event) :=
  ⟨w.processEvents event, .still _, rfl⟩

theorem listener_throws (w : World) (event : AgentEvent) (e : JsString) :
    surroundings (.emit event) w (.error e) (w.processEvents event).raise :=
  ⟨w.processEvents event, .still _, rfl⟩

/-- The agent after `continue` took its queued message and a listener threw at once. -/
def forgotten : World :=
  let failed : World :=
    { ((steered.setQueue .steering (steered.queue .steering).drain).beginRun true).raise with threw := true }
  let message := failureMessage false (js "listener") ⟨.null, trivial⟩
  (failed.processEvents (.messageEnd (.ofAssistant message))).processEvents (.turnEnd message [])

theorem continue_forgets : Reaches surroundings continueRun steered (.ret ()) forgotten := by
  refine .head (.op ⟨rfl, rfl⟩) ?_
  refine .head (.op ⟨rfl, rfl⟩) ?_
  refine .head (.op ⟨rfl, ⟨js "model", none, none⟩, rfl⟩) ?_
  refine .head (.op ⟨rfl, rfl⟩) ?_
  refine .head (.op (listener_throws _ _ (js "listener"))) ?_
  refine .head (.op ⟨.still _, rfl⟩) ?_
  refine .head (.op ⟨rfl, ⟨.null, trivial⟩, rfl⟩) ?_
  refine .head (.op (listeners_return _ _)) ?_
  refine .head (.op (listeners_return _ _)) ?_
  refine .head (.op (listeners_return _ _)) ?_
  refine .head (.op (listeners_return _ _)) ?_
  refine .head (.op ⟨rfl, rfl⟩) ?_
  exact .refl _ _

theorem forgotten_reachable : Reachable forgotten :=
  .continued steered_reachable continue_forgets (.inl rfl)

theorem queued_messages_forgotten :
    (∀ name, ((forgotten.queue name).enqueued.map AgentMessage.ticket).Nodup ∧
      (ofQueue name forgotten.ended).Sublist ((forgotten.queue name).enqueued.map AgentMessage.strip)) ∧
      forgotten.ended.IsSuffix forgotten.messages ∧ (Kept forgotten ↔ forgotten.threwUndelivered = false) ∧
      (∀ messages : List AgentMessage, (∀ message ∈ messages, message.ticket = none) →
        Safe surroundings Steady (fun _ v => Over v) (fun _ _ => True) (prompt messages) forgotten) ∧
      Safe surroundings Steady (fun _ v => Over v) (fun _ _ => True) continueRun forgotten :=
  queued_messages forgotten_reachable

/-- A message that `continue` took is lost when a listener of the run's first event throws. -/
theorem queued_message_lost : ¬∀ w, Reachable w → Kept w := by
  intro hAll
  have hKept := hAll forgotten forgotten_reachable .steering
  exact nomatch (show [] = [AgentMessage.strip ⟨some ⟨.steering, 0⟩, .other (js "user") ⟨.null, trivial⟩⟩] from hKept)

end OctoberHarness.Agent
