import OctoberHarness.Agent.RequestCalls

/-! Every request of a run of the loop is well formed. -/
namespace OctoberHarness.Agent

open Effects List
open Effects.Program (perform loop)

variable {base : AgentContext} {w v : Run} {done : List Segment} {response : AssistantMessage} {level : JsString}
  {results : List ToolResultMessage}

def AgentLoopConfig.recordedLevel (config : AgentLoopConfig) : JsString :=
  config.reasoning.getD (js "off")

theorem told_result {opened : Option AgentMessage} (h : Told base ⟨done, none, opened, none⟩ w) :
    Safe collaborators (Sound base)
      (fun response v => Told base ⟨done, none, opened, some response⟩ v ∧
        ∀ toolCall ∈ response.toolCalls, outcomesOf toolCall.id v.outcomes = []) Thrown
      (perform .result) w := by
  apply Safe.perform ⟨_, h⟩
  rintro answer v ⟨u, hWaits, hAnswer⟩
  have hTold := h.waits hWaits
  cases answer with
  | error e =>
    obtain rfl : v = u := hAnswer
    exact ⟨⟨_, hTold⟩, nofun, fun _ _ => trivial⟩
  | ok response =>
    obtain ⟨hIds, rfl⟩ : _ ∧ v = u.respond response := hAnswer
    have hAfter := hTold.respond rfl hIds
    refine ⟨⟨_, hAfter⟩, fun own hSame => ?_, nofun⟩
    cases hSame
    exact ⟨hAfter, hTold.unfinished hIds⟩

theorem told_endResponse {opened : AgentMessage} (h : Told base ⟨done, none, some opened, some response⟩ w)
    (hOpened : opened.isAssistant = true) (hNone : ∀ toolCall ∈ response.toolCalls, outcomesOf toolCall.id w.outcomes = []) :
    Safe collaborators (Sound base) (fun _ v => Running base done response level [] response.toolCalls [] v) Thrown
      (emit (.messageEnd (.ofAssistant (answer response level)))) w := by
  apply Safe.perform ⟨_, h⟩
  intro _ v hWaits
  have hKeeps : Keeps base (w.log (.messageEnd (.ofAssistant (answer response level)))) v := .waits hWaits
  have hOutcomes : v.outcomes = w.outcomes := hKeeps.outcomes.trans ((outcomes_log w _).trans (append_nil _))
  have hTold : Told base (.running done response level []) v := by
    apply hKeeps.told
    apply h.messageEnd rfl (.inr ⟨hOpened, rfl⟩)
    · show (done ++ [_]).flatMap Segment.messages = (done ++ []).flatMap Segment.messages ++ [_]
      rw [append_nil, flatMap_append]
      rfl
    · show (done ++ [_]).filterMap Segment.response? ++ [] = (done ++ []).filterMap Segment.response? ++ [response]
      rw [append_nil, append_nil, filterMap_append]
      rfl
    · intro segment hSegment
      rcases mem_append.mp hSegment with hOld | hNew
      · exact h.cut segment (mem_append_left _ hOld)
      · rw [← Option.some.inj (Option.mem_toList.mp hNew)]
        exact ⟨[], nil_prefix, .nil⟩
    · exact h.whole
    · rfl
  exact ⟨⟨_, hTold⟩, fun _ _ => ⟨hTold, rfl, .nil, hOutcomes ▸ hNone⟩, fun _ _ => trivial⟩

theorem told_startMessage {fresh : Option AssistantMessage} (message : AgentMessage) (h : Told base ⟨done, none, none, fresh⟩ w) :
    Safe collaborators (Sound base)
      (fun _ v => Told base ⟨done, none, some message, fresh⟩ v ∧ v.outcomes = w.outcomes ∧ v.started = w.started) Thrown
      (emit (.messageStart message)) w := by
  apply Safe.perform ⟨_, h⟩
  intro _ v hWaits
  have hKeeps : Keeps base (w.log (.messageStart message)) v := .waits hWaits
  have hTold := hKeeps.told _ (h.messageStart rfl message)
  exact ⟨⟨_, hTold⟩, fun _ _ => ⟨hTold, hKeeps.outcomes.trans ((outcomes_log w _).trans (append_nil _)), hKeeps.started⟩,
    fun _ _ => trivial⟩

/-- What a finished response leaves. -/
def Finished (base : AgentContext) (done : List Segment) (context : AgentContext) (level : JsString)
    (finished : AgentContext × AssistantMessage) (w : Run) : Prop :=
  ∃ response, finished = (context.push (.ofAssistant (answer response level)), answer response level) ∧
    Running base done response level [] response.toolCalls [] w

/-- While a response streams its partial message may be the last of the context. -/
inductive Streaming (base : AgentContext) (done : List Segment) (context : AgentContext) : AgentContext × Bool → Run → Prop where
  | before {w : Run} (h : Told base (.rest done) w) (hStarted : w.started = false) : Streaming base done context (context, false) w
  | within {w : Run} (opened : AgentMessage) (partialMessage : AssistantMessage) (h : Told base ⟨done, none, some opened, none⟩ w)
      (hOpened : opened.isAssistant = true) (hStarted : w.started = true) :
      Streaming base done context (context.push (.ofAssistant partialMessage), true) w

variable {context : AgentContext} {s : LoopState} {newMessages : List AgentMessage}

theorem Streaming.sound {s : AgentContext × Bool} (h : Streaming base done context s w) : Sound base w := by
  cases h with
  | before h => exact ⟨_, h⟩
  | within _ _ h => exact ⟨_, h⟩

theorem Streaming.waits {s : AgentContext × Bool} (h : Streaming base done context s w)
    (hWaits : Waits w v) : Streaming base done context s v := by
  have hKeeps : Keeps base w v := .waits hWaits
  cases h with
  | before h hStarted => exact .before (hKeeps.told _ h) (hKeeps.started.trans hStarted)
  | within opened partialMessage h hOpened hStarted =>
    exact .within opened partialMessage (hKeeps.told _ h) hOpened (hKeeps.started.trans hStarted)

theorem replaceLast_push (context : AgentContext) (first second : AgentMessage) :
    (context.push first).replaceLast second = context.push second := by
  show ({ context with messages := (context.messages ++ [first]).dropLast ++ [second] } : AgentContext) = _
  rw [dropLast_concat]
  rfl

variable (config : AgentLoopConfig)

theorem told_finishResponse {s : AgentContext × Bool} (h : Streaming base done context s w) :
    Safe collaborators (Sound base) (Finished base done context config.recordedLevel) Thrown (finishResponse s.1 config s.2) w := by
  cases h with
  | before h =>
    apply (told_result h).andThen
    rintro response v - ⟨hTold, hNone⟩
    apply (told_startMessage (.ofAssistant (answer response config.recordedLevel)) hTold).andThen
    rintro _ u - ⟨hOpened, hOutcomes, -⟩
    apply (told_endResponse hOpened rfl (hOutcomes ▸ hNone)).andThen
    exact fun _ x hSound hRunning => .ret hSound ⟨response, rfl, hRunning⟩
  | within opened partialMessage h hOpened =>
    apply (told_result h).andThen
    rintro response v - ⟨hTold, hNone⟩
    apply (told_endResponse hTold hOpened hNone).andThen
    intro _ x hSound hRunning
    refine .ret hSound ⟨response, ?_, hRunning⟩
    rw [replaceLast_push]
    rfl

theorem told_streamPass {s : AgentContext × Bool} (h : Streaming base done context s w) :
    Safe collaborators (Sound base)
      (fun r v => r.elim (fun s => Streaming base done context s v) fun finished => Finished base done context config.recordedLevel finished v)
      Thrown (streamPass config s) w := by
  obtain ⟨here, addedPartial⟩ := s
  have hFinish : ∀ v, Streaming base done context (here, addedPartial) v →
      Safe collaborators (Sound base)
        (fun (r : (AgentContext × Bool) ⊕ (AgentContext × AssistantMessage)) u =>
          r.elim (fun s => Streaming base done context s u) fun finished => Finished base done context config.recordedLevel finished u)
        Thrown (finishResponse here config addedPartial >>= fun finished => pure (.inr finished)) v := by
    intro v hHere
    apply (told_finishResponse config hHere).andThen
    exact fun finished u hSound hFinished => .ret hSound hFinished
  apply Safe.bind
  apply Safe.perform h.sound
  rintro event v ⟨u, hWaits, hAnswer⟩
  have hHere := h.waits hWaits
  match event with
  | .error e =>
    obtain rfl : v = u := hAnswer
    exact ⟨hHere.sound, nofun, fun _ _ => trivial⟩
  | .ok (some (.start partialMessage)) =>
    obtain ⟨hNotStarted, rfl⟩ : u.started = false ∧ v = u.start := hAnswer
    cases hHere with
    | within _ _ _ _ hStarted =>
      rw [hStarted] at hNotStarted
      exact nomatch hNotStarted
    | before hTold =>
      have hStart : Told base (.rest done) u.start := { hTold with }
      refine ⟨⟨_, hStart⟩, fun event hSame => ?_, nofun⟩
      cases hSame
      apply (told_startMessage (.ofAssistant partialMessage) hStart).andThen
      rintro _ x hSound ⟨hOpened, -, hStarted⟩
      exact .ret hSound (.within _ partialMessage hOpened rfl hStarted)
  | .ok (some (.update partialMessage)) =>
    obtain rfl : v = u := hAnswer
    refine ⟨hHere.sound, fun event hSame => ?_, nofun⟩
    cases hSame
    cases hHere with
    | before hTold hStarted => exact .ret ⟨_, hTold⟩ (.before hTold hStarted)
    | within opened earlier hTold hOpened hStarted =>
      have hUpdate : Silent (.emit (.messageUpdate partialMessage)) := rfl
      apply (told_silent hUpdate hTold).andThen
      rintro _ x hSound ⟨hKeeps, -⟩
      rw [replaceLast_push]
      exact .ret hSound (.within opened partialMessage (hKeeps.told _ hTold) hOpened (hKeeps.started.trans hStarted))
  | .ok (some .done) =>
    obtain rfl : v = u := hAnswer
    refine ⟨hHere.sound, fun event hSame => ?_, nofun⟩
    cases hSame
    exact hFinish v hHere
  | .ok (some .error) =>
    obtain rfl : v = u := hAnswer
    refine ⟨hHere.sound, fun event hSame => ?_, nofun⟩
    cases hSame
    exact hFinish v hHere
  | .ok none =>
    obtain rfl : v = u := hAnswer
    refine ⟨hHere.sound, fun event hSame => ?_, nofun⟩
    cases hSame
    exact hFinish v hHere

/-- The context a request goes by. -/
structure Asks (base : AgentContext) (done : List Segment) (context : AgentContext) : Prop where
  messages : context.messages = base.messages ++ done.flatMap Segment.messages
  tools : context.tools = base.tools
  declared : (getCurrentTools context.messages).Perm (context.tools.map toToolDeclaration)

theorem Told.wellFormed (h : Told base (.rest done) w) (hAsks : Asks base done context) :
    WellFormed base ⟨context, w.responses, w.outcomes, w.aborted⟩ where
  tools := hAsks.tools
  declared := hAsks.declared
  messages := by
    have hResponses := h.responses
    rw [segments_rest] at hResponses
    refine ⟨done, hAsks.messages, (append_nil _).symm.trans hResponses, fun segment hSegment => ?_, h.whole⟩
    exact h.cut segment ((segments_rest done).symm ▸ hSegment)

theorem told_stream (h : Told base (.rest done) w) (hAsks : Asks base done context) :
    Safe collaborators (Sound base) (Finished base done context config.recordedLevel) Thrown
      (streamAssistantResponse context config) w := by
  have hTransform : Silent (.transformContext context.messages) := trivial
  apply (told_silent hTransform h).andThen
  rintro messages v - ⟨hFirst, -⟩
  have hConvert : Silent (.convertToLlm messages) := trivial
  apply (told_silent hConvert (hFirst.told _ h)).andThen
  rintro llmMessages u - ⟨hSecond, -⟩
  have hKey : Silent .getApiKey := trivial
  apply (told_silent hKey (hSecond.told _ (hFirst.told _ h))).andThen
  rintro _ x - ⟨hThird, -⟩
  have hTold := hThird.told _ (hSecond.told _ (hFirst.told _ h))
  apply Safe.bind
  apply Safe.perform ⟨_, hTold⟩
  intro answer y hWaits
  have hKeeps : Keeps base (x.request context) y := .waits hWaits
  have hAfter := hKeeps.told _ (hTold.request (hTold.wellFormed hAsks))
  refine ⟨⟨_, hAfter⟩, fun _ _ => ?_, fun _ _ => trivial⟩
  exact Safe.loop (show Streaming base done context (context, false) y from .before hAfter hKeeps.started)
    fun _ _ hStreaming => told_streamPass config hStreaming

/-- Between two turns the context and the new messages are what was told. -/
structure Standing (base : AgentContext) (done : List Segment) (s : LoopState) (w : Run) : Prop where
  told : Told base (.rest done) w
  messages : s.context.messages = base.messages ++ done.flatMap Segment.messages
  tools : s.context.tools = base.tools
  newMessages : s.newMessages = done.flatMap Segment.messages

theorem Standing.keeps (h : Standing base done s w) (hKeeps : Keeps base w v) : Standing base done s v :=
  { h with told := hKeeps.told _ h.told }

/-- Nothing has started that has not ended, and the new messages are what has ended. -/
structure Accounted (base : AgentContext) (newMessages : List AgentMessage) (w : Run) : Prop where
  told : ∃ stage, Told base stage w ∧ stage.opened = none
  ended : newMessages = w.ended

theorem Accounted.keeps (h : Accounted base newMessages w) (hKeeps : Keeps base w v) :
    Accounted base newMessages v where
  told := h.told.imp fun stage hTold => ⟨hKeeps.told stage hTold.1, hTold.2⟩
  ended := h.ended.trans hKeeps.ended.symm

theorem Standing.accounted (h : Standing base done s w) : Accounted base s.newMessages w where
  told := ⟨_, h.told, rfl⟩
  ended := by rw [h.newMessages, h.told.ended, segments_rest]

/-- What a turn or the inner loop goes on or ends with. -/
def Goes (base : AgentContext) : LoopState ⊕ InnerEnd → Run → Prop
  | .inl s, w => ∃ done, Standing base done s w
  | .inr (.stopped newMessages), w => Accounted base newMessages w
  | .inr (.wouldStop s), w => ∃ done, Standing base done s w

theorem Ran.stands (h : Ran base done response level results w) :
    Told base (.rest (done ++ [.answered response level results])) w := by
  have hSegments : (Stage.rest (done ++ [.answered response level results])).segments =
      (Stage.running done response level results).segments := segments_rest _
  refine { h.told with ended := ?_, responses := ?_, cut := ?_, whole := ?_ }
  · rw [hSegments]
    exact h.told.ended
  · rw [hSegments]
    exact h.told.responses
  · rw [hSegments]
    exact h.told.cut
  · intro hGoing segment hSegment
    rcases mem_append.mp hSegment with hOld | hNew
    · exact h.told.whole hGoing segment hOld
    · rw [mem_singleton.mp hNew]
      exact h.whole hGoing

theorem told_finishTurn (message : AssistantMessage) (toolResults : List ToolResultMessage) (h : Accounted base s.newMessages w)
    (hStanding : message.stopReason ≠ .error → message.stopReason ≠ .aborted → ∃ done, Standing base done s w) :
    Safe collaborators (Sound base) (Goes base) Thrown (finishTurn s message toolResults) w := by
  obtain ⟨stage, hTold, -⟩ := h.told
  have hFinish : Silent (.finishTurn ⟨message, toolResults, s.context, s.newMessages⟩) := trivial
  apply (told_silent hFinish hTold).andThen
  rintro decision v - ⟨hFirst, -⟩
  have hTurnEnd : Silent (.emit (.turnEnd message toolResults)) := rfl
  apply (told_silent hTurnEnd (hFirst.told _ hTold)).andThen
  rintro _ u - ⟨hSecond, -⟩
  have hKeeps := hFirst.trans hSecond
  split_ifs with hEnd
  · have hAgentEnd : Silent (.emit (.agentEnd s.newMessages)) := rfl
    apply (told_silent hAgentEnd (hKeeps.told _ hTold)).andThen
    rintro _ x hSound ⟨hThird, -⟩
    exact .ret hSound (h.keeps (hKeeps.trans hThird))
  · rw [not_or, not_or] at hEnd
    obtain ⟨done, hHere⟩ := hStanding hEnd.1 hEnd.2.1
    have hPoll : Silent .getSteeringMessages := trivial
    apply (told_silent hPoll (hKeeps.told _ hTold)).andThen
    rintro polled x hSound ⟨hThird, -⟩
    have hLast := hHere.keeps (hKeeps.trans hThird)
    exact .ret hSound ⟨done, hLast.told, hLast.messages, hLast.tools, hLast.newMessages⟩

theorem told_respond (h : Standing base done s w) (hAsks : Asks base done s.context) :
    Safe collaborators (Sound base) (Goes base) Thrown (respond s) w := by
  apply (told_stream s.config h.told hAsks).andThen
  rintro ⟨context, message⟩ v - ⟨response, hSame, hRunning⟩
  cases hSame
  -- The response with the results that came of its calls, in the transcript.
  have hAdded : ∀ results u, Ran base done response s.config.recordedLevel results u →
      ∀ hasMoreToolCalls, Standing base (done ++ [.answered response s.config.recordedLevel results])
        { ({ s with
            context := s.context.push (.ofAssistant (answer response s.config.recordedLevel))
            newMessages := s.newMessages ++ [.ofAssistant (answer response s.config.recordedLevel)]
            hasMoreToolCalls := false } : LoopState).addResults results with hasMoreToolCalls } u := by
    intro results u hRan hasMoreToolCalls
    refine ⟨hRan.stands, ?_, h.tools, ?_⟩
    · show (s.context.messages ++ [_]) ++ results.map .ofToolResult = _
      rw [h.messages, flatMap_append, flatMap_singleton, append_assoc, append_assoc]
      rfl
    · show (s.newMessages ++ [_]) ++ results.map .ofToolResult = _
      rw [h.newMessages, flatMap_append, flatMap_singleton, append_assoc]
      rfl
  simp only
  split_ifs with hNone
  · apply told_finishTurn
    · refine ⟨⟨_, hRunning.told, rfl⟩, ?_⟩
      rw [hRunning.told.ended, h.newMessages, Stage.segments, flatMap_append]
      rfl
    · intro hError hAborted
      have hCalls : response.toolCalls = [] :=
        isEmpty_iff.mp ((hNone.resolve_left hError).resolve_left hAborted)
      rw [hCalls] at hRunning
      have hStanding := hAdded [] v hRunning.ran false
      refine ⟨_, hStanding.told, ?_, hStanding.tools, ?_⟩
      · exact (append_nil _).symm.trans hStanding.messages
      · exact (append_nil _).symm.trans hStanding.newMessages
  · apply (told_runToolCalls _ s.config hRunning).andThen
    intro batch u _ hRan
    have hStanding := hAdded batch.messages u hRan (!batch.terminate)
    exact told_finishTurn _ _ hStanding.accounted fun _ _ => ⟨_, hStanding⟩

theorem flatMap_queued (messages : List AgentMessage) : (messages.map Segment.queued).flatMap Segment.messages = messages := by
  induction messages with
  | nil => rfl
  | cons message rest ih => exact congrArg (message :: ·) ih

theorem told_deliver (messages : List AgentMessage) (h : Standing base done s w) :
    Safe collaborators (Sound base) (fun s v => Standing base (done ++ messages.map .queued) s v) Thrown (deliver messages s) w := by
  induction messages generalizing done s w with
  | nil =>
    rw [map_nil, append_nil]
    exact .ret ⟨_, h.told⟩ h
  | cons message rest ih =>
    apply (told_emitQueued message h.told).andThen
    intro _ v _ hTold
    rw [map_cons, append_cons]
    apply ih
    refine ⟨hTold, ?_, h.tools, ?_⟩
    · show s.context.messages ++ [message] = _
      rw [h.messages, flatMap_append, append_assoc]
      rfl
    · show s.newMessages ++ [message] = _
      rw [h.newMessages, flatMap_append]
      rfl

theorem Standing.update (h : Standing base done s w) {update : Option AgentLoopTurnUpdate}
    (hContext : ∀ own, update = some own → own.context = none) : Standing base done (update.elim s s.update) w := by
  cases update with
  | none => exact h
  | some own =>
    have hSame : (s.update own).context = s.context := by
      rw [LoopState.update, hContext own rfl]
      rfl
    exact ⟨h.told, hSame ▸ h.messages, hSame ▸ h.tools, h.newMessages⟩

theorem told_prepareTurn (h : Standing base done s w) :
    Safe collaborators (Sound base) (fun prepared v => Standing base done prepared.1 v) Thrown (prepareTurn s) w := by
  rw [prepareTurn]
  split
  · exact .ret ⟨_, h.told⟩ h
  · rename_i turn _
    have hPrepare : Silent (.prepareNextTurn turn) := trivial
    apply (told_silent hPrepare h.told).andThen
    rintro snapshot v hSound ⟨hFirst, -, hContext⟩
    have hPoll : Safe collaborators (Sound base) (fun _ u => Keeps base v u) Thrown (pollUnlessPending s.pendingMessages) v := by
      rw [pollUnlessPending]
      split_ifs
      · have hSteering : Silent .getSteeringMessages := trivial
        exact (told_silent hSteering (hFirst.told _ h.told)).mono (fun _ hHere => hHere) (fun _ _ _ hAfter => hAfter.1)
          fun _ _ _ hThrown => hThrown
      · exact .ret hSound (.waits (.inl rfl))
    apply hPoll.andThen
    intro polled u _ hSecond
    have hStart : Silent (.emit .turnStart) := rfl
    apply (told_silent hStart (hSecond.told _ (hFirst.told _ h.told))).andThen
    rintro _ x hSoundLast ⟨hThird, -⟩
    have hUpdated := (h.keeps ((hFirst.trans hSecond).trans hThird)).update fun own hSame => hContext own (congrArg Except.ok hSame)
    exact .ret hSoundLast ⟨hUpdated.told, hUpdated.messages, hUpdated.tools, hUpdated.newMessages⟩

/-- The executable tools have distinct names. -/
def UniqueTools (base : AgentContext) : Prop :=
  ((base.tools.map toToolDeclaration).map Tool.name).Nodup

theorem told_turn (hNames : UniqueTools base) (h : Standing base done s w) :
    Safe collaborators (Sound base) (Goes base) Thrown (turn s) w := by
  apply (told_prepareTurn h).andThen
  rintro ⟨s, prepared⟩ v - hPrepared
  apply (told_deliver _ hPrepared).andThen
  intro t u _ hDelivered
  have hMessages : t.context.messages =
      s.context.messages ++ declareToolChanges s.context (prepared ++ s.pendingMessages) := by
    rw [hDelivered.messages, hPrepared.messages, flatMap_append, flatMap_queued, append_assoc]
  have hTools : s.context.tools = base.tools := hPrepared.tools
  have hNamesHere : ((s.context.tools.map toToolDeclaration).map Tool.name).Nodup := by
    rw [hTools]
    exact hNames
  have hDeclared := getCurrentTools_declareToolChanges hNamesHere (prepared ++ s.pendingMessages)
  have hAsks : Asks base (done ++ (declareToolChanges s.context (prepared ++ s.pendingMessages)).map .queued) t.context := by
    refine ⟨hDelivered.messages, hDelivered.tools, ?_⟩
    rw [hMessages, hDelivered.tools, ← hTools]
    exact hDeclared
  have hRequest : Silent (.prepareRequest t.context t.config) := trivial
  apply (told_silent hRequest hDelivered.told).andThen
  rintro update x - ⟨hKeeps, -, hContext⟩
  have hStanding : Standing base (done ++ (declareToolChanges s.context (prepared ++ s.pendingMessages)).map .queued)
      { t with pendingMessages := [] } x :=
    ⟨hKeeps.told _ hDelivered.told, hDelivered.messages, hDelivered.tools, hDelivered.newMessages⟩
  have hUpdated := hStanding.update fun own hSame => hContext own (congrArg Except.ok hSame)
  refine told_respond hUpdated ⟨hUpdated.messages, hUpdated.tools, ?_⟩
  rw [hUpdated.messages, hUpdated.tools, ← hDelivered.messages, ← hDelivered.tools]
  exact hAsks.declared

theorem told_innerPass (hNames : UniqueTools base) (h : Standing base done s w) :
    Safe collaborators (Sound base) (Goes base) Thrown (innerPass s) w := by
  rw [innerPass]
  split_ifs
  · exact told_turn hNames h
  · exact .ret ⟨_, h.told⟩ ⟨done, h⟩

/-- What a pass of the inner or the outer loop starts from. -/
def Starts (base : AgentContext) (s : LoopState) (w : Run) : Prop :=
  ∃ done, Standing base done s w

theorem told_outerPass (hNames : UniqueTools base) (h : Starts base s w) :
    Safe collaborators (Sound base) (fun r v => r.elim (fun s => Starts base s v) fun newMessages => Accounted base newMessages v)
      Thrown (outerPass s) w := by
  obtain ⟨done, hStanding⟩ := h
  have hLoop : Safe collaborators (Sound base) (fun ending v => Goes base (.inr ending) v) Thrown
      (loop innerPass { s with hasMoreToolCalls := true }) w := by
    apply Safe.loop (show Starts base { s with hasMoreToolCalls := true } w from
      ⟨done, hStanding.told, hStanding.messages, hStanding.tools, hStanding.newMessages⟩)
    rintro t v ⟨done, hHere⟩
    apply (told_innerPass hNames hHere).mono (fun _ hHere => hHere) ?_ fun _ _ _ hThrown => hThrown
    rintro (t | ending) u - hGoes
    · exact hGoes
    · exact hGoes
  apply hLoop.andThen
  intro ending v hSound hGoes
  cases ending with
  | stopped newMessages => exact .ret hSound hGoes
  | wouldStop t =>
    obtain ⟨done, hHere⟩ := hGoes
    have hPoll : Silent .getFollowUpMessages := trivial
    apply (told_silent hPoll hHere.told).andThen
    rintro followUps u hSoundHere ⟨hKeeps, -⟩
    have hNext := hHere.keeps hKeeps
    split_ifs
    · exact .ret hSoundHere ⟨done, hNext.told, hNext.messages, hNext.tools, hNext.newMessages⟩
    · exact .ret hSoundHere ⟨done, hNext.told, hNext.messages, hNext.tools, hNext.newMessages⟩
    · have hEnd : Silent (.emit (.agentEnd t.newMessages)) := rfl
      apply (told_silent hEnd hNext.told).andThen
      rintro _ x hSoundLast ⟨hLast, -⟩
      exact .ret hSoundLast (hNext.keeps hLast).accounted

theorem told_runLoop (hNames : UniqueTools base) (hTold : Told base (.rest done) w)
    (hMessages : context.messages = base.messages ++ done.flatMap Segment.messages) (hTools : context.tools = base.tools)
    (hNew : newMessages = done.flatMap Segment.messages) :
    Safe collaborators (Sound base) (Accounted base) Thrown (runLoop context newMessages config) w := by
  have hPoll : Silent .getSteeringMessages := trivial
  apply (told_silent hPoll hTold).andThen
  rintro pendingMessages v - ⟨hKeeps, -⟩
  exact Safe.loop (show Starts base _ v from ⟨done, hKeeps.told _ hTold, hMessages, hTools, hNew⟩)
    fun _ _ hStarts => told_outerPass hNames hStarts

theorem told_runAgentLoop (prompts : List AgentMessage) (config : AgentLoopConfig) (hNames : UniqueTools base) (aborted : Bool) :
    Safe collaborators (Sound base) (Accounted base) Thrown (runAgentLoop prompts base config) (idle aborted) := by
  have hIdle := told_idle base aborted
  have hAgentStart : Silent (.emit .agentStart) := rfl
  apply (told_silent hAgentStart hIdle).andThen
  rintro _ v - ⟨hFirst, -⟩
  have hTurnStart : Silent (.emit .turnStart) := rfl
  apply (told_silent hTurnStart (hFirst.told _ hIdle)).andThen
  rintro _ u - ⟨hSecond, -⟩
  apply (told_emitMessages (declareToolChanges base prompts) (hSecond.told _ (hFirst.told _ hIdle))).andThen
  intro _ x _ hTold
  have hMessages := flatMap_queued (declareToolChanges base prompts)
  apply told_runLoop config hNames hTold
  · rw [nil_append, hMessages]
  · rfl
  · rw [nil_append, hMessages]

theorem told_runAgentLoopContinue (hNames : UniqueTools base) (aborted : Bool) :
    Safe collaborators (Sound base) (Accounted base) Thrown (runAgentLoopContinue base config) (idle aborted) := by
  have hIdle := told_idle base aborted
  rw [runAgentLoopContinue]
  split
  · exact .throw ⟨_, hIdle⟩ trivial
  · split_ifs
    · exact .throw ⟨_, hIdle⟩ trivial
    · have hAgentStart : Silent (.emit .agentStart) := rfl
      apply (told_silent hAgentStart hIdle).andThen
      rintro _ v - ⟨hFirst, -⟩
      have hTurnStart : Silent (.emit .turnStart) := rfl
      apply (told_silent hTurnStart (hFirst.told _ hIdle)).andThen
      rintro _ u - ⟨hSecond, -⟩
      exact told_runLoop config hNames (hSecond.told _ (hFirst.told _ hIdle)) (append_nil _).symm rfl rfl

/-! What is told of every run. -/

/-- At every moment of a run. -/
structure Orderly (base : AgentContext) (w : Run) : Prop where
  requests : ∀ request ∈ w.requests, WellFormed base request
  truncated : ∀ response ∈ w.responses, response.stopReason = .length → ∀ toolCall ∈ response.toolCalls,
    ∀ executed ∈ w.executed, executed.id ≠ toolCall.id
  paired : ∃ opened, Paired w.events opened
  added : ∃ segments : List Segment, w.ended = segments.flatMap Segment.messages ∧
    segments.filterMap Segment.response? <+: w.responses ∧ ∀ segment ∈ segments, segment.Cut w.outcomes

theorem response_eq {responses : List AssistantMessage} (hIds : ((responses.flatMap AssistantMessage.toolCalls).map ToolCall.id).Nodup)
    {first second : AssistantMessage} (hFirst : first ∈ responses) (hSecond : second ∈ responses) {one other : ToolCall}
    (hOne : one ∈ first.toolCalls) (hOther : other ∈ second.toolCalls) (hId : one.id = other.id) : first = second := by
  induction responses with
  | nil => exact absurd hFirst not_mem_nil
  | cons head rest ih =>
    rw [flatMap_cons, map_append, nodup_append] at hIds
    have hRest : ∀ {response : AssistantMessage} {toolCall : ToolCall}, response ∈ rest → toolCall ∈ response.toolCalls →
        toolCall.id ∈ (rest.flatMap AssistantMessage.toolCalls).map ToolCall.id := fun hMem hCall =>
      mem_map_of_mem (mem_flatMap.mpr ⟨_, hMem, hCall⟩)
    rcases mem_cons.mp hFirst with rfl | hFirstRest
    · rcases mem_cons.mp hSecond with rfl | hSecondRest
      · rfl
      · exact absurd hId (hIds.2.2 _ (mem_map_of_mem hOne) _ (hRest hSecondRest hOther))
    · rcases mem_cons.mp hSecond with rfl | hSecondRest
      · exact absurd hId.symm (hIds.2.2 _ (mem_map_of_mem hOther) _ (hRest hFirstRest hOne))
      · exact ih hIds.2.1 hFirstRest hSecondRest

theorem Sound.orderly (h : Sound base w) : Orderly base w := by
  obtain ⟨stage, hTold⟩ := h
  refine ⟨hTold.requests, ?_, ⟨_, hTold.paired⟩, ⟨stage.segments, hTold.ended, ⟨_, hTold.responses⟩, hTold.cut⟩⟩
  intro response hResponse hLength toolCall hCall executed hExecuted hId
  obtain ⟨other, hOther, hOwn, hStop⟩ := hTold.executed executed hExecuted
  rw [response_eq hTold.ids hOther hResponse hOwn hCall hId] at hStop
  exact hStop hLength

/-- At the end of a run. -/
structure Complete (newMessages : List AgentMessage) (w : Run) : Prop where
  ended : newMessages = w.ended
  paired : Paired w.events none

theorem Accounted.complete (h : Accounted base newMessages w) : Complete newMessages w where
  ended := h.ended
  paired := by
    obtain ⟨stage, hTold, hClosed⟩ := h.told
    exact hClosed ▸ hTold.paired

theorem results_unordered {first second : List FinalizedToolCallOutcome} (hSame : first.Perm second)
    {toolCalls : List ToolCall} {results others : List ToolResultMessage}
    (hResults : Forall₂ (ResultOf first) toolCalls results) (hOthers : Forall₂ (ResultOf second) toolCalls others) :
    results = others := by
  induction hResults generalizing others with
  | nil =>
    cases hOthers
    rfl
  | cons hHead _ ih =>
    cases hOthers with
    | cons hOther hRest =>
      obtain ⟨finalized, rfl, hOwn, rfl⟩ := hHead
      obtain ⟨other, -, hOwnOther, rfl⟩ := hOther
      have hPerm : (outcomesOf finalized.toolCall.id first).Perm (outcomesOf finalized.toolCall.id second) := hSame.filter _
      rw [hOwn, hOwnOther, singleton_perm_singleton] at hPerm
      rw [hPerm, ih hRest]

theorem runToolCalls_unordered {config : AgentLoopConfig}
    (h : Running base done response level [] response.toolCalls [] w) {first second : ExecutedToolCallBatch} {v u : Run}
    (hFirst : Reaches collaborators (runToolCalls context (answer response level) config) w (.ret first) v)
    (hSecond : Reaches collaborators (runToolCalls context (answer response level) config) w (.ret second) u)
    (hGoing : v.aborted = false ∧ u.aborted = false) (hSame : v.outcomes.Perm u.outcomes) : first.messages = second.messages := by
  have hSafe := told_runToolCalls context config h
  have hRan := (hSafe _ _ hFirst).2.1 _ rfl
  have hRanOther := (hSafe _ _ hSecond).2.1 _ rfl
  exact results_unordered hSame (hRan.whole hGoing.1) (hRanOther.whole hGoing.2)

def calling : AssistantMessage :=
  ⟨[.toolCall ⟨js "call", js "read", ⟨.null, trivial⟩⟩], .toolUse, none, none, ⟨.null, trivial⟩⟩

/-- No messages and no tools. -/
def blank : AgentContext :=
  ⟨[], []⟩

def plain : AgentLoopConfig :=
  ⟨js "model", none, none⟩

/-- Every assistant message is followed by one result for each of its calls. -/
def Answered (messages : List AgentMessage) : Prop :=
  ∀ before message after, messages = before ++ message :: after → ∀ response, message.body = .assistant response →
    ∃ (results : List ToolResultMessage) (rest : List AgentMessage), after = results.map AgentMessage.ofToolResult ++ rest ∧
      results.map ToolResultMessage.toolCallId = response.toolCalls.map ToolCall.id

/-- The run that was prompted with a response, at its first request. -/
def prompted : Run :=
  ((((((idle false).log .agentStart).log .turnStart).log (.messageStart (.ofAssistant calling))).log
    (.messageEnd (.ofAssistant calling))).request ⟨[.ofAssistant calling], []⟩)

theorem returns_log (w : Run) (event : AgentEvent) : collaborators (.emit event) w (.ok ()) (w.log event) :=
  .inl rfl

theorem prompted_reached : ∃ q, Reaches collaborators (runAgentLoop [.ofAssistant calling] blank plain) (idle false) q prompted := by
  have hSteering : ∀ w, collaborators .getSteeringMessages w (.ok []) w := fun _ => .inl rfl
  have hPrepare : ∀ w context config, collaborators (.prepareRequest context config) w (.ok none) w :=
    fun _ _ _ => ⟨.inl rfl, nofun⟩
  have hTransform : ∀ w messages, collaborators (.transformContext messages) w (.ok messages) w := fun _ _ => .inl rfl
  have hConvert : ∀ w messages, collaborators (.convertToLlm messages) w (.ok messages) w := fun _ _ => .inl rfl
  have hKey : ∀ w, collaborators .getApiKey w (.ok ()) w := fun _ => .inl rfl
  have hAsk : ∀ w context config messages, collaborators (.streamFunction context config messages) w (.ok ()) (w.request context) :=
    fun _ _ _ _ => .inl rfl
  apply Reaches.after (.op (returns_log _ _))
  apply Reaches.after (.op (returns_log _ _))
  apply Reaches.after (.op (returns_log _ _))
  apply Reaches.after (.op (returns_log _ _))
  apply Reaches.after (.op (hSteering _))
  apply Reaches.after (.pass (.pass (.op (hPrepare _ _ _))))
  apply Reaches.after (.pass (.pass (.op (hTransform _ _))))
  apply Reaches.after (.pass (.pass (.op (hConvert _ _))))
  apply Reaches.after (.pass (.pass (.op (hKey _))))
  apply Reaches.after (.pass (.pass (.op (hAsk _ _ _ _))))
  exact ⟨_, .refl _ _⟩

end OctoberHarness.Agent
