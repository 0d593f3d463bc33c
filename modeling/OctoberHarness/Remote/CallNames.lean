import OctoberHarness.Remote.CallRuns

/-! Which method a call runs: its index is resolved against the names the provider
has its hold bound to when the call arrives. -/
namespace OctoberHarness.Remote

open List OrderedMap

variable {limit : Nat} {c next : Consumer} {p q : Provider} {w after : World}

/-- The call waits in the window or is on its way. -/
def Outstanding (c : Consumer) (call : Call) : Prop :=
  call ∈ c.waiting ∨ ∃ id, .call id call ∈ c.wire

def Provider.names (p : Provider) (hold : Nat) : Option Names :=
  (p.entries.lookup hold).bind HoldState.names

/-! Only a call makes a call outstanding. -/

/-- No call is outstanding that was not before. -/
def Fewer (c next : Consumer) : Prop :=
  ∀ call, Outstanding next call → Outstanding c call

theorem Fewer.refl (c : Consumer) : Fewer c c := fun _ h => h

theorem Fewer.trans {last : Consumer} (h : Fewer c next) (hNext : Fewer next last) : Fewer c last := fun call hCall =>
  h call (hNext call hCall)

theorem Fewer.of_same (hWaiting : ∀ call ∈ next.waiting, call ∈ c.waiting) (hWire : next.wire = c.wire) :
    Fewer c next := by
  intro call hCall
  rcases hCall with hWaits | ⟨id, hSent⟩
  · exact .inl (hWaiting call hWaits)
  · exact .inr ⟨id, hWire ▸ hSent⟩

variable {request : Request}

theorem Fewer.send (c : Consumer) (hCall : ∀ id call, request ≠ .call id call) :
    Fewer c (c.send request) := by
  rw [Consumer.send]
  split_ifs
  · intro call hOut
    rcases hOut with hWaits | ⟨id, hSent⟩
    · exact .inl hWaits
    · rcases mem_append.mp hSent with hOld | hNew
      · exact .inr ⟨id, hOld⟩
      · exact absurd (mem_singleton.mp hNew).symm (hCall id call)
  · exact Fewer.refl c

theorem Fewer.drainAll (queue : List Call) (c : Consumer) : Fewer { c with waiting := queue } (c.drainAll queue) := by
  induction queue generalizing c with
  | nil => exact Fewer.refl _
  | cons call rest ih =>
    rw [Consumer.drainAll]
    split_ifs
    · exact Fewer.refl _
    · refine Fewer.trans ?_ (ih (c.take call))
      obtain ⟨-, -, -, -, requests, hWire, hRequests⟩ := take_frame c call
      intro other hOut
      rcases hOut with hWaits | ⟨id, hSent⟩
      · exact .inl (mem_cons_of_mem _ hWaits)
      · rw [show ({ c.take call with waiting := rest } : Consumer).wire = c.wire ++ requests from hWire] at hSent
        rcases mem_append.mp hSent with hOld | hNew
        · exact .inr ⟨id, hOld⟩
        · obtain ⟨-, rfl⟩ := Request.call.inj (hRequests _ hNew)
          exact .inl mem_cons_self

theorem Fewer.drain (c : Consumer) : Fewer c c.drain :=
  Fewer.drainAll c.waiting c

theorem Fewer.freed (c : Consumer) : Fewer c c.freed :=
  (Fewer.of_same (fun _ h => h) rfl).trans (Fewer.drain { c with inFlight := c.inFlight - 1 })

theorem Fewer.drop (c : Consumer) (id : Nat) (settlement : Settlement) : Fewer c (c.drop id settlement) :=
  Fewer.of_same (fun _ h => h) rfl

theorem Fewer.cancel (c : Consumer) (key : Nat) : Fewer c (c.cancel key) := by
  rw [Consumer.cancel]
  split_ifs
  · exact Fewer.of_same (fun call hCall => (mem_filter.mp hCall).1) rfl
  · split
    · rename_i id _ _
      have hAbort : ∀ other call, Request.abort id ≠ .call other call := fun _ _ hCall => by cases hCall
      exact ((Fewer.drop c id .cancelled).trans (Fewer.send _ hAbort)).trans (Fewer.freed _)
    · exact Fewer.refl c

theorem Fewer.removeHold (c : Consumer) (hold : Nat) (settlement : Settlement) : Fewer c (c.removeHold hold settlement) :=
  Fewer.of_same (fun _ hCall => (mem_filter.mp hCall).1) rfl

theorem Fewer.failAll (hold : Nat) (ids : List Nat) (c : Consumer) : Fewer c (c.failAll hold ids) := by
  induction ids generalizing c with
  | nil => exact Fewer.refl c
  | cons id rest ih => exact ((Fewer.drop c id (.ended hold)).trans (Fewer.freed _)).trans (ih _)

theorem Fewer.forget (c : Consumer) (hold : Nat) : Fewer c (c.forget hold) := by
  have hErased : Fewer c { c with entries := erase c.entries hold } := Fewer.of_same (fun _ h => h) rfl
  exact (hErased.trans (Fewer.removeHold _ hold (.ended hold))).trans (Fewer.failAll hold _ _)

theorem Fewer.receive (c : Consumer) (notice : Notice) : Fewer c (c.receive notice) := by
  have hStarts : ∀ hold, Fewer c (c.starts hold) := by
    intro hold
    rw [Consumer.starts]
    split
    · exact (Fewer.removeHold c hold (.rebinding hold)).trans (Fewer.of_same (fun _ h => h) rfl)
    · exact Fewer.refl c
  cases notice with
  | bound hold names =>
    rw [Consumer.receive]
    split_ifs
    · exact Fewer.of_same (fun _ h => h) rfl
    · exact Fewer.refl c
  | loading hold => exact hStarts hold
  | failed hold => exact hStarts hold
  | gone hold =>
    rw [Consumer.receive]
    split_ifs
    · exact Fewer.forget c hold
    · exact Fewer.refl c
  | reply id =>
    rw [Consumer.receive, Consumer.reply]
    split_ifs
    · exact (Fewer.drop c id (.reply id)).trans (Fewer.freed _)
    · exact Fewer.refl c

/-- A call of a live object that its bound variant has becomes outstanding, with the
index of its name there. -/
theorem outstanding_call {hold : Nat} {name : String} {call : Call} (h : Outstanding (c.call hold name) call) :
    Outstanding c call ∨ ∃ names, c.entries.lookup hold = some ⟨true, some names⟩ ∧ name ∈ names ∧
      call.hold = hold ∧ call.method = names.idxOf name ∧ call.name = name := by
  rw [Consumer.call] at h
  split at h
  case h_2 => exact .inl h
  rename_i names hLookup
  split_ifs at h with hName
  case neg => exact .inl h
  have hNew : call = ⟨c.submitted.length, hold, names.idxOf name, name⟩ → ∃ names,
      c.entries.lookup hold = some ⟨true, some names⟩ ∧ name ∈ names ∧
        call.hold = hold ∧ call.method = names.idxOf name ∧ call.name = name := by
    rintro rfl
    exact ⟨names, hLookup, hName, rfl, rfl, rfl⟩
  rw [Consumer.submit] at h
  split_ifs at h
  · obtain ⟨-, -, -, -, requests, hWire, hRequests⟩ :=
      take_frame { c with submitted := c.submitted ++ [hold] } ⟨c.submitted.length, hold, names.idxOf name, name⟩
    have hWaiting : (({ c with submitted := c.submitted ++ [hold] } : Consumer).take
        ⟨c.submitted.length, hold, names.idxOf name, name⟩).waiting = c.waiting := by
      rw [Consumer.take, Consumer.transmit, Consumer.send]
      split_ifs <;> rfl
    rcases h with hWaits | ⟨id, hSent⟩
    · exact .inl (.inl (hWaiting ▸ hWaits))
    · rw [hWire] at hSent
      rcases mem_append.mp hSent with hOld | hFresh
      · exact .inl (.inr ⟨id, hOld⟩)
      · exact .inr (hNew (Request.call.inj (hRequests _ hFresh)).2)
  · rcases h with hWaits | hSent
    · rcases mem_append.mp hWaits with hOld | hFresh
      · exact .inl (.inl hOld)
      · exact .inr (hNew (mem_singleton.mp hFresh))
    · exact .inl (.inr hSent)

/-! Only a binding names methods. -/

/-- The provider's step names nothing anew, runs nothing and finds no method missing. -/
structure Calm (p q : Provider) : Prop where
  names : ∀ hold names, q.names hold = some names → p.names hold = some names
  runs : q.runs = p.runs
  errors : .noMethod ∈ q.errors → .noMethod ∈ p.errors

theorem Calm.refl (p : Provider) : Calm p p :=
  ⟨fun _ _ h => h, rfl, fun h => h⟩

theorem Calm.trans {last : Provider} (h : Calm p q) (hNext : Calm q last) : Calm p last :=
  ⟨fun hold names hNames => h.names hold names (hNext.names hold names hNames), hNext.runs.trans h.runs,
    fun hError => h.errors (hNext.errors hError)⟩

theorem Calm.send (p : Provider) (notice : Notice) : Calm p (p.send notice) := by
  rw [Provider.send]
  split_ifs <;> exact ⟨fun _ _ h => h, rfl, fun h => h⟩

theorem Calm.setState (p : Provider) (hold : Nat) {state : HoldState}
    (hNames : ∀ names, state.names = some names → p.names hold = some names) : Calm p (p.setState hold state) := by
  refine ⟨fun other names hOther => ?_, rfl, fun h => h⟩
  rw [Provider.names, Provider.setState, lookup_set] at hOther
  split_ifs at hOther with hSame
  · rw [hSame]
    exact hNames names hOther
  · exact hOther

theorem Calm.reply (p : Provider) (id : Nat) : Calm p (p.reply id) := by
  rw [Provider.reply]
  split_ifs
  · have hErased : Calm p { p with calls := erase p.calls id } := ⟨fun _ _ h => h, rfl, fun h => h⟩
    exact hErased.trans (Calm.send _ (.reply id))
  · exact Calm.refl p

theorem Calm.replyAll (ids : List Nat) (p : Provider) : Calm p (p.replyAll ids) := by
  induction ids generalizing p with
  | nil => exact Calm.refl p
  | cons id rest ih => exact (Calm.reply p id).trans (ih _)

theorem Calm.forget (p : Provider) (hold : Nat) : Calm p (p.forget hold) := by
  refine ⟨fun other names hOther => ?_, rfl, fun h => h⟩
  rw [Provider.names, Provider.forget, lookup_erase] at hOther
  split_ifs at hOther with hSame
  · cases hOther
  · exact hOther

theorem Calm.closed (p : Provider) : Calm p p.closed :=
  ⟨fun _ _ h => (nomatch h), rfl, fun h => h⟩

theorem Calm.fail (p : Provider) {error : CallError} (hError : error ≠ .noMethod) : Calm p (p.fail error) := by
  refine ⟨fun _ _ h => (nomatch h), rfl, fun h => ?_⟩
  rcases mem_append.mp h with hOld | hNew
  · exact hOld
  · exact absurd (mem_singleton.mp hNew).symm hError

theorem Calm.receive (hCall : ∀ id call, request ≠ .call id call) (arguments : Arguments) :
    Calm p (p.receive limit arguments request) := by
  cases request with
  | hold hold =>
    rw [Provider.receive]
    split_ifs with hHeld
    · exact Calm.fail p (by simp)
    · refine ⟨fun other names hOther => ?_, rfl, fun h => h⟩
      rw [Provider.names, OrderedMap.lookup_append] at hOther
      rw [Provider.names]
      cases hLookup : p.entries.lookup other with
      | some state =>
        rw [hLookup] at hOther
        exact hOther
      | none =>
        rw [hLookup, Option.none_or, OrderedMap.lookup_cons] at hOther
        split_ifs at hOther <;> cases hOther
  | release hold => exact Calm.forget p hold
  | call id call => exact absurd rfl (hCall id call)
  | abort id => exact ⟨fun _ _ h => h, rfl, fun h => h⟩

/-! Calls run the methods they name. -/

/-- What the condition asks of a step, `w` before it: a call that goes out has, in the
names the provider answers by, its name at its index; and a binding keeps the index
of every call of its hold that waits or is on its way. -/
structure Agrees (w after : World) : Prop where
  calls : ∀ hold name names bound, after.consumer = w.consumer.call hold name →
    w.consumer.entries.lookup hold = some ⟨true, some names⟩ → name ∈ names → w.provider.names hold = some bound →
      bound[names.idxOf name]? = some name
  binds : ∀ hold previous names, w.provider.entries.lookup hold = some (.binding previous) →
    after.provider = w.provider.bind hold names → ∀ call, Outstanding w.consumer call → call.hold = hold →
      names[call.method]? = some call.name

/-- The worlds of runs whose every step meets the condition. -/
inductive AgreedRun (limit : Nat) : World → Prop where
  | start : AgreedRun limit .start
  | step {w after : World} (earlier : AgreedRun limit w) (hStep : Step limit w after) (hAgrees : Agrees w after) :
      AgreedRun limit after

theorem AgreedRun.reachable (h : AgreedRun limit w) : Reachable limit w := by
  induction h with
  | start => exact .start
  | step _ hStep _ ih => exact ih.step hStep

/-- Every outstanding call has its name at its index, and every call that ran ran it. -/
structure Named (w : World) : Prop where
  outstanding : ∀ call names, Outstanding w.consumer call → w.provider.names call.hold = some names →
    names[call.method]? = some call.name
  runs : ∀ run ∈ w.provider.runs, run.2 = run.1.name
  errors : .noMethod ∉ w.provider.errors

theorem Named.of_calm (h : Named w) (hConsumer : Fewer w.consumer after.consumer) (hProvider : Calm w.provider after.provider) :
    Named after :=
  { outstanding := fun call names hOut hNames =>
      h.outstanding call names (hConsumer call hOut) (hProvider.names call.hold names hNames)
    runs := by
      intro run hRun
      rw [hProvider.runs] at hRun
      exact h.runs run hRun
    errors := fun hError => h.errors (hProvider.errors hError) }

/-- What the provider makes of a call whose index has its name. -/
theorem serve_named {id : Nat} {call : Call} {arguments : Arguments} {state : HoldState}
    (hNames : ∀ names, state.names = some names → names[call.method]? = some call.name) :
    (p.serve id call arguments state = { p.admitCall id call with runs := p.runs ++ [(call, call.name)] }) ∨
      p.serve id call arguments state = p.send (.reply id) ∨
        (state = .relayed ∧ p.serve id call arguments state = p.admitCall id call) ∨
          (arguments = .malformed ∧ p.serve id call arguments state = p.fail .malformed) := by
  have hBound : ∀ bound : HoldState, bound ≠ .relayed → ∀ names, bound.names = some names →
      names[call.method]? = some call.name →
      p.serve id call arguments bound = { p.admitCall id call with runs := p.runs ++ [(call, call.name)] } ∨
        p.serve id call arguments bound = p.send (.reply id) ∨
          (arguments = .malformed ∧ p.serve id call arguments bound = p.fail .malformed) := by
    intro bound hServed names hNames hName
    cases bound with
    | relayed => exact absurd rfl hServed
    | _ =>
      simp only [Provider.serve, hNames, hName]
      cases arguments with
      | tooLarge => exact .inr (.inl rfl)
      | malformed => exact .inr (.inr ⟨rfl, rfl⟩)
      | fits => exact .inl rfl
  by_cases hRelayed : state = .relayed
  · rw [hRelayed]
    cases arguments with
    | tooLarge => exact .inr (.inl rfl)
    | malformed => exact .inr (.inr (.inl ⟨rfl, rfl⟩))
    | fits => exact .inr (.inr (.inl ⟨rfl, rfl⟩))
  cases hState : state.names with
  | none =>
    have hRefused : p.serve id call arguments state = p.send (.reply id) := by
      cases state with
      | relayed => exact absurd rfl hRelayed
      | _ => simp only [Provider.serve, hState]
    exact .inr (.inl hRefused)
  | some names =>
    rcases hBound state hRelayed names hState (hNames names hState) with hRun | hRefused | hMalformed
    · exact .inl hRun
    · exact .inr (.inl hRefused)
    · exact .inr (.inr (.inr hMalformed))

variable {rest : List Request}

/-- A call arrives at a provider whose names have its name at its index. -/
theorem Named.arrives {id : Nat} {call : Call} (h : Named w)
    (hWire : w.consumer.wire = .call id call :: rest) (arguments : Arguments) :
    Named ⟨{ w.consumer with wire := rest }, w.provider.call limit id call arguments⟩ := by
  have hOut : Outstanding w.consumer call := .inr ⟨id, hWire ▸ mem_cons_self⟩
  have hFewer : Fewer w.consumer { w.consumer with wire := rest } := by
    intro other hOther
    refine hOther.imp_right ?_
    rintro ⟨key, hSent⟩
    exact ⟨key, hWire ▸ mem_cons_of_mem _ hSent⟩
  have hCalm : ∀ {q : Provider}, Calm w.provider q → Named ⟨{ w.consumer with wire := rest }, q⟩ := fun hQuiet =>
    h.of_calm hFewer hQuiet
  rw [Provider.call]
  by_cases hUsed : (w.provider.calls.lookup id).isSome = true
  · rw [if_pos hUsed]
    exact hCalm (Calm.fail _ (by simp))
  rw [if_neg hUsed]
  cases hHold : w.provider.entries.lookup call.hold with
  | none => exact hCalm (Calm.refl _)
  | some state =>
    simp only
    split_ifs with hFull
    · exact hCalm (Calm.fail _ (by simp))
    have hNames : ∀ names, state.names = some names → names[call.method]? = some call.name := by
      intro names hState
      refine h.outstanding call names hOut ?_
      rw [Provider.names, hHold]
      exact hState
    rcases @serve_named w.provider id call arguments state hNames with
      hRun | hRefused | ⟨-, hRelayed⟩ | ⟨-, hMalformed⟩
    · rw [hRun]
      refine ⟨fun other names hOther hOtherNames => h.outstanding other names (hFewer other hOther) hOtherNames, ?_,
        h.errors⟩
      intro run hMem
      rcases mem_append.mp hMem with hOld | hNew
      · exact h.runs run hOld
      · rw [mem_singleton.mp hNew]
    · rw [hRefused]
      exact hCalm (Calm.send _ _)
    · rw [hRelayed]
      exact hCalm ⟨fun _ _ hOther => hOther, rfl, fun hError => hError⟩
    · rw [hMalformed]
      exact hCalm (Calm.fail _ (by simp))

theorem Named.delivers (h : Named w) (hWire : w.consumer.wire = request :: rest)
    (hCall : ∀ id call, request ≠ .call id call) (arguments : Arguments) :
    Named ⟨{ w.consumer with wire := rest }, w.provider.receive limit arguments request⟩ := by
  refine h.of_calm ?_ (Calm.receive hCall arguments)
  intro other hOther
  exact hOther.imp_right fun ⟨key, hSent⟩ => ⟨key, hWire ▸ mem_cons_of_mem _ hSent⟩

theorem Named.step (h : Named w) (hStep : Step limit w after) (hAgrees : Agrees w after) : Named after := by
  have hSame : Calm w.provider w.provider := Calm.refl _
  have hStill : Fewer w.consumer w.consumer := Fewer.refl _
  cases hStep with
  | opened hLimit hOpen =>
    have hDrained := Fewer.drain { w.consumer with limit := limit }
    exact h.of_calm hDrained hSame
  | attach hOpen =>
    have hAsked : ∀ id call, Request.hold w.consumer.nextHold ≠ .call id call := fun _ _ hCall => nomatch hCall
    have hSent := Fewer.send { w.consumer with
      nextHold := w.consumer.nextHold + 1
      entries := w.consumer.entries ++ [(w.consumer.nextHold, ⟨false, none⟩)] } hAsked
    exact h.of_calm hSent hSame
  | call hold name =>
    refine ⟨fun call bound hOut hBound => ?_, h.runs, h.errors⟩
    rcases outstanding_call hOut with hOld | ⟨names, hLookup, hName, rfl, hMethod, hCallName⟩
    · exact h.outstanding call bound hOld hBound
    · rw [hMethod, hCallName]
      exact hAgrees.calls _ name names bound rfl hLookup hName hBound
  | cancel key => exact h.of_calm (Fewer.cancel _ key) hSame
  | release hold hHeld =>
    have hAsked : ∀ id call, Request.release hold ≠ .call id call := fun _ _ hCall => nomatch hCall
    exact h.of_calm ((Fewer.send _ hAsked).trans (Fewer.forget _ hold)) hSame
  | consumerCloses hOpen => exact h.of_calm (Fewer.of_same (fun _ hCall => absurd hCall not_mem_nil) rfl) hSame
  | @toProvider request rest arguments hOpen hWire =>
    cases request with
    | call id call => exact h.arrives hWire arguments
    | hold hold => exact h.delivers hWire (fun _ _ hCall => nomatch hCall) arguments
    | release hold => exact h.delivers hWire (fun _ _ hCall => nomatch hCall) arguments
    | abort id => exact h.delivers hWire (fun _ _ hCall => nomatch hCall) arguments
  | toConsumer hOpen hWire => exact h.of_calm (Fewer.receive _ _) ⟨fun _ _ hNames => hNames, rfl, fun hError => hError⟩
  | providerCloses => exact h.of_calm hStill (Calm.closed _)
  | answers id => exact h.of_calm hStill (Calm.reply _ id)
  | lives hold hState => exact h.of_calm hStill (Calm.setState _ hold nofun)
  | @binds hold previous names hState =>
    refine ⟨fun call bound hOut hBound => ?_, ?_, ?_⟩
    · have hNames : (w.provider.setState hold (.bound names)).names call.hold = some bound := by
        rw [Provider.names, ← (send_tables _ (.bound hold names)).1]
        exact hBound
      rw [Provider.names, Provider.setState, lookup_set] at hNames
      split_ifs at hNames with hHold
      · rw [← Option.some.inj hNames]
        exact hAgrees.binds hold previous names hState rfl call hOut hHold
      · exact h.outstanding call bound hOut hNames
    · intro run hRun
      have hRuns := (Calm.send (w.provider.setState hold (.bound names)) (.bound hold names)).runs
      exact h.runs run (hRuns ▸ hRun)
    · exact fun hError => h.errors ((Calm.send (w.provider.setState hold (.bound names)) _).errors hError)
  | @swaps hold names hState =>
    refine h.of_calm hStill (Calm.setState _ hold fun other hOther => ?_)
    rw [Provider.names, hState]
    exact hOther
  | @unbinds hold notice state hNotice hState hServed =>
    have hUnbound : Calm (w.provider.rejectCalls hold) ((w.provider.rejectCalls hold).setState hold .unbound) :=
      Calm.setState _ hold nofun
    exact h.of_calm hStill (((Calm.replyAll _ _).trans hUnbound).trans (Calm.send _ notice))
  | relays hold hState => exact h.of_calm hStill (Calm.setState _ hold nofun)
  | upstreamDrops hold hState => exact h.of_calm hStill ((Calm.replyAll _ _).trans (Calm.send _ _))
  | notifies hState hNotice => exact h.of_calm hStill (Calm.send _ _)
  | forwards hold names hState => exact h.of_calm hStill (Calm.send _ _)
  | ends hold hHeld => exact h.of_calm hStill ((Calm.forget _ hold).trans (Calm.send _ _))

theorem AgreedRun.named (h : AgreedRun limit w) : Named w := by
  induction h with
  | start => exact ⟨fun _ _ _ hNames => (nomatch hNames), nofun, nofun⟩
  | step _ hStep hAgrees ih => exact ih.step hStep hAgrees

/-- Calls run what their callers named; a call of a served hold that arrives runs its
name or is answered by an error, unless its arguments are malformed; and malformed
arguments are the only protocol error of a call. -/
structure Faithful (limit : Nat) (w : World) : Prop where
  runs : ∀ run ∈ w.provider.runs, run.2 = run.1.name
  errors : ∀ error ∈ w.provider.errors, error = .malformed
  arrives : ∀ id call rest arguments state, w.consumer.wire = .call id call :: rest → w.provider.isOpen = true →
    w.provider.entries.lookup call.hold = some state → state ≠ .relayed → arguments ≠ .malformed →
      w.provider.receive limit arguments (.call id call) =
          { w.provider.admitCall id call with runs := w.provider.runs ++ [(call, call.name)] } ∨
        w.provider.receive limit arguments (.call id call) = w.provider.send (.reply id)

theorem agrees_of_matching (after : World)
    (hNames : ∀ entry ∈ w.consumer.entries, entry.2.live = true → w.provider.names entry.1 = none ∨
      w.provider.names entry.1 = entry.2.names)
    (hBinds : (w.consumer.waiting = [] ∧ w.consumer.wire = []) ∨
      ∀ entry ∈ w.provider.entries, ∀ previous, entry.2 ≠ .binding previous) : Agrees w after := by
  refine ⟨fun hold name names bound _ hLookup hName hBound => ?_, fun hold previous names hState _ call hOut _ => ?_⟩
  · have hSame : bound = names := by
      rcases hNames _ (mem_of_lookup hLookup) rfl with hNone | hSome
      · exact nomatch hNone.symm.trans hBound
      · exact Option.some.inj (hBound.symm.trans hSome)
    rw [hSame, getElem?_idxOf hName]
  · rcases hBinds with ⟨hWaiting, hWire⟩ | hBound
    · rcases hOut with hWaits | ⟨id, hSent⟩
      · exact absurd (hWaiting ▸ hWaits) not_mem_nil
      · exact absurd (hWire ▸ hSent) not_mem_nil
    · exact absurd rfl (hBound _ (mem_of_lookup hState) previous)

end OctoberHarness.Remote
