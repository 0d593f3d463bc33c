import OctoberHarness.Tools.FileMutationQueue

/-! Where the file of a call cannot take two keys, calls on one file run one after the
other, in the order they were made. -/
namespace OctoberHarness.Tools

open List Function Option OrderedMap

variable {fs : FileSystem}

namespace FileSystem

theorem locate_of_walk {nodes : Path → Option Node} {fuel : Nat} {path target : Path} {names : List JsString}
    (h : fs.walk nodes fuel path names = .ok target) : fs.locate fuel path names = some target := by
  induction fuel generalizing path names with
  | zero =>
    cases names with
    | nil =>
      cases h
      rfl
    | cons name rest => exact nomatch h
  | succ fuel ih =>
    cases names with
    | nil =>
      cases h
      rfl
    | cons name rest =>
      rw [walk] at h
      rw [locate]
      by_cases hStays : stays name = true
      · rw [if_pos hStays] at h ⊢
        exact ih h
      · rw [if_neg hStays] at h ⊢
        by_cases hParent : name = js ".."
        · rw [if_pos hParent] at h ⊢
          exact ih h
        · rw [if_neg hParent] at h ⊢
          cases hLink : fs.links (path ++ [name]) with
          | some link =>
            rw [hLink] at h
            exact ih h
          | none =>
            rw [hLink] at h
            dsimp only at h ⊢
            cases hNode : nodes (path ++ [name]) with
            | none =>
              rw [hNode] at h
              exact nomatch h
            | some node =>
              rw [hNode] at h
              cases node with
              | directory => exact ih h
              | file =>
                dsimp only at h
                split_ifs at h with hLast
                cases h
                rw [hLast]
                cases fuel <;> rfl

/-- What a key says of its file. -/
def Names (fs : FileSystem) (path key : Path) (existed : Bool) : Prop :=
  if existed then fs.fileOf path = some key else key = path

theorem getMutationQueueKey_names {nodes : Path → Option Node} {denied : Bool} {path key : Path} {existed : Bool}
    (h : fs.getMutationQueueKey nodes denied path = some (key, existed)) : fs.Names path key existed := by
  rw [getMutationQueueKey] at h
  split at h
  next target hPath =>
    cases h
    rw [realpath] at hPath
    split_ifs at hPath
    exact locate_of_walk hPath
  next =>
    cases h
    rfl
  next => exact nomatch h

end FileSystem

/-! What a state says of its calls. -/

namespace Call

/-- The key a call took, and whether its file existed then. -/
def taken (call : Call) : Option (Path × Bool) :=
  match call.phase with
  | .keyed key existed => some (key, existed)
  | .queued ticket | .running ticket | .done ticket => some (ticket.key, ticket.existed)
  | _ => none

def started (call : Call) : Bool :=
  match call.phase with
  | .running _ | .done _ => true
  | _ => false

end Call

namespace State

def path (s : State) (index : Nat) : Option Path :=
  s.calls[index]?.map Call.path

def taken (s : State) (index : Nat) : Option (Path × Bool) :=
  s.calls[index]?.bind Call.taken

def ticket (s : State) (index : Nat) : Option Ticket :=
  s.calls[index]?.bind Call.ticket

def registered (s : State) (index : Nat) : Bool :=
  s.calls[index]?.any Call.registered

def started (s : State) (index : Nat) : Bool :=
  s.calls[index]?.any Call.started

def finished (s : State) (index : Nat) : Bool :=
  s.calls[index]?.any Call.finished

end State

/-- Registrations go one after the other, and calls on one file that are not over have the
same key. -/
structure Named (fs : FileSystem) (path : Nat → Option Path) (taken : Nat → Option (Path × Bool))
    (registered finished : Nat → Bool) : Prop where
  turns : ∀ i j, i < j → (taken j).isSome ∨ registered j = true → registered i = true
  keys : ∀ i own key existed, path i = some own → taken i = some (key, existed) → fs.Names own key existed
  agree : ∀ i j first second file key other, i < j → path i = some first → path j = some second →
    fs.fileOf first = some file → fs.fileOf second = some file → (taken i).map Prod.fst = some key →
      (taken j).map Prod.fst = some other → finished i = true ∨ key = other

/-- Calls of one key are lined up one behind the other. -/
structure Lined (ticket : Nat → Option Ticket) (started finished : Nat → Bool) (queues : List (Path × Nat)) : Prop where
  behind : ∀ i j first second, i < j → ticket i = some first → ticket j = some second → first.key = second.key →
    finished i = true ∨ ∃ before, second.behind = some before ∧ i ≤ before
  chain : ∀ j own before, ticket j = some own → own.behind = some before →
    before < j ∧ ∃ other, ticket before = some other ∧ other.key = own.key
  ordered : ∀ i j first second, i < j → ticket i = some first → ticket j = some second → first.key = second.key →
    started j = true → finished i = true
  last : ∀ key index, queues.lookup key = some index →
    (∃ own, ticket index = some own ∧ own.key = key) ∧ finished index = false ∧
      ∀ i other, ticket i = some other → other.key = key → i ≤ index
  idle : ∀ key, queues.lookup key = none → ∀ i own, ticket i = some own → own.key = key → finished i = true

theorem lined_nil (started finished : Nat → Bool) : Lined (fun _ => none) started finished [] where
  behind _ _ _ _ _ hNone := nomatch hNone
  chain _ _ _ hNone := nomatch hNone
  ordered _ _ _ _ _ hNone := nomatch hNone
  last _ _ hNone := nomatch hNone
  idle _ _ _ _ hNone := nomatch hNone

section Lined

variable {ticket : Nat → Option Ticket} {started finished : Nat → Bool} {queues : List (Path × Nat)}

variable {index : Nat}

/-- A call joins the queue of its key, behind the last one. -/
theorem Lined.register (h : Lined ticket started finished queues) (key : Path) (existed : Bool)
    (hLater : ∀ i own, ticket i = some own → i < index) (hStarted : started index = false) (hFinished : finished index = false) :
    Lined (update ticket index (some ⟨key, existed, queues.lookup key⟩)) started finished
      (OrderedMap.set queues key index) where
  behind i j first second hLt hFirst hSecond hKey := by
    rcases eq_or_ne j index with rfl | hJ
    · rw [update_self] at hSecond
      rw [update_of_ne (Nat.ne_of_lt hLt)] at hFirst
      cases hSecond
      cases hLast : queues.lookup key with
      | none => exact .inl (h.idle key hLast i first hFirst hKey)
      | some before => exact .inr ⟨before, rfl, (h.last key before hLast).2.2 i first hFirst hKey⟩
    · rw [update_of_ne hJ] at hSecond
      have hI : i ≠ index := fun hSame => absurd (hLater j second hSecond) (by omega)
      rw [update_of_ne hI] at hFirst
      exact h.behind i j first second hLt hFirst hSecond hKey
  chain j own before hOwn hBefore := by
    rcases eq_or_ne j index with rfl | hJ
    · rw [update_self] at hOwn
      cases hOwn
      obtain ⟨⟨other, hOther, hKey⟩, -⟩ := h.last key before hBefore
      have hLt := hLater before other hOther
      exact ⟨hLt, other, by rw [update_of_ne (Nat.ne_of_lt hLt)]; exact hOther, hKey⟩
    · rw [update_of_ne hJ] at hOwn
      obtain ⟨hLt, other, hOther, hKey⟩ := h.chain j own before hOwn hBefore
      refine ⟨hLt, other, ?_, hKey⟩
      rw [update_of_ne (Nat.ne_of_lt (hLater before other hOther))]
      exact hOther
  ordered i j first second hLt hFirst hSecond hKey hStart := by
    rcases eq_or_ne j index with rfl | hJ
    · exact nomatch hStarted.symm.trans hStart
    · rw [update_of_ne hJ] at hSecond
      have hI : i ≠ index := fun hSame => absurd (hLater j second hSecond) (by omega)
      rw [update_of_ne hI] at hFirst
      exact h.ordered i j first second hLt hFirst hSecond hKey hStart
  last other place hPlace := by
    rw [lookup_set] at hPlace
    split_ifs at hPlace with hSame
    · cases hPlace
      refine ⟨⟨_, update_self .., hSame.symm⟩, hFinished, ?_⟩
      intro i own hOwn _
      rcases eq_or_ne i index with rfl | hI
      · exact Nat.le_refl _
      · rw [update_of_ne hI] at hOwn
        exact Nat.le_of_lt (hLater i own hOwn)
    · obtain ⟨⟨own, hOwn, hKey⟩, hOpen, hLast⟩ := h.last other place hPlace
      refine ⟨⟨own, ?_, hKey⟩, hOpen, ?_⟩
      · rw [update_of_ne (Nat.ne_of_lt (hLater place own hOwn))]
        exact hOwn
      · intro i another hAnother hKeyToo
        rcases eq_or_ne i index with rfl | hI
        · rw [update_self] at hAnother
          cases hAnother
          exact absurd hKeyToo.symm hSame
        · rw [update_of_ne hI] at hAnother
          exact hLast i another hAnother hKeyToo
  idle other hNone i own hOwn hKey := by
    rw [lookup_set] at hNone
    split_ifs at hNone with hSame
    rcases eq_or_ne i index with rfl | hI
    · rw [update_self] at hOwn
      cases hOwn
      exact absurd hKey.symm hSame
    · rw [update_of_ne hI] at hOwn
      exact h.idle other hNone i own hOwn hKey

theorem Lined.start (h : Lined ticket started finished queues) {own : Ticket} (hOwn : ticket index = some own)
    (hBefore : ∀ i other, i < index → ticket i = some other → other.key = own.key → finished i = true) :
    Lined ticket (update started index true) finished queues where
  behind := h.behind
  chain := h.chain
  ordered i j first second hLt hFirst hSecond hKey hStart := by
    rcases eq_or_ne j index with rfl | hJ
    · obtain rfl := some.inj (hOwn.symm.trans hSecond)
      exact hBefore i first hLt hFirst hKey
    · rw [update_of_ne hJ] at hStart
      exact h.ordered i j first second hLt hFirst hSecond hKey hStart
  last := h.last
  idle := h.idle

/-- A call that is over leaves no entry of its own. -/
theorem Lined.finish (h : Lined ticket started finished queues) {own : Ticket} (hOwn : ticket index = some own)
    (hStarted : started index = true) :
    Lined ticket started (update finished index true)
      (if queues.lookup own.key = some index then erase queues own.key else queues) := by
  have hKept : ∀ i, finished i = true → update finished index true i = true := by
    intro i hFinished
    rcases eq_or_ne i index with rfl | hI
    · exact update_self ..
    · rw [update_of_ne hI]
      exact hFinished
  have hSub : ∀ key place, (if queues.lookup own.key = some index then erase queues own.key else queues).lookup key =
      some place → queues.lookup key = some place ∧ place ≠ index := by
    intro key place hPlace
    have hOld : queues.lookup key = some place ∧ (queues.lookup own.key = some index → key ≠ own.key) := by
      split_ifs at hPlace with hLast
      · rw [lookup_erase] at hPlace
        split_ifs at hPlace with hSame
        exact ⟨hPlace, fun _ => hSame⟩
      · exact ⟨hPlace, fun hYes => absurd hYes hLast⟩
    refine ⟨hOld.1, ?_⟩
    rintro rfl
    obtain ⟨⟨other, hOther, hKey⟩, -⟩ := h.last key place hOld.1
    obtain rfl := some.inj (hOwn.symm.trans hOther)
    exact hOld.2 (hKey ▸ hOld.1) hKey.symm
  exact {
    behind := fun i j first second hLt hFirst hSecond hKey => (h.behind i j first second hLt hFirst hSecond hKey).imp (hKept i) id
    chain := h.chain
    ordered := fun i j first second hLt hFirst hSecond hKey hStart => hKept i (h.ordered i j first second hLt hFirst hSecond hKey hStart)
    last := by
      intro key place hPlace
      obtain ⟨hOld, hNe⟩ := hSub key place hPlace
      obtain ⟨hTicket, hOpen, hLast⟩ := h.last key place hOld
      refine ⟨hTicket, ?_, hLast⟩
      rw [update_of_ne hNe]
      exact hOpen
    idle := by
      intro key hNone i other hOther hKey
      by_cases hWas : queues.lookup key = none
      · exact hKept i (h.idle key hWas i other hOther hKey)
      · -- Only the call's own entry went.
        have hErased : queues.lookup own.key = some index ∧ key = own.key := by
          split_ifs at hNone with hLast
          · rw [lookup_erase] at hNone
            split_ifs at hNone with hSame
            · exact ⟨hLast, hSame⟩
            · exact absurd hNone hWas
          · exact absurd hNone hWas
        obtain ⟨hLast, rfl⟩ := hErased
        rcases Nat.lt_or_eq_of_le ((h.last _ _ hLast).2.2 i other hOther hKey) with hLt | rfl
        · exact hKept i (h.ordered i index other own hLt hOther hOwn hKey hStarted)
        · exact update_self .. }

end Lined

section Named

variable {path : Nat → Option Path} {taken : Nat → Option (Path × Bool)} {registered finished : Nat → Bool}

theorem named_nil (finished : Nat → Bool) : Named fs (fun _ => none) (fun _ => none) (fun _ => false) finished where
  turns _ _ _ hNone := hNone.elim (fun hTaken => nomatch hTaken) fun hRegistered => nomatch hRegistered
  keys _ _ _ _ hNone := nomatch hNone
  agree _ _ _ _ _ _ _ _ hNone := nomatch hNone

/-- No key changes, and a registration comes after the earlier ones. -/
theorem Named.mono (h : Named fs path taken registered finished) {path' : Nat → Option Path} {registered' finished' : Nat → Bool}
    (hPath : ∀ i, (taken i).isSome → path' i = path i) (hRegistered : ∀ i, registered i = true → registered' i = true)
    (hNew : ∀ j, registered' j = true → registered j = true ∨ ∀ i < j, registered i = true)
    (hFinished : ∀ i, finished i = true → finished' i = true) : Named fs path' taken registered' finished' where
  turns i j hLt hJ := by
    apply hRegistered
    rcases hJ with hTaken | hDone
    · exact h.turns i j hLt (.inl hTaken)
    · rcases hNew j hDone with hOld | hAll
      · exact h.turns i j hLt (.inr hOld)
      · exact hAll i hLt
  keys i own key existed hOwn hTaken := by
    rw [hPath i (by rw [hTaken]; rfl)] at hOwn
    exact h.keys i own key existed hOwn hTaken
  agree i j first second file key other hLt hFirst hSecond hFile hFileToo hKey hOther := by
    have hI : (taken i).isSome := by
      cases hTaken : taken i with
      | none =>
        rw [hTaken] at hKey
        exact nomatch hKey
      | some value => rfl
    have hJ : (taken j).isSome := by
      cases hTaken : taken j with
      | none =>
        rw [hTaken] at hOther
        exact nomatch hOther
      | some value => rfl
    rw [hPath i hI] at hFirst
    rw [hPath j hJ] at hSecond
    exact (h.agree i j first second file key other hLt hFirst hSecond hFile hFileToo hKey hOther).imp (hFinished i) id

/-- A call takes its key when the calls before it are registered. -/
theorem Named.lookup (h : Named fs path taken registered finished) {index : Nat} {own key : Path} {existed : Bool}
    (hTurn : ∀ i < index, registered i = true) (hOpen : registered index = false) (hOwn : path index = some own)
    (hNames : fs.Names own key existed)
    (hAgree : ∀ i first file other, i < index → path i = some first → fs.fileOf first = some file → fs.fileOf own = some file →
      (taken i).map Prod.fst = some other → finished i = true ∨ other = key) :
    Named fs path (update taken index (some (key, existed))) registered finished where
  turns i j hLt hJ := by
    rcases eq_or_ne j index with rfl | hNe
    · exact hTurn i hLt
    · rw [update_of_ne hNe] at hJ
      exact h.turns i j hLt hJ
  keys i other own' existed' hPath hTaken := by
    rcases eq_or_ne i index with rfl | hNe
    · rw [update_self] at hTaken
      cases hTaken
      obtain rfl := some.inj (hOwn.symm.trans hPath)
      exact hNames
    · rw [update_of_ne hNe] at hTaken
      exact h.keys i other own' existed' hPath hTaken
  agree i j first second file one two hLt hFirst hSecond hFile hFileToo hOne hTwo := by
    rcases eq_or_ne j index with rfl | hJ
    · rw [update_self] at hTwo
      rw [update_of_ne (Nat.ne_of_lt hLt)] at hOne
      cases hTwo
      obtain rfl := some.inj (hOwn.symm.trans hSecond)
      exact hAgree i first file one hLt hFirst hFile hFileToo hOne
    · rw [update_of_ne hJ] at hTwo
      have hJTaken : (taken j).isSome := by
        cases hTaken : taken j with
        | none =>
          rw [hTaken] at hTwo
          exact nomatch hTwo
        | some value => rfl
      have hI : i ≠ index := by
        rintro rfl
        exact nomatch hOpen.symm.trans (h.turns i j hLt (.inl hJTaken))
      rw [update_of_ne hI] at hOne
      exact h.agree i j first second file one two hLt hFirst hSecond hFile hFileToo hOne hTwo

end Named

structure Inv (fs : FileSystem) (s : State) : Prop where
  named : Named fs s.path s.taken s.registered s.finished
  lined : Lined s.ticket s.started s.finished s.fileMutationQueues

theorem inv_initial (nodes : Path → Option Node) : Inv fs (initial nodes) :=
  ⟨named_nil _, lined_nil _ _⟩

section Views

variable {s : State} {index : Nat} {call : Call}

theorem getElem?_setPhase (h : s.calls[index]? = some call) (phase : Phase) (i : Nat) :
    (s.setPhase index call phase).calls[i]? = if i = index then some { call with phase } else s.calls[i]? := by
  have hBound : index < s.calls.length := (List.getElem?_eq_some_iff.mp h).1
  show (s.calls.set index _)[i]? = _
  rw [List.getElem?_set]
  by_cases hSame : i = index
  · rw [if_pos hSame.symm, if_pos hSame, if_pos hBound]
  · rw [if_neg (Ne.symm hSame), if_neg hSame]

theorem path_setPhase (h : s.calls[index]? = some call) (phase : Phase) : (s.setPhase index call phase).path = s.path := by
  funext i
  rw [State.path, getElem?_setPhase h]
  split_ifs with hSame
  · rw [hSame, State.path, h]
    rfl
  · rfl

theorem bind_setPhase {β : Type} (view : Call → Option β) (h : s.calls[index]? = some call) (phase : Phase) :
    (fun i : Nat => (s.setPhase index call phase).calls[i]?.bind view) =
      update (fun i : Nat => s.calls[i]?.bind view) index (view { call with phase }) := by
  funext i
  rw [getElem?_setPhase h]
  rcases eq_or_ne i index with rfl | hNe
  · rw [if_pos rfl, update_self]
    rfl
  · rw [if_neg hNe, update_of_ne hNe]

theorem any_setPhase (view : Call → Bool) (h : s.calls[index]? = some call) (phase : Phase) :
    (fun i : Nat => (s.setPhase index call phase).calls[i]?.any view) =
      update (fun i : Nat => s.calls[i]?.any view) index (view { call with phase }) := by
  funext i
  rw [getElem?_setPhase h]
  rcases eq_or_ne i index with rfl | hNe
  · rw [if_pos rfl, update_self]
    rfl
  · rw [if_neg hNe, update_of_ne hNe]

section

variable (h : s.calls[index]? = some call)

include h

variable (phase : Phase)

theorem taken_setPhase :
    (s.setPhase index call phase).taken = update s.taken index (Call.taken { call with phase }) :=
  bind_setPhase Call.taken h phase

theorem ticket_setPhase :
    (s.setPhase index call phase).ticket = update s.ticket index (Call.ticket { call with phase }) :=
  bind_setPhase Call.ticket h phase

theorem registered_setPhase :
    (s.setPhase index call phase).registered = update s.registered index (Call.registered { call with phase }) :=
  any_setPhase Call.registered h phase

theorem started_setPhase :
    (s.setPhase index call phase).started = update s.started index (Call.started { call with phase }) :=
  any_setPhase Call.started h phase

theorem finished_setPhase :
    (s.setPhase index call phase).finished = update s.finished index (Call.finished { call with phase }) :=
  any_setPhase Call.finished h phase

/-! Where the call says the same as before, nothing changes. -/

theorem taken_at : s.taken index = call.taken := by
  rw [State.taken, h]
  rfl

theorem ticket_at : s.ticket index = call.ticket := by
  rw [State.ticket, h]
  rfl

theorem registered_at : s.registered index = call.registered := by
  rw [State.registered, h]
  rfl

theorem started_at : s.started index = call.started := by
  rw [State.started, h]
  rfl

theorem finished_at : s.finished index = call.finished := by
  rw [State.finished, h]
  rfl

theorem taken_setPhase_same (hSame : call.taken = Call.taken { call with phase }) :
    (s.setPhase index call phase).taken = s.taken := by
  rw [taken_setPhase h, ← hSame, ← taken_at h, update_eq_self]

theorem ticket_setPhase_same (hSame : call.ticket = Call.ticket { call with phase }) :
    (s.setPhase index call phase).ticket = s.ticket := by
  rw [ticket_setPhase h, ← hSame, ← ticket_at h, update_eq_self]

theorem registered_setPhase_same
    (hSame : call.registered = Call.registered { call with phase }) : (s.setPhase index call phase).registered = s.registered := by
  rw [registered_setPhase h, ← hSame, ← registered_at h, update_eq_self]

theorem started_setPhase_same
    (hSame : call.started = Call.started { call with phase }) : (s.setPhase index call phase).started = s.started := by
  rw [started_setPhase h, ← hSame, ← started_at h, update_eq_self]

theorem finished_setPhase_same
    (hSame : call.finished = Call.finished { call with phase }) : (s.setPhase index call phase).finished = s.finished := by
  rw [finished_setPhase h, ← hSame, ← finished_at h, update_eq_self]

end

end Views

theorem mono_update {finished : Nat → Bool} (index : Nat) (i : Nat) (h : finished i = true) :
    update finished index true i = true := by
  rcases eq_or_ne i index with rfl | hNe
  · exact update_self ..
  · rw [update_of_ne hNe]
    exact h

variable {index : Nat} {s next : State} {denied existed : Bool} {file : Path}

theorem Inv.turn (h : Inv fs s) (hTurn : s.atTurn index = true) : ∀ i < index, s.registered i = true := by
  intro i hLt
  rw [State.atTurn, Bool.or_eq_true, decide_eq_true_eq] at hTurn
  rcases hTurn with rfl | hLast
  · exact absurd hLt (Nat.not_lt_zero i)
  · rcases Nat.lt_or_eq_of_le (Nat.le_sub_one_of_lt hLt) with hEarlier | rfl
    · exact h.named.turns i (index - 1) hEarlier (.inr hLast)
    · exact hLast

theorem inv_call (h : Inv fs s) (path : Path) : Inv fs { s with calls := s.calls ++ [⟨path, .waiting⟩] } := by
  have hAt : ∀ i : Nat, (s.calls ++ [⟨path, .waiting⟩])[i]? = if i = s.calls.length then some ⟨path, .waiting⟩ else s.calls[i]? := by
    intro i
    rcases Nat.lt_trichotomy i s.calls.length with hLt | rfl | hGt
    · rw [if_neg (Nat.ne_of_lt hLt), List.getElem?_append_left hLt]
    · rw [if_pos rfl, List.getElem?_concat_length]
    · rw [if_neg (Nat.ne_of_gt hGt), List.getElem?_eq_none (by rw [length_append]; exact hGt),
        List.getElem?_eq_none (Nat.le_of_lt hGt)]
  have hBind : ∀ {β : Type} (view : Call → Option β), view ⟨path, .waiting⟩ = none →
      (fun i : Nat => (s.calls ++ [⟨path, .waiting⟩])[i]?.bind view) = fun i : Nat => s.calls[i]?.bind view := by
    intro β view hNone
    funext i
    rw [hAt]
    split_ifs with hNew
    · rw [hNew, List.getElem?_eq_none (Nat.le_refl _)]
      exact hNone
    · rfl
  have hAny : ∀ view : Call → Bool, view ⟨path, .waiting⟩ = false →
      (fun i : Nat => (s.calls ++ [⟨path, .waiting⟩])[i]?.any view) = fun i : Nat => s.calls[i]?.any view := by
    intro view hFalse
    funext i
    rw [hAt]
    split_ifs with hNew
    · rw [hNew, List.getElem?_eq_none (Nat.le_refl _)]
      exact hFalse
    · rfl
  have hTaken : State.taken { s with calls := s.calls ++ [⟨path, .waiting⟩] } = s.taken := hBind Call.taken rfl
  have hTicket : State.ticket { s with calls := s.calls ++ [⟨path, .waiting⟩] } = s.ticket := hBind Call.ticket rfl
  have hRegistered : State.registered { s with calls := s.calls ++ [⟨path, .waiting⟩] } = s.registered := hAny Call.registered rfl
  have hStarted : State.started { s with calls := s.calls ++ [⟨path, .waiting⟩] } = s.started := hAny Call.started rfl
  have hFinished : State.finished { s with calls := s.calls ++ [⟨path, .waiting⟩] } = s.finished := hAny Call.finished rfl
  constructor
  · rw [hTaken, hRegistered, hFinished]
    refine h.named.mono ?_ (fun _ hYes => hYes) (fun _ hYes => .inl hYes) (fun _ hYes => hYes)
    intro i hSome
    show Option.map _ _ = Option.map _ _
    rw [hAt, if_neg]
    rintro rfl
    rw [State.taken, List.getElem?_eq_none (Nat.le_refl _)] at hSome
    exact nomatch hSome
  · rw [hTicket, hStarted, hFinished]
    exact h.lined

/-- What a lookup needs for the calls on its file to keep one key. -/
def Steady (fs : FileSystem) (s : State) (path : Path) : Prop :=
  ∀ call ∈ s.calls, ∀ key existed file, call.taken = some (key, existed) → call.finished = false →
    fs.fileOf call.path = some file → fs.fileOf path = some file →
      ((existed = true ∨ call.path = file) ∧ (fs.hasFile s.nodes path = true ∨ path = file)) ∨
        (existed = false ∧ fs.hasFile s.nodes path = false ∧ call.path = path)

theorem hasFile_of_key {nodes : Path → Option Node} {path key : Path}
    (h : fs.getMutationQueueKey nodes denied path = some (key, existed)) : fs.hasFile nodes path = existed := by
  rw [FileSystem.getMutationQueueKey, FileSystem.realpath] at h
  rw [FileSystem.hasFile, FileSystem.realpath, if_neg Bool.false_ne_true]
  split_ifs at h with hDenied
  cases hWalk : fs.walk nodes fs.limit [] path with
  | ok target =>
    rw [hWalk] at h
    cases h
    rfl
  | error error =>
    rw [hWalk] at h
    cases error with
    | missing =>
      cases h
      rfl
    | other => exact nomatch h

theorem key_of_steady {first second one two : Path} {exists' : Bool} (hOne : fs.Names first one existed)
    (hTwo : fs.Names second two exists') (hFirst : fs.fileOf first = some file) (hSecond : fs.fileOf second = some file)
    (h : ((existed = true ∨ first = file) ∧ (exists' = true ∨ second = file)) ∨
      (existed = false ∧ exists' = false ∧ first = second)) : one = two := by
  have hOwn : ∀ {path key : Path} {known : Bool}, fs.Names path key known → fs.fileOf path = some file →
      known = true ∨ path = file → key = file := by
    intro path key known hNames hFile hCase
    rw [FileSystem.Names] at hNames
    split_ifs at hNames with hKnown
    · exact some.inj (hNames.symm.trans hFile)
    · rw [hNames]
      exact hCase.resolve_left hKnown
  rcases h with ⟨hLeft, hRight⟩ | ⟨rfl, rfl, rfl⟩
  · rw [hOwn hOne hFirst hLeft, hOwn hTwo hSecond hRight]
  · exact Eq.trans hOne (Eq.symm hTwo)

theorem lookup_agrees (h : Inv fs s) {path key : Path} (hSteady : Steady fs s path)
    (hKey : fs.getMutationQueueKey s.nodes denied path = some (key, existed)) {i : Nat} {first other : Path}
    (hFirst : s.path i = some first) (hFile : fs.fileOf first = some file) (hFileToo : fs.fileOf path = some file)
    (hOther : (s.taken i).map Prod.fst = some other) : s.finished i = true ∨ other = key := by
  obtain ⟨earlier, hAt, rfl⟩ := map_eq_some_iff.mp hFirst
  obtain ⟨⟨own, existed'⟩, hTaken, rfl⟩ := map_eq_some_iff.mp hOther
  cases hFinished : s.finished i with
  | true => exact .inl rfl
  | false =>
    right
    have hAgree := hSteady earlier (mem_of_getElem? hAt) own existed' file ((taken_at hAt).symm.trans hTaken)
      ((finished_at hAt).symm.trans hFinished) hFile hFileToo
    rw [hasFile_of_key hKey] at hAgree
    exact key_of_steady (h.named.keys i _ _ _ hFirst hTaken) (FileSystem.getMutationQueueKey_names hKey) hFile hFileToo hAgree

theorem inv_lookup (h : Inv fs s)
    (hSteady : ∀ call, s.calls[index]? = some call → Steady fs s call.path) (hStep : s.lookup fs index denied = some next) :
    Inv fs next := by
  rw [State.lookup] at hStep
  cases hCall : s.calls[index]? with
  | none =>
    rw [hCall] at hStep
    exact nomatch hStep
  | some call =>
    obtain ⟨path, phase⟩ := call
    rw [hCall] at hStep
    cases phase with
    | waiting =>
      dsimp only at hStep
      split_ifs at hStep with hTurn
      cases hKey : fs.getMutationQueueKey s.nodes denied path with
      | none =>
        rw [hKey] at hStep
        cases hStep
        constructor
        · rw [path_setPhase hCall, taken_setPhase_same hCall .failed rfl, finished_setPhase_same hCall .failed rfl, registered_setPhase hCall]
          refine h.named.mono (fun _ _ => rfl) (mono_update index) ?_ fun _ hYes => hYes
          intro j hJ
          rcases eq_or_ne j index with rfl | hNe
          · exact .inr (h.turn hTurn)
          · rw [update_of_ne hNe] at hJ
            exact .inl hJ
        · rw [ticket_setPhase_same hCall .failed rfl, started_setPhase_same hCall .failed rfl, finished_setPhase_same hCall .failed rfl]
          exact h.lined
      | some value =>
        obtain ⟨key, existed⟩ := value
        rw [hKey] at hStep
        cases hStep
        constructor
        · rw [path_setPhase hCall, taken_setPhase hCall, finished_setPhase_same hCall (.keyed key existed) rfl, registered_setPhase_same hCall (.keyed key existed) rfl]
          have hOwn : s.path index = some path := by
            rw [State.path, hCall]
            rfl
          apply h.named.lookup (h.turn hTurn) (registered_at hCall) hOwn (FileSystem.getMutationQueueKey_names hKey)
          intro i first file other _ hFirst hFile hFileToo hOther
          exact lookup_agrees h (hSteady _ hCall) hKey hFirst hFile hFileToo hOther
        · rw [ticket_setPhase_same hCall (.keyed key existed) rfl, started_setPhase_same hCall (.keyed key existed) rfl, finished_setPhase_same hCall (.keyed key existed) rfl]
          exact h.lined
    | _ => exact nomatch hStep

theorem Inv.later (h : Inv fs s) (hOpen : s.registered index = false) (hTicket : s.ticket index = none) :
    ∀ i own, s.ticket i = some own → i < index := by
  intro i own hOwn
  rcases Nat.lt_trichotomy i index with hLt | rfl | hGt
  · exact hLt
  · exact nomatch hTicket.symm.trans hOwn
  · have hRegistered : s.registered i = true := by
      obtain ⟨call, hAt, hCall⟩ := bind_eq_some_iff.mp hOwn
      rw [registered_at hAt]
      obtain ⟨path, phase⟩ := call
      cases phase with
      | waiting => exact nomatch hCall
      | keyed key existed => exact nomatch hCall
      | failed => exact nomatch hCall
      | _ => rfl
    exact nomatch hOpen.symm.trans (h.named.turns index i hGt (.inr hRegistered))

theorem inv_register (h : Inv fs s) (hStep : s.register index = some next) : Inv fs next := by
  rw [State.register] at hStep
  cases hCall : s.calls[index]? with
  | none =>
    rw [hCall] at hStep
    exact nomatch hStep
  | some call =>
    obtain ⟨path, phase⟩ := call
    rw [hCall] at hStep
    cases phase with
    | keyed key existed =>
      cases hStep
      generalize hQueued : Phase.queued ⟨key, existed, s.fileMutationQueues.lookup key⟩ = queued
      constructor
      · show Named fs (s.setPhase index ⟨path, .keyed key existed⟩ queued).path (s.setPhase index _ queued).taken
          (s.setPhase index _ queued).registered (s.setPhase index _ queued).finished
        subst hQueued
        rw [path_setPhase hCall, taken_setPhase_same hCall (.queued _) rfl, finished_setPhase_same hCall (.queued _) rfl, registered_setPhase hCall]
        refine h.named.mono (fun _ _ => rfl) (mono_update index) ?_ fun _ hYes => hYes
        intro j hJ
        rcases eq_or_ne j index with rfl | hNe
        · right
          intro i hLt
          apply h.named.turns i j hLt
          left
          rw [taken_at hCall]
          rfl
        · rw [update_of_ne hNe] at hJ
          exact .inl hJ
      · show Lined (s.setPhase index ⟨path, .keyed key existed⟩ queued).ticket (s.setPhase index _ queued).started
          (s.setPhase index _ queued).finished (OrderedMap.set s.fileMutationQueues key index)
        subst hQueued
        rw [ticket_setPhase hCall, started_setPhase_same hCall (.queued _) rfl, finished_setPhase_same hCall (.queued _) rfl]
        exact h.lined.register key existed (h.later (registered_at hCall) (ticket_at hCall)) (started_at hCall) (finished_at hCall)
    | _ => exact nomatch hStep

theorem settled_over (h : Lined s.ticket s.started s.finished s.fileMutationQueues) {fuel : Nat}
    (hSettled : chainSettled s.calls fuel index = true) {own : Ticket} (hOwn : s.ticket index = some own) :
    ∀ i other, i ≤ index → s.ticket i = some other → other.key = own.key → s.finished i = true := by
  induction fuel generalizing index own with
  | zero => exact nomatch hSettled
  | succ fuel ih =>
    rw [chainSettled] at hSettled
    split at hSettled
    next path ticket hAt =>
      obtain rfl : ticket = own := some.inj ((ticket_at hAt).symm.trans hOwn)
      intro i other hLe hOther hKey
      rcases Nat.lt_or_eq_of_le hLe with hLt | rfl
      · rcases h.behind i index other ticket hLt hOther hOwn hKey with hOver | ⟨before, hBefore, hNot⟩
        · exact hOver
        · obtain ⟨-, last, hLast, hSame⟩ := h.chain index ticket before hOwn hBefore
          rw [hBefore] at hSettled
          exact ih hSettled hLast i other hNot hOther (hKey.trans hSame.symm)
      · rw [finished_at hAt]
        rfl
    next => exact nomatch hSettled

theorem settled_of_over (h : Lined s.ticket s.started s.finished s.fileMutationQueues) {fuel : Nat}
    (hFuel : index < fuel) {own : Ticket} (hOwn : s.ticket index = some own)
    (hOver : ∀ i other, i ≤ index → s.ticket i = some other → other.key = own.key → s.finished i = true) :
    chainSettled s.calls fuel index = true := by
  induction fuel generalizing index own with
  | zero => exact absurd hFuel (Nat.not_lt_zero _)
  | succ fuel ih =>
    obtain ⟨⟨path, phase⟩, hAt, hTicket⟩ := bind_eq_some_iff.mp hOwn
    have hDone := hOver index own (Nat.le_refl _) hOwn rfl
    rw [finished_at hAt] at hDone
    cases phase with
    | done ticket =>
      obtain rfl := some.inj hTicket
      rw [chainSettled, hAt]
      show ticket.behind.all _ = true
      cases hBehind : ticket.behind with
      | none => rfl
      | some before =>
        obtain ⟨hLt, last, hLast, hSame⟩ := h.chain index ticket before hOwn hBehind
        apply ih (Nat.lt_of_lt_of_le hLt (Nat.le_of_lt_succ hFuel)) hLast
        intro i other hLe hOther hKey
        exact hOver i other (hLe.trans (Nat.le_of_lt hLt)) hOther (hKey.trans hSame)
    | _ => exact nomatch hDone

theorem inv_start (h : Inv fs s) (hStep : s.start index = some next) : Inv fs next := by
  rw [State.start] at hStep
  cases hCall : s.calls[index]? with
  | none =>
    rw [hCall] at hStep
    exact nomatch hStep
  | some call =>
    obtain ⟨path, phase⟩ := call
    rw [hCall] at hStep
    cases phase with
    | queued own =>
      dsimp only at hStep
      split_ifs at hStep with hSettled
      cases hStep
      constructor
      · rw [path_setPhase hCall, taken_setPhase_same hCall (.running own) rfl, registered_setPhase_same hCall (.running own) rfl, finished_setPhase_same hCall (.running own) rfl]
        exact h.named
      · show Lined (s.setPhase index ⟨path, .queued own⟩ (.running own)).ticket (s.setPhase index _ (.running own)).started
          (s.setPhase index _ (.running own)).finished s.fileMutationQueues
        rw [ticket_setPhase_same hCall (.running own) rfl, started_setPhase hCall, finished_setPhase_same hCall (.running own) rfl]
        apply h.lined.start (ticket_at hCall)
        intro i other hLt hOther hKey
        rcases h.lined.behind i index other own hLt hOther (ticket_at hCall) hKey with hOver | ⟨before, hBefore, hLe⟩
        · exact hOver
        · obtain ⟨-, last, hLast, hSame⟩ := h.lined.chain index own before (ticket_at hCall) hBefore
          rw [hBefore] at hSettled
          exact settled_over h.lined hSettled hLast i other hLe hOther (hKey.trans hSame.symm)
    | _ => exact nomatch hStep

theorem inv_finish (h : Inv fs s) (hStep : s.finish index = some next) : Inv fs next := by
  rw [State.finish] at hStep
  cases hCall : s.calls[index]? with
  | none =>
    rw [hCall] at hStep
    exact nomatch hStep
  | some call =>
    obtain ⟨path, phase⟩ := call
    rw [hCall] at hStep
    cases phase with
    | running own =>
      cases hStep
      constructor
      · show Named fs (s.setPhase index ⟨path, .running own⟩ (.done own)).path (s.setPhase index _ (.done own)).taken
          (s.setPhase index _ (.done own)).registered (s.setPhase index _ (.done own)).finished
        rw [path_setPhase hCall, taken_setPhase_same hCall (.done own) rfl, registered_setPhase_same hCall (.done own) rfl, finished_setPhase hCall]
        exact h.named.mono (fun _ _ => rfl) (fun _ hYes => hYes) (fun _ hYes => .inl hYes) (mono_update index)
      · show Lined (s.setPhase index ⟨path, .running own⟩ (.done own)).ticket (s.setPhase index _ (.done own)).started
          (s.setPhase index _ (.done own)).finished _
        rw [ticket_setPhase_same hCall (.done own) rfl, started_setPhase_same hCall (.done own) rfl, finished_setPhase hCall]
        exact h.lined.finish (ticket_at hCall) (started_at hCall)
    | _ => exact nomatch hStep

theorem step_inv {cwd : Path} {action : Action} (h : Inv fs s)
    (hSteady : ∀ index denied, action = .lookup index denied → ∀ call, s.calls[index]? = some call → Steady fs s call.path)
    (hStep : step fs cwd s action = some next) : Inv fs next := by
  cases action with
  | call filePath =>
    cases hStep
    exact inv_call h _
  | lookup index denied => exact inv_lookup h (hSteady index denied rfl) hStep
  | register index => exact inv_register h hStep
  | start index => exact inv_start h hStep
  | finish index threw => exact inv_finish h hStep
  | alter path node =>
    cases hStep
    exact ⟨h.named, h.lined⟩

/-- Runs in which every lookup is steady. -/
inductive Reached (fs : FileSystem) (cwd : Path) (nodes : Path → Option Node) : State → Prop where
  | initial : Reached fs cwd nodes (initial nodes)
  | step {s next : State} {action : Action} (before : Reached fs cwd nodes s)
      (steady : ∀ index denied, action = .lookup index denied → ∀ call, s.calls[index]? = some call → Steady fs s call.path)
      (last : step fs cwd s action = some next) : Reached fs cwd nodes next

/-- Calls on one file exclude each other, keep their order, block no later call, and leave
no entry behind. -/
structure Serialized (fs : FileSystem) (s : State) : Prop where
  exclusive : ∀ (i j : Nat) (first second : Path) (ticket other : Ticket), i ≠ j → s.calls[i]? = some ⟨first, .running ticket⟩ →
    s.calls[j]? = some ⟨second, .running other⟩ → ∀ file, fs.fileOf first = some file → fs.fileOf second ≠ some file
  ordered : ∀ (i j : Nat) (first second : Call) (file : Path), i < j → s.calls[i]? = some first → s.calls[j]? = some second →
    fs.fileOf first.path = some file → fs.fileOf second.path = some file → second.started = true →
      first.finished = true ∨ first.phase = .failed
  unblocked : ∀ (j : Nat) (path : Path) (own : Ticket), s.calls[j]? = some ⟨path, .queued own⟩ →
    (∀ i other, i < j → s.ticket i = some other → other.key = own.key → s.finished i = true) → (s.start j).isSome
  noEntry : ∀ (key : Path) (index : Nat), s.fileMutationQueues.lookup key = some index →
    ∃ path own, own.key = key ∧ (s.calls[index]? = some ⟨path, .queued own⟩ ∨ s.calls[index]? = some ⟨path, .running own⟩)

theorem taken_of_registered {call : Call} (h : call.registered = true) (hRan : call.phase ≠ .failed) :
    ∃ ticket, call.ticket = some ticket ∧ call.taken = some (ticket.key, ticket.existed) := by
  obtain ⟨path, phase⟩ := call
  cases phase with
  | waiting => exact nomatch h
  | keyed key existed => exact nomatch h
  | failed => exact absurd rfl hRan
  | queued ticket => exact ⟨ticket, rfl, rfl⟩
  | running ticket => exact ⟨ticket, rfl, rfl⟩
  | done ticket => exact ⟨ticket, rfl, rfl⟩

theorem registered_of_started {call : Call} (h : call.started = true) : call.registered = true ∧ call.phase ≠ .failed := by
  obtain ⟨path, phase⟩ := call
  cases phase with
  | running ticket => exact ⟨rfl, nofun⟩
  | done ticket => exact ⟨rfl, nofun⟩
  | _ => exact nomatch h

theorem Inv.ordered (h : Inv fs s) {i j : Nat} {first second : Call} (hLt : i < j)
    (hFirst : s.calls[i]? = some first) (hSecond : s.calls[j]? = some second) (hFile : fs.fileOf first.path = some file)
    (hFileToo : fs.fileOf second.path = some file) (hStarted : second.started = true) :
    first.finished = true ∨ first.phase = .failed := by
  by_cases hFailed : first.phase = .failed
  · exact .inr hFailed
  · left
    obtain ⟨hDone, hRan⟩ := registered_of_started hStarted
    obtain ⟨other, hOther, hOtherKey⟩ := taken_of_registered hDone hRan
    have hRegistered : first.registered = true :=
      (registered_at hFirst).symm.trans (h.named.turns i j hLt (.inr ((registered_at hSecond).trans hDone)))
    obtain ⟨own, hOwn, hOwnKey⟩ := taken_of_registered hRegistered hFailed
    rw [← finished_at hFirst]
    have hAgree : s.finished i = true ∨ own.key = other.key := by
      apply h.named.agree i j first.path second.path file own.key other.key hLt _ _ hFile hFileToo
      · rw [taken_at hFirst, hOwnKey]
        rfl
      · rw [taken_at hSecond, hOtherKey]
        rfl
      · rw [State.path, hFirst]
        rfl
      · rw [State.path, hSecond]
        rfl
    rcases hAgree with hOver | hSame
    · exact hOver
    · exact h.lined.ordered i j own other hLt ((ticket_at hFirst).trans hOwn) ((ticket_at hSecond).trans hOther) hSame
        ((started_at hSecond).trans hStarted)

theorem Inv.serialized (h : Inv fs s) : Serialized fs s where
  exclusive i j first second ticket other hNe hFirst hSecond file hFile hFileToo := by
    rcases Nat.lt_or_gt_of_ne hNe with hLt | hGt
    · rcases h.ordered hLt hFirst hSecond hFile hFileToo rfl with hOver | hFailed
      · exact nomatch hOver
      · exact nomatch hFailed
    · rcases h.ordered hGt hSecond hFirst hFileToo hFile rfl with hOver | hFailed
      · exact nomatch hOver
      · exact nomatch hFailed
  ordered i j first second file hLt hFirst hSecond hFile hFileToo hStarted := h.ordered hLt hFirst hSecond hFile hFileToo hStarted
  unblocked j path own hQueued hOver := by
    rw [State.start, hQueued]
    dsimp only
    rw [if_pos]
    · rfl
    · cases hBehind : own.behind with
      | none => rfl
      | some before =>
        obtain ⟨hLt, last, hLast, hSame⟩ := h.lined.chain j own before (ticket_at hQueued) hBehind
        have hBound : j < s.calls.length := (List.getElem?_eq_some_iff.mp hQueued).1
        apply settled_of_over h.lined (hLt.trans hBound) hLast
        intro i other hLe hOther hKey
        exact hOver i other (Nat.lt_of_le_of_lt hLe hLt) hOther (hKey.trans hSame)
  noEntry key index hEntry := by
    obtain ⟨⟨own, hOwn, hKey⟩, hOpen, -⟩ := h.lined.last key index hEntry
    obtain ⟨⟨path, phase⟩, hAt, hTicket⟩ := bind_eq_some_iff.mp hOwn
    rw [finished_at hAt] at hOpen
    cases phase with
    | queued ticket =>
      obtain rfl := some.inj hTicket
      exact ⟨path, ticket, hKey, .inl hAt⟩
    | running ticket =>
      obtain rfl := some.inj hTicket
      exact ⟨path, ticket, hKey, .inr hAt⟩
    | done ticket => exact nomatch hOpen
    | _ => exact nomatch hTicket

/-- Where each lookup is steady, file mutations are serialized by file. -/
theorem mutations_serialized (fs : FileSystem) (cwd : Path) (nodes : Path → Option Node) (s : State)
    (hReached : Reached fs cwd nodes s) : Serialized fs s := by
  have hInv : Inv fs s := by
    induction hReached with
    | initial => exact inv_initial nodes
    | step before steady last ih => exact step_inv ih steady last
  exact hInv.serialized

/-- `/1` is a link to the directory `/2`. -/
def linked : FileSystem where
  links path := if path = [[1]] then some ⟨true, [[2]]⟩ else none
  limit := 8

/-- The directory, with or without the file `/2/3`. -/
def target (file : Option Node) (path : Path) : Option Node :=
  if path = [[2]] then some .directory else if path = [[2], [3]] then file else none

/-- Two calls on a file that exists, by its link and by its own path. -/
theorem mutations_serialized_link : ∃ s, s.calls.length = 2 ∧ Reached linked [] (target (some .file)) s ∧ Serialized linked s := by
  have hFirst := @Reached.step linked [] (target (some .file)) _ _ (.call ⟨true, [[1], [3]]⟩) .initial nofun rfl
  have hSecond := @Reached.step _ _ _ _ _ (.call ⟨true, [[2], [3]]⟩) hFirst nofun rfl
  have hKeyed := @Reached.step _ _ _ _ _ (.lookup 0 false) hSecond (by
    rintro index denied - call - other hMem key existed file hTaken
    rcases mem_pair.mp hMem with rfl | rfl <;> exact nomatch hTaken) rfl
  have hQueued := @Reached.step _ _ _ _ _ (.register 0) hKeyed nofun rfl
  have hRunning := @Reached.step _ _ _ _ _ (.start 0) hQueued nofun rfl
  have hBoth := @Reached.step _ _ _ _ _ (.lookup 1 false) hRunning (by
    rintro index denied hSame call hCall other hMem key existed file hTaken
    cases hSame
    cases hCall
    rcases mem_pair.mp hMem with rfl | rfl
    · cases hTaken
      exact fun _ _ _ => .inl ⟨.inl rfl, .inl rfl⟩
    · exact nomatch hTaken) rfl
  exact ⟨_, rfl, hBoth, mutations_serialized _ _ _ _ hBoth⟩

/-- A file that its first operation creates behind a link: the second call on the same path
runs beside it. -/
theorem created_file_not_serialized :
    ∃ s, Transition.run (step linked []) (initial (target none))
        [.call ⟨true, [[1], [3]]⟩, .lookup 0 false, .register 0, .start 0, .alter [[2], [3]] (some .file),
          .call ⟨true, [[1], [3]]⟩, .lookup 1 false, .register 1, .start 1] = some s ∧ ¬Serialized linked s :=
  ⟨_, rfl, fun h => h.exclusive 0 1 _ _ _ _ (by decide) rfl rfl _ rfl rfl⟩

end OctoberHarness.Tools
